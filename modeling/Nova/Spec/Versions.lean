import Nova.Spec.Alerts

/-!
# What versions tell

The version of an item counts its movements and that of an order its steps, also where
changes race, as long as no stock read overwrites a row. So two reads that show one version
show one row, which is what an optimistic check relies on (`versions_tell`).
-/

namespace Nova

open Machine Reports

/-! ## Rows -/

/-- `i'` is `i`, or a later version of it. -/
def MenuItem.Revised (i i' : MenuItem) : Prop := i' = i ∨ i.version < i'.version

/-- A row may stay as it is. -/
theorem MenuItem.Revised.refl (i : MenuItem) : i.Revised i := Or.inl rfl

/-- Two revisions are one. -/
theorem MenuItem.Revised.trans {i i' i'' : MenuItem} (h : i.Revised i') (h' : i'.Revised i'') :
    i.Revised i'' := by
  obtain rfl | hlt := h
  · exact h'
  obtain rfl | hlt' := h'
  · exact Or.inr hlt
  · exact Or.inr (hlt.trans hlt')

/-- A change of stock is a revision of the item's row. -/
theorem StockChange.revised {d : Db} {i i' : MenuItem} {m : StockMovement} {delta : Int}
    {type : MovementType} {orderId : Option Uuid} (h : StockChange d i i' m delta type orderId) :
    ∀ old, d.items.find? i'.id = some old → old.Revised i' := by
  intro old hold
  have hid : i'.id = i.id := by rw [h.next]
  rw [hid, h.row] at hold
  obtain rfl := Option.some.inj hold
  right
  have := h.version
  omega

section

variable {A : Allow} {d₀ d : Db} {wal : List Commit} {req : Request} {read : Option Order}
  {e : Option Exc} {ws : List Write}

/-- A commit that changes an item gives it a new version, if no stock read overwrites rows. -/
theorem Effect.revises (hover : ¬A.overwrite) (h : Effect A d₀ wal d req read e ws) {i : MenuItem}
    (hi : d.items.find? i.id = some i) :
    ∃ i', (d.applyAll ws).items.find? i.id = some i' ∧ i.Revised i' := by
  cases h with
  | refused | read | placed | rejected | moved => exact ⟨i, hi, .refl i⟩
  | created hfresh =>
    refine Table.exists_find?_upsert MenuItem.Revised.refl (fun old hold => ?_) hi
    cases hfresh.symm.trans hold
  | adjusted _ hch | stocked _ _ _ _ hch | stale _ _ _ _ _ _ hch =>
    exact Table.exists_find?_upsert MenuItem.Revised.refl hch.revised hi
  | overwritten hallowed => exact absurd hallowed hover

/-- Between two points of a log every item is revised. -/
theorem Log.revises {k k' : Nat} (hover : ¬A.overwrite) (h : Log A d₀ wal d) (hle : k ≤ k')
    {i : MenuItem} (hi : (d₀.after wal k).items.find? i.id = some i) :
    ∃ i', (d₀.after wal k').items.find? i.id = some i' ∧ i.Revised i' := by
  refine replay_keeps (P := fun d : Db => ∃ i', d.items.find? i.id = some i' ∧ i.Revised i')
    ⟨i, hi, .refl i⟩ hle fun j c hc _ hj => ?_
  obtain ⟨i', hi', hrevised⟩ := hj
  obtain ⟨_, e, heff⟩ := h.at hc
  have hid : i'.id = i.id := Table.key_of_find? hi'
  obtain ⟨i'', hi'', hrevised'⟩ := heff.revises hover (hid.symm ▸ hi')
  exact ⟨i'', hid ▸ hi'', hrevised.trans hrevised'⟩

end

/-! ## Runs -/

/-- `GET /items/{item_id}` answers with the row of the item. -/
theorem getItem_on {d : Db} {id : Uuid} {i : MenuItem} :
    (Api.getItem id).on d = .ok i ↔ d.items.find? id = some i := by
  have hrow : d.select (.item id) = d.items.find? id := rfl
  simp only [Reading.on, Api.getItem, Api.translateNotFound, ItemService.getItem,
    Reports.ItemRepository.getById, Reading.execute, Bind.bind, Reading.bind, Prog.bind,
    Reading.across, hrow]
  cases d.items.find? id with
  | none =>
    constructor
    · intro h
      cases h
    · intro h
      cases h
  | some j =>
    constructor
    · intro h
      exact congrArg some (Except.ok.inj h)
    · intro h
      exact congrArg Except.ok (Option.some.inj h)

/-- Of two moments, between which the movements `ms` were written. An item that was found at
    the first is found at the second, as many versions later as `ms` has movements on it, and
    an order is as many versions later as its status has made steps. The same version is the
    same row. -/
structure VersionsTell (d d' : Db) (ms : List StockMovement) : Prop where
  items : ∀ id i, (Api.getItem id).on d = .ok i →
    ∃ i', (Api.getItem id).on d' = .ok i' ∧ i.Becomes i' ∧
      i'.version = i.version + (ms.filter (·.itemId = id)).length ∧
      (i'.version = i.version → i' = i)
  orders : ∀ id o, d.orders.find? id = some o →
    ∃ o' n, d'.orders.find? id = some o' ∧ o.status.Walk n o'.status ∧
      o'.version = o.version + n ∧ (o'.version = o.version → o' = o)

section

variable {cfg : Config} {d₀ : Db} {ls₁ ls₂ : List (system cfg).Label} {c₁ c₂ : (system cfg).Config}

/-- Whatever the interleaving and whatever fails, without overwritten rows versions tell what
    was written between any two moments. -/
theorem versions_tell (hd₀ : d₀.Consistent) (haudited : Audited d₀)
    (hrun₁ : SysRun cfg (ReadsCurrently cfg) d₀ ls₁ c₁)
    (hrun₂ : Run (ReadsCurrently cfg) c₁ ls₂ c₂) :
    ∃ ms, c₂.st.db.movements.rows = c₁.st.db.movements.rows ++ ms ∧
      VersionsTell c₁.st.db c₂.st.db ms := by
  have hrun : SysRun cfg (ReadsCurrently cfg) d₀ (ls₁ ++ ls₂) c₂ := hrun₁.trans hrun₂
  have hlog₁ := ReadsCurrently.log hd₀ hrun₁
  have hlog₂ := ReadsCurrently.log hd₀ hrun
  have haudited₁ := hlog₁.audited haudited id
  have haudited₂ := hlog₂.audited haudited id
  have hevolves := rows_evolve hd₀ hrun₁ hrun₂
  have hwal := wal_of_run hrun₂
  have hbefore := hlog₁.db_eq_of_prefix hwal
  -- the movements since
  obtain ⟨ms, hms⟩ := hevolves.movements
  refine ⟨ms, hms.symm, ⟨fun id i hi => ?_, fun id o ho => ?_⟩⟩
  · -- an item
    rw [getItem_on] at hi
    obtain rfl : i.id = id := Table.key_of_find? hi
    obtain ⟨i', hi', hbecomes⟩ := hevolves.items i hi
    have hid := hbecomes.id_eq
    refine ⟨i', getItem_on.mpr hi', hbecomes, ?_, fun hsame => ?_⟩
    · -- at both moments the version is the length of the chain of the item
      have hcount := (haudited₁.chain i hi).count
      have hcount' := (haudited₂.chain i' (hid.symm ▸ hi')).count
      rw [hid, Db.movementsOn, ← hms, List.filter_append, List.length_append] at hcount'
      rw [hcount', hcount, Db.movementsOn]
      push_cast
      rfl
    · -- another row would be of a later version
      obtain ⟨j, hj, hrevised⟩ := hlog₂.revises id hwal.length_le (hbefore ▸ hi)
      rw [← hlog₂.db_eq, hi'] at hj
      obtain rfl := Option.some.inj hj
      exact hrevised.resolve_right (by omega)
  · -- an order
    obtain rfl : o.id = id := Table.key_of_find? ho
    obtain ⟨o', ho', hbecomes⟩ := hevolves.orders o ho
    obtain ⟨n, hwalk, hversion⟩ := hbecomes.walk
    refine ⟨o', n, ho', hwalk, hversion, fun hsame => ?_⟩
    obtain ⟨rest, hrest⟩ := hwal
    -- the row is the last of the versions known
    obtain ⟨cur, hknown⟩ := hlog₂.knownOrder hd₀ (hrest ▸ (hlog₁.known_of_find? ho).append rest)
    obtain rfl := Option.some.inj (hknown.row.symm.trans ho')
    rcases hknown.latest with rfl | hlt
    · rfl
    · omega

end

/-- An adjustment counts the version of its item up. -/
theorem versions_tell_spilled : ∃ c₁ c₂,
    SysRun ⟨.http, ⟨true⟩⟩ (ReadsCurrently ⟨.http, ⟨true⟩⟩) Db.empty plenty c₁ ∧
    Run (ReadsCurrently ⟨.http, ⟨true⟩⟩) c₁ spilled c₂ ∧
    (c₁.st.db.items.find? 0).map (·.version) = some 1 ∧
    (c₂.st.db.items.find? 0).map (·.version) = some 2 ∧
    ∃ ms, c₂.st.db.movements.rows = c₁.st.db.movements.rows ++ ms ∧
      VersionsTell c₁.st.db c₂.st.db ms := by
  obtain ⟨c₁, c₂, hrun₁, hrun₂, h₁, h₂⟩ : ∃ c₁ c₂,
      SysRun ⟨.http, ⟨true⟩⟩ (ReadsCurrently ⟨.http, ⟨true⟩⟩) Db.empty plenty c₁ ∧
      Run (ReadsCurrently ⟨.http, ⟨true⟩⟩) c₁ spilled c₂ ∧
      (c₁.st.db.items.find? 0).map (·.version) = some 1 ∧
      (c₂.st.db.items.find? 0).map (·.version) = some 2 :=
    Run.of_decide₂ (by decide +kernel) (by decide +kernel)
  exact ⟨c₁, c₂, hrun₁, hrun₂, h₁, h₂, versions_tell Db.consistent_empty .empty hrun₁ hrun₂⟩

end Nova
