import Nova.Spec.Runs

/-!
# The cache and the table

`set_stock` runs before the commit, so an entry may be ahead of the table. When no
`COMMIT` fails, it is so only while the transaction that stored the entry holds the
lock of the item row (`Coherent`): the row version it then commits has the quantity
that it stored. An entry may stay behind the table only where a `SETEX` has failed
(`Sys.Swallowed`). Once all writers have ended without such a failure, entries and rows
agree (`writers_coherent`).
-/

namespace Nova

open Machine

/-! ## Reads at a state -/

/-- The entry of an item is absent or its committed stock. -/
def Sys.Fresh (s : Sys) (id : Uuid) : Prop :=
  ∀ q, s.cache id = some q → ∃ i, s.db.items.find? id = some i ∧ i.stockQuantity = q

/-- What `StockService.get_stock` returns to a request `t` that runs alone from `s`. -/
def Sys.stockRead (s : Sys) (cache : CacheService) (t : TxId) (id : Uuid) :
    Option (Except Exc ItemObj) :=
  ((system ⟨.http, cache⟩).alone {} t (StockService.getStock cache id {})
    (s.start t (.getStock id))).map (·.1)

/-- A `SELECT` that is not failed reads the view of its transaction. -/
private theorem exec_selectItem {s : Sys} {t : TxId} {x : Tx} (hx : s.txs t = some x)
    (hlive : x.aborted = false) (id : Uuid) :
    exec {} t (.selectItem id) s = some (.ok ((s.view x).items.find? id),
      s.setTx t { x with seen := some ((s.view x).items.find? id) }) := by
  simp [exec, hx, hlive, Sys.run]

/-- Without a cache, it is the committed row. -/
theorem Sys.stockRead_disabled (s : Sys) (t : TxId) (id : Uuid) :
    s.stockRead ⟨false⟩ t id = some (match s.db.items.find? id with
      | some i => .ok (.ofRow i)
      | none => .error (.notFound "MenuItem" id)) := by
  -- with the cache off a read is one statement: the SELECT decides alone
  have hselect := exec_selectItem (s := s.start t (.getStock id)) (Sys.setTx_txs_self _) rfl id
  have hview : ((s.start t (.getStock id)).view { req := .getStock id }).items.find? id =
      s.db.items.find? id := rfl
  rw [hview] at hselect
  unfold Sys.stockRead
  show Option.map _ (Option.bind (exec {} t (.selectItem id) (s.start t (.getStock id))) _) = _
  rw [hselect]
  cases s.db.items.find? id with
  | none | some i => rfl

/-- With it, the committed row with the quantity of the entry, if there is one. -/
theorem Sys.stockRead_enabled (s : Sys) (t : TxId) (id : Uuid) :
    s.stockRead ⟨true⟩ t id = some (match s.db.items.find? id with
      | some i => .ok ⟨i, (s.cache id).getD i.stockQuantity, i.version⟩
      | none => .error (.notFound "MenuItem" id)) := by
  -- the SELECT answers whatever the GET found: only the quantity depends on the cache
  let x : Tx := { req := .getStock id, cached := s.cache id }
  have hget : exec {} t (.redisGet id) (s.start t (.getStock id)) =
      some (.ok (s.cache id), s.setTx t x) := by
    simp [exec, Sys.start, Sys.run, Sys.setTx, x]
  have hselect := exec_selectItem (s := s.setTx t x) (x := x) (Sys.setTx_txs_self _) rfl id
  have hview : ((s.setTx t x).view x).items.find? id = s.db.items.find? id := rfl
  rw [hview] at hselect
  unfold Sys.stockRead
  show Option.map _ (Option.bind (exec {} t (.redisGet id) (s.start t (.getStock id))) _) = _
  rw [hget]
  show Option.map _ (Option.bind (exec {} t (.selectItem id) (s.setTx t x)) _) = _
  rw [hselect]
  cases s.db.items.find? id with
  | none => rfl
  | some i =>
    cases s.cache id with
    | none | some q => rfl

/-- Where the entry is fresh, the two reads agree. -/
theorem Sys.Fresh.stockRead {s : Sys} {id : Uuid} (h : s.Fresh id) (t : TxId) :
    s.stockRead ⟨true⟩ t id = s.stockRead ⟨false⟩ t id := by
  rw [Sys.stockRead_enabled, Sys.stockRead_disabled]
  cases hrow : s.db.items.find? id with
  | none => rfl
  | some i =>
    have hquantity : (s.cache id).getD i.stockQuantity = i.stockQuantity := by
      cases hentry : s.cache id with
      | none => rfl
      | some q =>
        -- a fresh entry is the committed quantity, so the row's own figure comes back either way
        obtain ⟨i', hrow', rfl⟩ := h q hentry
        rw [hrow] at hrow'
        obtain rfl := Option.some.inj hrow'
        rfl
    simp only [hquantity]
    rfl

/-! ## The invariant of the writers -/

/-- The commit has written the item. -/
def Commit.writesItem (r : Commit) (id : Uuid) : Bool := r.writes.any (·.row = .item id)

/-- The last commit that wrote the item. -/
def Sys.lastWriter? (s : Sys) (id : Uuid) : Option Commit :=
  (s.wal.filter (·.writesItem id)).getLast?

/-- The Redis command of the last commit that wrote the item has failed. -/
def Sys.Swallowed (s : Sys) (id : Uuid) : Prop :=
  ∃ r x, s.lastWriter? id = some r ∧ s.txs r.tx = some x ∧ x.redisFailed = true

/-- `x` has stored the quantity `q` for item `id` and has not committed yet. -/
def Tx.Ahead (x : Tx) (id : Uuid) (q : Int) : Prop :=
  x.published = some (id, q) ∧ x.commit = none

/-- An entry may differ from the table only while the transaction that stored it holds
    the item row. -/
structure Coherent (s : Sys) : Prop where
  owns : ∀ {t x id q}, s.txs t = some x → x.Ahead id q → s.owns t (.item id)
  entry : ∀ {t x id q}, s.txs t = some x → x.Ahead id q → ∀ q', s.cache id = some q' → q' = q
  written : ∀ {t x id q}, s.txs t = some x → x.Ahead id q →
    ∃ i, .item i ∈ x.writes ∧ i.id = id ∧ i.stockQuantity = q
  settled : ∀ id, s.Fresh id ∨ s.Swallowed id ∨ ∃ t x q, s.txs t = some x ∧ x.Ahead id q
  faulted : ∀ {t x}, s.txs t = some x → x.faulted = true → x.published = none

/-- Redis starts empty, and everything it shows is committed. -/
theorem Coherent.init (d₀ : Db) : Coherent (Sys.init d₀) where
  owns hx := nomatch hx
  entry hx := nomatch hx
  written hx := nomatch hx
  settled _ := Or.inl fun _ hq => nomatch hq
  faulted hx := nomatch hx

section

variable {s s' : Sys} {t : TxId} {x : Tx}

/-- A row that nobody holds has a fresh entry, unless a failure was swallowed. -/
theorem Coherent.fresh (h : Coherent s) {id : Uuid} (hfree : ∀ t, ¬s.owns t (.item id)) :
    s.Fresh id ∨ s.Swallowed id := by
  rcases h.settled id with hfresh | hswallowed | ⟨t, x, q, hx, hahead⟩
  · exact Or.inl hfresh
  · exact Or.inr hswallowed
  · exact absurd (h.owns hx hahead) (hfree t)

/-- A transaction that is no longer known as it was keeps what failed. -/
private theorem swallowed_keep {id : Uuid} (h : s.Swallowed id) (hwal : s'.wal = s.wal)
    (hkeep : ∀ t x, s.txs t = some x → ∃ x', s'.txs t = some x' ∧
      (x.redisFailed = true → x'.redisFailed = true)) : s'.Swallowed id := by
  obtain ⟨r, x, hr, hx, hfailed⟩ := h
  obtain ⟨x', hx', hk⟩ := hkeep r.tx x hx
  exact ⟨r, x', by rw [Sys.lastWriter?, hwal]; exact hr, hx', hk hfailed⟩

/-- An entry that expires shows nothing wrong. -/
theorem Coherent.expire (h : Coherent s) (id : Uuid) : Coherent (s.expire id) where
  owns := h.owns
  entry hx ha q' hq' := by
    -- the entry that expired promises nothing any more; the others are as before
    simp only [Sys.expire, Function.update_apply] at hq'
    split at hq'
    · cases hq'
    · exact h.entry hx ha q' hq'
  written := h.written
  settled id' := by
    refine (h.settled id').imp_left fun hfresh q hq => ?_
    simp only [Sys.expire, Function.update_apply] at hq
    split at hq
    · cases hq
    · exact hfresh q hq
  faulted := h.faulted

/-- A move of `t` that leaves it with `x'` and stores nothing keeps the invariant if
    `x'` is ahead only where `x` was, and the locks of the others stay. -/
private theorem Coherent.replace (h : Coherent s) (hold : ∀ y, s.txs t = some y → y = x) {x' : Tx}
    (htxs : s'.txs = Function.update s.txs t (some x')) (hdb : s'.db = s.db)
    (hcache : s'.cache = s.cache) (hwal : s'.wal = s.wal)
    (howns : ∀ t' row, t' ≠ t → s.owns t' row → s'.owns t' row)
    (hfailed : ∀ y, s.txs t = some y → y.redisFailed = true → x'.redisFailed = true)
    (hfaulted : x'.faulted = true → x'.published = none)
    (hahead : ∀ id q, x'.Ahead id q → s.txs t = some x ∧ x.Ahead id q ∧ s'.owns t (.item id) ∧
      ∀ w ∈ x.writes, w ∈ x'.writes)
    (hsettled : ∀ id q, s.txs t = some x → x.Ahead id q → x'.Ahead id q) : Coherent s' := by
  -- the only transaction that may differ is `t`
  have hcase : ∀ t' y, s'.txs t' = some y → (t' = t ∧ y = x') ∨ (t' ≠ t ∧ s.txs t' = some y) := by
    intro t' y hy
    rw [htxs] at hy
    by_cases ht : t' = t
    · subst ht
      rw [Function.update_self, Option.some.injEq] at hy
      exact Or.inl ⟨rfl, hy.symm⟩
    · rw [Function.update_of_ne ht] at hy
      exact Or.inr ⟨ht, hy⟩
  constructor
  · intro t' y id q hy ha
    rcases hcase t' y hy with ⟨rfl, rfl⟩ | ⟨ht, hy'⟩
    · exact (hahead id q ha).2.2.1
    · exact howns t' _ ht (h.owns hy' ha)
  · intro t' y id q hy ha q' hq'
    rw [hcache] at hq'
    rcases hcase t' y hy with ⟨rfl, rfl⟩ | ⟨_, hy'⟩
    · obtain ⟨hx, ha', _⟩ := hahead id q ha
      exact h.entry hx ha' q' hq'
    · exact h.entry hy' ha q' hq'
  · intro t' y id q hy ha
    rcases hcase t' y hy with ⟨rfl, rfl⟩ | ⟨_, hy'⟩
    · obtain ⟨hx, ha', _, hwrites⟩ := hahead id q ha
      obtain ⟨i, hi, hi'⟩ := h.written hx ha'
      exact ⟨i, hwrites _ hi, hi'⟩
    · exact h.written hy' ha
  · -- what `t` was ahead with it still is
    intro id
    rcases h.settled id with hfresh | hswallowed | ⟨t', y, q, hy, ha⟩
    · left
      intro q hq
      rw [hdb]
      exact hfresh q (hcache ▸ hq)
    · right; left
      refine swallowed_keep hswallowed hwal fun t' y hy => ?_
      rw [htxs]
      by_cases ht : t' = t
      · subst ht
        exact ⟨x', Function.update_self .., hfailed y hy⟩
      · exact ⟨y, by rw [Function.update_of_ne ht]; exact hy, fun hf => hf⟩
    · right; right
      by_cases ht : t' = t
      · subst ht
        obtain rfl := hold y hy
        exact ⟨t', x', q, by rw [htxs, Function.update_self], hsettled id q hy ha⟩
      · exact ⟨t', y, q, by rw [htxs, Function.update_of_ne ht, hy], ha⟩
  · intro t' y hy
    rcases hcase t' y hy with ⟨rfl, rfl⟩ | ⟨_, hy'⟩
    · exact hfaulted
    · exact h.faulted hy'

/-- A move that is not the `SETEX` of an entry. -/
private theorem Coherent.moved (h : Coherent s) (hx : s.txs t = some x) {x' : Tx}
    (htxs : s'.txs = Function.update s.txs t (some x')) (hdb : s'.db = s.db)
    (hcache : s'.cache = s.cache) (hwal : s'.wal = s.wal)
    (howns : ∀ t' row, s.owns t' row → s'.owns t' row)
    (hwrites : ∀ w ∈ x.writes, w ∈ x'.writes) (hcommit : x'.commit = x.commit)
    (hpublished : x'.published = x.published)
    (hfailed : x.redisFailed = true → x'.redisFailed = true)
    (hfaulted : x'.faulted = true → x.published = none) : Coherent s' := by
  -- what a transaction is ahead with depends on its SETEX and its commit alone, which are kept
  have hahead : ∀ id q, x'.Ahead id q ↔ x.Ahead id q := by
    intro id q
    simp only [Tx.Ahead, hpublished, hcommit]
  refine h.replace (x := x) (fun y hy => Option.some.inj (hy.symm.trans hx)) htxs hdb
    hcache hwal (fun t' row _ ho => howns t' row ho)
    (fun y hy => Option.some.inj (hx.symm.trans hy) ▸ hfailed)
    (fun hf => hpublished.trans (hfaulted hf)) (fun id q ha => ?_)
    (fun id q _ ha => (hahead id q).mpr ha)
  have ha' := (hahead id q).mp ha
  exact ⟨hx, ha', howns _ _ (h.owns hx ha'), hwrites⟩

/-- `SETEX` of a quantity that `x` has written under the lock of the item row. -/
private theorem Coherent.published (h : Coherent s) (hcompat : s.Compat) (hx : s.txs t = some x)
    {id : Uuid} {q : Int} (hpub : Publishes s t x id q) :
    Coherent ({ s with cache := Function.update s.cache id (some q) }.setTx t
      { x with published := some (id, q) }) := by
  have hcase : ∀ t' y, (s.setTx t { x with published := some (id, q) }).txs t' = some y →
      (t' = t ∧ y = { x with published := some (id, q) }) ∨ (t' ≠ t ∧ s.txs t' = some y) := by
    intro t' y hy
    by_cases ht : t' = t
    · subst ht
      exact Or.inl ⟨rfl, Option.some.inj (hy.symm.trans (Sys.setTx_txs_self _))⟩
    · exact Or.inr ⟨ht, (Sys.setTx_txs_ne ht _).symm.trans hy⟩
  -- nobody else is ahead for the item: `t` holds its row
  have hne : ∀ {t' y id' q'}, t' ≠ t → s.txs t' = some y → y.Ahead id' q' → id' ≠ id := by
    rintro t' y id' q' ht hy ha rfl
    exact ht (hcompat.owner (h.owns hy ha) hpub.owns)
  constructor
  · intro t' y id' q' hy ha
    rcases hcase t' y hy with ⟨rfl, rfl⟩ | ⟨_, hy'⟩
    · obtain ⟨rfl, _⟩ := Prod.mk.inj (Option.some.inj ha.1)
      exact hpub.owns
    · exact h.owns hy' ha
  · intro t' y id' q' hy ha q'' hq''
    simp only [Sys.setTx_cache] at hq''
    rcases hcase t' y hy with ⟨rfl, rfl⟩ | ⟨ht, hy'⟩
    · obtain ⟨rfl, rfl⟩ := Prod.mk.inj (Option.some.inj ha.1)
      rw [Function.update_self] at hq''
      exact (Option.some.inj hq'').symm
    · rw [Function.update_of_ne (hne ht hy' ha)] at hq''
      exact h.entry hy' ha q'' hq''
  · intro t' y id' q' hy ha
    rcases hcase t' y hy with ⟨rfl, rfl⟩ | ⟨_, hy'⟩
    · obtain ⟨rfl, rfl⟩ := Prod.mk.inj (Option.some.inj ha.1)
      exact hpub.written
    · exact h.written hy' ha
  · intro id'
    by_cases hid : id' = id
    · exact Or.inr (Or.inr ⟨t, _, q, Sys.setTx_txs_self _, by rw [hid], hpub.uncommitted⟩)
    · rcases h.settled id' with hfresh | hswallowed | ⟨t', y, q', hy, ha⟩
      · left
        intro q' hq'
        simp only [Sys.setTx_cache, Function.update_of_ne hid] at hq'
        exact hfresh q' hq'
      · right; left
        refine swallowed_keep hswallowed rfl fun t' y hy => ?_
        by_cases ht : t' = t
        · subst ht
          obtain rfl := Option.some.inj (hy.symm.trans hx)
          exact ⟨_, Sys.setTx_txs_self _, fun hf => hf⟩
        · exact ⟨y, (Sys.setTx_txs_ne ht _).trans hy, fun hf => hf⟩
      · have ht : t' ≠ t := by
          rintro rfl
          obtain rfl := Option.some.inj (hy.symm.trans hx)
          cases hpub.first.symm.trans ha.1
        exact Or.inr (Or.inr ⟨t', y, q', (Sys.setTx_txs_ne ht _).trans hy, ha⟩)
  · intro t' y hy hf
    rcases hcase t' y hy with ⟨rfl, rfl⟩ | ⟨_, hy'⟩
    · cases hpub.unfaulted.symm.trans hf
    · exact h.faulted hy' hf

/-- A commit that writes the item is its last writer, and any other is not. -/
private theorem lastWriter?_commit {id : Uuid} : (s.commit t x).lastWriter? id =
    if x.writes.any (·.row = .item id) then some ⟨t, x.req, x.read, x.writes⟩
    else s.lastWriter? id := by
  have hwal : (s.commit t x).wal =
      if x.writes = [] then s.wal else s.wal ++ [⟨t, x.req, x.read, x.writes⟩] := rfl
  rw [Sys.lastWriter?, hwal]
  -- a commit of nothing leaves the log; else the last record decides, if it writes the item
  by_cases hnone : x.writes = []
  · simp [hnone, Sys.lastWriter?]
  · by_cases hwrites : x.writes.any (·.row = .item id) = true
    · simp [hnone, hwrites, Commit.writesItem, List.filter_append]
    · simp [hnone, hwrites, Commit.writesItem, List.filter_append, Sys.lastWriter?]

/-- `COMMIT`: the row that becomes visible has the quantity of the entry. -/
theorem Coherent.commit {A : Allow} {d₀ : Db} (h : Coherent s) (hx : s.txs t = some x)
    (hread : x.req.isRead = true → x.writes = []) (hnew : x.commit = none)
    (heff : Committable A d₀ s x)
    (hpub : ∀ i, .item i ∈ x.writes → x.published = some (i.id, i.stockQuantity) ∨
      x.redisFailed = true ∨ x.req.isRead = true) : Coherent (s.commit t x) := by
  have hstored : ∀ i, .item i ∈ x.writes → x.Ahead i.id i.stockQuantity ∨ x.redisFailed = true := by
    intro i hi
    rcases hpub i hi with hp | hr | hr
    · exact Or.inl ⟨hp, hnew⟩
    · exact Or.inr hr
    · rw [hread hr] at hi
      cases hi
  have hself' : (s.commit t x).txs t =
      some { x with writes := [], commit := some (s.db, x.writes) } :=
    Sys.setTx_txs_self _
  have hcase : ∀ t' y, (s.commit t x).txs t' = some y →
      (t' = t ∧ y = { x with writes := [], commit := some (s.db, x.writes) }) ∨
        (t' ≠ t ∧ s.txs t' = some y) := by
    intro t' y hy
    by_cases ht : t' = t
    · subst ht
      exact Or.inl ⟨rfl, Option.some.inj (hy.symm.trans hself')⟩
    · exact Or.inr ⟨ht, (Sys.setTx_txs_ne ht _).symm.trans hy⟩
  -- the entry that `t` stored is the row that it commits
  have hself : ∀ id q, x.Ahead id q → (s.commit t x).Fresh id := by
    intro id q ha q' hq'
    obtain rfl := h.entry hx ha q' hq'
    obtain ⟨i, hi, rfl, hstock⟩ := h.written hx ha
    obtain ⟨e, heffect, _⟩ := heff (List.ne_nil_of_mem hi)
    exact ⟨i, heffect.find?_item hi, hstock⟩
  -- an item to which it writes nothing stays as it was
  have hother : ∀ id, (∀ i, .item i ∈ x.writes → i.id ≠ id) →
      (s.Fresh id → (s.commit t x).Fresh id) ∧ (s.Swallowed id → (s.commit t x).Swallowed id) := by
    intro id hnot
    refine ⟨fun hfresh q hq => ?_, fun ⟨r, y, hr, hy, hfailed⟩ => ?_⟩
    · obtain ⟨i, hrow, hstock⟩ := hfresh q hq
      exact ⟨i, (Db.find?_item_applyAll hnot).trans hrow, hstock⟩
    · have hlast : (s.commit t x).lastWriter? id = some r := by
        rw [lastWriter?_commit, if_neg, hr]
        simp only [List.any_eq_true, decide_eq_true_eq, not_exists, not_and]
        intro w hw hrow
        cases w with
        | item i => exact hnot i hw (Row.item.inj hrow)
        | order o | movement m => cases hrow
      by_cases ht : r.tx = t
      · rw [ht] at hy
        obtain rfl := Option.some.inj (hx.symm.trans hy)
        exact ⟨r, { x with writes := [], commit := some (s.db, x.writes) },
          hlast, by rw [ht, hself'], hfailed⟩
      · exact ⟨r, y, hlast, (Sys.setTx_txs_ne ht _).trans hy, hfailed⟩
  constructor
  · intro t' y id q hy ha
    rcases hcase t' y hy with ⟨rfl, rfl⟩ | ⟨ht, hy'⟩
    · cases ha.2
    · exact Sys.owns_release ht (h.owns hy' ha)
  · intro t' y id q hy ha
    rcases hcase t' y hy with ⟨rfl, rfl⟩ | ⟨_, hy'⟩
    · cases ha.2
    · exact h.entry hy' ha
  · intro t' y id q hy ha
    rcases hcase t' y hy with ⟨rfl, rfl⟩ | ⟨_, hy'⟩
    · cases ha.2
    · exact h.written hy' ha
  · intro id
    by_cases hmine : ∃ q, x.Ahead id q
    · obtain ⟨q, ha⟩ := hmine
      exact Or.inl (hself id q ha)
    by_cases hwrites : ∃ i, .item i ∈ x.writes ∧ i.id = id
    · -- what it has written was not stored, so its `SETEX` has failed
      obtain ⟨i, hi, rfl⟩ := hwrites
      have hfailed := (hstored i hi).resolve_left fun ha => hmine ⟨_, ha⟩
      have hlast : (s.commit t x).lastWriter? i.id = some ⟨t, x.req, x.read, x.writes⟩ := by
        rw [lastWriter?_commit, if_pos]
        simpa using ⟨_, hi, rfl⟩
      exact Or.inr (Or.inl ⟨_, _, hlast, hself', hfailed⟩)
    · have hnot : ∀ i, .item i ∈ x.writes → i.id ≠ id := fun i hi hid => hwrites ⟨i, hi, hid⟩
      rcases h.settled id with hfresh | hswallowed | ⟨t', y, q, hy, ha⟩
      · exact Or.inl ((hother id hnot).1 hfresh)
      · exact Or.inr (Or.inl ((hother id hnot).2 hswallowed))
      · have ht : t' ≠ t := by
          rintro rfl
          obtain rfl := Option.some.inj (hy.symm.trans hx)
          exact hmine ⟨q, ha⟩
        exact Or.inr (Or.inr ⟨t', y, q, (Sys.setTx_txs_ne ht _).trans hy, ha⟩)
  · intro t' y hy hf
    rcases hcase t' y hy with ⟨rfl, rfl⟩ | ⟨_, hy'⟩
    · have hfaulted := h.faulted hx hf
      exact hfaulted
    · exact h.faulted hy' hf

/-- A move other than `COMMIT` keeps the invariant, if none fails a transaction that
    has stored a quantity. -/
theorem Coherent.move {e : Env} {o : Stmt} {cfg : Config} {A : Allow} {d₀ : Db} (h : Coherent s)
    (hcompat : s.Compat) (hhttp : cfg.harness = .http) (hx : s.txs t = some x)
    (hpre : x.Pre cfg A d₀ t s o) (hbreak : e.breaks o = true → x.published = none)
    (hm : Move e o t x s s') : Coherent s' := by
  cases hm with
  | note x' hw hk hq =>
    refine h.moved hx rfl rfl rfl rfl (fun _ _ ho => ho) (fun w hmem => hw ▸ hmem) hk.commit
      hq.published hk.redisFailed (fun hf => ?_)
    rcases hq.faulted hf with hf | hf
    · exact h.faulted hx hf
    · exact hbreak hf
  | published id q ho _ =>
    subst ho
    exact h.published hcompat hx hpre
  | locked ls hfree =>
    have htxs : (s.withLocks t ls).txs = Function.update s.txs t (some x) := by
      rw [← hx, Function.update_eq_self]
      rfl
    exact h.moved hx htxs rfl rfl rfl (fun _ _ ho => Sys.owns_withLocks ho) (fun _ hw => hw) rfl rfl
      (fun hf => hf) (h.faulted hx)
  | wrote ls w mode hfree hmem hmode _ =>
    have hfaulted := h.faulted hx
    exact h.moved hx rfl rfl rfl rfl (fun _ _ ho => Sys.owns_withLocks ho)
      (fun _ hw => List.mem_append_left _ hw) rfl rfl (fun hf => hf) hfaulted
  | ended x' hwhy hw hk hq =>
    -- whatever ends the transaction early, it has stored nothing
    have hnone : x.published = none := by
      rcases hwhy with hchanges | rfl | hf
      · cases o with
        | insertItem n => exact hpre.1
        | updateItem id c => exact hpre.1
        | insertOrder n | insertMovement n => exact hpre.1
        | selectItem | selectItemForUpdate | selectOrder | updateOrder | redisGet | redisSetex
        | commit | rollback | respond => cases hchanges
      · rcases hpre hhttp with hp | hf
        · exact hp
        · exact h.faulted hx hf
      · exact hbreak hf
    have hahead : ∀ {y : Tx} {id q}, y.published = x.published → ¬y.Ahead id q := by
      intro y id q hy ha
      rw [hnone] at hy
      cases hy.symm.trans ha.1
    exact h.replace (x := x) (fun y hy => Option.some.inj (hy.symm.trans hx)) rfl rfl rfl
      rfl (fun t' row ht ho => Sys.owns_release ht ho)
      (fun y hy => Option.some.inj (hx.symm.trans hy) ▸ hk.redisFailed)
      (fun _ => hq.published.trans hnone) (fun _ _ ha => absurd ha (hahead hq.published))
      (fun _ _ _ ha => absurd ha (hahead rfl))

/-- A new transaction has written and published nothing. -/
theorem Coherent.start (h : Coherent s) (hnone : s.txs t = none) (req : Request) :
    Coherent (s.start t req) :=
  h.replace (x := { req }) (fun _ hy => nomatch hnone.symm.trans hy) rfl rfl rfl rfl
    (fun _ _ _ ho => ho) (fun _ hy => nomatch hnone.symm.trans hy) (fun _ => rfl)
    (fun _ _ ha => nomatch ha.1) (fun _ _ hx _ => nomatch hnone.symm.trans hx)

end

/-! ## Runs without failures after `SETEX` -/

/-- No Redis command and no `COMMIT` fails, and nothing else that a transaction awaits
    after it has stored a quantity. -/
def Reliable (e : Env) (t : TxId) (o : Stmt) (s : Sys) : Bool :=
  match o with
  | .redisGet _ | .redisSetex _ _ | .commit => e.fault.isNone
  | _ => e.fault.isNone || (s.txs t).all (·.published.isNone)

/-- In a reliable world a failed statement is none of Redis, no `COMMIT`, and comes before
    any `SETEX`. -/
theorem reliable_of_fault {e : Env} {t : TxId} {o : Stmt} {s : Sys} {x : Tx}
    (h : Reliable e t o s = true) (hx : s.txs t = some x) (hf : e.fault.isSome = true) :
    o.isRedis = false ∧ o ≠ .commit ∧ x.published = none := by
  have hnone : e.fault.isNone = false := by
    rw [← Option.not_isSome, hf]
    rfl
  unfold Reliable at h
  rw [hx, hnone] at h
  -- Redis and the commit are reliable outright, any other statement once there was a SETEX
  cases o with
  | redisGet | redisSetex | commit => cases h
  | selectItem | selectItemForUpdate | insertItem | updateItem | selectOrder | insertOrder
  | updateOrder | insertMovement | rollback | respond =>
    exact ⟨rfl, nofun, by simpa using h⟩

/-- Writers on a cache, from the tables `d₀`, when what they await after a `SETEX` does
    not fail. -/
abbrev writerRuns (d₀ : Db) :
    List (system ⟨.http, ⟨true⟩⟩).Label → (system ⟨.http, ⟨true⟩⟩).Config → Prop :=
  SysRun ⟨.http, ⟨true⟩⟩
    (fun c l =>
      Starts (·.isRead = false) l ∧ OnCall (fun e t o s => Reliable e t o s = true) c l) d₀

/-- The invariant in every run of writers. -/
theorem coherent_of_run {d₀ : Db} {ls : List (system ⟨.http, ⟨true⟩⟩).Label}
    {c : (system ⟨.http, ⟨true⟩⟩).Config} (hd₀ : d₀.Consistent) (hrun : writerRuns d₀ ls c) :
    Coherent c.st := by
  have hrun' := (hrun.serves (P := (·.isRead = false)) fun _ _ hl => hl.1).1
  refine SysRun.state_invariant (A := ⟨True, True, True⟩) hd₀ (fun _ => trivial)
    (fun c l _ => admitted_any c l) (.init d₀) (fun c t req _ hnone h => ?_)
    (fun c t e o k x r s' hok hpool haw _ hm h => ?_) (fun c t e k x hok hpool haw hlive h => ?_)
    (fun s id h => ?_) hrun'
  · -- a new transaction is ahead of nothing
    exact h.start hnone req
  · refine h.move haw.inv.compat rfl haw.tx haw.pre (fun hf => ?_) hm
    exact (reliable_of_fault (hok.1.2.apply hpool) haw.tx (Env.isSome_of_breaks hf)).2.2
  · obtain ⟨hnew, hcommit⟩ := haw.pre
    refine h.commit haw.tx (fun hread => ?_) hnew (hcommit hlive).1 ((hcommit hlive).2 rfl)
    cases (hok.2 t x haw.tx).symm.trans hread
  · exact h.expire id

/-- No request has seen a Redis command fail. -/
private theorem redis_of_run {d₀ : Db} {ls : List (system ⟨.http, ⟨true⟩⟩).Label}
    {c : (system ⟨.http, ⟨true⟩⟩).Config} (hd₀ : d₀.Consistent) (hrun : writerRuns d₀ ls c)
    (id : Uuid) : ¬c.st.Swallowed id := by
  have hredis : ∀ t x, c.st.txs t = some x → x.redisFailed = false := by
    refine SysRun.state_invariant (I := fun s => ∀ t x, s.txs t = some x → x.redisFailed = false)
      (A := ⟨True, True, True⟩) hd₀ (fun _ => trivial) (fun c l _ => admitted_any c l)
      (fun _ _ hx => nomatch hx) (fun c t req _ _ h => forall_update h rfl)
      (fun c t e o k x r s' hok hpool haw _ hm h => ?_)
      (fun c t e k x _ _ haw _ h => forall_update h (h t x haw.tx)) (fun s id h => h) hrun
    -- only a fault of Redis sets the flag, and these runs have none
    cases hm with
    | note y _ _ hq | ended y _ _ _ hq =>
      refine forall_update h ?_
      by_contra hfailed
      rcases hq.redisFailed (by simpa using hfailed) with hr | ⟨hf, hr⟩
      · cases (h _ _ haw.tx).symm.trans hr
      · have hsql := (reliable_of_fault (hok.2.apply hpool) haw.tx hf).1
        cases hsql.symm.trans hr
    | locked => exact h
    | published | wrote => exact forall_update h (h t x haw.tx)
  rintro ⟨r, x, _, hx, hfailed⟩
  cases (hredis r.tx x hx).symm.trans hfailed

/-- Once all writers have ended, all entries are fresh. -/
private theorem fresh_of_atRest {d₀ : Db} {ls : List (system ⟨.http, ⟨true⟩⟩).Label}
    {c : (system ⟨.http, ⟨true⟩⟩).Config} (hd₀ : d₀.Consistent) (hrun : writerRuns d₀ ls c)
    (hrest : AtRest c) (id : Uuid) : c.st.Fresh id := by
  have hcoherent := coherent_of_run hd₀ hrun
  rcases hcoherent.settled id with hfresh | hswallowed | ⟨t, x, q, hx, hpublished, hcommit⟩
  · exact hfresh
  · exact absurd hswallowed (redis_of_run hd₀ hrun id)
  -- whoever is ahead has ended without a commit, and then published nothing
  exfalso
  have hread : x.req.isRead = false := (hrun.serves fun _ _ hl => hl.1).2 t x hx
  have hfin := hrun.finished hd₀ rfl hx (hrun.ends_of_atRest hrest hx)
  have hnone := hfin.published_eq_none hcommit (hcoherent.faulted hx)
    fun hr => by cases hread.symm.trans hr
  cases hpublished.symm.trans hnone

/-- Where nobody holds the row of an item, its entry is absent or its committed stock;
    and once all requests have ended, a cache-first read and a plain read of any item
    agree. -/
theorem writers_coherent {d₀ : Db} {ls : List (system ⟨.http, ⟨true⟩⟩).Label}
    {c : (system ⟨.http, ⟨true⟩⟩).Config} (hd₀ : d₀.Consistent) (hrun : writerRuns d₀ ls c) :
    (∀ id, (∀ t, ¬c.st.owns t (.item id)) → c.st.Fresh id) ∧
      (AtRest c → ∀ t id, c.st.stockRead ⟨true⟩ t id = c.st.stockRead ⟨false⟩ t id) :=
  ⟨fun id hfree =>
      ((coherent_of_run hd₀ hrun).fresh hfree).resolve_right (redis_of_run hd₀ hrun id),
    fun hrest t id => (fresh_of_atRest hd₀ hrun hrest id).stockRead t⟩

/-- Two concurrent adjustments of one item, and a confirmation that is cancelled. -/
def writerRace : List (system ⟨.http, ⟨true⟩⟩).Label :=
  [.start 0 (.createItem { name := "Tea", price := 350, stockQuantity := 10 })] ++
  turns 0 [0, 0, 1, 0, 0, 0] ++
  [.start 1 (.placeOrder { itemId := 0, quantity := 3 })] ++ turns 1 [0, 2, 0, 0, 0] ++
  [.start 2 (.transition .confirm 2),
    .start 3 (.adjustStock 0 { delta := 5, reason := "found" })] ++
  turns 2 [0, 0, 0, 3, 0, 0] ++ [.tick (0 : Uuid)] ++ turns 2 [0, 0, 0, 0] ++
  turns 3 [0, 0, 4, 0, 0, 0, 0]

/-- A confirmation and an adjustment of one item overlap, and the entry is the last
    committed quantity. -/
theorem writers_coherent_race : ∃ c, writerRuns Db.empty writerRace c ∧
    c.st.cache 0 = some 12 ∧ AtRest c ∧
    ∀ t id, c.st.stockRead ⟨true⟩ t id = c.st.stockRead ⟨false⟩ t id := by
  obtain ⟨c, hrun, hval⟩ : ∃ c, writerRuns Db.empty writerRace c ∧
      (c.st.cache 0, decide (∀ t ∈ writerRace.filterMap Label.starts, Ends c t)) =
        (some 12, true) :=
    Run.of_eval (fun c : (system ⟨.http, ⟨true⟩⟩).Config => (c.st.cache 0,
      decide (∀ t ∈ writerRace.filterMap Label.starts, Ends c t)))
      (by decide +kernel) (by decide +kernel)
  simp only [Prod.mk.injEq, decide_eq_true_eq] at hval
  have hrest := hrun.atRest hval.2
  exact ⟨c, hrun, hval.1, hrest, (writers_coherent Db.consistent_empty hrun).2 hrest⟩

end Nova
