import Nova.Spec.Linearization
import Nova.Spec.Detail

/-!
# What becomes of a row

No commit of any request removes a row. An item keeps all its columns but the stock, the
version and the time of the last change; an order keeps all but the status, the version and
that time, and its status has walked one step of the state machine for each new version; a
movement is never changed, and later movements come after it (`Db.Evolves`). `rows_evolve`
says so of any two states of any run.

So what `GET /orders/{order_id}` takes from its first two statements is one snapshot, and
only the movements may be from a later one (`detail_snapshot`). They are listed by
`created_at`, which the clock of the server sets: a later movement stands behind all others
only where the timestamps increase as the commits do.
-/

namespace Nova

open Machine Reports

/-! ## Rows -/

/-- What a later version of an item's row may be. -/
structure MenuItem.Becomes (i i' : MenuItem) : Prop where
  next : i' = { i with
    stockQuantity := i'.stockQuantity, version := i'.version, updatedAt := i'.updatedAt
    ckStockNonNegative := i'.ckStockNonNegative }
  version : i.version ≤ i'.version

/-- `n` steps of the state machine. -/
inductive OrderStatus.Walk : Nat → OrderStatus → OrderStatus → Prop
  | nil (s : OrderStatus) : Walk 0 s s
  | snoc {n : Nat} {s s' s'' : OrderStatus} : Walk n s s' → s'.canTransitionTo s'' = true →
      Walk (n + 1) s s''

/-- What a later version of an order's row may be. -/
structure Order.Becomes (o o' : Order) : Prop where
  next : o' = { o with status := o'.status, version := o'.version, updatedAt := o'.updatedAt }
  walk : ∃ n : Nat, o.status.Walk n o'.status ∧ o'.version = o.version + n

/-- What later tables have kept. -/
structure Db.Evolves (d d' : Db) : Prop where
  items : ∀ i, d.items.find? i.id = some i → ∃ i', d'.items.find? i.id = some i' ∧ i.Becomes i'
  orders : ∀ o, d.orders.find? o.id = some o → ∃ o', d'.orders.find? o.id = some o' ∧ o.Becomes o'
  movements : d.movements.rows <+: d'.movements.rows

/-- A row may stay as it is. -/
theorem MenuItem.Becomes.refl (i : MenuItem) : i.Becomes i := ⟨rfl, le_rfl⟩

/-- Two changes of a row are one. -/
theorem MenuItem.Becomes.trans {i i' i'' : MenuItem} (h : i.Becomes i') (h' : i'.Becomes i'') :
    i.Becomes i'' := by
  refine ⟨?_, h.version.trans h'.version⟩
  rw [h'.next, h.next]

/-- A row keeps its key. -/
theorem MenuItem.Becomes.id_eq {i i' : MenuItem} (h : i.Becomes i') : i'.id = i.id := by
  rw [h.next]

/-- Two walks make a longer one. -/
theorem OrderStatus.Walk.trans {n m : Nat} {s s' s'' : OrderStatus} (h : Walk n s s')
    (h' : Walk m s' s'') : Walk (n + m) s s'' := by
  induction h' with
  | nil => exact h
  | snoc _ hstep ih => exact (ih h).snoc hstep

/-- A terminal status is never left. -/
theorem OrderStatus.Walk.of_terminal {n : Nat} {s s' : OrderStatus} (h : Walk n s s')
    (hs : s ∈ terminalStates) : s' = s := by
  induction h with
  | nil => rfl
  | snoc _ hstep ih =>
    rw [ih hs, canTransitionTo_iff, (validTransitions_eq_nil_iff _).mpr hs] at hstep
    cases hstep

/-- A row may stay as it is. -/
theorem Order.Becomes.refl (o : Order) : o.Becomes o := ⟨rfl, 0, .nil _, by simp⟩

/-- Two changes of a row are one. -/
theorem Order.Becomes.trans {o o' o'' : Order} (h : o.Becomes o') (h' : o'.Becomes o'') :
    o.Becomes o'' := by
  obtain ⟨n, hwalk, hversion⟩ := h.walk
  obtain ⟨m, hwalk', hversion'⟩ := h'.walk
  refine ⟨?_, n + m, hwalk.trans hwalk', ?_⟩
  · rw [h'.next, h.next]
  · rw [hversion', hversion]
    push_cast
    ring

/-- A row keeps its key. -/
theorem Order.Becomes.id_eq {o o' : Order} (h : o.Becomes o') : o'.id = o.id := by
  rw [h.next]

/-- Tables may stay as they are. -/
theorem Db.Evolves.refl (d : Db) : d.Evolves d where
  items i hi := ⟨i, hi, .refl i⟩
  orders o ho := ⟨o, ho, .refl o⟩
  movements := List.prefix_rfl

/-- Two changes of the tables are one. -/
theorem Db.Evolves.trans {d d' d'' : Db} (h : d.Evolves d') (h' : d'.Evolves d'') :
    d.Evolves d'' where
  items i hi := by
    obtain ⟨i', hi', hbecomes⟩ := h.items i hi
    obtain ⟨i'', hi'', hbecomes'⟩ := h'.items i' (hbecomes.id_eq ▸ hi')
    exact ⟨i'', hbecomes.id_eq ▸ hi'', hbecomes.trans hbecomes'⟩
  orders o ho := by
    obtain ⟨o', ho', hbecomes⟩ := h.orders o ho
    obtain ⟨o'', ho'', hbecomes'⟩ := h'.orders o' (hbecomes.id_eq ▸ ho')
    exact ⟨o'', hbecomes.id_eq ▸ ho'', hbecomes.trans hbecomes'⟩
  movements := h.movements.trans h'.movements

/-! ## Commits -/

section

variable {A : Allow} {d₀ d : Db} {wal : List Commit} {req : Request} {read : Option Order}
  {e : Option Exc} {ws : List Write}

/-- One item row is written anew. -/
private theorem items_evolve {i : MenuItem}
    (h : ∀ old, d.items.find? i.id = some old → old.Becomes i) (j : MenuItem)
    (hj : d.items.find? j.id = some j) :
    ∃ j', (d.items.upsert i).find? j.id = some j' ∧ j.Becomes j' :=
  Table.exists_find?_upsert MenuItem.Becomes.refl h hj

/-- One order's row that has evolved lets every order evolve. -/
private theorem orders_evolve {o : Order}
    (h : ∀ old, d.orders.find? o.id = some old → old.Becomes o) (p : Order)
    (hp : d.orders.find? p.id = some p) :
    ∃ p', (d.orders.upsert o).find? p.id = some p' ∧ p.Becomes p' :=
  Table.exists_find?_upsert Order.Becomes.refl h hp

/-- The commit that moves an order walks one step. -/
theorem OrderStep.becomes {o cur o' : Order} {status : OrderStatus}
    (h : OrderStep (knownIn d₀ wal) d o cur o' status)
    (hallowed : o.status.canTransitionTo status = true)
    (hknown : ∀ o, knownIn d₀ wal o → ∃ cur, KnownOrder d o cur) :
    ∀ old, d.orders.find? o'.id = some old → old.Becomes o' := by
  intro old hold
  obtain ⟨rfl, hrow⟩ := h.current hknown
  obtain rfl := Option.some.inj (hrow.symm.trans hold)
  refine ⟨?_, 1, ?_, ?_⟩
  · rw [h.next]
  · rw [h.status_eq]
    exact (OrderStatus.Walk.nil _).snoc hallowed
  · rw [h.version_eq]
    rfl

/-- A change of stock is a change of the item's row. -/
theorem StockChange.becomes {i i' : MenuItem} {m : StockMovement} {delta : Int}
    {type : MovementType} {orderId : Option Uuid} (h : StockChange d i i' m delta type orderId) :
    ∀ old, d.items.find? i'.id = some old → old.Becomes i' := by
  intro old hold
  have hid : i'.id = i.id := by rw [h.next]
  rw [hid, h.row] at hold
  obtain rfl := Option.some.inj hold
  refine ⟨h.next, ?_⟩
  rw [h.version]
  omega

/-- What any request commits. -/
theorem Effect.evolves (h : Effect A d₀ wal d req read e ws)
    (hknown : ∀ o, knownIn d₀ wal o → ∃ cur, KnownOrder d o cur) :
    d.Evolves (d.applyAll ws) := by
  -- movements are only ever appended
  have hmovements : d.movements.rows <+: (d.applyAll ws).movements.rows := by
    rw [h.movements]
    exact List.prefix_append _ _
  have hsame := Db.Evolves.refl d
  cases h with
  | refused | read => exact hsame
  | created hfresh =>
    refine ⟨items_evolve fun old hold => ?_, hsame.orders, hmovements⟩
    -- a new item replaces none
    cases hfresh.symm.trans hold
  | adjusted _ hch | stale _ _ _ _ _ _ hch =>
    exact ⟨items_evolve hch.becomes, hsame.orders, hmovements⟩
  | placed _ hfresh =>
    refine ⟨hsame.items, orders_evolve fun old hold => ?_, hmovements⟩
    -- a new order replaces none
    cases hfresh.symm.trans hold
  | rejected _ _ hallowed _ _ _ hstep =>
    refine ⟨hsame.items, orders_evolve (hstep.becomes ?_ hknown), hmovements⟩
    rw [canTransitionTo_confirmed hallowed]
    rfl
  | stocked _ _ hallowed _ hch hstep =>
    exact ⟨items_evolve hch.becomes, orders_evolve (hstep.becomes hallowed hknown), hmovements⟩
  | moved _ _ hallowed hstep =>
    exact ⟨hsame.items, orders_evolve (hstep.becomes hallowed hknown), hmovements⟩
  | @overwritten id _ i i' _ hrow hnext =>
    refine ⟨items_evolve fun old hold => ?_, hsame.orders, hmovements⟩
    -- a stock read writes the quantity it was given, under the same version
    have hid : i'.id = id := by rw [hnext, Table.key_of_find? hrow]
    rw [hid, hrow] at hold
    obtain rfl := Option.some.inj hold
    have hversion : i'.version = i.version := by rw [hnext]
    exact ⟨by rw [hnext], hversion.ge⟩

/-- Between any two points of a log. -/
theorem Log.evolves {k k' : Nat} (h : Log A d₀ wal d) (hd₀ : d₀.Consistent) (hle : k ≤ k') :
    (d₀.after wal k).Evolves (d₀.after wal k') := by
  refine replay_keeps (P := fun d : Db => (d₀.after wal k).Evolves d) (.refl _) hle
    fun j c hc _ hj => hj.trans ?_
  obtain ⟨hlog, e, heff⟩ := h.at hc
  exact heff.evolves fun o ho => hlog.knownOrder hd₀ ho

end

/-! ## Lists by time -/

/-- `ORDER BY` does not change the order of rows among themselves when others are added. -/
theorem ordered_sublist {α : Type} {key : α → Int} {rows rows' : List α}
    (h : rows.Sublist rows') : (ordered key rows).Sublist (ordered key rows') := by
  have : Std.Total fun a b : α => key a ≤ key b := ⟨fun a b => le_total (key a) (key b)⟩
  have : IsTrans α fun a b => key a ≤ key b := ⟨fun _ _ _ => le_trans⟩
  induction h with
  | slnil => exact List.Sublist.refl _
  | cons a _ ih => exact ih.trans (List.sublist_orderedInsert ..)
  | cons_cons a _ ih => exact ih.orderedInsert_sublist a (List.pairwise_insertionSort ..)

/-- It leaves rows with increasing keys as they are. -/
theorem ordered_of_increasing {α : Type} {key : α → Int} {rows : List α}
    (h : rows.Pairwise fun a b => key a < key b) : ordered key rows = rows :=
  (h.imp fun hlt => hlt.le).insertionSort_eq

/-- The movements of an order as `list_movements_for_order` lists them. -/
def Db.listedFor (d : Db) (orderId : Uuid) : List StockMovement :=
  ordered (·.createdAt) (d.movementsOf orderId)

/-! ## Runs -/

section

variable {cfg : Config} {d₀ : Db} {ok : (system cfg).Config → (system cfg).Label → Prop}
  {ls₁ ls₂ : List (system cfg).Label} {c₁ c₂ : (system cfg).Config}

/-- In every run, whatever the requests do and whatever fails, the rows of any state are
    kept by any later one. -/
theorem rows_evolve (hd₀ : d₀.Consistent) (hrun₁ : SysRun cfg ok d₀ ls₁ c₁)
    (hrun₂ : Run ok c₁ ls₂ c₂) : c₁.st.db.Evolves c₂.st.db := by
  have hlog₁ := hrun₁.log hd₀
  have hrun : SysRun cfg ok d₀ (ls₁ ++ ls₂) c₂ := hrun₁.trans hrun₂
  have hlog₂ := hrun.log hd₀
  have hwal := wal_of_run hrun₂
  rw [hlog₁.db_eq_of_prefix hwal, hlog₂.db_eq]
  exact hlog₂.evolves hd₀ hwal.length_le

/-- The three statements of `GET /orders/{order_id}` see the tables of three moments of a
    run. The movements that the first moment would have shown are on the list, in the same
    order. If the timestamps strictly increase in commit order, they are the first of it. -/
theorem detail_snapshot {ls₃ : List (system cfg).Label} {c₃ : (system cfg).Config}
    (hd₀ : d₀.Consistent) (hrun₁ : SysRun cfg ok d₀ ls₁ c₁) (hrun₂ : Run ok c₁ ls₂ c₂)
    (hrun₃ : Run ok c₂ ls₃ c₃) (orderId : Uuid) :
    (Reports.Api.getOrder orderId).across (threeReads c₁.st.db c₂.st.db c₃.st.db) =
        ((Reports.Api.getOrder orderId).on c₁.st.db).map (fun r =>
          { r with movements := c₃.st.db.listedFor orderId }) ∧
      c₁.st.db.movementsOf orderId <+: c₃.st.db.movementsOf orderId ∧
      (c₁.st.db.listedFor orderId).Sublist (c₃.st.db.listedFor orderId) ∧
      ((c₃.st.db.movementsOf orderId).Pairwise (fun m m' => m.createdAt < m'.createdAt) →
        c₁.st.db.listedFor orderId <+: c₃.st.db.listedFor orderId) := by
  have hevolves₂ := rows_evolve hd₀ hrun₁ hrun₂
  have hevolves₃ := rows_evolve hd₀ hrun₁ (hrun₂.trans hrun₃)
  have hprefix : c₁.st.db.movementsOf orderId <+: c₃.st.db.movementsOf orderId :=
    hevolves₃.movements.filter _
  -- the three statements, one table each
  refine ⟨?_, hprefix, ordered_sublist hprefix.sublist, fun htimes => ?_⟩
  swap
  · -- both lists are in commit order
    rwa [Db.listedFor, Db.listedFor, ordered_of_increasing htimes,
      ordered_of_increasing (htimes.sublist hprefix.sublist)]
  have hrow : c₁.st.db.select (.order orderId) = c₁.st.db.orders.find? orderId := rfl
  simp only [Reading.on, Reports.Api.getOrder, Reports.Api.translateNotFound,
    OrderService.getOrderDetail, Reports.OrderRepository.getById, Reports.ItemRepository.getById,
    StockRepository.listMovementsForOrder, Reading.execute, Bind.bind, Reading.bind, Prog.bind,
    Reading.across, threeReads]
  cases ho : c₁.st.db.orders.find? orderId with
  | none =>
    -- there is no order: 404 without a look at the other tables
    simp only [hrow, ho, Reading.raise, Prog.bind, Reading.across]
    rfl
  | some o =>
    -- its item is there, and has kept name and price
    obtain ⟨i, hi⟩ := Option.isSome_iff_exists.mp
      ((hrun₁.log hd₀).consistent hd₀ o (Table.mem_of_find? ho))
    obtain ⟨i', hi', hbecomes⟩ := hevolves₂.items i ((Table.key_of_find? hi).symm ▸ hi)
    rw [Table.key_of_find? hi] at hi'
    have hname : i'.name = i.name := by rw [hbecomes.next]
    have hprice : i'.price = i.price := by rw [hbecomes.next]
    have hitem₁ : c₁.st.db.select (.item o.itemId) = some i := hi
    have hitem₂ : c₂.st.db.select (.item o.itemId) = some i' := hi'
    simp only [hrow, ho, Prog.bind, Reading.across, hitem₁, hitem₂, Option.map_some,
      Option.getD_some, hname, OrderService.price, hprice, quantizeCents]
    split
    · rfl
    · rfl

end

/-- An order is cancelled while a confirmation is on its way. -/
theorem rows_evolve_overtaken : ∃ c₁ c₂, SysRun ⟨.http, ⟨true⟩⟩ (fun _ _ => True) Db.empty
    overordered c₁ ∧
    Run (fun _ _ => True) c₁ ([.start 2 (.transition .confirm 2)] ++ overtaken) c₂ ∧
    (c₂.st.db.orders.find? 2).map (·.status) = some .cancelled ∧
    c₁.st.db.Evolves c₂.st.db := by
  obtain ⟨c₂, hrun, hstatus⟩ : ∃ c, SysRun ⟨.http, ⟨true⟩⟩ (fun _ _ => True) Db.empty
      (overordered ++ ([.start 2 (.transition .confirm 2)] ++ overtaken)) c ∧
      (c.st.db.orders.find? 2).map (·.status) = some .cancelled :=
    Run.of_eval (fun c : (system ⟨.http, ⟨true⟩⟩).Config =>
      (c.st.db.orders.find? 2).map (·.status)) (by decide +kernel)
      (Config.allows_of_forall fun _ _ => trivial)
  obtain ⟨c₁, hrun₁, hrun₂⟩ := hrun.split
  exact ⟨c₁, c₂, hrun₁, hrun₂, hstatus, rows_evolve Db.consistent_empty hrun₁ hrun₂⟩

/-- The confirmed order is cancelled, later by the clock. -/
def cancelling : List (system ⟨.http, ⟨false⟩⟩).Label :=
  .start 3 (.transition .cancel 2) ::
    [0, 0, 0, 4, 0, 0, 0, 0, 0].map fun uuid => .step 3 { uuid, now := 1 }

/-- The order is cancelled between the first statement and the last. -/
theorem detail_snapshot_cancelled : ∃ c₁ c₃, SysRun ⟨.http, ⟨false⟩⟩ (fun _ _ => True) Db.empty
    (placing ++ confirming) c₁ ∧ Run (fun _ _ => True) c₁ cancelling c₃ ∧
    (c₁.st.db.listedFor 2).length = 1 ∧ (c₃.st.db.listedFor 2).length = 2 ∧
    (Reports.Api.getOrder 2).across (threeReads c₁.st.db c₁.st.db c₃.st.db) =
        ((Reports.Api.getOrder 2).on c₁.st.db).map (fun r =>
          { r with movements := c₃.st.db.listedFor 2 }) ∧
      c₁.st.db.listedFor 2 <+: c₃.st.db.listedFor 2 := by
  obtain ⟨c₁, c₃, hrun₁, hrun₃, hbefore, hafter, htimes⟩ : ∃ c₁ c₃,
      SysRun ⟨.http, ⟨false⟩⟩ (fun _ _ => True) Db.empty (placing ++ confirming) c₁ ∧
      Run (fun _ _ => True) c₁ cancelling c₃ ∧
      (c₁.st.db.listedFor 2).length = 1 ∧ (c₃.st.db.listedFor 2).length = 2 ∧
      (c₃.st.db.movementsOf 2).Pairwise fun m m' => m.createdAt < m'.createdAt :=
    Run.of_decide₂ (by decide +kernel) (Config.allows_of_forall fun _ _ => trivial)
  have hsnapshot := detail_snapshot Db.consistent_empty hrun₁ .nil hrun₃ 2
  exact ⟨c₁, c₃, hrun₁, hrun₃, hbefore, hafter, hsnapshot.1, hsnapshot.2.2.2 htimes⟩

end Nova
