import Nova.Spec.Effect

/-!
# The log of commits

`Log A d₀ wal d`: the commits `wal`, each an `Effect` of its request on the
tables left by the ones before, lead from `d₀` to `d`. The main result is
`Log.knownOrder`: an order version that was ever committed is the current one or
has a smaller version number, and item and quantity of an order never change. A
version number therefore determines the whole row, which is what makes the
optimistic check of `transition_status` a check of the status as well
(`OrderStep.eq_read`).
-/

namespace Nova

/-- The sequence of commits `wal` leads from `d₀` to `d`. -/
inductive Log (A : Allow) (d₀ : Db) : List Commit → Db → Prop
  | nil : Log A d₀ [] d₀
  | snoc {wal d c e} : Log A d₀ wal d → Effect A d₀ wal d c.req c.read e c.writes →
      (e.isSome → A.exceptions) → Log A d₀ (wal ++ [c]) (d.applyAll c.writes)

/-- An effect on the tables `d` that were reached when the log was a prefix of
    `wal`. -/
def Committed (A : Allow) (d₀ : Db) (wal : List Commit) (d : Db) (req : Request)
    (read : Option Order) (e : Option Exc) (ws : List Write) : Prop :=
  ∃ wal', wal' <+: wal ∧ Log A d₀ wal' d ∧ Effect A d₀ wal' d req read e ws

/-- What was committed stays committed while the log grows. -/
theorem Committed.mono {A : Allow} {d₀ d : Db} {wal wal' : List Commit} {req : Request}
    {read : Option Order} {e : Option Exc} {ws : List Write}
    (h : Committed A d₀ wal d req read e ws) (hwal : wal <+: wal') :
    Committed A d₀ wal' d req read e ws := by
  obtain ⟨wal₁, hpre, hlog, heff⟩ := h
  exact ⟨wal₁, hpre.trans hwal, hlog, heff⟩

/-! ## What an effect does to each table -/

/-- The order of a row version, if it is one. -/
def Write.order? : Write → Option Order
  | .order o => some o
  | .item _ | .movement _ => none

/-- The order versions among some writes. -/
def orderRows (ws : List Write) : List Order := ws.filterMap Write.order?

/-- The order versions are the orders among the writes. -/
theorem mem_orderRows {ws : List Write} {o : Order} : o ∈ orderRows ws ↔ .order o ∈ ws := by
  simp only [orderRows, List.mem_filterMap]
  constructor
  · rintro ⟨w, hw, ho⟩
    cases w with
    | order o' =>
      obtain rfl : o' = o := Option.some.inj ho
      exact hw
    | item i | movement m => cases ho
  · intro h
    exact ⟨_, h, rfl⟩

/-- The three ways a commit changes `orders`. -/
inductive OrdersEffect (known : Order → Prop) (d d' : Db) (ws : List Write) : Prop
  | same : d'.orders = d.orders → orderRows ws = [] → OrdersEffect known d d' ws
  | placed (o : Order) : d'.orders = d.orders.upsert o → orderRows ws = [o] →
      d.orders.find? o.id = none → (d.items.find? o.itemId).isSome → o.status = .pending →
      o.version = 1 → OrdersEffect known d d' ws
  | stepped (o cur o' : Order) (status : OrderStatus) : d'.orders = d.orders.upsert o' →
      orderRows ws = [o'] → OrderStep known d o cur o' status →
      o.status.canTransitionTo status → OrdersEffect known d d' ws

/-- The three ways a commit changes `menu_items`. -/
inductive ItemsEffect (d d' : Db) : Prop
  | same : d'.items = d.items → ItemsEffect d d'
  | created (i : MenuItem) : d'.items = d.items.upsert i → d.items.find? i.id = none →
      ItemsEffect d d'
  | changed (i i' : MenuItem) : d'.items = d.items.upsert i' → d.items.find? i.id = some i →
      i' = { i with
        stockQuantity := i'.stockQuantity, version := i'.version, updatedAt := i'.updatedAt
        ckStockNonNegative := i'.ckStockNonNegative } → ItemsEffect d d'

/-- Only a `PENDING` order can be confirmed. -/
theorem canTransitionTo_confirmed {s : OrderStatus} (h : s.canTransitionTo .confirmed) :
    s = .pending := by
  cases s <;> simp_all [OrderStatus.canTransitionTo, OrderStatus.validTransitions]

/-- What an effect does to the orders. -/
theorem Effect.orders {A : Allow} {d₀ d : Db} {wal : List Commit} {req : Request}
    {read : Option Order} {e : Option Exc} {ws : List Write}
    (h : Effect A d₀ wal d req read e ws) :
    OrdersEffect (knownIn d₀ wal) d (d.applyAll ws) ws := by
  cases h with
  | refused | read => exact .same rfl rfl
  | created | adjusted | stale | overwritten => exact .same rfl rfl
  | placed hitem hnew hitemId _ _ hstatus hversion =>
    exact .placed _ rfl rfl hnew (hitemId ▸ hitem) hstatus hversion
  | rejected _ _ hallowed _ _ _ hstep =>
    exact .stepped _ _ _ _ rfl rfl hstep (by rw [canTransitionTo_confirmed hallowed]; rfl)
  | stocked _ _ hallowed _ _ hstep => exact .stepped _ _ _ _ rfl rfl hstep hallowed
  | moved _ _ hallowed hstep => exact .stepped _ _ _ _ rfl rfl hstep hallowed

/-- What an effect does to the items. -/
theorem Effect.items {A : Allow} {d₀ d : Db} {wal : List Commit} {req : Request}
    {read : Option Order} {e : Option Exc} {ws : List Write}
    (h : Effect A d₀ wal d req read e ws) : ItemsEffect d (d.applyAll ws) := by
  cases h with
  | refused | read | placed | rejected | moved => exact .same rfl
  | created hnew => exact .created _ rfl hnew
  | adjusted _ hch => exact .changed _ _ rfl hch.row hch.next
  | stocked _ _ _ _ hch => exact .changed _ _ rfl hch.row hch.next
  | stale _ _ _ _ _ _ hch => exact .changed _ _ rfl hch.row hch.next
  | @overwritten id _ i i' _ hrow hnext =>
    have hid : i.id = id := Table.key_of_find? hrow
    exact .changed i i' rfl (hid ▸ hrow) (by rw [hnext])

/-- What is written to `menu_items` becomes the current row. -/
theorem Effect.find?_item {A : Allow} {d₀ d : Db} {wal : List Commit} {req : Request}
    {read : Option Order} {e : Option Exc} {ws : List Write}
    (h : Effect A d₀ wal d req read e ws) {i : MenuItem} (hi : .item i ∈ ws) :
    (d.applyAll ws).items.find? i.id = some i := by
  cases h with
  | refused | read => cases hi
  | placed | rejected | moved => simp at hi
  | created | adjusted | stocked | stale | overwritten =>
    obtain rfl : i = _ := by simpa using hi
    exact Table.find?_upsert_self _ _

/-- An item to which nothing is written keeps its row. -/
theorem Db.find?_item_applyAll {d : Db} {ws : List Write} {id : Uuid}
    (h : ∀ i, .item i ∈ ws → i.id ≠ id) : (d.applyAll ws).items.find? id = d.items.find? id := by
  have hget : (d.applyAll ws).get (.item id) = d.get (.item id) := by
    refine Db.get_applyAll_of_not_mem fun w hw hrow => ?_
    cases w with
    | item i => exact h i hw (Row.item.inj hrow)
    | order o | movement m => cases hrow
  exact Option.map_injective (fun _ _ heq => Write.item.inj heq) hget

/-- No effect removes an item. -/
theorem ItemsEffect.isSome {d d' : Db} (h : ItemsEffect d d') {id : Uuid}
    (hsome : (d.items.find? id).isSome) : (d'.items.find? id).isSome := by
  cases h with
  | same he => rwa [he]
  | created i he => rw [he]; exact Table.isSome_find?_upsert hsome
  | changed i i' he => rw [he]; exact Table.isSome_find?_upsert hsome

/-! ## Orders that were ever committed -/

/-- The current row `cur` of an order of which `o` is or was a version. -/
structure KnownOrder (d : Db) (o cur : Order) : Prop where
  row : d.orders.find? o.id = some cur
  itemId : cur.itemId = o.itemId
  quantity : cur.quantity = o.quantity
  latest : o = cur ∨ o.version < cur.version
  item : (d.items.find? cur.itemId).isSome

/-- The foreign key of `orders` holds. -/
def Db.Consistent (d : Db) : Prop := ∀ o ∈ d.orders.rows, (d.items.find? o.itemId).isSome

/-- The empty tables are consistent. -/
theorem Db.consistent_empty : Db.empty.Consistent := by
  intro o ho; cases ho

/-- An order of the tables is known as itself. -/
theorem KnownOrder.self {d : Db} {o : Order} (h : d.orders.find? o.id = some o)
    (hitem : (d.items.find? o.itemId).isSome) : KnownOrder d o o :=
  ⟨h, rfl, rfl, Or.inl rfl, hitem⟩

/-- A version that passes the optimistic check is the one that was read. -/
theorem OrderStep.eq_read {known : Order → Prop} {d : Db} {o cur o' : Order}
    {status : OrderStatus} (h : OrderStep known d o cur o' status)
    {cur' : Order} (hk : KnownOrder d o cur') : cur = o := by
  have hcur : cur = cur' := Option.some.inj (h.row.symm.trans hk.row)
  rcases hk.latest with hlatest | hlt
  · exact hcur.trans hlatest.symm
  · have := h.version; rw [hcur] at this; omega

/-- So such a step is one from the committed version of the order. -/
theorem OrderStep.current {known : Order → Prop} {d : Db} {o cur o' : Order}
    {status : OrderStatus} (h : OrderStep known d o cur o' status)
    (hknown : ∀ o, known o → ∃ cur, KnownOrder d o cur) :
    cur = o ∧ d.orders.find? o'.id = some cur := by
  obtain ⟨cur', hk⟩ := hknown o h.known
  obtain rfl := h.eq_read hk
  refine ⟨rfl, ?_⟩
  rw [h.id_eq]
  exact h.row

/-- A commit keeps every known order known. -/
private theorem knownOrder_step {known : Order → Prop} {d d' : Db} {ws : List Write}
    (ho : OrdersEffect known d d' ws) (hi : ItemsEffect d d') {o cur : Order}
    (h : KnownOrder d o cur) : ∃ cur', KnownOrder d' o cur' := by
  have hitem := hi.isSome h.item
  cases ho with
  | same he =>
    exact ⟨cur, { row := by rw [he]; exact h.row, itemId := h.itemId, quantity := h.quantity,
                  latest := h.latest, item := hitem }⟩
  | placed n he _ hnew =>
    -- an order that is new has another key
    have hne : o.id ≠ n.id := by
      intro hid
      rw [← hid, h.row] at hnew
      cases hnew
    exact ⟨cur, { row := by rw [he, Table.find?_upsert_ne hne]; exact h.row, itemId := h.itemId,
                  quantity := h.quantity, latest := h.latest, item := hitem }⟩
  | stepped r c n status he _ hstep =>
    have hcid : c.id = r.id := Table.key_of_find? hstep.row
    have hnid : n.id = r.id := hstep.id_eq.trans hcid
    by_cases hid : o.id = n.id
    · -- the order itself moves on: its old current row gets a successor
      have hc : c = cur := by
        have := h.row
        rw [hid, hnid, hstep.row] at this
        exact Option.some.inj this
      have hnitem : n.itemId = cur.itemId := by rw [hstep.itemId_eq, hc]
      have hnqty : n.quantity = cur.quantity := by rw [hstep.quantity_eq, hc]
      have hnver : n.version = cur.version + 1 := by rw [hstep.version_eq, hc]
      refine ⟨n, ?_, hnitem.trans h.itemId, hnqty.trans h.quantity, Or.inr ?_, hnitem ▸ hitem⟩
      · rw [he, hid]; exact Table.find?_upsert_self _ _
      · rcases h.latest with hl | hl
        · rw [hl]; omega
        · omega
    · -- another order moves on
      exact ⟨cur, { row := by rw [he, Table.find?_upsert_ne hid]; exact h.row,
                    itemId := h.itemId, quantity := h.quantity, latest := h.latest,
                    item := hitem }⟩

/-- What is written to `orders` becomes the current row. -/
private theorem knownOrder_new {known : Order → Prop} {d d' : Db} {ws : List Write}
    (ho : OrdersEffect known d d' ws) (hi : ItemsEffect d d')
    (hknown : ∀ o, known o → ∃ cur, KnownOrder d o cur) {o : Order} (hmem : .order o ∈ ws) :
    KnownOrder d' o o := by
  rw [← mem_orderRows] at hmem
  cases ho with
  | same _ hnone => rw [hnone] at hmem; cases hmem
  | placed n he hws _ hitem =>
    obtain rfl : o = n := by simpa [hws] using hmem
    -- a new order's item is in the table when it is placed, and items are never deleted
    refine .self ?_ (hi.isSome hitem)
    rw [he]; exact Table.find?_upsert_self _ _
  | stepped r c n status he hws hstep =>
    obtain rfl : o = n := by simpa [hws] using hmem
    obtain ⟨cur, hk⟩ := hknown r hstep.known
    -- a step starts at the row known, so item and quantity are the ones already known
    have hc : c = cur := Option.some.inj (hstep.row.symm.trans hk.row)
    have hitem : o.itemId = cur.itemId := by rw [hstep.itemId_eq, hc]
    refine .self ?_ (hi.isSome (hitem ▸ hk.item))
    rw [he]; exact Table.find?_upsert_self _ _

/-- Every order version that was ever committed belongs to a current order, and
    is its current version or an earlier one. -/
theorem Log.knownOrder {A : Allow} {d₀ d : Db} {wal : List Commit} (h : Log A d₀ wal d)
    (hd₀ : d₀.Consistent) {o : Order} (ho : knownIn d₀ wal o) : ∃ cur, KnownOrder d o cur := by
  induction h generalizing o with
  | nil =>
    rcases ho with ho | ⟨c, hc, _⟩
    · exact ⟨o, .self (Table.find?_of_mem ho) (hd₀ o ho)⟩
    · cases hc
  | snoc _ heff _ ih =>
    -- an order known before is known by its current row; the commit moves at most one
    rcases knownIn_snoc.mp ho with hold | hnew
    · obtain ⟨cur, hk⟩ := ih hold
      exact knownOrder_step heff.orders heff.items hk
    · exact ⟨o, knownOrder_new heff.orders heff.items (fun _ => ih) hnew⟩

/-- No row ever disappears. -/
theorem Log.isSome_get {A : Allow} {d₀ d : Db} {wal : List Commit} (h : Log A d₀ wal d) {row : Row}
    (hrow : (d₀.get row).isSome) : (d.get row).isSome := by
  induction h with
  | nil => exact hrow
  | snoc _ _ _ ih => exact Db.isSome_get_applyAll ih

/-- An item that is not there was not there at the start. -/
theorem Log.items_none {A : Allow} {d₀ d : Db} {wal : List Commit} (h : Log A d₀ wal d)
    {id : Uuid} (hnone : d.items.find? id = none) : d₀.items.find? id = none := by
  by_contra hne
  have hsome : (d₀.get (.item id)).isSome := by
    rw [Db.get_item_isSome]
    exact Option.isSome_iff_ne_none.mpr hne
  have := h.isSome_get hsome
  rw [Db.get_item_isSome, hnone] at this
  cases this

/-- An order that is not there was not there at the start. -/
theorem Log.orders_none {A : Allow} {d₀ d : Db} {wal : List Commit} (h : Log A d₀ wal d)
    {id : Uuid} (hnone : d.orders.find? id = none) : d₀.orders.find? id = none := by
  by_contra hne
  have hsome : (d₀.get (.order id)).isSome := by
    rw [Db.get_order_isSome]
    exact Option.isSome_iff_ne_none.mpr hne
  have := h.isSome_get hsome
  rw [Db.get_order_isSome, hnone] at this
  cases this

/-- Every current order row was committed. -/
theorem Log.known_of_mem {A : Allow} {d₀ d : Db} {wal : List Commit} (h : Log A d₀ wal d)
    {o : Order} (ho : o ∈ d.orders.rows) : knownIn d₀ wal o := by
  induction h generalizing o with
  | nil => exact Or.inl ho
  | snoc _ heff _ ih =>
    refine knownIn_snoc.mpr ?_
    cases heff.orders with
    | same he => rw [he] at ho; exact Or.inl (ih ho)
    | placed n he hws | stepped _ _ n _ he hws =>
      rw [he, Table.mem_upsert] at ho
      rcases ho with rfl | ⟨hold, _⟩
      · exact Or.inr (mem_orderRows.mp (by simp [hws]))
      · exact Or.inl (ih hold)

/-- Every order of the tables is a known version. -/
theorem Log.known_of_find? {A : Allow} {d₀ d : Db} {wal : List Commit} (h : Log A d₀ wal d)
    {id : Uuid} {o : Order} (ho : d.orders.find? id = some o) : knownIn d₀ wal o :=
  h.known_of_mem (Table.mem_of_find? ho)

/-- Every current item row was committed. -/
theorem Log.taken_of_mem {A : Allow} {d₀ d : Db} {wal : List Commit} (h : Log A d₀ wal d)
    {i : MenuItem} (hi : i ∈ d.items.rows) : takenIn d₀ wal i.name := by
  induction h generalizing i with
  | nil => exact Or.inl ⟨i, hi, rfl⟩
  | @snoc wal d c e _ _ _ ih =>
    have hrow := Db.get_item.mpr (Table.find?_of_mem hi)
    rcases Db.get_applyAll_some hrow with hw | hold
    · exact Or.inr ⟨c, List.mem_append_right _ (List.mem_singleton.mpr rfl), i, hw, rfl⟩
    · exact (ih (Table.mem_of_find? (Db.get_item.mp hold))).mono (List.prefix_append _ _)

/-- The foreign key of `orders` keeps holding. -/
theorem Log.consistent {A : Allow} {d₀ d : Db} {wal : List Commit} (h : Log A d₀ wal d)
    (hd₀ : d₀.Consistent) : d.Consistent := by
  intro o ho
  obtain ⟨cur, hk⟩ := h.knownOrder hd₀ (h.known_of_mem ho)
  have hcur : o = cur := Option.some.inj ((Table.find?_of_mem ho).symm.trans hk.row)
  rw [hcur]; exact hk.item

end Nova
