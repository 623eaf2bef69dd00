import Nova.App.Api

/-!
# What a request may commit

`Effect` says, without statements, locks or schedules, what the transaction of a
request may have written when it ends, as a relation between the committed
tables at that moment and the row versions it adds. `Log` is the abstract
system: a sequence of such commits, each applied to the tables the ones before
it left. The invariants of the ledger, of the order life cycle and of the audit
trail are inductions over `Log`; that every run of the code is a `Log` is proved
in `Nova.Spec.Runs`.
-/

namespace Nova

/-! ## Row versions -/

/-- The committed version of a row. -/
def Db.get (d : Db) : Row → Option Write
  | .item id => (d.items.find? id).map .item
  | .order id => (d.orders.find? id).map .order
  | .movement id => (d.movements.find? id).map .movement
  | .itemName _ => none

/-- The row of an item key is what the item table finds. -/
@[simp] theorem Db.get_item {d : Db} {id : Uuid} {i : MenuItem} :
    d.get (.item id) = some (.item i) ↔ d.items.find? id = some i := by
  simp [Db.get]

/-- The row of an order key is what the order table finds. -/
@[simp] theorem Db.get_order {d : Db} {id : Uuid} {o : Order} :
    d.get (.order id) = some (.order o) ↔ d.orders.find? id = some o := by
  simp [Db.get]

/-- An item key is free when the item table finds nothing. -/
theorem Db.get_item_eq_none {d : Db} {id : Uuid} :
    d.get (.item id) = none ↔ d.items.find? id = none := by
  simp [Db.get]

/-- An order key is free when the order table finds nothing. -/
theorem Db.get_order_eq_none {d : Db} {id : Uuid} :
    d.get (.order id) = none ↔ d.orders.find? id = none := by
  simp [Db.get]

/-- A movement key is free when the movement table finds nothing. -/
theorem Db.get_movement_eq_none {d : Db} {id : Uuid} :
    d.get (.movement id) = none ↔ d.movements.find? id = none := by
  simp [Db.get]

/-- An item key is taken when the item table finds a row. -/
theorem Db.get_item_isSome {d : Db} {id : Uuid} :
    (d.get (.item id)).isSome = (d.items.find? id).isSome := by
  simp [Db.get]

/-- An order key is taken when the order table finds a row. -/
theorem Db.get_order_isSome {d : Db} {id : Uuid} :
    (d.get (.order id)).isSome = (d.orders.find? id).isSome := by
  simp [Db.get]

/-- A write changes the version of its own row only. -/
theorem Db.get_apply (d : Db) (w : Write) (row : Row) :
    (d.apply w).get row = if row = w.row then some w else d.get row := by
  cases w <;> cases row <;> simp [Db.apply, Db.get, Write.row, Table.find?_upsert] <;>
    split <;> simp_all

/-- Row versions of other rows leave a row as it is. -/
theorem Db.get_applyAll_of_not_mem {d : Db} {ws : List Write} {row : Row}
    (h : ∀ w ∈ ws, w.row ≠ row) : (d.applyAll ws).get row = d.get row := by
  induction ws generalizing d with
  | nil => rfl
  | cons w ws ih =>
    have hw : row ≠ w.row := (h w List.mem_cons_self).symm
    calc ((d.apply w).applyAll ws).get row
        = (d.apply w).get row := ih fun w' hw' => h w' (List.mem_cons_of_mem _ hw')
      _ = d.get row := by rw [Db.get_apply, if_neg hw]

/-- The version of a row is among the writes or was there before. -/
theorem Db.get_applyAll_some {d : Db} {ws : List Write} {row : Row} {w : Write}
    (h : (d.applyAll ws).get row = some w) : w ∈ ws ∨ d.get row = some w := by
  induction ws generalizing d with
  | nil => exact Or.inr h
  | cons w' ws ih =>
    rcases ih (d := d.apply w') h with hw | hw
    · exact Or.inl (List.mem_cons_of_mem _ hw)
    · rw [Db.get_apply] at hw
      split at hw
      · exact Or.inl (List.mem_cons.mpr (Or.inl (Option.some.inj hw).symm))
      · exact Or.inr hw

/-- No row ever disappears. -/
theorem Db.isSome_get_applyAll {d : Db} {ws : List Write} {row : Row}
    (h : (d.get row).isSome) : ((d.applyAll ws).get row).isSome := by
  induction ws generalizing d with
  | nil => exact h
  | cons w ws ih =>
    refine ih (d := d.apply w) ?_
    rw [Db.get_apply]
    split
    · rfl
    · exact h

/-- No row version changes nothing. -/
@[simp] theorem Db.applyAll_nil (d : Db) : d.applyAll [] = d := rfl

/-- Writes to other tables leave the orders alone. -/
theorem Db.orders_applyAll {d : Db} {ws : List Write} (h : ∀ o, .order o ∉ ws) :
    (d.applyAll ws).orders = d.orders := by
  induction ws generalizing d with
  | nil => rfl
  | cons w ws ih =>
    have hrest := ih (d := d.apply w) fun o ho => h o (List.mem_cons_of_mem _ ho)
    have hw : (d.apply w).orders = d.orders := by
      cases w with
      | order o => exact absurd List.mem_cons_self (h o)
      | item i | movement m => rfl
    exact hrest.trans hw

/-! ## Actions on orders -/

namespace Action

/-- The status an action moves an order to. -/
def target : Action → OrderStatus
  | .confirm => .confirmed
  | .ship => .shipped
  | .deliver => .delivered
  | .cancel => .cancelled

/-- The action changes the stock of the order's item. -/
def movesStock (a : Action) (o : Order) : Prop :=
  a = .confirm ∨ (a = .cancel ∧ o.status ∈ OrderStatus.stockHoldingStates)

/-- By how much. -/
def stockDelta (a : Action) (o : Order) : Int :=
  match a with
  | .confirm => -o.quantity
  | .cancel => o.quantity
  | .ship | .deliver => 0

/-- The type of the movement that an action records, if it moves stock. -/
def movementType : Action → MovementType
  | .confirm => .deduction
  | .ship | .deliver | .cancel => .restoration

end Action

/-- The status code of a domain exception. -/
def Exc.statusCode : Exc → Nat
  | .notFound _ _ => 404
  | .insufficientStock _ _ _ | .invalidTransition _ _ => 422
  | .conflict _ _ => 409
  | .http status _ => status
  | .requestValidation => 422
  | .responseValidation | .failure _ => 500

/-- One of the four exceptions of `core/exceptions.py`. -/
def Exc.isDomain : Exc → Bool
  | .notFound _ _ | .insufficientStock _ _ _ | .invalidTransition _ _ | .conflict _ _ => true
  | _ => false

/-- The domain exceptions that the service method of a request raises. -/
def Request.raises : Request → Exc → Bool
  | .adjustStock _ _, .notFound _ _ | .adjustStock _ _, .insufficientStock _ _ _ => true
  | .placeOrder _, .notFound _ _ | .getStock _, .notFound _ _ => true
  | .transition _ _, e => e.isDomain
  | _, _ => false

/-- What the transitions of a request raise is a domain exception. -/
theorem Request.isDomain_of_raises {req : Request} {e : Exc} (h : req.raises e = true) :
    e.isDomain = true := by
  cases req with
  | transition a id => exact h
  | createItem b | adjustStock id b | placeOrder b | getStock id =>
    cases e <;> first | rfl | cases h

/-- A stock read raises nothing but that the item does not exist. -/
theorem Request.statusCode_of_isRead {req : Request} {e : Exc} (h : req.raises e = true)
    (hread : req.isRead = true) : e.statusCode = 404 := by
  cases req with
  | getStock id => cases e <;> first | rfl | cases h
  | createItem b | adjustStock id b | placeOrder b | transition a id => cases hread

/-! ## Effects -/

/-- `i'` is the row `i` with `delta` added to its stock and its version bumped,
    and `m` the new movement that records it. -/
structure StockChange (d : Db) (i i' : MenuItem) (m : StockMovement) (delta : Int)
    (type : MovementType) (orderId : Option Uuid) : Prop where
  row : d.items.find? i.id = some i
  next : i' = { i with
    stockQuantity := i'.stockQuantity, version := i'.version, updatedAt := i'.updatedAt
    ckStockNonNegative := i'.ckStockNonNegative }
  stock : i'.stockQuantity = i.stockQuantity + delta
  version : i'.version = i.version + 1
  fresh : d.movements.find? m.id = none
  itemId : m.itemId = i.id
  quantityDelta : m.quantityDelta = delta
  stockBefore : m.stockBefore = i.stockQuantity
  stockAfter : m.stockAfter = i.stockQuantity + delta
  movementType : m.movementType = type
  orderId : m.orderId = orderId

/-- `o'` is the current row `cur` of the order that was read as `o`, moved to
    `status`, and the version has not changed since `o` was read. -/
structure OrderStep (known : Order → Prop) (d : Db) (o cur o' : Order) (status : OrderStatus) :
    Prop where
  known : known o
  row : d.orders.find? o.id = some cur
  version : cur.version = o.version
  next : o' = { cur with status, version := cur.version + 1, updatedAt := o'.updatedAt }

/-- The effects beyond those of a transaction that ran alone which a system
    allows. -/
structure Allow where
  /-- An exception may commit what was written before it. -/
  exceptions : Prop
  /-- A change of stock may be committed although the order had moved on. -/
  stale : Prop
  /-- A stock read may write the cached quantity into the row. -/
  overwrite : Prop

/-- `o` is or has been a committed version of an order, when `d₀` were the first
    tables and `wal` the commits since. -/
def knownIn (d₀ : Db) (wal : List Commit) (o : Order) : Prop :=
  o ∈ d₀.orders.rows ∨ ∃ c ∈ wal, .order o ∈ c.writes

/-- A known order version stays known. -/
theorem knownIn.append {d₀ : Db} {wal : List Commit} {o : Order} (h : knownIn d₀ wal o)
    (wal' : List Commit) : knownIn d₀ (wal ++ wal') o := by
  rcases h with h | ⟨c, hc, ho⟩
  · exact Or.inl h
  · exact Or.inr ⟨c, List.mem_append_left _ hc, ho⟩

/-- One more commit makes its own order versions known. -/
theorem knownIn_snoc {d₀ : Db} {wal : List Commit} {c : Commit} {o : Order} :
    knownIn d₀ (wal ++ [c]) o ↔ knownIn d₀ wal o ∨ .order o ∈ c.writes := by
  simp only [knownIn, List.mem_append, List.mem_singleton, or_and_right, exists_or,
    exists_eq_left, or_assoc]

/-- A committed version of an item has or had the name. -/
def takenIn (d₀ : Db) (wal : List Commit) (name : String) : Prop :=
  (∃ i ∈ d₀.items.rows, i.name = name) ∨ ∃ c ∈ wal, ∃ i, .item i ∈ c.writes ∧ i.name = name

/-- A taken name stays taken. -/
theorem takenIn.mono {d₀ : Db} {wal wal' : List Commit} {name : String}
    (h : takenIn d₀ wal name) (hwal : wal <+: wal') : takenIn d₀ wal' name := by
  rcases h with h | ⟨c, hc, hi⟩
  · exact Or.inl h
  · exact Or.inr ⟨c, hwal.subset hc, hi⟩

/-- The item that the body or the path of a request names. -/
def Request.itemId? : Request → Option Uuid
  | .adjustStock id _ | .getStock id => some id
  | .placeOrder b => some b.itemId
  | .createItem _ | .transition _ _ => none

/-- Why a request that read the order `read` may end with the domain exception `e`
    and write nothing. -/
inductive Refusal (d₀ : Db) (wal : List Commit) (d : Db) :
    Request → Option Order → Exc → Prop
  | noItem {req read id} : req.itemId? = some id → d₀.items.find? id = none →
      Refusal d₀ wal d req read (.notFound "MenuItem" id)
  | shortage {id b read i} : d.items.find? id = some i → i.stockQuantity + b.delta < 0 →
      Refusal d₀ wal d (.adjustStock id b) read
        (.insufficientStock id b.delta.natAbs i.stockQuantity)
  | noOrder {a id} : d₀.orders.find? id = none →
      Refusal d₀ wal d (.transition a id) none (.notFound "Order" id)
  | invalid {a : Action} {id : Uuid} {o : Order} : knownIn d₀ wal o → o.id = id →
      o.status.canTransitionTo a.target = false →
      Refusal d₀ wal d (.transition a id) (some o) (.invalidTransition o.status a.target)
  | conflict {a : Action} {id : Uuid} {o newer : Order} : knownIn d₀ wal o → o.id = id →
      knownIn d₀ wal newer → newer.id = id → newer.version ≠ o.version →
      Refusal d₀ wal d (.transition a id) (some o) (.conflict "Order" id)

/-- `Effect A d₀ wal d req read e ws`: a transaction for `req` that read the order
    `read` and ended with `e` (`none` for a normal return) may commit `ws` when the
    committed tables are `d`, to which the commits `wal` have led from `d₀`. -/
inductive Effect (A : Allow) (d₀ : Db) (wal : List Commit) (d : Db) :
    Request → Option Order → Option Exc → List Write → Prop
  | refused {req read e} : Refusal d₀ wal d req read e → Effect A d₀ wal d req read (some e) []
  | created {b : ItemCreate} {read} {i : MenuItem} {m : StockMovement} :
      d.items.find? i.id = none → i.name = b.name → i.description = b.description →
      i.price = b.price → i.stockQuantity = b.stockQuantity →
      i.lowStockThreshold = b.lowStockThreshold → i.version = 1 → d.movements.find? m.id = none →
      m.itemId = i.id →
      m.quantityDelta = b.stockQuantity → m.stockBefore = 0 → m.stockAfter = b.stockQuantity →
      m.movementType = .adjustment → m.orderId = none →
      Effect A d₀ wal d (.createItem b) read none [.item i, .movement m]
  | adjusted {id : Uuid} {b : ItemStockAdjust} {read} {i i' : MenuItem} {m : StockMovement} :
      i.id = id → StockChange d i i' m b.delta .adjustment none →
      Effect A d₀ wal d (.adjustStock id b) read none [.item i', .movement m]
  | placed {b : OrderCreate} {read} {o : Order} :
      (d.items.find? b.itemId).isSome → d.orders.find? o.id = none → o.itemId = b.itemId →
      o.quantity = b.quantity → o.customerRef = b.customerRef → o.status = .pending →
      o.version = 1 → Effect A d₀ wal d (.placeOrder b) read none [.order o]
  | rejected {id : Uuid} {o cur o' : Order} {i : MenuItem} {e : Exc} :
      A.exceptions → o.id = id → o.status.canTransitionTo .confirmed →
      d.items.find? o.itemId = some i → i.stockQuantity < o.quantity →
      e = .insufficientStock i.id o.quantity i.stockQuantity →
      OrderStep (knownIn d₀ wal) d o cur o' .rejected →
      Effect A d₀ wal d (.transition .confirm id) (some o) (some e) [.order o']
  | stocked {a : Action} {id : Uuid} {o cur o' : Order} {i i' : MenuItem} {m : StockMovement} :
      a.movesStock o → o.id = id → o.status.canTransitionTo a.target → i.id = o.itemId →
      StockChange d i i' m (a.stockDelta o) a.movementType (some id) →
      OrderStep (knownIn d₀ wal) d o cur o' a.target →
      Effect A d₀ wal d (.transition a id) (some o) none [.item i', .movement m, .order o']
  | moved {a : Action} {id : Uuid} {o cur o' : Order} :
      ¬a.movesStock o → o.id = id → o.status.canTransitionTo a.target →
      OrderStep (knownIn d₀ wal) d o cur o' a.target →
      Effect A d₀ wal d (.transition a id) (some o) none [.order o']
  | stale {a : Action} {id : Uuid} {o newer : Order} {i i' : MenuItem} {m : StockMovement}
      {e : Exc} :
      A.exceptions → A.stale → a.movesStock o → o.id = id → o.status.canTransitionTo a.target →
      i.id = o.itemId → StockChange d i i' m (a.stockDelta o) a.movementType (some id) →
      knownIn d₀ wal o → knownIn d₀ wal newer → newer.id = id → newer.version ≠ o.version →
      e = .conflict "Order" id →
      Effect A d₀ wal d (.transition a id) (some o) (some e) [.item i', .movement m]
  | read {id : Uuid} {read} : Effect A d₀ wal d (.getStock id) read none []
  | overwritten {id : Uuid} {read} {i i' : MenuItem} :
      A.overwrite → d.items.find? id = some i →
      i' = { i with
        stockQuantity := i'.stockQuantity, updatedAt := i'.updatedAt
        ckStockNonNegative := i'.ckStockNonNegative } →
      Effect A d₀ wal d (.getStock id) read none [.item i']

section

variable {known : Order → Prop} {d : Db} {o cur o' : Order} {status : OrderStatus}

/-- A step of an order keeps its key. -/
theorem OrderStep.id_eq (h : OrderStep known d o cur o' status) : o'.id = cur.id := by
  rw [h.next]

/-- A step of an order keeps its item. -/
theorem OrderStep.itemId_eq (h : OrderStep known d o cur o' status) : o'.itemId = cur.itemId := by
  rw [h.next]

/-- A step of an order keeps its quantity. -/
theorem OrderStep.quantity_eq (h : OrderStep known d o cur o' status) :
    o'.quantity = cur.quantity := by
  rw [h.next]

/-- A step of an order sets the status it was asked for. -/
theorem OrderStep.status_eq (h : OrderStep known d o cur o' status) : o'.status = status := by
  rw [h.next]

/-- A step of an order counts its version up. -/
theorem OrderStep.version_eq (h : OrderStep known d o cur o' status) :
    o'.version = cur.version + 1 := by
  rw [h.next]

end

/-- A read commits nothing, if it may not overwrite the row. -/
theorem Effect.read_writes {A : Allow} {d₀ d : Db} {wal : List Commit} {req : Request}
    {read : Option Order} {e : Option Exc} {ws : List Write} (hover : ¬A.overwrite)
    (h : Effect A d₀ wal d req read e ws) (hread : req.isRead = true) : ws = [] := by
  cases h with
  | read | refused => rfl
  | overwritten ho => exact absurd ho hover
  | created | adjusted | placed | rejected | stocked | moved | stale => cases hread

/-- A writer that returns has something to commit. -/
theorem Effect.writes_ne_nil {A : Allow} {d₀ d : Db} {wal : List Commit} {req : Request}
    {read : Option Order} {ws : List Write} (h : Effect A d₀ wal d req read none ws)
    (hread : req.isRead = false) : ws ≠ [] := by
  cases h with
  | created | adjusted | placed | stocked | moved => exact List.cons_ne_nil _ _
  | read | overwritten => cases hread

end Nova
