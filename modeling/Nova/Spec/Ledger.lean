import Nova.Spec.Log

/-!
# The stock ledger

What the three tables say about the stock of an item, when no stale change and no
cached quantity is ever committed: `Ledger` ties the stock to the adjustments and
to the orders that hold units, and the movements of each order to its status.
`Log.ledger` is the induction over all commits. The step uses that the order that
passed the optimistic check still has the status it was read with
(`OrderStep.eq_read`).
-/

namespace Nova

/-! ## Sums -/

/-- The committed stock of an item, 0 if there is none. -/
def Db.stock (d : Db) (id : Uuid) : Int := ((d.items.find? id).map (·.stockQuantity)).getD 0

/-- What a movement adds to the adjustments of an item. -/
def StockMovement.adjusts (m : StockMovement) (id : Uuid) : Int :=
  if m.itemId = id ∧ m.movementType = .adjustment then m.quantityDelta else 0

/-- The units of an item that an order holds. -/
def Order.holds (o : Order) (id : Uuid) : Int :=
  if o.itemId = id ∧ o.status ∈ OrderStatus.stockHoldingStates then o.quantity else 0

/-- The sum of the ADJUSTMENT movements of an item. -/
def Db.adjusted (d : Db) (id : Uuid) : Int := d.movements.sumBy (·.adjusts id)

/-- The units of an item held by CONFIRMED, SHIPPED and DELIVERED orders. -/
def Db.held (d : Db) (id : Uuid) : Int := d.orders.sumBy (·.holds id)

/-- The movements of an order, in commit order. -/
def Db.movementsOf (d : Db) (orderId : Uuid) : List StockMovement :=
  d.movements.rows.filter (·.orderId = some orderId)

/-- The stock of an item is the quantity of its row. -/
theorem Db.stock_of_find? {d : Db} {id : Uuid} {i : MenuItem} (h : d.items.find? id = some i) :
    d.stock id = i.stockQuantity := by
  simp [Db.stock, h]

/-- No stock is negative. -/
theorem Db.stock_nonneg (d : Db) (id : Uuid) : 0 ≤ d.stock id := by
  unfold Db.stock
  cases h : d.items.find? id with
  | none => simp
  | some i => simpa using i.ckStockNonNegative

section

variable {d : Db} {id : Uuid}

/-- An item's row sets its own stock. -/
theorem Db.stock_apply_item (i : MenuItem) :
    (d.apply (.item i)).stock id = if id = i.id then i.stockQuantity else d.stock id := by
  simp only [Db.stock, Db.apply, Table.find?_upsert]
  split <;> simp

/-- An order's row changes the held units by what it holds less what it held. -/
theorem Db.held_apply_order (o : Order) : (d.apply (.order o)).held id =
    d.held id + o.holds id - ((d.orders.find? o.id).map (·.holds id)).getD 0 :=
  Table.sumBy_upsert d.orders o _

/-- A new movement changes the adjustments of its item. -/
theorem Db.adjusted_apply_movement {m : StockMovement} (h : d.movements.find? m.id = none) :
    (d.apply (.movement m)).adjusted id = d.adjusted id + m.adjusts id := by
  have hsum := Table.sumBy_upsert d.movements m (·.adjusts id)
  rw [h] at hsum
  simp only [Option.map_none, Option.getD_none, sub_zero] at hsum
  exact hsum

/-- A new movement comes last among those of its order. -/
theorem Db.movementsOf_apply_movement {m : StockMovement} (h : d.movements.find? m.id = none) :
    (d.apply (.movement m)).movementsOf id =
      d.movementsOf id ++ if m.orderId = some id then [m] else [] := by
  simp only [Db.movementsOf, Db.apply, Table.rows_upsert_new h, List.filter_append]
  split <;> simp_all

/-! A write to one table leaves the sums over the others alone. -/

/-- An order's row leaves the stock. -/
@[simp] theorem Db.stock_apply_order (o : Order) : (d.apply (.order o)).stock id = d.stock id := rfl

/-- A movement leaves the stock. -/
@[simp] theorem Db.stock_apply_movement (m : StockMovement) :
    (d.apply (.movement m)).stock id = d.stock id := rfl

/-- An item's row leaves the held units. -/
@[simp] theorem Db.held_apply_item (i : MenuItem) : (d.apply (.item i)).held id = d.held id := rfl

/-- A movement leaves the held units. -/
@[simp] theorem Db.held_apply_movement (m : StockMovement) :
    (d.apply (.movement m)).held id = d.held id := rfl

/-- An item's row leaves the adjustments. -/
@[simp] theorem Db.adjusted_apply_item (i : MenuItem) :
    (d.apply (.item i)).adjusted id = d.adjusted id := rfl

/-- An order's row leaves the adjustments. -/
@[simp] theorem Db.adjusted_apply_order (o : Order) :
    (d.apply (.order o)).adjusted id = d.adjusted id := rfl

/-- An item's row is no movement. -/
@[simp] theorem Db.movementsOf_apply_item (i : MenuItem) :
    (d.apply (.item i)).movementsOf id = d.movementsOf id := rfl

/-- An order's row is no movement. -/
@[simp] theorem Db.movementsOf_apply_order (o : Order) :
    (d.apply (.order o)).movementsOf id = d.movementsOf id := rfl

end

/-! ## Movements and status -/

/-- `m` records the deduction of the units of `o`. -/
def Deducts (o : Order) (m : StockMovement) : Prop :=
  m.itemId = o.itemId ∧ m.movementType = .deduction ∧ m.quantityDelta = -o.quantity

/-- `m` records their return. -/
def Restores (o : Order) (m : StockMovement) : Prop :=
  m.itemId = o.itemId ∧ m.movementType = .restoration ∧ m.quantityDelta = o.quantity

/-- The movements that an order of the status of `o` has. -/
def MatchesStatus (o : Order) (ms : List StockMovement) : Prop :=
  match o.status with
  | .pending | .rejected => ms = []
  | .confirmed | .shipped | .delivered => ∃ m, ms = [m] ∧ Deducts o m
  | .cancelled => ms = [] ∨ ∃ m m', ms = [m, m'] ∧ Deducts o m ∧ Restores o m'

/-- Stock, adjustments, orders and movements agree. -/
structure Ledger (d : Db) : Prop where
  stock : ∀ id, d.stock id = d.adjusted id - d.held id
  movements : ∀ o, d.orders.find? o.id = some o → MatchesStatus o (d.movementsOf o.id)
  noOrder : ∀ id, d.orders.find? id = none → d.movementsOf id = []

/-- The empty tables agree. -/
theorem Ledger.empty : Ledger Db.empty where
  stock _ := rfl
  movements _ ho := nomatch ho
  noOrder _ _ := rfl

/-- The units held never exceed what was adjusted in. -/
theorem Ledger.held_le {d : Db} (h : Ledger d) (id : Uuid) : d.held id ≤ d.adjusted id := by
  have hstock := h.stock id
  have hnonneg := d.stock_nonneg id
  omega

/-! ## One commit

What a commit does to the movements of the orders, and then to the stock of the items. -/

/-- The movements of every order match its status. -/
structure Recorded (d : Db) : Prop where
  movements : ∀ o, d.orders.find? o.id = some o → MatchesStatus o (d.movementsOf o.id)
  noOrder : ∀ id, d.orders.find? id = none → d.movementsOf id = []

/-- The empty tables agree. -/
theorem Recorded.empty : Recorded Db.empty where
  movements _ ho := nomatch ho
  noOrder _ _ := rfl

/-- The status from which each action starts, by whether it moves stock. -/
theorem Action.movesStock_from {a : Action} {o : Order} (ha : a.movesStock o)
    (h : o.status.canTransitionTo a.target = true) :
    (a = .confirm ∧ o.status = .pending) ∨
      (a = .cancel ∧ (o.status = .confirmed ∨ o.status = .shipped)) := by
  rcases ha with rfl | ⟨rfl, hheld⟩
  · exact Or.inl ⟨rfl, canTransitionTo_confirmed h⟩
  · right
    refine ⟨rfl, ?_⟩
    cases hs : o.status <;> rw [hs] at h hheld <;>
      simp_all [OrderStatus.stockHoldingStates, OrderStatus.canTransitionTo,
        OrderStatus.validTransitions, Action.target]

/-- The status from which an action starts that moves no stock. -/
theorem Action.not_movesStock_from {a : Action} {o : Order} (ha : ¬a.movesStock o)
    (h : o.status.canTransitionTo a.target = true) :
    (a = .ship ∧ o.status = .confirmed) ∨ (a = .deliver ∧ o.status = .shipped) ∨
      (a = .cancel ∧ o.status = .pending) := by
  cases a <;> cases hs : o.status <;> rw [hs] at h <;>
    simp_all [Action.movesStock, OrderStatus.stockHoldingStates, OrderStatus.canTransitionTo,
      OrderStatus.validTransitions, Action.target]

/-- A commit to other tables, or of movements that belong to no order. -/
private theorem recorded_same {d d' : Db} (h : Recorded d) (horders : d'.orders = d.orders)
    (hmovements : ∀ id, d'.movementsOf id = d.movementsOf id) : Recorded d' where
  movements o ho := by
    rw [horders] at ho
    rw [hmovements]
    exact h.movements o ho
  noOrder id hid := by
    rw [horders] at hid
    rw [hmovements]
    exact h.noOrder id hid

/-- A commit of an order whose movements match its new status. -/
private theorem recorded_order {d : Db} (h : Recorded d) {o : Order}
    (hmatch : MatchesStatus o (d.movementsOf o.id)) : Recorded (d.apply (.order o)) where
  movements o₁ ho₁ := by
    simp only [Db.apply, Table.find?_upsert] at ho₁
    split at ho₁
    · obtain rfl := Option.some.inj ho₁
      exact hmatch
    · exact h.movements o₁ ho₁
  noOrder id hid := by
    simp only [Db.apply, Table.find?_upsert] at hid
    split at hid
    · cases hid
    · exact h.noOrder id hid

/-- The movements of the orders after a change of stock. -/
theorem movementsOf_change {d : Db} {i i' : MenuItem} {m : StockMovement} {delta : Int}
    {type : MovementType} {orderId : Option Uuid} (hch : StockChange d i i' m delta type orderId)
    (id : Uuid) : ((d.apply (.item i')).apply (.movement m)).movementsOf id =
      d.movementsOf id ++ if orderId = some id then [m] else [] := by
  have hfresh : (d.apply (.item i')).movements.find? m.id = none := hch.fresh
  rw [Db.movementsOf_apply_movement hfresh, hch.orderId]
  rfl

/-- A commit that changes the stock together with the order that holds it. -/
private theorem recorded_stocked {d : Db} (h : Recorded d) {i i' : MenuItem} {m : StockMovement}
    {delta : Int} {type : MovementType} {o' : Order}
    (hch : StockChange d i i' m delta type (some o'.id))
    (hmatch : MatchesStatus o' (d.movementsOf o'.id ++ [m])) :
    Recorded (((d.apply (.item i')).apply (.movement m)).apply (.order o')) where
  movements o₁ ho₁ := by
    simp only [Db.movementsOf_apply_order, movementsOf_change hch, Option.some.injEq]
    simp only [Db.apply, Table.find?_upsert] at ho₁
    split at ho₁
    · obtain rfl := Option.some.inj ho₁
      simpa using hmatch
    · rename_i hne
      have := h.movements o₁ ho₁
      simpa [Ne.symm hne] using this
  noOrder id hid := by
    simp only [Db.movementsOf_apply_order, movementsOf_change hch, Option.some.injEq]
    simp only [Db.apply, Table.find?_upsert] at hid
    split at hid
    · cases hid
    · rename_i hne
      rw [h.noOrder id hid, if_neg (Ne.symm hne)]
      rfl

/-- One commit keeps the movements of the orders in step, where nothing stale is
    committed. -/
private theorem recorded_step {A : Allow} {d₀ d : Db} {wal : List Commit} {req : Request}
    {read : Option Order} {e : Option Exc} {ws : List Write} (hstale : ¬A.stale)
    (hknown : ∀ o, knownIn d₀ wal o → ∃ cur, KnownOrder d o cur)
    (h : Recorded d) (heff : Effect A d₀ wal d req read e ws) : Recorded (d.applyAll ws) := by
  cases heff with
  | refused => exact h
  | read => exact h
  | stale _ hs => exact absurd hs hstale
  | overwritten => exact recorded_same h rfl fun _ => rfl
  | @created b read i m _ _ _ _ _ _ _ hfresh _ _ _ _ _ horderId =>
    have hfresh' : (d.apply (.item i)).movements.find? m.id = none := hfresh
    refine recorded_same h rfl fun id => ?_
    show ((d.apply (.item i)).apply (.movement m)).movementsOf id = _
    rw [Db.movementsOf_apply_movement hfresh', horderId]
    simp
  | adjusted _ hch =>
    refine recorded_same h rfl fun id => ?_
    exact (movementsOf_change hch id).trans (by simp)
  | placed _ hnew _ _ _ hstatus _ =>
    refine recorded_order h ?_
    rw [h.noOrder _ hnew, MatchesStatus, hstatus]
  | @rejected id o cur o' i e _ hid hallowed _ _ _ hstep =>
    -- PENDING and REJECTED orders have no movements
    obtain ⟨rfl, hrow⟩ := hstep.current hknown
    have hpending := canTransitionTo_confirmed hallowed
    have hmatch := h.movements cur hstep.row
    have hid' : o'.id = cur.id := hstep.id_eq
    have hstatus : o'.status = .rejected := hstep.status_eq
    refine recorded_order h ?_
    simp only [MatchesStatus, hpending, hstatus, hid'] at hmatch ⊢
    exact hmatch
  | @stocked a id o cur o' i i' m hmoves hid hallowed hiid hch hstep =>
    obtain ⟨rfl, hrow⟩ := hstep.current hknown
    have hmatch := h.movements cur hstep.row
    have hid' : o'.id = cur.id := hstep.id_eq
    have hitem : o'.itemId = cur.itemId := hstep.itemId_eq
    have hquantity : o'.quantity = cur.quantity := hstep.quantity_eq
    have hstatus : o'.status = a.target := hstep.status_eq
    have hmitem : m.itemId = cur.itemId := hch.itemId.trans hiid
    refine recorded_stocked h (by rw [hid', hid]; exact hch) ?_
    rcases Action.movesStock_from hmoves hallowed with ⟨rfl, hpending⟩ | ⟨rfl, hheld⟩
    · -- the first movement of a PENDING order
      simp only [MatchesStatus, hpending] at hmatch
      simp only [MatchesStatus, hstatus, Action.target, hid', hmatch]
      refine ⟨m, rfl, hmitem.trans hitem.symm, hch.movementType, ?_⟩
      rw [hch.quantityDelta, hquantity]
      rfl
    · -- the second one of an order that held its units
      have hdeducted : ∃ m₀, d.movementsOf cur.id = [m₀] ∧ Deducts cur m₀ := by
        rcases hheld with hs | hs <;> simpa only [MatchesStatus, hs] using hmatch
      obtain ⟨m₀, hms, hm₀⟩ := hdeducted
      simp only [MatchesStatus, hstatus, Action.target, hid', hms]
      refine Or.inr ⟨m₀, m, rfl, ?_, hmitem.trans hitem.symm, hch.movementType, ?_⟩
      · unfold Deducts
        rw [hitem, hquantity]
        exact hm₀
      · rw [hch.quantityDelta, hquantity]
        rfl
  | @moved a id o cur o' hstays hid hallowed hstep =>
    obtain ⟨rfl, hrow⟩ := hstep.current hknown
    have hmatch := h.movements cur hstep.row
    have hid' : o'.id = cur.id := hstep.id_eq
    have hitem : o'.itemId = cur.itemId := hstep.itemId_eq
    have hquantity : o'.quantity = cur.quantity := hstep.quantity_eq
    have hstatus : o'.status = a.target := hstep.status_eq
    refine recorded_order h ?_
    rcases Action.not_movesStock_from hstays hallowed with ⟨rfl, hs⟩ | ⟨rfl, hs⟩ | ⟨rfl, hs⟩ <;>
      simp only [MatchesStatus, hs, hstatus, hid', Action.target, Deducts, hitem, hquantity]
        at hmatch ⊢
    · exact hmatch
    · exact hmatch
    · exact Or.inl hmatch

/-- Every sequence of commits without stale changes keeps the movements of the orders in
    step, overwritten quantities or not. -/
theorem Log.recorded {A : Allow} {d₀ d : Db} {wal : List Commit} (h : Log A d₀ wal d)
    (hd₀ : d₀.Consistent) (hrecorded : Recorded d₀) (hstale : ¬A.stale) : Recorded d := by
  induction h with
  | nil => exact hrecorded
  | snoc hlog heff _ ih => exact recorded_step hstale (fun _ ho => hlog.knownOrder hd₀ ho) ih heff

/-- The stock and the adjustments after a change of stock. -/
private theorem stock_change {d : Db} {i i' : MenuItem} {m : StockMovement} {delta : Int}
    {type : MovementType} {orderId : Option Uuid} (hch : StockChange d i i' m delta type orderId)
    (id : Uuid) :
    ((d.apply (.item i')).apply (.movement m)).stock id =
        d.stock id + (if id = i.id then delta else 0) ∧
      ((d.apply (.item i')).apply (.movement m)).adjusted id =
        d.adjusted id + (if id = i.id ∧ type = .adjustment then delta else 0) := by
  have hid : i'.id = i.id := by rw [hch.next]
  constructor
  · rw [Db.stock_apply_movement, Db.stock_apply_item, hid, hch.stock]
    split
    · rename_i hi
      subst hi
      rw [Db.stock_of_find? hch.row]
    · omega
  · have hfresh : (d.apply (.item i')).movements.find? m.id = none := hch.fresh
    rw [Db.adjusted_apply_movement hfresh, Db.adjusted_apply_item, StockMovement.adjusts,
      hch.itemId, hch.movementType, hch.quantityDelta]
    simp only [eq_comm]

/-- What a commit of an order adds to the units held. -/
private theorem held_order {d : Db} {o o' : Order} (hrow : d.orders.find? o'.id = some o)
    (id : Uuid) : (d.apply (.order o')).held id = d.held id + o'.holds id - o.holds id := by
  rw [Db.held_apply_order, hrow]
  rfl

/-- A commit that changes an order, but not the units that it holds. -/
private theorem stock_order {d : Db} {o o' : Order} {id : Uuid}
    (h : d.stock id = d.adjusted id - d.held id) (hrow : d.orders.find? o'.id = some o)
    (hholds : o'.holds id = o.holds id) : (d.apply (.order o')).stock id =
      (d.apply (.order o')).adjusted id - (d.apply (.order o')).held id := by
  rw [held_order hrow, hholds, Db.stock_apply_order, Db.adjusted_apply_order]
  omega

/-- An action that moves stock moves it between the item and the order. -/
private theorem holds_stocked {known : Order → Prop} {d : Db} {a : Action} {o o' : Order}
    (hmoves : a.movesStock o) (hallowed : o.status.canTransitionTo a.target = true)
    (hstep : OrderStep known d o o o' a.target) (id : Uuid) :
    o'.holds id = o.holds id - if id = o.itemId then a.stockDelta o else 0 := by
  unfold Order.holds
  rw [hstep.status_eq, hstep.itemId_eq, hstep.quantity_eq]
  rcases Action.movesStock_from hmoves hallowed with ⟨rfl, hpending⟩ | ⟨rfl, hheld⟩
  · -- a PENDING order takes its units
    simp only [hpending, Action.target, Action.stockDelta, OrderStatus.stockHoldingStates]
    by_cases hitem : o.itemId = id
    · simp [hitem]
    · simp [hitem, Ne.symm hitem]
  · -- a CONFIRMED or SHIPPED one gives them back
    simp only [Action.target, Action.stockDelta, OrderStatus.stockHoldingStates]
    by_cases hitem : o.itemId = id
    · rcases hheld with hs | hs <;> simp [hitem, hs]
    · simp [hitem, Ne.symm hitem]

/-- The other actions leave what the order holds. -/
private theorem holds_moved {known : Order → Prop} {d : Db} {a : Action} {o o' : Order}
    (hstays : ¬a.movesStock o) (hallowed : o.status.canTransitionTo a.target = true)
    (hstep : OrderStep known d o o o' a.target) (id : Uuid) : o'.holds id = o.holds id := by
  unfold Order.holds
  rw [hstep.status_eq, hstep.itemId_eq, hstep.quantity_eq]
  rcases Action.not_movesStock_from hstays hallowed with ⟨rfl, hs⟩ | ⟨rfl, hs⟩ | ⟨rfl, hs⟩ <;>
    simp [hs, Action.target, OrderStatus.stockHoldingStates]

/-- One commit keeps the stock in step with the adjustments and the units held. -/
private theorem stock_step {A : Allow} {d₀ d : Db} {wal : List Commit} {req : Request}
    {read : Option Order} {e : Option Exc} {ws : List Write} (hstale : ¬A.stale)
    (hover : ¬A.overwrite) (hknown : ∀ o, knownIn d₀ wal o → ∃ cur, KnownOrder d o cur)
    (h : ∀ id, d.stock id = d.adjusted id - d.held id) (heff : Effect A d₀ wal d req read e ws)
    (id : Uuid) :
    (d.applyAll ws).stock id = (d.applyAll ws).adjusted id - (d.applyAll ws).held id := by
  have hsum := h id
  cases heff with
  | refused => exact hsum
  | read => exact hsum
  | stale _ hs => exact absurd hs hstale
  | overwritten ho => exact absurd ho hover
  | @created b read i m hnew _ _ _ hstock _ _ hfresh hitemId hdelta _ _ htype _ =>
    -- a new item starts with the stock of its first adjustment
    have hfresh' : (d.apply (.item i)).movements.find? m.id = none := hfresh
    show ((d.apply (.item i)).apply (.movement m)).stock id =
      ((d.apply (.item i)).apply (.movement m)).adjusted id -
        ((d.apply (.item i)).apply (.movement m)).held id
    rw [Db.adjusted_apply_movement hfresh', Db.stock_apply_movement, Db.stock_apply_item]
    simp only [Db.adjusted_apply_item, Db.held_apply_movement, Db.held_apply_item,
      StockMovement.adjusts, hitemId, hdelta, htype, and_true]
    split
    · rename_i hid
      subst hid
      have hzero : d.stock i.id = 0 := by simp [Db.stock, hnew]
      simp only [↓reduceIte]
      omega
    · rename_i hne
      rw [if_neg (Ne.symm hne)]
      omega
  | @adjusted _ b read i i' m _ hch =>
    -- both sides grow by the delta
    obtain ⟨hstock, hadjusted⟩ := stock_change hch id
    simp only [and_true] at hadjusted
    show ((d.apply (.item i')).apply (.movement m)).stock id =
      ((d.apply (.item i')).apply (.movement m)).adjusted id -
        ((d.apply (.item i')).apply (.movement m)).held id
    rw [hstock, hadjusted, Db.held_apply_movement, Db.held_apply_item]
    omega
  | @placed b read o hitem hnew hitemId hquantity _ hstatus hversion =>
    -- a PENDING order holds nothing
    have hholds : o.holds id = 0 := by simp [Order.holds, hstatus, OrderStatus.stockHoldingStates]
    show (d.apply (.order o)).stock id =
      (d.apply (.order o)).adjusted id - (d.apply (.order o)).held id
    rw [Db.held_apply_order, hnew, hholds]
    simp only [Db.stock_apply_order, Db.adjusted_apply_order, Option.map_none, Option.getD_none]
    omega
  | @rejected id' o cur o' i e _ hid hallowed _ _ _ hstep =>
    obtain ⟨rfl, hrow⟩ := hstep.current hknown
    -- neither PENDING nor REJECTED orders hold stock
    have hpending := canTransitionTo_confirmed hallowed
    have hstatus : o'.status = .rejected := hstep.status_eq
    refine stock_order hsum (o := cur) hrow ?_
    simp [Order.holds, hpending, hstatus, OrderStatus.stockHoldingStates]
  | @stocked a id' o cur o' i i' m hmoves hid hallowed hiid hch hstep =>
    obtain ⟨rfl, hrow⟩ := hstep.current hknown
    obtain ⟨hstock, hadjusted⟩ := stock_change hch id
    -- what the item loses the order gains
    have hholds := holds_stocked hmoves hallowed hstep id
    have hrow' : ((d.apply (.item i')).apply (.movement m)).orders.find? o'.id = some cur := hrow
    have htype : a.movementType ≠ .adjustment := by
      cases a <;> simp [Action.movementType]
    show (((d.apply (.item i')).apply (.movement m)).apply (.order o')).stock id =
      (((d.apply (.item i')).apply (.movement m)).apply (.order o')).adjusted id -
        (((d.apply (.item i')).apply (.movement m)).apply (.order o')).held id
    rw [held_order hrow', hholds, ← hiid]
    simp only [Db.stock_apply_order, Db.adjusted_apply_order, Db.held_apply_movement,
      Db.held_apply_item, hstock, hadjusted, htype, and_false, ↓reduceIte]
    omega
  | @moved a id' o cur o' hstays hid hallowed hstep =>
    obtain ⟨rfl, hrow⟩ := hstep.current hknown
    exact stock_order hsum (o := cur) hrow (holds_moved hstays hallowed hstep id)

/-- Every sequence of commits without stale changes or overwritten quantities keeps
    the ledger. -/
theorem Log.ledger {A : Allow} {d₀ d : Db} {wal : List Commit} (h : Log A d₀ wal d)
    (hd₀ : d₀.Consistent) (hledger : Ledger d₀) (hstale : ¬A.stale) (hover : ¬A.overwrite) :
    Ledger d := by
  have hrecorded := h.recorded hd₀ ⟨hledger.movements, hledger.noOrder⟩ hstale
  refine ⟨?_, hrecorded.movements, hrecorded.noOrder⟩
  induction h with
  | nil => exact hledger.stock
  | snoc hlog heff _ ih =>
    have hbefore := hlog.recorded hd₀ ⟨hledger.movements, hledger.noOrder⟩ hstale
    exact stock_step hstale hover (fun _ ho => hlog.knownOrder hd₀ ho) (ih hbefore) heff

end Nova
