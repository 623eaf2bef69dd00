/-!
# Domain model

`OrderStatus` with its state machine, `MovementType`, and the rows of the three
tables. A row carries the CHECK constraints of its table as proof fields, so a
row that PostgreSQL would refuse cannot be built. Prices are `NUMERIC(10,2)` and
held in hundredths; timestamps count microseconds from 1970-01-01 (UTC).
-/

namespace Nova

/-- A primary key. Only equality of keys matters. -/
abbrev Uuid := Nat

/-- Microseconds since 1970-01-01 (UTC). -/
abbrev Timestamp := Int

/-! ## Enumerations -/

/-- The status of an order, as `orders.status` stores it. -/
inductive OrderStatus where
  | pending | confirmed | shipped | delivered | cancelled | rejected
  deriving DecidableEq, Repr

namespace OrderStatus

/-- The stored value of a status, which is also what `str` gives for it. -/
def value : OrderStatus → String
  | .pending => "PENDING"
  | .confirmed => "CONFIRMED"
  | .shipped => "SHIPPED"
  | .delivered => "DELIVERED"
  | .cancelled => "CANCELLED"
  | .rejected => "REJECTED"

/-- States that an order never leaves. -/
def terminalStates : List OrderStatus := [.rejected, .delivered, .cancelled]

/-- States where stock has been deducted and must be restored on cancel. -/
def stockHoldingStates : List OrderStatus := [.confirmed, .shipped, .delivered]

/-- The transitions that the state machine allows out of each status. -/
def validTransitions : OrderStatus → List OrderStatus
  | .pending => [.confirmed, .rejected, .cancelled]
  | .confirmed => [.shipped, .cancelled]
  | .shipped => [.delivered, .cancelled]
  | .delivered => []
  | .cancelled => []
  | .rejected => []

/-- Whether an order may go from `s` to `next`. -/
def canTransitionTo (s next : OrderStatus) : Bool :=
  (validTransitions s).contains next

/-- Exactly the terminal states have no way out. -/
theorem validTransitions_eq_nil_iff (s : OrderStatus) :
    validTransitions s = [] ↔ s ∈ terminalStates := by
  cases s <;> simp [validTransitions, terminalStates]

/-- `canTransitionTo` is membership in the table of transitions. -/
theorem canTransitionTo_iff (s next : OrderStatus) :
    s.canTransitionTo next = true ↔ next ∈ validTransitions s := by
  simp [canTransitionTo]

end OrderStatus

/-- What a stock movement records. -/
inductive MovementType where
  | deduction | restoration | adjustment
  deriving DecidableEq, Repr

/-! ## Tables -/

/-- A row of `menu_items`. -/
structure MenuItem where
  id : Uuid
  name : String
  description : Option String
  price : Int
  stockQuantity : Int
  lowStockThreshold : Int
  version : Int
  createdAt : Timestamp
  updatedAt : Timestamp
  ckStockNonNegative : 0 ≤ stockQuantity
  ckPricePositive : 0 < price
  ckThresholdNonNegative : 0 ≤ lowStockThreshold
  deriving DecidableEq

/-- A row of `orders`. -/
structure Order where
  id : Uuid
  itemId : Uuid
  quantity : Int
  status : OrderStatus
  customerRef : Option String
  version : Int
  createdAt : Timestamp
  updatedAt : Timestamp
  ckQuantityPositive : 0 < quantity
  deriving DecidableEq

/-- A row of `stock_movements`. Append-only audit log. -/
structure StockMovement where
  id : Uuid
  itemId : Uuid
  orderId : Option Uuid
  movementType : MovementType
  quantityDelta : Int
  stockBefore : Int
  stockAfter : Int
  reason : Option String
  createdAt : Timestamp
  deriving DecidableEq

/-! ## Objects that have no row yet

The columns with a Python-side default (`id`, `created_at`, `updated_at`) are
filled in when the object is flushed. -/

/-- A `MenuItem` object before its first flush. -/
structure NewItem where
  name : String
  description : Option String
  price : Int
  stockQuantity : Int := 0
  lowStockThreshold : Int := 10
  version : Int := 1
  deriving DecidableEq

/-- An `Order` object before its first flush. -/
structure NewOrder where
  itemId : Uuid
  quantity : Int
  status : OrderStatus := .pending
  customerRef : Option String
  version : Int := 1
  deriving DecidableEq

/-- A `StockMovement` object before its first flush. -/
structure NewMovement where
  itemId : Uuid
  orderId : Option Uuid := none
  movementType : MovementType
  quantityDelta : Int
  stockBefore : Int
  stockAfter : Int
  reason : Option String
  deriving DecidableEq

end Nova
