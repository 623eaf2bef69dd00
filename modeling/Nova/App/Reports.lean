import Mathlib.Data.List.Sort
import Nova.ForStd.Calendar
import Nova.ForStd.Decimal
import Nova.App.Api

/-!
# Reads and reports

`GET /orders`, `GET /orders/{id}`, `GET /stock/{id}/movements`,
`GET /stock/alerts/low` and the three analytics reports. They only select, so a read is
a program over `Query`, and each of its statements sees the tables committed when it
runs (READ COMMITTED).

Where PostgreSQL may return rows of equal sort key in any order, `ordered` keeps them in
the order of their insertion.
-/

namespace Nova

/-! ## Queries -/

/-- The columns of `get_stock_analytics`. -/
structure StockTotals where
  totalItems : Nat
  totalUnits : Int
  totalValue : Decimal
  lowStockCount : Nat
  outOfStockCount : Nat
  deriving DecidableEq

/-- The columns of the first query of `get_order_analytics`. -/
structure OrderTotals where
  total : Nat
  pending : Nat
  confirmed : Nat
  shipped : Nat
  delivered : Nat
  cancelled : Nat
  rejected : Nat
  deriving DecidableEq

/-- The columns of `get_movement_analytics`. -/
structure MovementTotals where
  deductions : Nat
  restorations : Nat
  adjustments : Nat
  netChange : Int
  deriving DecidableEq

/-- The `SELECT` statements of the reads. -/
inductive Query where
  | item (id : Uuid)
  | order (id : Uuid)
  | orders (status : Option OrderStatus) (fromDt toDt : Option Timestamp)
      (customerRef : Option String)
  | lowStock
  | movementsForOrder (orderId : Uuid)
  | movementsForItem (itemId : Uuid) (limit : Nat)
  | stockTotals
  | orderTotals (since : Timestamp)
  | orderValue (status : OrderStatus) (since : Timestamp)
  | movementTotals (since : Timestamp)

/-- What a `SELECT` returns. -/
abbrev Query.Val : Query → Type
  | .item _ => Option MenuItem
  | .order _ => Option Order
  | .orders _ _ _ _ => List Order
  | .lowStock => List MenuItem
  | .movementsForOrder _ | .movementsForItem _ _ => List StockMovement
  | .stockTotals => StockTotals
  | .orderTotals _ => OrderTotals
  | .orderValue _ _ => Decimal
  | .movementTotals _ => MovementTotals

/-- `ORDER BY key` -/
def ordered {α : Type} (key : α → Int) (rows : List α) : List α :=
  rows.insertionSort fun a b => key a ≤ key b

/-- `ORDER BY key DESC` -/
def orderedDesc {α : Type} (key : α → Int) (rows : List α) : List α :=
  rows.insertionSort fun a b => key b ≤ key a

/-- `coalesce(sum(x), 0)` over a `NUMERIC` of two decimals, in hundredths: the sum of no
    rows is `NULL`. -/
def sumOrZero (xs : List Int) : Decimal := if xs = [] then .ofInt 0 else ⟨xs.sum, -2⟩

namespace Db

/-- `list_orders` -/
def listOrders (d : Db) (status : Option OrderStatus) (fromDt toDt : Option Timestamp)
    (customerRef : Option String) : List Order :=
  orderedDesc (·.createdAt) <| d.orders.rows.filter fun o =>
    status.all (o.status = ·) && fromDt.all (· ≤ o.createdAt) && toDt.all (o.createdAt ≤ ·) &&
      customerRef.all (o.customerRef = some ·)

/-- `list_low_stock` -/
def listLowStock (d : Db) : List MenuItem :=
  ordered (·.stockQuantity) <|
    d.items.rows.filter fun i => i.stockQuantity ≤ i.lowStockThreshold

/-- The row of `get_stock_analytics`. -/
def stockTotals (d : Db) : StockTotals where
  totalItems := d.items.rows.length
  totalUnits := d.items.sumBy (·.stockQuantity)
  totalValue := sumOrZero (d.items.rows.map fun i => i.price * i.stockQuantity)
  lowStockCount := d.items.rows.countP fun i =>
    i.stockQuantity ≤ i.lowStockThreshold && 0 < i.stockQuantity
  outOfStockCount := d.items.rows.countP fun i => i.stockQuantity = 0

/-- `WHERE created_at >= since` -/
def ordersSince (d : Db) (since : Timestamp) : List Order :=
  d.orders.rows.filter fun o => since ≤ o.createdAt

/-- `COUNT(id) FILTER (WHERE status = ...)` -/
def countStatus (d : Db) (since : Timestamp) (status : OrderStatus) : Nat :=
  (d.ordersSince since).countP (·.status = status)

/-- The row of `get_order_analytics`. -/
def orderTotals (d : Db) (since : Timestamp) : OrderTotals where
  total := (d.ordersSince since).length
  pending := d.countStatus since .pending
  confirmed := d.countStatus since .confirmed
  shipped := d.countStatus since .shipped
  delivered := d.countStatus since .delivered
  cancelled := d.countStatus since .cancelled
  rejected := d.countStatus since .rejected

/-- `orders JOIN menu_items ON item_id`: what the orders that satisfy `p` are worth. -/
def orderValues (d : Db) (p : Order → Bool) : List Int :=
  (d.orders.rows.filter p).flatMap fun o =>
    (d.items.rows.filter (·.id = o.itemId)).map fun i => i.price * o.quantity

/-- `COUNT(id) FILTER (WHERE movement_type = ...)` -/
def countType (d : Db) (since : Timestamp) (type : MovementType) : Nat :=
  (d.movements.rows.filter fun m => since ≤ m.createdAt).countP (·.movementType = type)

/-- The row of `get_movement_analytics`. -/
def movementTotals (d : Db) (since : Timestamp) : MovementTotals where
  deductions := d.countType since .deduction
  restorations := d.countType since .restoration
  adjustments := d.countType since .adjustment
  netChange := ((d.movements.rows.filter fun m => since ≤ m.createdAt).map (·.quantityDelta)).sum

/-- What a statement sees in the committed tables `d`. -/
def select (d : Db) : (q : Query) → q.Val
  | .item id => d.items.find? id
  | .order id => d.orders.find? id
  | .orders status fromDt toDt customerRef => d.listOrders status fromDt toDt customerRef
  | .lowStock => d.listLowStock
  | .movementsForOrder orderId =>
    ordered (·.createdAt) (d.movements.rows.filter (·.orderId = some orderId))
  | .movementsForItem itemId limit =>
    (orderedDesc (·.createdAt) (d.movements.rows.filter (·.itemId = itemId))).take limit
  | .stockTotals => d.stockTotals
  | .orderTotals since => d.orderTotals since
  | .orderValue status since =>
    sumOrZero (d.orderValues fun o => o.status = status && decide (since ≤ o.createdAt))
  | .movementTotals since => d.movementTotals since

end Db

/-! ## Reads -/

/-- What a read can raise: an exception of the application, or `InvalidOperation` of the
    `decimal` module. -/
inductive ReadExc where
  | app (e : Exc)
  | decimal (s : Decimal.Signal)
  deriving DecidableEq

/-- An `async` function that only reads. -/
def Reading (α : Type) := Prog Query Query.Val (Except ReadExc α)

namespace Reading

variable {α β : Type}

/-- `return a` -/
def pure (a : α) : Reading α := .ret (.ok a)

/-- `raise e` -/
def raise (e : ReadExc) : Reading α := .ret (.error e)

/-- What `x` raises, `bind x f` raises without running `f`. -/
def bind (x : Reading α) (f : α → Reading β) : Reading β :=
  Prog.bind x fun
    | .ok a => f a
    | .error e => .ret (.error e)

instance : Monad Reading where
  pure := pure
  bind := bind

/-- `await session.execute(query)` -/
def execute (q : Query) : Reading q.Val := .call q fun v => .ret (.ok v)

/-- What a read returns when its `n`-th statement runs on the tables `ds n`. -/
def across : Reading α → (Nat → Db) → Except ReadExc α
  | .ret a, _ => a
  | .call q k, ds => across (k ((ds 0).select q)) fun n => ds (n + 1)

/-- What a read returns while the tables stay as they are. -/
def on (x : Reading α) (d : Db) : Except ReadExc α := x.across fun _ => d

/-- A read that returns returns the same on all tables. -/
@[simp] theorem on_pure (a : α) (d : Db) : (Pure.pure a : Reading α).on d = .ok a := rfl

/-- One `SELECT` is answered from the tables, and the rest of the read goes on with the
    answer. -/
theorem on_execute_bind (q : Query) (f : q.Val → Reading β) (d : Db) :
    (execute q >>= f).on d = (f (d.select q)).on d := rfl

/-- A read whose end is handled by `f` ends as `f` says. -/
theorem on_prog_bind {γ δ : Type} (x : Reading γ) (f : Except ReadExc γ → Reading δ)
    (d : Db) : Reading.on (Prog.bind x f) d = Reading.on (f (x.on d)) d := by
  induction x with
  | ret a => rfl
  | call q k ih => exact ih (d.select q)

/-- On unchanged tables, the parts of a read see the same rows. -/
theorem on_bind_eq_ok {x : Reading α} {f : α → Reading β} {d : Db} {b : β} :
    (x >>= f).on d = .ok b ↔ ∃ a, x.on d = .ok a ∧ (f a).on d = .ok b := by
  have hbind : (x >>= f).on d = (x.on d).bind fun a => (f a).on d := by
    refine (on_prog_bind x _ d).trans ?_
    cases x.on d <;> rfl
  rw [hbind]
  cases x.on d <;> simp [Except.bind]

end Reading

open Reading (raise execute)
open Calendar (Date combine)

/-- `Decimal.quantize(Decimal("0.01"))` in the default context, which has 28 digits. -/
def quantizeCents (a : Decimal) : Reading Decimal :=
  match a.quantize 28 (-2) with
  | .ok b => pure b
  | .error s => raise (.decimal s)

/-! ## Repositories -/

namespace Reports

namespace ItemRepository

/-- `get_by_id` -/
def getById (itemId : Uuid) : Reading (Option MenuItem) := execute (.item itemId)

/-- `list_low_stock` -/
def listLowStock : Reading (List MenuItem) := execute .lowStock

end ItemRepository

namespace OrderRepository

/-- `get_by_id` -/
def getById (orderId : Uuid) : Reading (Option Order) := execute (.order orderId)

/-- `list_orders` -/
def listOrders (status : Option OrderStatus := none) (fromDt toDt : Option Timestamp := none)
    (customerRef : Option String := none) : Reading (List Order) :=
  execute (.orders status fromDt toDt customerRef)

end OrderRepository

namespace StockRepository

/-- `list_movements_for_order` -/
def listMovementsForOrder (orderId : Uuid) : Reading (List StockMovement) :=
  execute (.movementsForOrder orderId)

/-- `list_movements_for_item`, the newest `limit` of them. -/
def listMovementsForItem (itemId : Uuid) (limit : Nat := 100) : Reading (List StockMovement) :=
  execute (.movementsForItem itemId limit)

end StockRepository

/-! ## Services

A `StockMovementResponse` has the fields of the movement and is modelled by it. -/

/-- The body of the answer to `GET /orders/{order_id}`. -/
structure OrderDetailResponse where
  id : Uuid
  itemId : Uuid
  itemName : String
  itemPrice : Decimal
  quantity : Int
  totalValue : Decimal
  status : OrderStatus
  customerRef : Option String
  version : Int
  createdAt : Timestamp
  updatedAt : Timestamp
  movements : List StockMovement
  deriving DecidableEq

namespace OrderService

/-- The `NUMERIC(10,2)` price as asyncpg returns it. -/
def price (i : MenuItem) : Decimal := ⟨i.price, -2⟩

/-- `get_order_detail`: three `SELECT`s, each with a snapshot of its own. -/
def getOrderDetail (orderId : Uuid) : Reading OrderDetailResponse := do
  let some order ← OrderRepository.getById orderId
    | raise (.app (.notFound "Order" orderId))
  let item ← ItemRepository.getById order.itemId
  let movements ← StockRepository.listMovementsForOrder orderId
  let itemPrice := (item.map price).getD (.ofInt 0)
  let totalValue ← quantizeCents (itemPrice.mul 28 (.ofInt order.quantity))
  return {
    id := order.id
    itemId := order.itemId
    itemName := (item.map (·.name)).getD "Unknown"
    itemPrice := itemPrice
    quantity := order.quantity
    totalValue := totalValue
    status := order.status
    customerRef := order.customerRef
    version := order.version
    createdAt := order.createdAt
    updatedAt := order.updatedAt
    movements := movements }

/-- `list_orders` -/
def listOrders (status : Option OrderStatus := none) (fromDt toDt : Option Timestamp := none)
    (customerRef : Option String := none) : Reading (List Order) :=
  OrderRepository.listOrders status fromDt toDt customerRef

end OrderService

namespace StockService

/-- `get_movements` -/
def getMovements (itemId : Uuid) (limit : Nat := 100) : Reading (List StockMovement) := do
  let some _ ← ItemRepository.getById itemId
    | raise (.app (.notFound "MenuItem" itemId))
  StockRepository.listMovementsForItem itemId limit

/-- `get_low_stock_items` -/
def getLowStockItems : Reading (List MenuItem) := ItemRepository.listLowStock

end StockService

namespace ItemService

/-- `get_item` -/
def getItem (itemId : Uuid) : Reading MenuItem := do
  let some item ← ItemRepository.getById itemId
    | raise (.app (.notFound "MenuItem" itemId))
  return item

end ItemService

/-- A low-stock alert. -/
structure LowStockAlert where
  id : Uuid
  name : String
  stockQuantity : Int
  lowStockThreshold : Int
  deriving DecidableEq

/-- The alert for an item. -/
def LowStockAlert.ofItem (i : MenuItem) : LowStockAlert where
  id := i.id
  name := i.name
  stockQuantity := i.stockQuantity
  lowStockThreshold := i.lowStockThreshold

/-- The stock part of the summary. -/
structure StockAnalytics where
  totalItems : Nat
  totalUnits : Int
  totalValue : Decimal
  lowStockCount : Nat
  outOfStockCount : Nat
  deriving DecidableEq

/-- The order part of the summary. -/
structure OrderAnalytics where
  totalOrders : Nat
  pending : Nat
  confirmed : Nat
  shipped : Nat
  delivered : Nat
  cancelled : Nat
  rejected : Nat
  revenue : Decimal
  refundValue : Decimal
  deriving DecidableEq

/-- The movement part of the summary. -/
structure MovementAnalytics where
  totalDeductions : Nat
  totalRestorations : Nat
  totalAdjustments : Nat
  netStockChange : Int
  deriving DecidableEq

/-- The body of the answer to `GET /analytics/summary`. -/
structure AnalyticsSummary where
  stock : StockAnalytics
  orders : OrderAnalytics
  movements : MovementAnalytics
  deriving DecidableEq

/-- `datetime.now(UTC) - timedelta(days=days)` at `now`. -/
def since (now : Timestamp) (days : Int) : Timestamp := now - days * (24 * 3600 * 1000000)

namespace AnalyticsService

/-- `get_stock_analytics` -/
def getStockAnalytics : Reading StockAnalytics := do
  let row ← execute .stockTotals
  let totalValue ← quantizeCents row.totalValue
  return {
    totalItems := row.totalItems
    totalUnits := row.totalUnits
    totalValue := totalValue
    lowStockCount := row.lowStockCount
    outOfStockCount := row.outOfStockCount }

/-- `get_order_analytics`, over the orders of the last `days` days. -/
def getOrderAnalytics (now : Timestamp) (days : Int := 30) : Reading OrderAnalytics := do
  let row ← execute (.orderTotals (since now days))
  -- revenue: price * quantity for DELIVERED orders
  let revenue ← quantizeCents (← execute (.orderValue .delivered (since now days)))
  -- refund value: price * quantity for CANCELLED orders that had stock deducted
  let refundValue ← quantizeCents (← execute (.orderValue .cancelled (since now days)))
  return {
    totalOrders := row.total
    pending := row.pending
    confirmed := row.confirmed
    shipped := row.shipped
    delivered := row.delivered
    cancelled := row.cancelled
    rejected := row.rejected
    revenue := revenue
    refundValue := refundValue }

/-- `get_movement_analytics`, over the movements of the last `days` days. -/
def getMovementAnalytics (now : Timestamp) (days : Int := 30) : Reading MovementAnalytics := do
  let row ← execute (.movementTotals (since now days))
  return {
    totalDeductions := row.deductions
    totalRestorations := row.restorations
    totalAdjustments := row.adjustments
    netStockChange := row.netChange }

end AnalyticsService

/-! ## Routes -/

namespace Api

/-- `except NotFoundError as e: raise HTTPException(404, str(e))` -/
def translateNotFound {α : Type} (x : Reading α) : Reading α :=
  Prog.bind x fun
    | .error (.app (.notFound resource resourceId)) =>
      raise (.app (.http 404 (Exc.notFound resource resourceId).message))
    | r => .ret r

/-- A read that raises nothing is answered as it is. -/
theorem on_translateNotFound {α : Type} {x : Reading α} {d : Db} {a : α} (h : x.on d = .ok a) :
    (translateNotFound x).on d = .ok a := by
  refine (Reading.on_prog_bind x _ d).trans ?_
  rw [h]
  rfl

/-- `GET /orders`. A `datetime` parameter is the instant that it denotes. -/
def listOrders (orderStatus : Option OrderStatus := none) (filterDate : Option Date := none)
    (fromDate toDate : Option Timestamp := none) (customerRef : Option String := none) :
    Reading (List Order) :=
  match filterDate with
  | some day =>
    let fromDt := combine day .min
    let toDt := combine day .max
    OrderService.listOrders orderStatus (some fromDt) (some toDt) customerRef
  | none => OrderService.listOrders orderStatus fromDate toDate customerRef

/-- `GET /orders/{order_id}` -/
def getOrder (orderId : Uuid) : Reading OrderDetailResponse :=
  translateNotFound (OrderService.getOrderDetail orderId)

/-- `GET /stock/{item_id}/movements` -/
def getMovements (itemId : Uuid) : Reading (List StockMovement) :=
  translateNotFound (StockService.getMovements itemId)

/-- `GET /items/{item_id}` -/
def getItem (itemId : Uuid) : Reading MenuItem :=
  translateNotFound (ItemService.getItem itemId)

/-- `GET /stock/alerts/low` -/
def lowStockAlerts : Reading (List LowStockAlert) := do
  return (← StockService.getLowStockItems).map .ofItem

/-- `Query(default=30, ge=1, le=365)` -/
def validDays (days : Int) : Bool := 1 ≤ days && days ≤ 365

/-- `GET /analytics/summary`, where the two reports with a window read the clock at `now`
    and `now'`. -/
def analyticsSummary (now now' : Timestamp) (days : Int := 30) : Reading AnalyticsSummary :=
  if !validDays days then raise (.app .requestValidation)
  else do
    let stock ← AnalyticsService.getStockAnalytics
    let orders ← AnalyticsService.getOrderAnalytics now days
    let movements ← AnalyticsService.getMovementAnalytics now' days
    return { stock, orders, movements }

end Api

end Reports

end Nova
