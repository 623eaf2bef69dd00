import Nova.App.Session

/-!
# Cache, repositories and services

`CacheService`, the three repositories and the service methods behind the routes,
one definition for each method of the source. Logging is left out.
-/

namespace Nova

open Coro (raise attempt await)

/-! ## Cache -/

/-- `CacheService(redis)`, or `CacheService(None)` when not `enabled`. -/
structure CacheService where
  enabled : Bool

namespace CacheService

/-- The cached quantity, or `none` on miss, error or disabled. `except Exception`
    does not catch a cancellation. -/
def getStock (c : CacheService) (itemId : Uuid) : Coro (Option Int) :=
  if c.enabled then do
    match ← attempt (await (.redisGet itemId)) with
    | .ok value => pure value
    | .error (.failure .cancelledError) => raise (.failure .cancelledError)
    | .error _ => pure none
  else pure none

/-- Write the quantity to the cache. Never raises, a cancellation apart. -/
def setStock (c : CacheService) (itemId : Uuid) (quantity : Int) : Coro Unit :=
  if c.enabled then do
    match ← attempt (await (.redisSetex itemId quantity)) with
    | .ok () => pure ()
    | .error (.failure .cancelledError) => raise (.failure .cancelledError)
    | .error _ => pure ()
  else pure ()

end CacheService

/-! ## Repositories -/

namespace ItemRepository

/-- `session.refresh(item)` -/
def refresh (itemId : Uuid) : Coro ItemObj := do
  match ← await (.selectItem itemId) with
  | some row => pure (.ofRow row)
  | none => raise (.failure .dbapiError)

/-- The object is added, flushed and refreshed. -/
def create (item : NewItem) : Coro ItemObj := do
  Session.flush
  let row ← await (.insertItem item)
  refresh row.id

/-- A plain `SELECT`, which takes no lock. -/
def getById (itemId : Uuid) : Coro (Option ItemObj) := do
  return (← await (.selectItem itemId)).map .ofRow

/-- `SELECT ... FOR UPDATE`. -/
def getByIdWithLock (itemId : Uuid) : Coro (Option ItemObj) := do
  return (← await (.selectItemForUpdate itemId)).map .ofRow

/-- `flush` and `refresh`: the dirty objects are written first. -/
def save (item : ItemObj) : Coro ItemObj := do
  Session.flush
  refresh item.id

end ItemRepository

namespace OrderRepository

/-- A plain `SELECT`, which takes no lock. -/
def getById (orderId : Uuid) : Coro (Option Order) := await (.selectOrder orderId)

/-- `session.refresh(order)` -/
def refresh (orderId : Uuid) : Coro Order := do
  match ← await (.selectOrder orderId) with
  | some row => pure row
  | none => raise (.failure .dbapiError)

/-- The object is added, flushed and refreshed. -/
def create (order : NewOrder) : Coro Order := do
  Session.flush
  let row ← await (.insertOrder order)
  refresh row.id

/-- Optimistic locking: `false` if the version does not match. -/
def transitionStatus (orderId : Uuid) (expectedVersion : Int) (newStatus : OrderStatus) :
    Coro Bool := await (.updateOrder orderId expectedVersion newStatus)

end OrderRepository

namespace StockRepository

/-- `flush` writes the dirty objects before it inserts the movement. -/
def createMovement (movement : NewMovement) : Coro StockMovement := do
  Session.flush
  await (.insertMovement movement)

end StockRepository

/-! ## Item service -/

namespace ItemService

/-- `create_item`: the item, its first movement and its entry in Redis. -/
def createItem (cache : CacheService) (name : String) (price stockQuantity : Int)
    (description : Option String) (lowStockThreshold : Int) : Coro ItemObj := do
  let item ← ItemRepository.create { name, description, price, stockQuantity, lowStockThreshold }
  let _ ← StockRepository.createMovement {
    itemId := item.id
    movementType := .adjustment
    quantityDelta := stockQuantity
    stockBefore := 0
    stockAfter := stockQuantity
    reason := some "Initial stock on item creation" }
  cache.setStock item.id item.stockQuantity
  return item

/-- `adjust_stock` -/
def adjustStock (cache : CacheService) (itemId : Uuid) (delta : Int) (reason : String) :
    Coro ItemObj := do
  let some item ← ItemRepository.getByIdWithLock itemId
    | raise (.notFound "MenuItem" itemId)
  let stockBefore := item.stockQuantity
  let newQuantity := stockBefore + delta
  if newQuantity < 0 then
    raise (.insufficientStock itemId delta.natAbs stockBefore)
  else
    let item ← Session.assign item newQuantity (item.version + 1)
    let _ ← StockRepository.createMovement {
      itemId := item.id
      movementType := .adjustment
      quantityDelta := delta
      stockBefore := stockBefore
      stockAfter := newQuantity
      reason := some reason }
    let item ← ItemRepository.save item
    cache.setStock item.id item.stockQuantity
    return item

end ItemService

/-! ## Order service -/

namespace OrderService

/-- `place_order` -/
def placeOrder (itemId : Uuid) (quantity : Int) (customerRef : Option String) : Coro Order := do
  let some _ ← ItemRepository.getById itemId
    | raise (.notFound "MenuItem" itemId)
  OrderRepository.create { itemId, quantity, status := .pending, customerRef }

/-- `confirm_order` -/
def confirmOrder (cache : CacheService) (orderId : Uuid) : Coro (Option Order) := do
  let some order ← OrderRepository.getById orderId
    | raise (.notFound "Order" orderId)
  if !order.status.canTransitionTo .confirmed then
    raise (.invalidTransition order.status .confirmed)
  else
    -- pessimistic lock on the item row
    let some item ← ItemRepository.getByIdWithLock order.itemId
      | raise (.notFound "MenuItem" order.itemId)
    if item.stockQuantity < order.quantity then
      -- reject the order: the 422 below has to leave this update committed
      let updated ← OrderRepository.transitionStatus orderId order.version .rejected
      if !updated then
        raise (.conflict "Order" orderId)
      else
        raise (.insufficientStock item.id order.quantity item.stockQuantity)
    else
      let stockBefore := item.stockQuantity
      let item ← Session.assign item (item.stockQuantity - order.quantity) (item.version + 1)
      let _ ← StockRepository.createMovement {
        itemId := item.id
        orderId := some order.id
        movementType := .deduction
        quantityDelta := -order.quantity
        stockBefore := stockBefore
        stockAfter := item.stockQuantity
        reason := some s!"Stock deducted for order {orderId}" }
      let item ← ItemRepository.save item
      cache.setStock item.id item.stockQuantity
      -- the order's version is checked only now, with the stock already flushed
      let updated ← OrderRepository.transitionStatus orderId order.version .confirmed
      if !updated then
        raise (.conflict "Order" orderId)
      else
        OrderRepository.getById orderId

/-- `_transition` -/
def transition (orderId : Uuid) (newStatus : OrderStatus) : Coro (Option Order) := do
  let some order ← OrderRepository.getById orderId
    | raise (.notFound "Order" orderId)
  if !order.status.canTransitionTo newStatus then
    raise (.invalidTransition order.status newStatus)
  else
    let updated ← OrderRepository.transitionStatus orderId order.version newStatus
    if !updated then
      raise (.conflict "Order" orderId)
    else
      OrderRepository.getById orderId

/-- `ship_order` -/
def shipOrder (orderId : Uuid) : Coro (Option Order) := transition orderId .shipped

/-- `deliver_order` -/
def deliverOrder (orderId : Uuid) : Coro (Option Order) := transition orderId .delivered

/-- The `if should_restore` block of `cancel_order`. -/
def restoreStock (cache : CacheService) (order : Order) : Coro Unit := do
  match ← ItemRepository.getByIdWithLock order.itemId with
  | none => pure ()
  | some item =>
    let stockBefore := item.stockQuantity
    let item ← Session.assign item (item.stockQuantity + order.quantity) (item.version + 1)
    let _ ← StockRepository.createMovement {
      itemId := item.id
      orderId := some order.id
      movementType := .restoration
      quantityDelta := order.quantity
      stockBefore := stockBefore
      stockAfter := item.stockQuantity
      reason := some s!"Stock restored on cancellation of order {order.id}" }
    let item ← ItemRepository.save item
    cache.setStock item.id item.stockQuantity

/-- `cancel_order` -/
def cancelOrder (cache : CacheService) (orderId : Uuid) : Coro (Option Order) := do
  let some order ← OrderRepository.getById orderId
    | raise (.notFound "Order" orderId)
  if !order.status.canTransitionTo .cancelled then
    raise (.invalidTransition order.status .cancelled)
  else
    if order.status ∈ OrderStatus.stockHoldingStates then
      restoreStock cache order
    let updated ← OrderRepository.transitionStatus orderId order.version .cancelled
    if !updated then
      raise (.conflict "Order" orderId)
    else
      OrderRepository.getById orderId

/-- `getattr(svc, f"{action}_order")` -/
def method (cache : CacheService) (action : Action) (orderId : Uuid) : Coro (Option Order) :=
  match action with
  | .confirm => confirmOrder cache orderId
  | .ship => shipOrder orderId
  | .deliver => deliverOrder orderId
  | .cancel => cancelOrder cache orderId

end OrderService

/-! ## Stock service -/

namespace StockService

/-- Cache-first stock read. -/
def getStock (cache : CacheService) (itemId : Uuid) : Coro ItemObj := do
  let cachedQty ← cache.getStock itemId
  let some item ← ItemRepository.getById itemId
    | raise (.notFound "MenuItem" itemId)
  match cachedQty with
  | some quantity => Session.assign item quantity item.version
  | none => return item

end StockService

end Nova
