import Nova.App.Services

/-!
# Routes and the running system

The routes of `api/v1`, with the exceptions each of them turns into an
`HTTPException`, and the machine that runs any number of requests against one
database and one cache.
-/

namespace Nova

open Coro (raise attempt await)

/-- `raise HTTPException(status, detail=str(e))` for the exceptions that `status`
    names; other exceptions pass. -/
def translate {α : Type} (status : Exc → Option Nat) (x : Coro α) : Coro α := do
  match ← attempt x with
  | .ok a => pure a
  | .error e =>
    match status e with
    | some code => raise (.http code e.message)
    | none => raise e

/-- What a response reports of an item object. -/
def ItemObj.response (i : ItemObj) : StockResponse where
  itemId := i.id
  stockQuantity := i.stockQuantity
  lowStockThreshold := i.loaded.lowStockThreshold
  isLowStock := i.isLowStock

namespace Api

/-- `POST /items` -/
def createItem (cache : CacheService) (body : ItemCreate) : Coro Response := do
  match ← attempt (ItemService.createItem cache body.name body.price body.stockQuantity
      body.description body.lowStockThreshold) with
  | .ok item => pure (.success 201 (.item item.loaded))
  | .error (.failure .integrityError) =>
    raise (.http 409 s!"An item with the name '{body.name}' already exists.")
  | .error e => raise e

/-- `PATCH /items/{item_id}/stock` -/
def adjustStock (cache : CacheService) (itemId : Uuid) (body : ItemStockAdjust) :
    Coro Response := do
  let item ← translate
    (fun | .notFound _ _ => some 404 | .insufficientStock _ _ _ => some 422 | _ => none)
    (ItemService.adjustStock cache itemId body.delta body.reason)
  return .success 200 (.item item.loaded)

/-- `POST /orders` -/
def placeOrder (body : OrderCreate) : Coro Response := do
  let order ← translate (fun | .notFound _ _ => some 404 | _ => none)
    (OrderService.placeOrder body.itemId body.quantity body.customerRef)
  return .success 201 (.order order)

/-- The status codes of `_transition_router`. -/
def transitionStatusCode : Exc → Option Nat
  | .notFound _ _ => some 404
  | .invalidTransition _ _ => some 422
  | .insufficientStock _ _ _ => some 422
  | .conflict _ _ => some 409
  | _ => none

/-- `_transition_router(action)` -/
def transition (cache : CacheService) (action : Action) (orderId : Uuid) : Coro Response := do
  match ← translate transitionStatusCode (OrderService.method cache action orderId) with
  | some order => return .success 200 (.order order)
  | none => raise .responseValidation

/-- `GET /stock/{item_id}` -/
def getStock (cache : CacheService) (itemId : Uuid) : Coro Response := do
  let item ← translate (fun | .notFound _ _ => some 404 | _ => none)
    (StockService.getStock cache itemId)
  return .success 200 (.stock item.response)

/-- The route of a request, after request validation. -/
def route (cache : CacheService) (req : Request) : Coro Response :=
  if !req.valid then raise .requestValidation
  else
    match req with
    | .createItem body => createItem cache body
    | .adjustStock itemId body => adjustStock cache itemId body
    | .placeOrder body => placeOrder body
    | .transition action orderId => transition cache action orderId
    | .getStock itemId => getStock cache itemId

end Api

/-- The service call of a request, with its arguments unchecked. -/
def serviceCall (cache : CacheService) : Request → Coro Unit
  | .createItem body => do
    let _ ← ItemService.createItem cache body.name body.price body.stockQuantity body.description
      body.lowStockThreshold
  | .adjustStock itemId body => do
    let _ ← ItemService.adjustStock cache itemId body.delta body.reason
  | .placeOrder body => do
    let _ ← OrderService.placeOrder body.itemId body.quantity body.customerRef
  | .transition action orderId => do
    let _ ← OrderService.method cache action orderId
  | .getStock itemId => do
    let _ ← StockService.getStock cache itemId

/-! ## The system -/

/-- How a request is run: through the HTTP layer, or as a service call in the
    session of the race tests. -/
inductive Harness where
  | http | service
  deriving DecidableEq

/-- How the system is run: through the routes or through the services, with or without
    Redis. -/
structure Config where
  harness : Harness
  cache : CacheService

/-- The whole program of a request. -/
def Config.code (cfg : Config) (req : Request) : Code Unit :=
  match cfg.harness with
  | .http => (getDb (Api.route cfg.cache req)).main
  | .service => (commitOrRollback (serviceCall cfg.cache req)).main

/-- A request begins with an empty transaction. -/
def Sys.start (s : Sys) (t : TxId) (req : Request) : Sys := s.setTx t { req }

/-- A cache entry expires. -/
def Sys.expire (s : Sys) (itemId : Uuid) : Sys :=
  { s with cache := Function.update s.cache itemId none }

/-- Any number of requests against one database and one cache. -/
def system (cfg : Config) : Machine Stmt Stmt.Res where
  State := Sys
  Req := Request
  Env := Env
  Tick := Uuid
  code := cfg.code
  start t req s := s.start t req
  exec := exec
  tick id s := s.expire id

/-- A database at rest: no request has started and the cache is empty. -/
def Sys.init (d : Db) : Sys := { db := d }

end Nova
