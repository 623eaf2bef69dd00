import Nova.App.Domain

/-!
# Requests, responses and exceptions

The request bodies with the checks their Pydantic schemas make, the responses,
and the exceptions of `core/exceptions.py` with the texts that `str` gives.
-/

namespace Nova

/-! ## Request bodies -/

/-- The body of `POST /items`. -/
structure ItemCreate where
  name : String
  description : Option String := none
  price : Int
  stockQuantity : Int
  lowStockThreshold : Int := 10
  deriving DecidableEq

/-- The field constraints of `ItemCreate`. -/
def ItemCreate.valid (b : ItemCreate) : Bool :=
  1 ≤ b.name.length && b.name.length ≤ 255 && 0 < b.price && 0 ≤ b.stockQuantity &&
    0 ≤ b.lowStockThreshold

/-- The body of `PATCH /items/{item_id}/stock`. -/
structure ItemStockAdjust where
  delta : Int
  reason : String
  deriving DecidableEq

/-- The field constraints of `ItemStockAdjust`. -/
def ItemStockAdjust.valid (b : ItemStockAdjust) : Bool :=
  1 ≤ b.reason.length && b.reason.length ≤ 500

/-- The body of `POST /orders`. -/
structure OrderCreate where
  itemId : Uuid
  quantity : Int
  customerRef : Option String := none
  deriving DecidableEq

/-- The field constraints of `OrderCreate`. -/
def OrderCreate.valid (b : OrderCreate) : Bool :=
  0 < b.quantity && b.customerRef.all (·.length ≤ 255)

/-- The four actions of `_transition_router`. -/
inductive Action where
  | confirm | ship | deliver | cancel
  deriving DecidableEq, Repr

/-- A request to the item, order and stock routes. -/
inductive Request where
  | createItem (body : ItemCreate)
  | adjustStock (itemId : Uuid) (body : ItemStockAdjust)
  | placeOrder (body : OrderCreate)
  | transition (action : Action) (orderId : Uuid)
  | getStock (itemId : Uuid)
  deriving DecidableEq

/-- What request validation accepts. -/
def Request.valid : Request → Bool
  | .createItem body => body.valid
  | .adjustStock _ body => body.valid
  | .placeOrder body => body.valid
  | .transition _ _ => true
  | .getStock _ => true

/-- `GET /stock/{item_id}` is the only one of the routes that is a read. -/
def Request.isRead : Request → Bool
  | .getStock _ => true
  | _ => false

/-! ## Responses -/

/-- The body of the answer to `GET /stock/{item_id}`. -/
structure StockResponse where
  itemId : Uuid
  stockQuantity : Int
  lowStockThreshold : Int
  isLowStock : Bool
  deriving DecidableEq

/-- The body of a 2xx answer: an `ItemResponse`, an `OrderResponse` or a `StockResponse`. -/
inductive Body where
  | item (item : MenuItem)
  | order (order : Order)
  | stock (stock : StockResponse)
  deriving DecidableEq

/-- An answer, with its status code. -/
inductive Response where
  | success (status : Nat) (body : Body)
  | error (status : Nat) (detail : String)
  deriving DecidableEq

/-- The status code of an answer. -/
def Response.status : Response → Nat
  | .success status _ => status
  | .error status _ => status

/-! ## Exceptions -/

/-- Failures raised below the services: by SQLAlchemy, by the Redis client, or
    by the event loop when the request is cancelled. -/
inductive Failure where
  | integrityError
  | dbapiError
  | pendingRollbackError
  | redisError
  | cancelledError
  deriving DecidableEq, Repr

/-- What a request can raise. -/
inductive Exc where
  | notFound (resource : String) (resourceId : Uuid)
  | insufficientStock (itemId : Uuid) (requested available : Int)
  | invalidTransition (current requested : OrderStatus)
  | conflict (resource : String) (resourceId : Uuid)
  | http (status : Nat) (detail : String)
  | requestValidation
  | responseValidation
  | failure (f : Failure)
  deriving DecidableEq

/-- `str(exc)` for the domain exceptions. -/
def Exc.message : Exc → String
  | .notFound resource resourceId => s!"{resource} {resourceId} not found"
  | .insufficientStock itemId requested available =>
    s!"Insufficient stock for item {itemId}: requested {requested}, available {available}"
  | .invalidTransition current requested =>
    s!"Cannot transition order from {current.value} to {requested.value}"
  | .conflict resource resourceId => s!"Concurrent update conflict on {resource} {resourceId}"
  | .http _ detail => detail
  | .requestValidation => "Unprocessable Entity"
  | .responseValidation | .failure _ => "Internal Server Error"

/-- An `asyncio.CancelledError`, which `except Exception` does not catch. -/
def Exc.isCancelled : Exc → Bool
  | .failure .cancelledError => true
  | _ => false

end Nova
