import Nova.ForStd.Table
import Nova.App.Schemas

/-!
# PostgreSQL and Redis

The shared state of all requests and the meaning of one statement.

* A transaction buffers its row versions in `writes`; other transactions see
  them only after `COMMIT`. Each statement reads the committed tables of the
  moment plus the transaction's own writes (READ COMMITTED).
* Row locks are kept in `locks` until the transaction ends. A statement that
  needs a conflicting lock waits: it has no result (`none`) in that state. When
  it runs it sees the row as last committed, which is also how PostgreSQL
  re-checks a `WHERE` clause after a wait.
* A failed statement aborts its transaction: its writes and locks are gone, and
  every later statement fails until `ROLLBACK`.
* `Tx` also records what happened to a request (`read`, `seen`, `cached`,
  `published`, `redisFailed`, `faulted`, `commit`, `response`), and `Sys.wal` the
  non-empty commits in order. No statement reads these.
-/

namespace Nova

/-- The name of a request and of its transaction. -/
abbrev TxId := Nat

/-! ## Tables and row versions -/

/-- The three tables. -/
structure Db where
  items : Table MenuItem.id
  orders : Table Order.id
  movements : Table StockMovement.id

namespace Db

/-- The tables without rows. -/
def empty : Db := ⟨.empty, .empty, .empty⟩

end Db

/-- A row version written by a transaction. -/
inductive Write where
  | item (row : MenuItem)
  | order (row : Order)
  | movement (row : StockMovement)
  deriving DecidableEq

/-- The tables after one row version became visible. -/
def Db.apply (d : Db) : Write → Db
  | .item row => { d with items := d.items.upsert row }
  | .order row => { d with orders := d.orders.upsert row }
  | .movement row => { d with movements := d.movements.upsert row }

/-- The tables after the row versions `ws`, in order. -/
def Db.applyAll (d : Db) (ws : List Write) : Db := ws.foldl Db.apply d

/-! ## Locks -/

/-- What a lock protects: a row, or the entry of a name in `uq_menu_items_name`. -/
inductive Row where
  | item (id : Uuid)
  | itemName (name : String)
  | order (id : Uuid)
  | movement (id : Uuid)
  deriving DecidableEq

/-- The row that a version is of. -/
def Write.row : Write → Row
  | .item r => .item r.id
  | .order r => .order r.id
  | .movement r => .movement r.id

/-- The row-level lock modes of PostgreSQL. -/
inductive LockMode where
  | forKeyShare | forShare | forNoKeyUpdate | forUpdate
  deriving DecidableEq

/-- PostgreSQL's conflict table for row-level locks. -/
def LockMode.conflicts : LockMode → LockMode → Bool
  | .forKeyShare, .forUpdate => true
  | .forKeyShare, _ => false
  | .forShare, .forNoKeyUpdate | .forShare, .forUpdate => true
  | .forShare, _ => false
  | .forNoKeyUpdate, .forKeyShare => false
  | .forNoKeyUpdate, _ => true
  | .forUpdate, _ => true

/-- Two modes conflict in both orders or in neither. -/
theorem LockMode.conflicts_comm (m m' : LockMode) : m.conflicts m' = m'.conflicts m := by
  cases m <;> cases m' <;> rfl

/-- A lock that a transaction holds. -/
structure Lock where
  tx : TxId
  row : Row
  mode : LockMode
  deriving DecidableEq

/-! ## Transactions -/

/-- A transaction, with what the request has read and published so far. -/
structure Tx where
  req : Request
  writes : List Write := []
  aborted : Bool := false
  /-- The first order row this transaction's `SELECT` returned. -/
  read : Option Order := none
  /-- What its last plain `SELECT` of an item returned, if it made one. -/
  seen : Option (Option MenuItem) := none
  /-- What its Redis `GET` returned. -/
  cached : Option Int := none
  /-- The entry its Redis `SETEX` stored. -/
  published : Option (Uuid × Int) := none
  /-- A Redis command of it failed. -/
  redisFailed : Bool := false
  /-- An SQL statement of it failed from outside, or it was cancelled. -/
  faulted : Bool := false
  /-- At its `COMMIT`: the tables before it, and what it committed. -/
  commit : Option (Db × List Write) := none
  response : Option Response := none

/-- An entry of the log of commits. -/
structure Commit where
  tx : TxId
  req : Request
  read : Option Order
  writes : List Write

/-- PostgreSQL and Redis: the committed tables, the locks, the stock entries of Redis, and
    every transaction so far. -/
structure Sys where
  db : Db
  locks : List Lock := []
  cache : Uuid → Option Int := fun _ => none
  txs : TxId → Option Tx := fun _ => none
  wal : List Commit := []

namespace Sys

/-- What a statement of `x` sees. -/
def view (s : Sys) (x : Tx) : Db := s.db.applyAll x.writes

/-- Replaces the record of transaction `t`. -/
def setTx (s : Sys) (t : TxId) (x : Tx) : Sys :=
  { s with txs := Function.update s.txs t (some x) }

/-- Another transaction holds a lock on `row` that conflicts with `mode`. -/
def blocked (s : Sys) (t : TxId) (row : Row) (mode : LockMode) : Bool :=
  s.locks.any fun l => l.tx ≠ t && l.row = row && l.mode.conflicts mode

/-- Take locks, or wait. -/
def acquire (s : Sys) (t : TxId) (ls : List (Row × LockMode)) : Option Sys :=
  if ls.any fun l => s.blocked t l.1 l.2 then none
  else some { s with locks := ls.map (fun l => Lock.mk t l.1 l.2) ++ s.locks }

def release (s : Sys) (t : TxId) : Sys :=
  { s with locks := s.locks.filter fun l => l.tx ≠ t }

/-- Add a row version to the writes of `x`. -/
def write (s : Sys) (t : TxId) (x : Tx) (w : Write) : Sys :=
  s.setTx t { x with writes := x.writes ++ [w] }

/-- The transaction fails. -/
def abort (s : Sys) (t : TxId) (x : Tx) : Sys :=
  (s.release t).setTx t { x with writes := [], aborted := true }

/-- `ROLLBACK`. -/
def rollback (s : Sys) (t : TxId) (x : Tx) : Sys :=
  (s.release t).setTx t { x with writes := [], aborted := false }

/-- `COMMIT`. -/
def commit (s : Sys) (t : TxId) (x : Tx) : Sys :=
  ({ s with
      db := s.view x
      wal := if x.writes = [] then s.wal
        else s.wal ++ [Commit.mk t x.req x.read x.writes] }.release t).setTx t
    { x with writes := [], commit := some (s.db, x.writes) }

end Sys

/-! ## Statements -/

/-- The columns of `menu_items` that an `UPDATE` sets. -/
structure ItemChange where
  stockQuantity : Option Int := none
  version : Option Int := none
  deriving DecidableEq

/-- What a request awaits: SQL statements, Redis commands, and the sending of
    its response. -/
inductive Stmt where
  | selectItem (id : Uuid)
  | selectItemForUpdate (id : Uuid)
  | insertItem (new : NewItem)
  | updateItem (id : Uuid) (change : ItemChange)
  | selectOrder (id : Uuid)
  | insertOrder (new : NewOrder)
  /-- `UPDATE orders SET status, version = version + 1 WHERE id AND version RETURNING id` -/
  | updateOrder (id : Uuid) (expectedVersion : Int) (newStatus : OrderStatus)
  | insertMovement (new : NewMovement)
  | redisGet (id : Uuid)
  | redisSetex (id : Uuid) (quantity : Int)
  | commit
  | rollback
  | respond (r : Response)

/-- What a statement returns when it succeeds. -/
abbrev Stmt.Val : Stmt → Type
  | .selectItem _ | .selectItemForUpdate _ => Option MenuItem
  | .insertItem _ => MenuItem
  | .updateItem _ _ => Unit
  | .selectOrder _ => Option Order
  | .insertOrder _ => Order
  | .updateOrder _ _ _ => Bool
  | .insertMovement _ => StockMovement
  | .redisGet _ => Option Int
  | .redisSetex _ _ | .commit | .rollback | .respond _ => Unit

/-- A statement returns its value or fails. -/
abbrev Stmt.Res (o : Stmt) : Type := Except Failure o.Val

/-- How a statement can fail from outside. -/
inductive Fault where
  | error | cancelled
  deriving DecidableEq

/-- What the environment decides about one statement: the fresh `uuid4`, the
    clock, and whether it fails for a reason outside the model (a lost
    connection, a value out of range, a cancelled request). -/
structure Env where
  uuid : Uuid := 0
  now : Timestamp := 0
  fault : Option Fault := none

/-- The statement goes to Redis. -/
def Stmt.isRedis : Stmt → Bool
  | .redisGet _ | .redisSetex _ _ => true
  | _ => false

/-- The statement goes to PostgreSQL and can fail there. -/
def Stmt.isSql : Stmt → Bool
  | .redisGet _ | .redisSetex _ _ | .rollback | .respond _ => false
  | _ => true

/-! ### Rows from objects, under the CHECK constraints -/

/-- The row of an item at its flush, unless a CHECK constraint refuses it. -/
def NewItem.row? (n : NewItem) (e : Env) : Option MenuItem :=
  if h : 0 ≤ n.stockQuantity ∧ 0 < n.price ∧ 0 ≤ n.lowStockThreshold then
    some {
      id := e.uuid, name := n.name, description := n.description, price := n.price
      stockQuantity := n.stockQuantity, lowStockThreshold := n.lowStockThreshold
      version := n.version, createdAt := e.now, updatedAt := e.now
      ckStockNonNegative := h.1, ckPricePositive := h.2.1, ckThresholdNonNegative := h.2.2 }
  else none

/-- An inserted item has the columns that were submitted. -/
theorem NewItem.row?_eq_some {n : NewItem} {e : Env} {i : MenuItem} (h : n.row? e = some i) :
    i.id = e.uuid ∧ i.name = n.name ∧ i.description = n.description ∧ i.price = n.price ∧
      i.stockQuantity = n.stockQuantity ∧ i.lowStockThreshold = n.lowStockThreshold ∧
      i.version = n.version := by
  unfold NewItem.row? at h
  split at h
  · obtain rfl := Option.some.inj h
    exact ⟨rfl, rfl, rfl, rfl, rfl, rfl, rfl⟩
  · cases h

/-- The row of an order at its flush, unless its CHECK constraint refuses it. -/
def NewOrder.row? (n : NewOrder) (e : Env) : Option Order :=
  if h : 0 < n.quantity then
    some {
      id := e.uuid, itemId := n.itemId, quantity := n.quantity, status := n.status
      customerRef := n.customerRef, version := n.version, createdAt := e.now, updatedAt := e.now
      ckQuantityPositive := h }
  else none

/-- An inserted order has the columns that were submitted. -/
theorem NewOrder.row?_eq_some {n : NewOrder} {e : Env} {o : Order} (h : n.row? e = some o) :
    o.id = e.uuid ∧ o.itemId = n.itemId ∧ o.quantity = n.quantity ∧ o.status = n.status ∧
      o.customerRef = n.customerRef ∧ o.version = n.version := by
  unfold NewOrder.row? at h
  split at h
  · obtain rfl := Option.some.inj h
    exact ⟨rfl, rfl, rfl, rfl, rfl, rfl⟩
  · cases h

/-- Only an order of no units is refused. -/
theorem NewOrder.row?_eq_none {n : NewOrder} {e : Env} : n.row? e = none ↔ n.quantity ≤ 0 := by
  simp [NewOrder.row?]

/-- The row of a movement at its flush. -/
def NewMovement.row (n : NewMovement) (e : Env) : StockMovement where
  id := e.uuid
  itemId := n.itemId
  orderId := n.orderId
  movementType := n.movementType
  quantityDelta := n.quantityDelta
  stockBefore := n.stockBefore
  stockAfter := n.stockAfter
  reason := n.reason
  createdAt := e.now

/-- The row after `UPDATE menu_items SET ... WHERE id`. -/
def ItemChange.updated? (c : ItemChange) (row : MenuItem) (e : Env) : Option MenuItem :=
  if h : 0 ≤ c.stockQuantity.getD row.stockQuantity then
    some { row with
      stockQuantity := c.stockQuantity.getD row.stockQuantity
      version := c.version.getD row.version
      updatedAt := e.now
      ckStockNonNegative := h }
  else none

/-- An `UPDATE` of an item sets its quantity, its version and its time, and no other column.
    -/
theorem ItemChange.updated?_eq_some {c : ItemChange} {row row' : MenuItem} {e : Env}
    (h : c.updated? row e = some row') :
    row' = { row with
      stockQuantity := row'.stockQuantity, version := row'.version, updatedAt := row'.updatedAt
      ckStockNonNegative := row'.ckStockNonNegative } ∧
      row'.stockQuantity = c.stockQuantity.getD row.stockQuantity ∧
      row'.version = c.version.getD row.version := by
  unfold ItemChange.updated? at h
  split at h
  · obtain rfl := Option.some.inj h
    exact ⟨rfl, rfl, rfl⟩
  · cases h

/-- An `UPDATE` keeps the key. -/
theorem ItemChange.updated?_id {c : ItemChange} {row row' : MenuItem} {e : Env}
    (h : c.updated? row e = some row') : row'.id = row.id := by
  have := congrArg MenuItem.id (ItemChange.updated?_eq_some h).1
  exact this

/-- The CHECK constraint refuses exactly a negative quantity. -/
theorem ItemChange.updated?_eq_none {c : ItemChange} {row : MenuItem} {e : Env} :
    c.updated? row e = none ↔ c.stockQuantity.getD row.stockQuantity < 0 := by
  simp [ItemChange.updated?]

/-- The row after `UPDATE orders SET status, version = version + 1`. -/
def Order.moved (row : Order) (newStatus : OrderStatus) (e : Env) : Order :=
  { row with status := newStatus, version := row.version + 1, updatedAt := e.now }

/-! ### The meaning of a statement -/

namespace Sys

/-- `uuid4` gives an id that no row, committed or pending, has. -/
def freshItem (s : Sys) (t : TxId) (x : Tx) (id : Uuid) : Bool :=
  ((s.view x).items.find? id).isNone && !s.blocked t (.item id) .forUpdate

/-- `uuid4` gives an order id that no row, committed or pending, has. -/
def freshOrder (s : Sys) (t : TxId) (x : Tx) (id : Uuid) : Bool :=
  ((s.view x).orders.find? id).isNone && !s.blocked t (.order id) .forUpdate

/-- `uuid4` gives a movement id that no row, committed or pending, has. -/
def freshMovement (s : Sys) (t : TxId) (x : Tx) (id : Uuid) : Bool :=
  ((s.view x).movements.find? id).isNone && !s.blocked t (.movement id) .forUpdate

/-- `INSERT INTO menu_items` -/
def insertItem (s : Sys) (t : TxId) (x : Tx) (e : Env) (n : NewItem) :
    Option (Except Failure MenuItem × Sys) :=
  if s.freshItem t x e.uuid then
    match n.row? e with
    | none => some (.error .integrityError, s.abort t x)
    | some row =>
      -- another insert of the name makes this one wait for its transaction
      (s.acquire t [(.item e.uuid, .forUpdate), (.itemName n.name, .forUpdate)]).map fun s' =>
        if (s.view x).items.rows.any fun r => r.name = n.name then
          (.error .integrityError, s.abort t x)
        else (.ok row, s'.write t x (.item row))
  else none

/-- `UPDATE menu_items SET ... WHERE id` -/
def updateItem (s : Sys) (t : TxId) (x : Tx) (e : Env) (id : Uuid) (c : ItemChange) :
    Option (Except Failure Unit × Sys) :=
  match (s.view x).items.find? id with
  | none => some (.error .dbapiError, s.abort t x)
  | some row =>
    match c.updated? row e with
    | none => some (.error .integrityError, s.abort t x)
    | some row' =>
      (s.acquire t [(.item id, .forNoKeyUpdate)]).map fun s' => (.ok (), s'.write t x (.item row'))

/-- `INSERT INTO orders`. The foreign key locks the item's row `FOR KEY SHARE`. -/
def insertOrder (s : Sys) (t : TxId) (x : Tx) (e : Env) (n : NewOrder) :
    Option (Except Failure Order × Sys) :=
  if s.freshOrder t x e.uuid then
    match n.row? e, (s.view x).items.find? n.itemId with
    | some row, some _ =>
      (s.acquire t [(.order e.uuid, .forUpdate), (.item n.itemId, .forKeyShare)]).map fun s' =>
        (.ok row, s'.write t x (.order row))
    | _, _ => some (.error .integrityError, s.abort t x)
  else none

/-- `UPDATE orders ... WHERE id AND version`: whether a row was updated. -/
def updateOrder (s : Sys) (t : TxId) (x : Tx) (e : Env) (id : Uuid) (expectedVersion : Int)
    (newStatus : OrderStatus) : Option (Except Failure Bool × Sys) :=
  match (s.view x).orders.find? id with
  | none => some (.ok false, s)
  | some row =>
    if row.version = expectedVersion then
      (s.acquire t [(.order id, .forNoKeyUpdate)]).map fun s' =>
        (.ok true, s'.write t x (.order (row.moved newStatus e)))
    else some (.ok false, s)

/-- The `FOR KEY SHARE` locks of the foreign-key checks of a movement. -/
def movementLocks (n : NewMovement) : List (Row × LockMode) :=
  (.item n.itemId, .forKeyShare) :: (n.orderId.map fun id => (.order id, .forKeyShare)).toList

/-- The rows that the foreign keys of a movement name exist. -/
def movementKeys (d : Db) (n : NewMovement) : Bool :=
  (d.items.find? n.itemId).isSome && n.orderId.all fun id => (d.orders.find? id).isSome

/-- `INSERT INTO stock_movements` -/
def insertMovement (s : Sys) (t : TxId) (x : Tx) (e : Env) (n : NewMovement) :
    Option (Except Failure StockMovement × Sys) :=
  if s.freshMovement t x e.uuid then
    if movementKeys (s.view x) n then
      (s.acquire t ((.movement e.uuid, .forUpdate) :: movementLocks n)).map fun s' =>
        (.ok (n.row e), s'.write t x (.movement (n.row e)))
    else some (.error .integrityError, s.abort t x)
  else none

/-- A statement of a live transaction, when nothing outside the model fails it. -/
def run (s : Sys) (t : TxId) (x : Tx) (e : Env) : (o : Stmt) → Option (o.Res × Sys)
  | .selectItem id =>
    let r := (s.view x).items.find? id
    some (.ok r, s.setTx t { x with seen := some r })
  | .selectItemForUpdate id =>
    match (s.view x).items.find? id with
    | none => some (.ok none, s)
    | some row => (s.acquire t [(.item id, .forUpdate)]).map fun s' => (.ok (some row), s')
  | .insertItem n => s.insertItem t x e n
  | .updateItem id c => s.updateItem t x e id c
  | .selectOrder id =>
    let r := (s.view x).orders.find? id
    some (.ok r, s.setTx t { x with read := x.read.or r })
  | .insertOrder n => s.insertOrder t x e n
  | .updateOrder id v st => s.updateOrder t x e id v st
  | .insertMovement n => s.insertMovement t x e n
  | .redisGet id => some (.ok (s.cache id), s.setTx t { x with cached := s.cache id })
  | .redisSetex id q =>
    some (.ok (), { s with cache := Function.update s.cache id (some q) }.setTx t
      { x with published := some (id, q) })
  | .commit => some (.ok (), s.commit t x)
  | .rollback => some (.ok (), s.rollback t x)
  | .respond r => some (.ok (), s.setTx t { x with response := some r })

end Sys

/-- The exception a failing await raises. -/
def Fault.failure (f : Fault) (o : Stmt) : Failure :=
  match f with
  | .error => if o.isRedis then .redisError else .dbapiError
  | .cancelled => .cancelledError

/-- A Redis command of `x` fails, or `x` is cancelled at it. -/
def Tx.redisFault (x : Tx) : Fault → Tx
  | .error => { x with redisFailed := true }
  | .cancelled => { x with faulted := true }

/-- The meaning of an await of transaction `t`. -/
def exec (e : Env) (t : TxId) (o : Stmt) (s : Sys) : Option (o.Res × Sys) :=
  match s.txs t with
  | none => none
  | some x =>
    if x.aborted && o.isSql then some (.error .pendingRollbackError, s)
    else
      match e.fault with
      | none => s.run t x e o
      | some f =>
        if o.isSql then some (.error (f.failure o), s.abort t { x with faulted := true })
        else if o.isRedis then some (.error (f.failure o), s.setTx t (x.redisFault f))
        else s.run t x e o

end Nova
