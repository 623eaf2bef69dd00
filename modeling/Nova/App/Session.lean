import Nova.ForStd.Machine
import Nova.App.Database

/-!
# Sessions and coroutines

A `Coro α` is an `async` function of one request. It awaits statements, may raise
an `Exc`, and works on the request's `AsyncSession`, of which the model keeps the
dirty objects: those of the identity map whose attributes differ from the row
they were loaded from. `flush` emits their `UPDATE`s; `autoflush` is off and
nothing else does.
-/

namespace Nova

/-- A computation that awaits statements. -/
abbrev Code (α : Type) := Prog Stmt Stmt.Res α

/-- The unit of work of an `AsyncSession`: the changed attributes of each dirty object. -/
structure Session where
  dirty : List (Uuid × ItemChange) := []

/-- An `async` function of a request. -/
def Coro (α : Type) := Session → Code (Except Exc α × Session)

namespace Coro

variable {α β : Type}

/-- `return a` -/
def pure (a : α) : Coro α := fun ss => .ret (.ok a, ss)

/-- `raise e` -/
def raise (e : Exc) : Coro α := fun ss => .ret (.error e, ss)

/-- What `x` raises, `bind x f` raises without running `f`. -/
def bind (x : Coro α) (f : α → Coro β) : Coro β := fun ss =>
  (x ss).bind fun p =>
    match p.1 with
    | .ok a => f a p.2
    | .error e => .ret (.error e, p.2)

instance : Monad Coro where
  pure := pure
  bind := bind

/-- Returning what a coroutine returns changes nothing. -/
protected theorem bind_pure (x : Coro α) : (x >>= fun a => Pure.pure a) = x := by
  funext ss
  have hret : (fun p : Except Exc α × Session =>
      match p.1 with
      | .ok a => (Prog.ret (.ok a, p.2) : Code (Except Exc α × Session))
      | .error e => .ret (.error e, p.2)) = Prog.ret := by
    funext p
    obtain ⟨_ | _, _⟩ := p <;> rfl
  show (x ss).bind _ = x ss
  exact (congrArg (x ss).bind hret).trans (x ss).bind_ret

/-- Run `x` and catch what it raises. -/
def attempt (x : Coro α) : Coro (Except Exc α) := fun ss =>
  (x ss).bind fun p => .ret (.ok p.1, p.2)

/-- Await one statement. -/
def await (o : Stmt) : Coro o.Val := fun ss =>
  .call o fun r =>
    match r with
    | .ok a => .ret (.ok a, ss)
    | .error f => .ret (.error (.failure f), ss)

end Coro

open Coro (raise attempt await)

/-! ## Objects of the session -/

/-- A `MenuItem` object: the row it was loaded from and its current attributes. -/
structure ItemObj where
  loaded : MenuItem
  stockQuantity : Int
  version : Int
  deriving DecidableEq

/-- The object of a freshly loaded row. -/
def ItemObj.ofRow (row : MenuItem) : ItemObj := ⟨row, row.stockQuantity, row.version⟩

namespace ItemObj

/-- The primary key of an object. -/
def id (i : ItemObj) : Uuid := i.loaded.id

/-- `is_low_stock` -/
def isLowStock (i : ItemObj) : Bool := i.stockQuantity ≤ i.loaded.lowStockThreshold

/-- The attributes that differ from the loaded row. -/
def change (i : ItemObj) : ItemChange where
  stockQuantity := if i.stockQuantity = i.loaded.stockQuantity then none else some i.stockQuantity
  version := if i.version = i.loaded.version then none else some i.version

end ItemObj

namespace Session

/-- Assign attributes of an item object. Only an object that then differs from
    its row is dirty. -/
def assign (i : ItemObj) (stockQuantity version : Int) : Coro ItemObj := fun ss =>
  let i' := { i with stockQuantity, version }
  let rest := ss.dirty.filter fun d => d.1 ≠ i.id
  .ret (.ok i', ⟨if i'.change = {} then rest else rest ++ [(i.id, i'.change)]⟩)

/-- The `UPDATE`s of a list of dirty objects. -/
def emit : List (Uuid × ItemChange) → Coro Unit
  | [] => pure ()
  | (id, c) :: rest => do
    await (.updateItem id c)
    emit rest

/-- `await session.flush()`, with no new objects in the session. -/
def flush : Coro Unit := fun ss => emit ss.dirty ⟨[]⟩

/-- `await session.commit()` -/
def commit : Coro Unit := do
  flush
  await .commit

/-- Expire all objects: nothing stays dirty. -/
def expireAll : Coro Unit := fun _ => .ret (.ok (), ⟨[]⟩)

/-- `await session.rollback()` -/
def rollback : Coro Unit := do
  await .rollback
  expireAll

/-- `await session.close()`, at the end of `async with`. It rolls back a transaction that is
    still open. -/
def close : Coro Unit := do
  await .rollback
  expireAll

/-- How `get_db` leaves its session with the exception `e`: `except Exception` rolls back, but
    a `CancelledError` is no `Exception` and only `close` ends its transaction. -/
def abandon (e : Exc) : Coro Unit := if e.isCancelled then close else rollback

/-- Both ways end the transaction in the same state. -/
@[simp] theorem abandon_eq (e : Exc) : abandon e = rollback := by
  unfold abandon
  split <;> rfl

end Session

/-! ## `get_db` -/

/-- The server's answer to an exception that no handler knows: none, if the request was
    cancelled. -/
def serverError (e : Exc) : Coro Unit :=
  if e.isCancelled then pure () else await (.respond (.error 500 e.message))

/-- `get_db` around the body of a route. It commits when the route returns and
    when it raises `HTTPException`, and rolls back on any other exception. The
    code after the `yield` runs after a normal response has been sent, while an
    exception passes through it before it becomes a response. `close` has nothing
    left to do where a `COMMIT` or a `ROLLBACK` has been executed. -/
def getDb (route : Coro Response) : Coro Unit := do
  match ← attempt route with
  | .ok response => do
    await (.respond response)
    match ← attempt Session.commit with
    | .ok () => pure ()
    | .error e => Session.abandon e
  | .error (.http status detail) => do
    match ← attempt Session.commit with
    | .ok () => await (.respond (.error status detail))
    | .error e => do
      -- the exception of `commit` replaces the `HTTPException`, and no clause catches it
      Session.close
      serverError e
  | .error .requestValidation => do
    Session.rollback
    await (.respond (.error 422 Exc.requestValidation.message))
  | .error e => do
    Session.abandon e
    serverError e

/-- The session of the race tests around a service call: `commit` on normal
    return, `rollback` on any exception. -/
def commitOrRollback {α : Type} (call : Coro α) : Coro Unit := do
  match ← attempt (do let _ ← call; Session.commit) with
  | .ok () => pure ()
  | .error _ => Session.rollback

/-- The code of a coroutine started with a new session. -/
def Coro.main (x : Coro Unit) : Code Unit := (x {}).bind fun _ => .ret ()

end Nova
