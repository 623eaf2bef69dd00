import Nova.Spec.Progress

/-!
# A cancelled request is interrupted

Wherever an await of a route raises `CancelledError`, no `except` clause on the way catches
it: the route raises it too, and it raises none of its own (`Coro.Passes`, method by method).
So `get_db` only closes the session of a request that is cancelled before its response, and
every other request sends one response (`code_replies`).
-/

namespace Nova

open Machine
open Coro (raise attempt await)

/-! ## Whether a request is answered -/

/-- Whether a request still waits for its response, has sent it, or was cancelled before. -/
inductive Reply where
  | waiting | sent | interrupted
  deriving DecidableEq

/-- The await has raised `CancelledError`. -/
def Stmt.interrupts (o : Stmt) : o.Res → Bool
  | .error .cancelledError => true
  | _ => false

/-- The next phase of a request. -/
def Reply.after : Reply → (o : Stmt) → o.Res → Reply
  | .waiting, o, r =>
    if o.sent.isSome then .sent else if o.interrupts r then .interrupted else .waiting
  | φ, _, _ => φ

/-- A request that has sent a response sends no other, and one that was cancelled before only
    rolls back. -/
def replying : Protocol Reply Stmt Stmt.Res where
  rest := .waiting
  allows
    | .waiting, _ => True
    | .sent, o => o.sent = none
    | .interrupted, o => o = .rollback
  answers := Stmt.answers
  after := Reply.after

/-- What a coroutine that sends nothing has made of a waiting request. -/
def Reply.left {α : Type} : Except Exc α → Reply
  | .ok _ => .waiting
  | .error e => if e.isCancelled then .interrupted else .waiting

/-- An exception that is no cancellation leaves the request waiting. -/
theorem Reply.left_error {α : Type} {e : Exc} (he : e.isCancelled = false) :
    Reply.left (.error e : Except Exc α) = .waiting := by
  simp [Reply.left, he]

/-- Run by a waiting request, `x` sends nothing, raises the `CancelledError` of each await
    that is cancelled, and no other. -/
def Coro.Passes {α : Type} (x : Coro α) : Prop :=
  ∀ ss : Session, replying.Follows .waiting (x ss) fun p φ => φ = Reply.left p.1

section

variable {α β : Type} {cache : CacheService}

/-- Returning sends nothing. -/
theorem passes_pure {a : α} : Coro.Passes (pure a) := fun _ => rfl

/-- An exception that is no cancellation leaves the request waiting. -/
theorem passes_raise {e : Exc} (he : e.isCancelled = false) : Coro.Passes (raise e : Coro α) :=
  fun _ => (Reply.left_error he).symm

/-- The sequencing rule. -/
theorem passes_bind {x : Coro α} {f : α → Coro β} (h : Coro.Passes x)
    (hf : ∀ a, Coro.Passes (f a)) : Coro.Passes (x >>= f) := by
  intro ss
  refine Protocol.follows_bind.mpr ((h ss).mono ?_)
  rintro ⟨e | a, ss'⟩ φ rfl
  · rfl
  · exact hf a ss'

/-- An await without a handler. -/
theorem passes_await {o : Stmt} (ho : o.InRoute) : Coro.Passes (await o) := by
  intro ss
  refine ⟨trivial, fun r _ => ?_⟩
  have hafter : replying.after .waiting o r =
      if o.interrupts r = true then .interrupted else .waiting := by
    simp [replying, Reply.after, ho.sent_eq]
  rw [hafter]
  cases r with
  | ok a => rfl
  | error f => cases f <;> rfl

/-- A handler that lets a cancellation pass. -/
theorem passes_attempt {x : Coro α} {f : Except Exc α → Coro β} (h : Coro.Passes x)
    (hok : ∀ a, Coro.Passes (f (.ok a)))
    (herr : ∀ e, e.isCancelled = false → Coro.Passes (f (.error e)))
    (hpass : ∀ e, e.isCancelled = true → f (.error e) = raise e) :
    Coro.Passes (attempt x >>= f) := by
  intro ss
  refine Protocol.follows_bind.mpr (Protocol.follows_bind.mpr ((h ss).mono ?_))
  rintro ⟨e | a, ss'⟩ φ rfl
  · show replying.Follows (Reply.left (.error e : Except Exc α)) (f (.error e) ss') _
    -- the phase says whether it was a cancellation
    cases he : e.isCancelled with
    | true =>
      rw [hpass e he]
      rfl
    | false =>
      rw [Reply.left_error he]
      exact herr e he ss'
  · exact hok a ss'

/-- A flush passes a cancellation on. -/
theorem passes_flush : Coro.Passes Session.flush := by
  have hemit : ∀ l : List (Uuid × ItemChange), Coro.Passes (Session.emit l) := by
    intro l
    induction l with
    | nil => exact passes_pure
    | cons p l ih => exact passes_bind (passes_await trivial) fun _ => ih
  exact fun ss => hemit ss.dirty ⟨[]⟩

/-- An assignment awaits nothing. -/
theorem passes_assign {i : ItemObj} {q v : Int} : Coro.Passes (Session.assign i q v) :=
  fun _ => rfl

/-! ## Cache and repositories -/

/-- The handler of the cache around a Redis command. -/
theorem passes_swallow {o : Stmt} {f : Except Exc o.Val → Coro β} (ho : o.InRoute)
    (hok : ∀ a, Coro.Passes (f (.ok a)))
    (herr : ∀ e, e.isCancelled = false → Coro.Passes (f (.error e)))
    (hpass : f (.error (.failure .cancelledError)) = raise (.failure .cancelledError)) :
    Coro.Passes (attempt (await o) >>= f) := by
  refine passes_attempt (passes_await ho) hok herr fun e he => ?_
  -- the cancellation is the one exception that the handler lets through
  obtain rfl : e = .failure .cancelledError := by
    cases e with
    | failure g => cases g <;> first | rfl | cases he
    | _ => cases he
  exact hpass

/-- `set_stock` swallows a Redis error, but no cancellation. -/
theorem setStock_passes {id : Uuid} {q : Int} : Coro.Passes (cache.setStock id q) := by
  unfold CacheService.setStock
  split
  · refine passes_swallow trivial (fun _ => passes_pure) (fun e he => ?_) rfl
    split
    · contradiction
    · rename_i hcancelled
      cases hcancelled
      cases he
    · exact passes_pure
  · exact passes_pure

/-- `get_stock` of the cache swallows a Redis error, but no cancellation. -/
theorem cacheGetStock_passes {id : Uuid} : Coro.Passes (cache.getStock id) := by
  unfold CacheService.getStock
  split
  · refine passes_swallow trivial (fun _ => passes_pure) (fun e he => ?_) rfl
    split
    · contradiction
    · rename_i hcancelled
      cases hcancelled
      cases he
    · exact passes_pure
  · exact passes_pure

/-- A refresh passes a cancellation on. -/
theorem refresh_passes {id : Uuid} : Coro.Passes (ItemRepository.refresh id) := by
  refine passes_bind (passes_await trivial) fun row => ?_
  cases row with
  | none => exact passes_raise rfl
  | some row => exact passes_pure

/-- The `SELECT ... FOR UPDATE` passes a cancellation on. -/
theorem lockItem_passes {id : Uuid} : Coro.Passes (ItemRepository.getByIdWithLock id) :=
  passes_bind (passes_await trivial) fun _ => passes_pure

/-- An insert of a movement passes a cancellation on. -/
theorem createMovement_passes {new : NewMovement} :
    Coro.Passes (StockRepository.createMovement new) :=
  passes_bind passes_flush fun _ => passes_await trivial

/-! ## Services -/

/-- The shared block of `adjust_stock`, `confirm_order` and `cancel_order`. -/
theorem recordChange_passes {i : ItemObj} {q v : Int} {new : ItemObj → NewMovement}
    {rest : ItemObj → Coro α} (hrest : ∀ item, Coro.Passes (rest item)) :
    Coro.Passes (do
      let item ← Session.assign i q v
      let _ ← StockRepository.createMovement (new item)
      let item ← ItemRepository.save item
      rest item) :=
  passes_bind passes_assign fun _ => passes_bind createMovement_passes fun _ =>
    passes_bind (passes_bind passes_flush fun _ => refresh_passes) hrest

/-- `create_item` passes a cancellation on. -/
theorem createItem_passes {name : String} {price stockQuantity : Int}
    {description : Option String} {lowStockThreshold : Int} :
    Coro.Passes
      (ItemService.createItem cache name price stockQuantity description lowStockThreshold) := by
  refine passes_bind (passes_bind passes_flush fun _ =>
    passes_bind (passes_await trivial) fun _ => refresh_passes) fun item => ?_
  exact passes_bind createMovement_passes fun _ => passes_bind setStock_passes fun _ => passes_pure

/-- `adjust_stock` passes a cancellation on. -/
theorem adjustStock_passes {itemId : Uuid} {delta : Int} {reason : String} :
    Coro.Passes (ItemService.adjustStock cache itemId delta reason) := by
  refine passes_bind lockItem_passes fun item => ?_
  cases item with
  | none => exact passes_raise rfl
  | some item =>
    dsimp only
    split
    · exact passes_raise rfl
    · exact recordChange_passes fun item => passes_bind setStock_passes fun _ => passes_pure

/-- `place_order` passes a cancellation on. -/
theorem placeOrder_passes {itemId : Uuid} {quantity : Int} {customerRef : Option String} :
    Coro.Passes (OrderService.placeOrder itemId quantity customerRef) := by
  refine passes_bind (passes_bind (passes_await trivial) fun _ => passes_pure) fun item => ?_
  cases item with
  | none => exact passes_raise rfl
  | some item =>
    refine passes_bind passes_flush fun _ => passes_bind (passes_await trivial) fun order => ?_
    refine passes_bind (passes_await trivial) fun row => ?_
    cases row with
    | none => exact passes_raise rfl
    | some row => exact passes_pure

/-- How the methods of the state machine end. -/
theorem moveOrder_passes {orderId : Uuid} {version : Int} {next : OrderStatus} :
    Coro.Passes (do
      let updated ← OrderRepository.transitionStatus orderId version next
      if !updated then
        raise (.conflict "Order" orderId)
      else
        OrderRepository.getById orderId) := by
  refine passes_bind (passes_await trivial) fun updated => ?_
  cases updated with
  | false => exact passes_raise rfl
  | true => exact passes_await trivial

/-- How they begin. -/
theorem readOrder_passes {orderId : Uuid} {next : OrderStatus} {k : Order → Coro (Option Order)}
    (hk : ∀ order, Coro.Passes (k order)) :
    Coro.Passes (do
      let some order ← OrderRepository.getById orderId
        | raise (.notFound "Order" orderId)
      if !order.status.canTransitionTo next then
        raise (.invalidTransition order.status next)
      else
        k order) := by
  refine passes_bind (passes_await trivial) fun order => ?_
  cases order with
  | none => exact passes_raise rfl
  | some order =>
    dsimp only
    split
    · exact passes_raise rfl
    · exact hk order

/-- `confirm_order` passes a cancellation on. -/
theorem confirmOrder_passes {orderId : Uuid} :
    Coro.Passes (OrderService.confirmOrder cache orderId) := by
  refine readOrder_passes fun order => passes_bind lockItem_passes fun item => ?_
  cases item with
  | none => exact passes_raise rfl
  | some item =>
    dsimp only
    split
    · -- a shortage rejects the order and raises, whatever the version check has said
      refine passes_bind (passes_await trivial) fun updated => ?_
      cases updated <;> exact passes_raise rfl
    · exact recordChange_passes fun item =>
        passes_bind setStock_passes fun _ => moveOrder_passes

/-- `cancel_order` passes a cancellation on. -/
theorem cancelOrder_passes {orderId : Uuid} :
    Coro.Passes (OrderService.cancelOrder cache orderId) := by
  refine readOrder_passes fun order => ?_
  split
  · refine passes_bind (passes_bind lockItem_passes fun item => ?_) fun _ => moveOrder_passes
    cases item with
    | none => exact passes_pure
    | some item => exact recordChange_passes fun _ => setStock_passes
  · exact moveOrder_passes

/-- Every method of `_transition_router` passes a cancellation on. -/
theorem method_passes {action : Action} {orderId : Uuid} :
    Coro.Passes (OrderService.method cache action orderId) := by
  cases action with
  | confirm => exact confirmOrder_passes
  | ship | deliver => exact readOrder_passes fun _ => moveOrder_passes
  | cancel => exact cancelOrder_passes

/-- `get_stock` passes a cancellation on. -/
theorem getStock_passes {itemId : Uuid} : Coro.Passes (StockService.getStock cache itemId) := by
  refine passes_bind cacheGetStock_passes fun cachedQty => ?_
  refine passes_bind (passes_bind (passes_await trivial) fun _ => passes_pure) fun item => ?_
  cases item with
  | none => exact passes_raise rfl
  | some item =>
    cases cachedQty with
    | none => exact passes_pure
    | some quantity => exact passes_assign

/-! ## Routes -/

/-- The routes replace domain exceptions only. -/
theorem translate_passes {status : Exc → Option Nat} {x : Coro α}
    (hstatus : ∀ f, status (.failure f) = none) (h : Coro.Passes x) :
    Coro.Passes (translate status x) := by
  refine passes_attempt h (fun _ => passes_pure) (fun e he => ?_) fun e he => ?_
  · dsimp only
    split
    · exact passes_raise rfl
    · exact passes_raise he
  · -- a handler catches `Exception`: a cancellation meets none of the routes' translations
    cases e with
    | failure f => simp only [hstatus]
    | _ => cases he

/-- Every route passes a cancellation on, its handlers included. -/
theorem route_passes (cache : CacheService) (req : Request) :
    Coro.Passes (Api.route cache req) := by
  unfold Api.route
  split
  · -- 422 of the request validation
    exact passes_raise rfl
  cases req with
  | createItem body =>
    refine passes_attempt createItem_passes (fun _ => passes_pure) (fun e he => ?_) fun e he => ?_
    · split
      · -- a cancellation is no `IntegrityError`
        contradiction
      · exact passes_raise rfl
      · rename_i hother
        cases hother
        exact passes_raise he
    · cases e with
      | failure f => cases f <;> first | rfl | cases he
      | _ => cases he
  | adjustStock itemId body =>
    -- the other routes translate domain exceptions only
    exact passes_bind (translate_passes (fun _ => rfl) adjustStock_passes) fun _ => passes_pure
  | placeOrder body =>
    exact passes_bind (translate_passes (fun _ => rfl) placeOrder_passes) fun _ => passes_pure
  | transition action orderId =>
    refine passes_bind (translate_passes (fun _ => rfl) method_passes) fun order => ?_
    cases order with
    | none =>
      -- a row that is gone cannot be serialised
      exact passes_raise rfl
    | some order => exact passes_pure
  | getStock itemId =>
    exact passes_bind (translate_passes (fun _ => rfl) getStock_passes) fun _ => passes_pure

/-! ## `get_db` -/

/-- From the phase `φ` on, `x` leaves the request answered or interrupted. -/
def Coro.Replies (φ : Reply) (x : Coro Unit) (ss : Session) : Prop :=
  replying.Follows φ (x ss) fun _ φ' => φ' ≠ .waiting

/-- A waiting request may end with its response. -/
theorem replies_last {r : Response} {ss : Session} :
    Coro.Replies .waiting (await (.respond r)) ss := by
  refine ⟨trivial, fun res _ => ?_⟩
  cases res <;> nofun

/-- A rollback does not fail, and leaves the phase as it is. -/
theorem replies_rollback {φ : Reply} {x : Coro Unit} {ss : Session}
    (h : Coro.Replies φ x {}) : Coro.Replies φ (Session.rollback >>= fun _ => x) ss := by
  refine ⟨(by cases φ <;> trivial), fun res hres => ?_⟩
  cases res with
  | ok u => cases φ <;> exact h
  | error e => exact hres.elim

/-- The server answers an exception, unless it is the cancellation of the request. -/
theorem replies_serverError {e : Exc} {ss : Session} :
    Coro.Replies (Reply.left (.error e : Except Exc Unit)) (serverError e) ss := by
  -- `get_db` answers an error by a 500, and a cancellation by nothing
  cases he : e.isCancelled with
  | true =>
    have hnone : serverError e = pure () := if_pos he
    have hleft : Reply.left (.error e : Except Exc Unit) = .interrupted := if_pos he
    rw [hnone, hleft]
    exact fun h => nomatch h
  | false =>
    have hsome : serverError e = await (.respond (.error 500 e.message)) := by
      simp [serverError, he]
    rw [hsome, Reply.left_error he]
    exact replies_last

/-- What sends nothing is run before `f`. -/
theorem replies_attempt {x : Coro α} {f : Except Exc α → Coro Unit} {ss : Session}
    (h : Coro.Passes x) (hf : ∀ r ss', Coro.Replies (Reply.left r) (f r) ss') :
    Coro.Replies .waiting (attempt x >>= f) ss := by
  refine Protocol.follows_bind.mpr (Protocol.follows_bind.mpr ((h ss).mono ?_))
  rintro ⟨r, ss'⟩ φ rfl
  exact hf r ss'

end

/-- A `COMMIT` passes a cancellation on. -/
theorem passes_commit : Coro.Passes Session.commit := by
  refine passes_bind passes_flush fun _ ss => ⟨trivial, fun r _ => ?_⟩
  cases r with
  | ok a => rfl
  | error f => cases f <;> rfl

/-- `get_db` sends one response, unless the request is cancelled before. -/
theorem getDb_replies {route : Coro Response} (h : Coro.Passes route) :
    Coro.Replies .waiting (getDb route) {} := by
  unfold getDb
  refine replies_attempt h fun r ss => ?_
  cases r with
  | ok response =>
    refine ⟨trivial, fun res hres => ?_⟩
    cases res with
    | error e => exact hres.elim
    | ok u =>
      -- the response comes first, and what follows it is silent
      have hrest := commitOrElse_takes (S := fun o => o.sent = none) (d := ss.dirty.length)
        ⟨Or.inr fun _ _ => rfl, rfl, rfl⟩ ss le_rfl
      refine (Protocol.follows_of_costs (P := replying) (φ := .sent) hrest fun o ho => ?_).mono ?_
      · exact ⟨ho, fun r => rfl⟩
      · rintro _ _ ⟨_, rfl⟩
        nofun
  | error e =>
    cases e with
    | http status detail =>
      refine replies_attempt passes_commit fun r ss' => ?_
      cases r with
      | ok u => exact replies_last
      | error e => exact replies_rollback replies_serverError
    | requestValidation => exact replies_rollback replies_last
    | _ =>
      simp only [Session.abandon_eq]
      exact replies_rollback replies_serverError

/-- The program of a request ends with its response sent, or is cancelled before. -/
theorem code_replies (cache : CacheService) (req : Request) :
    replying.Follows .waiting (Config.code ⟨.http, cache⟩ req) fun _ φ => φ ≠ .waiting :=
  Protocol.follows_bind.mpr (getDb_replies (route_passes cache req))

end Nova
