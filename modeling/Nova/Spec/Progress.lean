import Nova.ForStd.Trace
import Nova.Spec.Deadlock

/-!
# Every request finishes

No coroutine has a loop over data, so a request makes a bounded number of awaits:
`Coro.Costs` counts them, method by method, together with the dirty objects that a method
leaves in the session, because a flush awaits one `UPDATE` for each of them. With deadlock
freedom the bound gives completion (`requests_complete`): from any state, requests that
are only allowed to go on come to rest after a bounded number of steps.
-/

namespace Nova

open Machine
open Coro (raise attempt await)

/-! ## Costs of coroutines -/

/-- What a route may await: everything but the ends of its transaction and the sending of
    a response. -/
def Stmt.InRoute : Stmt → Prop
  | .commit | .rollback | .respond _ => False
  | _ => True

/-- The response that an await sends. -/
def Stmt.sent : Stmt → Option Response
  | .respond r => some r
  | _ => none

/-- A statement of a route sends nothing. -/
theorem Stmt.InRoute.sent_eq {o : Stmt} (h : o.InRoute) : o.sent = none := by
  cases o <;> first | rfl | cases h

/-- A session with at most `d` dirty objects after a return, and with none after an
    exception. -/
def LeavesDirty {α : Type} (d : Nat) (p : Except Exc α × Session) : Prop :=
  match p.1 with
  | .ok _ => p.2.dirty.length ≤ d
  | .error _ => p.2.dirty.length ≤ 0

/-- With at most `d` dirty objects `x` makes at most `n` awaits, and leaves `d'` of them. -/
def Coro.Costs {α : Type} (S : Stmt → Prop) (n d d' : Nat) (x : Coro α) : Prop :=
  ∀ ss : Session, ss.dirty.length ≤ d → (x ss).Costs S n (LeavesDirty d')

section

variable {α β : Type} {S : Stmt → Prop} {n m d d' d₁ : Nat} {cache : CacheService}

/-- More awaits may be allowed, and more dirty objects. -/
theorem Coro.Costs.mono {x : Coro α} {n' d'' : Nat} (h : Coro.Costs S n d d' x) (hn : n ≤ n')
    (hd : d' ≤ d'') : Coro.Costs S n' d d'' x := by
  intro ss hss
  refine (h ss hss).mono hn (fun _ hS => hS) fun p hp => ?_
  obtain ⟨_ | a, ss'⟩ := p
  · exact hp
  · exact Nat.le_trans (show ss'.dirty.length ≤ d' from hp) hd

/-- Returning awaits nothing. -/
theorem costs_pure (a : α) : Coro.Costs S 0 d d (pure a) :=
  fun _ hss => Prog.costs_ret.mpr hss

/-- Raising awaits nothing. -/
theorem costs_raise (e : Exc) : Coro.Costs S 0 0 d (raise e : Coro α) :=
  fun _ hss => Prog.costs_ret.mpr hss

/-- The sequencing rule. -/
theorem costs_bind {x : Coro α} {f : α → Coro β} (h : Coro.Costs S n d d₁ x)
    (hf : ∀ a, Coro.Costs S m d₁ d' (f a)) : Coro.Costs S (n + m) d d' (x >>= f) := by
  intro ss hss
  refine (h ss hss).bind fun p hp => ?_
  obtain ⟨e | a, ss'⟩ := p
  · exact Prog.costs_ret.mpr hp
  · exact hf a ss' hp

/-- What is caught has left a clean session. -/
theorem costs_caught {x : Coro α} {ss : Session} (h : (x ss).Costs S n (LeavesDirty d)) :
    (attempt x ss).Costs S n fun p => ∃ r, p.1 = .ok r ∧ LeavesDirty d (r, p.2) :=
  Prog.Costs.bind (m := 0) h fun p hp => Prog.costs_ret.mpr ⟨p.1, rfl, hp⟩

/-- The rule for `try`: the handler may cost as much as the rest. -/
theorem costs_attempt {x : Coro α} {f : Except Exc α → Coro β} (h : Coro.Costs S n d d₁ x)
    (hok : ∀ a, Coro.Costs S m d₁ d' (f (.ok a)))
    (herr : ∀ e, Coro.Costs S m 0 d' (f (.error e))) :
    Coro.Costs S (n + m) d d' (attempt x >>= f) := by
  intro ss hss
  refine (costs_caught (h ss hss)).bind fun p hp => ?_
  obtain ⟨_, ss'⟩ := p
  obtain ⟨e | a, rfl, hleft⟩ := hp
  · exact herr e ss' hleft
  · exact hok a ss' hleft

/-- One statement is one await. -/
theorem costs_await {o : Stmt} (ho : S o) : Coro.Costs S 1 0 0 (await o) := by
  intro ss hss
  refine ⟨ho, fun r => ?_⟩
  cases r <;> exact Prog.costs_ret.mpr hss

/-- An await goes first. -/
theorem costs_ask {o : Stmt} {f : o.Val → Coro α} (ho : S o)
    (hf : ∀ a, Coro.Costs S n 0 d (f a)) : Coro.Costs S (n + 1) 0 d (await o >>= f) :=
  (costs_bind (costs_await ho) hf).mono (by omega) le_rfl

/-- A flush may await `UPDATE`s, if `S` admits them, and awaits nothing else. -/
theorem costs_flush (hS : d = 0 ∨ ∀ id c, S (.updateItem id c)) :
    Coro.Costs S d d 0 Session.flush := by
  intro ss hss
  rcases hS with rfl | hS
  · -- a clean session, and no `UPDATE`
    have hnone : ss.dirty = [] := List.length_eq_zero_iff.mp (Nat.le_zero.mp hss)
    show Prog.Costs S 0 (Session.emit ss.dirty ⟨[]⟩) _
    rw [hnone]
    exact Nat.zero_le 0
  have hemit : ∀ l : List (Uuid × ItemChange),
      Coro.Costs S l.length 0 0 (Session.emit l) := by
    intro l
    -- one `UPDATE` for each dirty object
    induction l with
    | nil => exact costs_pure ()
    | cons p l ih => exact costs_ask (hS p.1 p.2) fun _ => ih
  exact (hemit ss.dirty ⟨[]⟩ (Nat.zero_le 0)).mono hss (fun _ h => h) fun _ h => h

/-- An assignment awaits nothing and makes one object dirty. -/
theorem costs_assign {i : ItemObj} {q v : Int} : Coro.Costs S 0 0 1 (Session.assign i q v) := by
  intro ss hss
  refine Prog.costs_ret.mpr ?_
  have hnone : ss.dirty = [] := List.length_eq_zero_iff.mp (Nat.le_zero.mp hss)
  show List.length (if _ then _ else _) ≤ 1
  rw [hnone]
  split <;> simp

/-! ## Cache and repositories -/

/-- `set_stock` is at most one await. -/
theorem costs_setStock {id : Uuid} {q : Int} (hS : S (.redisSetex id q)) :
    Coro.Costs S 1 0 0 (cache.setStock id q) := by
  unfold CacheService.setStock
  split
  · refine costs_attempt (m := 0) (costs_await hS) (fun _ => costs_pure ()) fun e => ?_
    split
    · contradiction
    · exact costs_raise _
    · exact costs_pure ()
  · exact (costs_pure ()).mono (by omega) le_rfl

/-- `get_stock` of the cache is at most one await. -/
theorem costs_cacheGetStock {id : Uuid} (hS : S (.redisGet id)) :
    Coro.Costs S 1 0 0 (cache.getStock id) := by
  unfold CacheService.getStock
  split
  · refine costs_attempt (m := 0) (costs_await hS) (fun _ => costs_pure _) fun e => ?_
    split
    · contradiction
    · exact costs_raise _
    · exact costs_pure _
  · exact (costs_pure _).mono (by omega) le_rfl

end

/-! ## Services -/

section

variable {n d d' : Nat} {cache : CacheService} {orderId : Uuid}

/-- A refresh is one await. -/
theorem costs_refresh {S : Stmt → Prop} {id : Uuid} (hS : S (.selectItem id)) :
    Coro.Costs S 1 0 0 (ItemRepository.refresh id) := by
  unfold ItemRepository.refresh
  refine costs_ask hS fun row => ?_
  cases row with
  | none => exact costs_raise _
  | some row => exact costs_pure _

/-- A plain `SELECT` is one await. -/
theorem costs_getById {id : Uuid} : Coro.Costs Stmt.InRoute 1 0 0 (ItemRepository.getById id) :=
  costs_ask trivial fun _ => costs_pure _

/-- A `SELECT ... FOR UPDATE` is one await. -/
theorem costs_getByIdWithLock {id : Uuid} :
    Coro.Costs Stmt.InRoute 1 0 0 (ItemRepository.getByIdWithLock id) :=
  costs_ask trivial fun _ => costs_pure _

/-- A movement is inserted after the dirty objects before it. -/
theorem costs_createMovement {S : Stmt → Prop} {new : NewMovement}
    (hflush : d = 0 ∨ ∀ id c, S (.updateItem id c)) (hS : S (.insertMovement new)) :
    Coro.Costs S (d + 1) d 0 (StockRepository.createMovement new) :=
  costs_bind (costs_flush hflush) fun _ => costs_await hS

/-- With nothing dirty, `save` is the refresh alone. -/
theorem costs_save {item : ItemObj} :
    Coro.Costs Stmt.InRoute 1 0 0 (ItemRepository.save item) :=
  (costs_bind (costs_flush (Or.inl rfl)) fun _ => costs_refresh trivial).mono (by omega) le_rfl

/-- The shared block of `adjust_stock`, `confirm_order` and `cancel_order` on a locked
    item: the `UPDATE`, the movement and the refresh. -/
theorem costs_recordChange {α : Type} {i : ItemObj} {q v : Int} {new : ItemObj → NewMovement}
    {rest : ItemObj → Coro α} (hrest : ∀ item, Coro.Costs Stmt.InRoute n 0 0 (rest item)) :
    Coro.Costs Stmt.InRoute (n + 3) 0 0 (do
      let item ← Session.assign i q v
      let _ ← StockRepository.createMovement (new item)
      let item ← ItemRepository.save item
      rest item) := by
  refine (costs_bind costs_assign fun item =>
    costs_bind (costs_createMovement (Or.inr fun _ _ => trivial) trivial) fun _ =>
      costs_bind costs_save hrest).mono (by omega) le_rfl

/-- `S` admits the statements of a creation. -/
structure Creates (S : Stmt → Prop) (b : ItemCreate) : Prop where
  insert : S (.insertItem {
    name := b.name, description := b.description, price := b.price
    stockQuantity := b.stockQuantity, lowStockThreshold := b.lowStockThreshold })
  select : ∀ id, S (.selectItem id)
  movement : ∀ itemId, S (.insertMovement {
    itemId, movementType := .adjustment, quantityDelta := b.stockQuantity, stockBefore := 0
    stockAfter := b.stockQuantity, reason := some "Initial stock on item creation" })
  setStock : ∀ id q, S (.redisSetex id q)

/-- Every statement of a creation is one of a route. -/
theorem creates_inRoute {b : ItemCreate} : Creates Stmt.InRoute b :=
  ⟨trivial, fun _ => trivial, fun _ => trivial, fun _ _ => trivial⟩

/-- `create_item` is at most 4 awaits. -/
theorem createItem_costs {S : Stmt → Prop} {b : ItemCreate} (hS : Creates S b) :
    Coro.Costs S 4 0 0 (ItemService.createItem cache b.name b.price b.stockQuantity b.description
      b.lowStockThreshold) := by
  unfold ItemService.createItem ItemRepository.create
  have hcreate : Coro.Costs S 2 0 0 (do
      Session.flush
      let row ← await (.insertItem {
        name := b.name, description := b.description, price := b.price
        stockQuantity := b.stockQuantity, lowStockThreshold := b.lowStockThreshold })
      -- flush, `INSERT`, refresh
      ItemRepository.refresh row.id) :=
    (costs_bind (costs_flush (Or.inl rfl)) fun _ =>
      costs_ask hS.insert fun _ => costs_refresh (hS.select _)).mono (by omega) le_rfl
  refine (costs_bind hcreate fun item =>
    costs_bind (costs_createMovement (Or.inl rfl) (hS.movement item.id)) fun _ =>
      costs_bind (costs_setStock (hS.setStock _ _)) fun _ => costs_pure item).mono (by omega) le_rfl

/-- `adjust_stock` is at most 5 awaits. -/
theorem adjustStock_costs {itemId : Uuid} {delta : Int} {reason : String} :
    Coro.Costs Stmt.InRoute 5 0 0 (ItemService.adjustStock cache itemId delta reason) := by
  unfold ItemService.adjustStock
  refine (costs_bind (m := 4) costs_getByIdWithLock fun item => ?_).mono (by omega) le_rfl
  cases item with
  | none =>
    -- 404 after one await
    exact (costs_raise _).mono (by omega) le_rfl
  | some item =>
    dsimp only
    split
    · -- 422 after one await
      exact (costs_raise _).mono (by omega) le_rfl
    · -- flush, `INSERT` of the movement, refresh and `SETEX`
      refine costs_recordChange fun item => ?_
      exact costs_bind (m := 0) (costs_setStock trivial) fun _ => costs_pure item

/-- `place_order` is at most 3 awaits. -/
theorem placeOrder_costs {itemId : Uuid} {quantity : Int} {customerRef : Option String} :
    Coro.Costs Stmt.InRoute 3 0 0 (OrderService.placeOrder itemId quantity customerRef) := by
  unfold OrderService.placeOrder
  refine (costs_bind (m := 2) costs_getById fun item => ?_).mono (by omega) le_rfl
  cases item with
  | none => exact (costs_raise _).mono (by omega) le_rfl
  | some item =>
    unfold OrderRepository.create OrderRepository.refresh
    -- the `INSERT` and the refresh of the order
    refine (costs_bind (costs_flush (Or.inl rfl)) fun _ =>
      costs_ask trivial fun order => costs_ask (n := 0) trivial fun row => ?_).mono
      (by omega) le_rfl
    cases row with
    | none =>
      -- the row is gone
      exact costs_raise _
    | some row => exact costs_pure row

/-- How the methods of the state machine end. -/
theorem moveOrder_costs {version : Int} {next : OrderStatus} :
    Coro.Costs Stmt.InRoute 2 0 0 (do
      let updated ← OrderRepository.transitionStatus orderId version next
      if !updated then
        raise (.conflict "Order" orderId)
      else
        OrderRepository.getById orderId) := by
  refine costs_ask trivial fun updated => ?_
  cases updated with
  | false =>
    -- 409
    exact (costs_raise _).mono (by omega) le_rfl
  | true =>
    -- the order is read again
    exact costs_await trivial

/-- How they begin. -/
theorem readOrder_costs {next : OrderStatus} {k : Order → Coro (Option Order)}
    (hk : ∀ order, Coro.Costs Stmt.InRoute n 0 0 (k order)) :
    Coro.Costs Stmt.InRoute (n + 1) 0 0 (do
      let some order ← OrderRepository.getById orderId
        | raise (.notFound "Order" orderId)
      if !order.status.canTransitionTo next then
        raise (.invalidTransition order.status next)
      else
        k order) := by
  refine costs_ask trivial fun order => ?_
  cases order with
  | none =>
    -- 404
    exact (costs_raise _).mono (by omega) le_rfl
  | some order =>
    dsimp only
    split
    · -- 422 for a transition that is not allowed
      exact (costs_raise _).mono (by omega) le_rfl
    · exact hk order

/-- `confirm_order` is at most 8 awaits. -/
theorem confirmOrder_costs :
    Coro.Costs Stmt.InRoute 8 0 0 (OrderService.confirmOrder cache orderId) := by
  refine readOrder_costs (n := 7) fun order => ?_
  refine (costs_bind (m := 6) costs_getByIdWithLock fun item => ?_).mono (by omega) le_rfl
  cases item with
  | none => exact (costs_raise _).mono (by omega) le_rfl
  | some item =>
    dsimp only
    split
    · -- too little stock: the rejection, and 422
      refine (costs_ask (n := 0) trivial fun updated => ?_).mono (by omega) le_rfl
      cases updated <;> exact costs_raise _
    · -- the stock is taken, the order confirmed
      refine costs_recordChange fun item' => ?_
      exact costs_bind (costs_setStock trivial) fun _ => moveOrder_costs

/-- `ship_order` and `deliver_order` are at most 3 awaits. -/
theorem transition_costs {next : OrderStatus} :
    Coro.Costs Stmt.InRoute 3 0 0 (OrderService.transition orderId next) :=
  readOrder_costs fun _ => moveOrder_costs

/-- `cancel_order` is at most 8 awaits. -/
theorem cancelOrder_costs :
    Coro.Costs Stmt.InRoute 8 0 0 (OrderService.cancelOrder cache orderId) := by
  refine readOrder_costs (n := 7) fun order => ?_
  split
  · -- the stock is restored first
    refine (costs_bind (n := 5) ?_ fun _ => moveOrder_costs).mono (by omega) le_rfl
    unfold OrderService.restoreStock
    refine (costs_bind (m := 4) costs_getByIdWithLock fun item => ?_).mono (by omega) le_rfl
    cases item with
    | none =>
      -- the item is gone, and the stock with it
      exact (costs_pure _).mono (by omega) le_rfl
    | some item =>
      exact costs_recordChange fun item' => costs_setStock trivial
  · exact moveOrder_costs.mono (by omega) le_rfl

/-- A stock read with a cached quantity leaves its item dirty. -/
theorem getStock_costs {itemId : Uuid} :
    Coro.Costs Stmt.InRoute 2 0 1 (StockService.getStock cache itemId) := by
  unfold StockService.getStock
  refine (costs_bind (costs_cacheGetStock trivial) fun cachedQty =>
    costs_bind (m := 0) costs_getById fun item => ?_).mono (by omega) le_rfl
  cases item with
  | none => exact costs_raise _
  | some item =>
    cases cachedQty with
    | none =>
      -- a miss: nothing is assigned
      exact (costs_pure _).mono le_rfl (by omega)
    | some quantity => exact costs_assign

end

/-! ## Requests -/

section

variable {S : Stmt → Prop} {n d : Nat}

/-- The routes only replace the exceptions of their services. -/
theorem translate_costs {α : Type} {status : Exc → Option Nat} {x : Coro α}
    (h : Coro.Costs Stmt.InRoute n 0 d x) : Coro.Costs Stmt.InRoute n 0 d (translate status x) := by
  unfold translate
  refine costs_attempt (m := 0) h (fun a => costs_pure a) fun e => ?_
  dsimp only
  split <;> exact costs_raise _

/-- `POST /items` awaits no more than the service. -/
theorem apiCreateItem_costs {cache : CacheService} {b : ItemCreate} (hS : Creates S b) :
    Coro.Costs S 4 0 0 (Api.createItem cache b) := by
  unfold Api.createItem
  refine costs_attempt (m := 0) (createItem_costs hS) (fun _ => costs_pure _) fun e => ?_
  split
  · contradiction
  · exact costs_raise _
  · exact costs_raise _

/-- A route makes at most eight awaits; a stock read makes two and leaves an `UPDATE`. -/
theorem route_costs (cache : CacheService) (req : Request) :
    ∃ n d, n + d ≤ 8 ∧ Coro.Costs Stmt.InRoute n 0 d (Api.route cache req) := by
  unfold Api.route
  split
  · -- 422 of the request validation
    exact ⟨0, 0, by omega, costs_raise _⟩
  -- the routes that translate exceptions and return a response
  have hreturn : ∀ {α : Type} {n d : Nat} {status : Exc → Option Nat} {x : Coro α}
      {f : α → Response}, n + d ≤ 8 → Coro.Costs Stmt.InRoute n 0 d x → ∃ n d, n + d ≤ 8 ∧
        Coro.Costs Stmt.InRoute n 0 d (do return f (← translate status x)) :=
    fun hle h => ⟨_, _, hle, costs_bind (m := 0) (translate_costs h) fun _ => costs_pure _⟩
  cases req with
  | createItem body => exact ⟨4, 0, by omega, apiCreateItem_costs creates_inRoute⟩
  | adjustStock itemId body => exact hreturn (by omega) adjustStock_costs
  | placeOrder body => exact hreturn (by omega) placeOrder_costs
  | transition action orderId =>
    have hmethod : Coro.Costs Stmt.InRoute 8 0 0 (OrderService.method cache action orderId) := by
      cases action with
      | confirm => exact confirmOrder_costs
      | ship | deliver => exact transition_costs.mono (by omega) le_rfl
      | cancel => exact cancelOrder_costs
    refine ⟨8, 0, by omega, ?_⟩
    refine costs_bind (m := 0) (translate_costs hmethod) fun order => ?_
    cases order with
    | none =>
      -- the status code does not matter here
      exact costs_raise _
    | some order => exact costs_pure _
  | getStock itemId => exact hreturn (by omega) getStock_costs

/-- A service call is at most 8 awaits, the flush of its dirty objects included. -/
theorem serviceCall_costs (cache : CacheService) (req : Request) :
    ∃ n d, n + d ≤ 8 ∧ Coro.Costs Stmt.InRoute n 0 d (serviceCall cache req) := by
  have hreturn : ∀ {α : Type} {n d : Nat} {x : Coro α}, n + d ≤ 8 →
      Coro.Costs Stmt.InRoute n 0 d x → ∃ n d, n + d ≤ 8 ∧
        Coro.Costs Stmt.InRoute n 0 d (x >>= fun _ => pure ()) :=
    -- the result of the service is dropped
    fun hle h => ⟨_, _, hle, costs_bind (m := 0) h fun _ => costs_pure _⟩
  cases req with
  | createItem body => exact hreturn (by omega) (createItem_costs creates_inRoute)
  | adjustStock itemId body => exact hreturn (by omega) adjustStock_costs
  | placeOrder body => exact hreturn (by omega) placeOrder_costs
  | transition action orderId =>
    cases action with
    | confirm => exact hreturn (by omega) confirmOrder_costs
    | ship | deliver => exact hreturn (by omega) transition_costs
    | cancel => exact hreturn (by omega) cancelOrder_costs
  | getStock itemId => exact hreturn (by omega) getStock_costs

/-- Any statements may be allowed. -/
theorem Coro.Costs.widen {α : Type} {d' : Nat} {x : Coro α} (h : Coro.Costs Stmt.InRoute n d d' x) :
    Coro.Costs (fun _ => True) n d d' x :=
  fun ss hss => (h ss hss).mono le_rfl (fun _ _ => trivial) fun _ hp => hp

/-- `S` admits what follows a route that has left `d` dirty objects, responses apart. -/
structure Closes (S : Stmt → Prop) (d : Nat) : Prop where
  flush : d = 0 ∨ ∀ id c, S (.updateItem id c)
  commit : S .commit
  rollback : S .rollback

/-- All statements admit what follows a route. -/
theorem closes_any {d : Nat} : Closes (fun _ => True) d :=
  ⟨Or.inr fun _ _ => trivial, trivial, trivial⟩

/-- A clean session needs no flush. -/
theorem Closes.clean (hS : Closes S d) : Closes S 0 := ⟨Or.inl rfl, hS.commit, hS.rollback⟩

/-- A `COMMIT` flushes first. -/
theorem costs_commit (hS : Closes S d) : Coro.Costs S (d + 1) d 0 Session.commit :=
  costs_bind (costs_flush hS.flush) fun _ => costs_await hS.commit

/-- A `ROLLBACK` is one await and drops the dirty objects. -/
theorem costs_rollback (hS : Closes S d) : Coro.Costs S 1 0 0 Session.rollback := by
  refine costs_ask (n := 0) hS.rollback fun _ ss hss => Prog.costs_ret.mpr ?_
  exact Nat.le_refl 0

/-- From a session with at most `d` dirty objects `x` makes at most `n` awaits. -/
def Coro.Takes {α : Type} (S : Stmt → Prop) (n d : Nat) (x : Coro α) : Prop :=
  ∀ ss : Session, ss.dirty.length ≤ d → (x ss).Costs S n fun _ => True

/-- How many dirty objects are left does not matter at the end. -/
theorem Coro.Costs.takes {α : Type} {m d' : Nat} {x : Coro α} (h : Coro.Costs S n d d' x)
    (hn : n ≤ m) : Coro.Takes S m d x :=
  fun ss hss => (h ss hss).mono hn (fun _ hS => hS) fun _ _ => trivial

/-- The rule for `try`, at the end of a request. -/
theorem takes_attempt {α : Type} {m d' : Nat} {x : Coro α} {f : Except Exc α → Coro Unit}
    (h : Coro.Costs S n d d' x) (hok : ∀ a, Coro.Takes S m d' (f (.ok a)))
    (herr : ∀ e, Coro.Takes S m 0 (f (.error e))) : Coro.Takes S (n + m) d (attempt x >>= f) := by
  intro ss hss
  refine (costs_caught (h ss hss)).bind fun p hp => ?_
  obtain ⟨_, ss'⟩ := p
  obtain ⟨e | a, rfl, hleft⟩ := hp
  · exact herr e ss' hleft
  · exact hok a ss' hleft

/-- The `UPDATE`s and the `COMMIT` after the `yield` of `get_db`, and a rollback when they
    fail. -/
theorem commitOrElse_takes (hS : Closes S d) :
    Coro.Takes S (d + 1 + 1) d (do
      match ← attempt Session.commit with
      | .ok () => pure ()
      | .error e => Session.abandon e) := by
  refine takes_attempt (costs_commit hS) (fun _ => ?_) fun e => ?_
  · exact (costs_pure ()).takes (Nat.zero_le 1)
  · simp only [Session.abandon_eq]
    exact (costs_rollback hS).takes le_rfl

/-- The sending of a response goes first. -/
theorem takes_respond {r : Response} {f : Unit → Coro Unit} (hr : S (.respond r))
    (hf : Coro.Takes S n d (f ())) : Coro.Takes S (n + 1) d (await (.respond r) >>= f) := by
  intro ss hss
  refine ⟨hr, fun res => ?_⟩
  cases res with
  | ok u => exact hf ss hss
  | error f => exact Prog.costs_ret.mpr trivial

/-- `get_db` adds a flush, a `COMMIT` and a response, or a `ROLLBACK` and a response. -/
theorem getDb_costs {route : Coro Response} (hS : Closes S d) (hsent : ∀ r, S (.respond r))
    (h : Coro.Costs S n 0 d route) : Coro.Takes S (n + (d + 3)) 0 (getDb route) := by
  -- a response is one await
  have hrespond : ∀ r, Coro.Costs S 1 0 0 (await (.respond r)) := fun r => costs_await (hsent r)
  -- and so is the answer to an unexpected exception
  have hserver : ∀ e, Coro.Costs S 1 0 0 (serverError e) := by
    intro e
    unfold serverError
    split
    · exact Coro.Costs.mono (costs_pure ()) (Nat.zero_le 1) le_rfl
    · exact hrespond _
  -- after a rollback nothing is dirty
  have hfail : ∀ {x : Coro Unit}, Coro.Costs S 1 0 0 x →
      Coro.Costs S 2 0 0 (Session.rollback >>= fun _ => x) :=
    fun hx => costs_bind (costs_rollback hS) fun _ => hx
  unfold getDb
  refine takes_attempt h (fun response => ?_) fun e => ?_
  · -- response, flush and `COMMIT`
    exact takes_respond (hsent response) (commitOrElse_takes hS)
  · cases e with
    | http status detail =>
      -- an `HTTPException`: `COMMIT`, or `ROLLBACK`, and the response
      have hhttp := takes_attempt (m := 2) (costs_commit hS.clean)
        (f := fun r => match r with
          | .ok () => await (.respond (.error status detail))
          | .error e => Session.close >>= fun _ => serverError e)
        (fun _ => (hrespond _).takes (by omega)) fun e => (hfail (hserver e)).takes le_rfl
      exact fun ss hss => (hhttp ss hss).mono (by omega) (fun _ hS => hS) fun _ h => h
    | requestValidation =>
      -- everything else: `ROLLBACK` and response
      exact (hfail (hrespond _)).takes (by omega)
    | _ =>
      simp only [Session.abandon_eq]
      exact (hfail (hserver _)).takes (by omega)

/-- The session of the race tests adds a flush, a `COMMIT` and a `ROLLBACK`. -/
theorem commitOrRollback_costs {call : Coro Unit} (h : Coro.Costs Stmt.InRoute n 0 d call) :
    Coro.Takes (fun _ => True) (n + (d + 1) + 1) 0 (commitOrRollback call) := by
  have hcall : Coro.Costs (fun _ => True) (n + (d + 1)) 0 0 (do let _ ← call; Session.commit) :=
    costs_bind h.widen fun _ => costs_commit closes_any
  unfold commitOrRollback
  refine takes_attempt hcall (fun _ => ?_) fun e => ?_
  · exact (costs_pure ()).takes (Nat.zero_le 1)
  · exact (costs_rollback (closes_any (d := d))).takes le_rfl

/-- A request begins with a clean session. -/
theorem main_costs {m : Nat} {x : Coro Unit} (h : Coro.Takes S n 0 x) (hn : n ≤ m) :
    x.main.Costs S m fun _ => True :=
  Prog.Costs.bind (m := 0) (Q := fun _ => True)
    ((h {} (Nat.le_refl 0)).mono hn (fun _ hS => hS) fun _ h => h) fun _ _ => trivial

/-- No request makes more than eleven awaits. -/
theorem code_costs (cfg : Config) (req : Request) :
    (cfg.code req).Costs (fun _ => True) 11 fun _ => True := by
  unfold Config.code
  cases cfg.harness with
  | http =>
    obtain ⟨n, d, hle, hroute⟩ := route_costs cfg.cache req
    exact main_costs (getDb_costs closes_any (fun _ => trivial) hroute.widen) (by omega)
  | service =>
    obtain ⟨n, d, hle, hcall⟩ := serviceCall_costs cfg.cache req
    exact main_costs (commitOrRollback_costs hcall) (by omega)

end

/-! ## Completion -/

/-- The move is a statement that nothing outside the model fails. -/
def Healthy {cfg : Config} : (system cfg).Label → Prop
  | .step _ e => e.fault = none
  | .start _ _ | .tick _ => False

/-- From `c` on, requests that are only allowed to go on come to rest: they make at most
    `n` more steps, whatever the schedule and whatever fails; where no request can go on
    all have ended; and without failures they get there. -/
structure Completes {cfg : Config} (c : (system cfg).Config) (n : Nat) : Prop where
  bounded : ∀ ls c', Run (fun _ l => l.isStep) c ls c' → ls.length ≤ n
  maximal : ∀ ls c', Run (fun _ l => l.isStep) c ls c' → (∀ t, ¬CanStep c' t) → AtRest c'
  reaches : ∃ ls c', Run (fun _ l => Healthy l) c ls c' ∧ AtRest c'

section

variable {cfg : Config} {d₀ : Db} {ok : (system cfg).Config → (system cfg).Label → Prop}
  {ls : List (system cfg).Label} {c : (system cfg).Config}

/-- Where no request can go on, all have ended. -/
theorem atRest_of_stuck (hrun : SysRun cfg ok d₀ ls c) (hstuck : ∀ t, ¬CanStep c t) : AtRest c := by
  intro t
  cases hpool : c.pool t with
  | none => exact Or.inl rfl
  | some p =>
    cases p with
    | ret u => exact Or.inr hpool
    | call o k =>
      obtain ⟨t', _, hcan⟩ := (deadlock_free hrun).progress ⟨t, o, k, hpool⟩
      exact absurd hcan (hstuck t')

/-- What `CanStep` promises is a healthy move. -/
theorem CanStep.healthy {t : TxId} (h : CanStep c t) :
    ∃ e c', @Healthy cfg (.step t e) ∧ c.next (.step t e) = some c' := by
  obtain ⟨e, hfault, hsome⟩ := h
  obtain ⟨c', hc'⟩ := Option.isSome_iff_exists.mp hsome
  exact ⟨e, c', hfault, hc'⟩

/-- Going on with good steps, as long as there are any, leads to rest, if a request that can
    go on can do so with a good one. -/
theorem reaches_rest {n : Nat} {G : (system cfg).Config → (system cfg).Label → Prop}
    (hG : ∀ c t, CanStep c t → ∃ e c', G c (.step t e) ∧ c.next (.step t e) = some c')
    (hrun : SysRun cfg (fun _ _ => True) d₀ ls c)
    (hbound : ∀ ls' c', Run (fun _ l => l.isStep) c ls' c' → ls'.length ≤ n) :
    ∃ ls' c', Run (fun c l => G c l ∧ l.isStep) c ls' c' ∧ AtRest c' := by
  induction n generalizing c ls with
  | zero =>
    -- nothing is left, so no request can go on
    refine ⟨[], c, .nil, atRest_of_stuck hrun fun t hcan => ?_⟩
    obtain ⟨e, c', _, hnext⟩ := hG c t hcan
    have hone := hbound [.step t e] c' (Run.nil.snoc trivial hnext)
    simp at hone
  | succ n ih =>
    by_cases hstuck : ∀ t, ¬CanStep c t
    · exact ⟨[], c, .nil, atRest_of_stuck hrun hstuck⟩
    · -- one more step, and less is left
      obtain ⟨t, hcan⟩ := not_forall_not.mp hstuck
      obtain ⟨e, c₁, hl, hnext⟩ := hG c t hcan
      obtain ⟨ls', c', hrest, hend⟩ := ih (hrun.snoc trivial hnext) fun ls' c' h => by
        have hall := hbound ([.step t e] ++ ls') c' ((Run.nil.snoc trivial hnext).trans h)
        simp only [List.length_append, List.length_singleton] at hall
        omega
      exact ⟨[.step t e] ++ ls', c', (Run.nil.snoc ⟨hl, trivial⟩ hnext).trans hrest, hend⟩

/-- In every run each request makes at most eleven awaits. From every state of every run,
    the requests started so far come to rest within what is left of their eleven. -/
theorem requests_complete (hrun : SysRun cfg ok d₀ ls c) :
    (∀ t, ls.countP (·.isStepOf t) ≤ 11) ∧
      Completes c (∑ t ∈ (ls.filterMap Label.starts).toFinset,
        (11 - ls.countP (·.isStepOf t))) := by
  have hall : SysRun cfg (fun _ _ => True) d₀ ls c := hrun.mono fun _ _ _ => trivial
  have hleft := fun t => hrun.countP_isStepOf_le (code_costs cfg) t
  have hbound : ∀ ls' c', Run (fun _ l => l.isStep) c ls' c' → ls'.length ≤
      -- a run of steps uses up what is left
      ∑ t ∈ (ls.filterMap Label.starts).toFinset, (11 - ls.countP (·.isStepOf t)) :=
    fun ls' c' h => h.length_le_costs (fun t => (hleft t).2) fun t ht =>
      List.mem_toFinset.mpr (hrun.mem_starts ht)
  refine ⟨fun t => (hleft t).1, hbound, fun ls' c' h => ?_, ?_⟩
  · -- what cannot be continued is at rest
    exact atRest_of_stuck (hall.trans (h.mono fun _ _ _ => trivial))
  · obtain ⟨ls', c', hrest, hend⟩ := reaches_rest (fun _ _ hcan => hcan.healthy) hall hbound
    exact ⟨ls', c', hrest.mono fun _ _ hl => hl.1, hend⟩

end

/-- A confirmation whose `COMMIT` fails after the response, and which is rolled back. -/
def confirmLost : List (system ⟨.http, ⟨true⟩⟩).Label :=
  [.start 0 (.createItem { name := "Tea", price := 350, stockQuantity := 5 })] ++
  turns 0 [0, 0, 1, 0, 0, 0] ++
  [.start 1 (.placeOrder { itemId := 0, quantity := 3 })] ++ turns 1 [0, 2, 0, 0, 0] ++
  [.start 2 (.transition .confirm 2)] ++ turns 2 [0, 0, 0, 3, 0, 0, 0, 0, 0] ++
  [.step 2 { fault := some .error }] ++ turns 2 [0]

/-- The bound is reached. -/
theorem requests_complete_lost : ∃ c, SysRun ⟨.http, ⟨true⟩⟩ (fun _ _ => True) Db.empty
    confirmLost c ∧ confirmLost.countP (·.isStepOf 2) = 11 ∧
    Completes c (∑ t ∈ (confirmLost.filterMap Label.starts).toFinset,
      (11 - confirmLost.countP (·.isStepOf t))) := by
  obtain ⟨c, hrun, _⟩ : ∃ c, SysRun ⟨.http, ⟨true⟩⟩ (fun _ _ => True) Db.empty
      confirmLost c ∧ decide (Ends c 2) = true :=
    Run.of_eval (fun c => decide (Ends c 2)) (by decide +kernel)
      (Config.allows_of_forall fun _ _ => trivial)
  exact ⟨c, hrun, by decide, (requests_complete hrun).2⟩

end Nova
