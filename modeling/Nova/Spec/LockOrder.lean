import Nova.Spec.Phases

/-!
# The code follows the lock order

Each service method starts in the phase without locks and with nothing to flush. It
settles: where it returns and where it raises, the dirty objects of its session can
still be flushed in the phase it has reached (`Session.Fits`), so that the commit or the
rollback of the request is in order too (`code_follows`).
-/

namespace Nova

open Machine
open Coro (raise attempt await)

/-! ## Coroutines -/

/-- The `UPDATE`s that a flush would emit are allowed in the phase. -/
def Session.Fits (ss : Session) : Phase → Prop
  | .free => ss.dirty.length ≤ 1
  | .item id => ss.dirty.length ≤ 1 ∧ ∀ d ∈ ss.dirty, d.1 = id
  | .closed => ss.dirty = []

/-- A clean session fits every phase. -/
theorem Session.fits_clean (φ : Phase) : Session.Fits {} φ := by
  cases φ <;> simp [Session.Fits]

section

variable {α β : Type} {φ : Phase} {ss : Session} {Q : Except Exc α → Session → Phase → Prop}

/-- From phase `φ` and session `ss` on, `x` follows the lock order, and ends as `Q` says. -/
def Coro.Obeys (φ : Phase) (x : Coro α) (ss : Session)
    (Q : Except Exc α → Session → Phase → Prop) : Prop :=
  lockOrder.Follows φ (x ss) fun p φ' => Q p.1 p.2 φ'

/-- A coroutine may promise less about its end. -/
theorem Coro.Obeys.mono {x : Coro α} {Q' : Except Exc α → Session → Phase → Prop}
    (h : Coro.Obeys φ x ss Q) (himp : ∀ r ss' φ', Q r ss' φ' → Q' r ss' φ') :
    Coro.Obeys φ x ss Q' :=
  Protocol.Follows.mono h fun p φ' => himp p.1 p.2 φ'

/-- A coroutine that returns is done. -/
@[simp] theorem obeys_pure {a : α} : Coro.Obeys φ (pure a) ss Q ↔ Q (.ok a) ss φ := Iff.rfl

/-- A coroutine that raises is done. -/
@[simp] theorem obeys_raise {e : Exc} : Coro.Obeys φ (raise e) ss Q ↔ Q (.error e) ss φ := Iff.rfl

/-- The sequencing rule. -/
theorem obeys_bind {x : Coro β} {f : β → Coro α} :
    Coro.Obeys φ (x >>= f) ss Q ↔ Coro.Obeys φ x ss fun r ss' φ' =>
      match r with
      | .ok b => Coro.Obeys φ' (f b) ss' Q
      | .error e => Q (.error e) ss' φ' := by
  refine Protocol.follows_bind.trans (iff_of_eq (congrArg (lockOrder.Follows φ (x ss)) ?_))
  funext p φ'
  obtain ⟨r, ss'⟩ := p
  cases r <;> rfl

/-- The rule for `try`: what is raised is returned. -/
theorem obeys_attempt {x : Coro α} {Q : Except Exc (Except Exc α) → Session → Phase → Prop} :
    Coro.Obeys φ (attempt x) ss Q ↔ Coro.Obeys φ x ss fun r => Q (.ok r) :=
  Protocol.follows_bind

/-- The rule for an await: it must be allowed, and both its answers go on. -/
theorem obeys_await {o : Stmt} {Q : Except Exc o.Val → Session → Phase → Prop}
    (hallow : φ.allows o)
    (hok : ∀ a, o.answers (.ok a) → Q (.ok a) ss (φ.after o (.ok a)))
    (herr : ∀ f, o.answers (.error f) → Q (.error (.failure f)) ss (φ.after o (.error f))) :
    Coro.Obeys φ (await o) ss Q := by
  refine ⟨hallow, fun r hr => ?_⟩
  cases r with
  | ok a => exact hok a hr
  | error f => exact herr f hr

/-- How a service method ends: as `R` says when it returns, and always with a session that
    fits its phase. -/
def Settles (R : α → Session → Phase → Prop) : Except Exc α → Session → Phase → Prop
  | .ok a, ss, φ => ss.Fits φ ∧ R a ss φ
  | .error _, ss, φ => ss.Fits φ

/-- A method that raises with nothing to flush. -/
theorem settled_raise {R : α → Session → Phase → Prop} {e : Exc} :
    Coro.Obeys φ (raise e) {} (Settles R) := Session.fits_clean φ

/-- The sequencing rule for methods that settle. -/
theorem obeys_then {x : Coro β} {f : β → Coro α} {P : β → Session → Phase → Prop}
    {R : α → Session → Phase → Prop} (h : Coro.Obeys φ x ss (Settles P))
    (hk : ∀ b ss' φ', ss'.Fits φ' → P b ss' φ' → Coro.Obeys φ' (f b) ss' (Settles R)) :
    Coro.Obeys φ (x >>= f) ss (Settles R) := by
  rw [obeys_bind]
  refine h.mono fun r ss' φ' hr => ?_
  cases r with
  | ok b => exact hk b ss' φ' hr.1 hr.2
  | error e => exact hr

/-- An await with nothing to flush. -/
theorem obeys_ask {o : Stmt} {f : o.Val → Coro α} {R : α → Session → Phase → Prop}
    (hallow : φ.allows o)
    (hk : ∀ b, o.answers (.ok b) → Coro.Obeys (φ.after o (.ok b)) (f b) {} (Settles R)) :
    Coro.Obeys φ (await o >>= f) {} (Settles R) := by
  rw [obeys_bind]
  exact obeys_await hallow hk fun _ _ => Session.fits_clean _

end

/-! ## The session -/

section

variable {α : Type} {φ : Phase} {ss : Session} {Q : Except Exc Unit → Session → Phase → Prop}

/-- A flush with nothing to do. -/
theorem obeys_flush_clean : Coro.Obeys φ Session.flush {} Q ↔ Q (.ok ()) {} φ := Iff.rfl

/-- The `UPDATE`s of a flush keep the phase, or end the locking of a request that had not
    locked anything. -/
theorem obeys_flush (hfits : ss.Fits φ) (hok : Q (.ok ()) {} φ)
    (hclosed : φ = .free → Q (.ok ()) {} .closed)
    (herr : ∀ e φ', Q (.error e) {} φ') : Coro.Obeys φ Session.flush ss Q := by
  obtain ⟨dirty⟩ := ss
  show Coro.Obeys φ (Session.emit dirty) {} Q
  -- nothing to write, one row, or more rows than any phase lets a session write
  rcases dirty with _ | ⟨⟨id, c⟩, _ | ⟨d, ds⟩⟩
  · exact hok
  · show Coro.Obeys φ (await (.updateItem id c) >>= fun _ => Session.emit []) {} Q
    -- the row is the first one locked, or the one that is locked already
    have hafter : φ = .free ∨ φ = .item id := by
      cases φ with
      | free => exact Or.inl rfl
      | item id' =>
        have hid : id = id' := hfits.2 (id, c) (by simp)
        exact Or.inr (congrArg Phase.item hid.symm)
      | closed => cases hfits
    rw [obeys_bind]
    refine obeys_await hafter (fun _ _ => ?_) fun _ _ => herr _ _
    rcases hafter with rfl | rfl
    · exact hclosed rfl
    · exact hok
  · have hlen : ¬(⟨(id, c) :: d :: ds⟩ : Session).dirty.length ≤ 1 := by simp
    cases φ with
    | free => exact absurd hfits hlen
    | item id' => exact absurd hfits.1 hlen
    | closed => cases hfits

/-- A commit that succeeds leaves no locks. -/
theorem obeys_commit (hfits : ss.Fits φ) (hok : Q (.ok ()) {} .free)
    (herr : ∀ e φ', Q (.error e) {} φ') : Coro.Obeys φ Session.commit ss Q := by
  have hcommit : ∀ φ' : Phase, Coro.Obeys φ' (await .commit) {} Q :=
    fun φ' => obeys_await trivial (fun _ _ => hok) fun _ _ => herr _ _
  unfold Session.commit
  rw [obeys_bind]
  exact obeys_flush hfits (hcommit φ) (fun _ => hcommit .closed) herr

/-- After a rollback there are no locks. -/
theorem obeys_rollback (hok : Q (.ok ()) {} .free) : Coro.Obeys φ Session.rollback ss Q := by
  unfold Session.rollback
  rw [obeys_bind]
  exact obeys_await trivial (fun _ _ => hok) fun _ hf => hf.elim

/-- A response needs no lock. -/
theorem obeys_respond {res : Response} (hok : Q (.ok ()) ss φ) :
    Coro.Obeys φ (await (.respond res)) ss Q :=
  obeys_await trivial (fun _ _ => hok) fun _ hf => hf.elim

/-- Assigning to an object makes at most this object dirty. -/
theorem obeys_assign {i : ItemObj} {q v : Int} {Q : Except Exc ItemObj → Session → Phase → Prop}
    (hok : ∀ ss', ss'.dirty.length ≤ 1 → (∀ d ∈ ss'.dirty, d.1 = i.id) →
      Q (.ok { i with stockQuantity := q, version := v }) ss' φ) :
    Coro.Obeys φ (Session.assign i q v) {} Q := by
  refine hok _ ?_ ?_
  · dsimp only
    split <;> simp
  · dsimp only
    split <;> simp

end

/-! ## Cache and repositories -/

section

variable {α : Type} {φ : Phase} {R : α → Session → Phase → Prop} {cache : CacheService}

/-- `set_stock` takes no lock. -/
theorem setStock_obeys {id : Uuid} {q : Int} {k : Unit → Coro α}
    (hk : Coro.Obeys φ (k ()) {} (Settles R)) :
    Coro.Obeys φ (cache.setStock id q >>= k) {} (Settles R) := by
  rw [obeys_bind]
  unfold CacheService.setStock
  split
  · rw [obeys_bind, obeys_attempt]
    -- Redis takes no lock, so the phase of the transaction stays whatever the entry is
    refine obeys_await trivial (fun _ _ => hk) fun f _ => ?_
    show Coro.Obeys φ _ _ _
    cases f with
    | cancelledError => exact Session.fits_clean φ
    | _ => exact hk
  · exact hk

/-- Whatever Redis answers, the locks and the session stay as they are. -/
theorem cacheGetStock_obeys {id : Uuid} {k : Option Int → Coro α}
    (hk : ∀ cachedQty, Coro.Obeys φ (k cachedQty) {} (Settles R)) :
    Coro.Obeys φ (cache.getStock id >>= k) {} (Settles R) := by
  unfold CacheService.getStock
  split
  · rw [obeys_bind, obeys_bind, obeys_attempt]
    refine obeys_await trivial (fun q _ => hk q) fun f _ => ?_
    show Coro.Obeys φ _ _ _
    cases f with
    | cancelledError => exact Session.fits_clean φ
    | _ => exact hk none
  · exact hk none

/-- A plain `SELECT` takes no lock. -/
theorem getById_obeys {id : Uuid} {k : Option ItemObj → Coro α}
    (hk : ∀ item, Coro.Obeys φ (k item) {} (Settles R)) :
    Coro.Obeys φ (ItemRepository.getById id >>= k) {} (Settles R) := by
  rw [obeys_bind]
  unfold ItemRepository.getById
  rw [obeys_bind]
  exact obeys_await trivial (fun _ _ => hk _) fun _ _ => Session.fits_clean _

/-- `get_by_id_with_lock` locks the item that it finds. -/
theorem getByIdWithLock_obeys {id : Uuid} {k : Option ItemObj → Coro α}
    (hnone : Coro.Obeys .free (k none) {} (Settles R))
    (hsome : ∀ item : ItemObj, Coro.Obeys (.item item.id) (k (some item)) {} (Settles R)) :
    Coro.Obeys .free (ItemRepository.getByIdWithLock id >>= k) {} (Settles R) := by
  rw [obeys_bind]
  unfold ItemRepository.getByIdWithLock
  rw [obeys_bind]
  -- a row that does not exist is not locked: the phase moves on only with the row found
  refine obeys_await rfl (fun row _ => ?_) fun _ _ => Session.fits_clean _
  cases row with
  | none => exact hnone
  | some row => exact hsome (.ofRow row)

/-- A movement of the locked item needs no lock beyond it. -/
theorem createMovement_obeys {id : Uuid} {n : NewMovement} {k : StockMovement → Coro α}
    {ss : Session} (hid : n.itemId = id) (hfits : ss.Fits (.item id))
    (hk : ∀ m, Coro.Obeys (.item id) (k m) {} (Settles R)) :
    Coro.Obeys (.item id) (StockRepository.createMovement n >>= k) ss (Settles R) := by
  subst hid
  rw [obeys_bind]
  unfold StockRepository.createMovement
  rw [obeys_bind]
  refine obeys_flush hfits ?_ (fun h => by cases h) fun _ φ' => Session.fits_clean φ'
  exact obeys_await rfl (fun m _ => hk m) fun _ _ => Session.fits_clean _

/-- A refresh takes no lock. -/
theorem refresh_obeys {id : Uuid} {k : ItemObj → Coro α}
    (hk : ∀ item, item.id = id → Coro.Obeys φ (k item) {} (Settles R)) :
    Coro.Obeys φ (ItemRepository.refresh id >>= k) {} (Settles R) := by
  rw [obeys_bind]
  unfold ItemRepository.refresh
  rw [obeys_bind]
  refine obeys_await trivial (fun row hrow => ?_) fun _ _ => Session.fits_clean _
  cases row with
  | none => exact Session.fits_clean φ
  | some row => exact hk (.ofRow row) hrow

/-- The shared block of `adjust_stock`, `confirm_order` and `cancel_order` on a locked
    item. -/
theorem recordChange_obeys {i : ItemObj} {q v : Int} {n : ItemObj → NewMovement}
    {rest : ItemObj → Coro α} (hn : ∀ item, (n item).itemId = item.id)
    (hrest : ∀ item, Coro.Obeys (.item i.id) (rest item) {} (Settles R)) :
    Coro.Obeys (.item i.id)
      (Session.assign i q v >>= fun item => StockRepository.createMovement (n item) >>= fun _ =>
        ItemRepository.save item >>= rest)
      {} (Settles R) := by
  rw [obeys_bind]
  -- the movement and the row are both of the item whose lock is held
  refine obeys_assign fun ss' hlen hids => ?_
  refine createMovement_obeys (hn _) ⟨hlen, hids⟩ fun m => ?_
  unfold ItemRepository.save
  exact refresh_obeys fun item _ => hrest item

end

/-! ## Services -/

section

variable {φ : Phase} {cache : CacheService} {orderId : Uuid}

/-- What a service call may leave to the request around it. -/
abbrev Anything {α : Type} : α → Session → Phase → Prop := fun _ _ _ => True

/-- `create_item` follows the lock order. -/
theorem createItem_obeys {name : String} {price stockQuantity : Int} {description : Option String}
    {lowStockThreshold : Int} :
    Coro.Obeys .free
      (ItemService.createItem cache name price stockQuantity description lowStockThreshold) {}
      (Settles Anything) := by
  unfold ItemService.createItem ItemRepository.create
  rw [obeys_bind, obeys_bind, obeys_flush_clean, obeys_bind]
  refine obeys_await rfl (fun row _ => ?_) fun _ _ => Session.fits_clean _
  have hrefresh : Coro.Obeys (.item row.id)
      (ItemRepository.refresh row.id >>= fun item =>
        StockRepository.createMovement {
          itemId := item.id, movementType := .adjustment, quantityDelta := stockQuantity
          stockBefore := 0, stockAfter := stockQuantity
          reason := some "Initial stock on item creation" } >>= fun _ =>
        cache.setStock item.id item.stockQuantity >>= fun _ => pure item) {}
      (Settles Anything) := by
    refine refresh_obeys fun item hid => ?_
    refine createMovement_obeys hid (Session.fits_clean _) fun _ => ?_
    exact setStock_obeys ⟨Session.fits_clean _, trivial⟩
  rwa [obeys_bind] at hrefresh

/-- `adjust_stock` follows the lock order. -/
theorem adjustStock_obeys {itemId : Uuid} {delta : Int} {reason : String} :
    Coro.Obeys .free (ItemService.adjustStock cache itemId delta reason) {}
      (Settles Anything) := by
  unfold ItemService.adjustStock
  refine getByIdWithLock_obeys settled_raise fun item => ?_
  dsimp only
  split
  · exact settled_raise
  · refine recordChange_obeys (fun _ => rfl) fun item => ?_
    exact setStock_obeys ⟨Session.fits_clean _, trivial⟩

/-- `place_order` follows the lock order. -/
theorem placeOrder_obeys {itemId : Uuid} {quantity : Int} {customerRef : Option String} :
    Coro.Obeys .free (OrderService.placeOrder itemId quantity customerRef) {}
      (Settles Anything) := by
  unfold OrderService.placeOrder
  refine getById_obeys fun item => ?_
  cases item with
  | none => exact settled_raise
  | some item =>
    unfold OrderRepository.create OrderRepository.refresh
    dsimp only
    rw [obeys_bind, obeys_flush_clean]
    refine obeys_ask rfl fun order _ => obeys_ask trivial fun row _ => ?_
    cases row with
    | none => exact settled_raise
    | some row => exact ⟨Session.fits_clean _, trivial⟩

/-- How the methods of the state machine end, also with an item locked. -/
theorem moveOrder_obeys (hφ : φ ≠ .closed) {version : Int} {next : OrderStatus} :
    Coro.Obeys φ
      (do
        let updated ← OrderRepository.transitionStatus orderId version next
        if !updated then
          raise (.conflict "Order" orderId)
        else
          OrderRepository.getById orderId)
      {} (Settles Anything) := by
  unfold OrderRepository.transitionStatus OrderRepository.getById
  refine obeys_ask hφ fun updated _ => ?_
  cases updated with
  | false => exact settled_raise
  | true =>
    exact obeys_await trivial (fun _ _ => ⟨Session.fits_clean _, trivial⟩)
      fun _ _ => Session.fits_clean _

/-- How they begin. -/
theorem readOrder_obeys {next : OrderStatus} {k : Order → Coro (Option Order)}
    (hk : ∀ order, Coro.Obeys .free (k order) {} (Settles Anything)) :
    Coro.Obeys .free
      (do
        let some order ← OrderRepository.getById orderId
          | raise (.notFound "Order" orderId)
        if !order.status.canTransitionTo next then
          raise (.invalidTransition order.status next)
        else
          k order)
      {} (Settles Anything) := by
  unfold OrderRepository.getById
  refine obeys_ask trivial fun order _ => ?_
  cases order with
  | none => exact settled_raise
  | some order =>
    dsimp only
    split
    · exact settled_raise
    · exact hk order

/-- `confirm_order` follows the lock order. -/
theorem confirmOrder_obeys :
    Coro.Obeys .free (OrderService.confirmOrder cache orderId) {} (Settles Anything) := by
  refine readOrder_obeys fun order => ?_
  refine getByIdWithLock_obeys settled_raise fun item => ?_
  dsimp only
  split
  · -- the rejection locks the order after the item, like the confirmation
    unfold OrderRepository.transitionStatus
    refine obeys_ask (by intro h; cases h) fun updated _ => ?_
    cases updated <;> exact settled_raise
  · refine recordChange_obeys (fun _ => rfl) fun item' => setStock_obeys ?_
    exact moveOrder_obeys (by intro h; cases h)

/-- `ship_order` and `deliver_order` follow the lock order. -/
theorem transition_obeys {next : OrderStatus} :
    Coro.Obeys .free (OrderService.transition orderId next) {} (Settles Anything) := by
  refine readOrder_obeys fun order => ?_
  exact moveOrder_obeys (by intro h; cases h)

/-- `cancel_order` follows the lock order. -/
theorem cancelOrder_obeys :
    Coro.Obeys .free (OrderService.cancelOrder cache orderId) {} (Settles Anything) := by
  refine readOrder_obeys fun order => ?_
  split
  · refine obeys_then (P := fun _ ss φ => ss = {} ∧ φ ≠ .closed) ?_ fun _ ss' φ' _ h => ?_
    · unfold OrderService.restoreStock
      refine getByIdWithLock_obeys ⟨Session.fits_clean _, rfl, by intro h; cases h⟩ fun item => ?_
      refine recordChange_obeys (fun _ => rfl) fun item' => ?_
      rw [← Coro.bind_pure (cache.setStock _ _)]
      exact setStock_obeys ⟨Session.fits_clean _, rfl, by intro h; cases h⟩
    · obtain ⟨rfl, hφ'⟩ := h
      exact moveOrder_obeys hφ'
  · exact moveOrder_obeys (by intro h; cases h)

/-- A stock read with a cached quantity leaves one dirty object and no locks. -/
theorem getStock_obeys {itemId : Uuid} :
    Coro.Obeys .free (StockService.getStock cache itemId) {} (Settles Anything) := by
  unfold StockService.getStock
  refine cacheGetStock_obeys fun cachedQty => ?_
  refine getById_obeys fun item => ?_
  cases item with
  | none => exact settled_raise
  | some item =>
    cases cachedQty with
    | none => exact ⟨Session.fits_clean _, trivial⟩
    | some quantity => exact obeys_assign fun ss' hlen _ => ⟨hlen, trivial⟩

end

/-! ## Routes and requests -/

section

variable {α : Type} {φ : Phase} {ss : Session}

/-- The routes only replace the exceptions of their services. -/
theorem translate_obeys {status : Exc → Option Nat} {x : Coro α} {f : α → Coro Response}
    (h : Coro.Obeys φ x ss (Settles Anything))
    (hf : ∀ a ss' φ', ss'.Fits φ' → Coro.Obeys φ' (f a) ss' (Settles Anything)) :
    Coro.Obeys φ (translate status x >>= f) ss (Settles Anything) := by
  rw [obeys_bind]
  unfold translate
  rw [obeys_bind, obeys_attempt]
  -- a translated exception is another exception: the locks are those of the call
  refine h.mono fun r ss' φ' hr => ?_
  cases r with
  | ok a => exact hf a ss' φ' hr.1
  | error e =>
    dsimp only
    split <;> exact hr

/-- Every route follows the lock order. -/
theorem route_obeys (cache : CacheService) (req : Request) :
    Coro.Obeys .free (Api.route cache req) {} (Settles Anything) := by
  unfold Api.route
  split
  · -- 422 of the request validation
    exact settled_raise
  cases req with
  | createItem body =>
    show Coro.Obeys .free (Api.createItem cache body) {} (Settles Anything)
    unfold Api.createItem
    rw [obeys_bind, obeys_attempt]
    refine createItem_obeys.mono fun r ss φ hr => ?_
    cases r with
    | ok item => exact hr
    | error e =>
      dsimp only
      -- the handler raises the 409 with the session as it is
      split <;> first | exact hr | contradiction
  | adjustStock itemId body =>
    exact translate_obeys adjustStock_obeys fun _ _ _ hfits => ⟨hfits, trivial⟩
  | placeOrder body =>
    exact translate_obeys placeOrder_obeys fun _ _ _ hfits => ⟨hfits, trivial⟩
  | transition action orderId =>
    -- the method of the action
    have hmethod : Coro.Obeys .free (OrderService.method cache action orderId) {}
        (Settles Anything) := by
      cases action with
      | confirm => exact confirmOrder_obeys
      | ship | deliver => exact transition_obeys
      | cancel => exact cancelOrder_obeys
    refine translate_obeys hmethod fun order _ _ hfits => ?_
    cases order with
    | none =>
      -- a row that is gone cannot be serialised
      exact hfits
    | some order => exact ⟨hfits, trivial⟩
  | getStock itemId => exact translate_obeys getStock_obeys fun _ _ _ hfits => ⟨hfits, trivial⟩

/-- A request that has ended holds no locks. -/
abbrev Free {α : Type} : α → Session → Phase → Prop := fun _ _ φ => φ = .free

/-- A commit, rolled back when it fails. -/
theorem commitThen_obeys {f : Except Exc Unit → Coro Unit} (hfits : ss.Fits φ)
    (hok : Coro.Obeys .free (f (.ok ())) {} Free)
    (herr : ∀ e φ', Coro.Obeys φ' (f (.error e)) {} Free) :
    Coro.Obeys φ (attempt Session.commit >>= f) ss Free := by
  rw [obeys_bind, obeys_attempt]
  exact obeys_commit hfits hok herr

/-- After a rollback no lock is left. -/
theorem rollbackThen_obeys {x : Coro Unit} (hx : Coro.Obeys .free x {} Free) :
    Coro.Obeys φ (Session.rollback >>= fun _ => x) ss Free := by
  rw [obeys_bind]
  exact obeys_rollback hx

/-- The answer to an exception takes no lock. -/
theorem serverError_obeys {e : Exc} : Coro.Obeys .free (serverError e) {} Free := by
  unfold serverError
  split
  · rfl
  · exact obeys_respond rfl

/-- An exception ends the transaction, and is answered. -/
theorem abandonThen_obeys {e : Exc} :
    Coro.Obeys φ (Session.abandon e >>= fun _ => serverError e) ss Free := by
  rw [Session.abandon_eq]
  exact rollbackThen_obeys serverError_obeys

/-- `get_db` follows the lock order, whatever the route does. -/
theorem getDb_obeys {route : Coro Response}
    (h : Coro.Obeys .free route {} (Settles Anything)) :
    Coro.Obeys .free (getDb route) {} Free := by
  have hrespond : ∀ r, Coro.Obeys .free (await (.respond r)) {} Free :=
    fun r => obeys_respond rfl
  unfold getDb
  rw [obeys_bind, obeys_attempt]
  -- `get_db` ends the transaction on every path, and its locks with it
  refine h.mono fun r ss φ hr => ?_
  cases r with
  | ok response =>
    dsimp only
    rw [obeys_bind]
    refine obeys_respond (commitThen_obeys hr.1 rfl fun e _ => ?_)
    simp only [Session.abandon_eq]
    exact obeys_rollback rfl
  | error e =>
    cases e with
    | http status detail =>
      exact commitThen_obeys hr (hrespond _) fun e _ => rollbackThen_obeys serverError_obeys
    | requestValidation => exact rollbackThen_obeys (hrespond _)
    | _ => exact abandonThen_obeys

/-- Every service call follows the lock order. -/
theorem serviceCall_obeys (cache : CacheService) (req : Request) :
    Coro.Obeys .free (serviceCall cache req) {} (Settles Anything) := by
  have hcall : ∀ {β : Type} {x : Coro β}, Coro.Obeys .free x {} (Settles Anything) →
      Coro.Obeys .free (x >>= fun _ => pure ()) {} (Settles Anything) :=
    fun hx => obeys_then hx fun _ _ _ hfits _ => ⟨hfits, trivial⟩
  cases req with
  | createItem body => exact hcall createItem_obeys
  | adjustStock itemId body => exact hcall adjustStock_obeys
  | placeOrder body => exact hcall placeOrder_obeys
  | transition action orderId =>
    cases action with
    | confirm => exact hcall confirmOrder_obeys
    | ship | deliver => exact hcall transition_obeys
    | cancel => exact hcall cancelOrder_obeys
  | getStock itemId => exact hcall getStock_obeys

/-- The session of the race tests follows the lock order. -/
theorem commitOrRollback_obeys {call : Coro Unit}
    (h : Coro.Obeys .free call {} (Settles Anything)) :
    Coro.Obeys .free (commitOrRollback call) {} Free := by
  unfold commitOrRollback
  rw [obeys_bind, obeys_attempt, obeys_bind]
  refine h.mono fun r ss φ hr => ?_
  cases r with
  | error e => exact obeys_rollback rfl
  | ok u => exact obeys_commit hr.1 rfl fun _ _ => obeys_rollback rfl

end

/-- The program of every request follows the lock order and ends without locks. -/
theorem code_follows (cfg : Config) (req : Request) :
    lockOrder.Follows .free (cfg.code req) fun _ φ => φ = .free := by
  unfold Config.code
  cases cfg.harness with
  | http => exact Protocol.follows_bind.mpr (getDb_obeys (route_obeys cfg.cache req))
  | service =>
      exact Protocol.follows_bind.mpr (commitOrRollback_obeys (serviceCall_obeys cfg.cache req))

end Nova
