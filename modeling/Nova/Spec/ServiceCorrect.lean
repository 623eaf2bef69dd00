import Nova.Spec.Statements

/-!
# The service methods meet the contract

One theorem for each method of `ItemService`, `OrderService` and `StockService`: run by
request `t`, it meets the contract at each await and ends in `ServicePost`. On a normal
return its writes are the `Effect` of the request, and still will be at any later state;
on one of the domain exceptions they are the effect of that exception; on any other
exception the transaction is `Broken`. Three methods share the block that changes the
stock of a locked item, which is `safe_recordChange`.
-/

namespace Nova

open Machine
open Coro (raise attempt await)

/-! ## How a method can leave its transaction -/

/-- The transaction of a request that has not ended: nothing is committed, and nothing
    answered. -/
structure Tx.Unfinished (x : Tx) (req : Request) : Prop where
  req : x.req = req
  uncommitted : x.commit = none
  unanswered : x.response = none

/-- An unfinished transaction of which no statement has failed. -/
structure Tx.Running (x : Tx) (req : Request) : Prop extends x.Unfinished req where
  live : x.aborted = false
  unfaulted : x.faulted = false

/-- The writes of the transaction are the effect of a request that ended with `e`,
    whatever others do until it commits. A read has found no row. -/
def Ready (cfg : Config) (A : Allow) (d₀ : Db) (t : TxId) (req : Request) (e : Option Exc)
    (s : Sys) : Prop :=
  ∃ F x, Stable t F ∧ At A d₀ t F x s ∧ x.Running req ∧ x.Published cfg ∧
    (req.isRead = true → x.seen = some none) ∧
    ∀ s', F s' → Effect A d₀ s'.wal s'.db req x.read e x.writes

/-- The transaction was failed from outside, or PostgreSQL refused a row. -/
def Broken (cfg : Config) (d₀ : Db) (t : TxId) (req : Request) (f : Failure) (s : Sys) : Prop :=
  ∃ x, s.txs t = some x ∧ x.Unfinished req ∧
    ((x.faulted = true ∧ f ≠ .integrityError) ∨
      (x.published = none ∧ x.aborted = true ∧ f = .integrityError ∧
        (cfg.harness = .http → ∃ b, req = .createItem b ∧ takenIn d₀ s.wal b.name)))

/-- The postcondition of a service call that returns as `R` says. -/
def ServicePost {α : Type} (cfg : Config) (A : Allow) (d₀ : Db) (t : TxId) (req : Request)
    (R : α → Session → Sys → Prop) : Except Exc α → Session → Sys → Prop
  | .ok a, ss, s => R a ss s
  | .error (.failure f), ss, s => (f = .integrityError → ss.dirty = []) ∧ Broken cfg d₀ t req f s
  | .error e, ss, s => req.raises e = true ∧ (∃ x, s.txs t = some x ∧ x.req = req) ∧
      (cfg.harness = .http → ss.dirty = [] ∧ Ready cfg A d₀ t req (some e) s)

/-- The postcondition of a method that writes, with results that satisfy `P`. -/
abbrev WritePost {α : Type} (cfg : Config) (A : Allow) (d₀ : Db) (t : TxId) (req : Request)
    (P : α → Prop) : Except Exc α → Session → Sys → Prop :=
  ServicePost cfg A d₀ t req fun a ss s => P a ∧ ss.dirty = [] ∧ Ready cfg A d₀ t req none s

section

variable {α β : Type} {cfg : Config} {A : Allow} {d₀ : Db} {t : TxId} {req : Request}
  {s : Sys} {ss : Session} {F : Sys → Prop} {x : Tx} {R : α → Session → Sys → Prop}

/-- A statement that is failed from outside breaks its transaction. -/
theorem Broken.of_failed {f : Failure} {y : Tx} (hf : f ≠ .integrityError)
    (hy : s.txs t = some y) (hopen : y.Unfinished req) (hfaulted : y.faulted = true) :
    Broken cfg d₀ t req f s :=
  ⟨y, hy, hopen, Or.inl ⟨hfaulted, hf⟩⟩

/-- A service call ends with the exception of a statement that was failed from outside. -/
theorem ServicePost.failed {f : Failure} {y : Tx} (hf : f ≠ .integrityError)
    (hy : s.txs t = some y) (hopen : y.Unfinished req) (hfaulted : y.faulted = true) :
    ServicePost cfg A d₀ t req R (.error (.failure f)) ss s :=
  ⟨fun h => absurd h hf, .of_failed hf hy hopen hfaulted⟩

/-- A domain exception before anything was written. -/
theorem ServicePost.refused {e : Exc} (he : req.raises e = true)
    (hwhy : ∀ s', F s' → Refusal d₀ s'.wal s'.db req x.read e) (hF : Stable t F)
    (h : At A d₀ t F x s) (hdirty : ss.dirty = []) (hrun : x.Running req) (hw : x.writes = [])
    (hseen : req.isRead = true → x.seen = some none := by intro h; cases h) :
    ServicePost cfg A d₀ t req R (.error e) ss s := by
  have hdomain := Request.isDomain_of_raises he
  have hready : Ready cfg A d₀ t req (some e) s :=
    ⟨F, x, hF, h, hrun, fun _ i hi => by simp [hw] at hi, hseen,
      fun s' hs' => hw ▸ .refused (hwhy s' hs')⟩
  cases e with
  | failure f => cases hdomain
  | http | requestValidation | responseValidation => cases hdomain
  | notFound | insufficientStock | invalidTransition | conflict =>
    exact ⟨he, ⟨x, h.tx, hrun.req⟩, fun _ => ⟨hdirty, hready⟩⟩

/-! ## Cache writes -/

/-- `set_stock` publishes, or Redis fails, or it is switched off. -/
theorem safe_setStock {id : Uuid} {q : Int} {Q : Except Exc Unit → Session → Sys → Prop}
    (hF : Stable t F) (h : At A d₀ t F x s) (hreq : x.req.isRead = false)
    (hpub : ∀ s₁, At A d₀ t F x s₁ → Publishes s₁ t x id q)
    (hfail : ∀ f s', f ≠ .integrityError → s'.txs t = some { x with faulted := true } →
      Q (.error (.failure f)) ss s')
    (hok : ∀ x' s', At A d₀ t F x' s' → x' = { x with published := some (id, q) } ∨
        x' = { x with redisFailed := true } ∨ (cfg.cache.enabled = false ∧ x' = x) →
      Q (.ok ()) ss s') :
    Coro.Safe cfg A d₀ t (cfg.cache.setStock id q) ss Q s := by
  unfold CacheService.setStock
  split
  · rw [safe_bind, safe_attempt]
    refine safe_redisSetex hF h hreq hpub (fun f s' h' => ?_)
      (fun s' h' => hok _ _ h' (Or.inl rfl))
    -- every error but a cancellation is swallowed
    cases f with
    | error => exact hok _ _ h' (Or.inr (Or.inl rfl))
    | cancelled => exact hfail _ _ (by intro hf; cases hf) h'.tx
  · rename_i hoff
    exact hok _ _ h (Or.inr (Or.inr ⟨by simpa using hoff, rfl⟩))

/-! ## Changing the stock of a locked item -/

/-- Assigning a new version to an object of a clean session leaves its change as
    the only dirty one. -/
theorem Session.assign_next (i : MenuItem) (q : Int) :
    Session.assign (.ofRow i) q (i.version + 1) ⟨[]⟩ =
      .ret (.ok ⟨i, q, i.version + 1⟩, ⟨[(i.id, ItemObj.change ⟨i, q, i.version + 1⟩)]⟩) := by
  have hne : ItemObj.change ⟨i, q, i.version + 1⟩ ≠ {} := by
    intro h
    have hv := congrArg ItemChange.version h
    simp [ItemObj.change] at hv
  show Prog.ret (_, Session.mk (if ItemObj.change ⟨i, q, i.version + 1⟩ = {} then _ else _)) = _
  rw [if_neg hne]
  rfl

/-- Flushing one dirty object is its `UPDATE`. -/
theorem Session.flush_one (id : Uuid) (c : ItemChange) :
    Session.flush ⟨[(id, c)]⟩ = await (.updateItem id c) ⟨[]⟩ :=
  congrFun (Coro.bind_pure (await (.updateItem id c))) ⟨[]⟩

/-- An assignment makes the item dirty: its version at least has changed. -/
theorem safe_assign {i : MenuItem} {q : Int} {Q : Except Exc ItemObj → Session → Sys → Prop}
    (hok : Q (.ok ⟨i, q, i.version + 1⟩) ⟨[(i.id, ItemObj.change ⟨i, q, i.version + 1⟩)]⟩ s) :
    Coro.Safe cfg A d₀ t (Session.assign (.ofRow i) q (i.version + 1)) ⟨[]⟩ Q s := by
  unfold Coro.Safe
  rw [Session.assign_next]
  exact hok

/-- A clean session has nothing to flush. -/
theorem safe_flush_clean {Q : Except Exc Unit → Session → Sys → Prop} (h : ss.dirty = []) :
    Coro.Safe cfg A d₀ t Session.flush ss Q s ↔ Q (.ok ()) ss s := by
  obtain ⟨dirty⟩ := ss
  obtain rfl : dirty = [] := h
  exact Iff.rfl

/-- A flush of one dirty object is its `UPDATE`. -/
theorem safe_flush_one {id : Uuid} {c : ItemChange} {Q : Except Exc Unit → Session → Sys → Prop}
    (h : Coro.Safe cfg A d₀ t (await (.updateItem id c)) ⟨[]⟩ Q s) :
    Coro.Safe cfg A d₀ t Session.flush ⟨[(id, c)]⟩ Q s := by
  unfold Coro.Safe
  rw [Session.flush_one]
  exact h

/-- The transaction of a writer that has neither written nor published anything. -/
structure Tx.Fresh (x : Tx) : Prop extends x.Running x.req where
  writer : x.req.isRead = false
  unpublished : x.published = none
  unwritten : x.writes = []

/-- While `F` holds, the row `i` is locked by request `t` and has the committed version, and
    the order that the movement `n` refers to exists. -/
structure Holds (A : Allow) (d₀ : Db) (t : TxId) (F : Sys → Prop) (i : MenuItem)
    (n : NewMovement) : Prop where
  stable : Stable t F
  lock : ∀ s, F s → s.owns t (.item i.id) ∧ s.db.get (.item i.id) = some (.item i)
  order : ∀ s, F s → Inv A d₀ s → ∀ id, n.orderId = some id → (s.db.orders.find? id).isSome

/-- The row is the one in the table. -/
theorem Holds.row {i : MenuItem} {n : NewMovement} (h : Holds A d₀ t F i n) (hs : F s) :
    s.db.items.find? i.id = some i := Db.get_item.mp (h.lock s hs).2

/-- The movement `n` says that the stock of `i` changes by `delta` to `q`. -/
structure NewMovement.Records (n : NewMovement) (i : MenuItem) (q delta : Int) : Prop where
  sum : q = i.stockQuantity + delta
  itemId : n.itemId = i.id
  quantityDelta : n.quantityDelta = delta
  stockBefore : n.stockBefore = i.stockQuantity
  stockAfter : n.stockAfter = q

/-- The row `i'` is the row `i` with the quantity `q` and the next version. -/
structure Restocked (i i' : MenuItem) (q : Int) : Prop where
  id : i'.id = i.id
  next : i' = { i with
    stockQuantity := i'.stockQuantity, version := i'.version, updatedAt := i'.updatedAt
    ckStockNonNegative := i'.ckStockNonNegative }
  stock : i'.stockQuantity = q
  version : i'.version = i.version + 1

/-- What a transaction `x` has become when it has written the new row `i'` and the
    movement `m`, and has tried to publish the new quantity. -/
structure Changed (cfg : Config) (x x' : Tx) (i' : MenuItem) (m : StockMovement) : Prop where
  running : x'.Running x.req
  read : x'.read = x.read
  writes : x'.writes = [.item i', .movement m]
  published : x'.Published cfg

section

variable {i i' : MenuItem} {q delta : Int} {n : NewMovement} {m : StockMovement}

/-- A transaction that has written only the row `i'` sees the committed tables with it. -/
theorem Tx.Fresh.view_wrote (hx : x.Fresh) (s : Sys) :
    s.view (x.wrote (.item i')) = s.db.apply (.item i') := by
  rw [Sys.view_eq]
  simp only [Tx.wrote, hx.unwritten, List.nil_append]
  rfl

/-- It finds the row that it has written. -/
theorem Restocked.find?_self (h : Restocked i i' q) (d : Db) :
    (d.apply (.item i')).items.find? i.id = some i' := h.id ▸ Table.find?_upsert_self _ _

/-- What is known once the movement `m` has been written next to the row `i'`. -/
theorem Holds.stockChange (h : Holds A d₀ t F i n) (hn : n.Records i q delta)
    (hi' : Restocked i i' q) {e : Env} (hs : F s)
    (hfresh : s.db.get (.movement (n.row e).id) = none) :
    StockChange s.db i i' (n.row e) delta n.movementType n.orderId where
  row := h.row hs
  next := hi'.next
  stock := hi'.stock.trans hn.sum
  version := hi'.version
  fresh := Db.get_movement_eq_none.mp hfresh
  itemId := hn.itemId
  quantityDelta := hn.quantityDelta
  stockBefore := hn.stockBefore
  stockAfter := hn.stockAfter.trans hn.sum
  movementType := rfl
  orderId := rfl

/-- The flush of the assigned item writes its next row. -/
theorem safe_flush_assigned {Q : Except Exc Unit → Session → Sys → Prop}
    (hF : Holds A d₀ t F i n) (h : At A d₀ t F x s) (hx : x.Fresh) (hq : 0 ≤ q)
    (hfail : ∀ f y ss' s', f ≠ .integrityError → s'.txs t = some y → y.Unfinished x.req →
      y.faulted = true → Q (.error (.failure f)) ss' s')
    (hok : ∀ i' s', At A d₀ t F (x.wrote (.item i')) s' → Restocked i i' q →
      Q (.ok ()) ⟨[]⟩ s') :
    Coro.Safe cfg A d₀ t Session.flush ⟨[(i.id, ItemObj.change ⟨i, q, i.version + 1⟩)]⟩ Q s := by
  -- an unchanged quantity is not among the dirty attributes, and the row has it already
  have hgetD : (ItemObj.change ⟨i, q, i.version + 1⟩).stockQuantity.getD i.stockQuantity = q := by
    simp only [ItemObj.change]
    split <;> simp_all
  have hview : ∀ s₁ : Sys, s₁.view x = s₁.db := fun s₁ => by rw [Sys.view_eq, hx.unwritten]; rfl
  refine safe_flush_one (safe_updateItem hF.stable h hx.live
    (fun hr => by simp [hx.writer] at hr) hx.unpublished
    (fun _ => ⟨hx.unanswered, fun q' hq' => ?_⟩)
    (fun f s' hf hy => hfail f _ _ s' hf hy ⟨rfl, hx.uncommitted, hx.unanswered⟩ rfl)
    (fun f s₁ s' h₁ _ hneg => ?_) ?_)
  · have hle : q = q' := by rw [← hgetD, hq']; rfl
    omega
  · -- the CHECK constraint cannot fail: the quantity is not negative
    have := hneg i (by rw [hview]; exact hF.row h₁.fact)
    omega
  intro e i₀ i' s₁ h₁ _ hfind hupd
  obtain rfl : i₀ = i := by
    rw [hview] at hfind
    exact Option.some.inj (hfind.symm.trans (hF.row h₁.fact))
  obtain ⟨hnext, hstock, hversion⟩ := ItemChange.updated?_eq_some hupd
  exact hok i' s₁ h₁ {
    id := ItemChange.updated?_id hupd
    next := hnext
    stock := hstock.trans hgetD
    version := hversion.trans (by simp [ItemObj.change]) }

/-- The movement is inserted under a key that stays free in the committed table. -/
theorem safe_record {Q : Except Exc StockMovement → Session → Sys → Prop}
    (hF : Holds A d₀ t F i n) (hn : n.Records i q delta) (hi' : Restocked i i' q) (hx : x.Fresh)
    (h : At A d₀ t F (x.wrote (.item i')) s)
    (hfail : ∀ f y ss' s', f ≠ .integrityError → s'.txs t = some y → y.Unfinished x.req →
      y.faulted = true → Q (.error (.failure f)) ss' s')
    (hok : ∀ m G s', Stable t G → At A d₀ t G ((x.wrote (.item i')).wrote (.movement m)) s' →
      (∀ s₁, G s₁ → F s₁ ∧ StockChange s₁.db i i' m delta n.movementType n.orderId) →
      Q (.ok m) ss s') :
    Coro.Safe cfg A d₀ t (await (.insertMovement n)) ss Q s := by
  refine safe_insertMovement hF.stable h hx.live hx.writer hx.unpublished hx.unanswered
    (fun s₂ h₂ => ?_)
    (fun f s' hf hy => hfail f _ _ s' hf hy ⟨rfl, hx.uncommitted, hx.unanswered⟩ rfl) ?_
  · -- the rows that the foreign keys of the movement name
    rw [hx.view_wrote]
    simp only [Sys.movementKeys, hn.itemId, hi'.find?_self, Option.isSome_some, Bool.true_and]
    cases hoid : n.orderId with
    | none => rfl
    | some id => exact hF.order s₂ h₂.fact h₂.inv id hoid
  intro e s₂ h₂ howns hfresh
  -- the key of the movement stays free for the others
  rw [hx.view_wrote] at hfresh
  have hfresh : s₂.db.get (.movement (n.row e).id) = none := Db.get_movement_eq_none.mpr hfresh
  have hG := hF.stable.and (.held t (.movement (n.row e).id) none)
  refine hok (n.row e) _ s₂ hG (h₂.learn ⟨howns, hfresh⟩) fun s₃ hs₃ => ⟨hs₃.1, ?_⟩
  exact hF.stockChange hn hi' hs₃.1 hs₃.2.2

/-- The item is read back as it was written. -/
theorem safe_save {Q : Except Exc ItemObj → Session → Sys → Prop} (hF : Stable t F)
    (hi' : Restocked i i' q) (hx : x.Fresh)
    (h : At A d₀ t F ((x.wrote (.item i')).wrote (.movement m)) s)
    (hfail : ∀ f y ss' s', f ≠ .integrityError → s'.txs t = some y → y.Unfinished x.req →
      y.faulted = true → Q (.error (.failure f)) ss' s')
    (hok : ∀ y s', At A d₀ t F y s' →
      (∃ r, y = { (x.wrote (.item i')).wrote (.movement m) with seen := r }) →
      Q (.ok (.ofRow i')) ⟨[]⟩ s') :
    Coro.Safe cfg A d₀ t (ItemRepository.save ⟨i, q, i.version + 1⟩) ⟨[]⟩ Q s := by
  unfold ItemRepository.save ItemRepository.refresh
  simp only [safe_bind]
  rw [safe_flush_clean rfl]
  refine safe_selectItem hF h hx.live (fun hr => by simp [Tx.wrote, hx.writer] at hr)
    (fun f s' hf hy => hfail f _ _ s' hf hy ⟨rfl, hx.uncommitted, hx.unanswered⟩ rfl) ?_
  intro r s₃ h₃ hr _
  have hview : (s₃.view ((x.wrote (.item i')).wrote (.movement m))).items.find? i.id = some i' := by
    rw [Sys.view_eq]
    simp only [Tx.wrote, hx.unwritten, List.nil_append, List.cons_append]
    exact hi'.find?_self s₃.db
  obtain rfl : some i' = r := hview.symm.trans hr
  exact hok _ s₃ h₃ ⟨_, rfl⟩

/-- The quantity is published while the row is locked and its new version is written. -/
theorem safe_publish {y : Tx} {Q : Except Exc Unit → Session → Sys → Prop} (hF : Stable t F)
    (hlock : ∀ s, F s → s.owns t (.item i.id) ∧ s.db.get (.item i.id) = some (.item i))
    (hi' : Restocked i i' q) (hq : q = i.stockQuantity + x.stockDelta) (hx : x.Fresh)
    (hy : ∃ r, y = { (x.wrote (.item i')).wrote (.movement m) with seen := r })
    (h : At A d₀ t F y s)
    (hfail : ∀ f y ss' s', f ≠ .integrityError → s'.txs t = some y → y.Unfinished x.req →
      y.faulted = true → Q (.error (.failure f)) ss' s')
    (hok : ∀ x' s', At A d₀ t F x' s' → Changed cfg x x' i' m → Q (.ok ()) ss s') :
    Coro.Safe cfg A d₀ t (cfg.cache.setStock i'.id i'.stockQuantity) ss Q s := by
  obtain ⟨r, rfl⟩ := hy
  have hrun : x.Unfinished x.req := hx.toUnfinished
  refine safe_setStock hF h hx.writer (fun s₁ h₁ => ?_)
    (fun f s' hf hy => hfail f _ _ s' hf hy ⟨rfl, hrun.uncommitted, hrun.unanswered⟩ rfl) ?_
  · have hlock₁ := hlock s₁ h₁.fact
    have hrow : s₁.db.items.find? i'.id = some i := hi'.id ▸ Db.get_item.mp hlock₁.2
    exact {
      live := hx.live, uncommitted := hx.uncommitted, unfaulted := hx.unfaulted
      first := hx.unpublished, owns := hi'.id ▸ hlock₁.1
      written := ⟨i', by simp [Tx.wrote], rfl, rfl⟩
      change := Or.inl ⟨i, hrow, hi'.stock.trans hq⟩ }
  intro x' s₁ h₁ hx'
  refine hok x' s₁ h₁ ?_
  have hwrites : x.writes ++ [.item i'] ++ [.movement m] = [.item i', .movement m] := by
    simp [hx.unwritten]
  have honly : ∀ j, .item j ∈ x.writes ++ [.item i'] ++ [.movement m] → j = i' := by
    intro j hj
    simpa [hwrites] using hj
  have hrunning : (∀ y : Tx, y.req = x.req → y.commit = x.commit → y.response = x.response →
      y.aborted = x.aborted → y.faulted = x.faulted → y.Running x.req) :=
    fun y hreq hcommit hresponse hlive hfaulted =>
      ⟨⟨hreq, hcommit.trans hx.uncommitted, hresponse.trans hx.unanswered⟩, hlive.trans hx.live,
        hfaulted.trans hx.unfaulted⟩
  -- stored, failed in Redis, or switched off
  rcases hx' with rfl | rfl | ⟨hoff, rfl⟩
  · exact ⟨hrunning _ rfl rfl rfl rfl rfl, rfl, hwrites, fun _ j hj => Or.inl (by rw [honly j hj])⟩
  · exact ⟨hrunning _ rfl rfl rfl rfl rfl, rfl, hwrites, fun _ _ _ => Or.inr (Or.inl rfl)⟩
  · exact ⟨hrunning _ rfl rfl rfl rfl rfl, rfl, hwrites, fun hon => by simp [hoff] at hon⟩

/-- The shared block of `adjust_stock`, `confirm_order` and `cancel_order`: create
    the movement `n`, which flushes the assigned item, save the item and publish
    its quantity. -/
theorem safe_recordChange {rest k : ItemObj → Coro β} {Q : Except Exc β → Session → Sys → Prop}
    (hrest : ∀ item, rest item = cfg.cache.setStock item.id item.stockQuantity >>= fun _ => k item)
    (hF : Holds A d₀ t F i n) (h : At A d₀ t F x s) (hx : x.Fresh) (hn : n.Records i q x.stockDelta)
    (hq : 0 ≤ q)
    (hfail : ∀ f y ss' s', f ≠ .integrityError → s'.txs t = some y → y.Unfinished x.req →
      y.faulted = true → Q (.error (.failure f)) ss' s')
    (hok : ∀ i' m x' G s', Stable t G → At A d₀ t G x' s' →
      (∀ s₁, G s₁ → F s₁ ∧
        StockChange s₁.db i i' m x.stockDelta n.movementType n.orderId) →
      Changed cfg x x' i' m → Coro.Safe cfg A d₀ t (k (.ofRow i')) ⟨[]⟩ Q s') :
    Coro.Safe cfg A d₀ t
      (StockRepository.createMovement n >>= fun _ =>
        ItemRepository.save ⟨i, q, i.version + 1⟩ >>= rest)
      ⟨[(i.id, ItemObj.change ⟨i, q, i.version + 1⟩)]⟩ Q s := by
  unfold StockRepository.createMovement
  obtain rfl := funext hrest
  simp only [safe_bind]
  refine safe_flush_assigned hF h hx hq hfail fun i' s₁ h₁ hi' => ?_
  refine safe_record hF hn hi' hx h₁ hfail fun m G s₂ hG h₂ hknow => ?_
  refine safe_save hG hi' hx h₂ hfail fun y s₃ h₃ hy => ?_
  refine safe_publish hG (fun s hs => hF.lock s (hknow s hs).1) hi' hn.sum hx hy h₃ hfail ?_
  exact fun x' s₄ h₄ hx' => hok i' m x' G s₄ hG h₄ hknow hx'

end

/-! ## Item service -/

/-- A valid body passes the CHECK constraints. -/
theorem ItemCreate.checks_of_valid {b : ItemCreate} (h : b.valid = true) :
    0 < b.price ∧ 0 ≤ b.stockQuantity ∧ 0 ≤ b.lowStockThreshold := by
  simp only [ItemCreate.valid, Bool.and_eq_true, decide_eq_true_eq] at h
  exact ⟨h.1.1.2, h.1.2, h.2⟩

/-- `create_item` meets the contract. -/
theorem createItem_safe {b : ItemCreate} {cache : CacheService} (hcache : cache = cfg.cache)
    (hvalid : cfg.harness = .http → b.valid = true) (hinv : Inv A d₀ s)
    (hs : s.txs t = some { req := .createItem b }) :
    Coro.Safe cfg A d₀ t
      (ItemService.createItem cache b.name b.price b.stockQuantity b.description
        b.lowStockThreshold) {}
      (WritePost cfg A d₀ t (.createItem b) fun _ => True) s := by
  subst hcache
  have h : At A d₀ t (fun _ => True) { req := .createItem b } s := ⟨trivial, hinv, hs⟩
  have hF := Stable.trivial t
  unfold ItemService.createItem ItemRepository.create ItemRepository.refresh
    StockRepository.createMovement
  simp only [safe_bind]
  rw [safe_flush_clean rfl]
  have hchecks : cfg.harness = .http →
      0 < b.price ∧ 0 ≤ b.stockQuantity ∧ 0 ≤ b.lowStockThreshold := fun hhttp =>
    ItemCreate.checks_of_valid (hvalid hhttp)
  refine safe_insertItem hF h rfl rfl rfl rfl rfl (fun hhttp => (hchecks hhttp).2.1)
    (fun f s' hf hy => .failed hf hy ⟨rfl, rfl, rfl⟩ rfl) (fun s₁ s' h₁ hwal hy hwhy => ?_) ?_
  · refine ⟨fun _ => rfl, _, hy, ⟨rfl, rfl, rfl⟩,
      Or.inr ⟨rfl, rfl, rfl, fun hhttp => ⟨b, rfl, ?_⟩⟩⟩
    obtain ⟨hprice, hstock, hthreshold⟩ := hchecks hhttp
    rcases hwhy with ⟨e, hnone⟩ | ⟨i, hi, hname⟩
    · simp [NewItem.row?, hprice, hstock, hthreshold] at hnone
    · have hname : i.name = b.name := hname
      rw [hwal, ← hname]
      exact h₁.inv.log.taken_of_mem hi
  intro e i s₁ h₁ howns hnew hrow
  obtain ⟨_, hname, hdescription, hprice, hstock, hthreshold, hversion⟩ := NewItem.row?_eq_some hrow
  -- the new key stays free in the committed table, and is seen by this transaction
  have hF₁ := hF.and (.held t (.item i.id) none)
  have h₁ := h₁.learn (G := fun s => s.owns t (.item i.id) ∧ s.db.get (.item i.id) = none)
    ⟨howns, Db.get_item_eq_none.mpr hnew⟩
  have hself : ∀ s₂ : Sys, (s₂.db.apply (.item i)).items.find? i.id = some i :=
    fun s₂ => Table.find?_upsert_self _ _
  refine safe_selectItem hF₁ h₁ rfl (fun hr => absurd hr Bool.false_ne_true)
    (fun f s' hf hy => .failed hf hy ⟨rfl, rfl, rfl⟩ rfl) fun r s₂ h₂ hr _ => ?_
  obtain rfl : some i = r := (hself s₂).symm.trans hr
  simp only [safe_pure]
  rw [safe_flush_clean rfl]
  refine safe_insertMovement hF₁ h₂ rfl rfl rfl rfl (fun s₃ _ => ?_)
    (fun f s' hf hy => .failed hf hy ⟨rfl, rfl, rfl⟩ rfl) ?_
  · show ((s₃.db.apply (.item i)).items.find? i.id).isSome && true = true
    rw [hself]; rfl
  intro e' s₃ h₃ hownsM hfreshM
  generalize hm : NewMovement.row _ e' = m at h₃ hownsM hfreshM
  have hF₂ := hF₁.and (.held t (.movement m.id) none)
  have h₃ := h₃.learn (G := fun s => s.owns t (.movement m.id) ∧ s.db.get (.movement m.id) = none)
    ⟨hownsM, Db.get_movement_eq_none.mpr hfreshM⟩
  refine safe_setStock hF₂ h₃ rfl (fun s₄ h₄ => ?_)
    (fun f s' hf hy => .failed hf hy ⟨rfl, rfl, rfl⟩ rfl) ?_
  · exact {
      live := rfl, uncommitted := rfl, unfaulted := rfl, first := rfl, owns := h₄.fact.1.2.1
      written := ⟨i, by simp [Tx.wrote], rfl, rfl⟩
      change := Or.inr ⟨Db.get_item_eq_none.mp h₄.fact.1.2.2, b, rfl⟩ }
  intro x' s₄ h₄ hx'
  have hready : x'.Running (.createItem b) ∧ x'.writes = [.item i, .movement m] ∧
      x'.Published cfg := by
    rcases hx' with rfl | rfl | ⟨hoff, rfl⟩
    · refine ⟨⟨⟨rfl, rfl, rfl⟩, rfl, rfl⟩, rfl, fun _ j hj => Or.inl ?_⟩
      obtain rfl : j = i := by simpa [Tx.wrote] using hj
      rfl
    · exact ⟨⟨⟨rfl, rfl, rfl⟩, rfl, rfl⟩, rfl, fun _ _ _ => Or.inr (Or.inl rfl)⟩
    · exact ⟨⟨⟨rfl, rfl, rfl⟩, rfl, rfl⟩, rfl, fun hon => by simp [hoff] at hon⟩
  obtain ⟨hrun, hw, hpub⟩ := hready
  refine ⟨trivial, rfl, _, x', hF₂, h₄, hrun, hpub, (fun hr => absurd hr Bool.false_ne_true),
    fun s₅ h₅ => ?_⟩
  rw [hw]
  exact .created (Db.get_item_eq_none.mp h₅.1.2.2) hname hdescription hprice hstock hthreshold
    hversion (Db.get_movement_eq_none.mp h₅.2.2) (hm ▸ rfl) (hm ▸ rfl) (hm ▸ rfl) (hm ▸ rfl)
    (hm ▸ rfl) (hm ▸ rfl)

/-- A transaction that has done nothing but read. -/
theorem owned_row (hw : x.writes = []) {id : Uuid} {i : MenuItem}
    (howns : s.owns t (.item id)) (hrow : (s.view x).items.find? id = some i) :
    i.id = id ∧ s.owns t (.item i.id) ∧ s.db.get (.item i.id) = some (.item i) := by
  rw [Sys.view_eq, hw] at hrow
  have hid : i.id = id := Table.key_of_find? hrow
  exact ⟨hid, hid ▸ howns, Db.get_item.mpr (hid ▸ hrow)⟩

/-- `adjust_stock` meets the contract. -/
theorem adjustStock_safe {id : Uuid} {b : ItemStockAdjust} {cache : CacheService}
    (hcache : cache = cfg.cache) (hinv : Inv A d₀ s)
    (hs : s.txs t = some { req := .adjustStock id b }) :
    Coro.Safe cfg A d₀ t (ItemService.adjustStock cache id b.delta b.reason) {}
      (WritePost cfg A d₀ t (.adjustStock id b) fun _ => True) s := by
  subst hcache
  have h : At A d₀ t (fun _ => True) { req := .adjustStock id b } s := ⟨trivial, hinv, hs⟩
  have hF := Stable.trivial t
  unfold ItemService.adjustStock ItemRepository.getByIdWithLock
  rw [safe_bind, safe_bind]
  -- SELECT ... FOR UPDATE: either no item, or its row is ours from here on
  refine safe_selectItemForUpdate hF h rfl rfl (fun f s' hf hy => .failed hf hy ⟨rfl, rfl, rfl⟩ rfl)
    (fun s' h' hnone => ?_) fun i s₁ h₁ howns hrow => ?_
  · have hmissing := h'.inv.log.items_none hnone
    simp only [Option.map_none, safe_pure, safe_raise]
    exact .refused rfl (fun _ _ => .noItem rfl hmissing) hF h' rfl ⟨⟨rfl, rfl, rfl⟩, rfl, rfl⟩ rfl
  obtain ⟨hid, hlock⟩ := owned_row rfl howns hrow
  -- what the lock keeps true until the commit
  have hF₁ := hF.and (.held t (.item i.id) (some (.item i)))
  have h₁ := h₁.learn (G := fun s => s.owns t (.item i.id) ∧
    s.db.get (.item i.id) = some (.item i)) hlock
  simp only [Option.map_some, safe_pure]
  split
  · -- the guard of the service itself, before anything is assigned
    rename_i hneg
    rw [safe_raise]
    refine .refused rfl (fun s' hs' => ?_) hF₁ h₁ rfl ⟨⟨rfl, rfl, rfl⟩, rfl, rfl⟩ rfl
    exact .shortage (hid ▸ Db.get_item.mp hs'.2.2) hneg
  rename_i hnonneg
  rw [safe_bind]
  -- the three statements that record the change, and the cache
  refine safe_assign (safe_recordChange (fun _ => rfl) ⟨hF₁, fun _ hs => hs.2,
    fun _ _ _ _ h => by cases h⟩ h₁
    ⟨⟨⟨rfl, rfl, rfl⟩, rfl, rfl⟩, rfl, rfl, rfl⟩ ⟨rfl, rfl, rfl, rfl, rfl⟩ (by omega)
    (fun f y ss' s' hf hy hopen hfaulted => .failed hf hy hopen hfaulted) ?_)
  intro i' m x' G s₂ hG h₂ hknow hx'
  -- back in the route, the writes are the effect of an adjustment
  refine ⟨trivial, rfl, G, x', hG, h₂, hx'.running, hx'.published,
    (fun hr => absurd hr Bool.false_ne_true), fun s₃ h₃ => ?_⟩
  rw [hx'.writes]
  exact .adjusted hid (hknow s₃ h₃).2

/-! ## Order service -/

/-- `place_order` meets the contract. -/
theorem placeOrder_safe {b : OrderCreate} (hvalid : cfg.harness = .http → 0 < b.quantity)
    (hinv : Inv A d₀ s) (hs : s.txs t = some { req := .placeOrder b }) :
    Coro.Safe cfg A d₀ t (OrderService.placeOrder b.itemId b.quantity b.customerRef) {}
      (WritePost cfg A d₀ t (.placeOrder b) fun _ => True) s := by
  have h : At A d₀ t (fun _ => True) { req := .placeOrder b } s := ⟨trivial, hinv, hs⟩
  have hF := Stable.trivial t
  unfold OrderService.placeOrder ItemRepository.getById OrderRepository.create
    OrderRepository.refresh
  simp only [safe_bind]
  -- the plain read of the item takes no lock; that the item exists stays true
  refine safe_selectItem hF h rfl (fun hr => absurd hr Bool.false_ne_true)
    (fun f s' hf hy => .failed hf hy ⟨rfl, rfl, rfl⟩ rfl) fun r s₁ h₁ hr _ => ?_
  cases r with
  | none =>
    have hmissing := h₁.inv.log.items_none hr
    simp only [Option.map_none, safe_pure, safe_raise]
    exact .refused rfl (fun _ _ => .noItem rfl hmissing) hF h₁ rfl ⟨⟨rfl, rfl, rfl⟩, rfl, rfl⟩ rfl
  | some i =>
    have hid : i.id = b.itemId := Table.key_of_find? hr
    have hF₁ := hF.and (.isSome t (.item b.itemId))
    have h₁ := h₁.learn (G := fun s => (s.db.get (.item b.itemId)).isSome = true)
      (by rw [Db.get_item_isSome]; exact Option.isSome_iff_exists.mpr ⟨i, hr⟩)
    simp only [Option.map_some, safe_pure, safe_bind]
    rw [safe_flush_clean rfl]
    -- INSERT: the new key is ours, and free in the committed table
    refine safe_insertOrder hF₁ h₁ rfl rfl rfl rfl
      (fun f s' hf hy => .failed hf hy ⟨rfl, rfl, rfl⟩ rfl)
      (fun s₂ s' h₂ hy hbad => ?_) ?_
    · -- the body is valid and the item exists, so only the service harness gets here
      have hservice : cfg.harness ≠ .http := by
        intro hhttp
        rcases hbad with hneg | hnone
        · have hneg : b.quantity ≤ 0 := hneg
          have := hvalid hhttp
          omega
        · have hsome := h₂.fact.2
          rw [Db.get_item_isSome] at hsome
          have hnone : s₂.db.items.find? b.itemId = none := hnone
          rw [hnone] at hsome
          cases hsome
      exact ⟨fun _ => rfl, _, hy, ⟨rfl, rfl, rfl⟩,
        Or.inr ⟨rfl, rfl, rfl, fun hhttp => absurd hhttp hservice⟩⟩
    intro e o s₂ h₂ howns hnew hrow
    obtain ⟨_, hitemId, hquantity, hstatus, hcustomer, hversion⟩ := NewOrder.row?_eq_some hrow
    have hF₂ := hF₁.and (.held t (.order o.id) none)
    have h₂ := h₂.learn (G := fun s => s.owns t (.order o.id) ∧ s.db.get (.order o.id) = none)
      ⟨howns, Db.get_order_eq_none.mpr hnew⟩
    -- the refresh sees the inserted row
    refine safe_selectOrder hF₂ h₂ rfl (Or.inl ⟨b, rfl⟩)
      (fun f s' hf hy => .failed hf hy ⟨rfl, rfl, rfl⟩ rfl) fun r s₃ h₃ hr => ?_
    have hself : (s₃.db.apply (.order o)).orders.find? o.id = some o := Table.find?_upsert_self _ _
    obtain rfl : some o = r := hself.symm.trans hr
    refine ⟨trivial, rfl, _, _, hF₂, h₃, ⟨⟨rfl, rfl, rfl⟩, rfl, rfl⟩,
      fun _ j hj => by simp [Tx.wrote] at hj,
      (fun hr => absurd hr Bool.false_ne_true), fun s₄ h₄ => ?_⟩
    -- at the commit the item still exists, and the key is still free
    have hitem := h₄.1.2
    rw [Db.get_item_isSome] at hitem
    exact .placed hitem (Db.get_order_eq_none.mp h₄.2.2) hitemId hquantity hcustomer hstatus
      hversion
/-- How the four methods of the state machine begin: read the order, and check that
    its status allows the transition. -/
theorem safe_readOrder {a : Action} {id : Uuid} {next : OrderStatus}
    {k : Order → Coro (Option Order)} (hnext : next = a.target) (hinv : Inv A d₀ s)
    (hs : s.txs t = some { req := .transition a id })
    (hk : ∀ order s', At A d₀ t (fun s => knownIn d₀ s.wal order)
        { req := .transition a id, read := some order } s' →
      order.id = id → order.status.canTransitionTo next = true →
      Coro.Safe cfg A d₀ t (k order) ⟨[]⟩
        (WritePost cfg A d₀ t (.transition a id) (Option.isSome · = true)) s') :
    Coro.Safe cfg A d₀ t
      (do
        let some order ← OrderRepository.getById id
          | raise (.notFound "Order" id)
        if !order.status.canTransitionTo next then
          raise (.invalidTransition order.status next)
        else
          k order)
      {} (WritePost cfg A d₀ t (.transition a id) (Option.isSome · = true)) s := by
  have h : At A d₀ t (fun _ => True) { req := .transition a id } s := ⟨trivial, hinv, hs⟩
  have hF := Stable.trivial t
  unfold OrderRepository.getById
  rw [safe_bind]
  refine safe_selectOrder hF h rfl (Or.inr (Or.inr rfl))
    (fun f s' hf hy => .failed hf hy ⟨rfl, rfl, rfl⟩ rfl) fun r s₁ h₁ hr => ?_
  cases r with
  | none =>
    have hmissing := h₁.inv.log.orders_none hr
    simp only [safe_raise]
    exact .refused rfl (fun _ _ => .noOrder hmissing) hF h₁ rfl ⟨⟨rfl, rfl, rfl⟩, rfl, rfl⟩ rfl
  | some order =>
    -- nothing is locked yet: all that stays true of the version read is that it was committed
    have hknown : knownIn d₀ s₁.wal order := h₁.inv.log.known_of_find? hr
    have hF₁ : Stable t fun s => knownIn d₀ s.wal order := .known t d₀ order
    have h₁ : At A d₀ t (fun s => knownIn d₀ s.wal order)
        { req := .transition a id, read := some order } s₁ := ⟨hknown, h₁.inv, h₁.tx⟩
    simp only []
    split
    · rename_i hforbidden
      rw [safe_raise]
      refine .refused rfl (fun s' hs' => ?_) hF₁ h₁ rfl ⟨⟨rfl, rfl, rfl⟩, rfl, rfl⟩ rfl
      subst hnext
      exact .invalid hs' (Table.key_of_find? hr) (by simpa using hforbidden)
    · rename_i hallowed
      exact hk order s₁ h₁ (Table.key_of_find? hr) (by simpa using hallowed)

/-- When the optimistic check fails, the order has a version other than the one that
    was read. -/
theorem exists_newer (hd₀ : d₀.Consistent) (h : At A d₀ t F x s) {order : Order} {id : Uuid}
    (hknown : knownIn d₀ s.wal order) (hid : order.id = id)
    (hview : (s.view x).orders = s.db.orders)
    (hne : ∀ cur, (s.view x).orders.find? id = some cur → cur.version ≠ order.version) :
    ∃ newer, knownIn d₀ s.wal newer ∧ newer.id = id ∧ newer.version ≠ order.version := by
  obtain ⟨newer, hk⟩ := h.inv.log.knownOrder hd₀ hknown
  have hrow : s.db.orders.find? id = some newer := hid ▸ hk.row
  exact ⟨newer, h.inv.log.known_of_find? hrow, Table.key_of_find? hrow,
    hne newer (by rw [hview]; exact hrow)⟩

/-- How three of them end: the optimistic update, and a last read. What the
    transaction wrote before it must be an effect together with the step of the
    order, and alone where a failed check may commit it. -/
theorem safe_moveOrder {a : Action} {id : Uuid} {order : Order} {next : OrderStatus}
    (hd₀ : d₀.Consistent) (hF : Stable t F) (h : At A d₀ t F x s)
    (hrun : x.Running (.transition a id)) (hpub : x.Published cfg) (hread : x.read = some order)
    (hid : order.id = id)
    (hknown : ∀ s₁, F s₁ → knownIn d₀ s₁.wal order) (hws : ∀ o, .order o ∉ x.writes)
    (hdone : ∀ e cur s₁, F s₁ →
      OrderStep (knownIn d₀ s₁.wal) s₁.db order cur (cur.moved next e) next →
      Effect A d₀ s₁.wal s₁.db (.transition a id) (some order) none
        (x.writes ++ [.order (cur.moved next e)]))
    (hstale : cfg.harness = .http → A.stale → x.writes ≠ [] → ∀ newer s₁, F s₁ →
      knownIn d₀ s₁.wal newer → newer.id = id → newer.version ≠ order.version →
      Effect A d₀ s₁.wal s₁.db (.transition a id) (some order)
        (some (.conflict "Order" id)) x.writes) :
    Coro.Safe cfg A d₀ t
      (do
        let updated ← OrderRepository.transitionStatus id order.version next
        if !updated then
          raise (.conflict "Order" id)
        else
          OrderRepository.getById id)
      ⟨[]⟩ (WritePost cfg A d₀ t (.transition a id) (Option.isSome · = true)) s := by
  have hview : ∀ s₁ : Sys, (s₁.view x).orders = s₁.db.orders := fun s₁ => Db.orders_applyAll hws
  have hnotRead : x.req.isRead = false := by rw [hrun.req]; rfl
  have hlive : x.aborted = false := hrun.live
  unfold OrderRepository.transitionStatus OrderRepository.getById
  rw [safe_bind]
  refine safe_updateOrder hF h hlive hnotRead
    ⟨⟨a, hrun.req⟩, hrun.uncommitted, hrun.unanswered, ⟨order, hread, hid, rfl⟩, hws, hlive⟩
    (fun f s' hf hy => .failed hf hy ⟨hrun.req, hrun.uncommitted, hrun.unanswered⟩ rfl) ?_ ?_
  · intro e cur s₁ h₁ howns hfind hversion
    rw [hview] at hfind
    have hcur : s₁.db.get (.order id) = some (.order cur) := Db.get_order.mpr hfind
    have hG := hF.and (.held t (.order id) (some (.order cur)))
    have h₁ := h₁.learn (G := fun s => s.owns t (.order id) ∧
      s.db.get (.order id) = some (.order cur)) ⟨howns, hcur⟩
    have hisSome : (x.wrote (.order (cur.moved next e))).read.isSome = true := by
      show x.read.isSome = true
      rw [hread]
      rfl
    refine safe_selectOrder hG h₁ hlive (Or.inr (Or.inl hisSome))
      (fun f s' hf hy => .failed hf hy ⟨hrun.req, hrun.uncommitted, hrun.unanswered⟩ rfl)
      fun r s₂ h₂ hr => ?_
    have hsome : r.isSome := by
      -- the row exists, and rows never disappear
      rw [← hr, ← Db.get_order_isSome]
      refine Db.isSome_get_applyAll ?_
      rw [h₂.fact.2.2]
      rfl
    have hread' : (x.wrote (.order (cur.moved next e))).read.or r = some order := by
      show x.read.or r = some order
      rw [hread]; rfl
    refine ⟨hsome, rfl, _, _, hG, h₂, ⟨⟨hrun.req, hrun.uncommitted, hrun.unanswered⟩, hlive,
      hrun.unfaulted⟩, ?_,
      (fun hr => absurd hr Bool.false_ne_true), fun s₃ h₃ => ?_⟩
    · intro hon j hj
      refine hpub hon j ?_
      simpa [Tx.wrote] using hj
    · show Effect _ _ _ _ _ ((x.wrote (.order (cur.moved next e))).read.or r) _ _
      rw [hread']
      exact hdone e cur s₃ h₃.1 {
        known := hknown s₃ h₃.1
        row := hid ▸ Db.get_order.mp h₃.2.2
        version := hversion
        next := rfl }
  · intro s₁ h₁ hne hallow
    refine ⟨rfl, ⟨x, h₁.tx, hrun.req⟩, fun hhttp => ⟨rfl, ?_⟩⟩
    obtain ⟨newer, hnewer, hnid, hversion⟩ :=
      exists_newer hd₀ h₁ (hknown s₁ h₁.fact) hid (hview s₁) hne
    have hG := hF.and (.known t d₀ newer)
    have h₁ := h₁.learn (G := fun s => knownIn d₀ s.wal newer) hnewer
    refine ⟨_, x, hG, h₁, hrun, hpub, (fun hr => absurd hr Bool.false_ne_true),
      fun s₂ hs₂ => ?_⟩
    rw [hread]
    by_cases hw : x.writes = []
    · rw [hw]
      exact .refused (.conflict (hknown s₂ hs₂.1) hid hs₂.2 hnid hversion)
    · have hstale' : A.stale := by
        rcases hallow with hstale' | hservice | hw'
        · exact hstale'
        · rw [hservice] at hhttp; cases hhttp
        · exact absurd hw' hw
      exact hstale hhttp hstale' hw newer s₂ hs₂.1 hs₂.2 hnid hversion

/-- A movement of an order keeps its foreign key: a known order never disappears. -/
theorem known_isSome (hd₀ : d₀.Consistent) (hinv : Inv A d₀ s) {o : Order}
    (ho : knownIn d₀ s.wal o) : (s.db.orders.find? o.id).isSome := by
  obtain ⟨cur, hk⟩ := hinv.log.knownOrder hd₀ ho
  rw [hk.row]; rfl

/-- The foreign key of an order: its item exists. -/
theorem known_item (hd₀ : d₀.Consistent) (hinv : Inv A d₀ s) {o : Order}
    (ho : knownIn d₀ s.wal o) : s.db.items.find? o.itemId ≠ none := by
  obtain ⟨cur, hk⟩ := hinv.log.knownOrder hd₀ ho
  have hsome := hk.item
  rw [hk.itemId] at hsome
  exact Option.isSome_iff_ne_none.mp hsome

/-- `confirm_order` meets the contract. -/
theorem confirmOrder_safe {id : Uuid} {cache : CacheService} (hcache : cache = cfg.cache)
    (hd₀ : d₀.Consistent) (hexc : cfg.harness = .http → A.exceptions) (hinv : Inv A d₀ s)
    (hs : s.txs t = some { req := .transition .confirm id }) :
    Coro.Safe cfg A d₀ t (OrderService.confirmOrder cache id) {}
      (WritePost cfg A d₀ t (.transition .confirm id) (Option.isSome · = true)) s := by
  subst hcache
  refine safe_readOrder rfl hinv hs fun order s₁ h₁ hid hallowed => ?_
  have hF₁ := Stable.known t d₀ order
  unfold ItemRepository.getByIdWithLock
  rw [safe_bind, safe_bind]
  -- the item of a known order exists, so the lock is taken
  refine safe_selectItemForUpdate hF₁ h₁ rfl rfl
    (fun f s' hf hy => .failed hf hy ⟨rfl, rfl, rfl⟩ rfl)
    (fun s' h' hnone => absurd hnone (known_item hd₀ h'.inv h'.fact)) fun i s₂ h₂ howns hrow => ?_
  obtain ⟨hiid, hlock⟩ := owned_row rfl howns hrow
  have hF₂ := hF₁.and (.held t (.item i.id) (some (.item i)))
  have h₂ := h₂.learn (G := fun s => s.owns t (.item i.id) ∧
    s.db.get (.item i.id) = some (.item i)) hlock
  simp only [Option.map_some, safe_pure]
  split
  · -- not enough stock: the order is rejected, and the exception has to commit that
    rename_i hshort
    unfold OrderRepository.transitionStatus
    rw [safe_bind]
    refine safe_updateOrder hF₂ h₂ rfl rfl
      ⟨⟨_, rfl⟩, rfl, rfl, ⟨order, rfl, hid, rfl⟩, fun _ ho => absurd ho List.not_mem_nil, rfl⟩
      (fun f s' hf hy => .failed hf hy ⟨rfl, rfl, rfl⟩ rfl) ?_ ?_
    · -- the version is still the one that was read: the rejection is written
      intro e cur s₃ h₃ hownsO hfind hversion
      have hcur : s₃.db.get (.order id) = some (.order cur) := Db.get_order.mpr hfind
      have hF₃ := hF₂.and (.held t (.order id) (some (.order cur)))
      have h₃ := h₃.learn (G := fun s => s.owns t (.order id) ∧
        s.db.get (.order id) = some (.order cur)) ⟨hownsO, hcur⟩
      refine ⟨rfl, ⟨_, h₃.tx, rfl⟩, fun hhttp => ⟨rfl, _, _, hF₃, h₃, ⟨⟨rfl, rfl, rfl⟩, rfl, rfl⟩,
        fun _ j hj => by simp [Tx.wrote] at hj, (fun hr => absurd hr Bool.false_ne_true),
        fun s₄ h₄ => ?_⟩⟩
      have hitem : s₄.db.items.find? order.itemId = some i :=
        hiid ▸ Db.get_item.mp h₄.1.2.2
      exact .rejected (hexc hhttp) hid hallowed hitem hshort rfl {
        known := h₄.1.1
        row := hid ▸ Db.get_order.mp h₄.2.2
        version := hversion
        next := rfl }
    · -- somebody has changed the order: a conflict, with nothing written
      intro s₃ h₃ hne _
      obtain ⟨newer, hnewer, hnid, hversion⟩ :=
        exists_newer hd₀ h₃ h₃.fact.1 hid rfl hne
      have hF₃ := hF₂.and (.known t d₀ newer)
      have h₃ := h₃.learn (G := fun s => knownIn d₀ s.wal newer) hnewer
      simp only [Bool.not_false, ↓reduceIte, safe_raise]
      exact .refused rfl (fun s' hs' => .conflict hs'.1.1 hid hs'.2 hnid hversion) hF₃ h₃
        rfl ⟨⟨rfl, rfl, rfl⟩, rfl, rfl⟩ rfl
  · -- enough stock: deduct, record the movement, publish, then move the order
    rename_i henough
    have henough : order.quantity ≤ i.stockQuantity := by
      have : ¬i.stockQuantity < order.quantity := henough
      omega
    rw [safe_bind]
    refine safe_assign (safe_recordChange (fun _ => rfl)
      ⟨hF₂, fun _ hs => hs.2, fun s₃ hs₃ hinv₃ oid hoid => ?_⟩ h₂
      ⟨⟨⟨rfl, rfl, rfl⟩, rfl, rfl⟩, rfl, rfl, rfl⟩ ⟨?_, rfl, rfl, rfl, rfl⟩ ?_
      (fun f y ss' s' hf hy hopen hfaulted => .failed hf hy hopen hfaulted) ?_)
    · obtain rfl : order.id = oid := Option.some.inj hoid
      exact known_isSome hd₀ hinv₃ hs₃.1
    · show i.stockQuantity - order.quantity = i.stockQuantity + -order.quantity
      omega
    · show 0 ≤ i.stockQuantity - order.quantity
      omega
    -- the optimistic check comes last, after the stock has been written
    intro i' m x' G s₃ hG h₃ hknow hx'
    refine safe_moveOrder hd₀ hG h₃ hx'.running hx'.published hx'.read hid
      (fun s₄ hs₄ => (hknow s₄ hs₄).1.1) (by simp [hx'.writes]) ?_ ?_
    · -- it passes: stock and order change together
      intro e cur s₄ hs₄ hstep
      rw [hx'.writes]
      exact .stocked (Or.inl rfl) hid hallowed hiid (hid ▸ (hknow s₄ hs₄).2) hstep
    · -- it fails: only a harness that commits exceptions keeps the deduction
      intro hhttp hstale _ newer s₄ hs₄ hnewer hnid hversion
      rw [hx'.writes]
      exact .stale (hexc hhttp) hstale (Or.inl rfl) hid hallowed hiid (hid ▸ (hknow s₄ hs₄).2)
        (hknow s₄ hs₄).1.1 hnewer hnid hversion rfl
/-- `ship_order` and `deliver_order`. -/
theorem transition_safe {a : Action} {id : Uuid} (ha : a = .ship ∨ a = .deliver)
    (hd₀ : d₀.Consistent) (hinv : Inv A d₀ s) (hs : s.txs t = some { req := .transition a id }) :
    Coro.Safe cfg A d₀ t (OrderService.transition id a.target) {}
      (WritePost cfg A d₀ t (.transition a id) (Option.isSome · = true)) s := by
  refine safe_readOrder rfl hinv hs fun order s₁ h₁ hid hallowed => ?_
  have hstays : ¬a.movesStock order := by
    rcases ha with rfl | rfl <;> simp [Action.movesStock]
  refine safe_moveOrder hd₀ (.known t d₀ order) h₁ ⟨⟨rfl, rfl, rfl⟩, rfl, rfl⟩
    (fun _ _ hj => absurd hj List.not_mem_nil) rfl hid (fun _ hs => hs)
    (fun _ ho => absurd ho List.not_mem_nil) (fun e cur s₂ _ hstep => ?_)
    (fun _ _ hw => absurd rfl hw)
  exact .moved hstays hid hallowed hstep

/-- `cancel_order` meets the contract. -/
theorem cancelOrder_safe {id : Uuid} {cache : CacheService} (hcache : cache = cfg.cache)
    (hd₀ : d₀.Consistent) (hexc : cfg.harness = .http → A.exceptions) (hinv : Inv A d₀ s)
    (hs : s.txs t = some { req := .transition .cancel id }) :
    Coro.Safe cfg A d₀ t (OrderService.cancelOrder cache id) {}
      (WritePost cfg A d₀ t (.transition .cancel id) (Option.isSome · = true)) s := by
  subst hcache
  refine safe_readOrder rfl hinv hs fun order s₁ h₁ hid hallowed => ?_
  have hF₁ := Stable.known t d₀ order
  split
  · -- the order holds stock: give it back, then move the order
    rename_i hholds
    have hmoves : Action.movesStock .cancel order := Or.inr ⟨rfl, hholds⟩
    unfold OrderService.restoreStock ItemRepository.getByIdWithLock
    rw [safe_bind, safe_bind, safe_bind]
    -- the item of a known order exists, so the lock is taken
    refine safe_selectItemForUpdate hF₁ h₁ rfl rfl
      (fun f s' hf hy => .failed hf hy ⟨rfl, rfl, rfl⟩ rfl)
      (fun s' h' hnone => absurd hnone (known_item hd₀ h'.inv h'.fact)) fun i s₂ h₂ howns hrow => ?_
    obtain ⟨hiid, hlock⟩ := owned_row rfl howns hrow
    have hF₂ := hF₁.and (.held t (.item i.id) (some (.item i)))
    have h₂ := h₂.learn (G := fun s => s.owns t (.item i.id) ∧
      s.db.get (.item i.id) = some (.item i)) hlock
    simp only [Option.map_some, safe_pure]
    rw [safe_bind]
    refine safe_assign (safe_recordChange (k := fun _ => pure ())
      (fun _ => (Coro.bind_pure _).symm)
      ⟨hF₂, fun _ hs => hs.2, fun s₃ hs₃ hinv₃ oid hoid => ?_⟩ h₂
      ⟨⟨⟨rfl, rfl, rfl⟩, rfl, rfl⟩, rfl, rfl, rfl⟩ ⟨rfl, rfl, rfl, rfl, rfl⟩ ?_
      (fun f y ss' s' hf hy hopen hfaulted => .failed hf hy hopen hfaulted) ?_)
    · obtain rfl : order.id = oid := Option.some.inj hoid
      exact known_isSome hd₀ hinv₃ hs₃.1
    · show 0 ≤ i.stockQuantity + order.quantity
      have hstock := i.ckStockNonNegative
      have hquantity := order.ckQuantityPositive
      omega
    intro i' m x' G s₃ hG h₃ hknow hx'
    rw [safe_pure]
    refine safe_moveOrder hd₀ hG h₃ hx'.running hx'.published hx'.read hid
      (fun s₄ hs₄ => (hknow s₄ hs₄).1.1) (by simp [hx'.writes]) ?_ ?_
    · -- the optimistic check passes: stock and order change together
      intro e cur s₄ hs₄ hstep
      rw [hx'.writes]
      exact .stocked hmoves hid hallowed hiid (hid ▸ (hknow s₄ hs₄).2) hstep
    · -- it fails: only a harness that commits exceptions keeps the restoration
      intro hhttp hstale _ newer s₄ hs₄ hnewer hnid hversion
      rw [hx'.writes]
      exact .stale (hexc hhttp) hstale hmoves hid hallowed hiid (hid ▸ (hknow s₄ hs₄).2)
        (hknow s₄ hs₄).1.1 hnewer hnid hversion rfl
  · -- a PENDING order holds nothing
    rename_i hfree
    have hstays : ¬Action.movesStock .cancel order := by
      simp [Action.movesStock, hfree]
    refine safe_moveOrder hd₀ hF₁ h₁ ⟨⟨rfl, rfl, rfl⟩, rfl, rfl⟩
      (fun _ _ hj => absurd hj List.not_mem_nil) rfl hid (fun _ hs => hs)
      (fun _ ho => absurd ho List.not_mem_nil) (fun e cur s₂ _ hstep => ?_)
      (fun _ _ hw => absurd rfl hw)
    exact .moved hstays hid hallowed hstep
/-! ## Stock service -/

/-- What `get_stock` leaves: an object of the row it has read, with the cached
    quantity where there is one. It is dirty only where the two may differ. -/
structure StockRead (A : Allow) (d₀ : Db) (t : TxId) (id : Uuid) (item : ItemObj) (ss : Session)
    (s : Sys) (x : Tx) (i : MenuItem) : Prop where
  at_ : At A d₀ t (fun _ => True) x s
  req : x.req = .getStock id
  live : x.aborted = false
  unfaulted : x.faulted = false
  uncommitted : x.commit = none
  writes : x.writes = []
  unpublished : x.published = none
  seen : x.seen = some (some i)
  row : i.id = id
  loaded : item.loaded = i
  quantity : item.stockQuantity = x.cached.getD i.stockQuantity
  dirty : ss.dirty = [] ∨ A.overwrite ∧ ∃ q, ss.dirty = [(id, { stockQuantity := some q })]

/-- The cache read of `get_stock`: its result is the `cached` of the transaction. -/
theorem safe_getCached {id : Uuid} {Q : Except Exc (Option Int) → Session → Sys → Prop}
    (hF : Stable t F) (h : At A d₀ t F x s) (hreq : x.req = .getStock id)
    (hcached : x.cached = none)
    (hfail : ∀ f s', f ≠ .integrityError → s'.txs t = some { x with faulted := true } →
      Q (.error (.failure f)) ss s')
    (hok : ∀ x' s', At A d₀ t F x' s' →
      (∃ q fl, x' = { x with cached := q, redisFailed := fl }) →
      (cfg.cache.enabled = false → x'.cached = none) → Q (.ok x'.cached) ss s') :
    Coro.Safe cfg A d₀ t (cfg.cache.getStock id) ss Q s := by
  unfold CacheService.getStock
  split
  · -- switched on
    rename_i hon
    rw [safe_bind, safe_attempt]
    refine safe_redisGet hF h hreq (fun f s' h' => ?_) (fun q s' h' => ?_)
    · cases f with
      | cancelled =>
        -- a cancellation passes
        exact hfail _ _ (by intro hf; cases hf) h'.tx
      | error =>
        have hcached' : (x.redisFault .error).cached = none := hcached
        -- a Redis error is swallowed
        show Q (.ok none) ss s'
        rw [← hcached']
        exact hok _ _ h' ⟨x.cached, true, rfl⟩ fun _ => hcached
    · exact hok _ _ h' ⟨q, x.redisFailed, rfl⟩ fun hoff => by simp [hon] at hoff
  · -- switched off: the cache returns nothing
    rw [safe_pure, ← hcached]
    exact hok x s h ⟨x.cached, x.redisFailed, rfl⟩ fun _ => hcached

/-- `get_stock` meets the contract. -/
theorem getStock_safe {id : Uuid} {cache : CacheService} (hcache : cache = cfg.cache)
    (hinv : Inv A d₀ s) (hs : s.txs t = some { req := .getStock id }) :
    Coro.Safe cfg A d₀ t (StockService.getStock cache id) {}
      (ServicePost cfg A d₀ t (.getStock id) fun item ss s =>
        ∃ x i, StockRead A d₀ t id item ss s x i) s := by
  subst hcache
  have h : At A d₀ t (fun _ => True) { req := .getStock id } s := ⟨trivial, hinv, hs⟩
  have hF := Stable.trivial t
  unfold StockService.getStock ItemRepository.getById
  rw [safe_bind]
  -- the cache answers, fails or is off: in no case has anything been written
  refine safe_getCached hF h rfl rfl (fun f s' hf hy => .failed hf hy ⟨rfl, rfl, rfl⟩ rfl) ?_
  rintro _ s₁ h₁ ⟨q, fl, rfl⟩ hoff
  simp only [safe_bind]
  refine safe_selectItem hF h₁ rfl (fun _ => ⟨rfl, rfl⟩)
    (fun f s' hf hy => .failed hf hy ⟨rfl, rfl, rfl⟩ rfl) fun r s₂ h₂ hr hcur => ?_
  cases r with
  | none =>
    have hmissing := h₂.inv.log.items_none hr
    simp only [Option.map_none, safe_pure, safe_raise]
    exact .refused rfl (fun _ _ => .noItem rfl hmissing) hF h₂ rfl ⟨⟨rfl, rfl, rfl⟩, rfl, rfl⟩ rfl
      fun _ => rfl
  | some i =>
    have hid : i.id = id := Table.key_of_find? hr
    simp only [Option.map_some, safe_pure]
    cases q with
    | none => exact ⟨_, i, h₂, rfl, rfl, rfl, rfl, rfl, rfl, rfl, hid, rfl, rfl, Or.inl rfl⟩
    | some q =>
      refine ⟨_, i, h₂, rfl, rfl, rfl, rfl, rfl, rfl, rfl, hid, rfl, rfl, ?_⟩
      by_cases hq : q = i.stockQuantity
      · -- assigning the loaded value leaves the object clean
        left
        simp [ItemObj.change, ItemObj.ofRow, hq]
      · right
        have hover : A.overwrite := by
          rcases hcur with hover | hdisabled | hread
          · exact hover
          · cases hoff hdisabled
          · rcases hread rfl i hr with hnone | hsome
            · cases hnone
            · exact absurd (Option.some.inj hsome) hq
        refine ⟨hover, q, ?_⟩
        have hchange : ItemObj.change ⟨i, q, i.version⟩ = { stockQuantity := some q } := by
          simp [ItemObj.change, hq]
        show (if ItemObj.change ⟨i, q, i.version⟩ = {} then _ else _) = _
        rw [hchange, if_neg (by simp), ← hid]
        show [(i.id, ItemObj.change ⟨i, q, i.version⟩)] = _
        rw [hchange]
end

end Nova
