import Nova.Spec.Findings

/-!
# Every answer has its reason

The code of a request, read through the protocol `learning`: it is refused only for a
`Reason` among its findings, and its success `Shows` a row that it has found or read back.
The rules go method by method (`Coro.Learns`); `getDb_learns` adds the commit and the
response around a route, so that each response has what `Supports` it.
-/

namespace Nova

open Machine
open Coro (raise attempt await)

/-! ## Reasons -/

/-- Why a request with these findings is refused. -/
inductive Reason (req : Request) (fs : List Finding) : Exc → Prop
  | noItem {id} : req.itemId? = some id → .item id none ∈ fs →
      Reason req fs (.notFound "MenuItem" id)
  | shortage {id b i} : req = .adjustStock id b → .item id (some i) ∈ fs →
      i.stockQuantity + b.delta < 0 →
      Reason req fs (.insufficientStock id b.delta.natAbs i.stockQuantity)
  | noOrder {a id} : req = .transition a id → .order id none ∈ fs →
      Reason req fs (.notFound "Order" id)
  | invalid {a id o} : req = .transition a id → .order id (some o) ∈ fs →
      o.status.canTransitionTo a.target = false →
      Reason req fs (.invalidTransition o.status a.target)
  | conflict {a id} : req = .transition a id → .moved id ∈ fs → Reason req fs (.conflict "Order" id)
  /-- A confirmation has found too little stock, and rejected the order. -/
  | rejected {id itemId requested available} : req = .transition .confirm id →
      .wrote (.order id) ∈ fs → Reason req fs (.insufficientStock itemId requested available)

/-- These are exceptions that the service of the request raises. -/
theorem Reason.raises {req : Request} {fs : List Finding} {e : Exc} (h : Reason req fs e) :
    req.raises e = true := by
  cases h with
  | noItem hid => cases req <;> first | rfl | cases hid
  | shortage hreq | noOrder hreq | invalid hreq | conflict hreq | rejected hreq =>
    subst hreq
    rfl

/-- What the service of a request raises. -/
inductive Raised (req : Request) (φ : Knowledge) : Exc → Prop
  | failure (f : Failure) : Raised req φ (.failure f)
  | refused {e} : Reason req φ.findings e → Raised req φ e

/-- The request has neither committed nor answered. -/
abbrev Knowledge.Open (φ : Knowledge) : Prop := φ.done = false ∧ φ.answered = none

/-- With the knowledge `φ` and nothing dirty, `x` returns what satisfies `R`, or raises what
    satisfies `E`. -/
def Coro.Learns {α : Type} (cache : CacheService) (req : Request) (E : Knowledge → Exc → Prop)
    (φ : Knowledge) (x : Coro α) (R : α → Knowledge → Prop) : Prop :=
  ∀ ss : Session, ss.dirty = [] → φ.Open →
    (learning cache req).Follows φ (x ss) fun p φ' => φ'.Impossible ∨
      (φ'.Open ∧ p.2.dirty = [] ∧
        match p.1 with
        | .ok a => R a φ'
        | .error e => E φ' e)

section

variable {α β : Type} {cache : CacheService} {req : Request} {E E' : Knowledge → Exc → Prop}
  {φ : Knowledge} {R : α → Knowledge → Prop} {R' : β → Knowledge → Prop}

/-- No answer takes a lasting finding away. -/
theorem Knowledge.lasting_after {f : Finding} (hf : f ∈ φ.findings) (hlasting : f.lasting = true)
    (o : Stmt) (r : o.Res) : f ∈ (φ.after o r).findings := by
  have hundone : f ∈ φ.undone.findings := List.mem_filter.mpr ⟨hf, hlasting⟩
  have hadd : ∀ g, f ∈ (φ.add g).findings := fun g => List.mem_cons_of_mem g hf
  -- `reads` adds at most a finding
  have hreads : ∀ found row version, f ∈ (φ.reads found row version).findings := by
    intro found row version
    unfold Knowledge.reads
    split
    · exact hadd _
    · split
      · split
        · exact hadd _
        · exact hf
      · exact hf
  cases r with
  | error e =>
    -- a failed SQL statement undoes, a failed Redis command does not touch the findings
    cases o <;> first | exact hundone | exact hf
  | ok a =>
    cases o with
    | selectItem id =>
      simp only [Knowledge.after]
      split
      · exact hadd _
      · exact hreads _ _ _
    | selectOrder id => exact hreads _ _ _
    | selectItemForUpdate id =>
      cases a <;> simp only [Knowledge.after] <;> split <;> first | exact hadd _ | exact hf
    | insertItem n | updateItem id c | insertOrder n | insertMovement n =>
      exact List.mem_cons_of_mem _ hf
    | updateOrder id v st => cases a <;> exact List.mem_cons_of_mem _ hf
    | redisGet id | redisSetex id q | commit | respond res => exact hf
    | rollback => exact hundone

/-- What has found out what cannot be may do anything. -/
theorem follows_impossible (h : φ.Impossible) (p : Code α) :
    (learning cache req).Follows φ p fun _ φ' => φ'.Impossible := by
  induction p generalizing φ with
  | ret a => exact h
  | call o k ih => exact ⟨Or.inl h, fun r _ => ih r (Knowledge.lasting_after h rfl o r)⟩

/-- A coroutine that returns at once learns nothing more. -/
theorem learns_pure {a : α} (h : R a φ) : Coro.Learns cache req E φ (pure a) R :=
  fun _ hss hopen => Or.inr ⟨hopen, hss, h⟩

/-- A coroutine that raises at once learns nothing more. -/
theorem learns_raise {e : Exc} (h : E φ e) : Coro.Learns cache req E φ (raise e) R :=
  fun _ hss hopen => Or.inr ⟨hopen, hss, h⟩

/-- What a coroutine returns with may be weakened. -/
theorem Coro.Learns.mono {x : Coro α} {R₁ : α → Knowledge → Prop}
    (h : Coro.Learns cache req E φ x R₁) (himp : ∀ a φ', R₁ a φ' → R a φ') :
    Coro.Learns cache req E φ x R := by
  intro ss hss hopen
  refine (h ss hss hopen).mono fun p φ' hp => hp.imp_right fun hp => ⟨hp.1, hp.2.1, ?_⟩
  obtain ⟨e | a, ss'⟩ := p
  · exact hp.2.2
  · exact himp a φ' hp.2.2

/-- The sequencing rule. -/
theorem learns_bind {x : Coro α} {f : α → Coro β} (h : Coro.Learns cache req E φ x R)
    (hf : ∀ a φ', R a φ' → Coro.Learns cache req E φ' (f a) R') :
    Coro.Learns cache req E φ (x >>= f) R' := by
  intro ss hss hopen
  refine Protocol.follows_bind.mpr ((h ss hss hopen).mono fun p φ' hp => ?_)
  rcases hp with himpossible | ⟨hopen', hss', hp⟩
  · exact (follows_impossible himpossible _).mono fun _ _ h => Or.inl h
  · obtain ⟨e | a, ss'⟩ := p
    · exact Or.inr ⟨hopen', hss', hp⟩
    · exact hf a φ' hp ss' hss' hopen'

/-- The rule for `try`: both ends of `x` go on in `f`. -/
theorem learns_attempt {x : Coro α} {f : Except Exc α → Coro β}
    (h : Coro.Learns cache req E φ x R)
    (hok : ∀ a φ', R a φ' → Coro.Learns cache req E' φ' (f (.ok a)) R')
    (herr : ∀ e φ', E φ' e → Coro.Learns cache req E' φ' (f (.error e)) R') :
    Coro.Learns cache req E' φ (attempt x >>= f) R' := by
  intro ss hss hopen
  refine Protocol.follows_bind.mpr (Protocol.follows_bind.mpr ((h ss hss hopen).mono ?_))
  rintro p φ' (himpossible | ⟨hopen', hss', hp⟩)
  · -- once the impossible has been found there is nothing to show
    exact (follows_impossible himpossible (f p.1 p.2)).mono fun _ _ h => Or.inl h
  · obtain ⟨e | a, ss'⟩ := p
    · -- the handler goes on with what was raised
      exact herr e φ' hp ss' hss' hopen'
    · -- and the rest with what was returned
      exact hok a φ' hp ss' hss' hopen'

end

/-! ## Awaits -/

/-- More findings, and something written. -/
structure Knowledge.Grown (φ φ' : Knowledge) : Prop where
  dirty : φ'.clean = false
  findings : φ.findings ⊆ φ'.findings

/-- Knowledge that grows twice has grown. -/
theorem Knowledge.Grown.trans {φ φ' φ'' : Knowledge} (h : φ.Grown φ') (h' : φ'.Grown φ'') :
    φ.Grown φ'' := ⟨h'.dirty, List.Subset.trans h.findings h'.findings⟩

/-- No await of a route commits or answers. -/
theorem Knowledge.Open.after {φ : Knowledge} {o : Stmt} {r : o.Res} (h : φ.Open)
    (ho : o.InRoute) : (φ.after o r).Open := by
  -- `reads` does not look at whether the request is open
  have hreads : ∀ found row version, (φ.reads found row version).Open := by
    intro found row version
    unfold Knowledge.reads
    split
    · exact h
    · split
      · split <;> exact h
      · exact h
  cases r with
  | error e => cases o <;> exact h
  | ok a =>
    cases o with
    | selectItem id =>
      simp only [Knowledge.after]
      split
      · exact h
      · exact hreads _ _ _
    | selectOrder id => exact hreads _ _ _
    | selectItemForUpdate id => cases a <;> simp only [Knowledge.after] <;> split <;> exact h
    | updateOrder id v st => cases a <;> exact h
    | insertItem n | updateItem id c | insertOrder n | insertMovement n => exact h
    | redisGet id | redisSetex id q => exact h
    | commit | rollback | respond res =>
      -- no statement of a route ends it
      exact ho.elim

section

variable {α : Type} {cache : CacheService} {req : Request} {φ : Knowledge}
  {R : α → Knowledge → Prop} {id : Uuid}

/-- An await goes first. -/
theorem learns_ask {o : Stmt} {f : o.Val → Coro α} (ho : o.InRoute)
    (hallow : φ.allows cache req o)
    (hf : ∀ a, Coro.Learns cache req (Raised req) (φ.after o (.ok a)) (f a) R) :
    Coro.Learns cache req (Raised req) φ (await o >>= f) R := by
  intro ss hss hopen
  refine ⟨Or.inr hallow, fun r _ => ?_⟩
  have hopen' : (φ.after o r).Open := hopen.after ho
  cases r with
  | ok a => exact hf a ss hss hopen'
  | error e => exact Or.inr ⟨hopen', hss, .failure e⟩

/-- An await goes last. -/
theorem learns_await {o : Stmt} {R : o.Val → Knowledge → Prop} (ho : o.InRoute)
    (hallow : φ.allows cache req o) (hR : ∀ a, R a (φ.after o (.ok a))) :
    Coro.Learns cache req (Raised req) φ (await o) R := by
  rw [← Coro.bind_pure (await o)]
  exact learns_ask ho hallow fun a => learns_pure (hR a)

/-- A flush writes the pending changes, and its answers are no findings. -/
theorem learns_flush : Coro.Learns cache req (Raised req) φ Session.flush fun _ φ' => φ' = φ := by
  intro ss hss hopen
  show (learning cache req).Follows φ (Session.emit ss.dirty ⟨[]⟩) _
  rw [hss]
  exact Or.inr ⟨hopen, rfl, rfl⟩

/-- A coroutine that knows what cannot be may return anything. -/
theorem learns_impossible {x : Coro α} (h : φ.Impossible) :
    Coro.Learns cache req (Raised req) φ x R :=
  fun ss _ _ => (follows_impossible h (x ss)).mono fun _ _ h => Or.inl h

/-! ## Cache and repositories -/

/-- `set_stock` finds nothing out. -/
theorem learns_setStock {q : Int} :
    Coro.Learns cache req (Raised req) φ (cache.setStock id q) fun _ φ' => φ' = φ := by
  unfold CacheService.setStock
  split
  · refine learns_attempt (E := fun φ' e => φ' = φ ∧ Raised req φ' e) (R := fun _ φ' => φ' = φ)
      ?_ (fun _ _ hφ => learns_pure hφ) fun e φ' hφ => ?_
    · -- the `SETEX` teaches nothing, whatever its answer
      intro ss hss hopen
      refine ⟨Or.inr trivial, fun r _ => ?_⟩
      cases r with
      | ok a => exact Or.inr ⟨hopen, hss, rfl⟩
      | error e => exact Or.inr ⟨hopen, hss, rfl, .failure e⟩
    · split
      · rename_i hok
        cases hok
      · rename_i hok
        -- a cancellation is raised again
        exact learns_raise (.failure _)
      · -- any other failure is swallowed
        exact learns_pure hφ.1
  · exact learns_pure rfl

/-- The first look at an item. -/
theorem learns_getItem (hclean : φ.clean = true) :
    Coro.Learns cache req (Raised req) φ (ItemRepository.getById id) fun r φ' =>
      ∃ row, r = row.map .ofRow ∧ φ' = φ.add (.item id row) ∧ φ.disagrees row = false := by
  refine learns_ask trivial trivial fun row => ?_
  cases hdisagrees : φ.disagrees row with
  | true =>
    -- a stale row was found, which the world excludes
    refine learns_impossible ?_
    simp [Knowledge.after, hclean, hdisagrees, Knowledge.Impossible, Knowledge.add]
  | false =>
    refine learns_pure ⟨row, rfl, ?_, hdisagrees⟩
    simp [Knowledge.after, hclean, hdisagrees, Knowledge.reads]

/-- An item is locked, before anything is written. -/
theorem learns_lockItem (hclean : φ.clean = true) :
    Coro.Learns cache req (Raised req) φ (ItemRepository.getByIdWithLock id) fun r φ' =>
      ∃ row, r = row.map .ofRow ∧ φ' = φ.add (.item id row) ∧
        (row = none → φ.refers id = false) := by
  refine learns_ask trivial trivial fun row => ?_
  cases row with
  | some row =>
    -- the row is locked and found
    refine learns_pure ⟨some row, rfl, ?_, nofun⟩
    simp [Knowledge.after, hclean]
  | none =>
    cases hrefers : φ.refers id with
    | true =>
      refine learns_impossible ?_
      -- an order that was read refers to this item, so it is there
      simp [Knowledge.after, hclean, hrefers, Knowledge.Impossible, Knowledge.add]
    | false =>
      refine learns_pure ⟨none, rfl, ?_, fun _ => rfl⟩
      simp [Knowledge.after, hclean, hrefers]

/-- The first look at an order. -/
theorem learns_getOrder (hclean : φ.clean = true) :
    Coro.Learns cache req (Raised req) φ (OrderRepository.getById id) fun r φ' =>
      φ' = φ.add (.order id r) :=
  learns_await trivial trivial fun r => by
    simp [Knowledge.after, Knowledge.reads, hclean]

/-- The version that the request has written itself. -/
theorem reads_own {found : Finding} {row : Row} {w : Write} (hdirty : φ.clean = false)
    (hdone : φ.done = false) (hwrote : .wrote row ∈ φ.findings) :
    φ.reads found row (some w) = φ.add (.own w) := by
  simp [Knowledge.reads, hdirty, hdone, hwrote]

/-- An order is read back. -/
theorem learns_orderBack (hdirty : φ.clean = false) (hwrote : .wrote (.order id) ∈ φ.findings) :
    Coro.Learns cache req (Raised req) φ (OrderRepository.getById id) fun r φ' =>
      ∀ o, r = some o → .own (.order o) ∈ φ'.findings := by
  intro ss hss hopen
  refine learns_await (o := .selectOrder id) trivial trivial (fun r o hr => ?_) ss hss hopen
  subst hr
  have hown : φ.after (.selectOrder id) (.ok (some o)) = φ.add (.own (.order o)) :=
    reads_own hdirty hopen.1 hwrote
  rw [hown]
  exact List.mem_cons_self

/-- A transaction that has written an order reads its own row. -/
theorem learns_refreshOrder (hdirty : φ.clean = false)
    (hwrote : .wrote (.order id) ∈ φ.findings) :
    Coro.Learns cache req (Raised req) φ (OrderRepository.refresh id) fun o φ' =>
      .own (.order o) ∈ φ'.findings := by
  refine learns_bind (learns_orderBack hdirty hwrote) fun r φ' hr => ?_
  cases r with
  | none => exact learns_raise (.failure _)
  | some o => exact learns_pure (hr o rfl)

/-- An item is read back. -/
theorem learns_refreshItem (hdirty : φ.clean = false) (hwrote : .wrote (.item id) ∈ φ.findings) :
    Coro.Learns cache req (Raised req) φ (ItemRepository.refresh id) fun i φ' =>
      φ.Grown φ' ∧ .own (.item i.loaded) ∈ φ'.findings := by
  intro ss hss hopen
  refine learns_ask (o := .selectItem id) trivial trivial (fun row => ?_) ss hss hopen
  cases row with
  | none => exact learns_raise (.failure _)
  | some row =>
    -- the version that the request has written is read back
    have hown : φ.after (.selectItem id) (.ok (some row)) = φ.add (.own (.item row)) := by
      have hreads : φ.reads (.item id (some row)) (.item id) (some (.item row)) = _ :=
        reads_own hdirty hopen.1 hwrote
      simp [Knowledge.after, hdirty, hreads]
    rw [hown]
    exact learns_pure ⟨⟨hdirty, List.subset_cons_self _ _⟩, List.mem_cons_self⟩

/-- A movement is inserted, and every finding stays. -/
theorem learns_movement {m : NewMovement} :
    Coro.Learns cache req (Raised req) φ (StockRepository.createMovement m) fun _ φ' =>
      φ.Grown φ' := by
  refine learns_bind learns_flush fun _ φ' hφ => ?_
  subst hφ
  exact learns_await trivial trivial fun m => ⟨rfl, List.subset_cons_self _ _⟩

/-- The stock of a freshly loaded item is changed, and the change recorded. -/
theorem learns_change {row : MenuItem} {q : Int} {n : ItemObj → NewMovement}
    {f : ItemObj → Coro α}
    (hf : ∀ φ', φ.Grown φ' → .wrote (.item row.id) ∈ φ'.findings →
      Coro.Learns cache req (Raised req) φ' (f ⟨row, q, row.version + 1⟩) R) :
    Coro.Learns cache req (Raised req) φ (do
      let i ← Session.assign (.ofRow row) q (row.version + 1)
      let _ ← StockRepository.createMovement (n i)
      f i) R := by
  intro ss hss hopen
  let i : ItemObj := ⟨row, q, row.version + 1⟩
  have hchange : i.change ≠ {} := by
    intro hsame
    have hversion := congrArg ItemChange.version hsame
    simp [ItemObj.change, i] at hversion
  -- the object is dirty, so the flush updates its row
  show (learning cache req).Follows φ ((do
    let _ ← StockRepository.createMovement (n i)
    f i : Coro α) ⟨if i.change = {} then _ else _ ++ [(row.id, i.change)]⟩) _
  rw [if_neg hchange, hss]
  refine ⟨Or.inr trivial, fun r _ => ?_⟩
  cases r with
  | error e => exact Or.inr ⟨hopen, rfl, .failure e⟩
  | ok u =>
    refine ⟨Or.inr trivial, fun r _ => ?_⟩
    cases r with
    | error e => exact Or.inr ⟨hopen, rfl, .failure e⟩
    | ok m =>
      refine hf _ ⟨rfl, ?_⟩ ?_ ⟨[]⟩ rfl hopen
      · exact List.subset_cons_of_subset _ (List.subset_cons_self _ _)
      · exact List.mem_cons_of_mem _ List.mem_cons_self

/-- A transaction that has written an item reads its own row. -/
theorem learns_save {i : ItemObj} (hdirty : φ.clean = false)
    (hwrote : .wrote (.item i.id) ∈ φ.findings) :
    Coro.Learns cache req (Raised req) φ (ItemRepository.save i) fun i φ' =>
      φ.Grown φ' ∧ .own (.item i.loaded) ∈ φ'.findings := by
  refine learns_bind learns_flush fun _ φ' hφ => ?_
  subst hφ
  exact learns_refreshItem hdirty hwrote

/-- The optimistic check. -/
theorem learns_check {o : Order} {status : OrderStatus}
    (hread : .order id (some o) ∈ φ.findings) :
    Coro.Learns cache req (Raised req) φ (OrderRepository.transitionStatus id o.version status)
      fun b φ' => if b then φ'.clean = false ∧ .wrote (.order id) ∈ φ'.findings
        else .moved id ∈ φ'.findings :=
  learns_await trivial ⟨o, hread, rfl⟩ fun b => by
    cases b with
    | false => exact List.mem_cons_self
    | true => exact ⟨rfl, List.mem_cons_self⟩

end

/-! ## Services -/

section

variable {cache : CacheService}

/-- An item that was written, as it was read back. -/
def OwnItem (i : ItemObj) (φ : Knowledge) : Prop := .own (.item i.loaded) ∈ φ.findings

/-- An order that was written, as it was read back. -/
def OwnOrder (o : Option Order) (φ : Knowledge) : Prop :=
  ∀ o', o = some o' → .own (.order o') ∈ φ.findings

/-- `create_item` returns the row it inserted. -/
theorem createItem_learns {b : ItemCreate} :
    Coro.Learns cache (.createItem b) (Raised (.createItem b)) {}
      (ItemService.createItem cache b.name b.price b.stockQuantity b.description
        b.lowStockThreshold) OwnItem := by
  have hcreate : Coro.Learns cache (.createItem b) (Raised (.createItem b)) {}
      (ItemRepository.create ⟨b.name, b.description, b.price, b.stockQuantity,
        b.lowStockThreshold, 1⟩) OwnItem := by
    refine learns_bind learns_flush fun _ φ hφ => ?_
    -- inserted, and then read back by the refresh
    subst hφ
    refine learns_ask trivial trivial fun row => ?_
    exact (learns_refreshItem rfl List.mem_cons_self).mono fun i φ hi => hi.2
  refine learns_bind hcreate fun i φ hown => ?_
  refine learns_bind learns_movement fun _ φ₁ hgrown => ?_
  refine learns_bind learns_setStock fun _ φ₂ hφ => ?_
  subst hφ
  -- the movement and the cache leave the item's version alone
  exact learns_pure (hgrown.findings hown)

/-- `adjust_stock` returns the row it wrote, or raises what it has read a reason for. -/
theorem adjustStock_learns {id : Uuid} {b : ItemStockAdjust} :
    Coro.Learns cache (.adjustStock id b) (Raised (.adjustStock id b)) {}
      (ItemService.adjustStock cache id b.delta b.reason) OwnItem := by
  refine learns_bind (learns_lockItem rfl) fun r φ hr => ?_
  obtain ⟨row, rfl, rfl, _⟩ := hr
  cases row with
  | none =>
    -- 404
    exact learns_raise (.refused (.noItem rfl List.mem_cons_self))
  | some row =>
    simp only [Option.map_some]
    split
    · rename_i hshort
      -- 422, with the row that was too low
      exact learns_raise (.refused (.shortage rfl List.mem_cons_self hshort))
    · refine learns_change fun φ hgrown hwrote => ?_
      refine learns_bind (learns_save hgrown.dirty hwrote) fun i φ₁ hi => ?_
      refine learns_bind learns_setStock fun _ φ₂ hφ => ?_
      subst hφ
      -- the row was saved and read back
      exact learns_pure hi.2

/-- `place_order` returns the row it inserted, or raises what it has read a reason for. -/
theorem placeOrder_learns {b : OrderCreate} :
    Coro.Learns cache (.placeOrder b) (Raised (.placeOrder b)) {}
      (OrderService.placeOrder b.itemId b.quantity b.customerRef)
      fun o φ => .own (.order o) ∈ φ.findings := by
  refine learns_bind (learns_getItem rfl) fun r φ hr => ?_
  obtain ⟨row, rfl, rfl, _⟩ := hr
  -- 404
  cases row with
  | none => exact learns_raise (.refused (.noItem rfl List.mem_cons_self))
  | some row =>
    refine learns_bind learns_flush fun _ φ hφ => ?_
    subst hφ
    refine learns_ask trivial trivial fun o => ?_
    -- the order is inserted, and read back
    exact learns_refreshOrder rfl List.mem_cons_self

section

variable {a : Action} {id : Uuid} {φ : Knowledge} {o : Order} {status : OrderStatus}

/-- What every transition ends with. -/
theorem finish_learns (hread : .order id (some o) ∈ φ.findings) :
    Coro.Learns cache (.transition a id) (Raised (.transition a id)) φ (do
      let updated ← OrderRepository.transitionStatus id o.version status
      if !updated then raise (.conflict "Order" id) else OrderRepository.getById id) OwnOrder := by
  refine learns_bind (learns_check hread) fun b φ hb => ?_
  cases b with
  | false => exact learns_raise (.refused (.conflict rfl hb))
  | true => exact learns_orderBack hb.1 hb.2

/-- The 404 of a transition has read that there is no such order. -/
theorem refused_noOrder (h : .order id none ∈ φ.findings) :
    Raised (.transition a id) φ (.notFound "Order" id) := .refused (.noOrder rfl h)

/-- The 422 of a transition has read an order in another status. -/
theorem refused_invalid (h : .order id (some o) ∈ φ.findings)
    (hallowed : (!o.status.canTransitionTo a.target) = true) :
    Raised (.transition a id) φ (.invalidTransition o.status a.target) :=
  .refused (.invalid rfl h (by simpa using hallowed))

/-- An order that has been read refers to its item. -/
theorem refers_read (hread : .order id (some o) ∈ φ.findings) : φ.refers o.itemId = true :=
  List.any_eq_true.mpr ⟨_, hread, by simp⟩

/-- `ship_order` and `deliver_order` return the row they wrote, or raise with a reason. -/
theorem transition_learns (hstatus : status = a.target) :
    Coro.Learns cache (.transition a id) (Raised (.transition a id)) {}
      (OrderService.transition id status) OwnOrder := by
  subst hstatus
  refine learns_bind (learns_getOrder rfl) fun r φ hr => ?_
  subst hr
  cases r with
  | none =>
    -- 404
    exact learns_raise (refused_noOrder List.mem_cons_self)
  | some o =>
    simp only
    split
    · rename_i hinvalid
      -- 422, with the status that was found
      exact learns_raise (refused_invalid List.mem_cons_self hinvalid)
    · exact finish_learns List.mem_cons_self

/-- `confirm_order` returns the row it wrote, or raises with a reason. -/
theorem confirmOrder_learns :
    Coro.Learns cache (.transition .confirm id) (Raised (.transition .confirm id)) {}
      (OrderService.confirmOrder cache id) OwnOrder := by
  refine learns_bind (learns_getOrder rfl) fun r φ hr => ?_
  subst hr
  cases r with
  | none =>
    -- 404
    exact learns_raise (refused_noOrder List.mem_cons_self)
  | some o =>
    simp only
    split
    · rename_i hinvalid
      -- 422, for a status that cannot be confirmed
      exact learns_raise (refused_invalid (a := .confirm) List.mem_cons_self hinvalid)
    · refine learns_bind (learns_lockItem rfl) fun r φ hr => ?_
      obtain ⟨row, rfl, rfl, hnone⟩ := hr
      cases row with
      | none =>
        -- the item of an order that was read is there
        cases (refers_read List.mem_cons_self).symm.trans (hnone rfl)
      | some row =>
        have hread : Finding.order id (some o) ∈
            ((Knowledge.add {} (.order id (some o))).add (.item o.itemId (some row))).findings :=
          List.mem_cons_of_mem _ List.mem_cons_self
        simp only [Option.map_some]
        split
        · -- short of stock: the order becomes `REJECTED`, and the request raises 422
          refine learns_bind (learns_check hread) fun b φ hb => ?_
          cases b with
          | false => exact learns_raise (.refused (.conflict rfl hb))
          | true => exact learns_raise (.refused (.rejected rfl hb.2))
        · -- enough stock: item and movement, the cache, then the order
          refine learns_change fun φ hgrown hwrote => ?_
          refine learns_bind (learns_save hgrown.dirty hwrote) fun i φ₁ hi => ?_
          refine learns_bind learns_setStock fun _ φ₂ hφ => ?_
          subst hφ
          exact finish_learns (hi.1.findings (hgrown.findings hread))

/-- Restoring the stock of an order keeps what was found out about it. -/
theorem restoreStock_learns (hclean : φ.clean = true) (hread : .order id (some o) ∈ φ.findings) :
    Coro.Learns cache (.transition .cancel id) (Raised (.transition .cancel id)) φ
      (OrderService.restoreStock cache o) fun _ φ' => φ.findings ⊆ φ'.findings := by
  refine learns_bind (learns_lockItem hclean) fun r φ' hr => ?_
  obtain ⟨row, rfl, rfl, hnone⟩ := hr
  cases row with
  | none =>
    -- the foreign key of the order excludes this
    cases (refers_read hread).symm.trans (hnone rfl)
  | some row =>
    simp only [Option.map_some]
    refine learns_change fun φ₁ hgrown hwrote => ?_
    refine learns_bind (learns_save hgrown.dirty hwrote) fun i φ₂ hi => ?_
    refine learns_setStock.mono fun _ φ₃ hφ => ?_
    subst hφ
    -- what was found before is still known
    exact fun f hf => hi.1.findings (hgrown.findings (List.mem_cons_of_mem _ hf))

/-- `cancel_order` returns the row it wrote, or raises with a reason. -/
theorem cancelOrder_learns :
    Coro.Learns cache (.transition .cancel id) (Raised (.transition .cancel id)) {}
      (OrderService.cancelOrder cache id) OwnOrder := by
  refine learns_bind (learns_getOrder rfl) fun r φ hr => ?_
  subst hr
  cases r with
  | none =>
    -- 404
    exact learns_raise (refused_noOrder List.mem_cons_self)
  | some o =>
    simp only
    split
    · rename_i hinvalid
      -- 422, with the status that was found
      exact learns_raise (refused_invalid (a := .cancel) List.mem_cons_self hinvalid)
    · split
      · -- the stock that the order holds is put back first
        refine learns_bind (restoreStock_learns rfl List.mem_cons_self) fun _ φ hsub => ?_
        exact finish_learns (hsub List.mem_cons_self)
      · exact finish_learns List.mem_cons_self

/-- Every method of `_transition_router` returns the row it wrote, or raises with a reason.
    -/
theorem method_learns (a : Action) :
    Coro.Learns cache (.transition a id) (Raised (.transition a id)) {}
      (OrderService.method cache a id) OwnOrder := by
  cases a with
  | confirm => exact confirmOrder_learns
  | ship | deliver => exact transition_learns rfl
  | cancel => exact cancelOrder_learns

end

/-- The cache is asked first. -/
theorem lookup_learns {id : Uuid} :
    Coro.Learns cache (.getStock id) (Raised (.getStock id)) {} (cache.getStock id)
      fun q φ => φ = { cached := q } := by
  unfold CacheService.getStock
  split
  · rename_i henabled
    refine learns_attempt (E := fun φ e => φ = {} ∧ Raised (.getStock id) φ e)
      (R := fun q φ => φ = { cached := q }) ?_ (fun _ _ hφ => learns_pure hφ) fun e φ hφ => ?_
    · -- only a stock read looks into the cache
      intro ss hss hopen
      refine ⟨Or.inr ⟨henabled, rfl⟩, fun r _ => ?_⟩
      cases r with
      | ok q => exact Or.inr ⟨hopen, hss, rfl⟩
      | error e => exact Or.inr ⟨hopen, hss, rfl, .failure e⟩
    · split
      · rename_i hok
        cases hok
      · -- a cancellation is raised again
        exact learns_raise (.failure _)
      · -- any other failure is a miss
        exact learns_pure hφ.1
  · exact learns_pure rfl

/-- An object that gets the quantity of its row is not dirty. -/
theorem assign_agrees {row : MenuItem} {ss : Session} (hss : ss.dirty = []) :
    Session.assign (.ofRow row) row.stockQuantity row.version ss =
      .ret (.ok (.ofRow row), ⟨[]⟩) := by
  simp [Session.assign, ItemObj.ofRow, ItemObj.change, hss]

/-- A stock read returns the row that it has found. -/
theorem getStock_learns {id : Uuid} :
    Coro.Learns cache (.getStock id) (Raised (.getStock id)) {} (StockService.getStock cache id)
      fun i φ => ∃ row, i = .ofRow row ∧ .item id (some row) ∈ φ.findings := by
  refine learns_bind lookup_learns fun q φ hφ => ?_
  subst hφ
  refine learns_bind (learns_getItem rfl) fun r φ hr => ?_
  obtain ⟨row, rfl, rfl, hagrees⟩ := hr
  cases row with
  | none => exact learns_raise (.refused (.noItem rfl List.mem_cons_self))
  | some row =>
    cases q with
    | none =>
      -- a miss: the row as it is
      exact learns_pure ⟨row, rfl, List.mem_cons_self⟩
    | some q =>
      -- a hit that agrees with the row
      obtain rfl : row.stockQuantity = q := by simpa [Knowledge.disagrees] using hagrees
      intro ss hss hopen
      show (learning cache (.getStock id)).Follows _
        (Session.assign (.ofRow row) row.stockQuantity row.version ss) _
      rw [assign_agrees hss]
      exact Or.inr ⟨hopen, rfl, row, rfl, List.mem_cons_self⟩

end

/-! ## Routes -/

/-- What a success reports, of what the request has found. -/
inductive Shows (req : Request) (fs : List Finding) : Response → Prop
  | item {row} : req.isRead = false → (∀ a id, req ≠ .transition a id) → .own (.item row) ∈ fs →
      Shows req fs (.success req.successStatus (.item row))
  | order {row} : req.isRead = false → .own (.order row) ∈ fs →
      Shows req fs (.success req.successStatus (.order row))
  | stock {id row} : req = .getStock id → .item id (some row) ∈ fs →
      Shows req fs (.success req.successStatus (.stock (ItemObj.ofRow row).response))

/-- What the route of a request raises. -/
inductive RouteRaised (req : Request) (φ : Knowledge) : Exc → Prop
  | refused {e} : Reason req φ.findings e → RouteRaised req φ (.http e.statusCode e.message)
  | taken {b detail} : req = .createItem b → RouteRaised req φ (.http 409 detail)
  | invalid : req.valid = false → RouteRaised req φ .requestValidation
  | failure (f : Failure) : RouteRaised req φ (.failure f)
  | response : RouteRaised req φ .responseValidation

section

variable {cache : CacheService} {req : Request}

/-- A route that translates the reasons of its service. -/
theorem translated_learns {α β : Type} {status : Exc → Option Nat} {x : Coro α}
    {f : α → Coro β} {R : α → Knowledge → Prop} {R' : β → Knowledge → Prop}
    (hstatus : ∀ e, req.raises e = true → status e = some e.statusCode)
    (hfailure : ∀ f, status (.failure f) = none)
    (h : Coro.Learns cache req (Raised req) {} x R)
    (hf : ∀ a φ, R a φ → Coro.Learns cache req (RouteRaised req) φ (f a) R') :
    Coro.Learns cache req (RouteRaised req) {} (translate status x >>= f) R' := by
  refine learns_bind (R := R) (learns_attempt h (fun a φ hR => learns_pure hR) ?_) hf
  intro e φ he
  cases he with
  | failure g =>
    simp only [hfailure]
    -- a failure passes
    exact learns_raise (.failure g)
  | refused hreason =>
    simp only [hstatus e hreason.raises]
    -- a refusal gets its status code
    exact learns_raise (.refused hreason)

/-- A route answers with what it has found out. -/
theorem route_learns (req : Request) :
    Coro.Learns cache req (RouteRaised req) {} (Api.route cache req)
      fun r φ => Shows req φ.findings r := by
  unfold Api.route
  split
  · -- 422 of the request validation
    rename_i hinvalid
    exact learns_raise (.invalid (by simpa using hinvalid))
  cases req with
  | createItem b =>
    refine learns_attempt createItem_learns
      (fun i φ hown => learns_pure (.item rfl nofun hown)) fun e φ he => ?_
    cases he with
    | failure f =>
      -- only an `IntegrityError` is translated, to 409
      cases f with
      | integrityError => exact learns_raise (.taken rfl)
      | _ => exact learns_raise (.failure _)
    | refused hreason => cases hreason.raises
  | adjustStock id b =>
    refine translated_learns (fun e he => ?_) (fun _ => rfl) adjustStock_learns fun i φ hown =>
      learns_pure (.item rfl nofun hown)
    cases e <;> first | rfl | cases he
  | placeOrder b =>
    refine translated_learns (fun e he => ?_) (fun _ => rfl) placeOrder_learns fun o φ hown =>
      learns_pure (.order rfl hown)
    cases e <;> first | rfl | cases he
  | transition a id =>
    refine translated_learns (fun e he => ?_) (fun _ => rfl) (method_learns a) fun r φ hown => ?_
    · cases e <;> first | rfl | cases he
    · cases r with
      | none =>
        -- a row that is gone cannot be serialised
        exact learns_raise .response
      | some o => exact learns_pure (.order rfl (hown o rfl))
  | getStock id =>
    refine translated_learns (fun e he => ?_) (fun _ => rfl) getStock_learns fun i φ hi => ?_
    · cases e <;> first | rfl | cases he
    · obtain ⟨row, rfl, hfound⟩ := hi
      exact learns_pure (.stock rfl hfound)

/-! ## `get_db` -/

/-- Why a request ends with this response. -/
inductive Supports (req : Request) (φ : Knowledge) : Response → Prop
  | shown {r} : Shows req φ.findings r → Supports req φ r
  /-- The `COMMIT` after a success has failed. -/
  | unsaved {status body} : φ.done = false → req.isRead = false →
      Supports req φ (.success status body)
  | refused {e} : Reason req φ.findings e → Supports req φ (.error e.statusCode e.message)
  | taken {b detail} : req = .createItem b → Supports req φ (.error 409 detail)
  | invalid : req.valid = false → Supports req φ (.error 422 Exc.requestValidation.message)
  | broken (detail : String) : Supports req φ (.error 500 detail)

/-- A request ends with a response that it has a reason for, if it is answered. -/
def Justified (req : Request) (φ : Knowledge) : Prop :=
  φ.Impossible ∨ ∀ r, φ.answered = some r → Supports req φ r

/-- An exception is caught. -/
theorem follows_attempt {α : Type} {x : Coro α} {f : Except Exc α → Coro Unit} {ss : Session}
    {φ : Knowledge} {Q : Except Exc Unit × Session → Knowledge → Prop}
    (h : (learning cache req).Follows φ (x ss) fun p φ' =>
      (learning cache req).Follows φ' (f p.1 p.2) Q) :
    (learning cache req).Follows φ ((attempt x >>= f) ss) Q :=
  Protocol.follows_bind.mpr (Protocol.follows_bind.mpr h)

section

variable {φ : Knowledge} {ss : Session}

/-- A clean session's `COMMIT` succeeds and settles the findings, or fails. -/
theorem follows_commit (hss : ss.dirty = []) (hdone : φ.done = false) :
    (learning cache req).Follows φ (Session.commit ss) fun p φ' =>
      p.1 = .ok () ∧ φ' = { φ with clean := false, done := true } ∨
      (∃ f, p.1 = .error (.failure f)) ∧ φ' = φ.undone := by
  show (learning cache req).Follows φ
    ((Session.emit ss.dirty >>= fun _ => await .commit : Coro Unit) ⟨[]⟩) _
  rw [hss]
  -- nothing is flushed before the `COMMIT`
  refine ⟨Or.inr hdone, fun r _ => ?_⟩
  cases r with
  | ok u => exact Or.inl ⟨rfl, rfl⟩
  | error f => exact Or.inr ⟨⟨f, rfl⟩, rfl⟩

/-- After a `ROLLBACK` only the lasting findings are left. -/
theorem follows_rollback {x : Coro Unit}
    {Q : Except Exc Unit × Session → Knowledge → Prop}
    (h : (learning cache req).Follows φ.undone (x {}) Q) :
    (learning cache req).Follows φ ((Session.rollback >>= fun _ => x) ss) Q := by
  refine ⟨Or.inr trivial, fun r hr => ?_⟩
  cases r with
  | ok u => exact h
  | error f => exact hr.elim

/-- A response is recorded beside the findings that support it. -/
theorem follows_respond {r : Response} {f : Unit → Coro Unit}
    {Q : Except Exc Unit × Session → Knowledge → Prop}
    (h : (learning cache req).Follows { φ with answered := some r } (f () ss) Q) :
    (learning cache req).Follows φ ((await (.respond r) >>= f) ss) Q := by
  refine ⟨Or.inr trivial, fun res hres => ?_⟩
  cases res with
  | ok u => exact h
  | error f => exact hres.elim

/-- Nothing follows the response, which is supported by then. -/
theorem follows_last {r : Response} (h : Supports req { φ with answered := some r } r) :
    (learning cache req).Follows φ (await (.respond r) ss) fun _ φ' => Justified req φ' := by
  refine ⟨Or.inr trivial, fun res hres => ?_⟩
  cases res with
  | ok u => exact Or.inr fun r' hr' => Option.some.inj hr' ▸ h
  | error f => exact hres.elim

/-- A rollback, and a response that says so unless the request was cancelled. -/
theorem follows_failed {e : Exc} (hnone : φ.answered = none) :
    (learning cache req).Follows φ ((do
      Session.rollback
      serverError e : Coro Unit) ss) fun _ φ' => Justified req φ' := by
  refine follows_rollback ?_
  unfold serverError
  split
  · exact Or.inr fun r hr => nomatch hnone.symm.trans hr
  · exact follows_last (.broken _)

/-- An `HTTPException` is committed before it is answered. -/
theorem follows_answered {f : Except Exc Unit → Coro Unit} {status : Nat} {detail : String}
    (hss : ss.dirty = []) (hopen : φ.Open)
    (hok : ∀ ss', f (.ok ()) ss' = await (.respond (.error status detail)) ss')
    (herror : ∀ e ss', f (.error e) ss' =
      (Session.close >>= fun _ => serverError e : Coro Unit) ss')
    (hsupports : ∀ φ' : Knowledge, φ'.findings = φ.findings →
      Supports req φ' (.error status detail)) :
    (learning cache req).Follows φ ((attempt Session.commit >>= f) ss) fun _ φ' =>
      Justified req φ' := by
  refine follows_attempt ((follows_commit hss hopen.1).mono ?_)
  rintro ⟨_, ss'⟩ φ' (⟨rfl, rfl⟩ | ⟨⟨g, rfl⟩, rfl⟩)
  · rw [hok]
    -- the `COMMIT` went through, and the response is sent
    exact follows_last (hsupports _ rfl)
  · rw [herror]
    -- it failed, and the exception is answered 500
    exact follows_failed hopen.2

/-- A response that was sent before the `COMMIT` failed. -/
theorem Shows.unsaved {r : Response} {φ' : Knowledge} (h : Shows req φ.findings r)
    (hdone : φ'.done = false)
    (hlasting : ∀ f ∈ φ.findings, f.lasting = true → f ∈ φ'.findings) : Supports req φ' r := by
  cases h with
  | item hread | order hread => exact .unsaved hdone hread
  | stock hreq hfound => exact .shown (.stock hreq (hlasting _ hfound rfl))

end

/-- `get_db` keeps an answer justified, whether it commits or rolls back. -/
theorem getDb_learns {route : Coro Response}
    (h : Coro.Learns cache req (RouteRaised req) {} route fun r φ => Shows req φ.findings r) :
    (learning cache req).Follows {} (getDb route {}) fun _ φ => Justified req φ := by
  unfold getDb
  refine follows_attempt ((h {} rfl ⟨rfl, rfl⟩).mono ?_)
  rintro ⟨r, ss⟩ φ (himpossible | ⟨hopen, hss, hr⟩)
  · -- nothing can contradict what cannot be
    exact (follows_impossible himpossible _).mono fun _ _ h => Or.inl h
  cases r with
  | ok response =>
    -- the response is out before the `COMMIT`
    refine follows_respond (follows_attempt ?_)
    refine (follows_commit (φ := { φ with answered := some response }) hss hopen.1).mono ?_
    rintro ⟨_, ss'⟩ φ' (⟨rfl, rfl⟩ | ⟨⟨f, rfl⟩, rfl⟩)
    · -- it stands when the `COMMIT` succeeds
      exact Or.inr fun r' hr' => Option.some.inj hr' ▸ .shown hr
    · -- and when it fails, as nothing the request wrote is shown any more
      simp only [Session.abandon_eq]
      refine ⟨Or.inr trivial, fun res hres => ?_⟩
      cases res with
      | ok u =>
        refine Or.inr fun r' hr' => Option.some.inj hr' ▸ ?_
        exact hr.unsaved hopen.1 fun f hf hlasting =>
          List.mem_filter.mpr ⟨List.mem_filter.mpr ⟨hf, hlasting⟩, hlasting⟩
      | error f => exact hres.elim
  | error e =>
    cases hr with
    | refused hreason =>
      -- 404, 409 or 422 with a commit of what the session holds
      exact follows_answered hss hopen (fun _ => rfl) (fun _ _ => rfl) fun φ' hφ' =>
        .refused (hφ' ▸ hreason)
    | taken hreq =>
      exact follows_answered hss hopen (fun _ => rfl) (fun _ _ => rfl) fun _ _ => .taken hreq
    | invalid hvalid => exact follows_rollback (follows_last (.invalid hvalid))
    | failure f | response =>
      -- 500, and a rollback
      simp only [Session.abandon_eq]
      exact follows_failed hopen.2

/-- The program of a request ends with its answer justified. -/
theorem code_learns (req : Request) :
    (learning cache req).Follows {} (Config.code ⟨.http, cache⟩ req) fun _ φ =>
      Justified req φ :=
  Protocol.follows_bind.mpr (getDb_learns (route_learns req))

end

end Nova
