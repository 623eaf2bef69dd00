import Nova.Spec.Tally

/-!
# Refund value

An order that is CANCELLED has either been refunded, with a DEDUCTION and a RESTORATION
on record, or it was cancelled while it was PENDING and has no movements. `Settled` ties
the second kind to the commit that cancelled it. The report counts both kinds: its refund
value is the worth of the refunded orders exactly if its window holds no order of the
second kind (`refund_value`), and `refund_overstated` is a run whose window holds one.
-/

namespace Nova

open Machine Reports

/-! ## Orders cancelled while PENDING -/

/-- The commit cancels the order `id`, which its request had read as PENDING. -/
def Commit.cancelsPending (c : Commit) (id : Uuid) : Bool :=
  c.req = .transition .cancel id && c.writes ≠ [] && c.read.any (·.status = .pending)

/-- The order `id` was cancelled while it was PENDING. -/
def CancelledPending (wal : List Commit) (id : Uuid) : Prop := wal.any (·.cancelsPending id) = true

instance (wal : List Commit) (id : Uuid) : Decidable (CancelledPending wal id) :=
  inferInstanceAs (Decidable (_ = true))

/-- One more commit cancels its own order. -/
theorem cancelledPending_snoc {wal : List Commit} {c : Commit} {id : Uuid} :
    CancelledPending (wal ++ [c]) id ↔ CancelledPending wal id ∨ c.cancelsPending id = true := by
  simp [CancelledPending]

/-- Only a cancellation cancels. -/
theorem Commit.not_cancelsPending {c : Commit} {id : Uuid} (h : c.req ≠ .transition .cancel id) :
    ¬c.cancelsPending id = true := by
  simp [Commit.cancelsPending, h]

/-- The orders cancelled while PENDING are the CANCELLED ones without movements. -/
def Settled (d : Db) (wal : List Commit) : Prop :=
  ∀ id, CancelledPending wal id ↔
    ∃ o, d.orders.find? id = some o ∧ o.status = .cancelled ∧ d.movementsOf id = []

/-- An order of another status was not cancelled. -/
theorem Settled.not_cancelled {d : Db} {wal : List Commit} (h : Settled d wal) {id : Uuid}
    (hrow : ∀ o, d.orders.find? id = some o → o.status ≠ .cancelled) :
    ¬CancelledPending wal id := by
  intro hcancelled
  obtain ⟨o, ho, hstatus, _⟩ := (h id).mp hcancelled
  exact hrow o ho hstatus

/-- A commit that changes no order. -/
private theorem settled_same {d d' : Db} {wal : List Commit} {c : Commit} (h : Settled d wal)
    (horders : d'.orders = d.orders) (hmovements : ∀ id, d'.movementsOf id = d.movementsOf id)
    (hc : ∀ id, ¬c.cancelsPending id = true) : Settled d' (wal ++ [c]) := by
  intro id
  rw [cancelledPending_snoc, horders, hmovements, ← h id]
  exact or_iff_left (hc id)

/-- A commit that changes one order, which was not CANCELLED before. -/
private theorem settled_order {d d' : Db} {wal : List Commit} {c : Commit} {o : Order}
    (h : Settled d wal) (horders : d'.orders = d.orders.upsert o)
    (hmovements : ∀ id, id ≠ o.id → d'.movementsOf id = d.movementsOf id)
    (hold : ∀ r, d.orders.find? o.id = some r → r.status ≠ .cancelled)
    (hc : ∀ id, id ≠ o.id → ¬c.cancelsPending id = true)
    (hself : c.cancelsPending o.id = true ↔ o.status = .cancelled ∧ d'.movementsOf o.id = []) :
    Settled d' (wal ++ [c]) := by
  intro id
  rw [cancelledPending_snoc, horders, Table.find?_upsert]
  by_cases hid : id = o.id
  · subst hid
    rw [if_pos rfl, or_iff_right (h.not_cancelled hold), hself]
    simp
  · rw [if_neg hid, hmovements id hid, ← h id]
    exact or_iff_left (hc id hid)

/-- One more commit keeps the account of refunds. -/
private theorem settled_step {A : Allow} {d₀ d : Db} {wal : List Commit} {c : Commit}
    {e : Option Exc} (hstale : ¬A.stale)
    (hknown : ∀ o, knownIn d₀ wal o → ∃ cur, KnownOrder d o cur) (hrecorded : Recorded d)
    (h : Settled d wal) (heff : Effect A d₀ wal d c.req c.read e c.writes) :
    Settled (d.applyAll c.writes) (wal ++ [c]) := by
  obtain ⟨tx, req, read, ws⟩ := c
  have hother : ∀ {req : Request}, (∀ id, req ≠ .transition .cancel id) →
      ∀ id, ¬(Commit.mk tx req read ws).cancelsPending id = true :=
    fun hreq id => Commit.not_cancelsPending (hreq id)
  cases heff with
  | stale _ hs => exact absurd hs hstale
  | refused | read =>
      exact settled_same h rfl (fun _ => rfl) fun id => by simp [Commit.cancelsPending]
  | overwritten =>
    exact settled_same h rfl (fun _ => rfl) fun id => Commit.not_cancelsPending (by simp)
  | @created b _ i m _ _ _ _ _ _ _ hfresh _ _ _ _ _ horderId =>
    have hfresh' : (d.apply (.item i)).movements.find? m.id = none := hfresh
    refine settled_same h rfl (fun id => ?_) fun id => Commit.not_cancelsPending (by simp)
    show ((d.apply (.item i)).apply (.movement m)).movementsOf id = _
    rw [Db.movementsOf_apply_movement hfresh', horderId]
    simp
  | adjusted _ hch =>
    refine settled_same h rfl (fun id => ?_) fun id => Commit.not_cancelsPending (by simp)
    exact (movementsOf_change hch id).trans (by simp)
  | @placed b _ o _ hnew _ _ _ hstatus _ =>
    -- a new order is PENDING, and has no row yet
    refine settled_order h (o := o) rfl (fun _ _ => rfl) (fun r hr => ?_)
      (fun id _ => Commit.not_cancelsPending (by simp)) ?_
    · cases hnew.symm.trans hr
    · simp [Commit.cancelsPending, hstatus]
  | @rejected id o cur o' i e _ hid hallowed _ _ _ hstep =>
    obtain ⟨rfl, hrow⟩ := hstep.current hknown
    have hstatus : o'.status = .rejected := hstep.status_eq
    -- a rejected order was PENDING
    refine settled_order h (o := o') rfl (fun _ _ => rfl) (fun r hr => ?_)
      (fun id _ => Commit.not_cancelsPending (by simp)) ?_
    · obtain rfl : cur = r := Option.some.inj (hrow.symm.trans hr)
      rw [canTransitionTo_confirmed hallowed]
      simp
    · simp [Commit.cancelsPending, hstatus]
  | @stocked a id o cur o' i i' m hmoves hid hallowed hiid hch hstep =>
    obtain ⟨rfl, hrow⟩ := hstep.current hknown
    have hid' : o'.id = cur.id := hstep.id_eq
    have hstatus : o'.status = a.target := hstep.status_eq
    have hmovements : ∀ id', (d.applyAll [.item i', .movement m, .order o']).movementsOf id' =
        d.movementsOf id' ++ if id = id' then [m] else [] := by
      intro id'
      exact (movementsOf_change hch id').trans (by simp)
    have hfrom := Action.movesStock_from hmoves hallowed
    -- the movement belongs to this order alone, and its status before was not CANCELLED
    refine settled_order h (o := o') rfl (fun id' hne => ?_) (fun r hr => ?_) (fun id' hne => ?_) ?_
    · rw [hmovements, if_neg, List.append_nil]
      rintro rfl
      exact hne (hid.symm.trans hid'.symm)
    · obtain rfl : cur = r := Option.some.inj (hrow.symm.trans hr)
      rcases hfrom with ⟨_, hs⟩ | ⟨_, hs | hs⟩ <;> simp [hs]
    · refine Commit.not_cancelsPending fun heq => ?_
      obtain ⟨_, rfl⟩ := Request.transition.inj heq
      exact hne (hid.symm.trans hid'.symm)
    · -- a restoration is never the cancellation of a PENDING order
      rw [hmovements, hid', hid, if_pos rfl]
      rcases hfrom with ⟨rfl, hs⟩ | ⟨rfl, hs | hs⟩ <;>
        simp [Commit.cancelsPending, hstatus, hs, Action.target]
  | @moved a id o cur o' hstays hid hallowed hstep =>
    obtain ⟨rfl, hrow⟩ := hstep.current hknown
    have hid' : o'.id = cur.id := hstep.id_eq
    have hstatus : o'.status = a.target := hstep.status_eq
    have hfrom := Action.not_movesStock_from hstays hallowed
    -- no movement: only the cancellation of a PENDING order settles it
    refine settled_order h (o := o') rfl (fun _ _ => rfl) (fun r hr => ?_) (fun id' hne => ?_) ?_
    · obtain rfl : cur = r := Option.some.inj (hrow.symm.trans hr)
      rcases hfrom with ⟨_, hs⟩ | ⟨_, hs⟩ | ⟨_, hs⟩ <;> simp [hs]
    · refine Commit.not_cancelsPending fun heq => ?_
      obtain ⟨_, rfl⟩ := Request.transition.inj heq
      exact hne (hid.symm.trans hid'.symm)
    · have hmatch := hrecorded.movements cur hstep.row
      rcases hfrom with ⟨rfl, hs⟩ | ⟨rfl, hs⟩ | ⟨rfl, hs⟩
      · simp [Commit.cancelsPending, hstatus, Action.target]
      · simp [Commit.cancelsPending, hstatus, Action.target]
      · have hnone : d.movementsOf o'.id = [] := by
          simpa only [MatchesStatus, hs, hid'] using hmatch
        exact ⟨fun _ => ⟨hstatus, hnone⟩, fun _ => by simp [Commit.cancelsPending, hid, hid', hs]⟩

/-- In every log without stale changes, overwritten quantities or not. -/
theorem Log.settled {A : Allow} {d : Db} {wal : List Commit} (h : Log A Db.empty wal d)
    (hstale : ¬A.stale) : Settled d wal := by
  induction h with
  | nil =>
    intro id
    refine ⟨fun h => absurd h Bool.false_ne_true, ?_⟩
    rintro ⟨o, ho, _⟩
    cases ho
  | snoc hlog heff _ ih =>
    exact settled_step hstale (fun _ ho => hlog.knownOrder Db.consistent_empty ho)
      (hlog.recorded Db.consistent_empty .empty hstale) ih heff

/-! ## The refund value -/

/-- The order has a DEDUCTION and a RESTORATION. -/
def Db.refunded (d : Db) (o : Order) : Bool :=
  (d.movementsOf o.id).any (·.movementType = .deduction) &&
    (d.movementsOf o.id).any (·.movementType = .restoration)

/-- What the refunded CANCELLED orders since `since` are worth. -/
def Db.refundWorth (d : Db) (since : Timestamp) : Int :=
  ((d.orders.rows.filter fun o =>
    o.status = .cancelled && decide (since ≤ o.createdAt) && d.refunded o).map d.worth).sum

/-- A CANCELLED order has been refunded unless it was cancelled while PENDING. -/
theorem refunded_iff {d : Db} {wal : List Commit} (hrecorded : Recorded d)
    (hsettled : Settled d wal)
    {o : Order} (ho : o ∈ d.orders.rows) (hstatus : o.status = .cancelled) :
    d.refunded o = true ↔ ¬CancelledPending wal o.id := by
  have hrow := Table.find?_of_mem ho
  have hpending : CancelledPending wal o.id ↔ d.movementsOf o.id = [] := by
    rw [hsettled o.id, hrow]
    simp [hstatus]
  have hmatch := hrecorded.movements o hrow
  simp only [MatchesStatus, hstatus] at hmatch
  rw [hpending, Db.refunded]
  rcases hmatch with hnone | ⟨m, m', hms, ⟨_, htype, _⟩, ⟨_, htype', _⟩⟩
  · simp [hnone]
  · simp [hms, htype, htype']

/-- Leaving positive terms out of a sum makes it smaller. -/
private theorem sum_filter_and {α : Type} {f : α → Int} {p q : α → Bool} {as : List α}
    (hpos : ∀ a ∈ as, 0 < f a) :
    ((as.filter fun a => p a && q a).map f).sum ≤ ((as.filter p).map f).sum ∧
      (((as.filter p).map f).sum = ((as.filter fun a => p a && q a).map f).sum ↔
        ∀ a ∈ as, p a = true → q a = true) := by
  induction as with
  | nil => simp
  | cons a as ih =>
    obtain ⟨hle, hiff⟩ := ih fun b hb => hpos b (List.mem_cons_of_mem _ hb)
    have ha := hpos a List.mem_cons_self
    rw [List.forall_mem_cons, ← hiff]
    by_cases hp : p a = true
    · by_cases hq : q a = true
      · simp [hp, hq, hle]
      · simp only [List.filter_cons, hp, hq, Bool.and_false, ↓reduceIte, List.map_cons,
          List.sum_cons, Bool.false_eq_true, forall_const, false_and, iff_false]
        omega
    · simp [hp, hle]

/-- Every order is worth something. -/
private theorem worth_pos {d : Db} (hd : d.Consistent) {o : Order} (ho : o ∈ d.orders.rows) :
    0 < d.worth o := by
  obtain ⟨i, hi⟩ := Option.isSome_iff_exists.mp (hd o ho)
  rw [Db.worth_of_find? hi]
  exact mul_pos i.ckPricePositive o.ckQuantityPositive

/-- Requests of any kind one after another, through the HTTP layer. -/
abbrev serialRequests (cache : CacheService) :
    List (system ⟨.http, cache⟩).Label → (system ⟨.http, cache⟩).Config → Prop :=
  serialRuns ⟨.http, cache⟩ (fun _ _ => True) Db.empty

/-- The commits of a serial run: no change is stale. -/
theorem serialRequests.log {cache : CacheService} {ls : List (system ⟨.http, cache⟩).Label}
    {c : (system ⟨.http, cache⟩).Config} (hrun : serialRequests cache ls c) :
    Log ⟨True, False, True⟩ Db.empty c.st.wal c.st.db := by
  have hcurrent := SysRun.current Db.consistent_empty (fun _ _ h => h.2) hrun
  exact log_of_run Db.consistent_empty (fun _ => trivial)
    (fun c l hl => hl.2.mono fun _ _ _ _ hcheck =>
      ⟨Or.inr (Or.inr hcheck), Or.inl trivial⟩) hcurrent

/-- The reported refund value is the worth of the refunded orders of the window exactly
    if no order of the window was cancelled while it was PENDING. -/
theorem refund_value {cache : CacheService} {ls : List (system ⟨.http, cache⟩).Label}
    {c : (system ⟨.http, cache⟩).Config} (hrun : serialRequests cache ls c) {now : Timestamp}
    {days : Int} {r : OrderAnalytics}
    (hr : (AnalyticsService.getOrderAnalytics now days).on c.st.db = .ok r) :
    r.refundValue.value = (⟨c.st.db.refundWorth (since now days), -2⟩ : Decimal).value ↔
      ∀ o ∈ c.st.db.orders.rows,
        since now days ≤ o.createdAt → ¬CancelledPending c.st.wal o.id := by
  have hlog := hrun.log
  have hconsistent := hlog.consistent Db.consistent_empty
  have hrecorded := hlog.recorded Db.consistent_empty .empty id
  have hsettled := hlog.settled id
  obtain ⟨_, _, rfl⟩ := getOrderAnalytics_on.mp hr
  have hvalue : ∀ x y : Int, (⟨x, -2⟩ : Decimal).value = (⟨y, -2⟩ : Decimal).value ↔ x = y := by
    intro x y
    simp [Decimal.value]
  -- every order is worth something, so leaving out one shows in the sum
  have hpos : ∀ o ∈ c.st.db.orders.rows, 0 < c.st.db.worth o := fun o => worth_pos hconsistent
  have hsum := (sum_filter_and (q := c.st.db.refunded)
    (p := fun o => o.status = .cancelled && decide (since now days ≤ o.createdAt)) hpos).2
  rw [Db.orderAnalytics, hvalue, Db.worthOf, Db.refundWorth, hsum]
  refine forall₂_congr fun o ho => ?_
  simp only [Bool.and_eq_true, decide_eq_true_eq]
  constructor
  · intro h hwindow hcancelled
    obtain ⟨o', ho', hstatus, _⟩ := (hsettled o.id).mp hcancelled
    obtain rfl : o = o' := Option.some.inj ((Table.find?_of_mem ho).symm.trans ho')
    exact (refunded_iff hrecorded hsettled ho hstatus).mp (h ⟨hstatus, hwindow⟩) hcancelled
  · rintro h ⟨hstatus, hwindow⟩
    exact (refunded_iff hrecorded hsettled ho hstatus).mpr (h hwindow)

/-- An order is confirmed and cancelled. -/
def refunding : List (system ⟨.http, ⟨false⟩⟩).Label := inTurn [
  (.createItem { name := "Tea", price := 350, stockQuantity := 10 }, [0, 0, 1, 0, 0]),
  (.placeOrder { itemId := 0, quantity := 3 }, [0, 2, 0, 0, 0]),
  (.transition .confirm 2, [0, 0, 0, 3, 0, 0, 0, 0, 0]),
  (.transition .cancel 2, [0, 0, 0, 4, 0, 0, 0, 0, 0])]

/-- One order cancelled while `PENDING` and one after its confirmation. -/
theorem refund_value_refunding : ∃ c, serialRequests ⟨false⟩ refunding c ∧
    ∃ r, (AnalyticsService.getOrderAnalytics 0).on c.st.db = .ok r ∧ r.refundValue = ⟨1050, -2⟩ ∧
      r.refundValue.value = (⟨c.st.db.refundWorth (since 0 30), -2⟩ : Decimal).value := by
  obtain ⟨c, hrun, hr, hnone⟩ : ∃ c, serialRequests ⟨false⟩ refunding c ∧
      (AnalyticsService.getOrderAnalytics 0).on c.st.db =
        .ok ⟨1, 0, 0, 0, 0, 1, 0, ⟨0, -2⟩, ⟨1050, -2⟩⟩ ∧
      ∀ o ∈ c.st.db.orders.rows, since 0 30 ≤ o.createdAt → ¬CancelledPending c.st.wal o.id :=
    serialRuns_of_decide (by decide +kernel) (by decide +kernel)
  exact ⟨c, hrun, _, hr, rfl, (refund_value hrun hr).mpr hnone⟩

/-- In `trading` 3.50 are refunded, and 7.00 belong to the order that was cancelled while
    PENDING: the report says 10.50. -/
theorem refund_overstated : ¬∀ ls c, serialRequests ⟨false⟩ ls c → ∀ now days r,
    (AnalyticsService.getOrderAnalytics now days).on c.st.db = .ok r →
      r.refundValue.value = (⟨c.st.db.refundWorth (since now days), -2⟩ : Decimal).value := by
  intro hall
  obtain ⟨c, hrun, hr, hworth⟩ : ∃ c, serialRequests ⟨false⟩ trading c ∧
      (AnalyticsService.getOrderAnalytics 0).on c.st.db =
        .ok ⟨4, 0, 1, 0, 0, 2, 1, ⟨0, -2⟩, ⟨1050, -2⟩⟩ ∧ c.st.db.refundWorth (since 0 30) = 350 :=
    serialRuns_of_decide (by decide +kernel) (by decide +kernel)
  have hbad := hall _ c hrun 0 30 _ hr
  rw [hworth] at hbad
  norm_num [Decimal.value] at hbad

end Nova
