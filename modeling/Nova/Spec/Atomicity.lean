import Nova.ForStd.Text
import Nova.Spec.Conservation

/-!
# Failed requests

What a request that answers an error may have committed. Where every optimistic
check made after a write finds the version it expects, a 4xx leaves all tables
alone, with the one exception of a confirmation that reports too little stock,
which has rejected its order and nothing else (`failed_atomic`).
`failed_not_atomic` is a 409 that commits a deduction.
-/

namespace Nova

open Machine

/-- The one change of the request `x`: its order goes from PENDING to REJECTED. -/
def Tx.rejects (x : Tx) : Prop :=
  ∃ d o o', x.req = .transition .confirm o.id ∧ x.commit = some (d, [.order o']) ∧
    d.orders.find? o.id = some o ∧ o.status = .pending ∧
    o' = { o with status := .rejected, version := o.version + 1, updatedAt := o'.updatedAt }

/-- The request `x` has committed no row version. -/
def Tx.commitsNothing (x : Tx) : Prop := ∀ d ws, x.commit = some (d, ws) → ws = []

/-- The response `r` to the request `req` is `confirm_order`'s 422 for insufficient stock. -/
def Shortage (req : Request) (r : Response) : Prop :=
  (∃ id, req = .transition .confirm id) ∧ ∃ itemId requested available,
    r = .error 422 (Exc.insufficientStock itemId requested available).message

/-- If `x` has answered with a 4xx, then it has rejected its order where it reports a
    shortage, and committed nothing in every other case. -/
def Tx.atomic (x : Tx) : Prop :=
  ∀ r, x.response = some r → 400 ≤ r.status → r.status < 500 →
    (Shortage x.req r → x.rejects) ∧ (¬Shortage x.req r → x.commitsNothing)

/-- The two messages of a 422 of `confirm_order` can be told apart. -/
theorem Exc.message_ne (current requested : OrderStatus) (itemId : Uuid) (asked available : Int) :
    (Exc.invalidTransition current requested).message ≠
      (Exc.insufficientStock itemId asked available).message := by
  unfold Exc.message
  simp only [toString, String.append_assoc]
  exact Text.append_ne_append _ _ (c := 'C') (d := 'I') (by decide +kernel) (by decide +kernel)
    (by decide)

/-- A refused request does not report a shortage of the stock for a confirmation: with too
    little stock the order is rejected instead. -/
theorem Refusal.not_shortage {d₀ d : Db} {wal : List Commit} {req : Request}
    {read : Option Order} {e : Exc} (h : Refusal d₀ wal d req read e) :
    ¬Shortage req (.error e.statusCode e.message) := by
  rintro ⟨⟨id, rfl⟩, itemId, requested, available, hr⟩
  obtain ⟨hstatus, hmessage⟩ := Response.error.inj hr
  cases h with
  | noItem hid => cases hid
  | noOrder | conflict => simp [Exc.statusCode] at hstatus
  -- also a 422, with another message
  | invalid => exact Exc.message_ne _ _ _ _ _ hmessage

/-- An effect that ends in an exception is the rejection of an order, which the answer
    reports, or a refusal; a stale change is excluded. -/
theorem Committed.fails {A : Allow} {d₀ d : Db} {wal : List Commit} {x : Tx} {e : Exc}
    {ws : List Write} (hd₀ : d₀.Consistent) (hstale : ¬A.stale) (hcommit : x.commit = some (d, ws))
    (h : Committed A d₀ wal d x.req x.read (some e) ws) :
    x.rejects ∧ Shortage x.req (.error e.statusCode e.message) ∨
      x.commitsNothing ∧ ¬Shortage x.req (.error e.statusCode e.message) := by
  obtain ⟨wal', _, hlog, heff⟩ := h
  generalize hreq : x.req = req at heff ⊢
  generalize hread : x.read = read at heff
  cases heff with
  | refused hrefusal =>
    refine Or.inr ⟨fun d' ws' hcommit' => ?_, hrefusal.not_shortage⟩
    exact (Prod.mk.inj (Option.some.inj (hcommit.symm.trans hcommit'))).2.symm
  | stale _ hstale' => exact absurd hstale' hstale
  | rejected _ hid hallowed _ _ he hstep =>
    -- the version that was rejected is the one that was read
    obtain ⟨cur', hknown⟩ := hlog.knownOrder hd₀ hstep.known
    obtain rfl := hstep.eq_read hknown
    subst he hid
    refine Or.inl ⟨?_, ⟨_, rfl⟩, _, _, _, rfl⟩
    exact ⟨d, _, _, hreq, hcommit, hstep.row, canTransitionTo_confirmed hallowed, hstep.next⟩

/-- Runs of current checks: every request that ends with a 4xx is atomic. -/
theorem failed_atomic {cache : CacheService} {ls : List (system ⟨.http, cache⟩).Label}
    {c : (system ⟨.http, cache⟩).Config} {t : TxId} (hrun : currentRuns ⟨.http, cache⟩ ls c)
    (ht : Ends c t) : ∃ x, c.st.txs t = some x ∧ x.atomic := by
  obtain ⟨x, hx, hfin⟩ := finished_of_run (A := ⟨True, False, True⟩) Db.consistent_empty
    (fun _ => trivial)
    (fun c l hl => hl.mono fun _ _ _ _ hcheck => ⟨Or.inr (Or.inr hcheck), Or.inl trivial⟩) hrun
    rfl ht
  refine ⟨x, hx, fun r hr hlow hhigh => ?_⟩
  cases hfin with
  | committed d ws e r' hcommit _ heff hr' hanswer =>
    obtain rfl : r = r' := Option.some.inj (hr.symm.trans hr')
    cases e with
    | none =>
      -- a response below 400 is none of those the statement is about
      obtain ⟨body, rfl⟩ := hanswer
      have := x.req.successStatus_lt
      simp only [Response.status] at hlow
      omega
    | some e =>
      obtain ⟨_, rfl⟩ := hanswer
      rcases heff.fails Db.consistent_empty id hcommit with ⟨hrejects, hshort⟩ | ⟨hnothing, hno⟩
      · exact ⟨fun _ => hrejects, fun hno => absurd hshort hno⟩
      · exact ⟨fun hshort => absurd hshort hno, fun _ => hnothing⟩
  | invalid hcommit hvalid _ _ =>
    have hnothing : x.commitsNothing := fun d ws hws => nomatch hcommit.symm.trans hws
    refine ⟨fun hshort => ?_, fun _ => hnothing⟩
    -- request validation passes every confirmation
    obtain ⟨⟨id, hreq⟩, _⟩ := hshort
    rw [hreq] at hvalid
    cases hvalid
  | failed _ hdetail =>
    obtain ⟨detail, hr'⟩ := hdetail
    obtain rfl : r = .error 500 detail := Option.some.inj (hr.symm.trans hr')
    simp only [Response.status] at hhigh
    omega
  | cancelled _ hnone => cases hr.symm.trans hnone
  | lost r' _ hr' hanswer =>
    obtain rfl : r = r' := Option.some.inj (hr.symm.trans hr')
    obtain ⟨body, rfl⟩ := hanswer
    have := x.req.successStatus_lt
    simp only [Response.status] at hlow
    omega

/-- The confirmation of an order for more than is in stock. -/
def httpShortage : List (system ⟨.http, ⟨true⟩⟩).Label :=
  [.start 0 (.createItem { name := "Tea", price := 350, stockQuantity := 2 })] ++
  turns 0 [0, 0, 1, 0, 0, 0] ++
  [.start 1 (.placeOrder { itemId := 0, quantity := 3 })] ++ turns 1 [0, 2, 0, 0, 0] ++
  [.start 2 (.transition .confirm 2)] ++ turns 2 [0, 0, 0, 0, 0]

/-- It answers with the shortage and leaves order 2 REJECTED at version 2, and the item and
    its one movement as they were. -/
theorem failed_atomic_shortage : ∃ c x, currentRuns ⟨.http, ⟨true⟩⟩ httpShortage c ∧ Ends c 2 ∧
    c.st.txs 2 = some x ∧ x.atomic ∧ x.rejects ∧
    x.response = some (.error 422 "Insufficient stock for item 0: requested 3, available 2") ∧
    (c.st.db.orders.find? 2).map (fun o => (o.status, o.version)) = some (.rejected, 2) ∧
    (c.st.db.items.find? 0).map (fun i => (i.stockQuantity, i.version)) = some (2, 1) ∧
    c.st.db.movements.rows.length = 1 := by
  obtain ⟨c, hrun, hval⟩ : ∃ c, currentRuns ⟨.http, ⟨true⟩⟩ httpShortage c ∧
      decide (Ends c 2 ∧ (c.st.txs 2).map (fun x => (x.req, x.response)) =
          some (.transition .confirm 2,
            some (.error 422 "Insufficient stock for item 0: requested 3, available 2")) ∧
        (c.st.db.orders.find? 2).map (fun o => (o.status, o.version)) = some (.rejected, 2) ∧
        (c.st.db.items.find? 0).map (fun i => (i.stockQuantity, i.version)) = some (2, 1) ∧
        c.st.db.movements.rows.length = 1) = true :=
    Run.of_eval _ (by decide +kernel) (by decide +kernel)
  obtain ⟨hends, hanswer, horder, hitem, hmovements⟩ := of_decide_eq_true hval
  obtain ⟨x, hx, hatomic⟩ := failed_atomic hrun hends
  simp only [hx, Option.map_some, Option.some.injEq, Prod.mk.injEq] at hanswer
  obtain ⟨hreq, hr⟩ := hanswer
  have hshort : Shortage x.req
      (.error 422 "Insufficient stock for item 0: requested 3, available 2") :=
    ⟨⟨2, hreq⟩, 0, 3, 2, congrArg (Response.error 422) (by decide +kernel)⟩
  have hrejects := (hatomic _ hr (by decide) (by decide)).1 hshort
  exact ⟨c, x, hrun, hends, hx, hatomic, hrejects, hr, horder, hitem, hmovements⟩

/-- In the race of two confirmations the 409 commits a deduction. -/
theorem failed_not_atomic : ¬∀ ls c t, SysRun ⟨.http, ⟨false⟩⟩ (fun _ _ => True) Db.empty ls c →
    Ends c t → ∃ x, c.st.txs t = some x ∧ x.atomic := by
  intro hall
  obtain ⟨c, hrun, hval⟩ : ∃ c, SysRun ⟨.http, ⟨false⟩⟩ (fun _ _ => True) Db.empty httpRace c ∧
      (decide (Ends c 3), (c.st.txs 3).map fun x => (x.req, x.response.map Response.status,
        x.commit.map (·.2.length))) =
      (true, some (.transition .confirm 2, some 409, some 2)) :=
    Run.of_eval (fun c : (system ⟨.http, ⟨false⟩⟩).Config => (decide (Ends c 3),
      (c.st.txs 3).map fun x => (x.req, x.response.map Response.status,
        x.commit.map (·.2.length)))) (by decide +kernel) (by decide +kernel)
  simp only [Prod.mk.injEq, decide_eq_true_eq] at hval
  obtain ⟨x, hx, hatomic⟩ := hall _ c 3 hrun hval.1
  simp only [hx, Option.map_some, Option.some.injEq, Prod.mk.injEq, Option.map_eq_some_iff] at hval
  obtain ⟨_, hreq, ⟨r, hr, hstatus⟩, ⟨d, ws⟩, hcommit, hlength⟩ := hval
  -- a 409 that is no shortage may not commit anything, and this one commits two rows
  have hno : ¬Shortage x.req r := by
    rintro ⟨_, _, _, _, rfl⟩
    cases hstatus
  have hnothing : x.commitsNothing := (hatomic r hr (by omega) (by omega)).2 hno
  obtain rfl := hnothing d ws hcommit
  cases hlength

end Nova
