import Nova.Spec.Runs

/-!
# Serial runs

Runs in which a request is started only when all earlier ones have ended. At most one
request is then under way, and what it has read stays current until it commits
(`SysRun.serial_invariant`). So its optimistic check finds the version that it
expects, and a serial run is one of current checks (`SysRun.current`).
-/

namespace Nova

open Machine

variable {cfg : Config} {A : Allow} {d₀ : Db}
  {ok : (system cfg).Config → (system cfg).Label → Prop} {ls : List (system cfg).Label}
  {c : (system cfg).Config}

/-- A request is started only at rest. -/
def OneAtATime (c : (system cfg).Config) : (system cfg).Label → Prop
  | .start _ _ => AtRest c
  | .step _ _ | .tick _ => True

/-- Requests are started in the order of their numbers, each after the one before has
    ended. -/
def InOrder (c : (system cfg).Config) : (system cfg).Label → Prop
  | .start t _ => ∀ t' < t, Ends c t'
  | .step _ _ | .tick _ => True

instance (c : (system cfg).Config) : ∀ l, Decidable (InOrder c l)
  | .start t _ => inferInstanceAs (Decidable (∀ t' < t, Ends c t'))
  | .step _ _ | .tick _ => isTrue trivial

/-- An extra condition on the moves of a run may be shown where each move is made, when
    all earlier ones have met it. -/
theorem SysRun.also {ok' : (system cfg).Config → (system cfg).Label → Prop}
    (h : ∀ ls c l c', SysRun cfg (fun c l => ok c l ∧ ok' c l) d₀ ls c → ok c l →
      c.next l = some c' → ok' c l)
    (hrun : SysRun cfg ok d₀ ls c) : SysRun cfg (fun c l => ok c l ∧ ok' c l) d₀ ls c := by
  induction hrun with
  | nil => exact .nil
  | snoc _ hl hnext ih => exact ih.snoc ⟨hl, h _ _ _ _ ih hl hnext⟩ hnext

/-- Requests started in order are started one at a time. -/
theorem SysRun.oneAtATime (hok : ∀ c l, ok c l → InOrder c l) (hrun : SysRun cfg ok d₀ ls c) :
    SysRun cfg (fun c l => ok c l ∧ OneAtATime c l) d₀ ls c := by
  -- the started requests are an initial segment
  have hsegment : ∀ {ls c}, SysRun cfg ok d₀ ls c → ∀ t t', t' < t → c.pool t ≠ none →
      c.pool t' ≠ none := by
    intro ls c hrun
    induction hrun with
    | nil => exact fun t t' _ h => absurd rfl h
    | @snoc ls c l c' _ hl hnext ih =>
      have hgrow : ∀ t p t', c.pool t' ≠ none → Function.update c.pool t (some p) t' ≠ none := by
        intro t p t' h
        rw [Function.update_apply]
        split
        · exact Option.some_ne_none p
        · exact h
      cases l with
      | start t req =>
        obtain ⟨_, rfl⟩ := next_start hnext
        intro u u' hu hpool
        by_cases hut : u = t
        · have hends : Ends c u' := hok c _ hl u' (hut ▸ hu)
          exact hgrow t _ u' (by rw [hends]; exact Option.some_ne_none _)
        · simp only [Function.update_of_ne hut] at hpool
          exact hgrow t _ u' (ih u u' hu hpool)
      | step t e =>
        obtain ⟨_, _, _, _, hcall, _, rfl⟩ := next_step hnext
        intro u u' hu hpool
        refine hgrow t _ u' (ih u u' hu ?_)
        by_cases hut : u = t
        · rw [hut, hcall]
          exact Option.some_ne_none _
        · simpa only [Function.update_of_ne hut] using hpool
      | tick id =>
        obtain rfl := next_tick hnext
        exact ih
  refine SysRun.also (fun ls c l c' hpre hl hnext => ?_) hrun
  cases l with
  | start t req =>
    obtain ⟨hnone, _⟩ := next_start hnext
    intro t'
    by_cases ht : t' < t
    · exact Or.inr (hok c _ hl t' ht)
    · left
      by_contra hpool
      rcases Nat.lt_or_ge t t' with hlt | hge
      · exact hsegment (hpre.mono fun _ _ h => h.1) t' t hlt hpool hnone
      · have heq : t' = t := by omega
        rw [heq] at hpool
        exact hpool hnone
  | step | tick => trivial

/-- Serial runs of requests. -/
abbrev serialRuns (cfg : Config) (ok : (system cfg).Config → (system cfg).Label → Prop) (d₀ : Db) :
    List (system cfg).Label → (system cfg).Config → Prop :=
  SysRun cfg (fun c l => ok c l ∧ OneAtATime c l) d₀

/-- To exhibit a serial run, start its requests in order. -/
theorem serialRuns_of_eval [∀ c l, Decidable (ok c l)] {β : Type}
    (f : (system cfg).Config → β) {b : β}
    (hrun : (((system cfg).idle (Sys.init d₀)).run ls).map f = some b)
    (hok : ((system cfg).idle (Sys.init d₀)).Allows (fun c l => ok c l ∧ InOrder c l) ls) :
    ∃ c, serialRuns cfg ok d₀ ls c ∧ f c = b := by
  obtain ⟨c, hc, hval⟩ := Run.of_eval f hrun hok
  have hserial := SysRun.oneAtATime (fun _ _ h => h.2) hc
  exact ⟨c, hserial.mono fun _ _ h => ⟨h.1.1, h.2⟩, hval⟩

/-- In a serial run at most one request is under way, and it knows `J`. -/
private theorem serial_step {J : TxId → Tx → Sys → Prop} (hd₀ : d₀.Consistent)
    (hexc : cfg.harness = .http → A.exceptions)
    (hok : ∀ c l, ok c l → OnCall (Admitted cfg A) c l)
    (hserial : ∀ c l, ok c l → OneAtATime c l)
    (hstart : ∀ t req (s : Sys), J t { req } (s.start t req))
    (hstep : ∀ c t e o k x r s' x', ok c (.step t e) → c.pool t = some (.call o k) →
      Awaits cfg A d₀ t x o c.st → exec e t o c.st = some (r, s') → s'.txs t = some x' →
      J t x c.st → J t x' s')
    (htick : ∀ t x s id, J t x s → J t x (s.expire id)) (hrun : SysRun cfg ok d₀ ls c) :
    ∀ t, c.pool t ≠ none → ¬Ends c t →
      (∀ t', c.pool t' ≠ none → ¬Ends c t' → t' = t) ∧ ∀ x, c.st.txs t = some x → J t x c.st := by
  refine SysRun.invariant hd₀ hexc hok (I := fun c => ∀ t, c.pool t ≠ none → ¬Ends c t →
    (∀ t', c.pool t' ≠ none → ¬Ends c t' → t' = t) ∧ ∀ x, c.st.txs t = some x → J t x c.st)
    (fun t h => absurd rfl h) (fun c l c' hholds ih hl hnext => ?_) hrun
  cases l with
  | start t req =>
    obtain ⟨_, rfl⟩ := next_start hnext
    have hrest : AtRest c := hserial c _ hl
    -- whoever else is active would have been active before
    have honly : ∀ t', Function.update c.pool t (some ((system cfg).code req)) t' ≠ none →
        ¬Function.update c.pool t (some ((system cfg).code req)) t' = some (.ret ()) → t' = t := by
      intro t' hp hne
      by_contra ht
      rw [Function.update_of_ne ht] at hp hne
      exact (hrest t').elim hp hne
    intro u hu hactive
    obtain rfl := honly u hu hactive
    refine ⟨honly, fun x hx => ?_⟩
    obtain rfl : { req } = x := Option.some.inj ((Sys.setTx_txs_self _).symm.trans hx)
    exact hstart u req c.st
  | step t e =>
    obtain ⟨o, k, r, s, hcall, hexec, rfl⟩ := next_step hnext
    obtain ⟨x, hx, hreadOnly, hpre⟩ := hholds.pre (contract_holds hd₀ hexc) hcall
    obtain ⟨honly, hJ⟩ := ih t (by simp [hcall]) (not_ends_of_call hcall)
    have honly' : ∀ t', Function.update c.pool t (some (k r)) t' ≠ none →
        ¬Function.update c.pool t (some (k r)) t' = some (.ret ()) → t' = t := by
      intro t' hp hne
      by_contra ht
      rw [Function.update_of_ne ht] at hp hne
      exact ht (honly t' hp hne)
    intro u hu hactive
    obtain rfl := honly' u hu hactive
    refine ⟨honly', fun x' hx' => ?_⟩
    exact hstep c u e o k x r s x' hl hcall ⟨hholds.1, hx, hreadOnly, hpre⟩ hexec hx' (hJ x hx)
  | tick id =>
    obtain rfl := next_tick hnext
    exact fun u hu hactive => ⟨(ih u hu hactive).1,
      fun x hx => htick u x c.st id ((ih u hu hactive).2 x hx)⟩

/-- At most one request of a serial run is under way. -/
theorem SysRun.only (hd₀ : d₀.Consistent) (hserial : ∀ c l, ok c l → OneAtATime c l)
    (hrun : SysRun cfg ok d₀ ls c) {t t' : TxId} (ht : c.pool t ≠ none) (hactive : ¬Ends c t)
    (ht' : t' ≠ t) : c.pool t' = none ∨ Ends c t' := by
  have honly := (serial_step (J := fun _ _ _ => True) hd₀ (fun _ => trivial)
    (A := ⟨True, True, True⟩) (fun c l _ => admitted_any c l) hserial
    (fun _ _ _ => trivial) (fun _ _ _ _ _ _ _ _ _ _ _ _ _ _ _ => trivial)
    (fun _ _ _ _ _ => trivial) hrun t ht hactive).1
  by_cases hpool : c.pool t' = none
  · exact Or.inl hpool
  · right
    by_contra hends
    exact ht' (honly t' hpool hends)

/-- The step rule for serial runs: `J` is what the request under way knows. -/
theorem SysRun.serial_invariant {J : TxId → Tx → Sys → Prop} (hd₀ : d₀.Consistent)
    (hexc : cfg.harness = .http → A.exceptions)
    (hok : ∀ c l, ok c l → OnCall (Admitted cfg A) c l)
    (hserial : ∀ c l, ok c l → OneAtATime c l)
    (hstart : ∀ t req (s : Sys), J t { req } (s.start t req))
    (hstep : ∀ c t e o k x r s' x', ok c (.step t e) → c.pool t = some (.call o k) →
      Awaits cfg A d₀ t x o c.st → exec e t o c.st = some (r, s') → s'.txs t = some x' →
      J t x c.st → J t x' s')
    (htick : ∀ t x s id, J t x s → J t x (s.expire id)) (hrun : SysRun cfg ok d₀ ls c)
    {t : TxId} {x : Tx} {p : Code Unit} (hpool : c.pool t = some p) (hactive : ¬Ends c t)
    (hx : c.st.txs t = some x) : J t x c.st :=
  (serial_step hd₀ hexc hok hserial hstart hstep htick hrun t (by simp [hpool]) hactive).2 x hx

/-- The schedule that makes each of some requests in turn, with the ids that its calls are
    given. -/
def inTurn (requests : List (Request × List Uuid)) : List (system cfg).Label :=
  requests.zipIdx.flatMap fun r => .start r.2 r.1.1 :: turns r.2 r.1.2

/-- To exhibit a serial run, follow a schedule and decide what is wanted of its end. -/
theorem serialRuns_of_decide [∀ c l, Decidable (ok c l)] {P : (system cfg).Config → Prop}
    [DecidablePred P]
    (hrun : (((system cfg).idle (Sys.init d₀)).run ls).any (fun c => decide (P c)) = true)
    (hok : ((system cfg).idle (Sys.init d₀)).Allows (fun c l => ok c l ∧ InOrder c l) ls) :
    ∃ c, serialRuns cfg ok d₀ ls c ∧ P c := by
  have hval : (((system cfg).idle (Sys.init d₀)).run ls).map (fun c => decide (P c)) =
      some true := by
    cases hc : ((system cfg).idle (Sys.init d₀)).run ls with
    | none => simp [hc] at hrun
    | some c => simpa [hc] using hrun
  obtain ⟨c, hc, hp⟩ := serialRuns_of_eval (fun c => decide (P c)) hval hok
  exact ⟨c, hc, of_decide_eq_true hp⟩

/-- The same for two states of one run. -/
theorem serialRuns_of_decide₂ [∀ c l, Decidable (ok c l)] {ls' : List (system cfg).Label}
    {P : (system cfg).Config → (system cfg).Config → Prop} [∀ c c', Decidable (P c c')]
    (hrun : (((system cfg).idle (Sys.init d₀)).run ls).any
      (fun c => (c.run ls').any fun c' => decide (P c c')) = true)
    (hok : ((system cfg).idle (Sys.init d₀)).Allows (fun c l => ok c l ∧ InOrder c l) (ls ++ ls')) :
    ∃ c c', serialRuns cfg ok d₀ ls c ∧ Run (fun c l => ok c l ∧ OneAtATime c l) c ls' c' ∧
      P c c' := by
  obtain ⟨c, hc, hrest⟩ := (Option.any_eq_true _ _).mp hrun
  obtain ⟨c', hc', hp⟩ := (Option.any_eq_true _ _).mp hrest
  have hall : ((system cfg).idle (Sys.init d₀)).run (ls ++ ls') = some c' := by
    rw [Config.run_append, hc, Option.bind_some, hc']
  have hserial : serialRuns cfg ok d₀ (ls ++ ls') c' :=
    (SysRun.oneAtATime (fun _ _ h => h.2) (Run.of_run hall hok)).mono fun _ _ h => ⟨h.1.1, h.2⟩
  obtain ⟨c₁, h₁, h₂⟩ := hserial.split
  obtain rfl : c = c₁ := Option.some.inj (hc.symm.trans h₁.run_eq)
  exact ⟨c, c', h₁, h₂, of_decide_eq_true hp⟩

/-! ## What has been read is current -/

/-- Until it commits, the order that an action has read is the committed row. -/
def Tx.ReadsCurrent (x : Tx) (s : Sys) : Prop :=
  x.commit = none → ∀ a id, x.req = .transition a id → ∀ o, x.read = some o →
    s.db.orders.find? o.id = some o

/-- On its own a request goes on reading the committed tables. -/
theorem Tx.ReadsCurrent.step {e : Env} {o : Stmt} {t : TxId} {x x' : Tx} {s s' : Sys} {r : o.Res}
    (h : x.ReadsCurrent s) (haw : Awaits cfg A d₀ t x o s) (hexec : exec e t o s = some (r, s'))
    (hx' : s'.txs t = some x') : x'.ReadsCurrent s' := by
  obtain ⟨y, hy, hnotes⟩ := exec_notes haw.tx hexec
  obtain rfl : y = x' := Option.some.inj (hy.symm.trans hx')
  obtain ⟨x₁, hx₁, hmove⟩ := exec_move hexec
  obtain rfl : x₁ = x := Option.some.inj (hx₁.symm.trans haw.tx)
  intro hcommit a id hreq o hread
  -- a commit ends the claim, and a move does not commit
  rcases hmove with hmove | ⟨_, _, rfl⟩
  · obtain ⟨_, hdb, z, htxs, hkeeps⟩ := hmove.frame haw.tx
    obtain rfl : z = y := by
      rw [htxs, Function.update_self] at hx'
      exact Option.some.inj hx'
    rw [hdb]
    have hcommit' := hkeeps.commit.symm.trans hcommit
    have hreq' := hkeeps.req.symm.trans hreq
    rcases hnotes.read with hsame | ⟨oid, rfl, hselect⟩
    · -- nothing was read now
      exact h hcommit' a id hreq' o (hsame ▸ hread)
    · rw [hselect] at hread
      -- an order was read now
      rcases haw.pre with ⟨b, hb⟩ | hsome | hwrites
      · cases hreq'.symm.trans hb
      · -- the first order that was read is the one that is kept
        obtain ⟨o', ho'⟩ := Option.isSome_iff_exists.mp hsome
        rw [ho', Option.some_or] at hread
        exact h hcommit' a id hreq' o (ho'.trans hread)
      · -- it is the first one, read before anything was written: the row of the table
        cases hold : x₁.read with
        | some o' =>
          rw [hold, Option.some_or] at hread
          exact h hcommit' a id hreq' o (hold.trans hread)
        | none =>
          rw [hold, Option.none_or, Sys.view, hwrites] at hread
          rwa [Table.key_of_find? hread]
  · obtain rfl := Option.some.inj ((Sys.setTx_txs_self _).symm.trans hx')
    cases hcommit

/-- All optimistic checks of a serial run find the version they expect. -/
theorem SysRun.current (hd₀ : d₀.Consistent) (hserial : ∀ c l, ok c l → OneAtATime c l)
    (hrun : SysRun cfg ok d₀ ls c) :
    SysRun cfg (fun c l => ok c l ∧ OnCall (fun e t o s => CurrentCheck e t o s = true) c l)
      d₀ ls c := by
  have hadmits : ∀ c l, ok c l → OnCall (Admitted cfg ⟨True, True, True⟩) c l :=
    fun c l _ => admitted_any c l
  refine SysRun.also (fun ls c l c' hpre hl hnext => ?_) hrun
  cases l with
  | start | tick => trivial
  | step t e =>
    obtain ⟨o, k, r, s, hcall, _, _⟩ := next_step hnext
    simp only [OnCall, hcall]
    have hpre : SysRun cfg ok d₀ ls c := hpre.mono fun _ _ h => h.1
    have hholds := holds_of_run hd₀ (fun _ => trivial) hadmits hpre
    obtain ⟨x, hx, _, hpre'⟩ := hholds.pre (contract_holds hd₀ fun _ => trivial) hcall
    have hcurrent : x.ReadsCurrent c.st :=
      SysRun.serial_invariant (J := fun _ x s => x.ReadsCurrent s) hd₀ (fun _ => trivial) hadmits
        hserial (by intro _ _ _ _ _ _ _ _ hread; cases hread)
        (fun c t e o k x r s' x' _ _ haw hexec hx' h => h.step haw hexec hx')
        (fun _ _ _ _ h => h) hpre hcall (not_ends_of_call hcall) hx
    cases o with
    | updateOrder id v st =>
      -- the order is still as it was read, and nothing was written to it since
      obtain ⟨⟨a, hreq⟩, hcommit, _, ⟨o, hread, rfl, rfl⟩, hfirst, _⟩ : Checks x id v := hpre'
      have hrow := hcurrent hcommit a o.id hreq o hread
      have hview : (c.st.view x).orders.find? o.id = some o :=
        (congrArg (Table.find? · o.id) (Db.orders_applyAll hfirst)).trans hrow
      simp [CurrentCheck, hx, hview]
    | selectItem | selectItemForUpdate | insertItem | updateItem | selectOrder | insertOrder
    | insertMovement | redisGet | redisSetex | commit | rollback | respond => rfl

end Nova
