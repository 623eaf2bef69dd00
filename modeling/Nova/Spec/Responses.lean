import Nova.Spec.Interruption

/-!
# One response for each request

Through the HTTP layer a request sends at most one response, and when it has ended, it has
sent one unless it was cancelled before (`replies_once`). When a request has ended, its
transaction is over: it has no pending row version, is not in a failed transaction, and holds
no lock (`Closed`). Both are read off the code of one request by a protocol.
-/

namespace Nova

open Machine
open Coro (raise attempt await)

/-! ## The responses of a request -/

/-- The responses that request `t` sends along a schedule. -/
def responses {cfg : Config} (c₀ : (system cfg).Config) (t : TxId)
    (ls : List (system cfg).Label) : List Response :=
  (c₀.calls t ls).filterMap fun call => call.1.sent

/-- Among the calls of a request, an await is cancelled before a response is sent. -/
def CancelledFirst (calls : List (Σ o : Stmt, o.Res)) : Prop :=
  ∃ before o after, calls = before ++ ⟨o, .error .cancelledError⟩ :: after ∧
    ∀ call ∈ before, call.1.sent = none

/-- The calls of a program that follows `replying` send at most one response. -/
theorem sent_of_path {p p' : Code Unit} {es : List (Σ o : Stmt, o.Res)} {φ : Reply}
    {Q : Unit → Reply → Prop} (hpath : p.Path es p') (h : replying.Follows φ p Q)
    (hanswers : ∀ ev ∈ es, ev.1.answers ev.2) :
    (es.filterMap fun ev => ev.1.sent).length + (decide (φ = .sent)).toNat =
      (decide (replying.along φ es = .sent)).toNat := by
  induction hpath generalizing φ with
  | nil => exact Nat.zero_add _
  | @cons o k r es p' _ ih =>
    -- after the first await, by induction
    have hrest := ih (h.2 r (hanswers ⟨o, r⟩ List.mem_cons_self)) fun ev hev =>
      hanswers ev (List.mem_cons_of_mem _ hev)
    refine Eq.trans ?_ hrest
    have hallow : replying.allows φ o := h.1
    cases φ with
    | waiting =>
      -- the first await sends, is cancelled, or neither
      cases hsent : o.sent with
      | none => cases hc : o.interrupts r <;> simp [hsent, hc, replying, Reply.after]
      | some res => simp [hsent, replying, Reply.after]
    | sent =>
      -- nothing more is sent
      have hsent : o.sent = none := hallow
      have hcons : (⟨o, r⟩ :: es : List (Σ o : Stmt, o.Res)).filterMap (fun ev => ev.1.sent) =
          es.filterMap fun ev => ev.1.sent := List.filterMap_cons_none hsent
      rw [hcons]
      rfl
    | interrupted =>
      -- a cancelled request only rolls back
      obtain rfl : o = .rollback := hallow
      rfl

/-- The phases after the first are final. -/
theorem along_final {φ : Reply} (hφ : φ ≠ .waiting) (es : List (Σ o : Stmt, o.Res)) :
    replying.along φ es = φ := by
  induction es with
  | nil => rfl
  | cons ev es ih =>
    cases φ with
    | waiting => exact absurd rfl hφ
    | sent | interrupted => exact ih

/-- The first call is cancelled, or it sends nothing and the rest is cancelled. -/
theorem cancelledFirst_cons {o : Stmt} {r : o.Res} {es : List (Σ o : Stmt, o.Res)} :
    CancelledFirst (⟨o, r⟩ :: es) ↔
      o.interrupts r = true ∨ (o.sent = none ∧ CancelledFirst es) := by
  constructor
  · rintro ⟨_ | ⟨call, before⟩, o', after, heq, hbefore⟩
    · obtain ⟨rfl, hr⟩ := Sigma.mk.inj (List.cons.inj heq).1
      obtain rfl := eq_of_heq hr
      exact Or.inl rfl
    · obtain ⟨rfl, htail⟩ := List.cons.inj heq
      have hrest : ∀ call ∈ before, call.1.sent = none := fun call hcall =>
        hbefore call (List.mem_cons_of_mem _ hcall)
      exact Or.inr ⟨hbefore _ List.mem_cons_self, before, o', after, htail, hrest⟩
  · rintro (hcancelled | ⟨hsent, before, o', after, heq, hbefore⟩)
    · have hr : r = .error .cancelledError := by
        cases r with
        | ok a => cases hcancelled
        | error f => cases f <;> first | rfl | cases hcancelled
      exact ⟨[], o, es, by rw [hr, List.nil_append], fun _ hcall => absurd hcall List.not_mem_nil⟩
    · refine ⟨⟨o, r⟩ :: before, o', after, by rw [heq, List.cons_append], fun call hcall => ?_⟩
      rcases List.mem_cons.mp hcall with hfirst | hcall
      · rw [hfirst]
        exact hsent
      · exact hbefore call hcall

/-- A request is interrupted by the first cancellation, if it has not been answered before. -/
theorem along_interrupted {es : List (Σ o : Stmt, o.Res)}
    (hanswers : ∀ ev ∈ es, ev.1.answers ev.2) :
    replying.along .waiting es = .interrupted ↔ CancelledFirst es := by
  induction es with
  | nil => exact ⟨(fun h => by cases h),
      fun ⟨before, _, _, heq, _⟩ => by cases before <;> cases heq⟩
  | cons ev es ih =>
    obtain ⟨o, r⟩ := ev
    have hrest := ih fun ev hev => hanswers ev (List.mem_cons_of_mem _ hev)
    have ho : o.answers r := hanswers ⟨o, r⟩ List.mem_cons_self
    show replying.along (Reply.after .waiting o r) es = .interrupted ↔ _
    rw [cancelledFirst_cons]
    cases hsent : o.sent with
    | some res =>
      -- the sending of a response is not cancelled
      have hlive : o.interrupts r = false := by
        obtain rfl : o = .respond res := by
          cases o <;> simp_all [Stmt.sent]
        cases r with
        | ok a => rfl
        | error f => exact ho.elim
      have hafter : Reply.after .waiting o r = .sent := by simp [Reply.after, hsent]
      rw [hafter, along_final (φ := .sent) (by decide)]
      simp [hlive]
    | none =>
      cases hcancelled : o.interrupts r with
      | true =>
        have hafter : Reply.after .waiting o r = .interrupted := by
          simp [Reply.after, hsent, hcancelled]
        rw [hafter, along_final (φ := .interrupted) (by decide)]
        simp
      | false =>
        have hafter : Reply.after .waiting o r = .waiting := by
          simp [Reply.after, hsent, hcancelled]
        rw [hafter, hrest]
        simp

/-! ## The record of the response -/

section

variable {cfg : Config} {d₀ : Db} {ok : (system cfg).Config → (system cfg).Label → Prop}
  {ls : List (system cfg).Label} {c : (system cfg).Config}

/-- A `ROLLBACK` and the sending of a response do not fail, and a row found by its id has
    this id. -/
theorem exec_answers {e : Env} {t : TxId} {o : Stmt} {s s' : Sys} {r : o.Res}
    (h : exec e t o s = some (r, s')) : o.answers r := by
  unfold exec at h
  split at h
  · cases h
  rename_i x hx
  cases o with
  | selectItem id =>
    simp only [Stmt.isSql] at h
    split at h
    · obtain ⟨rfl, _⟩ := Prod.mk.inj (Option.some.inj h)
      trivial
    split at h
    · obtain ⟨rfl, _⟩ := Prod.mk.inj (Option.some.inj h)
      cases hfind : (s.view x).items.find? id with
      | none => trivial
      | some row => exact Table.key_of_find? hfind
    · obtain ⟨rfl, _⟩ := Prod.mk.inj (Option.some.inj h)
      trivial
  | rollback | respond =>
    simp only [Stmt.isSql, Stmt.isRedis, Bool.and_false, Bool.false_eq_true, if_false] at h
    split at h <;> obtain ⟨rfl, _⟩ := Prod.mk.inj (Option.some.inj h) <;> trivial
  | _ => trivial

/-- The record of a transaction has the last response that was sent. -/
theorem exec_response {e : Env} {t : TxId} {o : Stmt} {x : Tx} {s s' : Sys} {r : o.Res}
    (hx : s.txs t = some x) (h : exec e t o s = some (r, s')) :
    ∃ x', s'.txs t = some x' ∧ x'.response = o.sent.or x.response := by
  cases hsent : o.sent with
  | none =>
    obtain ⟨x', hx', hnotes⟩ := exec_notes hx h
    refine ⟨x', hx', hnotes.response.resolve_right ?_⟩
    rintro ⟨r, rfl, _⟩
    cases hsent
  | some res =>
    obtain rfl : o = .respond res := by
      cases o <;> simp_all [Stmt.sent]
    simp only [exec, hx, Stmt.isSql, Stmt.isRedis, Bool.and_false, Bool.false_eq_true,
      if_false] at h
    split at h <;> obtain ⟨_, rfl⟩ := Prod.mk.inj (Option.some.inj h) <;>
      exact ⟨_, Sys.setTx_txs_self _, rfl⟩

/-- So every record has the last response that its request has sent. -/
theorem response_of_run (hrun : SysRun cfg ok d₀ ls c) {t : TxId} {x : Tx}
    (hx : c.st.txs t = some x) :
    x.response = (responses ((system cfg).idle (Sys.init d₀)) t ls).getLast? := by
  induction hrun generalizing t x with
  | nil => cases hx
  | @snoc ls c l c' hrun _ hnext ih =>
    rw [responses, hrun.calls_snoc hnext, List.filterMap_append]
    -- a move that is not of `t`
    have hother : c.call? t l = none → c.st.txs t = some x → x.response =
        (responses ((system cfg).idle (Sys.init d₀)) t ls ++
          (c.call? t l).toList.filterMap fun call => call.1.sent).getLast? := by
      intro hnone hold
      rw [hnone, ih hold]
      simp
    cases l with
    | start t' req =>
      obtain ⟨hfree, rfl⟩ := next_start hnext
      by_cases ht : t = t'
      · subst ht
        obtain rfl : { req } = x := Option.some.inj ((Sys.setTx_txs_self _).symm.trans hx)
        rcases hrun.path t with ⟨_, hes⟩ | ⟨_, _, _, hpool, _⟩
        · rw [hes]
          rfl
        · cases hpool.symm.trans hfree
      · exact hother rfl ((Sys.setTx_txs_ne ht _).symm.trans hx)
    | step t' e =>
      obtain ⟨o, k, r, s, hcall, hexec, rfl⟩ := next_step hnext
      by_cases ht : t = t'
      · subst ht
        obtain ⟨y, hy⟩ : ∃ y, c.st.txs t = some y :=
          Option.isSome_iff_exists.mp (known_of_run hrun t (by rw [hcall]; rfl))
        obtain ⟨x', hx', hresponse⟩ := exec_response hy hexec
        obtain rfl := Option.some.inj (hx'.symm.trans hx)
        have hev : c.call? t (.step t e) = some ⟨o, r⟩ := by
          simp only [Config.call?, hcall, if_true]
          exact congrArg (Option.map _) hexec
        rw [hresponse, hev, ih hy]
        cases hsent : o.sent with
        | none => simp [hsent, responses]
        | some res => simp [hsent]
      · refine hother ?_ ((exec_txs_ne hexec ht).symm.trans hx)
        simp [Config.call?, hcall, Ne.symm ht]
    | tick id =>
      obtain rfl := next_tick hnext
      exact hother rfl hx

/-! ## The end of a transaction -/

/-- Whether a transaction has done nothing since it began or since it ended. -/
inductive Activity where
  | idle | busy

/-- What the state knows of an idle transaction. -/
def Activity.Holds : Activity → TxId → Sys → Prop
  | .idle, t, s => ∀ x, s.txs t = some x → x.writes = [] ∧ x.aborted = false
  | .busy, _, _ => True

/-- The next activity of a transaction. -/
def Activity.after (a : Activity) : (o : Stmt) → o.Res → Activity
  | .commit, .ok _ | .rollback, _ => .idle
  | .respond _, _ => a
  | _, _ => .busy

/-- A request ends with its transaction idle. -/
def ending : Protocol Activity Stmt Stmt.Res where
  rest := .idle
  allows _ _ := True
  answers := Stmt.answers
  after := Activity.after

/-- From any phase, `x` ends with the transaction idle. -/
def Coro.Settled (a : Activity) (x : Coro Unit) (ss : Session) : Prop :=
  ending.Follows a (x ss) fun _ a' => a' = .idle

/-- Anything may follow where nothing is asked of the end. -/
theorem ending_any {α : Type} (a : Activity) (p : Code α) : ending.Follows a p fun _ _ => True := by
  induction p generalizing a with
  | ret b => trivial
  | call o k ih => exact ⟨trivial, fun r _ => ih r _⟩

/-- A handler ends a transaction whatever its body did. -/
theorem settled_attempt {α : Type} {a : Activity} {x : Coro α} {f : Except Exc α → Coro Unit}
    {ss : Session} (hf : ∀ r ss' a', Coro.Settled a' (f r) ss') :
    Coro.Settled a (attempt x >>= f) ss := by
  refine Protocol.follows_bind.mpr (Protocol.follows_bind.mpr ?_)
  exact (ending_any a (x ss)).mono fun p a' _ => hf p.1 p.2 a'

/-- Sending a response ends nothing and begins nothing. -/
theorem settled_respond {a : Activity} {r : Response} {f : Unit → Coro Unit} {ss : Session}
    (hf : Coro.Settled a (f ()) ss) : Coro.Settled a (await (.respond r) >>= f) ss := by
  refine ⟨trivial, fun res hres => ?_⟩
  cases res with
  | ok u => cases a <;> exact hf
  | error e => exact hres.elim

/-- The last response leaves an idle transaction idle. -/
theorem settled_last {r : Response} {ss : Session} :
    Coro.Settled .idle (await (.respond r)) ss := by
  refine ⟨trivial, fun res _ => ?_⟩
  cases res <;> rfl

/-- A `ROLLBACK` makes the transaction idle. -/
theorem settled_rollback {a : Activity} {f : Unit → Coro Unit} {ss : Session}
    (hf : Coro.Settled .idle (f ()) {}) : Coro.Settled a (Session.rollback >>= f) ss := by
  refine ⟨trivial, fun res hres => ?_⟩
  cases res with
  | ok u => cases a <;> exact hf
  | error e => exact hres.elim

/-- A `ROLLBACK` at the end leaves the transaction idle. -/
theorem settled_rollback_last {a : Activity} {ss : Session} :
    Coro.Settled a Session.rollback ss := by
  refine ⟨trivial, fun res hres => ?_⟩
  cases res with
  | ok u => cases a <;> rfl
  | error e => exact hres.elim

/-- A commit that returns ends the transaction. -/
theorem ending_commit {a : Activity} {ss : Session} :
    ending.Follows a (Session.commit ss) fun p a' => (∃ u, p.1 = .ok u) → a' = .idle := by
  refine Protocol.follows_bind.mpr ((ending_any a (Session.flush ss)).mono fun p a' _ => ?_)
  obtain ⟨e | u, ss'⟩ := p
  · rintro ⟨_, h⟩
    cases h
  · refine ⟨trivial, fun res _ => ?_⟩
    cases res with
    | ok u => exact fun _ => rfl
    | error e =>
      rintro ⟨_, h⟩
      cases h

/-- What ends the transaction when it returns. -/
theorem settled_caught {α : Type} {a : Activity} {x : Coro α} {f : Except Exc α → Coro Unit}
    {ss : Session} (hx : ending.Follows a (x ss) fun p a' => (∃ b, p.1 = .ok b) → a' = .idle)
    (hok : ∀ b ss', Coro.Settled .idle (f (.ok b)) ss')
    (herr : ∀ e ss' a', Coro.Settled a' (f (.error e)) ss') :
    Coro.Settled a (attempt x >>= f) ss := by
  refine Protocol.follows_bind.mpr (Protocol.follows_bind.mpr (hx.mono ?_))
  rintro ⟨e | b, ss'⟩ a' hidle
  · exact herr e ss' a'
  · obtain rfl := hidle ⟨b, rfl⟩
    exact hok b ss'

/-- The answer to an unexpected exception leaves an idle transaction idle. -/
theorem settled_serverError {e : Exc} {ss : Session} : Coro.Settled .idle (serverError e) ss := by
  unfold serverError
  split
  · rfl
  · exact settled_last

/-- `get_db` ends its transaction whatever the route did. -/
theorem getDb_settled (route : Coro Response) : Coro.Settled .idle (getDb route) {} := by
  unfold getDb
  refine settled_attempt fun r ss a => ?_
  cases r with
  | ok response =>
    refine settled_respond (settled_caught ending_commit (fun _ _ => rfl) fun e _ _ => ?_)
    simp only [Session.abandon_eq]
    exact settled_rollback_last
  | error e =>
    cases e with
    | http status detail =>
      exact settled_caught ending_commit (fun _ _ => settled_last) fun _ _ _ =>
        settled_rollback settled_serverError
    | requestValidation => exact settled_rollback settled_last
    | _ =>
      simp only [Session.abandon_eq]
      exact settled_rollback settled_serverError

/-- The session of the race tests ends its transaction whatever the call did. -/
theorem commitOrRollback_settled (call : Coro Unit) :
    Coro.Settled .idle (commitOrRollback call) {} := by
  have hcall : ending.Follows .idle ((do let _ ← call; Session.commit : Coro Unit) {})
      fun p a => (∃ u, p.1 = .ok u) → a = .idle := by
    refine Protocol.follows_bind.mpr ((ending_any _ (call {})).mono fun p a _ => ?_)
    obtain ⟨e | u, ss⟩ := p
    · rintro ⟨_, h⟩
      cases h
    · exact ending_commit
  exact settled_caught hcall (fun _ _ => rfl) fun _ _ _ => settled_rollback_last

/-- The program of every request ends its transaction. -/
theorem code_settled (cfg : Config) (req : Request) :
    ending.Follows .idle (cfg.code req) fun _ a => a = .idle := by
  unfold Config.code
  cases cfg.harness with
  | http => exact Protocol.follows_bind.mpr (getDb_settled _)
  | service => exact Protocol.follows_bind.mpr (commitOrRollback_settled _)

/-- What a statement that ends a transaction, or only sends its response, leaves. -/
theorem exec_idle {a : Activity} {e : Env} {t : TxId} {o : Stmt} {s s' : Sys} {r : o.Res}
    (h : a.Holds t s) (hexec : exec e t o s = some (r, s')) : (a.after o r).Holds t s' := by
  -- what the await leaves in the record
  have hset : ∀ {s₁ : Sys} {x' : Tx}, x'.writes = [] ∧ x'.aborted = false →
      Activity.idle.Holds t (s₁.setTx t x') := by
    intro s₁ x' hx' y hy
    obtain rfl := Option.some.inj ((Sys.setTx_txs_self _).symm.trans hy)
    exact hx'
  unfold exec at hexec
  split at hexec
  · cases hexec
  rename_i x hx
  cases o with
  | commit =>
    cases r with
    | error f =>
      -- a `COMMIT` that fails leaves the transaction busy
      trivial
    | ok u =>
      simp only [Stmt.isSql, Bool.and_true, if_true] at hexec
      split at hexec
      · cases hexec
      · -- one that succeeds, writes nothing that is pending
        rename_i hlive
        split at hexec
        · obtain ⟨_, rfl⟩ := Prod.mk.inj (Option.some.inj hexec)
          exact hset ⟨rfl, by simpa using hlive⟩
        · cases hexec
  | rollback =>
    simp only [Stmt.isSql, Stmt.isRedis, Bool.and_false, Bool.false_eq_true, if_false] at hexec
    -- a `ROLLBACK` undoes everything, under any fault
    split at hexec <;> obtain ⟨_, rfl⟩ := Prod.mk.inj (Option.some.inj hexec) <;>
      exact hset ⟨rfl, rfl⟩
  | respond res =>
    cases a with
    | busy => trivial
    | idle =>
      -- a response changes nothing of an idle transaction
      simp only [Stmt.isSql, Stmt.isRedis, Bool.and_false, Bool.false_eq_true, if_false] at hexec
      split at hexec <;> obtain ⟨_, rfl⟩ := Prod.mk.inj (Option.some.inj hexec) <;>
        exact hset (h x hx)
  | _ => trivial

/-- The phases say whether a transaction is idle. -/
theorem ending_describes (cfg : Config) :
    ending.Describes (system cfg) fun a t s => a.Holds t s where
  code := code_settled cfg
  call h _ hexec := ⟨exec_answers hexec, exec_idle h hexec⟩
  others := by
    intro a e t t' o s r s' ht h hexec
    cases a with
    | busy => trivial
    | idle => exact fun x hx => h x ((exec_txs_ne hexec ht).symm.trans hx)
  start := by
    intro a t t' req s h
    cases a with
    | busy => trivial
    | idle =>
      intro x hx
      -- a request that starts is idle
      by_cases ht : t' = t
      · subst ht
        obtain rfl : { req } = x := Option.some.inj ((Sys.setTx_txs_self _).symm.trans hx)
        exact ⟨rfl, rfl⟩
      · exact h x ((Sys.setTx_txs_ne ht _).symm.trans hx)
  tick := by
    intro a t id s h
    cases a with
    | busy => trivial
    | idle => exact h

/-- What a request leaves in the state when it has ended. -/
structure Closed (s : Sys) (t : TxId) (x : Tx) : Prop where
  writes : x.writes = []
  live : x.aborted = false
  locks : ∀ l ∈ s.locks, l.tx ≠ t

/-- A request that has ended has closed its transaction. -/
theorem closed_of_ends (hrun : SysRun cfg ok d₀ ls c) {t : TxId} {x : Tx}
    (hx : c.st.txs t = some x) (ht : Ends c t) : Closed c.st t x := by
  obtain ⟨φ, hφ⟩ := inPhase_of_run hrun t
  obtain rfl : φ = .free := hφ.ended ht
  obtain ⟨a, ha⟩ := (ending_describes cfg).of_run (fun _ _ hx => by cases hx) hrun t
  obtain rfl : a = .idle := ha.ended ht
  obtain ⟨hwrites, hlive⟩ := ha.holds x hx
  exact ⟨hwrites, hlive, hφ.holds⟩

/-- Through the HTTP layer a request sends at most one response. When it has ended, it has
    closed its transaction, and it has sent the one response that its record has, unless one
    of its awaits was cancelled before: then it has sent none. -/
theorem replies_once {cache : CacheService}
    {ok : (system ⟨.http, cache⟩).Config → (system ⟨.http, cache⟩).Label → Prop}
    {ls : List (system ⟨.http, cache⟩).Label} {c : (system ⟨.http, cache⟩).Config}
    (hrun : SysRun ⟨.http, cache⟩ ok d₀ ls c) (t : TxId) :
    (responses ((system _).idle (Sys.init d₀)) t ls).length ≤ 1 ∧
      (Ends c t → ∃ x, c.st.txs t = some x ∧ Closed c.st t x ∧
        (¬CancelledFirst (((system _).idle (Sys.init d₀)).calls t ls) →
          ∃ r, x.response = some r ∧ responses ((system _).idle (Sys.init d₀)) t ls = [r]) ∧
        (CancelledFirst (((system _).idle (Sys.init d₀)).calls t ls) →
          x.response = none ∧ responses ((system _).idle (Sys.init d₀)) t ls = [])) := by
  have hanswers : ∀ ev ∈ ((system ⟨.http, cache⟩).idle (Sys.init d₀)).calls t ls,
      ev.1.answers ev.2 := hrun.calls_answer fun _ _ _ _ _ _ _ _ h => exec_answers h
  rcases hrun.path t with ⟨hnone, hes⟩ | ⟨req, p, hstart, hpool, hpath⟩
  · refine ⟨by simp [responses, hes], fun ht => ?_⟩
    cases ht.symm.trans hnone
  have hcode := code_replies cache req
  have hlen : (responses ((system ⟨.http, cache⟩).idle (Sys.init d₀)) t ls).length = _ :=
    sent_of_path hpath hcode hanswers
  refine ⟨by rw [hlen]; exact Bool.toNat_le _, fun ht => ?_⟩
  -- where the code has ended, the request is answered or interrupted
  obtain rfl := Option.some.inj (hpool.symm.trans ht)
  have hended : replying.along .waiting _ ≠ .waiting := hcode.path hpath hanswers
  have hfirst := along_interrupted hanswers
  obtain ⟨x, hx⟩ := Option.isSome_iff_exists.mp (known_of_run hrun t (by rw [hpool]; rfl))
  have hresponse := response_of_run hrun hx
  refine ⟨x, hx, closed_of_ends hrun hx ht, fun hno => ?_, fun hcancelled => ?_⟩
  · have hsent : replying.along .waiting
        (((system ⟨.http, cache⟩).idle (Sys.init d₀)).calls t ls) = .sent := by
      cases hφ : replying.along .waiting _ with
      | waiting => exact absurd hφ hended
      | sent => rfl
      | interrupted => exact absurd (hfirst.mp hφ) hno
    rw [hsent] at hlen
    obtain ⟨r, hr⟩ := List.length_eq_one_iff.mp hlen
    exact ⟨r, by rw [hresponse, hr]; rfl, hr⟩
  · rw [hfirst.mpr hcancelled] at hlen
    have hnil := List.length_eq_zero_iff.mp hlen
    exact ⟨by rw [hresponse, hnil]; rfl, hnil⟩

end

/-- Then the order is confirmed again, and that request is cancelled while it waits for the
    cache. -/
def thenCancelled : List (system ⟨.http, ⟨true⟩⟩).Label :=
  confirmLost ++ [.start 3 (.transition .confirm 2)] ++ turns 3 [0, 0, 0, 4, 0] ++
  [.step 3 { fault := some .cancelled }] ++ turns 3 [0]

/-- A request whose `COMMIT` fails has sent its one response, and a cancelled one has sent none.
    Both are closed. -/
theorem replies_once_lost : ∃ c x y r, SysRun ⟨.http, ⟨true⟩⟩ (fun _ _ => True) Db.empty
      thenCancelled c ∧ Ends c 2 ∧ Ends c 3 ∧ c.st.txs 2 = some x ∧ c.st.txs 3 = some y ∧
    responses ((system _).idle (Sys.init Db.empty)) 2 thenCancelled = [r] ∧ Closed c.st 2 x ∧
    responses ((system _).idle (Sys.init Db.empty)) 3 thenCancelled = [] ∧ Closed c.st 3 y := by
  obtain ⟨c, hrun, hends⟩ : ∃ c, SysRun ⟨.http, ⟨true⟩⟩ (fun _ _ => True) Db.empty
      thenCancelled c ∧ decide (Ends c 2 ∧ Ends c 3) = true :=
    Run.of_eval (fun c => decide (Ends c 2 ∧ Ends c 3)) (by decide +kernel)
      (Config.allows_of_forall fun _ _ => trivial)
  obtain ⟨h₂, h₃⟩ := of_decide_eq_true hends
  have hsent : (responses ((system _).idle (Sys.init Db.empty)) 2 thenCancelled).length = 1 := by
    decide +kernel
  have hunsent : (responses ((system _).idle (Sys.init Db.empty)) 3 thenCancelled).length = 0 := by
    decide +kernel
  obtain ⟨x, hx, hclosed, _, hnone⟩ := (replies_once hrun 2).2 h₂
  obtain ⟨y, hy, hclosed', _⟩ := (replies_once hrun 3).2 h₃
  obtain ⟨r, hr⟩ := List.length_eq_one_iff.mp hsent
  exact ⟨c, x, y, r, hrun, h₂, h₃, hx, hy, hr, hclosed,
    List.length_eq_zero_iff.mp hunsent, hclosed'⟩

end Nova
