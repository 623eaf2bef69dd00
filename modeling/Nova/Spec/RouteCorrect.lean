import Nova.Spec.ServiceCorrect

/-!
# Routes, `get_db` and the whole system

The routes turn the exceptions of the services into `HTTPException`s
(`route_safe`), and `get_db` commits what a route left when it returned or raised
one, and rolls back otherwise (`getDb_safe`). Together with the session of the
race tests this shows that the code of every request meets the contract
(`contract_holds`), whatever harness and cache the system runs with.
-/

namespace Nova

open Machine
open Coro (raise attempt await)

section

variable {α β : Type} {cfg : Config} {A : Allow} {d₀ : Db} {t : TxId} {req : Request}
  {s : Sys} {ss : Session} {F : Sys → Prop} {x : Tx} {R : α → Session → Sys → Prop}

/-! ## Commit and rollback of a session -/

/-- `session.commit()` with a clean session. -/
theorem safe_sessionCommit {e : Option Exc} {Q : Except Exc Unit → Session → Sys → Prop}
    (hF : Stable t F) (h : At A d₀ t F x s) (hdirty : ss.dirty = []) (hlive : x.aborted = false)
    (hnew : x.commit = none) (hpub : x.Published cfg)
    (heff : ∀ s', F s' → Effect A d₀ s'.wal s'.db x.req x.read e x.writes)
    (hexc : e.isSome → A.exceptions)
    (hfail : ∀ f ss' s', f ≠ .integrityError → s'.txs t = some x.failed →
      Q (.error (.failure f)) ss' s')
    (hok : ∀ d s', s'.txs t = some { x with writes := [], commit := some (d, x.writes) } →
      Committed A d₀ s'.wal d x.req x.read e x.writes → Q (.ok ()) ss s') :
    Coro.Safe cfg A d₀ t Session.commit ss Q s := by
  unfold Session.commit
  rw [safe_bind, safe_flush_clean hdirty]
  refine safe_commit hF h hlive hnew hpub (fun s₁ h₁ _ => ⟨e, heff s₁ h₁.fact, hexc⟩)
    (fun f s' hf hy => hfail f ss s' hf hy) fun s₁ s' h₁ hwal hy => ?_
  exact hok s₁.db s' hy ⟨s₁.wal, hwal, h₁.inv.log, heff s₁ h₁.fact⟩

/-- A `ROLLBACK` of the session empties it and ends the transaction. -/
theorem safe_sessionRollback {Q : Except Exc Unit → Session → Sys → Prop}
    (hx : s.txs t = some x)
    (hpub : cfg.harness = .http → x.published = none ∨ x.faulted = true)
    (hok : ∀ s', s.wal <+: s'.wal → s'.txs t = some { x with writes := [], aborted := false } →
      Q (.ok ()) ⟨[]⟩ s') :
    Coro.Safe cfg A d₀ t Session.rollback ss Q s := by
  unfold Session.rollback
  rw [safe_bind]
  exact safe_rollback hx hpub hok

/-! ## `get_db` -/

/-- How a route can leave its transaction. -/
def RoutePost (cfg : Config) (A : Allow) (d₀ : Db) (t : TxId) (req : Request) :
    Except Exc Response → Session → Sys → Prop
  | .ok r, ss, s => (∃ body, r = .success req.successStatus body) ∧
      ((ss.dirty = [] ∧ req.isRead = false ∧ Ready cfg A d₀ t req none s) ∨
        ∃ id item x i, r = .success 200 (.stock item.response) ∧ req = .getStock id ∧
          StockRead A d₀ t id item ss s x i)
  | .error (.http status detail), ss, s => ss.dirty = [] ∧
      ((∃ e, e.isDomain = true ∧ status = e.statusCode ∧ detail = e.message ∧
          (req.isRead = true → status = 404) ∧ Ready cfg A d₀ t req (some e) s) ∨
        ∃ b x, req = .createItem b ∧ takenIn d₀ s.wal b.name ∧ s.txs t = some x ∧
          x.Unfinished req ∧ x.aborted = true ∧ x.published = none)
  | .error .requestValidation, _, s => req.valid = false ∧ s.txs t = some { req }
  | .error (.failure _), _, s => ∃ x, s.txs t = some x ∧ x.Unfinished req ∧ x.faulted = true
  | .error _, _, _ => False

/-- The end of a request. -/
def Ended (A : Allow) (d₀ : Db) (t : TxId) (s : Sys) : Prop :=
  ∃ x, s.txs t = some x ∧ Finished A d₀ s x

/-- A response sent after a rollback. -/
theorem safe_respond_error {status : Nat} {detail : String} (hx : s.txs t = some x)
    (hread : x.req.isRead = true → x.faulted = true)
    (hfin : ∀ s', s.wal <+: s'.wal →
      Finished A d₀ s' { x with response := some (.error status detail) }) :
    Coro.Safe cfg A d₀ t (await (.respond (.error status detail))) ss
      (fun _ _ s => Ended A d₀ t s) s :=
  safe_respond hx (fun hr => Or.inr (hread hr)) (fun _ => trivial)
    (F := fun s' => s.wal <+: s'.wal) (fun _ _ hl hwal => hwal.trans hl.wal) List.prefix_rfl
    fun s' h' => ⟨_, h'.tx, hfin s' h'.fact⟩

/-- After a rollback the exception is answered, unless it is a cancellation. -/
theorem safe_serverError {e : Exc} (hx : s.txs t = some x)
    (hread : x.req.isRead = true → x.faulted = true)
    (hcancelled : e.isCancelled = true → Finished A d₀ s x)
    (hfin : ∀ s', s.wal <+: s'.wal →
      Finished A d₀ s' { x with response := some (.error 500 e.message) }) :
    Coro.Safe cfg A d₀ t (serverError e) ss (fun _ _ s => Ended A d₀ t s) s := by
  unfold serverError
  split
  · rename_i he
    exact ⟨x, hx, hcancelled he⟩
  · exact safe_respond_error hx hread hfin

/-- What is rolled back after a failure from outside has failed, or was cancelled. -/
theorem safe_abandoned {e : Exc} (hx : s.txs t = some x) (hopen : x.Unfinished req)
    (hfaulted : x.faulted = true) :
    Coro.Safe cfg A d₀ t (serverError e) ss (fun _ _ s => Ended A d₀ t s) s := by
  refine safe_serverError hx (fun _ => hfaulted) (fun _ => ?_) fun s' _ => ?_
  · exact .cancelled hopen.uncommitted hopen.unanswered hfaulted
  · exact .failed hopen.uncommitted ⟨_, rfl⟩ (Or.inl hfaulted)

/-- The session of a stock read is committed after the response: this writes
    nothing, or the cached quantity. -/
theorem stockRead_commit {id : Uuid} {item : ItemObj} {i : MenuItem}
    {Q : Except Exc Unit → Session → Sys → Prop} (h : StockRead A d₀ t id item ss s x i)
    (hfail : ∀ f y ss' s', s'.txs t = some y → y.req = x.req → y.commit = none →
      y.published = none → y.response = x.response → Q (.error (.failure f)) ss' s')
    (hok : ∀ d ws s' ss', s'.txs t = some { x with writes := [], commit := some (d, ws) } →
      Committed A d₀ s'.wal d x.req x.read none ws → Q (.ok ()) ss' s') :
    Coro.Safe cfg A d₀ t Session.commit ss Q s := by
  have hF := Stable.trivial t
  have hisRead : x.req.isRead = true := by rw [h.req]; rfl
  rcases h.dirty with hclean | ⟨hover, q, hdirty⟩
  · -- nothing to flush, so an empty commit
    refine safe_sessionCommit (e := none) hF h.at_ hclean h.live h.uncommitted
      (fun _ j hj => by simp [h.writes] at hj) (fun s' _ => ?_) (fun he => nomatch he)
      (fun f ss' s' _ hy => hfail f _ ss' s' hy rfl h.uncommitted h.unpublished rfl)
      fun d s' hy heff => hok d x.writes s' ss hy heff
    rw [h.writes, h.req]
    exact .read
  · -- the cached quantity differs from the row: the flush writes it back
    obtain ⟨dirty⟩ := ss
    obtain rfl : dirty = _ := hdirty
    unfold Session.commit
    rw [safe_bind]
    refine safe_flush_one (safe_updateItem hF h.at_ h.live (fun _ => hover) h.unpublished
      (fun hr => by simp [hisRead] at hr)
      (fun f s' _ hy => hfail f _ _ s' hy rfl h.uncommitted h.unpublished rfl)
      (fun f _ s' _ hy _ => hfail f _ _ s' hy rfl h.uncommitted h.unpublished rfl) ?_)
    intro e i₀ i' s₁ h₁ howns hfind hupd
    rw [Sys.view_eq, h.writes] at hfind
    -- the UPDATE has locked the row, which stays as it is until the commit
    have hG := hF.and (.held t (.item id) (some (.item i₀)))
    have h₁ := h₁.learn (G := fun s => s.owns t (.item id) ∧
      s.db.get (.item id) = some (.item i₀)) ⟨howns, Db.get_item.mpr hfind⟩
    obtain ⟨hnext, _, hversion⟩ := ItemChange.updated?_eq_some hupd
    have hwrites : (x.wrote (.item i')).writes = [.item i'] := by
      simp [Tx.wrote, h.writes]
    have heff : ∀ s' : Sys, s'.db.get (.item id) = some (.item i₀) →
        Effect A d₀ s'.wal s'.db x.req x.read none [.item i'] := by
      intro s' hrow
      rw [h.req]
      refine .overwritten hover (Db.get_item.mp hrow) ?_
      have hv : i'.version = i₀.version := hversion
      rw [hnext]
      simp [hv]
    refine safe_commit hG h₁ h.live h.uncommitted (fun _ j hj => Or.inr (Or.inr hisRead))
      (fun s₂ h₂ _ => ⟨none, ?_, fun he => nomatch he⟩)
      (fun f s' _ hy => hfail f _ _ s' hy rfl h.uncommitted h.unpublished rfl)
      fun s₂ s' h₂ hwal hy => ?_
    · rw [hwrites]
      exact heff s₂ h₂.fact.2.2
    · rw [hwrites] at hy
      exact hok s₂.db _ s' _ hy ⟨s₂.wal, hwal, h₂.inv.log, heff s₂ h₂.fact.2.2⟩

/-- `get_db` finishes a request whose route ended as `RoutePost` says. -/
theorem getDb_safe {route : Coro Response} (hexc : A.exceptions)
    (h : Coro.Safe cfg A d₀ t route {} (RoutePost cfg A d₀ t req) s) :
    Coro.Safe cfg A d₀ t (getDb route) {} (fun _ _ s => Ended A d₀ t s) s := by
  unfold getDb
  rw [safe_bind, safe_attempt]
  refine h.mono fun r ss s hpost => ?_
  cases r with
  | ok r =>
    obtain ⟨⟨body, rfl⟩, hcase⟩ := hpost
    simp only [safe_bind, safe_attempt]
    rcases hcase with
      ⟨hdirty, hnotRead, F, x, hF, hat, ⟨⟨hreq, hcommit, _⟩, hlive, hcalm⟩, hpub, _, heff⟩ |
      ⟨id, item, x, i, hr, hreq, hread⟩
    · -- the response is sent, then the writes are committed
      have hpending : x.commit = none ∧ x.writes ≠ [] ∧ x.faulted = false :=
        ⟨hcommit, (heff s hat.fact).writes_ne_nil hnotRead, hcalm⟩
      refine safe_respond hat.tx (fun hr => by simp [hreq, hnotRead] at hr) (fun _ => hpending) hF
        hat.fact fun s₁ h₁ => ?_
      refine safe_sessionCommit (e := none) hF h₁ hdirty hlive hcommit hpub
        (fun s' hs' => hreq ▸ heff s' hs') (fun he => nomatch he) ?_ ?_
      · intro f ss' s' _ hy
        simp only [Session.abandon_eq]
        refine safe_sessionRollback hy (fun _ => Or.inr rfl) fun s₂ _ hy₂ => ⟨_, hy₂, ?_⟩
        exact .lost _ hcommit rfl ⟨body, hreq ▸ rfl⟩ (Or.inl rfl)
      · intro d s' hy heff'
        exact ⟨_, hy, .committed d x.writes none _ rfl hcalm heff' rfl ⟨body, hreq ▸ rfl⟩⟩
    · -- a stock read sends its response, and then commits what its session has left dirty
      have hisRead : x.req.isRead = true := by rw [hread.req]; rfl
      refine safe_respond hread.at_.tx (fun _ => ?_) (fun hr => by simp [hisRead] at hr)
        (.trivial t)
        trivial fun s₁ h₁ => ?_
      · obtain ⟨hst, hbody⟩ := Response.success.inj hr
        refine ⟨i, hread.seen, hst, hbody.trans (congrArg Body.stock ?_)⟩
        rw [← hread.quantity, ← hread.loaded]
        rfl
      · have hread₁ : StockRead A d₀ t id item ss s₁
            { x with response := some (.success req.successStatus body) } i :=
          { hread with at_ := h₁ }
        refine stockRead_commit hread₁ ?_ ?_
        · intro f y ss' s' hy hyreq hycommit hypub hyres
          simp only [Session.abandon_eq]
          refine safe_sessionRollback hy (fun _ => Or.inl hypub) fun s₂ _ hy₂ => ⟨_, hy₂, ?_⟩
          exact .lost _ hycommit hyres ⟨body, by rw [hyreq, hread₁.req, hreq]⟩
            (Or.inr (by rw [hyreq, hread₁.req]; rfl))
        · intro d ws s' ss' hy heff
          exact ⟨_, hy, .committed d ws none _ rfl hread₁.unfaulted heff rfl
            ⟨body, by rw [hread₁.req, hreq]⟩⟩
  | error e =>
    cases e with
    | http status detail =>
      obtain ⟨hdirty, ⟨e, hdomain, rfl, rfl, hstatus, F, x, hF, hat, hrun, hpub, hseen, heff⟩ |
        ⟨b, x, hreq, htaken, hx, hopen, hdead, hpub⟩⟩ := hpost
      · obtain ⟨⟨hreq, hcommit, hanswer⟩, hlive, hcalm⟩ := hrun
        -- an exception of a service commits what was written before it
        simp only [safe_bind, safe_attempt]
        refine safe_sessionCommit (e := some e) hF hat hdirty hlive hcommit hpub
          (fun s' hs' => hreq ▸ heff s' hs') (fun _ => hexc) ?_ ?_
        · intro f ss' s' _ hy
          simp only [safe_bind]
          refine safe_sessionRollback hy (fun _ => Or.inr rfl) fun s₂ _ hy₂ => ?_
          exact safe_abandoned hy₂ ⟨hreq, hcommit, hanswer⟩ rfl
        · intro d s' hy heff'
          refine safe_respond hy (fun hr => Or.inl ⟨hseen (hreq ▸ hr), hstatus (hreq ▸ hr)⟩)
            (fun _ => trivial)
            (F := fun s => Committed A d₀ s.wal d x.req x.read (some e) x.writes)
            (fun s₁ s₂ hl heff => heff.mono hl.wal) heff' fun s₁ h₁ => ?_
          exact ⟨_, h₁.tx, .committed d x.writes (some e) _ rfl hcalm h₁.fact rfl ⟨hdomain, rfl⟩⟩
      · -- PostgreSQL has aborted the transaction already, so its commit fails
        simp only [safe_bind, safe_attempt]
        unfold Session.commit
        rw [safe_bind, safe_flush_clean hdirty]
        refine safe_commit_aborted hx hdead hopen.uncommitted fun s' hwal hy => ?_
        simp only [safe_bind]
        refine safe_sessionRollback hy (fun _ => Or.inl hpub) fun s₂ hwal₂ hy₂ => ?_
        have hxreq : x.req = .createItem b := hopen.req.trans hreq
        refine safe_serverError hy₂ (fun hr => ?_) nofun fun s₃ hwal₃ =>
          .failed hopen.uncommitted ⟨_, rfl⟩
            (Or.inr ⟨⟨b, hxreq, htaken.mono ((hwal.trans hwal₂).trans hwal₃)⟩, hpub⟩)
        rw [hxreq] at hr
        cases hr
    | requestValidation =>
      -- no statement has run, and the rollback finds nothing
      obtain ⟨hinvalid, hx⟩ := hpost
      simp only [safe_bind]
      refine safe_sessionRollback hx (fun _ => Or.inl rfl) fun s₂ _ hy₂ => ?_
      refine safe_respond_error hy₂ (fun hr => ?_) fun s' _ => .invalid rfl hinvalid rfl ⟨_, rfl⟩
      cases req with
      | getStock id => cases hinvalid
      | createItem | adjustStock | placeOrder | transition => cases hr
    | failure f =>
      -- everything else rolls back
      obtain ⟨x, hx, hopen, hfaulted⟩ := hpost
      simp only [safe_bind, Session.abandon_eq]
      refine safe_sessionRollback hx (fun _ => Or.inr hfaulted) fun s₂ _ hy₂ => ?_
      exact safe_abandoned hy₂ ⟨hopen.req, hopen.uncommitted, hopen.unanswered⟩ hfaulted
    | notFound | insufficientStock | invalidTransition | conflict | responseValidation =>
      exact hpost.elim
/-! ## Routes -/

/-- `translate` replaces the exceptions that `status` names. -/
theorem safe_translate {status : Exc → Option Nat} {y : Coro α}
    {Q : Except Exc α → Session → Sys → Prop}
    (h : Coro.Safe cfg A d₀ t y ss (fun r ss' s' =>
      match r with
      | .ok a => Q (.ok a) ss' s'
      | .error e =>
        match status e with
        | some code => Q (.error (.http code e.message)) ss' s'
        | none => Q (.error e) ss' s') s) :
    Coro.Safe cfg A d₀ t (translate status y) ss Q s := by
  unfold translate
  rw [safe_bind, safe_attempt]
  refine h.mono fun r ss' s' hr => ?_
  cases r with
  | ok a => exact hr
  | error e =>
    cases hstatus : status e with
    | none => simpa only [hstatus, safe_raise] using hr
    | some code => simpa only [hstatus, safe_raise] using hr

/-- A route that translates all the exceptions that its service raises. -/
theorem translated_safe {status : Exc → Option Nat} {y : Coro α} {f : α → Coro Response}
    (hhttp : cfg.harness = .http) (hreq : ∀ b, req ≠ .createItem b)
    (hstatus : ∀ e, req.raises e = true → status e = some e.statusCode)
    (hfailure : ∀ f, status (.failure f) = none)
    (h : Coro.Safe cfg A d₀ t y ss (ServicePost cfg A d₀ t req R) s)
    (hok : ∀ a ss' s', R a ss' s' →
      Coro.Safe cfg A d₀ t (f a) ss' (RoutePost cfg A d₀ t req) s') :
    Coro.Safe cfg A d₀ t (translate status y >>= f) ss (RoutePost cfg A d₀ t req) s := by
  rw [safe_bind]
  refine safe_translate (h.mono fun r ss' s' hr => ?_)
  cases r with
  | ok a =>
    -- the method has returned
    exact hok a ss' s' hr
  | error e =>
    cases e with
    | failure f =>
      obtain ⟨_, x, hx, hopen, ⟨hfaulted, _⟩ | ⟨_, _, _, hcreate⟩⟩ := hr
      · -- failed from outside: the exception passes
        simp only [hfailure]
        exact ⟨x, hx, hopen, hfaulted⟩
      · -- a taken name fails a creation only, and creations are not translated
        obtain ⟨b, hb, _⟩ := hcreate hhttp
        exact absurd hb (hreq b)
    | notFound | insufficientStock | invalidTransition | conflict | http | requestValidation
    | responseValidation =>
      obtain ⟨hraises, _, hready⟩ := hr
      obtain ⟨hdirty, hready⟩ := hready hhttp
      -- a domain exception is translated
      simp only [hstatus _ hraises]
      exact ⟨hdirty, Or.inl ⟨_, Request.isDomain_of_raises hraises, rfl, rfl,
        Request.statusCode_of_isRead hraises, hready⟩⟩

/-- The route of a request ends as `RoutePost` says. -/
theorem route_safe (hhttp : cfg.harness = .http) (hexc : A.exceptions) (hd₀ : d₀.Consistent)
    (hinv : Inv A d₀ s) (hs : s.txs t = some { req }) :
    Coro.Safe cfg A d₀ t (Api.route cfg.cache req) {} (RoutePost cfg A d₀ t req) s := by
  unfold Api.route
  split
  · rename_i hinvalid
    exact ⟨by simpa using hinvalid, hs⟩
  rename_i hvalid
  simp only [Bool.not_eq_true, Bool.not_eq_false'] at hvalid
  cases req with
  | createItem b =>
    unfold Api.createItem
    rw [safe_bind, safe_attempt]
    refine (createItem_safe rfl (fun _ => hvalid) hinv hs).mono fun r ss' s' hr => ?_
    cases r with
    | ok item => exact ⟨⟨_, rfl⟩, Or.inl ⟨hr.2.1, rfl, hr.2.2⟩⟩
    | error e =>
      cases e with
      | failure f =>
        obtain ⟨hdirty, x, hx, hopen, ⟨hfaulted, hf⟩ | ⟨hpub, hdead, rfl, hwhy⟩⟩ := hr
        · cases f with
          | integrityError => exact absurd rfl hf
          | dbapiError | pendingRollbackError | redisError | cancelledError =>
            exact ⟨x, hx, hopen, hfaulted⟩
        · -- the duplicate name becomes an `HTTPException`
          obtain ⟨_, hb, htaken⟩ := hwhy hhttp
          obtain rfl := Request.createItem.inj hb
          exact ⟨hdirty rfl, Or.inr ⟨_, x, rfl, htaken, hx, hopen, hdead, hpub⟩⟩
      | notFound | insufficientStock | invalidTransition | conflict | http | requestValidation
      | responseValidation => cases hr.1
  | adjustStock id b =>
    refine translated_safe hhttp (fun _ h => nomatch h) (fun e he => ?_) (fun _ => rfl)
      (adjustStock_safe rfl hinv hs) fun item ss' s' hr => ?_
    · cases e <;> first | rfl | cases he
    · exact ⟨⟨_, rfl⟩, Or.inl ⟨hr.2.1, rfl, hr.2.2⟩⟩
  | placeOrder b =>
    -- request validation has excluded the quantities that PostgreSQL would refuse
    have hquantity : 0 < b.quantity := by
      simp only [Request.valid, OrderCreate.valid, Bool.and_eq_true, decide_eq_true_eq] at hvalid
      exact hvalid.1
    refine translated_safe hhttp (fun _ h => nomatch h) (fun e he => ?_) (fun _ => rfl)
      (placeOrder_safe (fun _ => hquantity) hinv hs) fun order ss' s' hr => ?_
    · cases e <;> first | rfl | cases he
    · exact ⟨⟨_, rfl⟩, Or.inl ⟨hr.2.1, rfl, hr.2.2⟩⟩
  | transition a id =>
    -- the four actions differ only in the method that they call
    have hmethod : Coro.Safe cfg A d₀ t (OrderService.method cfg.cache a id) {}
        (WritePost cfg A d₀ t (.transition a id) (Option.isSome · = true)) s := by
      cases a with
      | confirm => exact confirmOrder_safe rfl hd₀ (fun _ => hexc) hinv hs
      | ship => exact transition_safe (Or.inl rfl) hd₀ hinv hs
      | deliver => exact transition_safe (Or.inr rfl) hd₀ hinv hs
      | cancel => exact cancelOrder_safe rfl hd₀ (fun _ => hexc) hinv hs
    refine translated_safe hhttp (fun _ h => nomatch h) (fun e he => ?_) (fun _ => rfl)
      hmethod fun order ss' s' hr => ?_
    · cases e <;> first | rfl | cases he
    · cases order with
      | none => cases hr.1
      | some order => exact ⟨⟨_, rfl⟩, Or.inl ⟨hr.2.1, rfl, hr.2.2⟩⟩
  | getStock id =>
    refine translated_safe hhttp (fun _ h => nomatch h) (fun e he => ?_) (fun _ => rfl)
      (getStock_safe rfl hinv hs) fun item ss' s' hr => ?_
    · cases e <;> first | rfl | cases he
    · obtain ⟨x, i, hread⟩ := hr
      exact ⟨⟨_, rfl⟩, Or.inr ⟨id, item, x, i, rfl, rfl, hread⟩⟩
/-! ## The session of the race tests -/

/-- How a service call leaves its transaction to `commitOrRollback`. -/
def CallPost (cfg : Config) (A : Allow) (d₀ : Db) (t : TxId) :
    Except Exc Unit → Session → Sys → Prop
  | .ok _, ss, s =>
    Coro.Safe cfg A d₀ t Session.commit ss (fun _ _ s => ∃ x, s.txs t = some x) s
  | .error _, _, s => ∃ x, s.txs t = some x

/-- A service call whose result is dropped. -/
theorem call_safe {y : Coro α} (h : Coro.Safe cfg A d₀ t y {} (ServicePost cfg A d₀ t req R) s)
    (hok : ∀ a ss' s', R a ss' s' → CallPost cfg A d₀ t (.ok ()) ss' s') :
    Coro.Safe cfg A d₀ t (do let _ ← y) {} (CallPost cfg A d₀ t) s := by
  rw [safe_bind]
  refine h.mono fun r ss' s' hr => ?_
  cases r with
  | ok a => exact hok a ss' s' hr
  | error e =>
    cases e with
    | failure f =>
      obtain ⟨_, x, hx, _⟩ := hr
      exact ⟨x, hx⟩
    | notFound | insufficientStock | invalidTransition | conflict | http | requestValidation
    | responseValidation =>
      obtain ⟨_, ⟨x, hx, _⟩, _⟩ := hr
      exact ⟨x, hx⟩

/-- A method that writes leaves a session that can be committed. -/
theorem writePost_commit (h : ss.dirty = [] ∧ Ready cfg A d₀ t req none s) :
    CallPost cfg A d₀ t (.ok ()) ss s := by
  obtain ⟨hdirty, F, x, hF, hat, ⟨⟨hreq, hcommit, _⟩, hlive, _⟩, hpub, _, heff⟩ := h
  show Coro.Safe cfg A d₀ t Session.commit ss (fun _ _ s => ∃ x, s.txs t = some x) s
  exact safe_sessionCommit (e := none) hF hat hdirty hlive hcommit hpub
    (fun s' hs' => hreq ▸ heff s' hs') (fun he => nomatch he) (fun _ _ _ _ hy => ⟨_, hy⟩)
    (fun _ _ hy _ => ⟨_, hy⟩)

/-- A service call meets the contract. -/
theorem serviceCall_safe (hservice : cfg.harness ≠ .http) (hd₀ : d₀.Consistent)
    (hinv : Inv A d₀ s) (hs : s.txs t = some { req }) :
    Coro.Safe cfg A d₀ t (serviceCall cfg.cache req) {} (CallPost cfg A d₀ t) s := by
  cases req with
  | createItem b =>
    exact call_safe (createItem_safe rfl (fun h => absurd h hservice) hinv hs)
      -- nothing of the checks of request validation is needed
      fun _ _ _ hr => writePost_commit hr.2
  | adjustStock id b =>
    exact call_safe (adjustStock_safe rfl hinv hs) fun _ _ _ hr => writePost_commit hr.2
  | placeOrder b =>
    exact call_safe (placeOrder_safe (fun h => absurd h hservice) hinv hs)
      fun _ _ _ hr => writePost_commit hr.2
  | transition a id =>
    cases a with
    | confirm =>
      exact call_safe (confirmOrder_safe rfl hd₀ (fun h => absurd h hservice) hinv hs)
        fun _ _ _ hr => writePost_commit hr.2
    | ship =>
      exact call_safe (transition_safe (Or.inl rfl) hd₀ hinv hs)
        fun _ _ _ hr => writePost_commit hr.2
    | deliver =>
      exact call_safe (transition_safe (Or.inr rfl) hd₀ hinv hs)
        fun _ _ _ hr => writePost_commit hr.2
    | cancel =>
      exact call_safe (cancelOrder_safe rfl hd₀ (fun h => absurd h hservice) hinv hs)
        fun _ _ _ hr => writePost_commit hr.2
  | getStock id =>
    refine call_safe (getStock_safe rfl hinv hs) fun item ss' s' hr => ?_
    -- a stock read commits what it has written
    obtain ⟨x, i, hread⟩ := hr
    show Coro.Safe cfg A d₀ t Session.commit ss' (fun _ _ s => ∃ x, s.txs t = some x) s'
    exact stockRead_commit hread (fun _ _ _ _ hy _ _ _ _ => ⟨_, hy⟩) (fun _ _ _ _ hy _ => ⟨_, hy⟩)

/-- The session of the race tests meets the contract around a service call. -/
theorem commitOrRollback_safe {call : Coro Unit} (hservice : cfg.harness ≠ .http)
    (h : Coro.Safe cfg A d₀ t call {} (CallPost cfg A d₀ t) s) :
    Coro.Safe cfg A d₀ t (commitOrRollback call) {} (fun _ _ _ => True) s := by
  have hrollback : ∀ (ss' : Session) s', (∃ x, s'.txs t = some x) →
      Coro.Safe cfg A d₀ t Session.rollback ss' (fun _ _ _ => True) s' := by
    intro ss' s' ⟨x, hx⟩
    exact safe_sessionRollback hx (fun hhttp => absurd hhttp hservice) fun _ _ _ => trivial
  unfold commitOrRollback
  rw [safe_bind, safe_attempt, safe_bind]
  refine h.mono fun r ss' s' hr => ?_
  cases r with
  | error e => exact hrollback ss' s' hr
  | ok u =>
    have hcommit : Coro.Safe cfg A d₀ t Session.commit ss'
      (fun _ _ s => ∃ x, s.txs t = some x) s' :=
      hr
    refine hcommit.mono fun r ss' s' hx => ?_
    cases r with
    | ok u => trivial
    | error e => exact hrollback ss' s' hx

end

/-! ## The system -/

/-- The code of every request meets the contract. -/
theorem contract_holds {cfg : Config} {A : Allow} {d₀ : Db} (hd₀ : d₀.Consistent)
    (hexc : cfg.harness = .http → A.exceptions) : (contract cfg A d₀).Sound := by
  refine contract_sound fun t req s hinv => ?_
  have hstart := hinv.start (t := t) req
  have hs : (s.start t req).txs t = some { req } := Sys.setTx_txs_self _
  unfold Config.code
  cases hharness : cfg.harness with
  | http =>
    have hsafe := getDb_safe (hexc hharness) (route_safe hharness (hexc hharness) hd₀ hstart hs)
    exact Machine.safe_bind.mpr (Machine.Safe.mono hsafe fun _ s' hended _ => hended)
  | service =>
    have hservice : cfg.harness ≠ .http := by rw [hharness]; exact fun h => nomatch h
    have hsafe := commitOrRollback_safe hservice (serviceCall_safe hservice hd₀ hstart hs)
    exact Machine.safe_bind.mpr (Machine.Safe.mono hsafe fun _ s' _ hhttp => absurd hhttp hservice)

end Nova
