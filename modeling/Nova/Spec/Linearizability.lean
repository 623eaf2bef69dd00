import Nova.Spec.Answers

/-!
# Every request takes effect at one moment

`http_linearizable` is what the database layer is for. In a run without races, a request
that nothing outside the program has failed takes effect at one point of the log, between
its start and its end: a writer at its own commit, a read or a refusal between two commits.
What it commits and what its client is told there is what `Inventory.serve` does with it on
the inventory of that point. A transition may also give up with 409, and then another
request has committed a change of the order since it began.

The end of a request is that of its `COMMIT`. A writer is answered before that
(`acknowledged_uncommitted`), so its point may lie after its response.
-/

namespace Nova

open Machine

/-! ## Where a request takes effect -/

/-- The response reports the answer. -/
def Answer.Shown (req : Request) (r : Response) : Answer → Prop
  | .item card => ∃ row, r = .success req.successStatus (.item row) ∧ row.card = card
  | .order card => ∃ row, r = .success req.successStatus (.order row) ∧ row.card = card
  | .stock level => r = .success req.successStatus (.stock level)
  | .refused e => r = .error e.statusCode e.message

/-- A refusal is shown with its status code and its text. -/
theorem Answer.shown_refused (req : Request) (e : Exc) :
    (Answer.refused e).Shown req (.error e.statusCode e.message) := rfl

/-- Request `t` has committed nothing. -/
def NoCommit (s : Sys) (t : TxId) : Prop := ∀ c ∈ s.wal, c.tx ≠ t

/-- Between the first `k₀` commits and the end, request `t` has taken effect at once: what
    the inventory does with it there is what was committed and what was answered. -/
inductive Linearized (d₀ : Db) (s : Sys) (k₀ : Nat) (t : TxId) (req : Request) (r : Response) :
    Prop
  /-- At its own commit. -/
  | commits (k : Nat) (c : Commit) (a : Answer) : k₀ ≤ k → s.wal[k]? = some c → c.tx = t →
      c.req = req →
      c.serve (d₀.after s.wal k).inventory = ((d₀.after s.wal (k + 1)).inventory, a) →
      a.Shown req r → Linearized d₀ s k₀ t req r
  /-- Between two commits: it changes nothing. -/
  | observes (k : Nat) (a : Answer) : NoCommit s t → k₀ ≤ k → k ≤ s.wal.length →
      (∀ rowId entryId, (d₀.after s.wal k).inventory.serve rowId entryId req =
        ((d₀.after s.wal k).inventory, a)) →
      a.Shown req r → Linearized d₀ s k₀ t req r
  /-- It gives up, because another request has changed the order meanwhile. -/
  | conflict (k : Nat) (c : Commit) (a : Action) (o : Order) : NoCommit s t → k₀ ≤ k →
      s.wal[k]? = some c → .order o ∈ c.writes → req = .transition a o.id →
      r = .error 409 (Exc.conflict "Order" o.id).message → Linearized d₀ s k₀ t req r
  /-- It is not a request to the inventory. -/
  | invalid : NoCommit s t → req.valid = false →
      r = .error 422 Exc.requestValidation.message → Linearized d₀ s k₀ t req r

/-- Request `t` has taken effect at its own commit. -/
def Commits (d₀ : Db) (s : Sys) (k₀ : Nat) (t : TxId) (req : Request) (r : Response) : Prop :=
  ∃ k c a, k₀ ≤ k ∧ s.wal[k]? = some c ∧ c.tx = t ∧ c.req = req ∧
    c.serve (d₀.after s.wal k).inventory = ((d₀.after s.wal (k + 1)).inventory, a) ∧ a.Shown req r

/-- A request that has committed is linearized at its commit. -/
theorem Commits.linearized {d₀ : Db} {s : Sys} {k₀ : Nat} {t : TxId} {req : Request} {r : Response}
    (h : Commits d₀ s k₀ t req r) : Linearized d₀ s k₀ t req r := by
  obtain ⟨k, c, a, hk, hc, htx, hreq, hserve, hshown⟩ := h
  exact .commits k c a hk hc htx hreq hserve hshown

/-! ## Effects at a commit -/

section

variable {A : Allow} {d₀ d : Db} {wal wal' : List Commit} {req : Request}
  {read read' : Option Order} {e e' : Option Exc} {ws : List Write}

/-- What is written, on which tables and for which order read, says how the request ends. -/
theorem Effect.outcome_unique (hstale : ¬A.stale) (h : Effect A d₀ wal d req read e ws)
    (h' : Effect A d₀ wal' d req read' e' ws) (hread : ∀ o, read = some o → read' = some o)
    (hws : ws ≠ []) : e = e' := by
  cases h with
  | refused | read => exact absurd rfl hws
  | stale _ hs => exact absurd hs hstale
  | created | adjusted | placed | overwritten | stocked =>
    cases h'
    rfl
  | @rejected id o cur o' i e _ hid hallowed hi hshort he hstep =>
    obtain rfl := hread o rfl
    cases h' with
    | rejected _ _ _ hi' _ he' =>
      obtain rfl := Option.some.inj (hi.symm.trans hi')
      rw [he, he']
    | moved hmoves => exact absurd (Or.inl rfl) hmoves
  | moved hmoves =>
    cases h' with
    | rejected => exact absurd (Or.inl rfl) hmoves
    | moved => rfl

/-- A request that returns answers with the item that it has written, if it has written no
    order. -/
theorem Effect.answer_item {row : MenuItem} (h : Effect A d₀ wal d req read none ws)
    (hreq : ∀ a id, req ≠ .transition a id) (hrow : .item row ∈ ws) :
    answerOf ws none = .item row.card := by
  cases h with
  | created | adjusted =>
    obtain rfl : row = _ := by simpa using hrow
    rfl
  | placed => simp at hrow
  | stocked => exact absurd rfl (hreq _ _)
  | moved => exact absurd rfl (hreq _ _)
  | read => simp at hrow
  | overwritten =>
    obtain rfl : row = _ := by simpa using hrow
    rfl

/-- A request that returns answers with the order that it has written. -/
theorem Effect.answer_order {row : Order} (h : Effect A d₀ wal d req read none ws)
    (hrow : .order row ∈ ws) : answerOf ws none = .order row.card := by
  cases h with
  | created | adjusted | read | overwritten => simp at hrow
  | placed | moved | stocked =>
    obtain rfl : row = _ := by simpa using hrow
    rfl

end

section

variable {cfg : Config} {d₀ : Db} {ok : (system cfg).Config → (system cfg).Label → Prop}
  {ls : List (system cfg).Label} {c : (system cfg).Config}

/-- `x` has committed `ws` as entry `k` of the log. -/
structure CommittedAt (d₀ : Db) (s : Sys) (t : TxId) (x : Tx) (d : Db) (ws : List Write) (k : Nat)
    (r : Commit) : Prop where
  entry : s.wal[k]? = some r
  tx : r.tx = t
  req : r.req = x.req
  writes : r.writes = ws
  before : d = d₀.after s.wal k
  read : ∀ o, r.read = some o → x.read = some o

/-- A commit stays in the log, and its request in the record. -/
theorem CommittedAt.keep {s s' : Sys} {t : TxId} {x x' : Tx} {d : Db} {ws : List Write} {k : Nat}
    {r : Commit} (h : CommittedAt d₀ s t x d ws k r) (hwal : s.wal <+: s'.wal)
    (hkeep : x.Keeps x') : CommittedAt d₀ s' t x' d ws k r := by
  obtain ⟨hlt, _⟩ := List.getElem?_eq_some_iff.mp h.entry
  refine ⟨?_, h.tx, h.req.trans hkeep.req.symm, h.writes, ?_,
    fun o ho => hkeep.read o (h.read o ho)⟩
  · obtain ⟨rest, hrest⟩ := hwal
    rw [← hrest, List.getElem?_append_left hlt]
    exact h.entry
  · rw [Db.after, replay_of_prefix hwal hlt.le]
    exact h.before

/-- What a request has committed is an entry of the log. -/
theorem committedAt_of_run (hd₀ : d₀.Consistent) (hrun : SysRun cfg ok d₀ ls c) {t : TxId} {x : Tx}
    {d : Db} {ws : List Write} (hx : c.st.txs t = some x) (hcommit : x.commit = some (d, ws))
    (hws : ws ≠ []) : ∃ k r, CommittedAt d₀ c.st t x d ws k r := by
  induction hrun generalizing t x with
  | nil => cases hx
  | @snoc ls c l c' hrun _ hnext ih =>
    -- a record that kept its commit
    have hold : ∀ y, c.st.txs t = some y → y.Keeps x → c.st.wal <+: c'.st.wal →
        ∃ k r, CommittedAt d₀ c'.st t x d ws k r := by
      intro y hy hkeep hwal
      obtain ⟨k, r, hat⟩ := ih hy (hkeep.commit.symm.trans hcommit)
      exact ⟨k, r, hat.keep hwal hkeep⟩
    cases l with
    | start t' req =>
      obtain ⟨_, rfl⟩ := next_start hnext
      by_cases ht : t = t'
      · subst ht
        obtain rfl := Option.some.inj ((Sys.setTx_txs_self _).symm.trans hx)
        cases hcommit
      · exact hold x ((Sys.setTx_txs_ne ht _).symm.trans hx) (.refl x) List.prefix_rfl
    | step t' e =>
      obtain ⟨o, k, res, s, _, hexec, rfl⟩ := next_step hnext
      by_cases ht : t = t'
      · subst ht
        obtain ⟨y, hy, hmove | ⟨_, _, rfl⟩⟩ := exec_move hexec
        · obtain ⟨hwal, _, y', htxs, hkeep⟩ := hmove.frame hy
          have hy' : s.txs t = some y' := by rw [htxs, Function.update_self]
          obtain rfl := Option.some.inj (hy'.symm.trans hx)
          exact hold y hy hkeep (hwal ▸ List.prefix_rfl)
        · -- the `COMMIT` itself
          obtain rfl := Option.some.inj ((Sys.setTx_txs_self _).symm.trans hx)
          obtain ⟨rfl, rfl⟩ := Prod.mk.inj (Option.some.inj hcommit)
          have hwal : (c.st.commit t y).wal = c.st.wal ++ [⟨t, y.req, y.read, y.writes⟩] :=
            if_neg hws
          refine ⟨c.st.wal.length, ⟨t, y.req, y.read, y.writes⟩, ?_, rfl, rfl, rfl, ?_,
            fun _ h => h⟩
          · rw [hwal]
            simp
          · rw [hwal, Db.after, replay_append le_rfl]
            exact (SysRun.log hrun hd₀).db_eq
      · refine hold x ((exec_txs_ne hexec ht).symm.trans hx) (.refl x) ?_
        exact wal_of_next hnext
    | tick id =>
      obtain rfl := next_tick hnext
      exact hold x hx (.refl x) List.prefix_rfl

/-- A request that the state does not know has committed nothing. -/
theorem Linked.tx_ne {s : Sys} {t : TxId} (h : Linked s) (hnone : s.txs t = none) :
    ∀ r ∈ s.wal, r.tx ≠ t := by
  rintro r hr rfl
  obtain ⟨x, _, hx, _⟩ := h.wal r hr
  cases hnone.symm.trans hx

/-- What was committed when a request started comes first in the log. -/
theorem wal_since_start {c₁ c₂ c' : (system cfg).Config} {ls' : List (system cfg).Label} {t : TxId}
    {req : Request} (hstart : c₁.next (.start t req) = some c₂) (hrun : Run ok c₂ ls' c') :
    c₁.st.wal <+: c'.st.wal := by
  have hstarted : c₂.st.wal = c₁.st.wal := by
    obtain ⟨_, rfl⟩ := next_start hstart
    rfl
  exact hstarted ▸ wal_of_run hrun

/-- The commit of a request that was started later comes later. -/
theorem CommittedAt.since {s₁ s : Sys} {t : TxId} {x : Tx} {d : Db} {ws : List Write} {k : Nat}
    {r : Commit} (h : CommittedAt d₀ s t x d ws k r) (hlinked : Linked s₁)
    (hnone : s₁.txs t = none) (hwal : s₁.wal <+: s.wal) : s₁.wal.length ≤ k := by
  by_contra hlt
  obtain ⟨rest, hrest⟩ := hwal
  have hentry := h.entry
  rw [← hrest, List.getElem?_append_left (by omega)] at hentry
  exact hlinked.tx_ne hnone r (List.mem_of_getElem? hentry) h.tx

end

/-! ## Status codes -/

/-- No answer of a request that has ended by itself is a 500. -/
theorem Answers.status_ne {req : Request} {r : Response} {e : Option Exc} (h : Answers req r e) :
    r.status ≠ 500 := by
  cases e with
  | none =>
    obtain ⟨body, rfl⟩ := h
    have hlt := req.successStatus_lt
    simp only [Response.status]
    omega
  | some e =>
    obtain ⟨hdomain, rfl⟩ := h
    cases e <;> first | (simp [Response.status, Exc.statusCode]; done) | cases hdomain

/-- A creation that commits is not answered with a conflict. -/
theorem Effect.created_status {A : Allow} {d₀ d : Db} {wal : List Commit} {b : ItemCreate}
    {read : Option Order} {e : Option Exc} {ws : List Write} {r : Response}
    (h : Effect A d₀ wal d (.createItem b) read e ws) (hanswers : Answers (.createItem b) r e) :
    r.status ≠ 409 := by
  cases h with
  | created =>
    obtain ⟨body, rfl⟩ := hanswers
    simp [Response.status, Request.successStatus]
  | refused hrefusal =>
    cases hrefusal with
    | noItem hid => cases hid

/-! ## Effects between commits -/

section

variable {d₀ : Db} {s : Sys} {x : Tx} {k₀ : Nat} {t : TxId} {req : Request} {fs : List Finding}
  {r : Response}

/-- A stock read takes effect where it has read the row. -/
theorem Shows.observes {id : Uuid} {row : MenuItem} (hnone : NoCommit s t)
    (h : (Finding.item id (some row)).Holds d₀ k₀ s x) :
    Linearized d₀ s k₀ t (.getStock id)
      (.success 200 (.stock (ItemObj.ofRow row).response)) := by
  obtain ⟨k, hk₀, hk, hrow⟩ := h
  refine .observes k (.stock (ItemObj.ofRow row).response) hnone hk₀ hk (fun _ _ => ?_) rfl
  simp only [Inventory.serve, Db.inventory_item, hrow, Option.map_some]
  rfl

/-- A refusal without writes takes effect where its reason was found. -/
theorem Reason.observes {e : Exc} (h : Reason req fs e) (hnone : NoCommit s t)
    (hholds : ∀ f ∈ fs, f.Holds d₀ k₀ s x)
    (hconflict : ∀ a id, e ≠ .conflict a id)
    (hrejected : ∀ id, .wrote (.order id) ∉ fs) :
    Linearized d₀ s k₀ t req (.error e.statusCode e.message) := by
  cases h with
  | @noItem id hid hfound =>
    -- no such item: refused wherever the `SELECT` looked
    obtain ⟨k, hk₀, hk, hrow⟩ := hholds _ hfound
    refine .observes k _ hnone hk₀ hk (fun _ _ => ?_) (Answer.shown_refused _ _)
    cases req with
    | createItem b | transition a id' => cases hid
    | adjustStock id' b | placeOrder b | getStock id' =>
      obtain rfl := Option.some.inj hid
      simp only [Inventory.serve, Db.inventory_item, hrow, Option.map_none]
  | @shortage id b i hreq hfound hshort =>
    -- short of stock, at the point where it looked
    subst hreq
    obtain ⟨k, hk₀, hk, hrow⟩ := hholds _ hfound
    refine .observes k _ hnone hk₀ hk (fun _ _ => ?_) (Answer.shown_refused _ _)
    have hnot : ¬0 ≤ i.card.stock + b.delta := by
      simp only [MenuItem.card]
      omega
    simp only [Inventory.serve, Db.inventory_item, hrow, Option.map_some, hnot, dif_neg,
      not_false_eq_true]
    rfl
  | @noOrder a id hreq hfound =>
    -- no such order
    subst hreq
    obtain ⟨k, hk₀, hk, hrow⟩ := hholds _ hfound
    refine .observes k _ hnone hk₀ hk (fun _ _ => ?_) (Answer.shown_refused _ _)
    simp only [Inventory.serve, Db.inventory_order, hrow, Option.map_none]
  | @invalid a id o hreq hfound hallowed =>
    -- an order in another status
    subst hreq
    obtain ⟨k, hk₀, hk, hrow⟩ := hholds _ hfound
    refine .observes k _ hnone hk₀ hk (fun _ _ => ?_) (Answer.shown_refused _ _)
    have hno : o.card.status.canTransitionTo a.target = false := hallowed
    simp only [Inventory.serve, Db.inventory_order, hrow, Option.map_some,
      Inventory.transition, hno,
      Bool.false_eq_true, if_false]
    rfl
  | conflict =>
    -- a conflict is told by another commit, a rejection by its own
    exact absurd rfl (hconflict _ _)
  | rejected _ hwrote => exact absurd hwrote (hrejected _)

end

/-! ## Runs -/

section

variable {cache : CacheService} {d₀ : Db} {ls₁ ls₂ : List (system ⟨.http, cache⟩).Label}
  {c₁ c₂ c : (system ⟨.http, cache⟩).Config} {t : TxId} {req : Request}

/-- One more request starts. -/
theorem raceFree_start
    (hrun₁ : SysRun ⟨.http, cache⟩ (RaceFree ⟨.http, cache⟩) d₀ ls₁ c₁)
    (hstart : c₁.next (.start t req) = some c₂) :
    SysRun ⟨.http, cache⟩ (RaceFree ⟨.http, cache⟩) d₀ (ls₁ ++ [.start t req]) c₂ :=
  hrun₁.snoc trivial hstart

/-- What a request knows when it has ended. -/
theorem knows_of_run (hd₀ : d₀.Consistent)
    (hrun₁ : SysRun ⟨.http, cache⟩ (RaceFree ⟨.http, cache⟩) d₀ ls₁ c₁)
    (hstart : c₁.next (.start t req) = some c₂)
    (hrun₂ : Run (RaceFree ⟨.http, cache⟩) c₂ ls₂ c) (hends : Ends c t) :
    ∃ x φ, c.st.txs t = some x ∧ Knows cache req d₀ c₁.st.wal.length c.st x φ ∧
      Justified req φ := by
  -- the log explains the tables at every step, which is what the learning asks for
  have hfrom : Run (FromLog cache d₀) c₂ ls₂ c := by
    have hrun := raceFree_start hrun₁ hstart
    clear hends
    induction hrun₂ with
    | nil => exact .nil
    | snoc hpre hl hnext ih =>
      exact ih.snoc ⟨hl, RaceFree.log hd₀ (Run.trans hrun hpre)⟩ hnext
  obtain ⟨hfree, rfl⟩ := next_start hstart
  have hknows : Knows cache req d₀ c₁.st.wal.length (c₁.st.start t req) { req } {} :=
    -- at its start the request knows nothing and has seen the log up to here
    ⟨rfl, le_rfl, fun _ => rfl, fun _ => rfl, rfl, nofun, rfl, fun _ hf => by cases hf⟩
  obtain ⟨p, φ, hpool, hfollows, x, hx, hknows⟩ := (learning_tracks hd₀).of_run
    (Function.update_self ..) (code_learns req) ⟨_, Sys.setTx_txs_self _, hknows⟩ hfrom
  obtain rfl : Prog.ret () = p := Option.some.inj (hends.symm.trans hpool)
  exact ⟨x, φ, hx, hknows, hfollows⟩

/-- The name of the item that the request would create is taken, and it has created none. -/
def NameTaken (d₀ : Db) (s : Sys) (t : TxId) (req : Request) (r : Response) : Prop :=
  NoCommit s t ∧ ∃ b detail, req = .createItem b ∧ takenIn d₀ s.wal b.name ∧ r = .error 500 detail

/-- How a request that has ended has taken effect, if nothing outside the program has
    failed it. -/
inductive Concluded (d₀ : Db) (s : Sys) (k₀ : Nat) (t : TxId) (x : Tx) (req : Request) : Prop
  | faulted : x.faulted = true → Concluded d₀ s k₀ t x req
  | taken (r : Response) : x.response = some r → NameTaken d₀ s t req r →
      Concluded d₀ s k₀ t x req
  | linearized (r : Response) : x.response = some r → Linearized d₀ s k₀ t req r →
      Concluded d₀ s k₀ t x req

/-- A request that has committed no row version has no entry in the log. -/
theorem noCommit_of_nothing {x : Tx} {s : Sys} (hlinked : Linked s)
    (hwrites : ∀ c ∈ s.wal, c.writes ≠ []) (hx : s.txs t = some x)
    (hnothing : ∀ d ws, x.commit = some (d, ws) → ws = []) : NoCommit s t := by
  rintro c hc rfl
  obtain ⟨y, d, hy, _, hcommit, _⟩ := hlinked.wal c hc
  obtain rfl := Option.some.inj (hx.symm.trans hy)
  exact hwrites c hc (hnothing d c.writes hcommit)

/-- What a request that is alone with its findings makes of them, when it has committed
    nothing. -/
private theorem linearized_of_reason {x : Tx} {φ : Knowledge} {e : Exc} {s : Sys} {k₀ : Nat}
    (hnone : NoCommit s t) (hknows : Knows cache req d₀ k₀ s x φ) (hclosed : Closed s t x)
    (hnothing : ∀ d ws, x.commit = some (d, ws) → ws = []) (hreason : Reason req φ.findings e) :
    Linearized d₀ s k₀ t req (.error e.statusCode e.message) := by
  by_cases hconflict : ∃ a id, e = .conflict a id
  · obtain ⟨name, id, rfl⟩ := hconflict
    cases hreason with
    | @conflict a id hreq hmoved =>
      -- another request has moved the order
      obtain ⟨j, c, o, hj, hc, ho, rfl⟩ := hknows.findings _ hmoved
      exact .conflict j c a o hnone hj hc ho hreq rfl
  · refine hreason.observes hnone hknows.findings (fun a id h => hconflict ⟨a, id, h⟩)
      fun id hwrote => ?_
    obtain ⟨w, hw | ⟨d, ws, hcommit, hw⟩, _⟩ := hknows.findings _ hwrote
    · rw [hclosed.writes] at hw
      cases hw
    · rw [hnothing d ws hcommit] at hw
      cases hw

/-- Answers of a request that has committed nothing. -/
private theorem linearized_of_nothing {x : Tx} {φ : Knowledge} {s : Sys} {k₀ : Nat} {r : Response}
    (hnone : NoCommit s t) (hknows : Knows cache req d₀ k₀ s x φ) (hclosed : Closed s t x)
    (hnothing : ∀ d ws, x.commit = some (d, ws) → ws = [])
    (hsaved : φ.done = false → req.isRead = false → ∀ status body, r ≠ .success status body)
    (hbroken : r.status ≠ 500) (htaken : ∀ b, req = .createItem b → r.status ≠ 409)
    (hsupports : Supports req φ r) : Linearized d₀ s k₀ t req r := by
  -- it has written nothing that would be its own
  have hown : ∀ w, .own w ∉ φ.findings := by
    intro w hw
    rcases hknows.findings _ hw with hw | ⟨d, ws, hcommit, hw⟩
    · rw [hclosed.writes] at hw
      cases hw
    · rw [hnothing d ws hcommit] at hw
      cases hw
  cases hsupports with
  | shown hshows =>
    cases hshows with
    | item _ _ hrow => exact absurd hrow (hown _)
    | order _ hrow => exact absurd hrow (hown _)
    | stock hreq hfound =>
      -- a stock read shows what it found
      subst hreq
      exact Shows.observes hnone (hknows.findings _ hfound)
  | unsaved hdone hwriter => exact absurd rfl (hsaved hdone hwriter _ _)
  | refused hreason => exact linearized_of_reason hnone hknows hclosed hnothing hreason
  | taken hreq => exact absurd rfl (htaken _ hreq)
  | invalid hvalid => exact .invalid hnone hvalid rfl
  | broken => exact absurd rfl hbroken

/-- Answers of a request that has committed something. -/
private theorem commits_of_commit {x : Tx} {φ : Knowledge} {s : Sys} {k₀ k : Nat} {r : Response}
    {ws : List Write} {e : Option Exc} {d d' : Db} {c : Commit} {wal : List Commit}
    (hlog : Log ⟨True, False, False⟩ d₀ s.wal s.db) (hd₀ : d₀.Consistent)
    (hunique : s.db.NamesUnique) (hknows : Knows cache req d₀ k₀ s x φ) (hclosed : Closed s t x)
    (hat : CommittedAt d₀ s t x d ws k c) (hk₀ : k₀ ≤ k) (hcommit : x.commit = some (d', ws))
    (hws : ws ≠ []) (heff : Effect ⟨True, False, False⟩ d₀ wal d req x.read e ws)
    (hanswers : Answers req r e) (hsupports : Supports req φ r) :
    Commits d₀ s k₀ t req r := by
  -- the inventory serves the request at its own commit
  have hreq : c.req = req := hat.req.trans hknows.request
  obtain ⟨e', heff', hserve⟩ := hlog.serve_at id id hd₀ hunique hat.entry (hat.writes ▸ hws)
  rw [hat.writes] at heff' hserve
  rw [hreq, ← hat.before] at heff'
  -- and the effect there is the one that the code was proved to have
  obtain rfl : e' = e := heff'.outcome_unique id heff hat.read hws
  refine ⟨k, c, answerOf ws e', hk₀, hat.entry, hat.tx, hreq, hserve, ?_⟩
  cases e' with
  | some e =>
    -- a refusal that commits: the rejected order
    exact hanswers.2
  | none =>
    obtain ⟨body, rfl⟩ := hanswers
    -- a success shows a row that the commit has written
    have hown : ∀ w, .own w ∈ φ.findings → w ∈ ws := by
      intro w hw
      rcases hknows.findings _ hw with hw | ⟨d₁, ws₁, hcommit₁, hw⟩
      · rw [hclosed.writes] at hw
        cases hw
      · obtain ⟨-, rfl⟩ := Prod.mk.inj (Option.some.inj (hcommit.symm.trans hcommit₁))
        exact hw
    cases hsupports with
    | shown hshows =>
      cases hshows with
      | @item row _ hno hrow =>
        rw [heff.answer_item hno (hown _ hrow)]
        exact ⟨row, rfl, rfl⟩
      | @order row _ hrow =>
        rw [heff.answer_order (hown _ hrow)]
        exact ⟨row, rfl, rfl⟩
      | stock hstock =>
        -- a stock read commits nothing
        subst hstock
        exact absurd (heff.read_writes id rfl) hws
    | unsaved hdone =>
      -- nothing can be unsaved that was committed
      have hnone := hknows.uncommitted hdone
      cases hcommit.symm.trans hnone

/-- How a request that has ended has taken effect. -/
theorem concluded_of_run (hd₀ : d₀.Consistent) (hunique : d₀.NamesUnique)
    (hrun₁ : SysRun ⟨.http, cache⟩ (RaceFree ⟨.http, cache⟩) d₀ ls₁ c₁)
    (hstart : c₁.next (.start t req) = some c₂)
    (hrun₂ : Run (RaceFree ⟨.http, cache⟩) c₂ ls₂ c) (hends : Ends c t) :
    ∃ x, c.st.txs t = some x ∧ Concluded d₀ c.st c₁.st.wal.length t x req := by
  have hrun : SysRun ⟨.http, cache⟩ (RaceFree ⟨.http, cache⟩) d₀ _ c :=
    (raceFree_start hrun₁ hstart).trans hrun₂
  obtain ⟨x, φ, hx, hknows, hjustified⟩ := knows_of_run hd₀ hrun₁ hstart hrun₂ hends
  -- what was found out is true, so the answer is supported
  have hsupported := hjustified.resolve_left fun h => hknows.findings _ h
  have hsupports : ∀ {r}, x.response = some r → Supports req φ r := fun hr =>
    hsupported _ (hknows.answered.symm.trans hr)
  have hlog := RaceFree.log hd₀ hrun
  have hlinked := hrun.linked hd₀
  have hclosed := closed_of_ends hrun hx hends
  obtain ⟨y, hy, hfinished⟩ := finished_of_run (A := ⟨True, False, False⟩) hd₀ (fun _ => trivial)
    (fun _ _ hl => hl) hrun rfl hends
  obtain rfl : x = y := Option.some.inj (hx.symm.trans hy)
  -- the cases without a commit
  have hnone : (∀ d ws, x.commit = some (d, ws) → ws = []) → NoCommit c.st t :=
    noCommit_of_nothing hlinked (wal_writes_of_run hrun) hx
  have huncommitted : x.commit = none → ∀ d ws, x.commit = some (d, ws) → ws = [] := by
    rintro hcommit d ws hcommit'
    cases hcommit.symm.trans hcommit'
  refine ⟨x, hx, ?_⟩
  cases hfinished with
  | failed hcommit hfailed hwhy =>
    obtain ⟨detail, hr⟩ := hfailed
    rcases hwhy with hfaulted | ⟨⟨b, hb, htaken⟩, _⟩
    · -- failed from outside
      exact .faulted hfaulted
    · -- or the name was taken
      have hreq : req = .createItem b := hknows.request.symm.trans hb
      exact .taken _ hr ⟨hnone (huncommitted hcommit), b, detail, hreq, htaken, rfl⟩
  | cancelled _ _ hfaulted => exact .faulted hfaulted
  | lost r hcommit hr hanswers hwhy =>
    rcases hwhy with hfaulted | hisRead
    · exact .faulted hfaulted
    · -- a stock read whose `COMMIT` has failed
      have hsupports := hsupports hr
      obtain ⟨body, rfl⟩ := hanswers
      rw [hknows.request] at hisRead
      have hlt := Request.successStatus_lt x.req
      have hnothing := huncommitted hcommit
      refine .linearized _ hr
        (linearized_of_nothing (hnone hnothing) hknows hclosed hnothing ?_ ?_ ?_ hsupports)
      · intro _ hwriter
        cases hwriter.symm.trans hisRead
      · simp only [Response.status]
        omega
      · rintro b rfl
        cases hisRead
  | invalid hcommit hvalid _ hinvalid =>
    -- refused by the request validation, before any statement
    obtain ⟨detail, hr⟩ := hinvalid
    have hnothing := huncommitted hcommit
    refine .linearized _ hr
      (linearized_of_nothing (hnone hnothing) hknows hclosed hnothing ?_ ?_ ?_ (hsupports hr))
    · rintro _ _ status body ⟨⟩
    · simp [Response.status]
    · simp [Response.status]
  | committed d ws e r hcommit _ heff hr hanswers =>
    have hsupports := hsupports hr
    obtain ⟨wal', _, _, heff⟩ := heff
    rw [hknows.request] at heff hanswers
    by_cases hws : ws = []
    · -- a `COMMIT` of nothing
      subst hws
      have hnothing : ∀ d' ws', x.commit = some (d', ws') → ws' = [] := by
        rintro d' ws' hcommit'
        exact (Prod.mk.inj (Option.some.inj (hcommit.symm.trans hcommit'))).2.symm
      refine .linearized _ hr
        (linearized_of_nothing (hnone hnothing) hknows hclosed hnothing ?_ ?_ ?_ hsupports)
      · intro hdone
        cases hcommit.symm.trans (hknows.uncommitted hdone)
      · exact hanswers.status_ne
      · rintro b rfl
        exact heff.created_status hanswers
    · -- a writer takes effect at its own commit
      obtain ⟨k, entry, hat⟩ := committedAt_of_run hd₀ hrun hx hcommit hws
      have hunknown : c₁.st.txs t = none := hrun₁.allStarted t (next_start hstart).1
      have hwal := wal_since_start hstart hrun₂
      have hunique' : c.st.db.NamesUnique := names_unique hd₀ hunique hrun
      have hcommits : Commits d₀ c.st c₁.st.wal.length t req r :=
        commits_of_commit hlog hd₀ hunique' hknows hclosed hat
          (hat.since (hrun₁.linked hd₀) hunknown hwal) hcommit hws heff hanswers hsupports
      exact .linearized _ hr hcommits.linearized

/-- Whatever else is going on in a run without races: a request that nothing outside the
    program has failed takes effect at one moment between its start and its end, on the
    tables that the requests committed by then have led to, and answers accordingly. If that
    is not at its own commit, it has committed nothing. Only the creation of an item whose
    name is taken is answered 500, and it has committed nothing either. -/
theorem http_linearizable (hd₀ : d₀.Consistent) (hunique : d₀.NamesUnique)
    (hrun₁ : SysRun ⟨.http, cache⟩ (RaceFree ⟨.http, cache⟩) d₀ ls₁ c₁)
    (hstart : c₁.next (.start t req) = some c₂)
    (hrun₂ : Run (RaceFree ⟨.http, cache⟩) c₂ ls₂ c) (hends : Ends c t) :
    ∃ x, c.st.txs t = some x ∧ (x.faulted = true ∨ ∃ r, x.response = some r ∧
      (NameTaken d₀ c.st t req r ∨ Linearized d₀ c.st c₁.st.wal.length t req r)) := by
  obtain ⟨x, hx, hconcluded⟩ := concluded_of_run hd₀ hunique hrun₁ hstart hrun₂ hends
  refine ⟨x, hx, ?_⟩
  cases hconcluded with
  | faulted hfaulted => exact Or.inl hfaulted
  | taken r hr htaken => exact Or.inr ⟨r, hr, Or.inl htaken⟩
  | linearized r hr hlinearized => exact Or.inr ⟨r, hr, Or.inr hlinearized⟩

end

/-- A confirmation that was overtaken. -/
theorem http_linearizable_overtaken : ∃ c₁ c₂ c,
    SysRun ⟨.http, ⟨true⟩⟩ (RaceFree ⟨.http, ⟨true⟩⟩) Db.empty overordered c₁ ∧
    c₁.next (.start 2 (.transition .confirm 2)) = some c₂ ∧
    Run (RaceFree ⟨.http, ⟨true⟩⟩) c₂ overtaken c ∧ Ends c 2 ∧
    ∃ x, c.st.txs 2 = some x ∧ (x.faulted = true ∨ ∃ r, x.response = some r ∧
      (NameTaken Db.empty c.st 2 (.transition .confirm 2) r ∨
        Linearized Db.empty c.st c₁.st.wal.length 2 (.transition .confirm 2) r)) := by
  obtain ⟨c, hrun, hends⟩ : ∃ c, SysRun ⟨.http, ⟨true⟩⟩ (RaceFree ⟨.http, ⟨true⟩⟩) Db.empty
      (overordered ++ ([.start 2 (.transition .confirm 2)] ++ overtaken)) c ∧
      decide (Ends c 2) = true :=
    Run.of_eval (fun c => decide (Ends c 2)) (by decide +kernel) (by decide +kernel)
  obtain ⟨c₁, hrun₁, hrest⟩ := hrun.split
  obtain ⟨c₂, hstart, hrun₂⟩ := hrest.split
  have hnext : c₁.next (.start 2 (.transition .confirm 2)) = some c₂ := by
    simpa [Config.run] using hstart.run_eq
  have ht : Ends c 2 := of_decide_eq_true hends
  exact ⟨c₁, c₂, c, hrun₁, hnext, hrun₂, ht, http_linearizable Db.consistent_empty
    Db.namesUnique_empty hrun₁ hnext hrun₂ ht⟩

end Nova
