import Nova.Spec.RouteCorrect

/-!
# Runs of the system

Every run of the system whose steps the contract admits keeps the contract
(`holds_of_run`), so its committed tables come from a `Log`. `Linked` ties the log
to the requests: every commit of the log is the one commit of its transaction.
-/

namespace Nova

open Machine

variable {cfg : Config}

/-- `P` holds of the call that a move makes, if it makes one. -/
def OnCall (P : Env → TxId → Stmt → Sys → Prop) (c : (system cfg).Config) :
    (system cfg).Label → Prop
  | .step t e =>
    match c.pool t with
    | some (.call o _) => P e t o c.st
    | _ => True
  | .start _ _ | .tick _ => True

instance (P : Env → TxId → Stmt → Sys → Prop) [hdec : ∀ e t o s, Decidable (P e t o s)]
    (c : (system cfg).Config) : ∀ l, Decidable (OnCall P c l)
  | .step t e =>
    show Decidable (match c.pool t with
      | some (.call o _) => P e t o c.st
      | _ => True) from
    match c.pool t with
    | some (.call o _) => hdec e t o c.st
    | some (.ret _) | none => isTrue trivial
  | .start _ _ | .tick _ => isTrue trivial

/-- What holds on every call of a move holds on its call. -/
theorem OnCall.apply {P : Env → TxId → Stmt → Sys → Prop} {c : (system cfg).Config} {t : TxId}
    {e : Env} {o : Stmt} {k : o.Res → Code Unit} (h : OnCall P c (.step t e))
    (hpool : c.pool t = some (.call o k)) : P e t o c.st := by
  simpa only [OnCall, hpool] using h

/-- What holds of every statement holds on every call. -/
theorem OnCall.of_all {P : Env → TxId → Stmt → Sys → Prop} {c : (system cfg).Config}
    (h : ∀ e t o, P e t o c.st) (l : (system cfg).Label) : OnCall P c l := by
  cases l with
  | start t r => trivial
  | tick d => trivial
  | step t e =>
    simp only [OnCall]
    split
    · exact h _ _ _
    · trivial

/-- A condition on calls may be weakened. -/
theorem OnCall.mono {P P' : Env → TxId → Stmt → Sys → Prop} {c : (system cfg).Config}
    {l : (system cfg).Label} (h : OnCall P c l) (himp : ∀ e t o s, P e t o s → P' e t o s) :
    OnCall P' c l := by
  cases l with
  | start t r => trivial
  | tick d => trivial
  | step t e =>
    simp only [OnCall] at h ⊢
    split
    · -- the call that is made
      rename_i o k hpool
      simp only [hpool] at h
      exact himp e t o c.st h
    · trivial

/-- A system with all effects admits every step. -/
theorem admitted_any (c : (system cfg).Config) (l : (system cfg).Label) :
    OnCall (Admitted cfg ⟨True, True, True⟩) c l :=
  .of_all (fun _ _ _ => ⟨Or.inl trivial, Or.inl trivial⟩) l

/-- A run of the system from the tables `d₀`, whose moves satisfy `ok`. -/
abbrev SysRun (cfg : Config) (ok : (system cfg).Config → (system cfg).Label → Prop) (d₀ : Db) :
    List (system cfg).Label → (system cfg).Config → Prop :=
  Run ok ((system cfg).idle (Sys.init d₀))

/-- If a move starts a request, the request satisfies `P`. -/
def Starts (P : Request → Prop) : (system cfg).Label → Prop
  | .start _ req => P req
  | .step _ _ | .tick _ => True

instance (P : Request → Prop) [hdec : DecidablePred P] :
    ∀ l : (system cfg).Label, Decidable (Starts P l)
  | .start _ req => hdec req
  | .step _ _ | .tick _ => isTrue trivial

/-- The next calls of request `t`, each with a fresh id. -/
def turns (t : TxId) (uuids : List Uuid) : List (system cfg).Label :=
  uuids.map fun uuid => .step t { uuid }

/-- Request `t` has ended. -/
def Ends (c : (system cfg).Config) (t : TxId) : Prop := c.pool t = some (.ret ())

instance (c : (system cfg).Config) (t : TxId) : Decidable (Ends c t) :=
  match h : c.pool t with
  | some (.ret ()) => isTrue h
  | some (.call _ _) => isFalse fun he => nomatch h.symm.trans he
  | none => isFalse fun he => nomatch h.symm.trans he

/-- A request that makes a call has not ended. -/
theorem not_ends_of_call {c : (system cfg).Config} {t : TxId} {o : Stmt} {k : o.Res → Code Unit}
    (hcall : c.pool t = some (.call o k)) : ¬Ends c t := by
  rw [Ends, hcall]
  intro h
  cases h

/-- The response that request `t` is about to send. -/
def answering (c : (system cfg).Config) (t : TxId) : Option Response :=
  match c.pool t with
  | some (.call (.respond r) _) => some r
  | _ => none

/-- A request is answering when its next call sends a response. -/
theorem answering_eq_some {c : (system cfg).Config} {t : TxId} {r : Response} :
    answering c t = some r ↔ ∃ k, c.pool t = some (.call (.respond r) k) := by
  constructor
  · intro h
    simp only [answering] at h
    split at h
    · -- the next call is a response
      rename_i r' k hpool
      obtain rfl := Option.some.inj h
      exact ⟨k, hpool⟩
    · cases h
  · rintro ⟨k, hpool⟩
    simp only [answering, hpool]

/-- Every request that has started has ended. -/
def AtRest (c : (system cfg).Config) : Prop := ∀ t, c.pool t = none ∨ Ends c t

variable {A : Allow} {d₀ : Db} {ok : (system cfg).Config → (system cfg).Label → Prop}
  {ls : List (system cfg).Label} {c : (system cfg).Config}

/-- A run whose requests have all ended is at rest. -/
theorem SysRun.atRest (hrun : SysRun cfg ok d₀ ls c)
    (h : ∀ t ∈ ls.filterMap Label.starts, Ends c t) : AtRest c := by
  intro t
  by_cases hpool : c.pool t = none
  · exact Or.inl hpool
  · exact Or.inr (h t (hrun.mem_starts hpool))

/-- Every admitted run keeps the contract. -/
theorem holds_of_run (hd₀ : d₀.Consistent) (hexc : cfg.harness = .http → A.exceptions)
    (hok : ∀ c l, ok c l → OnCall (Admitted cfg A) c l) (hrun : SysRun cfg ok d₀ ls c) :
    (contract cfg A d₀).Holds c :=
  Contract.sound (contract_holds hd₀ hexc)
    (fun c _ _ _ _ hl hpool => (hok c _ hl).apply hpool) (Inv.init A d₀) hrun

/-- In every admitted run the log holds the effects of its requests. -/
theorem log_of_run (hd₀ : d₀.Consistent) (hexc : cfg.harness = .http → A.exceptions)
    (hok : ∀ c l, ok c l → OnCall (Admitted cfg A) c l) (hrun : SysRun cfg ok d₀ ls c) :
    Log A d₀ c.st.wal c.st.db :=
  (holds_of_run hd₀ hexc hok hrun).1.log

/-- The step rule for invariants of runs, with the contract at hand. -/
theorem SysRun.invariant (hd₀ : d₀.Consistent) (hexc : cfg.harness = .http → A.exceptions)
    (hok : ∀ c l, ok c l → OnCall (Admitted cfg A) c l)
    {I : (system cfg).Config → Prop} (h₀ : I ((system cfg).idle (Sys.init d₀)))
    (hstep : ∀ c l c', (contract cfg A d₀).Holds c → I c → ok c l → c.next l = some c' → I c')
    (hrun : SysRun cfg ok d₀ ls c) : I c :=
  Run.invariant (contract_holds hd₀ hexc)
    (fun c _ _ _ _ hl hpool => (hok c _ hl).apply hpool) (Inv.init A d₀) h₀ hstep hrun

/-! ## What a move leaves of the transactions -/

/-- What a move leaves of the transactions and of the log. -/
theorem Move.frame {e : Env} {o : Stmt} {t : TxId} {x : Tx} {s s' : Sys} (hx : s.txs t = some x)
    (h : Move e o t x s s') :
    s'.wal = s.wal ∧ s'.db = s.db ∧ ∃ x', s'.txs = Function.update s.txs t (some x') ∧
    x.Keeps x' := by
  cases h with
  | note x' _ hk => exact ⟨rfl, rfl, x', rfl, hk⟩
  | published id q => exact ⟨rfl, rfl, _, rfl, rfl, rfl, fun _ h => h, fun h => h, fun h => h⟩
  | locked ls _ =>
    -- the record itself does not change
    refine ⟨rfl, rfl, x, ?_, .refl x⟩
    show s.txs = _
    rw [← hx, Function.update_eq_self]
  | wrote ls w _ _ _ _ _ => exact ⟨rfl, rfl, _, rfl, rfl, rfl, fun _ h => h, fun h => h, fun h => h⟩
  | ended x' _ _ hk => exact ⟨rfl, rfl, x', rfl, hk⟩

/-- An await of another transaction leaves the record of `t'` alone. -/
theorem exec_txs_ne {e : Env} {o : Stmt} {t t' : TxId} {s s' : Sys} {r : o.Res}
    (hexec : exec e t o s = some (r, s')) (ht : t' ≠ t) : s'.txs t' = s.txs t' := by
  obtain ⟨x, _, hmove | ⟨_, _, rfl⟩⟩ := exec_move hexec
  · exact (hmove.later_of_ne ht).1
  · exact Sys.setTx_txs_ne ht _

/-- No await changes the request of its transaction. -/
theorem exec_req {e : Env} {o : Stmt} {t : TxId} {x x' : Tx} {s s' : Sys} {r : o.Res}
    (hx : s.txs t = some x) (hexec : exec e t o s = some (r, s')) (hx' : s'.txs t = some x') :
    x'.req = x.req := by
  obtain ⟨y, hy, hmove | ⟨_, _, rfl⟩⟩ := exec_move hexec
  · -- a move keeps the request of its record
    obtain ⟨_, _, z, htxs, hkeeps⟩ := hmove.frame hy
    rw [htxs, Function.update_self] at hx'
    obtain rfl := Option.some.inj hx'
    obtain rfl := Option.some.inj (hy.symm.trans hx)
    exact hkeeps.req
  · -- so does a `COMMIT`
    obtain rfl := Option.some.inj (hy.symm.trans hx)
    obtain rfl := Option.some.inj ((Sys.setTx_txs_self _).symm.trans hx')
    rfl

/-- To show something of every record after one has changed, show it of that one. -/
theorem forall_update {P : TxId → Tx → Prop} {txs : TxId → Option Tx} {t : TxId} {x' : Tx}
    (h : ∀ t x, txs t = some x → P t x) (hx' : P t x') :
    ∀ t' y, Function.update txs t (some x') t' = some y → P t' y := by
  intro t' y hy
  by_cases ht : t' = t
  · subst ht
    rw [Function.update_self, Option.some.injEq] at hy
    exact hy ▸ hx'
  · rw [Function.update_of_ne ht] at hy
    exact h t' y hy

/-- What the record `x'` of a transaction takes from an await `o` in `s`: what a read
    has returned, and the response. -/
structure Tx.Notes (s : Sys) (o : Stmt) (x x' : Tx) : Prop where
  read : x'.read = x.read ∨
    ∃ id, o = .selectOrder id ∧ x'.read = x.read.or ((s.view x).orders.find? id)
  seen : x'.seen = x.seen ∨ ∃ id, o = .selectItem id ∧ x'.seen = some ((s.view x).items.find? id)
  cached : x'.cached = x.cached ∨ ∃ id, o = .redisGet id ∧ x'.cached = s.cache id
  response : x'.response = x.response ∨ ∃ r, o = .respond r ∧ x'.response = some r

section

variable {e : Env} {o : Stmt} {t : TxId} {x : Tx} {s s' : Sys} {α : Type} {r r' : α}

/-- A record may stay as it is. -/
theorem Tx.Notes.refl (x : Tx) : x.Notes s o x := ⟨Or.inl rfl, Or.inl rfl, Or.inl rfl, Or.inl rfl⟩

/-- After the await the state knows a record that `x` may have become. -/
private def Noted (s : Sys) (o : Stmt) (t : TxId) (x : Tx) (s' : Sys) : Prop :=
  ∃ x', s'.txs t = some x' ∧ x.Notes s o x'

/-- A statement that changes nothing notes nothing. -/
private theorem noted_self (hx : s.txs t = some x) : Noted s o t x s := ⟨x, hx, .refl x⟩

/-- An abort notes nothing. -/
private theorem noted_abort : Noted s o t x (s.abort t x) := by
  refine ⟨{ x with writes := [], aborted := true }, Sys.setTx_txs_self _, ?_⟩
  exact ⟨Or.inl rfl, Or.inl rfl, Or.inl rfl, Or.inl rfl⟩

/-- A write notes nothing. -/
private theorem noted_acquire {s₁ : Sys} {ls : List (Row × LockMode)} {w : Write}
    (hacq : s.acquire t ls = some s₁) (heq : (r, s₁.write t x w) = (r', s')) :
    Noted s o t x s' := by
  obtain ⟨rfl, _⟩ := Sys.acquire_some hacq
  obtain ⟨_, rfl⟩ := Prod.mk.inj heq
  refine ⟨{ x with writes := x.writes ++ [w] }, Sys.setTx_txs_self _, ?_⟩
  exact ⟨Or.inl rfl, Or.inl rfl, Or.inl rfl, Or.inl rfl⟩

/-- Every statement notes what it has read, and no more. -/
private theorem run_notes {r : o.Res} (hx : s.txs t = some x)
    (h : s.run t x e o = some (r, s')) : Noted s o t x s' := by
  cases o with
  | selectItem id =>
    -- the reads note what they return
    obtain ⟨_, rfl⟩ := Prod.mk.inj (Option.some.inj h)
    exact ⟨_, Sys.setTx_txs_self _, Or.inl rfl, Or.inr ⟨id, rfl, rfl⟩, Or.inl rfl, Or.inl rfl⟩
  | selectOrder id =>
    obtain ⟨_, rfl⟩ := Prod.mk.inj (Option.some.inj h)
    exact ⟨_, Sys.setTx_txs_self _, Or.inr ⟨id, rfl, rfl⟩, Or.inl rfl, Or.inl rfl, Or.inl rfl⟩
  | redisGet id =>
    obtain ⟨_, rfl⟩ := Prod.mk.inj (Option.some.inj h)
    exact ⟨_, Sys.setTx_txs_self _, Or.inl rfl, Or.inl rfl, Or.inr ⟨id, rfl, rfl⟩, Or.inl rfl⟩
  | respond res =>
    obtain ⟨_, rfl⟩ := Prod.mk.inj (Option.some.inj h)
    exact ⟨_, Sys.setTx_txs_self _, Or.inl rfl, Or.inl rfl, Or.inl rfl, Or.inr ⟨res, rfl, rfl⟩⟩
  | redisSetex | commit | rollback =>
    obtain ⟨_, rfl⟩ := Prod.mk.inj (Option.some.inj h)
    exact ⟨_, Sys.setTx_txs_self _, Or.inl rfl, Or.inl rfl, Or.inl rfl, Or.inl rfl⟩
  | selectItemForUpdate id =>
    -- locks and changes note nothing
    simp only [Sys.run] at h
    split at h
    · obtain ⟨_, rfl⟩ := Prod.mk.inj (Option.some.inj h)
      -- no row
      exact noted_self hx
    · obtain ⟨s₁, hacq, heq⟩ := Option.map_eq_some_iff.mp h
      obtain ⟨_, rfl⟩ := Prod.mk.inj heq
      obtain ⟨rfl, _⟩ := Sys.acquire_some hacq
      exact ⟨x, hx, .refl x⟩
  | insertItem n =>
    simp only [Sys.run, Sys.insertItem] at h
    split at h
    · split at h
      · obtain ⟨_, rfl⟩ := Prod.mk.inj (Option.some.inj h)
        -- a CHECK constraint fails
        exact noted_abort
      · obtain ⟨s₁, hacq, heq⟩ := Option.map_eq_some_iff.mp h
        split at heq
        · obtain ⟨_, rfl⟩ := Prod.mk.inj heq
          -- the name is taken
          exact noted_abort
        · exact noted_acquire hacq heq
    · cases h
  | updateItem id c =>
    simp only [Sys.run, Sys.updateItem] at h
    split at h
    · obtain ⟨_, rfl⟩ := Prod.mk.inj (Option.some.inj h)
      -- no row
      exact noted_abort
    · split at h
      · obtain ⟨_, rfl⟩ := Prod.mk.inj (Option.some.inj h)
        exact noted_abort
      · obtain ⟨s₁, hacq, heq⟩ := Option.map_eq_some_iff.mp h
        exact noted_acquire hacq heq
  | insertOrder n =>
    simp only [Sys.run, Sys.insertOrder] at h
    split at h
    · split at h
      · obtain ⟨s₁, hacq, heq⟩ := Option.map_eq_some_iff.mp h
        exact noted_acquire hacq heq
      · -- a CHECK constraint or the foreign key fails
        obtain ⟨_, rfl⟩ := Prod.mk.inj (Option.some.inj h)
        exact noted_abort
    · cases h
  | updateOrder id v st =>
    simp only [Sys.run, Sys.updateOrder] at h
    split at h
    · obtain ⟨_, rfl⟩ := Prod.mk.inj (Option.some.inj h)
      -- no row
      exact noted_self hx
    · split at h
      · obtain ⟨s₁, hacq, heq⟩ := Option.map_eq_some_iff.mp h
        exact noted_acquire hacq heq
      · obtain ⟨_, rfl⟩ := Prod.mk.inj (Option.some.inj h)
        -- another version
        exact noted_self hx
  | insertMovement n =>
    simp only [Sys.run, Sys.insertMovement] at h
    split at h
    · split at h
      · obtain ⟨s₁, hacq, heq⟩ := Option.map_eq_some_iff.mp h
        exact noted_acquire hacq heq
      · obtain ⟨_, rfl⟩ := Prod.mk.inj (Option.some.inj h)
        -- a foreign key fails
        exact noted_abort
    · cases h

/-- What any await leaves in the record of its transaction. -/
theorem exec_notes {r : o.Res} (hx : s.txs t = some x) (h : exec e t o s = some (r, s')) :
    ∃ x', s'.txs t = some x' ∧ x.Notes s o x' := by
  unfold exec at h
  rw [hx] at h
  simp only at h
  split at h
  · -- aborted before: nothing is noted
    obtain ⟨_, rfl⟩ := Prod.mk.inj (Option.some.inj h)
    exact noted_self hx
  split at h
  · -- the statement runs
    exact run_notes hx h
  rename_i f _
  split at h
  · obtain ⟨_, rfl⟩ := Prod.mk.inj (Option.some.inj h)
    -- an SQL statement is failed
    exact ⟨_, Sys.setTx_txs_self _, Or.inl rfl, Or.inl rfl, Or.inl rfl, Or.inl rfl⟩
  split at h
  · obtain ⟨_, rfl⟩ := Prod.mk.inj (Option.some.inj h)
    refine ⟨_, Sys.setTx_txs_self _, ?_⟩
    -- a Redis command is failed
    cases f <;> exact ⟨Or.inl rfl, Or.inl rfl, Or.inl rfl, Or.inl rfl⟩
  · -- a rollback and a response run all the same
    exact run_notes hx h

end

/-- Every transaction is for one of the requests that may be started. -/
def Serves (P : Request → Prop) (s : Sys) : Prop := ∀ t x, s.txs t = some x → P x.req

/-- No move changes the request of a transaction. -/
theorem Serves.next {P : Request → Prop} {c c' : (system cfg).Config} {l : (system cfg).Label}
    (h : Serves P c.st) (hl : Starts P l) (hnext : c.next l = some c') : Serves P c'.st := by
  cases l with
  | start t req =>
    obtain ⟨_, rfl⟩ := next_start hnext
    -- the request that starts satisfies `P`
    exact forall_update (P := fun _ x => P x.req) h hl
  | step t e =>
    obtain ⟨o, k, r, s, _, hexec, rfl⟩ := next_step hnext
    obtain ⟨x, hx, hmove | ⟨rfl, _, rfl⟩⟩ := exec_move hexec
    · -- a record keeps its request
      obtain ⟨_, _, x', htxs, hk⟩ := hmove.frame hx
      intro t' y hy
      rw [htxs] at hy
      exact forall_update (P := fun _ x => P x.req) h (hk.req ▸ h t x hx) t' y hy
    · exact forall_update (P := fun _ x => P x.req) h (h t x hx)
  | tick id =>
    obtain rfl := next_tick hnext
    exact h

/-- An await makes a request a faulted one only where it is broken itself. -/
theorem exec_faulted {e : Env} {o : Stmt} {t : TxId} {x x' : Tx} {s s' : Sys} {r : o.Res}
    (hx : s.txs t = some x) (hexec : exec e t o s = some (r, s')) (hx' : s'.txs t = some x')
    (hfaulted : x'.faulted = true) : x.faulted = true ∨ e.breaks o = true := by
  -- the record that was set is the one that is faulted
  have hset : ∀ {s₁ : Sys} {y : Tx}, (s₁.setTx t y).txs t = some x' → y.faulted = true := by
    intro s₁ y hy
    obtain rfl := Option.some.inj ((Sys.setTx_txs_self _).symm.trans hy)
    exact hfaulted
  obtain ⟨y, hy, hmove | ⟨_, _, rfl⟩⟩ := exec_move hexec
  · obtain rfl := Option.some.inj (hx.symm.trans hy)
    cases hmove with
    | note y _ _ hq | ended y _ _ _ hq =>
      -- only a fault marks the record
      exact hq.faulted (hset hx')
    | published id q => exact Or.inl (hset (y := { x with published := some (id, q) }) hx')
    | wrote ls w => exact Or.inl (hset (y := { x with writes := x.writes ++ [w] }) hx')
    | locked ls =>
      obtain rfl := Option.some.inj (hx.symm.trans hx')
      exact Or.inl hfaulted
  · -- a `COMMIT` that runs was not failed
    obtain rfl := Option.some.inj (hx.symm.trans hy)
    exact Or.inl (hset (y := { x with writes := [], commit := some (s.db, x.writes) }) hx')

/-- A faulted request stays one. -/
theorem exec_stays_faulted {e : Env} {o : Stmt} {t : TxId} {x x' : Tx} {s s' : Sys} {r : o.Res}
    (hx : s.txs t = some x) (hexec : exec e t o s = some (r, s')) (hx' : s'.txs t = some x')
    (hfaulted : x.faulted = true) : x'.faulted = true := by
  obtain ⟨y, hy, hmove | ⟨_, _, rfl⟩⟩ := exec_move hexec
  · obtain ⟨_, _, z, htxs, hkeeps⟩ := hmove.frame hy
    rw [htxs, Function.update_self] at hx'
    obtain rfl := Option.some.inj hx'
    obtain rfl := Option.some.inj (hy.symm.trans hx)
    -- a mark is not taken away
    exact hkeeps.faulted hfaulted
  · obtain rfl := Option.some.inj (hy.symm.trans hx)
    obtain rfl := Option.some.inj ((Sys.setTx_txs_self _).symm.trans hx')
    exact hfaulted

/-- Where only Redis commands fail, no request is failed from outside. -/
theorem SysRun.unfaulted (hbreak : ∀ c l, ok c l → OnCall (fun e _ o _ => e.breaks o = false) c l)
    (hrun : SysRun cfg ok d₀ ls c) : ∀ t x, c.st.txs t = some x → x.faulted = false := by
  induction hrun with
  | nil =>
    intro t x hx
    cases hx
  | @snoc ls c l c' _ hl hnext ih =>
    cases l with
    | start t req =>
      obtain ⟨_, rfl⟩ := next_start hnext
      exact forall_update ih rfl
    | step t e =>
      obtain ⟨o, k, r, s, hcall, hexec, rfl⟩ := next_step hnext
      have hcalm : e.breaks o = false := (hbreak c _ hl).apply hcall
      obtain ⟨x, hx, _⟩ := exec_move hexec
      -- the request that moves has not failed before, and does not now
      intro t' y hy
      by_cases ht : t' = t
      · subst ht
        by_contra hf
        rcases exec_faulted hx hexec hy (by simpa using hf) with hf | hf
        · cases (ih t' x hx).symm.trans hf
        · cases hcalm.symm.trans hf
      · -- the others do not change
        exact ih t' y ((exec_txs_ne hexec ht).symm.trans hy)
    | tick id =>
      obtain rfl := next_tick hnext
      exact ih

/-- The log only grows. -/
theorem wal_of_run {c₁ c₂ : (system cfg).Config} (hrun : Run ok c₁ ls c₂) :
    c₁.st.wal <+: c₂.st.wal := by
  induction hrun with
  | nil => exact List.prefix_rfl
  | @snoc ls c l c' _ _ hnext ih =>
    refine ih.trans ?_
    cases l with
    | start t req =>
      obtain ⟨_, rfl⟩ := next_start hnext
      -- a start logs nothing
      exact List.prefix_rfl
    | step t e =>
      obtain ⟨_, _, _, s, _, hexec, rfl⟩ := next_step hnext
      obtain ⟨x, hx, hmove | ⟨_, _, rfl⟩⟩ := exec_move hexec
      · obtain ⟨hwal, _⟩ := hmove.frame hx
        -- a statement other than `COMMIT` logs nothing
        exact hwal ▸ List.prefix_rfl
      · -- a `COMMIT` appends
        show c.st.wal <+:
          if x.writes = [] then c.st.wal else c.st.wal ++ [⟨t, x.req, x.read, x.writes⟩]
        split
        · exact List.prefix_rfl
        · exact List.prefix_append _ _
    | tick id =>
      obtain rfl := next_tick hnext
      exact List.prefix_rfl

/-- Every transaction belongs to a request that was started. -/
theorem SysRun.started (hrun : SysRun cfg ok d₀ ls c) {t : TxId} {x : Tx}
    (hx : c.st.txs t = some x) : .start t x.req ∈ ls := by
  induction hrun generalizing t x with
  | nil => cases hx
  | @snoc ls c l c' _ _ hnext ih =>
    let Asked : TxId → Tx → Prop := fun t x => .start t x.req ∈ ls ++ [l]
    have hold : ∀ t x, c.st.txs t = some x → Asked t x := fun t x hx =>
      List.mem_append_left _ (ih hx)
    cases l with
    | start t' req =>
      obtain ⟨_, rfl⟩ := next_start hnext
      exact forall_update (P := Asked) hold (List.mem_append_right _ (by simp)) t x hx
    | step t' e =>
      -- no statement changes what a transaction was asked
      obtain ⟨_, _, _, s, _, hexec, rfl⟩ := next_step hnext
      obtain ⟨y, hy, hmove | ⟨_, _, rfl⟩⟩ := exec_move hexec
      · obtain ⟨_, _, x', htxs, hk⟩ := hmove.frame hy
        have hasked : Asked t' x' := by
          simp only [Asked, hk.req]
          exact hold t' y hy
        rw [htxs] at hx
        exact forall_update hold hasked t x hx
      · refine forall_update (P := Asked) hold ?_ t x hx
        exact hold t' y hy
    | tick id =>
      obtain rfl := next_tick hnext
      exact hold t x hx

/-- In a run that starts only requests that satisfy `P`, all moves may assume `P` of
    every request. -/
theorem SysRun.serves {P : Request → Prop} (hok : ∀ c l, ok c l → Starts P l)
    (hrun : SysRun cfg ok d₀ ls c) :
    SysRun cfg (fun c l => ok c l ∧ Serves P c.st) d₀ ls c ∧ Serves P c.st :=
  Run.assume (I := fun c => Serves P c.st) hrun (fun _ _ hx => nomatch hx)
    fun _ _ _ h hl hnext => h.next (hok _ _ hl) hnext

/-- A system without stock reads needs no restriction on them. -/
theorem currentRead_of_serves {s : Sys} (h : Serves (·.isRead = false) s) (e : Env) (t : TxId)
    (o : Stmt) : CurrentRead e t o s = true := by
  unfold CurrentRead
  split
  · rename_i id x hx
    simp [h t x hx]
  · rfl

/-! ## Commits and their transactions -/

/-- Every commit of the log is the one commit of its transaction. -/
structure Linked (s : Sys) : Prop where
  wal : ∀ r ∈ s.wal, ∃ x d, s.txs r.tx = some x ∧ x.req = r.req ∧
    x.commit = some (d, r.writes) ∧ ∀ o, r.read = some o → x.read = some o
  once : (s.wal.map (·.tx)).Nodup
  committed : ∀ t x d ws, s.txs t = some x → x.commit = some (d, ws) → ws ≠ [] →
    ∃ r ∈ s.wal, r.tx = t ∧ r.writes = ws

/-- At the start nothing is logged. -/
theorem Linked.init (d₀ : Db) : Linked (Sys.init d₀) where
  wal _ hr := nomatch hr
  once := List.nodup_nil
  committed _ _ _ _ hx := nomatch hx

/-- A step that keeps the log and what the transactions have committed. -/
private theorem linked_keep {s s' : Sys} (h : Linked s) (hwal : s'.wal = s.wal)
    (hold : ∀ t x, s.txs t = some x → ∃ x', s'.txs t = some x' ∧ x.Keeps x')
    (hnew : ∀ t x', s'.txs t = some x' → x'.commit = none ∨ ∃ x, s.txs t = some x ∧ x.Keeps x') :
    Linked s' where
  wal r hr := by
    rw [hwal] at hr
    obtain ⟨x, d, hx, hreq, hcommit, hread⟩ := h.wal r hr
    -- the record may have changed, but not its commit
    obtain ⟨x', hx', hk⟩ := hold _ x hx
    exact ⟨x', d, hx', hk.req.trans hreq, hk.commit.trans hcommit,
      fun o ho => hk.read o (hread o ho)⟩
  once := by rw [hwal]; exact h.once
  committed t x' d ws hx' hcommit hne := by
    rw [hwal]
    rcases hnew t x' hx' with hnone | ⟨x, hx, hk⟩
    · -- a new record has committed nothing
      rw [hnone] at hcommit
      cases hcommit
    · exact h.committed t x d ws hx (hk.commit ▸ hcommit) hne

/-- `COMMIT` of a transaction that has not committed. -/
private theorem linked_commit {s : Sys} {t : TxId} {x : Tx} (h : Linked s)
    (hx : s.txs t = some x) (hnew : x.commit = none) : Linked (s.commit t x) := by
  -- a record of `t` would be of an earlier commit of `t`
  have hother : ∀ r ∈ s.wal, r.tx ≠ t := by
    intro r hr htx
    obtain ⟨x', d, hx', _, hcommit, _⟩ := h.wal r hr
    rw [htx, hx] at hx'
    obtain rfl := Option.some.inj hx'
    rw [hnew] at hcommit
    cases hcommit
  have htxs : (s.commit t x).txs =
      Function.update s.txs t (some { x with writes := [], commit := some (s.db, x.writes) }) := rfl
  have hwal : (s.commit t x).wal =
      if x.writes = [] then s.wal else s.wal ++ [⟨t, x.req, x.read, x.writes⟩] := rfl
  -- so the transactions of the old records are not touched
  have hold : ∀ r ∈ s.wal, ∃ y d, (s.commit t x).txs r.tx = some y ∧ y.req = r.req ∧
      y.commit = some (d, r.writes) ∧ ∀ o, r.read = some o → y.read = some o := by
    intro r hr
    rw [htxs, Function.update_of_ne (hother r hr)]
    exact h.wal r hr
  constructor
  · intro r hr
    rw [hwal] at hr
    split at hr
    · exact hold r hr
    · rcases List.mem_append.mp hr with hr | hr
      · exact hold r hr
      · obtain rfl := List.mem_singleton.mp hr
        exact ⟨{ x with writes := [], commit := some (s.db, x.writes) }, s.db,
          by rw [htxs, Function.update_self], rfl, rfl, fun _ ho => ho⟩
  · rw [hwal]
    split
    · exact h.once
    · rw [List.map_append, List.nodup_append]
      refine ⟨h.once, by simp, fun a ha b hb => ?_⟩
      obtain ⟨r, hr, rfl⟩ := List.mem_map.mp ha
      obtain rfl : t = b := by simpa [eq_comm] using hb
      exact hother r hr
  · -- `t` has the record just written, the others have theirs
    intro t' y d ws hy hcommit hne
    rw [hwal]
    by_cases ht : t' = t
    · subst ht
      rw [htxs, Function.update_self, Option.some.injEq] at hy
      subst hy
      obtain ⟨_, rfl⟩ := Prod.mk.inj (Option.some.inj hcommit)
      rw [if_neg hne]
      exact ⟨_, List.mem_append_right _ (List.mem_singleton.mpr rfl), rfl, rfl⟩
    · rw [htxs, Function.update_of_ne ht] at hy
      obtain ⟨r, hr, htx, hws⟩ := h.committed t' y d ws hy hcommit hne
      refine ⟨r, ?_, htx, hws⟩
      split
      · exact hr
      · exact List.mem_append_left _ hr

/-- The transactions of a run are those of its started threads. -/
def Started (c : (system cfg).Config) : Prop := ∀ t, c.pool t = none → c.st.txs t = none

/-- One more move keeps the records to started threads. -/
theorem Started.next {c c' : (system cfg).Config} {l : (system cfg).Label} (h : Started c)
    (hnext : c.next l = some c') : Started c' := by
  -- a thread that is not in the pool is not the one that moved
  have hupdate : ∀ {t : TxId} {p : Code Unit} {txs : TxId → Option Tx},
      (∀ t', t' ≠ t → txs t' = c.st.txs t') →
      ∀ t', Function.update c.pool t (some p) t' = none → txs t' = none := by
    intro t p txs htxs t' ht'
    by_cases ht : t' = t
    · subst ht
      simp at ht'
    · rw [Function.update_of_ne ht] at ht'
      exact (htxs t' ht).trans (h t' ht')
  cases l with
  | start t req =>
    obtain ⟨_, rfl⟩ := next_start hnext
    exact hupdate fun t' ht => Sys.setTx_txs_ne ht _
  | step t e =>
    obtain ⟨_, _, _, _, _, hexec, rfl⟩ := next_step hnext
    exact hupdate fun t' ht => exec_txs_ne hexec ht
  | tick id =>
    obtain rfl := next_tick hnext
    exact h

/-- In every run only started threads have a record. -/
theorem SysRun.allStarted (hrun : SysRun cfg ok d₀ ls c) : Started c := by
  induction hrun with
  | nil => exact fun _ _ => rfl
  | snoc _ _ hnext ih => exact ih.next hnext

/-- At rest every request has ended. -/
theorem SysRun.ends_of_atRest (hrun : SysRun cfg ok d₀ ls c) (hrest : AtRest c) {t : TxId} {x : Tx}
    (hx : c.st.txs t = some x) : Ends c t := by
  refine (hrest t).resolve_left fun hpool => ?_
  rw [hrun.allStarted t hpool] at hx
  cases hx

/-- What the contract tells about the next await of a request, of which the state
    knows `x`. -/
structure Awaits (cfg : Config) (A : Allow) (d₀ : Db) (t : TxId) (x : Tx) (o : Stmt) (s : Sys) :
    Prop where
  inv : Inv A d₀ s
  tx : s.txs t = some x
  readOnly : x.req.isRead = true → A.overwrite ∨ o.readOnly = true
  pre : x.Pre cfg A d₀ t s o

/-- The step rule by the kinds of move, for invariants of the state. -/
theorem SysRun.state_invariant {I : Sys → Prop} (hd₀ : d₀.Consistent)
    (hexc : cfg.harness = .http → A.exceptions)
    (hok : ∀ c l, ok c l → OnCall (Admitted cfg A) c l) (h₀ : I (Sys.init d₀))
    (hstart : ∀ c t req, ok c (.start t req) → c.st.txs t = none → I c.st → I (c.st.start t req))
    (hmove : ∀ c t e o k x r s', ok c (.step t e) → c.pool t = some (.call o k) →
      Awaits cfg A d₀ t x o c.st → exec e t o c.st = some (r, s') → Move e o t x c.st s' →
      I c.st → I s')
    (hcommit : ∀ c t e k x, ok c (.step t e) → c.pool t = some (.call .commit k) →
      Awaits cfg A d₀ t x .commit c.st → x.aborted = false → I c.st → I (c.st.commit t x))
    (htick : ∀ s id, I s → I (s.expire id)) (hrun : SysRun cfg ok d₀ ls c) : I c.st := by
  -- the contract holds at every await, and says what the await is
  refine (SysRun.invariant hd₀ hexc hok (I := fun c => I c.st ∧ Started c) ⟨h₀, fun _ _ => rfl⟩
    (fun c l c' hholds hI hl hnext => ⟨?_, hI.2.next hnext⟩) hrun).1
  cases l with
  | start t req =>
    obtain ⟨hpool, rfl⟩ := next_start hnext
    exact hstart c t req hl (hI.2 t hpool) hI.1
  | step t e =>
    obtain ⟨o, k, r, s, hpool, hexec, rfl⟩ := next_step hnext
    obtain ⟨x, hx, hreadOnly, hpre⟩ := hholds.pre (contract_holds hd₀ hexc) hpool
    have hawaits : Awaits cfg A d₀ t x o c.st := ⟨hholds.1, hx, hreadOnly, hpre⟩
    obtain ⟨x', hx', hcase⟩ := exec_move hexec
    obtain rfl : x = x' := Option.some.inj (hx.symm.trans hx')
    -- a move or a `COMMIT`
    rcases hcase with hm | ⟨rfl, hlive, rfl⟩
    · exact hmove c t e o k x r s hl hpool hawaits hexec hm hI.1
    · exact hcommit c t e k x hl hpool hawaits hlive hI.1
  | tick id =>
    obtain rfl := next_tick hnext
    exact htick c.st id hI.1

/-- One move keeps the link between log and transactions. -/
private theorem linked_next {c c' : (system cfg).Config} {l : (system cfg).Label}
    (hholds : (contract cfg A d₀).Holds c) (hsound : (contract cfg A d₀).Sound)
    (h : Linked c.st ∧ Started c) (hnext : c.next l = some c') : Linked c'.st ∧ Started c' := by
  refine ⟨?_, h.2.next hnext⟩
  cases l with
  | start t req =>
    obtain ⟨hpool, rfl⟩ := next_start hnext
    have hnone := h.2 t hpool
    refine linked_keep h.1 rfl (fun t' x hx => ?_) (fun t' x' hx' => ?_)
    · -- a transaction that is being started had no state
      have hne : t' ≠ t := by
        rintro rfl
        rw [hnone] at hx
        cases hx
      exact ⟨x, (Sys.setTx_txs_ne hne _).trans hx, .refl x⟩
    · by_cases ht : t' = t
      · subst ht
        obtain rfl : { req } = x' := Option.some.inj ((Sys.setTx_txs_self _).symm.trans hx')
        exact Or.inl rfl
      · exact Or.inr ⟨x', (Sys.setTx_txs_ne ht _).symm.trans hx', .refl x'⟩
  | step t e =>
    obtain ⟨o, k, r, s, hpool, hexec, rfl⟩ := next_step hnext
    have hpre := hholds.pre hsound hpool
    obtain ⟨x, hx, hcase⟩ := exec_move hexec
    -- only a `COMMIT` writes a record; every other statement keeps the log
    rcases hcase with hmove | ⟨rfl, hlive, rfl⟩
    · obtain ⟨hwal, _, x', htxs, hk⟩ := hmove.frame hx
      refine linked_keep h.1 hwal (fun t' y hy => ?_) (fun t' y' hy' => Or.inr ?_)
      · by_cases ht : t' = t
        · subst ht
          obtain rfl := Option.some.inj (hx.symm.trans hy)
          exact ⟨x', by rw [htxs, Function.update_self], hk⟩
        · exact ⟨y, by rw [htxs, Function.update_of_ne ht]; exact hy, .refl y⟩
      · rw [htxs] at hy'
        by_cases ht : t' = t
        · subst ht
          rw [Function.update_self, Option.some.injEq] at hy'
          exact ⟨x, hx, hy' ▸ hk⟩
        · rw [Function.update_of_ne ht] at hy'
          exact ⟨y', hy', .refl y'⟩
    · obtain ⟨x₁, hx₁, _, hcommit, _⟩ := hpre
      obtain rfl : x₁ = x := Option.some.inj (hx₁.symm.trans hx)
      exact linked_commit h.1 hx hcommit
  | tick id =>
    obtain rfl := next_tick hnext
    exact ⟨h.1.wal, h.1.once, h.1.committed⟩

/-- The transaction of a request that has ended, through the HTTP layer. -/
theorem finished_of_run (hd₀ : d₀.Consistent) (hexc : cfg.harness = .http → A.exceptions)
    (hok : ∀ c l, ok c l → OnCall (Admitted cfg A) c l) (hrun : SysRun cfg ok d₀ ls c)
    (hhttp : cfg.harness = .http) {t : TxId} (ht : Ends c t) :
    ∃ x, c.st.txs t = some x ∧ Finished A d₀ c.st x :=
  (holds_of_run hd₀ hexc hok hrun).post ht hhttp

/-! A run with any effects is admitted as it is. -/

/-- In every run the log holds the effects of its requests. -/
theorem SysRun.log (hrun : SysRun cfg ok d₀ ls c) (hd₀ : d₀.Consistent) :
    Log ⟨True, True, True⟩ d₀ c.st.wal c.st.db :=
  log_of_run hd₀ (fun _ => trivial) (fun c l _ => admitted_any c l) hrun

/-- The log and the transactions are linked. -/
theorem SysRun.linked (hrun : SysRun cfg ok d₀ ls c) (hd₀ : d₀.Consistent) : Linked c.st := by
  have hsound : (contract cfg ⟨True, True, True⟩ d₀).Sound := contract_holds hd₀ fun _ => trivial
  exact (SysRun.invariant hd₀ (fun _ => trivial) (fun c l _ => admitted_any c l)
    (I := fun c => Linked c.st ∧ Started c) ⟨.init d₀, fun _ _ => rfl⟩
    (fun _ _ _ hholds h _ hnext => linked_next hholds hsound h hnext) hrun).1

/-- In every run a request that has ended is finished. -/
theorem SysRun.finished (hrun : SysRun cfg ok d₀ ls c) (hd₀ : d₀.Consistent)
    (hhttp : cfg.harness = .http) {t : TxId} {x : Tx} (hx : c.st.txs t = some x)
    (ht : Ends c t) : Finished ⟨True, True, True⟩ d₀ c.st x := by
  obtain ⟨y, hy, hfin⟩ := finished_of_run (A := ⟨True, True, True⟩) hd₀ (fun _ => trivial)
    (fun c l _ => admitted_any c l) hrun hhttp ht
  obtain rfl : x = y := Option.some.inj (hx.symm.trans hy)
  exact hfin

end Nova
