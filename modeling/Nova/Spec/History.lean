import Nova.Spec.Audit
import Nova.Spec.Conservation
import Nova.Spec.LifeCycle

/-!
# Audit trail and order history of the HTTP layer

What every run of the HTTP layer keeps, the races of `Nova.Spec.Conservation`
included:

* without a cache, the movements of every item are an unbroken chain, and no
  statement ever submits a negative stock (`audit_trail`);
* the versions of every order are a life cycle, and of the requests that are based
  on one version at most one changes the order (`order_history`).
-/

namespace Nova

open Machine

variable {cache : CacheService}

/-! ## Audit trail -/

/-- The stock quantity that a statement submits. -/
def Stmt.stock? : Stmt → Option Int
  | .insertItem n => some n.stockQuantity
  | .updateItem _ c => c.stockQuantity
  | _ => none

/-- The chain of every item is unbroken, and no request is about to submit a negative
    stock. -/
structure AuditTrail {cfg : Config} (c : (system cfg).Config) : Prop where
  audited : Audited c.st.db
  nonneg : ∀ t o k, c.pool t = some (.call o k) → ∀ q, o.stock? = some q → 0 ≤ q

/-- The guards of the services, without overwriting reads. -/
theorem Pre.stock_nonneg {cfg : Config} {A : Allow} {d₀ : Db} {t : TxId} {o : Stmt} {s : Sys}
    (h : Pre cfg A d₀ t o s) (hhttp : cfg.harness = .http) (hover : ¬A.overwrite) {q : Int}
    (hq : o.stock? = some q) : 0 ≤ q := by
  obtain ⟨x, _, hread, hpre⟩ := h
  cases o with
  | insertItem n =>
    obtain rfl := Option.some.inj hq
    exact hpre.2.2.2.2 hhttp
  | updateItem id ch =>
    refine (hpre.2.2 ?_).2 q hq
    by_contra hisRead
    rcases hread (by simpa using hisRead) with hallowed | honly
    · exact hover hallowed
    · cases honly
  | selectItem | selectItemForUpdate | selectOrder | insertOrder | updateOrder | insertMovement
  | redisGet | redisSetex | commit | rollback | respond => cases hq

/-- Without a cache every run keeps the audit trail. -/
theorem audit_trail {ls : List (system ⟨.http, ⟨false⟩⟩).Label}
    {c : (system ⟨.http, ⟨false⟩⟩).Config}
    (hrun : SysRun ⟨.http, ⟨false⟩⟩ (fun _ _ => True) Db.empty ls c) : AuditTrail c := by
  have hok : ∀ (c : (system ⟨.http, ⟨false⟩⟩).Config) l, True → OnCall
      (Admitted ⟨.http, ⟨false⟩⟩ ⟨True, True, False⟩) c l :=
    fun _ l _ => .of_all (fun _ _ _ => ⟨Or.inl trivial, Or.inr (Or.inl rfl)⟩) l
  have hlog := log_of_run Db.consistent_empty (fun _ => trivial) hok hrun
  have hholds := holds_of_run Db.consistent_empty (fun _ => trivial) hok hrun
  refine ⟨hlog.audited .empty id, fun t o k hpool q hq => ?_⟩
  have hpre := hholds.pre (contract_holds Db.consistent_empty fun _ => trivial) hpool
  exact hpre.stock_nonneg rfl id hq

/-- The race that deducts the units of one order twice leaves a second movement. -/
theorem audit_trail_race : ∃ c, SysRun ⟨.http, ⟨false⟩⟩ (fun _ _ => True) Db.empty httpRace c ∧
    (c.st.db.movementsOn 0).map (·.stockAfter) = [10, 7, 4] ∧ AuditTrail c := by
  obtain ⟨c, hrun, hval⟩ : ∃ c, SysRun ⟨.http, ⟨false⟩⟩ (fun _ _ => True) Db.empty httpRace c ∧
      (c.st.db.movementsOn 0).map (·.stockAfter) = [10, 7, 4] :=
    Run.of_eval (fun c : (system ⟨.http, ⟨false⟩⟩).Config =>
      (c.st.db.movementsOn 0).map (·.stockAfter)) (by decide +kernel) (by decide +kernel)
  exact ⟨c, hrun, hval, audit_trail hrun⟩

/-! ## Order history -/

/-- Request `t` is a transition of the order `id` that has read its version `v`. -/
def BasedOn (s : Sys) (t : TxId) (id : Uuid) (v : Int) : Prop :=
  ∃ x a o, s.txs t = some x ∧ x.req = .transition a id ∧ x.read = some o ∧ o.version = v

/-- Request `t` has committed a version of an order. -/
def ChangesOrder (s : Sys) (t : TxId) : Prop := ∃ r ∈ s.wal, r.tx = t ∧ orderRows r.writes ≠ []

/-- The one version step of the transition `x`, from the version that it read. -/
def Tx.steps (x : Tx) (a : Action) (id : Uuid) : Prop :=
  ∃ d ws o o', x.read = some o ∧ x.commit = some (d, ws) ∧ d.orders.find? id = some o ∧
    orderRows ws = [o'] ∧ o'.id = id ∧ o.status.canTransitionTo a.target ∧ o'.status = a.target ∧
    o'.version = o.version + 1

/-- What the committed orders and the answers to transitions say. -/
structure OrderHistory {cfg : Config} (c : (system cfg).Config) : Prop where
  lifeCycles : LifeCycles c.st.wal c.st.db
  numbered : ∀ o ∈ c.st.db.orders.rows,
    o.version = (versionsOf c.st.wal o.id).length ∧ o.version ≤ 4
  terminal : ∀ id, (versionsOf c.st.wal id).IsChain fun o _ => o.status ∉ OrderStatus.terminalStates
  steps : ∀ t x a id, Ends c t → c.st.txs t = some x → x.req = .transition a id →
    x.faulted = false → ∀ status body, x.response = some (.success status body) → x.steps a id
  exclusive : ∀ t t' id v, t ≠ t' → BasedOn c.st t id v → BasedOn c.st t' id v →
    ChangesOrder c.st t → ¬ChangesOrder c.st t'
  refused : ∀ t x a id, Ends c t → c.st.txs t = some x → x.req = .transition a id →
    x.faulted = false → ¬ChangesOrder c.st t →
      ∃ status detail, x.response = some (.error status detail)

section

variable {A : Allow} {d : Db} {s : Sys} {x : Tx} {a : Action} {id : Uuid}

/-- A transition that returns normally steps its order. -/
theorem Committed.steps {ws : List Write}
    (h : Committed A Db.empty s.wal d (.transition a id) x.read none ws)
    (hcommit : x.commit = some (d, ws)) : x.steps a id := by
  obtain ⟨wal, _, hlog, heff⟩ := h
  have hsteps : ∀ {o cur o'}, x.read = some o → o.id = id → o.status.canTransitionTo a.target →
      OrderStep (knownIn Db.empty wal) d o cur o' a.target → orderRows ws = [o'] →
        x.steps a id := by
    intro o cur o' hread hid hallowed hstep hws
    obtain ⟨cur', hknown⟩ := hlog.knownOrder Db.consistent_empty hstep.known
    obtain rfl := hstep.eq_read hknown
    subst hid
    exact ⟨d, ws, cur, o', hread, hcommit, hstep.row, hws, hstep.id_eq, hallowed, hstep.status_eq,
      hstep.version_eq⟩
  generalize hread : x.read = read at heff
  cases heff with
  | stocked _ hid hallowed _ _ hstep => exact hsteps hread hid hallowed hstep rfl
  | moved _ hid hallowed hstep => exact hsteps hread hid hallowed hstep rfl

/-- A transition that is answered with success steps its order. -/
theorem Finished.steps (h : Finished A Db.empty s x) (hreq : x.req = .transition a id)
    (hfault : x.faulted = false) {status : Nat} {body : Body}
    (hres : x.response = some (.success status body)) : x.steps a id := by
  rcases h.unfaulted hfault (by rw [hreq]; rfl) with
    ⟨d, ws, e, r, hcommit, heff, hr, hanswer⟩ | ⟨_, _, hr⟩ | ⟨_, _, _, _, _, hr⟩
  · obtain rfl : .success status body = r := Option.some.inj (hres.symm.trans hr)
    cases e with
    | some e => cases hanswer.2
    | none => exact (hreq ▸ heff).steps hcommit
  · cases hr.symm.trans hres
  · cases hr.symm.trans hres

/-- A transition that has changed no order is answered with an error. -/
theorem Finished.refused {t : TxId} (h : Finished A Db.empty s x) (hlinked : Linked s)
    (hx : s.txs t = some x) (hreq : x.req = .transition a id) (hfault : x.faulted = false)
    (hkeeps : ¬ChangesOrder s t) : ∃ status detail, x.response = some (.error status detail) := by
  rcases h.unfaulted hfault (by rw [hreq]; rfl) with
    ⟨d, ws, e, r, hcommit, heff, hr, hanswer⟩ | ⟨_, detail, hr⟩ | ⟨_, _, _, _, detail, hr⟩
  · cases e with
    | some e => exact ⟨_, _, hr.trans (congrArg some hanswer.2)⟩
    | none =>
      -- a commit without an exception has stepped the order, and the log shows it
      obtain ⟨d', ws', o, o', _, hcommit', _, hws, _⟩ := (hreq ▸ heff).steps hcommit
      have hne : ws' ≠ [] := by
        rintro rfl
        cases hws
      obtain ⟨r, hr, htx, rfl⟩ := hlinked.committed t x d' ws' hx hcommit' hne
      exact absurd ⟨r, hr, htx, by simp [hws]⟩ hkeeps
  · exact ⟨422, detail, hr⟩
  · exact ⟨500, detail, hr⟩

/-- Two requests that are based on one version do not both change the order. -/
theorem exclusive_of_log (hlog : Log A Db.empty s.wal d) (hlinked : Linked s)
    {t t' : TxId} {v : Int}
    (hne : t ≠ t') (hbased : BasedOn s t id v) (hbased' : BasedOn s t' id v)
    (hchanges : ChangesOrder s t) : ¬ChangesOrder s t' := by
  -- what a change writes is the successor of the version it is based on
  have hrow : ∀ {t r}, BasedOn s t id v → r ∈ s.wal → r.tx = t →
      ∀ o ∈ orderRows r.writes, o.id = id ∧ o.version = v + 1 := by
    rintro t r ⟨x, a, o₀, hx, hreq, hread, rfl⟩ hr rfl o ho
    obtain ⟨x', _, hx', hreq', _, hread'⟩ := hlinked.wal r hr
    obtain rfl : x = x' := Option.some.inj (hx.symm.trans hx')
    obtain ⟨o₁, ho₁, hid, hversion⟩ := hlog.transition_row hr (hreq'.symm.trans hreq) ho
    obtain rfl : o₀ = o₁ := Option.some.inj (hread.symm.trans (hread' o₁ ho₁))
    exact ⟨hid, hversion⟩
  rintro ⟨r', hr', htx', hws'⟩
  obtain ⟨r, hr, htx, hws⟩ := hchanges
  obtain ⟨o, ho⟩ := List.exists_mem_of_ne_nil _ hws
  obtain ⟨o', ho'⟩ := List.exists_mem_of_ne_nil _ hws'
  obtain ⟨hid, hversion⟩ := hrow hbased hr htx o ho
  obtain ⟨hid', hversion'⟩ := hrow hbased' hr' htx' o' ho'
  have hrr : r ≠ r' := by
    rintro rfl
    exact hne (htx.symm.trans htx')
  have hdistinct := hlog.distinct_versions Db.consistent_empty hr hr' hrr o ho o' ho'
  exact hdistinct (hid'.trans hid.symm) (hversion'.trans hversion.symm)

end

/-- Every run keeps the history of its orders. -/
theorem order_history {ls : List (system ⟨.http, cache⟩).Label} {c : (system ⟨.http, cache⟩).Config}
    (hrun : SysRun ⟨.http, cache⟩ (fun _ _ => True) Db.empty ls c) : OrderHistory c := by
  have hlog := hrun.log Db.consistent_empty
  have hlinked := hrun.linked Db.consistent_empty
  have hcycles := hlog.lifeCycles
  constructor
  · -- the versions of every order
    exact hcycles
  · -- the version of the row
    intro o ho
    obtain ⟨hlast, hcycle⟩ := hcycles o.id
    rw [Table.find?_of_mem ho] at hlast
    have hcycle := hcycle fun hnil => by simp [hnil] at hlast
    have hlength := hcycle.length_le
    rw [List.getLast?_eq_getElem?] at hlast
    have hpos := (List.getElem?_eq_some_iff.mp hlast).1
    have hversion := hcycle.numbered _ o hlast
    omega
  · -- no way out of a terminal status
    intro id
    by_cases hnil : versionsOf c.st.wal id = []
    · rw [hnil]
      exact .nil
    · exact ((hcycles id).2 hnil).path.imp fun o o' hallowed => OrderStatus.not_terminal hallowed
  · -- what a success has written
    intro t x a id ht hx hreq hfault status body hres
    exact (hrun.finished Db.consistent_empty rfl hx ht).steps hreq hfault hres
  · -- of two requests that read one version, one changes the order
    intro t t' id v hne hbased hbased' hchanges
    exact exclusive_of_log hlog hlinked hne hbased hbased' hchanges
  · -- and who changes nothing, is refused
    intro t x a id ht hx hreq hfault hkeeps
    exact (hrun.finished Db.consistent_empty rfl hx ht).refused hlinked hx hreq hfault hkeeps

/-- The same race, and only one of the two requests confirms the order. -/
theorem order_history_race : ∃ c, SysRun ⟨.http, ⟨false⟩⟩ (fun _ _ => True) Db.empty httpRace c ∧
    (versionsOf c.st.wal 2).map (·.status) = [.pending, .confirmed] ∧ OrderHistory c := by
  obtain ⟨c, hrun, hval⟩ : ∃ c, SysRun ⟨.http, ⟨false⟩⟩ (fun _ _ => True) Db.empty httpRace c ∧
      (versionsOf c.st.wal 2).map (·.status) = [.pending, .confirmed] :=
    Run.of_eval (fun c : (system ⟨.http, ⟨false⟩⟩).Config =>
      (versionsOf c.st.wal 2).map (·.status)) (by decide +kernel) (by decide +kernel)
  exact ⟨c, hrun, hval, order_history hrun⟩

end Nova
