import Nova.Spec.Responses

/-!
# What the columns can hold

An `INTEGER` column has 32 bits, a price eight digits before its point, and no text has the
character 0. Nothing in the application checks this, so PostgreSQL finds it out: it fails a
statement exactly when the column of a value cannot hold it (`Ranged`, and `RangedSql` where
Redis may fail as well). A writer of which a statement has failed so has committed nothing
and is answered 500 (`refused_of_faulted`): no handler of a route knows the exception.
-/

namespace Nova

open Machine

/-! ## Values -/

/-- The range of an `INTEGER` column. -/
def Int32 (n : Int) : Prop := -2 ^ 31 ≤ n ∧ n < 2 ^ 31

instance (n : Int) : Decidable (Int32 n) := inferInstanceAs (Decidable (_ ∧ _))

/-- The range of a `NUMERIC(10, 2)` column, in hundredths. -/
def Numeric10 (p : Int) : Prop := -10 ^ 10 < p ∧ p < 10 ^ 10

instance (p : Int) : Decidable (Numeric10 p) := inferInstanceAs (Decidable (_ ∧ _))

/-- A string that PostgreSQL can store: it has no character 0. -/
def Storable (s : String) : Prop := Char.ofNat 0 ∉ s.toList

instance (s : String) : Decidable (Storable s) := inferInstanceAs (Decidable (¬_))

/-- Two texts that can be stored can be stored in one. -/
theorem storable_append {s s' : String} (h : Storable s) (h' : Storable s') :
    Storable (s ++ s') := by
  simp only [Storable, String.toList_append, List.mem_append, not_or]
  exact ⟨h, h'⟩

/-- An identifier is written with digits. -/
theorem storable_uuid (id : Uuid) : Storable (toString id) := by
  intro hmem
  have hdigits : Char.ofNat 0 ∈ Nat.toDigits 10 id := by
    simpa [toString, Nat.repr] using hmem
  have hdigit := Nat.isDigit_of_mem_toDigits (by decide) (by decide) hdigits
  exact absurd hdigit (by decide)

/-- The `INTEGER` values that a statement stores when it sees the tables `d`. -/
def Stmt.integers (d : Db) : Stmt → List Int
  | .insertItem n => [n.stockQuantity, n.lowStockThreshold, n.version]
  | .updateItem _ c => c.stockQuantity.toList ++ c.version.toList
  | .insertOrder n => [n.quantity, n.version]
  | .updateOrder id expectedVersion _ =>
    match d.orders.find? id with
    | some row => if row.version = expectedVersion then [row.version + 1] else []
    | none => []
  | .insertMovement n => [n.quantityDelta, n.stockBefore, n.stockAfter]
  | _ => []

/-- The prices that it stores, in hundredths. -/
def Stmt.prices : Stmt → List Int
  | .insertItem n => [n.price]
  | _ => []

/-- The texts that it stores. -/
def Stmt.texts : Stmt → List String
  | .insertItem n => n.name :: n.description.toList
  | .insertOrder n => n.customerRef.toList
  | .insertMovement n => n.reason.toList
  | _ => []

/-- Every value that the statement stores fits its column. -/
structure Stmt.Fits (d : Db) (o : Stmt) : Prop where
  integers : ∀ n ∈ o.integers d, Int32 n
  prices : ∀ p ∈ o.prices, Numeric10 p
  texts : ∀ s ∈ o.texts, Storable s

instance Stmt.decidableFits (d : Db) (o : Stmt) : Decidable (o.Fits d) :=
  decidable_of_iff ((∀ n ∈ o.integers d, Int32 n) ∧ (∀ p ∈ o.prices, Numeric10 p) ∧
      ∀ s ∈ o.texts, Storable s)
    ⟨fun h => ⟨h.1, h.2.1, h.2.2⟩, fun h => ⟨h.integers, h.prices, h.texts⟩⟩

/-- A statement that stores integers only. -/
theorem Stmt.Fits.of_integers {d : Db} {o : Stmt} (h : ∀ n ∈ o.integers d, Int32 n)
    (hprices : o.prices = []) (htexts : o.texts = []) : o.Fits d :=
  ⟨h, by simp [hprices], by simp [htexts]⟩

/-- A statement that stores nothing. -/
theorem Stmt.Fits.of_nil {d : Db} {o : Stmt} (hintegers : o.integers d = [])
    (hprices : o.prices = []) (htexts : o.texts = []) : o.Fits d :=
  .of_integers (by simp [hintegers]) hprices htexts

/-- The next statement `o` of request `t` stores a value that its column cannot hold. -/
def Sys.overflows (s : Sys) (t : TxId) (o : Stmt) : Bool :=
  (s.txs t).any fun x => ¬o.Fits (s.view x)

/-! ## PostgreSQL -/

/-- A statement fails exactly when its column cannot hold a value. -/
def Ranged (e : Env) (t : TxId) (o : Stmt) (s : Sys) : Prop :=
  e.fault = if s.overflows t o then some .error else none

instance (e : Env) (t : TxId) (o : Stmt) (s : Sys) : Decidable (Ranged e t o s) :=
  inferInstanceAs (Decidable (_ = _))

/-- As `Ranged`, but Redis commands may fail as they like. Nothing is cancelled. -/
def RangedSql (e : Env) (t : TxId) (o : Stmt) (s : Sys) : Prop :=
  e.fault ≠ some .cancelled ∧ e.breaks o = s.overflows t o

instance (e : Env) (t : TxId) (o : Stmt) (s : Sys) : Decidable (RangedSql e t o s) :=
  inferInstanceAs (Decidable (_ ∧ _))

section

variable {e : Env} {t : TxId} {o : Stmt} {s s' : Sys} {x : Tx} {r : o.Res}

/-- What overflows is what does not fit the view of its transaction. -/
theorem Sys.overflows_iff (hx : s.txs t = some x) :
    s.overflows t o = true ↔ ¬o.Fits (s.view x) := by
  simp [Sys.overflows, hx]

/-- Only the statements of SQL store anything. -/
theorem Stmt.fits_of_isRedis {d : Db} (h : o.isRedis = true) : o.Fits d := by
  cases o with
  | redisGet | redisSetex => exact .of_nil rfl rfl rfl
  | _ => cases h

/-- A statement that only reads stores nothing. -/
theorem Stmt.fits_of_readOnly {d : Db} (h : o.readOnly = true) : o.Fits d := by
  cases o with
  | selectItem | selectOrder | redisGet | commit | rollback | respond => exact .of_nil rfl rfl rfl
  | _ => cases h

/-- What does not fit its column is stored by a statement that may fail. -/
theorem Stmt.isSql_of_unfit {d : Db} (h : ¬o.Fits d) : o.isSql = true := by
  cases o with
  | redisGet | redisSetex | rollback | respond => exact absurd (.of_nil rfl rfl rfl) h
  | _ => rfl

/-- A world that fails what does not fit fails the SQL among it. -/
theorem Ranged.sql (h : Ranged e t o s) : RangedSql e t o s := by
  unfold Ranged at h
  cases hover : s.overflows t o with
  | false =>
    rw [hover] at h
    exact ⟨by simp [h], by simp [Env.breaks, h, hover]⟩
  | true =>
    rw [hover] at h
    obtain ⟨x, hx, _⟩ := (Option.any_eq_true _ _).mp hover
    have hsql : o.isRedis = false := by
      by_contra hredis
      exact (Sys.overflows_iff hx).mp hover (Stmt.fits_of_isRedis (by simpa using hredis))
    exact ⟨by simp [h], by simp [Env.breaks, h, hsql, hover]⟩

/-! ## Failed statements -/

/-- A statement that stores something belongs to a transaction that is still alive. -/
theorem Tx.Pre.live {cfg : Config} {A : Allow} {d₀ d : Db} (h : x.Pre cfg A d₀ t s o)
    (hunfit : ¬o.Fits d) : x.aborted = false := by
  cases o with
  | insertItem n => exact h.2.2.2.1
  | updateItem id c => exact h.2.1
  | insertOrder n | insertMovement n => exact h.2.2
  | updateOrder id v status => exact Checks.live h
  | selectItem | selectItemForUpdate | selectOrder | redisGet | redisSetex | commit | rollback
  | respond => exact absurd (.of_nil rfl rfl rfl) hunfit

/-- A writer stores everything before it answers. -/
theorem Tx.Pre.unanswered {cfg : Config} {A : Allow} {d₀ d : Db} (h : x.Pre cfg A d₀ t s o)
    (hwriter : x.req.isRead = false) (hunfit : ¬o.Fits d) : x.response = none := by
  cases o with
  | insertItem n => exact h.2.2.1
  | updateItem id c => exact (h.2.2 hwriter).1
  | insertOrder n | insertMovement n => exact h.2.1
  | updateOrder id v status => exact Checks.unanswered h
  | selectItem | selectItemForUpdate | selectOrder | redisGet | redisSetex | commit | rollback
  | respond => exact absurd (.of_nil rfl rfl rfl) hunfit

/-- What a statement does under its locks does not cancel it. -/
private theorem map_uncancelled {α : Type} {s₁ : Option Sys} {f : Sys → Except Failure α × Sys}
    (hf : ∀ s₂, (f s₂).1 ≠ .error .cancelledError) :
    s₁.map f ≠ some (.error .cancelledError, s') := by
  intro hmap
  obtain ⟨s₂, _, heq⟩ := Option.map_eq_some_iff.mp hmap
  exact hf s₂ (congrArg Prod.fst heq)

/-- Nothing in the model cancels a statement. -/
theorem run_uncancelled (s s' : Sys) (t : TxId) (x : Tx) (e : Env) (o : Stmt) :
    s.run t x e o ≠ some (.error .cancelledError, s') := by
  cases o with
  | selectItemForUpdate id =>
    simp only [Sys.run]
    split
    · intro h
      cases h
    · -- with the row there, the statement waits or returns it
      exact map_uncancelled fun _ h => by cases h
  | insertItem n =>
    simp only [Sys.run, Sys.insertItem]
    split
    · split
      · intro h
        cases h
      · -- after the CHECK constraints and the lock, a taken name is an `IntegrityError`
        refine map_uncancelled fun s₂ => ?_
        split <;> (intro h; cases h)
    · intro h
      cases h
  | updateItem id c =>
    simp only [Sys.run, Sys.updateItem]
    split
    · intro h
      cases h
    · split
      · intro h
        cases h
      · -- under the lock the row is updated
        exact map_uncancelled fun _ h => by cases h
  | insertOrder n =>
    simp only [Sys.run, Sys.insertOrder]
    split
    · split
      · -- under the lock the row is inserted
        exact map_uncancelled fun _ h => by cases h
      · intro h
        cases h
    · intro h
      cases h
  | updateOrder id v status =>
    simp only [Sys.run, Sys.updateOrder]
    split
    · intro h
      cases h
    · split
      · -- at the expected version the row is updated under its lock
        exact map_uncancelled fun _ h => by cases h
      · intro h
        cases h
  | insertMovement n =>
    simp only [Sys.run, Sys.insertMovement]
    split
    · split
      · -- with the foreign keys there the movement is inserted
        exact map_uncancelled fun _ h => by cases h
      · intro h
        cases h
    · intro h
      cases h
  | selectItem | selectOrder | redisGet | redisSetex | commit | rollback | respond =>
    intro h
    cases h

/-- A statement of SQL that is failed from outside ends the transaction. -/
theorem exec_breaks {e : Env} {t : TxId} {o : Stmt} {s s' : Sys} {x : Tx} {r : o.Res}
    (hx : s.txs t = some x) (hlive : x.aborted = false) (hsql : o.isSql = true)
    (hexec : exec e t o s = some (r, s')) (hbreaks : e.breaks o = true) :
    s'.txs t = some { x with faulted := true, writes := [], aborted := true } := by
  unfold exec at hexec
  rw [hx] at hexec
  cases hfault : e.fault with
  | none => simp [Env.breaks, hfault] at hbreaks
  | some f =>
    simp only [hlive, hfault, hsql, Bool.false_and, Bool.false_eq_true, if_false, if_true,
      Option.some.injEq, Prod.mk.injEq] at hexec
    exact hexec.2 ▸ Sys.setTx_txs_self _

/-- Nothing but a cancellation raises `CancelledError`. -/
theorem exec_interrupts (hexec : exec e t o s = some (r, s'))
    (hr : o.interrupts r = true) : e.fault = some .cancelled := by
  obtain rfl : r = .error .cancelledError := by
    cases r with
    | ok a => cases hr
    | error f => cases f <;> first | rfl | cases hr
  -- of the two faults only the one gives `CancelledError`
  have hfault : ∀ f : Fault, f.failure o = .cancelledError → f = .cancelled := by
    intro f hf
    cases f with
    | error =>
      simp only [Fault.failure] at hf
      split at hf <;> cases hf
    | cancelled => rfl
  unfold exec at hexec
  split at hexec
  · cases hexec
  rename_i x _
  split at hexec
  · cases hexec
  split at hexec
  · -- without a fault the statement runs, and does not raise it
    exact absurd hexec (run_uncancelled s s' t x e o)
  · rename_i f he
    split at hexec
    · -- an SQL statement under the fault
      rw [he, hfault f (Except.error.inj (congrArg Prod.fst (Option.some.inj hexec)))]
    · split at hexec
      · -- a Redis command under the fault
        rw [he, hfault f (Except.error.inj (congrArg Prod.fst (Option.some.inj hexec)))]
      · -- a rollback and a response run under any fault
        exact absurd hexec (run_uncancelled s s' t x e o)

end

/-! ## Runs -/

/-- The moves of request `t` fail as `RangedSql` says. -/
def RangedOf {cfg : Config} (t : TxId) (ok : (system cfg).Config → (system cfg).Label → Prop) :
    Prop :=
  ∀ c e, ok c (.step t e) → OnCall RangedSql c (.step t e)

/-- Request `t` is not a writer that was answered with a success although one of its
    statements has failed. -/
def Unrewarded (t : TxId) (s : Sys) : Prop :=
  ∀ x, s.txs t = some x → x.req.isRead = false → x.faulted = true →
    ∀ status body, x.response ≠ some (.success status body)

section

variable {cfg : Config} {d₀ : Db} {ok : (system cfg).Config → (system cfg).Label → Prop}
  {ls : List (system cfg).Label} {c : (system cfg).Config} {t : TxId}

/-- One statement: its request has either failed before, and then `Pending` forbids the
    success, or fails with it, and then nothing has been answered yet. -/
private theorem unrewarded_step {A : Allow} {e : Env} {o : Stmt} {x y : Tx} {s s' : Sys}
    {r : o.Res} (h : Unrewarded t s) (haw : Awaits cfg A d₀ t x o s) (hranged : RangedSql e t o s)
    (hexec : exec e t o s = some (r, s')) (hy : s'.txs t = some y) (hwriter : y.req.isRead = false)
    (hfaulted : y.faulted = true) (status : Nat) (body : Body) :
    y.response ≠ some (.success status body) := by
  have hreq : x.req.isRead = false := exec_req haw.tx hexec hy ▸ hwriter
  obtain ⟨z, hz, hnotes⟩ := exec_notes haw.tx hexec
  obtain rfl := Option.some.inj (hz.symm.trans hy)
  rcases exec_faulted haw.tx hexec hy hfaulted with hold | hbreaks
  · rcases hnotes.response with hsame | ⟨res, rfl, hres⟩
    · exact hsame ▸ h x haw.tx hreq hold status body
    · intro hsuccess
      obtain rfl := Option.some.inj (hres.symm.trans hsuccess)
      have hpending : x.Pending (.success status body) := haw.pre.2 hreq
      cases hpending.2.2.symm.trans hold
  · have hunfit := (Sys.overflows_iff haw.tx).mp (hranged.2.symm.trans hbreaks)
    have hnone := haw.pre.unanswered hreq hunfit
    rcases hnotes.response with hsame | ⟨res, rfl, _⟩
    · simp [hsame, hnone]
    · exact absurd (.of_nil rfl rfl rfl) hunfit

/-- In every run whose other failures spare `t`, a 2xx of `t` has not overflowed. -/
theorem unrewarded_of_run (hd₀ : d₀.Consistent) (hok : RangedOf t ok)
    (hrun : SysRun cfg ok d₀ ls c) : Unrewarded t c.st := by
  have hother : ∀ {s s' : Sys}, s'.txs t = s.txs t → Unrewarded t s → Unrewarded t s' :=
    fun heq h x hx => h x (heq ▸ hx)
  refine SysRun.state_invariant (A := ⟨True, True, True⟩) hd₀ (fun _ => trivial)
    (fun c l _ => admitted_any c l) (fun _ hx => by cases hx)
    (fun c u req _ hnone h x hx _ hf => ?_)
    (fun c u e o k x r s' hl hcall haw hexec _ h => ?_)
    (fun c u e k x _ _ haw _ h y hy => ?_) (fun _ _ h => h) hrun
  · by_cases hu : t = u
    · subst hu
      obtain rfl := Option.some.inj ((Sys.setTx_txs_self _).symm.trans hx)
      cases hf
    · exact hother (Sys.setTx_txs_ne hu _) h x hx ‹_› hf
  · by_cases hu : t = u
    · subst hu
      exact fun y hy => unrewarded_step h haw ((hok c e hl).apply hcall) hexec hy
    · exact hother (exec_txs_ne hexec hu) h
  · by_cases hu : t = u
    · subst hu
      obtain rfl := Option.some.inj ((Sys.setTx_txs_self _).symm.trans hy)
      exact h x haw.tx
    · exact hother (Sys.setTx_txs_ne hu _) h y hy

end

section

variable {cache : CacheService} {d₀ : Db}
  {ok : (system ⟨.http, cache⟩).Config → (system ⟨.http, cache⟩).Label → Prop}
  {ls : List (system ⟨.http, cache⟩).Label} {c : (system ⟨.http, cache⟩).Config} {t : TxId} {x : Tx}

/-- Where nothing is cancelled, a request that has ended was answered. -/
theorem answered_of_ends (hok : RangedOf t ok) (hrun : SysRun ⟨.http, cache⟩ ok d₀ ls c)
    (hx : c.st.txs t = some x) (ht : Ends c t) : ∃ r, x.response = some r := by
  have hcalls := hrun.calls_answer (t := t) (A := fun o r => o.interrupts r = false)
    fun c e o k r s' hl hcall hexec => by
      by_contra hr
      have hranged : RangedSql e t o c.st := (hok c e hl).apply hcall
      exact hranged.1 (exec_interrupts hexec (by simpa using hr))
  have hno : ¬CancelledFirst (((system ⟨.http, cache⟩).idle (Sys.init d₀)).calls t ls) := by
    rintro ⟨before, o, after, heq, _⟩
    cases hcalls ⟨o, .error .cancelledError⟩ (heq ▸ by simp)
  obtain ⟨y, hy, _, hanswered, _⟩ := (replies_once hrun t).2 ht
  obtain rfl := Option.some.inj (hx.symm.trans hy)
  obtain ⟨r, hr, _⟩ := hanswered hno
  exact ⟨r, hr⟩

/-- A writer of which a statement has failed has committed nothing, and is answered 500. -/
theorem refused_of_faulted (hd₀ : d₀.Consistent) (hok : RangedOf t ok)
    (hrun : SysRun ⟨.http, cache⟩ ok d₀ ls c) (hx : c.st.txs t = some x) (ht : Ends c t)
    (hwriter : x.req.isRead = false) (hvalid : x.req.valid = true) (hfaulted : x.faulted = true) :
    x.commit = none ∧ ∃ detail, x.response = some (.error 500 detail) := by
  cases hrun.finished hd₀ rfl hx ht with
  | committed d ws e r _ hclean => cases hclean.symm.trans hfaulted
  | invalid _ hinvalid => cases hinvalid.symm.trans hvalid
  | failed hcommit hr => exact ⟨hcommit, hr⟩
  | cancelled _ hnone =>
    obtain ⟨r, hr⟩ := answered_of_ends hok hrun hx ht
    cases hnone.symm.trans hr
  | lost r hcommit hr hanswer =>
    -- only a `COMMIT` that fails comes after a success
    obtain ⟨body, rfl⟩ := hanswer
    exact absurd hr (unrewarded_of_run hd₀ hok hrun x hx hwriter hfaulted _ _)

end

end Nova
