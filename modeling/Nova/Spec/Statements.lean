import Nova.Spec.Contract

/-!
# One rule for each statement

`Coro.Safe` is `Machine.Safe` for coroutines, with rules for `pure`, `raise`, `>>=`
and `attempt`, and one rule for each statement: what a request knows after it.
What a request knows across awaits is a predicate `F` that is `Stable`: kept by
whatever other transactions do. All rules carry `F` along, so that a proof about
a method adds to `F` what each statement taught it and uses the sum at `COMMIT`.
-/

namespace Nova

open Machine
open Coro (raise attempt await)

/-! ## Stable facts -/

/-- Kept by the moves of other transactions, and by those of `t` that end nothing. -/
def Stable (t : TxId) (F : Sys → Prop) : Prop := ∀ s s', Later t s s' → F s → F s'

/-- The fact that always holds is stable. -/
theorem Stable.trivial (t : TxId) : Stable t fun _ => True := fun _ _ _ h => h

/-- Two stable facts are stable together. -/
theorem Stable.and {t : TxId} {F G : Sys → Prop} (hF : Stable t F) (hG : Stable t G) :
    Stable t fun s => F s ∧ G s :=
  fun s s' h hs => ⟨hF s s' h hs.1, hG s s' h hs.2⟩

/-- A known order version stays known. -/
theorem Stable.known (t : TxId) (d₀ : Db) (o : Order) : Stable t fun s => knownIn d₀ s.wal o :=
  fun _ _ h ho => h.known ho

/-- An owned row keeps its committed version. -/
theorem Stable.held (t : TxId) (row : Row) (v : Option Write) :
    Stable t fun s => s.owns t row ∧ s.db.get row = v :=
  fun _ _ h hs => ⟨h.owns hs.1, (h.row row hs.1).trans hs.2⟩

/-- A row that is there stays there. -/
theorem Stable.isSome (t : TxId) (row : Row) : Stable t fun s => (s.db.get row).isSome = true :=
  fun _ _ h hs => h.grow row hs

/-! ## Structural rules -/

section

variable {α β : Type} {cfg : Config} {A : Allow} {d₀ : Db} {t : TxId} {ss : Session} {s : Sys}

/-- From `s` and the session `ss`, `x` meets the contract and ends with a result, a
    session and a state that satisfy `Q`. -/
def Coro.Safe (cfg : Config) (A : Allow) (d₀ : Db) (t : TxId) (x : Coro α) (ss : Session)
    (Q : Except Exc α → Session → Sys → Prop) (s : Sys) : Prop :=
  Machine.Safe (contract cfg A d₀) t (x ss) (fun p => Q p.1 p.2) s

/-- A coroutine may promise less about its end. -/
theorem Coro.Safe.mono {x : Coro α} {Q Q' : Except Exc α → Session → Sys → Prop}
    (h : Coro.Safe cfg A d₀ t x ss Q s) (himp : ∀ r ss s, Q r ss s → Q' r ss s) :
    Coro.Safe cfg A d₀ t x ss Q' s :=
  Machine.Safe.mono h fun _ _ => himp _ _ _

variable {Q : Except Exc β → Session → Sys → Prop}

/-- A coroutine that returns is done. -/
@[simp] theorem safe_pure {b : β} : Coro.Safe cfg A d₀ t (pure b) ss Q s ↔ Q (.ok b) ss s := Iff.rfl

/-- A coroutine that raises is done. -/
@[simp] theorem safe_raise {e : Exc} :
    Coro.Safe cfg A d₀ t (raise e : Coro β) ss Q s ↔ Q (.error e) ss s := Iff.rfl

/-- The sequencing rule. -/
theorem safe_bind {x : Coro α} {f : α → Coro β} :
    Coro.Safe cfg A d₀ t (x >>= f) ss Q s ↔
      Coro.Safe cfg A d₀ t x ss (fun r ss' s' =>
        match r with
        | .ok a => Coro.Safe cfg A d₀ t (f a) ss' Q s'
        | .error e => Q (.error e) ss' s') s := by
  have hpost : ∀ (p : Except Exc α × Session) s',
      Machine.Safe (contract cfg A d₀) t
        (match p.1 with
          | .ok a => f a p.2
          | .error e => Prog.ret (.error e, p.2)) (fun p => Q p.1 p.2) s' ↔
      (match p.1 with
        | .ok a => Coro.Safe cfg A d₀ t (f a) p.2 Q s'
        | .error e => Q (.error e) p.2 s') := by
    -- both are the same, case by case
    rintro ⟨_ | _, _⟩ s' <;> exact Iff.rfl
  refine Iff.trans Machine.safe_bind ⟨fun h => h.mono fun p s' => (hpost p s').mp, fun h => ?_⟩
  exact Machine.Safe.mono h fun p s' => (hpost p s').mpr

/-- The rule for `try`: what is raised is returned. -/
theorem safe_attempt {x : Coro α} {Q : Except Exc (Except Exc α) → Session → Sys → Prop} :
    Coro.Safe cfg A d₀ t (attempt x) ss Q s ↔
      Coro.Safe cfg A d₀ t x ss (fun r ss' s' => Q (.ok r) ss' s') s :=
  Machine.safe_bind

/-! ## Awaits in general -/

variable {F : Sys → Prop} {x : Tx} {o : Stmt}

/-- Request `t` is where `x` says, and knows `F`. -/
structure At (A : Allow) (d₀ : Db) (t : TxId) (F : Sys → Prop) (x : Tx) (s : Sys) : Prop where
  fact : F s
  inv : Inv A d₀ s
  tx : s.txs t = some x

/-- Moves of other transactions leave the request where it is. -/
theorem At.later {s' : Sys} (h : At A d₀ t F x s) (hF : Stable t F)
    (hrely : s'.txs t = s.txs t ∧ Later t s s') (hinv : Inv A d₀ s') : At A d₀ t F x s' :=
  ⟨hF s s' hrely.2 h.fact, hinv, hrely.1.trans h.tx⟩

/-- Remember one more fact. -/
theorem At.learn {G : Sys → Prop} (h : At A d₀ t F x s) (hG : G s) :
    At A d₀ t (fun s => F s ∧ G s) x s :=
  ⟨⟨h.fact, hG⟩, h.inv, h.tx⟩

/-- A transaction that was failed from outside. -/
def Tx.failed (x : Tx) : Tx := { x with faulted := true, writes := [], aborted := true }

/-- A transaction that PostgreSQL has aborted. -/
def Tx.refused (x : Tx) : Tx := { x with writes := [], aborted := true }

/-- The ways an await can end: something outside failed it, or it ran. An SQL statement
    runs if nothing failed it. -/
theorem exec_cases {e : Env} {s' : Sys} {r : o.Res} (hx : s.txs t = some x)
    (hlive : x.aborted = false ∨ o.isSql = false) (h : exec e t o s = some (r, s')) :
    (∃ f : Fault, f.failure o ≠ .integrityError ∧ r = .error (f.failure o) ∧
      ((o.isSql = true ∧ s' = s.abort t { x with faulted := true }) ∨
        (o.isRedis = true ∧ s' = s.setTx t (x.redisFault f)))) ∨
    ((o.isSql = true → e.fault = none) ∧ s.run t x e o = some (r, s')) := by
  have hgo : (x.aborted && o.isSql) = false := by rcases hlive with h | h <;> simp [h]
  simp only [exec, hx, hgo, Bool.false_eq_true, ↓reduceIte] at h
  -- an `IntegrityError` is never a fault
  have hf : ∀ f : Fault, f.failure o ≠ .integrityError := by
    intro f; cases f <;> simp only [Fault.failure] <;> [split; skip] <;> simp
  split at h
  · rename_i hnone
    exact Or.inr ⟨fun _ => hnone, h⟩
  · rename_i f _
    split at h
    · rename_i hsql
      obtain ⟨rfl, rfl⟩ := Prod.mk.inj (Option.some.inj h)
      exact Or.inl ⟨_, hf f, rfl, Or.inl ⟨hsql, rfl⟩⟩
    · rename_i hother
      split at h
      · rename_i hredis
        obtain ⟨rfl, rfl⟩ := Prod.mk.inj (Option.some.inj h)
        exact Or.inl ⟨_, hf f, rfl, Or.inr ⟨hredis, rfl⟩⟩
      · exact Or.inr ⟨fun hsql => absurd hsql hother, h⟩

/-- After an abort every SQL statement fails and changes nothing. -/
theorem exec_aborted {e : Env} {s' : Sys} {r : o.Res} (hx : s.txs t = some x)
    (hdead : x.aborted = true) (hsql : o.isSql = true) (h : exec e t o s = some (r, s')) :
    r = .error .pendingRollbackError ∧ s' = s := by
  simp only [exec, hx, hdead, hsql, Bool.and_self, ↓reduceIte] at h
  obtain ⟨hr, hs⟩ := Prod.mk.inj (Option.some.inj h)
  exact ⟨hr.symm, hs.symm⟩

/-- The record of a transaction that was aborted. -/
theorem Sys.abort_txs (y : Tx) : (s.abort t y).txs t = some y.refused := Sys.setTx_txs_self _

/-- The rule of an await, before its statement is looked at. -/
theorem safe_await {Q : Except Exc o.Val → Session → Sys → Prop} (hF : Stable t F)
    (h : At A d₀ t F x s) (hlive : x.aborted = false ∨ o.isSql = false)
    (hread : x.req.isRead = true → A.overwrite ∨ o.readOnly = true)
    (hpre : ∀ s₁, At A d₀ t F x s₁ → x.Pre cfg A d₀ t s₁ o)
    (hfail : ∀ (f : Fault) s₁ s₂, f.failure o ≠ .integrityError → At A d₀ t F x s₁ →
      ((o.isSql = true ∧ s₂ = s₁.abort t { x with faulted := true }) ∨
        (o.isRedis = true ∧ s₂ = s₁.setTx t (x.redisFault f))) →
      Q (.error (.failure (f.failure o))) ss s₂)
    (hrun : ∀ e r s₁ s₂, At A d₀ t F x s₁ → Admitted cfg A e t o s₁ →
      (o.isSql = true → e.fault = none) → s₁.run t x e o = some (r, s₂) →
      match r with
      | .ok a => Q (.ok a) ss s₂
      | .error f => Q (.error (.failure f)) ss s₂) :
    Coro.Safe cfg A d₀ t (await o) ss Q s := by
  -- the others may have moved before the statement runs; the fact is stable under that
  intro s₁ hrely hinv
  have h₁ : At A d₀ t F x s₁ := h.later hF hrely hinv
  refine ⟨⟨x, h₁.tx, hread, hpre s₁ h₁⟩, fun e r s₂ hok hexec => ?_⟩
  rcases exec_cases h₁.tx hlive hexec with ⟨f, hf, rfl, hcase⟩ | ⟨hlucky, hr⟩
  · exact hfail f s₁ s₂ hf h₁ hcase
  · have := hrun e r s₁ s₂ h₁ hok hlucky hr
    cases r <;> exact this

/-- The rule of an SQL statement of a live transaction. -/
theorem safe_sql {Q : Except Exc o.Val → Session → Sys → Prop} (hsql : o.isSql = true)
    (hF : Stable t F) (h : At A d₀ t F x s) (hlive : x.aborted = false)
    (hread : x.req.isRead = true → A.overwrite ∨ o.readOnly = true)
    (hpre : ∀ s₁, At A d₀ t F x s₁ → x.Pre cfg A d₀ t s₁ o)
    (hfail : ∀ f s', f ≠ .integrityError → s'.txs t = some x.failed →
      Q (.error (.failure f)) ss s')
    (hrun : ∀ e r s₁ s₂, At A d₀ t F x s₁ → Admitted cfg A e t o s₁ → e.fault = none →
      s₁.run t x e o = some (r, s₂) →
      match r with
      | .ok a => Q (.ok a) ss s₂
      | .error f => Q (.error (.failure f)) ss s₂) :
    Coro.Safe cfg A d₀ t (await o) ss Q s := by
  refine safe_await hF h (Or.inl hlive) hread hpre (fun f s₁ s₂ hf _ hcase => ?_)
    fun e r s₁ s₂ h₁ hok hlucky => hrun e r s₁ s₂ h₁ hok (hlucky hsql)
  -- the environment fails a SQL statement by aborting the transaction
  rcases hcase with ⟨_, rfl⟩ | ⟨hredis, _⟩
  · exact hfail _ _ hf (Sys.abort_txs _)
  · cases o <;> simp_all [Stmt.isSql, Stmt.isRedis]

/-- Noting something about the own request. -/
theorem At.note (h : At A d₀ t F x s) (hF : Stable t F) {e : Env} {o : Stmt} (x' : Tx)
    (hw : x'.writes = x.writes) (hk : x.Keeps x') (hq : x.Quiet e o x') :
    At A d₀ t F x' (s.setTx t x') where
  fact := hF s _ (.of_db_eq rfl rfl fun _ _ h => h) h.fact
  inv := h.inv.move h.tx (.note x' hw hk hq)
  tx := Sys.setTx_txs_self _

/-- A failing Redis command. -/
theorem At.redisFault (h : At A d₀ t F x s) (hF : Stable t F) (f : Fault) :
    At A d₀ t F (x.redisFault f) (s.setTx t (x.redisFault f)) := by
  have hw : (x.redisFault f).writes = x.writes := by cases f <;> rfl
  refine h.note (e := { fault := some f }) (o := .redisGet 0) hF _ hw (x.keeps_redisFault f) ?_
  cases f with
  | error => exact ⟨rfl, Or.inl, fun _ => Or.inr ⟨rfl, rfl⟩⟩
  | cancelled => exact ⟨rfl, fun _ => Or.inr rfl, Or.inl⟩

/-- Publishing a quantity. -/
theorem At.publish (h : At A d₀ t F x s) (hF : Stable t F) (id : Uuid) (q : Int) :
    At A d₀ t F { x with published := some (id, q) }
      ({ s with cache := Function.update s.cache id (some q) }.setTx t
        { x with published := some (id, q) }) where
  fact := hF s _ (.of_db_eq rfl rfl fun _ _ h => h) h.fact
  inv := h.inv.move (e := {}) h.tx (.published id q rfl rfl)
  tx := Sys.setTx_txs_self _

/-- Taking locks. -/
theorem At.withLocks (h : At A d₀ t F x s) (hF : Stable t F) {ls : List (Row × LockMode)}
    (hfree : ∀ l ∈ ls, s.blocked t l.1 l.2 = false) : At A d₀ t F x (s.withLocks t ls) where
  fact := hF s _ (.of_db_eq rfl rfl fun _ _ h => Sys.mem_withLocks.mpr (Or.inr h)) h.fact
  inv := h.inv.move (e := {}) (o := .rollback) h.tx (.locked ls hfree)
  tx := h.tx

/-- `x` after it has written `w`. -/
def Tx.wrote (x : Tx) (w : Write) : Tx := { x with writes := x.writes ++ [w] }

/-- Taking locks and writing under one of them. -/
theorem At.write {o : Stmt} (h : At A d₀ t F x s) (hF : Stable t F) {s₁ : Sys}
    {ls : List (Row × LockMode)} {w : Write} (mode : LockMode) (hacq : s.acquire t ls = some s₁)
    (hmem : (w.row, mode) ∈ ls)
    (hmode : mode = .forNoKeyUpdate ∨ mode = .forUpdate) (hname : w.Named o (s.view x) ls) :
    At A d₀ t F (x.wrote w) (s₁.write t x w) ∧ (s₁.write t x w).owns t w.row ∧
      (s₁.write t x w).db = s.db := by
  -- every other transaction's lock on the row is compatible with the ones acquired
  obtain ⟨rfl, hfree⟩ := Sys.acquire_some hacq
  have hinv := h.inv.move (e := {}) (o := o) h.tx (.wrote ls w mode hfree hmem hmode hname)
  refine ⟨⟨?_, hinv, Sys.setTx_txs_self _⟩,
    ⟨mode, hmode, Sys.mem_withLocks.mpr (Or.inl ⟨rfl, hmem⟩)⟩, rfl⟩
  exact hF s _ (.of_db_eq rfl rfl fun _ _ h => Sys.mem_withLocks.mpr (Or.inr h)) h.fact

/-! ## Reads -/

/-- What a request sees of the tables. -/
theorem Sys.view_eq (x : Tx) : s.view x = s.db.applyAll x.writes := rfl

/-- The rule of a plain `SELECT` of an order. -/
theorem safe_selectOrder {id : Uuid} {Q : Except Exc (Option Order) → Session → Sys → Prop}
    (hF : Stable t F) (h : At A d₀ t F x s) (hlive : x.aborted = false)
    (hread : (∃ b, x.req = .placeOrder b) ∨ x.read.isSome = true ∨ x.writes = [])
    (hfail : ∀ f s', f ≠ .integrityError → s'.txs t = some x.failed →
      Q (.error (.failure f)) ss s')
    (hok : ∀ r s', At A d₀ t F { x with read := x.read.or r } s' →
      (s'.view x).orders.find? id = r → Q (.ok r) ss s') :
    Coro.Safe cfg A d₀ t (await (.selectOrder id)) ss Q s := by
  refine safe_sql rfl hF h hlive (fun _ => Or.inr rfl) (fun _ _ => hread) hfail ?_
  intro e r s₁ s₂ h₁ _ _ hrun
  -- a plain SELECT takes no lock and writes nothing: it only leaves a note of the row it has read
  obtain ⟨rfl, rfl⟩ := Prod.mk.inj (Option.some.inj hrun)
  exact hok _ _ (h₁.note (e := e) (o := .selectOrder id) hF _ rfl (x.keeps_read _)
    ⟨rfl, Or.inl, Or.inl⟩) rfl

/-- The rule of a plain `SELECT` of an item: what a stock read finds is current, or may be
    overwritten. -/
theorem safe_selectItem {id : Uuid} {Q : Except Exc (Option MenuItem) → Session → Sys → Prop}
    (hF : Stable t F) (h : At A d₀ t F x s) (hlive : x.aborted = false)
    (hread : x.req.isRead = true → x.req = .getStock id ∧ x.writes = [])
    (hfail : ∀ f s', f ≠ .integrityError → s'.txs t = some x.failed →
      Q (.error (.failure f)) ss s')
    (hok : ∀ r s', At A d₀ t F { x with seen := some r } s' → (s'.view x).items.find? id = r →
      (A.overwrite ∨ cfg.cache.enabled = false ∨ (x.req.isRead = true →
        ∀ i, s'.db.items.find? id = some i → x.cached = none ∨ x.cached = some i.stockQuantity)) →
      Q (.ok r) ss s') :
    Coro.Safe cfg A d₀ t (await (.selectItem id)) ss Q s := by
  refine safe_sql rfl hF h hlive (fun _ => Or.inr rfl) (fun _ _ => hread) hfail ?_
  intro e r s₁ s₂ h₁ hadm hlucky hrun
  obtain ⟨rfl, rfl⟩ := Prod.mk.inj (Option.some.inj hrun)
  refine hok _ _ (h₁.note (e := e) (o := .selectItem id) hF _ rfl
    ⟨rfl, rfl, fun _ h => h, fun h => h, fun h => h⟩ ⟨rfl, Or.inl, Or.inl⟩) rfl ?_
  -- for a GET with the cache on, the quantity cached is none or that of the row, by the contract
  refine hadm.2.imp_right (Or.imp_right fun hcur hisRead i hi => ?_)
  simp only [CurrentRead, h₁.tx, hlucky, hisRead, Option.isSome_none, Bool.not_true,
    Bool.false_or] at hcur
  have hrow : s₁.db.items.find? id = some i := hi
  simpa [hrow] using hcur

/-- The rule of a `SELECT ... FOR UPDATE`: the row is owned from here on. -/
theorem safe_selectItemForUpdate {id : Uuid}
    {Q : Except Exc (Option MenuItem) → Session → Sys → Prop}
    (hF : Stable t F) (h : At A d₀ t F x s) (hlive : x.aborted = false)
    (hreq : x.req.isRead = false)
    (hfail : ∀ f s', f ≠ .integrityError → s'.txs t = some x.failed →
      Q (.error (.failure f)) ss s')
    (hnone : ∀ s', At A d₀ t F x s' → (s'.view x).items.find? id = none → Q (.ok none) ss s')
    (hsome : ∀ i s', At A d₀ t F x s' → s'.owns t (.item id) →
      (s'.view x).items.find? id = some i → Q (.ok (some i)) ss s') :
    Coro.Safe cfg A d₀ t (await (.selectItemForUpdate id)) ss Q s := by
  refine safe_sql rfl hF h hlive (fun hr => by simp [hreq] at hr) (fun _ _ => trivial) hfail ?_
  intro e r s₁ s₂ h₁ _ _ hrun
  -- no row: nothing is locked; a row: the statement runs once the lock is granted
  simp only [Sys.run] at hrun
  split at hrun
  · rename_i hfind
    obtain ⟨rfl, rfl⟩ := Prod.mk.inj (Option.some.inj hrun)
    exact hnone s₁ h₁ hfind
  · rename_i row hfind
    obtain ⟨s', hacq, heq⟩ := Option.map_eq_some_iff.mp hrun
    obtain ⟨rfl, rfl⟩ := Prod.mk.inj heq
    obtain ⟨rfl, hfree⟩ := Sys.acquire_some hacq
    exact hsome row _ (h₁.withLocks hF hfree)
      ⟨.forUpdate, Or.inr rfl, Sys.mem_withLocks.mpr (Or.inl ⟨rfl, by simp⟩)⟩ hfind

/-! ## Writes -/

/-- The rule of an `INSERT` of an item, which a CHECK constraint or a taken name refuses. -/
theorem safe_insertItem {n : NewItem} {Q : Except Exc MenuItem → Session → Sys → Prop}
    (hF : Stable t F) (h : At A d₀ t F x s) (hlive : x.aborted = false)
    (hreq : x.req.isRead = false) (hpub : x.published = none) (hw : x.writes = [])
    (hunanswered : x.response = none)
    (hstock : cfg.harness = .http → 0 ≤ n.stockQuantity)
    (hfail : ∀ f s', f ≠ .integrityError → s'.txs t = some x.failed →
      Q (.error (.failure f)) ss s')
    (hrefused : ∀ s₁ s', At A d₀ t F x s₁ → s'.wal = s₁.wal → s'.txs t = some x.refused →
      (∃ e, n.row? e = none) ∨ (∃ i ∈ (s₁.view x).items.rows, i.name = n.name) →
      Q (.error (.failure .integrityError)) ss s')
    (hok : ∀ e i s', At A d₀ t F (x.wrote (.item i)) s' → s'.owns t (.item i.id) →
      (s'.view x).items.find? i.id = none → n.row? e = some i → Q (.ok i) ss s') :
    Coro.Safe cfg A d₀ t (await (.insertItem n)) ss Q s := by
  refine safe_sql rfl hF h hlive (fun hr => by simp [hreq] at hr)
    (fun _ _ => ⟨hpub, hw, hunanswered, hlive, hstock⟩) hfail ?_
  intro e r s₁ s₂ h₁ _ _ hrun
  simp only [Sys.run, Sys.insertItem] at hrun
  -- a new id, then the CHECK constraints, then the lock, then the unique name
  split at hrun
  · rename_i hfresh
    split at hrun
    · rename_i hnone
      obtain ⟨rfl, rfl⟩ := Prod.mk.inj (Option.some.inj hrun)
      -- a CHECK constraint fails
      exact hrefused s₁ _ h₁ rfl (Sys.abort_txs _) (Or.inl ⟨e, hnone⟩)
    · rename_i row hrow
      obtain ⟨s', hacq, heq⟩ := Option.map_eq_some_iff.mp hrun
      split at heq
      · rename_i htaken
        obtain ⟨rfl, rfl⟩ := Prod.mk.inj heq
        -- the name is taken
        exact hrefused s₁ _ h₁ rfl (Sys.abort_txs _) (Or.inr (by simpa using htaken))
      · rename_i hname
        obtain ⟨rfl, rfl⟩ := Prod.mk.inj heq
        -- the row is written under the lock on its key
        have hid : row.id = e.uuid := (NewItem.row?_eq_some hrow).1
        obtain ⟨hat, howns, hdb⟩ := h₁.write hF (w := .item row) .forUpdate hacq
          (by simp [Write.row, hid]) (Or.inr rfl) (Write.named_inserted hrow hname (by simp))
        refine hok e row _ hat howns ?_ hrow
        simp only [Sys.freshItem, Bool.and_eq_true, Option.isNone_iff_eq_none] at hfresh
        rw [Sys.view_eq, hdb, hid]
        exact hfresh.1
  · cases hrun

/-- The rule of an `UPDATE` of an item. -/
theorem safe_updateItem {id : Uuid} {c : ItemChange}
    {Q : Except Exc Unit → Session → Sys → Prop}
    (hF : Stable t F) (h : At A d₀ t F x s) (hlive : x.aborted = false)
    (hread : x.req.isRead = true → A.overwrite) (hpub : x.published = none)
    (hstock : x.req.isRead = false → x.response = none ∧ ∀ q, c.stockQuantity = some q → 0 ≤ q)
    (hfail : ∀ f s', f ≠ .integrityError → s'.txs t = some x.failed →
      Q (.error (.failure f)) ss s')
    (hrefused : ∀ f s₁ s', At A d₀ t F x s₁ → s'.txs t = some x.refused →
      (∀ i, (s₁.view x).items.find? id = some i → c.stockQuantity.getD i.stockQuantity < 0) →
      Q (.error (.failure f)) ss s')
    (hok : ∀ e i i' s', At A d₀ t F (x.wrote (.item i')) s' → s'.owns t (.item id) →
      (s'.view x).items.find? id = some i → c.updated? i e = some i' → Q (.ok ()) ss s') :
    Coro.Safe cfg A d₀ t (await (.updateItem id c)) ss Q s := by
  refine safe_sql rfl hF h hlive (fun hr => Or.inl (hread hr)) (fun _ _ => ⟨hpub, hlive, hstock⟩)
    hfail ?_
  intro e r s₁ s₂ h₁ _ _ hrun
  simp only [Sys.run, Sys.updateItem] at hrun
  split at hrun
  · rename_i hfind
    obtain ⟨rfl, rfl⟩ := Prod.mk.inj (Option.some.inj hrun)
    -- no such row: the flush finds that it has changed nothing
    exact hrefused _ s₁ _ h₁ (Sys.abort_txs _) fun i hi => by cases hfind.symm.trans hi
  · rename_i row hfind
    split at hrun
    · rename_i hnone
      obtain ⟨rfl, rfl⟩ := Prod.mk.inj (Option.some.inj hrun)
      -- the CHECK constraint on the stock fails
      refine hrefused _ s₁ _ h₁ (Sys.abort_txs _) fun i hi => ?_
      obtain rfl := Option.some.inj (hfind.symm.trans hi)
      exact ItemChange.updated?_eq_none.mp hnone
    · rename_i row' hrow'
      obtain ⟨s', hacq, heq⟩ := Option.map_eq_some_iff.mp hrun
      obtain ⟨rfl, rfl⟩ := Prod.mk.inj heq
      -- the new version is written under the row lock
      have hid : row'.id = id := (ItemChange.updated?_id hrow').trans (Table.key_of_find? hfind)
      obtain ⟨hat, howns, hdb⟩ := h₁.write hF (o := .updateItem id c) (w := .item row')
        .forNoKeyUpdate hacq
        (by simp [Write.row, hid]) (Or.inl rfl) (Write.named_updated hfind hrow' _ _)
      refine hok e row row' _ hat (hid ▸ howns) ?_ hrow'
      rw [Sys.view_eq, hdb]
      exact hfind

/-- The rule of an `INSERT` of an order, which a CHECK constraint or a missing item refuses.
    -/
theorem safe_insertOrder {n : NewOrder} {Q : Except Exc Order → Session → Sys → Prop}
    (hF : Stable t F) (h : At A d₀ t F x s) (hlive : x.aborted = false)
    (hreq : x.req.isRead = false) (hpub : x.published = none) (hunanswered : x.response = none)
    (hfail : ∀ f s', f ≠ .integrityError → s'.txs t = some x.failed →
      Q (.error (.failure f)) ss s')
    (hrefused : ∀ s₁ s', At A d₀ t F x s₁ → s'.txs t = some x.refused →
      n.quantity ≤ 0 ∨ (s₁.view x).items.find? n.itemId = none →
      Q (.error (.failure .integrityError)) ss s')
    (hok : ∀ e o s', At A d₀ t F (x.wrote (.order o)) s' → s'.owns t (.order o.id) →
      (s'.view x).orders.find? o.id = none → n.row? e = some o → Q (.ok o) ss s') :
    Coro.Safe cfg A d₀ t (await (.insertOrder n)) ss Q s := by
  refine safe_sql rfl hF h hlive (fun hr => by simp [hreq] at hr) (fun _ _ =>
    ⟨hpub, hunanswered, hlive⟩) hfail ?_
  intro e r s₁ s₂ h₁ _ _ hrun
  simp only [Sys.run, Sys.insertOrder] at hrun
  split at hrun
  · rename_i hfresh
    split at hrun
    · rename_i row i hrow hitem
      obtain ⟨s', hacq, heq⟩ := Option.map_eq_some_iff.mp hrun
      obtain ⟨rfl, rfl⟩ := Prod.mk.inj heq
      -- the row is written under the lock on its key
      have hid : row.id = e.uuid := (NewOrder.row?_eq_some hrow).1
      obtain ⟨hat, howns, hdb⟩ := h₁.write hF (o := .insertOrder n) (w := .order row)
        .forUpdate hacq
        (by simp [Write.row, hid]) (Or.inr rfl) (Write.named_order _ _ _ _)
      refine hok e row _ hat howns ?_ hrow
      simp only [Sys.freshOrder, Bool.and_eq_true, Option.isNone_iff_eq_none] at hfresh
      rw [Sys.view_eq, hdb, hid]
      exact hfresh.1
    · rename_i hnone
      obtain ⟨rfl, rfl⟩ := Prod.mk.inj (Option.some.inj hrun)
      -- a CHECK constraint or the foreign key fails
      refine hrefused s₁ _ h₁ (Sys.abort_txs _) ?_
      cases hrow : n.row? e with
      | none => exact Or.inl (NewOrder.row?_eq_none.mp hrow)
      | some row =>
        cases hitem : (s₁.view x).items.find? n.itemId with
        | none => exact Or.inr rfl
        | some i => exact absurd hitem (hnone row i hrow)
  · cases hrun

/-- The rule of an `UPDATE` of an order: whether the version was still the one read. -/
theorem safe_updateOrder {id : Uuid} {v : Int} {st : OrderStatus}
    {Q : Except Exc Bool → Session → Sys → Prop}
    (hF : Stable t F) (h : At A d₀ t F x s) (hlive : x.aborted = false)
    (hreq : x.req.isRead = false) (hcheck : Checks x id v)
    (hfail : ∀ f s', f ≠ .integrityError → s'.txs t = some x.failed →
      Q (.error (.failure f)) ss s')
    (htrue : ∀ e cur s', At A d₀ t F (x.wrote (.order (cur.moved st e))) s' →
      s'.owns t (.order id) → (s'.view x).orders.find? id = some cur → cur.version = v →
      Q (.ok true) ss s')
    (hfalse : ∀ s', At A d₀ t F x s' →
      (∀ cur, (s'.view x).orders.find? id = some cur → cur.version ≠ v) →
      (A.stale ∨ cfg.harness = .service ∨ x.writes = []) → Q (.ok false) ss s') :
    Coro.Safe cfg A d₀ t (await (.updateOrder id v st)) ss Q s := by
  refine safe_sql rfl hF h hlive (fun hr => by simp [hreq] at hr) (fun _ _ => hcheck)
    hfail ?_
  intro e r s₁ s₂ h₁ hadm hlucky hrun
  -- a check that fails after a write is only admitted where it may
  have hstale : (∀ cur, (s₁.view x).orders.find? id = some cur → cur.version ≠ v) →
      A.stale ∨ cfg.harness = .service ∨ x.writes = [] := by
    intro hne
    refine hadm.1.imp_right (Or.imp_right fun hcur => ?_)
    simp only [CurrentCheck, h₁.tx, hlucky, Option.isSome_none, Bool.false_or,
      Bool.or_eq_true, List.isEmpty_iff] at hcur
    rcases hcur with hw | hcur
    · exact hw
    · cases hfind : (s₁.view x).orders.find? id with
      | none => simp [hfind] at hcur
      | some cur =>
        rw [hfind] at hcur
        exact absurd (by simpa using hcur) (hne cur hfind)
  simp only [Sys.run, Sys.updateOrder] at hrun
  split at hrun
  · rename_i hfind
    obtain ⟨rfl, rfl⟩ := Prod.mk.inj (Option.some.inj hrun)
    have hne : ∀ cur, (s₁.view x).orders.find? id = some cur → cur.version ≠ v :=
      fun cur hcur => by cases hfind.symm.trans hcur
    exact hfalse s₁ h₁ hne (hstale hne)
  · rename_i row hfind
    split at hrun
    · rename_i hv
      obtain ⟨s', hacq, heq⟩ := Option.map_eq_some_iff.mp hrun
      obtain ⟨rfl, rfl⟩ := Prod.mk.inj heq
      have hid : row.id = id := Table.key_of_find? hfind
      obtain ⟨hat, howns, hdb⟩ := h₁.write hF (o := .updateOrder id v st)
        (w := .order (row.moved st e)) .forNoKeyUpdate hacq
        (by simp [Write.row, Order.moved, hid]) (Or.inl rfl) (Write.named_order _ _ _ _)
      refine htrue e row _ hat (hid ▸ howns) ?_ hv
      rw [Sys.view_eq, hdb]
      exact hfind
    · rename_i hv
      obtain ⟨rfl, rfl⟩ := Prod.mk.inj (Option.some.inj hrun)
      have hne : ∀ cur, (s₁.view x).orders.find? id = some cur → cur.version ≠ v := by
        intro cur hcur
        obtain rfl := Option.some.inj (hfind.symm.trans hcur)
        exact hv
      exact hfalse s₁ h₁ hne (hstale hne)

/-- The rule of an `INSERT` of a movement whose foreign keys name rows. -/
theorem safe_insertMovement {n : NewMovement}
    {Q : Except Exc StockMovement → Session → Sys → Prop}
    (hF : Stable t F) (h : At A d₀ t F x s) (hlive : x.aborted = false)
    (hreq : x.req.isRead = false) (hpub : x.published = none) (hunanswered : x.response = none)
    (hkeys : ∀ s₁, At A d₀ t F x s₁ → Sys.movementKeys (s₁.view x) n = true)
    (hfail : ∀ f s', f ≠ .integrityError → s'.txs t = some x.failed →
      Q (.error (.failure f)) ss s')
    (hok : ∀ e s', At A d₀ t F (x.wrote (.movement (n.row e))) s' →
      s'.owns t (.movement (n.row e).id) → (s'.view x).movements.find? (n.row e).id = none →
      Q (.ok (n.row e)) ss s') :
    Coro.Safe cfg A d₀ t (await (.insertMovement n)) ss Q s := by
  refine safe_sql rfl hF h hlive (fun hr => by simp [hreq] at hr) (fun _ _ =>
    ⟨hpub, hunanswered, hlive⟩) hfail ?_
  intro e r s₁ s₂ h₁ _ _ hrun
  simp only [Sys.run, Sys.insertMovement, hkeys s₁ h₁, ↓reduceIte] at hrun
  -- the key is fresh, or the statement has no outcome
  split at hrun
  · rename_i hfresh
    obtain ⟨s', hacq, heq⟩ := Option.map_eq_some_iff.mp hrun
    obtain ⟨rfl, rfl⟩ := Prod.mk.inj heq
    obtain ⟨hat, howns, hdb⟩ := h₁.write hF (o := .insertMovement n)
      (w := .movement (n.row e)) .forUpdate hacq
      (by simp [Write.row, NewMovement.row]) (Or.inr rfl) (Write.named_movement _ _ _ _)
    refine hok e _ hat howns ?_
    simp only [Sys.freshMovement, Bool.and_eq_true, Option.isNone_iff_eq_none] at hfresh
    rw [Sys.view_eq, hdb]
    exact hfresh.1
  · cases hrun

/-! ## Redis -/

/-- The rule of a Redis `GET`. -/
theorem safe_redisGet {id : Uuid} {Q : Except Exc (Option Int) → Session → Sys → Prop}
    (hF : Stable t F) (h : At A d₀ t F x s) (hreq : x.req = .getStock id)
    (hfail : ∀ (f : Fault) s', At A d₀ t F (x.redisFault f) s' →
      Q (.error (.failure (f.failure (.redisGet id)))) ss s')
    (hok : ∀ q s', At A d₀ t F { x with cached := q } s' → Q (.ok q) ss s') :
    Coro.Safe cfg A d₀ t (await (.redisGet id)) ss Q s := by
  refine safe_await hF h (Or.inr rfl) (fun _ => Or.inr rfl) (fun _ _ => hreq)
    (fun f s₁ s₂ _ h₁ hcase => ?_) ?_
  · rcases hcase with ⟨hsql, _⟩ | ⟨_, rfl⟩
    · cases hsql
    · exact hfail f _ (h₁.redisFault hF f)
  · intro e r s₁ s₂ h₁ _ _ hrun
    obtain ⟨rfl, rfl⟩ := Prod.mk.inj (Option.some.inj hrun)
    exact hok _ _ (h₁.note (e := e) (o := .redisGet id) hF _ rfl
      ⟨rfl, rfl, fun _ h => h, fun h => h, fun h => h⟩ ⟨rfl, Or.inl, Or.inl⟩)

/-- The rule of a Redis `SETEX`. -/
theorem safe_redisSetex {id : Uuid} {q : Int} {Q : Except Exc Unit → Session → Sys → Prop}
    (hF : Stable t F) (h : At A d₀ t F x s) (hreq : x.req.isRead = false)
    (hpub : ∀ s₁, At A d₀ t F x s₁ → Publishes s₁ t x id q)
    (hfail : ∀ (f : Fault) s', At A d₀ t F (x.redisFault f) s' →
      Q (.error (.failure (f.failure (.redisSetex id q)))) ss s')
    (hok : ∀ s', At A d₀ t F { x with published := some (id, q) } s' → Q (.ok ()) ss s') :
    Coro.Safe cfg A d₀ t (await (.redisSetex id q)) ss Q s := by
  refine safe_await hF h (Or.inr rfl) (fun hr => by simp [hreq] at hr) (fun s₁ h₁ => hpub s₁ h₁)
    (fun f s₁ s₂ _ h₁ hcase => ?_) ?_
  · rcases hcase with ⟨hsql, _⟩ | ⟨_, rfl⟩
    · cases hsql
    · exact hfail f _ (h₁.redisFault hF f)
  · intro e r s₁ s₂ h₁ _ _ hrun
    obtain ⟨rfl, rfl⟩ := Prod.mk.inj (Option.some.inj hrun)
    exact hok _ (h₁.publish hF id q)

/-! ## The end of a request -/

/-- The rule of a `COMMIT`: the row versions are an effect. -/
theorem safe_commit {Q : Except Exc Unit → Session → Sys → Prop}
    (hF : Stable t F) (h : At A d₀ t F x s) (hlive : x.aborted = false) (hnew : x.commit = none)
    (hpub : x.Published cfg) (heff : ∀ s₁, At A d₀ t F x s₁ → Committable A d₀ s₁ x)
    (hfail : ∀ f s', f ≠ .integrityError → s'.txs t = some x.failed →
      Q (.error (.failure f)) ss s')
    (hok : ∀ s₁ s', At A d₀ t F x s₁ → s₁.wal <+: s'.wal →
      s'.txs t = some { x with writes := [], commit := some (s₁.db, x.writes) } →
      Q (.ok ()) ss s') :
    Coro.Safe cfg A d₀ t (await .commit) ss Q s := by
  refine safe_sql rfl hF h hlive (fun _ => Or.inr rfl)
    (fun s₁ h₁ => ⟨hnew, fun _ => ⟨heff s₁ h₁, hpub⟩⟩) hfail ?_
  intro e r s₁ s₂ h₁ _ _ hrun
  obtain ⟨rfl, rfl⟩ := Prod.mk.inj (Option.some.inj hrun)
  refine hok s₁ _ h₁ ?_ (Sys.setTx_txs_self _)
  show s₁.wal <+: if x.writes = [] then s₁.wal else s₁.wal ++ [⟨t, x.req, x.read, x.writes⟩]
  split
  · exact List.prefix_rfl
  · exact List.prefix_append _ _

/-- `COMMIT` of a transaction that PostgreSQL has aborted. -/
theorem safe_commit_aborted {Q : Except Exc Unit → Session → Sys → Prop}
    (hx : s.txs t = some x) (hdead : x.aborted = true) (hnew : x.commit = none)
    (hfail : ∀ s', s.wal <+: s'.wal → s'.txs t = some x →
      Q (.error (.failure .pendingRollbackError)) ss s') :
    Coro.Safe cfg A d₀ t (await .commit) ss Q s := by
  intro s₁ hrely hinv
  have hx₁ : s₁.txs t = some x := hrely.1.trans hx
  refine ⟨⟨x, hx₁, fun _ => Or.inr rfl, hnew, fun hlive => by simp [hdead] at hlive⟩, ?_⟩
  intro e r s₂ _ hexec
  obtain ⟨rfl, rfl⟩ := exec_aborted hx₁ hdead rfl hexec
  exact hfail _ hrely.2.wal hx₁

/-- The rule of a `ROLLBACK`, which does not fail. -/
theorem safe_rollback {Q : Except Exc Unit → Session → Sys → Prop} (hx : s.txs t = some x)
    (hpub : cfg.harness = .http → x.published = none ∨ x.faulted = true)
    (hok : ∀ s', s.wal <+: s'.wal → s'.txs t = some { x with writes := [], aborted := false } →
      Q (.ok ()) ss s') :
    Coro.Safe cfg A d₀ t (await .rollback) ss Q s := by
  intro s₁ hrely hinv
  have hx₁ : s₁.txs t = some x := hrely.1.trans hx
  refine ⟨⟨x, hx₁, fun _ => Or.inr rfl, hpub⟩, fun e r s₂ _ hexec => ?_⟩
  rcases exec_cases hx₁ (Or.inr rfl) hexec with ⟨f, _, _, ⟨hsql, _⟩ | ⟨hredis, _⟩⟩ | ⟨_, hrun⟩
  · cases hsql
  · cases hredis
  · obtain ⟨rfl, rfl⟩ := Prod.mk.inj (Option.some.inj hrun)
    exact hok _ hrely.2.wal (Sys.setTx_txs_self _)

/-- The rule of a response. -/
theorem safe_respond {res : Response} {Q : Except Exc Unit → Session → Sys → Prop}
    (hx : s.txs t = some x)
    (hread : x.req.isRead = true → x.Reads res) (hpending : x.req.isRead = false → x.Pending res)
    (hF : Stable t F) (hs : F s)
    (hok : ∀ s', At A d₀ t F { x with response := some res } s' → Q (.ok ()) ss s') :
    Coro.Safe cfg A d₀ t (await (.respond res)) ss Q s := by
  intro s₁ hrely hinv
  have hx₁ : s₁.txs t = some x := hrely.1.trans hx
  refine ⟨⟨x, hx₁, fun _ => Or.inr rfl, hread, hpending⟩, fun e r s₂ _ hexec => ?_⟩
  rcases exec_cases hx₁ (Or.inr rfl) hexec with ⟨f, _, _, ⟨hsql, _⟩ | ⟨hredis, _⟩⟩ | ⟨_, hrun⟩
  · cases hsql
  · cases hredis
  · obtain ⟨rfl, rfl⟩ := Prod.mk.inj (Option.some.inj hrun)
    have h₁ : At A d₀ t F x s₁ := ⟨hF s s₁ hrely.2 hs, hinv, hx₁⟩
    exact hok _ (h₁.note (e := e) (o := .respond res) hF _ rfl
      ⟨rfl, rfl, fun _ h => h, fun h => h, fun h => h⟩ ⟨rfl, Or.inl, Or.inl⟩)

end

end Nova
