import Nova.ForStd.Solo
import Nova.Spec.Columns

/-!
# A request that runs alone

PostgreSQL here fails a statement exactly when its column cannot hold a value (`Ranged`). A
request that starts at rest and runs alone never waits; the rules of this module follow it
from statement to statement, with nothing to know but the tables that it started from and
the row versions that it has written (`Solitary`).
-/

namespace Nova

open Machine
open Coro (raise attempt await)

/-! ## Coroutines -/

section

variable {α β : Type} {cfg : Config} {t : TxId} {ss : Session} {s : Sys}
  {Q : Except Exc α → Session → Sys → Prop}

/-- From session `ss` and state `s` on, `x` runs alone, and ends as `Q` says. -/
def Coro.Solo (cfg : Config) (t : TxId) (x : Coro α) (ss : Session)
    (Q : Except Exc α → Session → Sys → Prop) (s : Sys) : Prop :=
  Machine.Solo (M := system cfg) Ranged t (x ss) (fun p s' => Q p.1 p.2 s') s

/-- A coroutine that returns is done. -/
@[simp] theorem solo_pure {a : α} : Coro.Solo cfg t (pure a) ss Q s ↔ Q (.ok a) ss s := Iff.rfl

/-- A coroutine that raises is done. -/
@[simp] theorem solo_raise {e : Exc} :
    Coro.Solo cfg t (raise e) ss Q s ↔ Q (.error e) ss s := Iff.rfl

/-- The sequencing rule. -/
theorem solo_then {x : Coro β} {f : β → Coro α} :
    Coro.Solo cfg t (x >>= f) ss Q s ↔ Coro.Solo cfg t x ss (fun r ss' s' =>
      match r with
      | .ok b => Coro.Solo cfg t (f b) ss' Q s'
      | .error e => Q (.error e) ss' s') s := by
  have hpost : ∀ (p : Except Exc β × Session) s',
      Machine.Solo (M := system cfg) Ranged t
        (match p.1 with
          | .ok b => f b p.2
          | .error e => Prog.ret (.error e, p.2)) (fun p s' => Q p.1 p.2 s') s' ↔
      (match p.1 with
        | .ok b => Coro.Solo cfg t (f b) p.2 Q s'
        | .error e => Q (.error e) p.2 s') := by
    rintro ⟨_ | _, _⟩ s' <;> exact Iff.rfl
  refine Iff.trans Machine.solo_bind ⟨fun h => h.mono fun p s' => (hpost p s').mp, fun h => ?_⟩
  exact Machine.Solo.mono h fun p s' => (hpost p s').mpr

/-- The rule for `try`: what is raised is returned. -/
theorem solo_attempt {x : Coro α} {Q : Except Exc (Except Exc α) → Session → Sys → Prop} :
    Coro.Solo cfg t (attempt x) ss Q s ↔ Coro.Solo cfg t x ss (fun r => Q (.ok r)) s :=
  Machine.solo_bind

end

/-! ## Statements -/

/-- Request `t` is under way and no other request has locks: it started from the tables
    `d`, has written `ws`, and has sent the response `res` if any. -/
structure Solitary (t : TxId) (d : Db) (ws : List Write) (res : Option Response) (s : Sys) :
    Prop where
  locks : ∀ l ∈ s.locks, l.tx = t
  db : s.db = d
  tx : ∃ x, s.txs t = some x ∧ x.aborted = false ∧ x.writes = ws ∧ x.response = res

section

variable {α : Type} {cfg : Config} {t : TxId} {ss : Session} {s : Sys} {d : Db} {ws : List Write}
  {res : Option Response} {x : Tx} {o : Stmt}

/-- A statement whose values fit runs, and needs not wait. -/
theorem solo_await {Q : Except Exc o.Val → Session → Sys → Prop} (h : Solitary t d ws res s)
    (hfits : o.Fits (d.applyAll ws))
    (hrun : ∀ x e r s', s.txs t = some x → x.aborted = false → x.writes = ws → x.response = res →
      s.view x = d.applyAll ws → s.run t x e o = some (r, s') → (∀ l ∈ s'.locks, l.tx = t) →
      match r with
      | .ok a => Q (.ok a) ss s'
      | .error f => Q (.error (.failure f)) ss s') :
    Coro.Solo cfg t (await o) ss Q s := by
  obtain ⟨x, hx, hlive, hwrites, hres⟩ := h.tx
  have hview : s.view x = d.applyAll ws := by rw [Sys.view, h.db, hwrites]
  have hfits : s.overflows t o = false := by
    rw [Bool.eq_false_iff]
    exact fun hover => (Sys.overflows_iff hx).mp hover (hview ▸ hfits)
  constructor
  · -- alone, a statement is never blocked
    have hneeds : ∀ l ∈ o.needs, s.blocked t l.1 l.2 = false := by
      intro need _
      simp only [Sys.blocked, List.any_eq_false, Bool.and_eq_true, decide_eq_true_eq, not_and]
      rintro l hl ⟨hne, _⟩
      exact absurd (h.locks l hl) hne
    obtain ⟨e, hfault, hsome⟩ := exec_isSome hx hneeds
    obtain ⟨⟨r, s'⟩, hexec⟩ := Option.isSome_iff_exists.mp hsome
    exact ⟨e, r, s', by simp [Ranged, hfits, hfault], hexec⟩
  · intro e r s' hranged hexec
    -- and has no fault, since all its values fit
    have hfault : e.fault = none := by simpa [Ranged, hfits] using hranged
    have hrun' : s.run t x e o = some (r, s') := by
      simpa [exec, hx, hlive, hfault] using (show exec e t o s = some (r, s') from hexec)
    have hlocks : ∀ l ∈ s'.locks, l.tx = t := by
      intro l hl
      by_contra hne
      exact hne (h.locks l ((exec_locks_ne hne hexec rfl).mp hl))
    have := hrun x e r s' hx hlive hwrites hres hview hrun' hlocks
    cases r <;> exact this

/-- A statement with a value that does not fit fails. -/
theorem solo_overflow {Q : Except Exc o.Val → Session → Sys → Prop} (h : Solitary t d ws res s)
    (hsql : o.isSql = true) (hover : ¬o.Fits (d.applyAll ws))
    (hQ : ∀ s', s'.db = d → (∃ x, s'.txs t = some x) → Q (.error (.failure .dbapiError)) ss s') :
    Coro.Solo cfg t (await o) ss Q s := by
  obtain ⟨x, hx, hlive, hwrites, _⟩ := h.tx
  have hview : s.view x = d.applyAll ws := by rw [Sys.view, h.db, hwrites]
  have hover' : s.overflows t o = true := (Sys.overflows_iff hx).mpr (hview ▸ hover)
  have hfailure : Fault.error.failure o = .dbapiError := by
    cases o <;> first | rfl | cases hsql
  -- the fault makes it a `DBAPIError`
  have hexec : ∀ e : Env, e.fault = some .error →
      exec e t o s = some (.error .dbapiError, s.abort t { x with faulted := true }) := by
    intro e he
    simp [exec, hx, hlive, he, hsql, hfailure]
  constructor
  · -- the environment must fail such a statement, and can
    have hranged : Ranged { fault := some .error } t o s := by simp [Ranged, hover']
    exact ⟨{ fault := some .error }, .error .dbapiError, s.abort t { x with faulted := true },
      hranged, hexec { fault := some .error } rfl⟩
  · -- and nothing else can happen
    intro e r s' hranged hrun
    have hfault : e.fault = some .error := by simpa [Ranged, hover'] using hranged
    have hrun' : exec e t o s = some (r, s') := hrun
    rw [hexec e hfault] at hrun'
    obtain ⟨rfl, rfl⟩ := Prod.mk.inj (Option.some.inj hrun')
    exact hQ _ h.db ⟨_, Sys.abort_txs _⟩

/-- A `SELECT` of an order returns the row that the request sees. -/
theorem solo_selectOrder {id : Uuid} {Q : Except Exc (Option Order) → Session → Sys → Prop}
    (h : Solitary t d ws res s)
    (hQ : ∀ s', Solitary t d ws res s' → Q (.ok ((d.applyAll ws).orders.find? id)) ss s') :
    Coro.Solo cfg t (await (.selectOrder id)) ss Q s := by
  refine solo_await h (.of_nil rfl rfl rfl) fun x e r s' hx hlive hw hres hview hrun hlocks => ?_
  obtain ⟨rfl, rfl⟩ := Prod.mk.inj (Option.some.inj hrun)
  rw [hview]
  exact hQ _ ⟨hlocks, h.db, _, Sys.setTx_txs_self _, hlive, hw, hres⟩

/-- A `SELECT` of an item returns the row that the request sees. -/
theorem solo_selectItem {id : Uuid} {Q : Except Exc (Option MenuItem) → Session → Sys → Prop}
    (h : Solitary t d ws res s)
    (hQ : ∀ s', Solitary t d ws res s' → Q (.ok ((d.applyAll ws).items.find? id)) ss s') :
    Coro.Solo cfg t (await (.selectItem id)) ss Q s := by
  refine solo_await h (.of_nil rfl rfl rfl) fun x e r s' hx hlive hw hres hview hrun hlocks => ?_
  obtain ⟨rfl, rfl⟩ := Prod.mk.inj (Option.some.inj hrun)
  rw [hview]
  exact hQ _ ⟨hlocks, h.db, _, Sys.setTx_txs_self _, hlive, hw, hres⟩

/-- A `SELECT ... FOR UPDATE` returns the row: nobody else has it locked. -/
theorem solo_selectItemForUpdate {id : Uuid} {row : MenuItem}
    {Q : Except Exc (Option MenuItem) → Session → Sys → Prop} (h : Solitary t d ws res s)
    (hrow : (d.applyAll ws).items.find? id = some row)
    (hQ : ∀ s', Solitary t d ws res s' → Q (.ok (some row)) ss s') :
    Coro.Solo cfg t (await (.selectItemForUpdate id)) ss Q s := by
  refine solo_await h (.of_nil rfl rfl rfl) fun x e r s' hx hlive hw hres hview hrun hlocks => ?_
  simp only [Sys.run, hview, hrow] at hrun
  obtain ⟨s₁, hacq, heq⟩ := Option.map_eq_some_iff.mp hrun
  obtain ⟨rfl, rfl⟩ := Prod.mk.inj heq
  obtain ⟨rfl, _⟩ := Sys.acquire_some hacq
  exact hQ _ ⟨hlocks, h.db, x, hx, hlive, hw, hres⟩

/-- A row version that is written joins `ws`. -/
private theorem solitary_wrote {s₁ s' : Sys} {ls : List (Row × LockMode)} {γ : Type} {r r' : γ}
    {w : Write} (h : Solitary t d ws res s) (hlive : x.aborted = false) (hw : x.writes = ws)
    (hres : x.response = res) (hacq : s.acquire t ls = some s₁)
    (heq : (r, s₁.write t x w) = (r', s')) (hlocks : ∀ l ∈ s'.locks, l.tx = t) :
    Solitary t d (ws ++ [w]) res s' := by
  obtain ⟨rfl, _⟩ := Sys.acquire_some hacq
  obtain ⟨_, rfl⟩ := Prod.mk.inj heq
  exact ⟨hlocks, h.db, _, Sys.setTx_txs_self _, hlive, by simp [hw], hres⟩

/-- An `UPDATE` of an item whose values fit their columns succeeds. -/
theorem solo_updateItem {id : Uuid} {c : ItemChange} {row : MenuItem}
    {Q : Except Exc Unit → Session → Sys → Prop} (h : Solitary t d ws res s)
    (hrow : (d.applyAll ws).items.find? id = some row)
    (hcheck : 0 ≤ c.stockQuantity.getD row.stockQuantity)
    (hrange : ∀ n ∈ c.stockQuantity.toList ++ c.version.toList, Int32 n)
    (hQ : ∀ e row' s', c.updated? row e = some row' →
      Solitary t d (ws ++ [.item row']) res s' → Q (.ok ()) ss s') :
    Coro.Solo cfg t (await (.updateItem id c)) ss Q s := by
  refine solo_await h (.of_integers hrange rfl rfl)
    fun x e r s' hx hlive hw hres hview hrun hlocks => ?_
  simp only [Sys.run, Sys.updateItem, hview, hrow] at hrun
  split at hrun
  · rename_i hnone
    have hneg := ItemChange.updated?_eq_none.mp hnone
    omega
  · rename_i row' hrow'
    obtain ⟨s₁, hacq, heq⟩ := Option.map_eq_some_iff.mp hrun
    have hs' := solitary_wrote h hlive hw hres hacq heq hlocks
    obtain rfl := (Prod.mk.inj heq).1
    exact hQ e row' s' hrow' hs'

/-- An `INSERT` of a movement whose values fit their columns succeeds. -/
theorem solo_insertMovement {n : NewMovement}
    {Q : Except Exc StockMovement → Session → Sys → Prop} (h : Solitary t d ws res s)
    (hkeys : Sys.movementKeys (d.applyAll ws) n = true)
    (hrange : ∀ k ∈ [n.quantityDelta, n.stockBefore, n.stockAfter], Int32 k)
    (hreason : ∀ s ∈ n.reason.toList, Storable s)
    (hQ : ∀ e s', (d.applyAll ws).movements.find? e.uuid = none →
      Solitary t d (ws ++ [.movement (n.row e)]) res s' → Q (.ok (n.row e)) ss s') :
    Coro.Solo cfg t (await (.insertMovement n)) ss Q s := by
  refine solo_await h ⟨hrange, by simp [Stmt.prices], hreason⟩
    fun x e r s' hx hlive hw hres hview hrun hlocks => ?_
  simp only [Sys.run, Sys.insertMovement, hview, hkeys, if_true] at hrun
  split at hrun
  · rename_i hfresh
    obtain ⟨s₁, hacq, heq⟩ := Option.map_eq_some_iff.mp hrun
    have hs' := solitary_wrote h hlive hw hres hacq heq hlocks
    obtain rfl := (Prod.mk.inj heq).1
    refine hQ e s' ?_ hs'
    simp only [Sys.freshMovement, hview, Bool.and_eq_true, Option.isNone_iff_eq_none] at hfresh
    exact hfresh.1
  · cases hrun

/-- An `UPDATE` of an order at its version succeeds, if the next version fits. -/
theorem solo_updateOrder {id : Uuid} {version : Int} {next : OrderStatus} {row : Order}
    {Q : Except Exc Bool → Session → Sys → Prop} (h : Solitary t d ws res s)
    (hrow : (d.applyAll ws).orders.find? id = some row) (hversion : row.version = version)
    (hrange : Int32 (row.version + 1))
    (hQ : ∀ e s', Solitary t d (ws ++ [.order (row.moved next e)]) res s' → Q (.ok true) ss s') :
    Coro.Solo cfg t (await (.updateOrder id version next)) ss Q s := by
  refine solo_await h (.of_integers ?_ rfl rfl)
    fun x e r s' hx hlive hw hres hview hrun hlocks => ?_
  · simpa [Stmt.integers, hrow, hversion] using hversion ▸ hrange
  · simp only [Sys.run, Sys.updateOrder, hview, hrow, hversion, if_true] at hrun
    obtain ⟨s₁, hacq, heq⟩ := Option.map_eq_some_iff.mp hrun
    have hs' := solitary_wrote h hlive hw hres hacq heq hlocks
    obtain rfl := (Prod.mk.inj heq).1
    exact hQ e s' hs'

/-- A `SETEX` changes no table, failed or not. -/
theorem solo_redisSetex {id : Uuid} {q : Int} {Q : Except Exc Unit → Session → Sys → Prop}
    (h : Solitary t d ws res s) (hQ : ∀ s', Solitary t d ws res s' → Q (.ok ()) ss s') :
    Coro.Solo cfg t (await (.redisSetex id q)) ss Q s := by
  refine solo_await h (.of_nil rfl rfl rfl) fun x e r s' hx hlive hw hres hview hrun hlocks => ?_
  obtain ⟨rfl, rfl⟩ := Prod.mk.inj (Option.some.inj hrun)
  exact hQ _ ⟨hlocks, h.db, _, Sys.setTx_txs_self _, hlive, hw, hres⟩

/-- The response is recorded. -/
theorem solo_respond {r : Response} {Q : Except Exc Unit → Session → Sys → Prop}
    (h : Solitary t d ws res s) (hQ : ∀ s', Solitary t d ws (some r) s' → Q (.ok ()) ss s') :
    Coro.Solo cfg t (await (.respond r)) ss Q s := by
  refine solo_await h (.of_nil rfl rfl rfl) fun x e r s' hx hlive hw hres hview hrun hlocks => ?_
  obtain ⟨rfl, rfl⟩ := Prod.mk.inj (Option.some.inj hrun)
  exact hQ _ ⟨hlocks, h.db, _, Sys.setTx_txs_self _, hlive, hw, rfl⟩

/-- A `COMMIT` makes the row versions visible. -/
theorem solo_commit {Q : Except Exc Unit → Session → Sys → Prop} (h : Solitary t d ws res s)
    (hQ : ∀ s', s'.db = d.applyAll ws → (∃ x, s'.txs t = some x ∧ x.response = res) →
      Q (.ok ()) ss s') :
    Coro.Solo cfg t (await .commit) ss Q s := by
  refine solo_await h (.of_nil rfl rfl rfl) fun x e r s' hx hlive hw hres hview hrun hlocks => ?_
  obtain ⟨rfl, rfl⟩ := Prod.mk.inj (Option.some.inj hrun)
  exact hQ _ hview ⟨_, Sys.setTx_txs_self _, hres⟩

end

end Nova
