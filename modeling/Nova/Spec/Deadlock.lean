import Mathlib.Data.Fintype.EquivFin
import Mathlib.Order.WellFounded
import Nova.Spec.LockOrder

/-!
# Deadlock freedom

A request waits for the requests that hold a lock against its next statement. By the lock
order a request waits only for requests that are further in it (`waits_rank`), so no set
of requests can wait for one another, and a request that waits for nobody can take its
next step (`canStep`). Both hold in every reachable state (`deadlock_free`), whatever the
requests are and however often their statements fail.
-/

namespace Nova

open Machine

variable {cfg : Config}

/-! ## Waiting -/

/-- The locks that a statement takes on rows that others may know, and on names. -/
def Stmt.needs : Stmt → List (Row × LockMode)
  | .selectItemForUpdate id => [(.item id, .forUpdate)]
  | .insertItem n => [(.itemName n.name, .forUpdate)]
  | .updateItem id _ => [(.item id, .forNoKeyUpdate)]
  | .insertOrder n => [(.item n.itemId, .forKeyShare)]
  | .updateOrder id _ _ => [(.order id, .forNoKeyUpdate)]
  | .insertMovement n => Sys.movementLocks n
  | _ => []

/-- Request `t` has started and has statements left. -/
def Unfinished (c : (system cfg).Config) (t : TxId) : Prop :=
  ∃ o k, c.pool t = some (.call o k)

/-- What the next statement of `t` needs. -/
def nextNeeds (c : (system cfg).Config) (t : TxId) : List (Row × LockMode) :=
  match c.pool t with
  | some (.call o _) => o.needs
  | _ => []

/-- Request `t'` holds a lock that conflicts with one that the next statement of `t` needs. -/
def WaitsFor (c : (system cfg).Config) (t t' : TxId) : Prop :=
  t' ≠ t ∧ ∃ need ∈ nextNeeds c t, ∃ l ∈ c.st.locks,
    l.tx = t' ∧ l.row = need.1 ∧ l.mode.conflicts need.2 = true

instance (c : (system cfg).Config) (t t' : TxId) : Decidable (WaitsFor c t t') :=
  inferInstanceAs (Decidable (_ ∧ _))

/-- The next statement of `t` can run, without a failure from outside. -/
def CanStep (c : (system cfg).Config) (t : TxId) : Prop :=
  ∃ e : Env, e.fault = none ∧ (c.next (.step t e)).isSome = true

/-- No set of unfinished requests wait for one another; a request that cannot go on waits for
    an unfinished one; and if a request is unfinished then some request can go on. -/
structure DeadlockFree (c : (system cfg).Config) : Prop where
  acyclic : ∀ S : Set TxId, S.Nonempty → ¬∀ t ∈ S, Unfinished c t ∧ ∃ t' ∈ S, WaitsFor c t t'
  waiting : ∀ t, Unfinished c t → ¬CanStep c t → ∃ t', Unfinished c t' ∧ WaitsFor c t t'
  progress : (∃ t, Unfinished c t) → ∃ t, Unfinished c t ∧ CanStep c t

/-- What a thread needs next are the locks of its next statement. -/
theorem mem_nextNeeds {c : (system cfg).Config} {t : TxId} {need : Row × LockMode}
    (h : need ∈ nextNeeds c t) : ∃ o k, c.pool t = some (.call o k) ∧ need ∈ o.needs := by
  unfold nextNeeds at h
  split at h
  · rename_i o k hpool
    exact ⟨o, k, hpool, h⟩
  · cases h

/-! ## A statement that needs not wait -/

/-- The id of the row that a lock protects. -/
def Row.id? : Row → Option Uuid
  | .item id | .order id | .movement id => some id
  | .itemName _ => none

/-- There is an id that no row and no lock has. -/
theorem exists_fresh (s : Sys) (x : Tx) : ∃ id, ∀ t,
    s.freshItem t x id = true ∧ s.freshOrder t x id = true ∧ s.freshMovement t x id = true := by
  -- only finitely many identifiers are in use
  let used := (s.view x).items.rows.map (·.id) ++ (s.view x).orders.rows.map (·.id) ++
    (s.view x).movements.rows.map (·.id) ++ s.locks.filterMap (·.row.id?)
  obtain ⟨id, hid⟩ := Infinite.exists_notMem_finset used.toFinset
  simp only [used, List.mem_toFinset, List.mem_append, List.mem_map, List.mem_filterMap, not_or,
    not_exists, not_and] at hid
  obtain ⟨⟨⟨hitems, horders⟩, hmovements⟩, hlocks⟩ := hid
  have hfree : ∀ t row, row.id? = some id → s.blocked t row .forUpdate = false := by
    intro t row hrow
    simp only [Sys.blocked, List.any_eq_false, Bool.and_eq_true, decide_eq_true_eq, not_and]
    rintro l hl ⟨_, rfl⟩
    exact absurd hrow (hlocks l hl)
  refine ⟨id, fun t => ?_⟩
  have hitem : (s.view x).items.find? id = none := Table.find?_eq_none_iff.mpr hitems
  have horder : (s.view x).orders.find? id = none := Table.find?_eq_none_iff.mpr horders
  have hmovement : (s.view x).movements.find? id = none := Table.find?_eq_none_iff.mpr hmovements
  simp [Sys.freshItem, Sys.freshOrder, Sys.freshMovement, hitem, horder, hmovement,
    hfree t (.item id) rfl, hfree t (.order id) rfl, hfree t (.movement id) rfl]

/-- A statement none of whose locks is blocked takes them. -/
theorem Sys.acquire_isSome {s : Sys} {t : TxId} {ls : List (Row × LockMode)}
    (h : ∀ l ∈ ls, s.blocked t l.1 l.2 = false) : (s.acquire t ls).isSome = true := by
  have hfree : ¬(ls.any fun l => s.blocked t l.1 l.2) = true := by
    simpa using fun a b hab => h (a, b) hab
  simp [Sys.acquire, hfree]

/-- A statement that nobody blocks runs, given a fresh id. -/
theorem exec_isSome {s : Sys} {t : TxId} {x : Tx} {o : Stmt} (hx : s.txs t = some x)
    (hneeds : ∀ l ∈ o.needs, s.blocked t l.1 l.2 = false) :
    ∃ e : Env, e.fault = none ∧ (exec e t o s).isSome = true := by
  -- the new row of an `INSERT` gets an identifier that nobody has locked
  obtain ⟨id, hid⟩ := exists_fresh s x
  obtain ⟨hitem, horder, hmovement⟩ := hid t
  have hnew : ∀ row : Row, s.blocked t row .forUpdate = false →
      ∀ l ∈ (row, LockMode.forUpdate) :: o.needs, s.blocked t l.1 l.2 = false := by
    intro row hrow l hl
    rcases List.mem_cons.mp hl with rfl | hl
    · exact hrow
    · exact hneeds l hl
  refine ⟨{ uuid := id }, rfl, ?_⟩
  simp only [exec, hx]
  split
  · rfl
  cases o with
  | selectItem | selectOrder | redisGet | redisSetex | commit | rollback | respond => rfl
  | selectItemForUpdate id' =>
    simp only [Sys.run]
    split
    · rfl
    · simpa [Stmt.needs] using Sys.acquire_isSome hneeds
  | insertItem n =>
    simp only [Sys.run, Sys.insertItem, hitem, if_true]
    split
    · rfl
    · have hlocks := hnew (.item id) (by simp_all [Sys.freshItem])
      simpa [Stmt.needs] using Sys.acquire_isSome hlocks
  | updateItem id' c =>
    simp only [Sys.run, Sys.updateItem]
    split
    · rfl
    · split
      · rfl
      · simpa [Stmt.needs] using Sys.acquire_isSome hneeds
  | insertOrder n =>
    simp only [Sys.run, Sys.insertOrder, horder, if_true]
    split
    · have hlocks := hnew (.order id) (by simp_all [Sys.freshOrder])
      simpa [Stmt.needs] using Sys.acquire_isSome hlocks
    · rfl
  | updateOrder id' v st =>
    simp only [Sys.run, Sys.updateOrder]
    split
    · rfl
    · split
      · simpa [Stmt.needs] using Sys.acquire_isSome hneeds
      · rfl
  | insertMovement n =>
    simp only [Sys.run, Sys.insertMovement, hmovement, if_true]
    split
    · have hlocks := hnew (.movement id) (by simp_all [Sys.freshMovement])
      simpa [Stmt.needs] using Sys.acquire_isSome hlocks
    · rfl

/-! ## Locks in every run -/

section

variable {A : Allow} {d₀ : Db} {ok : (system cfg).Config → (system cfg).Label → Prop}
  {ls : List (system cfg).Label} {c : (system cfg).Config}

/-- The phases say what locks a request holds. -/
theorem lockOrder_describes (cfg : Config) :
    lockOrder.Describes (system cfg) fun φ t s => φ.Holds t s where
  code := code_follows cfg
  call := exec_phase
  others ht h hexec := h.of_locks fun _ hl => exec_locks_ne ht hexec hl
  start h := h.of_locks fun _ _ => Iff.rfl
  tick h := h.of_locks fun _ _ => Iff.rfl

/-- A request is in phase `φ` of the lock order. -/
abbrev InPhase (c : (system cfg).Config) (t : TxId) (φ : Phase) : Prop :=
  lockOrder.In (M := system cfg) (fun φ t s => φ.Holds t s) c t φ

/-- In every run every thread is in some phase of the lock order. -/
theorem inPhase_of_run (hrun : SysRun cfg ok d₀ ls c) : ∀ t, ∃ φ, InPhase c t φ :=
  (lockOrder_describes cfg).of_run (fun _ _ hl => absurd hl List.not_mem_nil) hrun

/-- Conflicting locks on one row belong to one request. -/
theorem compat_of_run (hrun : SysRun cfg ok d₀ ls c) : c.st.Compat := by
  induction hrun with
  | nil => exact fun _ hl => absurd hl List.not_mem_nil
  | @snoc ls c l c' _ _ hnext ih =>
    have hrelease : ∀ t, (c.st.release t).Compat := by
      intro t l hl l' hl' hrow hc
      exact ih l (Sys.mem_release.mp hl).1 l' (Sys.mem_release.mp hl').1 hrow hc
    cases l with
    | start t req =>
      obtain ⟨_, rfl⟩ := next_start hnext
      exact ih
    | step t e =>
      obtain ⟨_, _, _, s, _, hexec, rfl⟩ := next_step hnext
      obtain ⟨x, _, hmove | ⟨_, _, rfl⟩⟩ := exec_move hexec
      · cases hmove with
        | note | published => exact ih
        | locked ls hfree => exact ih.withLocks hfree
        | wrote ls w mode hfree => exact ih.withLocks hfree
        | ended => exact hrelease t
      · exact hrelease t
    | tick id =>
      obtain rfl := next_tick hnext
      exact ih

/-! ## The rank of a request -/

/-- How many locks a request may still wait for. -/
def Phase.rank : Phase → Nat
  | .free => 2
  | .item _ => 1
  | .closed => 0

/-- With an item locked, a request needs that item again, and orders. -/
theorem needs_item {id : Uuid} {o : Stmt} (hallow : (Phase.item id).allows o)
    {need : Row × LockMode} (hneed : need ∈ o.needs) :
    need.1 = .item id ∨ need.2 ≠ .forUpdate ∧ ∃ order, need.1 = .order order := by
  cases o with
  | selectItemForUpdate | insertItem | insertOrder => cases hallow
  | updateItem id' c =>
    obtain rfl := List.mem_singleton.mp hneed
    rcases hallow with h | h
    · cases h
    · exact Or.inl (congrArg Row.item (Phase.item.inj h).symm)
  | updateOrder order v st =>
    obtain rfl := List.mem_singleton.mp hneed
    exact Or.inr ⟨by simp, order, rfl⟩
  | insertMovement n =>
    -- a movement refers to its item and, if it has one, to its order
    simp only [Stmt.needs, Sys.movementLocks, List.mem_cons, Option.mem_toList,
      Option.map_eq_some_iff] at hneed
    rcases hneed with rfl | ⟨order, _, rfl⟩
    · exact Or.inl (congrArg Row.item (Phase.item.inj hallow).symm)
    · exact Or.inr ⟨by simp, order, rfl⟩
  | selectItem | selectOrder | redisGet | redisSetex | commit | rollback | respond => cases hneed

/-- After an order is locked, nothing more is needed. -/
theorem needs_closed {o : Stmt} (hallow : Phase.closed.allows o) : o.needs = [] := by
  cases o with
  | selectItemForUpdate | insertItem | insertOrder | insertMovement => cases hallow
  | updateItem => rcases hallow with h | h <;> cases h
  | updateOrder => exact absurd rfl hallow
  | selectItem | selectOrder | redisGet | redisSetex | commit | rollback | respond => rfl

/-- A request waits only for requests that are further in the lock order. -/
theorem waits_rank {t t' : TxId} {φ φ' : Phase} (hcompat : c.st.Compat) (h : InPhase c t φ)
    (h' : InPhase c t' φ') (hwaits : WaitsFor c t t') : φ'.rank < φ.rank := by
  obtain ⟨hne, need, hneed, l, hl, htx, hrow, hconflict⟩ := hwaits
  obtain ⟨o, k, hpool, hneed⟩ := mem_nextNeeds hneed
  have hallow : φ.allows o := h.allowed hpool
  have hlocked : φ' ≠ .free := by
    rintro rfl
    exact h'.holds l hl htx
  cases φ with
  | free =>
    -- whoever waits without locks waits for a process that has some
    cases φ' with
    | free => exact absurd rfl hlocked
    | item | closed => simp [Phase.rank]
  | item id =>
    rcases needs_item hallow hneed with hitem | ⟨hmode, order, horder⟩
    · -- the item is locked by `t` itself, and against every other lock
      have hown : l.tx = t :=
        hcompat l hl _ h.holds.1 (hrow.trans hitem) (by cases l.mode <;> rfl)
      exact absurd (htx.symm.trans hown) hne
    · -- an order is waited for
      cases φ' with
      | free => exact absurd rfl hlocked
      | item id' =>
        -- the other has an item as well, and on the order no more than a foreign key's lock
        have hshare := h'.holds.2 l hl htx order (hrow.trans horder)
        rw [hshare] at hconflict
        cases hm : need.2 with
        | forUpdate => exact absurd hm hmode
        | forKeyShare | forShare | forNoKeyUpdate => rw [hm] at hconflict; cases hconflict
      | closed => simp [Phase.rank]
  | closed =>
    -- a process in the last phase needs no lock
    rw [needs_closed hallow] at hneed
    cases hneed

/-- The state knows the transaction of every request that has started. -/
theorem known_of_run (hrun : SysRun cfg ok d₀ ls c) :
    ∀ t, (c.pool t).isSome = true → (c.st.txs t).isSome = true := by
  induction hrun with
  | nil => exact fun _ h => by cases h
  | @snoc ls c l c' _ _ hnext ih =>
    intro t hpool
    cases l with
    | start t' req =>
      obtain ⟨_, rfl⟩ := next_start hnext
      by_cases ht : t = t'
      · subst ht
        exact Option.isSome_iff_exists.mpr ⟨_, Sys.setTx_txs_self _⟩
      · -- the other transactions are not touched
        simp only [Function.update_of_ne ht] at hpool
        exact (Sys.setTx_txs_ne ht _).symm ▸ ih t hpool
    | step t' e =>
      obtain ⟨_, _, _, s, hcall, hexec, rfl⟩ := next_step hnext
      by_cases ht : t = t'
      · subst ht
        obtain ⟨x, hx⟩ := Option.isSome_iff_exists.mp (ih t (by rw [hcall]; rfl))
        -- an await keeps the record of its transaction
        obtain ⟨x', hx', _⟩ := exec_notes hx hexec
        exact Option.isSome_iff_exists.mpr ⟨x', hx'⟩
      · simp only [Function.update_of_ne ht] at hpool
        exact (exec_txs_ne hexec ht).symm ▸ ih t hpool
    | tick id =>
      obtain rfl := next_tick hnext
      exact ih t hpool

/-- A request that waits for nobody can take its next step. -/
theorem canStep (hrun : SysRun cfg ok d₀ ls c) {t : TxId} (h : Unfinished c t)
    (hnobody : ∀ t', ¬WaitsFor c t t') : CanStep c t := by
  obtain ⟨o, k, hpool⟩ := h
  obtain ⟨x, hx⟩ := Option.isSome_iff_exists.mp (known_of_run hrun t (by rw [hpool]; rfl))
  have hneeds : ∀ need ∈ o.needs, c.st.blocked t need.1 need.2 = false := by
    intro need hneed
    rw [Bool.eq_false_iff]
    intro hblocked
    simp only [Sys.blocked, List.any_eq_true, Bool.and_eq_true, decide_eq_true_eq] at hblocked
    obtain ⟨l, hl, ⟨hne, hrow⟩, hconflict⟩ := hblocked
    have hneed' : need ∈ nextNeeds c t := by simpa only [nextNeeds, hpool] using hneed
    exact hnobody l.tx ⟨hne, need, hneed', l, hl, rfl, hrow, hconflict⟩
  obtain ⟨e, hfault, hsome⟩ := exec_isSome hx hneeds
  refine ⟨e, hfault, ?_⟩
  simp only [Config.next, hpool, Option.isSome_map]
  exact hsome

/-- The request that a request waits for is unfinished. -/
theorem unfinished_of_waits (hrun : SysRun cfg ok d₀ ls c) {t t' : TxId}
    (hwaits : WaitsFor c t t') : Unfinished c t' := by
  obtain ⟨_, _, _, l, hl, htx, _⟩ := hwaits
  obtain ⟨φ, hφ⟩ := inPhase_of_run hrun t'
  have hlocked : φ ≠ .free := by
    rintro rfl
    exact hφ.holds l hl htx
  cases hpool : c.pool t' with
  | none => exact absurd (hφ.unstarted hpool) hlocked
  | some p =>
    cases p with
    | ret a => exact absurd (hφ.ended hpool) hlocked
    | call o k => exact ⟨o, k, hpool⟩

/-- No reachable state is a deadlock. -/
theorem deadlock_free (hrun : SysRun cfg ok d₀ ls c) : DeadlockFree c := by
  choose φ hφ using inPhase_of_run hrun
  have hrank : ∀ {t t'}, WaitsFor c t t' → (φ t').rank < (φ t).rank :=
    fun hwaits => waits_rank (compat_of_run hrun) (hφ _) (hφ _) hwaits
  -- in any set, a request of least rank waits for no request of the set
  have hleast : ∀ S : Set TxId, S.Nonempty → ∃ t ∈ S, ∀ t' ∈ S, ¬WaitsFor c t t' := by
    intro S hS
    obtain ⟨t, ht, hmin⟩ := (measure fun t => (φ t).rank).wf.has_min S hS
    exact ⟨t, ht, fun t' ht' hwaits => hmin t' ht' (hrank hwaits)⟩
  constructor
  · intro S hS hall
    obtain ⟨t, ht, hmin⟩ := hleast S hS
    obtain ⟨_, t', ht', hwaits⟩ := hall t ht
    exact hmin t' ht' hwaits
  · intro t ht hstuck
    by_contra hnobody
    refine hstuck (canStep hrun ht fun t' hwaits => hnobody ?_)
    exact ⟨t', unfinished_of_waits hrun hwaits, hwaits⟩
  · intro hsome
    obtain ⟨t, ht, hmin⟩ := hleast {t | Unfinished c t} hsome
    exact ⟨t, ht, canStep hrun ht fun t' hwaits => hmin t' (unfinished_of_waits hrun hwaits) hwaits⟩

end

/-- An item and an order for it, which two requests confirm. The first has the item. -/
def confirmTwice : List (system ⟨.http, ⟨true⟩⟩).Label :=
  [.start 0 (.createItem { name := "Tea", price := 350, stockQuantity := 5 })] ++
  turns 0 [0, 0, 1, 0, 0, 0] ++
  [.start 1 (.placeOrder { itemId := 0, quantity := 3 })] ++ turns 1 [0, 2, 0, 0, 0] ++
  [.start 2 (.transition .confirm 2), .start 3 (.transition .confirm 2)] ++
  turns 2 [0] ++ turns 3 [0] ++ turns 2 [0, 0, 3]

/-- One of two confirmations waits for the other. -/
theorem deadlock_free_waiting : ∃ c, SysRun ⟨.http, ⟨true⟩⟩ (fun _ _ => True) Db.empty
    confirmTwice c ∧ WaitsFor c 3 2 ∧ DeadlockFree c := by
  obtain ⟨c, hrun, hwaits⟩ : ∃ c, SysRun ⟨.http, ⟨true⟩⟩ (fun _ _ => True) Db.empty
      confirmTwice c ∧ decide (WaitsFor c 3 2) = true :=
    Run.of_eval (fun c => decide (WaitsFor c 3 2)) (by decide +kernel)
      (Config.allows_of_forall fun _ _ => trivial)
  exact ⟨c, hrun, of_decide_eq_true hwaits, deadlock_free hrun⟩

end Nova
