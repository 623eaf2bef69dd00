import Nova.Spec.Interruption

/-!
# Stock reads leave no trace

`GET /stock/{item_id}` assigns the cached quantity to the row it has loaded, and the
commit of `get_db` would flush a difference. Where the two agree when a read loads its
row, the moves of this read can be taken out of a schedule and nothing else in the run
changes (`read_effectless`): an await looks at no transaction but its own (`exec_txs`),
and such a read neither locks nor writes (`lookups`), whatever other reads do.
`read_overwrites` is a run in which a quantity that a failed Redis write has left behind
overwrites a committed adjustment.
-/

namespace Nova

open Machine
open Coro (raise attempt await)

/-! ## An await looks at no other transaction -/

/-- The state `s` with the transactions `txs`. -/
def Sys.withTxs (s : Sys) (txs : TxId → Option Tx) : Sys := { s with txs }

/-- An outcome for `t`, with all other transactions as in `txs`. -/
def outcomeIn {α : Type} (t : TxId) (txs : TxId → Option Tx) (p : α × Sys) : α × Sys :=
  (p.1, p.2.withTxs (Function.update txs t (p.2.txs t)))

section

variable {α : Type} {s : Sys} {t : TxId} {x : Tx} {e : Env} {txs : TxId → Option Tx}

/-- A view looks at no other transaction. -/
private theorem view_txs : (s.withTxs txs).view x = s.view x := rfl

/-- A fresh item id looks at no other transaction's record. -/
private theorem freshItem_txs {id : Uuid} :
    (s.withTxs txs).freshItem t x id = s.freshItem t x id := rfl

/-- A fresh order id looks at no other transaction's record. -/
private theorem freshOrder_txs {id : Uuid} :
    (s.withTxs txs).freshOrder t x id = s.freshOrder t x id := rfl

/-- A fresh movement id looks at no other transaction's record. -/
private theorem freshMovement_txs {id : Uuid} :
    (s.withTxs txs).freshMovement t x id = s.freshMovement t x id := rfl

/-- Locks are taken without a look at the records. -/
private theorem acquire_txs (ls : List (Row × LockMode)) :
    (s.withTxs txs).acquire t ls = (s.acquire t ls).map (·.withTxs txs) := by
  have hblocked : (s.withTxs txs).blocked = s.blocked := rfl
  simp only [Sys.acquire, hblocked]
  split <;> rfl

/-- A new record of `t` is the only one that changes. -/
private theorem outcome_setTx (s : Sys) (r : α) (x' : Tx) :
    outcomeIn t txs (r, s.setTx t x') = (r, (s.withTxs txs).setTx t x') := by
  simp [outcomeIn, Sys.withTxs, Sys.setTx]

/-- An abort changes no other record. -/
private theorem outcome_abort (s : Sys) (r : α) (x' : Tx) :
    outcomeIn t txs (r, s.abort t x') = (r, (s.withTxs txs).abort t x') :=
  outcome_setTx (s.release t) r _

/-- What changes nothing changes no record. -/
private theorem outcome_self (h : txs t = s.txs t) (r : α) :
    outcomeIn t txs (r, s) = (r, s.withTxs txs) := by
  simp [outcomeIn, Sys.withTxs, ← h]

/-- A statement that takes locks first. -/
private theorem outcome_acquire {ls : List (Row × LockMode)} {f f' : Sys → α × Sys}
    (hf : ∀ s₁, s₁.txs = s.txs → outcomeIn t txs (f s₁) = f' (s₁.withTxs txs)) :
    ((s.withTxs txs).acquire t ls).map f' = ((s.acquire t ls).map f).map (outcomeIn t txs) := by
  rw [acquire_txs, Option.map_map, Option.map_map]
  cases hacq : s.acquire t ls with
  | none => rfl
  | some s₁ =>
    obtain ⟨rfl, _⟩ := Sys.acquire_some hacq
    exact congrArg some (hf (s.withLocks t ls) rfl).symm

/-- `INSERT INTO menu_items` looks at no other transaction's record. -/
private theorem insertItem_txs (n : NewItem) :
    (s.withTxs txs).insertItem t x e n = (s.insertItem t x e n).map (outcomeIn t txs) := by
  simp only [Sys.insertItem, freshItem_txs, view_txs]
  by_cases hfresh : s.freshItem t x e.uuid = true
  · simp only [hfresh, if_true]
    cases n.row? e with
    | none =>
      -- a CHECK constraint fails
      exact congrArg some (outcome_abort s _ x).symm
    | some row =>
      refine outcome_acquire fun s₁ _ => ?_
      by_cases hname : ((s.view x).items.rows.any fun r => r.name = n.name) = true
      · simp only [hname, if_true]
        -- the name is taken
        exact outcome_abort s _ x
      · simp only [hname]
        -- the row is written under its locks
        exact outcome_setTx s₁ _ _
  · simp only [hfresh]
    rfl

/-- `UPDATE menu_items` looks at no other transaction's record. -/
private theorem updateItem_txs (id : Uuid) (c : ItemChange) :
    (s.withTxs txs).updateItem t x e id c = (s.updateItem t x e id c).map (outcomeIn t txs) := by
  simp only [Sys.updateItem, view_txs]
  cases (s.view x).items.find? id with
  | none =>
    -- no row to update
    exact congrArg some (outcome_abort s _ x).symm
  | some row =>
    cases hrow : c.updated? row e with
    | none =>
      simp only [hrow]
      -- a CHECK constraint fails
      exact congrArg some (outcome_abort s _ x).symm
    | some row' =>
      simp only [hrow]
      exact outcome_acquire fun s₁ _ => outcome_setTx s₁ _ _

/-- `INSERT INTO orders` looks at no other transaction's record. -/
private theorem insertOrder_txs (n : NewOrder) :
    (s.withTxs txs).insertOrder t x e n = (s.insertOrder t x e n).map (outcomeIn t txs) := by
  simp only [Sys.insertOrder, freshOrder_txs, view_txs]
  by_cases hfresh : s.freshOrder t x e.uuid = true
  · simp only [hfresh, if_true]
    -- a CHECK constraint fails
    cases n.row? e with
    | none => exact congrArg some (outcome_abort s _ x).symm
    | some row =>
      cases (s.view x).items.find? n.itemId with
      | none =>
        -- the foreign key names no item
        exact congrArg some (outcome_abort s _ x).symm
      | some item => exact outcome_acquire fun s₁ _ => outcome_setTx s₁ _ _
  · simp only [hfresh]
    rfl

/-- `UPDATE orders` looks at no other transaction's record. -/
private theorem updateOrder_txs (h : txs t = s.txs t) (id : Uuid) (v : Int) (st : OrderStatus) :
    (s.withTxs txs).updateOrder t x e id v st =
      (s.updateOrder t x e id v st).map (outcomeIn t txs) := by
  simp only [Sys.updateOrder, view_txs]
  cases (s.view x).orders.find? id with
  | none => exact congrArg some (outcome_self h _).symm
  | some row =>
    by_cases hv : row.version = v
    · simp only [hv, if_true]
      -- the version is the expected one
      exact outcome_acquire fun s₁ _ => outcome_setTx s₁ _ _
    · simp only [hv, if_false]
      -- the order has moved on
      exact congrArg some (outcome_self h _).symm

/-- `INSERT INTO stock_movements` looks at no other transaction's record. -/
private theorem insertMovement_txs (n : NewMovement) :
    (s.withTxs txs).insertMovement t x e n =
      (s.insertMovement t x e n).map (outcomeIn t txs) := by
  simp only [Sys.insertMovement, freshMovement_txs, view_txs]
  by_cases hfresh : s.freshMovement t x e.uuid = true
  · simp only [hfresh, if_true]
    by_cases hkeys : Sys.movementKeys (s.view x) n = true
    · simp only [hkeys, if_true]
      exact outcome_acquire fun s₁ _ => outcome_setTx s₁ _ _
    · simp only [hkeys]
      -- a foreign key names no row
      exact congrArg some (outcome_abort s _ x).symm
  · simp only [hfresh]
    rfl

/-- No statement looks at another transaction's record. -/
private theorem run_txs (h : txs t = s.txs t) (o : Stmt) :
    (s.withTxs txs).run t x e o = (s.run t x e o).map (outcomeIn t txs) := by
  cases o with
  | selectItem id | selectOrder id | redisGet id | respond r =>
    exact congrArg some (outcome_setTx s _ _).symm
  | redisSetex id q =>
    exact congrArg some
      (outcome_setTx { s with cache := Function.update s.cache id (some q) } _ _).symm
  | commit =>
    exact congrArg some (outcome_setTx (Sys.release { s with
      db := s.view x
      wal := if x.writes = [] then s.wal else s.wal ++ [⟨t, x.req, x.read, x.writes⟩] } t) _ _).symm
  | rollback => exact congrArg some (outcome_setTx (s.release t) _ _).symm
  | selectItemForUpdate id =>
    simp only [Sys.run, view_txs]
    cases (s.view x).items.find? id with
    | none => exact congrArg some (outcome_self h _).symm
    | some row =>
      -- the row is locked
      exact outcome_acquire fun s₁ h₁ => outcome_self (h.trans (congrFun h₁.symm t)) _
  | insertItem n => exact insertItem_txs n
  | updateItem id c => exact updateItem_txs id c
  | insertOrder n => exact insertOrder_txs n
  | updateOrder id v st => exact updateOrder_txs h id v st
  | insertMovement n => exact insertMovement_txs n

/-- Replacing other transactions changes nothing for `t`. -/
theorem exec_txs (h : txs t = s.txs t) (o : Stmt) :
    exec e t o (s.withTxs txs) = (exec e t o s).map (outcomeIn t txs) := by
  have htxs : (s.withTxs txs).txs t = s.txs t := h
  simp only [exec, htxs]
  cases s.txs t with
  | none => rfl
  | some x =>
    by_cases hdead : (x.aborted && o.isSql) = true
    · simp only [hdead, if_true]
      -- PostgreSQL has aborted the transaction
      exact congrArg some (outcome_self h _).symm
    · simp only [hdead]
      cases e.fault with
      | none =>
        -- nothing fails the statement
        exact run_txs h o
      | some f =>
        by_cases hsql : o.isSql = true
        · simp only [hsql, if_true]
          -- an SQL statement is failed, and its transaction with it
          exact congrArg some (outcome_abort s _ _).symm
        · by_cases hredis : o.isRedis = true
          · simp only [hsql, hredis, if_true]
            -- a Redis command is failed
            exact congrArg some (outcome_setTx s _ _).symm
          · simp only [hsql, hredis]
            -- a rollback and a response do not fail
            exact run_txs h o

end

/-! ## A read changes only its own record -/

/-- `t` has not started or is a stock read, and it has left no trace. -/
structure Passive (t : TxId) (s : Sys) : Prop where
  read : ∀ x, s.txs t = some x → x.req.isRead = true ∧ x.writes = []
  locks : ∀ l ∈ s.locks, l.tx ≠ t
  wal : ∀ r ∈ s.wal, r.tx ≠ t

section

variable {s s' : Sys} {t t' : TxId} {x : Tx} {e : Env} {o : Stmt} {r : o.Res}

/-- A passive transaction has nothing to release. -/
theorem Passive.release (h : Passive t s) : s.release t = s := by
  have hlocks : (s.locks.filter fun l => l.tx ≠ t) = s.locks := by
    simpa [List.filter_eq_self] using h.locks
  simp only [Sys.release, hlocks]

/-- Noting something about a read. -/
theorem Passive.setTx (h : Passive t s) (hx : x.req.isRead = true ∧ x.writes = []) :
    Passive t (s.setTx t x) where
  read x' hx' := by
    obtain rfl : x = x' := Option.some.inj ((Sys.setTx_txs_self x).symm.trans hx')
    exact hx
  locks := h.locks
  wal := h.wal

/-- The ways an await of `x` can end: PostgreSQL has aborted the transaction already,
    something outside fails the await, or it runs. -/
theorem exec_ends (hx : s.txs t = some x) (hexec : exec e t o s = some (r, s')) :
    (∃ f, r = .error f ∧ s' = s) ∨
    (∃ f : Fault, r = .error (f.failure o) ∧
      (s' = s.abort t { x with faulted := true } ∨ s' = s.setTx t (x.redisFault f))) ∨
    (o.isSql = true → e.fault = none) ∧ s.run t x e o = some (r, s') := by
  by_cases hdead : x.aborted = true ∧ o.isSql = true
  · -- it fails again, and changes nothing
    exact Or.inl ⟨_, exec_aborted hx hdead.1 hdead.2 hexec⟩
  · have hlive : x.aborted = false ∨ o.isSql = false := by
      simpa only [not_and_or, Bool.not_eq_true] using hdead
    rcases exec_cases hx hlive hexec with ⟨f, _, hr, ⟨_, hs⟩ | ⟨_, hs⟩⟩ | hrun
    · exact Or.inr (Or.inl ⟨f, hr, Or.inl hs⟩)
    · exact Or.inr (Or.inl ⟨f, hr, Or.inr hs⟩)
    · exact Or.inr (Or.inr hrun)

/-- A read-only statement of a read that nothing outside fails. -/
private theorem run_readOnly (h : Passive t s) (hread : x.req.isRead = true)
    (hwrites : x.writes = []) (ho : o.readOnly = true) (hrun : s.run t x e o = some (r, s')) :
    ∃ x', x'.req.isRead = true ∧ x'.writes = [] ∧ s' = s.setTx t x' := by
  cases o with
  | selectItem id | selectOrder id | redisGet id | respond res =>
    obtain ⟨_, rfl⟩ := Prod.mk.inj (Option.some.inj hrun)
    exact ⟨_, by exact hread, by exact hwrites, rfl⟩
  | commit =>
    obtain ⟨_, rfl⟩ := Prod.mk.inj (Option.some.inj hrun)
    refine ⟨{ x with writes := [], commit := some (s.db, x.writes) }, hread, rfl, ?_⟩
    simp only [Sys.commit, Sys.view, hwrites, Db.applyAll_nil, if_true]
    -- nothing is written, and nothing is locked
    exact congrArg (Sys.setTx · t _) h.release
  | rollback =>
    obtain ⟨_, rfl⟩ := Prod.mk.inj (Option.some.inj hrun)
    refine ⟨{ x with writes := [], aborted := false }, hread, rfl, ?_⟩
    simp only [Sys.rollback, h.release]
  | selectItemForUpdate | insertItem | updateItem | insertOrder | updateOrder | insertMovement
  | redisSetex => cases ho

/-- A read-only await of a read only notes something. -/
theorem exec_readOnly (h : Passive t s) (ho : o.readOnly = true)
    (hexec : exec e t o s = some (r, s')) :
    ∃ x', x'.req.isRead = true ∧ x'.writes = [] ∧ s' = s.setTx t x' := by
  obtain ⟨x, hx, _⟩ := exec_move hexec
  obtain ⟨hread, hwrites⟩ := h.read x hx
  rcases exec_ends hx hexec with ⟨f, _, rfl⟩ | ⟨f, _, rfl | rfl⟩ | ⟨_, hrun⟩
  · refine ⟨x, hread, hwrites, ?_⟩
    simp [Sys.setTx, ← hx]
  · -- the fault aborts a transaction without locks
    refine ⟨{ x with faulted := true, writes := [], aborted := true }, hread, rfl, ?_⟩
    simp only [Sys.abort, h.release]
  · -- the fault of a Redis command leaves its mark on the record
    refine ⟨x.redisFault f, ?_, ?_, rfl⟩
    · cases f <;> exact hread
    · cases f <;> exact hwrites
  · exact run_readOnly h hread hwrites ho hrun

/-- Other transactions leave a passive one passive. -/
theorem Passive.exec (h : Passive t s) (ht : t ≠ t') (hexec : exec e t' o s = some (r, s')) :
    Passive t s' := by
  have htxs := exec_txs_ne hexec ht
  have hread : ∀ x, s'.txs t = some x → x.req.isRead = true ∧ x.writes = [] :=
    fun x hx => h.read x (htxs ▸ hx)
  obtain ⟨x, hx, hmove | ⟨_, _, rfl⟩⟩ := exec_move hexec
  · have hwal := (hmove.frame hx).1
    refine ⟨hread, fun l hl => ?_, fun r hr => h.wal r (hwal ▸ hr)⟩
    cases hmove with
    | note | published => exact h.locks l hl
    | locked | wrote =>
      rcases Sys.mem_withLocks.mp hl with ⟨rfl, _⟩ | hl
      · -- the new locks are not `t`'s
        exact ht.symm
      · exact h.locks l hl
    | ended => exact h.locks l (Sys.mem_release.mp hl).1
  · refine ⟨hread, fun l hl => h.locks l (Sys.mem_release.mp hl).1, fun r hr => ?_⟩
    have hr' : r ∈ if x.writes = [] then s.wal else s.wal ++ [⟨t', x.req, x.read, x.writes⟩] := hr
    split at hr'
    · exact h.wal r hr'
    · rcases List.mem_append.mp hr' with hr' | hr'
      · exact h.wal r hr'
      · obtain rfl := List.mem_singleton.mp hr'
        -- the commit just logged is not `t`'s
        exact ht.symm

end

/-! ## What a stock read awaits -/

/-- What a stock read has found: the quantity in the cache, if any, and no row that differs
    from it, or a row that does. -/
inductive Lookup where
  | agrees (cached : Option Int)
  | differs

/-- What the answer of a statement adds. -/
def Lookup.after : Lookup → (o : Stmt) → o.Res → Lookup
  | .agrees _, .redisGet _, .ok q => .agrees q
  | .agrees (some q), .selectItem _, .ok (some row) =>
    if row.stockQuantity = q then .agrees (some q) else .differs
  | φ, _, _ => φ

/-- A stock read writes only if its row differs from its cache entry. -/
def lookups : Protocol Lookup Stmt Stmt.Res where
  rest := .agrees none
  allows φ o := φ = .differs ∨ o.readOnly = true
  answers _ _ := True
  after := Lookup.after

/-- What the state knows of a stock read: the quantity that it has found in the cache. -/
def Lookup.Holds (t : TxId) (s : Sys) : Lookup → Prop
  | .agrees q => ∀ x, s.txs t = some x → x.cached = q
  | .differs => False

/-- From phase `φ` on, `x` writes only if its row differs, and otherwise ends with a clean
    session, as `Q` says. -/
def Coro.Looks {α : Type} (φ : Lookup) (x : Coro α) (Q : Except Exc α → Lookup → Prop) : Prop :=
  lookups.Follows φ (x {}) fun p φ' => φ' = .differs ∨ p.2 = {} ∧ Q p.1 φ'

section

variable {α β : Type} {φ : Lookup} {cache : CacheService} {id : Uuid}

/-- A failed statement finds nothing. -/
theorem Lookup.after_error {o : Stmt} (f : Failure) : φ.after o (.error f) = φ := by
  cases φ with
  | agrees q => cases q <;> cases o <;> rfl
  | differs => cases o <;> rfl

/-- The end of a transaction and a response find nothing. -/
theorem Lookup.after_end {o : Stmt} (ho : ¬o.InRoute) (r : o.Res) : φ.after o r = φ := by
  cases φ with
  | agrees q =>
    cases o with
    | commit | rollback | respond => cases q <;> rfl
    | _ => exact absurd trivial ho
  | differs => cases o <;> rfl

/-- Once the row differs, nothing is forbidden. -/
theorem follows_differs (p : Code α) : lookups.Follows .differs p fun _ φ => φ = .differs := by
  induction p with
  | ret a => rfl
  | call o k ih =>
    refine ⟨Or.inl rfl, fun r _ => ?_⟩
    have hafter : lookups.after .differs o r = .differs := by cases o <;> rfl
    rw [hafter]
    exact ih r

/-- The sequencing rule. -/
theorem looks_bind {x : Coro α} {f : α → Coro β} {Q : Except Exc α → Lookup → Prop}
    {Q' : Except Exc β → Lookup → Prop} (h : Coro.Looks φ x Q)
    (hok : ∀ a φ', Q (.ok a) φ' → Coro.Looks φ' (f a) Q')
    (herr : ∀ e φ', Q (.error e) φ' → Q' (.error e) φ') : Coro.Looks φ (x >>= f) Q' := by
  refine Protocol.follows_bind.mpr (h.mono ?_)
  rintro ⟨r, ss⟩ φ' (rfl | ⟨rfl, hr⟩)
  · exact (follows_differs _).mono fun _ _ hdiffers => Or.inl hdiffers
  · cases r with
    | ok a => exact hok a φ' hr
    | error e => exact Or.inr ⟨rfl, herr e φ' hr⟩

/-- The rule for `try`: what is raised is returned. -/
theorem looks_attempt {x : Coro α} {Q : Except Exc (Except Exc α) → Lookup → Prop}
    (h : Coro.Looks φ x fun r => Q (.ok r)) : Coro.Looks φ (attempt x) Q :=
  Protocol.follows_bind.mpr h

/-- The cache lookup of a stock read. -/
theorem cacheGetStock_looks : Coro.Looks (.agrees none) (cache.getStock id) fun r φ =>
    ∀ q, r = .ok q → φ = .agrees q := by
  unfold CacheService.getStock
  split
  · refine ⟨Or.inr rfl, fun r _ => ?_⟩
    cases r with
    | ok value => exact Or.inr ⟨rfl, fun q hq => by cases hq; rfl⟩
    | error f =>
      -- a cancellation is raised, and any other failure is a miss
      cases f <;> exact Or.inr ⟨rfl, fun q hq => by cases hq <;> rfl⟩
  · exact Or.inr ⟨rfl, fun q hq => by cases hq; rfl⟩

/-- The quantity is assigned to a row that has it already, or to one that differs. -/
theorem getStock_looks :
    Coro.Looks (.agrees none) (StockService.getStock cache id) fun _ _ => True := by
  refine looks_bind cacheGetStock_looks (fun q φ hφ => ?_) fun _ _ _ => trivial
  obtain rfl := hφ q rfl
  refine ⟨Or.inr rfl, fun r _ => ?_⟩
  cases r with
  | error f => exact Or.inr ⟨rfl, trivial⟩
  | ok found =>
    cases found with
    | none => exact Or.inr ⟨rfl, trivial⟩
    | some row =>
      cases q with
      | none => exact Or.inr ⟨rfl, trivial⟩
      | some quantity =>
        by_cases hsame : row.stockQuantity = quantity
        · subst hsame
          -- the object is as it was loaded
          have hclean : ItemObj.change ⟨row, row.stockQuantity, row.version⟩ = {} := by
            simp [ItemObj.change]
          exact Or.inr ⟨congrArg Session.mk (if_pos hclean), trivial⟩
        · exact Or.inl (if_neg hsame)

/-- The route of a stock read translates what the service raises. -/
theorem route_looks :
    Coro.Looks (.agrees none) (Api.route cache (.getStock id)) fun _ _ => True := by
  refine looks_bind (Q := fun _ _ => True) ?_ (fun _ _ _ => Or.inr ⟨rfl, trivial⟩)
    fun _ _ _ => trivial
  refine looks_bind (looks_attempt (Q := fun _ _ => True) getStock_looks) (fun r φ _ => ?_)
    fun _ _ _ => trivial
  cases r with
  | ok item => exact Or.inr ⟨rfl, trivial⟩
  | error e => cases e <;> exact Or.inr ⟨rfl, trivial⟩

/-- What follows a route with a clean session only ends its transaction and answers. -/
theorem ends_looks {x : Coro Unit} {n : Nat} (h : Coro.Takes (fun o => ¬o.InRoute) n 0 x) :
    lookups.Follows φ (x {}) fun _ _ => True := by
  refine (Protocol.follows_of_costs (h {} le_rfl) fun o ho => ⟨Or.inr ?_, fun r => ?_⟩).mono
    fun _ _ _ => trivial
  · cases o with
    | commit | rollback | respond => rfl
    | _ => exact absurd trivial ho
  · exact Lookup.after_end ho r

/-- `get_db` goes on after a stock read as after a route without an await. -/
theorem getDb_looks : lookups.Follows (.agrees none) (getDb (Api.route cache (.getStock id)) {})
    fun _ _ => True := by
  have hends : Closes (fun o => ¬o.InRoute) 0 := ⟨Or.inl rfl, fun h => h, fun h => h⟩
  refine Protocol.follows_bind.mpr
    ((looks_attempt (Q := fun r _ => ∃ a, r = .ok a) ?_).mono ?_)
  · exact route_looks.mono fun p φ h => h.imp_right fun h => ⟨h.1, p.1, rfl⟩
  rintro ⟨r, ss⟩ φ (rfl | ⟨rfl, r, rfl⟩)
  · -- after a row that differs nothing is asked
    exact (follows_differs _).mono fun _ _ _ => trivial
  · cases r with
    | ok response =>
      -- the response, and the `COMMIT` of a clean session
      exact ends_looks (x := getDb (pure response))
        (getDb_costs hends (fun _ h => h) (costs_pure response))
    | error e =>
      -- the session is clean where the route raises too
      exact ends_looks (x := getDb (raise e))
        (getDb_costs hends (fun _ h => h) (costs_raise e))

/-- The whole program of a stock read. -/
theorem code_looks :
    lookups.Follows (.agrees none) (Config.code ⟨.http, cache⟩ (.getStock id)) fun _ _ => True :=
  Protocol.follows_bind.mpr (getDb_looks.mono fun _ _ _ => trivial)

end

section

variable {s s' : Sys} {t : TxId} {x x' : Tx} {e : Env} {o : Stmt} {r : o.Res} {φ : Lookup}

/-- A row that is current agrees with what was found in the cache. -/
private theorem agrees_of_current {id : Uuid} (hx : s.txs t = some x)
    (hread : x.req.isRead = true) (hlucky : e.fault = none)
    (hcur : CurrentRead e t (.selectItem id) s = true) :
    (Lookup.agrees x.cached).after (.selectItem id) (.ok (s.db.items.find? id)) =
      .agrees x.cached := by
  simp only [CurrentRead, hx, hlucky, hread, Option.isSome_none, Bool.not_true, Bool.false_or]
    at hcur
  cases hq : x.cached with
  | none =>
    -- a miss agrees with any row
    rfl
  | some q =>
    cases hi : s.db.items.find? id with
    | none => rfl
    | some i =>
      rw [hi, hq] at hcur
      have hsame : q = i.stockQuantity := by simpa using hcur
      -- a hit was compared with the row
      exact if_pos hsame.symm

/-- A statement of a stock read that nothing outside fails. -/
private theorem run_lookup (hx : s.txs t = some x) (hread : x.req.isRead = true ∧ x.writes = [])
    (ho : o.readOnly = true) (hcur : CurrentRead e t o s = true)
    (hlucky : o.isSql = true → e.fault = none) (hrun : s.run t x e o = some (r, s')) :
    ∃ x', s'.txs t = some x' ∧ (Lookup.agrees x.cached).after o r = .agrees x'.cached := by
  cases o with
  | selectItem id =>
    obtain ⟨rfl, rfl⟩ := Prod.mk.inj (Option.some.inj hrun)
    refine ⟨_, Sys.setTx_txs_self _, ?_⟩
    -- the read has written nothing, so it sees the committed row
    rw [Sys.view, hread.2, Db.applyAll_nil]
    exact agrees_of_current hx hread.1 (hlucky rfl) hcur
  | selectOrder id =>
    obtain ⟨rfl, rfl⟩ := Prod.mk.inj (Option.some.inj hrun)
    refine ⟨_, Sys.setTx_txs_self _, ?_⟩
    cases x.cached <;> rfl
  | redisGet id =>
    obtain ⟨rfl, rfl⟩ := Prod.mk.inj (Option.some.inj hrun)
    exact ⟨_, Sys.setTx_txs_self _, rfl⟩
  | commit | rollback | respond =>
    obtain ⟨rfl, rfl⟩ := Prod.mk.inj (Option.some.inj hrun)
    refine ⟨_, Sys.setTx_txs_self _, Lookup.after_end ?_ _⟩
    exact fun h => h
  | selectItemForUpdate | insertItem | updateItem | insertOrder | updateOrder | insertMovement
  | redisSetex => cases ho

/-- A current read makes only read-only awaits, and learns what the cache has. -/
theorem exec_lookup (h : Passive t s) (hφ : φ.Holds t s) (hallow : lookups.allows φ o)
    (hcur : CurrentRead e t o s = true) (hexec : exec e t o s = some (r, s')) :
    o.readOnly = true ∧ (φ.after o r).Holds t s' := by
  obtain ⟨x, hx, _⟩ := exec_move hexec
  have hread := h.read x hx
  cases φ with
  | differs => exact hφ.elim
  | agrees q =>
    obtain rfl : x.cached = q := hφ x hx
    have ho : o.readOnly = true := hallow.resolve_left fun hdiffers => by cases hdiffers
    -- the record that is left has the quantity that the phase says
    suffices hleft : ∃ x', s'.txs t = some x' ∧
        (Lookup.agrees x.cached).after o r = .agrees x'.cached by
      obtain ⟨x', hx', hafter⟩ := hleft
      refine ⟨ho, ?_⟩
      rw [hafter]
      intro y hy
      obtain rfl := Option.some.inj (hx'.symm.trans hy)
      rfl
    rcases exec_ends hx hexec with ⟨f, rfl, rfl⟩ | ⟨f, rfl, rfl | rfl⟩ | ⟨hlucky, hrun⟩
    · exact ⟨x, hx, Lookup.after_error _⟩
    · exact ⟨_, Sys.abort_txs _, Lookup.after_error _⟩
    · refine ⟨_, Sys.setTx_txs_self _, (Lookup.after_error _).trans ?_⟩
      cases f <;> rfl
    · exact run_lookup hx hread ho hcur hlucky hrun

end

/-! ## Taking a read out of a schedule -/

section

variable {cfg : Config} {t : TxId}

/-- The move belongs to request `t`. -/
def isOf (t : TxId) : (system cfg).Label → Bool
  | .start t' _ | .step t' _ => t' = t
  | .tick _ => false

/-- The schedule without the moves of request `t`. -/
def without (t : TxId) (ls : List (system cfg).Label) : List (system cfg).Label :=
  ls.filter fun l => !isOf t l

/-- The two configurations differ at most in what they say about request `t`. -/
structure SameExcept (t : TxId) (c c' : (system cfg).Config) : Prop where
  db : c'.st.db = c.st.db
  locks : c'.st.locks = c.st.locks
  cache : c'.st.cache = c.st.cache
  wal : c'.st.wal = c.st.wal
  txs : ∀ t', t' ≠ t → c'.st.txs t' = c.st.txs t'
  pool : ∀ t', t' ≠ t → c'.pool t' = c.pool t'

variable {c c' c₁ : (system cfg).Config} {l : (system cfg).Label}

/-- The states differ in the record of `t` only. -/
theorem SameExcept.st (h : SameExcept t c c') : c'.st = c.st.withTxs c'.st.txs := by
  have hst : c'.st = ⟨c'.st.db, c'.st.locks, c'.st.cache, c'.st.txs, c'.st.wal⟩ := rfl
  rw [hst, h.db, h.locks, h.cache, h.wal]
  rfl

/-- A move of `t` that only notes something about `t`. -/
theorem SameExcept.noted (h : SameExcept t c c') (x : Tx) (p : Option (Code Unit)) :
    SameExcept t ⟨Function.update c.pool t p, c.st.setTx t x⟩ c' where
  db := h.db
  locks := h.locks
  cache := h.cache
  wal := h.wal
  txs t' ht := (h.txs t' ht).trans (Sys.setTx_txs_ne ht x).symm
  pool t' ht := (h.pool t' ht).trans (by simp [Function.update_of_ne ht])

/-- A move of another request is possible in both configurations, with the same
    outcome. -/
theorem SameExcept.next (h : SameExcept t c c') (hl : isOf t l = false)
    (hnext : c.next l = some c₁) :
    ∃ c₁', c'.next l = some c₁' ∧ SameExcept t c₁ c₁' := by
  have hupdate : ∀ {β : Type} {f g : TxId → β} {t' : TxId} (b : β), (∀ u, u ≠ t → g u = f u) →
      ∀ u, u ≠ t → Function.update g t' b u = Function.update f t' b u := by
    intro β f g t' b hfg u hu
    simp only [Function.update_apply]
    split
    · rfl
    · exact hfg u hu
  cases l with
  | start t' req =>
    have ht : t' ≠ t := by simpa [isOf] using hl
    obtain ⟨hpool, rfl⟩ := next_start hnext
    rw [← h.pool t' ht] at hpool
    refine ⟨_, by simp only [Config.next, hpool]; rfl, ?_⟩
    exact ⟨h.db, h.locks, h.cache, h.wal, hupdate _ h.txs, hupdate _ h.pool⟩
  | step t' e =>
    have ht : t' ≠ t := by simpa [isOf] using hl
    obtain ⟨o, k, r, s, hpool, hexec, rfl⟩ := next_step hnext
    rw [← h.pool t' ht] at hpool
    -- what the statement does to `t'` does not depend on the transaction `t`
    have hexec' : exec e t' o c'.st = some (outcomeIn t' c'.st.txs (r, s)) := by
      have htxs := exec_txs (e := e) (h.txs t' ht) o
      rw [← h.st] at htxs
      exact htxs.trans (congrArg (Option.map _) hexec)
    refine ⟨⟨Function.update c'.pool t' (some (k r)), (outcomeIn t' c'.st.txs (r, s)).2⟩, ?_, ?_⟩
    · have hexec'' : (system cfg).exec e t' o c'.st = some (outcomeIn t' c'.st.txs (r, s)) := hexec'
      simp only [Config.next, hpool, hexec'']
      rfl
    · refine ⟨rfl, rfl, rfl, rfl, fun u hu => ?_, hupdate _ h.pool⟩
      show Function.update c'.st.txs t' (s.txs t') u = s.txs u
      by_cases hut : u = t'
      · rw [hut, Function.update_self]
      · rw [Function.update_of_ne hut, h.txs u hu, exec_txs_ne hexec hut]
  | tick id =>
    obtain rfl := next_tick hnext
    refine ⟨_, rfl, h.db, h.locks, ?_, h.wal, h.txs, h.pool⟩
    show Function.update c'.st.cache id none = Function.update c.st.cache id none
    rw [h.cache]

/-- Whether a move of another request is a current read does not depend on `t`. -/
theorem SameExcept.currentRead {T : Set TxId} (h : SameExcept t c c') (hl : isOf t l = false)
    (hok : OnCall (fun e u o s => u ∈ T → CurrentRead e u o s = true) c l) :
    OnCall (fun e u o s => u ∈ T → CurrentRead e u o s = true) c' l := by
  cases l with
  | start t' req => trivial
  | tick id => trivial
  | step t' e =>
    have ht : t' ≠ t := by simpa [isOf] using hl
    simp only [OnCall, h.pool t' ht] at hok ⊢
    split
    · rename_i o k hpool
      simp only [hpool] at hok
      unfold CurrentRead at hok ⊢
      -- its record and the tables are the same
      rw [h.txs t' ht, h.db]
      exact hok
    · trivial

/-- If request `t` has started, it goes on as a stock read does. -/
def Looking (t : TxId) (c : (system cfg).Config) : Prop :=
  ∀ p, c.pool t = some p → ∃ φ : Lookup, lookups.Follows φ p (fun _ _ => True) ∧ φ.Holds t c.st

/-- What another request does is nothing to a stock read. -/
theorem Looking.other (h : Looking t c) (hpool : c₁.pool t = c.pool t)
    (htxs : c₁.st.txs t = c.st.txs t) : Looking t c₁ := by
  intro p hp
  obtain ⟨φ, hfollows, hholds⟩ := h p (hpool.symm.trans hp)
  refine ⟨φ, hfollows, ?_⟩
  cases φ with
  | agrees q => exact fun x hx => hholds x (htxs.symm.trans hx)
  | differs => exact hholds

/-- A move of another request leaves `t` as it is. -/
theorem next_ne (hl : isOf t l = false) (hnext : c.next l = some c₁) :
    c₁.pool t = c.pool t ∧ c₁.st.txs t = c.st.txs t := by
  cases l with
  | start t' req =>
    have ht : t ≠ t' := by simpa [isOf, eq_comm] using hl
    obtain ⟨_, rfl⟩ := next_start hnext
    -- another thread is started
    exact ⟨Function.update_of_ne ht _ _, Sys.setTx_txs_ne ht _⟩
  | step t' e =>
    have ht : t ≠ t' := by simpa [isOf, eq_comm] using hl
    obtain ⟨_, _, _, _, _, hexec, rfl⟩ := next_step hnext
    -- another thread makes its call
    exact ⟨Function.update_of_ne ht _ _, exec_txs_ne hexec ht⟩
  | tick id =>
    obtain rfl := next_tick hnext
    exact ⟨rfl, rfl⟩

/-- A move of another request leaves a passive one passive. -/
theorem Passive.next (h : Passive t c.st) (hl : isOf t l = false) (hnext : c.next l = some c₁) :
    Passive t c₁.st := by
  have htxs := (next_ne hl hnext).2
  cases l with
  | start t' req =>
    obtain ⟨_, rfl⟩ := next_start hnext
    -- a new record, and no lock yet
    exact ⟨fun x hx => h.read x (htxs.symm.trans hx), h.locks, h.wal⟩
  | step t' e =>
    have ht : t ≠ t' := by simpa [isOf, eq_comm] using hl
    obtain ⟨_, _, _, _, _, hexec, rfl⟩ := next_step hnext
    exact h.exec ht hexec
  | tick id =>
    obtain rfl := next_tick hnext
    exact ⟨h.read, h.locks, h.wal⟩

end

/-- Runs in which every stock read among the requests `T` loads the quantity that it found
    in the cache, if it found any. -/
abbrev currentReadRuns (cache : CacheService) (T : Set TxId) :
    List (system ⟨.http, cache⟩).Label → (system ⟨.http, cache⟩).Config → Prop :=
  SysRun ⟨.http, cache⟩ (OnCall fun e t o s => t ∈ T → CurrentRead e t o s = true) Db.empty

section

variable {cache : CacheService} {T : Set TxId} {ls : List (system ⟨.http, cache⟩).Label}
  {c : (system ⟨.http, cache⟩).Config} {t : TxId} {id : Uuid}

/-- The step of the induction: a request that is started as a stock read is passive, and
    goes on as such a read does. -/
private theorem read_effectless_aux (hT : t ∈ T) (hrun : currentReadRuns cache T ls c)
    (hread : ∀ req, .start t req ∈ ls → ∃ id, req = .getStock id) :
    ∃ c', currentReadRuns cache T (without t ls) c' ∧ SameExcept t c c' ∧ Passive t c.st ∧
      Looking t c := by
  induction hrun with
  | nil =>
    exact ⟨_, .nil, ⟨rfl, rfl, rfl, rfl, fun _ _ => rfl, fun _ _ => rfl⟩,
      ⟨(fun _ hx => nomatch hx), (fun _ hl => nomatch hl), (fun _ hr => nomatch hr)⟩,
      fun _ hp => nomatch hp⟩
  | @snoc ls c l c₁ hpre hok hnext ih =>
    obtain ⟨c', hrun', hsame, hpassive, hlooking⟩ := ih fun req hreq =>
      hread req (List.mem_append_left _ hreq)
    cases hl : isOf t l with
    | false =>
      obtain ⟨c₁', hnext', hsame'⟩ := hsame.next hl hnext
      have hwithout : without t (ls ++ [l]) = without t ls ++ [l] := by simp [without, hl]
      rw [hwithout]
      obtain ⟨hpool, htxs⟩ := next_ne hl hnext
      exact ⟨c₁', hrun'.snoc (hsame.currentRead hl hok) hnext', hsame',
        hpassive.next hl hnext, hlooking.other hpool htxs⟩
    | true =>
      -- the move is dropped: it has only noted something about `t`
      have hwithout : without t (ls ++ [l]) = without t ls := by simp [without, hl]
      rw [hwithout]
      refine ⟨c', hrun', ?_⟩
      cases l with
      | start t' req =>
        obtain rfl : t' = t := by simpa [isOf] using hl
        obtain ⟨_, rfl⟩ := next_start hnext
        obtain ⟨id, rfl⟩ := hread req (List.mem_append_right _ (List.mem_singleton.mpr rfl))
        refine ⟨hsame.noted _ _, hpassive.setTx ⟨rfl, rfl⟩, fun p hp => ?_⟩
        have hp' : some (Config.code ⟨.http, cache⟩ (.getStock id)) = some p :=
          (Function.update_self t' _ c.pool).symm.trans hp
        obtain rfl := Option.some.inj hp'
        refine ⟨.agrees none, code_looks, fun x hx => ?_⟩
        obtain rfl := Option.some.inj ((Sys.setTx_txs_self _).symm.trans hx)
        rfl
      | step t' e =>
        obtain rfl : t' = t := by simpa [isOf] using hl
        obtain ⟨o, k, r, s, hpool, hexec, rfl⟩ := next_step hnext
        obtain ⟨φ, hfollows, hholds⟩ := hlooking _ hpool
        obtain ⟨hro, hholds'⟩ := exec_lookup hpassive hholds hfollows.1
          (OnCall.apply hok hpool hT) hexec
        obtain ⟨x', hread', hwrites', rfl⟩ := exec_readOnly hpassive hro hexec
        refine ⟨hsame.noted _ _, hpassive.setTx ⟨hread', hwrites'⟩, fun p hp => ?_⟩
        obtain rfl : k r = p := by simpa using hp
        exact ⟨_, hfollows.2 r trivial, hholds'⟩
      | tick id => cases hl

/-- A stock read that finds its row as the cache has it can be left out of the schedule:
    rows, cache and all other requests are as they would be without it, and no commit is
    its own, whatever the other reads do. -/
theorem read_effectless (hT : t ∈ T) (hrun : currentReadRuns cache T ls c)
    (hget : .start t (.getStock id) ∈ ls) :
    ∃ c', currentReadRuns cache T (without t ls) c' ∧ SameExcept t c c' ∧
      ∀ r ∈ c.st.wal, r.tx ≠ t := by
  have hread : ∀ req, .start t req ∈ ls → ∃ id, req = .getStock id :=
    fun req hreq => ⟨id, hrun.start_unique hreq hget⟩
  obtain ⟨c', hrun', hsame, hpassive, _⟩ := read_effectless_aux hT hrun hread
  exact ⟨c', hrun', hsame, hpassive.wal⟩

end

/-- An adjustment by -3 whose Redis write fails, and then a read. The entry still says
    10, and the read writes that into the row. -/
def staleRead : List (system ⟨.http, ⟨true⟩⟩).Label :=
  [.start 0 (.createItem { name := "Tea", price := 350, stockQuantity := 10 })] ++
  turns 0 [0, 0, 1, 0, 0, 0] ++
  [.start 1 (.adjustStock 0 { delta := -3, reason := "spilled" })] ++ turns 1 [0, 0, 2, 0] ++
  [.step 1 { fault := some .error }] ++ turns 1 [0, 0] ++
  [.start 2 (.getStock 0)] ++ turns 2 [0, 0, 0, 0, 0]

/-- A second read, which finds the row as the first has left it. -/
def rereads : List (system ⟨.http, ⟨true⟩⟩).Label :=
  staleRead ++ [.start 3 (.getStock 0)] ++ turns 3 [0, 0, 0, 0]

/-- The second read can be taken out, although the first has written its row. -/
theorem read_effectless_fresh : ∃ c, currentReadRuns ⟨true⟩ {3} rereads c ∧
    (c.st.txs 3).map (·.cached) = some (some 10) ∧ ∃ c',
      currentReadRuns ⟨true⟩ {3} (without 3 rereads) c' ∧ SameExcept 3 c c' ∧
        ∀ r ∈ c.st.wal, r.tx ≠ 3 := by
  obtain ⟨c, hrun, hval⟩ : ∃ c, currentReadRuns ⟨true⟩ {3} rereads c ∧
      (c.st.txs 3).map (·.cached) = some (some 10) :=
    Run.of_eval (fun c : (system ⟨.http, ⟨true⟩⟩).Config => (c.st.txs 3).map (·.cached))
      (by decide +kernel) (by decide +kernel)
  have hread : .start 3 (.getStock 0) ∈ rereads := by simp [rereads]
  exact ⟨c, hrun, hval, read_effectless rfl hrun hread⟩

/-- A read can put back a quantity that was adjusted since. -/
theorem read_overwrites : ¬∀ ls c t id, SysRun ⟨.http, ⟨true⟩⟩ (fun _ _ => True) Db.empty ls c →
    .start t (.getStock id) ∈ ls →
    ∃ c', SysRun ⟨.http, ⟨true⟩⟩ (fun _ _ => True) Db.empty (without t ls) c' ∧
      c'.st.db = c.st.db := by
  intro hall
  let stocks : (system ⟨.http, ⟨true⟩⟩).Config → List Int := fun c =>
    c.st.db.items.rows.map (·.stockQuantity)
  obtain ⟨c, hrun, hval⟩ : ∃ c, SysRun ⟨.http, ⟨true⟩⟩ (fun _ _ => True) Db.empty staleRead c ∧
      stocks c = [10] :=
    Run.of_eval stocks (by decide +kernel) (by decide +kernel)
  obtain ⟨c', hrun', hdb⟩ := hall _ c 2 0 hrun (by simp [staleRead])
  have hval' : (((system ⟨.http, ⟨true⟩⟩).idle (Sys.init Db.empty)).run
      -- without the read the adjustment stays
      (without 2 staleRead)).map stocks = some [7] := rfl
  rw [hrun'.run_eq, Option.map_some] at hval'
  have hsame : stocks c' = stocks c := by simp only [stocks, hdb]
  rw [hsame, hval] at hval'
  cases hval'

end Nova
