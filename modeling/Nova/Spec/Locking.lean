import Nova.Spec.Log

/-!
# Locks and what a transaction may rely on

Every await either commits or is one of five kinds of move (`exec_move`): it notes
something about its own request, publishes a cache entry, takes locks, takes locks and
adds a row version under them, or gives everything up. From these, `Inv` is an invariant
of any schedule, whatever the requests do, provided that each commit is an `Effect`:
locks are compatible, every pending row version is on a row its transaction owns, and
the committed tables are a `Log` of the commits. `Later t s s'` is what the moves of
other transactions leave alone for `t`.
-/

namespace Nova

/-! ## Owning a row -/

/-- `t` holds a lock on `row` under which it may write it. -/
def Sys.owns (s : Sys) (t : TxId) (row : Row) : Prop :=
  ∃ mode, (mode = .forNoKeyUpdate ∨ mode = .forUpdate) ∧ ⟨t, row, mode⟩ ∈ s.locks

/-- Two modes that permit a write conflict. -/
theorem conflicts_of_write {m m' : LockMode} (h : m = .forNoKeyUpdate ∨ m = .forUpdate)
    (h' : m' = .forNoKeyUpdate ∨ m' = .forUpdate) : m.conflicts m' = true := by
  rcases h with rfl | rfl <;> rcases h' with rfl | rfl <;> rfl

/-- Conflicting locks on one row belong to one transaction. -/
def Sys.Compat (s : Sys) : Prop :=
  ∀ l ∈ s.locks, ∀ l' ∈ s.locks, l.row = l'.row → l.mode.conflicts l'.mode = true → l.tx = l'.tx

/-- A row has one owner. -/
theorem Sys.Compat.owner {s : Sys} (h : s.Compat) {t t' : TxId} {row : Row}
    (ht : s.owns t row) (ht' : s.owns t' row) : t = t' := by
  obtain ⟨m, hm, hl⟩ := ht
  obtain ⟨m', hm', hl'⟩ := ht'
  exact h _ hl _ hl' rfl (conflicts_of_write hm hm')

/-! ## The kinds of move -/

/-- The locks after `t` has taken `ls`. -/
def Sys.withLocks (s : Sys) (t : TxId) (ls : List (Row × LockMode)) : Sys :=
  { s with locks := ls.map (fun l => Lock.mk t l.1 l.2) ++ s.locks }

/-- The locks that `acquire` takes were not blocked. -/
theorem Sys.acquire_some {s s' : Sys} {t : TxId} {ls : List (Row × LockMode)}
    (h : s.acquire t ls = some s') :
    s' = s.withLocks t ls ∧ ∀ l ∈ ls, s.blocked t l.1 l.2 = false := by
  unfold Sys.acquire at h
  split at h
  · cases h
  · rename_i hfree
    refine ⟨(Option.some.inj h).symm, fun l hl => ?_⟩
    simp only [List.any_eq_true, not_exists, not_and, Bool.not_eq_true] at hfree
    exact hfree l hl

/-- A mode that is not blocked conflicts only with one's own locks. -/
theorem Sys.blocked_false {s : Sys} {t : TxId} {row : Row} {mode : LockMode}
    (h : s.blocked t row mode = false) {l : Lock} (hl : l ∈ s.locks) (hrow : l.row = row)
    (hc : l.mode.conflicts mode = true) : l.tx = t := by
  simp only [Sys.blocked, List.any_eq_false, Bool.and_eq_true, decide_eq_true_eq, not_and,
    ne_eq] at h
  by_contra hne
  exact h l hl ⟨hne, hrow⟩ hc

/-- What no await of a transaction changes, a `COMMIT` apart: its request and what
    it has committed. It remembers the order it has read, and what of it failed. -/
structure Tx.Keeps (x x' : Tx) : Prop where
  req : x'.req = x.req
  commit : x'.commit = x.commit
  read : ∀ o, x.read = some o → x'.read = some o
  faulted : x.faulted = true → x'.faulted = true
  redisFailed : x.redisFailed = true → x'.redisFailed = true

/-- A record may stay as it is. -/
theorem Tx.Keeps.refl (x : Tx) : x.Keeps x := ⟨rfl, rfl, fun _ h => h, fun h => h, fun h => h⟩

/-- A failure is remembered. -/
theorem Tx.keeps_faulted (x : Tx) : x.Keeps { x with faulted := true } :=
  ⟨rfl, rfl, fun _ h => h, fun _ => rfl, fun h => h⟩

/-- The first order that was read is remembered. -/
theorem Tx.keeps_read (x : Tx) (r : Option Order) : x.Keeps { x with read := x.read.or r } :=
  ⟨rfl, rfl, fun o h => by simp [h], fun h => h, fun h => h⟩

/-- A failed Redis command is remembered. -/
theorem Tx.keeps_redisFault (x : Tx) (f : Fault) : x.Keeps (x.redisFault f) := by
  cases f with
  | error => exact ⟨rfl, rfl, fun _ h => h, fun h => h, fun _ => rfl⟩
  | cancelled => exact x.keeps_faulted

/-- Under `e`, the await `o` raises a failure that its caller does not swallow. -/
def Env.breaks (e : Env) (o : Stmt) : Bool :=
  match e.fault with
  | none => false
  | some .error => !o.isRedis
  | some .cancelled => true

/-- Only a fault breaks an await. -/
theorem Env.isSome_of_breaks {e : Env} {o : Stmt} (h : e.breaks o = true) :
    e.fault.isSome = true := by
  unfold Env.breaks at h
  cases hf : e.fault with
  | none => simp [hf] at h
  | some f => rfl

/-- Every fault breaks an SQL statement. -/
theorem Env.breaks_of_isSql {e : Env} {o : Stmt} {f : Fault} (hf : e.fault = some f)
    (ho : o.isSql = true) : e.breaks o = true := by
  have hredis : o.isRedis = false := by
    cases o <;> first | rfl | cases ho
  cases f <;> simp [Env.breaks, hf, hredis]

/-- An await `o` under `e` publishes nothing, and reports as failed only what `e`
    failed. -/
structure Tx.Quiet (e : Env) (o : Stmt) (x x' : Tx) : Prop where
  published : x'.published = x.published
  faulted : x'.faulted = true → x.faulted = true ∨ e.breaks o = true
  redisFailed : x'.redisFailed = true →
    x.redisFailed = true ∨ (e.fault.isSome = true ∧ o.isRedis = true)

/-- An await that changes nothing is quiet. -/
theorem Tx.Quiet.refl {e : Env} {o : Stmt} (x : Tx) : x.Quiet e o x := ⟨rfl, Or.inl, Or.inl⟩

/-- The statements that a constraint of the tables can abort. -/
def Stmt.changes : Stmt → Bool
  | .insertItem _ | .updateItem _ _ | .insertOrder _ | .insertMovement _ => true
  | _ => false

/-- What the unique constraint has checked of a row version that `o` writes: it keeps the
    name of an item of `d`, or is inserted with one that no item of `d` has, under its
    lock. -/
def Write.Named (w : Write) (o : Stmt) (d : Db) (ls : List (Row × LockMode)) : Prop :=
  ∀ i, w = .item i → (∃ j, d.items.find? i.id = some j ∧ j.name = i.name) ∨
    (∃ n, o = .insertItem n) ∧ (∀ j ∈ d.items.rows, j.name ≠ i.name) ∧
      (.itemName i.name, .forUpdate) ∈ ls

/-- An order's row has no name to check. -/
theorem Write.named_order (row : Order) (o : Stmt) (d : Db) (ls : List (Row × LockMode)) :
    (Write.order row).Named o d ls := fun _ h => by cases h

/-- A movement's row has no name to check. -/
theorem Write.named_movement (m : StockMovement) (o : Stmt) (d : Db)
    (ls : List (Row × LockMode)) : (Write.movement m).Named o d ls := fun _ h => by cases h

/-- An `UPDATE` of an item keeps its name. -/
theorem Write.named_updated {c : ItemChange} {row row' : MenuItem} {e : Env} {id : Uuid} {d : Db}
    (hrow : d.items.find? id = some row) (h : c.updated? row e = some row')
    (o : Stmt) (ls : List (Row × LockMode)) : (Write.item row').Named o d ls := by
  intro i hi
  obtain rfl := Write.item.inj hi
  have hid : row'.id = id := (ItemChange.updated?_id h).trans (Table.key_of_find? hrow)
  have hname := congrArg MenuItem.name (ItemChange.updated?_eq_some h).1
  exact Or.inl ⟨row, by rw [hid]; exact hrow, hname.symm⟩

/-- An `INSERT` of an item has found its name free. -/
theorem Write.named_inserted {n : NewItem} {row : MenuItem} {e : Env} {d : Db}
    {ls : List (Row × LockMode)} (h : n.row? e = some row)
    (hfree : ¬(d.items.rows.any fun r => r.name = n.name) = true)
    (hls : (.itemName n.name, .forUpdate) ∈ ls) :
    (Write.item row).Named (.insertItem n) d ls := by
  intro i hi
  obtain rfl := Write.item.inj hi
  rw [(NewItem.row?_eq_some h).2.1]
  exact Or.inr ⟨⟨n, rfl⟩, by simpa using hfree, hls⟩

/-- What one await `o` of transaction `t`, of which the state knows `x`, can do under
    `e`, a successful `COMMIT` apart. -/
inductive Move (e : Env) (o : Stmt) (t : TxId) (x : Tx) (s : Sys) : Sys → Prop
  | note (x' : Tx) : x'.writes = x.writes → x.Keeps x' → x.Quiet e o x' →
      Move e o t x s (s.setTx t x')
  | published (id : Uuid) (q : Int) : o = .redisSetex id q → e.fault = none →
      Move e o t x s ({ s with cache := Function.update s.cache id (some q) }.setTx t
        { x with published := some (id, q) })
  | locked (ls : List (Row × LockMode)) : (∀ l ∈ ls, s.blocked t l.1 l.2 = false) →
      Move e o t x s (s.withLocks t ls)
  | wrote (ls : List (Row × LockMode)) (w : Write) (mode : LockMode) :
      (∀ l ∈ ls, s.blocked t l.1 l.2 = false) → (w.row, mode) ∈ ls →
      (mode = .forNoKeyUpdate ∨ mode = .forUpdate) → w.Named o (s.view x) ls →
      Move e o t x s ((s.withLocks t ls).write t x w)
  | ended (x' : Tx) : o.changes = true ∨ o = .rollback ∨ e.breaks o = true →
      x'.writes = [] → x.Keeps x' → x.Quiet e o x' → Move e o t x s ((s.release t).setTx t x')

section

variable {e : Env} {o : Stmt} {t : TxId} {x : Tx} {s s' : Sys}

/-- A statement may change nothing. -/
theorem Move.refl (hx : s.txs t = some x) : Move e o t x s s := by
  have hs : s.setTx t x = s := by
    simp only [Sys.setTx, ← hx, Function.update_eq_self]
  have hnote : Move e o t x s (s.setTx t x) := .note x rfl (.refl x) (.refl x)
  rwa [hs] at hnote

/-- A statement may abort its transaction. -/
theorem Move.abort {x' : Tx} (hwhy : o.changes = true ∨ e.breaks o = true) (h : x.Keeps x')
    (hq : x.Quiet e o x') : Move e o t x s (s.abort t x') :=
  .ended { x' with writes := [], aborted := true } (hwhy.imp_right Or.inr) rfl
    ⟨h.req, h.commit, h.read, h.faulted, h.redisFailed⟩ ⟨hq.published, hq.faulted, hq.redisFailed⟩

/-- A statement that takes `ls` and then writes `w` under one of these locks. -/
private theorem move_of_acquire {s₁ : Sys} {α : Type} {r r' : α} {ls : List (Row × LockMode)}
    {w : Write} (mode : LockMode) (h : s.acquire t ls = some s₁) (hrow : (w.row, mode) ∈ ls)
    (hmode : mode = .forNoKeyUpdate ∨ mode = .forUpdate) (hname : w.Named o (s.view x) ls)
    (heq : (r, s₁.write t x w) = (r', s')) : Move e o t x s s' := by
  obtain ⟨rfl, hfree⟩ := Sys.acquire_some h
  obtain ⟨_, rfl⟩ := Prod.mk.inj heq
  exact .wrote ls w mode hfree hrow hmode hname

end

/-- An `INSERT` of an item writes its row under the locks of its key and its name, or
    aborts. -/
private theorem insertItem_move {t : TxId} {x : Tx} {s s' : Sys} {e : Env} {n : NewItem}
    {r : Except Failure MenuItem} (h : s.insertItem t x e n = some (r, s')) :
    Move e (.insertItem n) t x s s' := by
  unfold Sys.insertItem at h
  split at h
  · split at h
    · -- a CHECK constraint fails
      obtain ⟨_, rfl⟩ := Prod.mk.inj (Option.some.inj h)
      exact .abort (Or.inl rfl) (.refl x) (.refl x)
    · rename_i row hrow
      have hid : row.id = e.uuid := (NewItem.row?_eq_some hrow).1
      obtain ⟨s₁, hacq, heq⟩ := Option.map_eq_some_iff.mp h
      split at heq
      · -- the name is taken
        obtain ⟨_, rfl⟩ := Prod.mk.inj heq
        exact .abort (Or.inl rfl) (.refl x) (.refl x)
      · -- inserted under the locks on its key and its name
        rename_i hname
        exact move_of_acquire .forUpdate hacq (by simp [Write.row, hid]) (Or.inr rfl)
          (Write.named_inserted hrow hname (by simp)) heq
  · -- the id is not fresh
    cases h

/-- An `UPDATE` of an item writes its row under its lock, or aborts. -/
private theorem updateItem_move {t : TxId} {x : Tx} {s s' : Sys} {e : Env} {id : Uuid}
    {c : ItemChange} {r : Except Failure Unit} (h : s.updateItem t x e id c = some (r, s')) :
    Move e (.updateItem id c) t x s s' := by
  unfold Sys.updateItem at h
  split at h
  · -- no such row
    obtain ⟨_, rfl⟩ := Prod.mk.inj (Option.some.inj h)
    exact .abort (Or.inl rfl) (.refl x) (.refl x)
  · rename_i row hfind
    split at h
    · -- a CHECK constraint fails
      obtain ⟨_, rfl⟩ := Prod.mk.inj (Option.some.inj h)
      exact .abort (Or.inl rfl) (.refl x) (.refl x)
    · -- updated under the lock on the row
      rename_i row' hrow'
      have hid : row'.id = id := (ItemChange.updated?_id hrow').trans (Table.key_of_find? hfind)
      obtain ⟨s₁, hacq, heq⟩ := Option.map_eq_some_iff.mp h
      exact move_of_acquire .forNoKeyUpdate hacq (by simp [Write.row, hid]) (Or.inl rfl)
        (Write.named_updated hfind hrow' _ _) heq

/-- An `INSERT` of an order writes its row under the locks of its key and its item, or
    aborts. -/
private theorem insertOrder_move {t : TxId} {x : Tx} {s s' : Sys} {e : Env} {n : NewOrder}
    {r : Except Failure Order} (h : s.insertOrder t x e n = some (r, s')) :
    Move e (.insertOrder n) t x s s' := by
  unfold Sys.insertOrder at h
  split at h
  · split at h
    · -- inserted under the lock on its key
      rename_i row _ hrow _
      have hid : row.id = e.uuid := (NewOrder.row?_eq_some hrow).1
      obtain ⟨s₁, hacq, heq⟩ := Option.map_eq_some_iff.mp h
      exact move_of_acquire .forUpdate hacq (by simp [Write.row, hid]) (Or.inr rfl)
        (Write.named_order row _ _ _) heq
    · -- a CHECK constraint or the foreign key fails
      obtain ⟨_, rfl⟩ := Prod.mk.inj (Option.some.inj h)
      exact .abort (Or.inl rfl) (.refl x) (.refl x)
  · -- the id is not fresh
    cases h

/-- An `UPDATE` of an order writes its row under its lock, or does nothing. -/
private theorem updateOrder_move {t : TxId} {x : Tx} {s s' : Sys} {e : Env} {id : Uuid} {v : Int}
    {st : OrderStatus} {r : Except Failure Bool} (hx : s.txs t = some x)
    (h : s.updateOrder t x e id v st = some (r, s')) : Move e (.updateOrder id v st) t x s s' := by
  unfold Sys.updateOrder at h
  split at h
  · -- no such row
    obtain ⟨_, rfl⟩ := Prod.mk.inj (Option.some.inj h)
    exact .refl hx
  · rename_i row hfind
    split at h
    · -- the version is the expected one
      obtain ⟨s₁, hacq, heq⟩ := Option.map_eq_some_iff.mp h
      have hid : row.id = id := Table.key_of_find? hfind
      exact move_of_acquire .forNoKeyUpdate hacq
        (by simp [Write.row, Order.moved, hid]) (Or.inl rfl) (Write.named_order _ _ _ _) heq
    · -- it has another version, and nothing is written
      obtain ⟨_, rfl⟩ := Prod.mk.inj (Option.some.inj h)
      exact .refl hx

/-- An `INSERT` of a movement writes its row under its locks, or aborts. -/
private theorem insertMovement_move {t : TxId} {x : Tx} {s s' : Sys} {e : Env} {n : NewMovement}
    {r : Except Failure StockMovement} (h : s.insertMovement t x e n = some (r, s')) :
    Move e (.insertMovement n) t x s s' := by
  unfold Sys.insertMovement at h
  split at h
  · split at h
    · -- inserted under the locks on its keys
      obtain ⟨s₁, hacq, heq⟩ := Option.map_eq_some_iff.mp h
      exact move_of_acquire .forUpdate hacq (by simp [Write.row, NewMovement.row])
        (Or.inr rfl) (Write.named_movement _ _ _ _) heq
    · -- a foreign key fails
      obtain ⟨_, rfl⟩ := Prod.mk.inj (Option.some.inj h)
      exact .abort (Or.inl rfl) (.refl x) (.refl x)
  · -- the id is not fresh
    cases h

/-- Every statement but a `COMMIT` is a move. -/
private theorem run_move {t : TxId} {x : Tx} {s s' : Sys} {e : Env} {o : Stmt} {r : o.Res}
    (hx : s.txs t = some x) (ho : o ≠ .commit) (hf : o.isRedis = true → e.fault = none)
    (h : s.run t x e o = some (r, s')) : Move e o t x s s' := by
  cases o with
  | selectItem id | redisGet id | respond res =>
    -- these note what they have returned
    obtain ⟨_, rfl⟩ := Prod.mk.inj (Option.some.inj h)
    exact .note _ rfl ⟨rfl, rfl, fun _ h => h, fun h => h, fun h => h⟩ ⟨rfl, Or.inl, Or.inl⟩
  | selectOrder id =>
    obtain ⟨_, rfl⟩ := Prod.mk.inj (Option.some.inj h)
    exact .note _ rfl (x.keeps_read _) ⟨rfl, Or.inl, Or.inl⟩
  | redisSetex id q =>
    obtain ⟨_, rfl⟩ := Prod.mk.inj (Option.some.inj h)
    exact .published id q rfl (hf rfl)
  | selectItemForUpdate id =>
    simp only [Sys.run] at h
    -- no row, no lock
    split at h
    · obtain ⟨_, rfl⟩ := Prod.mk.inj (Option.some.inj h)
      exact .refl hx
    · -- the row's lock was free
      obtain ⟨s₁, hacq, heq⟩ := Option.map_eq_some_iff.mp h
      obtain ⟨_, rfl⟩ := Prod.mk.inj heq
      obtain ⟨rfl, hfree⟩ := Sys.acquire_some hacq
      exact .locked _ hfree
  | insertItem n => exact insertItem_move h
  | updateItem id c => exact updateItem_move h
  | insertOrder n => exact insertOrder_move h
  | updateOrder id v st => exact updateOrder_move hx h
  | insertMovement n => exact insertMovement_move h
  | commit => exact absurd rfl ho
  | rollback =>
    obtain ⟨_, rfl⟩ := Prod.mk.inj (Option.some.inj h)
    -- the locks are given up
    exact .ended _ (Or.inr (Or.inl rfl)) rfl
      ⟨rfl, rfl, fun _ h => h, fun h => h, fun h => h⟩
      ⟨rfl, Or.inl, Or.inl⟩

/-- Only `COMMIT` commits; every other await is one of the moves. -/
theorem exec_move {e : Env} {t : TxId} {o : Stmt} {s s' : Sys} {r : o.Res}
    (h : exec e t o s = some (r, s')) : ∃ x, s.txs t = some x ∧
      (Move e o t x s s' ∨ (o = .commit ∧ x.aborted = false ∧ s' = s.commit t x)) := by
  unfold exec at h
  split at h
  · cases h
  · rename_i x hx
    -- the branches of `exec`: a dead transaction, a `COMMIT`, a statement
    -- without a fault, a faulted SQL statement, a faulted Redis command
    refine ⟨x, hx, ?_⟩
    split at h
    · obtain ⟨_, rfl⟩ := Prod.mk.inj (Option.some.inj h)
      exact Or.inl (.refl hx)
    · rename_i hlive
      have hfail : e.breaks o = true → Move e o t x s (s.abort t { x with faulted := true }) :=
        fun hf => .abort (Or.inr hf) x.keeps_faulted ⟨rfl, fun _ => Or.inr hf, Or.inl⟩
      by_cases ho : o = .commit
      · subst ho
        split at h
        · obtain ⟨_, rfl⟩ := Prod.mk.inj (Option.some.inj h)
          exact Or.inr ⟨rfl, by simpa [Stmt.isSql] using hlive, rfl⟩
        · rename_i hfault
          obtain ⟨_, rfl⟩ := Prod.mk.inj (Option.some.inj h)
          exact Or.inl (hfail (Env.breaks_of_isSql hfault rfl))
      · left
        split at h
        · rename_i hnone
          exact run_move hx ho (fun _ => hnone) h
        · rename_i f hfault
          have hf : e.fault.isSome = true := by simp [hfault]
          split at h
          · rename_i hsql
            obtain ⟨_, rfl⟩ := Prod.mk.inj (Option.some.inj h)
            exact hfail (Env.breaks_of_isSql hfault hsql)
          · split at h
            · rename_i hredis
              obtain ⟨_, rfl⟩ := Prod.mk.inj (Option.some.inj h)
              -- an error of Redis is swallowed, a cancellation is not
              refine .note (x.redisFault f) ?_ (x.keeps_redisFault f) ?_
              · cases f <;> rfl
              · cases f with
                | error => exact ⟨rfl, Or.inl, fun _ => Or.inr ⟨hf, hredis⟩⟩
                | cancelled => exact ⟨rfl, fun _ => Or.inr (by simp [Env.breaks, hfault]), Or.inl⟩
            · rename_i hredis
              exact run_move hx ho (fun hr => absurd hr hredis) h

/-! ## What other transactions leave alone -/

/-- Seen from `t`, `s'` is a later state than `s`: `t` has kept its locks, the
    rows it owns have not been committed anew, and the log and the tables have
    only grown. -/
structure Later (t : TxId) (s s' : Sys) : Prop where
  locks : ∀ row mode, ⟨t, row, mode⟩ ∈ s.locks → ⟨t, row, mode⟩ ∈ s'.locks
  wal : s.wal <+: s'.wal
  row : ∀ row, s.owns t row → s'.db.get row = s.db.get row
  grow : ∀ row, (s.db.get row).isSome → (s'.db.get row).isSome

/-- A state is later than itself. -/
theorem Later.refl (t : TxId) (s : Sys) : Later t s s :=
  ⟨fun _ _ h => h, List.prefix_rfl, fun _ _ => rfl, fun _ h => h⟩

/-- What is owned stays owned. -/
theorem Later.owns {t : TxId} {s s' : Sys} (h : Later t s s') {row : Row} (ho : s.owns t row) :
    s'.owns t row := by
  obtain ⟨mode, hmode, hl⟩ := ho
  exact ⟨mode, hmode, h.locks row mode hl⟩

/-- Later than later is later. -/
theorem Later.trans {t : TxId} {s₁ s₂ s₃ : Sys} (h : Later t s₁ s₂) (h' : Later t s₂ s₃) :
    Later t s₁ s₃ where
  locks row mode hl := h'.locks row mode (h.locks row mode hl)
  wal := h.wal.trans h'.wal
  row row ho := (h'.row row (h.owns ho)).trans (h.row row ho)
  grow row hs := h'.grow row (h.grow row hs)

/-- A known order version stays known. -/
theorem Later.known {t : TxId} {s s' : Sys} (h : Later t s s') {d₀ : Db} {o : Order}
    (ho : knownIn d₀ s.wal o) : knownIn d₀ s'.wal o := by
  obtain ⟨wal, hwal⟩ := h.wal
  exact hwal ▸ ho.append wal

/-- A state that differs from `s` only in what `Later` does not look at. -/
theorem Later.of_db_eq {t : TxId} {s s' : Sys} (hdb : s'.db = s.db) (hwal : s'.wal = s.wal)
    (hlocks : ∀ row mode, ⟨t, row, mode⟩ ∈ s.locks → ⟨t, row, mode⟩ ∈ s'.locks) :
    Later t s s' where
  locks := hlocks
  wal := hwal ▸ List.prefix_rfl
  row row _ := by rw [hdb]
  grow row h := by rwa [hdb]

/-! ## The invariant of every schedule -/

/-- Locks are compatible, pending row versions are on owned rows, and the
    committed tables come from the log of commits. -/
structure Inv (A : Allow) (d₀ : Db) (s : Sys) : Prop where
  compat : s.Compat
  owned : ∀ t x, s.txs t = some x → ∀ w ∈ x.writes, s.owns t w.row
  log : Log A d₀ s.wal s.db

/-- At the start there are no locks and no pending row versions. -/
theorem Inv.init (A : Allow) (d₀ : Db) : Inv A d₀ (Sys.init d₀) where
  compat _ hl := nomatch hl
  owned _ _ hx := nomatch hx
  log := .nil

/-- What the code of a transaction has to show when it commits. -/
def Committable (A : Allow) (d₀ : Db) (s : Sys) (x : Tx) : Prop :=
  x.writes ≠ [] → ∃ e, Effect A d₀ s.wal s.db x.req x.read e x.writes ∧
    (e.isSome → A.exceptions)

section

variable {A : Allow} {d₀ : Db} {e : Env} {o : Stmt} {t : TxId} {x : Tx} {s s' : Sys}

@[simp] theorem Sys.setTx_locks (x' : Tx) : (s.setTx t x').locks = s.locks := rfl
@[simp] theorem Sys.setTx_db (x' : Tx) : (s.setTx t x').db = s.db := rfl
@[simp] theorem Sys.setTx_wal (x' : Tx) : (s.setTx t x').wal = s.wal := rfl
@[simp] theorem Sys.setTx_cache (x' : Tx) : (s.setTx t x').cache = s.cache := rfl
@[simp] theorem Sys.setTx_txs_self (x' : Tx) : (s.setTx t x').txs t = some x' := by
  simp [Sys.setTx]

/-- The records of other transactions stay. -/
theorem Sys.setTx_txs_ne {t' : TxId} (h : t' ≠ t) (x' : Tx) :
    (s.setTx t x').txs t' = s.txs t' := by
  simp [Sys.setTx, h]

/-- A release takes away the locks of `t`. -/
@[simp] theorem Sys.mem_release {l : Lock} : l ∈ (s.release t).locks ↔ l ∈ s.locks ∧ l.tx ≠ t := by
  simp [Sys.release]

/-- The locks of `t` are added to those held. -/
theorem Sys.mem_withLocks {ls : List (Row × LockMode)} {l : Lock} :
    l ∈ (s.withLocks t ls).locks ↔ (l.tx = t ∧ (l.row, l.mode) ∈ ls) ∨ l ∈ s.locks := by
  simp only [Sys.withLocks, List.mem_append, List.mem_map]
  constructor
  · rintro (⟨p, hp, rfl⟩ | h)
    · exact Or.inl ⟨rfl, hp⟩
    · exact Or.inr h
  · rintro (⟨rfl, h⟩ | h)
    · exact Or.inl ⟨_, h, rfl⟩
    · exact Or.inr h

/-- Locks that were not blocked are compatible with those held. -/
theorem Sys.Compat.withLocks (h : s.Compat) {ls : List (Row × LockMode)}
    (hfree : ∀ l ∈ ls, s.blocked t l.1 l.2 = false) : (s.withLocks t ls).Compat := by
  intro l hl l' hl' hrow hc
  rcases Sys.mem_withLocks.mp hl with ⟨ht, hmem⟩ | hold
  · -- both locks are new, and `t`'s
    rcases Sys.mem_withLocks.mp hl' with ⟨ht', _⟩ | hold'
    · exact ht.trans ht'.symm
    · rw [LockMode.conflicts_comm] at hc
      -- a new lock was not blocked by the old one
      exact ht.trans (Sys.blocked_false (hfree _ hmem) hold' hrow.symm hc).symm
  · rcases Sys.mem_withLocks.mp hl' with ⟨ht', hmem'⟩ | hold'
    · -- the other way round
      exact (Sys.blocked_false (hfree _ hmem') hold hrow hc).trans ht'.symm
    · -- both are old
      exact h l hold l' hold' hrow hc

/-- More locks take no ownership away. -/
theorem Sys.owns_withLocks {ls : List (Row × LockMode)} {t' : TxId} {row : Row}
    (h : s.owns t' row) : (s.withLocks t ls).owns t' row := by
  obtain ⟨mode, hmode, hl⟩ := h
  exact ⟨mode, hmode, Sys.mem_withLocks.mpr (Or.inr hl)⟩

/-- A release takes no ownership away from another transaction. -/
theorem Sys.owns_release {t' : TxId} (ht : t' ≠ t) {row : Row} (h : s.owns t' row) :
    (s.release t).owns t' row := by
  obtain ⟨mode, hmode, hl⟩ := h
  exact ⟨mode, hmode, Sys.mem_release.mpr ⟨hl, ht⟩⟩

/-- Replacing the record of `t` keeps `owned` when its writes are on rows it owns. -/
private theorem owned_setTx
    (h : ∀ t' x', s.txs t' = some x' → t' ≠ t → ∀ w ∈ x'.writes, s.owns t' w.row)
    {x' : Tx} (hx' : ∀ w ∈ x'.writes, s.owns t w.row) :
    ∀ t' y, (s.setTx t x').txs t' = some y → ∀ w ∈ y.writes, (s.setTx t x').owns t' w.row := by
  intro t' y hy w hw
  by_cases ht : t' = t
  · -- the record that was set
    subst ht
    rw [Sys.setTx_txs_self, Option.some.injEq] at hy
    exact hx' w (hy ▸ hw)
  · -- the record of another transaction
    rw [Sys.setTx_txs_ne ht] at hy
    exact h t' y hy ht w hw

/-- No move breaks the invariant. -/
theorem Inv.move (h : Inv A d₀ s) (hx : s.txs t = some x) (hm : Move e o t x s s') :
    Inv A d₀ s' := by
  cases hm with
  | note x' hw _ =>
    exact ⟨h.compat, owned_setTx (fun t' y hy _ => h.owned t' y hy)
      (fun w hmem => h.owned t x hx w (hw ▸ hmem)), h.log⟩
  | published id q =>
    exact ⟨h.compat, owned_setTx (fun t' y hy _ => h.owned t' y hy)
      (fun w hmem => h.owned t x hx w hmem), h.log⟩
  | locked ls hfree =>
    exact ⟨h.compat.withLocks hfree,
      fun t' y hy w hw => Sys.owns_withLocks (h.owned t' y hy w hw), h.log⟩
  | wrote ls w mode hfree hmem hmode _ =>
    -- the new write is on a row that `t` has just locked
    refine ⟨h.compat.withLocks hfree, ?_, h.log⟩
    refine owned_setTx (fun t' y hy _ w' hw' => Sys.owns_withLocks (h.owned t' y hy w' hw')) ?_
    intro w' hw'
    rcases List.mem_append.mp hw' with hw' | hw'
    · exact Sys.owns_withLocks (h.owned t x hx w' hw')
    · rw [List.mem_singleton.mp hw']
      exact ⟨mode, hmode, Sys.mem_withLocks.mpr (Or.inl ⟨rfl, hmem⟩)⟩
  | ended x' _ hw _ =>
    -- the locks of `t` go, and with them all its writes
    refine ⟨?_, ?_, h.log⟩
    · intro l hl l' hl' hrow hc
      exact h.compat l (Sys.mem_release.mp hl).1 l' (Sys.mem_release.mp hl').1 hrow hc
    · refine owned_setTx (fun t' y hy ht w' hw' => ?_) (fun w' hw' => ?_)
      · exact Sys.owns_release ht (h.owned t' y hy w' hw')
      · rw [hw] at hw'; cases hw'

/-- Other transactions may rely on every move. -/
theorem Move.later_of_ne (hm : Move e o t x s s') {t' : TxId} (ht : t' ≠ t) :
    s'.txs t' = s.txs t' ∧ Later t' s s' := by
  cases hm with
  | note | published =>
    -- only the own record, and the cache
    exact ⟨Sys.setTx_txs_ne ht _, .of_db_eq rfl rfl fun _ _ hl => hl⟩
  | locked ls hfree =>
    -- locks are added, not taken away
    exact ⟨rfl, .of_db_eq rfl rfl fun _ _ hl => Sys.mem_withLocks.mpr (Or.inr hl)⟩
  | wrote ls w mode hfree hmem hmode _ =>
    exact ⟨Sys.setTx_txs_ne ht _, .of_db_eq rfl rfl fun _ _ hl => Sys.mem_withLocks.mpr (Or.inr hl)⟩
  | ended x' =>
    -- only the own locks are given up
    exact ⟨Sys.setTx_txs_ne ht x',
      .of_db_eq rfl rfl fun _ _ hl => Sys.mem_release.mpr ⟨hl, ht⟩⟩

/-- A commit that is an `Effect` keeps the invariant. -/
theorem Inv.commit (h : Inv A d₀ s) (hc : Committable A d₀ s x) :
    Inv A d₀ (s.commit t x) := by
  refine ⟨?_, ?_, ?_⟩
  · -- the locks that are left were there before
    intro l hl l' hl' hrow hcf
    exact h.compat l (Sys.mem_release.mp hl).1 l' (Sys.mem_release.mp hl').1 hrow hcf
  · refine owned_setTx (fun t' y hy ht w' hw' => ?_) (fun w' hw' => nomatch hw')
    -- the others keep their rows locked
    exact Sys.owns_release ht (h.owned t' y hy w' hw')
  · by_cases hw : x.writes = []
    · -- nothing was written, and the log stays
      have hdb : (s.commit t x).db = s.db := by simp [Sys.commit, Sys.release, Sys.view, hw]
      have hwal : (s.commit t x).wal = s.wal := by simp [Sys.commit, Sys.release, hw]
      rw [hdb, hwal]; exact h.log
    · -- the effect is appended to the log
      obtain ⟨e, heff, hex⟩ := hc hw
      have hwal : (s.commit t x).wal = s.wal ++ [⟨t, x.req, x.read, x.writes⟩] := by
        simp [Sys.commit, Sys.release, hw]
      rw [hwal]
      exact .snoc (c := ⟨t, x.req, x.read, x.writes⟩) h.log heff hex

/-- Other transactions may rely on a commit: it only writes rows that they do
    not own. -/
theorem Inv.commit_later (h : Inv A d₀ s) (hx : s.txs t = some x) {t' : TxId} (ht : t' ≠ t) :
    (s.commit t x).txs t' = s.txs t' ∧ Later t' s (s.commit t x) := by
  refine ⟨Sys.setTx_txs_ne ht _, ?_, ?_, ?_, ?_⟩
  · intro row mode hl
    -- the locks of the others stay
    exact Sys.mem_release.mpr ⟨hl, ht⟩
  · show s.wal <+: if x.writes = [] then s.wal else s.wal ++ [⟨t, x.req, x.read, x.writes⟩]
    split
    · exact List.prefix_rfl
    · exact List.prefix_append _ _
  · intro row ho
    refine Db.get_applyAll_of_not_mem fun w hw hrow => ?_
    -- a row that `t` has written is not locked by another
    exact ht (h.compat.owner (hrow ▸ ho) (h.owned t x hx w hw))
  · intro row hsome
    exact Db.isSome_get_applyAll hsome

/-- Starting a request and the expiry of a cache entry keep the invariant. -/
theorem Inv.start (h : Inv A d₀ s) (req : Request) : Inv A d₀ (s.start t req) :=
  ⟨h.compat, owned_setTx (fun t' y hy _ => h.owned t' y hy) (fun _ hw => nomatch hw), h.log⟩

/-- An entry that expires changes no table and no lock. -/
theorem Inv.expire (h : Inv A d₀ s) (id : Uuid) : Inv A d₀ (s.expire id) :=
  ⟨h.compat, h.owned, h.log⟩

end

end Nova
