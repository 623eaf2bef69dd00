import Nova.ForStd.Protocol
import Nova.Spec.Runs

/-!
# The lock order of a request

A request takes its locks in one order: first those of one item (or of an item and a
name it has just inserted), then that of an order, and after that none. `Phase` is where
a request is in this order, `Phase.Holds` what its locks are there, and `lockOrder` the
protocol; that all code follows it (`code_follows`) is shown for each coroutine from the
phase it starts in, with the objects its session may still have to flush.
-/

namespace Nova

open Machine
open Coro (raise attempt await)

/-! ## Phases -/

/-- What a request has locked: nothing, the item `id` exclusively, or an order as well
    (after which it asks for no lock). -/
inductive Phase where
  | free
  | item (id : Uuid)
  | closed
  deriving DecidableEq

namespace Phase

/-- The statements that take locks, each in the phases where its locks are next in order. -/
def allows : Phase → Stmt → Prop
  | φ, .selectItemForUpdate _ | φ, .insertItem _ | φ, .insertOrder _ => φ = .free
  | φ, .updateItem id _ => φ = .free ∨ φ = .item id
  | φ, .insertMovement n => φ = .item n.itemId
  | φ, .updateOrder _ _ _ => φ ≠ .closed
  | _, _ => True

/-- A failed statement has given up all locks, unless the transaction had already failed. -/
def failed (φ : Phase) (o : Stmt) (f : Failure) : Phase :=
  if o.isSql && f ≠ .pendingRollbackError then .free else φ

/-- The phase after a statement. -/
def after (φ : Phase) : (o : Stmt) → o.Res → Phase
  | .selectItemForUpdate _, .ok (some row) => .item row.id
  | .insertItem _, .ok row => .item row.id
  | .updateItem _ _, .ok () => if φ = .free then .closed else φ
  | .insertOrder _, .ok _ => .closed
  | .updateOrder _ _ _, .ok true => .closed
  | .commit, .ok () | .rollback, _ => .free
  | _, .ok _ => φ
  | o, .error f => φ.failed o f

/-- The locks of request `t` in each phase. -/
def Holds (t : TxId) (s : Sys) : Phase → Prop
  | .free => ∀ l ∈ s.locks, l.tx ≠ t
  | .item id => ⟨t, .item id, .forUpdate⟩ ∈ s.locks ∧
      ∀ l ∈ s.locks, l.tx = t → ∀ order, l.row = .order order → l.mode = .forKeyShare
  | .closed => True

end Phase

/-- A row found by its id has this id; a `ROLLBACK` and the sending of a response do not
    fail. -/
def Stmt.answers : (o : Stmt) → o.Res → Prop
  | .selectItem id, .ok (some row) => row.id = id
  | .rollback, .error _ | .respond _, .error _ => False
  | _, _ => True

/-- The order in which requests lock. -/
def lockOrder : Protocol Phase Stmt Stmt.Res where
  rest := .free
  allows := Phase.allows
  answers := Stmt.answers
  after := Phase.after

section

variable {φ : Phase} {t t' : TxId} {x : Tx} {s s' : Sys} {e : Env} {o : Stmt}

/-- A phase looks at the transaction's own locks only. -/
theorem Phase.Holds.of_locks (h : φ.Holds t s)
    (hlocks : ∀ l, l.tx = t → (l ∈ s'.locks ↔ l ∈ s.locks)) :
    φ.Holds t s' := by
  cases φ with
  | free => exact fun l hl ht => h l ((hlocks l ht).mp hl) ht
  | item id => exact ⟨(hlocks _ rfl).mpr h.1, fun l hl ht => h.2 l ((hlocks l ht).mp hl) ht⟩
  | closed => trivial

/-- A transaction that has given up its locks may be in any phase that has none. -/
theorem Phase.holds_release (x' : Tx) : Phase.free.Holds t ((s.release t).setTx t x') := by
  intro l hl
  exact (Sys.mem_release.mp hl).2

/-- Further locks that are not on orders, or no stronger than a foreign key's, keep the
    item. -/
theorem Phase.holds_withLocks {id : Uuid} {ls : List (Row × LockMode)}
    (h : (Phase.item id).Holds t s)
    (hls : ∀ l ∈ ls, ∀ order, l.1 = .order order → l.2 = .forKeyShare) :
    (Phase.item id).Holds t (s.withLocks t ls) := by
  refine ⟨Sys.mem_withLocks.mpr (Or.inr h.1), fun l hl ht order hrow => ?_⟩
  rcases Sys.mem_withLocks.mp hl with ⟨_, hl⟩ | hl
  · exact hls _ hl order hrow
  · exact h.2 l hl ht order hrow

/-- The first locks of a request, one of them the item's. -/
theorem Phase.holds_first {id : Uuid} {ls : List (Row × LockMode)} (h : Phase.free.Holds t s)
    (hitem : (.item id, .forUpdate) ∈ ls) (hls : ∀ l ∈ ls, ∀ order, l.1 ≠ .order order) :
    (Phase.item id).Holds t (s.withLocks t ls) := by
  refine ⟨Sys.mem_withLocks.mpr (Or.inl ⟨rfl, hitem⟩), fun l hl ht order hrow => ?_⟩
  rcases Sys.mem_withLocks.mp hl with ⟨_, hl⟩ | hl
  · exact absurd hrow (hls _ hl order)
  · exact absurd ht (h l hl)

/-- An await changes no locks of another transaction. -/
theorem exec_locks_ne {r : o.Res} (ht : t' ≠ t) (h : exec e t o s = some (r, s')) {l : Lock}
    (hl : l.tx = t') : l ∈ s'.locks ↔ l ∈ s.locks := by
  have hrelease : l ∈ (s.release t).locks ↔ l ∈ s.locks := by
    simp [Sys.mem_release, hl, ht]
  have hwith : ∀ ls, l ∈ (s.withLocks t ls).locks ↔ l ∈ s.locks := by
    intro ls
    simp [Sys.mem_withLocks, hl, ht]
  obtain ⟨x, _, hmove | ⟨_, _, rfl⟩⟩ := exec_move h
  · cases hmove with
    | note | published => exact Iff.rfl
    | locked ls _ => exact hwith ls
    | wrote ls w mode => exact hwith ls
    | ended => exact hrelease
  · exact hrelease

/-- A write under locks that keep the item. -/
private theorem holds_wrote {id : Uuid} {s₁ : Sys} {ls : List (Row × LockMode)} {α : Type}
    {r r' : α} {w : Write} (h : (Phase.item id).Holds t s) (hacq : s.acquire t ls = some s₁)
    (hls : ∀ l ∈ ls, ∀ order, l.1 = .order order → l.2 = .forKeyShare)
    (heq : (r, s₁.write t x w) = (r', s')) : (Phase.item id).Holds t s' := by
  obtain ⟨rfl, _⟩ := Sys.acquire_some hacq
  obtain ⟨_, rfl⟩ := Prod.mk.inj heq
  exact Phase.holds_withLocks h hls

/-- The phase after an `INSERT` of an item. -/
private theorem insertItem_phase {n : NewItem} {r : Except Failure MenuItem}
    (hφ : Phase.free.Holds t s) (h : s.insertItem t x e n = some (r, s')) :
    (Phase.free.after (.insertItem n) r).Holds t s' := by
  unfold Sys.insertItem at h
  split at h
  · split at h
    · obtain ⟨rfl, rfl⟩ := Prod.mk.inj (Option.some.inj h)
      exact Phase.holds_release _
    · rename_i row hrow
      have hid : row.id = e.uuid := (NewItem.row?_eq_some hrow).1
      obtain ⟨s₁, hacq, heq⟩ := Option.map_eq_some_iff.mp h
      obtain ⟨rfl, _⟩ := Sys.acquire_some hacq
      split at heq
      · obtain ⟨rfl, rfl⟩ := Prod.mk.inj heq
        exact Phase.holds_release _
      · obtain ⟨rfl, rfl⟩ := Prod.mk.inj heq
        show (Phase.item row.id).Holds t _
        rw [hid]
        exact Phase.holds_first hφ (by simp) (by simp)
  · cases h

/-- The phase after an `UPDATE` of an item. -/
private theorem updateItem_phase {id : Uuid} {c : ItemChange} {r : Except Failure Unit}
    (hφ : φ.Holds t s) (h : s.updateItem t x e id c = some (r, s')) :
    (φ.after (.updateItem id c) r).Holds t s' := by
  unfold Sys.updateItem at h
  split at h
  · obtain ⟨rfl, rfl⟩ := Prod.mk.inj (Option.some.inj h)
    exact Phase.holds_release _
  · split at h
    · obtain ⟨rfl, rfl⟩ := Prod.mk.inj (Option.some.inj h)
      exact Phase.holds_release _
    · obtain ⟨s₁, hacq, heq⟩ := Option.map_eq_some_iff.mp h
      obtain rfl := (Prod.mk.inj heq).1
      cases φ with
      | free | closed => trivial
      | item id' => exact holds_wrote hφ hacq (by simp) heq

/-- The phase after an `INSERT` of an order. -/
private theorem insertOrder_phase {n : NewOrder} {r : Except Failure Order}
    (h : s.insertOrder t x e n = some (r, s')) : (φ.after (.insertOrder n) r).Holds t s' := by
  unfold Sys.insertOrder at h
  split at h
  · split at h
    · obtain ⟨s₁, hacq, heq⟩ := Option.map_eq_some_iff.mp h
      obtain rfl := (Prod.mk.inj heq).1
      trivial
    · obtain ⟨rfl, rfl⟩ := Prod.mk.inj (Option.some.inj h)
      exact Phase.holds_release _
  · cases h

/-- The phase after an `UPDATE` of an order. -/
private theorem updateOrder_phase {id : Uuid} {v : Int} {st : OrderStatus} {r : Except Failure Bool}
    (hφ : φ.Holds t s) (h : s.updateOrder t x e id v st = some (r, s')) :
    (φ.after (.updateOrder id v st) r).Holds t s' := by
  unfold Sys.updateOrder at h
  split at h
  · obtain ⟨rfl, rfl⟩ := Prod.mk.inj (Option.some.inj h)
    exact hφ
  · split at h
    · obtain ⟨s₁, hacq, heq⟩ := Option.map_eq_some_iff.mp h
      obtain rfl := (Prod.mk.inj heq).1
      trivial
    · obtain ⟨rfl, rfl⟩ := Prod.mk.inj (Option.some.inj h)
      exact hφ

/-- The phase after an `INSERT` of a movement. -/
private theorem insertMovement_phase {n : NewMovement} {r : Except Failure StockMovement}
    (hφ : (Phase.item n.itemId).Holds t s) (h : s.insertMovement t x e n = some (r, s')) :
    ((Phase.item n.itemId).after (.insertMovement n) r).Holds t s' := by
  unfold Sys.insertMovement at h
  split at h
  · split at h
    · obtain ⟨s₁, hacq, heq⟩ := Option.map_eq_some_iff.mp h
      obtain rfl := (Prod.mk.inj heq).1
      -- the order of the movement is locked, but only for its foreign key
      refine holds_wrote hφ hacq (fun l hl order hrow => ?_) heq
      simp only [Sys.movementLocks, List.mem_cons, Option.mem_toList,
        Option.map_eq_some_iff] at hl
      rcases hl with rfl | rfl | ⟨_, _, rfl⟩
      · cases hrow
      · cases hrow
      · rfl
    · obtain ⟨rfl, rfl⟩ := Prod.mk.inj (Option.some.inj h)
      exact Phase.holds_release _
  · cases h

/-- The phase after a statement that was not failed. -/
private theorem run_phase {r : o.Res} (hφ : φ.Holds t s) (hallow : φ.allows o)
    (h : s.run t x e o = some (r, s')) : o.answers r ∧ (φ.after o r).Holds t s' := by
  cases o with
  | selectItem id =>
    obtain ⟨rfl, rfl⟩ := Prod.mk.inj (Option.some.inj h)
    refine ⟨?_, hφ.of_locks fun _ _ => Iff.rfl⟩
    cases hfind : (s.view x).items.find? id with
    | none => trivial
    | some row => exact Table.key_of_find? hfind
  | selectItemForUpdate id =>
    obtain rfl : φ = .free := hallow
    simp only [Sys.run] at h
    split at h
    · obtain ⟨rfl, rfl⟩ := Prod.mk.inj (Option.some.inj h)
      exact ⟨trivial, hφ⟩
    · rename_i row hrow
      obtain ⟨s₁, hacq, heq⟩ := Option.map_eq_some_iff.mp h
      obtain ⟨rfl, rfl⟩ := Prod.mk.inj heq
      obtain ⟨rfl, _⟩ := Sys.acquire_some hacq
      have hid : row.id = id := Table.key_of_find? hrow
      -- the row found under the key is the one that is locked
      refine ⟨trivial, ?_⟩
      show (Phase.item row.id).Holds t _
      rw [hid]
      exact Phase.holds_first hφ (by simp) (by simp)
  | insertItem n =>
    obtain rfl : φ = .free := hallow
    exact ⟨trivial, insertItem_phase hφ h⟩
  | updateItem id c => exact ⟨trivial, updateItem_phase hφ h⟩
  | insertOrder n => exact ⟨trivial, insertOrder_phase h⟩
  | updateOrder id v st => exact ⟨trivial, updateOrder_phase hφ h⟩
  | insertMovement n =>
    obtain rfl : φ = .item n.itemId := hallow
    exact ⟨trivial, insertMovement_phase hφ h⟩
  | selectOrder | redisGet | redisSetex | respond =>
    obtain ⟨rfl, rfl⟩ := Prod.mk.inj (Option.some.inj h)
    exact ⟨trivial, hφ.of_locks fun _ _ => Iff.rfl⟩
  | commit | rollback =>
    obtain ⟨rfl, rfl⟩ := Prod.mk.inj (Option.some.inj h)
    exact ⟨trivial, Phase.holds_release _⟩

/-- An allowed await leads to the phase that the protocol says. -/
theorem exec_phase {r : o.Res} (hφ : φ.Holds t s) (hallow : φ.allows o)
    (h : exec e t o s = some (r, s')) : o.answers r ∧ (φ.after o r).Holds t s' := by
  -- every failure moves the phase in the same way
  have hfailed : ∀ f, o.isSql = true ∨ o.isRedis = true →
      o.answers (.error f) ∧ φ.after o (.error f) = φ.failed o f := by
    intro f ho
    cases o with
    | rollback | respond => simp [Stmt.isSql, Stmt.isRedis] at ho
    | _ => exact ⟨trivial, rfl⟩
  unfold exec at h
  split at h
  · cases h
  split at h
  · rename_i hfail
    obtain ⟨rfl, rfl⟩ := Prod.mk.inj (Option.some.inj h)
    obtain ⟨hanswer, hafter⟩ := hfailed .pendingRollbackError (Or.inl (by simp_all))
    rw [hafter]
    exact ⟨hanswer, by simpa [Phase.failed] using hφ⟩
  split at h
  · exact run_phase hφ hallow h
  rename_i f _
  split at h
  · rename_i hsql
    obtain ⟨rfl, rfl⟩ := Prod.mk.inj (Option.some.inj h)
    -- the failed SQL statement has rolled the transaction back
    have hpending : f.failure o ≠ .pendingRollbackError := by
      cases f <;> simp [Fault.failure]
      split <;> simp
    obtain ⟨hanswer, hafter⟩ := hfailed (f.failure o) (Or.inl hsql)
    rw [hafter]
    refine ⟨hanswer, ?_⟩
    simp only [Phase.failed, hsql, hpending, ne_eq, not_false_eq_true, decide_true, Bool.and_self,
      if_true]
    exact Phase.holds_release _
  split at h
  · rename_i hsql hredis
    obtain ⟨rfl, rfl⟩ := Prod.mk.inj (Option.some.inj h)
    obtain ⟨hanswer, hafter⟩ := hfailed (f.failure o) (Or.inr hredis)
    rw [hafter]
    refine ⟨hanswer, ?_⟩
    simp only [Phase.failed, hsql, Bool.false_and, Bool.false_eq_true, if_false]
    exact hφ.of_locks fun _ _ => Iff.rfl
  · exact run_phase hφ hallow h

end

end Nova
