import Nova.ForStd.Table

/-!
# Stores whose entries expire

A store maps keys to values. An entry is stored with a deadline and is not seen once the
clock of the store is past it. What is seen when time has passed was seen before
(`get?_advance`), and whatever is seen is within its deadline (`get?_eq_some_iff`).
-/

/-- A value stored under a key until a deadline. -/
structure Timed (κ ν : Type) where
  key : κ
  value : ν
  deadline : Nat

/-- Entries, and the time. -/
structure ExpiringStore (κ ν : Type) where
  now : Nat := 0
  entries : Table (Timed.key : Timed κ ν → κ) := .empty

namespace ExpiringStore

variable {κ ν : Type} [DecidableEq κ]

/-- The value of `k`, if its entry has not expired. -/
def get? (s : ExpiringStore κ ν) (k : κ) : Option ν :=
  match s.entries.find? k with
  | some e => if s.now ≤ e.deadline then some e.value else none
  | none => none

/-- Store a value for `ttl` units of time. -/
def setex (s : ExpiringStore κ ν) (k : κ) (ttl : Nat) (v : ν) : ExpiringStore κ ν :=
  { s with entries := s.entries.upsert ⟨k, v, s.now + ttl⟩ }

/-- Remove an entry. -/
def delete (s : ExpiringStore κ ν) (k : κ) : ExpiringStore κ ν :=
  { s with entries := s.entries.erase k }

omit [DecidableEq κ] in
/-- Time passes. -/
def advance (s : ExpiringStore κ ν) (n : Nat) : ExpiringStore κ ν := { s with now := s.now + n }

/-- A key is found while its deadline has not passed. -/
theorem get?_eq_some_iff {s : ExpiringStore κ ν} {k : κ} {v : ν} :
    s.get? k = some v ↔ ∃ e, s.entries.find? k = some e ∧ s.now ≤ e.deadline ∧ e.value = v := by
  unfold get?
  cases s.entries.find? k with
  | none => simp
  | some e => simp

/-- `SETEX` replaces the entry of its key and no other. -/
theorem get?_setex (s : ExpiringStore κ ν) (k k' : κ) (ttl : Nat) (v : ν) :
    (s.setex k ttl v).get? k' = if k' = k then some v else s.get? k' := by
  unfold get? setex
  rw [Table.find?_upsert]
  by_cases hk : k' = k
  · simp [hk]
  · simp [hk]

/-- `DEL` removes the entry of its key and no other. -/
theorem get?_delete (s : ExpiringStore κ ν) (k k' : κ) :
    (s.delete k).get? k' = if k' = k then none else s.get? k' := by
  unfold get? delete
  rw [Table.find?_erase]
  by_cases hk : k' = k
  · simp [hk]
  · simp [hk]

/-- Time shows nothing new. -/
theorem get?_advance (s : ExpiringStore κ ν) (n : Nat) (k : κ) :
    (s.advance n).get? k = none ∨ (s.advance n).get? k = s.get? k := by
  unfold get? advance
  cases s.entries.find? k with
  | none => exact Or.inl rfl
  | some e =>
    simp only
    split
    · -- still alive, so it was alive before
      rw [if_pos (by omega)]
      exact Or.inr rfl
    · exact Or.inl rfl

end ExpiringStore
