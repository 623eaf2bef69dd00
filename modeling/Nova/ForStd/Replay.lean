import Mathlib.Data.List.Basic

/-!
# Replaying a log

`replay step s log k` is the state that the first `k` entries of a log lead to. A state
that was reached does not change when the log grows (`replay_append`), what holds at one
point and not at a later one was changed by an entry between them (`exists_change`), and
an abstraction that commutes with the entries commutes with the replay (`map_replay`).
-/

variable {σ τ ι κ : Type} {step : σ → ι → σ} {s : σ} {log : List ι} {i : ι} {k : Nat}

/-- The state after the first `k` entries of `log`. -/
def replay (step : σ → ι → σ) (s : σ) (log : List ι) (k : Nat) : σ :=
  (log.take k).foldl step s

/-- Nothing has been replayed at point 0. -/
@[simp] theorem replay_zero : replay step s log 0 = s := rfl

/-- Later entries do not change what was reached. -/
theorem replay_append {log' : List ι} (hk : k ≤ log.length) :
    replay step s (log ++ log') k = replay step s log k := by
  rw [replay, replay, List.take_append_of_le_length hk]

/-- The replay up to `k` reads no entry after `k`. -/
theorem replay_of_prefix {log' : List ι} (hpre : log <+: log') (hk : k ≤ log.length) :
    replay step s log' k = replay step s log k := by
  obtain ⟨rest, rfl⟩ := hpre
  exact replay_append hk

/-- The replay of the whole log is the fold over it. -/
theorem replay_length : replay step s log log.length = log.foldl step s := by
  rw [replay, List.take_length]

/-- One more entry. -/
theorem replay_succ (hi : log[k]? = some i) :
    replay step s log (k + 1) = step (replay step s log k) i := by
  rw [replay, replay, List.take_add_one, hi, List.foldl_append]
  rfl

/-- What every entry keeps is kept between any two points. -/
theorem replay_keeps {P : σ → Prop} {k' : Nat} (h : P (replay step s log k)) (hle : k ≤ k')
    (hstep : ∀ j i, log[j]? = some i → k ≤ j → P (replay step s log j) →
      P (step (replay step s log j) i)) : P (replay step s log k') := by
  induction hle with
  | refl => exact h
  | @step j hj ih =>
    cases hi : log[j]? with
    | none =>
      -- the log has ended before
      have hlen : log.length ≤ j := List.getElem?_eq_none_iff.mp hi
      rw [replay, List.take_of_length_le hlen] at ih
      rwa [replay, List.take_of_length_le (by omega)]
    | some i =>
      rw [replay_succ hi]
      exact hstep j i hi hj ih

/-- What held before and does not hold later was changed by an entry in between. -/
theorem exists_change {P : σ → Prop} {k' : Nat} (h : P (replay step s log k)) (hle : k ≤ k')
    (hnot : ¬P (replay step s log k')) :
    ∃ j i, k ≤ j ∧ log[j]? = some i ∧ P (replay step s log j) ∧
      ¬P (step (replay step s log j) i) := by
  by_contra hall
  push Not at hall
  exact hnot (replay_keeps h hle fun j i hi hj hP => hall j i hj hi hP)

/-- An abstraction that commutes with every entry commutes with the replay. -/
theorem map_replay {step' : τ → κ → τ} {f : σ → τ} {g : ι → κ}
    (hstep : ∀ j i, log[j]? = some i →
      f (step (replay step s log j) i) = step' (f (replay step s log j)) (g i)) (k : Nat) :
    f (replay step s log k) = replay step' (f s) (log.map g) k := by
  induction k with
  | zero => rfl
  | succ j ih =>
    cases hi : log[j]? with
    | none =>
      -- past the end of the log nothing more is replayed
      have hlen : log.length ≤ j := List.getElem?_eq_none_iff.mp hi
      have hlen' : (log.map g).length ≤ j := by rwa [List.length_map]
      rw [replay, List.take_of_length_le hlen] at ih
      rw [replay, List.take_of_length_le hlen'] at ih
      rw [replay, List.take_of_length_le (by omega), ih, replay, List.take_of_length_le (by omega)]
    | some i =>
      -- the mapped log has an entry there too
      have hi' : (log.map g)[j]? = some (g i) := by simp [hi]
      rw [replay_succ hi, replay_succ hi', hstep j i hi, ih]
