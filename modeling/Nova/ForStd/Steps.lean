import Mathlib.Algebra.Group.Nat.Even
import Mathlib.Data.List.Chain

/-!
# Steps between states

Steps that have a state before and a state after them lead from one state to another if each
begins in the state that the one before it ended in. The states may be seen through a
function (`Leads.map`), and steps that then change nothing may be left out
(`Leads.changes`). What has two states only is back in the first after an even number of
changes (`Leads.even`).
-/

section

variable {σ τ α : Type} {pre post : α → σ} {a b c : σ} {l l' : List α} {x : α}

/-- The steps `l` lead from `a` to `b`. -/
def Leads (pre post : α → σ) (a : σ) : List α → σ → Prop
  | [], b => a = b
  | x :: l, b => pre x = a ∧ Leads pre post (post x) l b

namespace Leads

/-- Steps lead on from where the steps before them have led. -/
theorem of_append (h : Leads pre post a (l ++ l') c) (h' : Leads pre post a l b) :
    Leads pre post b l' c := by
  induction l generalizing a with
  | nil =>
    obtain rfl : a = b := h'
    exact h
  | cons x l ih => exact ih h.2 h'.2

/-- A map of the states keeps the steps together. -/
theorem map (f : σ → τ) (h : Leads pre post a l b) :
    Leads (fun x => f (pre x)) (fun x => f (post x)) (f a) l (f b) := by
  induction l generalizing a with
  | nil => exact congrArg f h
  | cons x l ih => exact ⟨congrArg f h.1, ih h.2⟩

/-- Steps that change nothing may be left out. -/
theorem changes [DecidableEq σ] (h : Leads pre post a l b) :
    Leads pre post a (l.filter fun x => pre x ≠ post x) b := by
  induction l generalizing a with
  | nil => exact h
  | cons x l ih =>
    obtain ⟨hx, hl⟩ := h
    by_cases hsame : pre x = post x
    · -- a step that changes nothing is dropped
      rw [List.filter_cons_of_neg (by simpa using hsame), ← hx, hsame]
      exact ih hl
    · rw [List.filter_cons_of_pos (by simpa using hsame)]
      exact ⟨hx, ih hl⟩

/-- Of steps that all change the state, no two in a row end in the same one. -/
theorem isChain_post (h : Leads pre post a l b) (hl : ∀ x ∈ l, pre x ≠ post x) :
    l.IsChain fun x y => post x ≠ post y := by
  induction l generalizing a with
  | nil => exact .nil
  | cons x l ih =>
    cases l with
    | nil => exact .singleton x
    | cons y l =>
      -- each change starts where the one before it has ended
      have hy : pre y ≠ post y := hl y (by simp)
      have hrest := ih h.2 fun z hz => hl z (List.mem_cons_of_mem _ hz)
      exact List.isChain_cons_cons.mpr ⟨h.2.1 ▸ hy, hrest⟩

/-- The first step begins at the first state. -/
theorem pre_head (h : Leads pre post a l b) (hx : l.head? = some x) : pre x = a := by
  cases l with
  | nil => cases hx
  | cons y l =>
    obtain rfl : y = x := Option.some.inj hx
    exact h.1

/-- The last step ends at the last state. -/
theorem post_last (h : Leads pre post a l b) (hx : l.getLast? = some x) : post x = b := by
  induction l generalizing a with
  | nil => cases hx
  | cons y l ih =>
    cases l with
    | nil =>
      obtain rfl : y = x := Option.some.inj hx
      exact h.2
    | cons z l => exact ih h.2 (by rwa [List.getLast?_cons_cons] at hx)

/-- With two states, an even number of changes leads back. -/
theorem even {pre post : α → Bool} {a b : Bool} (h : Leads pre post a l b)
    (hl : ∀ x ∈ l, pre x ≠ post x) : a = b ↔ Even l.length := by
  induction l generalizing a with
  | nil =>
    obtain rfl : a = b := h
    simp
  | cons x l ih =>
    obtain ⟨rfl, hrest⟩ := h
    have hx : pre x ≠ post x := hl x List.mem_cons_self
    have hiff := ih hrest fun y hy => hl y (List.mem_cons_of_mem _ hy)
    -- one more change turns the parity and the side
    rw [List.length_cons, Nat.even_add_one, ← hiff, Bool.eq_not.mpr hx]
    cases post x <;> cases b <;> simp

end Leads

end
