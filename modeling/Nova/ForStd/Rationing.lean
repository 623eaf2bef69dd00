import Mathlib.Algebra.BigOperators.Group.Finset.Basic
import Mathlib.Data.Finset.Card
import Mathlib.Tactic.Linarith
import Mathlib.Tactic.Ring

/-!
# Rationing a stock

Claims on a stock are decided one after another. A claim that fits is granted and
its amount is taken from the stock; one that does not fit is turned away and takes
nothing. Since the stock only shrinks, a claim that was turned away would not fit
into what is left at the end either, and among equal claims the number that is
granted does not depend on the order of the decisions.
-/

/-- What is left of `stock₀` after the claims of amounts `amount` in `granted` were
    granted and those in `refused` turned away. -/
structure Rationing {ι : Type} (stock₀ : Int) (amount : ι → Int) (granted refused : Finset ι)
    (stock : Int) : Prop where
  balance : stock = stock₀ - ∑ i ∈ granted, amount i
  nonneg : 0 ≤ stock
  maximal : ∀ i ∈ refused, stock < amount i

namespace Rationing

variable {ι : Type} {stock₀ stock : Int} {amount : ι → Int} {granted refused : Finset ι}

/-- Before the first grant nothing is granted and nothing refused. -/
theorem start (h : 0 ≤ stock₀) : Rationing stock₀ amount ∅ ∅ stock₀ where
  balance := by simp
  nonneg := h
  maximal _ hi := absurd hi (Finset.notMem_empty _)

variable [DecidableEq ι] {i : ι}

/-- Grant a claim that fits. -/
theorem grant (h : Rationing stock₀ amount granted refused stock) (hi : i ∉ granted)
    (hpos : 0 ≤ amount i) (hfits : amount i ≤ stock) :
    Rationing stock₀ amount (insert i granted) refused (stock - amount i) where
  balance := by
    have := h.balance
    rw [Finset.sum_insert hi]
    omega
  nonneg := by omega
  -- who is refused now had asked for more than what was left before
  maximal j hj := by
    have := h.maximal j hj
    omega

/-- Turn away a claim that does not fit. -/
theorem refuse (h : Rationing stock₀ amount granted refused stock) (hshort : stock < amount i) :
    Rationing stock₀ amount granted (insert i refused) stock where
  balance := h.balance
  nonneg := h.nonneg
  maximal j hj := by
    rcases Finset.mem_insert.mp hj with rfl | hj
    · exact hshort
    · exact h.maximal j hj

/-- Of equal claims as many are granted as fit into the stock. -/
theorem card_granted (h : Rationing stock₀ amount granted refused stock)
    (hdisj : Disjoint granted refused) {q : Int} (hq : 0 < q)
    (hamount : ∀ i ∈ granted ∪ refused, amount i = q) :
    (granted.card : Int) = min ((granted ∪ refused).card : Int) (stock₀ / q) := by
  have hsum : ∑ i ∈ granted, amount i = granted.card * q := by
    rw [Finset.sum_congr rfl fun i hi => hamount i (Finset.mem_union_left _ hi), Finset.sum_const,
      nsmul_eq_mul]
  have hbalance := h.balance
  have hnonneg := h.nonneg
  rw [hsum] at hbalance
  have hfits : (granted.card : Int) ≤ stock₀ / q := by
    rw [Int.le_ediv_iff_mul_le hq]
    omega
  have hcard := Finset.card_union_of_disjoint hdisj
  rcases refused.eq_empty_or_nonempty with rfl | ⟨i, hi⟩
  · -- everybody was served
    rw [Finset.union_empty]
    omega
  · -- a claim that was turned away shows that one more would not have fitted
    have hshort := h.maximal i hi
    rw [hamount i (Finset.mem_union_right _ hi)] at hshort
    have hfull : stock₀ / q < (granted.card : Int) + 1 := by
      rw [Int.ediv_lt_iff_lt_mul hq]
      linarith [add_one_mul (granted.card : Int) q]
    have hpos : 0 < refused.card := Finset.card_pos.mpr ⟨i, hi⟩
    omega

end Rationing
