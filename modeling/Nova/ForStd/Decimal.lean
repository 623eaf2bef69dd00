import Mathlib.Algebra.Order.Field.Rat
import Mathlib.Data.Nat.Log
import Mathlib.Tactic.NormNum

/-!
# Decimal arithmetic

Finite numbers of the General Decimal Arithmetic Specification, as Python's `decimal`
computes with them: a coefficient and an exponent, a context precision `prec` to which
results are rounded half to even, and `quantize`, which fails when its result does not
fit the precision. An operation whose exact result fits is exact (`mul_eq_of_lt`,
`quantize_same`).
-/

/-- The number `coeff * 10 ^ exp`. -/
structure Decimal where
  coeff : Int
  exp : Int
  deriving DecidableEq, Repr

namespace Decimal

/-- The number that `a` stands for. -/
def value (a : Decimal) : ℚ := a.coeff * 10 ^ a.exp

/-- `n / 10 ^ k`, rounded to the nearest integer and to the even one of two. -/
def roundHalfEven (n : Int) (k : Nat) : Int :=
  let q := n.natAbs / 10 ^ k
  let r := n.natAbs % 10 ^ k
  let up := 10 ^ k < 2 * r ∨ (2 * r = 10 ^ k ∧ q % 2 = 1)
  n.sign * (if up then q + 1 else q : Nat)

/-- Round to at most `prec` digits. -/
def fix (prec : Nat) (a : Decimal) : Decimal :=
  if a.coeff.natAbs < 10 ^ prec then a
  else
    let k := Nat.log 10 a.coeff.natAbs + 1 - prec
    let c := roundHalfEven a.coeff k
    -- rounding 99…9 up gives one digit more, which is a zero
    if c.natAbs < 10 ^ prec then ⟨c, a.exp + k⟩ else ⟨c / 10, a.exp + k + 1⟩

/-- The product, rounded to `prec` digits. -/
def mul (prec : Nat) (a b : Decimal) : Decimal := fix prec ⟨a.coeff * b.coeff, a.exp + b.exp⟩

/-- The integer `n`. -/
def ofInt (n : Int) : Decimal := ⟨n, 0⟩

/-- What the operations of the `decimal` module can raise. -/
inductive Signal where
  | invalidOperation
  deriving DecidableEq, Repr

/-- The number rounded to the exponent `exp`. -/
def quantize (prec : Nat) (a : Decimal) (exp : Int) : Except Signal Decimal :=
  let c := if exp ≤ a.exp then a.coeff * 10 ^ (a.exp - exp).toNat
    else roundHalfEven a.coeff (exp - a.exp).toNat
  if c.natAbs < 10 ^ prec then .ok ⟨c, exp⟩ else .error .invalidOperation

example : quantize 3 (mul 3 ⟨125, -2⟩ ⟨9, 0⟩) (-1) = .ok ⟨112, -1⟩ := by decide

variable {prec : Nat} {a b : Decimal}

/-- A product that fits is not rounded. -/
theorem mul_eq_of_lt (h : (a.coeff * b.coeff).natAbs < 10 ^ prec) :
    mul prec a b = ⟨a.coeff * b.coeff, a.exp + b.exp⟩ := by
  simp only [mul, fix, h, ↓reduceIte]

/-- A number that has the exponent already is only checked against the precision. -/
theorem quantize_same (c exp : Int) : quantize prec ⟨c, exp⟩ exp =
    if c.natAbs < 10 ^ prec then .ok ⟨c, exp⟩ else .error .invalidOperation := by
  simp only [quantize, le_refl, ↓reduceIte, sub_self, Int.toNat_zero, pow_zero, mul_one]

end Decimal
