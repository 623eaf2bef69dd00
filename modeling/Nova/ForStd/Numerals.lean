import Mathlib.Data.List.DropRight

/-!
# Numbers in texts

Texts are lists of characters. `str` and `int?` are Python's `str(n)` and `int(b)` for a whole
number and for the bytes of an ASCII text: blanks around a number are ignored, and a sign and
single underscores between digits are allowed. `hex` is `'%0*x'`.

What `str` writes `int?` reads back (`int?_str`), and two numbers never have one hexadecimal
text (`hex_inj`).
-/

namespace Text

/-! ## Decimal numbers -/

/-- `str(n)` -/
def str : Int → List Char
  | .ofNat n => Nat.toDigits 10 n
  | .negSucc n => '-' :: Nat.toDigits 10 (n + 1)

/-- A blank of the C locale. -/
def isBlank (c : Char) : Bool := c = ' ' || (9 ≤ c.toNat && c.toNat ≤ 13)

/-- The rest of a number whose digits so far are those of `n`. -/
def digitsFrom (n : Nat) : List Char → Option Nat
  | [] => some n
  | '_' :: c :: s => if c.isDigit then digitsFrom (10 * n + (c.toNat - '0'.toNat)) s else none
  | c :: s => if c.isDigit then digitsFrom (10 * n + (c.toNat - '0'.toNat)) s else none

/-- A number without a sign: it begins with a digit. -/
def digits? : List Char → Option Nat
  | [] => none
  | c :: s => if c.isDigit then digitsFrom (c.toNat - '0'.toNat) s else none

/-- `int(s)`, or `none` where it raises a `ValueError`. -/
def int? (s : List Char) : Option Int :=
  match (s.dropWhile isBlank).rdropWhile isBlank with
  | '-' :: ds => (digits? ds).map fun n => -(n : Int)
  | '+' :: ds => (digits? ds).map (↑)
  | ds => (digits? ds).map (↑)

/-- A digit is no blank. -/
theorem not_isBlank_of_isDigit {c : Char} (h : c.isDigit = true) : isBlank c = false := by
  simp only [Char.isDigit, Bool.and_eq_true, decide_eq_true_eq] at h
  simp only [isBlank, Bool.or_eq_false_iff, decide_eq_false_iff_not, Bool.and_eq_false_iff]
  have h48 : 48 ≤ c.toNat := h.1
  refine ⟨?_, Or.inr (by omega)⟩
  rintro rfl
  simp at h48

/-- Text without a blank at its ends is kept. -/
theorem trim_eq {s : List Char} (h : ∀ c ∈ s, isBlank c = false) :
    (s.dropWhile isBlank).rdropWhile isBlank = s := by
  have hdrop : s.dropWhile isBlank = s := by
    cases s with
    | nil => rfl
    | cons c s => simp [h c List.mem_cons_self]
  rw [hdrop, List.rdropWhile_eq_self_iff]
  intro hs
  rw [h _ (List.getLast_mem hs)]
  exact Bool.false_ne_true

/-- Reading digits is `Nat.ofDigitChars`. -/
theorem digitsFrom_eq {ds : List Char} (h : ∀ c ∈ ds, c.isDigit = true) (n : Nat) :
    digitsFrom n ds = some (Nat.ofDigitChars 10 ds n) := by
  induction ds generalizing n with
  | nil => rfl
  | cons c ds ih =>
    have hc := h c List.mem_cons_self
    -- a digit is no separator
    have hne : c ≠ '_' := by
      rintro rfl
      exact absurd hc (by decide)
    have hrest := ih (fun c' hc' => h c' (List.mem_cons_of_mem c hc'))
    rw [Nat.ofDigitChars_cons, ← hrest, digitsFrom.eq_3 _ _ _ (by simp [hne]), if_pos hc]

/-- A number is read back from its decimal digits. -/
theorem digits?_toDigits (n : Nat) : digits? (Nat.toDigits 10 n) = some n := by
  have hdigit : ∀ c ∈ Nat.toDigits 10 n, c.isDigit = true :=
    fun c => Nat.isDigit_of_mem_toDigits (by decide) (by decide)
  have hvalue : Nat.ofDigitChars 10 (Nat.toDigits 10 n) 0 = n := Nat.ofDigitChars_ten_toDigits
  cases hds : Nat.toDigits 10 n with
  | nil => exact absurd hds Nat.toDigits_ne_nil
  | cons c ds =>
    rw [hds] at hdigit hvalue
    rw [Nat.ofDigitChars_cons, Nat.mul_zero, Nat.zero_add] at hvalue
    rw [digits?, if_pos (hdigit c List.mem_cons_self),
      digitsFrom_eq (fun c' hc' => hdigit c' (List.mem_cons_of_mem c hc')), hvalue]

/-- What `str` writes is read back. -/
theorem int?_str (n : Int) : int? (str n) = some n := by
  have hdigit : ∀ m, ∀ c ∈ Nat.toDigits 10 m, c.isDigit = true :=
    fun m c => Nat.isDigit_of_mem_toDigits (by decide) (by decide)
  cases n with
  | ofNat m =>
    have htrim := trim_eq fun c hc => not_isBlank_of_isDigit (hdigit m c hc)
    have hvalue := digits?_toDigits m
    unfold int? str
    rw [htrim]
    -- a digit is no sign
    cases hds : Nat.toDigits 10 m with
    | nil => exact absurd hds Nat.toDigits_ne_nil
    | cons c ds =>
      have hc := hdigit m c (by simp [hds])
      rw [hds] at hvalue
      split
      · rename_i heq
        obtain ⟨rfl, _⟩ := List.cons.inj heq
        exact absurd hc (by decide)
      · rename_i heq
        obtain ⟨rfl, _⟩ := List.cons.inj heq
        exact absurd hc (by decide)
      · simp [hvalue]
  | negSucc m =>
    have hblank : ∀ c ∈ '-' :: Nat.toDigits 10 (m + 1), isBlank c = false := by
      intro c hc
      cases List.mem_cons.mp hc with
      | inl heq => subst heq; decide
      | inr hmem => exact not_isBlank_of_isDigit (hdigit _ c hmem)
    unfold int? str
    rw [trim_eq hblank]
    simp only [digits?_toDigits]
    rfl

/-! ## Hexadecimal numbers -/

/-- `'%0*x' % (width, n)` -/
def hex (width n : Nat) : List Char := (Nat.toDigits 16 n).leftpad width '0'

/-- The value of a hexadecimal digit. -/
def hexDigit (c : Char) : Nat := if c.isDigit then c.toNat - 48 else c.toNat - 87

/-- The number of a hexadecimal text, of which `n` has been read. -/
def hexFrom (n : Nat) (s : List Char) : Nat := s.foldl (fun n c => 16 * n + hexDigit c) n

/-- The digit of `d` is read as `d`. -/
theorem hexDigit_digitChar {d : Nat} (h : d < 16) : hexDigit d.digitChar = d := by
  have hall : ∀ d : Fin 16, hexDigit (Nat.digitChar d) = d := by decide
  exact hall ⟨d, h⟩

/-- A number is read back from its hexadecimal digits. -/
theorem hexFrom_toDigits (n : Nat) : hexFrom 0 (Nat.toDigits 16 n) = n := by
  induction n using Nat.base_induction 16 (by decide) with
  | single m hm =>
    rw [Nat.toDigits_of_lt_base hm]
    simp [hexFrom, hexDigit_digitChar hm]
  | digit m k hk hm ih =>
    rw [← Nat.toDigits_append_toDigits (by decide) hm hk, Nat.toDigits_of_lt_base hk]
    unfold hexFrom at ih ⊢
    rw [List.foldl_append, ih]
    simp [hexDigit_digitChar hk]

/-- Leading zeros do not change what is read. -/
theorem hexFrom_hex (width n : Nat) : hexFrom 0 (hex width n) = n := by
  have hzeros : ∀ k, hexFrom 0 (List.replicate k '0') = 0 := by
    intro k
    induction k with
    | zero => rfl
    | succ k ih => exact ih
  unfold hex List.leftpad
  have hvalue := hexFrom_toDigits n
  unfold hexFrom at hzeros hvalue ⊢
  rw [List.foldl_append, hzeros, hvalue]

/-- A padded number has at least `width` digits. -/
theorem le_length_hex (width n : Nat) : width ≤ (hex width n).length := by
  unfold hex List.leftpad
  rw [List.length_append, List.length_replicate]
  omega

/-- Different numbers have different texts of one width. -/
theorem hex_inj (width : Nat) {n m : Nat} : hex width n = hex width m ↔ n = m := by
  constructor
  · intro h
    rw [← hexFrom_hex width n, h, hexFrom_hex]
  · rintro rfl
    rfl

end Text
