import Mathlib.Data.List.DropRight
import Mathlib.Data.List.Infix

/-!
# Texts and URLs

Texts are lists of characters. `strip` and `partition` are the methods of Python's `str`,
and `urlsplit` is the function of `urllib.parse`, over the check that it makes of a
network location.

What follows `scheme://` is a network location up to the first `/`, `?` or `#`, and a path
up to the first `?` or `#` (`urlsplit_authority`). So a text that is put between the two,
such as a host name, may add to the path (`path_append_iff`).
-/

namespace Text

/-! ## Texts -/

/-- `c.isspace()` -/
def isSpace (c : Char) : Bool :=
  let n := c.toNat
  (9 ≤ n && n ≤ 13) || (28 ≤ n && n ≤ 32) || n = 0x85 || n = 0xA0 || n = 0x1680 ||
    (0x2000 ≤ n && n ≤ 0x200A) || n = 0x2028 || n = 0x2029 || n = 0x202F || n = 0x205F ||
    n = 0x3000

/-- Strings that begin with different characters differ. -/
theorem append_ne_append {s t : String} {c d : Char} (a b : String)
    (hs : s.toList.head? = some c) (ht : t.toList.head? = some d) (hne : c ≠ d) :
    s ++ a ≠ t ++ b := by
  intro h
  have hheads := congrArg (fun s => s.toList.head?) h
  simp only [String.toList_append, List.head?_append, hs, ht, Option.some_or] at hheads
  exact hne (Option.some.inj hheads)

/-- `s.strip()` -/
def strip (s : List Char) : List Char := (s.dropWhile isSpace).rdropWhile isSpace

/-- `strip` leaves nothing of a text of spaces. -/
theorem strip_eq_nil_iff {s : List Char} : strip s = [] ↔ ∀ c ∈ s, isSpace c = true := by
  unfold strip
  rw [List.rdropWhile_eq_nil_iff]
  constructor
  · intro h c hc
    -- `lstrip` has cut off spaces only, and the rest is spaces too
    rw [← List.takeWhile_append_dropWhile (p := isSpace) (l := s), List.mem_append] at hc
    cases hc with
    | inl hc => exact List.mem_takeWhile_imp hc
    | inr hc => exact h c hc
  · intro h c hc
    exact h c ((List.dropWhile_sublist _).subset hc)

/-- A segment has only characters of the text. -/
theorem mem_of_mem_splitOn {sep c : Char} {seg s : List Char} (hseg : seg ∈ s.splitOn sep)
    (hc : c ∈ seg) : c ∈ s := by
  have hs : [sep].intercalate (s.splitOn sep) = s := List.intercalate_splitOn sep
  rw [← hs]
  generalize s.splitOn sep = segs at hseg
  induction segs with
  | nil => simp at hseg
  | cons seg' segs ih =>
    cases segs with
    | nil => simp_all
    | cons seg'' segs =>
      rw [List.intercalate_cons_cons, List.mem_append]
      cases List.mem_cons.mp hseg with
      | inl heq =>
        -- `c` is in the first segment
        exact Or.inl (by simp [← heq, hc])
      | inr hmem =>
        -- or in a later one
        exact Or.inr (ih hmem)

/-- The parts before and after the first `sep`. -/
def partition (sep : Char) (s : List Char) : List Char × List Char :=
  (s.takeWhile (· ≠ sep), (s.dropWhile (· ≠ sep)).tail)

/-- `partition` splits at the first separator. -/
theorem partition_append {sep : Char} {s : List Char} (h : sep ∉ s) (s' : List Char) :
    partition sep (s ++ sep :: s') = (s, s') := by
  have hne : ∀ c ∈ s, decide (c ≠ sep) = true := by
    intro c hc
    simpa using fun heq : c = sep => h (heq ▸ hc)
  rw [partition, List.takeWhile_append_of_pos hne, List.dropWhile_append_of_pos hne]
  simp

/-- Where `s'` starts with `sep`, a prefix with no later `sep` ends within `s`. -/
theorem prefix_append_iff {p s s' : List Char} {sep : Char} (hp : sep ∉ p.tail) (hs : s ≠ [])
    (hs' : s'.head? = some sep) : p <+: s ++ s' ↔ p <+: s := by
  constructor
  · intro h
    rcases List.prefix_or_prefix_of_prefix h (List.prefix_append s s') with hle | ⟨t, rfl⟩
    · exact hle
    · -- a longer prefix would reach over the separator
      have ht := (List.prefix_append_right_inj s).mp h
      cases t with
      | nil => simp
      | cons c t =>
        obtain ⟨u, rfl⟩ := ht
        obtain rfl : c = sep := by simpa using hs'
        rw [List.tail_append_of_ne_nil hs] at hp
        simp at hp
  · intro h
    exact h.trans (List.prefix_append s s')

/-! ## URLs -/

/-- The parts of a URL. -/
structure SplitResult where
  scheme : List Char
  netloc : List Char
  path : List Char
  query : List Char
  fragment : List Char
  deriving DecidableEq

/-- The characters that a scheme may have. -/
def isSchemeChar (c : Char) : Bool := c.isAlphanum || c = '+' || c = '-' || c = '.'

/-- `urlsplit` removes the other characters. -/
def isSafe (c : Char) : Bool := c ≠ '\t' && c ≠ '\r' && c ≠ '\n'

/-- The characters that end a network location. -/
def endsNetloc (c : Char) : Bool := c = '/' || c = '?' || c = '#'

/-- The scheme, if the text before the first colon is one, and the rest. -/
def splitScheme (url : List Char) : List Char × List Char :=
  let (scheme, rest) := partition ':' url
  if ':' ∈ url ∧ scheme.head?.any Char.isAlpha = true ∧ scheme.all isSchemeChar = true then
    (scheme.map Char.toLower, rest)
  else ([], url)

/-- The authority after `//`, and the rest. -/
def splitNetloc : List Char → List Char × List Char
  | '/' :: '/' :: url => (url.takeWhile (!endsNetloc ·), url.dropWhile (!endsNetloc ·))
  | url => ([], url)

/-- `urlsplit(url)`, which raises `ValueError` (`none`) for the network locations that do
    not pass `check`. -/
def urlsplit (check : List Char → Bool) (url : List Char) : Option SplitResult :=
  let url := (url.dropWhile (·.toNat ≤ 32)).filter isSafe
  let (scheme, url) := splitScheme url
  let (netloc, url) := splitNetloc url
  let (url, fragment) := partition '#' url
  let (path, query) := partition '?' url
  if check netloc then some { scheme, netloc, path, query, fragment } else none

/-! ### What follows `scheme://` -/

/-- The network location in what follows `scheme://`. -/
def netlocOf (s : List Char) : List Char := (s.filter isSafe).takeWhile (!endsNetloc ·)

/-- What follows the authority, without the characters that `urlsplit` removes. -/
def afterNetloc (s : List Char) : List Char := (s.filter isSafe).dropWhile (!endsNetloc ·)

/-- The path in what follows `scheme://`. -/
def pathOf (s : List Char) : List Char :=
  (afterNetloc s).takeWhile fun c => c ≠ '?' && c ≠ '#'

/-- No letter is a space or a control character. -/
theorem lt_toNat_of_isAlpha {c : Char} (h : c.isAlpha = true) : 32 < c.toNat := by
  have hlow : ∀ n : Fin 33, (Char.ofNat n).isAlpha = false := by decide
  by_contra hle
  have hc := hlow ⟨c.toNat, by omega⟩
  rw [Char.ofNat_toNat, h] at hc
  cases hc

/-- `urlsplit` removes no character of a scheme. -/
theorem isSafe_of_isSchemeChar {c : Char} (h : isSchemeChar c = true) : isSafe c = true := by
  have htab : c ≠ '\t' := by
    rintro rfl
    exact absurd h (by decide)
  have hreturn : c ≠ '\r' := by
    rintro rfl
    exact absurd h (by decide)
  have hnewline : c ≠ '\n' := by
    rintro rfl
    exact absurd h (by decide)
  simp only [isSafe, htab, hreturn, hnewline, ne_eq, not_false_eq_true, decide_true, Bool.and_self]

/-- What is before the query and the fragment. -/
theorem partition_fragment (s : List Char) :
    (partition '?' (partition '#' s).1).1 = s.takeWhile fun c => c ≠ '?' && c ≠ '#' := by
  rw [partition, partition, List.takeWhile_takeWhile]
  simp

/-- A URL with scheme and authority has the path that follows its authority, if the
    authority passes `check`. -/
theorem urlsplit_authority (check : List Char → Bool) {scheme : List Char}
    (hhead : scheme.head?.any Char.isAlpha = true) (hscheme : scheme.all isSchemeChar = true)
    (s : List Char) :
    (urlsplit check (scheme ++ ':' :: '/' :: '/' :: s)).map (·.path) =
      if check (netlocOf s) then some (pathOf s) else none := by
  have hne : ∀ c ∈ scheme, isSchemeChar c = true := List.all_eq_true.mp hscheme
  have hcolon : ':' ∉ scheme := fun hmem => absurd (hne _ hmem) (by decide)
  -- `urlsplit` strips leading blanks, drops unsafe characters and splits off
  -- the scheme: none of this touches the scheme, or what `s` keeps
  have hstart : (scheme ++ ':' :: '/' :: '/' :: s).dropWhile (·.toNat ≤ 32) =
      scheme ++ ':' :: '/' :: '/' :: s := by
    cases scheme with
    | nil => simp at hhead
    | cons c cs =>
      have hc : 32 < c.toNat := lt_toNat_of_isAlpha (by simpa using hhead)
      simp [hc]
  have hsafe : (scheme ++ ':' :: '/' :: '/' :: s).filter isSafe =
      scheme ++ ':' :: '/' :: '/' :: s.filter isSafe := by
    have hscheme' : scheme.filter isSafe = scheme :=
      List.filter_eq_self.mpr fun c hc => isSafe_of_isSchemeChar (hne c hc)
    rw [List.filter_append, hscheme']
    rfl
  have hsplit : splitScheme (scheme ++ ':' :: '/' :: '/' :: s.filter isSafe) =
      (scheme.map Char.toLower, '/' :: '/' :: s.filter isSafe) := by
    unfold splitScheme
    rw [partition_append hcolon]
    simp [hhead, hscheme]
  by_cases hcheck : check (netlocOf s) = true
  · rw [if_pos hcheck]
    unfold netlocOf at hcheck
    simp [urlsplit, hstart, hsafe, hsplit, splitNetloc, partition_fragment, pathOf, afterNetloc,
      hcheck]
  · rw [if_neg hcheck]
    unfold netlocOf at hcheck
    simp [urlsplit, hstart, hsafe, hsplit, splitNetloc, hcheck]

/-! ### A path behind a host name -/

/-- A `/` ends the network location. -/
theorem netlocOf_append (s s' : List Char) : netlocOf (s ++ '/' :: s') = netlocOf s := by
  have hslash : ('/' :: s').filter isSafe = '/' :: s'.filter isSafe := rfl
  have hend : endsNetloc '/' = true := rfl
  unfold netlocOf
  rw [List.filter_append, hslash, List.takeWhile_append]
  split
  · rename_i hall
    rw [(List.takeWhile_prefix _).eq_of_length hall]
    simp [hend]
  · rfl

/-- Behind a plain host name comes the path. -/
theorem pathOf_append_of_plain {s : List Char} (hs : afterNetloc s = []) (s' : List Char) :
    pathOf (s ++ '/' :: s') = '/' :: (s'.filter isSafe).takeWhile fun c => c ≠ '?' && c ≠ '#' := by
  have hslash : ('/' :: s').filter isSafe = '/' :: s'.filter isSafe := rfl
  have hend : endsNetloc '/' = true := rfl
  unfold afterNetloc at hs
  unfold pathOf afterNetloc
  rw [List.filter_append, hslash, List.dropWhile_append, if_pos (by simp [hs])]
  simp [hend]

/-- What a host name adds to the path decides the first segment. -/
theorem path_append_iff {p s : List Char} (hp : '/' ∉ p.tail) (hs : afterNetloc s ≠ [])
    (s' : List Char) : p <+: pathOf (s ++ '/' :: s') ↔ p <+: pathOf s := by
  have hslash : ('/' :: s').filter isSafe = '/' :: s'.filter isSafe := rfl
  unfold afterNetloc at hs
  unfold pathOf afterNetloc
  rw [List.filter_append, hslash, List.dropWhile_append, if_neg (by simpa using hs),
    List.takeWhile_append]
  split
  · rename_i hall
    -- the whole text is path, so the slash goes on with it
    rw [(List.takeWhile_prefix _).eq_of_length hall]
    exact prefix_append_iff hp hs rfl
  · exact Iff.rfl

end Text
