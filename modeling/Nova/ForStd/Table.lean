import Mathlib.Data.List.Nodup
import Mathlib.Algebra.BigOperators.Group.List.Basic
import Mathlib.Algebra.Order.BigOperators.Group.List
import Mathlib.Tactic.Ring

/-!
# Keyed tables

A finite table of rows with a primary key. The `nodup` field carries the key
constraint, so two rows with one key cannot be built; `rows` keeps the order in
which keys were first inserted. `upsert` is the only way to change a table and
`sumBy` the only aggregate: a sum changes by the new row's share minus the
share of the row it replaces.
-/

/-- A list of rows in which no two rows have the same key. -/
structure Table {α κ : Type} (key : α → κ) where
  rows : List α
  nodup : (rows.map key).Nodup

namespace Table

variable {α κ : Type} {key : α → κ}

/-- The table with no rows. -/
def empty : Table key := ⟨[], by simp⟩

/-- Total of `f` over all rows. -/
def sumBy (t : Table key) (f : α → Int) : Int := (t.rows.map f).sum

/-- The sum over no rows is 0. -/
@[simp] theorem sumBy_empty (f : α → Int) : (empty : Table key).sumBy f = 0 := rfl

/-- A table is its rows. -/
theorem ext {t t' : Table key} (h : t.rows = t'.rows) : t = t' := by
  cases t
  cases t'
  cases h
  rfl

/-- The rows that satisfy `p`. -/
def filter (t : Table key) (p : α → Bool) : Table key :=
  ⟨t.rows.filter p, t.nodup.sublist (List.filter_sublist.map key)⟩

/-- `filter` is the filter of the rows. -/
@[simp] theorem rows_filter (t : Table key) (p : α → Bool) :
    (t.filter p).rows = t.rows.filter p := rfl

/-- The images of all rows, under a map that keeps the keys. -/
def map {β : Type} {key' : β → κ} (t : Table key) (f : α → β) (hf : ∀ a, key' (f a) = key a) :
    Table key' :=
  ⟨t.rows.map f, by
    rw [List.map_map, show key' ∘ f = key from funext hf]
    exact t.nodup⟩

/-- `map` is the map of the rows. -/
@[simp] theorem rows_map {β : Type} {key' : β → κ} (t : Table key) (f : α → β)
    (hf : ∀ a, key' (f a) = key a) : (t.map f hf).rows = t.rows.map f := rfl

variable [DecidableEq κ]

/-- The row with key `k`. -/
def find? (t : Table key) (k : κ) : Option α :=
  t.rows.find? fun r => key r = k

/-- Replacing a row by one of the same key keeps the list of keys. -/
private theorem map_replace_key (rows : List α) (r : α) :
    (rows.map fun r' => if key r' = key r then r else r').map key = rows.map key := by
  rw [List.map_map]
  refine List.map_congr_left fun r' _ => ?_
  simp only [Function.comp_apply]
  split <;> simp_all

/-- Replace the row with the key of `r`, or append `r` if there is none. -/
def upsert (t : Table key) (r : α) : Table key :=
  if h : key r ∈ t.rows.map key then
    ⟨t.rows.map fun r' => if key r' = key r then r else r', by
      rw [map_replace_key]; exact t.nodup⟩
  else
    ⟨t.rows ++ [r], by
      rw [List.map_append, List.nodup_append]
      refine ⟨t.nodup, by simp, ?_⟩
      rintro k hk _ hr rfl
      simp only [List.map_cons, List.map_nil, List.mem_singleton] at hr
      exact h (hr ▸ hk)⟩

/-! ## Lookup -/

/-- Nothing is found in the table without rows. -/
@[simp] theorem find?_empty (k : κ) : (empty : Table key).find? k = none := rfl

/-- What is found is the row of that key. -/
theorem find?_eq_some_iff {t : Table key} {k : κ} {r : α} :
    t.find? k = some r ↔ r ∈ t.rows ∧ key r = k := by
  constructor
  · intro h
    exact ⟨List.mem_of_find?_eq_some h, by simpa using List.find?_some h⟩
  · rintro ⟨hmem, rfl⟩
    cases hf : t.find? (key r) with
    | none =>
      have hnone := List.find?_eq_none.mp hf r hmem
      simp at hnone
    | some r' =>
      -- two rows with one key are the same row
      have hmem' := List.mem_of_find?_eq_some hf
      have hkey' : key r' = key r := by simpa using List.find?_some hf
      rw [List.inj_on_of_nodup_map t.nodup hmem' hmem hkey']

/-- Nothing is found when no row has the key. -/
theorem find?_eq_none_iff {t : Table key} {k : κ} :
    t.find? k = none ↔ ∀ r ∈ t.rows, key r ≠ k := by
  simp [find?, List.find?_eq_none]

/-- The row found under a key has that key. -/
theorem key_of_find? {t : Table key} {k : κ} {r : α} (h : t.find? k = some r) : key r = k :=
  (find?_eq_some_iff.mp h).2

/-- The row found is a row of the table. -/
theorem mem_of_find? {t : Table key} {k : κ} {r : α} (h : t.find? k = some r) : r ∈ t.rows :=
  (find?_eq_some_iff.mp h).1

/-- A row of the table is found under its key. -/
theorem find?_of_mem {t : Table key} {r : α} (h : r ∈ t.rows) : t.find? (key r) = some r :=
  find?_eq_some_iff.mpr ⟨h, rfl⟩

/-- At most one row has a given key. -/
theorem filter_key (t : Table key) (k : κ) :
    t.rows.filter (fun r => key r = k) = (t.find? k).toList := by
  -- the keys have no duplicates, so a key is counted at most once
  have hlen : (t.rows.filter fun r => key r = k).length ≤ 1 := by
    rw [← List.countP_eq_length_filter]
    have hcount := List.nodup_iff_count_le_one.mp t.nodup k
    rw [List.count, List.countP_map] at hcount
    refine le_trans (List.countP_mono_left fun r _ h => ?_) hcount
    simpa using h
  cases hf : t.find? k with
  | none => simpa using find?_eq_none_iff.mp hf
  | some r =>
    obtain ⟨hmem, hkey⟩ := find?_eq_some_iff.mp hf
    have hin : r ∈ t.rows.filter fun r => key r = k := by simp [hmem, hkey]
    obtain ⟨r', hr'⟩ := List.length_eq_one_iff.mp
      (le_antisymm hlen (List.length_pos_of_mem hin))
    rw [hr', List.mem_singleton] at hin
    rw [hr', hin]
    rfl

/-- A key is in use when something is found under it. -/
theorem mem_keys_iff {t : Table key} {k : κ} : k ∈ t.rows.map key ↔ (t.find? k).isSome := by
  cases hf : t.find? k with
  | none => simpa using find?_eq_none_iff.mp hf
  | some r =>
    obtain ⟨hmem, hkey⟩ := find?_eq_some_iff.mp hf
    simpa using ⟨r, hmem, hkey⟩

/-! ## Updates -/

/-- A row with a new key is appended. -/
theorem rows_upsert_new {t : Table key} {r : α} (h : t.find? (key r) = none) :
    (t.upsert r).rows = t.rows ++ [r] := by
  have hk : key r ∉ t.rows.map key := by rw [mem_keys_iff, h]; simp
  simp only [upsert, hk, ↓reduceDIte]

/-- A row with a key in use takes the place of the row that had it. -/
private theorem rows_upsert_old {t : Table key} {r : α} (h : key r ∈ t.rows.map key) :
    (t.upsert r).rows = t.rows.map fun r' => if key r' = key r then r else r' := by
  simp only [upsert, h, ↓reduceDIte]

/-- The rows after an `upsert` are the row written and the rows of other keys. -/
theorem mem_upsert {t : Table key} {r r' : α} :
    r' ∈ (t.upsert r).rows ↔ r' = r ∨ (r' ∈ t.rows ∧ key r' ≠ key r) := by
  by_cases h : key r ∈ t.rows.map key
  · -- an old key: its row is replaced
    rw [rows_upsert_old h, List.mem_map]
    constructor
    · rintro ⟨a, ha, rfl⟩
      split
      · exact Or.inl rfl
      · rename_i hne; exact Or.inr ⟨ha, hne⟩
    · rintro (rfl | ⟨hmem, hne⟩)
      · obtain ⟨a, ha, hka⟩ := List.mem_map.mp h
        exact ⟨a, ha, by simp [hka]⟩
      · exact ⟨r', hmem, by simp [hne]⟩
  · have hnone : t.find? (key r) = none := by
      rw [mem_keys_iff] at h; simpa using h
    -- a new key: the row is appended
    rw [rows_upsert_new hnone, List.mem_append, List.mem_singleton]
    constructor
    · rintro (hmem | rfl)
      · exact Or.inr ⟨hmem, find?_eq_none_iff.mp hnone r' hmem⟩
      · exact Or.inl rfl
    · rintro (rfl | ⟨hmem, _⟩)
      · exact Or.inr rfl
      · exact Or.inl hmem

/-- `upsert` changes what is found under one key. -/
theorem find?_upsert (t : Table key) (r : α) (k : κ) :
    (t.upsert r).find? k = if k = key r then some r else t.find? k := by
  split
  · rename_i hk
    exact find?_eq_some_iff.mpr ⟨mem_upsert.mpr (Or.inl rfl), hk.symm⟩
  · rename_i hk
    ext r'
    rw [find?_eq_some_iff, find?_eq_some_iff, mem_upsert]
    constructor
    · rintro ⟨rfl | ⟨hmem, _⟩, hkey⟩
      · -- the row just written has another key
        exact absurd hkey.symm hk
      · exact ⟨hmem, hkey⟩
    · rintro ⟨hmem, hkey⟩
      -- and an untouched row is kept
      exact ⟨Or.inr ⟨hmem, fun he => hk (hkey ▸ he)⟩, hkey⟩

/-- The row written is found. -/
@[simp] theorem find?_upsert_self (t : Table key) (r : α) :
    (t.upsert r).find? (key r) = some r := by
  simp [find?_upsert]

/-- What is found under other keys stays. -/
theorem find?_upsert_ne {t : Table key} {r : α} {k : κ} (h : k ≠ key r) :
    (t.upsert r).find? k = t.find? k := by
  simp [find?_upsert, h]

/-- No key ever leaves a table. -/
theorem isSome_find?_upsert {t : Table key} {r : α} {k : κ} (h : (t.find? k).isSome) :
    ((t.upsert r).find? k).isSome := by
  rw [find?_upsert]; split <;> simp_all

/-- Every row has a successor, if the row that is replaced has one. -/
theorem exists_find?_upsert {R : α → α → Prop} (hrefl : ∀ a, R a a) {t : Table key} {r : α}
    (h : ∀ a, t.find? (key r) = some a → R a r) {k : κ} {a : α} (ha : t.find? k = some a) :
    ∃ b, (t.upsert r).find? k = some b ∧ R a b := by
  by_cases hk : k = key r
  · subst hk
    exact ⟨r, find?_upsert_self t r, h a ha⟩
  · exact ⟨a, (find?_upsert_ne hk).trans ha, hrefl a⟩

/-! ## Parts -/

/-- A filter finds what the table finds and the filter keeps. -/
theorem find?_filter {t : Table key} {p : α → Bool} {k : κ} {a : α} :
    (t.filter p).find? k = some a ↔ t.find? k = some a ∧ p a = true := by
  rw [find?_eq_some_iff, find?_eq_some_iff, rows_filter, List.mem_filter, and_right_comm]

/-- A filter finds nothing new. -/
theorem find?_filter_eq_none {t : Table key} {p : α → Bool} {k : κ} (h : t.find? k = none) :
    (t.filter p).find? k = none := by
  rw [find?_eq_none_iff] at h ⊢
  exact fun r hr => h r (List.mem_filter.mp hr).1

/-- An update within a part. -/
theorem filter_upsert_in {t : Table key} {p : α → Bool} {r : α} (hr : p r = true)
    (hold : ∀ a, t.find? (key r) = some a → p a = true) :
    (t.upsert r).filter p = (t.filter p).upsert r := by
  refine ext ?_
  cases hf : t.find? (key r) with
  | none =>
    -- a new row is appended in both
    rw [rows_upsert_new (find?_filter_eq_none hf), rows_filter, rows_upsert_new hf,
      List.filter_append]
    simp [hr]
  | some a =>
    -- an old row is replaced in both, since it satisfied `p`
    have hin : key r ∈ t.rows.map key := mem_keys_iff.mpr (by simp [hf])
    have hin' : key r ∈ (t.filter p).rows.map key :=
      mem_keys_iff.mpr (by rw [find?_filter.mpr ⟨hf, hold a hf⟩]; rfl)
    rw [rows_upsert_old hin', rows_filter, rows_upsert_old hin, rows_filter, List.filter_map]
    congr 1
    refine List.filter_congr fun b hb => ?_
    simp only [Function.comp_apply]
    split
    · rename_i hkey
      rw [hr, hold b (find?_eq_some_iff.mpr ⟨hb, hkey⟩)]
    · rfl

/-- An update outside. -/
theorem filter_upsert_out {t : Table key} {p : α → Bool} {r : α} (hr : p r = false)
    (hold : ∀ a, t.find? (key r) = some a → p a = false) :
    (t.upsert r).filter p = t.filter p := by
  refine ext ?_
  cases hf : t.find? (key r) with
  | none =>
    rw [rows_filter, rows_upsert_new hf, List.filter_append]
    simp [hr]
  | some a =>
    have hin : key r ∈ t.rows.map key := mem_keys_iff.mpr (by simp [hf])
    rw [rows_filter, rows_upsert_old hin, rows_filter, List.filter_map]
    -- what is replaced was outside, and what is put there is outside
    have hsame : ∀ b ∈ t.rows, (p ∘ fun r' => if key r' = key r then r else r') b = p b := by
      intro b hb
      simp only [Function.comp_apply]
      split
      · rename_i hkey
        rw [hr, hold b (find?_eq_some_iff.mpr ⟨hb, hkey⟩)]
      · rfl
    rw [List.filter_congr hsame]
    conv_rhs => rw [← List.map_id (t.rows.filter p)]
    refine List.map_congr_left fun b hb => ?_
    obtain ⟨hmem, hp⟩ := List.mem_filter.mp hb
    rw [if_neg]
    · rfl
    · intro hkey
      rw [hold b (find?_eq_some_iff.mpr ⟨hmem, hkey⟩)] at hp
      cases hp

/-- Drop the row with key `k`. -/
def erase (t : Table key) (k : κ) : Table key := t.filter fun r => key r ≠ k

/-- `erase` changes what is found under one key. -/
theorem find?_erase (t : Table key) (k k' : κ) :
    (t.erase k).find? k' = if k' = k then none else t.find? k' := by
  ext r
  rw [erase, find?_filter]
  split
  · rename_i hk
    subst hk
    constructor
    · rintro ⟨hf, hne⟩
      -- the row found would have the erased key
      simp [key_of_find? hf] at hne
    · intro h
      cases h
  · rename_i hk
    constructor
    · exact fun h => h.1
    · intro hf
      exact ⟨hf, by simpa [key_of_find? hf] using hk⟩

/-! ## Tables of images -/

section

variable {β : Type} {key' : β → κ} {f : α → β} (hf : ∀ a, key' (f a) = key a)

/-- A map of the rows that keeps the keys maps what is found. -/
theorem find?_map (t : Table key) (k : κ) : (t.map f hf).find? k = (t.find? k).map f := by
  have hkey : (fun b => decide (key' b = k)) ∘ f = fun a => decide (key a = k) := by
    funext a
    simp [hf a]
  rw [find?, map, List.find?_map, hkey]
  rfl

/-- Maps commute with updates. -/
theorem map_upsert (t : Table key) (r : α) : (t.upsert r).map f hf = (t.map f hf).upsert (f r) := by
  refine ext ?_
  by_cases h : key r ∈ t.rows.map key
  · -- the key is old on both sides
    have h' : key' (f r) ∈ (t.map f hf).rows.map key' := by
      obtain ⟨a, ha, hkey⟩ := List.mem_map.mp h
      refine List.mem_map.mpr ⟨f a, List.mem_map.mpr ⟨a, ha, rfl⟩, ?_⟩
      rw [hf, hf, hkey]
    rw [rows_upsert_old h', rows_map, rows_upsert_old h, rows_map, List.map_map, List.map_map]
    refine List.map_congr_left fun a _ => ?_
    simp only [Function.comp_apply, hf]
    split <;> rfl
  · -- or new on both sides
    have hnone : t.find? (key r) = none := by
      rw [mem_keys_iff] at h
      simpa using h
    have hnone' : (t.map f hf).find? (key' (f r)) = none := by
      rw [find?_map, hf, hnone]
      rfl
    rw [rows_upsert_new hnone', rows_map, rows_upsert_new hnone, rows_map, List.map_append]
    rfl

end

/-! ## Sums -/

/-- Replacing one row of a key changes a sum by the difference of the two. -/
private theorem sum_replace (f : α → Int) (rows : List α) (r r₀ : α)
    (hnodup : (rows.map key).Nodup) (hmem : r₀ ∈ rows) (hkey : key r₀ = key r) :
    ((rows.map fun r' => if key r' = key r then r else r').map f).sum =
      (rows.map f).sum + f r - f r₀ := by
  induction rows with
  | nil => simp at hmem
  | cons a rest ih =>
    simp only [List.map_cons, List.nodup_cons, List.sum_cons] at hnodup ⊢
    by_cases ha : key a = key r
    · -- the keys of `rest` differ from that of `a`, so nothing else is replaced
      have hrest : (rest.map fun r' => if key r' = key r then r else r') = rest := by
        conv => rhs; rw [← List.map_id rest]
        refine List.map_congr_left fun b hb => ?_
        have hne : key b ≠ key r := fun he =>
          hnodup.1 (List.mem_map.mpr ⟨b, hb, he.trans ha.symm⟩)
        simp [hne]
      -- the replaced row is the head, for keys occur once
      have hr₀ : r₀ = a := by
        rcases List.mem_cons.mp hmem with h | h
        · exact h
        · exact absurd (List.mem_map.mpr ⟨r₀, h, hkey.trans ha.symm⟩) hnodup.1
      rw [hrest, if_pos ha, hr₀]; ring
    · -- the replaced row is further down
      have hr₀ : r₀ ∈ rest := by
        rcases List.mem_cons.mp hmem with h | h
        · exact absurd (h ▸ hkey) ha
        · exact h
      rw [if_neg ha, ih hnodup.2 hr₀]; ring

omit [DecidableEq κ] in
/-- A sum over rows of which each is matched by a row with the same key and at least its
    share, among rows that add nothing negative. -/
theorem sumBy_le {f g : α → Int} {t t' : Table key} (hpos : ∀ b ∈ t'.rows, 0 ≤ g b)
    (h : ∀ a ∈ t.rows, ∃ b ∈ t'.rows, key b = key a ∧ f a ≤ g b) : t.sumBy f ≤ t'.sumBy g := by
  have hlists : ∀ rows rows' : List α, (rows.map key).Nodup → (∀ b ∈ rows', 0 ≤ g b) →
      (∀ a ∈ rows, ∃ b ∈ rows', key b = key a ∧ f a ≤ g b) →
      (rows.map f).sum ≤ (rows'.map g).sum := by
    intro rows
    induction rows with
    | nil =>
      intro rows' _ hpos' _
      exact List.sum_nonneg (by simpa using hpos')
    | cons a rest ih =>
      intro rows' hnodup hpos' hmatch
      obtain ⟨b, hb, hkey, hle⟩ := hmatch a List.mem_cons_self
      obtain ⟨pre, post, rfl⟩ := List.append_of_mem hb
      rw [List.map_cons, List.nodup_cons] at hnodup
      -- the other rows have other keys, so `b` matches none of them
      have hrest := ih (pre ++ post) hnodup.2
        (fun b' hb' => hpos' b' (by simp only [List.mem_append, List.mem_cons] at hb' ⊢; tauto))
        fun a' ha' => by
          obtain ⟨b', hb', hkey', hle'⟩ := hmatch a' (List.mem_cons_of_mem _ ha')
          have hne : b' ≠ b := by
            rintro rfl
            exact hnodup.1 (List.mem_map.mpr ⟨a', ha', hkey'.symm.trans hkey⟩)
          refine ⟨b', ?_, hkey', hle'⟩
          simp only [List.mem_append, List.mem_cons] at hb' ⊢
          tauto
      simp only [List.map_append, List.map_cons, List.sum_append, List.sum_cons] at hrest ⊢
      omega
  exact hlists t.rows t'.rows t.nodup hpos h

/-- `upsert` changes a sum by the row written less the row it replaced. -/
theorem sumBy_upsert (t : Table key) (r : α) (f : α → Int) :
    (t.upsert r).sumBy f = t.sumBy f + f r - ((t.find? (key r)).map f).getD 0 := by
  cases hf : t.find? (key r) with
  | none => simp [sumBy, rows_upsert_new hf]
  | some r₀ =>
    obtain ⟨hmem, hkey⟩ := find?_eq_some_iff.mp hf
    have hk : key r ∈ t.rows.map key := mem_keys_iff.mpr (by simp [hf])
    simp only [sumBy, rows_upsert_old hk, Option.map_some, Option.getD_some]
    exact sum_replace f t.rows r r₀ t.nodup hmem hkey

end Table
