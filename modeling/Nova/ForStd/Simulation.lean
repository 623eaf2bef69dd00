import Nova.ForStd.Machine

/-!
# Simulation of machines

A machine simulates another along a relation of configurations if it follows every move of
it by some run of its own that shows the same (`Simulates`). It then follows every run
(`Simulates.run`).
-/

namespace Machine

variable {Op Op' : Type} {Res : Op → Type} {Res' : Op' → Type}

/-- `N` follows the moves of `M` that satisfy `ok` by runs that satisfy `ok'`. `see` and `see'`
    say what is seen of a move. -/
structure Simulates (M : Machine Op Res) (N : Machine Op' Res') {ω : Type}
    (see : M.Label → Option ω) (see' : N.Label → Option ω) (ok : M.Config → M.Label → Prop)
    (ok' : N.Config → N.Label → Prop) (R : M.Config → N.Config → Prop) : Prop where
  next : ∀ {c c' l c₁}, R c c' → ok c l → c.next l = some c₁ →
    ∃ ls' c₁', Run ok' c' ls' c₁' ∧ R c₁ c₁' ∧ ls'.filterMap see' = (see l).toList

section

variable {M : Machine Op Res} {N : Machine Op' Res'} {ω : Type} {see : M.Label → Option ω}
  {see' : N.Label → Option ω} {ok : M.Config → M.Label → Prop}
  {ok' : N.Config → N.Label → Prop} {R : M.Config → N.Config → Prop}

/-- Every run is followed by one that shows the same. -/
theorem Simulates.run (h : Simulates M N see see' ok ok' R) {c₀ c : M.Config} {c₀' : N.Config}
    {ls : List M.Label} (h₀ : R c₀ c₀') (hrun : Run ok c₀ ls c) :
    ∃ ls' c', Run ok' c₀' ls' c' ∧ R c c' ∧ ls'.filterMap see' = ls.filterMap see := by
  induction hrun with
  | nil => exact ⟨[], c₀', .nil, h₀, rfl⟩
  | @snoc ls c l c₁ _ hok hnext ih =>
    obtain ⟨ls', c', hrun', hR, hsee⟩ := ih
    -- one more move of `M` is answered by a few of `N`
    obtain ⟨ls₁, c₁', hrun₁, hR₁, hsee₁⟩ := h.next hR hok hnext
    refine ⟨ls' ++ ls₁, c₁', hrun'.trans hrun₁, hR₁, ?_⟩
    rw [List.filterMap_append, List.filterMap_append, hsee, hsee₁]
    cases hl : see l <;> simp [hl]

/-- One move is a run. -/
theorem Run.one {ok : M.Config → M.Label → Prop} {c c' : M.Config} {l : M.Label} (hok : ok c l)
    (hnext : c.next l = some c') : Run ok c [l] c' := Run.nil.snoc hok hnext

/-- The environment may move any number of times. -/
theorem Run.ticks {ok : M.Config → M.Label → Prop} (hok : ∀ c d, ok c (.tick d)) (c : M.Config)
    (ds : List M.Tick) :
    Run ok c (ds.map .tick) ⟨c.pool, ds.foldl (fun s d => M.tick d s) c.st⟩ := by
  induction ds generalizing c with
  | nil => exact .nil
  | cons d ds ih => exact (Run.one (hok c d) rfl).trans (ih ⟨c.pool, M.tick d c.st⟩)

end

end Machine
