import Mathlib.Algebra.BigOperators.Group.Finset.Piecewise
import Nova.ForStd.Protocol

/-!
# The calls of a thread

The calls that a thread makes in a run, with their answers, are a path through the code
it was started with (`Run.path`), whatever the other threads do. What holds of every path
of a program therefore holds of every run: a program that `Costs` at most `n` calls makes
at most `n` steps, so that threads that are only stepped stop after as many steps as their
programs cost together (`Run.length_le_costs`); and the calls of a program that follows a
protocol are in the order of the protocol (`Protocol.Follows.path`).
-/

namespace Prog

variable {Op : Type} {Res : Op → Type} {α β : Type}

/-! ## Paths -/

/-- `p` makes the calls `es`, each answered as `es` says, and `p'` is left of it. -/
inductive Path : Prog Op Res α → List (Σ o, Res o) → Prog Op Res α → Prop
  | nil {p} : Path p [] p
  | cons {o k r es p'} : Path (k r) es p' → Path (.call o k) (⟨o, r⟩ :: es) p'

/-- A path may be extended by one answer. -/
theorem Path.snoc {p : Prog Op Res α} {es : List (Σ o, Res o)} {o : Op}
    {k : Res o → Prog Op Res α} (h : Path p es (.call o k)) (r : Res o) :
    Path p (es ++ [⟨o, r⟩]) (k r) := by
  generalize hp' : Prog.call o k = p' at h
  induction h with
  | nil =>
    subst hp'
    exact .cons .nil
  | cons _ ih => exact .cons (ih hp')

/-! ## Costs -/

/-- On every path `p` makes at most `n` calls, all of them in `S`, and its result then
    satisfies `Q`. -/
def Costs (S : Op → Prop) : Nat → Prog Op Res α → (α → Prop) → Prop
  | _, .ret a, Q => Q a
  | 0, .call _ _, _ => False
  | n + 1, .call o k, Q => S o ∧ ∀ r, Costs S n (k r) Q

variable {S S' : Op → Prop}

/-- A program that has returned costs nothing. -/
theorem costs_ret {n : Nat} {a : α} {Q : α → Prop} :
    Costs S n (.ret a : Prog Op Res α) Q ↔ Q a := by
  cases n <;> rfl

/-- More calls may be allowed, in more of `Op`, and less promised of the result. -/
theorem Costs.mono {n m : Nat} {p : Prog Op Res α} {Q Q' : α → Prop} (h : p.Costs S n Q)
    (hnm : n ≤ m) (hS : ∀ o, S o → S' o) (himp : ∀ a, Q a → Q' a) : p.Costs S' m Q' := by
  induction p generalizing n m with
  | ret a => exact costs_ret.mpr (himp a (costs_ret.mp h))
  | call o k ih =>
    cases n with
    | zero =>
      -- a call needs one step of the bound
      exact h.elim
    | succ n =>
      cases m with
      | zero => omega
      | succ m => exact ⟨hS o h.1, fun r => ih r (h.2 r) (by omega)⟩

/-- The sequencing rule. -/
theorem Costs.bind {n m : Nat} {p : Prog Op Res α} {f : α → Prog Op Res β} {Q : α → Prop}
    {Q' : β → Prop} (h : p.Costs S n Q) (hf : ∀ a, Q a → (f a).Costs S m Q') :
    (p.bind f).Costs S (n + m) Q' := by
  induction p generalizing n with
  | ret a => exact (hf a (costs_ret.mp h)).mono (by omega) (fun _ hS => hS) fun _ hQ => hQ
  | call o k ih =>
    cases n with
    | zero => exact h.elim
    | succ n =>
      -- the call is counted in the first part
      rw [show n + 1 + m = n + m + 1 by omega]
      exact ⟨h.1, fun r => ih r (h.2 r)⟩

/-- The calls already made are paid from the cost. -/
theorem Costs.path {n : Nat} {p p' : Prog Op Res α} {Q : α → Prop} {es : List (Σ o, Res o)}
    (h : p.Costs S n Q) (hpath : p.Path es p') : es.length ≤ n ∧ p'.Costs S (n - es.length) Q := by
  induction hpath generalizing n with
  | nil => exact ⟨Nat.zero_le n, h⟩
  | cons _ ih =>
    cases n with
    | zero => exact h.elim
    | succ n =>
      obtain ⟨hle, hrest⟩ := ih (h.2 _)
      -- the path has used up one step
      rw [List.length_cons, Nat.add_sub_add_right]
      exact ⟨by omega, hrest⟩

end Prog

namespace Machine

variable {Op : Type} {Res : Op → Type} {M : Machine Op Res}

/-! ## The calls of a run -/

/-- The call that thread `t` makes in the move `l`, with its answer. -/
def Config.call? (c : M.Config) (t : Nat) : M.Label → Option (Σ o, Res o)
  | .step t' e =>
    match c.pool t' with
    | some (.call o _) => if t' = t then (M.exec e t o c.st).map fun p => ⟨o, p.1⟩ else none
    | _ => none
  | .start _ _ | .tick _ => none

/-- The calls that thread `t` makes along a schedule. -/
def Config.calls (c : M.Config) (t : Nat) : List M.Label → List (Σ o, Res o)
  | [] => []
  | l :: ls => (c.call? t l).toList ++
    match c.next l with
    | some c' => c'.calls t ls
    | none => []

/-- A step adds at most one call, that of its own thread. -/
theorem Run.calls_snoc {ok : M.Config → M.Label → Prop} {c₀ c c' : M.Config} {t : Nat}
    {ls : List M.Label} {l : M.Label} (hrun : Run ok c₀ ls c) (hnext : c.next l = some c') :
    c₀.calls t (ls ++ [l]) = c₀.calls t ls ++ (c.call? t l).toList := by
  -- from any configuration that `ls` leads to `c`
  have hfollow : ∀ (ls : List M.Label) (c₀ : M.Config), c₀.run ls = some c →
      c₀.calls t (ls ++ [l]) = c₀.calls t ls ++ (c.call? t l).toList := by
    intro ls
    induction ls with
    | nil =>
      intro c₀ h
      obtain rfl : c₀ = c := by simpa [Config.run] using h
      simp [Config.calls, hnext]
    | cons l' ls ih =>
      intro c₀ h
      simp only [Config.run, Option.bind_eq_some_iff] at h
      obtain ⟨c₁, hfirst, hrest⟩ := h
      simp only [List.cons_append, Config.calls, hfirst, ih c₁ hrest, List.append_assoc]
  exact hfollow ls c₀ hrun.run_eq

/-- What holds of every answer holds of the answers in a run. -/
theorem Run.calls_answer {ok : M.Config → M.Label → Prop} {c₀ c : M.Config} {t : Nat}
    {ls : List M.Label} {A : (o : Op) → Res o → Prop} (hrun : Run ok c₀ ls c)
    (hexec : ∀ c e o k r s', ok c (.step t e) → c.pool t = some (.call o k) →
      M.exec e t o c.st = some (r, s') → A o r) :
    ∀ ev ∈ c₀.calls t ls, A ev.1 ev.2 := by
  induction hrun with
  | nil => simp [Config.calls]
  | @snoc ls c l c' hrun hl hnext ih =>
    intro ev hev
    rw [hrun.calls_snoc hnext, List.mem_append, Option.mem_toList] at hev
    -- the last call is the only new one
    refine hev.elim (ih ev) fun hlast => ?_
    cases l with
    | start t' r => cases hlast
    | tick d => cases hlast
    | step t' e =>
      obtain ⟨o, k, r, s, hcall, hres, _⟩ := next_step hnext
      simp only [Config.call?, hcall] at hlast
      -- a call of another thread is not among those of `t`
      split at hlast
      · rename_i ht
        subst ht
        rw [hres] at hlast
        obtain rfl := Option.some.inj hlast
        exact hexec c e o k r s hl hcall hres
      · cases hlast

/-- What a thread has done: nothing, or a part of the code it was started with. -/
def Config.Did (c : M.Config) (t : Nat) (ls : List M.Label) (es : List (Σ o, Res o)) : Prop :=
  (c.pool t = none ∧ es = []) ∨
    ∃ r p, .start t r ∈ ls ∧ c.pool t = some p ∧ Prog.Path (M.code r) es p

/-- The calls of a thread in a run are a path through its code. -/
theorem Run.path {ok : M.Config → M.Label → Prop} {s₀ : M.State} {c : M.Config}
    {ls : List M.Label} (hrun : Run ok (M.idle s₀) ls c) (t : Nat) :
    c.Did t ls ((M.idle s₀).calls t ls) := by
  induction hrun with
  | nil => exact Or.inl ⟨rfl, rfl⟩
  | @snoc ls c l c' hrun _ hnext ih =>
    rw [hrun.calls_snoc hnext]
    -- a move of another thread, or of none, changes nothing of `t`
    have hother : c.call? t l = none → c'.pool t = c.pool t →
        c'.Did t (ls ++ [l]) ((M.idle s₀).calls t ls ++ (c.call? t l).toList) := by
      intro hnone hpool
      rw [hnone, Option.toList_none, List.append_nil, Config.Did, hpool]
      refine ih.imp_right fun ⟨r, p, hstart, hp⟩ => ⟨r, p, ?_, hp⟩
      exact List.mem_append_left _ hstart
    cases l with
    | start t' r =>
      obtain ⟨hfree, rfl⟩ := next_start hnext
      by_cases ht : t = t'
      · subst ht
        rcases ih with ⟨_, hes⟩ | ⟨_, _, _, hpool, _⟩
        · refine Or.inr ⟨r, M.code r, by simp, by simp, ?_⟩
          rw [hes]
          exact .nil
        · cases hpool.symm.trans hfree
      · exact hother rfl (by simp [Function.update_of_ne ht])
    | step t' e =>
      obtain ⟨o, k, res, s, hcall, hexec, rfl⟩ := next_step hnext
      by_cases ht : t = t'
      · subst ht
        rcases ih with ⟨hnone, _⟩ | ⟨r, p, hstart, hpool, hpath⟩
        · cases hcall.symm.trans hnone
        · obtain rfl := Option.some.inj (hpool.symm.trans hcall)
          have hev : c.call? t (.step t e) = some ⟨o, res⟩ := by
            simp [Config.call?, hcall, hexec]
          rw [hev]
          refine Or.inr ⟨r, k res, List.mem_append_left _ hstart, by simp, ?_⟩
          exact hpath.snoc res
      · exact hother (by simp [Config.call?, hcall, Ne.symm ht])
          (by simp [Function.update_of_ne ht])
    | tick d =>
      obtain rfl := next_tick hnext
      exact hother rfl rfl

/-- The next call of a thread is one of those that its code keeps to. -/
theorem Run.next_of_costs {ok : M.Config → M.Label → Prop} {s₀ : M.State} {c : M.Config}
    {ls : List M.Label} {t n : Nat} {S : Op → Prop} {o : Op} {k : Res o → Prog Op Res Unit}
    (hrun : Run ok (M.idle s₀) ls c) (hpool : c.pool t = some (.call o k))
    (hcode : ∀ r, .start t r ∈ ls → (M.code r).Costs S n fun _ => True) : S o := by
  rcases hrun.path t with ⟨hnone, _⟩ | ⟨r, p, hstart, hleft, hpath⟩
  · cases hpool.symm.trans hnone
  · obtain rfl := Option.some.inj (hpool.symm.trans hleft)
    obtain ⟨_, hcosts⟩ := (hcode r hstart).path hpath
    -- a call is left of the code, so it is not paid up
    generalize n - _ = m at hcosts
    cases m with
    | zero => exact hcosts.elim
    | succ m => exact hcosts.1

/-! ## Bounded runs -/

/-- The move is the next call of a thread. -/
def Label.isStep : M.Label → Prop
  | .step _ _ => True
  | .start _ _ | .tick _ => False

/-- The move is the next call of thread `t`. -/
def Label.isStepOf (t : Nat) : M.Label → Bool
  | .step t' _ => t' = t
  | .start _ _ | .tick _ => false

/-- A thread that is not in the pool has made no step. -/
theorem Run.unstarted {ok : M.Config → M.Label → Prop} {s₀ : M.State} {c : M.Config}
    {ls : List M.Label} {t : Nat} (hrun : Run ok (M.idle s₀) ls c) (hpool : c.pool t = none) :
    Run (fun c l => ok c l ∧ l.isStepOf t = false) (M.idle s₀) ls c := by
  induction hrun with
  | nil => exact .nil
  | @snoc ls c l c' _ hl hnext ih =>
    -- neither the last move nor those before can be steps of `t`
    have hbefore : c.pool t = none ∧ l.isStepOf t = false := by
      cases l with
      | start t' r =>
        obtain ⟨_, rfl⟩ := next_start hnext
        by_cases ht : t = t'
        · subst ht
          simp at hpool
        · exact ⟨by simpa [Function.update_of_ne ht] using hpool, rfl⟩
      | step t' e =>
        obtain ⟨o, k, r, s, hcall, _, rfl⟩ := next_step hnext
        by_cases ht : t = t'
        · subst ht
          simp at hpool
        · exact ⟨by simpa [Function.update_of_ne ht] using hpool,
            by simp [Label.isStepOf, Ne.symm ht]⟩
      | tick d =>
        obtain rfl := next_tick hnext
        exact ⟨hpool, rfl⟩
    exact (ih hbefore.1).snoc ⟨hl, hbefore.2⟩ hnext

/-- What is left of thread `t` costs at most `n` calls. -/
def Config.Left (c : M.Config) (t n : Nat) : Prop :=
  ∀ p, c.pool t = some p → p.Costs (fun _ => True) n fun _ => True

/-- A step of `t` is paid from what is left of it; every other thread keeps its own. -/
theorem Config.Left.step {c c' : M.Config} {left : Nat → Nat} {t : Nat} {e : M.Env}
    (h : ∀ t, c.Left t (left t)) (hnext : c.next (.step t e) = some c') :
    0 < left t ∧ ∀ t', c'.Left t' (Function.update left t (left t - 1) t') := by
  obtain ⟨o, k, r, s, hcall, _, rfl⟩ := next_step hnext
  have hcost := h t _ hcall
  cases hleft : left t with
  | zero =>
    rw [hleft] at hcost
    -- a thread with nothing left makes no call
    exact hcost.elim
  | succ n =>
    rw [hleft] at hcost
    refine ⟨by omega, fun t' p hp => ?_⟩
    by_cases ht : t' = t
    · -- the thread that moves has one call less
      subst ht
      simp only [Function.update_self, Option.some.injEq] at hp ⊢
      subst hp
      exact hcost.2 r
    · simp only [Function.update_of_ne ht] at hp ⊢
      exact h t' p hp

/-- Threads that are only stepped stop after as many steps as are left of them. -/
theorem Run.length_le_costs {c c' : M.Config} {ls : List M.Label} {T : Finset Nat}
    {left : Nat → Nat} (hrun : Run (fun _ l => l.isStep) c ls c') (h : ∀ t, c.Left t (left t))
    (hT : ∀ t, c.pool t ≠ none → t ∈ T) : ls.length ≤ ∑ t ∈ T, left t := by
  -- what is left at the end, and the steps made, together are what was left before
  have hpaid : (∀ t, c'.pool t ≠ none → t ∈ T) ∧ ∃ left' : Nat → Nat, (∀ t, c'.Left t (left' t)) ∧
      ls.length + ∑ t ∈ T, left' t = ∑ t ∈ T, left t := by
    induction hrun with
    | nil => exact ⟨hT, left, h, by simp⟩
    | @snoc ls c₁ l c₂ _ hl hnext ih =>
      obtain ⟨hT₁, left₁, hleft, hsum⟩ := ih
      cases l with
      | start t r => exact hl.elim
      | tick d => exact hl.elim
      | step t e =>
        obtain ⟨hpos, hleft'⟩ := Config.Left.step hleft hnext
        obtain ⟨o, k, r, s, hcall, _, rfl⟩ := next_step hnext
        have ht : t ∈ T := hT₁ t (by simp [hcall])
        refine ⟨fun t' ht' => ?_, _, hleft', ?_⟩
        · by_cases htt : t' = t
          · exact htt ▸ ht
          · exact hT₁ t' (by simpa [Function.update_of_ne htt] using ht')
        · have hold := Finset.add_sum_erase T left₁ ht
          have hnew := Finset.sum_update_of_mem ht left₁ (left₁ t - 1)
          rw [Finset.sdiff_singleton_eq_erase] at hnew
          rw [hnew, List.length_append, List.length_singleton]
          omega
  obtain ⟨_, left', _, hsum⟩ := hpaid
  omega

/-- The calls of a thread are its steps. -/
theorem Run.length_calls {ok : M.Config → M.Label → Prop} {c₀ c : M.Config} {ls : List M.Label}
    (hrun : Run ok c₀ ls c) (t : Nat) : (c₀.calls t ls).length = ls.countP (·.isStepOf t) := by
  induction hrun with
  | nil => rfl
  | @snoc ls c l c' hrun _ hnext ih =>
    rw [hrun.calls_snoc hnext, List.length_append, ih, List.countP_append, List.countP_singleton]
    congr 1
    cases l with
    | start t' r => rfl
    | tick d => rfl
    | step t' e =>
      obtain ⟨o, k, r, s, hcall, hexec, _⟩ := next_step hnext
      by_cases ht : t' = t
      · subst ht
        -- the call is one of `t`'s
        simp [Config.call?, Label.isStepOf, hcall, hexec]
      · simp [Config.call?, Label.isStepOf, hcall, ht]

/-- A thread makes no more steps than its code costs, and the rest is left of it. -/
theorem Run.countP_isStepOf_le {ok : M.Config → M.Label → Prop} {s₀ : M.State} {c : M.Config}
    {ls : List M.Label} {n : Nat} (hcode : ∀ r, (M.code r).Costs (fun _ => True) n fun _ => True)
    (hrun : Run ok (M.idle s₀) ls c) (t : Nat) :
    ls.countP (·.isStepOf t) ≤ n ∧ c.Left t (n - ls.countP (·.isStepOf t)) := by
  rw [← hrun.length_calls t]
  rcases hrun.path t with ⟨hnone, hes⟩ | ⟨r, p, _, hpool, hpath⟩
  · -- a thread that has not started has made no call
    rw [hes]
    refine ⟨Nat.zero_le n, fun p hp => ?_⟩
    cases hp.symm.trans hnone
  · -- and the others have followed a path of their program
    obtain ⟨hle, hrest⟩ := (hcode r).path hpath
    refine ⟨hle, fun p' hp' => ?_⟩
    obtain rfl := Option.some.inj (hpool.symm.trans hp')
    exact hrest

end Machine

namespace Machine.Protocol

variable {Phase Op : Type} {Res : Op → Type} {P : Protocol Phase Op Res} {α : Type}

/-- The phase after a number of calls. -/
def along (P : Protocol Phase Op Res) (φ : Phase) (es : List (Σ o, Res o)) : Phase :=
  es.foldl (fun φ ev => P.after φ ev.1 ev.2) φ

/-- Calls that the phase allows and that leave it as it is. -/
theorem follows_of_costs {S : Op → Prop} {n : Nat} {φ : Phase} {p : Prog Op Res α}
    {Q : α → Prop} (h : p.Costs S n Q)
    (hS : ∀ o, S o → P.allows φ o ∧ ∀ r, P.after φ o r = φ) :
    P.Follows φ p fun a φ' => Q a ∧ φ' = φ := by
  induction p generalizing n with
  | ret a => exact ⟨Prog.costs_ret.mp h, rfl⟩
  | call o k ih =>
    cases n with
    | zero => exact h.elim
    | succ n =>
      obtain ⟨hallow, hafter⟩ := hS o h.1
      refine ⟨hallow, fun r _ => ?_⟩
      -- the call leaves the phase as it is
      rw [hafter r]
      exact ih r (h.2 r)

/-- A path through a program that follows a protocol follows it. -/
theorem Follows.path {φ : Phase} {p p' : Prog Op Res α} {Q : α → Phase → Prop}
    {es : List (Σ o, Res o)} (h : P.Follows φ p Q) (hpath : p.Path es p')
    (hanswers : ∀ ev ∈ es, P.answers ev.1 ev.2) : P.Follows (P.along φ es) p' Q := by
  induction hpath generalizing φ with
  | nil => exact h
  | @cons o k r es p' _ ih =>
    refine ih (h.2 r ?_) fun ev hev => hanswers ev (List.mem_cons_of_mem _ hev)
    exact hanswers ⟨o, r⟩ List.mem_cons_self

/-- `Holds φ s` is what the state says of the one thread `t` in phase `φ`: its own calls
    make it true of the next phase, in the configurations that `ok` admits, and no other
    move makes it false. -/
structure Tracks (P : Protocol Phase Op Res) {M : Machine Op Res}
    (ok : M.Config → M.Label → Prop) (t : Nat) (Holds : Phase → M.State → Prop) : Prop where
  call : ∀ {c e o k r s' φ}, ok c (.step t e) → c.pool t = some (.call o k) → Holds φ c.st →
    P.allows φ o → M.exec e t o c.st = some (r, s') → P.answers o r ∧ Holds (P.after φ o r) s'
  others : ∀ {c l c' φ}, ok c l → c.next l = some c' → c.pool t ≠ none → l.isStepOf t = false →
    Holds φ c.st → Holds φ c'.st

/-- From a phase in which its program follows the protocol, the thread gets to such phases
    only. -/
theorem Tracks.of_run {M : Machine Op Res} {ok : M.Config → M.Label → Prop} {t : Nat}
    {Holds : Phase → M.State → Prop} (hT : P.Tracks ok t Holds) {c c' : M.Config}
    {ls : List M.Label} {p : Prog Op Res Unit} {φ : Phase} {Q : Unit → Phase → Prop}
    (hpool : c.pool t = some p) (hfollows : P.Follows φ p Q) (hholds : Holds φ c.st)
    (hrun : Run ok c ls c') :
    ∃ p' φ', c'.pool t = some p' ∧ P.Follows φ' p' Q ∧ Holds φ' c'.st := by
  induction hrun with
  | nil => exact ⟨p, φ, hpool, hfollows, hholds⟩
  | @snoc ls c₁ l c₂ _ hl hnext ih =>
    obtain ⟨p₁, φ₁, hpool₁, hfollows₁, hholds₁⟩ := ih
    have hsome : c₁.pool t ≠ none := by simp [hpool₁]
    -- what another thread does keeps program, phase and state of `t`
    have hother : l.isStepOf t = false → c₂.pool t = c₁.pool t →
        ∃ p' φ', c₂.pool t = some p' ∧ P.Follows φ' p' Q ∧ Holds φ' c₂.st := fun hne hp =>
      ⟨p₁, φ₁, hp.trans hpool₁, hfollows₁, hT.others hl hnext hsome hne hholds₁⟩
    cases l with
    | start t' r =>
      refine hother rfl ?_
      obtain ⟨hfree, rfl⟩ := next_start hnext
      have ht : t ≠ t' := by
        rintro rfl
        exact hsome hfree
      simp [Function.update_of_ne ht]
    | step t' e =>
      -- the phase moves on with the answer
      by_cases ht : t' = t
      · subst ht
        obtain ⟨o, k, r, s, hcall, hexec, rfl⟩ := next_step hnext
        obtain rfl := Option.some.inj (hpool₁.symm.trans hcall)
        obtain ⟨hanswer, hholds₂⟩ := hT.call hl hcall hholds₁ hfollows₁.1 hexec
        exact ⟨k r, _, by simp, hfollows₁.2 r hanswer, hholds₂⟩
      · refine hother (by simp [Label.isStepOf, ht]) ?_
        obtain ⟨_, _, _, _, _, _, rfl⟩ := next_step hnext
        simp [Function.update_of_ne (Ne.symm ht)]
    | tick d =>
      refine hother rfl ?_
      obtain rfl := next_tick hnext
      rfl

end Machine.Protocol
