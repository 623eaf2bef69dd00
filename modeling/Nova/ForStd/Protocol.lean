import Nova.ForStd.Machine

/-!
# Phase protocols of threads

A `Protocol` gives each thread a phase. The phase says which calls the thread may make
(`allows`), and each answer leads to a next phase (`after`). That a program `Follows` a
protocol is a property of its tree alone: no schedule and no state occurs in it. When
the phases describe what a machine's states know of a thread (`Describes`), the code of
all requests following the protocol puts every thread of every run into a phase
(`Describes.of_run`).
-/

namespace Machine

/-- Phases, the calls that each of them allows, and where the answers lead. -/
structure Protocol (Phase Op : Type) (Res : Op → Type) where
  /-- The phase of a thread that has not started or has ended. -/
  rest : Phase
  allows : Phase → Op → Prop
  /-- The answers that a call can have. -/
  answers : (o : Op) → Res o → Prop
  after : Phase → (o : Op) → Res o → Phase

namespace Protocol

variable {Phase Op : Type} {Res : Op → Type} {P : Protocol Phase Op Res} {α β : Type}

/-- From the given phase on, a program makes only calls that its phase allows, and ends
    with a result and a phase that satisfy `Q`. -/
def Follows (P : Protocol Phase Op Res) :
    Phase → Prog Op Res α → (α → Phase → Prop) → Prop
  | φ, .ret a, Q => Q a φ
  | φ, .call o k, Q => P.allows φ o ∧ ∀ r, P.answers o r → Follows P (P.after φ o r) (k r) Q

/-- A program that follows the protocol may promise less about its end. -/
theorem Follows.mono {φ : Phase} {p : Prog Op Res α} {Q Q' : α → Phase → Prop}
    (h : P.Follows φ p Q) (himp : ∀ a φ', Q a φ' → Q' a φ') : P.Follows φ p Q' := by
  induction p generalizing φ with
  | ret a => exact himp a φ h
  | call o k ih => exact ⟨h.1, fun r hr => ih r (h.2 r hr)⟩

/-- The sequencing rule. -/
theorem follows_bind {φ : Phase} {p : Prog Op Res α} {f : α → Prog Op Res β}
    {Q : β → Phase → Prop} :
    P.Follows φ (p.bind f) Q ↔ P.Follows φ p fun a φ' => P.Follows φ' (f a) Q := by
  induction p generalizing φ with
  | ret a => exact Iff.rfl
  | call o k ih => simp only [Prog.bind, Follows, ih]

variable {M : Machine Op Res}

/-- `Holds φ t s` is what the state knows of a thread `t` in phase `φ`: a call makes it
    true of the phase that its answer leads to, and nothing else concerns the thread. -/
structure Describes (P : Protocol Phase Op Res) (M : Machine Op Res)
    (Holds : Phase → Nat → M.State → Prop) : Prop where
  code : ∀ r, P.Follows P.rest (M.code r) fun _ φ => φ = P.rest
  call : ∀ {φ e t o s r s'}, Holds φ t s → P.allows φ o → M.exec e t o s = some (r, s') →
    P.answers o r ∧ Holds (P.after φ o r) t s'
  others : ∀ {φ e t t' o s r s'}, t' ≠ t → Holds φ t' s → M.exec e t o s = some (r, s') →
    Holds φ t' s'
  start : ∀ {φ t t' r s}, Holds φ t' s → Holds φ t' (M.start t r s)
  tick : ∀ {φ t' d s}, Holds φ t' s → Holds φ t' (M.tick d s)

/-- Thread `t` is in phase `φ`. -/
structure In (P : Protocol Phase Op Res) (Holds : Phase → Nat → M.State → Prop) (c : M.Config)
    (t : Nat) (φ : Phase) : Prop where
  holds : Holds φ t c.st
  unstarted : c.pool t = none → φ = P.rest
  follows : ∀ p, c.pool t = some p → P.Follows φ p fun _ φ' => φ' = P.rest

section

variable {Holds : Phase → Nat → M.State → Prop} {c c' : M.Config} {t : Nat} {φ : Phase}

/-- A thread that has ended is in the phase it started from. -/
theorem In.ended (h : P.In Holds c t φ) (hpool : c.pool t = some (.ret ())) : φ = P.rest :=
  h.follows _ hpool

/-- The next call of a thread is one that its phase allows. -/
theorem In.allowed (h : P.In Holds c t φ) {o : Op} {k : Res o → Prog Op Res Unit}
    (hpool : c.pool t = some (.call o k)) : P.allows φ o :=
  (h.follows _ hpool).1

/-- A move takes every thread from a phase to a phase. -/
theorem Describes.next (hP : P.Describes M Holds) {l : M.Label} (h : ∀ t, ∃ φ, P.In Holds c t φ)
    (hnext : c.next l = some c') : ∀ t, ∃ φ, P.In Holds c' t φ := by
  intro t
  obtain ⟨φ, hφ⟩ := h t
  cases l with
  | start t' r =>
    obtain ⟨hnone, rfl⟩ := next_start hnext
    by_cases ht : t = t'
    · -- the process that moves
      subst ht
      obtain rfl := hφ.unstarted hnone
      refine ⟨P.rest, hP.start hφ.holds, fun _ => rfl, fun p hp => ?_⟩
      obtain rfl : M.code r = p := by simpa using hp
      exact hP.code r
    · -- the others keep their phase
      refine ⟨φ, hP.start hφ.holds, fun hpool => ?_, fun p hpool => ?_⟩
      · exact hφ.unstarted (by simpa [Function.update_of_ne ht] using hpool)
      · exact hφ.follows p (by simpa [Function.update_of_ne ht] using hpool)
  | step t' e =>
    obtain ⟨o, k, r, s, hcall, hexec, rfl⟩ := next_step hnext
    by_cases ht : t = t'
    · -- the phase moves on with the answer
      subst ht
      obtain ⟨hallow, hk⟩ := hφ.follows _ hcall
      obtain ⟨hanswer, hholds⟩ := hP.call hφ.holds hallow hexec
      refine ⟨P.after φ o r, hholds, fun hpool => by simp at hpool, fun p hp => ?_⟩
      obtain rfl : k r = p := by simpa using hp
      exact hk r hanswer
    · -- an answer to another process leaves this one's phase
      refine ⟨φ, hP.others ht hφ.holds hexec, fun hpool => ?_, fun p hpool => ?_⟩
      · exact hφ.unstarted (by simpa [Function.update_of_ne ht] using hpool)
      · exact hφ.follows p (by simpa [Function.update_of_ne ht] using hpool)
  | tick d =>
    obtain rfl := next_tick hnext
    exact ⟨φ, hP.tick hφ.holds, hφ.unstarted, hφ.follows⟩

/-- In every run each thread is in a phase. -/
theorem Describes.of_run (hP : P.Describes M Holds) {ok : M.Config → M.Label → Prop}
    {s₀ : M.State} (h₀ : ∀ t, Holds P.rest t s₀) {ls : List M.Label}
    (hrun : Run ok (M.idle s₀) ls c) : ∀ t, ∃ φ, P.In Holds c t φ := by
  induction hrun with
  | nil => exact fun t => ⟨P.rest, h₀ t, fun _ => rfl, fun p hp => by cases hp⟩
  | snoc _ _ hnext ih => exact hP.next ih hnext

end

end Protocol

end Machine
