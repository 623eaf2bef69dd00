import Nova.ForStd.Machine

/-!
# A thread that runs alone

`Solo` is the total correctness of a program that one thread runs while no other thread
moves: no call has to wait, and whatever the admitted answers are, the program ends in
its postcondition. `Solo.sound` turns it into a statement about runs.
-/

namespace Machine

variable {Op : Type} {Res : Op → Type} {M : Machine Op Res} {α β : Type}

/-- A move of thread `t` whose answer `ok` admits. -/
def Alone (ok : M.Env → Nat → Op → M.State → Prop) (t : Nat) (c : M.Config) (l : M.Label) : Prop :=
  ∃ e, l = .step t e ∧ ∀ o k, c.pool t = some (.call o k) → ok e t o c.st

/-- From `s` on, thread `t` alone runs `p` to its end, with a result that satisfies `Q`. -/
def Solo (ok : M.Env → Nat → Op → M.State → Prop) (t : Nat) :
    Prog Op Res α → (α → M.State → Prop) → M.State → Prop
  | .ret a, Q, s => Q a s
  | .call o k, Q, s => (∃ e r s', ok e t o s ∧ M.exec e t o s = some (r, s')) ∧
      ∀ e r s', ok e t o s → M.exec e t o s = some (r, s') → Solo ok t (k r) Q s'

variable {ok : M.Env → Nat → Op → M.State → Prop} {t : Nat} {s : M.State}

/-- A lone program may promise less about its end. -/
theorem Solo.mono {p : Prog Op Res α} {Q Q' : α → M.State → Prop} (h : Solo ok t p Q s)
    (himp : ∀ a s, Q a s → Q' a s) : Solo ok t p Q' s := by
  induction p generalizing s with
  | ret a => exact himp a s h
  | call o k ih =>
    obtain ⟨henabled, hk⟩ := h
    exact ⟨henabled, fun e r s' hok hexec => ih r (hk e r s' hok hexec)⟩

/-- The sequencing rule. -/
theorem solo_bind {p : Prog Op Res α} {f : α → Prog Op Res β} {Q : β → M.State → Prop} :
    Solo ok t (p.bind f) Q s ↔ Solo ok t p (fun a s' => Solo ok t (f a) Q s') s := by
  induction p generalizing s with
  | ret a => exact Iff.rfl
  | call o k ih => simp only [Prog.bind, Solo, ih]

/-- There is a run of thread `t` alone to the end of its program. -/
theorem Solo.exists_run {p : Prog Op Res Unit} {Q : Unit → M.State → Prop} {c : M.Config}
    (hpool : c.pool t = some p) (h : Solo ok t p Q c.st) :
    ∃ ls c', Run (Alone ok t) c ls c' ∧ c'.pool t = some (.ret ()) := by
  induction p generalizing c with
  | ret a => exact ⟨[], c, .nil, hpool⟩
  | call o k ih =>
    obtain ⟨⟨e, r, s', hok, hexec⟩, hk⟩ := h
    -- its next call is possible, and leads on
    let c₁ : M.Config := ⟨Function.update c.pool t (some (k r)), s'⟩
    have hnext : c.next (.step t e) = some c₁ := by
      simp only [Config.next, hpool, hexec, Option.map_some]
      rfl
    have hadmit : Alone ok t c (.step t e) := by
      refine ⟨e, rfl, fun o' k' hcall => ?_⟩
      obtain ⟨rfl, _⟩ := Prog.call.inj (Option.some.inj (hpool.symm.trans hcall))
      exact hok
    -- the rest of the program can end from there
    obtain ⟨ls, c', hrun, hends⟩ := ih r (c := c₁) (Function.update_self _ _ _)
      (hk e r s' hok hexec)
    exact ⟨[.step t e] ++ ls, c', (Run.nil.snoc hadmit hnext).trans hrun, hends⟩

/-- Along such a run the rest of the program stays correct. -/
theorem Solo.along {p : Prog Op Res Unit} {Q : Unit → M.State → Prop} {c c' : M.Config}
    {ls : List M.Label} (hpool : c.pool t = some p) (h : Solo ok t p Q c.st)
    (hrun : Run (Alone ok t) c ls c') : ∃ p', c'.pool t = some p' ∧ Solo ok t p' Q c'.st := by
  induction hrun with
  | nil => exact ⟨p, hpool, h⟩
  | snoc _ hl hnext ih =>
    obtain ⟨p', hp', hsolo⟩ := ih
    obtain ⟨e, rfl, hok⟩ := hl
    obtain ⟨o, k, r, s', hcall, hexec, rfl⟩ := next_step hnext
    -- the program makes the call that the step answers
    obtain rfl := Option.some.inj (hp'.symm.trans hcall)
    exact ⟨k r, Function.update_self _ _ _, hsolo.2 e r s' (hok o k hcall) hexec⟩

/-- A correct program of a thread that is left alone ends, and only in its
    postcondition. -/
theorem Solo.sound {p : Prog Op Res Unit} {Q : Unit → M.State → Prop} {c : M.Config}
    (hpool : c.pool t = some p) (h : Solo ok t p Q c.st) :
    (∃ ls c', Run (Alone ok t) c ls c' ∧ c'.pool t = some (.ret ())) ∧
      ∀ ls c', Run (Alone ok t) c ls c' → c'.pool t = some (.ret ()) → Q () c'.st := by
  refine ⟨h.exists_run hpool, fun ls c' hrun hends => ?_⟩
  obtain ⟨p', hp', hsolo⟩ := h.along hpool hrun
  obtain rfl := Option.some.inj (hp'.symm.trans hends)
  exact hsolo

end Machine
