import Mathlib.Logic.Function.Basic

/-!
# Interleaved programs and their rely-guarantee rules

A `Prog` is a finite tree of calls to an outside world; a `Machine` gives the
calls their meaning on a shared state and runs any number of programs as
threads, one call at a time, in an order chosen by a schedule of labels. A call
may be disabled in a state (`exec` returns `none`): the thread then waits.

The proof rules reduce a statement about every schedule to one thread at a time.
A `Contract` fixes an invariant, what each thread may rely on while others move
(`rely`), what a program has to establish before each call (`pre`) and at its
end (`post`). `Safe` says that one program keeps its side from a given state, and
`Contract.sound` is the composition theorem: in every run the invariant holds
and every thread is still safe.
-/

/-- A program that makes calls `o : Op`, each answered by a value of `Res o`. -/
inductive Prog (Op : Type) (Res : Op → Type) (α : Type) where
  | ret (a : α)
  | call (o : Op) (k : Res o → Prog Op Res α)

namespace Prog

variable {Op : Type} {Res : Op → Type} {α β : Type}

/-- Run `p`, then `f` on its result. -/
def bind : Prog Op Res α → (α → Prog Op Res β) → Prog Op Res β
  | .ret a, f => f a
  | .call o k, f => .call o fun r => (k r).bind f

/-- Nothing is left to do after `ret`. -/
theorem bind_ret (p : Prog Op Res α) : p.bind .ret = p := by
  induction p with
  | ret a => rfl
  | call o k ih =>
    have hk : (fun r => (k r).bind .ret) = k := funext ih
    rw [bind, hk]

end Prog

/-- Threads over a shared state: their code, the meaning of a call made by a
    thread, and the moves of the environment. -/
structure Machine (Op : Type) (Res : Op → Type) where
  State : Type
  Req : Type
  Env : Type
  Tick : Type
  code : Req → Prog Op Res Unit
  start : Nat → Req → State → State
  exec : Env → Nat → (o : Op) → State → Option (Res o × State)
  tick : Tick → State → State

namespace Machine

variable {Op : Type} {Res : Op → Type} (M : Machine Op Res)

/-- One move of a schedule: start a thread, let one make its next call, or let
    the environment move. -/
inductive Label where
  | start (t : Nat) (r : M.Req)
  | step (t : Nat) (e : M.Env)
  | tick (d : M.Tick)

/-- The remaining program of every started thread, and the shared state. -/
structure Config where
  pool : Nat → Option (Prog Op Res Unit)
  st : M.State

/-- A configuration in which no thread has started. -/
def idle (s : M.State) : M.Config := ⟨fun _ => none, s⟩

variable {M}

/-- `none` when the move is not possible: the thread exists already, has no
    next call, or its call has to wait. -/
def Config.next (c : M.Config) : M.Label → Option M.Config
  | .start t r =>
    match c.pool t with
    | none => some ⟨Function.update c.pool t (some (M.code r)), M.start t r c.st⟩
    | some _ => none
  | .step t e =>
    match c.pool t with
    | some (.call o k) =>
      (M.exec e t o c.st).map fun p => ⟨Function.update c.pool t (some (k p.1)), p.2⟩
    | _ => none
  | .tick d => some ⟨c.pool, M.tick d c.st⟩

/-- Follow a schedule. -/
def Config.run (c : M.Config) : List M.Label → Option M.Config
  | [] => some c
  | l :: ls => (c.next l).bind fun c' => c'.run ls

/-- Runs in which every move satisfies `ok` in the configuration it is made in. -/
inductive Run (ok : M.Config → M.Label → Prop) (c₀ : M.Config) :
    List M.Label → M.Config → Prop
  | nil : Run ok c₀ [] c₀
  | snoc {ls c l c'} : Run ok c₀ ls c → ok c l → c.next l = some c' → Run ok c₀ (ls ++ [l]) c'

/-- The moves of `ls` all satisfy `ok` when followed from `c`. -/
def Config.Allows (ok : M.Config → M.Label → Prop) : M.Config → List M.Label → Prop
  | _, [] => True
  | c, l :: ls => ok c l ∧
    match c.next l with
    | some c' => c'.Allows ok ls
    | none => True

instance decidableAllows (ok : M.Config → M.Label → Prop) [∀ c l, Decidable (ok c l)] :
    ∀ (c : M.Config) ls, Decidable (c.Allows ok ls)
  | _, [] => isTrue trivial
  | c, l :: ls => @instDecidableAnd _ _ _ <|
    match c.next l with
    | some c' => decidableAllows ok c' ls
    | none => isTrue trivial

/-- A condition that always holds allows every run. -/
theorem Config.allows_of_forall {ok : M.Config → M.Label → Prop} (h : ∀ c l, ok c l)
    {c : M.Config} {ls : List M.Label} : c.Allows ok ls := by
  induction ls generalizing c with
  | nil => trivial
  | cons l ls ih =>
    refine ⟨h c l, ?_⟩
    split
    · exact ih
    · trivial

/-- A run under a condition is a run under a weaker one. -/
theorem Run.mono {ok ok' : M.Config → M.Label → Prop} {c₀ c : M.Config} {ls : List M.Label}
    (h : Run ok c₀ ls c) (himp : ∀ c l, ok c l → ok' c l) : Run ok' c₀ ls c := by
  induction h with
  | nil => exact .nil
  | snoc _ hok hnext ih => exact ih.snoc (himp _ _ hok) hnext

/-- An invariant of a run may be assumed of every move of it. -/
theorem Run.assume {ok : M.Config → M.Label → Prop} {I : M.Config → Prop} {c₀ c : M.Config}
    {ls : List M.Label} (h : Run ok c₀ ls c) (h₀ : I c₀)
    (hstep : ∀ c l c', I c → ok c l → c.next l = some c' → I c') :
    Run (fun c l => ok c l ∧ I c) c₀ ls c ∧ I c := by
  induction h with
  | nil => exact ⟨.nil, h₀⟩
  | snoc _ hok hnext ih => exact ⟨ih.1.snoc ⟨hok, ih.2⟩ hnext, hstep _ _ _ ih.2 hok hnext⟩

/-- A run continues where another ended. -/
theorem Run.trans {ok : M.Config → M.Label → Prop} {c₀ c₁ c₂ : M.Config} {ls ls' : List M.Label}
    (h : Run ok c₀ ls c₁) (h' : Run ok c₁ ls' c₂) : Run ok c₀ (ls ++ ls') c₂ := by
  induction h' with
  | nil => simpa using h
  | snoc _ hok hnext ih =>
    rw [← List.append_assoc]
    exact ih.snoc hok hnext

/-- A run whose labels all satisfy `p`. -/
theorem Run.of_labels {ok : M.Config → M.Label → Prop} {p : M.Label → Prop} {c₀ c : M.Config}
    {ls : List M.Label} (h : Run ok c₀ ls c) (hp : ∀ l ∈ ls, p l) :
    Run (fun c l => ok c l ∧ p l) c₀ ls c := by
  induction h with
  | nil => exact .nil
  | snoc _ hl hnext ih =>
    have hlast := hp _ (List.mem_append_right _ (List.mem_singleton.mpr rfl))
    exact (ih fun l hl => hp l (List.mem_append_left _ hl)).snoc ⟨hl, hlast⟩ hnext

/-- A run can be cut anywhere. -/
theorem Run.split {ok : M.Config → M.Label → Prop} {c₀ c : M.Config} {ls ls' : List M.Label}
    (h : Run ok c₀ (ls ++ ls') c) : ∃ c', Run ok c₀ ls c' ∧ Run ok c' ls' c := by
  generalize hall : ls ++ ls' = all at h
  induction h generalizing ls' with
  | nil =>
    obtain ⟨rfl, rfl⟩ := List.append_eq_nil_iff.mp hall
    exact ⟨c₀, .nil, .nil⟩
  | @snoc pre c l c' hrun hok hnext ih =>
    rcases List.eq_nil_or_concat ls' with rfl | ⟨ls₁, l₁, rfl⟩
    · -- nothing is cut off at the end
      rw [List.append_nil] at hall
      subst hall
      exact ⟨c', hrun.snoc hok hnext, .nil⟩
    · -- the last move belongs to the second part
      rw [List.concat_eq_append, ← List.append_assoc] at hall
      obtain ⟨hpre, hl⟩ := List.append_inj' hall rfl
      obtain rfl := List.singleton_inj.mp hl
      obtain ⟨c₁, h₁, h₂⟩ := ih hpre
      exact ⟨c₁, h₁, List.concat_eq_append ▸ h₂.snoc hok hnext⟩

/-- A run over two lists of labels is one after the other. -/
theorem Config.run_append (c : M.Config) (ls ls' : List M.Label) :
    c.run (ls ++ ls') = (c.run ls).bind (·.run ls') := by
  induction ls generalizing c with
  | nil => rfl
  | cons l ls ih =>
    simp only [List.cons_append, Config.run, Option.bind_assoc]
    exact congrArg _ (funext ih)

/-- A schedule has only one run. -/
theorem Run.run_eq {ok : M.Config → M.Label → Prop} {c c' : M.Config} {ls : List M.Label}
    (h : Run ok c ls c') : c.run ls = some c' := by
  induction h with
  | nil => rfl
  | snoc _ _ hnext ih => simp [Config.run_append, ih, Config.run, hnext]

/-- A schedule that can be followed with only allowed moves is a run. -/
theorem Run.of_run {ok : M.Config → M.Label → Prop} {c c' : M.Config} {ls : List M.Label}
    (h : c.run ls = some c') (hok : c.Allows ok ls) : Run ok c ls c' := by
  induction ls generalizing c with
  | nil =>
    obtain rfl : c = c' := by simpa [Config.run] using h
    exact .nil
  | cons l ls ih =>
    simp only [Config.run, Option.bind_eq_some_iff] at h
    obtain ⟨c₁, hnext, hrest⟩ := h
    have hone : Run ok c ([] ++ [l]) c₁ := Run.nil.snoc hok.1 hnext
    have hrest' := hok.2
    simp only [hnext] at hrest'
    exact hone.trans (ih hrest hrest')

/-- To exhibit a run, follow its schedule and evaluate what is wanted of its end. -/
theorem Run.of_eval {ok : M.Config → M.Label → Prop} [∀ c l, Decidable (ok c l)] {c : M.Config}
    {ls : List M.Label} {β : Type} (f : M.Config → β) {b : β} (hrun : (c.run ls).map f = some b)
    (hok : c.Allows ok ls) : ∃ c', Run ok c ls c' ∧ f c' = b := by
  obtain ⟨c', hc', hb⟩ := Option.map_eq_some_iff.mp hrun
  exact ⟨c', .of_run hc' hok, hb⟩

/-- The same for two states of one run. -/
theorem Run.of_decide₂ {ok : M.Config → M.Label → Prop} [∀ c l, Decidable (ok c l)] {c : M.Config}
    {ls ls' : List M.Label} {P : M.Config → M.Config → Prop} [∀ c₁ c₂, Decidable (P c₁ c₂)]
    (hrun : ((c.run ls).any fun c₁ => (c₁.run ls').any fun c₂ => decide (P c₁ c₂)) = true)
    (hok : c.Allows ok (ls ++ ls')) : ∃ c₁ c₂, Run ok c ls c₁ ∧ Run ok c₁ ls' c₂ ∧ P c₁ c₂ := by
  obtain ⟨c₁, hc₁, hrest⟩ := (Option.any_eq_true _ _).mp hrun
  obtain ⟨c₂, hc₂, hp⟩ := (Option.any_eq_true _ _).mp hrest
  have hall : c.run (ls ++ ls') = some c₂ := by
    rw [Config.run_append, hc₁, Option.bind_some, hc₂]
  obtain ⟨c', h₁, h₂⟩ := (Run.of_run hall hok).split
  -- a schedule leads to one configuration only
  obtain rfl : c₁ = c' := Option.some.inj (hc₁.symm.trans h₁.run_eq)
  exact ⟨c₁, c₂, h₁, h₂, of_decide_eq_true hp⟩

/-- What `p` returns when thread `t` runs it with nothing in between, each call
    answered under `e`. -/
def alone (M : Machine Op Res) {α : Type} (e : M.Env) (t : Nat) :
    Prog Op Res α → M.State → Option α
  | .ret a, _ => some a
  | .call o k, s => (M.exec e t o s).bind fun p => M.alone e t (k p.1) p.2

/-! ## Inversion of a move -/

/-- A start needs an unused name and puts the program of the request in the pool. -/
theorem next_start {c c' : M.Config} {t : Nat} {r : M.Req} (h : c.next (.start t r) = some c') :
    c.pool t = none ∧
      c' = ⟨Function.update c.pool t (some (M.code r)), M.start t r c.st⟩ := by
  simp only [Config.next] at h
  split at h
  · rename_i hnone
    exact ⟨hnone, (Option.some.inj h).symm⟩
  · cases h

/-- A step runs the next call of a thread, and the call's answer drives the thread on. -/
theorem next_step {c c' : M.Config} {t : Nat} {e : M.Env} (h : c.next (.step t e) = some c') :
    ∃ o k r s, c.pool t = some (.call o k) ∧ M.exec e t o c.st = some (r, s) ∧
      c' = ⟨Function.update c.pool t (some (k r)), s⟩ := by
  simp only [Config.next] at h
  split at h
  · rename_i o k hpool
    obtain ⟨⟨r, s⟩, hexec, rfl⟩ := Option.map_eq_some_iff.mp h
    exact ⟨o, k, r, s, hpool, hexec, rfl⟩
  · cases h

/-- A tick leaves the pool alone. -/
theorem next_tick {c c' : M.Config} {d : M.Tick} (h : c.next (.tick d) = some c') :
    c' = ⟨c.pool, M.tick d c.st⟩ := (Option.some.inj h).symm

/-- A started thread stays in the pool, so it is not started again. -/
private theorem started_once {ok : M.Config → M.Label → Prop} {s₀ : M.State} {ls : List M.Label}
    {c : M.Config} (h : Run ok (M.idle s₀) ls c) (t : Nat) :
    (∀ r, .start t r ∈ ls → (c.pool t).isSome) ∧
      ∀ r r', .start t r ∈ ls → .start t r' ∈ ls → r = r' := by
  induction h with
  | nil =>
    exact ⟨fun _ hr => absurd hr List.not_mem_nil, fun _ _ hr => absurd hr List.not_mem_nil⟩
  | @snoc ls c l c' _ _ hnext ih =>
    -- a process never leaves the pool
    have hgrow : (c.pool t).isSome → (c'.pool t).isSome := by
      intro hsome
      have hupdate : ∀ t' p, (Function.update c.pool t' (some p) t).isSome := by
        intro t' p
        rw [Function.update_apply]
        split
        · rfl
        · exact hsome
      cases l with
      | start t' r =>
        obtain ⟨_, rfl⟩ := next_start hnext
        exact hupdate _ _
      | step t' e =>
        obtain ⟨_, _, _, _, _, _, rfl⟩ := next_step hnext
        exact hupdate _ _
      | tick d =>
        obtain rfl := next_tick hnext
        exact hsome
    -- and only enters it when it is not there
    have hlast : ∀ r, .start t r = l → c.pool t = none ∧ (c'.pool t).isSome := by
      rintro r rfl
      obtain ⟨hnone, rfl⟩ := next_start hnext
      exact ⟨hnone, by simp⟩
    have hfresh : ∀ r r', .start t r ∈ ls → .start t r' ≠ l := by
      intro r r' hr he
      have hsome := ih.1 r hr
      rw [(hlast r' he).1] at hsome
      cases hsome
    simp only [List.mem_append, List.mem_singleton]
    refine ⟨fun r hr => ?_, fun r r' hr hr' => ?_⟩
    · rcases hr with hr | hr
      · exact hgrow (ih.1 r hr)
      · exact (hlast r hr).2
    · rcases hr with hr | hr <;> rcases hr' with hr' | hr'
      · exact ih.2 r r' hr hr'
      · exact absurd hr' (hfresh r r' hr)
      · exact absurd hr (hfresh r' r hr')
      · exact (Label.start.inj (hr.trans hr'.symm)).2

/-- A thread is started at most once. -/
theorem Run.start_unique {ok : M.Config → M.Label → Prop} {s₀ : M.State} {ls : List M.Label}
    {c : M.Config} (h : Run ok (M.idle s₀) ls c) {t : Nat} {r r' : M.Req}
    (hr : .start t r ∈ ls) (hr' : .start t r' ∈ ls) : r = r' :=
  (started_once h t).2 r r' hr hr'

/-- A thread that was started stays in the pool. -/
theorem Run.pool_of_start {ok : M.Config → M.Label → Prop} {s₀ : M.State} {ls : List M.Label}
    {c : M.Config} (h : Run ok (M.idle s₀) ls c) {t : Nat} {r : M.Req} (hr : .start t r ∈ ls) :
    (c.pool t).isSome :=
  (started_once h t).1 r hr

/-- The thread that a move starts. -/
def Label.starts : M.Label → Option Nat
  | .start t _ => some t
  | .step _ _ | .tick _ => none

/-- Only threads that the schedule starts are in the pool. -/
theorem Run.mem_starts {ok : M.Config → M.Label → Prop} {s₀ : M.State} {ls : List M.Label}
    {c : M.Config} (h : Run ok (M.idle s₀) ls c) {t : Nat} (hpool : c.pool t ≠ none) :
    t ∈ ls.filterMap Label.starts := by
  induction h with
  | nil => exact absurd rfl hpool
  | @snoc ls c l c' _ _ hnext ih =>
    -- a thread of the pool was started, and stays so
    have hold : c.pool t ≠ none → t ∈ (ls ++ [l]).filterMap Label.starts := by
      intro h
      rw [List.filterMap_append]
      exact List.mem_append_left _ (ih h)
    cases l with
    | start t' r =>
      obtain ⟨_, rfl⟩ := next_start hnext
      by_cases ht : t = t'
      · simp [Label.starts, ht]
      · simp only [Function.update_of_ne ht] at hpool
        exact hold hpool
    | step t' e =>
      obtain ⟨_, _, _, _, hcall, _, rfl⟩ := next_step hnext
      -- only a thread of the pool can step
      by_cases ht : t = t'
      · subst ht
        exact hold (by simp [hcall])
      · simp only [Function.update_of_ne ht] at hpool
        exact hold hpool
    | tick d =>
      obtain rfl := next_tick hnext
      exact hold hpool

/-! ## Rely-guarantee rules -/

/-- A rely-guarantee contract for the threads of `M`. `ok` restricts what the
    environment may answer to a call. -/
structure Contract (M : Machine Op Res) where
  inv : M.State → Prop
  rely : Nat → M.State → M.State → Prop
  pre : Nat → Op → M.State → Prop
  post : Nat → M.State → Prop
  ok : M.Env → Nat → Op → M.State → Prop

variable (K : Contract M) {α β : Type}

/-- From `s` on, whatever the other threads do within `rely`, thread `t` running
    `p` meets `pre` at each of its calls and ends with a result satisfying `Q`. -/
def Safe (t : Nat) : Prog Op Res α → (α → M.State → Prop) → M.State → Prop
  | .ret a, Q, s => Q a s
  | .call o k, Q, s => ∀ s₁, K.rely t s s₁ → K.inv s₁ → K.pre t o s₁ ∧
      ∀ e r s₂, K.ok e t o s₁ → M.exec e t o s₁ = some (r, s₂) → Safe t (k r) Q s₂

variable {K}

/-- A safe program may promise less about its end. -/
theorem Safe.mono {t : Nat} {p : Prog Op Res α} {Q Q' : α → M.State → Prop} {s : M.State}
    (h : Safe K t p Q s) (himp : ∀ a s, Q a s → Q' a s) : Safe K t p Q' s := by
  induction p generalizing s with
  | ret a => exact himp a s h
  | call o k ih =>
    intro s₁ hrely hinv
    obtain ⟨hpre, hk⟩ := h s₁ hrely hinv
    exact ⟨hpre, fun e r s₂ hok hexec => ih r (hk e r s₂ hok hexec)⟩

/-- The sequencing rule. -/
theorem safe_bind {t : Nat} {p : Prog Op Res α} {f : α → Prog Op Res β}
    {Q : β → M.State → Prop} {s : M.State} :
    Safe K t (p.bind f) Q s ↔ Safe K t p (fun a s' => Safe K t (f a) Q s') s := by
  induction p generalizing s with
  | ret a => exact Iff.rfl
  | call o k ih => simp only [Prog.bind, Safe, ih]

/-- What makes a contract sound: `rely` is a preorder that keeps `post`, each
    kind of move keeps the invariant and the rely of every other thread, and the
    code of a request is safe when it is started. -/
structure Contract.Sound (K : Contract M) : Prop where
  rely_refl : ∀ t s, K.rely t s s
  rely_trans : ∀ {t s₁ s₂ s₃}, K.rely t s₁ s₂ → K.rely t s₂ s₃ → K.rely t s₁ s₃
  post_stable : ∀ {t s s'}, K.post t s → K.rely t s s' → K.inv s' → K.post t s'
  call : ∀ {e t o s r s'}, K.inv s → K.pre t o s → K.ok e t o s → M.exec e t o s = some (r, s') →
    K.inv s' ∧ ∀ t', t' ≠ t → K.rely t' s s'
  start : ∀ {t r s}, K.inv s → K.inv (M.start t r s) ∧ ∀ t', t' ≠ t → K.rely t' s (M.start t r s)
  tick : ∀ {d s}, K.inv s → K.inv (M.tick d s) ∧ ∀ t, K.rely t s (M.tick d s)
  code : ∀ {t r s}, K.inv s → Safe K t (M.code r) (fun _ => K.post t) (M.start t r s)

/-- A safe thread stays safe while others move. -/
theorem Safe.stable (hK : K.Sound) {t : Nat} {p : Prog Op Res Unit} {s s' : M.State}
    (h : Safe K t p (fun _ => K.post t) s) (hrely : K.rely t s s') (hinv : K.inv s') :
    Safe K t p (fun _ => K.post t) s' := by
  cases p with
  | ret a => exact hK.post_stable h hrely hinv
  | call o k => exact fun s₁ hrely₁ => h s₁ (hK.rely_trans hrely hrely₁)

/-- The invariant holds and every thread is safe. -/
def Contract.Holds (K : Contract M) (c : M.Config) : Prop :=
  K.inv c.st ∧ ∀ t p, c.pool t = some p → Safe K t p (fun _ => K.post t) c.st

/-- Adding or advancing thread `t` keeps `Holds` when the new state keeps the
    invariant and the rely of the other threads. -/
private theorem holds_update (hK : K.Sound) {c : M.Config} (h : K.Holds c) {t : Nat}
    {p : Prog Op Res Unit} {s' : M.State} (hinv : K.inv s')
    (hrely : ∀ t', t' ≠ t → K.rely t' c.st s')
    (hsafe : Safe K t p (fun _ => K.post t) s') :
    K.Holds ⟨Function.update c.pool t (some p), s'⟩ := by
  refine ⟨hinv, fun t' p' hpool => ?_⟩
  by_cases ht : t' = t
  · subst ht
    simp only [Function.update_self, Option.some.injEq] at hpool
    exact hpool ▸ hsafe
  · -- another thread relies on this move
    simp only [Function.update_of_ne ht] at hpool
    exact (h.2 t' p' hpool).stable hK (hrely t' ht) hinv

/-- One allowed move keeps `Holds`. -/
theorem Contract.holds_next (hK : K.Sound) {c c' : M.Config} {l : M.Label}
    (h : K.Holds c)
    (hok : ∀ t e o k, l = .step t e → c.pool t = some (.call o k) → K.ok e t o c.st)
    (hnext : c.next l = some c') : K.Holds c' := by
  cases l with
  | start t r =>
    obtain ⟨_, rfl⟩ := next_start hnext
    obtain ⟨hinv, hrely⟩ := hK.start (t := t) (r := r) h.1
    exact holds_update hK h hinv hrely (hK.code h.1)
  | step t e =>
    obtain ⟨o, k, r, s, hpool, hexec, rfl⟩ := next_step hnext
    obtain ⟨hpre, hk⟩ := h.2 t _ hpool c.st (hK.rely_refl t c.st) h.1
    have hok' := hok t e o k rfl hpool
    obtain ⟨hinv, hrely⟩ := hK.call h.1 hpre hok' hexec
    exact holds_update hK h hinv hrely (hk e r s hok' hexec)
  | tick d =>
    -- time moves the state only, under what every process relies on
    obtain rfl := next_tick hnext
    obtain ⟨hinv, hrely⟩ := hK.tick (d := d) h.1
    exact ⟨hinv, fun t p hpool => (h.2 t p hpool).stable hK (hrely t) hinv⟩

/-- The composition theorem: every run of allowed moves from an idle
    configuration keeps the invariant, and all its threads stay safe. -/
theorem Contract.sound (hK : K.Sound) {ok : M.Config → M.Label → Prop}
    (hok : ∀ c t e o k, ok c (.step t e) → c.pool t = some (.call o k) → K.ok e t o c.st)
    {s₀ : M.State} (h₀ : K.inv s₀) {ls : List M.Label} {c : M.Config}
    (hrun : Run ok (M.idle s₀) ls c) : K.Holds c := by
  induction hrun with
  | nil => exact ⟨h₀, fun t p hpool => nomatch hpool⟩
  | snoc _ hl hnext ih =>
    exact K.holds_next hK ih (fun t e o k hlab hpool => hok _ t e o k (hlab ▸ hl) hpool) hnext

/-- A thread about to make a call has established its precondition. -/
theorem Contract.Holds.pre (hK : K.Sound) {c : M.Config} (h : K.Holds c) {t : Nat} {o : Op}
    {k : Res o → Prog Op Res Unit} (hpool : c.pool t = some (.call o k)) : K.pre t o c.st :=
  (h.2 t _ hpool c.st (hK.rely_refl t c.st) h.1).1

/-- A thread that has ended has established its postcondition. -/
theorem Contract.Holds.post {c : M.Config} (h : K.Holds c) {t : Nat}
    (hpool : c.pool t = some (.ret ())) : K.post t c.st :=
  h.2 t _ hpool

/-- To prove an invariant of runs, show that each allowed move keeps it where
    the contract holds. -/
theorem Run.invariant (hK : K.Sound) {ok : M.Config → M.Label → Prop}
    (hok : ∀ c t e o k, ok c (.step t e) → c.pool t = some (.call o k) → K.ok e t o c.st)
    {s₀ : M.State} (h₀ : K.inv s₀) {I : M.Config → Prop} (hI₀ : I (M.idle s₀))
    (hstep : ∀ c l c', K.Holds c → I c → ok c l → c.next l = some c' → I c')
    {ls : List M.Label} {c : M.Config} (hrun : Run ok (M.idle s₀) ls c) : I c := by
  induction hrun with
  | nil => exact hI₀
  | snoc hpre hl hnext ih => exact hstep _ _ _ (K.sound hK hok h₀ hpre) ih hl hnext

end Machine
