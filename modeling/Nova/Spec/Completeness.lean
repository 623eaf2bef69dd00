import Nova.ForStd.Solo
import Nova.Spec.Coherence
import Nova.Spec.Columns
import Nova.Spec.Serial
import Nova.Spec.ReadEffect
import Nova.Spec.Progress
import Nova.Spec.Linearizability

/-!
# What is owed can be had

`http_linearizable` says that the HTTP layer does nothing but what the inventory does.
`http_complete` is the other half: from every state that a run without races comes to rest
in, a request that is left alone ends, and then the tables and the answer are those that
`Inventory.serve` gives for it. So every step of the inventory is one that the code makes,
as far as the columns reach: PostgreSQL fails a statement that stores a value which its
column cannot hold, and then the request is answered 500 and has changed nothing.
-/

namespace Nova

open Machine

/-! ## A request on its own -/

/-- A move of request `t`, which PostgreSQL fails where a value does not fit its column. -/
abbrev RangedTurn {cfg : Config} (t : TxId) : (system cfg).Config → (system cfg).Label → Prop :=
  Alone (M := system cfg) Ranged t

/-- Turns of `t` alone are moves of `t`. -/
theorem rangedTurn_of_turns {cfg : Config} {t : TxId} {uuids : List Uuid}
    {c c' : (system cfg).Config} (hrun : Run (OnCall Ranged) c (turns t uuids) c') :
    Run (RangedTurn t) c (turns t uuids) c' := by
  have hturn : ∀ l ∈ (turns t uuids : List (system cfg).Label), ∃ e, l = .step t e := by
    intro l hl
    obtain ⟨uuid, _, rfl⟩ := List.mem_map.mp hl
    exact ⟨_, rfl⟩
  refine (hrun.of_labels hturn).mono fun c l hl => ?_
  obtain ⟨hranged, e, rfl⟩ := hl
  exact ⟨e, rfl, fun _ _ hcall => hranged.apply hcall⟩

/-- What the state knows of request `t`, which has been on its own since `s₁`. -/
structure Tx.Alone (s₁ s : Sys) (x : Tx) (req : Request) : Prop where
  asked : x.req = req
  current : x.ReadsCurrent s
  cached : ∀ id, req = .getStock id → ∀ q, x.cached = some q → s₁.cache id = some q
  reading : req.isRead = true → x.faulted = false

/-- Request `t` has been on its own since `s₁`. -/
structure OnItsOwn {cfg : Config} (s₁ : Sys) (t : TxId) (req : Request) (c : (system cfg).Config) :
    Prop where
  tx : ∃ x, c.st.txs t = some x ∧ x.Alone s₁ c.st req
  started : c.pool t ≠ none
  others : ∀ u, u ≠ t → c.pool u = none ∨ Ends c u
  wal : ∀ r ∈ c.st.wal, r ∈ s₁.wal ∨ r.tx = t
  read : req.isRead = true → Passive t c.st ∧ c.st.db = s₁.db ∧ c.st.cache = s₁.cache

section

variable {cfg : Config} {A : Allow} {d₀ : Db} {s₁ s s' : Sys} {t : TxId} {req : Request} {x x' : Tx}
  {e : Env} {o : Stmt} {r : o.Res}

/-- Its record after an await. -/
theorem Tx.Alone.step (h : x.Alone s₁ s req) (hranged : Ranged e t o s)
    (hread : req.isRead = true → o.readOnly = true ∧ s.cache = s₁.cache)
    (haw : Awaits cfg A d₀ t x o s)
    (hexec : exec e t o s = some (r, s')) (hx' : s'.txs t = some x') : x'.Alone s₁ s' req where
  asked := (exec_req haw.tx hexec hx').trans h.asked
  current := h.current.step haw hexec hx'
  -- only a GET in Redis changes what has been cached, and it takes the entry of the same item
  cached id hid q hq := by
    obtain ⟨y, hy, hnotes⟩ := exec_notes haw.tx hexec
    obtain rfl := Option.some.inj (hy.symm.trans hx')
    rcases hnotes.cached with hsame | ⟨id', rfl, hfound⟩
    · exact h.cached id hid q (hsame ▸ hq)
    · have hreq : x.req = .getStock id' := haw.pre
      obtain rfl : id' = id := Request.getStock.inj (hreq.symm.trans (h.asked.trans hid))
      have hcache : s.cache = s₁.cache := (hread (by rw [hid]; rfl)).2
      rw [← hcache, ← hfound]
      exact hq
  reading hisRead := by
    -- alone, only a value out of range can fail a statement, and a reading stores none
    by_contra hfaulted
    rcases exec_faulted haw.tx hexec hx' (by simpa using hfaulted) with hold | hbreaks
    · cases (h.reading hisRead).symm.trans hold
    · have hover := (Sys.overflows_iff haw.tx).mp (hranged.sql.2.symm.trans hbreaks)
      exact hover (Stmt.fits_of_readOnly (hread hisRead).1)

/-- Its optimistic check finds the version that it expects. -/
theorem Tx.Alone.currentCheck (h : x.Alone s₁ s req) (haw : Awaits cfg A d₀ t x o s) :
    CurrentCheck e t o s = true := by
  cases o with
  | updateOrder id v st =>
    -- the version checked is the one read, and nobody else has moved the order since
    obtain ⟨⟨a, hreq⟩, hcommit, _, ⟨o, hread, rfl, rfl⟩, hfirst, _⟩ : Checks x id v := haw.pre
    have hrow := h.current hcommit a o.id hreq o hread
    have hview : (s.view x).orders.find? o.id = some o :=
      (congrArg (Table.find? · o.id) (Db.orders_applyAll hfirst)).trans hrow
    simp [CurrentCheck, haw.tx, hview]
  | selectItem | selectItemForUpdate | insertItem | updateItem | selectOrder | insertOrder
  | insertMovement | redisGet | redisSetex | commit | rollback | respond => rfl

/-- A stock read finds the row as the cache has it, if the entry was fresh. -/
theorem Tx.Alone.currentRead (h : x.Alone s₁ s req)
    (hfresh : ∀ id, req = .getStock id → s₁.Fresh id) (hdb : req.isRead = true → s.db = s₁.db)
    (haw : Awaits cfg A d₀ t x o s) : CurrentRead e t o s = true := by
  cases o with
  | selectItem id =>
    simp only [CurrentRead, haw.tx, Bool.or_eq_true, Bool.not_eq_true']
    cases hread : x.req.isRead with
    | false => exact Or.inl (Or.inr rfl)
    | true =>
      right
      -- only the stock read of the request's own item has to agree with its entry
      have hreq : req = .getStock id := h.asked.symm.trans (haw.pre hread).1
      rw [hdb (h.asked ▸ hread)]
      cases hi : s₁.db.items.find? id with
      | none => rfl
      | some i =>
        simp only [Option.all_some, Bool.or_eq_true, decide_eq_true_eq]
        -- the entry it was given was one of the state at the start
        cases hq : x.cached with
        | none => exact Or.inl rfl
        | some q =>
          obtain ⟨i', hi', hstock⟩ := hfresh id hreq q (h.cached id hreq q hq)
          obtain rfl := Option.some.inj (hi.symm.trans hi')
          exact Or.inr (by rw [hstock])
  | selectItemForUpdate | insertItem | updateItem | selectOrder | insertOrder | updateOrder
  | insertMovement | redisGet | redisSetex | commit | rollback | respond => rfl

end

section

variable {cfg : Config} {d₀ : Db} {s₁ : Sys} {ls : List (system cfg).Label}
  {c c' : (system cfg).Config} {l : (system cfg).Label} {t : TxId} {req : Request}

/-- The moves of a request on its own have no races. -/
theorem OnItsOwn.next (hd₀ : d₀.Consistent) (hrun : SysRun cfg (RaceFree cfg) d₀ ls c)
    (hcache : cfg.cache.enabled = false ∨ ∀ id, req = .getStock id → s₁.Fresh id)
    (h : OnItsOwn s₁ t req c) (hl : RangedTurn t c l) (hnext : c.next l = some c') :
    RaceFree cfg c l ∧ OnItsOwn s₁ t req c' := by
  cases l with
  | start | tick =>
    obtain ⟨_, heq, _⟩ := hl
    cases heq
  | step u e =>
    obtain ⟨e', heq, hranged⟩ := hl
    obtain ⟨rfl, rfl⟩ := Label.step.inj heq
    obtain ⟨o, k, r, s, hcall, hexec, rfl⟩ := next_step hnext
    have hholds := holds_of_run (A := ⟨True, False, False⟩) hd₀ (fun _ => trivial)
      (fun _ _ h => h) hrun
    obtain ⟨x, hx, halone⟩ := h.tx
    obtain ⟨y, hy, honly, hpre⟩ := hholds.pre (contract_holds hd₀ fun _ => trivial) hcall
    -- at its await, the request is alone with what the contract tells
    obtain rfl := Option.some.inj (hx.symm.trans hy)
    have haw : Awaits cfg ⟨True, False, False⟩ d₀ u x o c.st := ⟨hholds.1, hx, honly, hpre⟩
    have hdb : req.isRead = true → c.st.db = s₁.db := fun hread => (h.read hread).2.1
    constructor
    · -- so its check and its stock read are current
      simp only [RaceFree, OnCall, hcall]
      exact ⟨Or.inr (Or.inr (halone.currentCheck haw)),
        Or.inr (hcache.imp_right fun hfresh => halone.currentRead hfresh hdb haw)⟩
    obtain ⟨x', hx', _⟩ := exec_notes hx hexec
    have hro : req.isRead = true → o.readOnly = true :=
      fun hread => (honly (halone.asked ▸ hread)).resolve_left id
    have halone' := halone.step (hranged o k hcall)
      (fun hread => ⟨hro hread, (h.read hread).2.2⟩) haw hexec hx'
    refine ⟨⟨x', hx', halone'⟩, by simp, fun u' hu => ?_, fun r hr => ?_, fun hread => ?_⟩
    · -- the others have not moved
      have hpool : Function.update c.pool u (some (k r)) u' = c.pool u' :=
        Function.update_of_ne hu ..
      simpa only [Ends, hpool] using h.others u' hu
    · -- a commit is the request's own
      obtain ⟨y, hy, hmove | ⟨_, _, rfl⟩⟩ := exec_move hexec
      · exact h.wal r ((hmove.frame hy).1 ▸ hr)
      · have hwal : (c.st.commit u y).wal =
            if y.writes = [] then c.st.wal else c.st.wal ++ [⟨u, y.req, y.read, y.writes⟩] := rfl
        rw [hwal] at hr
        split at hr
        · exact h.wal r hr
        · rcases List.mem_append.mp hr with hr | hr
          · exact h.wal r hr
          · obtain rfl := List.mem_singleton.mp hr
            exact Or.inr rfl
    · -- a read leaves tables, entries and its passive transaction
      obtain ⟨hpassive, hdb, hcache⟩ := h.read hread
      obtain ⟨x'', hread', hwrites', rfl⟩ := exec_readOnly hpassive (hro hread) hexec
      exact ⟨hpassive.setTx ⟨hread', hwrites'⟩, hdb, hcache⟩

/-- So does a whole run of it. -/
theorem OnItsOwn.of_run {c₀ : (system cfg).Config} {ls₀ : List (system cfg).Label}
    (hd₀ : d₀.Consistent) (hrun₀ : SysRun cfg (RaceFree cfg) d₀ ls₀ c₀)
    (hcache : cfg.cache.enabled = false ∨ ∀ id, req = .getStock id → s₁.Fresh id)
    (h : OnItsOwn s₁ t req c₀) (hrun : Run (RangedTurn t) c₀ ls c) :
    Run (RaceFree cfg) c₀ ls c ∧ OnItsOwn s₁ t req c := by
  -- by induction over the run: each turn of the request keeps it on its own
  induction hrun with
  | nil => exact ⟨.nil, h⟩
  | snoc _ hl hnext ih =>
    obtain ⟨hpre, hown⟩ := ih
    obtain ⟨hfree, hown'⟩ := hown.next hd₀ (hrun₀.trans hpre) hcache hl hnext
    exact ⟨hpre.snoc hfree hnext, hown'⟩

/-- Where all other requests have ended, the steps are those of `t`. -/
theorem OnItsOwn.turns {c₀ : (system cfg).Config} {ls₀ : List (system cfg).Label}
    (hd₀ : d₀.Consistent) (hrun₀ : SysRun cfg (RaceFree cfg) d₀ ls₀ c₀)
    (hcache : cfg.cache.enabled = false ∨ ∀ id, req = .getStock id → s₁.Fresh id)
    (h : OnItsOwn s₁ t req c₀) (hrun : Run (fun c l => OnCall Ranged c l ∧ l.isStep) c₀ ls c) :
    Run (RangedTurn t) c₀ ls c := by
  induction hrun with
  | nil => exact .nil
  | @snoc ls c l c' _ hl hnext ih =>
    have hown := (h.of_run hd₀ hrun₀ hcache ih).2
    cases l with
    | start | tick => exact absurd hl.2 id
    | step u e =>
      obtain ⟨o, k, _, _, hcall, _⟩ := next_step hnext
      -- the others have ended or never begun, so the next step can only be this request's
      have hut : u = t := by
        by_contra hne
        rcases hown.others u hne with hnone | hends
        · cases hnone.symm.trans hcall
        · exact not_ends_of_call hcall hends
      subst hut
      exact ih.snoc ⟨e, rfl, fun _ _ hcall => hl.1.apply hcall⟩ hnext

/-- A request that can go on can do so as PostgreSQL lets it: a statement whose values do
    not fit fails at once. -/
theorem CanStep.ranged (h : CanStep c t) :
    ∃ e c', OnCall Ranged c (.step t e) ∧ c.next (.step t e) = some c' := by
  obtain ⟨e, hfault, hsome⟩ := h
  obtain ⟨c', hnext⟩ := Option.isSome_iff_exists.mp hsome
  obtain ⟨o, k, r, s, hcall, hexec, rfl⟩ := next_step hnext
  cases hover : c.st.overflows t o with
  | false =>
    -- the statement fits, and runs
    refine ⟨e, _, ?_, hnext⟩
    simp [OnCall, hcall, Ranged, hover, hfault]
  | true =>
    -- it does not fit: the same move with a fault
    obtain ⟨x, hx, _⟩ := exec_move hexec
    have hsql := Stmt.isSql_of_unfit ((Sys.overflows_iff hx).mp hover)
    have hfails : (exec { e with fault := some .error } t o c.st).isSome = true := by
      unfold exec
      rw [hx]
      simp only [hsql, if_true]
      split <;> rfl
    obtain ⟨⟨r', s''⟩, hfails⟩ := Option.isSome_iff_exists.mp hfails
    refine ⟨{ e with fault := some .error }, ⟨Function.update c.pool t (some (k r')), s''⟩, ?_, ?_⟩
    · simp [OnCall, hcall, Ranged, hover]
    · have hexec' : (system cfg).exec { e with fault := some .error } t o c.st = some (r', s'') :=
        hfails
      simp only [Config.next, hcall, hexec']
      rfl

end

/-! ## Values that do not fit -/

/-- Along the moves `ls` from `c` on, request `t` comes to a statement that stores a value
    which its column cannot hold. -/
def Overflowing {cfg : Config} (c : (system cfg).Config) (t : TxId)
    (ls : List (system cfg).Label) : Prop :=
  ∃ ls' c' e o k, ls' ++ [.step t e] <+: ls ∧ c.run ls' = some c' ∧
    c'.pool t = some (.call o k) ∧ c'.st.overflows t o = true

section

variable {cfg : Config} {d₀ : Db} {ls : List (system cfg).Label} {c c₀ : (system cfg).Config}
  {t : TxId}

/-- One more move overflows where its statement does. -/
theorem overflowing_snoc {e : Env} (hrun : c₀.run ls = some c) {o : Stmt} {k : o.Res → Code Unit}
    (hcall : c.pool t = some (.call o k)) :
    Overflowing c₀ t (ls ++ [.step t e]) ↔ Overflowing c₀ t ls ∨ c.st.overflows t o = true := by
  constructor
  · rintro ⟨ls', c', e', o', k', hprefix, hrun', hcall', hover⟩
    rcases List.prefix_concat_iff.mp hprefix with heq | hprefix
    · -- it is the last one
      obtain ⟨rfl, _⟩ := List.append_inj' heq rfl
      obtain rfl := Option.some.inj (hrun.symm.trans hrun')
      obtain ⟨rfl, _⟩ := Prog.call.inj (Option.some.inj (hcall.symm.trans hcall'))
      exact Or.inr hover
    · exact Or.inl ⟨ls', c', e', o', k', hprefix, hrun', hcall', hover⟩
  · rintro (⟨ls', c', e', o', k', hprefix, hrest⟩ | hover)
    · exact ⟨ls', c', e', o', k', hprefix.trans (List.prefix_append _ _), hrest⟩
    · exact ⟨ls, c, e, o, k, List.prefix_rfl, hrun, hcall, hover⟩

/-- A request on its own is a faulted one exactly when it has come to such a statement. -/
theorem faulted_iff_overflowing {c₁ : (system cfg).Config}
    {ok : (system cfg).Config → (system cfg).Label → Prop} {ls₁ : List (system cfg).Label}
    {req : Request} (hd₀ : d₀.Consistent) (hrun₁ : SysRun cfg ok d₀ ls₁ c₁)
    (hstart : c₁.next (.start t req) = some c₀) (hrun : Run (RangedTurn t) c₀ ls c) :
    ∀ x, c.st.txs t = some x → (x.faulted = true ↔ Overflowing c₀ t ls) := by
  have hrun₀ : SysRun cfg (fun _ _ => True) d₀ (ls₁ ++ [.start t req]) c₀ :=
    (hrun₁.mono fun _ _ _ => trivial).snoc trivial hstart
  induction hrun with
  | nil =>
    intro x hx
    obtain ⟨_, rfl⟩ := next_start hstart
    obtain rfl := Option.some.inj ((Sys.setTx_txs_self _).symm.trans hx)
    -- a request that has just started has neither failed nor overflowed
    refine ⟨(fun h => by cases h), fun ⟨ls', _, _, _, _, hprefix, _⟩ => ?_⟩
    simp at hprefix
  | @snoc ls c l c' hrun hl hnext ih =>
    obtain ⟨e, rfl, hranged⟩ := hl
    obtain ⟨o, k, r, s, hcall, hexec, rfl⟩ := next_step hnext
    have hall := hrun₀.trans (hrun.mono fun _ _ _ => trivial)
    have hholds := holds_of_run (A := ⟨True, True, True⟩) hd₀ (fun _ => trivial)
      (fun c l _ => admitted_any c l) hall
    obtain ⟨x, hx, _, hpre⟩ := hholds.pre (contract_holds hd₀ fun _ => trivial) hcall
    have hsql := (hranged o k hcall).sql
    -- the last statement is the one that counts
    intro y hy
    refine Iff.trans ?_ (overflowing_snoc hrun.run_eq hcall).symm
    rw [← ih x hx]
    constructor
    · intro hfaulted
      exact (exec_faulted hx hexec hy hfaulted).imp_right (hsql.2.symm.trans ·)
    · -- a failure stays, and a statement that overflows fails
      rintro (hfaulted | hover)
      · exact exec_stays_faulted hx hexec hy hfaulted
      · have hunfit := (Sys.overflows_iff hx).mp hover
        have hafter := exec_breaks hx (hpre.live hunfit) (Stmt.isSql_of_unfit hunfit) hexec
          (hsql.2.trans hover)
        obtain rfl := Option.some.inj (hafter.symm.trans hy)
        rfl

end

/-! ## Names and commits -/

/-- A name that was taken is the name of a row. -/
theorem Log.row_of_taken {A : Allow} {d₀ d : Db} {wal : List Commit} {name : String}
    (h : Log A d₀ wal d) (htaken : takenIn d₀ wal name) : ∃ i ∈ d.items.rows, i.name = name := by
  -- the name was taken at some point of the log, and names are never given back
  obtain ⟨k, i, hk, hi, hname⟩ : ∃ k i, k ≤ wal.length ∧
      (d₀.after wal k).items.find? i.id = some i ∧ i.name = name := by
    rcases htaken with ⟨i, hi, hname⟩ | ⟨c, hc, i, hi, hname⟩
    · exact ⟨0, i, Nat.zero_le _, Table.find?_of_mem hi, hname⟩
    · obtain ⟨k, hk⟩ := List.getElem?_of_mem hc
      obtain ⟨_, e, heff⟩ := h.at hk
      refine ⟨k + 1, i, (List.getElem?_eq_some_iff.mp hk).1, ?_, hname⟩
      rw [show d₀.after wal (k + 1) = (d₀.after wal k).applyAll c.writes from replay_succ hk]
      exact heff.find?_item hi
  obtain ⟨i', hi', hname'⟩ := h.name_after hk hi
  exact ⟨i', Table.mem_of_find? hi', hname'.trans hname⟩

/-- What request `t` has added to the log since `s₁`, when nobody else has. -/
structure OwnPart (s₁ s : Sys) (t : TxId) (rest : List Commit) : Prop where
  wal : s.wal = s₁.wal ++ rest
  mine : ∀ r ∈ rest, r.tx = t
  one : rest.length ≤ 1

/-- A request commits at most once. -/
theorem OnItsOwn.part {cfg : Config} {s₁ : Sys} {t : TxId} {req : Request}
    {c : (system cfg).Config} (h : OnItsOwn s₁ t req c) (hlinked : Linked c.st)
    (hwal : s₁.wal <+: c.st.wal) : ∃ rest, OwnPart s₁ c.st t rest := by
  obtain ⟨rest, hwal⟩ := hwal
  have honce := hlinked.once
  rw [← hwal, List.map_append] at honce
  -- the log names each transaction once, and the part added is this request's alone
  have hmine : ∀ r ∈ rest, r.tx = t := by
    intro r hr
    refine (h.wal r (hwal ▸ List.mem_append_right _ hr)).resolve_left fun hold => ?_
    exact List.disjoint_of_nodup_append honce (List.mem_map_of_mem hold) (List.mem_map_of_mem hr)
  refine ⟨rest, hwal.symm, hmine, ?_⟩
  have hsame : rest.map (·.tx) = List.replicate rest.length t :=
    List.eq_replicate_iff.mpr ⟨by simp, by simpa using hmine⟩
  have hnodup := (List.nodup_append.mp honce).2.1
  rw [hsame] at hnodup
  exact List.nodup_replicate.mp hnodup

/-- If it has committed nothing, the log is as it was. -/
theorem OwnPart.unchanged {s₁ s : Sys} {t : TxId} {rest : List Commit} {x : Tx}
    (h : OwnPart s₁ s t rest) (hlinked : Linked s) (hwrites : ∀ r ∈ s.wal, r.writes ≠ [])
    (hx : s.txs t = some x) (hnothing : ∀ d ws, x.commit = some (d, ws) → ws = []) :
    s.wal = s₁.wal := by
  cases rest with
  | nil => rw [h.wal, List.append_nil]
  | cons r rest =>
    -- a record of the request would be one of writes, and it has committed none
    exfalso
    have hmem : r ∈ s.wal := h.wal ▸ List.mem_append_right _ List.mem_cons_self
    obtain ⟨y, d, hy, _, hcommit, _⟩ := hlinked.wal r hmem
    rw [h.mine r List.mem_cons_self, hx] at hy
    obtain rfl := Option.some.inj hy
    exact hwrites r hmem (hnothing d r.writes hcommit)

/-! ## Serving -/

/-- Between the two states request `t` has been served: its answer and the tables are those
    of the inventory. -/
def Served (s s' : Sys) (t : TxId) (req : Request) : Prop :=
  ∃ x r rowId entryId a, s'.txs t = some x ∧ x.response = some r ∧ a.Shown req r ∧
    s.db.inventory.serve rowId entryId req = (s'.db.inventory, a)

/-- Between the two states request `t` has been answered 500, and has changed nothing. -/
def TurnedDown (s s' : Sys) (t : TxId) : Prop :=
  s'.db = s.db ∧ ∃ x detail, s'.txs t = some x ∧ x.response = some (.error 500 detail)

section

variable {cache : CacheService} {d₀ : Db} {ls₁ : List (system ⟨.http, cache⟩).Label}
  {c₁ c₂ : (system ⟨.http, cache⟩).Config} {t : TxId} {req : Request}

/-- A request that starts at rest is on its own. -/
private theorem onItsOwn_start {cfg : Config}
    {ok : (system cfg).Config → (system cfg).Label → Prop} {ls₁ : List (system cfg).Label}
    {c₁ c₂ : (system cfg).Config} (hd₀ : d₀.Consistent) (hrun₁ : SysRun cfg ok d₀ ls₁ c₁)
    (hrest : AtRest c₁) (hstart : c₁.next (.start t req) = some c₂) : OnItsOwn c₁.st t req c₂ := by
  obtain ⟨hpool, rfl⟩ := next_start hstart
  have hnone : c₁.st.txs t = none := hrun₁.allStarted t hpool
  -- its record is new
  have halone : Tx.Alone c₁.st (c₁.st.start t req) { req } req := by
    refine ⟨rfl, ?_, ?_, fun _ => rfl⟩
    · intro _ _ _ _ _ hread
      cases hread
    · intro _ _ _ hcached
      cases hcached
  refine ⟨⟨_, Sys.setTx_txs_self _, halone⟩, by simp, fun u hu => ?_, fun r hr => Or.inl hr,
    fun hread => ⟨⟨?_, ?_, ?_⟩, rfl, rfl⟩⟩
  · -- the others were at rest
    have hother : Function.update c₁.pool t (some ((system cfg).code req)) u = c₁.pool u :=
      Function.update_of_ne hu ..
    simpa only [Ends, hother] using hrest u
  · intro x hx
    obtain rfl := Option.some.inj ((Sys.setTx_txs_self _).symm.trans hx)
    exact ⟨hread, rfl⟩
  · intro l hl
    obtain ⟨φ, hφ⟩ := inPhase_of_run hrun₁ t
    obtain rfl : φ = .free := hφ.unstarted hpool
    exact hφ.holds l hl
  · exact (hrun₁.linked hd₀).tx_ne hnone

/-- If a request on its own has committed nothing, the log is as it was. -/
private theorem log_unchanged {ls : List (system ⟨.http, cache⟩).Label}
    {c : (system ⟨.http, cache⟩).Config} (hd₀ : d₀.Consistent)
    (hrun₁ : SysRun ⟨.http, cache⟩ (RaceFree ⟨.http, cache⟩) d₀ ls₁ c₁)
    (hstart : c₁.next (.start t req) = some c₂) (hrun : Run (RaceFree ⟨.http, cache⟩) c₂ ls c)
    (hown : OnItsOwn c₁.st t req c) (hnone : NoCommit c.st t) : c.st.wal = c₁.st.wal := by
  have hall : SysRun ⟨.http, cache⟩ (RaceFree ⟨.http, cache⟩) d₀ _ c :=
    (raceFree_start hrun₁ hstart).trans hrun
  have hlinked := hall.linked hd₀
  obtain ⟨rest, hpart⟩ := hown.part hlinked (wal_since_start hstart hrun)
  obtain ⟨x, hx, _⟩ := hown.tx
  refine hpart.unchanged hlinked (wal_writes_of_run hall) hx fun d ws hcommit => ?_
  by_contra hws
  obtain ⟨r, hr, htx, _⟩ := hlinked.committed t x d ws hx hcommit hws
  exact hnone r hr htx

/-- What a request on its own has done when it ends, if none of its statements has failed. -/
private theorem serves_of_run {ls : List (system ⟨.http, cache⟩).Label}
    {c : (system ⟨.http, cache⟩).Config} (hd₀ : d₀.Consistent) (hunique : d₀.NamesUnique)
    (hrun₁ : SysRun ⟨.http, cache⟩ (RaceFree ⟨.http, cache⟩) d₀ ls₁ c₁)
    (hstart : c₁.next (.start t req) = some c₂) (hvalid : req.valid = true)
    (hname : ∀ b, req = .createItem b → ∀ i ∈ c₁.st.db.items.rows, i.name ≠ b.name)
    (hrun : Run (RaceFree ⟨.http, cache⟩) c₂ ls c) (hown : OnItsOwn c₁.st t req c)
    (hends : Ends c t) (hclean : ∀ x, c.st.txs t = some x → x.faulted = false) :
    Served c₁.st c.st t req := by
  -- what the request has committed is all that was committed since
  have hall : SysRun ⟨.http, cache⟩ (RaceFree ⟨.http, cache⟩) d₀ _ c :=
    (raceFree_start hrun₁ hstart).trans hrun
  have hlog₁ := RaceFree.log hd₀ hrun₁
  have hlog := RaceFree.log hd₀ hall
  have hwal := wal_since_start hstart hrun
  obtain ⟨rest, hpart⟩ := hown.part (hall.linked hd₀) hwal
  have hbefore := (hlog₁.db_eq_of_prefix hwal).symm
  have hunchanged := log_unchanged hd₀ hrun₁ hstart hrun hown
  obtain ⟨x, hx, hconcluded⟩ := concluded_of_run hd₀ hunique hrun₁ hstart hrun hends
  cases hconcluded with
  | faulted hfaulted => cases hfaulted.symm.trans (hclean x hx)
  | taken r hr htaken =>
    obtain ⟨hnone, b, _, hreq, htaken, _⟩ := htaken
    obtain ⟨i, hi, hiname⟩ := hlog₁.row_of_taken (hunchanged hnone ▸ htaken)
    exact absurd hiname (hname b hreq i hi)
  | linearized r hr hlinearized =>
    cases hlinearized with
    | commits k r' a hk hentry _ hreq hserve hshown =>
      -- its one commit is the last of the log
      have hlt : k < c.st.wal.length := (List.getElem?_eq_some_iff.mp hentry).1
      have hlen : c.st.wal.length = c₁.st.wal.length + rest.length := by
        rw [hpart.wal, List.length_append]
      have hone := hpart.one
      obtain rfl : k = c₁.st.wal.length := by omega
      have hend : c₁.st.wal.length + 1 = c.st.wal.length := by omega
      rw [hbefore, hend, ← hlog.db_eq] at hserve
      rw [Commit.serve, hreq] at hserve
      exact ⟨x, r, _, _, a, hx, hr, hshown, hserve⟩
    | observes k a hnone hk hle hserve hshown =>
      -- nothing was committed: it was served in the tables from which it started
      have hsame := hunchanged hnone
      have hafter : c.st.db = c₁.st.db := by
        rw [← hbefore, hlog.db_eq, hsame]
      obtain rfl : k = c₁.st.wal.length := by
        rw [hsame] at hle
        omega
      rw [hbefore] at hserve
      exact ⟨x, r, 0, 0, a, hx, hr, hshown, hafter ▸ hserve 0 0⟩
    | conflict k r' _ _ hnone hk hentry =>
      -- an overtaking commit would be another request's
      rw [hunchanged hnone] at hentry
      have hlt : k < c₁.st.wal.length := (List.getElem?_eq_some_iff.mp hentry).1
      omega
    | invalid _ hinvalid => cases hinvalid.symm.trans hvalid

/-- The whole run up to the end of a request on its own. -/
private theorem rangedOf_run {ls : List (system ⟨.http, cache⟩).Label}
    {c : (system ⟨.http, cache⟩).Config}
    (hrun₁ : SysRun ⟨.http, cache⟩ (RaceFree ⟨.http, cache⟩) d₀ ls₁ c₁)
    (hstart : c₁.next (.start t req) = some c₂) (hrun : Run (RangedTurn t) c₂ ls c) :
    SysRun ⟨.http, cache⟩ (fun c l => ∀ e, l = .step t e → OnCall RangedSql c l) d₀
      (ls₁ ++ [.start t req] ++ ls) c := by
  have hbefore := Run.unstarted hrun₁ (next_start hstart).1
  refine Run.trans (Run.snoc (hbefore.mono fun c l hl e heq => ?_) ?_ hstart)
    (hrun.mono fun c l hl e heq => ?_)
  · subst heq
    simp [Label.isStepOf] at hl
  · intro e heq
    cases heq
  · subst heq
    obtain ⟨e', heq, hranged⟩ := hl
    obtain ⟨_, rfl⟩ := Label.step.inj heq
    simp only [OnCall]
    split
    · exact (hranged _ _ ‹_›).sql
    · trivial

/-- A request on its own of which a statement has failed is turned down. -/
private theorem turnedDown_of_run {ls : List (system ⟨.http, cache⟩).Label}
    {c : (system ⟨.http, cache⟩).Config} (hd₀ : d₀.Consistent)
    (hrun₁ : SysRun ⟨.http, cache⟩ (RaceFree ⟨.http, cache⟩) d₀ ls₁ c₁)
    (hstart : c₁.next (.start t req) = some c₂) (hvalid : req.valid = true)
    (hturns : Run (RangedTurn t) c₂ ls c) (hrun : Run (RaceFree ⟨.http, cache⟩) c₂ ls c)
    (hown : OnItsOwn c₁.st t req c) (hends : Ends c t) {x : Tx} (hx : c.st.txs t = some x)
    (hfaulted : x.faulted = true) : TurnedDown c₁.st c.st t := by
  have hall : SysRun ⟨.http, cache⟩ (RaceFree ⟨.http, cache⟩) d₀ _ c :=
    (raceFree_start hrun₁ hstart).trans hrun
  obtain ⟨y, hy, halone⟩ := hown.tx
  obtain rfl := Option.some.inj (hx.symm.trans hy)
  have hwriter : x.req.isRead = false := by
    by_contra hread
    have hisRead : req.isRead = true := by simpa [halone.asked] using hread
    cases (halone.reading hisRead).symm.trans hfaulted
  obtain ⟨hcommit, detail, hr⟩ := refused_of_faulted hd₀ (fun c e hl => hl e rfl)
    (rangedOf_run hrun₁ hstart hturns) hx hends hwriter (halone.asked ▸ hvalid) hfaulted
  refine ⟨?_, x, detail, hx, hr⟩
  -- its commit would be in the log
  have hnone : NoCommit c.st t := by
    intro r hmem htx
    obtain ⟨y, d, hy, _, hcommitted, _⟩ := (hall.linked hd₀).wal r hmem
    rw [htx] at hy
    obtain rfl := Option.some.inj (hx.symm.trans hy)
    cases hcommit.symm.trans hcommitted
  have hsame := log_unchanged hd₀ hrun₁ hstart hrun hown hnone
  rw [(RaceFree.log hd₀ hall).db_eq, (RaceFree.log hd₀ hrun₁).db_eq, hsame]

/-- From every state that a run without races comes to rest in, a request that is left
    alone ends. Whenever it ends it has been served, if every value that it stores fits its
    column, a stock read finds a fresh entry and the name of a new item is free; if a value
    does not fit, it has been turned down. -/
theorem http_complete (hd₀ : d₀.Consistent) (hunique : d₀.NamesUnique)
    (hrun₁ : SysRun ⟨.http, cache⟩ (RaceFree ⟨.http, cache⟩) d₀ ls₁ c₁) (hrest : AtRest c₁)
    (hstart : c₁.next (.start t req) = some c₂) (hvalid : req.valid = true)
    (hname : ∀ b, req = .createItem b → ∀ i ∈ c₁.st.db.items.rows, i.name ≠ b.name)
    (hfresh : cache.enabled = false ∨ ∀ id, req = .getStock id → c₁.st.Fresh id) :
    (∃ ls c, Run (RangedTurn t) c₂ ls c ∧ Ends c t) ∧
    ∀ ls c, Run (RangedTurn t) c₂ ls c → Ends c t → AtRest c ∧
      (¬Overflowing c₂ t ls → Served c₁.st c.st t req) ∧
      (Overflowing c₂ t ls → TurnedDown c₁.st c.st t) := by
  have hrun₂ : SysRun ⟨.http, cache⟩ (RaceFree ⟨.http, cache⟩) d₀ (ls₁ ++ [.start t req]) c₂ :=
    raceFree_start hrun₁ hstart
  have hown₂ := onItsOwn_start hd₀ hrun₁ hrest hstart
  -- it can end: every request's awaits are bounded, and the next one can be made
  constructor
  · obtain ⟨ls, c, hranged, hends⟩ := reaches_rest (G := fun c l => OnCall Ranged c l)
      (fun _ _ hcan => hcan.ranged) (hrun₂.mono fun _ _ _ => trivial)
      (requests_complete hrun₂).2.bounded
    have hrun := hown₂.turns hd₀ hrun₂ hfresh hranged
    have hstarted := (hown₂.of_run hd₀ hrun₂ hfresh hrun).2.started
    exact ⟨ls, c, hrun, (hends t).resolve_left hstarted⟩
  · -- and however it ends, it is alone until then
    intro ls c hrun hends
    obtain ⟨hfree, hown⟩ := hown₂.of_run hd₀ hrun₂ hfresh hrun
    have hiff := faulted_iff_overflowing hd₀ hrun₁ hstart hrun
    refine ⟨fun u => ?_, fun hfits => ?_, fun hover => ?_⟩
    · by_cases hu : u = t
      · exact Or.inr (hu ▸ hends)
      · exact hown.others u hu
    · refine serves_of_run hd₀ hunique hrun₁ hstart hvalid hname hfree hown hends fun x hx => ?_
      simpa using mt (hiff x hx).mp hfits
    · obtain ⟨x, hx, _⟩ := hown.tx
      exact turnedDown_of_run hd₀ hrun₁ hstart hvalid hrun hfree hown hends hx
        ((hiff x hx).mpr hover)

end

/-- The confirmation of an order for more than is in stock. -/
theorem http_complete_overordered : ∃ c₁ c₂ c,
    SysRun ⟨.http, ⟨true⟩⟩ (RaceFree ⟨.http, ⟨true⟩⟩) Db.empty overordered c₁ ∧ AtRest c₁ ∧
    c₁.next (.start 2 (.transition .confirm 2)) = some c₂ ∧
    Run (RangedTurn 2) c₂ (turns 2 [0, 0, 0, 0, 0]) c ∧ Ends c 2 ∧
    (c.st.db.orders.find? 2).map (·.status) = some .rejected ∧
    ¬Overflowing c₂ 2 (turns 2 [0, 0, 0, 0, 0]) ∧ Served c₁.st c.st 2 (.transition .confirm 2) := by
  -- the run, evaluated up to the start and from there
  let fits : (system ⟨.http, ⟨true⟩⟩).Config → (system ⟨.http, ⟨true⟩⟩).Label → Prop :=
    fun c l => RaceFree ⟨.http, ⟨true⟩⟩ c l ∧ OnCall Ranged c l
  obtain ⟨c₁, c, hrun₁, hrun, hidle, hends, hclean, hstatus⟩ : ∃ c₁ c,
      SysRun ⟨.http, ⟨true⟩⟩ fits Db.empty overordered c₁ ∧
      Run fits c₁ ([.start 2 (.transition .confirm 2)] ++ turns 2 [0, 0, 0, 0, 0]) c ∧
      (∀ t ∈ overordered.filterMap Label.starts, Ends c₁ t) ∧ Ends c 2 ∧
      (c.st.txs 2).map (·.faulted) = some false ∧
      (c.st.db.orders.find? 2).map (·.status) = some .rejected :=
    Run.of_decide₂ (by decide +kernel) (by decide +kernel)
  obtain ⟨c₂, hone, hrun₂⟩ := hrun.split
  have hstart : c₁.next (.start 2 (.transition .confirm 2)) = some c₂ := by
    simpa [Config.run] using hone.run_eq
  have hrun₁ : SysRun ⟨.http, ⟨true⟩⟩ (RaceFree ⟨.http, ⟨true⟩⟩) Db.empty overordered c₁ :=
    hrun₁.mono fun _ _ hl => hl.1
  have hrest := hrun₁.atRest hidle
  have halone := rangedTurn_of_turns (hrun₂.mono fun _ _ hl => hl.2)
  -- no statement of it failed
  have hfits : ¬Overflowing c₂ 2 (turns 2 [0, 0, 0, 0, 0]) := by
    obtain ⟨x, hx, hclean⟩ := Option.map_eq_some_iff.mp hclean
    rw [← faulted_iff_overflowing Db.consistent_empty hrun₁ hstart halone x hx, hclean]
    exact Bool.false_ne_true
  refine ⟨c₁, c₂, c, hrun₁, hrest, hstart, halone, hends, hstatus, hfits, ?_⟩
  refine ((http_complete Db.consistent_empty Db.namesUnique_empty hrun₁ hrest hstart rfl ?_ ?_).2
    _ c halone hends).2.1 hfits
  · intro b hreq
    cases hreq
  · right
    intro id hreq
    cases hreq

end Nova
