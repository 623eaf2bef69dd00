import Nova.Spec.Coherence
import Nova.Spec.Publication
import Nova.Spec.ReadEffect
import Nova.Spec.Serial

/-!
# Stock reads when Redis fails

A failing Redis command is swallowed. A failing `GET` is harmless: the read falls back
to the table. A failing `SETEX` leaves the old entry in place, and the next `GET` that
succeeds trusts it. In serial runs without such a `GET`, stock reads answer as without a
cache, with the quantity last committed (`degraded_reads`); `degraded_stale` is a run
with one, whose read answers with an older quantity.
-/

namespace Nova

open Machine

/-! ## The quantity last committed -/

/-- The stock of an item as the last create, adjust, confirm or cancel has committed
    it, or as it was in the first tables `d₀`. -/
def Sys.lastStock (d₀ : Db) (s : Sys) (id : Uuid) : Option Int :=
  (((d₀.items.find? id).map (·.stockQuantity)).toList ++
    (s.wal.filter fun r => !r.req.isRead).flatMap fun r =>
      r.writes.filterMap (Write.stockOf? id)).getLast?

/-- The stock of an item after some writes is the last that they wrote. -/
theorem Db.stock_applyAll {d : Db} (ws : List Write) (id : Uuid) :
    ((d.applyAll ws).items.find? id).map (·.stockQuantity) =
      (ws.filterMap (Write.stockOf? id)).getLast?.or
        ((d.items.find? id).map (·.stockQuantity)) := by
  induction ws generalizing d with
  | nil => rfl
  | cons w ws ih =>
    -- the last row that is written decides
    have hw : ((d.apply w).items.find? id).map (·.stockQuantity) =
        (Write.stockOf? id w).or ((d.items.find? id).map (·.stockQuantity)) := by
      cases w with
      | item i =>
        simp only [Db.apply, Table.find?_upsert, Write.stockOf?, eq_comm (a := id)]
        split <;> rfl
      | order o | movement m => rfl
    have hrest := ih (d := d.apply w)
    rw [hw] at hrest
    refine hrest.trans ?_
    cases hq : Write.stockOf? id w with
    | none => rw [List.filterMap_cons_none hq, Option.none_or]
    | some q =>
      rw [List.filterMap_cons_some hq, List.getLast?_cons, Option.some_or]
      cases (ws.filterMap (Write.stockOf? id)).getLast? with
      | none | some q' => rfl

/-- A commit of a writer adds what it writes. -/
theorem Sys.lastStock_commit {d₀ : Db} {s : Sys} {t : TxId} {x : Tx} {id : Uuid}
    (hread : x.req.isRead = true → x.writes = []) : (s.commit t x).lastStock d₀ id =
      (x.writes.filterMap (Write.stockOf? id)).getLast?.or (s.lastStock d₀ id) := by
  have hwal : (s.commit t x).wal =
      if x.writes = [] then s.wal else s.wal ++ [⟨t, x.req, x.read, x.writes⟩] := rfl
  rw [Sys.lastStock, hwal]
  split
  · rename_i hnone
    simp [hnone, Sys.lastStock]
  · rename_i hwrites
    have hwriter : x.req.isRead = false := by
      by_contra hr
      exact hwrites (hread (by simpa using hr))
    simp [hwriter, Sys.lastStock, List.getLast?_append, Option.or_assoc]

/-! ## What a read knows -/

/-- A system without overwritten quantities. -/
private abbrev noOverwrite : Allow := ⟨True, True, False⟩

variable {cache : CacheService} {d₀ : Db} {s s' : Sys} {t : TxId} {x x' : Tx} {e : Env} {o : Stmt}

/-- Without overwritten quantities a stock read has nothing to commit. -/
theorem Awaits.read_commits {cfg : Config} (h : Awaits cfg noOverwrite d₀ t x .commit s)
    (hlive : x.aborted = false) (hread : x.req.isRead = true) : x.writes = [] := by
  by_contra hne
  obtain ⟨e, heffect, _⟩ := (h.pre.2 hlive).1 hne
  exact hne (heffect.read_writes (fun hover => hover) hread)

/-- What a stock read has seen is the committed row, and what it has found in the cache
    the committed stock. -/
structure Tx.ReadsRow (x : Tx) (id : Uuid) (s : Sys) : Prop where
  seen : ∀ row, x.seen = some row → row = s.db.items.find? id
  cached : ∀ q, x.cached = some q → ∃ i, s.db.items.find? id = some i ∧ i.stockQuantity = q

/-- Where `GET` succeeds, it finds no entry or a fresh one. -/
def FreshEntry (e : Env) (o : Stmt) (s : Sys) : Prop :=
  ∀ id, o = .redisGet id → e.fault = none → s.Fresh id

/-- An await by a request that runs alone. -/
theorem Tx.ReadsRow.step {cfg : Config} {id : Uuid} {r : o.Res} (h : x.ReadsRow id s)
    (hreq : x.req = .getStock id) (haw : Awaits cfg noOverwrite d₀ t x o s)
    (hfresh : FreshEntry e o s) (hbreak : e.breaks o = false)
    (hexec : exec e t o s = some (r, s')) (hx' : s'.txs t = some x') : x'.ReadsRow id s' := by
  have hread : x.req.isRead = true := by rw [hreq]; rfl
  obtain ⟨y, hy, hnotes⟩ := exec_notes haw.tx hexec
  obtain rfl : y = x' := Option.some.inj (hy.symm.trans hx')
  have hdb : s'.db = s.db := by
    obtain ⟨x₁, hx₁, hmove | ⟨rfl, hlive, rfl⟩⟩ := exec_move hexec
    · exact (hmove.frame hx₁).2.1
    · obtain rfl : x₁ = x := Option.some.inj (hx₁.symm.trans haw.tx)
      show s.db.applyAll x₁.writes = s.db
      rw [haw.read_commits hlive hread, Db.applyAll_nil]
  constructor
  · intro row hrow
    rw [hdb]
    rcases hnotes.seen with hsame | ⟨id', rfl, hselect⟩
    · exact h.seen row (hsame ▸ hrow)
    · obtain ⟨hreq', hwrites⟩ := haw.pre hread
      obtain rfl := Request.getStock.inj (hreq.symm.trans hreq')
      rw [hselect, Sys.view, hwrites] at hrow
      exact (Option.some.inj hrow).symm
  · intro q hq
    rw [hdb]
    rcases hnotes.cached with hsame | ⟨id', rfl, hget⟩
    · exact h.cached q (hsame ▸ hq)
    · obtain rfl := Request.getStock.inj (hreq.symm.trans haw.pre)
      cases hfault : e.fault with
      | none => exact hfresh _ rfl hfault q (hget ▸ hq)
      | some f =>
        -- a failing `GET` notes only that it failed
        cases f with
        | cancelled => simp [Env.breaks, hfault] at hbreak
        | error =>
          have hfailed : s' = s.setTx t { x with redisFailed := true } := by
            simp only [exec, haw.tx, hfault, Stmt.isSql, Stmt.isRedis, Bool.and_false,
              Bool.false_eq_true, ↓reduceIte, Option.some.injEq, Prod.mk.injEq] at hexec
            exact hexec.2.symm
          rw [hfailed, Sys.setTx_txs_self] at hy
          obtain rfl := Option.some.inj hy
          exact h.cached q hq

/-- What such a read answers. -/
theorem Tx.ReadsRow.answers {id : Uuid} {r : Response} (h : x.ReadsRow id s) (hreads : x.Reads r)
    (hcalm : x.faulted = false)
    (hlast : s.lastStock d₀ id = (s.db.items.find? id).map (·.stockQuantity)) (t : TxId) :
    (∃ item, s.stockRead ⟨false⟩ t id = some (.ok item) ∧
      r = .success 200 (.stock item.response) ∧ s.lastStock d₀ id = some item.stockQuantity) ∨
    (∃ e, s.stockRead ⟨false⟩ t id = some (.error e) ∧
      r.status = 404 ∧ s.lastStock d₀ id = none) := by
  rw [hlast, Sys.stockRead_disabled]
  cases r with
  | success status body =>
    left
    obtain ⟨i, hseen, rfl, rfl⟩ := hreads
    have hrow := h.seen _ hseen
    -- a cached quantity is the one of the row
    have hquantity : x.cached.getD i.stockQuantity = i.stockQuantity := by
      cases hq : x.cached with
      | none => rfl
      | some q =>
        obtain ⟨i', hi', hstock⟩ := h.cached q hq
        rw [← hrow] at hi'
        obtain rfl := Option.some.inj hi'
        exact hstock.symm
    rw [← hrow, hquantity]
    exact ⟨.ofRow i, rfl, rfl, rfl⟩
  | error status detail =>
    right
    obtain ⟨hseen, hstatus⟩ := hreads.resolve_right fun hf => nomatch hcalm.symm.trans hf
    rw [← h.seen _ hseen]
    exact ⟨_, rfl, hstatus, rfl⟩

/-! ## Serial runs in which only Redis fails -/

instance (s : Sys) (id : Uuid) : Decidable (s.Swallowed id) :=
  decidable_of_iff ((s.lastWriter? id).any fun r => (s.txs r.tx).any (·.redisFailed)) <| by
    simp only [Sys.Swallowed, Option.any_eq_true, exists_and_left]

/-- A `GET` that succeeds finds no entry, or no failure was swallowed since the item was
    last written. -/
def TrustsEntry (e : Env) (o : Stmt) (s : Sys) : Prop :=
  match o with
  | .redisGet id => e.fault = none → s.cache id = none ∨ ¬s.Swallowed id
  | _ => True

instance (e : Env) (s : Sys) : ∀ o, Decidable (TrustsEntry e o s)
  | .redisGet id =>
      inferInstanceAs (Decidable (e.fault = none → s.cache id = none ∨ ¬s.Swallowed id))
  | .selectItem _ | .selectItemForUpdate _ | .insertItem _ | .updateItem _ _ | .selectOrder _
  | .insertOrder _ | .updateOrder _ _ _ | .insertMovement _ | .redisSetex _ _ | .commit
  | .rollback | .respond _ => isTrue trivial

/-- Serial runs in which nothing fails but Redis commands, and no stock read trusts an
    entry that a failed `SETEX` has left. -/
abbrev degradedRuns (d₀ : Db) :
    List (system ⟨.http, ⟨true⟩⟩).Label → (system ⟨.http, ⟨true⟩⟩).Config → Prop :=
  serialRuns ⟨.http, ⟨true⟩⟩
    (OnCall fun e _ o s => e.breaks o = false ∧ TrustsEntry e o s) d₀

section

variable {ls : List (system ⟨.http, ⟨true⟩⟩).Label} {c : (system ⟨.http, ⟨true⟩⟩).Config}
  {ok : (system ⟨.http, ⟨true⟩⟩).Config → (system ⟨.http, ⟨true⟩⟩).Label → Prop}

/-- Moves of one request at a time, in which nothing fails but Redis commands and no
    quantity is overwritten. -/
private structure Calm
    (ok : (system ⟨.http, ⟨true⟩⟩).Config → (system ⟨.http, ⟨true⟩⟩).Label → Prop) :
    Prop where
  admitted : ∀ c l, ok c l → OnCall (Admitted ⟨.http, ⟨true⟩⟩ noOverwrite) c l
  unbroken : ∀ c l, ok c l → OnCall (fun e _ o _ => e.breaks o = false) c l
  serial : ∀ c l, ok c l → OneAtATime c l

/-- The cache is coherent, and reads publish nothing. -/
private structure Degraded (s : Sys) : Prop where
  coherent : Coherent s
  reads : ∀ t x, s.txs t = some x → x.req.isRead = true → x.published = none

/-- The cache of every calm run is coherent. -/
private theorem degraded_of_run (hd₀ : d₀.Consistent) (hok : Calm ok)
    (hrun : SysRun ⟨.http, ⟨true⟩⟩ ok d₀ ls c) : Degraded c.st := by
  refine SysRun.state_invariant hd₀ (fun _ => trivial) hok.admitted
    ⟨.init d₀, fun _ _ hx => by cases hx⟩
    (fun c t req _ hnone h => ?_) (fun c t e o k x r s' hl hpool haw _ hm h => ?_)
    (fun c t e k x hl hpool haw hlive h => ?_) (fun s id h => ?_) hrun
  · exact ⟨h.coherent.start hnone req, forall_update h.reads fun _ => rfl⟩
  · have hcalm : e.breaks o = false := (hok.unbroken c _ hl).apply hpool
    refine ⟨h.coherent.move haw.inv.compat rfl haw.tx haw.pre (fun hf => ?_) hm, ?_⟩
    · cases hcalm.symm.trans hf
    · cases hm with
      | note y _ hk hq | ended y _ _ hk hq =>
        refine forall_update h.reads fun hread => hq.published.trans (h.reads t x haw.tx ?_)
        exact hk.req ▸ hread
      | locked => exact h.reads
      | wrote => exact forall_update h.reads (h.reads t x haw.tx)
      | published id q ho =>
        -- a stock read publishes only where it overwrites, which is not admitted
        refine forall_update h.reads fun hread => ?_
        subst ho
        rcases haw.readOnly hread with hover | hro
        · exact hover.elim
        · cases hro
  · obtain ⟨hnew, hcommit⟩ := haw.pre
    exact ⟨h.coherent.commit haw.tx (haw.read_commits hlive) hnew (hcommit hlive).1
      ((hcommit hlive).2 rfl), forall_update h.reads (h.reads t x haw.tx)⟩
  · exact ⟨h.coherent.expire id, h.reads⟩

/-- While a stock read is under way, an entry is fresh unless a failure was swallowed. -/
private theorem settled_of_serial (hd₀ : d₀.Consistent) (hok : Calm ok)
    (hrun : SysRun ⟨.http, ⟨true⟩⟩ ok d₀ ls c) {t : TxId} {x : Tx} (hpool : c.pool t ≠ none)
    (hactive : ¬Ends c t) (hx : c.st.txs t = some x)
    (hread : x.req.isRead = true) (id : Uuid) : c.st.Fresh id ∨ c.st.Swallowed id := by
  have hdegraded := degraded_of_run hd₀ hok hrun
  rcases hdegraded.coherent.settled id with hfresh | hswallowed | ⟨t', y, q, hy, hpub, hnew⟩
  · exact Or.inl hfresh
  · exact Or.inr hswallowed
  exfalso
  -- whoever is ahead is under way, and the read is not ahead
  have hwrote : y.published ≠ none := by simp [hpub]
  by_cases ht : t' = t
  · subst ht
    obtain rfl := Option.some.inj (hx.symm.trans hy)
    exact hwrote (hdegraded.reads t' x hx hread)
  · rcases hrun.only hd₀ hok.serial hpool hactive ht with hnone | hends
    · rw [hrun.allStarted t' hnone] at hy
      cases hy
    · have hcalm := hrun.unfaulted hok.unbroken t' y hy
      refine hwrote ((hrun.finished hd₀ rfl hy hends).published_eq_none hnew (fun hf => ?_)
        (hdegraded.reads t' y hy))
      cases hcalm.symm.trans hf

/-- What a stock read knows in a serial run whose reads find fresh entries. -/
private theorem readsRow_of_run (hd₀ : d₀.Consistent) (hok : Calm ok)
    (hfresh : ∀ c l, ok c l → OnCall (fun e _ o s => FreshEntry e o s) c l)
    (hrun : SysRun ⟨.http, ⟨true⟩⟩ ok d₀ ls c) {t : TxId} {x : Tx} {o : Stmt}
    {k : o.Res → Code Unit} {id : Uuid}
    (hpool : c.pool t = some (.call o k)) (hx : c.st.txs t = some x) (hreq : x.req = .getStock id) :
    x.ReadsRow id c.st := by
  refine SysRun.serial_invariant (J := fun _ x s => ∀ id, x.req = .getStock id → x.ReadsRow id s)
    hd₀ (fun _ => trivial) hok.admitted hok.serial (fun _ _ _ _ _ => ⟨by simp, by simp⟩)
    (fun c t e o k x r s' x' hl hcall haw hexec hx' h id hreq' => ?_)
    (fun _ _ _ _ h id hreq => ⟨(h id hreq).seen, (h id hreq).cached⟩) hrun hpool
    (not_ends_of_call hpool) hx id hreq
  have hkeeps : x'.req = x.req := exec_req haw.tx hexec hx'
  exact (h id (hkeeps ▸ hreq')).step (hkeeps ▸ hreq') haw ((hfresh c _ hl).apply hcall)
    ((hok.unbroken c _ hl).apply hcall) hexec hx'

/-- The moves of those runs, whose reads find fresh entries and load the row that they
    found. -/
private abbrev FreshMove (c : (system ⟨.http, ⟨true⟩⟩).Config)
    (l : (system ⟨.http, ⟨true⟩⟩).Label) :
    Prop :=
  (OnCall (fun e _ o s => e.breaks o = false ∧ TrustsEntry e o s) c l ∧ OneAtATime c l) ∧
    OnCall (fun e t o s => FreshEntry e o s ∧ CurrentRead e t o s = true) c l

/-- Fresh moves are calm. -/
private theorem freshMove_calm : Calm FreshMove where
  admitted _ _ h := h.2.mono fun _ _ _ _ h => ⟨Or.inl trivial, Or.inr (Or.inr h.2)⟩
  unbroken _ _ h := h.1.1.mono fun _ _ _ _ h => h.1
  serial _ _ h := h.1.2

/-- A fresh move reads no entry that was left behind. -/
private theorem freshMove_entry (c : (system ⟨.http, ⟨true⟩⟩).Config)
    (l : (system ⟨.http, ⟨true⟩⟩).Label) (h : FreshMove c l) :
    OnCall (fun e _ o s => FreshEntry e o s) c l :=
  h.2.mono fun _ _ _ _ h => h.1

/-- A degraded run makes fresh moves only. -/
private theorem degraded_fresh (hd₀ : d₀.Consistent) (hrun : degradedRuns d₀ ls c) :
    SysRun ⟨.http, ⟨true⟩⟩ FreshMove d₀ ls c := by
  refine SysRun.also (fun ls c l c' hpre hl hnext => ?_) hrun
  cases l with
  | start | tick => trivial
  | step t e =>
    obtain ⟨o, k, r, s, hcall, _, _⟩ := next_step hnext
    have hactive := not_ends_of_call hcall
    have hpool : c.pool t ≠ none := by simp [hcall]
    obtain ⟨x, hx, _, hpre'⟩ :=
      (holds_of_run hd₀ (fun _ => trivial) freshMove_calm.admitted hpre).pre
        (contract_holds hd₀ fun _ => trivial) hcall
    simp only [OnCall, hcall]
    constructor
    · rintro id rfl hfault
      have hread : x.req.isRead = true := by
        rw [show x.req = .getStock id from hpre']
        rfl
      have htrusts := (hl.1.apply hcall).2 hfault
      -- the entry is fresh, or a write of it was lost and it is not read
      rcases settled_of_serial hd₀ freshMove_calm hpre hpool hactive hx hread id with
        hfresh | hswallowed
      · exact hfresh
      · intro q hq
        rw [htrusts.resolve_right fun hnot => hnot hswallowed] at hq
        cases hq
    · cases o with
      | selectItem id =>
        -- the row still has the quantity that was cached
        simp only [CurrentRead, hx, Bool.or_eq_true, Bool.not_eq_true']
        cases hread : x.req.isRead with
        | false => exact Or.inl (Or.inr rfl)
        | true =>
          right
          obtain ⟨hreq, _⟩ := hpre' hread
          have hrow := readsRow_of_run hd₀ freshMove_calm freshMove_entry hpre hcall hx hreq
          cases hi : c.st.db.items.find? id with
          | none => rfl
          | some i =>
            simp only [Option.all_some, Bool.or_eq_true, decide_eq_true_eq]
            cases hq : x.cached with
            | none => exact Or.inl rfl
            | some q =>
              obtain ⟨i', hi', hstock⟩ := hrow.cached q hq
              rw [hi] at hi'
              obtain rfl := Option.some.inj hi'
              exact Or.inr (by rw [hstock])
      | selectItemForUpdate | insertItem | updateItem | selectOrder | insertOrder | updateOrder
      | insertMovement | redisGet | redisSetex | commit | rollback | respond => rfl

/-- Without overwritten quantities, an item's row has the stock last committed. -/
private theorem lastStock_of_run (hd₀ : d₀.Consistent)
    (hok : ∀ c l, ok c l → OnCall (Admitted ⟨.http, ⟨true⟩⟩ noOverwrite) c l)
    (hrun : SysRun ⟨.http, ⟨true⟩⟩ ok d₀ ls c) (id : Uuid) :
    c.st.lastStock d₀ id = (c.st.db.items.find? id).map (·.stockQuantity) := by
  refine SysRun.state_invariant
    (I := fun s => s.lastStock d₀ id = (s.db.items.find? id).map (·.stockQuantity)) hd₀
    (fun _ => trivial) hok ?_ (fun c t req _ _ h => h)
    (fun c t e o k x r s' _ _ haw _ hm h => ?_) (fun c t e k x _ _ haw hlive h => ?_)
    (fun s id' h => h) hrun
  · simp only [Sys.lastStock, Sys.init, List.filter_nil, List.flatMap_nil, List.append_nil]
    cases (d₀.items.find? id).map (·.stockQuantity) with
    | none | some q => rfl
  · obtain ⟨hwal, hdb, _⟩ := hm.frame haw.tx
    have hsame : s'.lastStock d₀ id = c.st.lastStock d₀ id := by
      simp only [Sys.lastStock, hwal]
    exact hsame.trans (h.trans (by rw [hdb]))
  · exact (Sys.lastStock_commit (haw.read_commits hlive)).trans
      ((congrArg _ h).trans (Db.stock_applyAll x.writes id).symm)

/-- Every stock read of those runs is answered as it would be without a cache, with the
    quantity last committed. -/
theorem degraded_reads (hd₀ : d₀.Consistent) (hrun : degradedRuns d₀ ls c) {t : TxId} {x : Tx}
    {id : Uuid} {r : Response} (hr : answering c t = some r) (hx : c.st.txs t = some x)
    (hreq : x.req = .getStock id) :
    (∃ item, c.st.stockRead ⟨false⟩ t id = some (.ok item) ∧
      r = .success 200 (.stock item.response) ∧ c.st.lastStock d₀ id = some item.stockQuantity) ∨
    (∃ e, c.st.stockRead ⟨false⟩ t id = some (.error e) ∧
      r.status = 404 ∧ c.st.lastStock d₀ id = none) := by
  obtain ⟨k, hpool⟩ := answering_eq_some.mp hr
  have hrun' := degraded_fresh hd₀ hrun
  have hrow := readsRow_of_run hd₀ freshMove_calm freshMove_entry hrun' hpool hx hreq
  have hcalm := hrun'.unfaulted freshMove_calm.unbroken t x hx
  obtain ⟨y, hy, _, hreads, _⟩ :=
    (holds_of_run hd₀ (fun _ => trivial) freshMove_calm.admitted hrun').pre
      (contract_holds hd₀ fun _ => trivial) hpool
  obtain rfl : y = x := Option.some.inj (hy.symm.trans hx)
  exact hrow.answers (hreads (by rw [hreq]; rfl)) hcalm
    (lastStock_of_run hd₀ freshMove_calm.admitted hrun' id) t

end

/-- An adjustment by -3 whose `SETEX` fails. Its entry expires before one read, and the
    `GET` of another fails. -/
def degraded : List (system ⟨.http, ⟨true⟩⟩).Label :=
  [.start 0 (.createItem { name := "Tea", price := 350, stockQuantity := 10 })] ++
  turns 0 [0, 0, 1, 0, 0, 0] ++
  [.start 1 (.adjustStock 0 { delta := -3, reason := "spilled" })] ++ turns 1 [0, 0, 2, 0] ++
  [.step 1 { fault := some .error }] ++ turns 1 [0, 0] ++
  [.start 2 (.getStock 0), .step 2 { fault := some .error }] ++ turns 2 [0, 0, 0] ++
  [.tick (0 : Uuid), .start 3 (.getStock 0)] ++ turns 3 [0, 0]

/-- After a `SETEX` has failed and the entry has expired, a read is answered from the table.
    -/
theorem degraded_reads_expired : ∃ c x b, degradedRuns Db.empty degraded c ∧
    answering c 3 = some (.success 200 (.stock b)) ∧ c.st.txs 3 = some x ∧
    c.st.lastStock Db.empty 0 = some b.stockQuantity ∧ b.stockQuantity = 7 := by
  let shown : (system ⟨.http, ⟨true⟩⟩).Config → Option Response × Option Request := fun c =>
    (answering c 3, (c.st.txs 3).map (·.req))
  obtain ⟨c, hrun, hval⟩ : ∃ c, degradedRuns Db.empty degraded c ∧
      shown c = (some (.success 200 (.stock ⟨0, 7, 10, true⟩)), some (.getStock 0)) :=
    serialRuns_of_eval shown (by decide +kernel) (by decide +kernel)
  obtain ⟨hr, htx⟩ := Prod.mk.inj hval
  obtain ⟨x, hx, hreq⟩ := Option.map_eq_some_iff.mp htx
  rcases degraded_reads Db.consistent_empty hrun hr hx hreq with
    ⟨item, _, hanswer, hlast⟩ | ⟨e, _, h, _⟩
  · obtain ⟨_, hbody⟩ := Response.success.inj hanswer
    have hstock := congrArg StockResponse.stockQuantity (Body.stock.inj hbody)
    exact ⟨c, x, _, hrun, hr, hx, hlast.trans (congrArg some hstock.symm), rfl⟩
  · cases h

/-- The adjustment by -3 whose `SETEX` fails, and a read while the old entry is still
    there: it answers 10. -/
theorem degraded_stale : ¬∀ ls c,
    serialRuns ⟨.http, ⟨true⟩⟩ (OnCall fun e _ o _ => e.breaks o = false) Db.empty ls c →
    ∀ t x id b, answering c t = some (.success 200 (.stock b)) → c.st.txs t = some x →
      x.req = .getStock id → c.st.lastStock Db.empty id = some b.stockQuantity := by
  intro hall
  let shown : (system ⟨.http, ⟨true⟩⟩).Config → Option Response × Option Request × Option Int :=
    fun c => (answering c 2, (c.st.txs 2).map (·.req), c.st.lastStock Db.empty 0)
  obtain ⟨c, hrun, hval⟩ : ∃ c, serialRuns ⟨.http, ⟨true⟩⟩
      (OnCall fun e _ o _ => e.breaks o = false) Db.empty (staleRead.take 18) c ∧
      shown c = (some (.success 200 (.stock ⟨0, 10, 10, true⟩)), some (.getStock 0), some 7) :=
    serialRuns_of_eval shown (by decide +kernel) (by decide +kernel)
  simp only [shown, Prod.mk.injEq] at hval
  obtain ⟨hr, htx, hlast⟩ := hval
  obtain ⟨x, hx, hreq⟩ := Option.map_eq_some_iff.mp htx
  have hbad := hall _ c hrun 2 x 0 ⟨0, 10, 10, true⟩ hr hx hreq
  rw [hlast] at hbad
  simp at hbad

end Nova
