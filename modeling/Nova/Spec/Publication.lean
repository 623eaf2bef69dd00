import Nova.Spec.Runs

/-!
# What the cache has shown

`set_stock` stores a quantity before the transaction that wrote it has committed. So the
cache, and with it every answer to a stock read, shows committed quantities only, if no
`SETEX` of a request that changes a stock gets through to Redis (`shown_committed`).
Every other one stores a quantity that is not committed yet, and may never be:
`shown_uncommitted` is a read that answers with the stock of an adjustment whose `COMMIT`
failed.
-/

namespace Nova

open Machine

/-! ## The quantities of an item -/

/-- The quantity that a row version gives the item, if it is the item's row. -/
def Write.stockOf? (id : Uuid) : Write → Option Int
  | .item i => if i.id = id then some i.stockQuantity else none
  | .order _ | .movement _ => none

/-- Every quantity that was ever committed for an item, the one in the first tables
    `d₀` included. -/
def Sys.stockHistory (d₀ : Db) (s : Sys) (id : Uuid) : List Int :=
  ((d₀.items.find? id).map (·.stockQuantity)).toList ++
    s.wal.flatMap fun r => r.writes.filterMap (Write.stockOf? id)

/-- An item's row gives the item its quantity. -/
theorem Write.stockOf?_item (i : MenuItem) :
    Write.stockOf? i.id (.item i) = some i.stockQuantity := by
  simp [Write.stockOf?]

section

variable {d₀ : Db} {s s' : Sys} {t : TxId} {x : Tx} {id : Uuid} {q : Int} {e : Env}

/-- The history is that of the log. -/
theorem Sys.stockHistory_of_wal (hwal : s'.wal = s.wal) :
    s'.stockHistory d₀ id = s.stockHistory d₀ id := by
  rw [Sys.stockHistory, hwal]
  rfl

/-- A commit adds what it writes to the history. -/
theorem Sys.mem_stockHistory_commit : q ∈ (s.commit t x).stockHistory d₀ id ↔
    q ∈ s.stockHistory d₀ id ∨ q ∈ x.writes.filterMap (Write.stockOf? id) := by
  have hwal : (s.commit t x).wal =
      if x.writes = [] then s.wal else s.wal ++ [⟨t, x.req, x.read, x.writes⟩] := rfl
  rw [Sys.stockHistory, hwal]
  split
  · rename_i hnone
    simp [hnone, Sys.stockHistory]
  · simp only [List.flatMap_append, List.flatMap_singleton, List.mem_append, Sys.stockHistory,
      or_assoc]

/-! ## The invariant -/

/-- The requests that change the stock of an item, if they get as far as that. -/
def Request.changesStock : Request → Bool
  | .createItem _ => true
  | .adjustStock _ b => b.delta ≠ 0
  | .transition a _ => a = .confirm || a = .cancel
  | .placeOrder _ | .getStock _ => false

/-- Redis takes no `SETEX` from a request that changes the stock. -/
def Withheld (e : Env) (t : TxId) (o : Stmt) (s : Sys) : Bool :=
  match o, s.txs t with
  | .redisSetex _ _, some x => e.fault.isSome || !x.req.changesStock
  | _, _ => true

/-- Every other request leaves the stock of its item as it is. -/
theorem Tx.stockDelta_eq_zero {x : Tx} (h : x.req.changesStock = false) : x.stockDelta = 0 := by
  unfold Tx.stockDelta
  cases hreq : x.req with
  | createItem | placeOrder | getStock => rfl
  | adjustStock id b =>
    rw [hreq] at h
    simpa [Request.changesStock] using h
  | transition a id =>
    rw [hreq] at h
    cases a with
    | confirm | cancel => cases h
    | ship | deliver => cases x.read <;> rfl

/-- What a read has seen are quantities in `l`. -/
structure Tx.Sees (x : Tx) (l : List Int) : Prop where
  cached : ∀ q, x.cached = some q → q ∈ l
  seen : ∀ i, x.seen = some (some i) → i.stockQuantity ∈ l
  response : ∀ status body, x.response = some (.success status body) →
    ∃ b, body = .stock b ∧ b.stockQuantity ∈ l

/-- A request may have seen more. -/
theorem Tx.Sees.mono {l l' : List Int} (h : x.Sees l) (hsub : ∀ q ∈ l, q ∈ l') : x.Sees l' where
  cached q hq := hsub q (h.cached q hq)
  seen i hi := hsub _ (h.seen i hi)
  response status body hr := by
    obtain ⟨b, hbody, hb⟩ := h.response status body hr
    exact ⟨b, hbody, hsub _ hb⟩

/-- Cache, table and reads show committed quantities. -/
structure ShowsCommitted (d₀ : Db) (s : Sys) : Prop where
  cache : ∀ id q, s.cache id = some q → q ∈ s.stockHistory d₀ id
  row : ∀ id i, s.db.items.find? id = some i → i.stockQuantity ∈ s.stockHistory d₀ id
  reads : ∀ t x id, s.txs t = some x → x.req = .getStock id → x.Sees (s.stockHistory d₀ id)

/-- At the start Redis shows nothing. -/
theorem ShowsCommitted.init (d₀ : Db) : ShowsCommitted d₀ (Sys.init d₀) where
  cache _ _ hq := nomatch hq
  row id i hi := by
    have hrow : d₀.items.find? id = some i := hi
    simp [Sys.stockHistory, hrow]
  reads _ _ _ hx := nomatch hx

/-- A new request has seen nothing. -/
theorem ShowsCommitted.start (h : ShowsCommitted d₀ s) (t : TxId) (req : Request) :
    ShowsCommitted d₀ (s.start t req) where
  cache := h.cache
  row := h.row
  reads t' x id hx hreq := by
    by_cases ht : t' = t
    · subst ht
      obtain rfl : { req } = x := Option.some.inj ((Sys.setTx_txs_self _).symm.trans hx)
      exact ⟨(fun _ hq => nomatch hq), (fun _ hi => nomatch hi), (fun _ _ hr => nomatch hr)⟩
    · exact h.reads t' x id ((Sys.setTx_txs_ne ht _).symm.trans hx) hreq

/-- An entry that expires shows nothing. -/
theorem ShowsCommitted.expire (h : ShowsCommitted d₀ s) (id : Uuid) :
    ShowsCommitted d₀ (s.expire id) where
  cache id' q hq := by
    simp only [Sys.expire, Function.update_apply] at hq
    split at hq
    · cases hq
    · exact h.cache id' q hq
  row := h.row
  reads := h.reads

/-- A read sees what table and cache show. -/
theorem ShowsCommitted.notes {cfg : Config} {A : Allow} {o : Stmt} {x' : Tx}
    (h : ShowsCommitted d₀ s) (hx : s.txs t = some x) (hreq : x.req = .getStock id)
    (hpre : x.Pre cfg A d₀ t s o) (hn : x.Notes s o x') : x'.Sees (s.stockHistory d₀ id) := by
  have hsees := h.reads t x id hx hreq
  have hread : x.req.isRead = true := by rw [hreq]; rfl
  constructor
  · -- a quantity is read from the cache, which shows committed stock
    intro q hq
    rcases hn.cached with hsame | ⟨id', rfl, hget⟩
    · exact hsees.cached q (hsame ▸ hq)
    · obtain rfl : id = id' := Request.getStock.inj (hreq.symm.trans hpre)
      exact h.cache id q (hget ▸ hq)
  · intro i hi
    rcases hn.seen with hsame | ⟨id', rfl, hselect⟩
    · exact hsees.seen i (hsame ▸ hi)
    · -- and a row from the tables, since a stock read has written none
      obtain ⟨hreq', hwrites⟩ := hpre hread
      obtain rfl : id = id' := Request.getStock.inj (hreq.symm.trans hreq')
      rw [hselect, Sys.view, hwrites] at hi
      exact h.row id i (Option.some.inj hi)
  · -- a response shows the quantity of the cache, or that of the row
    intro status body hr
    rcases hn.response with hsame | ⟨r, rfl, hrespond⟩
    · exact hsees.response status body (hsame ▸ hr)
    · obtain rfl : r = .success status body := Option.some.inj (hrespond.symm.trans hr)
      obtain ⟨i, hseen, _, rfl⟩ := hpre.1 hread
      refine ⟨_, rfl, ?_⟩
      show x.cached.getD i.stockQuantity ∈ s.stockHistory d₀ id
      cases hcached : x.cached with
      | none => exact hsees.seen i hseen
      | some q => exact hsees.cached q hcached

/-- A quantity that Redis takes from a request which changes nothing is the committed one. -/
theorem Publishes.committed (h : Publishes s t x id q) (hx : s.txs t = some x)
    (hok : Withheld e t (.redisSetex id q) s = true) (hfault : e.fault = none) :
    ∃ i, s.db.items.find? id = some i ∧ i.stockQuantity = q := by
  have hsame : x.req.changesStock = false := by simpa [Withheld, hx, hfault] using hok
  rcases h.change with ⟨i, hrow, rfl⟩ | ⟨_, b, hreq⟩
  · exact ⟨i, hrow, by rw [Tx.stockDelta_eq_zero hsame, add_zero]⟩
  · rw [hreq] at hsame
    cases hsame

/-- A move other than `COMMIT`. -/
theorem ShowsCommitted.move {cfg : Config} {A : Allow} {o : Stmt}
    (h : ShowsCommitted d₀ s) (hx : s.txs t = some x) (hpre : x.Pre cfg A d₀ t s o)
    (hok : Withheld e t o s = true) (hm : Move e o t x s s')
    (hn : ∃ x', s'.txs t = some x' ∧ x.Notes s o x') : ShowsCommitted d₀ s' := by
  obtain ⟨hwal, hdb, x₁, htxs, hkeeps⟩ := hm.frame hx
  obtain ⟨x', hx', hnotes⟩ := hn
  obtain rfl : x₁ = x' := by
    rw [htxs, Function.update_self] at hx'
    exact Option.some.inj hx'
  have hhistory : ∀ id, s'.stockHistory d₀ id = s.stockHistory d₀ id :=
    fun id => Sys.stockHistory_of_wal hwal
  constructor
  · intro id q hq
    rw [hhistory]
    cases hm with
    | published id' q' ho hfault =>
      -- only a publication changes the cache
      subst ho
      simp only [Sys.setTx_cache, Function.update_apply] at hq
      split at hq
      · rename_i hid
        obtain rfl := Option.some.inj hq
        obtain ⟨i, hrow, rfl⟩ := hpre.committed hx hok hfault
        exact hid ▸ h.row _ i hrow
      · exact h.cache id q hq
    | note | locked | wrote | ended => exact h.cache id q hq
  · intro id i hi
    rw [hhistory]
    exact h.row id i (hdb ▸ hi)
  · intro t' y id hy hreq
    rw [hhistory]
    rw [htxs] at hy
    by_cases ht : t' = t
    · subst ht
      rw [Function.update_self] at hy
      obtain rfl := Option.some.inj hy
      exact h.notes hx (hkeeps.req.symm.trans hreq) hpre hnotes
    · rw [Function.update_of_ne ht] at hy
      exact h.reads t' y id hy hreq

/-- `COMMIT` adds the new row version to the history. -/
theorem ShowsCommitted.commit (h : ShowsCommitted d₀ s) (hx : s.txs t = some x) :
    ShowsCommitted d₀ (s.commit t x) := by
  -- a commit extends every history
  have hgrow : ∀ id, ∀ q ∈ s.stockHistory d₀ id, q ∈ (s.commit t x).stockHistory d₀ id :=
    fun id q hq => Sys.mem_stockHistory_commit.mpr (Or.inl hq)
  constructor
  · exact fun id q hq => hgrow id q (h.cache id q hq)
  · intro id i hi
    have hget : (s.db.applyAll x.writes).get (.item id) = some (.item i) := Db.get_item.mpr hi
    -- the row is one that `t` has written, or the old one
    rcases Db.get_applyAll_some hget with hw | hold
    · obtain rfl : i.id = id := Table.key_of_find? hi
      exact Sys.mem_stockHistory_commit.mpr
        (Or.inr (List.mem_filterMap.mpr ⟨_, hw, Write.stockOf?_item i⟩))
    · exact hgrow id _ (h.row id i (Db.get_item.mp hold))
  · intro t' y id hy hreq
    by_cases ht : t' = t
    · subst ht
      obtain rfl := Option.some.inj ((Sys.setTx_txs_self _).symm.trans hy)
      have hsees := (h.reads t' x id hx hreq).mono (hgrow id)
      exact ⟨hsees.cached, hsees.seen, hsees.response⟩
    · exact (h.reads t' y id ((Sys.setTx_txs_ne ht _).symm.trans hy) hreq).mono (hgrow id)

end

/-! ## Runs -/

/-- Runs, with any failures, in which Redis takes no `SETEX` from a request that changes the
    stock of its item. -/
abbrev withheldRuns (cache : CacheService) (d₀ : Db) :
    List (system ⟨.http, cache⟩).Label → (system ⟨.http, cache⟩).Config → Prop :=
  SysRun ⟨.http, cache⟩ (OnCall fun e t o s => Withheld e t o s = true) d₀

/-- In those runs every entry of the cache and every answer to a stock read is a
    quantity that was committed for the item. -/
theorem shown_committed {cache : CacheService} {d₀ : Db}
    {ls : List (system ⟨.http, cache⟩).Label} {c : (system ⟨.http, cache⟩).Config}
    (hd₀ : d₀.Consistent) (hrun : withheldRuns cache d₀ ls c) :
    (∀ id q, c.st.cache id = some q → q ∈ c.st.stockHistory d₀ id) ∧
      ∀ t x id status body, c.st.txs t = some x → x.req = .getStock id →
        x.response = some (.success status body) →
        ∃ b, body = .stock b ∧ b.stockQuantity ∈ c.st.stockHistory d₀ id := by
  have hshows : ShowsCommitted d₀ c.st := by
    refine SysRun.state_invariant (A := ⟨True, True, True⟩) hd₀ (fun _ => trivial)
      (fun c l _ => admitted_any c l) (.init d₀)
      (fun c t req _ _ h => h.start t req)
      (fun c t e o k x r s' hok hpool haw hexec hm h => ?_)
      (fun c t e k x _ _ haw _ h => h.commit haw.tx)
      (fun s id h => h.expire id) hrun
    exact h.move haw.tx haw.pre (hok.apply hpool) hm (exec_notes haw.tx hexec)
  exact ⟨hshows.cache,
    fun t x id status body hx hreq => (hshows.reads t x id hx hreq).response status body⟩

/-- An item of which 3 are spilled while Redis does not answer, an adjustment by 0, and a
    read. -/
def recountedTea : List (system ⟨.http, ⟨true⟩⟩).Label :=
  [.start 0 (.createItem { name := "Tea", price := 350, stockQuantity := 10 })] ++
  turns 0 [0, 0, 1] ++ [.step 0 { fault := some .error }] ++ turns 0 [0, 0] ++
  [.start 1 (.adjustStock 0 { delta := -3, reason := "spilled" })] ++ turns 1 [0, 0, 2, 0] ++
  [.step 1 { fault := some .error }] ++ turns 1 [0, 0] ++
  [.start 2 (.adjustStock 0 { delta := 0, reason := "counted" })] ++
  turns 2 [0, 0, 3, 0, 0, 0, 0] ++ [.start 3 (.getStock 0)] ++ turns 3 [0, 0, 0, 0]

/-- The quantity of a recount that was committed is shown. -/
theorem shown_committed_recounted : ∃ c, withheldRuns ⟨true⟩ Db.empty recountedTea c ∧
    c.st.cache 0 = some 7 ∧ ∀ id q, c.st.cache id = some q → q ∈ c.st.stockHistory Db.empty id := by
  obtain ⟨c, hrun, hval⟩ : ∃ c, withheldRuns ⟨true⟩ Db.empty recountedTea c ∧
      c.st.cache 0 = some 7 :=
    Run.of_eval (fun c : (system ⟨.http, ⟨true⟩⟩).Config => c.st.cache 0)
      (by decide +kernel) (by decide +kernel)
  exact ⟨c, hrun, hval, (shown_committed Db.consistent_empty hrun).1⟩

/-- An adjustment by -3 whose `COMMIT` fails, and then a read. -/
def lostAdjustment : List (system ⟨.http, ⟨true⟩⟩).Label :=
  [.start 0 (.createItem { name := "Tea", price := 350, stockQuantity := 10 })] ++
  turns 0 [0, 0, 1, 0, 0, 0] ++
  [.start 1 (.adjustStock 0 { delta := -3, reason := "spilled" })] ++ turns 1 [0, 0, 2, 0, 0, 0] ++
  [.step 1 { fault := some .error }] ++ turns 1 [0] ++
  [.start 2 (.getStock 0)] ++ turns 2 [0, 0, 0]

/-- The read answers 7, which the item never had. -/
theorem shown_uncommitted : ¬∀ ls c, SysRun ⟨.http, ⟨true⟩⟩ (fun _ _ => True) Db.empty ls c →
    ∀ t x id status b, c.st.txs t = some x → x.req = .getStock id →
      x.response = some (.success status (.stock b)) →
      b.stockQuantity ∈ c.st.stockHistory Db.empty id := by
  intro hall
  let shown : (system ⟨.http, ⟨true⟩⟩).Config → Option (Request × Option Response) × List Int :=
    fun c => ((c.st.txs 2).map fun x => (x.req, x.response), c.st.stockHistory Db.empty 0)
  obtain ⟨c, hrun, hval⟩ : ∃ c, SysRun ⟨.http, ⟨true⟩⟩ (fun _ _ => True) Db.empty lostAdjustment c ∧
      shown c = (some (.getStock 0, some (.success 200 (.stock ⟨0, 7, 10, true⟩))), [10]) :=
    Run.of_eval shown (by decide +kernel) (by decide +kernel)
  obtain ⟨htx, hhistory⟩ := Prod.mk.inj hval
  obtain ⟨x, hx, hread⟩ := Option.map_eq_some_iff.mp htx
  obtain ⟨hreq, hresponse⟩ := Prod.mk.inj hread
  have hmem := hall _ c hrun 2 x 0 200 ⟨0, 7, 10, true⟩ hx hreq hresponse
  rw [hhistory] at hmem
  simp at hmem

end Nova
