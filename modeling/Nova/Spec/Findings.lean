import Nova.Spec.Linearization
import Nova.Spec.Responses

/-!
# What a request finds out

The protocol `learning` keeps what the answers of its statements tell a request: a row that
it has read before it wrote anything was committed at some point since it began, a row that
it reads back is a version that it has written, an optimistic check that fails means that
another request has changed the order since. `Finding.Holds` says so of the state, and
`learning_tracks` that every move of every request keeps it true.
-/

namespace Nova

open Machine
open Coro (raise attempt await)

/-! ## Findings -/

/-- What a request has learnt from a statement. -/
inductive Finding where
  /-- The committed row of an item, or that there is none. -/
  | item (id : Uuid) (row : Option MenuItem)
  | order (id : Uuid) (row : Option Order)
  /-- The order has been changed since the request began. -/
  | moved (id : Uuid)
  /-- What cannot be: an order that was read refers to no item, or a stock read finds its
      row with another quantity than the cache has. -/
  | absurd
  /-- It has written the row. -/
  | wrote (row : Row)
  /-- It has read back the version that it has written. -/
  | own (w : Write)
  deriving DecidableEq

/-- What stays true when the transaction is rolled back. -/
def Finding.lasting : Finding → Bool
  | .item _ _ | .order _ _ | .moved _ | .absurd => true
  | .wrote _ | .own _ => false

/-- What a request knows. -/
structure Knowledge where
  /-- It has written nothing. -/
  clean : Bool := true
  /-- It has committed. -/
  done : Bool := false
  /-- What it has found in the cache. -/
  cached : Option Int := none
  answered : Option Response := none
  findings : List Finding := []

namespace Knowledge

variable (φ : Knowledge)

/-- One more finding. -/
def add (f : Finding) : Knowledge := { φ with findings := f :: φ.findings }

/-- The transaction has written a version of the row. -/
def wrote (row : Row) : Knowledge :=
  { φ with clean := false, findings := .wrote row :: φ.findings }

/-- After a rollback, or a statement that has failed the transaction. -/
def undone : Knowledge :=
  { φ with clean := false, findings := φ.findings.filter Finding.lasting }

/-- A plain `SELECT` finds the committed row, or the version that the request has
    written. -/
def reads (found : Finding) (row : Row) (version : Option Write) : Knowledge :=
  if φ.clean then φ.add found
  else
    match version with
    | some w => if !φ.done && .wrote row ∈ φ.findings then φ.add (.own w) else φ
    | none => φ

/-- The row does not have the quantity that was found in the cache. -/
def disagrees (row : Option MenuItem) : Bool :=
  φ.cached.any fun q => row.any fun i => i.stockQuantity ≠ q

/-- An order that was read refers to the item. -/
def refers (id : Uuid) : Bool :=
  φ.findings.any fun f =>
    match f with
    | .order _ (some o) => o.itemId = id
    | _ => false

/-- What the answer of a statement adds to the knowledge. -/
def after : (o : Stmt) → o.Res → Knowledge
  | .selectItem id, .ok row =>
    if φ.clean && φ.disagrees row then φ.add .absurd
    else φ.reads (.item id row) (.item id) (row.map .item)
  | .selectOrder id, .ok row => φ.reads (.order id row) (.order id) (row.map .order)
  | .selectItemForUpdate id, .ok none =>
    if φ.clean then φ.add (if φ.refers id then .absurd else .item id none) else φ
  | .selectItemForUpdate id, .ok (some row) => if φ.clean then φ.add (.item id (some row)) else φ
  | .insertItem _, .ok row => φ.wrote (.item row.id)
  | .updateItem id _, .ok () => φ.wrote (.item id)
  | .insertOrder _, .ok row => φ.wrote (.order row.id)
  | .updateOrder id _ _, .ok true => φ.wrote (.order id)
  | .updateOrder id _ _, .ok false => φ.add (.moved id)
  | .insertMovement _, .ok row => φ.wrote (.movement row.id)
  | .redisGet _, .ok q => { φ with cached := q }
  | .redisGet _, .error _ | .redisSetex _ _, _ => φ
  | .commit, .ok () => { φ with clean := false, done := true }
  | .respond r, .ok () => { φ with answered := some r }
  | _, _ => φ.undone

/-- The optimistic check expects the version of an order that was read, only a stock read
    looks into the cache, and a request commits once. -/
def allows (cache : CacheService) (req : Request) : Stmt → Prop
  | .updateOrder id version _ => ∃ o, .order id (some o) ∈ φ.findings ∧ o.version = version
  | .redisGet _ => cache.enabled = true ∧ req.isRead = true
  | .commit => φ.done = false
  | _ => True

/-- What cannot be has been found. -/
def Impossible : Prop := .absurd ∈ φ.findings

end Knowledge

/-- What a request learns from its statements. -/
def learning (cache : CacheService) (req : Request) : Protocol Knowledge Stmt Stmt.Res where
  rest := {}
  allows φ o := φ.Impossible ∨ φ.allows cache req o
  answers := Stmt.answers
  after := Knowledge.after

/-! ## What the findings say of the state -/

/-- `x` has written `w`, and may have committed it. -/
def Tx.Has (x : Tx) (w : Write) : Prop :=
  w ∈ x.writes ∨ ∃ d ws, x.commit = some (d, ws) ∧ w ∈ ws

section

variable (d₀ : Db) (k₀ : Nat) (s : Sys) (x : Tx)

/-- The finding is true, of some point since the log had `k₀` commits. -/
def Finding.Holds : Finding → Prop
  | .item id row => ∃ k, k₀ ≤ k ∧ k ≤ s.wal.length ∧ (d₀.after s.wal k).items.find? id = row
  | .order id row => ∃ k, k₀ ≤ k ∧ k ≤ s.wal.length ∧ (d₀.after s.wal k).orders.find? id = row
  | .moved id => ∃ j c o, k₀ ≤ j ∧ s.wal[j]? = some c ∧ .order o ∈ c.writes ∧ o.id = id
  | .absurd => False
  | .wrote row => ∃ w, x.Has w ∧ w.row = row
  | .own w => x.Has w

end

section

variable (cache : CacheService) (req : Request) (d₀ : Db) (k₀ : Nat) (s : Sys) (x : Tx)

/-- The knowledge `φ` is true of the transaction `x` for `req`. -/
structure Knows (φ : Knowledge) : Prop where
  request : x.req = req
  since : k₀ ≤ s.wal.length
  clean : φ.clean = true → x.writes = []
  uncommitted : φ.done = false → x.commit = none
  cached : x.cached = φ.cached
  reader : φ.cached.isSome = true → cache.enabled = true ∧ req.isRead = true
  answered : x.response = φ.answered
  findings : ∀ f ∈ φ.findings, f.Holds d₀ k₀ s x

end

/-- The same commit, response and cached quantity. -/
structure Tx.SameRecord (x x' : Tx) : Prop where
  req : x'.req = x.req
  commit : x'.commit = x.commit
  cached : x'.cached = x.cached
  response : x'.response = x.response

section

variable {cache : CacheService} {req : Request} {d₀ : Db} {k₀ : Nat} {s s' : Sys} {x x' : Tx}
  {φ : Knowledge} {f : Finding}

/-- The log has only grown. -/
theorem Finding.Holds.grow (h : f.Holds d₀ k₀ s x) (hf : f.lasting = true)
    (hwal : s.wal <+: s'.wal) : f.Holds d₀ k₀ s' x' := by
  have hlen := hwal.length_le
  cases f with
  | item id row =>
    obtain ⟨k, hk₀, hk, hrow⟩ := h
    refine ⟨k, hk₀, hk.trans hlen, ?_⟩
    -- the first commits of the log stay what they were
    rw [Db.after, replay_of_prefix hwal hk]
    exact hrow
  | order id row =>
    obtain ⟨k, hk₀, hk, hrow⟩ := h
    refine ⟨k, hk₀, hk.trans hlen, ?_⟩
    rw [Db.after, replay_of_prefix hwal hk]
    exact hrow
  | moved id =>
    -- the entry of the log stays in its place
    obtain ⟨j, c, o, hj, hc, ho⟩ := h
    obtain ⟨rest, hrest⟩ := hwal
    refine ⟨j, c, o, hj, ?_, ho⟩
    rw [← hrest, List.getElem?_append_left (List.getElem?_eq_some_iff.mp hc).1]
    exact hc
  | absurd =>
    -- this one never holds, and the next two do not last
    exact h.elim
  | wrote row => cases hf
  | own w => cases hf

/-- A finding that holds may be added. -/
theorem Knows.add (h : Knows cache req d₀ k₀ s x φ) (hf : f.Holds d₀ k₀ s x) :
    Knows cache req d₀ k₀ s x (φ.add f) where
  request := h.request
  since := h.since
  clean := h.clean
  uncommitted := h.uncommitted
  cached := h.cached
  reader := h.reader
  answered := h.answered
  findings f' hf' := by
    -- the new one
    rcases List.mem_cons.mp hf' with rfl | hf'
    · exact hf
    · exact h.findings f' hf'

/-- A rollback keeps the lasting findings. -/
theorem Knows.undone (h : Knows cache req d₀ k₀ s x φ) (hwal : s.wal <+: s'.wal)
    (hsame : x.SameRecord x') : Knows cache req d₀ k₀ s' x' φ.undone where
  request := hsame.req.trans h.request
  since := h.since.trans hwal.length_le
  clean hclean := by cases hclean
  uncommitted hdone := hsame.commit.trans (h.uncommitted hdone)
  cached := hsame.cached.trans h.cached
  reader := h.reader
  answered := hsame.response.trans h.answered
  findings f hf := by
    obtain ⟨hmem, hlasting⟩ := List.mem_filter.mp hf
    -- only lasting findings are left
    exact (h.findings f hmem).grow hlasting hwal

/-- A move that leaves the writes, the commit and the response. -/
theorem Knows.keep (h : Knows cache req d₀ k₀ s x φ) (hwal : s.wal <+: s'.wal)
    (hwrites : x'.writes = x.writes) (hsame : x.SameRecord x') :
    Knows cache req d₀ k₀ s' x' φ where
  request := hsame.req.trans h.request
  since := h.since.trans hwal.length_le
  clean hclean := hwrites.trans (h.clean hclean)
  uncommitted hdone := hsame.commit.trans (h.uncommitted hdone)
  cached := hsame.cached.trans h.cached
  reader := h.reader
  answered := hsame.response.trans h.answered
  findings f hf := by
    have hold := h.findings f hf
    cases f with
    | item | order | moved | absurd =>
      -- of the log
      exact hold.grow rfl hwal
    | wrote row =>
      -- of the own writes, which are the same
      simpa only [Finding.Holds, Tx.Has, hwrites, hsame.commit] using hold
    | own w => simpa only [Finding.Holds, Tx.Has, hwrites, hsame.commit] using hold

/-- One more row version. -/
theorem Knows.wrote (h : Knows cache req d₀ k₀ s x φ) (hwal : s'.wal = s.wal) {w : Write}
    (hwrites : x'.writes = x.writes ++ [w]) (hsame : x.SameRecord x') :
    Knows cache req d₀ k₀ s' x' (φ.wrote w.row) where
  request := hsame.req.trans h.request
  since := by rw [hwal]; exact h.since
  clean hclean := by cases hclean
  uncommitted hdone := hsame.commit.trans (h.uncommitted hdone)
  cached := hsame.cached.trans h.cached
  reader := h.reader
  answered := hsame.response.trans h.answered
  findings f hf := by
    -- what was written is written, or committed by now
    have hhas : ∀ w', x.Has w' → x'.Has w' := by
      rintro w' (hw | hw)
      · exact Or.inl (hwrites ▸ List.mem_append_left _ hw)
      · exact Or.inr (hsame.commit ▸ hw)
    -- the version just written
    rcases List.mem_cons.mp hf with rfl | hf
    · exact ⟨w, Or.inl (by simp [hwrites]), rfl⟩
    · have hold := h.findings f hf
      cases f with
      | item | order | moved | absurd => exact hold.grow rfl (hwal ▸ List.prefix_rfl)
      | wrote row =>
        -- an earlier version
        obtain ⟨w', hw', hrow⟩ := hold
        exact ⟨w', hhas w' hw', hrow⟩
      | own w' => exact hhas w' hold

/-- A `COMMIT` appends to the log. -/
theorem Sys.commit_wal (s : Sys) (t : TxId) (x : Tx) : s.wal <+: (s.commit t x).wal := by
  have hwal : (s.commit t x).wal =
      if x.writes = [] then s.wal else s.wal ++ [⟨t, x.req, x.read, x.writes⟩] := rfl
  rw [hwal]
  split
  · exact List.prefix_rfl
  · exact List.prefix_append _ _

/-- The first commit. What was written is committed. -/
theorem Knows.committed {t : TxId} (h : Knows cache req d₀ k₀ s x φ) (hcommit : x.commit = none) :
    Knows cache req d₀ k₀ (s.commit t x) { x with writes := [], commit := some (s.db, x.writes) }
      { φ with clean := false, done := true } where
  request := h.request
  since := h.since.trans (s.commit_wal t x).length_le
  clean hclean := by cases hclean
  uncommitted hdone := by cases hdone
  cached := h.cached
  reader := h.reader
  answered := h.answered
  findings f hf := by
    have hhas : ∀ w, x.Has w →
        Tx.Has { x with writes := [], commit := some (s.db, x.writes) } w := by
      -- pending before, committed now
      rintro w (hw | ⟨_, _, hold, _⟩)
      · exact Or.inr ⟨s.db, x.writes, rfl, hw⟩
      · -- it had committed nothing before
        cases hcommit.symm.trans hold
    have hold := h.findings f hf
    cases f with
    | item | order | moved | absurd => exact hold.grow rfl (s.commit_wal t x)
    | wrote row =>
      obtain ⟨w, hw, hrow⟩ := hold
      exact ⟨w, hhas w hw, hrow⟩
    | own w => exact hhas w hold

/-- The response is sent. -/
theorem Knows.replied {t : TxId} (h : Knows cache req d₀ k₀ s x φ) (r : Response) :
    Knows cache req d₀ k₀ (s.setTx t { x with response := some r }) { x with response := some r }
      { φ with answered := some r } where
  request := h.request
  since := h.since
  clean := h.clean
  uncommitted := h.uncommitted
  cached := h.cached
  reader := h.reader
  answered := rfl
  findings f hf := by
    have hold := h.findings f hf
    cases f with
    | item | order | moved | absurd => exact hold.grow rfl List.prefix_rfl
    | wrote row => exact hold
    | own w => exact hold

/-- Redis answers. -/
theorem Knows.looked {t : TxId} (h : Knows cache req d₀ k₀ s x φ) (q : Option Int)
    (hreader : cache.enabled = true ∧ req.isRead = true) :
    Knows cache req d₀ k₀ (s.setTx t { x with cached := q }) { x with cached := q }
      { φ with cached := q } where
  request := h.request
  since := h.since
  clean := h.clean
  uncommitted := h.uncommitted
  cached := rfl
  reader _ := hreader
  answered := h.answered
  findings f hf := by
    -- a look into the cache changes no finding
    have hold := h.findings f hf
    cases f with
    | item | order | moved | absurd => exact hold.grow rfl List.prefix_rfl
    | wrote row => exact hold
    | own w => exact hold

end

/-! ## Statements -/

section

variable {A : Allow} {cache : CacheService} {req : Request} {d₀ : Db} {k₀ : Nat}
    {e : Env} {t : TxId}
  {s s' : Sys} {x : Tx} {φ : Knowledge}

/-- A row that is written has the last version that is written. -/
theorem Db.get_applyAll_of_mem {row : Row} {ws : List Write} {d : Db} {w : Write} (hw : w ∈ ws)
    (hrow : w.row = row) : ∃ w' ∈ ws, (d.applyAll ws).get row = some w' := by
  induction ws generalizing d with
  | nil => cases hw
  | cons w₁ ws ih =>
    by_cases hrest : w ∈ ws
    · -- a later write of the row counts
      obtain ⟨w', hw', hget⟩ := ih (d := d.apply w₁) hrest
      exact ⟨w', List.mem_cons_of_mem _ hw', hget⟩
    · -- or the row is written by the first, and later writes keep it
      obtain rfl : w = w₁ := (List.mem_cons.mp hw).resolve_right hrest
      show ∃ w' ∈ w :: ws, ((d.apply w).applyAll ws).get row = some w'
      have hsome : ((d.apply w).get row).isSome = true := by
        rw [Db.get_apply, if_pos hrow.symm]
        rfl
      have hkept : (((d.apply w).applyAll ws).get row).isSome = true :=
        Db.isSome_get_applyAll hsome
      obtain ⟨w', hget⟩ := Option.isSome_iff_exists.mp hkept
      -- one of the later ones has replaced it
      rcases Db.get_applyAll_some hget with hmem | hold
      · exact ⟨w', List.mem_cons_of_mem _ hmem, hget⟩
      · -- none of them has touched it
        rw [Db.get_apply, if_pos hrow.symm] at hold
        obtain rfl := Option.some.inj hold
        exact ⟨w, List.mem_cons_self, hget⟩

/-- A plain `SELECT`. -/
theorem Knows.reads (h : Knows cache req d₀ k₀ s x φ) {found : Finding} {row : Row}
    {version : Option Write}
    (hfound : x.writes = [] → found.Holds d₀ k₀ s x)
    (hversion : (s.view x).get row = version) :
    Knows cache req d₀ k₀ s x (φ.reads found row version) := by
  unfold Knowledge.reads
  split
  · rename_i hclean
    exact h.add (hfound (h.clean hclean))
  · split
    · rename_i w
      split
      · rename_i hwrote
        simp only [Bool.and_eq_true, Bool.not_eq_true', decide_eq_true_eq] at hwrote
        obtain ⟨w', hhas, hrow⟩ := h.findings _ hwrote.2
        -- nothing is committed, so the version read is one of the writes
        rcases hhas with hw' | ⟨d, ws, hcommit, _⟩
        · obtain ⟨w'', hw'', hget⟩ := Db.get_applyAll_of_mem (d := s.db) hw' hrow
          obtain rfl : w'' = w := Option.some.inj (hget.symm.trans hversion)
          exact h.add (Or.inl hw'')
        · cases (h.uncommitted hwrote.1).symm.trans hcommit
      · exact h
    · exact h

/-- A failed SQL statement undoes what was found out. -/
theorem Knowledge.after_error {o : Stmt} {f : Failure} (ho : o.isRedis = false) :
    φ.after o (.error f) = φ.undone := by
  cases o <;> first | rfl | cases ho

/-- A failed Redis command teaches nothing. -/
theorem Knowledge.after_redis_error {o : Stmt} {f : Failure} (ho : o.isRedis = true) :
    φ.after o (.error f) = φ := by
  cases o <;> first | rfl | cases ho

/-- What a statement that takes `ls` and then writes `w` teaches. -/
private theorem knows_wrote {s₁ : Sys} {α : Type} {r r' : α} {ls : List (Row × LockMode)}
    {w : Write} (h : Knows cache req d₀ k₀ s x φ) (hacq : s.acquire t ls = some s₁)
    (heq : (r, s₁.write t x w) = (r', s')) :
    r = r' ∧ ∃ x', s'.txs t = some x' ∧ Knows cache req d₀ k₀ s' x' (φ.wrote w.row) := by
  obtain ⟨rfl, _⟩ := Sys.acquire_some hacq
  obtain ⟨rfl, rfl⟩ := Prod.mk.inj heq
  have hwal : ((s.withLocks t ls).write t x w).wal = s.wal := rfl
  exact ⟨rfl, { x with writes := x.writes ++ [w] }, Sys.setTx_txs_self _,
    h.wrote hwal rfl ⟨rfl, rfl, rfl, rfl⟩⟩

/-- A statement that fails its transaction. -/
private theorem knows_abort (h : Knows cache req d₀ k₀ s x φ) (x' : Tx) (hsame : x.SameRecord x') :
    ∃ x'', (s.abort t x').txs t = some x'' ∧ Knows cache req d₀ k₀ (s.abort t x') x'' φ.undone :=
  ⟨_, Sys.setTx_txs_self _, h.undone List.prefix_rfl
    ⟨hsame.req, hsame.commit, hsame.cached, hsame.response⟩⟩

/-- Every order that the request has read refers to an item. -/
private theorem item_of_refers (hlog : Log A d₀ s.wal s.db) (hd₀ : d₀.Consistent)
    (h : Knows cache req d₀ k₀ s x φ) {id : Uuid} (hrefers : φ.refers id = true) :
    (s.db.items.find? id).isSome = true := by
  obtain ⟨f, hf, hmatch⟩ := List.any_eq_true.mp hrefers
  split at hmatch
  · rename_i oid o
    -- the order was committed at point `k` of the log
    obtain ⟨k, _, hk, hrow⟩ := h.findings _ hf
    have hsome := (hlog.take hk).consistent hd₀ o (Table.mem_of_find? hrow)
    -- so was its item, and rows are not removed
    rw [of_decide_eq_true hmatch] at hsome
    rw [← Db.get_item_isSome] at hsome ⊢
    rw [hlog.db_eq]
    exact Db.isSome_after hk hsome
  · cases hmatch

/-- A stock read finds its row as the cache has it. -/
private theorem cached_agrees (hx : s.txs t = some x) (h : Knows cache req d₀ k₀ s x φ) {id : Uuid}
    (hlucky : e.fault = none)
    (hread : cache.enabled = false ∨ CurrentRead e t (.selectItem id) s = true)
    (hclean : x.writes = []) (hdisagrees : φ.disagrees ((s.view x).items.find? id) = true) :
    False := by
  rw [Sys.view, hclean, Db.applyAll_nil] at hdisagrees
  obtain ⟨q, hq, i, hi, hne⟩ : ∃ q, φ.cached = some q ∧ ∃ i, s.db.items.find? id = some i ∧
      i.stockQuantity ≠ q := by
    -- disagreeing takes an entry and a row
    cases hq : φ.cached with
    | none => simp [Knowledge.disagrees, hq] at hdisagrees
    | some q =>
      cases hi : s.db.items.find? id with
      | none => simp [Knowledge.disagrees, hq, hi] at hdisagrees
      | some i => exact ⟨q, rfl, i, rfl, by simpa [Knowledge.disagrees, hq, hi] using hdisagrees⟩
  -- only a stock read has looked into the cache
  obtain ⟨henabled, hisRead⟩ := h.reader (by rw [hq]; rfl)
  rcases hread with hoff | hcurrent
  · -- without a cache nothing is found there
    cases hoff.symm.trans henabled
  · have hcached := h.cached.trans hq
    simp only [CurrentRead, hx, hlucky, h.request, hisRead, hi, hcached, Option.isSome_none,
      Option.all_some, Bool.not_true, Bool.false_or, Bool.or_eq_true, decide_eq_true_eq,
      reduceCtorEq, Option.some.injEq, false_or] at hcurrent
    -- the read was current
    exact hne hcurrent.symm

/-- An order that has another version than the one that was read has been changed in
    between. -/
private theorem moved_of_stale (hlog : Log A d₀ s.wal s.db)
    (h : Knows cache req d₀ k₀ s x φ) {id : Uuid}
    {v : Int} (hallow : ∃ o, .order id (some o) ∈ φ.findings ∧ o.version = v)
    (hnow : ∀ row, s.db.orders.find? id = some row → row.version ≠ v) :
    (Finding.moved id).Holds d₀ k₀ s x := by
  obtain ⟨o, ho, rfl⟩ := hallow
  obtain ⟨k, hk₀, hk, hrow⟩ := h.findings _ ho
  have hnot : ¬(d₀.after s.wal s.wal.length).orders.find? id = some o := by
    rw [← hlog.db_eq]
    exact fun hsame => hnow o hsame rfl
  obtain ⟨j, c, hj, hc, hbefore, hafter⟩ :=
    exists_change (P := fun d : Db => d.orders.find? id = some o) hrow hk hnot
  -- the commit that changed the row has written it
  by_contra hnone
  refine hafter ?_
  have hget : ((d₀.after s.wal j).applyAll c.writes).get (.order id) =
      (d₀.after s.wal j).get (.order id) := Db.get_applyAll_of_not_mem fun w hw hwrow => ?_
  · rw [← Db.get_order] at hbefore ⊢
    exact hget.trans hbefore
  · cases w with
    | order o' => exact hnone ⟨j, c, o', hk₀.trans hj, hc, hw, Row.order.inj hwrow⟩
    | item i | movement m => cases hwrow

/-- Before it writes, a request reads the committed tables of this moment. -/
private theorem view_clean (hlog : Log A d₀ s.wal s.db) (hclean : x.writes = []) :
    s.view x = d₀.after s.wal s.wal.length := by
  rw [Sys.view, hclean, Db.applyAll_nil]
  exact hlog.db_eq

/-- A request that has written nothing finds the committed row of an item. -/
private theorem item_found (hlog : Log A d₀ s.wal s.db) (h : Knows cache req d₀ k₀ s x φ)
    (hclean : x.writes = []) (id : Uuid) :
    (Finding.item id ((s.view x).items.find? id)).Holds d₀ k₀ s x :=
  ⟨s.wal.length, h.since, le_rfl, by rw [view_clean hlog hclean]⟩

/-! ### What each statement teaches -/

/-- After the answer `r` to `o`, the request knows what `r` has taught it. -/
private def Teaches (cache : CacheService) (req : Request) (d₀ : Db) (k₀ : Nat) (t : TxId)
    (φ : Knowledge) (o : Stmt) (r : o.Res) (s' : Sys) : Prop :=
  ∃ x', s'.txs t = some x' ∧ Knows cache req d₀ k₀ s' x' (φ.after o r)

/-- A plain `SELECT` of an item finds the committed row, or one that the request has
    written. -/
private theorem selectItem_teaches (hx : s.txs t = some x) (hlog : Log A d₀ s.wal s.db)
    (h : Knows cache req d₀ k₀ s x φ) {id : Uuid} (hlucky : e.fault = none)
    (hread : cache.enabled = false ∨ CurrentRead e t (.selectItem id) s = true)
    {r : (Stmt.selectItem id).Res} (hrun : s.run t x e (.selectItem id) = some (r, s')) :
    Teaches cache req d₀ k₀ t φ (.selectItem id) r s' := by
  obtain ⟨rfl, rfl⟩ := Prod.mk.inj (Option.some.inj hrun)
  have hkeep : Knows cache req d₀ k₀ (s.setTx t { x with seen := some ((s.view x).items.find? id) })
      { x with seen := some ((s.view x).items.find? id) } φ :=
    h.keep List.prefix_rfl rfl ⟨rfl, rfl, rfl, rfl⟩
  refine ⟨_, Sys.setTx_txs_self _, ?_⟩
  simp only [Knowledge.after]
  split
  · -- the cache has the quantity of the row
    rename_i habsurd
    simp only [Bool.and_eq_true] at habsurd
    exact hkeep.add (cached_agrees hx h hlucky hread (h.clean habsurd.1) habsurd.2).elim
  · exact hkeep.reads (fun hclean => item_found hlog h hclean id) rfl

/-- A plain `SELECT` of an order finds the committed row, or one that the request has
    written. -/
private theorem selectOrder_teaches (hlog : Log A d₀ s.wal s.db)
    (h : Knows cache req d₀ k₀ s x φ) {id : Uuid} {r : (Stmt.selectOrder id).Res}
    (hrun : s.run t x e (.selectOrder id) = some (r, s')) :
    Teaches cache req d₀ k₀ t φ (.selectOrder id) r s' := by
  obtain ⟨rfl, rfl⟩ := Prod.mk.inj (Option.some.inj hrun)
  have hkeep : Knows cache req d₀ k₀
      (s.setTx t { x with read := x.read.or ((s.view x).orders.find? id) })
      { x with read := x.read.or ((s.view x).orders.find? id) } φ :=
    h.keep List.prefix_rfl rfl ⟨rfl, rfl, rfl, rfl⟩
  refine ⟨_, Sys.setTx_txs_self _, hkeep.reads (fun hclean => ?_) rfl⟩
  -- before it writes, it sees the committed tables
  exact ⟨s.wal.length, h.since, le_rfl,
    congrArg (fun d : Db => d.orders.find? id) (view_clean hlog hclean).symm⟩

/-- A `SELECT ... FOR UPDATE` finds the committed row, or none. -/
private theorem selectItemForUpdate_teaches (hx : s.txs t = some x) (hlog : Log A d₀ s.wal s.db)
    (hd₀ : d₀.Consistent) (h : Knows cache req d₀ k₀ s x φ) {id : Uuid}
    {r : (Stmt.selectItemForUpdate id).Res}
    (hrun : s.run t x e (.selectItemForUpdate id) = some (r, s')) :
    Teaches cache req d₀ k₀ t φ (.selectItemForUpdate id) r s' := by
  have hfound := fun hclean => item_found hlog h hclean id
  simp only [Sys.run] at hrun
  split at hrun
  · rename_i hnone
    obtain ⟨rfl, rfl⟩ := Prod.mk.inj (Option.some.inj hrun)
    refine ⟨x, hx, ?_⟩
    rw [hnone] at hfound
    simp only [Knowledge.after]
    split
    · rename_i hclean
      have hwrites := h.clean hclean
      split
      · rename_i hrefers
        -- the foreign key rules this out
        have hsome := item_of_refers hlog hd₀ h hrefers
        rw [view_clean hlog hwrites, ← hlog.db_eq] at hnone
        rw [hnone] at hsome
        cases hsome
      · exact h.add (hfound hwrites)
    · exact h
  · rename_i row hrow
    obtain ⟨s₁, hacq, heq⟩ := Option.map_eq_some_iff.mp hrun
    obtain ⟨rfl, rfl⟩ := Prod.mk.inj heq
    obtain ⟨rfl, _⟩ := Sys.acquire_some hacq
    rw [hrow] at hfound
    have hkeep : Knows cache req d₀ k₀ (s.withLocks t [(.item id, .forUpdate)]) x φ :=
      h.keep List.prefix_rfl rfl ⟨rfl, rfl, rfl, rfl⟩
    refine ⟨x, hx, ?_⟩
    simp only [Knowledge.after]
    split
    · rename_i hclean
      exact hkeep.add (hfound (h.clean hclean))
    · exact hkeep

/-- An inserted item is a version that the request has written. -/
private theorem insertItem_teaches (h : Knows cache req d₀ k₀ s x φ) {n : NewItem}
    {r : (Stmt.insertItem n).Res} (hrun : s.run t x e (.insertItem n) = some (r, s')) :
    Teaches cache req d₀ k₀ t φ (.insertItem n) r s' := by
  simp only [Sys.run, Sys.insertItem] at hrun
  split at hrun
  · split at hrun
    · -- a CHECK constraint fails
      obtain ⟨rfl, rfl⟩ := Prod.mk.inj (Option.some.inj hrun)
      exact knows_abort h x ⟨rfl, rfl, rfl, rfl⟩
    · obtain ⟨s₁, hacq, heq⟩ := Option.map_eq_some_iff.mp hrun
      split at heq
      · -- the name is taken
        obtain ⟨rfl, rfl⟩ := Prod.mk.inj heq
        exact knows_abort h x ⟨rfl, rfl, rfl, rfl⟩
      · -- the row is inserted
        obtain ⟨rfl, hknows⟩ := knows_wrote h hacq heq
        exact hknows
  · -- the id is not fresh
    cases hrun

/-- An updated item is a version that the request has written. -/
private theorem updateItem_teaches (h : Knows cache req d₀ k₀ s x φ) {id : Uuid} {c : ItemChange}
    {r : (Stmt.updateItem id c).Res} (hrun : s.run t x e (.updateItem id c) = some (r, s')) :
    Teaches cache req d₀ k₀ t φ (.updateItem id c) r s' := by
  simp only [Sys.run, Sys.updateItem] at hrun
  split at hrun
  · -- there is no such row
    obtain ⟨rfl, rfl⟩ := Prod.mk.inj (Option.some.inj hrun)
    exact knows_abort h x ⟨rfl, rfl, rfl, rfl⟩
  · rename_i row hrow
    split at hrun
    · -- a CHECK constraint fails
      obtain ⟨rfl, rfl⟩ := Prod.mk.inj (Option.some.inj hrun)
      exact knows_abort h x ⟨rfl, rfl, rfl, rfl⟩
    · -- the row gets its next version
      rename_i row' hrow'
      obtain ⟨s₁, hacq, heq⟩ := Option.map_eq_some_iff.mp hrun
      obtain ⟨rfl, hknows⟩ := knows_wrote h hacq heq
      have hid : row'.id = id := (ItemChange.updated?_id hrow').trans (Table.key_of_find? hrow)
      exact hid ▸ hknows

/-- An inserted order is a version that the request has written. -/
private theorem insertOrder_teaches (h : Knows cache req d₀ k₀ s x φ) {n : NewOrder}
    {r : (Stmt.insertOrder n).Res} (hrun : s.run t x e (.insertOrder n) = some (r, s')) :
    Teaches cache req d₀ k₀ t φ (.insertOrder n) r s' := by
  simp only [Sys.run, Sys.insertOrder] at hrun
  split at hrun
  · split at hrun
    · -- the row is inserted
      obtain ⟨s₁, hacq, heq⟩ := Option.map_eq_some_iff.mp hrun
      obtain ⟨rfl, hknows⟩ := knows_wrote h hacq heq
      exact hknows
    · -- a CHECK constraint or the foreign key fails
      obtain ⟨rfl, rfl⟩ := Prod.mk.inj (Option.some.inj hrun)
      exact knows_abort h x ⟨rfl, rfl, rfl, rfl⟩
  · -- the id is not fresh
    cases hrun

/-- An `UPDATE` of an order writes its next version, or finds that the order has moved on.
    -/
private theorem updateOrder_teaches (hx : s.txs t = some x) (hlog : Log A d₀ s.wal s.db)
    (h : Knows cache req d₀ k₀ s x φ) {id : Uuid} {v : Int} {st : OrderStatus}
    (hlucky : e.fault = none) (hcheck : CurrentCheck e t (.updateOrder id v st) s = true)
    (hallow : φ.allows cache req (.updateOrder id v st)) {r : (Stmt.updateOrder id v st).Res}
    (hrun : s.run t x e (.updateOrder id v st) = some (r, s')) :
    Teaches cache req d₀ k₀ t φ (.updateOrder id v st) r s' := by
  -- a check that fails is the first statement that would write
  have hstale : (∀ row, (s.view x).orders.find? id = some row → row.version ≠ v) →
      (Finding.moved id).Holds d₀ k₀ s x := by
    intro hne
    have hclean : x.writes = [] := by
      simp only [CurrentCheck, hx, hlucky, Option.isSome_none, Bool.false_or,
        Bool.or_eq_true, List.isEmpty_iff] at hcheck
      refine hcheck.resolve_right fun hany => ?_
      cases hrow : (s.view x).orders.find? id with
      | none => simp [hrow] at hany
      | some row => exact hne row hrow (by simpa [hrow] using hany)
    rw [view_clean hlog hclean, ← hlog.db_eq] at hne
    exact moved_of_stale hlog h hallow hne
  simp only [Sys.run, Sys.updateOrder] at hrun
  split at hrun
  · rename_i hnone
    obtain ⟨rfl, rfl⟩ := Prod.mk.inj (Option.some.inj hrun)
    refine ⟨x, hx, h.add (hstale fun row hrow => ?_)⟩
    cases hrow.symm.trans hnone
  · rename_i row hrow
    split at hrun
    · obtain ⟨s₁, hacq, heq⟩ := Option.map_eq_some_iff.mp hrun
      obtain ⟨rfl, hknows⟩ := knows_wrote h hacq heq
      have hid : row.id = id := Table.key_of_find? hrow
      exact hid ▸ hknows
    · rename_i hv
      obtain ⟨rfl, rfl⟩ := Prod.mk.inj (Option.some.inj hrun)
      refine ⟨x, hx, h.add (hstale fun row' hrow' => ?_)⟩
      obtain rfl := Option.some.inj (hrow.symm.trans hrow')
      exact hv

/-- A movement is a version that the request has written. -/
private theorem insertMovement_teaches (h : Knows cache req d₀ k₀ s x φ) {n : NewMovement}
    {r : (Stmt.insertMovement n).Res} (hrun : s.run t x e (.insertMovement n) = some (r, s')) :
    Teaches cache req d₀ k₀ t φ (.insertMovement n) r s' := by
  simp only [Sys.run, Sys.insertMovement] at hrun
  split at hrun
  · split at hrun
    · -- the row is inserted
      obtain ⟨s₁, hacq, heq⟩ := Option.map_eq_some_iff.mp hrun
      obtain ⟨rfl, hknows⟩ := knows_wrote h hacq heq
      exact hknows
    · -- a foreign key fails
      obtain ⟨rfl, rfl⟩ := Prod.mk.inj (Option.some.inj hrun)
      exact knows_abort h x ⟨rfl, rfl, rfl, rfl⟩
  · -- the id is not fresh
    cases hrun

/-- A statement that nothing outside the model fails. -/
private theorem run_teaches {o : Stmt} {r : o.Res} (hx : s.txs t = some x)
    (hlog : Log A d₀ s.wal s.db) (hd₀ : d₀.Consistent) (hlucky : o.isSql = true → e.fault = none)
    (hcheck : CurrentCheck e t o s = true)
    (hread : cache.enabled = false ∨ CurrentRead e t o s = true) (h : Knows cache req d₀ k₀ s x φ)
    (hallow : φ.allows cache req o) (hrun : s.run t x e o = some (r, s')) :
    Teaches cache req d₀ k₀ t φ o r s' := by
  cases o with
  | selectItem id =>
    -- each statement teaches what its own lemma says
    exact selectItem_teaches hx hlog h (hlucky rfl) hread hrun
  | selectOrder id => exact selectOrder_teaches hlog h hrun
  | selectItemForUpdate id => exact selectItemForUpdate_teaches hx hlog hd₀ h hrun
  | insertItem n => exact insertItem_teaches h hrun
  | updateItem id c => exact updateItem_teaches h hrun
  | insertOrder n => exact insertOrder_teaches h hrun
  | updateOrder id v st => exact updateOrder_teaches hx hlog h (hlucky rfl) hcheck hallow hrun
  | insertMovement n => exact insertMovement_teaches h hrun
  | redisGet id =>
    obtain ⟨rfl, rfl⟩ := Prod.mk.inj (Option.some.inj hrun)
    exact ⟨_, Sys.setTx_txs_self _, h.looked _ hallow⟩
  | redisSetex id q =>
    obtain ⟨rfl, rfl⟩ := Prod.mk.inj (Option.some.inj hrun)
    exact ⟨_, Sys.setTx_txs_self _, h.keep List.prefix_rfl rfl ⟨rfl, rfl, rfl, rfl⟩⟩
  | commit =>
    obtain ⟨rfl, rfl⟩ := Prod.mk.inj (Option.some.inj hrun)
    exact ⟨_, Sys.setTx_txs_self _, h.committed (h.uncommitted hallow)⟩
  | rollback =>
    obtain ⟨rfl, rfl⟩ := Prod.mk.inj (Option.some.inj hrun)
    exact ⟨_, Sys.setTx_txs_self _, h.undone List.prefix_rfl ⟨rfl, rfl, rfl, rfl⟩⟩
  | respond res =>
    obtain ⟨rfl, rfl⟩ := Prod.mk.inj (Option.some.inj hrun)
    exact ⟨_, Sys.setTx_txs_self _, h.replied res⟩

/-- One statement of a request. -/
theorem exec_knows {o : Stmt} {r : o.Res} (hx : s.txs t = some x) (hlog : Log A d₀ s.wal s.db)
    (hd₀ : d₀.Consistent) (hcheck : CurrentCheck e t o s = true)
    (hread : cache.enabled = false ∨ CurrentRead e t o s = true) (h : Knows cache req d₀ k₀ s x φ)
    (hallow : φ.allows cache req o) (hexec : exec e t o s = some (r, s')) :
    ∃ x', s'.txs t = some x' ∧ Knows cache req d₀ k₀ s' x' (φ.after o r) := by
  have hrun : (o.isSql = true → e.fault = none) → s.run t x e o = some (r, s') →
      ∃ x', s'.txs t = some x' ∧ Knows cache req d₀ k₀ s' x' (φ.after o r) :=
    fun hlucky => run_teaches hx hlog hd₀ hlucky hcheck hread h hallow
  simp only [exec, hx] at hexec
  split at hexec
  · -- the transaction has failed already
    rename_i haborted
    obtain ⟨rfl, rfl⟩ := Prod.mk.inj (Option.some.inj hexec)
    have hsql : o.isSql = true := (Bool.and_eq_true_iff.mp haborted).2
    refine ⟨x, hx, ?_⟩
    rw [Knowledge.after_error (by cases o <;> first | rfl | cases hsql)]
    exact h.undone List.prefix_rfl ⟨rfl, rfl, rfl, rfl⟩
  · split at hexec
    · -- nothing fails the statement
      rename_i hnone
      exact hrun (fun _ => hnone) hexec
    · rename_i f _
      split at hexec
      · -- the environment fails it: the transaction is lost
        rename_i hsql
        obtain ⟨rfl, rfl⟩ := Prod.mk.inj (Option.some.inj hexec)
        rw [Knowledge.after_error (by cases o <;> first | rfl | cases hsql)]
        exact knows_abort h { x with faulted := true } ⟨rfl, rfl, rfl, rfl⟩
      · rename_i hother
        split at hexec
        · -- a Redis command of it fails: nothing is known of the entry
          rename_i hredis
          obtain ⟨rfl, rfl⟩ := Prod.mk.inj (Option.some.inj hexec)
          rw [Knowledge.after_redis_error hredis]
          refine ⟨_, Sys.setTx_txs_self _, h.keep List.prefix_rfl ?_ ?_⟩
          · cases f <;> rfl
          · cases f <;> exact ⟨rfl, rfl, rfl, rfl⟩
        · -- a rollback and a response run under any fault
          exact hrun (fun hsql => absurd hsql hother) hexec

end

/-! ## Runs -/

section

variable {cache : CacheService} {req : Request} {d₀ : Db} {k₀ : Nat} {t : TxId}

/-- A move of a run without races from a state that such a run has led to. -/
def FromLog (cache : CacheService) (d₀ : Db) (c : (system ⟨.http, cache⟩).Config)
    (l : (system ⟨.http, cache⟩).Label) : Prop :=
  RaceFree ⟨.http, cache⟩ c l ∧ Log ⟨True, False, False⟩ d₀ c.st.wal c.st.db

/-- What a request knows stays true of it. -/
theorem learning_tracks (hd₀ : d₀.Consistent) :
    (learning cache req).Tracks (M := system ⟨.http, cache⟩) (FromLog cache d₀) t fun φ s =>
      ∃ x, s.txs t = some x ∧ Knows cache req d₀ k₀ s x φ where
  call := by
    intro c e o k r s' φ hok hpool hholds hallow hexec
    obtain ⟨x, hx, hknows⟩ := hholds
    obtain ⟨hadm, hlog⟩ := hok
    obtain ⟨hcheck, hread⟩ := OnCall.apply hadm hpool
    -- the world has no overtaking, and no cache or a current one
    have hcheck' : CurrentCheck e t o c.st = true := by
      rcases hcheck with hstale | hservice | hcheck
      · exact hstale.elim
      · cases hservice
      · exact hcheck
    have hread' : cache.enabled = false ∨ CurrentRead e t o c.st = true :=
      hread.resolve_left id
    -- what the request has found out holds, so it is not the impossible
    have hallow' : φ.allows cache req o :=
      hallow.resolve_left fun himpossible => hknows.findings _ himpossible
    exact ⟨exec_answers hexec, exec_knows hx hlog hd₀ hcheck' hread' hknows hallow' hexec⟩
  others := by
    intro c l c' φ _ hnext hpool hne hholds
    obtain ⟨x, hx, hknows⟩ := hholds
    have hwal : c.st.wal <+: c'.st.wal := wal_of_next hnext
    -- its record is its own
    have hkeep : c'.st.txs t = c.st.txs t := by
      cases l with
      | start t' r =>
        obtain ⟨hfree, rfl⟩ := next_start hnext
        have ht : t ≠ t' := by
          rintro rfl
          exact hpool hfree
        exact Sys.setTx_txs_ne ht _
      | step t' e =>
        obtain ⟨_, _, _, s, _, hexec, rfl⟩ := next_step hnext
        have ht : t ≠ t' := by
          rintro rfl
          simp [Label.isStepOf] at hne
        exact exec_txs_ne hexec ht
      | tick id =>
        obtain rfl := next_tick hnext
        rfl
    exact ⟨x, hkeep.trans hx, hknows.keep hwal rfl ⟨rfl, rfl, rfl, rfl⟩⟩

end

end Nova
