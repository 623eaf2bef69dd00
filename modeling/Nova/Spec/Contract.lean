import Nova.Spec.Locking

/-!
# The contract of the requests

The rely-guarantee contract that the programs of all requests meet, with the
invariant and the rely of `Nova.Spec.Locking`:

* `Pre` is what a request has established before each of its awaits. Above all,
  its writes are an `Effect` when it commits, it publishes a quantity only while
  it owns the item row and has written that quantity, and a stock read changes
  nothing unless the system allows `overwrite`.
* `Finished` is what holds of a request when it has ended.
* `Admitted` restricts the schedule to the steps that a system without `stale` or
  `overwrite` may take.

`contract_sound` reduces every run to the code of single requests; that the code meets
the contract is proved in `Nova.Spec.ServiceCorrect` and `Nova.Spec.RouteCorrect`.
-/

namespace Nova

open Machine

/-- The change a request makes to the stock of its item, given the order that it
    has read. -/
def Tx.stockDelta (x : Tx) : Int :=
  match x.req, x.read with
  | .adjustStock _ b, _ => b.delta
  | .transition a _, some o => a.stockDelta o
  | _, _ => 0

/-- Every quantity that a request other than a read has written was sent to the
    cache. -/
def Tx.Published (x : Tx) (cfg : Config) : Prop :=
  cfg.cache.enabled = true → ∀ i, .item i ∈ x.writes →
    x.published = some (i.id, i.stockQuantity) ∨ x.redisFailed = true ∨ x.req.isRead = true

/-- Statements that neither lock nor write. -/
def Stmt.readOnly : Stmt → Bool
  | .selectItem _ | .selectOrder _ | .redisGet _ | .commit | .rollback | .respond _ => true
  | _ => false

/-- The quantity `q` is the stock that `x` has written to item `id`, on top of
    the committed stock or of nothing. -/
structure Publishes (s : Sys) (t : TxId) (x : Tx) (id : Uuid) (q : Int) : Prop where
  live : x.aborted = false
  uncommitted : x.commit = none
  unfaulted : x.faulted = false
  first : x.published = none
  owns : s.owns t (.item id)
  written : ∃ i, .item i ∈ x.writes ∧ i.id = id ∧ i.stockQuantity = q
  change : (∃ i, s.db.items.find? id = some i ∧ q = i.stockQuantity + x.stockDelta) ∨
    (s.db.items.find? id = none ∧ ∃ b, x.req = .createItem b)

/-- A stock read answers what it has read: the row with the cached quantity, if there
    is one, or that there is no row. -/
def Tx.Reads (x : Tx) : Response → Prop
  | .success status body => ∃ i, x.seen = some (some i) ∧ status = 200 ∧
      body = .stock (ItemObj.response ⟨i, x.cached.getD i.stockQuantity, i.version⟩)
  | .error status _ => (x.seen = some none ∧ status = 404) ∨ x.faulted = true

/-- A writer that answers with a success has its writes still to commit, and no statement of
    it has failed. -/
def Tx.Pending (x : Tx) : Response → Prop
  | .success _ _ => x.commit = none ∧ x.writes ≠ [] ∧ x.faulted = false
  | .error _ _ => True

/-- The optimistic check of `x` expects the version of the order that it has read. -/
structure Checks (x : Tx) (id : Uuid) (version : Int) : Prop where
  action : ∃ a, x.req = .transition a id
  uncommitted : x.commit = none
  unanswered : x.response = none
  read : ∃ o, x.read = some o ∧ o.id = id ∧ o.version = version
  first : ∀ o, .order o ∉ x.writes
  live : x.aborted = false

/-- What a request, of which the state knows `x`, has established before an
    await. -/
def Tx.Pre (cfg : Config) (A : Allow) (d₀ : Db) (t : TxId) (x : Tx) (s : Sys) : Stmt → Prop
  | .insertItem n =>
    x.published = none ∧ x.writes = [] ∧ x.response = none ∧ x.aborted = false ∧
      (cfg.harness = .http → 0 ≤ n.stockQuantity)
  | .updateItem _ c =>
    x.published = none ∧ x.aborted = false ∧ (x.req.isRead = false → x.response = none ∧
      ∀ q, c.stockQuantity = some q → 0 ≤ q)
  | .insertOrder _ | .insertMovement _ =>
    x.published = none ∧ x.response = none ∧ x.aborted = false
  | .selectOrder _ => (∃ b, x.req = .placeOrder b) ∨ x.read.isSome = true ∨ x.writes = []
  | .updateOrder id v _ => Checks x id v
  | .selectItem id => x.req.isRead = true → x.req = .getStock id ∧ x.writes = []
  | .redisGet id => x.req = .getStock id
  | .redisSetex id q => Publishes s t x id q
  | .commit => x.commit = none ∧ (x.aborted = false → Committable A d₀ s x ∧ x.Published cfg)
  | .rollback => cfg.harness = .http → x.published = none ∨ x.faulted = true
  | .respond r => (x.req.isRead = true → x.Reads r) ∧ (x.req.isRead = false → x.Pending r)
  | _ => True

/-- The precondition of an await. -/
def Pre (cfg : Config) (A : Allow) (d₀ : Db) (t : TxId) (o : Stmt) (s : Sys) : Prop :=
  ∃ x, s.txs t = some x ∧ (x.req.isRead = true → A.overwrite ∨ o.readOnly = true) ∧
    x.Pre cfg A d₀ t s o

/-- The status code of a request that its route returns from. -/
def Request.successStatus : Request → Nat
  | .createItem _ | .placeOrder _ => 201
  | .adjustStock _ _ | .transition _ _ | .getStock _ => 200

/-- A success is no error status. -/
theorem Request.successStatus_lt (req : Request) : req.successStatus < 400 := by
  cases req <;> simp [Request.successStatus]

/-- The answer to a request agrees with how its transaction ended. -/
def Answers (req : Request) (r : Response) : Option Exc → Prop
  | none => ∃ body, r = .success req.successStatus body
  | some e => e.isDomain = true ∧ r = .error e.statusCode e.message

/-- How a request can have ended. -/
inductive Finished (A : Allow) (d₀ : Db) (s : Sys) (x : Tx) : Prop
  /-- It committed, and answered what its effect says. -/
  | committed (d : Db) (ws : List Write) (e : Option Exc) (r : Response) :
      x.commit = some (d, ws) → x.faulted = false → Committed A d₀ s.wal d x.req x.read e ws →
      x.response = some r → Answers x.req r e → Finished A d₀ s x
  /-- Request validation refused it. -/
  | invalid : x.commit = none → x.req.valid = false → x.published = none →
      (∃ detail, x.response = some (.error 422 detail)) → Finished A d₀ s x
  /-- It was rolled back and answered 500: something outside failed it, or the name of
      its item was taken. -/
  | failed : x.commit = none → (∃ detail, x.response = some (.error 500 detail)) →
      (x.faulted = true ∨
        (∃ b, x.req = .createItem b ∧ takenIn d₀ s.wal b.name) ∧ x.published = none) →
      Finished A d₀ s x
  /-- It was cancelled, and is not answered. -/
  | cancelled : x.commit = none → x.response = none → x.faulted = true → Finished A d₀ s x
  /-- Its `COMMIT` failed after the response had been sent. -/
  | lost (r : Response) : x.commit = none → x.response = some r → Answers x.req r none →
      (x.faulted = true ∨ x.req.isRead = true) → Finished A d₀ s x

/-- A finished transaction stays finished while the log grows. -/
theorem Finished.mono {A : Allow} {d₀ : Db} {s s' : Sys} {x : Tx} (h : Finished A d₀ s x)
    (hwal : s.wal <+: s'.wal) : Finished A d₀ s' x := by
  cases h with
  | committed d ws e r hc hf heff hr ha =>
    exact .committed d ws e r hc hf (heff.mono hwal) hr ha
  | invalid hc hv hp hr => exact .invalid hc hv hp hr
  | failed hc hr hw =>
    refine .failed hc hr (hw.imp_right fun ⟨⟨b, hb, htaken⟩, hp⟩ => ⟨⟨b, hb, ?_⟩, hp⟩)
    exact htaken.mono hwal
  | cancelled hc hr hw => exact .cancelled hc hr hw
  | lost r hc hr ha hw => exact .lost r hc hr ha hw

/-- A request other than a stock read that nothing outside failed has committed, was
    refused by validation, or wanted a name that was taken. -/
theorem Finished.unfaulted {A : Allow} {d₀ : Db} {s : Sys} {x : Tx} (h : Finished A d₀ s x)
    (hfault : x.faulted = false) (hread : x.req.isRead = false) :
    (∃ d ws e r, x.commit = some (d, ws) ∧ Committed A d₀ s.wal d x.req x.read e ws ∧
      x.response = some r ∧ Answers x.req r e) ∨
    (x.req.valid = false ∧ ∃ detail, x.response = some (.error 422 detail)) ∨
    ∃ b, x.req = .createItem b ∧ takenIn d₀ s.wal b.name ∧ x.commit = none ∧
      ∃ detail, x.response = some (.error 500 detail) := by
  cases h with
  | committed d ws e r hcommit _ heff hr hanswer =>
    exact Or.inl ⟨d, ws, e, r, hcommit, heff, hr, hanswer⟩
  | invalid _ hvalid _ hr => exact Or.inr (Or.inl ⟨hvalid, hr⟩)
  | failed hcommit hr hwhy =>
    rcases hwhy with hfaulted | ⟨⟨b, hb, htaken⟩, _⟩
    · cases hfaulted.symm.trans hfault
    · exact Or.inr (Or.inr ⟨b, hb, htaken, hcommit, hr⟩)
  | cancelled _ _ hfaulted => cases hfaulted.symm.trans hfault
  | lost _ _ _ _ hwhy =>
    rcases hwhy with hfaulted | hisRead
    · cases hfaulted.symm.trans hfault
    · cases hisRead.symm.trans hread

/-- What a request publishes is committed when it ends, if neither a faulted request nor
    a stock read publishes anything. -/
theorem Finished.published_eq_none {A : Allow} {d₀ : Db} {s : Sys} {x : Tx}
    (h : Finished A d₀ s x) (hcommit : x.commit = none)
    (hfaulted : x.faulted = true → x.published = none)
    (hread : x.req.isRead = true → x.published = none) : x.published = none := by
  cases h with
  | committed d ws e r hc => cases hcommit.symm.trans hc
  | invalid _ _ hpub => exact hpub
  | failed _ _ hwhy => exact hwhy.elim hfaulted fun htaken => htaken.2
  | cancelled _ _ hwhy => exact hfaulted hwhy
  | lost _ _ _ _ hwhy => exact hwhy.elim hfaulted hread

/-! ## Restricted schedules -/

/-- When a transaction that has already written something makes its optimistic
    check and the check does not fail, the order still has the version it expects. -/
def CurrentCheck (e : Env) (t : TxId) (o : Stmt) (s : Sys) : Bool :=
  match o, s.txs t with
  | .updateOrder id v _, some x =>
    e.fault.isSome || x.writes.isEmpty ||
      ((s.view x).orders.find? id).any (·.version = v)
  | _, _ => true

/-- When a stock read loads its row and the statement does not fail, the row has the
    quantity that it found in the cache, if it found any. -/
def CurrentRead (e : Env) (t : TxId) (o : Stmt) (s : Sys) : Bool :=
  match o, s.txs t with
  | .selectItem id, some x =>
    e.fault.isSome || !x.req.isRead || (s.db.items.find? id).all fun i =>
      x.cached = none || x.cached = some i.stockQuantity
  | _, _ => true

/-- The steps that a system with the effects `A` may take. The service harness
    commits nothing after a failed check, and without a cache a stock read
    changes nothing, so these need no restriction. -/
def Admitted (cfg : Config) (A : Allow) (e : Env) (t : TxId) (o : Stmt) (s : Sys) : Prop :=
  (A.stale ∨ cfg.harness = .service ∨ CurrentCheck e t o s) ∧
    (A.overwrite ∨ cfg.cache.enabled = false ∨ CurrentRead e t o s)

/-! ## The contract -/

/-- The contract of the requests of a system. -/
def contract (cfg : Config) (A : Allow) (d₀ : Db) : Contract (system cfg) where
  inv := Inv A d₀
  rely t s s' := s'.txs t = s.txs t ∧ Later t s s'
  pre := Pre cfg A d₀
  post t s := cfg.harness = .http → ∃ x, s.txs t = some x ∧ Finished A d₀ s x
  ok := Admitted cfg A

/-- The contract is sound if the code of each request meets it. -/
theorem contract_sound {cfg : Config} {A : Allow} {d₀ : Db}
    (hcode : ∀ t req s, Inv A d₀ s → Safe (contract cfg A d₀) t (cfg.code req)
      (fun _ => (contract cfg A d₀).post t) (s.start t req)) :
    (contract cfg A d₀).Sound where
  rely_refl t s := ⟨rfl, .refl t s⟩
  rely_trans h h' := ⟨h'.1.trans h.1, h.2.trans h'.2⟩
  post_stable h hrely _ hhttp := by
    obtain ⟨x, hx, hfin⟩ := h hhttp
    exact ⟨x, hrely.1.trans hx, hfin.mono hrely.2.wal⟩
  call := by
    intro e t o s r s' hinv hpre _ hexec
    obtain ⟨x, hx, _, hpre⟩ := hpre
    obtain ⟨x', hx', hmove⟩ := exec_move hexec
    obtain rfl : x = x' := Option.some.inj (hx.symm.trans hx')
    rcases hmove with hmove | ⟨rfl, hlive, rfl⟩
    · exact ⟨hinv.move hx hmove, fun t' ht => hmove.later_of_ne ht⟩
    · exact ⟨hinv.commit (hpre.2 hlive).1, fun t' ht => hinv.commit_later hx ht⟩
  start := fun {t req s} hinv =>
    ⟨hinv.start req, fun t' ht => ⟨Sys.setTx_txs_ne ht _, .of_db_eq rfl rfl fun _ _ hl => hl⟩⟩
  tick := fun {id s} hinv =>
    ⟨hinv.expire id, fun t => ⟨rfl, .of_db_eq rfl rfl fun _ _ hl => hl⟩⟩
  code := fun {t req s} hinv => hcode t req s hinv

end Nova
