import Nova.Spec.Columns

/-!
# Item names

The unique constraint keeps item names unique in every run (`names_unique`): the
transaction that inserts an item holds the lock of its name until it ends. A request
for a name that is taken leaves nothing behind, but it is not answered 409. The route
does raise `HTTPException(409)`, on which `get_db` commits; that commit fails, since the
failed `INSERT` has ended the transaction, and the client gets 500. The columns are not
checked either: an item that does not fit them is not created (`create_unfit`). So requests
for one name are answered as intended only where the name is free, one request wants it and
its item fits (`duplicates_refused`).
-/

namespace Nova

open Machine

/-! ## Names are unique -/

/-- The unique constraint on `menu_items.name`. -/
def Db.NamesUnique (d : Db) : Prop :=
  ∀ i ∈ d.items.rows, ∀ j ∈ d.items.rows, i.name = j.name → i = j

/-- The empty tables have no name twice. -/
theorem Db.namesUnique_empty : Db.empty.NamesUnique := by
  intro i hi
  cases hi

/-- The name of a pending item version is that of the committed one, or is free and
    locked by `t`. -/
def Sys.Reserves (s : Sys) (t : TxId) (i : MenuItem) : Prop :=
  (∃ j, s.db.items.find? i.id = some j ∧ j.name = i.name) ∨
    (∀ j ∈ s.db.items.rows, j.name ≠ i.name) ∧ s.owns t (.itemName i.name)

/-- Committed names are unique, and pending ones reserved. -/
structure Named (s : Sys) : Prop where
  unique : s.db.NamesUnique
  pending : ∀ t x, s.txs t = some x → ∀ i, .item i ∈ x.writes → s.Reserves t i

section

variable {s s' : Sys} {t : TxId} {x : Tx} {i : MenuItem} {o : Stmt} {e : Env} {cfg : Config}
  {A : Allow} {d₀ : Db}

/-- A reservation is kept while its locks are held. -/
theorem Sys.Reserves.keep (h : s.Reserves t i) (hdb : s'.db = s.db)
    (howns : ∀ row, s.owns t row → s'.owns t row) : s'.Reserves t i := by
  unfold Sys.Reserves
  rw [hdb]
  exact h.imp_right fun hfree => ⟨hfree.1, howns _ hfree.2⟩

/-- A new item version that the constraint has checked reserves its name. -/
theorem Named.reserves (h : Named s) (hx : s.txs t = some x) {ls : List (Row × LockMode)}
    (hname : (Write.item i).Named o (s.view x) ls) (hpre : x.Pre cfg A d₀ t s o) :
    (s.withLocks t ls).Reserves t i := by
  rcases hname i rfl with ⟨j, hj, hsame⟩ | ⟨⟨n, rfl⟩, hfree, hlock⟩
  · -- the row may be pending itself
    rcases Db.get_applyAll_some (Db.get_item.mpr hj) with hpending | hrow
    · have hreserved : s.Reserves t i := by
        have hold := h.pending t x hx j hpending
        rwa [Sys.Reserves, Table.key_of_find? hj, hsame] at hold
      exact hreserved.keep rfl fun row ho => Sys.owns_withLocks ho
    · exact Or.inl ⟨j, Db.get_item.mp hrow, hsame⟩
  · -- an insert is the first statement, so it has seen all committed names
    have hview : s.view x = s.db := by rw [Sys.view, hpre.2.1, Db.applyAll_nil]
    rw [hview] at hfree
    exact Or.inr ⟨hfree, .forUpdate, Or.inr rfl, Sys.mem_withLocks.mpr (Or.inl ⟨rfl, hlock⟩)⟩

/-- Any move other than `COMMIT`. -/
theorem Named.move (h : Named s) (hx : s.txs t = some x) (hpre : x.Pre cfg A d₀ t s o)
    (hm : Move e o t x s s') : Named s' := by
  -- the items that the other transactions are about to insert stay reserved
  have hother : ∀ {s' : Sys} {x' : Tx}, s'.db = s.db → s'.txs = Function.update s.txs t (some x') →
      (∀ t' row, t' ≠ t → s.owns t' row → s'.owns t' row) →
      (∀ i, .item i ∈ x'.writes → s'.Reserves t i) → Named s' := by
    intro s' x' hdb htxs howns hself
    refine ⟨hdb ▸ h.unique, fun t' y hy i hi => ?_⟩
    rw [htxs] at hy
    by_cases ht : t' = t
    · subst ht
      rw [Function.update_self, Option.some.injEq] at hy
      exact hself i (hy ▸ hi)
    · rw [Function.update_of_ne ht] at hy
      exact (h.pending t' y hy i hi).keep hdb fun row => howns t' row ht
  cases hm with
  | note x' hw =>
    refine hother rfl rfl (fun _ _ _ ho => ho) fun i hi => ?_
    exact (h.pending t x hx i (hw ▸ hi)).keep rfl fun _ ho => ho
  | published id q =>
    exact hother rfl rfl (fun _ _ _ ho => ho) fun i hi =>
      (h.pending t x hx i hi).keep rfl fun _ ho => ho
  | locked ls =>
    refine ⟨h.unique, fun t' y hy i hi => ?_⟩
    exact (h.pending t' y hy i hi).keep rfl fun _ ho => Sys.owns_withLocks ho
  | wrote ls w mode _ _ _ hname =>
    refine hother rfl rfl (fun _ _ _ ho => Sys.owns_withLocks ho) fun i hi => ?_
    rcases List.mem_append.mp hi with hi | hi
    · exact (h.pending t x hx i hi).keep rfl fun _ ho => Sys.owns_withLocks ho
    · obtain rfl := List.mem_singleton.mp hi
      -- the insertion has checked the name and reserved it
      exact h.reserves hx hname hpre
  | ended x' _ hw =>
    refine hother rfl rfl (fun _ _ ht ho => Sys.owns_release ht ho) fun i hi => ?_
    rw [hw] at hi
    cases hi

/-- A commit leaves the names of the items that were there. -/
theorem ItemsEffect.name {d d' : Db} (h : ItemsEffect d d') {id : Uuid} {j : MenuItem}
    (hj : d.items.find? id = some j) : ∃ j', d'.items.find? id = some j' ∧ j'.name = j.name := by
  cases h with
  | same he => exact ⟨j, by rw [he]; exact hj, rfl⟩
  | created i he hnew =>
    refine ⟨j, ?_, rfl⟩
    rw [he, Table.find?_upsert_ne, hj]
    rintro rfl
    rw [hnew] at hj
    cases hj
  | changed i i' he hrow hnext =>
    rw [he, Table.find?_upsert]
    have hid : i'.id = i.id := by rw [hnext]
    split
    · rename_i hsame
      rw [hsame, hid, hrow] at hj
      obtain rfl := Option.some.inj hj
      exact ⟨i', rfl, by rw [hnext]⟩
    · exact ⟨j, hj, rfl⟩

/-- A request writes one item at most. -/
theorem Effect.item_unique {d : Db} {wal : List Commit} {req : Request} {read : Option Order}
    {exc : Option Exc} {ws : List Write} (h : Effect A d₀ wal d req read exc ws) {i j : MenuItem}
    (hi : .item i ∈ ws) (hj : .item j ∈ ws) : i = j := by
  cases h with
  | refused | read => cases hi
  | placed | rejected | moved => simp at hi
  | created | adjusted | stocked | stale | overwritten =>
    simp only [List.mem_cons, Write.item.injEq, reduceCtorEq, or_false, List.not_mem_nil] at hi hj
    rw [hi, hj]

/-- `COMMIT` keeps committed names unique: a new one is free, and locked against all
    others. -/
theorem Named.commit (h : Named s) (hcompat : s.Compat) (hx : s.txs t = some x)
    (hc : Committable A d₀ s x) : Named (s.commit t x) := by
  by_cases hwrites : x.writes = []
  · have hdb : (s.commit t x).db = s.db := by
      show s.db.applyAll x.writes = s.db
      rw [hwrites, Db.applyAll_nil]
    refine ⟨hdb ▸ h.unique, fun t' y hy i hi => ?_⟩
    by_cases ht : t' = t
    · subst ht
      obtain rfl := Option.some.inj ((Sys.setTx_txs_self _).symm.trans hy)
      cases hi
    · have hold := h.pending t' y ((Sys.setTx_txs_ne ht _).symm.trans hy) i hi
      exact hold.keep hdb fun _ ho => Sys.owns_release ht ho
  obtain ⟨e, heff, _⟩ := hc hwrites
  -- a row of the new table is old, or was pending
  have hrows : ∀ j ∈ (s.db.applyAll x.writes).items.rows,
      .item j ∈ x.writes ∨ j ∈ s.db.items.rows := by
    intro j hj
    refine (Db.get_applyAll_some (Db.get_item.mpr (Table.find?_of_mem hj))).imp_right fun hrow => ?_
    exact Table.mem_of_find? (Db.get_item.mp hrow)
  have hmixed : ∀ i j, .item i ∈ x.writes → j ∈ (s.db.applyAll x.writes).items.rows →
      j ∈ s.db.items.rows → i.name = j.name → i = j := by
    intro i j hi hj hold hname
    rcases h.pending t x hx i hi with ⟨i', hi', hsame⟩ | ⟨hfree, _⟩
    · obtain rfl := h.unique i' (Table.mem_of_find? hi') j hold (hsame.trans hname)
      have hcur := heff.find?_item hi
      rw [← Table.key_of_find? hi', Table.find?_of_mem hj] at hcur
      exact (Option.some.inj hcur).symm
    · exact absurd hname.symm (hfree j hold)
  constructor
  · intro i hi j hj hname
    rcases hrows i hi with hi' | hi' <;> rcases hrows j hj with hj' | hj'
    · exact heff.item_unique hi' hj'
    · exact hmixed i j hi' hj hj' hname
    · exact (hmixed j i hj' hi hi' hname.symm).symm
    · exact h.unique i hi' j hj' hname
  · intro t' y hy i hi
    by_cases ht : t' = t
    · subst ht
      obtain rfl := Option.some.inj ((Sys.setTx_txs_self _).symm.trans hy)
      cases hi
    · rcases h.pending t' y ((Sys.setTx_txs_ne ht _).symm.trans hy) i hi with
        ⟨j, hj, hsame⟩ | ⟨hfree, howns⟩
      · obtain ⟨j', hj', hname⟩ := heff.items.name hj
        exact Or.inl ⟨j', hj', hname.trans hsame⟩
      · refine Or.inr ⟨fun j hj hname => ?_, Sys.owns_release ht howns⟩
        rcases hrows j hj with hnew | hold
        · rcases h.pending t x hx j hnew with ⟨j', hj', hsame⟩ | ⟨_, howns'⟩
          · exact hfree j' (Table.mem_of_find? hj') (hsame.trans hname)
          · rw [hname] at howns'
            exact ht (hcompat.owner howns howns')
        · exact hfree j hold hname

end

/-- In every run committed names are unique. -/
theorem names_unique {cfg : Config} {d₀ : Db}
    {ok : (system cfg).Config → (system cfg).Label → Prop}
    {ls : List (system cfg).Label} {c : (system cfg).Config}
    (hd₀ : d₀.Consistent) (hunique : d₀.NamesUnique) (hrun : SysRun cfg ok d₀ ls c) :
    c.st.db.NamesUnique := by
  have hnamed : Named c.st := by
    refine SysRun.state_invariant (A := ⟨True, True, True⟩) hd₀ (fun _ => trivial)
      (fun c l _ => admitted_any c l) ⟨hunique, fun _ _ hx => by cases hx⟩
      (fun c t req _ hnone h => ⟨h.unique, ?_⟩) (fun c t e o k x r s' _ _ haw _ hm h => ?_)
      (fun c t e k x _ _ haw hlive h => ?_) (fun s id h => ⟨h.unique, h.pending⟩) hrun
    · exact forall_update h.pending fun i hi => by cases hi
    · exact h.move haw.tx haw.pre hm
    · exact h.commit haw.inv.compat haw.tx (haw.pre.2 hlive).1
  exact hnamed.unique

/-! ## Items that fit their columns -/

/-- The row that a creation inserts. -/
def ItemCreate.item (b : ItemCreate) : NewItem where
  name := b.name
  description := b.description
  price := b.price
  stockQuantity := b.stockQuantity
  lowStockThreshold := b.lowStockThreshold

/-- The columns of `menu_items` can hold the new item. -/
structure ItemCreate.Fits (b : ItemCreate) : Prop where
  stockQuantity : Int32 b.stockQuantity
  lowStockThreshold : Int32 b.lowStockThreshold
  price : Numeric10 b.price
  name : Storable b.name
  description : ∀ s, b.description = some s → Storable s

/-- A creation's `INSERT` fits the columns when its body does. -/
theorem ItemCreate.fits_insertItem {b : ItemCreate} {d : Db} :
    (Stmt.insertItem b.item).Fits d ↔ b.Fits := by
  constructor
  · intro h
    exact {
      stockQuantity := h.integers _ (by simp [Stmt.integers, ItemCreate.item])
      lowStockThreshold := h.integers _ (by simp [Stmt.integers, ItemCreate.item])
      price := h.prices _ (by simp [Stmt.prices, ItemCreate.item])
      name := h.texts _ (by simp [Stmt.texts, ItemCreate.item])
      description := fun s hs => h.texts s (by simp [Stmt.texts, ItemCreate.item, hs]) }
  · intro h
    refine ⟨fun n hn => ?_, fun p hp => ?_, fun s hs => ?_⟩
    · simp only [Stmt.integers, ItemCreate.item, List.mem_cons, List.not_mem_nil, or_false] at hn
      rcases hn with rfl | rfl | rfl
      · exact h.stockQuantity
      · exact h.lowStockThreshold
      · exact by decide
    · obtain rfl := List.mem_singleton.mp hp
      exact h.price
    · simp only [Stmt.texts, ItemCreate.item, List.mem_cons, Option.mem_toList] at hs
      rcases hs with rfl | hs
      · exact h.name
      · exact h.description s hs

/-- If the item fits, so does everything else that its request stores. -/
theorem ItemCreate.Fits.creates {b : ItemCreate} (h : b.Fits) :
    Creates (fun o => ∀ d, o.Fits d) b where
  insert _ := fits_insertItem.mpr h
  select _ _ := .of_nil rfl rfl rfl
  movement _ _ := {
    integers := fun n hn => by
      simp only [Stmt.integers, List.mem_cons, List.not_mem_nil, or_false] at hn
      rcases hn with rfl | rfl | rfl
      · exact h.stockQuantity
      · exact by decide
      · exact h.stockQuantity
    prices := fun _ hp => absurd hp List.not_mem_nil
    texts := fun s hs => by
      obtain rfl := List.mem_singleton.mp hs
      decide }
  setStock _ _ _ := .of_nil rfl rfl rfl

/-- A valid request is run by its route. -/
theorem route_createItem {cache : CacheService} {b : ItemCreate} (hvalid : b.valid = true) :
    Api.route cache (.createItem b) = Api.createItem cache b := by
  simp [Api.route, Request.valid, hvalid]

/-- Every statement of a creation whose body fits, fits. -/
theorem ItemCreate.Fits.code {cache : CacheService} {b : ItemCreate} (h : b.Fits)
    (hvalid : b.valid = true) : ((⟨.http, cache⟩ : Config).code (.createItem b)).Costs
      (fun o => ∀ d, o.Fits d) 7 fun _ => True := by
  refine main_costs (getDb_costs (d := 0) ⟨Or.inl rfl, ?_, ?_⟩ ?_ ?_) le_rfl
  · exact fun _ => .of_nil rfl rfl rfl
  · exact fun _ => .of_nil rfl rfl rfl
  · exact fun _ _ => .of_nil rfl rfl rfl
  · rw [route_createItem hvalid]
    exact apiCreateItem_costs h.creates

section

variable {cache : CacheService} {d₀ : Db}
  {ok : (system ⟨.http, cache⟩).Config → (system ⟨.http, cache⟩).Label → Prop}
  {ls : List (system ⟨.http, cache⟩).Label} {c : (system ⟨.http, cache⟩).Config}

/-- Nothing fails a creation whose item fits its columns. -/
theorem create_fits (hok : ∀ c l, ok c l → OnCall RangedSql c l)
    (hrun : SysRun ⟨.http, cache⟩ ok d₀ ls c) {t : TxId} {x : Tx} {b : ItemCreate}
    (hx : c.st.txs t = some x) (hreq : x.req = .createItem b) (hvalid : b.valid = true)
    (hfits : b.Fits) : x.faulted = false := by
  -- all creations at once, as a step of one says nothing of the others' programs
  let Calm : TxId → Tx → Prop := fun _ x =>
    ∀ b, x.req = .createItem b → b.valid = true → b.Fits → x.faulted = false
  have hcalm : ∀ t x, c.st.txs t = some x → Calm t x := by
    clear hx
    induction hrun with
    | nil =>
      intro t x hx
      cases hx
    | @snoc ls c l c' hrun hl hnext ih =>
      cases l with
      | start t req =>
        obtain ⟨_, rfl⟩ := next_start hnext
        -- a request that starts has not failed
        exact forall_update ih fun _ _ _ _ => rfl
      | step t e =>
        obtain ⟨o, k, r, s, hcall, hexec, rfl⟩ := next_step hnext
        obtain ⟨x, hx, _⟩ := exec_move hexec
        intro t' y hy b hreq hvalid hfits
        by_cases ht : t' = t
        · -- the request that moves
          subst ht
          have hreq' : x.req = .createItem b := exec_req hx hexec hy ▸ hreq
          by_contra hfaulted
          rcases exec_faulted hx hexec hy (by simpa using hfaulted) with hold | hbreaks
          · cases hold.symm.trans (ih t' x hx b hreq' hvalid hfits)
          · -- a statement of its code, so one that fits
            have hranged : RangedSql e t' o c.st := (hok c _ hl).apply hcall
            have hover := (Sys.overflows_iff hx).mp (hranged.2.symm.trans hbreaks)
            refine hover (hrun.next_of_costs (S := fun o => ∀ d, o.Fits d) (n := 7) hcall
              (fun req hstart => ?_) _)
            have hstarted := SysRun.started hrun hx
            rw [hrun.start_unique hstart hstarted, hreq']
            exact hfits.code hvalid
        · exact ih t' y ((exec_txs_ne hexec ht).symm.trans hy) b hreq hvalid hfits
      | tick id =>
        obtain rfl := next_tick hnext
        exact ih
  exact hcalm t x hx b hreq hvalid hfits

/-- A request for an item that does not fit its columns: it has not begun, or its `INSERT`
    has failed. -/
def Turned (c : (system ⟨.http, cache⟩).Config) (t : TxId) (x : Tx) : Prop :=
  (c.pool t = some ((⟨.http, cache⟩ : Config).code x.req) ∧ x.aborted = false) ∨ x.faulted = true

/-- A creation whose body does not fit is turned down. -/
theorem create_turned (hok : ∀ c l, ok c l → OnCall RangedSql c l)
    (hrun : SysRun ⟨.http, cache⟩ ok d₀ ls c) {t : TxId} {x : Tx} {b : ItemCreate}
    (hx : c.st.txs t = some x) (hreq : x.req = .createItem b) (hvalid : b.valid = true)
    (hfits : ¬b.Fits) : Turned c t x := by
  induction hrun generalizing t x with
  | nil => cases hx
  | @snoc ls c l c' hrun hl hnext ih =>
    cases l with
    | start t' req =>
      obtain ⟨_, rfl⟩ := next_start hnext
      -- it starts, and has not begun
      by_cases ht : t = t'
      · subst ht
        obtain rfl := Option.some.inj ((Sys.setTx_txs_self _).symm.trans hx)
        exact Or.inl ⟨Function.update_self .., rfl⟩
      · refine (ih ((Sys.setTx_txs_ne ht _).symm.trans hx) hreq).imp_left fun h => ⟨?_, h.2⟩
        exact (Function.update_of_ne ht _ _).trans h.1
    | step t' e =>
      -- one step of it
      obtain ⟨o, k, r, s, hcall, hexec, rfl⟩ := next_step hnext
      by_cases ht : t = t'
      · -- the request that moves
        subst ht
        obtain ⟨y, hy, _⟩ := exec_move hexec
        have hreq' : y.req = .createItem b := exec_req hy hexec hx ▸ hreq
        right
        rcases ih hy hreq' with ⟨hpool, hlive⟩ | hfaulted
        · -- the first statement is the `INSERT`
          rw [hreq', Config.code, getDb, route_createItem hvalid] at hpool
          obtain ⟨rfl, _⟩ := Prog.call.inj (Option.some.inj (hcall.symm.trans hpool))
          have hranged : RangedSql e t (.insertItem b.item) c.st := (hok c _ hl).apply hcall
          have hover := (Sys.overflows_iff hy).mpr (mt ItemCreate.fits_insertItem.mp hfits)
          have hafter := exec_breaks hy hlive rfl hexec (hranged.2.trans hover)
          obtain rfl := Option.some.inj (hafter.symm.trans hx)
          rfl
        · -- once failed, failed
          exact exec_stays_faulted hy hexec hx hfaulted
      · -- another request leaves record and program
        refine (ih ((exec_txs_ne hexec ht).symm.trans hx) hreq).imp_left fun h => ⟨?_, h.2⟩
        exact (Function.update_of_ne ht _ _).trans h.1
    | tick id =>
      obtain rfl := next_tick hnext
      exact ih hx hreq

/-- A request for an item that does not fit its columns is answered 500 and creates
    nothing. -/
theorem create_unfit (hd₀ : d₀.Consistent) (hok : ∀ c l, ok c l → OnCall RangedSql c l)
    (hrun : SysRun ⟨.http, cache⟩ ok d₀ ls c) {t : TxId} {x : Tx} {b : ItemCreate}
    (hx : c.st.txs t = some x) (ht : Ends c t) (hreq : x.req = .createItem b)
    (hvalid : b.valid = true) (hfits : ¬b.Fits) :
    x.commit = none ∧ ∃ detail, x.response = some (.error 500 detail) := by
  rcases create_turned hok hrun hx hreq hvalid hfits with ⟨hpool, _⟩ | hfaulted
  · -- it has ended, so it has begun
    rw [hreq, Config.code, getDb, route_createItem hvalid] at hpool
    cases ht.symm.trans hpool
  · exact refused_of_faulted hd₀ (fun c e hl => hok c _ hl) hrun hx ht (by rw [hreq]; rfl)
      (by rw [hreq]; exact hvalid)
      hfaulted

end

/-! ## Requests for one name -/

/-- A valid request for an item of the name. -/
def Request.creates (name : String) : Request → Bool
  | .createItem b => b.name = name && b.valid
  | _ => false

/-- Any number of requests for items of one name, in any interleaving. Redis commands may
    fail, and PostgreSQL fails the statements whose values do not fit their columns. -/
abbrev duplicateRuns (cache : CacheService) (d₀ : Db) (name : String) :
    List (system ⟨.http, cache⟩).Label → (system ⟨.http, cache⟩).Config → Prop :=
  SysRun ⟨.http, cache⟩ (fun c l => Starts (fun req => req.creates name = true) l ∧
    OnCall RangedSql c l) d₀

/-- A request was answered with the status code. -/
def Tx.Answered (x : Tx) (status : Nat) : Prop :=
  ∃ r, x.response = some r ∧ r.status = status

/-- If there was no item of the name, one request has created it. Every other one was
    answered 409 and has left nothing. -/
structure RefusedCleanly (d₀ : Db) (name : String) (s : Sys) : Prop where
  once : ∀ i ∈ s.db.items.rows, ∀ j ∈ s.db.items.rows, i.name = name → j.name = name → i = j
  created : (∀ i ∈ d₀.items.rows, i.name ≠ name) → (∃ t x, s.txs t = some x) →
    ∃ t x, s.txs t = some x ∧ x.Answered 201
  one : ∀ t x t' x', s.txs t = some x → s.txs t' = some x' → x.Answered 201 → x'.Answered 201 →
    t = t'
  taken : (∃ i ∈ d₀.items.rows, i.name = name) → ∀ t x, s.txs t = some x → ¬x.Answered 201
  refused : ∀ t x, s.txs t = some x → ¬x.Answered 201 →
    x.Answered 409 ∧ x.published = none ∧ ∀ r ∈ s.wal, r.tx ≠ t

section

variable {cache : CacheService} {d₀ : Db} {name : String} {ls : List (system ⟨.http, cache⟩).Label}
  {c : (system ⟨.http, cache⟩).Config}

/-- A request of such a run. -/
private theorem request_of_run (hrun : duplicateRuns cache d₀ name ls c) {t : TxId} {x : Tx}
    (hx : c.st.txs t = some x) :
    ∃ b, x.req = .createItem b ∧ b.name = name ∧ b.valid = true := by
  have hcreates := (SysRun.serves (P := fun req => req.creates name = true)
    (fun _ _ hl => hl.1) hrun).2
    t x hx
  cases hreq : x.req with
  | createItem b => exact ⟨b, rfl, by simpa [hreq, Request.creates] using hcreates⟩
  | adjustStock | placeOrder | transition | getStock => simp [hreq, Request.creates] at hcreates

/-- A request has created its item, or was answered 500: the item does not fit its columns,
    or the name was taken. -/
private theorem create_outcome (hd₀ : d₀.Consistent) (hrun : duplicateRuns cache d₀ name ls c)
    (hrest : AtRest c) {t : TxId} {x : Tx} (hx : c.st.txs t = some x) :
    (x.Answered 201 ∧ ∀ b, x.req = .createItem b → b.Fits) ∨ x.Answered 500 ∧ x.commit = none ∧
      ((∀ b, x.req = .createItem b → ¬b.Fits) ∨ takenIn d₀ c.st.wal name) := by
  have hends := hrun.ends_of_atRest hrest hx
  obtain ⟨b, hreq, hname, hvalid⟩ := request_of_run hrun hx
  by_cases hfits : b.Fits
  swap
  · -- the body does not fit: 500
    right
    obtain ⟨hcommit, detail, hr⟩ :=
      create_unfit hd₀ (fun _ _ hl => hl.2) hrun hx hends hreq hvalid hfits
    refine ⟨⟨_, hr, rfl⟩, hcommit, Or.inl fun b' hreq' => ?_⟩
    obtain rfl := Request.createItem.inj (hreq.symm.trans hreq')
    exact hfits
  -- it fits, so that no statement of the request has failed
  have hcalm := create_fits (fun _ _ hl => hl.2) hrun hx hreq hvalid hfits
  rcases (hrun.finished hd₀ rfl hx hends).unfaulted hcalm (by rw [hreq]; rfl) with
    ⟨d, ws, e, r, _, ⟨_, _, _, heff⟩, hr, hanswer⟩ | ⟨hinvalid, _⟩ |
      ⟨b', hb', htaken, hcommit, detail, hr⟩
  · -- the request has ended by itself
    left
    rw [hreq] at heff hanswer
    cases heff with
    | created =>
      obtain ⟨body, rfl⟩ := hanswer
      refine ⟨⟨_, hr, rfl⟩, fun b' hreq' => ?_⟩
      obtain rfl := Request.createItem.inj (hreq.symm.trans hreq')
      exact hfits
    | refused hwhy =>
      cases hwhy with
      | noItem hitem => cases hitem
  · rw [hreq] at hinvalid
    cases hvalid.symm.trans hinvalid
  · -- the name was taken: 500
    right
    obtain rfl := Request.createItem.inj (hreq.symm.trans hb')
    exact ⟨⟨_, hr, rfl⟩, hcommit, Or.inr (hname ▸ htaken)⟩

/-- Requests for one name are answered as intended if and only if there is none, or
    the name was free, there is only one, and its item fits its columns. -/
theorem duplicates_refused (hd₀ : d₀.Consistent) (hunique : d₀.NamesUnique)
    (hrun : duplicateRuns cache d₀ name ls c) (hrest : AtRest c) :
    RefusedCleanly d₀ name c.st ↔ ∀ t req, .start t req ∈ ls →
      (∀ i ∈ d₀.items.rows, i.name ≠ name) ∧ (∀ t' req', .start t' req' ∈ ls → t' = t) ∧
        ∀ b, req = .createItem b → b.Fits := by
  have houtcome := fun t x => create_outcome hd₀ hrun hrest (t := t) (x := x)
  have hknown : ∀ t req, .start t req ∈ ls → ∃ x, c.st.txs t = some x := by
    intro t req hstart
    have hends : Ends c t := (hrest t).resolve_left fun hnone => by
      have hpool := hrun.pool_of_start hstart
      rw [hnone] at hpool
      cases hpool
    obtain ⟨x, hx, _⟩ := finished_of_run (A := ⟨True, True, True⟩) hd₀ (fun _ => trivial)
      (fun c l _ => admitted_any c l) hrun rfl hends
    exact ⟨x, hx⟩
  constructor
  · intro hclean
    -- nobody is ever answered 409
    have hwins : ∀ t x, c.st.txs t = some x →
        x.Answered 201 ∧ ∀ b, x.req = .createItem b → b.Fits := by
      intro t x hx
      rcases houtcome t x hx with hwin | ⟨⟨r, hr, hstatus⟩, _⟩
      · exact hwin
      · have hnot : ¬x.Answered 201 := by
          rintro ⟨r', hr', hstatus'⟩
          obtain rfl := Option.some.inj (hr.symm.trans hr')
          cases hstatus.symm.trans hstatus'
        obtain ⟨⟨r', hr', hstatus'⟩, _⟩ := hclean.refused t x hx hnot
        obtain rfl := Option.some.inj (hr.symm.trans hr')
        cases hstatus.symm.trans hstatus'
    intro t req hstart
    obtain ⟨x, hx⟩ := hknown t req hstart
    refine ⟨fun i hi hname => ?_, fun t' req' hstart' => ?_, fun b hreq => ?_⟩
    · exact hclean.taken ⟨i, hi, hname⟩ t x hx (hwins t x hx).1
    · obtain ⟨x', hx'⟩ := hknown t' req' hstart'
      exact hclean.one t' x' t x hx' hx (hwins t' x' hx').1 (hwins t x hx).1
    · rw [hrun.start_unique hstart (SysRun.started hrun hx)] at hreq
      exact (hwins t x hx).2 b hreq
  · intro honly
    have hlinked := hrun.linked hd₀
    have hsame : ∀ t x t' x', c.st.txs t = some x → c.st.txs t' = some x' → t' = t :=
      fun t x t' x' hx hx' => (honly t x.req (hrun.started hx)).2.1 t' x'.req (hrun.started hx')
    have hwins : ∀ t x, c.st.txs t = some x → x.Answered 201 := by
      intro t x hx
      rcases houtcome t x hx with hwin | ⟨_, hcommit, hunfit | htaken⟩
      · exact hwin.1
      · obtain ⟨b, hreq, _, _⟩ := request_of_run hrun hx
        exact absurd ((honly t x.req (hrun.started hx)).2.2 b hreq) (hunfit b hreq)
      exfalso
      -- who has taken the name?
      rcases htaken with ⟨i, hi, hname⟩ | ⟨r, hr, _⟩
      · exact (honly t x.req (hrun.started hx)).1 i hi hname
      · obtain ⟨y, d, hy, _, hcommitted, _⟩ := hlinked.wal r hr
        obtain rfl := hsame t x r.tx y hx hy
        obtain rfl := Option.some.inj (hx.symm.trans hy)
        cases hcommit.symm.trans hcommitted
    have hnames := names_unique hd₀ hunique hrun
    constructor
    · intro i hi j hj hi' hj'
      exact hnames i hi j hj (hi'.trans hj'.symm)
    · rintro _ ⟨t, x, hx⟩
      exact ⟨t, x, hx, hwins t x hx⟩
    · intro t x t' x' hx hx' _ _
      exact (hsame t x t' x' hx hx').symm
    · rintro ⟨i, hi, hname⟩ t x hx
      exact absurd hname ((honly t x.req (hrun.started hx)).1 i hi)
    · intro t x hx hnot
      exact absurd (hwins t x hx) hnot

end

/-- One request for the name. -/
def oneTea : List (system ⟨.http, ⟨true⟩⟩).Label :=
  [.start 0 (.createItem { name := "Tea", price := 350, stockQuantity := 10 })] ++
  turns 0 [0, 0, 1, 0, 0, 0]

/-- One request for a free name is nobody's duplicate. -/
theorem duplicates_refused_one : ∃ c, duplicateRuns ⟨true⟩ Db.empty "Tea" oneTea c ∧ AtRest c ∧
    RefusedCleanly Db.empty "Tea" c.st := by
  obtain ⟨c, hrun, hval⟩ : ∃ c, duplicateRuns ⟨true⟩ Db.empty "Tea" oneTea c ∧
      decide (∀ t ∈ oneTea.filterMap Label.starts, Ends c t) = true :=
    Run.of_eval (fun c : (system ⟨.http, ⟨true⟩⟩).Config =>
      decide (∀ t ∈ oneTea.filterMap Label.starts, Ends c t))
      (by decide +kernel) (by decide +kernel)
  have hrest := hrun.atRest (of_decide_eq_true hval)
  refine ⟨c, hrun, hrest, ?_⟩
  refine (duplicates_refused Db.consistent_empty Db.namesUnique_empty hrun hrest).mpr ?_
  have honly : ∀ t req, .start t req ∈ oneTea →
      t = 0 ∧ req = .createItem { name := "Tea", price := 350, stockQuantity := 10 } := by
    intro t req hstart
    simp only [oneTea, turns, List.map_cons, List.map_nil, List.cons_append, List.nil_append,
      List.mem_cons, reduceCtorEq, or_false, List.not_mem_nil] at hstart
    exact Label.start.inj hstart
  intro t req hstart
  refine ⟨fun i hi => absurd hi List.not_mem_nil, fun t' req' hstart' => ?_, fun b hreq => ?_⟩
  · rw [(honly t req hstart).1, (honly t' req' hstart').1]
  · obtain rfl := Request.createItem.inj ((honly t req hstart).2.symm.trans hreq)
    exact ⟨by decide, by decide, by decide, by decide, fun _ hs => by cases hs⟩

/-- Two requests for the name, the second of which waits for the first. -/
def twoTeas : List (system ⟨.http, ⟨true⟩⟩).Label :=
  [.start 0 (.createItem { name := "Tea", price := 350, stockQuantity := 10 }),
    .start 1 (.createItem { name := "Tea", price := 420, stockQuantity := 5 })] ++
  turns 0 [0, 0, 1, 0, 0, 0] ++ turns 1 [2, 0, 0, 0]

/-- The second is answered 500. -/
theorem duplicates_answered : ¬∀ ls c, duplicateRuns ⟨true⟩ Db.empty "Tea" ls c → AtRest c →
    RefusedCleanly Db.empty "Tea" c.st := by
  intro hall
  let shown : (system ⟨.http, ⟨true⟩⟩).Config → Bool × Option (Option Nat) := fun c =>
    (decide (∀ t ∈ twoTeas.filterMap Label.starts, Ends c t),
      (c.st.txs 1).map fun x => x.response.map Response.status)
  obtain ⟨c, hrun, hval⟩ : ∃ c, duplicateRuns ⟨true⟩ Db.empty "Tea" twoTeas c ∧
      shown c = (true, some (some 500)) :=
    Run.of_eval shown (by decide +kernel) (by decide +kernel)
  obtain ⟨hends, htx⟩ := Prod.mk.inj hval
  obtain ⟨x, hx, hr⟩ := Option.map_eq_some_iff.mp htx
  obtain ⟨r, hr, hstatus⟩ := Option.map_eq_some_iff.mp hr
  have hclean := hall _ c hrun (hrun.atRest (of_decide_eq_true hends))
  have hother : ∀ status, x.Answered status → status = 500 := by
    rintro status ⟨r', hr', rfl⟩
    rw [← Option.some.inj (hr.symm.trans hr')]
    exact hstatus
  have hnot : ¬x.Answered 201 := fun h => by cases hother 201 h
  cases hother 409 (hclean.refused 1 x hx hnot).1

end Nova
