import Nova.Spec.Linearizability

/-!
# Items do not touch each other

`Db.only id` is the part of the tables about one item: its row, its orders and its movements.
A commit writes rows about one item only, and what it writes depends on the part of that
item only. So the commits about an item are a log of their own (`Log.only`), and the part of
the item is what the inventory comes to that serves those requests and no others, and
their responses are the ones it gives (`items_apart`).
-/

namespace Nova

open Machine

/-! ## Parts of the tables -/

/-- The rows about an item. -/
def Db.only (d : Db) (id : Uuid) : Db where
  items := d.items.filter (·.id = id)
  orders := d.orders.filter (·.itemId = id)
  movements := d.movements.filter (·.itemId = id)

/-- The item that a row version is about. -/
def Write.itemId : Write → Uuid
  | .item i => i.id
  | .order o => o.itemId
  | .movement m => m.itemId

/-- The commit writes a row about the item. -/
def Commit.about (c : Commit) (id : Uuid) : Bool := c.writes.any (·.itemId = id)

/-- The row that `w` replaces, if there is one, is about the same item. -/
def Write.Keeps (w : Write) (d : Db) : Prop :=
  ∀ w', d.get w.row = some w' → w'.itemId = w.itemId

section

variable {d : Db} {id : Uuid}

/-- An item is in its own part. -/
theorem Db.only_item {i : MenuItem} (hi : i.id = id) (h : d.items.find? i.id = some i) :
    (d.only id).items.find? i.id = some i :=
  Table.find?_filter.mpr ⟨h, decide_eq_true hi⟩

/-- An order of an item is in the item's part. -/
theorem Db.only_order {o : Order} (ho : o.itemId = id) (h : d.orders.find? o.id = some o) :
    (d.only id).orders.find? o.id = some o :=
  Table.find?_filter.mpr ⟨h, decide_eq_true ho⟩

/-- Row versions about the item. -/
theorem Db.only_apply_in {w : Write} (hw : w.itemId = id) (hkeeps : w.Keeps d) :
    (d.apply w).only id = (d.only id).apply w := by
  cases w with
  | item i =>
    have h := Table.filter_upsert_in (t := d.items) (p := (·.id = id)) (r := i)
      (decide_eq_true hw) fun a ha => decide_eq_true ((Table.key_of_find? ha).trans hw)
    simp only [Db.only, Db.apply, h]
  | order o =>
    have h := Table.filter_upsert_in (t := d.orders) (p := (·.itemId = id)) (r := o)
      (decide_eq_true hw) fun a ha =>
        decide_eq_true ((hkeeps (.order a) (Db.get_order.mpr ha)).trans hw)
    simp only [Db.only, Db.apply, h]
  | movement m =>
    have h := Table.filter_upsert_in (t := d.movements) (p := (·.itemId = id)) (r := m)
      (decide_eq_true hw) fun a ha =>
        decide_eq_true ((hkeeps (.movement a) (by simp [Db.get, Write.row, ha])).trans hw)
    simp only [Db.only, Db.apply, h]

/-- Row versions about other items. -/
theorem Db.only_apply_out {w : Write} (hw : w.itemId ≠ id) (hkeeps : w.Keeps d) :
    (d.apply w).only id = d.only id := by
  cases w with
  | item i =>
    have h := Table.filter_upsert_out (t := d.items) (p := (·.id = id)) (r := i)
      (decide_eq_false hw) fun a ha =>
        decide_eq_false fun h => hw ((Table.key_of_find? ha).symm.trans h)
    simp only [Db.only, Db.apply, h]
  | order o =>
    have h := Table.filter_upsert_out (t := d.orders) (p := (·.itemId = id)) (r := o)
      (decide_eq_false hw) fun a ha =>
        decide_eq_false fun h => hw ((hkeeps (.order a) (Db.get_order.mpr ha)).symm.trans h)
    simp only [Db.only, Db.apply, h]
  | movement m =>
    have h := Table.filter_upsert_out (t := d.movements) (p := (·.itemId = id)) (r := m)
      (decide_eq_false hw) fun a ha => decide_eq_false fun h =>
        hw ((hkeeps (.movement a) (by simp [Db.get, Write.row, ha])).symm.trans h)
    simp only [Db.only, Db.apply, h]

/-- A commit is about the items of the rows it writes. -/
theorem Commit.about_iff {c : Commit} : c.about id = true ↔ ∃ w ∈ c.writes, w.itemId = id := by
  simp [Commit.about, List.any_eq_true]

/-- What a row version keeps, it keeps after a version of another row. -/
theorem Write.Keeps.apply {w w' : Write} (h : w'.Keeps d) (hne : w'.row ≠ w.row) :
    w'.Keeps (d.apply w) := by
  intro old hold
  rw [Db.get_apply, if_neg hne] at hold
  exact h old hold

/-- New versions of different rows, all about the item `j`. -/
structure AboutItem (d : Db) (j : Uuid) (ws : List Write) : Prop where
  itemId : ∀ w ∈ ws, w.itemId = j
  keeps : ∀ w ∈ ws, w.Keeps d
  rows : (ws.map Write.row).Nodup

/-- Row versions about one item are so after the first of them. -/
theorem AboutItem.tail {j : Uuid} {w : Write} {ws : List Write} (h : AboutItem d j (w :: ws)) :
    AboutItem (d.apply w) j ws := by
  have hrows := h.rows
  rw [List.map_cons, List.nodup_cons] at hrows
  refine ⟨fun w' hw' => h.itemId w' (List.mem_cons_of_mem w hw'), fun w' hw' => ?_, hrows.2⟩
  refine (h.keeps w' (List.mem_cons_of_mem w hw')).apply fun hrow => hrows.1 ?_
  rw [← hrow]
  exact List.mem_map_of_mem hw'

/-- Row versions about the item change its part as they change the tables. -/
theorem AboutItem.applyAll_in {ws : List Write} (h : AboutItem d id ws) :
    (d.applyAll ws).only id = (d.only id).applyAll ws := by
  induction ws generalizing d with
  | nil => rfl
  | cons w ws ih =>
    show ((d.apply w).applyAll ws).only id = ((d.only id).apply w).applyAll ws
    rw [ih h.tail, Db.only_apply_in (h.itemId w List.mem_cons_self) (h.keeps w List.mem_cons_self)]

/-- Row versions about another item do not change the part. -/
theorem AboutItem.applyAll_out {j : Uuid} {ws : List Write} (h : AboutItem d j ws)
    (hout : ∀ w ∈ ws, w.itemId ≠ id) : (d.applyAll ws).only id = d.only id := by
  induction ws generalizing d with
  | nil => rfl
  | cons w ws ih =>
    have hw : w.itemId ≠ id := hout w List.mem_cons_self
    show ((d.apply w).applyAll ws).only id = _
    rw [ih h.tail fun w' hw' => hout w' (List.mem_cons_of_mem w hw'),
      Db.only_apply_out hw (h.keeps w List.mem_cons_self)]

end

/-! ## Parts of a log -/

section

variable {A : Allow} {d₀ d : Db} {wal : List Commit} {req : Request} {read : Option Order}
  {e : Option Exc} {ws : List Write} {id : Uuid}

/-- The row of an item is about that item. -/
private theorem keeps_item (i : MenuItem) : (Write.item i).Keeps d := by
  intro w hw
  cases w with
  | item i' =>
    have hrow : d.items.find? i.id = some i' := Db.get_item.mp hw
    show i'.id = i.id
    exact Table.key_of_find? hrow
  | order o | movement m => simp [Db.get, Write.row] at hw

/-- A new row replaces none. -/
private theorem keeps_new {w : Write} (h : d.get w.row = none) : w.Keeps d := by
  intro w' hw'
  rw [h] at hw'
  cases hw'

/-- A step of an order keeps its item. -/
private theorem keeps_step {known : Order → Prop} {o cur o' : Order} {status : OrderStatus}
    (h : OrderStep known d o cur o' status) (hknown : ∀ o, known o → ∃ cur, KnownOrder d o cur) :
    (Write.order o').Keeps d := by
  intro w hw
  obtain ⟨rfl, hrow⟩ := h.current hknown
  have hcur : w = .order cur := by
    have hget : d.get (.order o'.id) = some (.order cur) := Db.get_order.mpr hrow
    exact Option.some.inj (hw.symm.trans hget)
  rw [hcur]
  exact h.itemId_eq.symm

/-- One version of an order. -/
private theorem aboutItem_order {o : Order} (h : (Write.order o).Keeps d) :
    AboutItem d o.itemId [.order o] := by
  refine ⟨?_, ?_, List.nodup_singleton _⟩
  · simp [Write.itemId]
  · simpa using h

/-- An item and the movement that records its change. -/
private theorem aboutItem_change {i : MenuItem} {m : StockMovement}
    (hfresh : d.movements.find? m.id = none) (hitem : m.itemId = i.id) :
    AboutItem d i.id [.item i, .movement m] := by
  have hm : (Write.movement m).Keeps d := keeps_new (Db.get_movement_eq_none.mpr hfresh)
  refine ⟨?_, ?_, ?_⟩
  · simp [Write.itemId, hitem]
  · simpa using ⟨keeps_item i, hm⟩
  · simp [Write.row]

/-- A change of stock for an order. -/
private theorem aboutItem_stocked {i : MenuItem} {m : StockMovement} {o : Order}
    (hfresh : d.movements.find? m.id = none) (hitem : m.itemId = i.id)
    (ho : (Write.order o).Keeps d) (hoi : o.itemId = i.id) :
    AboutItem d i.id [.item i, .movement m, .order o] := by
  have hm : (Write.movement m).Keeps d := keeps_new (Db.get_movement_eq_none.mpr hfresh)
  refine ⟨?_, ?_, ?_⟩
  · simp [Write.itemId, hitem, hoi]
  · simpa using ⟨keeps_item i, hm, ho⟩
  · simp [Write.row]

/-- Whatever a request commits is about one item. -/
theorem Effect.aboutItem (h : Effect A d₀ wal d req read e ws)
    (hknown : ∀ o, knownIn d₀ wal o → ∃ cur, KnownOrder d o cur) : ∃ j, AboutItem d j ws := by
  have hid : ∀ {i i' : MenuItem} {m : StockMovement} {delta : Int} {type : MovementType}
      {orderId : Option Uuid}, StockChange d i i' m delta type orderId → i'.id = i.id := by
    intro i i' m delta type orderId hch
    rw [hch.next]
  cases h with
  | refused | read => exact ⟨0, fun w hw => absurd hw List.not_mem_nil,
      fun w hw => absurd hw List.not_mem_nil, List.nodup_nil⟩
  | created _ _ _ _ _ _ _ hfresh hitemId => exact ⟨_, aboutItem_change hfresh hitemId⟩
  | adjusted _ hch | stale _ _ _ _ _ _ hch =>
    exact ⟨_, aboutItem_change hch.fresh (hch.itemId.trans (hid hch).symm)⟩
  | placed _ hfresh => exact ⟨_, aboutItem_order (keeps_new (Db.get_order_eq_none.mpr hfresh))⟩
  | rejected _ _ _ _ _ _ hstep | moved _ _ _ hstep =>
    exact ⟨_, aboutItem_order (keeps_step hstep hknown)⟩
  | stocked _ _ _ hiid hch hstep =>
    have hitem := hstep.itemId_eq
    rw [(hstep.current hknown).1, ← hiid, ← hid hch] at hitem
    exact ⟨_, aboutItem_stocked hch.fresh (hch.itemId.trans (hid hch).symm)
      (keeps_step hstep hknown) hitem⟩
  | @overwritten _ _ _ i' => exact ⟨i'.id, by simp [Write.itemId], by simpa using keeps_item i',
      List.nodup_singleton _⟩

/-- A known order version of the item is known in the item's part. -/
theorem knownIn.only {o : Order} (h : knownIn d₀ wal o) (ho : o.itemId = id) :
    knownIn (d₀.only id) (wal.filter (·.about id)) o := by
  rcases h with h | ⟨c, hc, hoc⟩
  · exact Or.inl (List.mem_filter.mpr ⟨h, decide_eq_true ho⟩)
  · refine Or.inr ⟨c, List.mem_filter.mpr ⟨hc, ?_⟩, hoc⟩
    exact List.any_eq_true.mpr ⟨_, hoc, decide_eq_true ho⟩

/-- What a request commits about an item it may commit on the part of that item. -/
theorem Effect.only (h : Effect A d₀ wal d req read e ws)
    (hknown : ∀ o, knownIn d₀ wal o → ∃ cur, KnownOrder d o cur) (hws : ∀ w ∈ ws, w.itemId = id)
    (hne : ws ≠ []) :
    Effect A (d₀.only id) (wal.filter (·.about id)) (d.only id) req read e ws := by
  have hchange : ∀ {i i' : MenuItem} {m : StockMovement} {delta : Int} {type : MovementType}
      {orderId : Option Uuid}, StockChange d i i' m delta type orderId → i'.id = id →
      StockChange (d.only id) i i' m delta type orderId := by
    intro i i' m delta type orderId hch hi
    have hid : i.id = id := by
      rw [← hi, hch.next]
    exact { hch with
      row := Db.only_item hid hch.row
      fresh := Table.find?_filter_eq_none hch.fresh }
  have hstep' : ∀ {o cur o' : Order} {status : OrderStatus},
      OrderStep (knownIn d₀ wal) d o cur o' status → o'.itemId = id → o.itemId = id ∧
        OrderStep (knownIn (d₀.only id) (wal.filter (·.about id))) (d.only id) o cur o' status := by
    intro o cur o' status hstep ho'
    obtain ⟨rfl, hrow⟩ := hstep.current hknown
    have ho : cur.itemId = id := hstep.itemId_eq.symm.trans ho'
    exact ⟨ho, { hstep with known := hstep.known.only ho, row := Db.only_order ho hstep.row }⟩
  cases h with
  | refused | read => exact absurd rfl hne
  | created hfresh hname hdescription hprice hstock hthreshold hversion hmfresh =>
    exact .created (Table.find?_filter_eq_none hfresh) hname hdescription hprice hstock
      hthreshold hversion
      (Table.find?_filter_eq_none hmfresh) ‹_› ‹_› ‹_› ‹_› ‹_› ‹_›
  | adjusted hid hch => exact .adjusted hid (hchange hch (hws _ List.mem_cons_self))
  | @placed b _ o hitem hfresh hitemId =>
    have ho : o.itemId = id := hws _ List.mem_cons_self
    obtain ⟨i, hi⟩ := Option.isSome_iff_exists.mp hitem
    have hin : (d.only id).items.find? b.itemId = some i :=
      Table.find?_filter.mpr ⟨hi, decide_eq_true
        ((Table.key_of_find? hi).trans (hitemId.symm.trans ho))⟩
    exact .placed (by rw [hin]; rfl) (Table.find?_filter_eq_none hfresh) hitemId ‹_› ‹_› ‹_› ‹_›
  | @rejected _ o cur o' i _ hexc hid hallowed hi hshort he hstep =>
    obtain ⟨ho, hstep⟩ := hstep' hstep (hws _ List.mem_cons_self)
    exact .rejected hexc hid hallowed (Table.find?_filter.mpr ⟨hi, decide_eq_true
      ((Table.key_of_find? hi).trans ho)⟩) hshort he hstep
  | @stocked a _ o cur o' i i' m hmoves hid hallowed hiid hch hstep =>
    obtain ⟨_, hstep⟩ := hstep' hstep (hws (.order o') (by simp))
    exact .stocked hmoves hid hallowed hiid (hchange hch (hws _ List.mem_cons_self)) hstep
  | moved hmoves hid hallowed hstep =>
    exact .moved hmoves hid hallowed (hstep' hstep (hws _ List.mem_cons_self)).2
  | @stale a _ o newer i i' m _ hexc hs hmoves hid hallowed hiid hch ho hnewer hnid hversion he =>
    have hi : i'.id = id := hws _ List.mem_cons_self
    have hoi : o.itemId = id := by
      rw [← hiid, ← hi, hch.next]
    obtain ⟨cur, hcur⟩ := hknown o ho
    obtain ⟨cur', hcur'⟩ := hknown newer hnewer
    -- both are versions of one order
    have hsame : cur = cur' := Option.some.inj ((hid ▸ hcur.row).symm.trans (hnid ▸ hcur'.row))
    have hni : newer.itemId = id := by
      rw [← hcur'.itemId, ← hsame, hcur.itemId, hoi]
    exact .stale hexc hs hmoves hid hallowed hiid (hchange hch hi) (ho.only hoi) (hnewer.only hni)
      hnid hversion he
  | @overwritten _ _ i i' hover hrow hnext =>
    have hi' : i'.id = id := hws _ List.mem_cons_self
    have hi : i.id = id := by
      rw [← hi', hnext]
    exact .overwritten hover (Table.find?_filter.mpr ⟨hrow, decide_eq_true hi⟩) hnext

/-- The commits about an item are a log that leads from part to part. -/
theorem Log.only (h : Log A d₀ wal d) (hd₀ : d₀.Consistent) (id : Uuid) :
    Log A (d₀.only id) (wal.filter (·.about id)) (d.only id) := by
  induction h with
  | nil => exact .nil
  | @snoc wal d c e hlog heff hexc ih =>
    have hknown : ∀ o, knownIn d₀ wal o → ∃ cur, KnownOrder d o cur := fun o ho =>
      hlog.knownOrder hd₀ ho
    -- every commit is about one item
    obtain ⟨j, hj⟩ := heff.aboutItem hknown
    rw [List.filter_append]
    cases hc : c.about id with
    | true =>
      -- about this one: it changes the part as it changes the tables
      obtain ⟨w, hw, hwid⟩ := Commit.about_iff.mp hc
      obtain rfl : j = id := (hj.itemId w hw).symm.trans hwid
      rw [hj.applyAll_in, show [c].filter (·.about j) = [c] from List.filter_cons_of_pos hc]
      exact ih.snoc (heff.only hknown hj.itemId (List.ne_nil_of_mem hw)) hexc
    | false =>
      -- about another: the part stays
      have hout : ∀ w ∈ c.writes, w.itemId ≠ id := by
        intro w hw hwid
        rw [Commit.about_iff.mpr ⟨w, hw, hwid⟩] at hc
        cases hc
      have hnone : [c].filter (·.about id) = [] :=
        List.filter_cons_of_neg fun h => Bool.false_ne_true (hc.symm.trans h)
      rw [hj.applyAll_out hout, hnone, List.append_nil]
      exact ih

/-- The part of consistent tables is consistent. -/
theorem Db.consistent_only (h : d.Consistent) : (d.only id).Consistent := by
  intro o ho
  obtain ⟨ho, hoid⟩ := List.mem_filter.mp ho
  obtain ⟨i, hi⟩ := Option.isSome_iff_exists.mp (h o ho)
  have hid : i.id = id := (Table.key_of_find? hi).trans (of_decide_eq_true hoid)
  exact Option.isSome_iff_exists.mpr ⟨i, Table.find?_filter.mpr ⟨hi, decide_eq_true hid⟩⟩

/-- A name that is unique in the tables is unique in a part. -/
theorem Db.namesUnique_only (h : d.NamesUnique) : (d.only id).NamesUnique := by
  intro i hi j hj
  exact h i (List.mem_filter.mp hi).1 j (List.mem_filter.mp hj).1

/-- The part of an item is its own requests, served one after the other. -/
theorem Log.only_served (h : Log A d₀ wal d) (hstale : ¬A.stale) (hover : ¬A.overwrite)
    (hd₀ : d₀.Consistent) (hunique : d.NamesUnique) (hws : ∀ c ∈ wal, c.writes ≠ []) (id : Uuid) :
    (d.only id).inventory = (wal.filter (·.about id)).foldl (fun s c => (Commit.serve c s).1)
      (d₀.only id).inventory := by
  have hpart := h.only hd₀ id
  have hserved := hpart.replay_serve hstale hover (Db.consistent_only hd₀)
    (Db.namesUnique_only hunique) (fun c hc => hws c (List.mem_filter.mp hc).1)
    (wal.filter (·.about id)).length
  rwa [← hpart.db_eq, replay_length] at hserved

/-- A request is answered alike on the part of the item that it is about. -/
theorem Log.only_answered (h : Log A d₀ wal d) (hstale : ¬A.stale) (hover : ¬A.overwrite)
    (hd₀ : d₀.Consistent) (hunique : d.NamesUnique) {k : Nat} {c : Commit} (hc : wal[k]? = some c)
    (hid : c.about id = true) :
    (c.serve ((d₀.after wal k).only id).inventory).2 =
      (c.serve (d₀.after wal k).inventory).2 := by
  obtain ⟨hlog, e, heff⟩ := h.at hc
  have hknown := fun o ho => hlog.knownOrder hd₀ (o := o) ho
  have hnames := fun b hb => h.name_free hunique hc (b := b) hb
  obtain ⟨w, hw, hwid⟩ := Commit.about_iff.mp hid
  obtain ⟨j, hj⟩ := heff.aboutItem hknown
  obtain rfl : j = id := (hj.itemId w hw).symm.trans hwid
  have hne : c.writes ≠ [] := List.ne_nil_of_mem hw
  have hwhole : c.serve _ = _ := heff.serves hstale hover hknown hnames hne
  have hpart : c.serve _ = _ := (heff.only hknown hj.itemId hne).serves hstale hover
    (fun o ho => (hlog.only hd₀ j).knownOrder (Db.consistent_only hd₀) ho)
    (fun b hb i hi => hnames b hb i (List.mem_filter.mp hi).1) hne
  rw [hwhole, hpart]

end

/-! ## Runs -/

/-- The response on record is the given answer, unless the request was failed from outside. -/
def Tx.Told (x : Tx) (a : Answer) : Prop :=
  x.faulted = true ∨ ∃ r, x.response = some r ∧ a.Shown x.req r

section

variable {cache : CacheService} {d₀ : Db} {ls : List (system ⟨.http, cache⟩).Label}
  {c : (system ⟨.http, cache⟩).Config}

/-- The client of a request that has committed is told what the inventory answers at the
    point of its commit. -/
theorem told_of_commit (hd₀ : d₀.Consistent) (hunique : d₀.NamesUnique)
    (hrun : SysRun ⟨.http, cache⟩ (RaceFree ⟨.http, cache⟩) d₀ ls c) {k : Nat} {r : Commit}
    (hr : c.st.wal[k]? = some r) (hends : Ends c r.tx) :
    ∃ x, c.st.txs r.tx = some x ∧ x.Told (r.serve (d₀.after c.st.wal k).inventory).2 := by
  have hmem := List.mem_of_getElem? hr
  have hlinked := hrun.linked hd₀
  obtain ⟨x, _, hx, hreq, _⟩ := hlinked.wal r hmem
  -- the run, cut where the request starts
  obtain ⟨ls₁, ls₂, rfl⟩ := List.append_of_mem (hrun.started hx)
  obtain ⟨c₁, hrun₁, hrest⟩ := hrun.split
  have hrest : Run (RaceFree ⟨.http, cache⟩) c₁ ([.start r.tx x.req] ++ ls₂) c := hrest
  obtain ⟨c₂, hone, hrun₂⟩ := hrest.split
  have hstart : c₁.next (.start r.tx x.req) = some c₂ := by
    simpa [Config.run] using hone.run_eq
  obtain ⟨y, hy, hconcluded⟩ := concluded_of_run hd₀ hunique hrun₁ hstart hrun₂ hends
  obtain rfl := Option.some.inj (hx.symm.trans hy)
  refine ⟨x, hx, ?_⟩
  cases hconcluded with
  | faulted hfaulted => exact Or.inl hfaulted
  | taken _ _ htaken => exact absurd rfl (htaken.1 r hmem)
  | linearized res hres hlinearized =>
    cases hlinearized with
    | observes _ _ hnone | conflict _ _ _ _ hnone | invalid hnone =>
      exact absurd rfl (hnone r hmem)
    | commits k' r' a _ hr' htx _ hserve hshown =>
      -- a request commits once
      have hentries : (c.st.wal.map (·.tx))[k]? = (c.st.wal.map (·.tx))[k']? := by
        simp only [List.getElem?_map, hr, hr', Option.map_some, htx]
      have hlt : k < (c.st.wal.map (·.tx)).length := by
        simpa using (List.getElem?_eq_some_iff.mp hr).1
      obtain rfl := (List.getElem?_inj hlt hlinked.once).mp hentries
      obtain rfl := Option.some.inj (hr.symm.trans hr')
      rw [hserve]
      exact Or.inr ⟨res, hres, hshown⟩

end

section

variable {cfg : Config} {d₀ : Db} {ls : List (system cfg).Label} {c : (system cfg).Config}

/-- Every commit is about one item, what the tables say about an item comes from the
    commits about it alone, and each of these was answered as if there were no other items:
    through the routes, this is what the client has been told when the request has ended. -/
structure ItemsApart (d₀ : Db) (c : (system cfg).Config) : Prop where
  one : ∀ r ∈ c.st.wal, ∃! id, r.about id = true
  served : ∀ id, (c.st.db.only id).inventory = (c.st.wal.filter (·.about id)).foldl
    (fun i r => (Commit.serve r i).1) (d₀.only id).inventory
  answered : ∀ id k (r : Commit), c.st.wal[k]? = some r → r.about id = true →
    (r.serve ((d₀.after c.st.wal k).only id).inventory).2 =
      (r.serve (d₀.after c.st.wal k).inventory).2
  told : cfg.harness = .http → ∀ id k (r : Commit), c.st.wal[k]? = some r →
    r.about id = true → Ends c r.tx → ∃ x, c.st.txs r.tx = some x ∧
      x.Told (r.serve ((d₀.after c.st.wal k).only id).inventory).2

/-- Every run without races falls apart into the runs of its items. -/
theorem items_apart (hd₀ : d₀.Consistent) (hunique : d₀.NamesUnique)
    (hrun : SysRun cfg (RaceFree cfg) d₀ ls c) : ItemsApart d₀ c where
  one r hr := by
    obtain ⟨k, hk⟩ := List.getElem?_of_mem hr
    obtain ⟨hlog, e, heff⟩ := (RaceFree.log hd₀ hrun).at hk
    obtain ⟨j, hj⟩ := heff.aboutItem fun o ho => hlog.knownOrder hd₀ ho
    obtain ⟨w, hw⟩ := List.exists_mem_of_ne_nil _ (wal_writes_of_run hrun r hr)
    refine ⟨j, Commit.about_iff.mpr ⟨w, hw, hj.itemId w hw⟩, fun id hid => ?_⟩
    obtain ⟨w', hw', rfl⟩ := Commit.about_iff.mp hid
    exact hj.itemId w' hw'
  served := (RaceFree.log hd₀ hrun).only_served (fun h => h) (fun h => h) hd₀
    (names_unique hd₀ hunique hrun) (wal_writes_of_run hrun)
  answered _ _ _ hk hid := (RaceFree.log hd₀ hrun).only_answered (fun h => h) (fun h => h) hd₀
    (names_unique hd₀ hunique hrun) hk hid
  told hhttp id k r hk hid hends := by
    obtain ⟨harness, cache⟩ := cfg
    obtain rfl : harness = .http := hhttp
    rw [(RaceFree.log hd₀ hrun).only_answered (fun h => h) (fun h => h) hd₀
      (names_unique hd₀ hunique hrun) hk hid]
    exact told_of_commit hd₀ hunique hrun hk hends

end

/-- Tea and cake are created and ordered at the same time. -/
def teaAndCake : List (system ⟨.http, ⟨true⟩⟩).Label :=
  [.start 0 (.createItem { name := "Tea", price := 350, stockQuantity := 9 }),
    .start 1 (.createItem { name := "Cake", price := 480, stockQuantity := 2 })] ++
  turns 0 [0, 0] ++ turns 1 [1, 0] ++ turns 0 [2] ++ turns 1 [3, 0, 0, 0] ++ turns 0 [0, 0, 0] ++
  [.start 2 (.placeOrder { itemId := 0, quantity := 3 }),
    .start 3 (.placeOrder { itemId := 1, quantity := 3 })] ++
  turns 2 [0, 4] ++ turns 3 [0, 5, 0, 0, 0] ++ turns 2 [0, 0, 0]

/-- Both orders are confirmed, but there is too little cake. -/
def bothConfirmed : List (system ⟨.http, ⟨true⟩⟩).Label :=
  [.start 4 (.transition .confirm 4), .start 5 (.transition .confirm 5)] ++
  turns 4 [0, 0, 0] ++ turns 5 [0, 0, 0, 0, 0] ++ turns 4 [6, 0, 0, 0, 0, 0, 0]

/-- Two items, ordered and confirmed by turns. -/
theorem items_apart_teaAndCake : ∃ c, SysRun ⟨.http, ⟨true⟩⟩ (RaceFree ⟨.http, ⟨true⟩⟩) Db.empty
    (teaAndCake ++ bothConfirmed) c ∧
    c.st.wal.map (·.tx) = [1, 0, 3, 2, 5, 4] ∧
    (c.st.wal.filter (·.about 0)).map (·.tx) = [0, 2, 4] ∧ ItemsApart Db.empty c := by
  obtain ⟨c, hrun, hval⟩ : ∃ c, SysRun ⟨.http, ⟨true⟩⟩ (RaceFree ⟨.http, ⟨true⟩⟩) Db.empty
      (teaAndCake ++ bothConfirmed) c ∧
      (c.st.wal.map (·.tx), (c.st.wal.filter (·.about 0)).map (·.tx)) =
        ([1, 0, 3, 2, 5, 4], [0, 2, 4]) :=
    Run.of_eval (fun c : (system ⟨.http, ⟨true⟩⟩).Config =>
      (c.st.wal.map (·.tx), (c.st.wal.filter (·.about 0)).map (·.tx)))
      (by decide +kernel) (by decide +kernel)
  obtain ⟨hwal, hpart⟩ := Prod.ext_iff.mp hval
  exact ⟨c, hrun, hwal, hpart, items_apart Db.consistent_empty Db.namesUnique_empty hrun⟩

end Nova
