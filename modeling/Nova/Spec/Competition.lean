import Nova.ForStd.Rationing
import Nova.Spec.Ledger
import Nova.Spec.Runs

/-!
# Competing confirmations

Any number of pending orders compete for the stock of one item, each with one
confirmation, while the other requests leave the item and these orders alone. The
commits of the confirmations are the decisions of a `Rationing` of the stock
(`Log.contended`), so at the end every order is confirmed or rejected, no rejected
order would still fit, and equal orders are confirmed as far as the stock goes
(`competing_confirms`).
-/

namespace Nova

open Machine

/-! ## The contest -/

/-- The quantity of an order. -/
def Db.quantityOf (d : Db) (id : Uuid) : Int := ((d.orders.find? id).map (·.quantity)).getD 0

/-- The orders of `T` that have the status `st`. -/
def Db.withStatus (d : Db) (T : Finset Uuid) (st : OrderStatus) : Finset Uuid :=
  T.filter fun id => (d.orders.find? id).any (·.status = st)

/-- An order has a status if its row says so. -/
theorem Db.mem_withStatus {d : Db} {T : Finset Uuid} {st : OrderStatus} {id : Uuid} :
    id ∈ d.withStatus T st ↔ id ∈ T ∧ ∃ o, d.orders.find? id = some o ∧ o.status = st := by
  simp [Db.withStatus, Option.any_eq_true]

/-- The orders `T` are pending orders for `item`. -/
structure Contest (d₀ : Db) (item : Uuid) (T : Finset Uuid) : Prop where
  consistent : d₀.Consistent
  stocked : (d₀.items.find? item).isSome
  pending : ∀ id ∈ T, ∃ o, d₀.orders.find? id = some o ∧ o.itemId = item ∧ o.status = .pending

/-- The request confirms one of the orders. -/
def Contends (T : Finset Uuid) (req : Request) : Prop := ∃ id ∈ T, req = .transition .confirm id

/-- The request touches neither the item nor one of the orders. -/
def Foreign (d₀ : Db) (item : Uuid) (T : Finset Uuid) : Request → Prop
  | .createItem _ => True
  | .adjustStock id _ | .getStock id => id ≠ item
  | .placeOrder b => b.itemId ≠ item
  | .transition _ id => id ∉ T ∧ ∀ o, d₀.orders.find? id = some o → o.itemId ≠ item

/-- What the commits of a contest have decided so far. -/
structure Contended (d₀ : Db) (item : Uuid) (T : Finset Uuid) (wal : List Commit) (d : Db) :
    Prop where
  rationing : Rationing (d₀.stock item) d₀.quantityOf (d.withStatus T .confirmed)
    (d.withStatus T .rejected) (d.stock item)
  undecided : ∀ id ∈ T, (∀ r ∈ wal, r.req ≠ .transition .confirm id) → ∀ o, knownIn d₀ wal o →
    o.id = id → d₀.orders.find? id = some o
  decided : ∀ id ∈ T, ∀ r ∈ wal, r.req = .transition .confirm id →
    id ∈ d.withStatus T .confirmed ∪ d.withStatus T .rejected
  elsewhere : ∀ o, knownIn d₀ wal o → o.itemId = item →
    ∃ o₀, d₀.orders.find? o.id = some o₀ ∧ o₀.itemId = item

section

variable {A : Allow} {d₀ d d' : Db} {item : Uuid} {T : Finset Uuid} {wal : List Commit}
  {req : Request} {read : Option Order} {e : Option Exc} {ws : List Write}

/-- Nothing is decided at the beginning. -/
theorem Contended.init (hc : Contest d₀ item T) : Contended d₀ item T [] d₀ where
  rationing := by
    have hnone : ∀ st, st ≠ .pending → d₀.withStatus T st = ∅ := by
      intro st hst
      refine Finset.eq_empty_of_forall_notMem fun id hid => ?_
      obtain ⟨hmem, o, ho, hstatus⟩ := Db.mem_withStatus.mp hid
      obtain ⟨o', ho', _, hpending⟩ := hc.pending id hmem
      obtain rfl : o = o' := Option.some.inj (ho.symm.trans ho')
      exact hst (hstatus.symm.trans hpending)
    rw [hnone .confirmed (by decide), hnone .rejected (by decide)]
    exact .start (d₀.stock_nonneg item)
  undecided id _ _ o ho hid := by
    rcases ho with ho | ⟨_, hr, _⟩
    · exact hid ▸ Table.find?_of_mem ho
    · cases hr
  decided _ _ _ hr := nomatch hr
  elsewhere o ho hitem := by
    rcases ho with ho | ⟨_, hr, _⟩
    · exact ⟨o, Table.find?_of_mem ho, hitem⟩
    · cases hr

/-! ## Foreign requests -/

/-- A foreign request writes neither the item nor one of the orders, and no order for
    the item that the first tables do not know. -/
theorem Effect.foreign (heff : Effect A d₀ wal d req read e ws) (hforeign : Foreign d₀ item T req)
    (hitem : (d.items.find? item).isSome) (hT : ∀ id ∈ T, (d.orders.find? id).isSome)
    (hcur : ∀ id cur, d.orders.find? id = some cur → knownIn d₀ wal cur)
    (helse : ∀ o, knownIn d₀ wal o → o.itemId = item →
      ∃ o₀, d₀.orders.find? o.id = some o₀ ∧ o₀.itemId = item) :
    ∀ w ∈ ws, w.row ≠ .item item ∧ ∀ o, w = .order o → o.id ∉ T ∧
      (o.itemId = item → ∃ o₀, d₀.orders.find? o.id = some o₀ ∧ o₀.itemId = item) := by
  -- the row version of a foreign transition
  have hstep : ∀ {a id o cur o' status}, Foreign d₀ item T (.transition a id) → o.id = id →
      OrderStep (knownIn d₀ wal) d o cur o' status → o'.id ∉ T ∧
        (o'.itemId = item → ∃ o₀, d₀.orders.find? o'.id = some o₀ ∧ o₀.itemId = item) := by
    intro a id o cur o' status hf hid hs
    have hcurid := Table.key_of_find? hs.row
    rw [hs.id_eq, hs.itemId_eq]
    refine ⟨hcurid ▸ hid ▸ hf.1, fun hi => helse cur (hcur _ _ hs.row) hi⟩
  -- and the item of its order
  have hother : ∀ {a id o i}, Foreign d₀ item T (.transition a id) → o.id = id →
      knownIn d₀ wal o → i = o.itemId → i ≠ item := by
    rintro a id o i hf rfl hknown rfl hi
    obtain ⟨o₀, ho₀, hi₀⟩ := helse o hknown hi
    exact hf.2 o₀ ho₀ hi₀
  have hitemRow : ∀ {i : MenuItem}, i.id ≠ item → (Write.item i).row ≠ .item item := by
    intro i hne heq
    exact hne (Row.item.inj heq)
  cases heff with
  | refused | read => exact fun w hw => absurd hw List.not_mem_nil
  | created hnew =>
    simp only [List.mem_cons, List.not_mem_nil, or_false, forall_eq_or_imp, forall_eq]
    refine ⟨⟨hitemRow ?_, by simp⟩, by simp [Write.row], by simp⟩
    rintro rfl
    rw [hnew] at hitem
    cases hitem
  | adjusted hid hch =>
    simp only [List.mem_cons, List.not_mem_nil, or_false, forall_eq_or_imp, forall_eq]
    refine ⟨⟨hitemRow ?_, by simp⟩, by simp [Write.row], by simp⟩
    rw [hch.next]
    exact hid ▸ hforeign
  | placed _ hnew hitemId =>
    simp only [List.mem_singleton, forall_eq]
    refine ⟨by simp [Write.row], ?_⟩
    rintro o' ho'
    obtain rfl := Write.order.inj ho'
    refine ⟨fun hmem => ?_, fun hi => absurd (hitemId.symm.trans hi) hforeign⟩
    have hsome := hT _ hmem
    rw [hnew] at hsome
    cases hsome
  | rejected _ hid _ _ _ _ hs =>
    simp only [List.mem_singleton, forall_eq]
    refine ⟨by simp [Write.row], fun o' ho' => ?_⟩
    obtain rfl := Write.order.inj ho'
    exact hstep hforeign hid hs
  | stocked _ hid _ hi hch hs =>
    simp only [List.mem_cons, List.not_mem_nil, or_false, forall_eq_or_imp, forall_eq]
    refine ⟨⟨hitemRow ?_, by simp⟩, ⟨by simp [Write.row], by simp⟩,
      by simp [Write.row], fun o' ho' => ?_⟩
    · rw [hch.next]
      exact hother hforeign hid hs.known hi
    · obtain rfl := Write.order.inj ho'
      exact hstep hforeign hid hs
  | moved _ hid _ hs =>
    simp only [List.mem_singleton, forall_eq]
    refine ⟨by simp [Write.row], fun o' ho' => ?_⟩
    obtain rfl := Write.order.inj ho'
    exact hstep hforeign hid hs
  | stale _ _ _ hid _ hi hch hknown =>
    simp only [List.mem_cons, List.not_mem_nil, or_false, forall_eq_or_imp, forall_eq]
    refine ⟨⟨hitemRow ?_, by simp⟩, by simp [Write.row], by simp⟩
    rw [hch.next]
    exact hother hforeign hid hknown hi
  | overwritten _ hrow hnext =>
    simp only [List.mem_singleton, forall_eq]
    refine ⟨hitemRow ?_, by simp⟩
    rw [hnext, Table.key_of_find? hrow]
    exact hforeign

/-- After writes of foreign requests the contest stands as before. -/
private theorem contended_foreign {c : Commit} (h : Contended d₀ item T wal d)
    (hreq : Foreign d₀ item T c.req)
    (hws : ∀ w ∈ c.writes, w.row ≠ .item item ∧ ∀ o, w = .order o → o.id ∉ T ∧
      (o.itemId = item → ∃ o₀, d₀.orders.find? o.id = some o₀ ∧ o₀.itemId = item)) :
    Contended d₀ item T (wal ++ [c]) (d.applyAll c.writes) := by
  -- neither the item nor an order of the contest is written
  have hstock : (d.applyAll c.writes).stock item = d.stock item := by
    have hget := Db.get_applyAll_of_not_mem (d := d) fun w hw => (hws w hw).1
    have hfind : (d.applyAll c.writes).items.find? item = d.items.find? item :=
      Option.map_injective (fun _ _ he => Write.item.inj he) hget
    simp only [Db.stock, hfind]
  have horders : ∀ id ∈ T, (d.applyAll c.writes).orders.find? id = d.orders.find? id := by
    intro id hid
    have hget : (d.applyAll c.writes).get (.order id) = d.get (.order id) := by
      refine Db.get_applyAll_of_not_mem fun w hw hrow => ?_
      cases w with
      | order o =>
        obtain rfl : o.id = id := Row.order.inj hrow
        exact ((hws _ hw).2 o rfl).1 hid
      | item i | movement m => cases hrow
    exact Option.map_injective (fun _ _ he => Write.order.inj he) hget
  have hstatus : ∀ st, (d.applyAll c.writes).withStatus T st = d.withStatus T st := fun st =>
    Finset.filter_congr fun id hid => by rw [horders id hid]
  have hnot : ∀ id ∈ T, c.req ≠ .transition .confirm id := by
    intro id hid he
    rw [he] at hreq
    exact hreq.1 hid
  constructor
  · rw [hstatus, hstatus, hstock]
    exact h.rationing
  · intro id hid hnone o ho hoid
    rcases knownIn_snoc.mp ho with hold | hnew
    · exact h.undecided id hid (fun r hr => hnone r (List.mem_append_left _ hr)) o hold hoid
    · exact absurd (hoid ▸ hid) ((hws _ hnew).2 o rfl).1
  · intro id hid r hr he
    rw [hstatus, hstatus]
    rcases List.mem_append.mp hr with hr | hr
    · exact h.decided id hid r hr he
    · obtain rfl := List.mem_singleton.mp hr
      exact absurd he (hnot id hid)
  · intro o ho hitem
    rcases knownIn_snoc.mp ho with hold | hnew
    · exact h.elsewhere o hold hitem
    · exact ((hws _ hnew).2 o rfl).2 hitem

/-! ## Confirmations -/

/-- A confirmation of the pending order `o`: it rejects the order where the stock is
    too small, and takes the units otherwise. -/
inductive Decision (d : Db) (item : Uuid) (o o' : Order) : List Write → Prop
  | rejects : o'.status = .rejected → d.stock item < o.quantity → Decision d item o o' [.order o']
  | confirms (i' : MenuItem) (m : StockMovement) : o'.status = .confirmed → i'.id = item →
      i'.stockQuantity = d.stock item - o.quantity →
      Decision d item o o' [.item i', .movement m, .order o']

/-- Where no other version of the order was ever committed, its confirmation decides
    it. -/
theorem Effect.decision {id : Uuid} {o : Order}
    (heff : Effect A d₀ wal d (.transition .confirm id) read e ws)
    (ho : d₀.orders.find? id = some o) (hitem : o.itemId = item) (hpending : o.status = .pending)
    (hone : ∀ o', knownIn d₀ wal o' → o'.id = id → o' = o)
    (hcur : ∀ id cur, d.orders.find? id = some cur → knownIn d₀ wal cur) :
    d.orders.find? id = some o ∧ ∃ o', o'.id = id ∧ Decision d item o o' ws := by
  have hoid : o.id = id := Table.key_of_find? ho
  -- the order has one version, so this is the version that was read and the row
  have hstep : ∀ {cur o' status}, OrderStep (knownIn d₀ wal) d o cur o' status →
      cur = o ∧ d.orders.find? id = some o ∧ o'.id = id := by
    intro cur o' status hs
    have hcurid := (Table.key_of_find? hs.row).trans hoid
    have hcur := hone cur (hcur _ _ hs.row) hcurid
    refine ⟨hcur, ?_, hs.id_eq.trans hcurid⟩
    rw [← hoid, ← hcur]
    exact hcur ▸ hs.row
  cases heff with
  | refused href =>
    cases href with
    | noItem hid => cases hid
    | noOrder hnone =>
      rw [ho] at hnone
      cases hnone
    | invalid hknown hid hinvalid =>
      obtain rfl := hone _ hknown hid
      rw [hpending] at hinvalid
      cases hinvalid
    | conflict hknown hid hnewer hnewerid hversion =>
      rw [hone _ hknown hid, hone _ hnewer hnewerid] at hversion
      exact absurd rfl hversion
  | rejected _ hid _ hrow hshort _ hs =>
    obtain rfl := hone _ hs.known hid
    obtain ⟨rfl, hrow', hid'⟩ := hstep hs
    rw [hitem] at hrow
    refine ⟨hrow', _, hid', .rejects hs.status_eq ?_⟩
    rwa [Db.stock_of_find? hrow]
  | @stocked _ _ _ _ _ i i' m _ hid _ hi hch hs =>
    obtain rfl := hone _ hs.known hid
    obtain ⟨rfl, hrow', hid'⟩ := hstep hs
    have hi' : i.id = item := hi.trans hitem
    refine ⟨hrow', _, hid', .confirms _ _ hs.status_eq ?_ ?_⟩
    · rw [hch.next]
      exact hi'
    · have hstock := hch.stock
      rw [← hi', Db.stock_of_find? hch.row, hstock]
      simp only [Action.stockDelta]
      omega
  | moved hmoves => exact absurd (Or.inl rfl) hmoves
  | stale _ _ _ hid _ _ _ hknown hnewer hnewerid hversion =>
    rw [hone _ hknown hid, hone _ hnewer hnewerid] at hversion
    exact absurd rfl hversion

/-- Deciding a pending order adds it to the orders of its new status. -/
theorem Db.withStatus_upsert {o o' : Order} (he : d'.orders = d.orders.upsert o') (hid : o'.id ∈ T)
    (ho : d.orders.find? o'.id = some o) {st : OrderStatus} (hst : o.status ≠ st) :
    d'.withStatus T st =
      if o'.status = st then insert o'.id (d.withStatus T st) else d.withStatus T st := by
  ext id
  -- the rows are as before, but for the one of `o'`
  have hmem : id ∈ d'.withStatus T st ↔ id ∈ T ∧
      if id = o'.id then o'.status = st else ∃ o, d.orders.find? id = some o ∧ o.status = st := by
    rw [Db.mem_withStatus, he, Table.find?_upsert]
    split
    · simp
    · rfl
  rw [hmem]
  by_cases hid' : id = o'.id
  · subst hid'
    -- the old row had another status
    have hnot : o'.id ∉ d.withStatus T st := by
      rw [Db.mem_withStatus]
      rintro ⟨_, o₁, ho₁, hstatus⟩
      obtain rfl : o = o₁ := Option.some.inj (ho.symm.trans ho₁)
      exact hst hstatus
    by_cases hstatus : o'.status = st
    · simp [hid, hstatus]
    · simp [hstatus, hnot]
  · -- the other orders are in the set as before
    rw [if_neg hid', ← Db.mem_withStatus]
    by_cases hstatus : o'.status = st
    · rw [if_pos hstatus, Finset.mem_insert, or_iff_right hid']
    · rw [if_neg hstatus]

/-- A decision is one of the rationing. -/
private theorem contended_confirm {c : Commit} {id : Uuid} (h : Contended d₀ item T wal d)
    (hc : Contest d₀ item T) (hlog : Log A d₀ wal d) (hid : id ∈ T)
    (hreq : c.req = .transition .confirm id) (hnone : ∀ r ∈ wal, r.req ≠ .transition .confirm id)
    (heff : Effect A d₀ wal d c.req c.read e c.writes) :
    Contended d₀ item T (wal ++ [c]) (d.applyAll c.writes) := by
  obtain ⟨o, ho, hitem, hpending⟩ := hc.pending id hid
  have hone : ∀ o', knownIn d₀ wal o' → o'.id = id → o' = o := fun o' hknown ho' =>
    Option.some.inj ((h.undecided id hid hnone o' hknown ho').symm.trans ho)
  rw [hreq] at heff
  obtain ⟨hrow, o', ho'id, hdecision⟩ := heff.decision ho hitem hpending hone
    fun _ _ hfind => hlog.known_of_find? hfind
  have hquantity : d₀.quantityOf id = o.quantity := by simp [Db.quantityOf, ho]
  have hpos := o.ckQuantityPositive
  -- the status sets and the stock after the decision
  have hinsert : ∀ {d' : Db} {st : OrderStatus}, d'.orders = d.orders.upsert o' → .pending ≠ st →
      d'.withStatus T st =
        if o'.status = st then insert id (d.withStatus T st) else d.withStatus T st := by
    intro d' st he hst
    have hupsert := Db.withStatus_upsert (T := T) he (ho'id ▸ hid) (ho'id ▸ hrow) (hpending ▸ hst)
    rwa [ho'id] at hupsert
  have hnot : id ∉ d.withStatus T .confirmed := by
    rw [Db.mem_withStatus]
    rintro ⟨_, o₁, ho₁, hstatus⟩
    obtain rfl : o = o₁ := Option.some.inj (hrow.symm.trans ho₁)
    rw [hpending] at hstatus
    cases hstatus
  have hafter : (d.applyAll c.writes).orders = d.orders.upsert o' ∧
      (∀ n, .order n ∈ c.writes → n = o') ∧
      (o'.status = .confirmed ∨ o'.status = .rejected) ∧
      Rationing (d₀.stock item) d₀.quantityOf ((d.applyAll c.writes).withStatus T .confirmed)
        ((d.applyAll c.writes).withStatus T .rejected) ((d.applyAll c.writes).stock item) := by
    generalize c.writes = ws at hdecision
    cases hdecision with
    | rejects hstatus hshort =>
      have he : (d.applyAll [.order o']).orders = d.orders.upsert o' := rfl
      refine ⟨he, by simp, Or.inr hstatus, ?_⟩
      rw [hinsert he (by decide), hinsert he (by decide), hstatus]
      exact h.rationing.refuse (hquantity ▸ hshort)
    | confirms i' m hstatus hi' hstock =>
      have he : (d.applyAll [.item i', .movement m, .order o']).orders = d.orders.upsert o' := rfl
      refine ⟨he, by simp, Or.inl hstatus, ?_⟩
      rw [hinsert he (by decide), hinsert he (by decide), hstatus]
      have hstock' : (d.applyAll [.item i', .movement m, .order o']).stock item =
          d.stock item - d₀.quantityOf id := by
        show (((d.apply (.item i')).apply (.movement m)).apply (.order o')).stock item = _
        rw [Db.stock_apply_order, Db.stock_apply_movement, Db.stock_apply_item, if_pos hi'.symm,
          hstock, hquantity]
      rw [hstock']
      have hnonneg := i'.ckStockNonNegative
      exact h.rationing.grant hnot (by omega) (by omega)
  obtain ⟨horders, hnew, hdecided, hrationing⟩ := hafter
  constructor
  · exact hrationing
  · intro id' hid' hnone' n hn hnid
    rcases knownIn_snoc.mp hn with hold | hmem
    · exact h.undecided id' hid' (fun r hr => hnone' r (List.mem_append_left _ hr)) n hold hnid
    · obtain rfl : id = id' := ho'id.symm.trans ((hnew n hmem ▸ rfl : n.id = o'.id).symm.trans hnid)
      exact absurd hreq (hnone' c (List.mem_append_right _ (List.mem_singleton.mpr rfl)))
  · intro id' hid' r hr he
    rw [Finset.mem_union, hinsert horders (by decide), hinsert horders (by decide)]
    rcases List.mem_append.mp hr with hr | hr
    · have hold := Finset.mem_union.mp (h.decided id' hid' r hr he)
      refine hold.imp (fun hmem => ?_) fun hmem => ?_
      · split
        · exact Finset.mem_insert_of_mem hmem
        · exact hmem
      · split
        · exact Finset.mem_insert_of_mem hmem
        · exact hmem
    · obtain rfl := List.mem_singleton.mp hr
      obtain ⟨_, rfl⟩ := Request.transition.inj (hreq.symm.trans he)
      rcases hdecided with hstatus | hstatus
      · exact Or.inl (by simp [hstatus])
      · exact Or.inr (by simp [hstatus])
  · intro n hn hnitem
    rcases knownIn_snoc.mp hn with hold | hmem
    · exact h.elsewhere n hold hnitem
    · rw [hnew n hmem, ho'id]
      exact ⟨o, ho, hitem⟩

/-- No order of the contest is confirmed by two commits. -/
def ConfirmsOnce (T : Finset Uuid) (r r' : Commit) : Prop :=
  ∀ id ∈ T, r.req = .transition .confirm id → r'.req ≠ .transition .confirm id

/-- Along the log of a contest the stock is rationed. -/
theorem Log.contended (hlog : Log A d₀ wal d) (hc : Contest d₀ item T)
    (hreqs : ∀ r ∈ wal, Contends T r.req ∨ Foreign d₀ item T r.req)
    (honce : wal.Pairwise (ConfirmsOnce T)) : Contended d₀ item T wal d := by
  induction hlog with
  | nil => exact .init hc
  | @snoc wal d c e hlog heff _ ih =>
    rw [List.pairwise_append] at honce
    have hold := ih (fun r hr => hreqs r (List.mem_append_left _ hr)) honce.1
    rcases hreqs c (List.mem_append_right _ (List.mem_singleton.mpr rfl)) with
      ⟨id, hid, hreq⟩ | hforeign
    · -- a confirmation of the contest is the first one of its order
      refine contended_confirm hold hc hlog hid hreq (fun r hr he => ?_) heff
      exact honce.2.2 r hr c (List.mem_singleton.mpr rfl) id hid he hreq
    · -- a request that is none leaves the contest as it stands
      refine contended_foreign hold hforeign (heff.foreign hforeign ?_ ?_ ?_ hold.elsewhere)
      · -- the item is still there
        have hitem := hc.stocked
        rw [← Db.get_item_isSome] at hitem ⊢
        exact hlog.isSome_get hitem
      · -- and so are the orders
        intro id hid
        obtain ⟨o, ho, _⟩ := hc.pending id hid
        rw [← Db.get_order_isSome]
        refine hlog.isSome_get ?_
        rw [Db.get_order_isSome, ho]
        rfl
      · exact fun _ _ hfind => hlog.known_of_find? hfind

end

/-! ## Runs -/

/-- The confirmation of order `id` was started once and has ended, and no await of it
    was failed from outside. -/
def ConfirmationDone {cfg : Config} (ls : List (system cfg).Label) (c : (system cfg).Config)
    (id : Uuid) : Prop :=
  ∃ t x, (∀ t', .start t' (.transition .confirm id) ∈ ls ↔ t' = t) ∧ Ends c t ∧
    c.st.txs t = some x ∧ x.faulted = false

/-- How a contest ends: every order is confirmed or rejected, the confirmed ones have
    taken their units, none of the rejected ones would still fit, and of equal orders
    as many are confirmed as fit. -/
structure Outcome (d₀ d : Db) (item : Uuid) (T : Finset Uuid) : Prop where
  decided : ∀ id ∈ T, ∃ o, d.orders.find? id = some o ∧ o.quantity = d₀.quantityOf id ∧
    (o.status = .confirmed ∨ o.status = .rejected)
  stock : d.stock item = d₀.stock item - ∑ id ∈ d.withStatus T .confirmed, d₀.quantityOf id
  nonneg : 0 ≤ d.stock item
  maximal : ∀ id ∈ d.withStatus T .rejected, d.stock item < d₀.quantityOf id
  equal : ∀ q, 0 < q → (∀ id ∈ T, d₀.quantityOf id = q) →
    ((d.withStatus T .confirmed).card : Int) = min (T.card : Int) (d₀.stock item / q)

/-- A contest in which every order is decided has its outcome. -/
theorem Contended.outcome {A : Allow} {d₀ d : Db} {item : Uuid} {T : Finset Uuid}
    {wal : List Commit} (h : Contended d₀ item T wal d) (hc : Contest d₀ item T)
    (hlog : Log A d₀ wal d)
    (hall : ∀ id ∈ T, id ∈ d.withStatus T .confirmed ∪ d.withStatus T .rejected) :
    Outcome d₀ d item T where
  decided id hid := by
    obtain ⟨o₀, ho₀, _⟩ := hc.pending id hid
    obtain ⟨cur, hknown⟩ := hlog.knownOrder hc.consistent (Or.inl (Table.mem_of_find? ho₀))
    have hrow := hknown.row
    rw [Table.key_of_find? ho₀] at hrow
    refine ⟨cur, hrow, by simp [Db.quantityOf, ho₀, hknown.quantity], ?_⟩
    refine (Finset.mem_union.mp (hall id hid)).imp (fun hmem => ?_) fun hmem => ?_
    · obtain ⟨_, o, ho, hstatus⟩ := Db.mem_withStatus.mp hmem
      rwa [Option.some.inj (hrow.symm.trans ho)]
    · obtain ⟨_, o, ho, hstatus⟩ := Db.mem_withStatus.mp hmem
      rwa [Option.some.inj (hrow.symm.trans ho)]
  stock := h.rationing.balance
  nonneg := h.rationing.nonneg
  maximal := h.rationing.maximal
  equal q hq hquantity := by
    -- when all quantities are equal it is enough to count
    have hdisj : Disjoint (d.withStatus T .confirmed) (d.withStatus T .rejected) := by
      rw [Finset.disjoint_left]
      intro id hconf hrej
      obtain ⟨_, o, ho, hstatus⟩ := Db.mem_withStatus.mp hconf
      obtain ⟨_, o', ho', hstatus'⟩ := Db.mem_withStatus.mp hrej
      obtain rfl : o = o' := Option.some.inj (ho.symm.trans ho')
      rw [hstatus] at hstatus'
      cases hstatus'
    have hunion : d.withStatus T .confirmed ∪ d.withStatus T .rejected = T := by
      refine Finset.Subset.antisymm (fun id hid => ?_) hall
      rcases Finset.mem_union.mp hid with hid | hid <;> exact (Db.mem_withStatus.mp hid).1
    have hcard := h.rationing.card_granted hdisj hq fun id hid => hquantity id (hunion ▸ hid)
    rwa [hunion] at hcard

/-- Runs in which each request is a confirmation of an order of `T` or foreign. -/
abbrev contestRuns (cache : CacheService) (d₀ : Db) (item : Uuid) (T : Finset Uuid) :
    List (system ⟨.http, cache⟩).Label → (system ⟨.http, cache⟩).Config → Prop :=
  SysRun ⟨.http, cache⟩ (fun _ l => Starts (fun req => Contends T req ∨ Foreign d₀ item T req) l) d₀

section

variable {cache : CacheService} {d₀ : Db} {item : Uuid} {T : Finset Uuid}
  {ls : List (system ⟨.http, cache⟩).Label} {c : (system ⟨.http, cache⟩).Config}

/-- A confirmation that has ended is in the log. -/
private theorem confirmation_logged {t : TxId} {x : Tx} {id : Uuid} (hc : Contest d₀ item T)
    (hid : id ∈ T) (hreq : x.req = .transition .confirm id) (hfault : x.faulted = false)
    (hx : c.st.txs t = some x) (hlinked : Linked c.st)
    (hcontended : ∀ wal d, wal <+: c.st.wal → Log ⟨True, True, True⟩ d₀ wal d →
      Contended d₀ item T wal d)
    (hfin : Finished ⟨True, True, True⟩ d₀ c.st x) :
    ∃ r ∈ c.st.wal, r.req = .transition .confirm id := by
  by_contra hnone
  push Not at hnone
  rcases hfin.unfaulted hfault (by rw [hreq]; rfl) with
    ⟨d, ws, e, r, hcommit, ⟨wal, hpre, hlog, heff⟩, _⟩ | ⟨hvalid, _⟩ | ⟨b, hb, _⟩
  · obtain ⟨o, ho, hitem, hpending⟩ := hc.pending id hid
    have hstate := hcontended wal d hpre hlog
    rw [hreq] at heff
    -- the order is still as it was at the start, so this confirmation decides it
    obtain ⟨_, o', _, hdecision⟩ := heff.decision ho hitem hpending
      (fun o' hknown ho' => Option.some.inj ((hstate.undecided id hid
        (fun r hr => hnone r (hpre.subset hr)) o' hknown ho').symm.trans ho))
      fun _ _ hfind => hlog.known_of_find? hfind
    have hne : ws ≠ [] := by
      cases hdecision <;> simp
    obtain ⟨r, hr, htx, _⟩ := hlinked.committed t x d ws hx hcommit hne
    obtain ⟨x', _, hx', hreq', _⟩ := hlinked.wal r hr
    rw [htx, hx] at hx'
    obtain rfl := Option.some.inj hx'
    exact hnone r hr (hreq'.symm.trans hreq)
  · rw [hreq] at hvalid
    cases hvalid
  · cases hreq.symm.trans hb

/-- Competing confirmations are decided correctly and maximally, in every
    interleaving. -/
theorem competing_confirms (hc : Contest d₀ item T) (hrun : contestRuns cache d₀ item T ls c)
    (hdone : ∀ id ∈ T, ConfirmationDone ls c id) : Outcome d₀ c.st.db item T := by
  have hserves := (SysRun.serves (fun _ _ hl => hl) hrun).2
  have hlog := hrun.log hc.consistent
  have hlinked := hrun.linked hc.consistent
  -- every commit is one of a request that was admitted
  have hreqs : ∀ r ∈ c.st.wal, Contends T r.req ∨ Foreign d₀ item T r.req := by
    intro r hr
    obtain ⟨x, _, hx, hreq, _⟩ := hlinked.wal r hr
    exact hreq ▸ hserves _ x hx
  -- no order is confirmed twice, for each is the order of one request
  have honce : c.st.wal.Pairwise (ConfirmsOnce T) := by
    refine (List.pairwise_map.mp hlinked.once).imp_of_mem fun {r r'} hr hr' hne => ?_
    intro id hid he he'
    obtain ⟨t, _, hstart, _⟩ := hdone id hid
    obtain ⟨x, _, hx, hreq, _⟩ := hlinked.wal r hr
    obtain ⟨x', _, hx', hreq', _⟩ := hlinked.wal r' hr'
    have ht := (hstart r.tx).mp ((hreq.trans he) ▸ hrun.started hx)
    have ht' := (hstart r'.tx).mp ((hreq'.trans he') ▸ hrun.started hx')
    exact hne (ht.trans ht'.symm)
  -- so the invariant of the contest holds at every point of the log
  have hcontended : ∀ wal d, wal <+: c.st.wal → Log ⟨True, True, True⟩ d₀ wal d →
      Contended d₀ item T wal d := fun wal d hpre hlog =>
    hlog.contended hc (fun r hr => hreqs r (hpre.subset hr)) (honce.sublist hpre.sublist)
  refine (hcontended _ _ List.prefix_rfl hlog).outcome hc hlog fun id hid => ?_
  -- at the end every confirmation is decided
  obtain ⟨t, x, hstart, hends, hx, hfault⟩ := hdone id hid
  have hfin := hrun.finished hc.consistent rfl hx hends
  have hreq : x.req = .transition .confirm id :=
    hrun.start_unique (hrun.started hx) ((hstart t).mpr rfl)
  obtain ⟨r, hr, he⟩ := confirmation_logged hc hid hreq hfault hx hlinked hcontended hfin
  exact (hcontended _ _ List.prefix_rfl hlog).decided id hid r hr he

end

/-! The checks of the rows. -/

private theorem pendingOrder_quantity : (0 : Int) < 3 := by decide

private theorem contestItem_price : (0 : Int) < 350 := by decide

private theorem contestItem_stock : (0 : Int) ≤ 5 := by decide

private theorem contestItem_threshold : (0 : Int) ≤ 10 := by decide

/-- An order for three units of item 0. -/
def pendingOrder (id : Uuid) : Order where
  id := id
  itemId := 0
  quantity := 3
  status := .pending
  customerRef := none
  version := 1
  createdAt := 0
  updatedAt := 0
  ckQuantityPositive := pendingOrder_quantity

/-- Two orders for three units each of an item with five in stock. -/
def contestDb : Db := Db.empty.applyAll [
  .item {
    id := 0, name := "Tea", description := none, price := 350, stockQuantity := 5
    lowStockThreshold := 10, version := 1, createdAt := 0, updatedAt := 0
    ckStockNonNegative := contestItem_stock, ckPricePositive := contestItem_price
    ckThresholdNonNegative := contestItem_threshold },
  .order (pendingOrder 1), .order (pendingOrder 2)]

/-- Both confirmations read their orders first; the second has to wait for the item. -/
def contestRace : List (system ⟨.http, ⟨false⟩⟩).Label :=
  [.start 1 (.transition .confirm 1), .start 2 (.transition .confirm 2)] ++
  turns 1 [0] ++ turns 2 [0] ++ turns 1 [0, 0, 10, 0, 0, 0, 0, 0] ++ turns 2 [0, 0, 0, 0]

/-- Two confirmations of 3 units each compete for 5. -/
theorem competing_confirms_two : ∃ c, contestRuns ⟨false⟩ contestDb 0 {1, 2} contestRace c ∧
    c.st.db.orders.rows.map (·.status) = [.confirmed, .rejected] ∧
    Outcome contestDb c.st.db 0 {1, 2} := by
  -- the contest: two pending orders on one item
  have hc : Contest contestDb 0 {1, 2} := by
    refine ⟨?_, rfl, fun id hid => ?_⟩
    · show ∀ o ∈ [pendingOrder 1, pendingOrder 2], (contestDb.items.find? o.itemId).isSome
      decide
    · rcases Finset.mem_insert.mp hid with rfl | hid
      · exact ⟨pendingOrder 1, rfl, rfl, rfl⟩
      · obtain rfl := Finset.mem_singleton.mp hid
        exact ⟨pendingOrder 2, rfl, rfl, rfl⟩
  -- the race, evaluated
  obtain ⟨c, hrun, hval⟩ : ∃ c, SysRun ⟨.http, ⟨false⟩⟩ (fun _ l => Starts
      (fun req => req = .transition .confirm 1 ∨ req = .transition .confirm 2) l) contestDb
        contestRace c ∧ (c.st.db.orders.rows.map (·.status), [1, 2].map fun t =>
          (decide (Ends c t), (c.st.txs t).map (·.faulted))) =
        ([.confirmed, .rejected], [(true, some false), (true, some false)]) :=
    Run.of_eval (fun c : (system ⟨.http, ⟨false⟩⟩).Config =>
      (c.st.db.orders.rows.map (·.status), [1, 2].map fun t =>
        (decide (Ends c t), (c.st.txs t).map (·.faulted)))) (by decide +kernel) (by decide +kernel)
  have hrun' : contestRuns ⟨false⟩ contestDb 0 {1, 2} contestRace c := by
    refine hrun.mono fun _ l hl => ?_
    cases l with
    | start t req =>
      rcases hl with rfl | rfl
      · exact Or.inl ⟨1, by simp, rfl⟩
      · exact Or.inl ⟨2, by simp, rfl⟩
    | step t e => trivial
    | tick id => trivial
  simp only [List.map_cons, List.map_nil, Prod.mk.injEq, List.cons.injEq, decide_eq_true_eq,
    Option.map_eq_some_iff] at hval
  obtain ⟨hstatus, ⟨hends₁, x₁, hx₁, hfault₁⟩, ⟨hends₂, x₂, hx₂, hfault₂⟩, _⟩ := hval
  -- each confirmation has its request
  have hstarts : ∀ t id, .start t (.transition .confirm id) ∈ contestRace ↔
      (t = 1 ∧ id = 1) ∨ (t = 2 ∧ id = 2) := by
    intro t id
    simp only [contestRace, turns, List.map_cons, List.map_nil, List.cons_append, List.nil_append,
      List.mem_cons, List.not_mem_nil, reduceCtorEq, or_false]
    constructor
    · rintro (h | h) <;> cases h <;> simp
    · rintro (⟨rfl, rfl⟩ | ⟨rfl, rfl⟩) <;> simp
  refine ⟨c, hrun', hstatus, competing_confirms hc hrun' fun id hid => ?_⟩
  rcases Finset.mem_insert.mp hid with rfl | hid
  · exact ⟨1, x₁, fun t => by simp [hstarts], hends₁, hx₁, hfault₁⟩
  · obtain rfl := Finset.mem_singleton.mp hid
    exact ⟨2, x₂, fun t => by simp [hstarts], hends₂, hx₂, hfault₂⟩

end Nova
