import Nova.ForStd.Replay
import Nova.Spec.Log

/-!
# The inventory that the requests implement

`Inventory.serve` is what the program is for: one request at a time, on cards of items,
orders and movements that leave out texts and times, with the answer that the client is
owed. It knows nothing of statements, locks or transactions. `Effect.serves` connects it
to the code: what a request commits, and what it then answers, is what `serve` does with
it on the tables of that moment; so the log of a run, replayed with `serve`, gives the
tables of the run (`Log.replay_serve`).
-/

namespace Nova

/-! ## Cards -/

/-- An item, whose stock cannot be oversold. -/
structure ItemCard where
  id : Uuid
  name : String
  price : Int
  stock : Int
  threshold : Int
  version : Int
  stock_nonneg : 0 ≤ stock

/-- What a client knows of an order. -/
structure OrderCard where
  id : Uuid
  itemId : Uuid
  quantity : Int
  status : OrderStatus
  customerRef : Option String
  version : Int
  quantity_pos : 0 < quantity

/-- A line of the audit trail. -/
structure Entry where
  id : Uuid
  itemId : Uuid
  orderId : Option Uuid
  type : MovementType
  delta : Int
  before : Int
  after : Int

/-- The shop as its clients see it: no locks, no transactions, no cache. -/
structure Inventory where
  items : Table ItemCard.id
  orders : Table OrderCard.id
  trail : Table Entry.id

/-- What a client is owed. -/
inductive Answer where
  | item (card : ItemCard)
  | order (card : OrderCard)
  | stock (stock : StockResponse)
  | refused (reason : Exc)

/-! ## Serving a request -/

/-- The action takes the order's quantity out of stock, or puts it back. -/
def Action.moves (a : Action) (status : OrderStatus) : Bool :=
  a = .confirm || (a = .cancel && status ∈ OrderStatus.stockHoldingStates)

/-- By how much an action on a quantity changes the stock. -/
def Action.delta (a : Action) (quantity : Int) : Int :=
  match a with
  | .confirm => -quantity
  | .cancel => quantity
  | .ship | .deliver => 0

/-- The order in its next status. -/
def OrderCard.moved (o : OrderCard) (status : OrderStatus) : OrderCard :=
  { o with status, version := o.version + 1 }

/-- The item after its stock has changed by `delta`. -/
def ItemCard.changed (i : ItemCard) (delta : Int) (h : 0 ≤ i.stock + delta) : ItemCard :=
  { i with stock := i.stock + delta, version := i.version + 1, stock_nonneg := h }

namespace Inventory

/-- The shop with the order `o` in it. -/
def putOrder (s : Inventory) (o : OrderCard) : Inventory := { s with orders := s.orders.upsert o }

/-- Change the stock of an item and record it under `entryId`. -/
def record (s : Inventory) (i : ItemCard) (entryId : Uuid) (orderId : Option Uuid)
    (type : MovementType) (delta before : Int) : Inventory :=
  { s with
    items := s.items.upsert i
    trail := s.trail.upsert {
      id := entryId, itemId := i.id, orderId, type, delta, before, after := before + delta } }

/-- The transition `a` of order `o`. -/
def transition (s : Inventory) (entryId : Uuid) (a : Action) (o : OrderCard) : Inventory × Answer :=
  if o.status.canTransitionTo a.target then
    if a.moves o.status then
      match s.items.find? o.itemId with
      | none => (s, .refused (.notFound "MenuItem" o.itemId))
      | some i =>
        if h : 0 ≤ i.stock + a.delta o.quantity then
          ((s.record (i.changed _ h) entryId (some o.id) a.movementType (a.delta o.quantity)
            i.stock).putOrder (o.moved a.target), .order (o.moved a.target))
        else
          -- only a confirmation can find too little stock
          (s.putOrder (o.moved .rejected), .refused (.insufficientStock i.id o.quantity i.stock))
    else (s.putOrder (o.moved a.target), .order (o.moved a.target))
  else (s, .refused (.invalidTransition o.status a.target))

/-- Serve one request, with `rowId` for a new item or order and `entryId` for a new
    entry. -/
def serve (rowId entryId : Uuid) (s : Inventory) : Request → Inventory × Answer
  | .createItem b =>
    if s.items.rows.any fun i => i.name = b.name then
      (s, .refused (.http 409 s!"An item with the name '{b.name}' already exists."))
    else if h : 0 ≤ b.stockQuantity then
      let i : ItemCard := {
        id := rowId, name := b.name, price := b.price, stock := b.stockQuantity
        threshold := b.lowStockThreshold, version := 1, stock_nonneg := h }
      (s.record i entryId none .adjustment b.stockQuantity 0, .item i)
    else (s, .refused .requestValidation)
  | .adjustStock id b =>
    match s.items.find? id with
    | none => (s, .refused (.notFound "MenuItem" id))
    | some i =>
      if h : 0 ≤ i.stock + b.delta then
        (s.record (i.changed _ h) entryId none .adjustment b.delta i.stock, .item (i.changed _ h))
      else (s, .refused (.insufficientStock id b.delta.natAbs i.stock))
  | .placeOrder b =>
    match s.items.find? b.itemId with
    | none => (s, .refused (.notFound "MenuItem" b.itemId))
    | some _ =>
      if h : 0 < b.quantity then
        let o : OrderCard := {
          id := rowId, itemId := b.itemId, quantity := b.quantity, status := .pending
          customerRef := b.customerRef, version := 1, quantity_pos := h }
        (s.putOrder o, .order o)
      else (s, .refused .requestValidation)
  | .transition a id =>
    match s.orders.find? id with
    | none => (s, .refused (.notFound "Order" id))
    | some o => s.transition entryId a o
  | .getStock id =>
    match s.items.find? id with
    | none => (s, .refused (.notFound "MenuItem" id))
    | some i => (s, .stock {
        itemId := i.id, stockQuantity := i.stock, lowStockThreshold := i.threshold
        isLowStock := i.stock ≤ i.threshold })

end Inventory

/-! ## The inventory of the tables -/

/-- What a client knows of an item's row. -/
def MenuItem.card (i : MenuItem) : ItemCard where
  id := i.id
  name := i.name
  price := i.price
  stock := i.stockQuantity
  threshold := i.lowStockThreshold
  version := i.version
  stock_nonneg := i.ckStockNonNegative

/-- What a client knows of an order's row. -/
def Order.card (o : Order) : OrderCard where
  id := o.id
  itemId := o.itemId
  quantity := o.quantity
  status := o.status
  customerRef := o.customerRef
  version := o.version
  quantity_pos := o.ckQuantityPositive

/-- What a client knows of a movement's row. -/
def StockMovement.entry (m : StockMovement) : Entry where
  id := m.id
  itemId := m.itemId
  orderId := m.orderId
  type := m.movementType
  delta := m.quantityDelta
  before := m.stockBefore
  after := m.stockAfter

/-- A card has the key of its row. -/
theorem MenuItem.card_id (i : MenuItem) : i.card.id = i.id := rfl

/-- A card has the key of its row. -/
theorem Order.card_id (o : Order) : o.card.id = o.id := rfl

/-- A line of the trail has the key of its row. -/
theorem StockMovement.entry_id (m : StockMovement) : m.entry.id = m.id := rfl

/-- What the tables say to `serve`. -/
def Db.inventory (d : Db) : Inventory where
  items := d.items.map MenuItem.card MenuItem.card_id
  orders := d.orders.map Order.card Order.card_id
  trail := d.movements.map StockMovement.entry StockMovement.entry_id

/-- The inventory finds the card of the row that the item table finds. -/
theorem Db.inventory_item (d : Db) (id : Uuid) :
    d.inventory.items.find? id = (d.items.find? id).map MenuItem.card :=
  Table.find?_map MenuItem.card_id d.items id

/-- The inventory finds the card of the row that the order table finds. -/
theorem Db.inventory_order (d : Db) (id : Uuid) :
    d.inventory.orders.find? id = (d.orders.find? id).map Order.card :=
  Table.find?_map Order.card_id d.orders id

/-- An item's row is a card in the inventory. -/
theorem Db.inventory_apply_item (d : Db) (i : MenuItem) : (d.apply (.item i)).inventory =
    { d.inventory with items := d.inventory.items.upsert i.card } :=
  congrArg (fun t => { d.inventory with items := t }) (Table.map_upsert MenuItem.card_id d.items i)

/-- An order's row is a card in the inventory. -/
theorem Db.inventory_apply_order (d : Db) (o : Order) :
    (d.apply (.order o)).inventory = d.inventory.putOrder o.card :=
  congrArg (fun t => { d.inventory with orders := t }) (Table.map_upsert Order.card_id d.orders o)

/-- A movement's row is a line of the trail. -/
theorem Db.inventory_apply_movement (d : Db) (m : StockMovement) :
    (d.apply (.movement m)).inventory =
      { d.inventory with trail := d.inventory.trail.upsert m.entry } :=
  congrArg (fun t => { d.inventory with trail := t })
    (Table.map_upsert StockMovement.entry_id d.movements m)

/-! ## What a commit does is what `serve` does -/

/-- The id of the item or order that the writes begin with. -/
def rowId : List Write → Uuid
  | .item i :: _ => i.id
  | .order o :: _ => o.id
  | _ => 0

/-- The id of the movement among the writes. -/
def entryId : List Write → Uuid
  | .item _ :: .movement m :: _ => m.id
  | _ => 0

/-- The answer to a request that has written `ws` and ended with `e`: the reason of a
    refusal, or the order or the item that it has written. -/
def answerOf (ws : List Write) : Option Exc → Answer
  | some e => .refused e
  | none =>
    match orderRows ws, ws with
    | o :: _, _ => .order o.card
    | [], .item i :: _ => .item i.card
    | [], _ => .refused .responseValidation

section

variable {A : Allow} {d₀ d : Db} {wal : List Commit} {i i' : MenuItem} {m : StockMovement}
  {delta : Int} {type : MovementType} {orderId : Option Uuid}

/-- A change of stock on the cards. -/
theorem StockChange.card (h : StockChange d i i' m delta type orderId)
    (hstock : 0 ≤ i.card.stock + delta) : i'.card = i.card.changed delta hstock := by
  have hid : i'.id = i.id := by rw [h.next]
  have hname : i'.name = i.name := by rw [h.next]
  have hprice : i'.price = i.price := by rw [h.next]
  have hthreshold : i'.lowStockThreshold = i.lowStockThreshold := by rw [h.next]
  simp [MenuItem.card, ItemCard.changed, hid, hname, hprice, hthreshold, h.stock, h.version]

/-- A change of stock leaves no negative stock. -/
theorem StockChange.stock_nonneg (h : StockChange d i i' m delta type orderId) :
    0 ≤ i.card.stock + delta := by
  have hck := i'.ckStockNonNegative
  rw [h.stock] at hck
  exact hck

/-- The two rows of a change of stock are one record of the inventory. -/
theorem StockChange.record (h : StockChange d i i' m delta type orderId) :
    ((d.apply (.item i')).apply (.movement m)).inventory =
      d.inventory.record i'.card m.id orderId type delta i.stockQuantity := by
  have hid : i'.id = i.id := by rw [h.next]
  have hentry : m.entry = {
      id := m.id, itemId := i'.card.id, orderId, type, delta, before := i.stockQuantity
      after := i.stockQuantity + delta } := by
    simp [StockMovement.entry, MenuItem.card, hid, h.itemId, h.orderId, h.movementType,
      h.quantityDelta, h.stockBefore, h.stockAfter]
  rw [Db.inventory_apply_movement, Db.inventory_apply_item, hentry]
  rfl

/-- A step of an order's row is a step of its card. -/
theorem OrderStep.card {known : Order → Prop} {o cur o' : Order} {status : OrderStatus}
    (h : OrderStep known d o cur o' status) : o'.card = cur.card.moved status := by
  rw [h.next]
  rfl

/-- An action moves stock in the inventory where it does in the tables. -/
theorem Action.moves_iff (a : Action) (o : Order) : a.moves o.status = true ↔ a.movesStock o := by
  simp [Action.moves, Action.movesStock]

/-- An action moves as many units in the inventory as in the tables. -/
theorem Action.delta_eq (a : Action) (o : Order) : a.delta o.quantity = a.stockDelta o := by
  cases a <;> rfl

/-- A name that no row has is on no card. -/
theorem Db.inventory_name_free {name : String} (h : ∀ j ∈ d.items.rows, j.name ≠ name) :
    (d.inventory.items.rows.any fun c => c.name = name) = false := by
  have hrows : d.inventory.items.rows = d.items.rows.map MenuItem.card := rfl
  rw [hrows, List.any_map, List.any_eq_false]
  exact fun j hj hname => h j hj (of_decide_eq_true hname)

/-- A transition that leaves the stock alone. -/
theorem transition_moved {known : Order → Prop} {o cur o' : Order} {a : Action} {eid : Uuid}
    (hcur : cur = o) (hallowed : o.status.canTransitionTo a.target = true)
    (hmoves : a.moves o.status = false) (hstep : OrderStep known d o cur o' a.target) :
    d.inventory.transition eid a o.card =
      (d.inventory.putOrder o'.card, .order o'.card) := by
  subst hcur
  rw [hstep.card]
  simp only [Inventory.transition, show cur.card.status = cur.status from rfl, hallowed, hmoves,
    if_true, Bool.false_eq_true, if_false]

/-- What a request commits and answers is what `serve` does with it on the committed
    tables, unless it is stale or overwrites a row. -/
theorem Effect.serves {req : Request} {read : Option Order} {e : Option Exc} {ws : List Write}
    (h : Effect A d₀ wal d req read e ws) (hstale : ¬A.stale) (hover : ¬A.overwrite)
    (hknown : ∀ o, knownIn d₀ wal o → ∃ cur, KnownOrder d o cur)
    (hnames : ∀ b, req = .createItem b → ∀ j ∈ d.items.rows, j.name ≠ b.name) (hws : ws ≠ []) :
    d.inventory.serve (rowId ws) (entryId ws) req = ((d.applyAll ws).inventory, answerOf ws e) := by
  -- a transition acts on the current version of its order
  have hcurrent : ∀ {o cur o' : Order} {status : OrderStatus} {id : Uuid},
      OrderStep (knownIn d₀ wal) d o cur o' status → o.id = id →
      cur = o ∧ d.inventory.orders.find? id = some o.card := by
    intro o cur o' status id hstep hid
    obtain ⟨rfl, hrow⟩ := hstep.current hknown
    refine ⟨rfl, ?_⟩
    rw [Db.inventory_order, ← hid, ← hstep.id_eq, hrow]
    rfl
  have hfind : ∀ {i : MenuItem} {id : Uuid}, d.items.find? id = some i →
      d.inventory.items.find? id = some i.card := by
    intro i id hrow
    rw [Db.inventory_item, hrow]
    rfl
  cases h with
  | refused | read => exact absurd rfl hws
  | stale _ hs => exact absurd hs hstale
  | overwritten ho => exact absurd ho hover
  | @created b _ i m _ hname _ hprice hstock hthreshold hversion _ hitemId hdelta hbefore
      hafter htype horder =>
    have hnonneg : 0 ≤ b.stockQuantity := hstock ▸ i.ckStockNonNegative
    have hcard : i.card = {
        id := i.id, name := b.name, price := b.price, stock := b.stockQuantity
        threshold := b.lowStockThreshold, version := 1, stock_nonneg := hnonneg } := by
      simp [MenuItem.card, hname, hprice, hstock, hthreshold, hversion]
    have hentry : m.entry = {
        id := m.id, itemId := i.card.id, orderId := none, type := .adjustment
        delta := b.stockQuantity, before := 0, after := 0 + b.stockQuantity } := by
      simp [StockMovement.entry, MenuItem.card, hitemId, hdelta, hbefore, hafter, htype, horder]
    have htables : (d.applyAll [.item i, .movement m]).inventory =
        d.inventory.record i.card m.id none .adjustment b.stockQuantity 0 := by
      show ((d.apply (.item i)).apply (.movement m)).inventory = _
      rw [Db.inventory_apply_movement, Db.inventory_apply_item, hentry]
      rfl
    rw [htables, show answerOf [.item i, .movement m] none = .item i.card from rfl, hcard]
    simp only [Inventory.serve, Db.inventory_name_free (hnames b rfl), Bool.false_eq_true, if_false,
      hnonneg, dif_pos]
    rfl
  | @adjusted id b _ i i' m hid hch =>
    have hrow : d.inventory.items.find? id = some i.card := hfind (hid ▸ hch.row)
    have hstock := hch.stock_nonneg
    have htables : (d.applyAll [.item i', .movement m]).inventory = _ := hch.record
    rw [htables, show answerOf [.item i', .movement m] none = .item i'.card from rfl,
      hch.card hstock]
    simp only [Inventory.serve, hrow, hstock, dif_pos]
    rfl
  | @placed b _ o hitem _ hitemId hquantity href hstatus hversion =>
    obtain ⟨i, hi⟩ := Option.isSome_iff_exists.mp hitem
    have hpos : 0 < b.quantity := hquantity ▸ o.ckQuantityPositive
    have hcard : o.card = {
        id := o.id, itemId := b.itemId, quantity := b.quantity, status := .pending
        customerRef := b.customerRef, version := 1, quantity_pos := hpos } := by
      simp [Order.card, hitemId, hquantity, href, hstatus, hversion]
    rw [show (d.applyAll [.order o]).inventory = _ from Db.inventory_apply_order d o,
      show answerOf [.order o] none = .order o.card from rfl, hcard]
    simp only [Inventory.serve, hfind hi, hpos, dif_pos]
    rfl
  | @rejected id o cur o' i e _ hid hallowed hi hshort he hstep =>
    obtain ⟨hcur, hrow⟩ := hcurrent hstep hid
    have htables : (d.applyAll [.order o']).inventory = _ := Db.inventory_apply_order d o'
    have hnot : ¬0 ≤ i.card.stock + Action.confirm.delta o.card.quantity := by
      simp only [MenuItem.card, Order.card, Action.delta]
      omega
    rw [htables, hstep.card, hcur, he]
    have hi' : d.inventory.items.find? o.card.itemId = some i.card := hfind hi
    have hok : o.card.status.canTransitionTo Action.confirm.target = true := hallowed
    simp only [Inventory.serve, hrow, Inventory.transition, hok, if_true, Action.moves, hi', hnot,
      dif_neg, not_false_eq_true, decide_true, Bool.true_or]
    rfl
  | @stocked a id o cur o' i i' m hmoves hid hallowed hiid hch hstep =>
    obtain ⟨hcur, hrow⟩ := hcurrent hstep hid
    rw [← Action.delta_eq] at hch
    have hrow' : d.items.find? o.itemId = some i := hiid ▸ hch.row
    have hi : d.inventory.items.find? o.card.itemId = some i.card := hfind hrow'
    have hok : o.card.status.canTransitionTo a.target = true := hallowed
    have hmv : a.moves o.card.status = true := (a.moves_iff o).mpr hmoves
    have hstock : 0 ≤ i.card.stock + a.delta o.card.quantity := hch.stock_nonneg
    have htables : (d.applyAll [.item i', .movement m, .order o']).inventory =
        (d.inventory.record i'.card m.id (some id) a.movementType (a.delta o.quantity)
          i.stockQuantity).putOrder o'.card := by
      rw [← hch.record]
      exact Db.inventory_apply_order _ o'
    rw [htables, show answerOf [.item i', .movement m, .order o'] none = .order o'.card from rfl,
      hch.card hstock, hstep.card, hcur, ← hid]
    rw [← hid] at hrow
    simp only [Inventory.serve, hrow, Inventory.transition, hok, hmv, if_true, hi, hstock, dif_pos]
    rfl
  | @moved a id o cur o' hmoves hid hallowed hstep =>
    obtain ⟨hcur, hrow⟩ := hcurrent hstep hid
    have hmv : a.moves o.status = false := by
      rw [Bool.eq_false_iff]
      exact fun h => hmoves ((a.moves_iff o).mp h)
    have htables : (d.applyAll [.order o']).inventory = _ := Db.inventory_apply_order d o'
    rw [htables]
    simp only [Inventory.serve, hrow]
    exact transition_moved hcur hallowed hmv hstep

end

end Nova
