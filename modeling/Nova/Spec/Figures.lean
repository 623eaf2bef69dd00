import Nova.App.Reports
import Nova.Spec.Ledger

/-!
# The figures of the reports

What each report returns, as sums over the tables (`getStockAnalytics_on`,
`getOrderAnalytics_on`, `getMovementAnalytics_on`), and that the reports agree with the
list and detail endpoints (`figures_agree`): SQL counts with the rows of the lists, the
rounded sum with the sum of the rounded values.
-/

namespace Nova

open Reports

/-! ## Values -/

/-- What an order is worth at the price of its item, in hundredths. -/
def Db.worth (d : Db) (o : Order) : Int :=
  ((d.items.find? o.itemId).map (·.price)).getD 0 * o.quantity

/-- What the orders of a status since `since` are worth. -/
def Db.worthOf (d : Db) (status : OrderStatus) (since : Timestamp) : Int :=
  ((d.orders.rows.filter fun o =>
    o.status = status && decide (since ≤ o.createdAt)).map d.worth).sum

/-- What the stock is worth. -/
def Db.stockWorth (d : Db) : Int := d.items.sumBy fun i => i.price * i.stockQuantity

/-- `n` has at most 28 digits. -/
def Fits (n : Int) : Prop := n.natAbs < 10 ^ 28

instance (n : Int) : Decidable (Fits n) := inferInstanceAs (Decidable (_ < _))

/-- A join on the primary key of the items finds at most one item for each order. -/
theorem Db.orderValues_sum (d : Db) (p : Order → Bool) :
    (d.orderValues p).sum = ((d.orders.rows.filter p).map d.worth).sum := by
  unfold Db.orderValues
  induction d.orders.rows.filter p with
  | nil => rfl
  | cons o rest ih =>
    -- the join meets each order's item once, by the primary key
    have hone : ((d.items.rows.filter (·.id = o.itemId)).map fun i => i.price * o.quantity).sum =
        d.worth o := by
      rw [Table.filter_key d.items o.itemId, Db.worth]
      cases d.items.find? o.itemId <;> simp
    simp only [List.flatMap_cons, List.sum_append, List.map_cons, List.sum_cons, hone, ih]

/-- An order is worth its quantity times the price of its item. -/
theorem Db.worth_of_find? {d : Db} {o : Order} {i : MenuItem}
    (h : d.items.find? o.itemId = some i) : d.worth o = i.price * o.quantity := by
  simp [Db.worth, h]

/-! ## What the reports return -/

/-- `quantize` of a sum of hundredths adds or drops no digits. -/
theorem quantizeCents_sumOrZero {xs : List Int} {d : Db} {b : Decimal} :
    (quantizeCents (sumOrZero xs)).on d = .ok b ↔ Fits xs.sum ∧ b = ⟨xs.sum, -2⟩ := by
  have hquantize : (sumOrZero xs).quantize 28 (-2) =
      if Fits xs.sum then .ok ⟨xs.sum, -2⟩ else .error .invalidOperation := by
    -- the sum has two decimals already, so quantizing it can only overflow
    unfold sumOrZero
    split
    · rename_i hnil
      subst hnil
      rfl
    · exact Decimal.quantize_same _ _
  unfold quantizeCents
  rw [hquantize]
  by_cases hfits : Fits xs.sum
  · simp only [hfits, ↓reduceIte, Reading.on_pure, Except.ok.injEq, true_and, eq_comm]
  · simp only [hfits, ↓reduceIte, false_and, iff_false]
    intro h
    cases h

/-- The stock report. -/
def Db.stockAnalytics (d : Db) : StockAnalytics where
  totalItems := d.stockTotals.totalItems
  totalUnits := d.stockTotals.totalUnits
  totalValue := ⟨d.stockWorth, -2⟩
  lowStockCount := d.stockTotals.lowStockCount
  outOfStockCount := d.stockTotals.outOfStockCount

/-- The stock part is computed exactly when the stock's worth fits 28 digits. -/
theorem getStockAnalytics_on {d : Db} {r : StockAnalytics} :
    AnalyticsService.getStockAnalytics.on d = .ok r ↔ Fits d.stockWorth ∧ r = d.stockAnalytics := by
  unfold AnalyticsService.getStockAnalytics
  rw [Reading.on_execute_bind .stockTotals, Reading.on_bind_eq_ok]
  simp only [Db.select, Db.stockTotals, quantizeCents_sumOrZero, Reading.on_pure,
    Except.ok.injEq, and_assoc, exists_and_left, exists_eq_left]
  exact and_congr_right fun _ => eq_comm

/-- The orders report since `since`. -/
def Db.orderAnalytics (d : Db) (since : Timestamp) : OrderAnalytics where
  totalOrders := (d.orderTotals since).total
  pending := (d.orderTotals since).pending
  confirmed := (d.orderTotals since).confirmed
  shipped := (d.orderTotals since).shipped
  delivered := (d.orderTotals since).delivered
  cancelled := (d.orderTotals since).cancelled
  rejected := (d.orderTotals since).rejected
  revenue := ⟨d.worthOf .delivered since, -2⟩
  refundValue := ⟨d.worthOf .cancelled since, -2⟩

/-- The order part is computed exactly when both sums fit 28 digits. -/
theorem getOrderAnalytics_on {d : Db} {now : Timestamp} {days : Int} {r : OrderAnalytics} :
    (AnalyticsService.getOrderAnalytics now days).on d = .ok r ↔
      Fits (d.worthOf .delivered (since now days)) ∧
      Fits (d.worthOf .cancelled (since now days)) ∧ r = d.orderAnalytics (since now days) := by
  unfold AnalyticsService.getOrderAnalytics
  rw [Reading.on_execute_bind (.orderTotals _), Reading.on_execute_bind (.orderValue _ _),
    Reading.on_bind_eq_ok]
  simp only [Reading.on_execute_bind (.orderValue _ _), Reading.on_bind_eq_ok, Db.select,
    quantizeCents_sumOrZero, Db.orderValues_sum, Reading.on_pure, Except.ok.injEq, and_assoc,
    exists_and_left, exists_eq_left]
  exact and_congr_right fun _ => and_congr_right fun _ => eq_comm

/-- The movement part is always computed. -/
theorem getMovementAnalytics_on {d : Db} {now : Timestamp} {days : Int} :
    (AnalyticsService.getMovementAnalytics now days).on d = .ok
      { totalDeductions := d.countType (since now days) .deduction
        totalRestorations := d.countType (since now days) .restoration
        totalAdjustments := d.countType (since now days) .adjustment
        netStockChange := (d.movementTotals (since now days)).netChange } := rfl

/-! ## Lists and details -/

/-- What the columns of the tables hold: prices of at most 10 digits, 32-bit quantities,
    and orders of existing items. -/
structure Db.InSchema (d : Db) : Prop where
  price : ∀ i ∈ d.items.rows, i.price < 10 ^ 10
  quantity : ∀ o ∈ d.orders.rows, o.quantity < 2 ^ 31
  item : d.Consistent

/-- The sums that the reports quantize have at most 28 digits. -/
structure Db.SumsFit (d : Db) (since : Timestamp) : Prop where
  stock : Fits d.stockWorth
  revenue : Fits (d.worthOf .delivered since)
  refund : Fits (d.worthOf .cancelled since)

/-- `list_orders(status=status, from_dt=since)` lists the orders that the filters of the
    report count. -/
theorem listOrders_perm (d : Db) (status : OrderStatus) (since : Timestamp) :
    (d.listOrders (some status) (some since) none none).Perm
      (d.orders.rows.filter fun o => o.status = status && decide (since ≤ o.createdAt)) := by
  have hsame : (fun o : Order =>
      (some status).all (o.status = ·) && (some since).all (· ≤ o.createdAt) &&
      (none : Option Timestamp).all (o.createdAt ≤ ·) &&
        (none : Option String).all (o.customerRef = some ·)) =
      fun o => o.status = status && decide (since ≤ o.createdAt) := by
    funext o
    simp
  unfold Db.listOrders orderedDesc
  rw [hsame]
  exact List.perm_insertionSort _ _

/-- The count of a status is the length of its listing. -/
theorem countStatus_eq (d : Db) (status : OrderStatus) (since : Timestamp) :
    d.countStatus since status = (d.listOrders (some status) (some since) none none).length := by
  rw [(listOrders_perm d status since).length_eq, Db.countStatus, Db.ordersSince,
    List.countP_filter, List.countP_eq_length_filter]

/-- Every order has one of the six statuses. -/
theorem total_eq_counts (os : List Order) : os.length =
    os.countP (·.status = .pending) + os.countP (·.status = .confirmed) +
    os.countP (·.status = .shipped) + os.countP (·.status = .delivered) +
    os.countP (·.status = .cancelled) + os.countP (·.status = .rejected) := by
  induction os with
  | nil => rfl
  | cons o os ih =>
    simp only [List.length_cons, List.countP_cons, ih]
    cases o.status <;> simp <;> omega

/-- Low stock is a positive quantity up to the threshold, or none at all. -/
theorem listLowStock_length (d : Db) :
    d.listLowStock.length = d.stockTotals.lowStockCount + d.stockTotals.outOfStockCount := by
  have hcount : ∀ is : List MenuItem,
      is.countP (fun i => i.stockQuantity ≤ i.lowStockThreshold) =
        is.countP (fun i => i.stockQuantity ≤ i.lowStockThreshold && 0 < i.stockQuantity) +
          is.countP (fun i => i.stockQuantity = 0) := by
    intro is
    induction is with
    | nil => rfl
    | cons i is ih =>
      have hstock := i.ckStockNonNegative
      have hthreshold := i.ckThresholdNonNegative
      simp only [List.countP_cons, ih, Bool.and_eq_true, decide_eq_true_eq]
      split <;> split <;> split <;> omega
  rw [Db.listLowStock, ordered, List.length_insertionSort, ← List.countP_eq_length_filter]
  exact hcount d.items.rows

/-- An item is listed as low exactly when it is low on stock. -/
theorem mem_listLowStock {d : Db} {i : MenuItem} :
    i ∈ d.listLowStock ↔ i ∈ d.items.rows ∧ (ItemObj.ofRow i).isLowStock = true := by
  rw [Db.listLowStock, ordered, List.mem_insertionSort, List.mem_filter]
  rfl

/-- The detail view of an order. -/
def Db.detail (d : Db) (o : Order) : OrderDetailResponse where
  id := o.id
  itemId := o.itemId
  itemName := ((d.items.find? o.itemId).map (·.name)).getD "Unknown"
  itemPrice := ((d.items.find? o.itemId).map OrderService.price).getD (.ofInt 0)
  quantity := o.quantity
  totalValue := ⟨d.worth o, -2⟩
  status := o.status
  customerRef := o.customerRef
  version := o.version
  createdAt := o.createdAt
  updatedAt := o.updatedAt
  movements := ordered (·.createdAt) (d.movementsOf o.id)

/-- Price times quantity fits the precision, so `total_value` is not rounded. -/
theorem getOrderDetail_on {d : Db} (hd : d.InSchema) {o : Order} (ho : o ∈ d.orders.rows) :
    (OrderService.getOrderDetail o.id).on d = .ok (d.detail o) := by
  obtain ⟨i, hi⟩ := Option.isSome_iff_exists.mp (hd.item o ho)
  have hprice := hd.price i (Table.mem_of_find? hi)
  have hquantity := hd.quantity o ho
  have hpos := i.ckPricePositive
  have hpos' := o.ckQuantityPositive
  -- a price of 10 digits times a quantity of 32 bits has at most 20 digits
  have hfits : (i.price * o.quantity).natAbs < 10 ^ 28 := by
    have hbound : i.price * o.quantity ≤ 10 ^ 10 * 2 ^ 31 :=
      mul_le_mul hprice.le hquantity.le hpos'.le (by norm_num)
    have hnonneg : 0 ≤ i.price * o.quantity := mul_nonneg hpos.le hpos'.le
    omega
  -- so that neither the product nor its quantization is rounded
  have hmul : (OrderService.price i).mul 28 (.ofInt o.quantity) = ⟨i.price * o.quantity, -2⟩ :=
    Decimal.mul_eq_of_lt hfits
  have hquantize : (quantizeCents ⟨i.price * o.quantity, -2⟩).on d =
      .ok ⟨i.price * o.quantity, -2⟩ := by
    unfold quantizeCents
    rw [Decimal.quantize_same, if_pos hfits]
    rfl
  -- the three rows that the statements find
  have hrow : d.select (.order o.id) = some o := Table.find?_of_mem ho
  have hitem : d.select (.item o.itemId) = some i := hi
  unfold OrderService.getOrderDetail Reports.OrderRepository.getById
    Reports.ItemRepository.getById StockRepository.listMovementsForOrder
  rw [Reading.on_execute_bind (.order _), hrow]
  simp only
  rw [Reading.on_execute_bind (.item _), hitem, Reading.on_execute_bind (.movementsForOrder _),
    Option.map_some, Option.getD_some, hmul, Reading.on_bind_eq_ok]
  refine ⟨_, hquantize, ?_⟩
  rw [Reading.on_pure, Db.detail, hi, Db.worth_of_find? hi]
  rfl

/-! ## Agreement -/

/-- The count that the orders report gives for a status. -/
def Reports.OrderAnalytics.count (r : OrderAnalytics) : OrderStatus → Nat
  | .pending => r.pending
  | .confirmed => r.confirmed
  | .shipped => r.shipped
  | .delivered => r.delivered
  | .cancelled => r.cancelled
  | .rejected => r.rejected

/-- The stock report and the orders report since `since` agree with the lists and
    details of the tables `d`. -/
structure Agrees (d : Db) (since : Timestamp) (stock : StockAnalytics) (orders : OrderAnalytics) :
    Prop where
  counts : ∀ status, ∃ os, (OrderService.listOrders (some status) (some since)).on d = .ok os ∧
    orders.count status = os.length
  total : orders.totalOrders = orders.pending + orders.confirmed + orders.shipped +
    orders.delivered + orders.cancelled + orders.rejected
  revenue : ∃ os details, (OrderService.listOrders (some .delivered) (some since)).on d = .ok os ∧
    (os.mapM fun o => (OrderService.getOrderDetail o.id).on d) = .ok details ∧
    orders.revenue.value = (details.map (·.totalValue.value)).sum ∧
    ∀ r ∈ details, r.totalValue.value = r.itemPrice.value * r.quantity
  lowStock : ∃ is, Reports.StockService.getLowStockItems.on d = .ok is ∧
    stock.lowStockCount + stock.outOfStockCount = is.length ∧
    ∀ i, i ∈ is ↔ i ∈ d.items.rows ∧ (ItemObj.ofRow i).isLowStock = true

/-- A `mapM` whose calls all succeed returns their results. -/
private theorem mapM_eq_ok {α β ε : Type} {f : α → Except ε β} {g : α → β} {as : List α}
    (h : ∀ a ∈ as, f a = .ok (g a)) : as.mapM f = .ok (as.map g) := by
  induction as with
  | nil => rfl
  | cons a as ih =>
    rw [List.mapM_cons, h a List.mem_cons_self, ih fun b hb => h b (List.mem_cons_of_mem _ hb)]
    rfl

/-- The value of a sum of hundredths is the sum of their values. -/
private theorem value_sum (xs : List Int) :
    (⟨xs.sum, -2⟩ : Decimal).value = (xs.map fun x => (⟨x, -2⟩ : Decimal).value).sum := by
  induction xs with
  | nil => simp [Decimal.value]
  | cons x xs ih =>
    rw [List.map_cons, List.sum_cons, List.sum_cons, ← ih]
    simp only [Decimal.value]
    push_cast
    ring

/-- The revenue is the sum of the `total_value` of the delivered orders. -/
private theorem revenue_eq {d : Db} (hd : d.InSchema) (since : Timestamp) {os : List Order}
    (hos : os = d.listOrders (some .delivered) (some since) none none) :
    (os.mapM fun o => (OrderService.getOrderDetail o.id).on d) = .ok (os.map d.detail) ∧
    (d.orderAnalytics since).revenue.value = ((os.map d.detail).map (·.totalValue.value)).sum ∧
    ∀ r ∈ os.map d.detail, r.totalValue.value = r.itemPrice.value * r.quantity := by
  have hperm := listOrders_perm d .delivered since
  rw [← hos] at hperm
  have hmem : ∀ o ∈ os, o ∈ d.orders.rows := fun o ho =>
    (List.mem_filter.mp (hperm.mem_iff.mp ho)).1
  refine ⟨mapM_eq_ok fun o ho => getOrderDetail_on hd (hmem o ho), ?_, ?_⟩
  · have hsum : d.worthOf .delivered since = (os.map d.worth).sum :=
      ((hperm.map d.worth).sum_eq).symm
    show (⟨d.worthOf .delivered since, -2⟩ : Decimal).value = _
    rw [hsum, value_sum, List.map_map, List.map_map]
    rfl
  · intro r hr
    obtain ⟨o, ho, rfl⟩ := List.mem_map.mp hr
    obtain ⟨i, hi⟩ := Option.isSome_iff_exists.mp (hd.item o (hmem o ho))
    simp only [Db.detail, hi, Db.worth_of_find? hi, OrderService.price, Option.map_some,
      Option.getD_some, Decimal.value]
    push_cast
    ring

/-- On all tables that the schema admits, the reports agree with the lists and details. -/
theorem figures_agree {d : Db} {now : Timestamp} {days : Int} (hd : d.InSchema)
    (hsums : d.SumsFit (since now days)) :
    ∃ stock orders, AnalyticsService.getStockAnalytics.on d = .ok stock ∧
      (AnalyticsService.getOrderAnalytics now days).on d = .ok orders ∧
      Agrees d (since now days) stock orders := by
  refine ⟨d.stockAnalytics, d.orderAnalytics (since now days),
    getStockAnalytics_on.mpr ⟨hsums.stock, rfl⟩,
    getOrderAnalytics_on.mpr ⟨hsums.revenue, hsums.refund, rfl⟩, ?_⟩
  constructor
  · intro status
    refine ⟨_, rfl, ?_⟩
    have hcount := countStatus_eq d status (since now days)
    cases status <;> exact hcount
  · exact total_eq_counts (d.ordersSince (since now days))
  · exact ⟨_, _, rfl, revenue_eq hd _ rfl⟩
  · exact ⟨_, rfl, (listLowStock_length d).symm, fun i => mem_listLowStock⟩

/-- Two items, one sold out and one at its threshold, with three orders: two DELIVERED, of
    which the second is placed exactly 30 days before `0`, and one CANCELLED. -/
def shop : Db where
  items := ((Table.empty : Table MenuItem.id).upsert {
    id := 0, name := "Tea", description := none, price := 350, stockQuantity := 0
    lowStockThreshold := 0, version := 4, createdAt := since 0 40, updatedAt := since 0 30
    ckStockNonNegative := by decide, ckPricePositive := by decide
    ckThresholdNonNegative := by decide }).upsert {
    id := 1, name := "Cake", description := none, price := 1299, stockQuantity := 10
    lowStockThreshold := 10, version := 1, createdAt := since 0 40, updatedAt := since 0 40
    ckStockNonNegative := by decide, ckPricePositive := by decide
    ckThresholdNonNegative := by decide }
  orders := ((Table.empty.upsert (order 2 .delivered (since 0 31))).upsert
    (order 3 .delivered (since 0 30))).upsert (order 4 .cancelled (since 0 1))
  movements := .empty
where
  order (id : Uuid) (status : OrderStatus) (createdAt : Timestamp) : Order :=
    { id, itemId := 0, quantity := 3, status, customerRef := none, version := 4, createdAt
      updatedAt := createdAt, ckQuantityPositive := by decide }

/-- The figures of a shop with two items. -/
theorem figures_agree_shop :
    AnalyticsService.getStockAnalytics.on shop =
      .ok { totalItems := 2, totalUnits := 10, totalValue := ⟨12990, -2⟩, lowStockCount := 1
            outOfStockCount := 1 } ∧
    (AnalyticsService.getOrderAnalytics 0).on shop =
      .ok { totalOrders := 2, pending := 0, confirmed := 0, shipped := 0, delivered := 1
            cancelled := 1, rejected := 0, revenue := ⟨1050, -2⟩, refundValue := ⟨1050, -2⟩ } ∧
    ∃ stock orders, AnalyticsService.getStockAnalytics.on shop = .ok stock ∧
      (AnalyticsService.getOrderAnalytics 0).on shop = .ok orders ∧
      Agrees shop (since 0 30) stock orders := by
  refine ⟨by decide, by decide, figures_agree ⟨?_, ?_, ?_⟩ ⟨?_, ?_, ?_⟩⟩
  · decide
  · decide
  · unfold Db.Consistent
    decide
  · decide
  · decide
  · decide

end Nova
