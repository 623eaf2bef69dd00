import Nova.Spec.Figures
import Nova.Spec.Serial

/-!
# The three reports

The stock report sums `menu_items`, the movement report `stock_movements` and the order
report `orders`. `Tally` says what the three have in common: the movements add up to the
stock, and the deductions that were not restored are as many as the orders that hold
stock. `tally_step` follows the sums through every kind of commit, and `reports_tally`
is the consequence for the reports of a serial run.
-/

namespace Nova

open Machine Reports

/-! ## Sums -/

/-- What a movement adds to the number of deductions that were not restored. -/
def StockMovement.deducted (m : StockMovement) : Int :=
  match m.movementType with
  | .deduction => 1
  | .restoration => -1
  | .adjustment => 0

/-- 1 if the order holds stock. -/
def Order.holding (o : Order) : Int := if o.status ∈ OrderStatus.stockHoldingStates then 1 else 0

/-- The movements add up to the stock, and the deductions without restoration to the
    orders that hold stock. -/
structure Tally (d : Db) : Prop where
  units : d.movements.sumBy (·.quantityDelta) = d.items.sumBy (·.stockQuantity)
  holding : d.movements.sumBy (·.deducted) = d.orders.sumBy (·.holding)

/-- The empty tables add up. -/
theorem Tally.empty : Tally Db.empty := ⟨rfl, rfl⟩

/-! ## One commit -/

section

variable {d : Db}

/-- A new movement adds its own share. -/
private theorem sumBy_movement {m : StockMovement} (h : d.movements.find? m.id = none)
    (f : StockMovement → Int) : (d.movements.upsert m).sumBy f = d.movements.sumBy f + f m := by
  rw [Table.sumBy_upsert, h]
  exact sub_zero _

/-- An order that goes on holding stock, or goes on holding none, leaves the sum. -/
private theorem sumBy_order {o o' : Order} (h : d.orders.find? o'.id = some o)
    (hholding : o'.holding = o.holding) :
    (d.orders.upsert o').sumBy (·.holding) = d.orders.sumBy (·.holding) := by
  rw [Table.sumBy_upsert, h, hholding]
  exact add_sub_cancel_right _ _

/-- A change of stock changes both sums by `delta`. -/
private theorem units_change {i i' : MenuItem} {m : StockMovement} {delta : Int}
    {type : MovementType} {orderId : Option Uuid} (hch : StockChange d i i' m delta type orderId)
    (h : d.movements.sumBy (·.quantityDelta) = d.items.sumBy (·.stockQuantity)) :
    (d.movements.upsert m).sumBy (·.quantityDelta) =
      (d.items.upsert i').sumBy (·.stockQuantity) := by
  have hid : i'.id = i.id := by rw [hch.next]
  have hitems : (d.items.upsert i').sumBy (·.stockQuantity) =
      d.items.sumBy (·.stockQuantity) + i'.stockQuantity - i.stockQuantity := by
    rw [Table.sumBy_upsert, hid, hch.row]
    rfl
  rw [sumBy_movement hch.fresh, hitems, hch.stock, hch.quantityDelta, h]
  omega

end

/-- One commit keeps the tally, where nothing stale is committed and nothing is
    overwritten. -/
private theorem tally_step {A : Allow} {d₀ d : Db} {wal : List Commit} {req : Request}
    {read : Option Order} {e : Option Exc} {ws : List Write} (hstale : ¬A.stale)
    (hover : ¬A.overwrite) (hknown : ∀ o, knownIn d₀ wal o → ∃ cur, KnownOrder d o cur)
    (h : Tally d) (heff : Effect A d₀ wal d req read e ws) : Tally (d.applyAll ws) := by
  cases heff with
  | refused => exact h
  | read => exact h
  | stale _ hs => exact absurd hs hstale
  | overwritten ho => exact absurd ho hover
  | @created b read i m hnew _ _ _ hstock _ _ hfresh _ hdelta _ _ htype _ =>
    constructor
    · show (d.movements.upsert m).sumBy _ = (d.items.upsert i).sumBy _
      rw [sumBy_movement hfresh, Table.sumBy_upsert, hnew, h.units, hdelta, hstock]
      exact (sub_zero _).symm
    · show (d.movements.upsert m).sumBy _ = d.orders.sumBy _
      rw [sumBy_movement hfresh, h.holding, StockMovement.deducted, htype]
      exact add_zero _
  | @adjusted _ b read i i' m _ hch =>
    refine ⟨units_change hch h.units, ?_⟩
    show (d.movements.upsert m).sumBy _ = d.orders.sumBy _
    rw [sumBy_movement hch.fresh, h.holding, StockMovement.deducted, hch.movementType]
    exact add_zero _
  | @placed b read o _ hnew _ _ _ hstatus _ =>
    refine ⟨h.units, ?_⟩
    have hholding : o.holding = 0 := by
      simp [Order.holding, hstatus, OrderStatus.stockHoldingStates]
    show d.movements.sumBy _ = (d.orders.upsert o).sumBy _
    rw [Table.sumBy_upsert, hnew, hholding, h.holding]
    simp
  | @rejected id o cur o' i e _ hid hallowed _ _ _ hstep =>
    obtain ⟨rfl, hrow⟩ := hstep.current hknown
    refine ⟨h.units, h.holding.trans (sumBy_order (o := cur) hrow ?_).symm⟩
    simp [Order.holding, canTransitionTo_confirmed hallowed, hstep.status_eq,
      OrderStatus.stockHoldingStates]
  | @stocked a id o cur o' i i' m hmoves hid hallowed hiid hch hstep =>
    obtain ⟨rfl, hrow⟩ := hstep.current hknown
    refine ⟨units_change hch h.units, ?_⟩
    -- a deduction makes the order hold stock, a restoration ends that
    have hboth : m.deducted = o'.holding - cur.holding := by
      rcases Action.movesStock_from hmoves hallowed with ⟨rfl, hpending⟩ | ⟨rfl, hheld⟩
      · simp [StockMovement.deducted, hch.movementType, Action.movementType, Order.holding,
          hpending, hstep.status_eq, Action.target, OrderStatus.stockHoldingStates]
      · rcases hheld with hs | hs <;>
          simp [StockMovement.deducted, hch.movementType, Action.movementType, Order.holding,
            hs, hstep.status_eq, Action.target, OrderStatus.stockHoldingStates]
    show (d.movements.upsert m).sumBy _ = (d.orders.upsert o').sumBy _
    rw [sumBy_movement hch.fresh, Table.sumBy_upsert, hrow, h.holding, hboth]
    simp only [Option.map_some, Option.getD_some]
    omega
  | @moved a id o cur o' hstays hid hallowed hstep =>
    obtain ⟨rfl, hrow⟩ := hstep.current hknown
    refine ⟨h.units, h.holding.trans (sumBy_order (o := cur) hrow ?_).symm⟩
    rcases Action.not_movesStock_from hstays hallowed with ⟨rfl, hs⟩ | ⟨rfl, hs⟩ | ⟨rfl, hs⟩ <;>
      simp [Order.holding, hs, hstep.status_eq, Action.target, OrderStatus.stockHoldingStates]

/-- In every log without the races the tables add up. -/
theorem Log.tally {A : Allow} {d₀ d : Db} {wal : List Commit} (h : Log A d₀ wal d)
    (hd₀ : d₀.Consistent) (htally : Tally d₀) (hstale : ¬A.stale) (hover : ¬A.overwrite) :
    Tally d := by
  induction h with
  | nil => exact htally
  | snoc hlog heff _ ih =>
    exact tally_step hstale hover (fun _ ho => hlog.knownOrder hd₀ ho) ih heff

/-! ## The reports -/

/-- In a window that covers all movements, the movement report sums them all. -/
theorem movements_covered {d : Db} {since : Timestamp}
    (h : ∀ m ∈ d.movements.rows, since ≤ m.createdAt) :
    (d.movementTotals since).netChange = d.movements.sumBy (·.quantityDelta) ∧
    (d.countType since .deduction : Int) - d.countType since .restoration =
      d.movements.sumBy (·.deducted) := by
  have hall : (d.movements.rows.filter fun m => since ≤ m.createdAt) = d.movements.rows :=
    List.filter_eq_self.mpr fun m hm => decide_eq_true (h m hm)
  have hcount : ∀ ms : List StockMovement,
      (ms.countP (·.movementType = .deduction) : Int) - ms.countP (·.movementType = .restoration) =
        (ms.map (·.deducted)).sum := by
    intro ms
    induction ms with
    | nil => rfl
    | cons m ms ih =>
      rw [List.map_cons, List.sum_cons, ← ih]
      simp only [List.countP_cons, StockMovement.deducted]
      cases m.movementType <;> simp <;> omega
  unfold Db.movementTotals Db.countType
  rw [hall]
  exact ⟨rfl, hcount d.movements.rows⟩

/-- In a window that covers all orders, the order report counts all that hold stock. -/
theorem orders_covered {d : Db} {since : Timestamp}
    (h : ∀ o ∈ d.orders.rows, since ≤ o.createdAt) :
    ((d.countStatus since .confirmed : Int) + d.countStatus since .shipped +
      d.countStatus since .delivered) = d.orders.sumBy (·.holding) := by
  have hall : d.ordersSince since = d.orders.rows :=
    List.filter_eq_self.mpr fun o ho => decide_eq_true (h o ho)
  have hcount : ∀ os : List Order, ((os.countP (·.status = .confirmed) : Int) +
      os.countP (·.status = .shipped) + os.countP (·.status = .delivered)) =
        (os.map (·.holding)).sum := by
    intro os
    induction os with
    | nil => rfl
    | cons o os ih =>
      rw [List.map_cons, List.sum_cons, ← ih]
      simp only [List.countP_cons, Order.holding, OrderStatus.stockHoldingStates]
      cases o.status <;> simp <;> omega
  unfold Db.countStatus
  rw [hall]
  exact hcount d.orders.rows

/-- Writers one after another, through the HTTP layer and without a cache. -/
abbrev serialWriters : List (system ⟨.http, ⟨false⟩⟩).Label →
    (system ⟨.http, ⟨false⟩⟩).Config → Prop :=
  serialRuns ⟨.http, ⟨false⟩⟩ (fun _ l => Starts (·.isRead = false) l) Db.empty

/-- After any serial run the three reports, over windows that cover the run, agree. The
    movement report always returns, the other two where their sums fit the precision. -/
theorem reports_tally {ls : List (system ⟨.http, ⟨false⟩⟩).Label}
    {c : (system ⟨.http, ⟨false⟩⟩).Config} (hrun : serialWriters ls c) {now now' : Timestamp}
    {days days' : Int} (horders : ∀ o ∈ c.st.db.orders.rows, since now days ≤ o.createdAt)
    (hmovements : ∀ m ∈ c.st.db.movements.rows, since now' days' ≤ m.createdAt) :
    ∃ movements, (AnalyticsService.getMovementAnalytics now' days').on c.st.db = .ok movements ∧
      (∀ stock, AnalyticsService.getStockAnalytics.on c.st.db = .ok stock →
        movements.netStockChange = stock.totalUnits) ∧
      (∀ orders, (AnalyticsService.getOrderAnalytics now days).on c.st.db = .ok orders →
        (movements.totalDeductions : Int) - movements.totalRestorations =
          orders.confirmed + orders.shipped + orders.delivered) ∧
      (c.st.db.SumsFit (since now days) →
        ∃ stock orders, AnalyticsService.getStockAnalytics.on c.st.db = .ok stock ∧
          (AnalyticsService.getOrderAnalytics now days).on c.st.db = .ok orders) := by
  -- alone, every check is current, so the log is one without the races
  have hcurrent := SysRun.current Db.consistent_empty (fun _ _ h => h.2) hrun
  have hlog := log_of_run (A := ⟨True, False, False⟩) Db.consistent_empty (fun _ => trivial)
    (fun c l hl => hl.2.mono fun _ _ _ _ hcheck =>
      ⟨Or.inr (Or.inr hcheck), Or.inr (Or.inl rfl)⟩) hcurrent
  have htally := hlog.tally Db.consistent_empty .empty id id
  -- the window covers everything
  obtain ⟨hnet, hdeducted⟩ := movements_covered hmovements
  refine ⟨_, getMovementAnalytics_on, fun stock hstock => ?_, fun orders ho => ?_, fun hfits => ?_⟩
  · obtain ⟨_, rfl⟩ := getStockAnalytics_on.mp hstock
    -- the movements add up to the stock
    exact hnet.trans htally.units
  · -- deductions less restorations are the units of the orders that hold stock
    obtain ⟨_, _, rfl⟩ := getOrderAnalytics_on.mp ho
    exact hdeducted.trans (htally.holding.trans (orders_covered horders).symm)
  · -- sums that fit are computed
    exact ⟨_, _, getStockAnalytics_on.mpr ⟨hfits.stock, rfl⟩,
      getOrderAnalytics_on.mpr ⟨hfits.revenue, hfits.refund, rfl⟩⟩

/-- One order is confirmed, one rejected for want of stock, one confirmed and cancelled,
    and one cancelled while it is PENDING. -/
def trading : List (system ⟨.http, ⟨false⟩⟩).Label := inTurn [
  (.createItem { name := "Tea", price := 350, stockQuantity := 10 }, [0, 0, 1, 0, 0]),
  (.placeOrder { itemId := 0, quantity := 3 }, [0, 2, 0, 0, 0]),
  (.transition .confirm 2, [0, 0, 0, 3, 0, 0, 0, 0, 0]),
  (.placeOrder { itemId := 0, quantity := 9 }, [0, 4, 0, 0, 0]),
  (.transition .confirm 4, [0, 0, 0, 0, 0]),
  (.placeOrder { itemId := 0, quantity := 1 }, [0, 5, 0, 0, 0]),
  (.transition .confirm 5, [0, 0, 0, 6, 0, 0, 0, 0, 0]),
  (.transition .cancel 5, [0, 0, 0, 7, 0, 0, 0, 0, 0]),
  (.placeOrder { itemId := 0, quantity := 2 }, [0, 8, 0, 0, 0]),
  (.transition .cancel 8, [0, 0, 0, 0, 0])]

/-- Orders that were confirmed, rejected and cancelled add up. -/
theorem reports_tally_trading : ∃ c, serialWriters trading c ∧ ∃ stock orders movements,
    AnalyticsService.getStockAnalytics.on c.st.db = .ok stock ∧
    (AnalyticsService.getOrderAnalytics 0).on c.st.db = .ok orders ∧
    (AnalyticsService.getMovementAnalytics 0).on c.st.db = .ok movements ∧
    movements.netStockChange = stock.totalUnits ∧
    (movements.totalDeductions : Int) - movements.totalRestorations =
      orders.confirmed + orders.shipped + orders.delivered ∧
    (stock.totalUnits, movements.totalDeductions, movements.totalRestorations) = (7, 2, 1) := by
  obtain ⟨c, hrun, horders, hmovements, hstock, ho, hm⟩ : ∃ c, serialWriters trading c ∧
      (∀ o ∈ c.st.db.orders.rows, since 0 30 ≤ o.createdAt) ∧
      (∀ m ∈ c.st.db.movements.rows, since 0 30 ≤ m.createdAt) ∧
      AnalyticsService.getStockAnalytics.on c.st.db = .ok ⟨1, 7, ⟨2450, -2⟩, 1, 0⟩ ∧
      (AnalyticsService.getOrderAnalytics 0).on c.st.db =
        .ok ⟨4, 0, 1, 0, 0, 2, 1, ⟨0, -2⟩, ⟨1050, -2⟩⟩ ∧
      (AnalyticsService.getMovementAnalytics 0).on c.st.db = .ok ⟨2, 1, 1, 7⟩ :=
    serialRuns_of_decide (by decide +kernel) (by decide +kernel)
  obtain ⟨movements, hm', hnet, hheld, _⟩ := reports_tally hrun horders hmovements
  obtain rfl := Except.ok.inj (hm.symm.trans hm')
  exact ⟨c, hrun, _, _, _, hstock, ho, hm, hnet _ hstock, hheld _ ho, rfl⟩

end Nova
