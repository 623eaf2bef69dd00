import Nova.Spec.Lifetimes
import Nova.Spec.Tally

/-!
# The summary over time

`GET /analytics/summary` runs five statements, and each sees the tables as they are when it
runs (`analyticsSummary_across`). Between the statements of one summary, and between two
summaries, any requests may commit (`Moments`).

## Main results

- `summary_grows`: what a later summary over a window that is not shorter reports as final is
  never less.
- `summary_drift`: in a run without races, by how much the parts of one summary disagree is
  what the movements add that are written between its statements.
-/

namespace Nova

open Machine Reports

/-! ## Moments of a run -/

/-- `cs 0`, `cs 1`, … are states of one run, each reached from the one before. -/
structure Moments (cfg : Config) (ok : (system cfg).Config → (system cfg).Label → Prop) (d₀ : Db)
    (cs : Nat → (system cfg).Config) : Prop where
  first : ∃ ls, SysRun cfg ok d₀ ls (cs 0)
  next : ∀ n, ∃ ls, Run ok (cs n) ls (cs (n + 1))

/-- The tables at each moment. -/
def tablesAt {cfg : Config} (cs : Nat → (system cfg).Config) (n : Nat) : Db := (cs n).st.db

section

variable {cfg : Config} {d₀ : Db} {ok : (system cfg).Config → (system cfg).Label → Prop}
  {cs : Nat → (system cfg).Config}

/-- Each moment is a state of a run. -/
theorem Moments.reached (h : Moments cfg ok d₀ cs) (n : Nat) :
    ∃ ls, SysRun cfg ok d₀ ls (cs n) := by
  induction n with
  | zero => exact h.first
  | succ n ih =>
    obtain ⟨_, hrun⟩ := ih
    obtain ⟨_, hnext⟩ := h.next n
    exact ⟨_, hrun.trans hnext⟩

/-- Later tables have evolved from earlier ones. -/
theorem Moments.evolves (h : Moments cfg ok d₀ cs) (hd₀ : d₀.Consistent) {n m : Nat}
    (hle : n ≤ m) : (tablesAt cs n).Evolves (tablesAt cs m) := by
  induction m, hle using Nat.le_induction with
  | base => exact .refl _
  | succ m _ ih =>
    obtain ⟨_, hrun⟩ := h.reached m
    obtain ⟨_, hnext⟩ := h.next m
    exact ih.trans (rows_evolve hd₀ hrun hnext)

end

/-! ## What a summary returns -/

section

variable {α β γ : Type} {ds : Nat → Db}

/-- Reads may be sequenced either way. -/
private theorem reading_assoc (x : Reading α) (f : α → Reading β) (g : β → Reading γ) :
    (x >>= f) >>= g = x >>= fun a => f a >>= g := by
  show Prog.bind (Prog.bind x _) _ = Prog.bind x _
  induction x with
  | ret r => cases r <;> rfl
  | call q k ih => exact congrArg (Prog.call q) (funext ih)

/-- Returning first changes nothing. -/
private theorem reading_pure (a : α) (f : α → Reading β) : (pure a >>= f) = f a := rfl

/-- A `SELECT` reads the tables of its own moment. -/
private theorem across_execute (q : Query) (f : q.Val → Reading β) :
    (Reading.execute q >>= f).across ds = (f ((ds 0).select q)).across fun n => ds (n + 1) := rfl

/-- `quantize` runs no statement. -/
private theorem across_quantize {xs : List Int} {f : Decimal → Reading β} {b : β} :
    (quantizeCents (sumOrZero xs) >>= f).across ds = .ok b ↔
      Fits xs.sum ∧ (f ⟨xs.sum, -2⟩).across ds = .ok b := by
  have hsum : ∀ a, (quantizeCents (sumOrZero xs)).on (ds 0) = .ok a ↔
      Fits xs.sum ∧ a = ⟨xs.sum, -2⟩ := fun _ => quantizeCents_sumOrZero
  unfold quantizeCents at hsum ⊢
  cases hq : (sumOrZero xs).quantize 28 (-2) with
  | error s =>
    have hnot : ¬Fits xs.sum := fun h => by
      have := (hsum _).mpr ⟨h, rfl⟩
      rw [hq] at this
      cases this
    simp only [hnot, false_and, iff_false]
    intro h
    cases h
  | ok a =>
    have hfits := (hsum a).mp (by rw [hq]; rfl)
    obtain ⟨hfits, rfl⟩ := hfits
    simp only [hfits, true_and]
    rfl

end

/-- A summary whose statements run on `ds 0`, …, `ds 4`. -/
theorem analyticsSummary_across {ds : Nat → Db} {now now' : Timestamp} {days : Int}
    {r : AnalyticsSummary} :
    (Api.analyticsSummary now now' days).across ds = .ok r ↔ Api.validDays days = true ∧
      Fits (ds 0).stockWorth ∧ Fits ((ds 2).worthOf .delivered (since now days)) ∧
      Fits ((ds 3).worthOf .cancelled (since now days)) ∧
      r = { stock := (ds 0).stockAnalytics
            orders := { (ds 1).orderAnalytics (since now days) with
              revenue := ⟨(ds 2).worthOf .delivered (since now days), -2⟩
              refundValue := ⟨(ds 3).worthOf .cancelled (since now days), -2⟩ }
            movements := {
              totalDeductions := (ds 4).countType (since now' days) .deduction
              totalRestorations := (ds 4).countType (since now' days) .restoration
              totalAdjustments := (ds 4).countType (since now' days) .adjustment
              netStockChange := ((ds 4).movementTotals (since now' days)).netChange } } := by
  unfold Api.analyticsSummary
  cases hvalid : Api.validDays days with
  | false =>
    constructor
    · intro h
      cases h
    · rintro ⟨⟨⟩, _⟩
  | true =>
    -- the three parts are one sequence of statements
    simp only [Bool.not_true, Bool.false_eq_true, ↓reduceIte, AnalyticsService.getStockAnalytics,
      AnalyticsService.getOrderAnalytics, AnalyticsService.getMovementAnalytics, reading_assoc,
      reading_pure]
    rw [across_execute .stockTotals]
    simp only [Db.select, Db.stockTotals, across_quantize, across_execute (.orderTotals _),
      across_execute (.orderValue _ _), across_execute (.movementTotals _), Db.orderValues_sum,
      zero_add, true_and]
    refine and_congr_right fun _ => and_congr_right fun _ => and_congr_right fun _ => ?_
    exact ⟨fun h => (Except.ok.inj h).symm, fun h => congrArg Except.ok h.symm⟩

/-! ## Columns that grow -/

/-- What an order adds to a column: `w` if its status is one of `p` and it is in the window. -/
private def share (p : OrderStatus → Bool) (w : Order → Int) (t : Timestamp) (o : Order) : Int :=
  if p o.status && decide (t ≤ o.createdAt) then w o else 0

/-- A column is the sum of what every order adds to it. -/
private theorem share_filter (p : OrderStatus → Bool) (w : Order → Int) (t : Timestamp)
    (os : List Order) : ((os.filter fun o => p o.status && decide (t ≤ o.createdAt)).map w).sum =
      (os.map (share p w t)).sum := by
  induction os with
  | nil => rfl
  | cons o os ih =>
    rw [List.filter_cons, List.map_cons, List.sum_cons, ← ih, share]
    split
    · rw [List.map_cons, List.sum_cons]
    · rw [zero_add]

section

variable {d d' : Db} {t t' : Timestamp}

/-- A column grows if orders never leave its statuses and their worth is kept. -/
private theorem column_grows (h : d.Evolves d') (ht : t' ≤ t) {p : OrderStatus → Bool}
    (w w' : Order → Int) (hfinal : ∀ s s' n, OrderStatus.Walk n s s' → p s = true → p s' = true)
    (hpos : ∀ o ∈ d'.orders.rows, 0 ≤ w' o)
    (hworth : ∀ o ∈ d.orders.rows, ∀ o', o.Becomes o' → w o ≤ w' o') :
    d.orders.sumBy (share p w t) ≤ d'.orders.sumBy (share p w' t') := by
  refine Table.sumBy_le (fun o ho => ?_) fun o ho => ?_
  · -- an order that is new can only add
    unfold share
    split
    · exact hpos o ho
    · exact le_rfl
  · -- an older one has the same time and a later status
    obtain ⟨o', ho', hbecomes⟩ := h.orders o (Table.find?_of_mem ho)
    have hmem := Table.mem_of_find? ho'
    refine ⟨o', hmem, hbecomes.id_eq, ?_⟩
    obtain ⟨n, hwalk, _⟩ := hbecomes.walk
    have hcreated : o'.createdAt = o.createdAt := by rw [hbecomes.next]
    unfold share
    -- it counted: its status is final, so it still counts
    split
    · rename_i hin
      rw [Bool.and_eq_true, decide_eq_true_eq] at hin
      have hin' : (p o'.status && decide (t' ≤ o'.createdAt)) = true := by
        rw [Bool.and_eq_true, decide_eq_true_eq, hcreated]
        exact ⟨hfinal _ _ _ hwalk hin.1, ht.trans hin.2⟩
      rw [if_pos hin']
      exact hworth o ho o' hbecomes
    · -- it did not count: it may now
      split
      · exact hpos o' hmem
      · exact le_rfl

/-- An order in a terminal status keeps it. -/
private theorem final_of_terminal {st : OrderStatus} (hst : st ∈ OrderStatus.terminalStates) :
    ∀ s s' n, OrderStatus.Walk n s s' → decide (s = st) = true → decide (s' = st) = true := by
  intro s s' n hwalk hs
  rw [decide_eq_true_eq] at hs ⊢
  subst hs
  exact hwalk.of_terminal hst

/-- Orders do not leave the window or a terminal status. -/
theorem Db.Evolves.countStatus_le (h : d.Evolves d') (ht : t' ≤ t) {st : OrderStatus}
    (hst : st ∈ OrderStatus.terminalStates) : d.countStatus t st ≤ d'.countStatus t' st := by
  have hcount : ∀ (d : Db) (t : Timestamp),
      (d.countStatus t st : Int) = d.orders.sumBy (share (· = st) (fun _ => 1) t) := by
    intro d t
    rw [Table.sumBy, ← share_filter, Db.countStatus, Db.ordersSince, List.countP_filter,
      List.countP_eq_length_filter]
    simp
  have hgrows := column_grows h ht (fun _ => 1) (fun _ => 1) (final_of_terminal hst)
    (fun _ _ => zero_le_one) fun _ _ _ _ => le_rfl
  rw [← hcount, ← hcount] at hgrows
  exact_mod_cast hgrows

/-- The number of orders grows. -/
theorem Db.Evolves.total_le (h : d.Evolves d') (ht : t' ≤ t) :
    (d.orderTotals t).total ≤ (d'.orderTotals t').total := by
  have hcount : ∀ (d : Db) (t : Timestamp), ((d.orderTotals t).total : Int) =
      d.orders.sumBy (share (fun _ => true) (fun _ => 1) t) := by
    intro d t
    rw [Table.sumBy, ← share_filter]
    simp [Db.orderTotals, Db.ordersSince]
  have hgrows := column_grows h ht (p := fun _ => true) (fun _ => 1) (fun _ => 1)
    (fun _ _ _ _ h => h) (fun _ _ => zero_le_one) fun _ _ _ _ => le_rfl
  rw [← hcount, ← hcount] at hgrows
  exact_mod_cast hgrows

/-- An order is worth what it was worth: prices and quantities never change. -/
theorem Db.Evolves.worth_eq (h : d.Evolves d') (hd : d.Consistent) {o o' : Order}
    (ho : o ∈ d.orders.rows) (hbecomes : o.Becomes o') : d'.worth o' = d.worth o := by
  obtain ⟨i, hi⟩ := Option.isSome_iff_exists.mp (hd o ho)
  obtain ⟨i', hi', hitem⟩ := h.items i ((Table.key_of_find? hi).symm ▸ hi)
  rw [Table.key_of_find? hi] at hi'
  have hid : o'.itemId = o.itemId := by rw [hbecomes.next]
  have hquantity : o'.quantity = o.quantity := by rw [hbecomes.next]
  have hprice : i'.price = i.price := by rw [hitem.next]
  rw [Db.worth_of_find? hi, Db.worth_of_find? (hid ▸ hi'), hprice, hquantity]

/-- The worth of the orders of a terminal status grows. -/
theorem Db.Evolves.worthOf_le (h : d.Evolves d') (hd : d.Consistent) (hd' : d'.Consistent)
    (ht : t' ≤ t) {st : OrderStatus} (hst : st ∈ OrderStatus.terminalStates) :
    d.worthOf st t ≤ d'.worthOf st t' := by
  have hpos : ∀ o ∈ d'.orders.rows, 0 ≤ d'.worth o := by
    intro o ho
    obtain ⟨i, hi⟩ := Option.isSome_iff_exists.mp (hd' o ho)
    rw [Db.worth_of_find? hi]
    exact (mul_pos i.ckPricePositive o.ckQuantityPositive).le
  have hgrows := column_grows h ht d.worth d'.worth (final_of_terminal hst) hpos
    fun o ho o' hbecomes => (h.worth_eq hd ho hbecomes).ge
  rw [Table.sumBy, ← share_filter, Table.sumBy, ← share_filter] at hgrows
  exact hgrows

/-- The number of movements of a type grows. -/
theorem Db.Evolves.countType_le (h : d.Evolves d') (ht : t' ≤ t) (type : MovementType) :
    d.countType t type ≤ d'.countType t' type := by
  unfold Db.countType
  rw [List.countP_filter, List.countP_filter]
  refine (List.countP_mono_left fun m _ hm => ?_).trans h.movements.sublist.countP_le
  simp only [Bool.and_eq_true, decide_eq_true_eq] at hm ⊢
  exact ⟨hm.1, ht.trans hm.2⟩

/-- The number of items grows. -/
theorem Db.Evolves.items_le (h : d.Evolves d') : d.items.rows.length ≤ d'.items.rows.length := by
  have hlength : ∀ d : Db, (d.items.rows.length : Int) = d.items.sumBy fun _ => 1 := by
    intro d
    simp [Table.sumBy]
  have hgrows : d.items.sumBy (fun _ => 1) ≤ d'.items.sumBy fun _ => 1 := by
    refine Table.sumBy_le (fun _ _ => zero_le_one) fun i hi => ?_
    obtain ⟨i', hi', hbecomes⟩ := h.items i (Table.find?_of_mem hi)
    exact ⟨i', Table.mem_of_find? hi', hbecomes.id_eq, le_rfl⟩
  rw [← hlength, ← hlength] at hgrows
  exact_mod_cast hgrows

end

/-! ## Summaries -/

/-- The figures that only grow: rows, orders in a terminal status and what they are worth,
    and movements. -/
structure Reports.AnalyticsSummary.Grows (r r' : AnalyticsSummary) : Prop where
  totalItems : r.stock.totalItems ≤ r'.stock.totalItems
  totalOrders : r.orders.totalOrders ≤ r'.orders.totalOrders
  delivered : r.orders.delivered ≤ r'.orders.delivered
  cancelled : r.orders.cancelled ≤ r'.orders.cancelled
  rejected : r.orders.rejected ≤ r'.orders.rejected
  revenue : r.orders.revenue.value ≤ r'.orders.revenue.value
  refundValue : r.orders.refundValue.value ≤ r'.orders.refundValue.value
  totalDeductions : r.movements.totalDeductions ≤ r'.movements.totalDeductions
  totalRestorations : r.movements.totalRestorations ≤ r'.movements.totalRestorations
  totalAdjustments : r.movements.totalAdjustments ≤ r'.movements.totalAdjustments

/-- Amounts in hundredths compare as the hundredths do. -/
private theorem value_le {x y : Int} (h : x ≤ y) :
    Decimal.value ⟨x, -2⟩ ≤ Decimal.value ⟨y, -2⟩ := by
  unfold Decimal.value
  exact mul_le_mul_of_nonneg_right (by exact_mod_cast h) (by positivity)

section

variable {cfg : Config} {d₀ : Db} {ok : (system cfg).Config → (system cfg).Label → Prop}
  {cs : Nat → (system cfg).Config} {i j : Nat → Nat} {now₁ now₁' now₂ now₂' : Timestamp}
  {days₁ days₂ : Int} {r₁ r₂ : AnalyticsSummary}

/-- In any run, a summary each of whose statements runs no earlier than that of another, over
    windows that begin no later, reports no less, whatever commits in between. -/
theorem summary_grows (hd₀ : d₀.Consistent) (h : Moments cfg ok d₀ cs) (hle : ∀ k, i k ≤ j k)
    (h₁ : (Api.analyticsSummary now₁ now₁' days₁).across (fun k => tablesAt cs (i k)) = .ok r₁)
    (h₂ : (Api.analyticsSummary now₂ now₂' days₂).across (fun k => tablesAt cs (j k)) = .ok r₂)
    (horders : since now₂ days₂ ≤ since now₁ days₁)
    (hmovements : since now₂' days₂ ≤ since now₁' days₁) : r₁.Grows r₂ := by
  obtain ⟨_, _, _, _, rfl⟩ := analyticsSummary_across.mp h₁
  obtain ⟨_, _, _, _, rfl⟩ := analyticsSummary_across.mp h₂
  -- each statement sees tables that have evolved from those of the earlier one
  have hevolves := fun k => h.evolves hd₀ (hle k)
  have hconsistent : ∀ n, (tablesAt cs n).Consistent := by
    intro n
    obtain ⟨_, hrun⟩ := h.reached n
    exact (hrun.log hd₀).consistent hd₀
  -- the worth of terminal orders, in hundredths
  have hworth := fun k {st} (hst : st ∈ OrderStatus.terminalStates) =>
    value_le ((hevolves k).worthOf_le (hconsistent _) (hconsistent _) horders hst)
  exact {
    totalItems := (hevolves 0).items_le
    totalOrders := (hevolves 1).total_le horders
    delivered := (hevolves 1).countStatus_le horders (by decide)
    cancelled := (hevolves 1).countStatus_le horders (by decide)
    rejected := (hevolves 1).countStatus_le horders (by decide)
    revenue := hworth 2 (by decide)
    refundValue := hworth 3 (by decide)
    totalDeductions := (hevolves 4).countType_le hmovements _
    totalRestorations := (hevolves 4).countType_le hmovements _
    totalAdjustments := (hevolves 4).countType_le hmovements _ }

/-- The movements that `d'` has and `d` does not. -/
def Db.movementsAfter (d d' : Db) : List StockMovement :=
  d'.movements.rows.drop d.movements.rows.length

/-- A sum over later movements is the sum before, and that over the movements since. -/
theorem Db.Evolves.sumBy_movements {d d' : Db} (h : d.Evolves d') (f : StockMovement → Int) :
    d'.movements.sumBy f = d.movements.sumBy f + ((d.movementsAfter d').map f).sum := by
  obtain ⟨later, hlater⟩ := h.movements
  unfold Table.sumBy Db.movementsAfter
  rw [← hlater, List.drop_left, List.map_append, List.sum_append]

/-- In a run without races, over windows that cover it, the parts of a summary differ by what
    is written between their statements. -/
theorem summary_drift (hd₀ : d₀.Consistent) (htally : Tally d₀)
    (h : Moments cfg (RaceFree cfg) d₀ cs) (hstock : i 0 ≤ i 4) (hheld : i 1 ≤ i 4)
    (h₁ : (Api.analyticsSummary now₁ now₁' days₁).across (fun k => tablesAt cs (i k)) = .ok r₁)
    (horders : ∀ o ∈ (tablesAt cs (i 1)).orders.rows, since now₁ days₁ ≤ o.createdAt)
    (hmovements : ∀ m ∈ (tablesAt cs (i 4)).movements.rows, since now₁' days₁ ≤ m.createdAt) :
    r₁.movements.netStockChange = r₁.stock.totalUnits +
        (((tablesAt cs (i 0)).movementsAfter (tablesAt cs (i 4))).map (·.quantityDelta)).sum ∧
      (r₁.movements.totalDeductions : Int) - r₁.movements.totalRestorations =
        r₁.orders.confirmed + r₁.orders.shipped + r₁.orders.delivered +
          (((tablesAt cs (i 1)).movementsAfter (tablesAt cs (i 4))).map (·.deducted)).sum := by
  obtain ⟨_, _, _, _, rfl⟩ := analyticsSummary_across.mp h₁
  have htallies : ∀ n, Tally (tablesAt cs n) := by
    intro n
    obtain ⟨_, hrun⟩ := h.reached n
    exact (RaceFree.log hd₀ hrun).tally hd₀ htally id id
  obtain ⟨hnet, hdeducted⟩ := movements_covered hmovements
  constructor
  · refine hnet.trans ?_
    rw [(h.evolves hd₀ hstock).sumBy_movements, (htallies _).units]
    rfl
  · refine hdeducted.trans ?_
    rw [(h.evolves hd₀ hheld).sumBy_movements, (htallies _).holding, ← orders_covered horders]
    rfl

/-- Two states of one run are moments of it. -/
theorem Moments.of_two {ls₁ ls₂ : List (system cfg).Label} {c₁ c₂ : (system cfg).Config}
    (hrun₁ : SysRun cfg ok d₀ ls₁ c₁) (hrun₂ : Run ok c₁ ls₂ c₂) :
    Moments cfg ok d₀ fun n => if n = 0 then c₁ else c₂ where
  first := ⟨ls₁, hrun₁⟩
  next n := by
    cases n with
    | zero => exact ⟨ls₂, hrun₂⟩
    | succ n => exact ⟨[], .nil⟩

end

/-- The tables of `c₁` until the `n`-th statement, then those of `c₂`. -/
theorem tablesAt_two {cfg : Config} (c₁ c₂ : (system cfg).Config) (n : Nat) :
    (fun k => tablesAt (fun m => if m = 0 then c₁ else c₂) (if k < n then 0 else 1)) =
      fun k => if k < n then c₁.st.db else c₂.st.db := by
  funext k
  split <;> rfl

/-- An order is cancelled between the second statement of the first summary and the third. The
    second summary is made at a later time, over a longer window that begins no later. -/
theorem summary_grows_overtaken : ∃ (cs : Nat → (system ⟨.http, ⟨true⟩⟩).Config)
    (r₁ r₂ : AnalyticsSummary), Moments ⟨.http, ⟨true⟩⟩ (fun _ _ => True) Db.empty cs ∧
    (Api.analyticsSummary 0 0).across (fun k => tablesAt cs (if k < 2 then 0 else 1)) = .ok r₁ ∧
    (Api.analyticsSummary 500 700 31).across (fun _ => tablesAt cs 1) = .ok r₂ ∧
    (r₁.orders.cancelled, r₁.orders.refundValue, r₂.orders.cancelled) = (0, ⟨1050, -2⟩, 1) ∧
    r₁.Grows r₂ := by
  obtain ⟨c₁, c₂, hrun₁, hrun₂, h₁, h₂⟩ : ∃ c₁ c₂,
      SysRun ⟨.http, ⟨true⟩⟩ (fun _ _ => True) Db.empty overordered c₁ ∧
      Run (fun _ _ => True) c₁ ([.start 2 (.transition .confirm 2)] ++ overtaken) c₂ ∧
      (Api.analyticsSummary 0 0).across (fun k => if k < 2 then c₁.st.db else c₂.st.db) =
        .ok ⟨⟨1, 2, ⟨700, -2⟩, 1, 0⟩, ⟨1, 1, 0, 0, 0, 0, 0, ⟨0, -2⟩, ⟨1050, -2⟩⟩, ⟨0, 0, 1, 2⟩⟩ ∧
      (Api.analyticsSummary 500 700 31).on c₂.st.db =
        .ok ⟨⟨1, 2, ⟨700, -2⟩, 1, 0⟩, ⟨1, 0, 0, 0, 0, 1, 0, ⟨0, -2⟩, ⟨1050, -2⟩⟩, ⟨0, 0, 1, 2⟩⟩ :=
    Run.of_decide₂ (by decide +kernel) (Config.allows_of_forall fun _ _ => trivial)
  rw [← tablesAt_two] at h₁
  refine ⟨_, _, _, Moments.of_two hrun₁ hrun₂, h₁, h₂, rfl, ?_⟩
  refine summary_grows Db.consistent_empty (Moments.of_two hrun₁ hrun₂) (j := fun _ => 1)
    (fun k => ?_) h₁ h₂ (by decide) (by decide)
  show (if k < 2 then 0 else 1) ≤ 1
  split <;> decide

/-- An order is confirmed between the first statement of a summary and the second. -/
theorem summary_drift_confirmed : ∃ (cs : Nat → (system ⟨.http, ⟨false⟩⟩).Config)
    (r : AnalyticsSummary), Moments ⟨.http, ⟨false⟩⟩ (RaceFree ⟨.http, ⟨false⟩⟩) Db.empty cs ∧
    (Api.analyticsSummary 0 0).across (fun k => tablesAt cs (if k < 1 then 0 else 1)) = .ok r ∧
    (r.movements.netStockChange, r.stock.totalUnits) = (7, 10) ∧
    r.movements.netStockChange = r.stock.totalUnits +
      (((tablesAt cs 0).movementsAfter (tablesAt cs 1)).map (·.quantityDelta)).sum ∧
    (r.movements.totalDeductions : Int) - r.movements.totalRestorations =
      r.orders.confirmed + r.orders.shipped + r.orders.delivered +
        (((tablesAt cs 1).movementsAfter (tablesAt cs 1)).map (·.deducted)).sum := by
  obtain ⟨c₁, c₂, hrun₁, hrun₂, h, horders, hmovements⟩ : ∃ c₁ c₂,
      SysRun ⟨.http, ⟨false⟩⟩ (RaceFree ⟨.http, ⟨false⟩⟩) Db.empty placing c₁ ∧
      Run (RaceFree ⟨.http, ⟨false⟩⟩) c₁ confirming c₂ ∧
      (Api.analyticsSummary 0 0).across (fun k => if k < 1 then c₁.st.db else c₂.st.db) =
        .ok ⟨⟨1, 10, ⟨3500, -2⟩, 1, 0⟩, ⟨1, 0, 1, 0, 0, 0, 0, ⟨0, -2⟩, ⟨0, -2⟩⟩, ⟨1, 0, 1, 7⟩⟩ ∧
      (∀ o ∈ c₂.st.db.orders.rows, since 0 30 ≤ o.createdAt) ∧
      (∀ m ∈ c₂.st.db.movements.rows, since 0 30 ≤ m.createdAt) :=
    Run.of_decide₂ (by decide +kernel) (by decide +kernel)
  rw [← tablesAt_two] at h
  refine ⟨_, _, Moments.of_two hrun₁ hrun₂, h, rfl, ?_⟩
  exact summary_drift Db.consistent_empty .empty (Moments.of_two hrun₁ hrun₂)
    (i := fun k => if k < 1 then 0 else 1) (by decide) (by decide) h horders hmovements

end Nova
