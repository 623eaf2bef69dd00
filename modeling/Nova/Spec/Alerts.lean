import Nova.ForStd.Steps
import Nova.Spec.Growth
import Nova.Spec.Trail

/-!
# Low-stock alerts over time

`GET /stock/alerts/low` lists the items at or below their threshold. Between two polls an
alert may have come and gone. Where no stock read overwrites a row, the movements written
between them tell all of it: an item has changed sides exactly as often as one of its
movements crosses its threshold, down and up in turn (`alerts_explained`).
-/

namespace Nova

open Machine Reports

/-! ## Crossings -/

/-- Movement `m` starts at or below `threshold`. -/
def StockMovement.fromLow (threshold : Int) (m : StockMovement) : Bool := m.stockBefore ≤ threshold

/-- Movement `m` ends at or below `threshold`. -/
def StockMovement.toLow (threshold : Int) (m : StockMovement) : Bool := m.stockAfter ≤ threshold

/-- The movements of item `i` among `ms` that take its stock across its threshold. -/
def crossings (i : MenuItem) (ms : List StockMovement) : List StockMovement :=
  (ms.filter (·.itemId = i.id)).filter fun m =>
    m.fromLow i.lowStockThreshold ≠ m.toLow i.lowStockThreshold

/-- Item `i` was low or not (`before`), is low or not (`after`), and has crossed its threshold
    with the movements `ms` in between. -/
structure Switched (i : MenuItem) (before after : Bool) (ms : List StockMovement) : Prop where
  even : before = after ↔ Even ms.length
  first : ∀ m, ms.head? = some m → m.fromLow i.lowStockThreshold = before
  inTurn : ms.IsChain fun m m' =>
    m.toLow i.lowStockThreshold ≠ m'.toLow i.lowStockThreshold
  last : ∀ m, ms.getLast? = some m → m.toLow i.lowStockThreshold = after

/-- The movements of an item lead from one stock to another, each on from where the last one
    ended. -/
theorem Replays.leads {ms : List StockMovement} {q final : Int} (h : Replays q ms final) :
    Leads (·.stockBefore) (·.stockAfter) q ms final := by
  induction ms generalizing q with
  | nil => exact h
  | cons m ms ih =>
    obtain ⟨hbefore, hafter, hrest⟩ := h
    have hfrom : Replays m.stockAfter ms final := by rwa [hafter]
    exact ⟨hbefore, ih hfrom⟩

/-- Movements that lead from the quantity `q` to the stock of an item. -/
theorem switched_of_leads {i : MenuItem} {ms : List StockMovement} {q : Int}
    (h : Leads (·.stockBefore) (·.stockAfter) q (ms.filter (·.itemId = i.id)) i.stockQuantity) :
    Switched i (q ≤ i.lowStockThreshold) (i.stockQuantity ≤ i.lowStockThreshold)
      (crossings i ms) := by
  -- seen from the threshold, most movements change nothing
  have hsides := (h.map fun n => decide (n ≤ i.lowStockThreshold)).changes
  have hchanges : ∀ m ∈ crossings i ms,
      m.fromLow i.lowStockThreshold ≠ m.toLow i.lowStockThreshold := by
    intro m hm
    simpa using List.of_mem_filter hm
  exact ⟨hsides.even hchanges, fun m => hsides.pre_head, hsides.isChain_post hchanges,
    fun m => hsides.post_last⟩

/-! ## Polls -/

/-- Item `id` is among the alerts. -/
def Alerted (as : List LowStockAlert) (id : Uuid) : Bool := as.any (·.id = id)

/-- The alerts are the low-stock items. -/
theorem lowStockAlerts_on (d : Db) : Api.lowStockAlerts.on d = .ok (d.listLowStock.map .ofItem) :=
  rfl

/-- The items that exist have an alert if they are low. -/
theorem alerted_row {d : Db} {as : List LowStockAlert} (has : Api.lowStockAlerts.on d = .ok as)
    {i : MenuItem} (hi : d.items.find? i.id = some i) :
    Alerted as i.id = decide (i.stockQuantity ≤ i.lowStockThreshold) := by
  rw [lowStockAlerts_on] at has
  obtain rfl := Except.ok.inj has
  rw [Bool.eq_iff_iff, decide_eq_true_eq, Alerted, List.any_eq_true]
  constructor
  · rintro ⟨_, ha, hid⟩
    obtain ⟨j, hj, rfl⟩ := List.mem_map.mp ha
    obtain ⟨hrow, hlow⟩ := mem_listLowStock.mp hj
    have hsame : j.id = i.id := of_decide_eq_true hid
    have hfind := Table.find?_of_mem hrow
    rw [hsame, hi] at hfind
    obtain rfl := Option.some.inj hfind
    exact of_decide_eq_true hlow
  · intro hlow
    have hrow := mem_listLowStock.mpr ⟨Table.mem_of_find? hi, decide_eq_true hlow⟩
    exact ⟨_, List.mem_map_of_mem hrow, decide_eq_true rfl⟩

/-- The moves of a run in which no stock read finds its row different from the cache. -/
abbrev ReadsCurrently (cfg : Config) (c : (system cfg).Config) (l : (system cfg).Label) : Prop :=
  OnCall (fun e t o s => cfg.cache.enabled = false ∨ CurrentRead e t o s = true) c l

section

variable {cfg : Config} {d₀ : Db} {ls ls₁ ls₂ : List (system cfg).Label}
  {c c₁ c₂ : (system cfg).Config} {as₁ as₂ : List LowStockAlert}

/-- Every commit of the run is the effect of its request. -/
theorem ReadsCurrently.log (hd₀ : d₀.Consistent) (hrun : SysRun cfg (ReadsCurrently cfg) d₀ ls c) :
    Log ⟨True, True, False⟩ d₀ c.st.wal c.st.db :=
  log_of_run hd₀ (fun _ => trivial)
    (fun _ _ hl => hl.mono fun _ _ _ _ hread => ⟨Or.inl trivial, Or.inr hread⟩) hrun

/-- The movements of every item stay an audit trail. -/
theorem ReadsCurrently.audited (hd₀ : d₀.Consistent) (haudited : Audited d₀)
    (hrun : SysRun cfg (ReadsCurrently cfg) d₀ ls c) : Audited c.st.db :=
  (ReadsCurrently.log hd₀ hrun).audited haudited id

/-- Between any two moments of a run without overwritten rows, the movements tell how each
    alert has come and gone. An item that did not exist has started at a stock of none, which
    is low. -/
theorem alerts_explained (hd₀ : d₀.Consistent) (haudited : Audited d₀)
    (hrun₁ : SysRun cfg (ReadsCurrently cfg) d₀ ls₁ c₁)
    (hrun₂ : Run (ReadsCurrently cfg) c₁ ls₂ c₂)
    (has₁ : Api.lowStockAlerts.on c₁.st.db = .ok as₁)
    (has₂ : Api.lowStockAlerts.on c₂.st.db = .ok as₂) :
    ∃ ms, c₂.st.db.movements.rows = c₁.st.db.movements.rows ++ ms ∧
      ∀ i, c₂.st.db.items.find? i.id = some i →
        Switched i ((c₁.st.db.items.find? i.id).isNone || Alerted as₁ i.id) (Alerted as₂ i.id)
          (crossings i ms) := by
  have hevolves := rows_evolve hd₀ hrun₁ hrun₂
  have haudited₁ := ReadsCurrently.audited hd₀ haudited hrun₁
  have haudited₂ := ReadsCurrently.audited hd₀ haudited (hrun₁.trans hrun₂)
  obtain ⟨ms, hms⟩ := hevolves.movements
  refine ⟨ms, hms.symm, fun i hi => ?_⟩
  have hleads := (haudited₂.chain i hi).replays.leads
  rw [Db.movementsOn, ← hms, List.filter_append] at hleads
  rw [alerted_row has₂ hi]
  cases hold : c₁.st.db.items.find? i.id with
  | none =>
    -- the item is new, and its chain starts at a stock of none
    have hnone : c₁.st.db.movements.rows.filter (·.itemId = i.id) = [] :=
      haudited₁.noItem i.id hold
    rw [hnone, List.nil_append] at hleads
    simpa [i.ckThresholdNonNegative] using switched_of_leads hleads
  | some j =>
    have hid : j.id = i.id := Table.key_of_find? hold
    have hj : c₁.st.db.items.find? j.id = some j := hid ▸ hold
    obtain ⟨i', hi', hbecomes⟩ := hevolves.items j hj
    obtain rfl : i' = i := by
      rw [hid, hi] at hi'
      exact (Option.some.inj hi').symm
    have hthreshold : j.lowStockThreshold = i'.lowStockThreshold := by rw [hbecomes.next]
    have hold₁ := (haudited₁.chain j hj).replays.leads
    rw [Db.movementsOn, hid] at hold₁
    -- the chain goes on from the stock that the first poll saw
    have hswitched := switched_of_leads (hleads.of_append hold₁)
    rw [← hid, Option.isNone_some, Bool.false_or, alerted_row has₁ hj, hthreshold]
    exact hswitched

end

/-- An item above its threshold. -/
def plenty : List (system ⟨.http, ⟨true⟩⟩).Label :=
  [.start 0 (.createItem { name := "Tea", price := 350, stockQuantity := 12 })] ++
  turns 0 [0, 0, 1, 0, 0, 0]

/-- An adjustment to below its threshold. -/
def spilled : List (system ⟨.http, ⟨true⟩⟩).Label :=
  [.start 1 (.adjustStock 0 { delta := -4, reason := "spilled" })] ++ turns 1 [0, 0, 2, 0, 0, 0, 0]

/-- An item falls below its threshold between two polls: one crossing, and an alert. -/
theorem alerts_explained_spilled : ∃ c₁ c₂,
    SysRun ⟨.http, ⟨true⟩⟩ (ReadsCurrently ⟨.http, ⟨true⟩⟩) Db.empty plenty c₁ ∧
    Run (ReadsCurrently ⟨.http, ⟨true⟩⟩) c₁ spilled c₂ ∧
    Api.lowStockAlerts.on c₁.st.db = .ok [] ∧
    Api.lowStockAlerts.on c₂.st.db = .ok [⟨0, "Tea", 8, 10⟩] ∧
    ∃ ms, c₂.st.db.movements.rows = c₁.st.db.movements.rows ++ ms ∧
      ∀ i, c₂.st.db.items.find? i.id = some i →
        Switched i ((c₁.st.db.items.find? i.id).isNone || Alerted [] i.id)
          (Alerted [⟨0, "Tea", 8, 10⟩] i.id) (crossings i ms) := by
  obtain ⟨c₁, c₂, hrun₁, hrun₂, has₁, has₂⟩ : ∃ c₁ c₂,
      SysRun ⟨.http, ⟨true⟩⟩ (ReadsCurrently ⟨.http, ⟨true⟩⟩) Db.empty plenty c₁ ∧
      Run (ReadsCurrently ⟨.http, ⟨true⟩⟩) c₁ spilled c₂ ∧
      Api.lowStockAlerts.on c₁.st.db = .ok [] ∧
      Api.lowStockAlerts.on c₂.st.db = .ok [⟨0, "Tea", 8, 10⟩] :=
    Run.of_decide₂ (by decide +kernel) (by decide +kernel)
  exact ⟨c₁, c₂, hrun₁, hrun₂, has₁, has₂,
    alerts_explained Db.consistent_empty .empty hrun₁ hrun₂ has₁ has₂⟩

end Nova
