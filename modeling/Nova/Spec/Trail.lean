import Nova.App.Reports
import Nova.Spec.Audit
import Nova.Spec.Runs

/-!
# The movements endpoint

`GET /stock/{item_id}/movements` returns the newest 100 movements of the item. With their
timestamps increasing in commit order that is the whole trail, newest first, from which
the stock can be replayed (`AuditChain.replays`), exactly for the items that have no more
than 100 movements (`full_trail`). `trail_truncated` is a history of 101.
-/

namespace Nova

open Machine

/-! ## Replaying a trail -/

/-- Adding the deltas of `ms`, oldest first, to the quantity `q` gives the stock before
    and after each movement, and `final` in the end. -/
def Replays (q : Int) : List StockMovement → Int → Prop
  | [], final => q = final
  | m :: ms, final => m.stockBefore = q ∧ m.stockAfter = q + m.quantityDelta ∧
      Replays (q + m.quantityDelta) ms final

/-- A chain of movements can be replayed. -/
private theorem replays_chain {ms : List StockMovement} {m : StockMovement} {final : Int}
    (hadds : ∀ m' ∈ m :: ms, m'.stockAfter = m'.stockBefore + m'.quantityDelta)
    (hlinked : (m :: ms).IsChain fun a b => b.stockBefore = a.stockAfter)
    (hlast : ∃ l, (m :: ms).getLast? = some l ∧ l.stockAfter = final) :
    Replays m.stockBefore (m :: ms) final := by
  have hm := hadds m List.mem_cons_self
  refine ⟨rfl, hm, ?_⟩
  rw [← hm]
  induction ms generalizing m with
  | nil =>
    obtain ⟨l, hl, hfinal⟩ := hlast
    obtain rfl : m = l := by simpa using hl
    exact hfinal
  | cons m' ms ih =>
    -- the replay of the rest starts where `m` left the stock
    have hnext := List.isChain_cons_cons.mp hlinked
    have hadds' : ∀ b ∈ m' :: ms, b.stockAfter = b.stockBefore + b.quantityDelta :=
      fun b hb => hadds b (List.mem_cons_of_mem _ hb)
    have hm' := hadds' m' List.mem_cons_self
    refine ⟨hnext.1, by rw [← hnext.1]; exact hm', ?_⟩
    rw [← hnext.1, ← hm']
    refine ih hadds' hnext.2 ?_ hm'
    obtain ⟨l, hl, hfinal⟩ := hlast
    exact ⟨l, by simpa using hl, hfinal⟩

/-- An audit trail replays from 0 to the stock. -/
theorem AuditChain.replays {i : MenuItem} {ms : List StockMovement} (h : AuditChain i ms) :
    Replays 0 ms i.stockQuantity := by
  obtain ⟨m, hhead, hzero, _⟩ := h.first
  cases ms with
  | nil => cases hhead
  | cons m' ms =>
    obtain rfl := Option.some.inj hhead
    rw [← hzero]
    exact replays_chain h.adds h.linked h.last

/-! ## The endpoint -/

/-- Strictly increasing keys are put in reverse order by `ORDER BY key DESC`. -/
theorem orderedDesc_of_increasing {α : Type} {key : α → Int} {rows : List α}
    (h : rows.Pairwise fun a b => key a < key b) : orderedDesc key rows = rows.reverse := by
  unfold orderedDesc
  induction rows with
  | nil => rfl
  | cons a rows ih =>
    obtain ⟨ha, hrows⟩ := List.pairwise_cons.mp h
    rw [List.insertionSort_cons, ih hrows, List.reverse_cons]
    -- the oldest row is inserted behind all others
    have hlast : ∀ l : List α, (∀ b ∈ l, key a < key b) →
        l.orderedInsert (fun a b => key b ≤ key a) a = l ++ [a] := by
      intro l hl
      induction l with
      | nil => rfl
      | cons b l ihl =>
        have hb : ¬key b ≤ key a := not_le.mpr (hl b List.mem_cons_self)
        rw [List.orderedInsert_cons, if_neg hb, ihl fun c hc => hl c (List.mem_cons_of_mem _ hc)]
        rfl
    exact hlast _ fun b hb => ha b (List.mem_reverse.mp hb)

/-- `ms` is the full trail of the item: each of its movements once, newest first, and it
    replays to the current stock. -/
structure FullTrail (d : Db) (i : MenuItem) (ms : List StockMovement) : Prop where
  all : ms.Perm (d.movementsOn i.id)
  newestFirst : ms.Pairwise fun m m' => m'.createdAt < m.createdAt
  replays : Replays 0 ms.reverse i.stockQuantity

/-- The endpoint answers with the newest 100 movements of an item. -/
theorem getMovements_on {d : Db} {i : MenuItem} (hi : i ∈ d.items.rows) :
    (Reports.Api.getMovements i.id).on d =
      .ok ((orderedDesc (·.createdAt) (d.movementsOn i.id)).take 100) := by
  refine Reports.Api.on_translateNotFound ?_
  have hrow : d.select (.item i.id) = some i := Table.find?_of_mem hi
  unfold Reports.StockService.getMovements Reports.ItemRepository.getById
  rw [Reading.on_execute_bind (.item _), hrow]
  rfl

/-- The endpoint returns the full trail. -/
def ReturnsTrail (d : Db) (i : MenuItem) : Prop :=
  ∃ ms, (Reports.Api.getMovements i.id).on d = .ok ms ∧ FullTrail d i ms

/-- It never returns more than 100 movements. -/
theorem ReturnsTrail.length_le {d : Db} {i : MenuItem} (hi : i ∈ d.items.rows)
    (h : ReturnsTrail d i) : (d.movementsOn i.id).length ≤ 100 := by
  obtain ⟨ms, hms, htrail⟩ := h
  rw [getMovements_on hi] at hms
  obtain rfl := Except.ok.inj hms
  rw [← htrail.all.length_eq, List.length_take]
  exact min_le_left _ _

/-- Requests of any kind, through the HTTP layer and without a cache. -/
abbrev uncachedRuns : List (system ⟨.http, ⟨false⟩⟩).Label →
    (system ⟨.http, ⟨false⟩⟩).Config → Prop :=
  SysRun ⟨.http, ⟨false⟩⟩ (fun _ _ => True) Db.empty

/-- After any history, an item whose movements have increasing timestamps gets its full
    trail exactly if it has no more than 100 movements. -/
theorem full_trail {ls : List (system ⟨.http, ⟨false⟩⟩).Label}
    {c : (system ⟨.http, ⟨false⟩⟩).Config}
    (hrun : uncachedRuns ls c) {i : MenuItem} (hi : i ∈ c.st.db.items.rows)
    (htimes : (c.st.db.movementsOn i.id).Pairwise fun m m' => m.createdAt < m'.createdAt) :
    ReturnsTrail c.st.db i ↔ (c.st.db.movementsOn i.id).length ≤ 100 := by
  refine ⟨fun h => h.length_le hi, fun hlen => ?_⟩
  have hlog := log_of_run (A := ⟨True, True, False⟩) Db.consistent_empty (fun _ => trivial)
    (fun c l _ => .of_all (fun _ _ _ => ⟨Or.inl trivial, Or.inr (Or.inl rfl)⟩) l) hrun
  have hchain := (hlog.audited .empty id).chain i (Table.find?_of_mem hi)
  refine ⟨(c.st.db.movementsOn i.id).reverse, ?_, List.reverse_perm _, ?_, ?_⟩
  · rw [getMovements_on hi, orderedDesc_of_increasing htimes, List.take_of_length_le]
    rwa [List.length_reverse]
  · exact List.pairwise_reverse.mpr htimes
  · rw [List.reverse_reverse]
    exact hchain.replays

/-- The creation of an item and `n` adjustments by one, one time unit apart. -/
def counting (n : Nat) : List (system ⟨.http, ⟨false⟩⟩).Label :=
  .start 0 (.createItem { name := "Tea", price := 350, stockQuantity := 10 }) ::
    turns 0 [0, 0, 1, 0, 0] ++
  (List.range n).flatMap fun k =>
    .start (k + 1) (.adjustStock 0 { delta := 1, reason := "counted" }) ::
      List.replicate 6 (.step (k + 1) { uuid := k + 2, now := k + 1 })

/-- Item 0 exists and has `n` movements with increasing timestamps. -/
def Counted (n : Nat) (d : Db) : Prop :=
  (∃ i ∈ d.items.rows, i.id = 0) ∧ (d.movementsOn 0).length = n ∧
    (d.movementsOn 0).Pairwise fun m m' => m.createdAt < m'.createdAt

instance (n : Nat) (d : Db) : Decidable (Counted n d) :=
  inferInstanceAs (Decidable (_ ∧ _ ∧ _))

/-- To exhibit such a run, decide where its schedule leads. -/
private theorem counted_of_decide {n k : Nat}
    (h : (((system ⟨.http, ⟨false⟩⟩).idle (Sys.init Db.empty)).run (counting n)).any
      (fun c => decide (Counted k c.st.db)) = true) :
    ∃ c, uncachedRuns (counting n) c ∧ ∃ i ∈ c.st.db.items.rows,
      (c.st.db.movementsOn i.id).length = k ∧
      (c.st.db.movementsOn i.id).Pairwise fun m m' => m.createdAt < m'.createdAt := by
  obtain ⟨c, hc, hcounted⟩ := (Option.any_eq_true _ _).mp h
  obtain ⟨⟨i, hi, hid⟩, hlen, htimes⟩ := of_decide_eq_true hcounted
  exact ⟨c, .of_run hc (Config.allows_of_forall fun _ _ => trivial), i, hi, hid ▸ hlen,
    hid ▸ htimes⟩

/-- Three movements are a full trail. -/
theorem full_trail_counting : ∃ c, uncachedRuns (counting 2) c ∧ ∃ i ∈ c.st.db.items.rows,
    (c.st.db.movementsOn i.id).length = 3 ∧ ReturnsTrail c.st.db i := by
  obtain ⟨c, hrun, i, hi, hlen, htimes⟩ := counted_of_decide (n := 2) (k := 3) (by decide +kernel)
  exact ⟨c, hrun, i, hi, hlen, (full_trail hrun hi htimes).mpr (by omega)⟩

/-- After 100 adjustments the item has 101 movements, and the oldest is not returned. -/
theorem trail_truncated : ¬∀ ls c, uncachedRuns ls c → ∀ i ∈ c.st.db.items.rows,
    ((c.st.db.movementsOn i.id).Pairwise fun m m' => m.createdAt < m'.createdAt) →
      ReturnsTrail c.st.db i := by
  intro hall
  obtain ⟨c, hrun, i, hi, hlen, htimes⟩ :=
    counted_of_decide (n := 100) (k := 101) (by decide +kernel)
  have hshort := (hall _ c hrun i hi htimes).length_le hi
  omega

end Nova
