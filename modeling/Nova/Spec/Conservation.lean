import Nova.Spec.Ledger
import Nova.Spec.Runs

/-!
# Conservation of stock

Two systems keep the ledger in every run. Under the session of the race tests,
which rolls back on any exception, all interleavings do (`service_conserved`). Under
`get_db`, which commits on `HTTPException`, those runs do in which no transaction
that has already changed the stock finds the order's version changed
(`http_conserved`); `http_race` is a run in which one does, and the units of one
order are deducted twice.
-/

namespace Nova

open Machine

/-- What the committed tables say about the stock of every item and the movements of
    every order. -/
structure Conserved (d : Db) : Prop where
  stock : ∀ i ∈ d.items.rows, i.stockQuantity = d.adjusted i.id - d.held i.id
  movements : ∀ o ∈ d.orders.rows, MatchesStatus o (d.movementsOf o.id)
  held : ∀ i ∈ d.items.rows, d.held i.id ≤ d.adjusted i.id

/-- The ledger is the claim of conservation and more. -/
theorem Ledger.conserved {d : Db} (h : Ledger d) : Conserved d where
  stock i hi := by
    have hstock := h.stock i.id
    rwa [Db.stock_of_find? (Table.find?_of_mem hi)] at hstock
  movements o ho := h.movements o (Table.find?_of_mem ho)
  held i _ := h.held_le i.id

/-- What the runs below are evaluated to: the stock of item 0, its adjustments, its
    held units and the number of movements of an order. -/
def figures (orderId : Uuid) (d : Db) : Int × Int × Int × Nat :=
  (d.stock 0, d.adjusted 0, d.held 0, (d.movementsOf orderId).length)

/-! ## Rollback on every exception -/

/-- Writers under the session of the race tests. -/
abbrev serviceRuns (cache : CacheService) :
    List (system ⟨.service, cache⟩).Label → (system ⟨.service, cache⟩).Config → Prop :=
  SysRun ⟨.service, cache⟩ (fun _ l => Starts (·.isRead = false) l) Db.empty

/-- Whatever the interleaving, stock is conserved when errors roll back. -/
theorem service_conserved {cache : CacheService} {ls : List (system ⟨.service, cache⟩).Label}
    {c : (system ⟨.service, cache⟩).Config} (hrun : serviceRuns cache ls c) :
    Conserved c.st.db := by
  have hrun' := (SysRun.serves (fun _ _ hl => hl) hrun).1
  have hlog := log_of_run (A := ⟨False, False, False⟩) Db.consistent_empty (by simp)
    (fun c l hl => .of_all (fun e t o =>
      ⟨Or.inr (Or.inl rfl), Or.inr (Or.inr (currentRead_of_serves hl.2 e t o))⟩) l) hrun'
  exact (hlog.ledger Db.consistent_empty .empty id id).conserved

/-- Two concurrent cancellations of a confirmed order: one restores the units, the
    other finds the order's version changed and is rolled back. -/
def serviceRace : List (system ⟨.service, ⟨true⟩⟩).Label :=
  [.start 0 (.createItem { name := "Tea", price := 350, stockQuantity := 10 })] ++
  turns 0 [0, 0, 1, 0, 0] ++
  [.start 1 (.placeOrder { itemId := 0, quantity := 3 })] ++ turns 1 [0, 2, 0, 0] ++
  [.start 2 (.transition .confirm 2)] ++ turns 2 [0, 0, 0, 3, 0, 0, 0, 0, 0] ++
  [.start 3 (.transition .cancel 2), .start 4 (.transition .cancel 2)] ++
  turns 3 [0] ++ turns 4 [0] ++ turns 3 [0, 0, 4, 0, 0, 0, 0, 0] ++ turns 4 [0, 0, 5, 0, 0, 0, 0]

/-- Two cancellations of one order overlap. -/
theorem service_conserved_race : ∃ c, serviceRuns ⟨true⟩ serviceRace c ∧
    figures 2 c.st.db = (10, 10, 0, 2) ∧ Conserved c.st.db := by
  obtain ⟨c, hrun, hval⟩ : ∃ c, serviceRuns ⟨true⟩ serviceRace c ∧
      figures 2 c.st.db = (10, 10, 0, 2) :=
    Run.of_eval (fun c : (system ⟨.service, ⟨true⟩⟩).Config => figures 2 c.st.db)
      (by decide +kernel) (by decide +kernel)
  exact ⟨c, hrun, hval, service_conserved hrun⟩

/-! ## Commit on `HTTPException` -/

/-- Two concurrent confirmations of one order. The second waits for the item lock,
    deducts the units once more and finds the order's version changed: it answers
    409 and `get_db` commits the deduction. -/
def httpRace : List (system ⟨.http, ⟨false⟩⟩).Label :=
  [.start 0 (.createItem { name := "Tea", price := 350, stockQuantity := 10 })] ++
  turns 0 [0, 0, 1, 0, 0] ++
  [.start 1 (.placeOrder { itemId := 0, quantity := 3 })] ++ turns 1 [0, 2, 0, 0, 0] ++
  [.start 2 (.transition .confirm 2), .start 3 (.transition .confirm 2)] ++
  turns 2 [0] ++ turns 3 [0] ++ turns 2 [0, 0, 3, 0, 0, 0, 0, 0] ++ turns 3 [0, 0, 4, 0, 0, 0, 0]

/-- In some interleaving of writers the units of one order are deducted twice. -/
theorem http_race : ¬∀ ls c,
    SysRun ⟨.http, ⟨false⟩⟩ (fun _ l => Starts (·.isRead = false) l) Db.empty ls c →
      Conserved c.st.db := by
  intro hall
  obtain ⟨c, hrun, hval⟩ : ∃ c,
      SysRun ⟨.http, ⟨false⟩⟩ (fun _ l => Starts (·.isRead = false) l) Db.empty httpRace c ∧
        (c.st.db.items.rows.map (·.id), figures 2 c.st.db) = ([0], 4, 10, 3, 2) :=
    Run.of_eval (fun c : (system ⟨.http, ⟨false⟩⟩).Config =>
      (c.st.db.items.rows.map (·.id), figures 2 c.st.db)) (by decide +kernel) (by decide +kernel)
  have hstock := (hall _ c hrun).stock
  simp only [figures, Prod.mk.injEq] at hval
  obtain ⟨i, hi, hid⟩ : ∃ i ∈ c.st.db.items.rows, i.id = 0 := by
    have hmem : 0 ∈ c.st.db.items.rows.map (·.id) := by simp [hval.1]
    exact List.mem_map.mp hmem
  have hrow := Db.stock_of_find? (Table.find?_of_mem hi)
  have hsum := hstock i hi
  rw [hid] at hrow hsum
  omega

/-- Runs in which no transaction that has written something finds, at its optimistic
    check, that the order's version has changed. -/
abbrev currentRuns (cfg : Config) : List (system cfg).Label → (system cfg).Config → Prop :=
  SysRun cfg (OnCall fun e t o s => CurrentCheck e t o s = true) Db.empty

/-- Those runs of the HTTP layer conserve stock. -/
theorem http_conserved {ls : List (system ⟨.http, ⟨false⟩⟩).Label}
    {c : (system ⟨.http, ⟨false⟩⟩).Config} (hrun : currentRuns ⟨.http, ⟨false⟩⟩ ls c) :
    Conserved c.st.db := by
  have hlog := log_of_run (A := ⟨True, False, False⟩) Db.consistent_empty (fun _ => trivial)
    (fun c l hl => hl.mono fun _ _ _ _ hcheck =>
      ⟨Or.inr (Or.inr hcheck), Or.inr (Or.inl rfl)⟩) hrun
  exact (hlog.ledger Db.consistent_empty .empty id id).conserved

/-- Two confirmations of one order, of which the second reads the order too late to
    confirm it again. -/
def httpSerial : List (system ⟨.http, ⟨false⟩⟩).Label :=
  [.start 0 (.createItem { name := "Tea", price := 350, stockQuantity := 10 })] ++
  turns 0 [0, 0, 1, 0, 0] ++
  [.start 1 (.placeOrder { itemId := 0, quantity := 3 })] ++ turns 1 [0, 2, 0, 0, 0] ++
  [.start 2 (.transition .confirm 2), .start 3 (.transition .confirm 2)] ++
  turns 2 [0, 0, 0, 3, 0, 0, 0, 0, 0] ++ turns 3 [0, 0, 0]

/-- Two confirmations of one order, the second refused with 422. -/
theorem http_conserved_serial : ∃ c, currentRuns ⟨.http, ⟨false⟩⟩ httpSerial c ∧
    figures 2 c.st.db = (7, 10, 3, 1) ∧ Conserved c.st.db := by
  obtain ⟨c, hrun, hval⟩ : ∃ c, currentRuns ⟨.http, ⟨false⟩⟩ httpSerial c ∧
      figures 2 c.st.db = (7, 10, 3, 1) :=
    Run.of_eval (fun c : (system ⟨.http, ⟨false⟩⟩).Config => figures 2 c.st.db)
      (by decide +kernel) (by decide +kernel)
  exact ⟨c, hrun, hval, http_conserved hrun⟩

end Nova
