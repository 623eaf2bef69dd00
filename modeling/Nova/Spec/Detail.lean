import Nova.Spec.Refunds

/-!
# The order detail

`GET /orders/{order_id}` reads the order, its item and its movements in three statements,
each of which sees the commits up to its own moment. The movements match the status that
the order has when they are read, which is the last of the three moments. They match the
status in the response exactly if no movement of the order was committed since the order
was read (`detail_consistent`). `detail_torn` is a read around a confirmation.
-/

namespace Nova

open Machine Reports

/-! ## Movements in the log -/

/-- The movement of a row version, if it is one. -/
def Write.movement? : Write → Option StockMovement
  | .movement m => some m
  | .item _ | .order _ => none

/-- The movements among some writes. -/
def movementRows (ws : List Write) : List StockMovement := ws.filterMap Write.movement?

/-- A commit appends its movements to the table. -/
theorem Effect.movements {A : Allow} {d₀ d : Db} {wal : List Commit} {req : Request}
    {read : Option Order} {e : Option Exc} {ws : List Write}
    (h : Effect A d₀ wal d req read e ws) :
    (d.applyAll ws).movements.rows = d.movements.rows ++ movementRows ws := by
  cases h with
  | refused | read | placed | rejected | moved | overwritten => exact (List.append_nil _).symm
  | created _ _ _ _ _ _ _ hfresh => exact Table.rows_upsert_new hfresh
  | adjusted _ hch => exact Table.rows_upsert_new hch.fresh
  | stocked _ _ _ _ hch => exact Table.rows_upsert_new hch.fresh
  | stale _ _ _ _ _ _ hch => exact Table.rows_upsert_new hch.fresh

/-- The table of movements holds those of the log, in commit order. -/
theorem Log.movements {A : Allow} {d : Db} {wal : List Commit} (h : Log A Db.empty wal d) :
    d.movements.rows = wal.flatMap fun c => movementRows c.writes := by
  induction h with
  | nil => rfl
  | snoc _ heff _ ih => rw [heff.movements, ih, List.flatMap_append, List.flatMap_singleton]

/-- Some commit of `wal` writes a movement of the order `id`. -/
def WritesMovement (wal : List Commit) (id : Uuid) : Prop :=
  ∃ c ∈ wal, ∃ m, .movement m ∈ c.writes ∧ m.orderId = some id

/-- What later commits add to the movements of an order. -/
theorem movementsOf_later {A : Allow} {d d' : Db} {wal wal' : List Commit}
    (h : Log A Db.empty wal d) (h' : Log A Db.empty (wal ++ wal') d') (id : Uuid) :
    ∃ ms, d'.movementsOf id = d.movementsOf id ++ ms ∧ (ms = [] ↔ ¬WritesMovement wal' id) := by
  refine ⟨(wal'.flatMap fun c => movementRows c.writes).filter (·.orderId = some id), ?_, ?_⟩
  · rw [Db.movementsOf, Db.movementsOf, h'.movements, h.movements, List.flatMap_append,
      List.filter_append]
  · simp only [List.filter_eq_nil_iff, List.mem_flatMap, movementRows, List.mem_filterMap,
      decide_eq_true_eq, WritesMovement, not_exists, not_and]
    constructor
    · intro hnone c hc m hm
      exact hnone m ⟨c, hc, .movement m, hm, rfl⟩
    · rintro hnone m ⟨c, hc, w, hw, hm⟩
      cases w with
      | movement m' =>
        obtain rfl := Option.some.inj hm
        exact hnone c hc _ hw
      | item | order => cases hm

/-! ## Status and movements of a response -/

/-- The movements that an order of this status and quantity comes with, in any order. -/
def MovementsMatch (status : OrderStatus) (quantity : Int) (ms : List StockMovement) : Prop :=
  match status with
  | .pending | .rejected => ms = []
  | .confirmed | .shipped | .delivered =>
    ∃ m, ms = [m] ∧ m.movementType = .deduction ∧ m.quantityDelta = -quantity
  | .cancelled => ms = [] ∨ ∃ m m', ms.Perm [m, m'] ∧
      m.movementType = .deduction ∧ m.quantityDelta = -quantity ∧
      m'.movementType = .restoration ∧ m'.quantityDelta = quantity

/-- What matches a status does so in any order. -/
theorem MatchesStatus.movementsMatch {o : Order} {ms ms' : List StockMovement}
    (h : MatchesStatus o ms) (hperm : ms'.Perm ms) : MovementsMatch o.status o.quantity ms' := by
  unfold MatchesStatus at h
  unfold MovementsMatch
  cases hs : o.status <;> simp only [hs] at h ⊢
  case pending | rejected => exact (h ▸ hperm).eq_nil
  case confirmed | shipped | delivered =>
    obtain ⟨m, rfl, _, htype, hdelta⟩ := h
    exact ⟨m, List.perm_singleton.mp hperm, htype, hdelta⟩
  case cancelled =>
    rcases h with rfl | ⟨m, m', rfl, ⟨_, htype, hdelta⟩, ⟨_, htype', hdelta'⟩⟩
    · exact Or.inl hperm.eq_nil
    · exact Or.inr ⟨m, m', hperm, htype, hdelta, htype', hdelta'⟩

/-- How many movements there are: a CANCELLED order may have two. -/
theorem MovementsMatch.length {status : OrderStatus} {quantity : Int} {ms : List StockMovement}
    (h : MovementsMatch status quantity ms) :
    (ms.length = if status ∈ OrderStatus.stockHoldingStates then 1 else 0) ∨
      (status = .cancelled ∧ ms.length = 2) := by
  unfold MovementsMatch at h
  cases status <;> simp only at h
  case pending | rejected => exact Or.inl (by simp [h, OrderStatus.stockHoldingStates])
  case confirmed | shipped | delivered =>
    obtain ⟨m, rfl, _⟩ := h
    exact Or.inl (by simp [OrderStatus.stockHoldingStates])
  case cancelled =>
    rcases h with rfl | ⟨m, m', hperm, _⟩
    · exact Or.inl (by simp [OrderStatus.stockHoldingStates])
    · exact Or.inr ⟨rfl, hperm.length_eq⟩

/-! ## The three reads -/

/-- The tables that three statements see. -/
def threeReads (d₁ d₂ d₃ : Db) : Nat → Db
  | 0 => d₁
  | 1 => d₂
  | _ => d₃

/-- The response takes its status from the first read and its movements from the third. -/
theorem getOrder_across {orderId : Uuid} {ds : Nat → Db} {r : OrderDetailResponse}
    (h : (Reports.Api.getOrder orderId).across ds = .ok r) :
    ∃ o, (ds 0).orders.find? orderId = some o ∧ r.status = o.status ∧ r.quantity = o.quantity ∧
      r.movements = ordered (·.createdAt) ((ds 2).movementsOf orderId) := by
  have hrow : (ds 0).select (.order orderId) = (ds 0).orders.find? orderId := rfl
  simp only [Reports.Api.getOrder, Reports.Api.translateNotFound, OrderService.getOrderDetail,
    Reports.OrderRepository.getById, Reports.ItemRepository.getById,
    StockRepository.listMovementsForOrder, Reading.execute, Bind.bind, Reading.bind, Prog.bind,
    Reading.across] at h
  cases hf : (ds 0).orders.find? orderId with
  | none =>
    simp only [hrow, hf, Reading.raise, Prog.bind, Reading.across] at h
    cases h
  | some o =>
    simp only [hrow, hf, Prog.bind, Reading.across, quantizeCents] at h
    refine ⟨o, rfl, ?_⟩
    split at h
    · obtain rfl := Except.ok.inj h
      exact ⟨rfl, rfl, rfl⟩
    · cases h

/-- A serial run goes on from `c`. -/
abbrev serialFrom (cache : CacheService) (c : (system ⟨.http, cache⟩).Config) :
    List (system ⟨.http, cache⟩).Label → (system ⟨.http, cache⟩).Config → Prop :=
  Run (fun c l => True ∧ OneAtATime c l) c

/-- A CANCELLED order gets no more movements. -/
private theorem cancelled_final {d d' : Db} {wal wal' : List Commit} (h : Settled d wal)
    (h' : Settled d' (wal ++ wal')) {id : Uuid} {o : Order} (ho : d.orders.find? id = some o)
    (hstatus : o.status = .cancelled) (hnone : d.movementsOf id = []) : d'.movementsOf id = [] := by
  have hcancelled : CancelledPending wal id := (h id).mpr ⟨o, ho, hstatus, hnone⟩
  have hlater : CancelledPending (wal ++ wal') id := by
    unfold CancelledPending at hcancelled ⊢
    rw [List.any_append, hcancelled, Bool.true_or]
  obtain ⟨_, _, _, hmovements⟩ := (h' id).mp hlater
  exact hmovements

/-- The order is read in `c₁`, its item in `c₂` and its movements in `c₃`. The movements
    always match the order as it is in `c₃`, and they match the status in the response
    exactly if no movement of the order is committed between `c₁` and `c₃`. -/
theorem detail_consistent {cache : CacheService} {ls₁ ls₂ ls₃ : List (system ⟨.http, cache⟩).Label}
    {c₁ c₂ c₃ : (system ⟨.http, cache⟩).Config} (h₁ : serialRequests cache ls₁ c₁)
    (h₂ : serialFrom cache c₁ ls₂ c₂) (h₃ : serialFrom cache c₂ ls₃ c₃) {orderId : Uuid}
    {r : OrderDetailResponse}
    (hr : (Reports.Api.getOrder orderId).across (threeReads c₁.st.db c₂.st.db c₃.st.db) = .ok r) :
    (∃ o, c₃.st.db.orders.find? orderId = some o ∧ MovementsMatch o.status o.quantity r.movements) ∧
      (MovementsMatch r.status r.quantity r.movements ↔
        ¬WritesMovement (c₃.st.wal.drop c₁.st.wal.length) orderId) := by
  have hlog₁ := h₁.log
  have hrun₃ : serialRequests cache (ls₁ ++ ls₂ ++ ls₃) c₃ := (h₁.trans h₂).trans h₃
  have hlog₃ := hrun₃.log
  obtain ⟨wal', hwal⟩ := wal_of_run (h₂.trans h₃)
  rw [← hwal] at hlog₃
  rw [← hwal, List.drop_left]
  have hrecorded₁ := hlog₁.recorded Db.consistent_empty .empty id
  have hrecorded₃ := hlog₃.recorded Db.consistent_empty .empty id
  have hsettled₁ := hlog₁.settled id
  have hsettled₃ := hlog₃.settled id
  obtain ⟨ms, hms, hnone⟩ := movementsOf_later hlog₁ hlog₃ orderId
  obtain ⟨o, ho, hstatus, hquantity, hmovements⟩ := getOrder_across hr
  have hid : o.id = orderId := Table.key_of_find? ho
  have hperm : r.movements.Perm (c₃.st.db.movementsOf orderId) :=
    hmovements ▸ List.perm_insertionSort _ _
  have hmatch₁ : MatchesStatus o (c₁.st.db.movementsOf orderId) :=
    hid ▸ hrecorded₁.movements o (hid.symm ▸ ho)
  constructor
  · obtain ⟨cur, hk⟩ := hlog₃.knownOrder Db.consistent_empty ((hlog₁.known_of_find? ho).append wal')
    have hcur := hk.row
    rw [hid] at hcur
    have hcid : cur.id = orderId := Table.key_of_find? hcur
    have hmatch₃ := hrecorded₃.movements cur (hcid.symm ▸ hcur)
    rw [hcid] at hmatch₃
    exact ⟨cur, hcur, hmatch₃.movementsMatch hperm⟩
  · rw [hstatus, hquantity, ← hnone]
    constructor
    · intro hmatch
      have hlen := hperm.length_eq
      rw [hms, List.length_append] at hlen
      have hbefore := (hmatch₁.movementsMatch (List.Perm.refl _)).length
      have hafter := hmatch.length
      rw [← List.length_eq_zero_iff]
      by_contra hpos
      -- only a CANCELLED order may have two numbers of movements
      have hcancelled : o.status = .cancelled ∧ (c₁.st.db.movementsOf orderId).length = 0 := by
        rcases hbefore with hb | ⟨_, hb⟩ <;> rcases hafter with ha | ⟨hs, ha⟩
        · omega
        · have hzero : (if o.status ∈ OrderStatus.stockHoldingStates then 1 else 0) = 0 := by
            simp [hs, OrderStatus.stockHoldingStates]
          exact ⟨hs, hb.trans hzero⟩
        · split at ha <;> omega
        · omega
      have hfinal := cancelled_final hsettled₁ hsettled₃ ho hcancelled.1
        (List.length_eq_zero_iff.mp hcancelled.2)
      rw [hms, List.append_eq_nil_iff] at hfinal
      exact hpos (List.length_eq_zero_iff.mpr hfinal.2)
    · rintro rfl
      rw [List.append_nil] at hms
      exact hmatch₁.movementsMatch (hms ▸ hperm)

/-- An order of 3 units is placed. -/
def placing : List (system ⟨.http, ⟨false⟩⟩).Label := inTurn [
  (.createItem { name := "Tea", price := 350, stockQuantity := 10 }, [0, 0, 1, 0, 0]),
  (.placeOrder { itemId := 0, quantity := 3 }, [0, 2, 0, 0, 0])]

/-- It is confirmed. -/
def confirming : List (system ⟨.http, ⟨false⟩⟩).Label :=
  .start 2 (.transition .confirm 2) :: turns 2 [0, 0, 0, 3, 0, 0, 0, 0, 0]

/-- It is shipped. -/
def shipping : List (system ⟨.http, ⟨false⟩⟩).Label :=
  .start 3 (.transition .ship 2) :: turns 3 [0, 0, 0, 0, 0]

/-- Status and number of movements of an answer about the order. -/
def outline (c c' : (system ⟨.http, ⟨false⟩⟩).Config) : Option (OrderStatus × Nat) :=
  ((Reports.Api.getOrder 2).across (threeReads c.st.db c.st.db c'.st.db)).toOption.map fun r =>
    (r.status, r.movements.length)

/-- An outline is the outline of an answer. -/
private theorem outline_eq_some {c c' : (system ⟨.http, ⟨false⟩⟩).Config}
    {st : OrderStatus} {n : Nat}
    (h : outline c c' = some (st, n)) :
    ∃ r, (Reports.Api.getOrder 2).across (threeReads c.st.db c.st.db c'.st.db) = .ok r ∧
      r.status = st ∧ r.movements.length = n := by
  unfold outline at h
  cases hr : (Reports.Api.getOrder 2).across (threeReads c.st.db c.st.db c'.st.db) with
  | error e =>
    rw [hr] at h
    cases h
  | ok r =>
    rw [hr] at h
    obtain ⟨hst, hn⟩ := Prod.mk.inj (Option.some.inj h)
    exact ⟨r, rfl, hst, hn⟩

/-- The order is read as CONFIRMED and shipped before its movements are read. -/
theorem detail_consistent_shipped : ∃ c₁ c₃ r, serialRequests ⟨false⟩ (placing ++ confirming) c₁ ∧
    serialFrom ⟨false⟩ c₁ shipping c₃ ∧
    (Reports.Api.getOrder 2).across (threeReads c₁.st.db c₁.st.db c₃.st.db) = .ok r ∧
    r.status = .confirmed ∧ r.movements.length = 1 ∧
    MovementsMatch r.status r.quantity r.movements := by
  obtain ⟨c₁, c₃, h₁, h₃, houtline, hwrites⟩ : ∃ c₁ c₃,
      serialRequests ⟨false⟩ (placing ++ confirming) c₁ ∧ serialFrom ⟨false⟩ c₁ shipping c₃ ∧
      outline c₁ c₃ = some (.confirmed, 1) ∧
      ∀ k ∈ c₃.st.wal.drop c₁.st.wal.length, movementRows k.writes = [] :=
    serialRuns_of_decide₂ (by decide +kernel) (by decide +kernel)
  obtain ⟨r, hr, hstatus, hlen⟩ := outline_eq_some houtline
  refine ⟨c₁, c₃, r, h₁, h₃, hr, hstatus, hlen, (detail_consistent h₁ .nil h₃ hr).2.mpr ?_⟩
  rintro ⟨k, hk, m, hm, _⟩
  have hmem : m ∈ movementRows k.writes := List.mem_filterMap.mpr ⟨_, hm, rfl⟩
  rw [hwrites k hk] at hmem
  cases hmem

/-- The order is read as PENDING and confirmed before its movements are read: the response
    says PENDING and comes with a movement. -/
theorem detail_torn : ¬∀ ls₁ ls₂ ls₃ c₁ c₂ c₃, serialRequests ⟨false⟩ ls₁ c₁ →
    serialFrom ⟨false⟩ c₁ ls₂ c₂ → serialFrom ⟨false⟩ c₂ ls₃ c₃ → ∀ orderId r,
    (Reports.Api.getOrder orderId).across (threeReads c₁.st.db c₂.st.db c₃.st.db) = .ok r →
      MovementsMatch r.status r.quantity r.movements := by
  intro hall
  obtain ⟨c₁, c₃, h₁, h₃, houtline⟩ : ∃ c₁ c₃, serialRequests ⟨false⟩ placing c₁ ∧
      serialFrom ⟨false⟩ c₁ confirming c₃ ∧ outline c₁ c₃ = some (.pending, 1) :=
    serialRuns_of_decide₂ (by decide +kernel) (by decide +kernel)
  obtain ⟨r, hr, hstatus, hlen⟩ := outline_eq_some houtline
  have hbad := hall placing [] confirming c₁ c₁ c₃ h₁ .nil h₃ 2 r hr
  simp only [MovementsMatch, hstatus] at hbad
  rw [hbad] at hlen
  cases hlen

end Nova
