import Mathlib.Data.List.Chain
import Nova.Spec.Ledger

/-!
# The audit trail

Without overwritten quantities the movements of an item form an unbroken chain
from its creation to its current stock (`AuditChain`), even where stale changes
are committed: each change of stock is made under the row lock together with the
movement that records it, so a commit appends to the chain and bumps the version
once (`AuditChain.snoc`).
-/

namespace Nova

/-- The movements of an item, in commit order. -/
def Db.movementsOn (d : Db) (itemId : Uuid) : List StockMovement :=
  d.movements.rows.filter (·.itemId = itemId)

/-- `ms` accounts for the stock and the version of `i`. -/
structure AuditChain (i : MenuItem) (ms : List StockMovement) : Prop where
  first : ∃ m, ms.head? = some m ∧ m.stockBefore = 0 ∧ m.movementType = .adjustment ∧
    m.orderId = none
  adds : ∀ m ∈ ms, m.stockAfter = m.stockBefore + m.quantityDelta
  linked : ms.IsChain fun m m' => m'.stockBefore = m.stockAfter
  last : ∃ m, ms.getLast? = some m ∧ m.stockAfter = i.stockQuantity
  count : i.version = ms.length
  nonneg : ∀ m ∈ ms, 0 ≤ m.stockBefore ∧ 0 ≤ m.stockAfter

/-- Every item has its chain, and no movement is without an item. -/
structure Audited (d : Db) : Prop where
  chain : ∀ i, d.items.find? i.id = some i → AuditChain i (d.movementsOn i.id)
  noItem : ∀ id, d.items.find? id = none → d.movementsOn id = []

/-- The empty tables have an audit trail. -/
theorem Audited.empty : Audited Db.empty where
  chain _ hi := nomatch hi
  noItem _ _ := rfl

/-- The creation of an item starts its chain. -/
theorem AuditChain.created {i : MenuItem} {m : StockMovement}
    (hdelta : m.quantityDelta = i.stockQuantity)
    (hbefore : m.stockBefore = 0) (hafter : m.stockAfter = i.stockQuantity)
    (htype : m.movementType = .adjustment) (horderId : m.orderId = none)
    (hversion : i.version = 1) :
    AuditChain i [m] where
  first := ⟨m, rfl, hbefore, htype, horderId⟩
  adds m' hm' := by
    obtain rfl := List.mem_singleton.mp hm'
    omega
  linked := .singleton m
  last := ⟨m, rfl, hafter⟩
  count := by simpa using hversion
  nonneg m' hm' := by
    obtain rfl := List.mem_singleton.mp hm'
    have hstock := i.ckStockNonNegative
    omega

/-- A change of stock extends the chain. -/
theorem AuditChain.snoc {d : Db} {i i' : MenuItem} {m : StockMovement} {delta : Int}
    {type : MovementType} {orderId : Option Uuid} {ms : List StockMovement} (h : AuditChain i ms)
    (hch : StockChange d i i' m delta type orderId) : AuditChain i' (ms ++ [m]) where
  first := by
    obtain ⟨m₀, hhead, hm₀⟩ := h.first
    refine ⟨m₀, ?_, hm₀⟩
    rw [List.head?_append, hhead]
    rfl
  adds m' hm' := by
    rcases List.mem_append.mp hm' with hold | hnew
    · exact h.adds m' hold
    · obtain rfl := List.mem_singleton.mp hnew
      rw [hch.stockAfter, hch.stockBefore, hch.quantityDelta]
  linked := by
    -- `m` starts from where the last movement left the stock
    obtain ⟨m₁, hlast, hm₁⟩ := h.last
    refine List.isChain_append.mpr ⟨h.linked, .singleton m, ?_⟩
    intro a ha b hb
    obtain rfl : m₁ = a := by
      rw [hlast] at ha
      exact Option.some.inj ha
    obtain rfl : m = b := Option.some.inj hb
    rw [hch.stockBefore, hm₁]
  last := ⟨m, by simp, by rw [hch.stockAfter, hch.stock]⟩
  count := by
    rw [hch.version, h.count, List.length_append]
    rfl
  nonneg m' hm' := by
    rcases List.mem_append.mp hm' with hold | hnew
    · exact h.nonneg m' hold
    · obtain rfl := List.mem_singleton.mp hnew
      have hbefore := i.ckStockNonNegative
      have hafter := i'.ckStockNonNegative
      rw [hch.stockBefore, hch.stockAfter, ← hch.stock]
      exact ⟨hbefore, hafter⟩

/-! ## One commit -/

section

variable {d : Db} {id : Uuid}

/-- A new movement comes last in its item's trail and in no other. -/
theorem Db.movementsOn_apply_movement {m : StockMovement} (h : d.movements.find? m.id = none) :
    (d.apply (.movement m)).movementsOn id =
      d.movementsOn id ++ if m.itemId = id then [m] else [] := by
  simp only [Db.movementsOn, Db.apply, Table.rows_upsert_new h, List.filter_append]
  split <;> simp_all

/-- An item's row is no movement. -/
@[simp] theorem Db.movementsOn_apply_item (i : MenuItem) :
    (d.apply (.item i)).movementsOn id = d.movementsOn id := rfl

/-- An order's row is no movement. -/
@[simp] theorem Db.movementsOn_apply_order (o : Order) :
    (d.apply (.order o)).movementsOn id = d.movementsOn id := rfl

end

/-- An order's row does not touch the trails. -/
theorem Audited.order {d : Db} (h : Audited d) (o : Order) : Audited (d.apply (.order o)) :=
  ⟨h.chain, h.noItem⟩

/-- A commit that writes a row of an item together with a movement on it. -/
private theorem audited_item {d : Db} (h : Audited d) {i : MenuItem} {m : StockMovement}
    (hfresh : d.movements.find? m.id = none) (hitemId : m.itemId = i.id)
    (hchain : AuditChain i (d.movementsOn i.id ++ [m])) :
    Audited ((d.apply (.item i)).apply (.movement m)) := by
  have hfresh' : (d.apply (.item i)).movements.find? m.id = none := hfresh
  -- the movement is the item's last, and no other item has a new one
  have hmovements : ∀ id, ((d.apply (.item i)).apply (.movement m)).movementsOn id =
      d.movementsOn id ++ if i.id = id then [m] else [] := by
    intro id
    rw [Db.movementsOn_apply_movement hfresh', hitemId]
    rfl
  -- the row is the item's, and no other item has a new one
  have hitems : ∀ id, ((d.apply (.item i)).apply (.movement m)).items.find? id =
      if id = i.id then some i else d.items.find? id := fun id => Table.find?_upsert d.items i id
  constructor
  · intro j hj
    rw [hitems] at hj
    rw [hmovements]
    split at hj
    · -- the item that has changed
      obtain rfl := Option.some.inj hj
      simpa using hchain
    · rename_i hne
      -- the others have their movements as before
      simpa [Ne.symm hne] using h.chain j hj
  · intro id hid
    rw [hitems] at hid
    rw [hmovements]
    split at hid
    · cases hid
    · rename_i hne
      simpa [Ne.symm hne] using h.noItem id hid

/-- A change of stock keeps every chain. -/
private theorem audited_change {d : Db} (h : Audited d) {i i' : MenuItem} {m : StockMovement}
    {delta : Int} {type : MovementType} {orderId : Option Uuid}
    (hch : StockChange d i i' m delta type orderId) :
    Audited ((d.apply (.item i')).apply (.movement m)) := by
  have hid : i'.id = i.id := by rw [hch.next]
  refine audited_item h hch.fresh (hch.itemId.trans hid.symm) ?_
  rw [hid]
  exact (h.chain i hch.row).snoc hch

/-- One commit keeps every chain, where no stock read overwrites a row. -/
private theorem audited_step {A : Allow} {d₀ d : Db} {wal : List Commit} {req : Request}
    {read : Option Order} {e : Option Exc} {ws : List Write} (hover : ¬A.overwrite)
    (h : Audited d) (heff : Effect A d₀ wal d req read e ws) : Audited (d.applyAll ws) := by
  cases heff with
  | refused => exact h
  | read => exact h
  | overwritten ho => exact absurd ho hover
  | created hnew _ _ _ hstock _ hversion hfresh hitemId hdelta hbefore hafter htype horderId =>
    refine audited_item h hfresh hitemId ?_
    rw [h.noItem _ hnew]
    exact .created (hdelta.trans hstock.symm) hbefore (hafter.trans hstock.symm) htype horderId
      hversion
  | adjusted _ hch => exact audited_change h hch
  | placed => exact h.order _
  | rejected => exact h.order _
  | stocked _ _ _ _ hch => exact (audited_change h hch).order _
  | moved => exact h.order _
  | stale _ _ _ _ _ _ hch => exact audited_change h hch

/-- Every sequence of commits without overwritten quantities keeps every chain. -/
theorem Log.audited {A : Allow} {d₀ d : Db} {wal : List Commit} (h : Log A d₀ wal d)
    (haudited : Audited d₀) (hover : ¬A.overwrite) : Audited d := by
  induction h with
  | nil => exact haudited
  | snoc _ heff _ ih => exact audited_step hover ih heff

end Nova
