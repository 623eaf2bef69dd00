import Nova.Spec.LifeCycle
import Nova.Spec.Overflow
import Nova.Spec.Serial

/-!
# Cancelling an order that holds stock

A cancel that runs alone restores the stock of a CONFIRMED or SHIPPED order exactly when
the restored quantity and the next version of the item fit their `INTEGER` columns
(`held_cancels`). No other obstacle is left: the order and its item exist, nobody holds a
lock at rest, and the order's own version is at most 3. `cancelOrder` has no guard of its
own for the upper bound, and `adjustStock` only one for the lower.
-/

namespace Nova

open Machine
open Coro (raise attempt await)

/-! ## The property -/

/-- The cancel of `o` by request `t` took the tables from `d` to those of `s`. -/
structure Cancelled (d : Db) (t : TxId) (o : Order) (s : Sys) : Prop where
  order : ∃ x o', s.txs t = some x ∧ x.response = some (.success 200 (.order o')) ∧
    s.db.orders.find? o.id = some o' ∧ o'.status = .cancelled ∧ o'.version = o.version + 1
  stock : ∃ i i', d.items.find? o.itemId = some i ∧ s.db.items.find? o.itemId = some i' ∧
    i'.stockQuantity = i.stockQuantity + o.quantity
  movement : ∃ m, s.db.movements.rows = d.movements.rows ++ [m] ∧
    m.movementType = .restoration ∧ m.orderId = some o.id ∧ m.itemId = o.itemId ∧
    m.quantityDelta = o.quantity

section

variable {cfg : Config} {c : (system cfg).Config} {t : TxId} {o : Order}

/-- A cancel of `o`, started in `c` and run alone to its end. -/
def CancelAlone (c : (system cfg).Config) (t : TxId) (o : Order) (ls : List (system cfg).Label)
    (c' : (system cfg).Config) : Prop :=
  ∃ c₁, c.next (.start t (.transition .cancel o.id)) = some c₁ ∧
    Run (Alone Ranged t) c₁ ls c' ∧ Ends c' t

/-- A cancel of `o` that runs alone comes to its end, and then has succeeded. -/
def Cancels (c : (system cfg).Config) (t : TxId) (o : Order) : Prop :=
  (∃ ls c', CancelAlone c t o ls c') ∧
    ∀ ls c', CancelAlone c t o ls c' → Cancelled c.st.db t o c'.st

end

/-! ## The session, alone -/

section

variable {cfg : Config} {t : TxId} {ss : Session} {s : Sys} {d : Db} {ws : List Write}
  {res : Option Response}

/-- A statement that stores nothing and has only one outcome. -/
private theorem solo_plain {o : Stmt} {a : o.Val} (s₁ : Sys)
    {Q : Except Exc o.Val → Session → Sys → Prop} (hfits : ∀ d, o.Fits d)
    (hexec : ∀ e : Env, e.fault = none → exec e t o s = some (.ok a, s₁))
    (hQ : Q (.ok a) ss s₁) : Coro.Solo cfg t (await o) ss Q s := by
  -- a statement that stores no INTEGER overflows nowhere, so only the environment could fail it
  have hfits : s.overflows t o = false := by
    unfold Sys.overflows
    cases s.txs t <;> simp [hfits]
  constructor
  · have hranged : Ranged {} t o s := by simp [Ranged, hfits]
    exact ⟨{}, .ok a, s₁, hranged, hexec {} rfl⟩
  · intro e r s' hranged hrun
    have hfault : e.fault = none := by simpa [Ranged, hfits] using hranged
    have hrun' : exec e t o s = some (r, s') := hrun
    rw [hexec e hfault] at hrun'
    obtain ⟨rfl, rfl⟩ := Prod.mk.inj (Option.some.inj hrun')
    exact hQ

/-- A `ROLLBACK` and the sending of a response are possible after a failure too. -/
theorem solo_rollback {Q : Except Exc Unit → Session → Sys → Prop}
    (hx : ∃ x, s.txs t = some x)
    (hQ : ∀ s', s'.db = s.db → (∃ x, s'.txs t = some x) → Q (.ok ()) ⟨[]⟩ s') :
    Coro.Solo cfg t Session.rollback ss Q s := by
  obtain ⟨x, hx⟩ := hx
  unfold Session.rollback
  rw [solo_then]
  refine solo_plain (a := ()) (s.rollback t x) (fun _ => .of_nil rfl rfl rfl) (fun e he => ?_) ?_
  · simp [exec, hx, he, Stmt.isSql, Sys.run]
  · exact hQ _ rfl ⟨_, Sys.setTx_txs_self _⟩

/-- Sending a response changes no table. -/
theorem solo_respondError {r : Response} {Q : Except Exc Unit → Session → Sys → Prop}
    (hx : ∃ x, s.txs t = some x) (hQ : ∀ s', s'.db = s.db → Q (.ok ()) ss s') :
    Coro.Solo cfg t (await (.respond r)) ss Q s := by
  obtain ⟨x, hx⟩ := hx
  refine solo_plain (a := ()) (s.setTx t { x with response := some r })
    (fun _ => .of_nil rfl rfl rfl) (fun e he => ?_) ?_
  · simp [exec, hx, he, Stmt.isSql, Sys.run]
  · exact hQ _ rfl

/-- An assignment makes the item dirty: its version at least has changed. -/
theorem solo_assign {i : MenuItem} {q : Int} {Q : Except Exc ItemObj → Session → Sys → Prop}
    (hQ : Q (.ok ⟨i, q, i.version + 1⟩) ⟨[(i.id, ItemObj.change ⟨i, q, i.version + 1⟩)]⟩ s) :
    Coro.Solo cfg t (Session.assign (.ofRow i) q (i.version + 1)) ⟨[]⟩ Q s := by
  unfold Coro.Solo
  rw [Session.assign_next]
  exact hQ

/-- A clean session has nothing to flush. -/
theorem solo_flush_clean {Q : Except Exc Unit → Session → Sys → Prop} :
    Coro.Solo cfg t Session.flush {} Q s ↔ Q (.ok ()) {} s := Iff.rfl

/-- A flush of one dirty object is its `UPDATE`. -/
theorem solo_flush_one {id : Uuid} {c : ItemChange} {Q : Except Exc Unit → Session → Sys → Prop}
    (h : Coro.Solo cfg t (await (.updateItem id c)) ⟨[]⟩ Q s) :
    Coro.Solo cfg t Session.flush ⟨[(id, c)]⟩ Q s := by
  unfold Coro.Solo
  rw [Session.flush_one]
  exact h

/-- `set_stock` changes no table, whatever Redis does. -/
theorem solo_setStock {cache : CacheService} {id : Uuid} {q : Int}
    {Q : Except Exc Unit → Session → Sys → Prop} (h : Solitary t d ws res s)
    (hQ : ∀ s', Solitary t d ws res s' → Q (.ok ()) ss s') :
    Coro.Solo cfg t (cache.setStock id q) ss Q s := by
  unfold CacheService.setStock
  split
  · rw [solo_then, solo_attempt]
    exact solo_redisSetex h fun s' h' => hQ s' h'
  · exact hQ s h

/-- `save` reads the row back that the flush wrote. -/
theorem solo_save {item : ItemObj} {row : MenuItem}
    {Q : Except Exc ItemObj → Session → Sys → Prop} (h : Solitary t d ws res s)
    (hrow : (d.applyAll ws).items.find? item.id = some row)
    (hQ : ∀ s', Solitary t d ws res s' → Q (.ok (.ofRow row)) ⟨[]⟩ s') :
    Coro.Solo cfg t (ItemRepository.save item) ⟨[]⟩ Q s := by
  show Coro.Solo cfg t (ItemRepository.refresh item.id) ⟨[]⟩ Q s
  unfold ItemRepository.refresh
  rw [solo_then]
  refine solo_selectItem h fun s' h' => ?_
  rw [hrow]
  exact hQ s' h'

end

/-! ## The cancel, alone -/

section

variable {cfg : Config} {t : TxId} {s : Sys} {d : Db} {o : Order} {i : MenuItem}

/-- The two values that the cancel adds to. -/
def RestoreFits (o : Order) (i : MenuItem) : Prop :=
  Int32 (i.stockQuantity + o.quantity) ∧ Int32 (i.version + 1)

/-- The movement that records it. -/
def restoration (o : Order) (i : MenuItem) : NewMovement where
  itemId := i.id
  orderId := some o.id
  movementType := .restoration
  quantityDelta := o.quantity
  stockBefore := i.stockQuantity
  stockAfter := i.stockQuantity + o.quantity
  reason := some s!"Stock restored on cancellation of order {o.id}"

/-- The `if should_restore` block. -/
theorem restoreStock_solo {Q : Except Exc Unit → Session → Sys → Prop} {cache : CacheService}
    (h : Solitary t d [] none s) (ho : d.orders.find? o.id = some o)
    (hi : d.items.find? o.itemId = some i)
    (hdone : RestoreFits o i → ∀ e i' s', i'.id = i.id →
      i'.stockQuantity = i.stockQuantity + o.quantity → d.movements.find? e.uuid = none →
      Solitary t d [.item i', .movement ((restoration o i).row e)] none s' → Q (.ok ()) {} s')
    (hover : ¬RestoreFits o i → ∀ s', s'.db = d → (∃ x, s'.txs t = some x) →
      Q (.error (.failure .dbapiError)) {} s') :
    Coro.Solo cfg t (OrderService.restoreStock cache o) {} Q s := by
  have hid : i.id = o.itemId := Table.key_of_find? hi
  have hself : d.items.find? i.id = some i := by rw [hid]; exact hi
  have hquantity := o.ckQuantityPositive
  have hstock := i.ckStockNonNegative
  -- the flush sends quantity and version, which both differ from the row's
  have hchange : ItemObj.change ⟨i, i.stockQuantity + o.quantity, i.version + 1⟩ =
      { stockQuantity := some (i.stockQuantity + o.quantity),
        version := some (i.version + 1) } := by
    have hq : ¬i.stockQuantity + o.quantity = i.stockQuantity := by omega
    have hv : ¬i.version + 1 = i.version := by omega
    simp [ItemObj.change, hq, hv]
  unfold OrderService.restoreStock ItemRepository.getByIdWithLock
  rw [solo_then, solo_then]
  -- `SELECT ... FOR UPDATE` of the item
  refine solo_selectItemForUpdate h hi fun s₁ h₁ => ?_
  simp only [Option.map_some, solo_pure]
  rw [solo_then]
  -- the assignment of the new quantity
  refine solo_assign (q := i.stockQuantity + o.quantity) ?_
  show Coro.Solo cfg t (_ >>= _)
    ⟨[(i.id, ItemObj.change ⟨i, i.stockQuantity + o.quantity, i.version + 1⟩)]⟩ Q s₁
  unfold StockRepository.createMovement
  rw [hchange, solo_then, solo_then]
  -- the flush is where the quantity has to fit its column
  by_cases hfits : RestoreFits o i
  · refine solo_flush_one (solo_updateItem h₁ hself ?_ ?_ fun e i' s₂ hi' h₂ => ?_)
    · show 0 ≤ i.stockQuantity + o.quantity
      omega
    · simpa [RestoreFits] using hfits
    have hid' : i'.id = i.id := ItemChange.updated?_id hi'
    have hstock' : i'.stockQuantity = i.stockQuantity + o.quantity :=
      (ItemChange.updated?_eq_some hi').2.1
    have hitem : (d.items.upsert i').find? i.id = some i' := by
      rw [← hid']
      exact Table.find?_upsert_self _ _
    refine solo_insertMovement h₂ ?_ ?_ ?_ fun e' s₃ hfresh h₃ => ?_
    · -- the foreign keys of the movement
      show (((d.items.upsert i').find? i.id).isSome && (d.orders.find? o.id).isSome) = true
      rw [hitem, ho]
      rfl
    · -- the sum is the largest of the three values
      have hsum : Int32 (i.stockQuantity + o.quantity) := hfits.1
      show ∀ k ∈ [o.quantity, i.stockQuantity, i.stockQuantity + o.quantity], Int32 k
      simp only [List.mem_cons, List.not_mem_nil, or_false, forall_eq_or_imp, forall_eq]
      unfold Int32 at *
      omega
    · -- its reason
      rintro text htext
      obtain rfl := List.mem_singleton.mp htext
      exact storable_append (by decide) (storable_uuid o.id)
    -- save and publish
    show Coro.Solo cfg t (_ >>= _) ⟨[]⟩ Q s₃
    rw [solo_then]
    refine solo_save h₃ hitem fun s₄ h₄ => solo_setStock h₄ fun s₅ h₅ => ?_
    exact hdone hfits e' i' s₅ hid' hstock' hfresh h₅
  · -- a sum beyond `INTEGER` fails the flush
    refine solo_flush_one (solo_overflow h₁ rfl ?_ fun s' hdb hx => hover hfits s' hdb hx)
    exact fun h => hfits (by simpa [RestoreFits, Stmt.integers] using h.integers)

/-- A held order's cancellation restores its stock where the sum fits, and ends without a
    commit where it does not. -/
theorem cancelOrder_solo {Q : Except Exc (Option Order) → Session → Sys → Prop}
    {cache : CacheService} (h : Solitary t d [] none s) (ho : d.orders.find? o.id = some o)
    (hheld : o.status = .confirmed ∨ o.status = .shipped)
    (hi : d.items.find? o.itemId = some i) (hversion : Int32 (o.version + 1))
    (hdone : RestoreFits o i → ∀ e e' i' s', i'.id = i.id →
      i'.stockQuantity = i.stockQuantity + o.quantity → d.movements.find? e.uuid = none →
      Solitary t d [.item i', .movement ((restoration o i).row e),
        .order (o.moved .cancelled e')] none s' → Q (.ok (some (o.moved .cancelled e'))) {} s')
    (hover : ¬RestoreFits o i → ∀ s', s'.db = d → (∃ x, s'.txs t = some x) →
      Q (.error (.failure .dbapiError)) {} s') :
    Coro.Solo cfg t (OrderService.cancelOrder cache o.id) {} Q s := by
  have hallowed : o.status.canTransitionTo .cancelled = true := by
    rcases hheld with hs | hs <;> rw [hs] <;> rfl
  have hholds : o.status ∈ OrderStatus.stockHoldingStates := by
    rcases hheld with hs | hs <;> rw [hs] <;> decide
  unfold OrderService.cancelOrder OrderRepository.getById
  rw [solo_then]
  -- the service reads the order, restores its units, and moves it
  refine solo_selectOrder h fun s₁ h₁ => ?_
  have hfind : (d.applyAll []).orders.find? o.id = some o := ho
  simp only [hfind, hallowed, Bool.not_true, Bool.false_eq_true, if_false, hholds, if_true]
  rw [solo_then]
  refine restoreStock_solo h₁ ho hi (fun hfits e i' s₂ hid hstock hfresh h₂ => ?_) hover
  unfold OrderRepository.transitionStatus
  show Coro.Solo cfg t (_ >>= _) {} Q s₂
  rw [solo_then]
  -- the version check of the move finds the version that was read
  refine solo_updateOrder h₂ ho rfl hversion fun e' s₃ h₃ => ?_
  refine solo_selectOrder h₃ fun s₄ h₄ => ?_
  have hself : (d.orders.upsert (o.moved .cancelled e')).find? o.id =
      some (o.moved .cancelled e') := Table.find?_upsert_self _ _
  have hlast := hdone hfits e e' i' s₄ hid hstock hfresh h₄
  rw [← hself] at hlast
  exact hlast

/-- What the three row versions of the cancel make of the tables. -/
theorem cancelled_of_writes {e e' : Env} {i' : MenuItem} {x : Tx}
    (hi : d.items.find? o.itemId = some i) (hid : i'.id = i.id)
    (hstock : i'.stockQuantity = i.stockQuantity + o.quantity)
    (hfresh : d.movements.find? e.uuid = none)
    (hdb : s.db = d.applyAll [.item i', .movement ((restoration o i).row e),
      .order (o.moved .cancelled e')])
    (hx : s.txs t = some x)
    (hres : x.response = some (.success 200 (.order (o.moved .cancelled e')))) :
    Cancelled d t o s := by
  have hitemId : i.id = o.itemId := Table.key_of_find? hi
  -- the three rows of the answer: the order moved, the item restored, the movement recorded
  refine ⟨⟨x, o.moved .cancelled e', hx, hres, ?_, rfl, rfl⟩, ⟨i, i', hi, ?_, hstock⟩,
    ⟨(restoration o i).row e, ?_, rfl, rfl, hitemId, rfl⟩⟩
  · rw [hdb]
    exact Table.find?_upsert_self _ _
  · rw [hdb, ← hitemId, ← hid]
    exact Table.find?_upsert_self _ _
  · rw [hdb]
    exact Table.rows_upsert_new hfresh

/-- The whole request. -/
theorem cancelRequest_solo {cache : CacheService} (h : Solitary t d [] none s)
    (ho : d.orders.find? o.id = some o) (hheld : o.status = .confirmed ∨ o.status = .shipped)
    (hi : d.items.find? o.itemId = some i) (hversion : Int32 (o.version + 1)) :
    Coro.Solo cfg t (getDb (Api.route cache (.transition .cancel o.id))) {}
      (fun _ _ s' =>
        (RestoreFits o i → Cancelled d t o s') ∧ (¬RestoreFits o i → s'.db = d)) s := by
  unfold getDb
  rw [solo_then, solo_attempt]
  show Coro.Solo cfg t (Api.transition cache .cancel o.id) {} _ s
  unfold Api.transition translate
  -- the service first
  rw [solo_then, solo_then, solo_attempt]
  refine cancelOrder_solo h ho hheld hi hversion
    (fun hfits e e' i' s₁ hid hstock hfresh h₁ => ?_) fun hover s₁ hdb hx => ?_
  · -- its result is answered with 200, and then committed
    simp only [solo_pure]
    rw [solo_then]
    refine solo_respond h₁ fun s₂ h₂ => ?_
    dsimp only
    unfold Session.commit
    rw [solo_then, solo_attempt, solo_then, solo_flush_clean]
    refine solo_commit h₂ fun s₃ hdb hx => ?_
    obtain ⟨x, hx, hres⟩ := hx
    exact ⟨fun _ => cancelled_of_writes hi hid hstock hfresh hdb hx hres, fun hn => absurd hfits hn⟩
  · -- the flush has failed: the route passes the exception on
    simp only [Api.transitionStatusCode, solo_raise]
    rw [solo_then]
    refine solo_rollback hx fun s₂ hdb₂ hx₂ => ?_
    refine solo_respondError hx₂ fun s₃ hdb₃ => ?_
    exact ⟨fun hfits => absurd hfits hover, fun _ => hdb₃.trans (hdb₂.trans hdb)⟩

end

/-! ## At rest -/

section

variable {cfg : Config} {ok : (system cfg).Config → (system cfg).Label → Prop}
  {ls : List (system cfg).Label} {c : (system cfg).Config}

/-- At rest nobody holds a lock. -/
theorem locks_atRest (hrun : SysRun cfg ok Db.empty ls c) (hrest : AtRest c) :
    c.st.locks = [] := by
  -- a lock is held in a phase that says so, and at rest every phase is the free one
  rw [List.eq_nil_iff_forall_not_mem]
  intro l hl
  obtain ⟨φ, hφ⟩ := inPhase_of_run hrun l.tx
  have hfree : φ = .free := by
    rcases hrest l.tx with hnone | hends
    · exact hφ.unstarted hnone
    · exact hφ.ended hends
  subst hfree
  exact hφ.holds l hl rfl

/-- A held order has been written at most three times. -/
theorem version_held {A : Allow} {d : Db} {wal : List Commit} (h : Log A Db.empty wal d) {o : Order}
    (ho : d.orders.find? o.id = some o) (hheld : o.status = .confirmed ∨ o.status = .shipped) :
    Int32 (o.version + 1) := by
  obtain ⟨hlast, hcycle⟩ := h.lifeCycles o.id
  -- the version counts the rows of the order's life, of which there are at most four
  rw [ho] at hlast
  have hne : versionsOf wal o.id ≠ [] := by
    intro hnil
    rw [hnil] at hlast
    cases hlast
  have hshort := (hcycle hne).short o hlast
  have hrank : o.status.rank ≤ 2 := by
    rcases hheld with hs | hs <;> rw [hs] <;> decide
  rw [List.getLast?_eq_getElem?] at hlast
  have hnumber := (hcycle hne).numbered _ o hlast
  have hpos : 0 < (versionsOf wal o.id).length := List.length_pos_iff.mpr hne
  unfold Int32
  omega

/-- After any run a cancel that runs alone comes to its end, and succeeds if and only if
    the two values are in range: otherwise it leaves the tables alone. -/
theorem cancelAlone_outcome (hhttp : cfg.harness = .http) (hrun : SysRun cfg ok Db.empty ls c)
    (hrest : AtRest c) {o : Order} (ho : o ∈ c.st.db.orders.rows)
    (hheld : o.status = .confirmed ∨ o.status = .shipped) {t : TxId} (ht : c.pool t = none) :
    ∃ i, c.st.db.items.find? o.itemId = some i ∧ (∃ ls c', CancelAlone c t o ls c') ∧
      ∀ ls c', CancelAlone c t o ls c' → (RestoreFits o i → Cancelled c.st.db t o c'.st) ∧
        (¬RestoreFits o i → c'.st.db = c.st.db) := by
  have hlog := hrun.log Db.consistent_empty
  have hfind : c.st.db.orders.find? o.id = some o := Table.find?_of_mem ho
  obtain ⟨i, hi⟩ := Option.isSome_iff_exists.mp (hlog.consistent Db.consistent_empty o ho)
  let c₁ : (system cfg).Config :=
    ⟨Function.update c.pool t (some (cfg.code (.transition .cancel o.id))),
      c.st.start t (.transition .cancel o.id)⟩
  have hstart : c.next (.start t (.transition .cancel o.id)) = some c₁ := by
    simp only [Config.next, ht]
    rfl
  -- everything has ended, so nobody holds a lock
  have hsolitary : Solitary t c.st.db [] none c₁.st := by
    refine ⟨fun l hl => ?_, rfl, _, Sys.setTx_txs_self _, rfl, rfl, rfl⟩
    have hl' : l ∈ c.st.locks := hl
    rw [locks_atRest hrun hrest] at hl'
    cases hl'
  have hsolo : Machine.Solo (M := system cfg) Ranged t (cfg.code (.transition .cancel o.id))
      (fun _ s' => (RestoreFits o i → Cancelled c.st.db t o s') ∧
        (¬RestoreFits o i → s'.db = c.st.db)) c₁.st := by
    unfold Config.code
    rw [hhttp]
    have hversion := version_held hlog hfind hheld
    exact Machine.solo_bind.mpr (cancelRequest_solo hsolitary hfind hheld hi hversion)
  obtain ⟨⟨ls₁, c', hrun₁, hends⟩, hall⟩ := Solo.sound (c := c₁) (Function.update_self _ _ _) hsolo
  refine ⟨i, hi, ⟨ls₁, c', c₁, hstart, hrun₁, hends⟩, fun ls₂ c₂ h => ?_⟩
  obtain ⟨c₃, hstart₃, hrun₃, hends₃⟩ := h
  obtain rfl := Option.some.inj (hstart.symm.trans hstart₃)
  exact hall ls₂ c₂ hrun₃ hends₃

/-- A cancel that has left the tables alone has not succeeded. -/
theorem not_cancelled {d : Db} {t : TxId} {o : Order} {s : Sys} (ho : d.orders.find? o.id = some o)
    (hheld : o.status = .confirmed ∨ o.status = .shipped) (hdb : s.db = d) :
    ¬Cancelled d t o s := by
  intro hcancelled
  obtain ⟨_, o', _, _, ho', hstatus, _⟩ := hcancelled.order
  rw [hdb, ho] at ho'
  obtain rfl := Option.some.inj ho'
  rcases hheld with hs | hs <;> rw [hs] at hstatus <;> cases hstatus

/-- After any run, and so after any serial one, a cancel that runs alone succeeds on a
    CONFIRMED or SHIPPED order exactly when the restored quantity and the next version of
    the item are in range. -/
theorem held_cancels (hhttp : cfg.harness = .http) (hrun : SysRun cfg ok Db.empty ls c)
    (hrest : AtRest c) {o : Order} (ho : o ∈ c.st.db.orders.rows)
    (hheld : o.status = .confirmed ∨ o.status = .shipped) {t : TxId} (ht : c.pool t = none) :
    ∃ i, c.st.db.items.find? o.itemId = some i ∧
      (Cancels c t o ↔ Int32 (i.stockQuantity + o.quantity) ∧ Int32 (i.version + 1)) := by
  obtain ⟨i, hi, hexists, hall⟩ := cancelAlone_outcome hhttp hrun hrest ho hheld ht
  refine ⟨i, hi, fun hcancels => ?_, fun hfits =>
    ⟨hexists, fun ls' c' h => (hall ls' c' h).1 hfits⟩⟩
  -- where it does not fit the run ends with the tables it began with, the order as it was
  by_contra hover
  obtain ⟨ls', c', h⟩ := hexists
  have hdb := (hall ls' c' h).2 hover
  exact not_cancelled (Table.find?_of_mem ho) hheld hdb (hcancels.2 ls' c' h)

end

/-! ## Two shops -/

/-- Serial runs in which statements fail exactly when a value is out of range. -/
abbrev rangedRequests (cache : CacheService) :
    List (system ⟨.http, cache⟩).Label → (system ⟨.http, cache⟩).Config → Prop :=
  serialRuns ⟨.http, cache⟩ (fun c l => OnCall Ranged c l) Db.empty

/-- An order for 3 of 5 units is confirmed, and the stock is adjusted by `delta`. -/
def adjusting (delta : Int) : List (system ⟨.http, ⟨false⟩⟩).Label := inTurn [
  (.createItem { name := "Tea", price := 350, stockQuantity := 5 }, [0, 0, 1, 0, 0]),
  (.placeOrder { itemId := 0, quantity := 3 }, [0, 2, 0, 0, 0]),
  (.transition .confirm 2, [0, 0, 0, 3, 0, 0, 0, 0, 0]),
  (.adjustStock 0 { delta, reason := "Delivery" }, [0, 0, 4, 0, 0, 0])]

/-- All four requests have ended, and the order has its stock while `stock` is left. -/
def Adjusted (delta stock : Int) (c : (system ⟨.http, ⟨false⟩⟩).Config) : Prop :=
  (∀ t ∈ (adjusting delta).filterMap Label.starts, Ends c t) ∧ (c.pool 4).isNone = true ∧
    (c.st.db.items.find? 0).any (fun i => i.stockQuantity = stock ∧ i.version = 3) = true ∧
    ∃ o ∈ c.st.db.orders.rows, o.itemId = 0 ∧ o.quantity = 3 ∧ o.status = .confirmed

instance (delta stock : Int) (c : (system ⟨.http, ⟨false⟩⟩).Config) :
    Decidable (Adjusted delta stock c) := inferInstanceAs (Decidable (_ ∧ _))

/-- A confirmed order of 3 units, cancelled after an adjustment by 100. -/
theorem held_cancels_delivery : ∃ c o, rangedRequests ⟨false⟩ (adjusting 100) c ∧
    o.status = .confirmed ∧ Cancels c 4 o := by
  obtain ⟨c, hrun, hends, hpool, hitem, o, ho, hitemId, hquantity, hstatus⟩ :
      ∃ c, rangedRequests ⟨false⟩ (adjusting 100) c ∧ Adjusted 100 102 c :=
    serialRuns_of_decide (by decide +kernel) (by decide +kernel)
  obtain ⟨i, hi, hiff⟩ := held_cancels rfl hrun (hrun.atRest hends) ho (Or.inl hstatus)
    (Option.isNone_iff_eq_none.mp hpool)
  rw [← hitemId, hi] at hitem
  simp only [Option.any_some, decide_eq_true_eq] at hitem
  refine ⟨c, o, hrun, hstatus, hiff.mpr ?_⟩
  rw [hitem.1, hitem.2, hquantity]
  decide

/-- The stock is adjusted up to the largest `INTEGER`; the 3 units cannot be restored. -/
theorem held_overflows : ¬∀ ls c, rangedRequests ⟨false⟩ ls c → AtRest c →
    ∀ o ∈ c.st.db.orders.rows, o.status = .confirmed ∨ o.status = .shipped →
    ∀ t, c.pool t = none → Cancels c t o := by
  intro hall
  -- an adjustment has left so much that the units do not fit any more
  obtain ⟨c, hrun, hends, hpool, hitem, o, ho, hitemId, hquantity, hstatus⟩ :
      ∃ c, rangedRequests ⟨false⟩ (adjusting (2 ^ 31 - 3)) c ∧
        Adjusted (2 ^ 31 - 3) (2 ^ 31 - 1) c :=
    serialRuns_of_decide (by decide +kernel) (by decide +kernel)
  have hrest := hrun.atRest hends
  have hnone : c.pool 4 = none := Option.isNone_iff_eq_none.mp hpool
  obtain ⟨i, hi, ⟨ls', c', halone⟩, houtcome⟩ :=
    cancelAlone_outcome rfl hrun hrest ho (Or.inl hstatus) hnone
  rw [← hitemId, hi] at hitem
  simp only [Option.any_some, decide_eq_true_eq] at hitem
  have hover : ¬RestoreFits o i := by
    unfold RestoreFits
    rw [hitem.1, hitem.2, hquantity]
    decide
  have hdb := (houtcome ls' c' halone).2 hover
  have hcancels := hall _ c hrun hrest o ho (Or.inl hstatus) 4 hnone
  exact not_cancelled (Table.find?_of_mem ho) (Or.inl hstatus) hdb (hcancels.2 ls' c' halone)

end Nova
