import Mathlib.Data.List.Chain
import Nova.Spec.Log

/-!
# The life cycle of an order

The committed versions of an order, numbered 1, 2, 3, ..., are a path of
`OrderStatus.validTransitions` that starts at PENDING (`LifeCycle`). Each commit
appends at most one version to one order (`Log.lifeCycle`), whatever else the
system allows.
-/

namespace Nova

/-- The committed versions of an order, in commit order. -/
def versionsOf (wal : List Commit) (id : Uuid) : List Order :=
  (wal.flatMap fun c => orderRows c.writes).filter (·.id = id)

/-- How far a status is from PENDING. -/
def OrderStatus.rank : OrderStatus → Nat
  | .pending => 0
  | .confirmed => 1
  | .shipped => 2
  | .delivered | .cancelled | .rejected => 3

/-- Every transition goes up in rank. -/
theorem OrderStatus.rank_lt {s next : OrderStatus} (h : s.canTransitionTo next = true) :
    s.rank < next.rank := by
  cases s <;> cases next <;> revert h <;> decide

/-- The highest rank is 3. -/
theorem OrderStatus.rank_le (s : OrderStatus) : s.rank ≤ 3 := by
  cases s <;> decide

/-- A terminal status has no successor. -/
theorem OrderStatus.not_terminal {s next : OrderStatus} (h : s.canTransitionTo next = true) :
    s ∉ OrderStatus.terminalStates := by
  intro hterm
  rw [← OrderStatus.validTransitions_eq_nil_iff] at hterm
  rw [OrderStatus.canTransitionTo_iff, hterm] at h
  cases h

/-- `vs` are the versions of one order since it was placed. -/
structure LifeCycle (vs : List Order) : Prop where
  first : ∃ o, vs.head? = some o ∧ o.status = .pending
  numbered : ∀ (k : Nat) (o : Order), vs[k]? = some o → o.version = (k : Int) + 1
  path : vs.IsChain fun o o' => o.status.canTransitionTo o'.status = true
  fixed : ∀ o ∈ vs, ∀ o' ∈ vs, o'.itemId = o.itemId ∧ o'.quantity = o.quantity
  short : ∀ o, vs.getLast? = some o → vs.length ≤ o.status.rank + 1

/-- A new order starts its life cycle. -/
theorem LifeCycle.placed {o : Order} (hstatus : o.status = .pending) (hversion : o.version = 1) :
    LifeCycle [o] where
  first := ⟨o, rfl, hstatus⟩
  numbered k o' h := by
    cases k with
    | zero =>
      obtain rfl : o = o' := by simpa using h
      simpa using hversion
    | succ k => simp at h
  path := .singleton o
  fixed := by simp
  short o' h := by simp

/-- Its next version. -/
theorem LifeCycle.snoc {vs : List Order} (h : LifeCycle vs) {o o' : Order}
    (hlast : vs.getLast? = some o) (hversion : o'.version = o.version + 1)
    (hitem : o'.itemId = o.itemId) (hquantity : o'.quantity = o.quantity)
    (hallowed : o.status.canTransitionTo o'.status = true) : LifeCycle (vs ++ [o']) where
  first := by
    obtain ⟨o₀, hhead, ho₀⟩ := h.first
    refine ⟨o₀, ?_, ho₀⟩
    rw [List.head?_append, hhead]
    rfl
  numbered k o₁ h₁ := by
    -- a position inside `vs`, or the one after it
    by_cases hk : k < vs.length
    · rw [List.getElem?_append_left hk] at h₁
      exact h.numbered k o₁ h₁
    · rw [List.getElem?_append_right (by omega)] at h₁
      obtain ⟨hk', rfl⟩ : k - vs.length = 0 ∧ o' = o₁ := by
        cases hsub : k - vs.length with
        | zero => simpa [hsub] using h₁
        | succ n => simp [hsub] at h₁
      have hpos : 0 < vs.length := by
        cases vs with
        | nil => simp at hlast
        | cons => simp
      have hlast' : vs[vs.length - 1]? = some o := by rw [← List.getLast?_eq_getElem?, hlast]
      have := h.numbered _ o hlast'
      omega
  path := by
    refine List.isChain_append.mpr ⟨h.path, .singleton o', ?_⟩
    intro a ha b hb
    obtain rfl : o = a := by
      rw [hlast] at ha
      exact Option.some.inj ha
    obtain rfl : o' = b := Option.some.inj hb
    exact hallowed
  fixed := by
    have hmem : o ∈ vs := List.mem_of_getLast? hlast
    intro a ha b hb
    -- every version agrees with the last one
    have hold : ∀ c ∈ vs ++ [o'], c.itemId = o.itemId ∧ c.quantity = o.quantity := by
      intro c hc
      rcases List.mem_append.mp hc with hc | hc
      · exact h.fixed o hmem c hc
      · obtain rfl := List.mem_singleton.mp hc
        exact ⟨hitem, hquantity⟩
    have ha := hold a ha
    have hb := hold b hb
    exact ⟨hb.1.trans ha.1.symm, hb.2.trans ha.2.symm⟩
  short o₁ h₁ := by
    obtain rfl : o' = o₁ := by simpa using h₁
    -- each version is of a higher rank, and there are four ranks
    have hlen := h.short o hlast
    have hrank := OrderStatus.rank_lt hallowed
    rw [List.length_append]
    simp only [List.length_singleton]
    omega

/-- An order never has more than four versions. -/
theorem LifeCycle.length_le {vs : List Order} (h : LifeCycle vs) : vs.length ≤ 4 := by
  cases hlast : vs.getLast? with
  | none =>
    rw [List.getLast?_eq_none_iff] at hlast
    simp [hlast]
  | some o =>
    have hshort := h.short o hlast
    have hrank := o.status.rank_le
    omega

/-! ## Over the log -/

/-- One more commit adds the versions of the order that it has written. -/
theorem versionsOf_snoc {wal : List Commit} {c : Commit} {id : Uuid} :
    versionsOf (wal ++ [c]) id = versionsOf wal id ++ (orderRows c.writes).filter (·.id = id) := by
  simp [versionsOf]

/-- The versions of every order are a life cycle that ends with its current row. -/
def LifeCycles (wal : List Commit) (d : Db) : Prop :=
  ∀ id, (versionsOf wal id).getLast? = d.orders.find? id ∧
    (versionsOf wal id ≠ [] → LifeCycle (versionsOf wal id))

/-- A commit that writes the version `o'` of one order. -/
private theorem lifeCycles_snoc {wal : List Commit} {d d' : Db} {c : Commit} {o' : Order}
    (h : LifeCycles wal d) (he : d'.orders = d.orders.upsert o') (hws : orderRows c.writes = [o'])
    (hnew : LifeCycle (versionsOf wal o'.id ++ [o'])) : LifeCycles (wal ++ [c]) d' := by
  intro id
  rw [versionsOf_snoc, hws, he, Table.find?_upsert]
  -- only the order that was written gets a version
  by_cases hid : id = o'.id
  · subst hid
    simpa using hnew
  · have hne : o'.id ≠ id := Ne.symm hid
    simpa [hid, hne] using h id

/-- In every log each order has lived through a walk of the state machine. -/
theorem Log.lifeCycles {A : Allow} {d : Db} {wal : List Commit} (h : Log A Db.empty wal d) :
    LifeCycles wal d := by
  induction h with
  | nil => exact fun id => ⟨rfl, fun hne => absurd rfl hne⟩
  | @snoc wal d c e hlog heff _ ih =>
    cases heff.orders with
    | same he hws =>
      intro id
      rw [versionsOf_snoc, hws, he]
      simpa using ih id
    | placed o he hws hnew _ hstatus hversion =>
      refine lifeCycles_snoc ih he hws ?_
      -- an order that is placed had no versions
      have hnil : versionsOf wal o.id = [] := by
        have hlast := (ih o.id).1
        rw [hnew] at hlast
        exact List.getLast?_eq_none_iff.mp hlast
      rw [hnil]
      exact .placed hstatus hversion
    | stepped o cur o' status he hws hstep hallowed =>
      refine lifeCycles_snoc ih he hws ?_
      -- the version that was read is the row, which is the last version
      obtain ⟨cur', hk⟩ := hlog.knownOrder Db.consistent_empty hstep.known
      obtain rfl := hstep.eq_read hk
      have hlast : (versionsOf wal o'.id).getLast? = some cur := by
        rw [(ih o'.id).1, hstep.id_eq]
        exact hstep.row
      have hne : versionsOf wal o'.id ≠ [] := by
        intro hnil
        rw [hnil] at hlast
        cases hlast
      refine ((ih o'.id).2 hne).snoc hlast hstep.version_eq hstep.itemId_eq hstep.quantity_eq ?_
      rw [hstep.status_eq]
      exact hallowed

/-- Of two commits that write one order, the later one writes the later version. -/
theorem Log.versions_increase {A : Allow} {d₀ d : Db} {wal : List Commit} (h : Log A d₀ wal d)
    (hd₀ : d₀.Consistent) : wal.Pairwise fun r r' => ∀ o ∈ orderRows r.writes,
      ∀ o' ∈ orderRows r'.writes, o'.id = o.id → o.version < o'.version := by
  induction h with
  | nil => exact .nil
  | @snoc wal d c e hlog heff _ ih =>
    -- the new commit against each of the earlier ones
    refine List.pairwise_append.mpr ⟨ih, List.pairwise_singleton _ c, fun r hr r' hr' => ?_⟩
    obtain rfl := List.mem_singleton.mp hr'
    intro o ho o' ho' hid
    -- the order that one of them wrote has a row, and its version is not behind
    obtain ⟨cur, hknown⟩ := hlog.knownOrder hd₀ (Or.inr ⟨r, hr, mem_orderRows.mp ho⟩)
    cases heff.orders with
    | same _ hws => rw [hws] at ho'; cases ho'
    | placed n _ hws hnew =>
      obtain rfl : o' = n := by simpa [hws] using ho'
      -- a new order has a new key
      rw [hid, hknown.row] at hnew
      cases hnew
    | stepped o₁ cur₁ n status _ hws hstep =>
      obtain rfl : o' = n := by simpa [hws] using ho'
      -- the step starts from that row
      have hrow : d.orders.find? o.id = some cur₁ := by
        rw [← hid, hstep.id_eq, Table.key_of_find? hstep.row]
        exact hstep.row
      obtain rfl : cur₁ = cur := Option.some.inj (hrow.symm.trans hknown.row)
      have hversion := hstep.version_eq
      rcases hknown.latest with rfl | hlt
      · omega
      · omega

/-- Two commits write no version of an order twice. -/
def DistinctVersions (r r' : Commit) : Prop :=
  ∀ o ∈ orderRows r.writes, ∀ o' ∈ orderRows r'.writes, o'.id = o.id → o'.version ≠ o.version

instance : Std.Symm DistinctVersions where
  symm _ _ h o ho o' ho' hid := (h o' ho' o ho hid.symm).symm

/-- No two commits write one version of an order. -/
theorem Log.distinct_versions {A : Allow} {d₀ d : Db} {wal : List Commit} (h : Log A d₀ wal d)
    (hd₀ : d₀.Consistent) {r r' : Commit} (hr : r ∈ wal) (hr' : r' ∈ wal) (hne : r ≠ r') :
    DistinctVersions r r' := by
  have hpairwise : wal.Pairwise DistinctVersions :=
    (h.versions_increase hd₀).imp fun hlt o ho o' ho' hid =>
      (Int.ne_of_lt (hlt o ho o' ho' hid)).symm
  exact hpairwise.forall hr hr' hne

/-- A transition that commits a version of an order commits the successor of the
    version it has read. -/
theorem Effect.transition_row {A : Allow} {d₀ d : Db} {wal : List Commit} {a : Action} {id : Uuid}
    {read : Option Order} {e : Option Exc} {ws : List Write} {o' : Order}
    (h : Effect A d₀ wal d (.transition a id) read e ws) (ho' : o' ∈ orderRows ws) :
    ∃ o, read = some o ∧ o'.id = id ∧ o'.version = o.version + 1 := by
  have hread : ∀ {o cur status}, o.id = id → OrderStep (knownIn d₀ wal) d o cur o' status →
      o'.id = id ∧ o'.version = o.version + 1 := by
    intro o cur status hid hstep
    rw [hstep.id_eq, hstep.version_eq, hstep.version, Table.key_of_find? hstep.row]
    exact ⟨hid, rfl⟩
  cases h with
  | refused | stale => cases ho'
  | rejected _ hid _ _ _ _ hstep =>
    obtain rfl := List.mem_singleton.mp ho'
    exact ⟨_, rfl, hread hid hstep⟩
  | stocked _ hid _ _ _ hstep =>
    obtain rfl := List.mem_singleton.mp ho'
    exact ⟨_, rfl, hread hid hstep⟩
  | moved _ hid _ hstep =>
    obtain rfl := List.mem_singleton.mp ho'
    exact ⟨_, rfl, hread hid hstep⟩

/-- The version that a transition writes follows the one it has read. -/
theorem Log.transition_row {A : Allow} {d₀ d : Db} {wal : List Commit} (h : Log A d₀ wal d)
    {r : Commit} (hr : r ∈ wal) {a : Action} {id : Uuid} (hreq : r.req = .transition a id)
    {o' : Order} (ho' : o' ∈ orderRows r.writes) :
    ∃ o, r.read = some o ∧ o'.id = id ∧ o'.version = o.version + 1 := by
  induction h with
  | nil => cases hr
  | snoc _ heff _ ih =>
    rcases List.mem_append.mp hr with hr | hr
    · exact ih hr
    · obtain rfl := List.mem_singleton.mp hr
      rw [hreq] at heff
      exact heff.transition_row ho'

end Nova
