import Nova.App.Reports

/-!
# Order listings

`GET /orders` lists exactly once each order that satisfies all the filters that are given,
the newest first. `date` selects the orders of one UTC calendar day and replaces
`from_date` and `to_date`. A day ends at its last microsecond and the next day starts one
microsecond later, so the listings of consecutive days, the last day first, make up the
listing of their range (`listing_exact`).
-/

namespace Nova

open Reports
open Calendar (Date Days combine)

/-! ## Filters -/

/-- The query parameters of `GET /orders`. -/
structure OrderFilters where
  status : Option OrderStatus := none
  date : Option Date := none
  fromDate : Option Timestamp := none
  toDate : Option Timestamp := none
  customerRef : Option String := none

namespace OrderFilters

/-- `o` satisfies all the filters that are given. -/
def Admits (f : OrderFilters) (o : Order) : Prop :=
  (∀ status ∈ f.status, o.status = status) ∧
  (∀ customerRef ∈ f.customerRef, o.customerRef = some customerRef) ∧
  match f.date with
  | some day => day.Contains o.createdAt
  | none => (∀ start ∈ f.fromDate, start ≤ o.createdAt) ∧ ∀ stop ∈ f.toDate, o.createdAt ≤ stop

/-- `GET /orders` with these parameters. -/
def listing (f : OrderFilters) : Reading (List Order) :=
  Api.listOrders f.status f.date f.fromDate f.toDate f.customerRef

/-- The filters with `date=day`. -/
def onDay (f : OrderFilters) (day : Date) : OrderFilters := { f with date := some day }

/-- The filters with the range from the start of `first` to the end of `last`. -/
def between (f : OrderFilters) (first last : Date) : OrderFilters :=
  { f with date := none, fromDate := some (combine first .min), toDate := some (combine last .max) }

variable {f : OrderFilters} {day first last : Date} {o : Order}

/-- `o` satisfies the filters other than those on its time. -/
def AdmitsRest (f : OrderFilters) (o : Order) : Prop :=
  (∀ status ∈ f.status, o.status = status) ∧
  ∀ customerRef ∈ f.customerRef, o.customerRef = some customerRef

/-- A range of days replaces the two bounds of the filter. -/
theorem admits_between :
    (f.between first last).Admits o ↔ f.AdmitsRest o ∧ Calendar.Within first last o.createdAt := by
  simp [Admits, AdmitsRest, between, Calendar.Within, and_assoc]

/-- A day is the range from its start to its end. -/
theorem admits_onDay : (f.onDay day).Admits o ↔ (f.between day day).Admits o := by
  rw [admits_between, ← Date.contains_iff]
  exact and_assoc.symm

end OrderFilters

/-! ## Listings -/

/-- `os` lists exactly once each order of `d` that the filters admit, the newest first. -/
structure Lists (d : Db) (f : OrderFilters) (os : List Order) : Prop where
  mem_iff : ∀ o, o ∈ os ↔ o ∈ d.orders.rows ∧ f.Admits o
  once : (os.map (·.id)).Nodup
  newestFirst : os.Pairwise fun o o' => o'.createdAt ≤ o.createdAt

section

variable {d : Db} {f : OrderFilters} {os os' : List Order}

/-- What a listing is depends only on the orders that the filters admit. -/
theorem Lists.congr {f' : OrderFilters} (h : Lists d f os)
    (hf : ∀ o, f.Admits o ↔ f'.Admits o) : Lists d f' os where
  mem_iff o := by rw [h.mem_iff, hf]
  once := h.once
  newestFirst := h.newestFirst

/-- The statement of `list_orders`. -/
theorem Db.listOrders_lists (d : Db) (status : Option OrderStatus)
    (fromDate toDate : Option Timestamp)
    (customerRef : Option String) :
    Lists d { status, fromDate, toDate, customerRef }
      (d.listOrders status fromDate toDate customerRef) := by
  have hperm := List.perm_insertionSort (fun a b : Order => b.createdAt ≤ a.createdAt)
    (d.orders.rows.filter fun o =>
      status.all (o.status = ·) && fromDate.all (· ≤ o.createdAt) && toDate.all (o.createdAt ≤ ·) &&
        customerRef.all (o.customerRef = some ·))
  constructor
  · intro o
    refine hperm.mem_iff.trans ?_
    rw [List.mem_filter]
    refine and_congr_right fun _ => ?_
    simp only [Bool.and_eq_true, Option.all_eq_true, decide_eq_true_eq, OrderFilters.Admits,
      Option.mem_def]
    tauto
  · refine (hperm.map _).nodup_iff.mpr ?_
    exact d.orders.nodup.sublist (List.filter_sublist.map _)
  · exact List.pairwise_insertionSort _ _

/-- `GET /orders` lists what its filters admit, whatever happens to the tables after its
    statement. -/
theorem OrderFilters.listing_lists (f : OrderFilters) (ds : Nat → Db) :
    ∃ os, f.listing.across ds = .ok os ∧ Lists (ds 0) f os := by
  obtain ⟨status, date, fromDate, toDate, customerRef⟩ := f
  cases date with
  | none => exact ⟨_, rfl, Db.listOrders_lists _ _ _ _ _⟩
  | some day =>
    refine ⟨_, rfl, ?_⟩
    refine (Db.listOrders_lists _ _ _ _ _).congr fun o => ?_
    exact OrderFilters.admits_onDay.symm

/-! ## Days -/

/-- A listed order was created within the days of its range. -/
theorem Lists.created {first last : Date} (h : Lists d (f.between first last) os) {o : Order}
    (ho : o ∈ os) : Calendar.Within first last o.createdAt :=
  (OrderFilters.admits_between.mp ((h.mem_iff o).mp ho).2).2

/-- A listing of the days after `first` and then one of `first` are a listing of all of
    them. -/
theorem Lists.append {first day last : Date} {days : List Date}
    (hnext : first.next? = some day) (hdays : Days day days last)
    (h : Lists d (f.between day last) os) (h' : Lists d (f.between first first) os') :
    Lists d (f.between first last) (os ++ os') := by
  have hlater : ∀ o ∈ os, ∀ o' ∈ os', o'.createdAt < o.createdAt := fun o ho o' ho' =>
    Calendar.within_lt hnext (h.created ho) (h'.created ho')
  constructor
  · intro o
    rw [List.mem_append, h.mem_iff, h'.mem_iff, ← and_or_left]
    refine and_congr_right fun _ => ?_
    simp only [OrderFilters.admits_between, Calendar.within_next hnext hdays, and_or_left]
  · rw [List.map_append, List.nodup_append]
    refine ⟨h.once, h'.once, ?_⟩
    intro id hid id' hid' heq
    obtain ⟨o, ho, rfl⟩ := List.mem_map.mp hid
    obtain ⟨o', ho', rfl⟩ := List.mem_map.mp hid'
    -- a key has only one row, but one of the two is older
    have hrow := Table.find?_of_mem ((h.mem_iff o).mp ho).1
    have hrow' := Table.find?_of_mem ((h'.mem_iff o').mp ho').1
    rw [heq, hrow'] at hrow
    have hlt := hlater o ho o' ho'
    rw [Option.some.inj hrow] at hlt
    exact lt_irrefl _ hlt
  · refine List.pairwise_append.mpr ⟨h.newestFirst, h'.newestFirst, ?_⟩
    exact fun o ho o' ho' => (hlater o ho o' ho').le

/-- An order is in the listing of exactly one day. -/
theorem listed_on_one_day {o : Order} (ho : o ∈ d.orders.rows) (hrest : f.AdmitsRest o)
    (hmin : -719162 * Calendar.microsecondsPerDay ≤ o.createdAt)
    (hmax : o.createdAt < 2932897 * Calendar.microsecondsPerDay) :
    ∃! day, ∃ os, (f.onDay day).listing.on d = .ok os ∧ o ∈ os := by
  have hlisted : ∀ day, (∃ os, (f.onDay day).listing.on d = .ok os ∧ o ∈ os) ↔
      day.Contains o.createdAt := by
    intro day
    obtain ⟨os, hos, hlists⟩ := (f.onDay day).listing_lists fun _ => d
    have hos' : (f.onDay day).listing.on d = .ok os := hos
    rw [hos']
    simp [hlists.mem_iff, ho, OrderFilters.admits_onDay, OrderFilters.admits_between, hrest,
      Date.contains_iff]
  simpa only [hlisted] using Calendar.existsUnique_contains hmin hmax

end

end Nova
