import Nova.Spec.History
import Nova.Spec.Lifetimes
import Nova.Spec.Linearizability

/-!
# Repeated requests

A client that has got no answer, or a 409, may send its request again, and other clients may
act on the same order.

## Main results

- `successes_on_one_walk`: of all transitions of one order that ever succeed, any two lie on
  one walk along the state machine, so none succeeds twice and at most three succeed at all.
- `conflicts_bounded`: in a run without races, a client that starts a transition again after
  each 409 gets no more than three of them.
-/

namespace Nova

open Machine

/-! ## Versions -/

/-- The versions of an order in two logs are those in one after the other. -/
theorem versionsOf_append (wal wal' : List Commit) (id : Uuid) :
    versionsOf (wal ++ wal') id = versionsOf wal id ++ versionsOf wal' id := by
  simp [versionsOf]

/-- An order version of the log is one of its order's versions. -/
theorem mem_versionsOf {wal : List Commit} {c : Commit} {o : Order} (hc : c ∈ wal)
    (ho : o ∈ orderRows c.writes) : o ∈ versionsOf wal o.id :=
  List.mem_filter.mpr ⟨List.mem_flatMap.mpr ⟨c, hc, ho⟩, decide_eq_true rfl⟩

/-- A walk climbs at least one rank with each step. -/
theorem OrderStatus.Walk.rank_le {n : Nat} {s s' : OrderStatus} (h : Walk n s s') :
    s.rank + n ≤ s'.rank := by
  induction h with
  | nil => simp
  | snoc _ hstep ih =>
    have hlt := OrderStatus.rank_lt hstep
    omega

/-- The versions of an order walk along the state machine. -/
theorem LifeCycle.walk {vs : List Order} (h : LifeCycle vs) {i j : Nat} {o o' : Order}
    (hle : i ≤ j) (hi : vs[i]? = some o) (hj : vs[j]? = some o') :
    o.status.Walk (j - i) o'.status := by
  -- by induction on the later position: each row follows its predecessor by one allowed step
  induction j, hle using Nat.le_induction generalizing o' with
  | base =>
    obtain rfl := Option.some.inj (hi.symm.trans hj)
    rw [Nat.sub_self]
    exact .nil _
  | succ j hle ih =>
    obtain ⟨hlt, rfl⟩ := List.getElem?_eq_some_iff.mp hj
    have hlast : vs[j]? = some vs[j] := List.getElem?_eq_getElem (by omega)
    have hstep := List.isChain_iff_getElem.mp h.path j hlt
    rw [Nat.succ_sub hle]
    exact (ih hlast).snoc hstep

/-- A later version of an order is some steps further on. -/
theorem LifeCycle.walk_of_version_lt {vs : List Order} (h : LifeCycle vs) {o o' : Order}
    (ho : o ∈ vs) (ho' : o' ∈ vs) (hlt : o.version < o'.version) :
    ∃ n, o.status.Walk (n + 1) o'.status := by
  obtain ⟨i, hi⟩ := List.getElem?_of_mem ho
  obtain ⟨j, hj⟩ := List.getElem?_of_mem ho'
  have hversion := h.numbered i o hi
  have hversion' := h.numbered j o' hj
  have hij : i + 1 ≤ j := by omega
  obtain ⟨n, rfl⟩ := Nat.exists_eq_add_of_le' hij
  -- `i + 1 ≤ j`, so at least one step of the walk lies between
  refine ⟨n, ?_⟩
  have hwalk := h.walk (Nat.le_of_succ_le hij) hi hj
  rwa [show n + (i + 1) - i = n + 1 by omega] at hwalk

/-! ## Successes -/

/-- The response is a success. -/
def Response.isSuccess : Response → Bool
  | .success _ _ => true
  | .error _ _ => false

/-- Request `t` was action `a` on the order `id`. It has ended, nothing outside the program
    has failed it, and it was answered with a success. -/
def Succeeded {cfg : Config} (c : (system cfg).Config) (t : TxId) (a : Action) (id : Uuid) : Prop :=
  Ends c t ∧ ∃ x ∈ c.st.txs t, x.req = .transition a id ∧ x.faulted = false ∧
    ∃ r ∈ x.response, r.isSuccess = true

instance {cfg : Config} (c : (system cfg).Config) (t : TxId) (a : Action) (id : Uuid) :
    Decidable (Succeeded c t a id) := inferInstanceAs (Decidable (_ ∧ _))

/-- How two actions that both succeed on one order are related. -/
structure OnOneWalk (a a' : Action) : Prop where
  walk : ∃ n, a.target.Walk (n + 1) a'.target ∨ a'.target.Walk (n + 1) a.target
  different : a.target.rank ≠ a'.target.rank
  oneFinal : a.target ∉ OrderStatus.terminalStates ∨ a'.target ∉ OrderStatus.terminalStates

/-- A walk from one status to the other relates the two actions. -/
theorem OnOneWalk.of_walk {a a' : Action} {n : Nat} (h : a.target.Walk (n + 1) a'.target) :
    OnOneWalk a a' := by
  have hrank := h.rank_le
  refine ⟨⟨n, Or.inl h⟩, by omega, Or.inl fun hterminal => ?_⟩
  rw [h.of_terminal hterminal] at hrank
  omega

/-- The relation has no direction. -/
theorem OnOneWalk.symm {a a' : Action} (h : OnOneWalk a a') : OnOneWalk a' a where
  walk := by
    obtain ⟨n, hwalk⟩ := h.walk
    exact ⟨n, hwalk.symm⟩
  different := h.different.symm
  oneFinal := h.oneFinal.symm

/-- A transition leads to a status of a rank from 1 to 3. -/
theorem Action.rank_target (a : Action) : 1 ≤ a.target.rank ∧ a.target.rank ≤ 3 := by
  cases a <;> decide

section

variable {cache : CacheService} {ls : List (system ⟨.http, cache⟩).Label}
  {ok : (system ⟨.http, cache⟩).Config → (system ⟨.http, cache⟩).Label → Prop}
  {c : (system ⟨.http, cache⟩).Config} {t t' : TxId} {a a' : Action} {id : Uuid}

/-- A transition that succeeds has committed a version of its order. -/
theorem Succeeded.row (hrun : SysRun ⟨.http, cache⟩ ok Db.empty ls c) (h : Succeeded c t a id) :
    ∃ r ∈ c.st.wal, r.tx = t ∧ ∃ o ∈ orderRows r.writes, o.id = id ∧ o.status = a.target := by
  obtain ⟨hends, x, hx, hreq, hfault, r, hr, hsuccess⟩ := h
  cases r with
  | error => cases hsuccess
  | success status body =>
    obtain ⟨d, ws, _, o, _, hcommit, _, hws, hid, _, hstatus, _⟩ :=
      (hrun.finished Db.consistent_empty rfl hx hends).steps hreq hfault hr
    have hne : ws ≠ [] := by
      rintro rfl
      cases hws
    -- a success has written the order, so its commit is on the log
    obtain ⟨r, hmem, htx, rfl⟩ :=
      (hrun.linked Db.consistent_empty).committed t x d ws hx hcommit hne
    exact ⟨r, hmem, htx, o, by simp [hws], hid, hstatus⟩

/-- Two requests that both succeed on one order are on one walk. -/
theorem Succeeded.onOneWalk (hrun : SysRun ⟨.http, cache⟩ ok Db.empty ls c) (hne : t ≠ t')
    (h : Succeeded c t a id) (h' : Succeeded c t' a' id) : OnOneWalk a a' := by
  obtain ⟨r, hr, rfl, o, ho, hid, hstatus⟩ := h.row hrun
  obtain ⟨r', hr', rfl, o', ho', hid', hstatus'⟩ := h'.row hrun
  have hlog := hrun.log Db.consistent_empty
  have hmem : o ∈ versionsOf c.st.wal id := hid ▸ mem_versionsOf hr ho
  have hmem' : o' ∈ versionsOf c.st.wal id := hid' ▸ mem_versionsOf hr' ho'
  have hcycle := (hlog.lifeCycles id).2 (List.ne_nil_of_mem hmem)
  have hrr : r ≠ r' := fun heq => hne (congrArg _ heq)
  have hdistinct : o.version ≠ o'.version := fun heq =>
    hlog.distinct_versions Db.consistent_empty hr hr' hrr o ho o' ho' (by rw [hid, hid']) heq.symm
  -- the earlier of the two versions walks to the later one
  rcases lt_or_gt_of_ne hdistinct with hlt | hgt
  · obtain ⟨n, hwalk⟩ := hcycle.walk_of_version_lt hmem hmem' hlt
    rw [hstatus, hstatus'] at hwalk
    exact .of_walk hwalk
  · obtain ⟨n, hwalk⟩ := hcycle.walk_of_version_lt hmem' hmem hgt
    rw [hstatus, hstatus'] at hwalk
    exact (OnOneWalk.of_walk hwalk).symm

/-- Whatever the interleaving and whatever fails, however many requests there are for one
    order: at most three succeed, and any two that do are steps of one walk of its status. -/
theorem successes_on_one_walk (hrun : SysRun ⟨.http, cache⟩ ok Db.empty ls c) (act : TxId → Action)
    {ts : List TxId} (hnodup : ts.Nodup) (hts : ∀ t ∈ ts, Succeeded c t (act t) id) :
    ts.length ≤ 3 ∧ ts.Pairwise fun t t' => OnOneWalk (act t) (act t') := by
  have hturns : ts.Pairwise fun t t' => OnOneWalk (act t) (act t') :=
    hnodup.imp_of_mem fun ht ht' hne => (hts _ ht).onOneWalk hrun hne (hts _ ht')
  refine ⟨?_, hturns⟩
  have hranks : (ts.map fun t => (act t).target.rank).Nodup :=
    List.pairwise_map.mpr (hturns.imp OnOneWalk.different)
  -- the targets have the ranks 1, 2 and 3, and no two successes share one
  have hbound : (ts.map fun t => (act t).target.rank) ⊆ [1, 2, 3] := by
    intro n hn
    obtain ⟨t, _, rfl⟩ := List.mem_map.mp hn
    have hrank := (act t).rank_target
    simp
    omega
  have hlength := (List.subperm_of_subset hranks hbound).length_le
  simpa using hlength

end

/-- Two requests confirm one order, the second when the first has read it, and it is shipped. -/
def confirmedTwice : List (system ⟨.http, ⟨true⟩⟩).Label :=
  [.start 0 (.createItem { name := "Tea", price := 350, stockQuantity := 10 })] ++
  turns 0 [0, 0, 1, 0, 0, 0] ++
  [.start 1 (.placeOrder { itemId := 0, quantity := 3 })] ++ turns 1 [0, 2, 0, 0, 0] ++
  [.start 2 (.transition .confirm 2)] ++ turns 2 [0] ++
  [.start 3 (.transition .confirm 2)] ++ turns 3 [0] ++ turns 2 [0, 0, 3, 0, 0, 0, 0, 0, 0] ++
  turns 3 [0, 0, 4, 0, 0, 0, 0, 0] ++ [.start 4 (.transition .ship 2)] ++ turns 4 [0, 0, 0, 0, 0]

/-- The first confirmation and the shipment succeed, and the second confirmation does not. -/
theorem successes_on_one_walk_confirmedTwice : ∃ c,
    SysRun ⟨.http, ⟨true⟩⟩ (fun _ _ => True) Db.empty confirmedTwice c ∧
    Succeeded c 2 .confirm 2 ∧ Ends c 3 ∧ ¬Succeeded c 3 .confirm 2 ∧ Succeeded c 4 .ship 2 ∧
    [2, 4].length ≤ 3 ∧ [2, 4].Pairwise fun t t' =>
      OnOneWalk (if t = 2 then .confirm else .ship) (if t' = 2 then .confirm else .ship) := by
  obtain ⟨c, hrun, hval⟩ : ∃ c,
      SysRun ⟨.http, ⟨true⟩⟩ (fun _ _ => True) Db.empty confirmedTwice c ∧
      decide (Succeeded c 2 .confirm 2 ∧ Ends c 3 ∧ ¬Succeeded c 3 .confirm 2 ∧
        Succeeded c 4 .ship 2) = true :=
    Run.of_eval (fun c : (system ⟨.http, ⟨true⟩⟩).Config => decide (Succeeded c 2 .confirm 2 ∧
        Ends c 3 ∧ ¬Succeeded c 3 .confirm 2 ∧ Succeeded c 4 .ship 2))
      (by decide +kernel) (by decide +kernel)
  obtain ⟨hconfirm, hends, hagain, hship⟩ := of_decide_eq_true hval
  have hts : ∀ t ∈ [2, 4], Succeeded c t (if t = 2 then .confirm else .ship) 2 := by
    intro t ht
    rcases List.mem_pair.mp ht with rfl | rfl
    · exact hconfirm
    · exact hship
  exact ⟨c, hrun, hconfirm, hends, hagain, hship,
    successes_on_one_walk hrun (fun t => if t = 2 then .confirm else .ship) (by decide) hts⟩

/-! ## Conflicts -/

/-- The inventory answers no transition with 409. -/
theorem Inventory.status_transition {s : Inventory} {rowId entryId id : Uuid} {a : Action}
    {r : Response} (h : (s.serve rowId entryId (.transition a id)).2.Shown (.transition a id) r) :
    r.status ≠ 409 := by
  -- no refusal of a transition is a conflict
  have hrefused : ∀ {e : Exc}, (Answer.refused e).Shown (.transition a id) r →
      e.statusCode ≠ 409 → r.status ≠ 409 := by
    intro e hshown hstatus
    rw [show r = .error e.statusCode e.message from hshown]
    exact hstatus
  -- a success has a status below 300
  have horder : ∀ {o : OrderCard}, (Answer.order o).Shown (.transition a id) r →
      r.status ≠ 409 := by
    intro o hshown
    obtain ⟨row, rfl, _⟩ := hshown
    simp [Response.status, Request.successStatus]
  simp only [Inventory.serve] at h
  split at h
  · -- 404
    exact hrefused h (by simp [Exc.statusCode])
  · unfold Inventory.transition at h
    split at h
    · split at h
      · split at h
        · -- 422, for the lack of stock
          exact hrefused h (by simp [Exc.statusCode])
        · split at h
          · exact horder h
          · exact hrefused h (by simp [Exc.statusCode])
      · exact horder h
    · -- 422, for the status
      exact hrefused h (by simp [Exc.statusCode])

/-- A transition that is answered 409 has been overtaken by a commit of a version of its
    order. -/
theorem Linearized.overtaken {d₀ : Db} {s : Sys} {k₀ : Nat} {t : TxId} {a : Action} {id : Uuid}
    {r : Response} (h : Linearized d₀ s k₀ t (.transition a id) r) (hr : r.status = 409) :
    ∃ k c, k₀ ≤ k ∧ s.wal[k]? = some c ∧ ∃ o ∈ orderRows c.writes, o.id = id := by
  cases h with
  | commits k c b hk hc _ hreq hserve hshown =>
    -- a 409 is neither committed nor observed: the inventory itself never answers it
    have hanswer : b = (Inventory.serve (rowId c.writes) (entryId c.writes)
        (d₀.after s.wal k).inventory (.transition a id)).2 := by
      rw [Commit.serve, hreq] at hserve
      exact (congrArg Prod.snd hserve).symm
    exact absurd hr (Inventory.status_transition (hanswer ▸ hshown))
  | observes k b _ _ _ hserve hshown =>
    have hanswer : b = (Inventory.serve 0 0 (d₀.after s.wal k).inventory (.transition a id)).2 :=
      (congrArg Prod.snd (hserve 0 0)).symm
    exact absurd hr (Inventory.status_transition (hanswer ▸ hshown))
  | conflict k c a' o _ hk hc ho hreq =>
    obtain ⟨_, rfl⟩ := Request.transition.inj hreq
    exact ⟨k, c, hk, hc, o, mem_orderRows.mpr ho, rfl⟩
  | invalid _ _ hr' =>
    subst hr'
    cases hr

/-- From `c₀` on, `n` transitions of the order `id` have been answered 409, each of them started
    when the one before it had ended. -/
inductive Conflicts (cache : CacheService) (id : Uuid) (c₀ : (system ⟨.http, cache⟩).Config) :
    Nat → (system ⟨.http, cache⟩).Config → Prop
  | nil : Conflicts cache id c₀ 0 c₀
  | snoc {n : Nat} {c₁ c₂ c : (system ⟨.http, cache⟩).Config} {t : TxId} {a : Action}
      {ls : List (system ⟨.http, cache⟩).Label} {x : Tx} {r : Response} :
      Conflicts cache id c₀ n c₁ → c₁.next (.start t (.transition a id)) = some c₂ →
      Run (RaceFree ⟨.http, cache⟩) c₂ ls c → Ends c t → c.st.txs t = some x →
      x.faulted = false → x.response = some r → r.status = 409 → Conflicts cache id c₀ (n + 1) c

section

variable {cache : CacheService} {ls : List (system ⟨.http, cache⟩).Label} {id : Uuid} {n : Nat}
  {c₀ c₁ c₂ c : (system ⟨.http, cache⟩).Config} {t : TxId} {a : Action} {x : Tx} {r : Response}

/-- While a transition goes on that is then answered 409, its order gets a new version. -/
theorem versions_grow {ls₁ : List (system ⟨.http, cache⟩).Label}
    (hrun₁ : SysRun ⟨.http, cache⟩ (RaceFree ⟨.http, cache⟩) Db.empty ls₁ c₁)
    (hstart : c₁.next (.start t (.transition a id)) = some c₂)
    (hrun : Run (RaceFree ⟨.http, cache⟩) c₂ ls c) (hends : Ends c t) (hx : c.st.txs t = some x)
    (hfault : x.faulted = false) (hr : x.response = some r) (hstatus : r.status = 409) :
    (versionsOf c₁.st.wal id).length < (versionsOf c.st.wal id).length := by
  obtain ⟨y, hy, hconcluded⟩ := concluded_of_run Db.consistent_empty Db.namesUnique_empty hrun₁
    hstart hrun hends
  obtain rfl := Option.some.inj (hx.symm.trans hy)
  -- the conflict has its reason in the log
  have hlinearized : Linearized Db.empty c.st c₁.st.wal.length t (.transition a id) r := by
    cases hconcluded with
    | faulted hfaulted => cases hfaulted.symm.trans hfault
    | taken _ _ htaken =>
      obtain ⟨_, b, _, hreq, _⟩ := htaken
      cases hreq
    | linearized r' hr' hlinearized => exact Option.some.inj (hr.symm.trans hr') ▸ hlinearized
  obtain ⟨k, r, hk, hentry, o, ho, rfl⟩ := hlinearized.overtaken hstatus
  obtain ⟨rest, hwal⟩ := wal_since_start hstart hrun
  -- the overtaking commit came after the start
  have hmem : r ∈ rest := by
    rw [← hwal, List.getElem?_append_right hk] at hentry
    exact List.mem_of_getElem? hentry
  have hpos := List.length_pos_of_mem (mem_versionsOf hmem ho)
  rw [← hwal, versionsOf_append, List.length_append]
  omega

/-- Every conflict has cost a version of the order. -/
theorem Conflicts.versions (h : Conflicts cache id c₀ n c)
    (hrun : SysRun ⟨.http, cache⟩ (RaceFree ⟨.http, cache⟩) Db.empty ls c₀) :
    (∃ ls, SysRun ⟨.http, cache⟩ (RaceFree ⟨.http, cache⟩) Db.empty ls c) ∧
      (versionsOf c₀.st.wal id).length + n ≤ (versionsOf c.st.wal id).length := by
  induction h with
  | nil => exact ⟨⟨ls, hrun⟩, le_rfl⟩
  | snoc _ hstart hrun₂ hends hx hfault hr hstatus ih =>
    obtain ⟨⟨ls₁, hrun₁⟩, hlength⟩ := ih
    have hgrow := versions_grow hrun₁ hstart hrun₂ hends hx hfault hr hstatus
    exact ⟨⟨_, (raceFree_start hrun₁ hstart).trans hrun₂⟩, by omega⟩

/-- In a run without races, an order of version `v` conflicts at most `4 - v` times in a row. -/
theorem conflicts_bounded (hrun : SysRun ⟨.http, cache⟩ (RaceFree ⟨.http, cache⟩) Db.empty ls c₀)
    {o : Order} (ho : c₀.st.db.orders.find? id = some o) (h : Conflicts cache id c₀ n c) :
    o.version + n ≤ 4 := by
  obtain ⟨⟨ls', hrun'⟩, hlength⟩ := h.versions hrun
  obtain ⟨hlast, hcycle⟩ := (hrun.log Db.consistent_empty).lifeCycles id
  rw [ho] at hlast
  have hne : versionsOf c₀.st.wal id ≠ [] := by
    intro hnil
    rw [hnil] at hlast
    cases hlast
  rw [List.getLast?_eq_getElem?] at hlast
  have hversion := (hcycle hne).numbered _ o hlast
  have hpos := List.length_pos_iff.mpr hne
  have hne' : versionsOf c.st.wal id ≠ [] := by
    apply List.ne_nil_of_length_pos
    omega
  -- versions count the life's rows, of which there are four at most
  have hle := (((hrun'.log Db.consistent_empty).lifeCycles id).2 hne').length_le
  omega

end

/-- A cancellation overtakes a confirmation, which is then answered 409. -/
theorem conflicts_bounded_overtaken : ∃ c₀ c o,
    SysRun ⟨.http, ⟨true⟩⟩ (RaceFree ⟨.http, ⟨true⟩⟩) Db.empty overordered c₀ ∧
    c₀.st.db.orders.find? 2 = some o ∧ Conflicts ⟨true⟩ 2 c₀ 1 c ∧ o.version + (1 : Nat) ≤ 4 := by
  obtain ⟨c₀, c, hrun, hrest, hplaced, hends, x, hx, hfault, r, hr, hstatus⟩ : ∃ c₀ c,
      SysRun ⟨.http, ⟨true⟩⟩ (RaceFree ⟨.http, ⟨true⟩⟩) Db.empty overordered c₀ ∧
      Run (RaceFree ⟨.http, ⟨true⟩⟩) c₀ ([.start 2 (.transition .confirm 2)] ++ overtaken) c ∧
      (c₀.st.db.orders.find? 2).isSome = true ∧ Ends c 2 ∧ ∃ x ∈ c.st.txs 2, x.faulted = false ∧
        ∃ r ∈ x.response, r.status = 409 :=
    Run.of_decide₂ (by decide +kernel) (by decide +kernel)
  obtain ⟨c₁, hone, hrun₂⟩ := hrest.split
  have hstart : c₀.next (.start 2 (.transition .confirm 2)) = some c₁ := by
    simpa [Config.run] using hone.run_eq
  obtain ⟨o, ho⟩ := Option.isSome_iff_exists.mp hplaced
  have hconflicts : Conflicts ⟨true⟩ 2 c₀ 1 c :=
    .snoc .nil hstart hrun₂ hends hx hfault hr hstatus
  exact ⟨c₀, c, o, hrun, ho, hconflicts, conflicts_bounded hrun ho hconflicts⟩

end Nova
