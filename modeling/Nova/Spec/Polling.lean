import Nova.Spec.Growth
import Nova.Spec.Trail

/-!
# Polling the movements

`GET /stock/{item_id}/movements` looks for the item and then selects its newest 100
movements. A client that polls it sees the trail go on: each page is what has been written
since the last one, newest first, and then the last page, cut off after 100 movements
(`pages_continue`). So no movement is missed between two polls with at most 100 new ones.
-/

namespace Nova

open Machine Reports

/-- The page shows the movements of the second statement, if the first has found the item. -/
theorem getMovements_across {ds : Nat → Db} {id : Uuid} {page : List StockMovement}
    (h : (Api.getMovements id).across ds = .ok page) :
    page = (orderedDesc (·.createdAt) ((ds 1).movementsOn id)).take 100 := by
  have hrow : (ds 0).select (.item id) = (ds 0).items.find? id := rfl
  simp only [Api.getMovements, Api.translateNotFound, Reports.StockService.getMovements,
    Reports.ItemRepository.getById, StockRepository.listMovementsForItem, Reading.execute,
    Bind.bind, Reading.bind, Prog.bind, Reading.across, hrow] at h
  cases hi : (ds 0).items.find? id with
  | none =>
    simp only [hi, Reading.raise, Prog.bind, Reading.across] at h
    cases h
  | some i =>
    simp only [hi, Prog.bind, Reading.across] at h
    exact (Except.ok.inj h).symm

section

variable {cfg : Config} {ok : (system cfg).Config → (system cfg).Label → Prop} {d₀ : Db}
  {cs : Nat → (system cfg).Config} {i j : Nat → Nat} {id : Uuid} {page page' : List StockMovement}

/-- Two polls whose statements run at any moments of a run, those of the second not before those
    of the first. -/
theorem pages_continue (hd₀ : d₀.Consistent) (h : Moments cfg ok d₀ cs) (hle : i 1 ≤ j 1)
    (hpage : (Api.getMovements id).across (fun k => tablesAt cs (i k)) = .ok page)
    (hpage' : (Api.getMovements id).across (fun k => tablesAt cs (j k)) = .ok page')
    (htimes : ((tablesAt cs (j 1)).movementsOn id).Pairwise
      fun m m' => m.createdAt < m'.createdAt) :
    ∃ ms, (tablesAt cs (j 1)).movementsOn id = (tablesAt cs (i 1)).movementsOn id ++ ms ∧
      page' = (ms.reverse ++ page).take 100 ∧ (ms.length ≤ 100 → ∀ m ∈ ms, m ∈ page') := by
  obtain ⟨ms, hms⟩ := (h.evolves hd₀ hle).movements.filter (·.itemId = id)
  -- the movements of the item have grown at the end
  have hlater : (tablesAt cs (j 1)).movementsOn id = (tablesAt cs (i 1)).movementsOn id ++ ms :=
    hms.symm
  -- so the earlier page is in commit order as well
  have htimes₁ : ((tablesAt cs (i 1)).movementsOn id).Pairwise
      fun m m' => m.createdAt < m'.createdAt :=
    htimes.sublist (hlater ▸ List.sublist_append_left _ _)
  have hfirst := getMovements_across hpage
  have hsecond := getMovements_across hpage'
  rw [orderedDesc_of_increasing htimes₁] at hfirst
  rw [orderedDesc_of_increasing htimes, hlater, List.reverse_append] at hsecond
  -- the limit of the first page does not matter beyond that of the second
  have hcontinues : page' = (ms.reverse ++ page).take 100 := by
    rw [hsecond, hfirst, List.take_append, List.take_append, List.take_take]
    congr 2
    omega
  refine ⟨ms, hlater, hcontinues, fun hlen m hm => ?_⟩
  -- up to 100 new movements are all there
  rw [hcontinues, List.take_append, List.take_of_length_le (by simpa using hlen)]
  exact List.mem_append_left _ (List.mem_reverse.mpr hm)

end

/-- One more adjustment after `counting 0`. -/
def recounted : List (system ⟨.http, ⟨false⟩⟩).Label :=
  .start 1 (.adjustStock 0 { delta := 1, reason := "counted" }) ::
    List.replicate 6 (.step 1 { uuid := 2, now := 1 })

/-- A read whose page has a length has returned a page. -/
private theorem ok_of_length {x : Except ReadExc (List StockMovement)} {n : Nat}
    (h : x.toOption.map List.length = some n) : ∃ page, x = .ok page ∧ page.length = n := by
  cases x with
  | error e => cases h
  | ok page => exact ⟨page, rfl, Option.some.inj h⟩

/-- The adjustment commits between the two statements of the second poll. -/
theorem pages_continue_recounted : ∃ (cs : Nat → (system ⟨.http, ⟨false⟩⟩).Config)
    (page page' : List StockMovement), Moments ⟨.http, ⟨false⟩⟩ (fun _ _ => True) Db.empty cs ∧
    (Api.getMovements 0).across (fun _ => tablesAt cs 0) = .ok page ∧
    (Api.getMovements 0).across (fun k => tablesAt cs (if k < 1 then 0 else 1)) = .ok page' ∧
    page.length = 1 ∧ page'.length = 2 ∧
    ∃ ms, (tablesAt cs 1).movementsOn 0 = (tablesAt cs 0).movementsOn 0 ++ ms ∧
      page' = (ms.reverse ++ page).take 100 ∧ (ms.length ≤ 100 → ∀ m ∈ ms, m ∈ page') := by
  obtain ⟨c₁, c₂, hrun₁, hrun₂, h₁, h₂, htimes⟩ : ∃ c₁ c₂,
      SysRun ⟨.http, ⟨false⟩⟩ (fun _ _ => True) Db.empty (counting 0) c₁ ∧
      Run (fun _ _ => True) c₁ recounted c₂ ∧
      ((Api.getMovements 0).across fun _ => c₁.st.db).toOption.map List.length = some 1 ∧
      ((Api.getMovements 0).across fun k => if k < 1 then c₁.st.db else c₂.st.db).toOption.map
        List.length = some 2 ∧
      (c₂.st.db.movementsOn 0).Pairwise fun m m' => m.createdAt < m'.createdAt :=
    Run.of_decide₂ (by decide +kernel) (Config.allows_of_forall fun _ _ => trivial)
  obtain ⟨page, hpage, hlength⟩ := ok_of_length h₁
  obtain ⟨page', hpage', hlength'⟩ := ok_of_length h₂
  rw [← tablesAt_two] at hpage'
  refine ⟨_, page, page', Moments.of_two hrun₁ hrun₂, hpage, hpage', hlength, hlength', ?_⟩
  exact pages_continue Db.consistent_empty (Moments.of_two hrun₁ hrun₂) (i := fun _ => 0)
    (j := fun k => if k < 1 then 0 else 1) (Nat.zero_le _) hpage hpage' htimes

end Nova
