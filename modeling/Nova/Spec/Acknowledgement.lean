import Nova.Spec.Runs

/-!
# Acknowledged writes

The code of `get_db` after its `yield` runs after the response has been sent, so `COMMIT`
comes after the acknowledgement: whenever a writer is answered with a success, all that
it has written is still uncommitted (`acknowledged_uncommitted`). A client that acts on
the answer may not find what it has written: `acknowledged_unseen` is a client that
creates an item, is answered 201, and gets 404 when it orders the item.
-/

namespace Nova

open Machine

variable {cache : CacheService} {d₀ : Db}
  {ok : (system ⟨.http, cache⟩).Config → (system ⟨.http, cache⟩).Label → Prop}
  {ls : List (system ⟨.http, cache⟩).Label} {c : (system ⟨.http, cache⟩).Config}

/-- The request has written something that it has not committed. -/
def Sys.Uncommitted (s : Sys) (t : TxId) : Prop :=
  ∃ x, s.txs t = some x ∧ x.commit = none ∧ x.writes ≠ []

/-- A writer that is about to answer with a success has committed nothing yet. -/
theorem answering_uncommitted (hd₀ : d₀.Consistent) (hrun : SysRun ⟨.http, cache⟩ ok d₀ ls c)
    {t : TxId} {x : Tx} {status : Nat} {body : Body}
    (hr : answering c t = some (.success status body)) (hx : c.st.txs t = some x)
    (hwriter : x.req.isRead = false) : x.commit = none ∧ x.writes ≠ [] := by
  obtain ⟨k, hpool⟩ := answering_eq_some.mp hr
  have hholds := holds_of_run (A := ⟨True, True, True⟩) hd₀ (fun _ => trivial)
    (fun c l _ => admitted_any c l) hrun
  obtain ⟨y, hy, _, _, hpending⟩ := hholds.pre (contract_holds hd₀ fun _ => trivial) hpool
  obtain rfl : x = y := Option.some.inj (hx.symm.trans hy)
  exact ⟨(hpending hwriter).1, (hpending hwriter).2.1⟩

/-- Sending a response changes nothing else, and never fails. -/
private theorem exec_respond {e : Env} {t : TxId} {x : Tx} {s s' : Sys} {r : Response}
    {res : Except Failure Unit} (hx : s.txs t = some x)
    (h : exec e t (.respond r) s = some (res, s')) :
    s' = s.setTx t { x with response := some r } := by
  simp only [exec, hx, Stmt.isSql, Stmt.isRedis, Bool.and_false, Bool.false_eq_true, ↓reduceIte,
    Sys.run] at h
  cases hf : e.fault with
  | none | some f =>
    simp only [hf, Option.some.injEq, Prod.mk.injEq] at h
    exact h.2.symm

/-- The move that sends the response of a request. -/
theorem SysRun.sent (hrun : SysRun ⟨.http, cache⟩ ok d₀ ls c) {t : TxId} {x : Tx} {r : Response}
    (hx : c.st.txs t = some x) (hr : x.response = some r) :
    ∃ ls' e c' c'' x', ls' ++ [.step t e] <+: ls ∧ SysRun ⟨.http, cache⟩ ok d₀ ls' c' ∧
      c'.next (.step t e) = some c'' ∧ answering c' t = some r ∧ c'.st.txs t = some x' ∧
      x'.req = x.req := by
  induction hrun generalizing x with
  | nil => cases hx
  | @snoc ls c l c' hpre hl hnext ih =>
    -- a record that already had the response leads to an earlier move
    have hearlier : ∀ y, c.st.txs t = some y → y.response = some r → y.req = x.req →
        ∃ ls' e c₁ c₂ x', ls' ++ [.step t e] <+: ls ++ [l] ∧ SysRun ⟨.http, cache⟩ ok d₀ ls' c₁ ∧
          c₁.next (.step t e) = some c₂ ∧ answering c₁ t = some r ∧ c₁.st.txs t = some x' ∧
          x'.req = x.req := by
      intro y hy hyr hreq
      obtain ⟨ls', e, c₁, c₂, x', hprefix, hrun', hnext', hanswer, hx', hreq'⟩ := ih hy hyr
      exact ⟨ls', e, c₁, c₂, x', hprefix.trans (List.prefix_append _ _), hrun', hnext', hanswer,
        hx', hreq'.trans hreq⟩
    cases l with
    | start t' req =>
      obtain ⟨_, rfl⟩ := next_start hnext
      by_cases ht : t = t'
      · subst ht
        obtain rfl := Option.some.inj ((Sys.setTx_txs_self _).symm.trans hx)
        cases hr
      · exact hearlier x ((Sys.setTx_txs_ne ht _).symm.trans hx) hr rfl
    | step t' e =>
      obtain ⟨o, k, res, s, hcall, hexec, rfl⟩ := next_step hnext
      by_cases ht : t = t'
      · subst ht
        obtain ⟨y, hy, _⟩ := exec_move hexec
        obtain ⟨z, hz, hnotes⟩ := exec_notes hy hexec
        obtain rfl : z = x := Option.some.inj (hz.symm.trans hx)
        have hreq := exec_req hy hexec hx
        rcases hnotes.response with hsame | ⟨r', rfl, hr'⟩
        · exact hearlier y hy (hsame.symm.trans hr) hreq.symm
        · obtain rfl : r' = r := Option.some.inj (hr'.symm.trans hr)
          exact ⟨ls, e, c, _, y, List.prefix_rfl, hpre, hnext, answering_eq_some.mpr ⟨k, hcall⟩, hy,
            hreq.symm⟩
      · exact hearlier x ((exec_txs_ne hexec ht).symm.trans hx) hr rfl
    | tick id =>
      obtain rfl := next_tick hnext
      exact hearlier x hx hr rfl

/-- Whenever a writer was answered with a success, nothing that it has written was
    committed at the time, neither before the response was sent nor right after. -/
theorem acknowledged_uncommitted (hd₀ : d₀.Consistent) (hrun : SysRun ⟨.http, cache⟩ ok d₀ ls c)
    {t : TxId} {x : Tx} {status : Nat} {body : Body} (hx : c.st.txs t = some x)
    (hwriter : x.req.isRead = false) (hr : x.response = some (.success status body)) :
    ∃ ls' e c' c'', ls' ++ [.step t e] <+: ls ∧ SysRun ⟨.http, cache⟩ ok d₀ ls' c' ∧
      c'.next (.step t e) = some c'' ∧ answering c' t = some (.success status body) ∧
      c'.st.Uncommitted t ∧ c''.st.Uncommitted t ∧ c''.st.db = c'.st.db := by
  obtain ⟨ls', e, c', c'', y, hprefix, hrun', hnext, hanswer, hy, hreq⟩ := hrun.sent hx hr
  obtain ⟨hcommit, hwrites⟩ := answering_uncommitted hd₀ hrun' hanswer hy (hreq ▸ hwriter)
  obtain ⟨k, hpool⟩ := answering_eq_some.mp hanswer
  obtain ⟨o, k', res, s, hcall, hexec, rfl⟩ := next_step hnext
  rw [hpool] at hcall
  obtain ⟨rfl, _⟩ := Prog.call.inj (Option.some.inj hcall)
  obtain rfl := exec_respond hy hexec
  exact ⟨ls', e, c', _, hprefix, hrun', hnext, hanswer, ⟨y, hy, hcommit, hwrites⟩,
    ⟨_, Sys.setTx_txs_self _, hcommit, hwrites⟩, rfl⟩

private theorem tea_priced : (0 : Int) < 350 := by decide

private theorem tea_stocked : (0 : Int) ≤ 10 := by decide

/-- The row of a new item. -/
def tea : MenuItem where
  id := 0
  name := "Tea"
  description := none
  price := 350
  stockQuantity := 10
  lowStockThreshold := 10
  version := 1
  createdAt := 0
  updatedAt := 0
  ckStockNonNegative := tea_stocked
  ckPricePositive := tea_priced
  ckThresholdNonNegative := tea_stocked

/-- The item is created, and the client has its 201. -/
def teaCreated : List (system ⟨.http, ⟨true⟩⟩).Label :=
  [.start 0 (.createItem { name := "Tea", price := 350, stockQuantity := 10 })] ++
  turns 0 [0, 0, 1, 0, 0]

/-- The 201 of a creation, sent before the item is committed. -/
theorem acknowledged_uncommitted_created : ∃ c x,
    SysRun ⟨.http, ⟨true⟩⟩ (fun _ _ => True) Db.empty teaCreated c ∧
    c.st.txs 0 = some x ∧ x.response = some (.success 201 (.item tea)) ∧ ∃ ls' e c' c'',
      ls' ++ [.step 0 e] <+: teaCreated ∧
      SysRun ⟨.http, ⟨true⟩⟩ (fun _ _ => True) Db.empty ls' c' ∧
      c'.next (.step 0 e) = some c'' ∧ answering c' 0 = some (.success 201 (.item tea)) ∧
      c'.st.Uncommitted 0 ∧ c''.st.Uncommitted 0 ∧ c''.st.db = c'.st.db := by
  let shown : (system ⟨.http, ⟨true⟩⟩).Config → Option (Bool × Option Response) := fun c =>
    (c.st.txs 0).map fun x => (x.req.isRead, x.response)
  obtain ⟨c, hrun, hval⟩ : ∃ c, SysRun ⟨.http, ⟨true⟩⟩ (fun _ _ => True) Db.empty teaCreated c ∧
      shown c = some (false, some (.success 201 (.item tea))) :=
    Run.of_eval shown (by decide +kernel) (by decide +kernel)
  obtain ⟨x, hx, htx⟩ := Option.map_eq_some_iff.mp hval
  obtain ⟨hwriter, hr⟩ := Prod.mk.inj htx
  exact ⟨c, x, hrun, hx, hr, acknowledged_uncommitted Db.consistent_empty hrun hx hwriter hr⟩

/-- A client that orders the item as soon as it has the 201 of its creation may get 404. -/
theorem acknowledged_unseen : ¬∀ ls₁ ls₂ c₁ c t t' x x' i b,
    SysRun ⟨.http, ⟨true⟩⟩ (fun _ _ => True) Db.empty ls₁ c₁ →
    c₁.st.txs t = some x → x.response = some (.success 201 (.item i)) → b.itemId = i.id →
    SysRun ⟨.http, ⟨true⟩⟩ (fun _ _ => True) Db.empty
      (ls₁ ++ [.start t' (.placeOrder b)] ++ ls₂) c →
    c.st.txs t' = some x' → ∀ r, x'.response = some r → r.status ≠ 404 := by
  intro hall
  let created : (system ⟨.http, ⟨true⟩⟩).Config → Option (Option Response) := fun c =>
    (c.st.txs 0).map (·.response)
  obtain ⟨c₁, hrun₁, hval₁⟩ : ∃ c,
      SysRun ⟨.http, ⟨true⟩⟩ (fun _ _ => True) Db.empty teaCreated c ∧
      created c = some (some (.success 201 (.item tea))) :=
    Run.of_eval created (by decide +kernel) (by decide +kernel)
  -- the order is placed before the item is committed
  let ordered : (system ⟨.http, ⟨true⟩⟩).Config → Option (Option Nat) := fun c =>
    (c.st.txs 1).map fun x => x.response.map Response.status
  obtain ⟨c, hrun, hval⟩ : ∃ c, SysRun ⟨.http, ⟨true⟩⟩ (fun _ _ => True) Db.empty
      (teaCreated ++ [.start 1 (.placeOrder { itemId := 0, quantity := 3 })] ++
        turns 1 [0, 0, 0]) c ∧
      ordered c = some (some 404) :=
    Run.of_eval ordered (by decide +kernel) (by decide +kernel)
  obtain ⟨x, hx, hr⟩ := Option.map_eq_some_iff.mp hval₁
  obtain ⟨x', hx', hr'⟩ := Option.map_eq_some_iff.mp hval
  obtain ⟨r, hr', hstatus⟩ := Option.map_eq_some_iff.mp hr'
  exact hall teaCreated (turns 1 [0, 0, 0]) c₁ c 0 1 x x' tea
    { itemId := 0, quantity := 3 } hrun₁ hx
    hr rfl hrun hx' r hr' hstatus

end Nova
