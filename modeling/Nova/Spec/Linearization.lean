import Nova.Spec.Inventory
import Nova.Spec.Duplicates

/-!
# The log is a serial history

`Db.after d₀ wal k` are the tables that the first `k` commits have led to. In a run in
which no optimistic check after a write comes too late and no stock read finds a stale
quantity in the cache (`RaceFree`), the log is a serial history of the requests: each of its
entries is the one commit of a request, and `Inventory.serve`, applied to one request after
the other, gives the tables at every point (`history_serial`). The schedule is otherwise
free: requests interleave, wait for each other, fail and are cancelled.
-/

namespace Nova

open Machine

/-! ## The tables behind a log -/

/-- The tables that the first `k` commits have led to. -/
def Db.after (d₀ : Db) (wal : List Commit) (k : Nat) : Db :=
  replay (fun d c => d.applyAll c.writes) d₀ wal k

section

variable {A : Allow} {d₀ d : Db} {wal : List Commit} {k : Nat} {c : Commit}

/-- The tables are those that the whole log has led to. -/
theorem Log.db_eq (h : Log A d₀ wal d) : d = d₀.after wal wal.length := by
  rw [Db.after, replay_length]
  induction h with
  | nil => rfl
  | snoc _ _ _ ih => rw [List.foldl_append, ← ih]; rfl

/-- A state is still there in every longer log. -/
theorem Log.db_eq_of_prefix {wal' : List Commit} (h : Log A d₀ wal d) (hwal : wal <+: wal') :
    d = d₀.after wal' wal.length := by
  rw [Db.after, replay_of_prefix hwal le_rfl]
  exact h.db_eq

/-- A log up to one of its commits, and the effect of that commit. -/
theorem Log.at (h : Log A d₀ wal d) (hc : wal[k]? = some c) :
    Log A d₀ (wal.take k) (d₀.after wal k) ∧
      ∃ e, Effect A d₀ (wal.take k) (d₀.after wal k) c.req c.read e c.writes := by
  induction h with
  | nil => cases hc
  | @snoc wal d c' e hlog heff _ ih =>
    rcases Nat.lt_trichotomy k wal.length with hlt | rfl | hgt
    · rw [List.getElem?_append_left hlt] at hc
      rw [List.take_append_of_le_length hlt.le, Db.after, replay_append hlt.le]
      exact ih hc
    · obtain rfl : c' = c := by simpa using hc
      rw [List.take_left, Db.after, replay_append le_rfl]
      have hd : d = replay _ d₀ wal wal.length := hlog.db_eq
      rw [← hd]
      exact ⟨hlog, e, heff⟩
    · rw [List.getElem?_eq_none (by simp; omega)] at hc
      cases hc

/-- A log up to any point. -/
theorem Log.take (h : Log A d₀ wal d) (hk : k ≤ wal.length) :
    Log A d₀ (wal.take k) (d₀.after wal k) := by
  rcases Nat.lt_or_eq_of_le hk with hlt | rfl
  · exact (h.at (List.getElem?_eq_getElem hlt)).1
  · rw [List.take_length, ← h.db_eq]
    exact h

/-- No row disappears. -/
theorem Db.isSome_after {row : Row} {k' : Nat} (hle : k ≤ k')
    (h : ((d₀.after wal k).get row).isSome) : ((d₀.after wal k').get row).isSome :=
  replay_keeps (P := fun d : Db => (d.get row).isSome) h hle fun _ _ _ _ hj =>
    Db.isSome_get_applyAll hj

/-- No commit changes a name. -/
theorem Log.name_after (h : Log A d₀ wal d) (hk : k ≤ wal.length) {id : Uuid} {i : MenuItem}
    (hi : (d₀.after wal k).items.find? id = some i) :
    ∃ i', d.items.find? id = some i' ∧ i'.name = i.name := by
  rw [h.db_eq]
  refine replay_keeps (P := fun d : Db => ∃ i', d.items.find? id = some i' ∧ i'.name = i.name)
    ⟨i, hi, rfl⟩ hk fun j c hc _ hj => ?_
  obtain ⟨i', hi', hname⟩ := hj
  obtain ⟨_, e, heff⟩ := h.at hc
  obtain ⟨i'', hi'', hname'⟩ := heff.items.name hi'
  exact ⟨i'', hi'', hname'.trans hname⟩

/-- Where names are unique in the end, the name of a created item was free. -/
theorem Log.name_free (h : Log A d₀ wal d) (hunique : d.NamesUnique) (hc : wal[k]? = some c)
    {b : ItemCreate} (hreq : c.req = .createItem b) :
    ∀ j ∈ (d₀.after wal k).items.rows, j.name ≠ b.name := by
  intro j hj hname
  have hlt : k < wal.length := (List.getElem?_eq_some_iff.mp hc).1
  obtain ⟨_, e, heff⟩ := h.at hc
  have hnext : d₀.after wal (k + 1) = (d₀.after wal k).applyAll c.writes := replay_succ hc
  obtain ⟨j', hj', hjname⟩ := h.name_after hlt.le (Table.find?_of_mem hj)
  rw [hreq] at heff
  generalize c.writes = ws at heff hnext
  cases heff with
  | refused hrefusal =>
    cases hrefusal with
    | noItem hitem => cases hitem
  | @created _ _ i m hfresh hiname =>
    have hi : (d₀.after wal (k + 1)).items.find? i.id = some i := by
      rw [hnext]
      exact Table.find?_upsert_self _ _
    obtain ⟨i', hi', hi'name⟩ := h.name_after hlt hi
    -- both have come to the end, so they are one item
    have hsame : i' = j' := hunique i' (Table.mem_of_find? hi') j' (Table.mem_of_find? hj')
      (by rw [hi'name, hiname, hjname, hname])
    have hid : j.id = i.id := by
      rw [← Table.key_of_find? hi', ← Table.key_of_find? hj', hsame]
    rw [← hid, Table.find?_of_mem hj] at hfresh
    cases hfresh

/-! ## Serving the log -/

/-- Serve the request of a commit, with the ids that its rows have got. -/
def Commit.serve (c : Commit) (s : Inventory) : Inventory × Answer :=
  s.serve (rowId c.writes) (entryId c.writes) c.req

/-- A commit of the log serves its request in the inventory of that point. -/
theorem Log.serve_at (h : Log A d₀ wal d) (hstale : ¬A.stale) (hover : ¬A.overwrite)
    (hd₀ : d₀.Consistent) (hunique : d.NamesUnique) (hc : wal[k]? = some c)
    (hws : c.writes ≠ []) :
    ∃ e, Effect A d₀ (wal.take k) (d₀.after wal k) c.req c.read e c.writes ∧
      c.serve (d₀.after wal k).inventory =
        ((d₀.after wal (k + 1)).inventory, answerOf c.writes e) := by
  obtain ⟨hlog, e, heff⟩ := h.at hc
  refine ⟨e, heff, ?_⟩
  rw [show d₀.after wal (k + 1) = (d₀.after wal k).applyAll c.writes from replay_succ hc]
  exact heff.serves hstale hover (fun o ho => hlog.knownOrder hd₀ ho)
    (fun b hb => h.name_free hunique hc hb) hws

/-- The tables behind a log are its requests, served one after the other. -/
theorem Log.replay_serve (h : Log A d₀ wal d) (hstale : ¬A.stale) (hover : ¬A.overwrite)
    (hd₀ : d₀.Consistent) (hunique : d.NamesUnique) (hws : ∀ c ∈ wal, c.writes ≠ []) (k : Nat) :
    (d₀.after wal k).inventory = replay (fun s c => (Commit.serve c s).1) d₀.inventory wal k := by
  have hmap : (d₀.after wal k).inventory =
      replay (fun s c => (Commit.serve c s).1) d₀.inventory (wal.map id) k :=
    map_replay (fun j c hc => ?_) k
  · rwa [List.map_id] at hmap
  · obtain ⟨e, _, hserve⟩ := h.serve_at hstale hover hd₀ hunique hc
      (hws c (List.mem_of_getElem? hc))
    show ((d₀.after wal j).applyAll c.writes).inventory = (c.serve (d₀.after wal j).inventory).1
    rw [hserve, show d₀.after wal (j + 1) = (d₀.after wal j).applyAll c.writes from replay_succ hc]

end

/-! ## Serial histories -/

section

variable {cfg : Config} {d₀ : Db} {ok : (system cfg).Config → (system cfg).Label → Prop}
  {ls : List (system cfg).Label} {c : (system cfg).Config}

/-- A move only adds to the log. -/
theorem wal_of_next {c c' : (system cfg).Config} {l : (system cfg).Label}
    (hnext : c.next l = some c') : c.st.wal <+: c'.st.wal := by
  have hone : Run (fun _ _ => True) c ([] ++ [l]) c' := Run.nil.snoc trivial hnext
  exact wal_of_run hone

/-- Only commits that write something are in the log. -/
theorem wal_writes_of_run (hrun : SysRun cfg ok d₀ ls c) : ∀ r ∈ c.st.wal, r.writes ≠ [] := by
  induction hrun with
  | nil => exact fun _ hr => by cases hr
  | @snoc ls c l c' _ _ hnext ih =>
    cases l with
    | start t req =>
      obtain ⟨_, rfl⟩ := next_start hnext
      exact ih
    | step t e =>
      obtain ⟨_, _, _, s, _, hexec, rfl⟩ := next_step hnext
      obtain ⟨x, hx, hmove | ⟨_, _, rfl⟩⟩ := exec_move hexec
      · obtain ⟨hwal, _⟩ := hmove.frame hx
        exact hwal ▸ ih
      · -- the log grows only by a `COMMIT` of something
        intro r hr
        have hwal : (c.st.commit t x).wal =
            if x.writes = [] then c.st.wal else c.st.wal ++ [⟨t, x.req, x.read, x.writes⟩] := rfl
        rw [hwal] at hr
        split at hr
        · exact ih r hr
        · rename_i hne
          rcases List.mem_append.mp hr with hr | hr
          · exact ih r hr
          · obtain rfl := List.mem_singleton.mp hr
            exact hne
    | tick id =>
      obtain rfl := next_tick hnext
      exact ih

/-- Every commit is the one commit of a request, and the tables at each point are what the
    requests committed so far lead to when they are served one after the other. -/
structure SerialHistory (d₀ : Db) (s : Sys) : Prop where
  tables : s.db = d₀.after s.wal s.wal.length
  served : ∀ k, (d₀.after s.wal k).inventory =
    replay (fun i c => (Commit.serve c i).1) d₀.inventory s.wal k
  once : (s.wal.map (·.tx)).Nodup
  requests : ∀ r ∈ s.wal, ∃ x, s.txs r.tx = some x ∧ x.req = r.req

/-- The moves of a run without races: an optimistic check after a write is current, and a
    stock read finds its row as the cache has it. -/
abbrev RaceFree (cfg : Config) (c : (system cfg).Config) (l : (system cfg).Label) : Prop :=
  OnCall (Admitted cfg ⟨True, False, False⟩) c l

/-- A run without races logs the effects of its requests. -/
theorem RaceFree.log (hd₀ : d₀.Consistent) (hrun : SysRun cfg (RaceFree cfg) d₀ ls c) :
    Log ⟨True, False, False⟩ d₀ c.st.wal c.st.db :=
  log_of_run hd₀ (fun _ => trivial) (fun _ _ hl => hl) hrun

instance (cfg : Config) (e : Env) (t : TxId) (o : Stmt) (s : Sys) :
    Decidable (Admitted cfg ⟨True, False, False⟩ e t o s) :=
  inferInstanceAs (Decidable ((False ∨ cfg.harness = .service ∨ CurrentCheck e t o s = true) ∧
    (False ∨ cfg.cache.enabled = false ∨ CurrentRead e t o s = true)))

/-- Whatever the interleaving and whatever fails, a run without races commits a serial
    history of its requests. -/
theorem history_serial (hd₀ : d₀.Consistent) (hunique : d₀.NamesUnique)
    (hrun : SysRun cfg (RaceFree cfg) d₀ ls c) : SerialHistory d₀ c.st where
  tables := (RaceFree.log hd₀ hrun).db_eq
  served := (RaceFree.log hd₀ hrun).replay_serve id id hd₀ (names_unique hd₀ hunique hrun)
    (wal_writes_of_run hrun)
  once := (hrun.linked hd₀).once
  requests r hr := by
    obtain ⟨x, _, hx, hreq, _⟩ := (hrun.linked hd₀).wal r hr
    exact ⟨x, hx, hreq⟩

end

/-- An item and an order for more than is in stock. -/
def overordered : List (system ⟨.http, ⟨true⟩⟩).Label :=
  [.start 0 (.createItem { name := "Tea", price := 350, stockQuantity := 2 })] ++
  turns 0 [0, 0, 1, 0, 0, 0] ++
  [.start 1 (.placeOrder { itemId := 0, quantity := 3 })] ++ turns 1 [0, 2, 0, 0, 0]

/-- A confirmation has read the order when a cancellation overtakes it. -/
def overtaken : List (system ⟨.http, ⟨true⟩⟩).Label :=
  turns 2 [0] ++ [.start 3 (.transition .cancel 2)] ++ turns 3 [0, 0, 0, 0, 0] ++
  turns 2 [0, 0, 0, 0]

/-- A confirmation is overtaken by a cancellation: three commits, each of a request of its
    own. -/
theorem history_serial_overtaken : ∃ c, SysRun ⟨.http, ⟨true⟩⟩ (RaceFree ⟨.http, ⟨true⟩⟩) Db.empty
    (overordered ++ [.start 2 (.transition .confirm 2)] ++ overtaken) c ∧
    c.st.wal.map (·.tx) = [0, 1, 3] ∧ SerialHistory Db.empty c.st := by
  obtain ⟨c, hrun, hwal⟩ : ∃ c, SysRun ⟨.http, ⟨true⟩⟩ (RaceFree ⟨.http, ⟨true⟩⟩) Db.empty
      (overordered ++ [.start 2 (.transition .confirm 2)] ++ overtaken) c ∧
      c.st.wal.map (·.tx) = [0, 1, 3] :=
    Run.of_eval (fun c : (system ⟨.http, ⟨true⟩⟩).Config => c.st.wal.map (·.tx))
      (by decide +kernel) (by decide +kernel)
  exact ⟨c, hrun, hwal, history_serial Db.consistent_empty Db.namesUnique_empty hrun⟩

end Nova
