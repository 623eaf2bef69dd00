import Mathlib.Data.Set.Finite.Basic
import Nova.App.Redis
import Nova.ForStd.Simulation
import Nova.Spec.Coherence
import Nova.Spec.Linearizability

/-!
# Redis behind the cache

The system keeps the cache as a function from items to quantities, of which an entry may
expire at any moment. The server keeps it in a Redis of texts with deadlines, beside the
entries of other clients. This file proves that the former says all there is to say about
the latter.

## Main results

- `server_refines`: what the server does to the requests of a run, the system does in a run of
  the same moves.
- `stale_read_recent`: a stock read that does not return the committed quantity has it from a
  `SETEX` that Redis took not longer ago than the time to live.
-/

namespace Nova

open Machine

/-! ## Keys -/

/-- An id is read off its text: the hyphens stand at fixed places. -/
theorem Uuid.str_inj {id id' : Uuid} : Uuid.str id = Uuid.str id' ↔ id = id' := by
  constructor
  · intro h
    have hlen := Text.le_length_hex 32 id
    have hlen' := Text.le_length_hex 32 id'
    rw [← Text.hex_inj 32]
    unfold Uuid.str at h
    generalize Text.hex 32 id = ds at h hlen
    generalize Text.hex 32 id' = ds' at h hlen'
    -- five groups of digits, of which the first four have fixed lengths
    simp only at h
    obtain ⟨h, h₅⟩ := List.append_inj h (by simp; omega)
    obtain ⟨h, h₄⟩ := List.append_inj h (by simp; omega)
    obtain ⟨h, h₃⟩ := List.append_inj h (by simp; omega)
    obtain ⟨h₁, h₂⟩ := List.append_inj h (by simp; omega)
    -- the groups without the hyphens are the digits
    have hparts : ∀ l : List Char, l = l.take 8 ++ ((l.drop 8).take 4 ++ ((l.drop 12).take 4 ++
        ((l.drop 16).take 4 ++ l.drop 20))) := by
      intro l
      conv_lhs => rw [← List.take_append_drop 8 l, ← List.take_append_drop 4 (l.drop 8),
        List.drop_drop, ← List.take_append_drop 4 (l.drop 12), List.drop_drop,
        ← List.take_append_drop 4 (l.drop 16), List.drop_drop]
    rw [hparts ds, hparts ds', h₁, List.tail_eq_of_cons_eq h₂, List.tail_eq_of_cons_eq h₃,
      List.tail_eq_of_cons_eq h₄, List.tail_eq_of_cons_eq h₅]
  · rintro rfl
    rfl

/-- Different items have different keys. -/
theorem CacheKeys.stock_inj {id id' : Uuid} :
    CacheKeys.stock id = CacheKeys.stock id' ↔ id = id' := by
  unfold CacheKeys.stock
  rw [List.append_cancel_left_eq, Uuid.str_inj]

/-- The key of an item begins with the prefix. -/
theorem CacheKeys.prefix_stock (id : Uuid) : CacheKeys.stockPrefix <+: CacheKeys.stock id :=
  List.prefix_append _ _

/-! ## The cache of the server -/

/-- The same state with other entries in Redis. -/
def Sys.withCache (s : Sys) (cache : Uuid → Option Int) : Sys := { s with cache }

/-- The server as the system has it. -/
def Server.seen (s : Server) : Sys :=
  s.pg.withCache fun id => (s.redis.get? (CacheKeys.stock id)).bind Text.int?

/-- `P` holds of every entry under a stock key. -/
def Server.StockEntries (P : Timed (List Char) (List Char) → Prop) (s : Server) : Prop :=
  ∀ e ∈ s.redis.entries.rows, CacheKeys.stockPrefix <+: e.key → P e

/-- Under a stock key is a quantity. -/
def Server.WellKept : Server → Prop :=
  Server.StockEntries fun e => ∃ id q, e.key = CacheKeys.stock id ∧ e.value = Text.str q

section

variable {s : Sys} {t : TxId} {x : Tx} {e : Env} {f : Uuid → Option Int}

/-- A transaction's view does not read Redis. -/
private theorem view_withCache : (s.withCache f).view x = s.view x := rfl

/-- Taking locks does not read Redis. -/
private theorem acquire_withCache (ls : List (Row × LockMode)) :
    (s.withCache f).acquire t ls = (s.acquire t ls).map (·.withCache f) := by
  unfold Sys.acquire
  show (if (ls.any fun l => s.blocked t l.1 l.2) = true then _ else _) = _
  split <;> rfl

/-- `INSERT INTO menu_items` does not read Redis. -/
private theorem insertItem_withCache (n : NewItem) : (s.withCache f).insertItem t x e n =
    (s.insertItem t x e n).map fun p => (p.1, p.2.withCache f) := by
  unfold Sys.insertItem
  show (if s.freshItem t x e.uuid = true then _ else _) = _
  cases s.freshItem t x e.uuid with
  | false =>
    -- the id is taken: no outcome
    rfl
  | true =>
    rw [view_withCache, acquire_withCache]
    cases n.row? e with
    | none =>
      -- a CHECK constraint fails
      rfl
    | some row =>
      simp only [↓reduceIte, Option.map_map]
      congr 1
      funext s'
      simp only [Function.comp_apply]
      -- the name is taken or not
      split <;> rfl

/-- `UPDATE menu_items` does not read Redis. -/
private theorem updateItem_withCache (id : Uuid) (c : ItemChange) :
    (s.withCache f).updateItem t x e id c =
      (s.updateItem t x e id c).map fun p => (p.1, p.2.withCache f) := by
  unfold Sys.updateItem
  rw [view_withCache, acquire_withCache]
  cases (s.view x).items.find? id with
  | none => rfl
  | some row =>
    simp only
    cases c.updated? row e with
    | none =>
      -- a CHECK constraint fails
      rfl
    | some row' => simp only [Option.map_map]; rfl

/-- `INSERT INTO orders` does not read Redis. -/
private theorem insertOrder_withCache (n : NewOrder) : (s.withCache f).insertOrder t x e n =
    (s.insertOrder t x e n).map fun p => (p.1, p.2.withCache f) := by
  unfold Sys.insertOrder
  show (if s.freshOrder t x e.uuid = true then _ else _) = _
  cases s.freshOrder t x e.uuid with
  | false => rfl
  | true =>
    rw [view_withCache, acquire_withCache]
    cases n.row? e with
    | none => rfl
    | some row =>
      cases (s.view x).items.find? n.itemId with
      | none => rfl
      | some i => simp only [↓reduceIte, Option.map_map]; rfl

/-- `UPDATE orders` does not read Redis. -/
private theorem updateOrder_withCache (id : Uuid) (v : Int) (st : OrderStatus) :
    (s.withCache f).updateOrder t x e id v st =
      (s.updateOrder t x e id v st).map fun p => (p.1, p.2.withCache f) := by
  unfold Sys.updateOrder
  rw [view_withCache, acquire_withCache]
  cases (s.view x).orders.find? id with
  | none => rfl
  | some row =>
    simp only
    split
    · -- the version is the expected one
      simp only [Option.map_map]
      rfl
    · rfl

/-- `INSERT INTO stock_movements` does not read Redis. -/
private theorem insertMovement_withCache (n : NewMovement) :
    (s.withCache f).insertMovement t x e n =
    (s.insertMovement t x e n).map fun p => (p.1, p.2.withCache f) := by
  unfold Sys.insertMovement
  show (if s.freshMovement t x e.uuid = true then _ else _) = _
  cases s.freshMovement t x e.uuid with
  | false => rfl
  | true =>
    rw [view_withCache, acquire_withCache]
    cases Sys.movementKeys (s.view x) n with
    | false =>
      -- a foreign key names no row
      rfl
    | true => simp only [↓reduceIte, Option.map_map]; rfl

/-- No statement but those of Redis reads or writes the cache. -/
private theorem run_withCache {o : Stmt} (ho : o.isRedis = false) :
    (s.withCache f).run t x e o = (s.run t x e o).map fun p => (p.1, p.2.withCache f) := by
  cases o with
  | redisGet | redisSetex => cases ho
  | selectItem | selectOrder | commit | rollback | respond => rfl
  | selectItemForUpdate id =>
    simp only [Sys.run, view_withCache, acquire_withCache]
    cases (s.view x).items.find? id with
    | none => rfl
    | some row => simp only [Option.map_map]; rfl
  | insertItem n => exact insertItem_withCache n
  | updateItem id c => exact updateItem_withCache id c
  | insertOrder n => exact insertOrder_withCache n
  | updateOrder id v st => exact updateOrder_withCache id v st
  | insertMovement n => exact insertMovement_withCache n

/-- A statement that does not reach Redis leaves the cache alone. -/
private theorem exec_withCache {o : Stmt} (ho : o.isRedis = false ∨ e.fault ≠ none) :
    exec e t o (s.withCache f) = (exec e t o s).map fun p => (p.1, p.2.withCache f) := by
  have htxs : (s.withCache f).txs t = s.txs t := rfl
  unfold exec
  rw [htxs]
  cases s.txs t with
  | none =>
    -- no such request
    rfl
  | some x =>
    simp only
    split
    · -- the transaction is aborted
      rfl
    · cases hfault : e.fault with
      | none =>
        -- a Redis command would have to be failed
        exact run_withCache (ho.resolve_right fun h => h hfault)
      | some f' =>
        simp only
        split
        · -- an SQL statement is failed
          rfl
        · cases hredis : o.isRedis with
          | true => rfl
          | false => exact run_withCache hredis

end

/-! ## Simulation -/

/-- How a statement fares: Redis refuses a `SETEX` whose time to live is not positive. -/
def Env.reaching (e : Env) (ttlSeconds : Int) : Stmt → Env
  | .redisSetex _ _ =>
      if 0 < ttlSeconds ∨ e.fault ≠ none then e else { e with fault := some .error }
  | _ => e

section

variable {s s' : Server} {t : TxId} {e : Env} {ttlSeconds : Int}

/-- Entries of other clients are not seen. -/
theorem Server.seen_event_foreign {key : List Char} (h : ¬CacheKeys.stockPrefix <+: key)
    (ttl : Nat) (value : List Char) :
    (Server.event (.foreign key h ttl value) s).seen = s.seen := by
  unfold Server.seen Server.event Sys.withCache
  simp only [ExpiringStore.get?_setex]
  congr 1
  funext id
  rw [if_neg]
  rintro rfl
  exact h (CacheKeys.prefix_stock id)

/-- A `SETEX` of an item's quantity is seen as its entry. -/
theorem Server.seen_setex (id : Uuid) (ttl : Nat) (q : Int) :
    (Server.mk s.pg (s.redis.setex (CacheKeys.stock id) ttl (Text.str q))).seen =
      { s.seen with cache := Function.update s.seen.cache id (some q) } := by
  unfold Server.seen Sys.withCache
  simp only [ExpiringStore.get?_setex]
  congr 1
  funext id'
  by_cases hid : id' = id
  · subst hid
    -- the quantity is read back from its text
    rw [if_pos rfl, Function.update_self, Option.bind_some, Text.int?_str]
  · -- another item has another key
    rw [if_neg fun h => hid (CacheKeys.stock_inj.mp h), Function.update_of_ne hid]

/-- Every text under a stock key is a number. -/
theorem Server.WellKept.int? (h : s.WellKept) {id : Uuid} {value : List Char}
    (hget : s.redis.get? (CacheKeys.stock id) = some value) : ∃ q, Text.int? value = some q := by
  obtain ⟨e, he, _, rfl⟩ := ExpiringStore.get?_eq_some_iff.mp hget
  have hkey := Table.key_of_find? he
  obtain ⟨_, q, _, hvalue⟩ := h e (Table.mem_of_find? he) (hkey ▸ CacheKeys.prefix_stock id)
  exact ⟨q, hvalue ▸ Text.int?_str q⟩

/-- Where no `SETEX` reaches Redis, the server hears what the system hears. -/
theorem Env.reaching_eq {o : Stmt} (ho : o.isRedis = false ∨ e.fault ≠ none) :
    e.reaching ttlSeconds o = e := by
  cases o with
  | redisSetex id q =>
    have hfault : e.fault ≠ none := ho.resolve_left Bool.noConfusion
    simp [Env.reaching, hfault]
  | _ => rfl

/-- What does not reach Redis is left to the database. -/
private theorem server_exec_pg {o : Stmt} (ho : o.isRedis = false ∨ e.fault ≠ none) :
    s.exec ttlSeconds e t o = (exec e t o s.pg).map fun p => (p.1, { s with pg := p.2 }) := by
  cases o with
  | redisGet id =>
    cases hfault : e.fault with
    | none =>
      -- not failed, but a Redis command
      exact absurd hfault (ho.resolve_left Bool.noConfusion)
    | some f => simp only [Server.exec, hfault]
  | redisSetex id q =>
    cases hfault : e.fault with
    | none => exact absurd hfault (ho.resolve_left Bool.noConfusion)
    | some f => simp only [Server.exec, hfault]
  | _ => rfl

/-- A statement of the server is one of the system, with the same answer. -/
theorem Server.exec_seen (hkept : s.WellKept) (o : Stmt) :
    Nova.exec (e.reaching ttlSeconds o) t o s.seen =
      (s.exec ttlSeconds e t o).map fun p => (p.1, p.2.seen) := by
  -- PostgreSQL answers, or the fault does
  by_cases ho : o.isRedis = false ∨ e.fault ≠ none
  · rw [server_exec_pg ho, Env.reaching_eq ho, Server.seen, exec_withCache ho, Option.map_map]
    rfl
  · obtain ⟨hredis, hfault⟩ := not_or.mp ho
    rw [not_not] at hfault
    have htxs : s.seen.txs t = s.pg.txs t := rfl
    cases o with
    | redisGet id =>
      have hcache : s.seen.cache id = (s.redis.get? (CacheKeys.stock id)).bind Text.int? := rfl
      simp only [Server.exec, hfault, Env.reaching, Nova.exec, htxs]
      cases s.pg.txs t with
      | none => rfl
      | some x =>
        simp only [Stmt.isSql, Bool.and_false, Bool.false_eq_true, ↓reduceIte, Sys.run, hcache,
          Option.map_some, Server.redisGet]
        cases hvalue : s.redis.get? (CacheKeys.stock id) with
        | none => rfl
        | some value =>
          -- what is stored under a stock key is the text of a number
          obtain ⟨q, hq⟩ := hkept.int? hvalue
          simp only [Option.bind_some, hq]
          rfl
    | redisSetex id q =>
      simp only [Server.exec, hfault, Env.reaching]
      by_cases hpos : 0 < ttlSeconds
      · -- the entry is stored on both sides
        simp only [hpos, true_or, ↓reduceIte, Nova.exec, htxs]
        cases s.pg.txs t with
        | none => rfl
        | some x =>
          simp only [hfault, Stmt.isSql, Bool.and_false, Bool.false_eq_true, ↓reduceIte, Sys.run,
            Option.map_some, Server.redisSetex, hpos]
          have hseen := Server.seen_setex (s := ⟨s.pg.setTx t { x with published := some (id, q) },
            s.redis⟩) id (1000 * ttlSeconds.toNat) q
          exact congrArg (fun p => some (Except.ok (), p)) hseen.symm
      · -- Redis refuses a time to live that is not positive, where the system is told to fail
        simp only [hpos, ne_eq, not_true_eq_false, or_self, ↓reduceIte, Nova.exec, htxs]
        cases s.pg.txs t with
        | none => rfl
        | some x =>
          simp only [Stmt.isSql, Stmt.isRedis, Bool.and_false, Bool.false_eq_true, ↓reduceIte,
            Option.map_some, Server.redisSetex, hpos, Fault.failure]
          rfl
    | _ => exact absurd rfl hredis

/-- The only statement that stores an entry is a `SETEX` that does not fail. -/
private theorem exec_redis {o : Stmt} {r : o.Res}
    (h : s.exec ttlSeconds e t o = some (r, s')) : s'.redis = s.redis ∨ ∃ id q,
      o = .redisSetex id q ∧ e.fault = none ∧ 0 < ttlSeconds ∧
      s'.redis = s.redis.setex (CacheKeys.stock id) (1000 * ttlSeconds.toNat) (Text.str q) := by
  by_cases ho : o.isRedis = false ∨ e.fault ≠ none
  · -- no Redis command, or a failed one
    rw [server_exec_pg ho] at h
    obtain ⟨p, _, heq⟩ := Option.map_eq_some_iff.mp h
    obtain ⟨_, rfl⟩ := Prod.mk.inj heq
    exact Or.inl rfl
  · obtain ⟨hredis, hfault⟩ := not_or.mp ho
    rw [not_not] at hfault
    cases o with
    | redisGet id =>
      simp only [Server.exec, hfault] at h
      obtain ⟨x, _, hget⟩ := Option.map_eq_some_iff.mp h
      have hs' : s' = (s.redisGet t x id).2 := (congrArg Prod.snd hget).symm
      unfold Server.redisGet at hs'
      refine Or.inl ?_
      -- a `GET` stores nothing, whatever it finds
      split at hs'
      · rw [hs']
      · split at hs' <;> rw [hs']
    | redisSetex id q =>
      simp only [Server.exec, hfault] at h
      obtain ⟨x, _, hset⟩ := Option.map_eq_some_iff.mp h
      unfold Server.redisSetex at hset
      -- a `SETEX` stores its entry if the time to live is positive
      split at hset
      · rename_i hpos
        obtain ⟨_, rfl⟩ := Prod.mk.inj hset
        exact Or.inr ⟨id, q, rfl, hfault, hpos, rfl⟩
      · obtain ⟨_, rfl⟩ := Prod.mk.inj hset
        exact Or.inl rfl
    | _ => exact absurd rfl hredis

/-- A statement keeps what holds of the stock entries, if what it stores has it too. -/
theorem Server.StockEntries.exec {P : Timed (List Char) (List Char) → Prop}
    (hkept : s.StockEntries P) {o : Stmt} {r : o.Res}
    (h : s.exec ttlSeconds e t o = some (r, s'))
    (hnew : ∀ id q, o = .redisSetex id q → e.fault = none → 0 < ttlSeconds →
      P ⟨CacheKeys.stock id, Text.str q, s.redis.now + 1000 * ttlSeconds.toNat⟩) :
    s'.StockEntries P := by
  intro entry hentry hprefix
  rcases exec_redis h with hsame | ⟨id, q, ho, hfault, hpos, hset⟩
  · rw [hsame] at hentry
    exact hkept entry hentry hprefix
  · rw [hset] at hentry
    -- the entry just stored
    rcases Table.mem_upsert.mp hentry with rfl | ⟨hmem, _⟩
    · exact hnew id q ho hfault hpos
    · -- an older one
      exact hkept entry hmem hprefix

/-- Nothing that happens to Redis stores an entry under a stock key. -/
theorem Server.StockEntries.event {P : Timed (List Char) (List Char) → Prop}
    (hkept : s.StockEntries P) (d : RedisEvent) : (Server.event d s).StockEntries P := by
  intro entry hentry hprefix
  cases d with
  | advance ms => exact hkept entry hentry hprefix
  | evict key => exact hkept entry (List.mem_filter.mp hentry).1 hprefix
  | foreign key h ttl value =>
    rcases Table.mem_upsert.mp hentry with rfl | ⟨hmem, _⟩
    · exact absurd hprefix h
    · exact hkept entry hmem hprefix

/-! ### Expiry -/

/-- Items that expire one after the other expire together. -/
private theorem expire_all (ids : List Uuid) (s : Sys) :
    ids.foldl (fun s id => s.expire id) s =
      s.withCache fun id => if id ∈ ids then none else s.cache id := by
  induction ids generalizing s with
  | nil => rfl
  | cons id ids ih =>
    rw [List.foldl_cons, ih]
    unfold Sys.withCache Sys.expire
    congr 1
    funext id'
    by_cases hid : id' = id
    · -- expired now, whatever comes later
      subst hid
      simp
    · simp [hid]

/-- Finitely many items have an entry. -/
private theorem exists_stocked (s : Server) : ∃ ids : List Uuid, ∀ id,
    (s.redis.get? (CacheKeys.stock id)).isSome → id ∈ ids := by
  have hfinite : {id | CacheKeys.stock id ∈ s.redis.entries.rows.map Timed.key}.Finite :=
    Set.Finite.preimage (fun _ _ _ _ h => CacheKeys.stock_inj.mp h) (List.finite_toSet _)
  refine ⟨hfinite.toFinset.toList, fun id hid => ?_⟩
  rw [Finset.mem_toList, Set.Finite.mem_toFinset]
  obtain ⟨value, hvalue⟩ := Option.isSome_iff_exists.mp hid
  obtain ⟨entry, hentry, _⟩ := ExpiringStore.get?_eq_some_iff.mp hvalue
  exact List.mem_map.mpr ⟨entry, Table.mem_of_find? hentry, Table.key_of_find? hentry⟩

/-- What happens to Redis is, for the system, that entries expire. -/
theorem Server.seen_event (d : RedisEvent) (s : Server) :
    ∃ ids : List Uuid, (Server.event d s).seen = ids.foldl (fun s id => s.expire id) s.seen := by
  cases d with
  | advance ms =>
    -- all items with an entry, and of them those whose entry runs out
    obtain ⟨ids, hids⟩ := exists_stocked s
    let after := s.redis.advance ms
    refine ⟨ids.filter fun id => (after.get? (CacheKeys.stock id)).isNone, ?_⟩
    rw [expire_all]
    unfold Server.event Server.seen Sys.withCache
    congr 1
    funext id
    simp only [List.mem_filter, Option.isNone_iff_eq_none]
    rcases s.redis.get?_advance ms (CacheKeys.stock id) with hnone | hsame
    · -- an entry that was seen has expired
      rw [hnone]
      by_cases hid : id ∈ ids
      · rw [if_pos ⟨hid, rfl⟩]
        rfl
      · rw [if_neg fun h => hid h.1]
        cases hbefore : s.redis.get? (CacheKeys.stock id) with
        | none => rfl
        | some value => exact absurd (hids id (by simp [hbefore])) hid
    · -- an entry that is still there is seen as before
      simp only [hsame]
      split
      · rename_i h
        rw [show s.redis.get? (CacheKeys.stock id) = none from hsame.symm.trans h.2]
        rfl
      · rfl
  | evict key =>
    -- the evicted key is an item's, or no entry is seen to go
    by_cases hkey : ∃ id, CacheKeys.stock id = key
    · obtain ⟨id, rfl⟩ := hkey
      refine ⟨[id], ?_⟩
      unfold Server.event Server.seen Sys.withCache
      rw [List.foldl_cons, List.foldl_nil, Sys.expire]
      congr 1
      funext id'
      rw [ExpiringStore.get?_delete]
      by_cases hid : id' = id
      · subst hid
        simp
      · rw [if_neg fun h => hid (CacheKeys.stock_inj.mp h), Function.update_of_ne hid]
    · refine ⟨[], ?_⟩
      unfold Server.event Server.seen Sys.withCache
      congr 1
      funext id
      rw [ExpiringStore.get?_delete, if_neg fun h => hkey ⟨id, h⟩]
  | foreign key h ttl value => exact ⟨[], Server.seen_event_foreign h ttl value⟩

end

/-! ## Runs -/

section

variable {cfg : Config} {ttlSeconds : Int} {d₀ : Db} {r₀ : Redis}
  {ok : (system cfg).Config → (system cfg).Label → Prop} {ls : List (server cfg ttlSeconds).Label}
  {c : (server cfg ttlSeconds).Config}

/-- A move of the server that satisfies `ok` as a move of the system. -/
def Allowed (ok : (system cfg).Config → (system cfg).Label → Prop)
    (c : (server cfg ttlSeconds).Config) : (server cfg ttlSeconds).Label → Prop
  | .start t req => ok ⟨c.pool, c.st.seen⟩ (.start t req)
  | .step t e =>
    match c.pool t with
    | some (.call o _) => ok ⟨c.pool, c.st.seen⟩ (.step t (e.reaching ttlSeconds o))
    | _ => True
  | .tick _ => True

instance [hdec : ∀ c l, Decidable (ok c l)] (c : (server cfg ttlSeconds).Config) :
    ∀ l, Decidable (Allowed ok c l)
  | .start _ _ => hdec _ _
  | .step t e =>
    show Decidable (match c.pool t with
      | some (.call o _) => ok ⟨c.pool, c.st.seen⟩ (.step t (e.reaching ttlSeconds o))
      | _ => True) from
    match c.pool t with
    | some (.call _ _) => hdec _ _
    | some (.ret _) | none => isTrue trivial
  | .tick _ => isTrue trivial

/-- What is seen of a move: the request that starts, or that one makes its next call. -/
def systemMove : (system cfg).Label → Option (TxId × Option Request)
  | .start t req => some (t, some req)
  | .step t _ => some (t, none)
  | .tick _ => none

/-- What is seen of a move of the server. -/
def serverMove : (server cfg ttlSeconds).Label → Option (TxId × Option Request)
  | .start t req => some (t, some req)
  | .step t _ => some (t, none)
  | .tick _ => none

/-- No entry under a stock key. -/
def Redis.Unused (r : Redis) : Prop := ∀ e ∈ r.entries.rows, ¬CacheKeys.stockPrefix <+: e.key

/-- A run of the server from the tables `d₀`, beside the entries `r₀` of other clients. -/
abbrev ServerRun (cfg : Config) (ttlSeconds : Int)
    (ok : (server cfg ttlSeconds).Config → (server cfg ttlSeconds).Label → Prop) (d₀ : Db)
    (r₀ : Redis) : List (server cfg ttlSeconds).Label → (server cfg ttlSeconds).Config → Prop :=
  Run ok ((server cfg ttlSeconds).idle ⟨Sys.init d₀, r₀⟩)

/-- The server and the system with the same requests at the same points. -/
structure Matches (c : (server cfg ttlSeconds).Config) (c' : (system cfg).Config) : Prop where
  pool : c'.pool = c.pool
  st : c'.st = c.st.seen
  kept : c.st.WellKept

/-- The two begin in the same state when Redis has no stock entries. -/
theorem Redis.Unused.matches (h : r₀.Unused) :
    Matches ((server cfg ttlSeconds).idle ⟨Sys.init d₀, r₀⟩) ((system cfg).idle (Sys.init d₀)) where
  pool := rfl
  st := by
    show Sys.init d₀ = Server.seen ⟨Sys.init d₀, r₀⟩
    unfold Server.seen Sys.withCache Sys.init
    congr 1
    funext id
    cases hget : r₀.get? (CacheKeys.stock id) with
    | none => rfl
    | some value =>
      -- an entry under a stock key would be used
      obtain ⟨e, he, _⟩ := ExpiringStore.get?_eq_some_iff.mp hget
      exact absurd (Table.key_of_find? he ▸ CacheKeys.prefix_stock id) (h e (Table.mem_of_find? he))
  kept e he hprefix := absurd hprefix (h e he)

/-- A request starts on both sides. -/
theorem Matches.start {c₁ : (server cfg ttlSeconds).Config} {c' : (system cfg).Config} {t : TxId}
    {req : Request} (h : Matches c c') (hnext : c.next (.start t req) = some c₁) :
    ∃ c₁', c'.next (.start t req) = some c₁' ∧ Matches c₁ c₁' := by
  obtain ⟨pool, st⟩ := c'
  obtain ⟨rfl, rfl, hkept⟩ := h
  obtain ⟨hnone, rfl⟩ := next_start hnext
  refine ⟨⟨Function.update c.pool t (some (cfg.code req)), c.st.seen.start t req⟩, ?_,
    rfl, rfl, hkept⟩
  simp only [Config.next, hnone]
  rfl

/-- The system follows each move of the server, an event of Redis by the expiry of entries. -/
theorem server_simulated (hticks : ∀ c id, ok c (.tick id)) :
    Simulates (server cfg ttlSeconds) (system cfg) serverMove systemMove (Allowed ok) ok
      Matches where
  next {c c' l c₁} hR hok hnext := by
    cases l with
    | start t req =>
      obtain ⟨c₁', hnext', hmatches⟩ := hR.start hnext
      obtain ⟨pool, st⟩ := c'
      obtain ⟨rfl, rfl, _⟩ := hR
      exact ⟨_, c₁', .one hok hnext', hmatches, rfl⟩
    | step t e =>
      obtain ⟨pool, st⟩ := c'
      obtain ⟨rfl, rfl, hkept⟩ := hR
      obtain ⟨o, k, r, s, hcall, hexec, rfl⟩ := next_step hnext
      -- the run is admitted where it is told what reaches Redis
      have hok' : ok ⟨c.pool, c.st.seen⟩ (.step t (e.reaching ttlSeconds o)) := by
        simpa only [Allowed, hcall] using hok
      have hnext' : Config.next (M := system cfg) ⟨c.pool, c.st.seen⟩
          (.step t (e.reaching ttlSeconds o)) =
          some ⟨Function.update c.pool t (some (k r)), s.seen⟩ := by
        -- both sides answer the same
        have hseen : exec (e.reaching ttlSeconds o) t o c.st.seen =
            (Server.exec ttlSeconds e t o c.st).map fun p => (p.1, p.2.seen) :=
          Server.exec_seen hkept o
        have hserver : Server.exec ttlSeconds e t o c.st = some (r, s) := hexec
        rw [hserver] at hseen
        simp only [Config.next, hcall]
        exact congrArg (Option.map _) hseen
      refine ⟨_, _, .one hok' hnext', ⟨rfl, rfl, ?_⟩, rfl⟩
      exact hkept.exec hexec fun id q _ _ _ => ⟨id, q, rfl, rfl⟩
    | tick d =>
      obtain ⟨pool, st⟩ := c'
      obtain ⟨rfl, rfl, hkept⟩ := hR
      obtain rfl := next_tick hnext
      -- an event of Redis is any number of expired entries, none of which is seen as a move
      obtain ⟨ids, hids⟩ := Server.seen_event d c.st
      refine ⟨_, _, Run.ticks hticks ⟨c.pool, c.st.seen⟩ ids, ⟨rfl, hids.symm, hkept.event d⟩, ?_⟩
      show (ids.map Label.tick).filterMap systemMove = []
      clear hids
      induction ids with
      | nil => rfl
      | cons id ids ih => exact ih

/-- Whatever Redis, its clock and its other clients do, the requests of a run fare as in a run
    of the system in which they make the same moves. -/
theorem server_refines (hticks : ∀ c id, ok c (.tick id)) (hunused : r₀.Unused)
    (hrun : ServerRun cfg ttlSeconds (Allowed ok) d₀ r₀ ls c) :
    ∃ ls', SysRun cfg ok d₀ ls' ⟨c.pool, c.st.seen⟩ ∧
      ls'.filterMap systemMove = ls.filterMap serverMove := by
  obtain ⟨ls', ⟨pool, st⟩, hrun', hmatches, hmoves⟩ :=
    (server_simulated hticks).run hunused.matches hrun
  obtain ⟨rfl, rfl, _⟩ := hmatches
  exact ⟨ls', hrun', hmoves⟩

/-- What holds of the requests of the system holds of those of the server: without races,
    each that nothing outside the program has failed is linearizable. -/
theorem server_linearizable {cache : CacheService}
    {ls₁ ls₂ : List (server ⟨.http, cache⟩ ttlSeconds).Label}
    {c₁ c₂ c : (server ⟨.http, cache⟩ ttlSeconds).Config} {t : TxId} {req : Request}
    (hd₀ : d₀.Consistent) (hunique : d₀.NamesUnique) (hunused : r₀.Unused)
    (hrun₁ : ServerRun ⟨.http, cache⟩ ttlSeconds (Allowed (RaceFree _)) d₀ r₀ ls₁ c₁)
    (hstart : c₁.next (.start t req) = some c₂) (hrun₂ : Run (Allowed (RaceFree _)) c₂ ls₂ c)
    (hends : c.pool t = some (.ret ())) :
    ∃ x, c.st.pg.txs t = some x ∧ Concluded d₀ c.st.seen c₁.st.pg.wal.length t x req := by
  have hsim : Simulates (server ⟨.http, cache⟩ ttlSeconds) (system _) serverMove systemMove
      (Allowed (RaceFree _)) (RaceFree _) Matches := server_simulated fun _ _ => trivial
  obtain ⟨_, c₁', hrun₁', hmatch₁, _⟩ := hsim.run hunused.matches hrun₁
  -- each move of the server is one of the system, up to the cache
  obtain ⟨c₂', hstart', hmatch₂⟩ := hmatch₁.start hstart
  obtain ⟨_, c', hrun₂', hmatch, _⟩ := hsim.run hmatch₂ hrun₂
  have hends' : Ends c' t := (congrFun hmatch.pool t).trans hends
  -- where the theorem about runs applies
  have hconcluded := concluded_of_run hd₀ hunique hrun₁' hstart' hrun₂' hends'
  rw [hmatch₁.st, hmatch.st] at hconcluded
  exact hconcluded

/-- The entry was stored by a `SETEX` of the run that did not fail, for the time to live. -/
def StoredIn (ok : (server cfg ttlSeconds).Config → (server cfg ttlSeconds).Label → Prop)
    (c₀ : (server cfg ttlSeconds).Config) (ls : List (server cfg ttlSeconds).Label)
    (entry : Timed (List Char) (List Char)) : Prop :=
  ∃ ls₁ t e ls₂ c₁ id q k, ls = ls₁ ++ .step t e :: ls₂ ∧ Run ok c₀ ls₁ c₁ ∧
    c₁.pool t = some (.call (.redisSetex id q) k) ∧ e.fault = none ∧ 0 < ttlSeconds ∧
    entry = ⟨CacheKeys.stock id, Text.str q, c₁.st.redis.now + 1000 * ttlSeconds.toNat⟩

/-- In every run each stock entry was stored by a `SETEX` of it. -/
theorem entries_stored
    {ok : (server cfg ttlSeconds).Config → (server cfg ttlSeconds).Label → Prop}
    (hunused : r₀.Unused) (hrun : ServerRun cfg ttlSeconds ok d₀ r₀ ls c) :
    c.st.StockEntries (StoredIn ok ((server cfg ttlSeconds).idle ⟨Sys.init d₀, r₀⟩) ls) := by
  induction hrun with
  | nil => exact fun e he hprefix => absurd hprefix (hunused e he)
  | @snoc ls c l c' hrun _ hnext ih =>
    -- an entry stored before was stored before this move
    have hlonger : c.st.StockEntries
        (StoredIn ok ((server cfg ttlSeconds).idle ⟨Sys.init d₀, r₀⟩) (ls ++ [l])) := by
      intro entry hentry hprefix
      obtain ⟨ls₁, t, e, ls₂, c₁, id, q, k, rfl, hrest⟩ := ih entry hentry hprefix
      exact ⟨ls₁, t, e, ls₂ ++ [l], c₁, id, q, k, by simp, hrest⟩
    cases l with
    | start t req =>
      obtain ⟨_, rfl⟩ := next_start hnext
      exact hlonger
    | step t e =>
      obtain ⟨o, k, r, s, hcall, hexec, rfl⟩ := next_step hnext
      -- the only new entry is that of a `SETEX`
      refine hlonger.exec hexec fun id q ho hfault hpos => ?_
      subst ho
      exact ⟨ls, t, e, [], c, id, q, k, rfl, hrun, hcall, hfault, hpos, rfl⟩
    | tick d =>
      obtain rfl := next_tick hnext
      exact hlonger.event d

end

/-! ## Stale reads -/

/-- What `StockService.get_stock` returns to a request `t` that runs alone from `s`. -/
def Server.stockRead (s : Server) (ttlSeconds : Int) (cache : CacheService) (t : TxId) (id : Uuid) :
    Option (Except Exc ItemObj) :=
  ((server ⟨.http, cache⟩ ttlSeconds).alone {} t (StockService.getStock cache id {})
    { s with pg := s.pg.start t (.getStock id) }).map (·.1)

/-- A program that stores no entry. -/
private def StoresNothing {α : Type} : Prog Stmt Stmt.Res α → Prop
  | .ret _ => True
  | .call o k => (∀ id q, o ≠ .redisSetex id q) ∧ ∀ r, StoresNothing (k r)

/-- On its own, a program that stores nothing runs on the server as in the system it is seen
    as. -/
private theorem alone_seen (cfg : Config) (ttlSeconds : Int) (e : Env) (t : TxId) {α : Type}
    {p : Prog Stmt Stmt.Res α} (hp : StoresNothing p) {s : Server} (hkept : s.WellKept) :
    (server cfg ttlSeconds).alone e t p s = (system cfg).alone e t p s.seen := by
  induction p generalizing s with
  | ret a => rfl
  | call o k ih =>
    -- nothing else looks at whether a `SETEX` reaches Redis
    have hreaching : e.reaching ttlSeconds o = e := by
      cases o with
      | redisSetex id q => exact absurd rfl (hp.1 id q)
      | _ => rfl
    have hexec : exec (e.reaching ttlSeconds o) t o s.seen =
        (s.exec ttlSeconds e t o).map fun p => (p.1, p.2.seen) := Server.exec_seen hkept o
    rw [hreaching] at hexec
    show Option.bind (s.exec ttlSeconds e t o) _ = Option.bind (Nova.exec e t o s.seen) _
    rw [hexec]
    cases hs : s.exec ttlSeconds e t o with
    | none => rfl
    | some p =>
      -- the rest of the program is alone too
      exact ih p.1 (hp.2 p.1) (hkept.exec hs fun id q ho _ _ => absurd ho (hp.1 id q))

/-- The server and the system read the same. -/
theorem Server.stockRead_seen {s : Server} (hkept : s.WellKept) (ttlSeconds : Int)
    (cache : CacheService) (t : TxId) (id : Uuid) :
    s.stockRead ttlSeconds cache t id = s.seen.stockRead cache t id := by
  -- the reads of `get_stock`, along all their answers
  have hplain : StoresNothing (StockService.getStock cache id {}) := by
    obtain ⟨enabled⟩ := cache
    cases enabled with
    | false =>
      refine ⟨fun _ _ h => Stmt.noConfusion h, fun r => ?_⟩
      rcases r with f | _ | i <;> trivial
    | true =>
      refine ⟨fun _ _ h => Stmt.noConfusion h, fun r => ?_⟩
      rcases r with f | cached
      · cases f with
        | cancelledError => trivial
        | _ =>
          refine ⟨fun _ _ h => Stmt.noConfusion h, fun r => ?_⟩
          rcases r with f | _ | i <;> trivial
      · refine ⟨fun _ _ h => Stmt.noConfusion h, fun r => ?_⟩
        rcases r with f | _ | i
        · trivial
        · trivial
        · cases cached <;> trivial
  exact congrArg (Option.map (·.1)) (alone_seen ⟨.http, cache⟩ ttlSeconds {} t hplain
    (s := { s with pg := s.pg.start t (.getStock id) }) hkept)

/-- In every run from a Redis without stock entries, a stock read through the cache that is
    not the committed row has its quantity from a `SETEX` that Redis took at most the time to
    live before. -/
theorem stale_read_recent {cfg : Config} {ttlSeconds : Int}
    {ok : (server cfg ttlSeconds).Config → (server cfg ttlSeconds).Label → Prop} {d₀ : Db}
    {r₀ : Redis} {ls : List (server cfg ttlSeconds).Label} {c : (server cfg ttlSeconds).Config}
    (hunused : r₀.Unused) (hrun : ServerRun cfg ttlSeconds ok d₀ r₀ ls c) {t : TxId} {id : Uuid}
    (hstale : c.st.stockRead ttlSeconds ⟨true⟩ t id ≠ c.st.stockRead ttlSeconds ⟨false⟩ t id) :
    ∃ ls₁ t' e ls₂ c₁ q k i, ls = ls₁ ++ .step t' e :: ls₂ ∧
      ServerRun cfg ttlSeconds ok d₀ r₀ ls₁ c₁ ∧
      c₁.pool t' = some (.call (.redisSetex id q) k) ∧ e.fault = none ∧ 0 < ttlSeconds ∧
      c.st.redis.now ≤ c₁.st.redis.now + 1000 * ttlSeconds.toNat ∧
      c.st.pg.db.items.find? id = some i ∧ i.stockQuantity ≠ q ∧
      c.st.stockRead ttlSeconds ⟨true⟩ t id = some (.ok ⟨i, q, i.version⟩) := by
  have hstored := entries_stored hunused hrun
  have hkept : c.st.WellKept := by
    intro entry hentry hprefix
    obtain ⟨_, _, _, _, _, id, q, _, _, _, _, _, _, rfl⟩ := hstored entry hentry hprefix
    exact ⟨id, q, rfl, rfl⟩
  have htrue := Server.stockRead_seen hkept ttlSeconds ⟨true⟩ t id
  have hfalse := Server.stockRead_seen hkept ttlSeconds ⟨false⟩ t id
  rw [Sys.stockRead_enabled] at htrue
  rw [Sys.stockRead_disabled] at hfalse
  rw [htrue, hfalse] at hstale
  have hdb : c.st.seen.db = c.st.pg.db := rfl
  cases hrow : c.st.pg.db.items.find? id with
  | none => simp [hdb, hrow] at hstale
  | some i =>
    simp only [hdb, hrow] at hstale htrue
    have hcache : c.st.seen.cache id = (c.st.redis.get? (CacheKeys.stock id)).bind Text.int? := rfl
    rw [hcache] at hstale htrue
    cases hvalue : c.st.redis.get? (CacheKeys.stock id) with
    | none =>
      rw [hvalue] at hstale
      exact absurd rfl hstale
    | some value =>
      -- the entry that is read tells which `SETEX` stored it
      obtain ⟨entry, hentry, hlive, hentryValue⟩ := ExpiringStore.get?_eq_some_iff.mp hvalue
      have hkey := Table.key_of_find? hentry
      obtain ⟨ls₁, t', e, ls₂, c₁, id', q, k, hls, hrun₁, hcall, hfault, hpos, rfl⟩ :=
        hstored entry (Table.mem_of_find? hentry) (hkey ▸ CacheKeys.prefix_stock id)
      obtain rfl := CacheKeys.stock_inj.mp hkey
      have hq : Text.int? value = some q := hentryValue ▸ Text.int?_str q
      rw [hvalue, Option.bind_some, hq, Option.getD_some] at hstale htrue
      refine ⟨ls₁, t', e, ls₂, c₁, q, k, i, hls, hrun₁, hcall, hfault, hpos, hlive, rfl, ?_,
        htrue⟩
      rintro rfl
      exact hstale rfl

/-! ## A run -/

/-- The next calls of request `t`, each with a fresh id. -/
def serverTurns {cfg : Config} {ttlSeconds : Int} (t : TxId) (uuids : List Uuid) :
    List (server cfg ttlSeconds).Label :=
  uuids.map fun uuid => .step t { uuid }

/-- An adjustment stores its quantity and cannot commit; the counter of a client of the rate
    limiter expires, and almost five minutes pass. -/
def lostOnServer : List (server ⟨.http, ⟨true⟩⟩ 300).Label :=
  [.start 0 (.createItem { name := "Tea", price := 350, stockQuantity := 10 })] ++
  serverTurns 0 [0, 0, 1, 0, 0, 0] ++
  [.start 1 (.adjustStock 0 { delta := -3, reason := "spilled" })] ++
  serverTurns 1 [0, 0, 2, 0, 0, 0] ++ [.step 1 { fault := some .error }] ++ serverTurns 1 [0] ++
  [.tick (.evict "LIMITER/127.0.0.1".toList), .tick (.advance 299999)]

/-- The counter of the rate limiter. -/
def counters : Redis :=
  ExpiringStore.setex {} "LIMITER/127.0.0.1".toList 60000 "1".toList

/-- What request 9 reads of item 0. -/
def quantityRead (s : Server) (cache : CacheService) : Option Int :=
  (s.stockRead 300 cache 9 0).bind fun r => r.toOption.map (·.stockQuantity)

/-- A counter is no stock entry. -/
theorem counters_unused : counters.Unused := by
  intro e he
  obtain rfl := List.mem_singleton.mp (show e ∈ [_] from he)
  decide

/-- The server's run and the system's make the same moves and end with the same entry. -/
theorem server_refines_lost : ∃ c ls', ServerRun ⟨.http, ⟨true⟩⟩ 300
    (Allowed (RaceFree ⟨.http, ⟨true⟩⟩)) Db.empty counters lostOnServer c ∧
    SysRun ⟨.http, ⟨true⟩⟩ (RaceFree ⟨.http, ⟨true⟩⟩) Db.empty ls' ⟨c.pool, c.st.seen⟩ ∧
    c.st.seen.cache 0 = some 7 ∧
    ls'.filterMap systemMove = lostOnServer.filterMap serverMove := by
  obtain ⟨c, hrun, hcache⟩ : ∃ c, ServerRun ⟨.http, ⟨true⟩⟩ 300
      (Allowed (RaceFree ⟨.http, ⟨true⟩⟩)) Db.empty counters lostOnServer c ∧
      c.st.seen.cache 0 = some 7 :=
    Run.of_eval (fun c : (server ⟨.http, ⟨true⟩⟩ 300).Config => c.st.seen.cache 0)
      (by decide +kernel) (by decide +kernel)
  obtain ⟨ls', hrun', hmoves⟩ := server_refines (fun _ _ => trivial) counters_unused hrun
  exact ⟨c, ls', hrun, hrun', hcache, hmoves⟩

/-- One millisecond before the entry expires, a read still answers with its quantity. -/
theorem stale_read_recent_lost : ∃ c, ServerRun ⟨.http, ⟨true⟩⟩ 300 (fun _ _ => True) Db.empty
    counters lostOnServer c ∧ c.st.redis.now = 299999 ∧
    ∃ ls₁ t e ls₂ c₁ q k i, lostOnServer = ls₁ ++ .step t e :: ls₂ ∧
      ServerRun ⟨.http, ⟨true⟩⟩ 300 (fun _ _ => True) Db.empty counters ls₁ c₁ ∧
      c₁.pool t = some (.call (.redisSetex 0 q) k) ∧ e.fault = none ∧ 0 < (300 : Int) ∧
      c.st.redis.now ≤ c₁.st.redis.now + 1000 * (300 : Int).toNat ∧
      c.st.pg.db.items.find? 0 = some i ∧ i.stockQuantity ≠ q ∧
      c.st.stockRead 300 ⟨true⟩ 9 0 = some (.ok ⟨i, q, i.version⟩) := by
  obtain ⟨c, hrun, hreads⟩ : ∃ c, ServerRun ⟨.http, ⟨true⟩⟩ 300 (fun _ _ => True) Db.empty
      counters lostOnServer c ∧
      (quantityRead c.st ⟨true⟩, quantityRead c.st ⟨false⟩, c.st.redis.now) =
        (some 7, some 10, 299999) :=
    Run.of_eval (fun c : (server ⟨.http, ⟨true⟩⟩ 300).Config =>
      (quantityRead c.st ⟨true⟩, quantityRead c.st ⟨false⟩, c.st.redis.now))
      (by decide +kernel) (Config.allows_of_forall fun _ _ => trivial)
  -- the read returns 7, the row has 10
  obtain ⟨htrue, hrest⟩ := Prod.mk.inj hreads
  obtain ⟨hfalse, hnow⟩ := Prod.mk.inj hrest
  refine ⟨c, hrun, hnow, stale_read_recent counters_unused hrun fun hsame => ?_⟩
  unfold quantityRead at htrue hfalse
  rw [hsame, hfalse] at htrue
  cases htrue

end Nova
