import Nova.App.Api
import Nova.ForStd.Expiry
import Nova.ForStd.Numerals

/-!
# The server and its Redis

`CacheService` keeps each quantity as a text under a text key, for `cache_ttl_seconds`. The
client is made without `decode_responses`, so `int(value)` reads the bytes of an ASCII text.

The same Redis also holds the counters of the rate limiter, and it may evict any entry.
-/

namespace Nova

/-! ## Keys -/

/-- `str(item_id)` -/
def Uuid.str (id : Uuid) : List Char :=
  let digits := Text.hex 32 id
  digits.take 8 ++ '-' :: (digits.drop 8).take 4 ++ '-' :: (digits.drop 12).take 4 ++
    '-' :: (digits.drop 16).take 4 ++ '-' :: digits.drop 20

namespace CacheKeys

/-- The prefix of the keys of stock entries. -/
def stockPrefix : List Char := "nova:stock:".toList

/-- Write-through cache key for a single item's stock_quantity. -/
def stock (itemId : Uuid) : List Char := stockPrefix ++ itemId.str

end CacheKeys

/-! ## The server -/

/-- Redis holds texts under texts, each until its time runs out. -/
abbrev Redis := ExpiringStore (List Char) (List Char)

/-- The database with its requests, and Redis. The field `cache` of the former stays empty. -/
structure Server where
  pg : Sys
  redis : Redis := {}

/-- What happens to Redis. Time is in milliseconds. -/
inductive RedisEvent where
  | advance (ms : Nat)
  | evict (key : List Char)
  /-- Another client, such as the rate limiter, stores an entry of its own. -/
  | foreign (key : List Char) (h : ¬CacheKeys.stockPrefix <+: key) (ttl : Nat) (value : List Char)

namespace Server

/-- What an event does to the server. -/
def event : RedisEvent → Server → Server
  | .advance ms, s => { s with redis := s.redis.advance ms }
  | .evict key, s => { s with redis := s.redis.delete key }
  | .foreign key _ ttl value, s => { s with redis := s.redis.setex key ttl value }

/-- `await redis.get(...)` and `int(value)`. A `ValueError` is caught like an error of Redis. -/
def redisGet (s : Server) (t : TxId) (x : Tx) (id : Uuid) :
    Except Failure (Option Int) × Server :=
  match s.redis.get? (CacheKeys.stock id) with
  | none => (.ok none, { s with pg := s.pg.setTx t { x with cached := none } })
  | some value =>
    match Text.int? value with
    | some q => (.ok (some q), { s with pg := s.pg.setTx t { x with cached := some q } })
    | none => (.error .redisError, { s with pg := s.pg.setTx t (x.redisFault .error) })

/-- `await redis.setex(...)`. Redis refuses a time to live that is not positive. -/
def redisSetex (s : Server) (ttlSeconds : Int) (t : TxId) (x : Tx) (id : Uuid) (q : Int) :
    Except Failure Unit × Server :=
  if 0 < ttlSeconds then
    (.ok (), {
      pg := s.pg.setTx t { x with published := some (id, q) }
      redis := s.redis.setex (CacheKeys.stock id) (1000 * ttlSeconds.toNat) (Text.str q) })
  else (.error .redisError, { s with pg := s.pg.setTx t (x.redisFault .error) })

/-- The meaning of an await of transaction `t`. -/
def exec (ttlSeconds : Int) (e : Env) (t : TxId) (o : Stmt) (s : Server) :
    Option (o.Res × Server) :=
  match o, e.fault with
  | .redisGet id, none => (s.pg.txs t).map fun x => s.redisGet t x id
  | .redisSetex id q, none => (s.pg.txs t).map fun x => s.redisSetex ttlSeconds t x id q
  | o, _ => (Nova.exec e t o s.pg).map fun p => (p.1, { s with pg := p.2 })

end Server

/-- Any number of requests against one database and one Redis. -/
def server (cfg : Config) (ttlSeconds : Int) : Machine Stmt Stmt.Res where
  State := Server
  Req := Request
  Env := Env
  Tick := RedisEvent
  code := cfg.code
  start t req s := { s with pg := s.pg.start t req }
  exec := Server.exec ttlSeconds
  tick := Server.event

end Nova
