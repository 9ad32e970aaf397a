import Mathlib.Data.List.AList
import PagedCacheServer.Bytes

/-!
# The benchmark cache

`BenchmarkCache` holds at most a given number of entries, whatever their sizes,
and evicts by one of four policies. A policy has a structure of its own next to
`cache_map` – a recency list, a queue, an insertion list, a circular buffer with a
hand – and three functions that keep it in step: `evict_*`, `update_*`, `add_*`.

The two time stamps of an entry are written and never read, and are left out. The
locks make each call one step.
-/

namespace PagedCacheServer

/-- `EvictionPolicy`. -/
inductive EvictionPolicy
  | lru
  | fifo
  | sieve
  | clock
deriving DecidableEq, Repr

/-- `BenchmarkCacheEntry`. -/
structure BenchmarkCacheEntry where
  key : Bytes
  value : Bytes
  /-- For SIEVE. -/
  visited : Bool
  /-- For CLOCK. -/
  referenceBit : Bool
deriving DecidableEq, Repr

/-- The constructor of `BenchmarkCacheEntry`. -/
def BenchmarkCacheEntry.new (key value : Bytes) : BenchmarkCacheEntry :=
  ⟨key, value, false, true⟩

/-- The state of a `BenchmarkCache`. -/
structure BenchmarkCache where
  maxCapacity : ℕ
  policy : EvictionPolicy
  cacheMap : AList fun _ : Bytes => BenchmarkCacheEntry
  hitCount : ℕ
  missCount : ℕ
  totalRequests : ℕ
  /-- The keys, most recently used first. -/
  lruOrder : List Bytes
  /-- The keys, next to leave first. -/
  fifoQueue : List Bytes
  /-- The keys, oldest first. -/
  sieveOrder : List Bytes
  /-- The slots of the clock. The empty string marks a free one. -/
  clockBuffer : List Bytes
  clockHand : ℕ

namespace BenchmarkCache

/-- What the constructor leaves behind. -/
def fresh (capacity : ℕ) (evictionPolicy : EvictionPolicy) : BenchmarkCache where
  maxCapacity := capacity
  policy := evictionPolicy
  cacheMap := ∅
  hitCount := 0
  missCount := 0
  totalRequests := 0
  lruOrder := []
  fifoQueue := []
  sieveOrder := []
  clockBuffer := []
  clockHand := 0

/-- The constructor. Under CLOCK it reserves the buffer, which for a capacity that is too
large ends in an exception (`none`). How large that is depends on the machine, and is
input. -/
def construct (reserves : ℕ → Bool) (capacity : ℕ) (evictionPolicy : EvictionPolicy) :
    Option BenchmarkCache :=
  if evictionPolicy = .clock ∧ reserves capacity = false then none
  else some (fresh capacity evictionPolicy)

/-- `get_current_size`. -/
def getCurrentSize (s : BenchmarkCache) : ℕ := s.cacheMap.keys.length

/-- `reset_stats`. -/
def resetStats (s : BenchmarkCache) : BenchmarkCache :=
  { s with hitCount := 0, missCount := 0, totalRequests := 0 }

/-- A write through the pointer the map has under `key`, if there is one. -/
def writeThrough (f : BenchmarkCacheEntry → BenchmarkCacheEntry)
    (map : AList fun _ : Bytes => BenchmarkCacheEntry) (key : Bytes) :
    AList fun _ : Bytes => BenchmarkCacheEntry :=
  match map.lookup key with
  | some entry => map.insert key (f entry)
  | none => map

/-- The same, on the map of the cache. -/
def modifyEntry (s : BenchmarkCache) (key : Bytes)
    (f : BenchmarkCacheEntry → BenchmarkCacheEntry) : BenchmarkCache :=
  { s with cacheMap := writeThrough f s.cacheMap key }

/-! ### LRU -/

/-- `evict_lru`. -/
def evictLru (s : BenchmarkCache) : BenchmarkCache :=
  match s.lruOrder.getLast? with
  | some lruKey =>
    { s with lruOrder := s.lruOrder.dropLast, cacheMap := s.cacheMap.erase lruKey }
  | none => s

/-- `update_lru`. -/
def updateLru (s : BenchmarkCache) (key : Bytes) : BenchmarkCache :=
  { s with lruOrder := key :: s.lruOrder.erase key }

/-- `add_lru`. -/
def addLru (s : BenchmarkCache) (key : Bytes) : BenchmarkCache :=
  { s with lruOrder := key :: s.lruOrder }

/-! ### FIFO -/

/-- `evict_fifo`. -/
def evictFifo (s : BenchmarkCache) : BenchmarkCache :=
  match s.fifoQueue with
  | fifoKey :: rest => { s with fifoQueue := rest, cacheMap := s.cacheMap.erase fifoKey }
  | [] => s

/-- `add_fifo`. -/
def addFifo (s : BenchmarkCache) (key : Bytes) : BenchmarkCache :=
  { s with fifoQueue := s.fifoQueue ++ [key] }

/-! ### SIEVE -/

/-- The loop of `evict_sieve`, which returns from the function when it has found a
key to evict. The iterator splits `sieve_order` in two: the keys passed over and
those still to visit. -/
def sieveLoop : List Bytes → List Bytes → BenchmarkCache → Bool × BenchmarkCache
  | _, [], s => (false, s)
  | passed, key :: rest, s =>
    match s.cacheMap.lookup key with
    | some entry =>
      if entry.visited = false then
        (true, { s with sieveOrder := passed ++ rest, cacheMap := s.cacheMap.erase key })
      else sieveLoop (passed ++ [key]) rest (s.modifyEntry key fun e => { e with visited := false })
    | none => sieveLoop passed rest { s with sieveOrder := passed ++ rest }

/-- `evict_sieve`. -/
def evictSieve (s : BenchmarkCache) : BenchmarkCache :=
  let r := sieveLoop [] s.sieveOrder s
  if r.1 then r.2
  else
    match r.2.sieveOrder with
    | keyToEvict :: rest =>
      { r.2 with sieveOrder := rest, cacheMap := r.2.cacheMap.erase keyToEvict }
    | [] => r.2

/-- `update_sieve`. -/
def updateSieve (s : BenchmarkCache) (key : Bytes) : BenchmarkCache :=
  s.modifyEntry key fun e => { e with visited := true }

/-- `add_sieve`. -/
def addSieve (s : BenchmarkCache) (key : Bytes) : BenchmarkCache :=
  ({ s with sieveOrder := s.sieveOrder ++ [key] } : BenchmarkCache).modifyEntry key
    fun e => { e with visited := false }

/-! ### CLOCK -/

/-- `clock_hand = (clock_hand + 1) % clock_buffer.size()`. -/
def advanceHand (s : BenchmarkCache) : BenchmarkCache :=
  { s with clockHand := (s.clockHand + 1) % s.clockBuffer.length }

/-- The loop of `evict_clock`, for at most `n` iterations. The source bounds it by
nothing: `none` says that it is still running. -/
def clockLoop : ℕ → BenchmarkCache → Option BenchmarkCache
  | 0, _ => none
  | n + 1, s =>
    let currentKey := s.clockBuffer.getD s.clockHand []
    match s.cacheMap.lookup currentKey with
    | some entry =>
      if entry.referenceBit = false then
        some { s with
          cacheMap := s.cacheMap.erase currentKey
          clockBuffer := s.clockBuffer.set s.clockHand [] }
      else
        clockLoop n (s.modifyEntry currentKey fun e => { e with referenceBit := false }).advanceHand
    | none => clockLoop n s.advanceHand

/-- `evict_clock`. Two rounds of the hand are always enough for the loop to end
(`PagedCacheServer.BenchmarkCache.ClockBooks.clockLoop_ends`). -/
def evictClock (s : BenchmarkCache) : BenchmarkCache :=
  if s.clockBuffer = [] then s else (clockLoop (2 * s.clockBuffer.length) s).getD s

/-- `update_clock`. -/
def updateClock (s : BenchmarkCache) (key : Bytes) : BenchmarkCache :=
  s.modifyEntry key fun e => { e with referenceBit := true }

/-- The search of `add_clock` for a slot: the first free one, or a new one. -/
def fillSlot (key : Bytes) : List Bytes → List Bytes
  | [] => [key]
  | slot :: slots => if slot = [] then key :: slots else slot :: fillSlot key slots

/-- `add_clock`. -/
def addClock (s : BenchmarkCache) (key : Bytes) : BenchmarkCache :=
  ({ s with clockBuffer := fillSlot key s.clockBuffer } : BenchmarkCache).modifyEntry key
    fun e => { e with referenceBit := true }

/-! ### The two calls -/

/-- The `switch` on a key that is there. FIFO does not update on access. -/
def update (s : BenchmarkCache) (key : Bytes) : BenchmarkCache :=
  match s.policy with
  | .lru => s.updateLru key
  | .fifo => s
  | .sieve => s.updateSieve key
  | .clock => s.updateClock key

/-- The `switch` on a full cache. -/
def evict (s : BenchmarkCache) : BenchmarkCache :=
  match s.policy with
  | .lru => s.evictLru
  | .fifo => s.evictFifo
  | .sieve => s.evictSieve
  | .clock => s.evictClock

/-- The `switch` on a new key. -/
def add (s : BenchmarkCache) (key : Bytes) : BenchmarkCache :=
  match s.policy with
  | .lru => s.addLru key
  | .fifo => s.addFifo key
  | .sieve => s.addSieve key
  | .clock => s.addClock key

/-- A request that is a hit. -/
def countHit (s : BenchmarkCache) : BenchmarkCache :=
  { s with totalRequests := s.totalRequests + 1, hitCount := s.hitCount + 1 }

/-- A request that is a miss. -/
def countMiss (s : BenchmarkCache) : BenchmarkCache :=
  { s with totalRequests := s.totalRequests + 1, missCount := s.missCount + 1 }

/-- `get`. The second component of the answer is the variable passed by reference,
which is only written on a hit. -/
def get (s : BenchmarkCache) (key value : Bytes) : (Bool × Bytes) × BenchmarkCache :=
  match s.cacheMap.lookup key with
  | some entry => ((true, entry.value), s.countHit.update key)
  | none => ((false, value), s.countMiss)

/-- The check of `put` whether an entry has to go. -/
def makeRoom (s : BenchmarkCache) : BenchmarkCache :=
  if s.getCurrentSize ≥ s.maxCapacity then s.evict else s

/-- `cache_map[key] = entry`, for a new entry. -/
def store (s : BenchmarkCache) (key value : Bytes) : BenchmarkCache :=
  { s with cacheMap := s.cacheMap.insert key (.new key value) }

/-- `put`. It always returns `true`. -/
def put (s : BenchmarkCache) (key value : Bytes) : BenchmarkCache :=
  if key ∈ s.cacheMap then
    (s.modifyEntry key fun e => { e with value := value }).update key
  else (s.makeRoom.store key value).add key

/-- A call of one of the two public operations. -/
inductive Call
  | get (key : Bytes)
  | put (key value : Bytes)
deriving DecidableEq, Repr

/-- The key a call names. -/
def Call.key : Call → Bytes
  | .get key | .put key _ => key

/-- One call on the cache, with what it returns. -/
def step (s : BenchmarkCache) : Call → (Bool × Bytes) × BenchmarkCache
  | .get key => s.get key []
  | .put key value => ((true, []), s.put key value)

/-- The benchmark algorithm on one key of a trace: `get`, and `put` on a miss, with a
value the caller makes up. -/
def request (value : Bytes → Bytes) (s : BenchmarkCache) (key : Bytes) : Bool × BenchmarkCache :=
  let r := s.get key []
  if r.1.1 then (true, r.2) else (false, r.2.put key (value key))

end BenchmarkCache

end PagedCacheServer
