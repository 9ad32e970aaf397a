import Mathlib.Data.List.Nodup
import PagedCacheServer.Benchmark.Defs

/-!
# The books of a policy

Each policy keeps the keys of `cache_map` in a structure of its own, and the two
are written by different functions. What ties them, for arbitrary keys, is

* for LRU, FIFO and SIEVE, that the list holds each resident key once and nothing
  else (`PagedCacheServer.BenchmarkCache.Keeps`);
* for CLOCK, the same of the slots other than the empty string, which is both a
  key and the mark of a free slot
  (`PagedCacheServer.BenchmarkCache.ClockBooks`).

This file also says what no bookkeeping touches: the capacity, the policy and the
counters (`PagedCacheServer.BenchmarkCache.Frame`).
-/

namespace PagedCacheServer

namespace BenchmarkCache

variable {s s' : BenchmarkCache} {k key v : Bytes} {n : ℕ}
  {f : BenchmarkCacheEntry → BenchmarkCacheEntry}

/-! ### Writing to an entry -/

@[simp] theorem lookup_modifyEntry :
    (s.modifyEntry key f).cacheMap.lookup k =
      if k = key then (s.cacheMap.lookup k).map f else s.cacheMap.lookup k := by
  simp only [modifyEntry, writeThrough]
  rcases hkey : s.cacheMap.lookup key with _ | e
  · split_ifs with h
    · rw [h, hkey, Option.map_none]
    · rfl
  · split_ifs with h
    · rw [h, AList.lookup_insert, hkey, Option.map_some]
    · rw [AList.lookup_insert_ne h]

@[simp] theorem mem_modifyEntry :
    k ∈ (s.modifyEntry key f).cacheMap ↔ k ∈ s.cacheMap := by
  rw [← AList.lookup_isSome, ← AList.lookup_isSome, lookup_modifyEntry]
  split_ifs <;> simp

/-! ### What eviction and bookkeeping leave alone -/

/-- The two caches have the same capacity, policy and counters. -/
structure Frame (s s' : BenchmarkCache) : Prop where
  maxCapacity : s'.maxCapacity = s.maxCapacity
  policy : s'.policy = s.policy
  hitCount : s'.hitCount = s.hitCount
  missCount : s'.missCount = s.missCount
  totalRequests : s'.totalRequests = s.totalRequests

theorem Frame.refl (s : BenchmarkCache) : Frame s s := ⟨rfl, rfl, rfl, rfl, rfl⟩

theorem Frame.trans {s'' : BenchmarkCache} (h : Frame s s') (h' : Frame s' s'') :
    Frame s s'' where
  maxCapacity := h'.maxCapacity.trans h.maxCapacity
  policy := h'.policy.trans h.policy
  hitCount := h'.hitCount.trans h.hitCount
  missCount := h'.missCount.trans h.missCount
  totalRequests := h'.totalRequests.trans h.totalRequests

theorem frame_modifyEntry (s : BenchmarkCache) (key : Bytes)
    (f : BenchmarkCacheEntry → BenchmarkCacheEntry) : Frame s (s.modifyEntry key f) :=
  ⟨rfl, rfl, rfl, rfl, rfl⟩

theorem frame_sieveLoop (passed rest : List Bytes) (s : BenchmarkCache) :
    Frame s (sieveLoop passed rest s).2 := by
  induction rest generalizing passed s with
  | nil => exact Frame.refl s
  | cons key rest ih =>
    rw [sieveLoop]
    split
    · split_ifs
      · exact ⟨rfl, rfl, rfl, rfl, rfl⟩
      · exact (frame_modifyEntry s key _).trans (ih _ _)
    · refine Frame.trans ?_ (ih passed _)
      exact ⟨rfl, rfl, rfl, rfl, rfl⟩

theorem frame_clockLoop (h : clockLoop n s = some s') : Frame s s' := by
  induction n generalizing s with
  | zero => simp [clockLoop] at h
  | succ n ih =>
    rw [clockLoop] at h
    split at h
    · split_ifs at h
      · obtain rfl := Option.some.inj h
        exact ⟨rfl, rfl, rfl, rfl, rfl⟩
      · refine Frame.trans ?_ (ih h)
        exact ⟨rfl, rfl, rfl, rfl, rfl⟩
    · refine Frame.trans ?_ (ih h)
      exact ⟨rfl, rfl, rfl, rfl, rfl⟩

theorem frame_evict (s : BenchmarkCache) : Frame s s.evict := by
  rcases hp : s.policy <;> simp only [evict, hp]
  · rw [evictLru]
    split <;> exact ⟨rfl, rfl, rfl, rfl, rfl⟩
  · rw [evictFifo]
    split <;> exact ⟨rfl, rfl, rfl, rfl, rfl⟩
  · have h := frame_sieveLoop [] s.sieveOrder s
    rw [evictSieve]
    dsimp only
    split_ifs
    · exact h
    · split
      · exact h.trans ⟨rfl, rfl, rfl, rfl, rfl⟩
      · exact h
  · rw [evictClock]
    split_ifs
    · exact Frame.refl s
    · rcases hloop : clockLoop (2 * s.clockBuffer.length) s with _ | s'
      · exact Frame.refl s
      · exact frame_clockLoop hloop

theorem frame_update (s : BenchmarkCache) (key : Bytes) : Frame s (s.update key) := by
  rcases hp : s.policy <;> simp only [update, hp] <;> exact ⟨rfl, rfl, rfl, rfl, rfl⟩

theorem frame_add (s : BenchmarkCache) (key : Bytes) : Frame s (s.add key) := by
  rcases hp : s.policy <;> simp only [add, hp] <;> exact ⟨rfl, rfl, rfl, rfl, rfl⟩

/-- A put counts nothing. -/
theorem frame_put (s : BenchmarkCache) (key value : Bytes) : Frame s (s.put key value) := by
  rw [put]
  split_ifs
  · exact (frame_modifyEntry s key _).trans (frame_update _ key)
  · refine Frame.trans ?_ (frame_add _ key)
    rw [makeRoom]
    split_ifs
    · exact (frame_evict s).trans ⟨rfl, rfl, rfl, rfl, rfl⟩
    · exact ⟨rfl, rfl, rfl, rfl, rfl⟩

/-! ### What a call can do -/

/-- The caches differ in the counters and the values only. -/
structure Alike (s s' : BenchmarkCache) : Prop where
  maxCapacity : s'.maxCapacity = s.maxCapacity
  policy : s'.policy = s.policy
  lruOrder : s'.lruOrder = s.lruOrder
  fifoQueue : s'.fifoQueue = s.fifoQueue
  sieveOrder : s'.sieveOrder = s.sieveOrder
  clockBuffer : s'.clockBuffer = s.clockBuffer
  clockHand : s'.clockHand = s.clockHand
  bits : ∀ k, (s'.cacheMap.lookup k).map (fun e => (e.visited, e.referenceBit)) =
    (s.cacheMap.lookup k).map fun e => (e.visited, e.referenceBit)

theorem Alike.mem_iff (h : Alike s s') (k : Bytes) : k ∈ s'.cacheMap ↔ k ∈ s.cacheMap := by
  have hbits := congrArg Option.isSome (h.bits k)
  rw [Option.isSome_map, Option.isSome_map] at hbits
  rw [← AList.lookup_isSome, ← AList.lookup_isSome, hbits]

/-- **The three things a call can do**: it finds its key, which is brought up to
date, it looks for it in vain, or it brings it in. -/
theorem step_cases (s : BenchmarkCache) (call : Call) :
    (call.key ∈ s.cacheMap ∧ ∃ t, Alike s t ∧ (s.step call).2 = t.update call.key) ∨
      (∃ key, call = .get key ∧ key ∉ s.cacheMap ∧ Alike s (s.step call).2) ∨
      ∃ key value, call = .put key value ∧ key ∉ s.cacheMap ∧
        (s.step call).2 = (s.makeRoom.store key value).add key := by
  cases call with
  | get key =>
    by_cases hkey : key ∈ s.cacheMap
    · obtain ⟨e, he⟩ := Option.isSome_iff_exists.mp (AList.lookup_isSome.mpr hkey)
      refine Or.inl ⟨hkey, s.countHit, ?_, ?_⟩
      · exact ⟨rfl, rfl, rfl, rfl, rfl, rfl, rfl, fun k => rfl⟩
      · simp only [step, get, he, Call.key]
    · refine Or.inr (Or.inl ⟨key, rfl, hkey, ?_⟩)
      simp only [step, get, AList.lookup_eq_none.mpr hkey]
      exact ⟨rfl, rfl, rfl, rfl, rfl, rfl, rfl, fun k => rfl⟩
  | put key value =>
    by_cases hkey : key ∈ s.cacheMap
    · refine Or.inl ⟨hkey, s.modifyEntry key fun e => { e with value := value }, ?_, ?_⟩
      · refine ⟨rfl, rfl, rfl, rfl, rfl, rfl, rfl, fun k => ?_⟩
        rw [lookup_modifyEntry]
        split_ifs
        · rw [Option.map_map]
          rfl
        · rfl
      · simp only [step, put, if_pos hkey, Call.key]
    · refine Or.inr (Or.inr ⟨key, value, rfl, hkey, ?_⟩)
      simp only [step, put, if_neg hkey]

/-! ### The books -/

/-- The list holds each key of the map once, and no other key. -/
def Keeps (l : List Bytes) (m : AList fun _ : Bytes => BenchmarkCacheEntry) : Prop :=
  ∀ k, l.count k = if k ∈ m then 1 else 0

/-- The books of CLOCK: each resident key is in one slot and every other slot is
free, where nothing is said of the empty string; and the hand points into the buffer,
once there is one. -/
structure ClockBooks (s : BenchmarkCache) : Prop where
  count : ∀ k ≠ [], s.clockBuffer.count k = if k ∈ s.cacheMap then 1 else 0
  hand : s.clockHand ≤ s.clockBuffer.length - 1

/-- The structure of the policy is in step with `cache_map`. -/
def Books (s : BenchmarkCache) : Prop :=
  match s.policy with
  | .lru => Keeps s.lruOrder s.cacheMap
  | .fifo => Keeps s.fifoQueue s.cacheMap
  | .sieve => Keeps s.sieveOrder s.cacheMap
  | .clock => s.ClockBooks

theorem books_of_sieve {s : BenchmarkCache} (hp : s.policy = .sieve) :
    s.Books ↔ Keeps s.sieveOrder s.cacheMap := by
  rw [Books, hp]

theorem books_of_clock {s : BenchmarkCache} (hp : s.policy = .clock) :
    s.Books ↔ s.ClockBooks := by
  rw [Books, hp]

/-- **The invariant between calls**: the books are in step, and the clock has a slot
as soon as there is an entry, and only then. -/
structure Settled (s : BenchmarkCache) : Prop where
  books : s.Books
  slots : s.policy = .clock → (s.clockBuffer = [] ↔ s.cacheMap.keys = [])

/-- `s'` is `s` with the entry under `v` gone. -/
structure Removes (s s' : BenchmarkCache) (v : Bytes) : Prop where
  resident : v ∈ s.cacheMap
  mem_iff : ∀ k, k ∈ s'.cacheMap ↔ k ≠ v ∧ k ∈ s.cacheMap

section Keeps

variable {l : List Bytes} {m : AList fun _ : Bytes => BenchmarkCacheEntry}

theorem Keeps.nodup (h : Keeps l m) : l.Nodup := by
  refine List.nodup_iff_count_le_one.mpr fun k => ?_
  rw [h k]
  split_ifs <;> simp

theorem Keeps.mem_iff (h : Keeps l m) (k : Bytes) : k ∈ l ↔ k ∈ m := by
  rw [← List.count_pos_iff, h k]
  split_ifs with hk <;> simp [hk]

theorem keeps_iff : Keeps l m ↔ l.Nodup ∧ ∀ k, k ∈ l ↔ k ∈ m := by
  refine ⟨fun h => ⟨h.nodup, h.mem_iff⟩, fun ⟨hnd, hmem⟩ k => ?_⟩
  split_ifs with hk
  · exact List.count_eq_one_of_mem hnd ((hmem k).mpr hk)
  · exact List.count_eq_zero_of_not_mem fun h => hk ((hmem k).mp h)

/-- The list follows the map: whether a key is in it is all that matters. -/
theorem Keeps.congr {m' : AList fun _ : Bytes => BenchmarkCacheEntry} (h : Keeps l m)
    (hm : ∀ k, k ∈ m' ↔ k ∈ m) : Keeps l m' := by
  intro k
  rw [h k]
  simp only [hm k]

theorem Keeps.perm {l' : List Bytes} (h : Keeps l m) (hp : l'.Perm l) : Keeps l' m := fun k => by
  rw [hp.count_eq, h k]

theorem Keeps.eq_nil_iff (h : Keeps l m) : l = [] ↔ m.keys = [] := by
  simp only [List.eq_nil_iff_forall_not_mem, h.mem_iff, AList.mem_keys]

theorem Keeps.length_eq (h : Keeps l m) : l.length = m.keys.length :=
  ((List.perm_ext_iff_of_nodup h.nodup m.nodupKeys).mpr h.mem_iff).length_eq

theorem Keeps.cons_insert (h : Keeps l m) {e : BenchmarkCacheEntry} (hk : key ∉ m) :
    Keeps (key :: l) (m.insert key e) := by
  refine keeps_iff.mpr ⟨List.nodup_cons.mpr ⟨fun hmem => hk ((h.mem_iff key).mp hmem), h.nodup⟩,
    fun k => ?_⟩
  rw [List.mem_cons, AList.mem_insert, h.mem_iff]

theorem Keeps.of_removes {a b : List Bytes} (h : Keeps (a ++ v :: b) s.cacheMap)
    (hrem : Removes s s' v) : Keeps (a ++ b) s'.cacheMap := by
  obtain ⟨hv, hnd⟩ := List.nodup_cons.mp (List.nodup_middle.mp h.nodup)
  refine keeps_iff.mpr ⟨hnd, fun k => ?_⟩
  rw [hrem.mem_iff, ← h.mem_iff, List.perm_middle.mem_iff, List.mem_cons]
  constructor
  · intro hk
    exact ⟨fun hkv => hv (hkv ▸ hk), Or.inr hk⟩
  · rintro ⟨hne, rfl | hk⟩
    · exact absurd rfl hne
    · exact hk

end Keeps

end BenchmarkCache

end PagedCacheServer
