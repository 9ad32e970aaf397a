import PagedCacheServer.Benchmark.Reuse
import PagedCacheServer.Library.Paging

/-!
# FIFO and its window of misses

Under FIFO a hit changes nothing. What a trace leaves in the cache is therefore read off
its misses alone: the queue is the window of the last `capacity` keys that missed
(`PagedCacheServer.BenchmarkCache.Windowed.request`), and a request hits exactly when its
key is in the window.

Which requests miss depends on the capacity, so the windows of a small and of a large
cache are windows of different sequences. Unlike under LRU, the larger cache may hold
less of what comes next, and have fewer hits.
-/

namespace PagedCacheServer

namespace BenchmarkCache

open Paging (missed missed_snoc_hit missed_snoc_miss)

variable {s : BenchmarkCache} {k key : Bytes} {capacity : ℕ} {hist : List (Bytes × Bool)}

/-- The cache after requests with this outcome: its queue is the window of the last
misses. -/
structure Windowed (capacity : ℕ) (hist : List (Bytes × Bool)) (s : BenchmarkCache) : Prop where
  settled : s.Settled
  policy : s.policy = .fifo
  maxCapacity : s.maxCapacity = capacity
  fifoQueue : s.fifoQueue = (missed hist).rtake capacity

theorem Windowed.keeps (h : Windowed capacity hist s) :
    Keeps ((missed hist).rtake capacity) s.cacheMap := by
  have hbooks := h.settled.books
  simp only [Books, h.policy, h.fifoQueue] at hbooks
  exact hbooks

/-- `evict_fifo` drops the first key. -/
theorem evictFifo_fifoQueue (s : BenchmarkCache) : s.evictFifo.fifoQueue = s.fifoQueue.tail := by
  rw [evictFifo]
  split
  · next hcons => rw [hcons, List.tail_cons]
  · next hnil => rw [hnil, List.tail_nil]

theorem put_fifoQueue (hp : s.policy = .fifo) (hkey : key ∉ s.cacheMap) (value : Bytes) :
    (s.put key value).fifoQueue =
      (if s.maxCapacity ≤ s.getCurrentSize then s.fifoQueue.tail else s.fifoQueue) ++ [key] := by
  have hp' : (s.makeRoom.store key value).policy = .fifo := (frame_makeRoom s).policy.trans hp
  have hroom : s.makeRoom.fifoQueue =
      if s.maxCapacity ≤ s.getCurrentSize then s.fifoQueue.tail else s.fifoQueue := by
    rw [makeRoom]
    split_ifs
    · rw [← evictFifo_fifoQueue]
      simp only [evict, hp]
    · rfl
  rw [put, if_neg hkey, ← hroom]
  simp only [add, hp']
  rfl

/-! ### Whole traces -/

/-- **A request keeps the queue at the window.** -/
theorem Windowed.request (hcap : 1 ≤ capacity) (h : Windowed capacity hist s)
    (value : Bytes → Bytes) (key : Bytes) :
    Windowed capacity (hist ++ [(key, (s.request value key).1)]) (s.request value key).2 := by
  obtain ⟨n, rfl⟩ := Nat.exists_eq_add_of_le' hcap
  by_cases hkey : key ∈ s.cacheMap
  · rw [request_of_mem hkey]
    have ha : Alike s s.countHit := ⟨rfl, rfl, rfl, rfl, rfl, rfl, rfl, fun _ => rfl⟩
    -- a hit leaves the queue as it was
    have hsame : s.countHit.update key = s.countHit := by
      have hp : s.countHit.policy = .fifo := h.policy
      simp only [update, hp]
    rw [hsame]
    refine ⟨h.settled.alike ha, h.policy, h.maxCapacity, ?_⟩
    rw [missed_snoc_hit]
    exact h.fifoQueue
  · rw [request_of_notMem hkey]
    have ha : Alike s s.countMiss := ⟨rfl, rfl, rfl, rfl, rfl, rfl, rfl, fun _ => rfl⟩
    have hf := frame_put s.countMiss key (value key)
    refine ⟨(h.settled.alike ha).step (.put key (value key)), hf.policy.trans h.policy,
      hf.maxCapacity.trans h.maxCapacity, ?_⟩
    have hsize : s.countMiss.getCurrentSize = ((missed hist).rtake (n + 1)).length :=
      h.keeps.length_eq.symm
    have hcap' : s.countMiss.maxCapacity = n + 1 := h.maxCapacity
    have hqueue : s.countMiss.fifoQueue = (missed hist).rtake (n + 1) := h.fifoQueue
    refine (put_fifoQueue (s := s.countMiss) h.policy hkey (value key)).trans ?_
    rw [missed_snoc_miss, List.rtake_concat_succ, Recency.rtake_eq_of_succ, hsize, hcap', hqueue]

theorem windowed_after (hcap : 1 ≤ capacity) (value : Bytes → Bytes) (trace : List Bytes) :
    Windowed capacity
      (StepMachine.history (BenchmarkCache.request value) (fresh capacity .fifo) trace)
      (StepMachine.after (BenchmarkCache.request value) (fresh capacity .fifo) trace) :=
  StepMachine.invariant_history (R := Windowed capacity)
    ⟨settled_fresh capacity .fifo, rfl, rfl, by simp [missed, fresh, Recency.rtake_eq_drop]⟩
    (fun _ _ key h => h.request hcap value key) trace

/-- **The window law of FIFO.** For every trace and every capacity from 1 on: the queue is
the window of the last `capacity` keys that missed, in the order in which they missed; and
a request hits exactly when its key missed before and fewer misses than the capacity came
since, whatever was requested in between. -/
theorem fifo_window (value : Bytes → Bytes) (capacity : ℕ) (hcap : 1 ≤ capacity)
    (trace : List Bytes) :
    let hist := StepMachine.history (request value) (fresh capacity .fifo) trace
    let s := StepMachine.after (request value) (fresh capacity .fifo) trace
    s.fifoQueue = (missed hist).rtake capacity ∧
      (∀ k, k ∈ s.cacheMap ↔ k ∈ (missed hist).rtake capacity) ∧
      ∀ k, (s.request value k).1 = true ↔
        ∃ before since, missed hist = before ++ k :: since ∧ since.length < capacity := by
  intro hist s
  have hs : Windowed capacity hist s := windowed_after hcap value trace
  have hmem : ∀ k, k ∈ s.cacheMap ↔ k ∈ (missed hist).rtake capacity :=
    fun k => (hs.keeps.mem_iff k).symm
  refine ⟨hs.fifoQueue, hmem, fun k => ?_⟩
  rw [request_fst, hmem]
  exact Recency.mem_rtake_iff

/-- A hit does not keep its key in the window. -/
theorem fifo_window_two :
    let trace := [lit "a", lit "b", lit "a", lit "c"]
    let hist := StepMachine.history (request id) (fresh 2 .fifo) trace
    let s := StepMachine.after (request id) (fresh 2 .fifo) trace
    ((s.request id (lit "a")).1 = true ↔
        ∃ before since, missed hist = before ++ lit "a" :: since ∧ since.length < 2) ∧
      missed hist = [lit "a", lit "b", lit "c"] ∧ (s.request id (lit "a")).1 = false := by
  intro trace hist s
  refine ⟨(fifo_window id 2 (by decide) trace).2.2 (lit "a"), ?_, ?_⟩
  · decide
  · decide

/-- The larger cache may have fewer hits: Belady's anomaly. -/
example :
    let trace := ["1", "2", "3", "4", "1", "2", "5", "1", "2", "3", "4", "5"].map lit
    (StepMachine.after (request id) (fresh 3 .fifo) trace).hitCount = 3 ∧
      (StepMachine.after (request id) (fresh 4 .fifo) trace).hitCount = 2 := by
  decide

end BenchmarkCache

end PagedCacheServer
