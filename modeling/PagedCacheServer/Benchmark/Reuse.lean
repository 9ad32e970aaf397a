import PagedCacheServer.Benchmark.Bookkeeping

/-!
# LRU and the reuse distance

A cache that evicts by recency holds a part of one list that does not depend on its
capacity: the distinct keys of the trace, the one requested last first. A cache of
capacity `c` holds the first `c` of them
(`PagedCacheServer.BenchmarkCache.Stacked.request`), so whether a request hits is read
off the trace, and a larger cache holds all a smaller one does.
-/

namespace PagedCacheServer

namespace BenchmarkCache

variable {s : BenchmarkCache} {k key v : Bytes} {capacity : ℕ} {trace : List Bytes}

/-! ### One request -/

/-- `evict_lru` drops the last key. -/
theorem evictLru_lruOrder (s : BenchmarkCache) : s.evictLru.lruOrder = s.lruOrder.dropLast := by
  rw [evictLru]
  split
  · rfl
  · next hnone => simp [List.getLast?_eq_none_iff.mp hnone]

theorem put_lruOrder (hp : s.policy = .lru) (hkey : key ∉ s.cacheMap) (value : Bytes) :
    (s.put key value).lruOrder =
      key :: if s.maxCapacity ≤ s.getCurrentSize then s.lruOrder.dropLast else s.lruOrder := by
  have hp' : (s.makeRoom.store key value).policy = .lru := (frame_makeRoom s).policy.trans hp
  have hroom : s.makeRoom.lruOrder =
      if s.maxCapacity ≤ s.getCurrentSize then s.lruOrder.dropLast else s.lruOrder := by
    rw [makeRoom]
    split_ifs
    · rw [← evictLru_lruOrder]
      simp only [evict, hp]
    · rfl
  rw [put, if_neg hkey, ← hroom]
  simp only [add, hp']
  rfl

/-- The list of LRU as a move to the front. -/
theorem update_lruOrder (hp : s.policy = .lru) (hnd : s.lruOrder.Nodup) (key : Bytes) :
    (s.update key).lruOrder = Recency.touch s.lruOrder key := by
  simp only [update, hp, updateLru]
  rw [Recency.touch, hnd.erase_eq_filter]
  refine congrArg (key :: ·) (List.filter_congr fun a _ => ?_)
  by_cases ha : a = key <;> simp [ha]

theorem request_of_mem (hkey : key ∈ s.cacheMap) (value : Bytes → Bytes) :
    s.request value key = (true, s.countHit.update key) := by
  obtain ⟨e, he⟩ := Option.isSome_iff_exists.mp (AList.lookup_isSome.mpr hkey)
  simp only [request, get, he, if_true]

theorem request_of_notMem (hkey : key ∉ s.cacheMap) (value : Bytes → Bytes) :
    s.request value key = (false, s.countMiss.put key (value key)) := by
  simp only [request, get, AList.lookup_eq_none.mpr hkey, Bool.false_eq_true, if_false]

/-! ### Whole traces -/

/-- The cache of capacity `capacity` after the trace: it has kept the top of the
stack. -/
structure Stacked (capacity : ℕ) (trace : List Bytes) (s : BenchmarkCache) : Prop where
  settled : s.Settled
  policy : s.policy = .lru
  maxCapacity : s.maxCapacity = capacity
  lruOrder : s.lruOrder = (Recency.stack trace).take capacity

theorem Stacked.keeps (h : Stacked capacity trace s) :
    Keeps ((Recency.stack trace).take capacity) s.cacheMap := by
  have hbooks := h.settled.books
  simp only [Books, h.policy, h.lruOrder] at hbooks
  exact hbooks

theorem Stacked.size (h : Stacked capacity trace s) :
    s.getCurrentSize = ((Recency.stack trace).take capacity).length :=
  h.keeps.length_eq.symm

/-- **A request keeps the cache at the top of the stack.** -/
theorem Stacked.request (hcap : 1 ≤ capacity) (h : Stacked capacity trace s)
    (value : Bytes → Bytes) (key : Bytes) :
    Stacked capacity (trace ++ [key]) (s.request value key).2 := by
  obtain ⟨n, rfl⟩ := Nat.exists_eq_add_of_le' hcap
  by_cases hkey : key ∈ s.cacheMap
  · rw [request_of_mem hkey]
    have ha : Alike s s.countHit := ⟨rfl, rfl, rfl, rfl, rfl, rfl, rfl, fun _ => rfl⟩
    have hf := frame_update s.countHit key
    refine ⟨(h.settled.alike ha).update hkey, hf.policy.trans h.policy,
      hf.maxCapacity.trans h.maxCapacity, ?_⟩
    refine (update_lruOrder (s := s.countHit) h.policy (h.lruOrder ▸ h.keeps.nodup) key).trans ?_
    rw [Recency.stack_snoc, Recency.take_touch (Recency.nodup_stack _),
      if_pos ((h.keeps.mem_iff key).mpr hkey)]
    exact congrArg (Recency.touch · key) h.lruOrder
  · rw [request_of_notMem hkey]
    have ha : Alike s s.countMiss := ⟨rfl, rfl, rfl, rfl, rfl, rfl, rfl, fun _ => rfl⟩
    have hf := frame_put s.countMiss key (value key)
    refine ⟨(h.settled.alike ha).step (.put key (value key)), hf.policy.trans h.policy,
      hf.maxCapacity.trans h.maxCapacity, ?_⟩
    have hsize : s.countMiss.getCurrentSize = ((Recency.stack trace).take (n + 1)).length := h.size
    have hcap' : s.countMiss.maxCapacity = n + 1 := h.maxCapacity
    have horder : s.countMiss.lruOrder = (Recency.stack trace).take (n + 1) := h.lruOrder
    refine (put_lruOrder (s := s.countMiss) h.policy hkey (value key)).trans ?_
    rw [Recency.stack_snoc, Recency.take_touch (Recency.nodup_stack _),
      if_neg fun hmem => hkey ((h.keeps.mem_iff key).mp hmem), hsize, hcap', horder]
    refine congrArg (key :: ·) ?_
    -- a full cache drops one key, and one that is not full has them all
    split_ifs with hfull
    · have hlen : ((Recency.stack trace).take (n + 1)).length - 1 = n := by
        rw [List.length_take] at hfull ⊢
        omega
      rw [List.dropLast_eq_take, hlen, List.take_take, Nat.min_eq_left (Nat.le_succ n)]
    · rw [List.length_take] at hfull
      rw [List.take_of_length_le (by omega), List.take_of_length_le (by omega)]

theorem stacked_after (hcap : 1 ≤ capacity) (value : Bytes → Bytes) (trace : List Bytes) :
    Stacked capacity trace
      (StepMachine.after (BenchmarkCache.request value) (fresh capacity .lru) trace) := by
  induction trace using List.reverseRecOn with
  | nil => exact ⟨settled_fresh capacity .lru, rfl, rfl, by simp [fresh]⟩
  | append_singleton trace key ih =>
    rw [StepMachine.after_append]
    exact ih.request hcap value key

theorem Stacked.mem_iff (h : Stacked capacity trace s) (k : Bytes) :
    k ∈ s.cacheMap ↔ k ∈ (Recency.stack trace).take capacity :=
  (h.keeps.mem_iff k).symm

theorem request_fst (s : BenchmarkCache) (value : Bytes → Bytes) (key : Bytes) :
    (s.request value key).1 = true ↔ key ∈ s.cacheMap := by
  by_cases hkey : key ∈ s.cacheMap
  · simp [request_of_mem hkey, hkey]
  · simp [request_of_notMem hkey, hkey]

theorem request_hitCount (s : BenchmarkCache) (value : Bytes → Bytes) (key : Bytes) :
    (s.request value key).2.hitCount = s.hitCount + if key ∈ s.cacheMap then 1 else 0 := by
  split_ifs with hkey
  · rw [request_of_mem hkey]
    exact (frame_update s.countHit key).hitCount
  · rw [request_of_notMem hkey]
    exact (frame_put s.countMiss key (value key)).hitCount

/-- **The larger cache holds what the smaller one does.** -/
theorem Stacked.mem_mono {s' : BenchmarkCache} {capacity' : ℕ} (h : Stacked capacity trace s)
    (h' : Stacked capacity' trace s') (hle : capacity ≤ capacity') (hk : k ∈ s.cacheMap) :
    k ∈ s'.cacheMap := by
  rw [h'.mem_iff]
  exact List.take_subset_take_left _ hle ((h.mem_iff k).mp hk)

/-- **So it has at least as many hits.** -/
theorem hitCount_mono {capacity' : ℕ} (hcap : 1 ≤ capacity) (hle : capacity ≤ capacity')
    (value : Bytes → Bytes) (trace : List Bytes) :
    (StepMachine.after (BenchmarkCache.request value) (fresh capacity .lru) trace).hitCount ≤
      (StepMachine.after (BenchmarkCache.request value) (fresh capacity' .lru) trace).hitCount := by
  induction trace using List.reverseRecOn with
  | nil => exact Nat.le_refl 0
  | append_singleton trace key ih =>
    have hs := stacked_after hcap value trace
    have hs' := stacked_after (hcap.trans hle) value trace
    simp only [StepMachine.after_append, StepMachine.after_cons, StepMachine.after_nil,
      request_hitCount]
    split_ifs with hkey hkey' hkey'
    · omega
    · exact absurd (hs.mem_mono hs' hle hkey) hkey'
    · omega
    · omega

/-- **The reuse-distance law of LRU.** For every trace and every capacity from 1 on: a
request hits exactly when its key was requested before and fewer distinct keys than the
capacity were requested since; the cache holds that many of the most recently
requested distinct keys; and a larger capacity keeps these and has no fewer hits. -/
theorem reuse_distance (value : Bytes → Bytes) (capacity : ℕ) (hcap : 1 ≤ capacity)
    (trace : List Bytes) :
    let s := StepMachine.after (BenchmarkCache.request value) (fresh capacity .lru) trace
    (∀ k, (s.request value k).1 = true ↔ ∃ before since, trace = before ++ k :: since ∧
      k ∉ since ∧ since.toFinset.card < capacity) ∧
    (∀ k, k ∈ s.cacheMap ↔ k ∈ (Recency.stack trace).take capacity) ∧
    s.getCurrentSize = min capacity trace.toFinset.card ∧
    ∀ capacity', capacity ≤ capacity' →
      let s' := StepMachine.after (BenchmarkCache.request value) (fresh capacity' .lru) trace
      (∀ k ∈ s.cacheMap, k ∈ s'.cacheMap) ∧ s.hitCount ≤ s'.hitCount := by
  intro s
  have hs : Stacked capacity trace s := stacked_after hcap value trace
  refine ⟨fun k => ?_, hs.mem_iff, ?_, fun capacity' hle => ⟨fun k hk => ?_, ?_⟩⟩
  · rw [request_fst, hs.mem_iff]
    exact Recency.mem_take_stack_iff
  · rw [hs.size, List.length_take, Recency.length_stack]
  · exact hs.mem_mono (stacked_after (hcap.trans hle) value trace) hle hk
  · exact hitCount_mono hcap hle value trace

/-- Two keys since the first request are too many for a capacity of 2. -/
theorem reuse_distance_two :
    let trace := [lit "a", lit "b", lit "c"]
    let s := StepMachine.after (BenchmarkCache.request id) (fresh 2 .lru) trace
    ((s.request id (lit "a")).1 = true ↔ ∃ before since, trace = before ++ lit "a" :: since ∧
      lit "a" ∉ since ∧ since.toFinset.card < 2) ∧ (s.request id (lit "a")).1 = false := by
  intro trace s
  refine ⟨(reuse_distance id 2 (by decide) trace).1 (lit "a"), ?_⟩
  decide

end BenchmarkCache

end PagedCacheServer
