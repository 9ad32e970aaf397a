import PagedCacheServer.Benchmark.Reuse

/-!
# What no policy can change

A policy is asked only when an entry has to go. A trace whose distinct keys all fit never
asks it: whatever the policy, a request then hits exactly when its key came before, and
there are as many misses as distinct keys (`PagedCacheServer.BenchmarkCache.Whole.request`).
That is the least there can be, since no policy brings in a key that was not requested
(`PagedCacheServer.BenchmarkCache.Served.request`).
-/

namespace PagedCacheServer

namespace BenchmarkCache

variable {s : BenchmarkCache} {k key : Bytes} {trace : List Bytes}

/-! ### Counting distinct keys -/

theorem card_toFinset_le_of_subset {keys : List Bytes} (h : keys ⊆ trace) :
    keys.toFinset.card ≤ trace.toFinset.card :=
  Finset.card_le_card fun _ hk => List.mem_toFinset.mpr (h (List.mem_toFinset.mp hk))

theorem card_snoc_of_mem (hkey : key ∈ trace) :
    (trace ++ [key]).toFinset.card = trace.toFinset.card := by
  rw [List.toFinset_append, List.toFinset_cons, List.toFinset_nil, LawfulSingleton.insert_empty_eq,
    Finset.union_comm, ← Finset.insert_eq, Finset.insert_eq_of_mem (List.mem_toFinset.mpr hkey)]

theorem card_snoc_of_notMem (hkey : key ∉ trace) :
    (trace ++ [key]).toFinset.card = trace.toFinset.card + 1 := by
  rw [List.toFinset_append, List.toFinset_cons, List.toFinset_nil, LawfulSingleton.insert_empty_eq,
    Finset.union_comm, ← Finset.insert_eq,
    Finset.card_insert_of_notMem fun hmem => hkey (List.mem_toFinset.mp hmem)]

/-- What is resident was requested: then the size says whether everything is. -/
theorem getCurrentSize_of_whole (h : ∀ k, k ∈ s.cacheMap ↔ k ∈ trace) :
    s.getCurrentSize = trace.toFinset.card := by
  have hnd : s.cacheMap.keys.Nodup := s.cacheMap.nodupKeys
  rw [getCurrentSize, ← List.toFinset_card_of_nodup hnd]
  refine congrArg Finset.card (Finset.ext fun k => ?_)
  rw [List.mem_toFinset, List.mem_toFinset, ← h k]
  rfl

/-! ### One request -/

theorem request_missCount (s : BenchmarkCache) (value : Bytes → Bytes) (key : Bytes) :
    (s.request value key).2.missCount = s.missCount + if key ∈ s.cacheMap then 0 else 1 := by
  split_ifs with hkey
  · rw [request_of_mem hkey]
    exact (frame_update s.countHit key).missCount
  · rw [request_of_notMem hkey]
    exact (frame_put s.countMiss key (value key)).missCount

theorem alike_countHit (s : BenchmarkCache) : Alike s s.countHit :=
  ⟨rfl, rfl, rfl, rfl, rfl, rfl, rfl, fun _ => rfl⟩

theorem alike_countMiss (s : BenchmarkCache) : Alike s s.countMiss :=
  ⟨rfl, rfl, rfl, rfl, rfl, rfl, rfl, fun _ => rfl⟩

theorem Settled.request (h : s.Settled) (value : Bytes → Bytes) (key : Bytes) :
    (s.request value key).2.Settled := by
  by_cases hkey : key ∈ s.cacheMap
  · rw [request_of_mem hkey]
    exact (h.alike s.alike_countHit).update hkey
  · rw [request_of_notMem hkey]
    exact (h.alike s.alike_countMiss).step (.put key (value key))

/-- A request brings in its key and no other. -/
theorem Settled.mem_of_mem_request (h : s.Settled) (value : Bytes → Bytes)
    (hk : k ∈ (s.request value key).2.cacheMap) : k = key ∨ k ∈ s.cacheMap := by
  by_cases hkey : key ∈ s.cacheMap
  · rw [request_of_mem hkey, mem_update] at hk
    exact .inr hk
  · rw [request_of_notMem hkey] at hk
    have hs := h.alike s.alike_countMiss
    by_cases he : s.countMiss.Evicts (.put key (value key))
    · obtain ⟨v, -, hmem⟩ := hs.mem_step_of_evicts he
      rcases (hmem k).mp hk with heq | ⟨-, hk⟩
      · exact .inl heq
      · exact .inr hk
    · rcases (hs.mem_step_of_not_evicts he k).mp hk with hk | ⟨w, hput⟩
      · exact .inr hk
      · cases hput
        exact .inl rfl

/-! ### Whole traces -/

/-- The cache after the trace, whatever was evicted. -/
structure Served (trace : List Bytes) (s : BenchmarkCache) : Prop where
  settled : s.Settled
  counted : s.hitCount + s.missCount = trace.length
  requested : ∀ k ∈ s.cacheMap, k ∈ trace
  distinct : trace.toFinset.card ≤ s.missCount

theorem Served.request (h : Served trace s) (value : Bytes → Bytes) (key : Bytes) :
    Served (trace ++ [key]) (s.request value key).2 where
  settled := h.settled.request value key
  counted := by
    rw [request_hitCount, request_missCount, List.length_append, List.length_singleton, ← h.counted]
    split_ifs <;> omega
  requested := fun k hk => by
    rw [List.mem_append, List.mem_singleton]
    rcases h.settled.mem_of_mem_request value hk with heq | hk
    · exact .inr heq
    · exact .inl (h.requested k hk)
  distinct := by
    rw [request_missCount]
    have hle := h.distinct
    by_cases hkey : key ∈ trace
    · rw [card_snoc_of_mem hkey]
      omega
    · -- a key that comes for the first time misses
      rw [card_snoc_of_notMem hkey, if_neg fun hmem => hkey (h.requested key hmem)]
      omega

/-- The cache after a trace that has had to evict nothing. -/
structure Whole (trace : List Bytes) (s : BenchmarkCache) : Prop where
  resident : ∀ k, k ∈ s.cacheMap ↔ k ∈ trace
  missCount : s.missCount = trace.toFinset.card

/-- Where the distinct keys fit, there is room for one that is missing. -/
theorem Whole.getCurrentSize_lt (h : Whole trace s)
    (hfits : (trace ++ [key]).toFinset.card ≤ s.maxCapacity) (hkey : key ∉ s.cacheMap) :
    s.getCurrentSize < s.maxCapacity := by
  rw [card_snoc_of_notMem fun hmem => hkey ((h.resident key).mpr hmem)] at hfits
  rw [getCurrentSize_of_whole h.resident]
  exact Nat.lt_of_succ_le hfits

/-- **While the distinct keys fit, nothing is evicted.** -/
theorem Whole.request (h : Whole trace s) (hs : s.Settled) {key : Bytes}
    (hfits : (trace ++ [key]).toFinset.card ≤ s.maxCapacity) (value : Bytes → Bytes) :
    Whole (trace ++ [key]) (s.request value key).2 := by
  have hresident := h.resident key
  refine ⟨fun k => ?_, ?_⟩
  · rw [List.mem_append, List.mem_singleton]
    by_cases hkey : key ∈ s.cacheMap
    · rw [request_of_mem hkey, mem_update]
      refine (h.resident k).trans ⟨.inl, ?_⟩
      rintro (hk | rfl)
      · exact hk
      · exact hresident.mp hkey
    · rw [request_of_notMem hkey]
      have hnot : ¬ s.countMiss.Evicts (.put key (value key)) := by
        rintro ⟨-, hfull, -⟩
        exact absurd hfull (Nat.not_le_of_lt (h.getCurrentSize_lt hfits hkey))
      refine ((hs.alike s.alike_countMiss).mem_step_of_not_evicts hnot k).trans ?_
      refine or_congr (h.resident k) ⟨?_, ?_⟩
      · rintro ⟨w, hput⟩
        cases hput
        rfl
      · rintro rfl
        exact ⟨value k, rfl⟩
  · rw [request_missCount, h.missCount]
    split_ifs with hkey
    · rw [card_snoc_of_mem (hresident.mp hkey), Nat.add_zero]
    · rw [card_snoc_of_notMem fun hmem => hkey (hresident.mpr hmem)]

theorem maxCapacity_request (s : BenchmarkCache) (value : Bytes → Bytes) (key : Bytes) :
    (s.request value key).2.maxCapacity = s.maxCapacity := by
  by_cases hkey : key ∈ s.cacheMap
  · rw [request_of_mem hkey]
    exact (frame_update s.countHit key).maxCapacity
  · rw [request_of_notMem hkey]
    exact (frame_put s.countMiss key (value key)).maxCapacity

theorem maxCapacity_after_requests (value : Bytes → Bytes) (s : BenchmarkCache)
    (trace : List Bytes) :
    (StepMachine.after (BenchmarkCache.request value) s trace).maxCapacity = s.maxCapacity :=
  StepMachine.invariant_after (I := fun t => t.maxCapacity = s.maxCapacity) rfl
    (fun t key ht => (maxCapacity_request t value key).trans ht) trace

theorem served_after (value : Bytes → Bytes) (capacity : ℕ) (policy : EvictionPolicy)
    (trace : List Bytes) :
    Served trace
      (StepMachine.after (BenchmarkCache.request value) (fresh capacity policy) trace) := by
  induction trace using List.reverseRecOn with
  | nil => exact ⟨settled_fresh capacity policy, rfl, by simp [fresh], by simp [fresh]⟩
  | append_singleton trace key ih =>
    rw [StepMachine.after_append]
    exact ih.request value key

theorem whole_after (value : Bytes → Bytes) {capacity : ℕ} (policy : EvictionPolicy)
    {trace : List Bytes} (hfits : trace.toFinset.card ≤ capacity) :
    Whole trace
      (StepMachine.after (BenchmarkCache.request value) (fresh capacity policy) trace) := by
  induction trace using List.reverseRecOn with
  | nil => exact ⟨by simp [fresh], by simp [fresh]⟩
  | append_singleton trace key ih =>
    have hle : trace.toFinset.card ≤ (trace ++ [key]).toFinset.card :=
      card_toFinset_le_of_subset (List.subset_append_left _ _)
    rw [StepMachine.after_append]
    refine (ih (hle.trans hfits)).request (served_after value capacity policy trace).settled ?_
      value
    rw [maxCapacity_after_requests]
    exact hfits

/-- **The floor of misses, and when it is reached.** For every capacity, policy and trace,
the hits and misses of the benchmark algorithm add up to the requests and there is at
least one miss for every distinct key. When the distinct keys fit in the cache there are
no others, under every policy: a request hits exactly if its key came before, every key
stays, and no put on the way finds the cache full, so that the eviction code is never
reached. -/
theorem working_set (value : Bytes → Bytes) (capacity : ℕ) (policy : EvictionPolicy)
    (trace : List Bytes) :
    let s := StepMachine.after (request value) (fresh capacity policy) trace
    s.hitCount + s.missCount = trace.length ∧ trace.toFinset.card ≤ s.missCount ∧
      (trace.toFinset.card ≤ capacity →
        s.missCount = trace.toFinset.card ∧ s.getCurrentSize = trace.toFinset.card ∧
          (∀ k, (s.request value k).1 = true ↔ k ∈ trace) ∧
          ∀ before key, before ++ [key] <+: trace →
            let t := StepMachine.after (request value) (fresh capacity policy) before
            key ∉ t.cacheMap → t.getCurrentSize < t.maxCapacity) := by
  intro s
  have hserved : Served trace s := served_after value capacity policy trace
  refine ⟨hserved.counted, hserved.distinct, fun hfits => ?_⟩
  have hwhole : Whole trace s := whole_after value policy hfits
  refine ⟨hwhole.missCount, getCurrentSize_of_whole hwhole.resident, fun k => ?_, ?_⟩
  · rw [request_fst]
    exact hwhole.resident k
  · intro before key hprefix t hkey
    have hle : (before ++ [key]).toFinset.card ≤ capacity :=
      (card_toFinset_le_of_subset hprefix.subset).trans hfits
    have hbefore : before.toFinset.card ≤ (before ++ [key]).toFinset.card :=
      card_toFinset_le_of_subset (List.subset_append_left _ _)
    have ht : Whole before t := whole_after value policy (hbefore.trans hle)
    refine ht.getCurrentSize_lt ?_ hkey
    rw [maxCapacity_after_requests]
    exact hle

end BenchmarkCache

end PagedCacheServer
