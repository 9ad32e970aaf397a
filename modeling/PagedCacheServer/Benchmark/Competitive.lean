import PagedCacheServer.Benchmark.Window
import PagedCacheServer.Benchmark.WorkingSet

/-!
# LRU and FIFO against every other cache

The benchmark compares four policies at one capacity. For two of them it can be said in
advance how bad the comparison can turn out. Between two misses of a key under LRU or FIFO
there are more distinct keys than the cache holds
(`PagedCacheServer.BenchmarkCache.lru_spaced`,
`PagedCacheServer.BenchmarkCache.fifo_spaced`); so their histories are conservative, and
what a schedule that knows the trace can save is bounded
(`PagedCacheServer.BenchmarkCache.competitive`). The four policies are such schedules
themselves (`PagedCacheServer.BenchmarkCache.serves_history`).
-/

namespace PagedCacheServer

namespace BenchmarkCache

open Paging (missed missed_append Spaced Conservative Serves)

variable {s : BenchmarkCache} {k key : Bytes} {capacity h : ℕ} {value : Bytes → Bytes}

/-! ### Between two misses -/

theorem mem_of_hit_eq_false (hmiss : (s.request value k).1 = false) : k ∉ s.cacheMap := by
  rw [← request_fst s value k, hmiss]
  exact Bool.false_ne_true

theorem lru_spaced (hcap : 1 ≤ capacity) (value : Bytes → Bytes) (trace : List Bytes) :
    Spaced capacity (StepMachine.history (request value) (fresh capacity .lru) trace) := by
  rintro before k between ⟨after, hhist⟩ - -
  have hall : StepMachine.history (request value) (fresh capacity .lru) trace =
      (before ++ (k, false) :: between) ++ (k, false) :: after := by
    rw [← hhist]
    simp
  obtain ⟨-, hmiss⟩ := StepMachine.history_split hall
  have hnot := mem_of_hit_eq_false hmiss.symm
  rw [(stacked_after hcap value _).mem_iff] at hnot
  -- the last request for the key before this miss
  obtain ⟨first, since, hlast, hsince⟩ :=
    Paging.exists_last (a := k) (l := ((k, false) :: between).map Prod.fst) (by simp)
  have hle : capacity ≤ since.toFinset.card := by
    by_contra hlt
    refine hnot (Recency.mem_take_stack_iff.mpr
      ⟨before.map Prod.fst ++ first, since, ?_, hsince, Nat.not_le.mp hlt⟩)
    rw [List.map_append, hlast, List.append_assoc]
  have hsub : insert k since.toFinset ⊆ (((k, false) :: between).map Prod.fst).toFinset := by
    intro x hx
    rw [hlast, List.mem_toFinset, List.mem_append, List.mem_cons]
    rcases Finset.mem_insert.mp hx with rfl | hx
    · exact .inr (.inl rfl)
    · exact .inr (.inr (List.mem_toFinset.mp hx))
  have hcard := Finset.card_le_card hsub
  rw [Finset.card_insert_of_notMem fun hmem => hsince (List.mem_toFinset.mp hmem)] at hcard
  exact Nat.lt_of_lt_of_le (Nat.lt_succ_of_le hle) hcard

theorem fifo_spaced (hcap : 1 ≤ capacity) (value : Bytes → Bytes) (trace : List Bytes) :
    Spaced capacity (StepMachine.history (request value) (fresh capacity .fifo) trace) := by
  rintro before k between ⟨after, hhist⟩ hnd hk
  have hall : StepMachine.history (request value) (fresh capacity .fifo) trace =
      (before ++ (k, false) :: between) ++ (k, false) :: after := by
    rw [← hhist]
    simp
  obtain ⟨hpre, hmiss⟩ := StepMachine.history_split hall
  have hwindow := windowed_after hcap value ((before ++ (k, false) :: between).map Prod.fst)
  have hnot := mem_of_hit_eq_false hmiss.symm
  rw [← hwindow.keeps.mem_iff, ← hpre] at hnot
  have hle : capacity ≤ (missed between).length := by
    by_contra hlt
    refine hnot (Recency.mem_rtake_iff.mpr
      ⟨missed before, missed between, ?_, Nat.not_le.mp hlt⟩)
    rw [missed_append]
    rfl
  have hsub : insert k (missed between).toFinset ⊆
      (((k, false) :: between).map Prod.fst).toFinset := by
    intro x hx
    rw [List.mem_toFinset, List.map_cons, List.mem_cons]
    rcases Finset.mem_insert.mp hx with rfl | hx
    · exact .inl rfl
    · exact .inr (Paging.mem_keys_of_mem_missed (List.mem_toFinset.mp hx))
  have hcard := Finset.card_le_card hsub
  rw [Finset.card_insert_of_notMem fun hmem => hk (List.mem_toFinset.mp hmem),
    List.toFinset_card_of_nodup hnd] at hcard
  exact Nat.lt_of_lt_of_le (Nat.lt_succ_of_le hle) hcard

/-! ### The policies as schedules -/

/-- The resident keys. -/
def residents (s : BenchmarkCache) : Finset Bytes := s.cacheMap.keys.toFinset

theorem mem_residents : k ∈ s.residents ↔ k ∈ s.cacheMap := List.mem_toFinset

theorem card_residents (s : BenchmarkCache) : s.residents.card = s.getCurrentSize :=
  List.toFinset_card_of_nodup s.cacheMap.nodupKeys

theorem Settled.size_request (hs : s.Settled) (hcap : 1 ≤ s.maxCapacity)
    (hsize : s.getCurrentSize ≤ s.maxCapacity) (value : Bytes → Bytes) (key : Bytes) :
    (s.request value key).2.getCurrentSize ≤ s.maxCapacity := by
  by_cases hkey : key ∈ s.cacheMap
  · rw [request_of_mem hkey]
    refine le_of_eq_of_le (getCurrentSize_congr fun k => ?_) hsize
    exact mem_update
  · rw [request_of_notMem hkey]
    exact (hs.alike s.alike_countMiss).size_step hcap hsize (.put key (value key))

theorem Settled.mem_request (hs : s.Settled) (value : Bytes → Bytes) (key : Bytes) :
    key ∈ (s.request value key).2.cacheMap := by
  by_cases hkey : key ∈ s.cacheMap
  · rw [request_of_mem hkey]
    exact mem_update.mpr hkey
  · rw [request_of_notMem hkey]
    exact (hs.alike s.alike_countMiss).mem_put key (value key)

/-- **Under every policy the cache serves the trace**, with the misses it counts. -/
theorem serves_history (hs : s.Settled) (hcap : 1 ≤ s.maxCapacity)
    (hsize : s.getCurrentSize ≤ s.maxCapacity) (value : Bytes → Bytes) (trace : List Bytes) :
    Serves s.maxCapacity s.residents trace
      (missed (StepMachine.history (request value) s trace)).length := by
  induction trace generalizing s with
  | nil => exact .nil _
  | cons key trace ih =>
    have hcap' := maxCapacity_request s value key
    have hsize' := hs.size_request hcap hsize value key
    have hroom : (s.request value key).2.residents.card ≤ s.maxCapacity := by
      rwa [card_residents]
    have hkeep : key ∈ (s.request value key).2.residents :=
      mem_residents.mpr (hs.mem_request value key)
    have hrest := ih (hs.request value key) (hcap'.symm ▸ hcap) (hcap'.symm ▸ hsize')
    rw [hcap'] at hrest
    rw [StepMachine.history_cons]
    by_cases hkey : key ∈ s.cacheMap
    · rw [(request_fst s value key).mpr hkey]
      refine .hit (mem_residents.mpr hkey) hkeep (fun k hk => ?_) hroom hrest
      rw [mem_residents, request_of_mem hkey, mem_update] at hk
      exact mem_residents.mpr hk
    · have hmiss : (s.request value key).1 = false :=
        Bool.eq_false_iff.mpr fun hhit => hkey ((request_fst s value key).mp hhit)
      rw [hmiss]
      refine .miss (fun hmem => hkey (mem_residents.mp hmem)) hkeep (fun k hk => ?_) hroom hrest
      rcases hs.mem_of_mem_request value (mem_residents.mp hk) with rfl | hk
      · exact Finset.mem_insert_self _ _
      · exact Finset.mem_insert_of_mem (mem_residents.mpr hk)

theorem length_missed_history (value : Bytes → Bytes) (s : BenchmarkCache) (trace : List Bytes) :
    (StepMachine.after (request value) s trace).missCount =
      s.missCount + (missed (StepMachine.history (request value) s trace)).length := by
  induction trace generalizing s with
  | nil => rfl
  | cons key trace ih =>
    rw [StepMachine.after_cons, StepMachine.history_cons, ih, request_missCount,
      ← List.singleton_append, missed_append, List.length_append, Nat.add_assoc]
    congr 2
    by_cases hkey : key ∈ s.cacheMap
    · rw [(request_fst s value key).mpr hkey, if_pos hkey]
      rfl
    · have hmiss : (s.request value key).1 = false :=
        Bool.eq_false_iff.mpr fun hhit => hkey ((request_fst s value key).mp hhit)
      rw [hmiss, if_neg hkey]
      rfl

/-! ### The comparison -/

/-- **How far LRU and FIFO can be from the best.** At capacity `capacity` they have, on
every trace, at most `capacity / (capacity + 1 - h)` times the misses of any way to serve
the trace with a cache of size `h`, for `1 ≤ h ≤ capacity`, counting `capacity - h` misses
more for it; at the same size this is at most `capacity` times the fewest possible. The
other way may know the whole trace; the four policies of the benchmark at capacity `h` are
among them. -/
theorem competitive {policy : EvictionPolicy} (hpolicy : policy = .lru ∨ policy = .fifo)
    (hh : 1 ≤ h) (hle : h ≤ capacity) (value : Bytes → Bytes) (trace : List Bytes) :
    let s := StepMachine.after (request value) (fresh capacity policy) trace
    (∀ n, Serves h ∅ trace n →
      (capacity + 1 - h) * s.missCount ≤ capacity * (n + (capacity - h))) ∧
    ∀ rival, (capacity + 1 - h) * s.missCount ≤ capacity *
      ((StepMachine.after (request value) (fresh h rival) trace).missCount + (capacity - h)) := by
  intro s
  have hspaced : Spaced capacity
      (StepMachine.history (request value) (fresh capacity policy) trace) := by
    rcases hpolicy with rfl | rfl
    · exact lru_spaced (hh.trans hle) value trace
    · exact fifo_spaced (hh.trans hle) value trace
  have hall : ∀ n, Serves h ∅ trace n →
      (capacity + 1 - h) * s.missCount ≤ capacity * (n + (capacity - h)) := by
    intro n hn
    have hbound := (Conservative.of_spaced hspaced).against (n := n) hle
      (by rwa [StepMachine.map_fst_history])
    have hcount := length_missed_history value (fresh capacity policy) trace
    rwa [show s.missCount = _ from hcount, show (fresh capacity policy).missCount = 0 from rfl,
      Nat.zero_add]
  refine ⟨hall, fun rival => hall _ ?_⟩
  have hserves := serves_history (settled_fresh h rival) hh (Nat.zero_le h) value trace
  rw [length_missed_history, show (fresh h rival).missCount = 0 from rfl, Nat.zero_add]
  exact hserves

/-- A key that was hit once outlives the others under SIEVE. -/
theorem competitive_three :
    let trace := ["1", "1", "2", "3", "1", "2", "3", "1"].map lit
    let s := StepMachine.after (request id) (fresh 2 .lru) trace
    let s' := StepMachine.after (request id) (fresh 2 .sieve) trace
    (2 + 1 - 2) * s.missCount ≤ 2 * (s'.missCount + (2 - 2)) ∧ s.missCount = 7 ∧
      s'.missCount = 6 := by
  intro trace s s'
  refine ⟨(competitive (.inl rfl) (by decide) (Nat.le_refl 2) id trace).2 .sieve, ?_, ?_⟩
  · decide
  · decide

end BenchmarkCache

end PagedCacheServer
