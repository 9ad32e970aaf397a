import Mathlib.Algebra.Order.Field.Rat
import Mathlib.Data.List.MinMax
import PagedCacheServer.Benchmark.WorkingSet
import PagedCacheServer.Trace.Requests

/-!
# The summary of the benchmark

What `cache_benchmark` prints at its end is not what its servers have counted. For each of
the policies it is asked to compare, `main` reads the beginning of the trace again, into a
cache of its own, and names the policy with the best hit ratio.

The loop that does so is not the one of `run_trace_benchmark`: it has a bound, and no eye
for the entry at the end of the file. It sees the same requests nevertheless, the first
ten thousand of them (`PagedCacheServer.TraceProcessor.sampleLoop_eq`). So all policies are
given the same keys and the ratios can be compared by their hits; and where the distinct
keys fit in the cache there is nothing to compare, and the best policy is just the first
one (`PagedCacheServer.TraceProcessor.summary`).

A capacity is any number that `std::stoull` reads, and CLOCK reserves as many slots. When
it cannot, the exception is caught nowhere, and there is no summary for the other policies
either. Ratios are fractions here, without the rounding of `double`.
-/

namespace PagedCacheServer

/-! ### The policies -/

/-- `get_policy_name`. -/
def EvictionPolicy.getPolicyName : EvictionPolicy → Bytes
  | lru => lit "LRU"
  | fifo => lit "FIFO"
  | sieve => lit "SIEVE"
  | clock => lit "CLOCK"

/-- `string_to_policy`. `none` stands for the exception. -/
def stringToPolicy (policyStr : Bytes) : Option EvictionPolicy :=
  let upperStr := policyStr.map ProtocolParser.toupper
  if upperStr = lit "LRU" then some .lru
  else if upperStr = lit "FIFO" then some .fifo
  else if upperStr = lit "SIEVE" then some .sieve
  else if upperStr = lit "CLOCK" then some .clock
  else none

/-- `policies_to_test`, unless the program ends with an error. -/
def policiesToTest (algorithm : Bytes) : Option (List EvictionPolicy) :=
  if algorithm = lit "ALL" then some [.lru, .fifo, .sieve, .clock]
  else (stringToPolicy algorithm).map fun policy => [policy]

theorem getPolicyName_injective : Function.Injective EvictionPolicy.getPolicyName := by
  intro p q h
  cases p <;> cases q <;> first | rfl | exact absurd h (by decide)

/-- There is something to compare. -/
theorem exists_first {algorithm : Bytes} {policies : List EvictionPolicy}
    (halg : policiesToTest algorithm = some policies) :
    ∃ first others, policies = first :: others := by
  rw [policiesToTest] at halg
  split_ifs at halg
  · obtain rfl := Option.some.inj halg
    exact ⟨_, _, rfl⟩
  · obtain ⟨policy, -, rfl⟩ := Option.map_eq_some_iff.mp halg
    exact ⟨policy, [], rfl⟩

/-! ### The ratio of hits -/

namespace BenchmarkCache

variable {capacity : ℕ} {policy : EvictionPolicy}

/-- `get_hit_ratio`. -/
def getHitRatio (s : BenchmarkCache) : ℚ :=
  if s.totalRequests = 0 then 0 else s.hitCount / s.totalRequests

theorem request_totalRequests (s : BenchmarkCache) (value : Bytes → Bytes) (key : Bytes) :
    (s.request value key).2.totalRequests = s.totalRequests + 1 := by
  by_cases hkey : key ∈ s.cacheMap
  · rw [request_of_mem hkey]
    exact (frame_update s.countHit key).totalRequests
  · rw [request_of_notMem hkey]
    exact (frame_put s.countMiss key (value key)).totalRequests

theorem totalRequests_after (value : Bytes → Bytes) (s : BenchmarkCache) (trace : List Bytes) :
    (StepMachine.after (request value) s trace).totalRequests =
      s.totalRequests + trace.length := by
  induction trace generalizing s with
  | nil => rfl
  | cons key trace ih =>
    rw [StepMachine.after_cons, ih, request_totalRequests, List.length_cons]
    omega

/-- Of no requests, no hits. -/
theorem getHitRatio_after (value : Bytes → Bytes) (trace : List Bytes) :
    (StepMachine.after (request value) (fresh capacity policy) trace).getHitRatio =
      (StepMachine.after (request value) (fresh capacity policy) trace).hitCount /
        trace.length := by
  have htotal : (StepMachine.after (request value) (fresh capacity policy) trace).totalRequests =
      trace.length := (totalRequests_after value _ trace).trans (Nat.zero_add _)
  rw [getHitRatio, htotal]
  split_ifs with hzero
  · rw [hzero, Nat.cast_zero, div_zero]
  · rfl

end BenchmarkCache

/-! ### The sample -/

namespace TraceProcessor

open BenchmarkCache (construct fresh request)

/-- The value `main` puts. -/
def dummyValue (_ : Bytes) : Bytes := lit "dummy_value"

/-- The loop of `main` over the beginning of the trace. -/
def sampleLoop (file : TraceFile) (count : ℕ) (tempCache : BenchmarkCache) : BenchmarkCache :=
  if hasNext file ∧ count < 10000 then
    let next := getNext file
    if next.1.key = [] then tempCache
    else sampleLoop next.2 (count + 1) (tempCache.request dummyValue next.1.key).2
  else tempCache
termination_by 10000 - count

/-- The loop of `main` over the policies: `results`, unless a constructor ends the program
(`none`). The one of `temp_cache` is not the first in a round, but the server that has run
before it has made its cache in the same way. What `initialize` opens in the round of a
policy, if anything, is input. -/
def results (reserves : ℕ → Bool) (capacity : ℕ) (opened : EvictionPolicy → Option TraceFile) :
    List EvictionPolicy → Option (List (Bytes × ℚ))
  | [] => some []
  | policy :: policies =>
    match construct reserves capacity policy with
    | none => none
    | some tempCache =>
      (results reserves capacity opened policies).map fun lines =>
        match opened policy with
        | some file =>
          (policy.getPolicyName, (sampleLoop file 0 tempCache).getHitRatio) :: lines
        | none => lines

/-- `std::max_element` of the results: the first one with the greatest ratio. -/
def bestPerforming (results : List (Bytes × ℚ)) : Option (Bytes × ℚ) := results.argmax Prod.snd

/-- The first one is the best one, if no other is better. -/
theorem bestPerforming_cons {line : Bytes × ℚ} {lines : List (Bytes × ℚ)}
    (h : ∀ other ∈ lines, other.2 ≤ line.2) : bestPerforming (line :: lines) = some line := by
  rw [bestPerforming, List.argmax_cons]
  rcases hbest : List.argmax Prod.snd lines with _ | best
  · rfl
  · exact if_neg (not_lt.mpr (h best (List.argmax_mem hbest)))

/-- The keys a trace asks for. -/
def keysOf (file : TraceFile) : List Bytes :=
  (runTraceBenchmark file).map BenchmarkRequest.key

/-- The entry at the end of the file has no key. -/
theorem key_of_eof {file : TraceFile} (h : (getNext file).1.operation = lit "EOF") :
    (getNext file).1.key = [] := by
  rw [getNext] at h ⊢
  split at h
  · rw [parseEntry_operation] at h
    exact absurd h (by decide)
  · rfl

theorem keysOf_of_hasNext {file : TraceFile} (h : hasNext file = true) :
    keysOf file = if (getNext file).1.key = [] then []
      else (getNext file).1.key :: keysOf (getNext file).2 := by
  rw [keysOf, runTraceBenchmark, if_pos h]
  by_cases hkey : (getNext file).1.key = []
  · simp [hkey]
  · have hgo : ¬((getNext file).1.key = [] ∨ (getNext file).1.operation = lit "EOF") := by
      rintro (hnil | heof)
      · exact hkey hnil
      · exact hkey (key_of_eof heof)
    rw [if_neg hkey]
    dsimp only
    rw [dif_neg hgo, List.map_cons]
    rfl

theorem keysOf_of_not_hasNext {file : TraceFile} (h : ¬hasNext file = true) :
    keysOf file = [] := by
  rw [keysOf, runTraceBenchmark, if_neg h]
  rfl

/-- **The sample is the beginning of the trace**, as `run_trace_benchmark` reads it. -/
theorem sampleLoop_eq (file : TraceFile) (count : ℕ) (tempCache : BenchmarkCache) :
    sampleLoop file count tempCache =
      StepMachine.after (request dummyValue) tempCache ((keysOf file).take (10000 - count)) := by
  induction hn : 10000 - count generalizing file count tempCache with
  | zero =>
    rw [sampleLoop, if_neg fun hand => by omega, List.take_zero]
    rfl
  | succ n ih =>
    have hcount : count < 10000 := by omega
    rw [sampleLoop]
    by_cases hnext : hasNext file = true
    · rw [if_pos ⟨hnext, hcount⟩, keysOf_of_hasNext hnext]
      dsimp only
      split_ifs with hkey
      · rfl
      · rw [ih _ (count + 1) _ (by omega), List.take_succ_cons, StepMachine.after_cons]
    · rw [if_neg fun hand => hnext hand.1, keysOf_of_not_hasNext hnext]
      rfl

/-! ### The comparison -/

variable {capacity : ℕ} {policies : List EvictionPolicy} {keys : List Bytes}

/-- The hits of a policy on some keys. -/
def hits (capacity : ℕ) (keys : List Bytes) (policy : EvictionPolicy) : ℕ :=
  (StepMachine.after (request dummyValue) (fresh capacity policy) keys).hitCount

/-- No policy hits a key that comes for the first time. -/
theorem hits_add_card_le (capacity : ℕ) (keys : List Bytes) (policy : EvictionPolicy) :
    hits capacity keys policy + keys.toFinset.card ≤ keys.length := by
  have hserved := BenchmarkCache.served_after dummyValue capacity policy keys
  have htotal := hserved.counted
  have hfloor := hserved.distinct
  rw [hits]
  omega

theorem hits_add_card_eq (hfits : keys.toFinset.card ≤ capacity) (policy : EvictionPolicy) :
    hits capacity keys policy + keys.toFinset.card = keys.length := by
  rw [hits, ← (BenchmarkCache.whole_after dummyValue policy hfits).missCount]
  exact (BenchmarkCache.served_after dummyValue capacity policy keys).counted

theorem hits_le_iff {p q : EvictionPolicy} :
    (hits capacity keys p : ℚ) / keys.length ≤ hits capacity keys q / keys.length ↔
      hits capacity keys p ≤ hits capacity keys q := by
  rcases Nat.eq_zero_or_pos keys.length with hzero | hpos
  · have hp := hits_add_card_le capacity keys p
    rw [hzero, Nat.cast_zero, div_zero, div_zero]
    exact ⟨fun _ => by omega, fun _ => le_refl 0⟩
  · rw [div_le_div_iff_of_pos_right (Nat.cast_pos.mpr hpos), Nat.cast_le]

/-- The line of a policy for some keys. -/
def line (capacity : ℕ) (keys : List Bytes) (policy : EvictionPolicy) : Bytes × ℚ :=
  (policy.getPolicyName, (hits capacity keys policy : ℚ) / keys.length)

variable {reserves : ℕ → Bool} {file : TraceFile}

theorem getHitRatio_sampleLoop (file : TraceFile) (capacity : ℕ) (policy : EvictionPolicy) :
    (policy.getPolicyName, (sampleLoop file 0 (fresh capacity policy)).getHitRatio) =
      line capacity ((keysOf file).take 10000) policy := by
  rw [sampleLoop_eq, BenchmarkCache.getHitRatio_after]
  rfl

/-- **One exception is the end of the summary.** Otherwise there is a line for each
policy. -/
theorem results_eq (policies : List EvictionPolicy) :
    results reserves capacity (fun _ => some file) policies =
      if .clock ∈ policies ∧ reserves capacity = false then none
      else some (policies.map (line capacity ((keysOf file).take 10000))) := by
  induction policies with
  | nil => rfl
  | cons policy policies ih =>
    rw [results, ih, construct]
    by_cases hpolicy : policy = .clock ∧ reserves capacity = false
    · have hmem : EvictionPolicy.clock ∈ policy :: policies := hpolicy.1 ▸ List.mem_cons_self
      rw [if_pos hpolicy]
      exact (if_pos ⟨hmem, hpolicy.2⟩).symm
    · rw [if_neg hpolicy]
      by_cases hothers : EvictionPolicy.clock ∈ policies ∧ reserves capacity = false
      · rw [if_pos hothers, if_pos ⟨List.mem_cons_of_mem _ hothers.1, hothers.2⟩]
        rfl
      · have hneither : ¬(EvictionPolicy.clock ∈ policy :: policies ∧
            reserves capacity = false) := by
          rintro ⟨hmem, hfails⟩
          rcases List.mem_cons.mp hmem with heq | hmem
          · exact hpolicy ⟨heq.symm, hfails⟩
          · exact hothers ⟨hmem, hfails⟩
        rw [if_neg hothers, if_neg hneither, List.map_cons, ← getHitRatio_sampleLoop]
        rfl

/-- **The best line** is that of a policy with the most hits, and the first line when the
keys fit. -/
theorem exists_bestPerforming (capacity : ℕ) (keys : List Bytes)
    (hpolicies : ∃ first others, policies = first :: others) :
    ∃ policy ∈ policies,
      bestPerforming (policies.map (line capacity keys)) = some (line capacity keys policy) ∧
        (∀ other ∈ policies, hits capacity keys other ≤ hits capacity keys policy) ∧
        (keys.toFinset.card ≤ capacity → policies.head? = some policy ∧
          hits capacity keys policy + keys.toFinset.card = keys.length) := by
  obtain ⟨first, others, hfirst⟩ := hpolicies
  -- there is a best line, and it is the line of a policy
  obtain ⟨best, hbest⟩ :
      ∃ best, bestPerforming (policies.map (line capacity keys)) = some best := by
    refine Option.ne_none_iff_exists'.mp fun hnone => ?_
    rw [bestPerforming, List.argmax_eq_none, hfirst] at hnone
    simp at hnone
  obtain ⟨policy, hpolicy, rfl⟩ := List.mem_map.mp (List.argmax_mem hbest)
  refine ⟨policy, hpolicy, hbest, fun other hother => ?_, fun hfits => ?_⟩
  · exact hits_le_iff.mp (List.le_of_mem_argmax (List.mem_map_of_mem hother) hbest)
  · -- all ratios are equal, and `std::max_element` stays with the first
    have hall := hits_add_card_eq hfits
    have hnamed : bestPerforming (policies.map (line capacity keys)) =
        some (line capacity keys first) := by
      rw [hfirst, List.map_cons]
      refine bestPerforming_cons fun other hother => ?_
      obtain ⟨policy', -, rfl⟩ := List.mem_map.mp hother
      have hpolicy' := hall policy'
      have hfirst' := hall first
      exact hits_le_iff.mpr (by omega)
    have hsame : line capacity keys policy = line capacity keys first :=
      Option.some.inj (hbest.symm.trans hnamed)
    refine ⟨?_, hall policy⟩
    rw [hfirst, List.head?_cons, getPolicyName_injective (congrArg Prod.fst hsame)]

end TraceProcessor

end PagedCacheServer
