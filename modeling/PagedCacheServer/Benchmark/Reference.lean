import PagedCacheServer.Benchmark.Bookkeeping
import PagedCacheServer.Library.BitQueue

/-!
# Comparing a policy with a reference queue

What can be seen of a policy is whether each call finds its key and which keys it
evicts: `PagedCacheServer.BenchmarkCache.watch`. A reference is a discipline of
`Library.BitQueue`, run on the same calls
(`PagedCacheServer.BenchmarkCache.follow`). The two are compared through a relation
between a cache and a queue that a hit, a new key and a replacement keep
(`PagedCacheServer.BenchmarkCache.Refines`): then they agree on every run
(`PagedCacheServer.BenchmarkCache.Refines.history_eq`).
-/

namespace PagedCacheServer

namespace BenchmarkCache

open BitQueue (Discipline)

variable {s s' : BenchmarkCache} {k key v : Bytes} {call : Call} {σ : Type*}

/-- Whether a call brings its key in. -/
def Call.brings : Call → Bool
  | .get _ => false
  | .put _ _ => true

/-- The keys a call evicts. -/
def evicted (s : BenchmarkCache) (call : Call) : List Bytes :=
  s.cacheMap.keys.filter fun k => decide (k ∉ (s.step call).2.cacheMap)

/-- One call, with whether it found its key and the keys it evicted. -/
def watch (s : BenchmarkCache) (call : Call) : (Bool × List Bytes) × BenchmarkCache :=
  ((decide (call.key ∈ s.cacheMap), s.evicted call), (s.step call).2)

/-- The same call on a reference queue. -/
def follow (d : Discipline Bytes σ) (capacity : ℕ) (q : σ) (call : Call) :
    (Bool × List Bytes) × σ :=
  d.access capacity q call.brings call.key

/-! ### What a call evicts -/

theorem Settled.evicted_of_not_evicts (h : s.Settled) (he : ¬s.Evicts call) :
    s.evicted call = [] := by
  refine List.filter_eq_nil_iff.mpr fun k hk => ?_
  simpa using (h.mem_step_of_not_evicts he k).mpr (Or.inl hk)

theorem Removes.evicted_put (hrem : Removes s s.makeRoom v) (hkey : key ∉ s.cacheMap)
    (value : Bytes) : s.evicted (.put key value) = [v] := by
  refine List.perm_singleton.mp ((List.perm_ext_iff_of_nodup
    (s.cacheMap.nodupKeys.filter _) (List.nodup_singleton v)).mpr fun k => ?_)
  have hmem : k ∈ (s.step (.put key value)).2.cacheMap ↔ k = key ∨ (k ≠ v ∧ k ∈ s.cacheMap) := by
    simp only [BenchmarkCache.step, put, if_neg hkey]
    rw [mem_add, store, AList.mem_insert, hrem.mem_iff]
  rw [List.mem_filter, decide_eq_true_iff, hmem, List.mem_singleton]
  constructor
  · rintro ⟨hk, hgone⟩
    by_contra hne
    exact hgone (Or.inr ⟨hne, hk⟩)
  · rintro rfl
    refine ⟨hrem.resident, ?_⟩
    rintro (rfl | ⟨hne, -⟩)
    · exact hkey hrem.resident
    · exact hne rfl

/-! ### The rule -/

/-- The cache follows the discipline: the relation says the same of both about who is
there, and is kept by whatever a call can do, for the keys that are `ok`. -/
structure Refines (d : Discipline Bytes σ) (ok : Bytes → Prop) (R : BenchmarkCache → σ → Prop) :
    Prop where
  mem_iff : ∀ {s q}, R s q → ∀ k, k ∈ (d.queue q).map Prod.fst ↔ k ∈ s.cacheMap
  length : ∀ {s q}, R s q → (d.queue q).length = s.getCurrentSize
  alike : ∀ {s s' q}, R s q → Alike s s' → R s' q
  hit : ∀ {s q key}, s.Settled → R s q → key ∈ s.cacheMap → R (s.update key) (d.hit q key)
  join : ∀ {s q key}, s.Settled → R s q → ok key → key ∉ s.cacheMap →
    s.getCurrentSize < s.maxCapacity → ∀ value, R ((s.store key value).add key) (d.join q key)
  replace : ∀ {s q key}, s.Settled → R s q → ok key → key ∉ s.cacheMap → s.Full → ∀ value,
    ∃ v, Removes s s.makeRoom v ∧ (d.replace q key).1 = some v ∧
      R ((s.makeRoom.store key value).add key) (d.replace q key).2

variable {d : Discipline Bytes σ} {ok : Bytes → Prop} {R : BenchmarkCache → σ → Prop} {q : σ}

/-- **One call**: the cache and the queue show the same and stay related. -/
theorem Refines.step (h : Refines d ok R) (hs : s.Settled) (hcap : 1 ≤ s.maxCapacity)
    (hR : R s q) (hok : ok call.key) :
    (s.watch call).1 = (follow d s.maxCapacity q call).1 ∧
      R (s.watch call).2 (follow d s.maxCapacity q call).2 := by
  have hmem := h.mem_iff hR call.key
  rcases step_cases s call with ⟨hkey, t, ha, hstep⟩ | ⟨key, rfl, hkey, ha⟩ |
    ⟨key, value, rfl, hkey, hstep⟩
  · have he : ¬s.Evicts call := fun he => by
      cases call with
      | get key => exact he
      | put key value => exact he.1 hkey
    have hfollow : follow d s.maxCapacity q call = ((true, []), d.hit q call.key) :=
      BitQueue.access_of_mem (hmem.mpr hkey)
    rw [hfollow, watch, hs.evicted_of_not_evicts he, hstep]
    exact ⟨by simp [hkey], h.hit (hs.alike ha) (h.alike hR ha) ((ha.mem_iff _).mpr hkey)⟩
  · have hfollow : follow d s.maxCapacity q (.get key) = ((false, []), q) :=
      BitQueue.access_of_notMem fun hk => hkey (hmem.mp hk)
    rw [hfollow, watch, hs.evicted_of_not_evicts id]
    exact ⟨by simp [Call.key, hkey], h.alike hR ha⟩
  · have hkey' : key ∉ (d.queue q).map Prod.fst := fun hk => hkey (hmem.mp hk)
    have hlen := h.length hR
    by_cases hsize : s.getCurrentSize < s.maxCapacity
    · have hfull : ¬s.Full := fun hfull => by
        have := hfull.1
        omega
      have he : ¬s.Evicts (.put key value) := fun he => hfull he.2
      have hfollow : follow d s.maxCapacity q (.put key value) = ((false, []), d.join q key) :=
        BitQueue.access_of_lt hkey' (by omega)
      rw [hfollow, watch, hstep, hs.evicted_of_not_evicts he, hs.makeRoom_of_not_full hfull]
      exact ⟨by simp [Call.key, hkey], h.join hs hR hok hkey hsize value⟩
    · have hfull : s.Full := by
        refine ⟨by omega, fun hnil => ?_⟩
        rw [getCurrentSize, hnil, List.length_nil] at hsize
        omega
      have hfollow : follow d s.maxCapacity q (.put key value) =
          ((false, (d.replace q key).1.toList), (d.replace q key).2) :=
        BitQueue.access_of_le hkey' (by omega)
      obtain ⟨v, hrem, hv, hR'⟩ := h.replace hs hR (show ok key from hok) hkey hfull value
      rw [hfollow, watch, hstep, hrem.evicted_put hkey, hv]
      exact ⟨by simp [Call.key, hkey], hR'⟩

/-- **Every run**: the cache and the queue show the same at every call. -/
theorem Refines.history_eq (h : Refines d ok R) (hs : s.Settled) (hcap : 1 ≤ s.maxCapacity)
    (hR : R s q) {calls : List Call} (hok : ∀ call ∈ calls, ok call.key) :
    StepMachine.history watch s calls =
      StepMachine.history (follow d s.maxCapacity) q calls := by
  induction calls generalizing s q with
  | nil => rfl
  | cons call calls ih =>
    rw [List.forall_mem_cons] at hok
    obtain ⟨hsame, hR'⟩ := h.step hs hcap hR hok.1
    have hcap' : (s.watch call).2.maxCapacity = s.maxCapacity := (frame_step s call).1
    have hrest := ih (s := (s.watch call).2) (hs.step call) (hcap'.symm ▸ hcap) hR' hok.2
    rw [StepMachine.history_cons, StepMachine.history_cons, hsame, hrest, hcap']

end BenchmarkCache

end PagedCacheServer
