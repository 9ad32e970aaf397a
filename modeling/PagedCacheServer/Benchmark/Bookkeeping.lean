import PagedCacheServer.Benchmark.Invariant
import PagedCacheServer.Library.Recency

/-!
# The books are kept, and the capacity with them

A settled cache always finds something to evict: a put into a full cache removes one
entry before it adds its own (`PagedCacheServer.BenchmarkCache.Settled.mem_step_of_evicts`),
and the size stays within the capacity, unless the capacity is 0
(`PagedCacheServer.BenchmarkCache.size_le_iff`). Three of the structures also remember
the order of the calls (`PagedCacheServer.BenchmarkCache.bookkeeping`).
-/

namespace PagedCacheServer

namespace BenchmarkCache

variable {s s' : BenchmarkCache} {k key v : Bytes} {call : Call}

/-! ### Who comes and who goes -/

/-- The call brings in a key, and the cache is full. -/
def Evicts (s : BenchmarkCache) : Call → Prop
  | .get _ => False
  | .put key _ => key ∉ s.cacheMap ∧ s.Full

/-- **A put into a full cache removes one entry** and adds its own. -/
theorem Settled.mem_step_of_evicts (h : s.Settled) (he : s.Evicts call) :
    ∃ v ∈ s.cacheMap, ∀ k, k ∈ (s.step call).2.cacheMap ↔
      k = call.key ∨ (k ≠ v ∧ k ∈ s.cacheMap) := by
  rcases step_cases s call with ⟨hkey, t, ha, hstep⟩ | ⟨key, rfl, hkey, ha⟩ |
    ⟨key, value, rfl, hkey, hstep⟩
  · cases call with
    | get key => exact he.elim
    | put key value => exact absurd hkey he.1
  · exact he.elim
  · obtain ⟨v, hrem, -⟩ := h.makeRoom_of_full he.2
    refine ⟨v, hrem.resident, fun k => ?_⟩
    rw [hstep, mem_add, store, AList.mem_insert, hrem.mem_iff]
    rfl

/-- **Every other call removes none.** -/
theorem Settled.mem_step_of_not_evicts (h : s.Settled) (he : ¬s.Evicts call) (k : Bytes) :
    k ∈ (s.step call).2.cacheMap ↔ k ∈ s.cacheMap ∨ ∃ value, call = .put k value := by
  rcases step_cases s call with ⟨hkey, t, ha, hstep⟩ | ⟨key, rfl, hkey, ha⟩ |
    ⟨key, value, rfl, hkey, hstep⟩
  · rw [hstep, mem_update, ha.mem_iff]
    refine ⟨Or.inl, ?_⟩
    rintro (hk | ⟨value, rfl⟩)
    · exact hk
    · exact hkey
  · rw [ha.mem_iff]
    simp
  · have hfull : ¬s.Full := fun hfull => he ⟨hkey, hfull⟩
    rw [hstep, mem_add, store, AList.mem_insert, h.makeRoom_of_not_full hfull, or_comm]
    simp [eq_comm]

theorem Settled.mem_put (h : s.Settled) (key value : Bytes) :
    key ∈ (s.step (.put key value)).2.cacheMap := by
  by_cases he : s.Evicts (.put key value)
  · obtain ⟨v, -, hmem⟩ := h.mem_step_of_evicts he
    exact (hmem key).mpr (Or.inl rfl)
  · exact (h.mem_step_of_not_evicts he key).mpr (Or.inr ⟨value, rfl⟩)

theorem frame_step (s : BenchmarkCache) (call : Call) :
    (s.step call).2.maxCapacity = s.maxCapacity ∧ (s.step call).2.policy = s.policy := by
  rcases step_cases s call with ⟨-, t, ha, hstep⟩ | ⟨key, rfl, -, ha⟩ | ⟨key, value, rfl, -, -⟩
  · have hf := frame_update t call.key
    rw [hstep]
    exact ⟨hf.maxCapacity.trans ha.maxCapacity, hf.policy.trans ha.policy⟩
  · exact ⟨ha.maxCapacity, ha.policy⟩
  · have hf := frame_put s key value
    exact ⟨hf.maxCapacity, hf.policy⟩

/-! ### The capacity -/

theorem getCurrentSize_eq_zero_iff : s.getCurrentSize = 0 ↔ ∀ k, k ∉ s.cacheMap := by
  rw [getCurrentSize, List.length_eq_zero_iff, keys_eq_nil_iff]

/-- A call keeps the size within a capacity that is not 0. -/
theorem Settled.size_step (h : s.Settled) (hcap : 1 ≤ s.maxCapacity)
    (hsize : s.getCurrentSize ≤ s.maxCapacity) (call : Call) :
    (s.step call).2.getCurrentSize ≤ s.maxCapacity := by
  by_cases he : s.Evicts call
  · cases call with
    | get key => exact he.elim
    | put key value =>
      obtain ⟨v, hrem, -⟩ := h.makeRoom_of_full he.2
      have hkey : key ∉ s.makeRoom.cacheMap := fun hmem => he.1 ((hrem.mem_iff key).mp hmem).2
      have hnew : ((s.makeRoom.store key value).add key).getCurrentSize =
          s.makeRoom.getCurrentSize + 1 :=
        getCurrentSize_of_insert hkey fun k => mem_add.trans (AList.mem_insert _)
      have hold := hrem.getCurrentSize
      have hput : (s.step (.put key value)).2 = (s.makeRoom.store key value).add key := by
        simp only [BenchmarkCache.step, put, if_neg he.1]
      rw [hput]
      omega
  · by_cases hput : ∃ key value, call = .put key value ∧ key ∉ s.cacheMap
    · obtain ⟨key, value, rfl, hkey⟩ := hput
      have hnew : (s.step (.put key value)).2.getCurrentSize = s.getCurrentSize + 1 := by
        refine getCurrentSize_of_insert hkey fun k => ?_
        rw [h.mem_step_of_not_evicts he, or_comm]
        simp [eq_comm]
      have hroom : s.getCurrentSize < s.maxCapacity ∨ s.getCurrentSize = 0 := by
        by_contra hfull
        push Not at hfull
        refine he ⟨hkey, hfull.1, fun hkeys => hfull.2 ?_⟩
        rw [getCurrentSize, hkeys, List.length_nil]
      omega
    · have hsame : (s.step call).2.getCurrentSize = s.getCurrentSize := by
        refine getCurrentSize_congr fun k => ?_
        rw [h.mem_step_of_not_evicts he]
        refine or_iff_left_of_imp ?_
        rintro ⟨value, rfl⟩
        by_contra hkey
        exact hput ⟨k, value, rfl, hkey⟩
      omega

theorem maxCapacity_after (capacity : ℕ) (policy : EvictionPolicy) (calls : List Call) :
    (StepMachine.after BenchmarkCache.step (fresh capacity policy) calls).maxCapacity = capacity :=
  StepMachine.invariant_after (I := fun s => s.maxCapacity = capacity) rfl
    (fun s call h => (frame_step s call).1.trans h) calls

theorem size_after_of_pos {capacity : ℕ} (hcap : 1 ≤ capacity) (policy : EvictionPolicy)
    (calls : List Call) :
    (StepMachine.after BenchmarkCache.step (fresh capacity policy) calls).getCurrentSize ≤
      capacity := by
  refine (StepMachine.invariant_after
    (I := fun s => s.Settled ∧ s.maxCapacity = capacity ∧ s.getCurrentSize ≤ capacity)
    (s := fresh capacity policy) ⟨settled_fresh capacity policy, rfl, Nat.zero_le _⟩ ?_ calls).2.2
  rintro s call ⟨h, rfl, hsize⟩
  exact ⟨h.step call, (frame_step s call).1, h.size_step hcap hsize call⟩

/-- Only a put brings in an entry. -/
theorem size_after_of_gets (capacity : ℕ) (policy : EvictionPolicy) {calls : List Call}
    (hgets : ∀ call ∈ calls, ∃ key, call = .get key) :
    (StepMachine.after BenchmarkCache.step (fresh capacity policy) calls).getCurrentSize = 0 := by
  rw [getCurrentSize_eq_zero_iff]
  induction calls using List.reverseRecOn with
  | nil => simp [fresh]
  | append_singleton calls call ih =>
    intro k hk
    obtain ⟨key, rfl⟩ := hgets call (by simp)
    rw [StepMachine.after_append, StepMachine.after_cons, StepMachine.after_nil,
      (settled_after capacity policy calls).mem_step_of_not_evicts id] at hk
    rcases hk with hk | ⟨value, hput⟩
    · exact ih (fun call hcall => hgets call (by simp [hcall])) k hk
    · cases hput

/-- **The size stays within the capacity exactly when the capacity is not 0**, or
nothing is ever put: for every policy and arbitrary keys, after every call. -/
theorem size_le_iff (capacity : ℕ) (policy : EvictionPolicy) (calls : List Call) :
    (∀ before, before <+: calls →
        (StepMachine.after BenchmarkCache.step (fresh capacity policy) before).getCurrentSize ≤
          (StepMachine.after BenchmarkCache.step (fresh capacity policy) before).maxCapacity) ↔
      1 ≤ capacity ∨ ∀ call ∈ calls, ∃ key, call = .get key := by
  simp only [maxCapacity_after]
  constructor
  · intro h
    by_contra hnot
    push Not at hnot
    obtain ⟨hcap, call, hcall, hput⟩ := hnot
    obtain ⟨before, later, rfl⟩ := List.append_of_mem hcall
    cases call with
    | get key => exact hput key rfl
    | put key value =>
      -- the key is there right after its put
      have hsize := h (before ++ [.put key value]) ⟨later, by simp⟩
      rw [StepMachine.after_append, StepMachine.after_cons, StepMachine.after_nil] at hsize
      have hmem := (settled_after capacity policy before).mem_put key value
      have hzero := getCurrentSize_eq_zero_iff.mp (Nat.le_zero.mp (hsize.trans (by omega)))
      exact hzero key hmem
  · rintro (hcap | hgets) before hbefore
    · exact size_after_of_pos hcap policy before
    · rw [size_after_of_gets capacity policy fun call hcall => hgets call (hbefore.subset hcall)]
      exact Nat.zero_le _

/-- With capacity 0 the first put finds nothing to evict, and its entry is one too
many. -/
theorem size_exceeds_capacity_zero :
    ¬∀ (capacity : ℕ) (policy : EvictionPolicy) (calls before : List Call), before <+: calls →
      (StepMachine.after BenchmarkCache.step (fresh capacity policy) before).getCurrentSize ≤
        (StepMachine.after BenchmarkCache.step (fresh capacity policy) before).maxCapacity := by
  intro h
  have hsize := h 0 .lru [.put (lit "a") (lit "x")] [.put (lit "a") (lit "x")] (List.prefix_refl _)
  revert hsize
  decide

/-! ### The order of the calls -/

/-- One call, with the state it met for an answer. -/
def observe (s : BenchmarkCache) (call : Call) : BenchmarkCache × BenchmarkCache :=
  (s, (s.step call).2)

/-- The call uses the key: it finds it there, or brings it in. -/
def usedBy : Call × BenchmarkCache → Bytes → Bool
  | (.get key, s), k => key = k ∧ k ∈ s.cacheMap
  | (.put key _, _), k => key = k

/-- The call brings the key in. -/
def insertedBy : Call × BenchmarkCache → Bytes → Bool
  | (.get _, _), _ => false
  | (.put key _, s), k => key = k ∧ k ∉ s.cacheMap

/-- The event an order goes by. -/
def orderedBy (policy : EvictionPolicy) : Call × BenchmarkCache → Bytes → Bool :=
  if policy = .lru then usedBy else insertedBy

theorem orderedBy_of_ne (policy : EvictionPolicy) (hk : k ≠ call.key) :
    orderedBy policy (call, s) k = false := by
  rw [orderedBy]
  split_ifs <;> cases call <;> simp [usedBy, insertedBy, Call.key] at hk ⊢ <;>
    simp [Ne.symm hk]

/-- **A call keeps the order of its policy.** -/
theorem Settled.byAge_step (h : s.Settled) {events : List (Call × BenchmarkCache)}
    (hage : Recency.ByAge (orderedBy s.policy) events s.newestFirst) (call : Call) :
    Recency.ByAge (orderedBy s.policy) (events ++ [(call, s)]) (s.step call).2.newestFirst := by
  by_cases hp : s.policy = .clock
  · have hnil : (s.step call).2.newestFirst = [] := by
      simp only [newestFirst, (frame_step s call).2, hp]
    rw [hnil]
    exact Recency.byAge_nil _
  have hkeeps := (books_iff_keeps hp).mp h.books
  rcases step_cases s call with ⟨hkey, t, ha, hstep⟩ | ⟨key, rfl, hkey, ha⟩ |
    ⟨key, value, rfl, hkey, hstep⟩
  · rw [hstep, newestFirst_update, ha.policy, ha.newestFirst]
    split_ifs with hlru
    · refine hage.snoc_touch List.erase_sublist ?_ fun a ha' => orderedBy_of_ne _ ?_
      · rw [hlru, orderedBy, if_pos rfl]
        cases call <;> simp_all [usedBy, Call.key]
      · exact fun heq => (hkeeps.nodup.mem_erase_iff.mp ha').1 heq
    · refine hage.snoc_keep (List.Sublist.refl _) fun a ha' => ?_
      have hmem : a ∈ s.cacheMap := (hkeeps.mem_iff a).mp ha'
      rw [orderedBy, if_neg hlru]
      cases call <;> simp [insertedBy, hmem]
  · rw [ha.newestFirst]
    refine hage.snoc_keep (List.Sublist.refl _) fun a ha' => orderedBy_of_ne _ ?_
    rintro rfl
    exact hkey ((hkeeps.mem_iff _).mp ha')
  · have hp' : (s.makeRoom.store key value).policy ≠ .clock := by
      rw [store, (frame_makeRoom s).policy]
      exact hp
    rw [hstep, newestFirst_add hp']
    refine hage.snoc_touch h.makeRoom_sublist ?_ fun a ha' => orderedBy_of_ne _ ?_
    · rw [orderedBy]
      split_ifs <;> simp [usedBy, insertedBy, hkey]
    · rintro rfl
      exact hkey ((hkeeps.mem_iff _).mp (h.makeRoom_sublist.subset ha'))

/-- What a run keeps: the books, their order, and that every key was named. -/
structure Kept (policy : EvictionPolicy) (events : List (Call × BenchmarkCache))
    (s : BenchmarkCache) : Prop where
  settled : s.Settled
  policy_eq : s.policy = policy
  byAge : Recency.ByAge (orderedBy policy) events s.newestFirst
  named : ∀ k ∈ s.cacheMap, ∃ e ∈ events, e.1.key = k

theorem Settled.named_step (h : s.Settled) (hk : k ∈ (s.step call).2.cacheMap) :
    k = call.key ∨ k ∈ s.cacheMap := by
  by_cases he : s.Evicts call
  · obtain ⟨v, -, hmem⟩ := h.mem_step_of_evicts he
    exact ((hmem k).mp hk).imp_right And.right
  · rcases (h.mem_step_of_not_evicts he k).mp hk with hk | ⟨value, rfl⟩
    · exact Or.inr hk
    · exact Or.inl rfl

theorem kept_after (capacity : ℕ) (policy : EvictionPolicy) (calls : List Call) :
    Kept policy (StepMachine.history observe (fresh capacity policy) calls)
      (StepMachine.after BenchmarkCache.step (fresh capacity policy) calls) := by
  have hstart : Kept policy [] (fresh capacity policy) := by
    refine ⟨settled_fresh capacity policy, rfl, ?_, fun k hk => absurd hk (AList.notMem_empty k)⟩
    cases policy <;> exact Recency.byAge_nil _
  change Kept policy _ (StepMachine.after observe (fresh capacity policy) calls)
  refine StepMachine.invariant_history hstart ?_ calls
  rintro events s call ⟨hsettled, rfl, hage, hnamed⟩
  refine ⟨hsettled.step call, (frame_step s call).2, hsettled.byAge_step hage call, ?_⟩
  intro k hk
  rcases hsettled.named_step hk with rfl | hk
  · exact ⟨(call, s), by simp [observe], rfl⟩
  · obtain ⟨e, he, hkey⟩ := hnamed k hk
    exact ⟨e, by simp [he], hkey⟩

/-- The structure of each policy next to `cache_map`, after the calls of a run. -/
def InStep (events : List (Call × BenchmarkCache)) (s : BenchmarkCache) : Prop :=
  match s.policy with
  | .lru => Keeps s.lruOrder s.cacheMap ∧ Recency.ByAge usedBy events s.lruOrder
  | .fifo => Keeps s.fifoQueue s.cacheMap ∧ Recency.ByAge insertedBy events s.fifoQueue.reverse
  | .sieve =>
    Keeps s.sieveOrder s.cacheMap ∧ Recency.ByAge insertedBy events s.sieveOrder.reverse ∧
      sieveInconsistent s.sieveOrder s = false
  | .clock =>
    (∀ k ∈ s.cacheMap, s.clockBuffer.count k = 1) ∧
      (∀ slot ∈ s.clockBuffer, slot ∈ s.cacheMap ∨ slot = []) ∧
      (s.clockBuffer ≠ [] → s.clockHand < s.clockBuffer.length)

theorem Kept.inStep {policy : EvictionPolicy} {events : List (Call × BenchmarkCache)}
    (h : Kept policy events s) (hkeys : ∀ k ∈ s.cacheMap, k ≠ []) : InStep events s := by
  obtain ⟨hsettled, rfl, hage, -⟩ := h
  have hbooks := hsettled.books
  rcases hp : s.policy <;>
    simp only [Books, InStep, newestFirst, orderedBy, hp, reduceCtorEq, if_false, if_true]
      at hbooks hage ⊢
  · exact ⟨hbooks, hage⟩
  · exact ⟨hbooks, hage⟩
  · exact ⟨hbooks, hage, sieveInconsistent_eq_false fun k hk => (hbooks.mem_iff k).mp hk⟩
  · refine ⟨fun k hk => ?_, fun slot hslot => ?_, fun hne => ?_⟩
    · rw [hbooks.count k (hkeys k hk), if_pos hk]
    · by_contra hfree
      push Not at hfree
      have hcount := hbooks.count slot hfree.2
      rw [if_neg hfree.1, List.count_eq_zero] at hcount
      exact hcount hslot
    · have hhand := hbooks.hand
      have hpos := List.length_pos_of_ne_nil hne
      omega

/-- **The bookkeeping of the policies.** After every run over keys that are not
empty, for every capacity and policy, the structure of the policy holds the resident
keys, each once, in its order; the next call removes one entry if it brings in a key
and the cache is full, and else none. -/
theorem bookkeeping (capacity : ℕ) (policy : EvictionPolicy) (calls : List Call)
    (hkeys : ∀ call ∈ calls, call.key ≠ []) :
    let s := StepMachine.after BenchmarkCache.step (fresh capacity policy) calls
    InStep (StepMachine.history observe (fresh capacity policy) calls) s ∧
      (∀ call, s.Evicts call → ∃ v ∈ s.cacheMap, ∀ k,
        k ∈ (s.step call).2.cacheMap ↔ k = call.key ∨ (k ≠ v ∧ k ∈ s.cacheMap)) ∧
      ∀ call, ¬s.Evicts call → ∀ k ∈ s.cacheMap, k ∈ (s.step call).2.cacheMap := by
  intro s
  have hkept := kept_after capacity policy calls
  refine ⟨hkept.inStep fun k hk => ?_, fun call he => hkept.settled.mem_step_of_evicts he,
    fun call he k hk => (hkept.settled.mem_step_of_not_evicts he k).mpr (Or.inl hk)⟩
  obtain ⟨e, he, rfl⟩ := hkept.named k hk
  have hcalls : (StepMachine.history observe (fresh capacity policy) calls).map Prod.fst = calls :=
    StepMachine.map_fst_history _ calls
  refine hkeys e.1 ?_
  rw [← hcalls]
  exact List.mem_map_of_mem he

/-- A clock of two slots, after three puts. -/
theorem bookkeeping_two_slots :
    let calls : List Call := [.put (lit "a") (lit "x"), .put (lit "b") (lit "y"),
      .put (lit "c") (lit "z")]
    InStep (StepMachine.history observe (fresh 2 .clock) calls)
      (StepMachine.after BenchmarkCache.step (fresh 2 .clock) calls) := by
  intro calls
  have hkeys : ∀ call ∈ calls, call.key ≠ [] := by decide
  exact (bookkeeping 2 .clock calls hkeys).1

end BenchmarkCache

end PagedCacheServer
