import PagedCacheServer.Benchmark.Bookkeeping
import PagedCacheServer.Pool.Scripts

/-!
# Several workers miss the same key

Between the `get` of a worker that misses and its `put`, other workers can miss the same
key. The counters then have more misses than a single thread would have had. When the keys
that are requested all fit in the cache, it can be said how many: until a key is in the
cache, every worker that has missed it is still about to put it
(`PagedCacheServer.BenchmarkServer.Herded`), and there are no more of these than workers.
-/

namespace PagedCacheServer

namespace Worker

/-- The worker is about to put the key. -/
def inserts? (k : Bytes) : Worker → Bool
  | inserting _ request => request.key = k
  | _ => false

end Worker

namespace BenchmarkServer

open BenchmarkCache (Call)

variable {s s' : BenchmarkServer} {i t : ℕ} {w w' : Worker} {k : Bytes}
  {request : BenchmarkRequest} {calls : List (ℕ × Call)} {capacity : ℕ}

/-- The number of distinct keys that were requested. -/
def distinctKeys (s : BenchmarkServer) : ℕ :=
  (s.pushed.map BenchmarkRequest.key).toFinset.card

/-- The keys of the `get`s that missed. -/
def missedKeys (s : BenchmarkServer) : List Bytes :=
  s.outcomes.filterMap fun e =>
    if e.2 then none else s.pushed[e.1]?.map BenchmarkRequest.key

/-- **What a herd can do**, while nothing is evicted. -/
structure Herded (capacity : ℕ) (s : BenchmarkServer) : Prop where
  settled : s.cache.Settled
  maxCapacity : s.cache.maxCapacity = capacity
  requested : ∀ k ∈ s.cache.cacheMap, k ∈ s.pushed.map BenchmarkRequest.key
  /-- Who missed a key that is not there yet is still about to put it. -/
  waiting : ∀ k, k ∉ s.cache.cacheMap → s.missedKeys.count k = s.workers.countP (·.inserts? k)
  bounded : ∀ k, s.missedKeys.count k ≤ s.workers.length
  done : ∀ t ∈ s.finished, ∀ request, s.pushed[t]? = some request →
    request.operation ∈ [lit "GET", lit "PUT"] → request.key ∈ s.cache.cacheMap
  earned : (∀ request ∈ s.pushed, request.operation = lit "GET") →
    ∀ k ∈ s.cache.cacheMap, k ∈ s.missedKeys

/-! ### Steps that leave the cache alone -/

theorem Accounted.lt_of_outcome (hs : Accounted s) {e : ℕ × Bool} (he : e ∈ s.outcomes) :
    e.1 < s.pushed.length := by
  by_contra hlt
  have hanswers := hs.answered e.1
  have hpos : 0 < s.answers e.1 := List.countP_pos_iff.mpr ⟨e, he, by simp⟩
  rw [isGetAt, List.getElem?_eq_none (Nat.not_lt.mp hlt)] at hanswers
  simp only [Option.any_none, Bool.false_eq_true, if_false] at hanswers
  omega

theorem missedKeys_congr (ha : Accounted s) (ho : s'.outcomes = s.outcomes)
    {added : List BenchmarkRequest} (hpushed : s'.pushed = s.pushed ++ added) :
    s'.missedKeys = s.missedKeys := by
  rw [missedKeys, ho, missedKeys]
  refine List.filterMap_congr fun e he => ?_
  rw [hpushed, List.getElem?_append_left (ha.lt_of_outcome he)]

theorem Herded.rests (hs : Herded capacity s) (ha : Accounted s) (hlen : s'.workers.length =
    s.workers.length) (h : Rests s s') : Herded capacity s' := by
  obtain ⟨added, hpushed⟩ := h.pushed
  have hmissed := missedKeys_congr ha h.outcomes hpushed
  have hcount : ∀ k, s'.workers.countP (·.inserts? k) = s.workers.countP (·.inserts? k) := by
    refine fun k => h.countP_workers _ fun w hw => ?_
    cases w with
    | inserting number request => simpa [Worker.inserts] using hw number
    | _ => rfl
  refine ⟨?_, ?_, ?_, ?_, ?_, ?_, ?_⟩
  · rw [h.cache]
    exact hs.settled
  · rw [h.cache]
    exact hs.maxCapacity
  · rw [h.cache, hpushed]
    intro k hk
    rw [List.map_append]
    exact List.mem_append_left _ (hs.requested k hk)
  · rw [h.cache, hmissed]
    exact fun k hk => (hs.waiting k hk).trans (hcount k).symm
  · rw [hmissed, hlen]
    exact hs.bounded
  · rw [h.cache, h.finished, hpushed]
    intro t ht request hat hop
    rw [List.getElem?_append_left (ha.placed.lt_of_finished ht)] at hat
    exact hs.done t ht request hat hop
  · rw [h.cache, hmissed, hpushed]
    exact fun hgets => hs.earned fun request hmem => hgets request (List.mem_append_left _ hmem)

/-! ### Steps of `process_request` -/

/-- While the keys fit, a put of one of them evicts nothing. -/
theorem Herded.mem_put (hs : Herded capacity s) (hfits : s.distinctKeys ≤ capacity)
    (hat : s.pushed[t]? = some request) (value : Bytes) :
    k ∈ (s.cache.step (.put request.key value)).2.cacheMap ↔
      k ∈ s.cache.cacheMap ∨ k = request.key := by
  have hnot : ¬ s.cache.Evicts (.put request.key value) := by
    rintro ⟨hkey, hfull, -⟩
    have hnd : (request.key :: s.cache.cacheMap.keys).Nodup :=
      List.nodup_cons.mpr ⟨hkey, s.cache.cacheMap.nodupKeys⟩
    have hsub : (request.key :: s.cache.cacheMap.keys).toFinset ⊆
        (s.pushed.map BenchmarkRequest.key).toFinset := by
      intro x hx
      rw [List.mem_toFinset] at hx ⊢
      rcases List.mem_cons.mp hx with rfl | hx
      · exact List.mem_map_of_mem (List.mem_of_getElem? hat)
      · exact hs.requested x hx
    have hcard := Finset.card_le_card hsub
    rw [List.toFinset_card_of_nodup hnd, List.length_cons] at hcard
    rw [hs.maxCapacity, BenchmarkCache.getCurrentSize] at hfull
    rw [distinctKeys] at hfits
    omega
  refine (hs.settled.mem_step_of_not_evicts hnot k).trans (or_congr Iff.rfl ⟨?_, ?_⟩)
  · rintro ⟨v, hput⟩
    cases hput
    rfl
  · rintro rfl
    exact ⟨value, rfl⟩

theorem mem_get (cache : BenchmarkCache) (key : Bytes) :
    k ∈ (cache.step (.get key)).2.cacheMap ↔ k ∈ cache.cacheMap := by
  rcases hlookup : cache.cacheMap.lookup key with _ | e
  · simp only [BenchmarkCache.step, BenchmarkCache.get, hlookup]
    rfl
  · simp only [BenchmarkCache.step, BenchmarkCache.get, hlookup]
    exact BenchmarkCache.mem_update

/-- What a step of `process_request` does to the keys of the cache. -/
structure Stores (s s' : BenchmarkServer) (request : BenchmarkRequest) (w w' : Worker) : Prop where
  stays : ∀ k ∈ s.cache.cacheMap, k ∈ s'.cache.cacheMap
  brought : ∀ k ∈ s'.cache.cacheMap, k ∈ s.cache.cacheMap ∨ k = request.key
  put : ∀ k, w.inserts? k = true → k ∈ s'.cache.cacheMap
  head : w' = .head → request.operation ∈ [lit "GET", lit "PUT"] →
    request.key ∈ s'.cache.cacheMap
  missing : w' ≠ .head → request.key ∉ s'.cache.cacheMap
  /-- Only after a miss does a `get` bring in its key. -/
  earned : request.operation = lit "GET" → ∀ k ∈ s'.cache.cacheMap,
    k ∈ s.cache.cacheMap ∨ w.inserts? k = true

theorem Herded.stores (hs : Herded capacity s) (hfits : s.distinctKeys ≤ capacity)
    (hat : s.pushed[t]? = some request) (h : Processes s i t request w calls w' s') :
    Stores s s' request w w' := by
  obtain ⟨-, hexecutes, hcache, -, -, -, -⟩ := h
  have hput : ∀ {k}, k ∈ (s.cache.step (.put request.key (dummyValue request.key))).2.cacheMap ↔
      k ∈ s.cache.cacheMap ∨ k = request.key := hs.mem_put hfits hat _
  have hget : ∀ {k}, k ∈ (s.cache.step (.get request.key)).2.cacheMap ↔ k ∈ s.cache.cacheMap :=
    mem_get _ _
  cases hexecutes with
  | hit _ hkey =>
    have hmem : ∀ k, k ∈ s'.cache.cacheMap ↔ k ∈ s.cache.cacheMap := by
      rw [hcache]
      exact fun k => hget
    exact ⟨fun k => (hmem k).mpr, fun k hk => .inl ((hmem k).mp hk), by simp [Worker.inserts?],
      fun _ _ => (hmem _).mpr hkey, by simp, fun _ k hk => .inl ((hmem k).mp hk)⟩
  | miss _ hkey =>
    have hmem : ∀ k, k ∈ s'.cache.cacheMap ↔ k ∈ s.cache.cacheMap := by
      rw [hcache]
      exact fun k => hget
    exact ⟨fun k => (hmem k).mpr, fun k hk => .inl ((hmem k).mp hk), by simp [Worker.inserts?],
      by simp, fun _ hk => hkey ((hmem _).mp hk), fun _ k hk => .inl ((hmem k).mp hk)⟩
  | insert =>
    have hmem : ∀ k, k ∈ s'.cache.cacheMap ↔ k ∈ s.cache.cacheMap ∨ k = request.key := by
      rw [hcache]
      exact fun k => hput
    refine ⟨fun k hk => (hmem k).mpr (.inl hk), fun k => (hmem k).mp, fun k hk => ?_,
      fun _ _ => (hmem _).mpr (.inr rfl), by simp, fun _ k hk => ?_⟩
    · exact (hmem k).mpr (.inr (of_decide_eq_true hk).symm)
    · exact ((hmem k).mp hk).imp_right fun heq => decide_eq_true heq.symm
  | put hop _ =>
    have hmem : ∀ k, k ∈ s'.cache.cacheMap ↔ k ∈ s.cache.cacheMap ∨ k = request.key := by
      rw [hcache]
      exact fun k => hput
    exact ⟨fun k hk => (hmem k).mpr (.inl hk), fun k => (hmem k).mp, by simp [Worker.inserts?],
      fun _ _ => (hmem _).mpr (.inr rfl), by simp, fun h => absurd h hop⟩
  | skip hop hop' =>
    have hmem : ∀ k, k ∈ s'.cache.cacheMap ↔ k ∈ s.cache.cacheMap := by
      rw [hcache]
      exact fun k => Iff.rfl
    exact ⟨fun k => (hmem k).mpr, fun k hk => .inl ((hmem k).mp hk), by simp [Worker.inserts?],
      fun _ h => by simp [hop, hop'] at h, by simp, fun h => absurd h hop⟩

theorem missedKeys_processes (hat : s.pushed[t]? = some request)
    (h : Processes s i t request w calls w' s') :
    s'.missedKeys = s.missedKeys ++ if w' = .head then [] else [request.key] := by
  obtain ⟨-, hexecutes, -, -, hpushed, -, ho⟩ := h
  rw [missedKeys, ho, hpushed, List.filterMap_append, missedKeys]
  refine congrArg (_ ++ ·) ?_
  cases hexecutes with
  | hit _ hkey =>
    obtain ⟨e, he⟩ := Option.isSome_iff_exists.mp (AList.lookup_isSome.mpr hkey)
    simp [call, BenchmarkCache.step, BenchmarkCache.get, he, Entry.outcome?]
  | miss _ hkey =>
    simp [call, BenchmarkCache.step, BenchmarkCache.get, AList.lookup_eq_none.mpr hkey,
      Entry.outcome?, hat]
  | insert | put _ _ | skip _ _ => simp [Entry.outcome?]

theorem Herded.processes (hs : Herded capacity s) (ha : Accounted s)
    (hfits : s.distinctKeys ≤ capacity) (h : Processes s i t request w calls w' s') :
    Herded capacity s' := by
  have hw := List.mem_of_getElem? h.stands
  have hat : s.pushed[t]? = some request := h.executes.pushed (ha.fit.held w hw)
  have hstores := hs.stores hfits hat h
  have hmissed := missedKeys_processes hat h
  -- the workers that are about to put a key, and how their number changes
  have hcount : ∀ k, s'.workers.countP (·.inserts? k) + (if w.inserts? k then 1 else 0) =
      s.workers.countP (·.inserts? k) + if w'.inserts? k then 1 else 0 := by
    rw [h.workers]
    exact fun k => Census.countP_set_add h.stands w' fun w => w.inserts? k
  have hnext : w' = .head ∨ w' = .inserting t request := h.executes.number.2.1
  have hwaiting : ∀ k, k ∉ s'.cache.cacheMap →
      s'.missedKeys.count k = s'.workers.countP (·.inserts? k) := by
    intro k hk
    have hold := hs.waiting k fun hmem => hk (hstores.stays k hmem)
    have hnot : w.inserts? k = false := Bool.eq_false_iff.mpr fun hins => hk (hstores.put k hins)
    have hset := hcount k
    rw [hnot, if_neg Bool.false_ne_true] at hset
    rw [hmissed, List.count_append, hold]
    rcases hnext with rfl | rfl
    · simpa [Worker.inserts?] using hset.symm
    · simpa [Worker.inserts?, List.count_singleton] using hset.symm
  refine ⟨?_, ?_, fun k hk => ?_, hwaiting, fun k => ?_, fun t' ht' request' hat' hop => ?_,
    fun hgets k hk => ?_⟩
  · rw [h.cache]
    exact StepMachine.invariant_after hs.settled (fun _ c hc => hc.step c.2) calls
  · rw [h.cache]
    exact StepMachine.invariant_after (I := fun cache => cache.maxCapacity = capacity)
      hs.maxCapacity (fun cache c hc => (BenchmarkCache.frame_step cache c.2).1.trans hc) calls
  · rw [h.pushed]
    rcases hstores.brought k hk with hk | rfl
    · exact hs.requested k hk
    · exact List.mem_map_of_mem (List.mem_of_getElem? hat)
  · by_cases hk : k ∈ s'.cache.cacheMap
    · -- a key that is there was not missed in this step
      have hsame : s'.missedKeys.count k = s.missedKeys.count k := by
        rw [hmissed]
        split_ifs with hhead
        · rw [List.append_nil]
        · have hne : request.key ≠ k := fun heq => hstores.missing hhead (heq ▸ hk)
          simp [List.count_append, hne]
      rw [hsame, h.workers, List.length_set]
      exact hs.bounded k
    · rw [hwaiting k hk]
      exact List.countP_le_length
  · rw [h.pushed] at hat'
    rw [h.finished] at ht'
    have hkept : t' ∈ s.finished → request'.key ∈ s'.cache.cacheMap := fun hmem =>
      hstores.stays _ (hs.done t' hmem request' hat' hop)
    split_ifs at ht' with hhead
    · rcases List.mem_append.mp ht' with hmem | hmem
      · exact hkept hmem
      · obtain rfl := List.mem_singleton.mp hmem
        obtain rfl := Option.some.inj (hat.symm.trans hat')
        exact hstores.head hhead hop
    · exact hkept ht'
  · rw [h.pushed] at hgets
    rw [hmissed]
    refine List.mem_append_left _ ?_
    by_cases hold : k ∈ s.cache.cacheMap
    · exact hs.earned hgets k hold
    · have hop := hgets request (List.mem_of_getElem? hat)
      have hins := (hstores.earned hop k hk).resolve_left hold
      rw [← List.count_pos_iff, hs.waiting k hold]
      exact List.countP_pos_iff.mpr ⟨w, hw, hins⟩

/-! ### Whole runs -/

theorem distinctKeys_mono {added : List BenchmarkRequest}
    (hpushed : s'.pushed = s.pushed ++ added) : s.distinctKeys ≤ s'.distinctKeys := by
  rw [distinctKeys, distinctKeys, hpushed, List.map_append, List.toFinset_append]
  exact Finset.card_le_card Finset.subset_union_left

theorem length_workers_after (s : BenchmarkServer) (acts : List Action) :
    (StepMachine.after step s acts).workers.length = s.workers.length :=
  StepMachine.invariant_after (I := fun s' => s'.workers.length = s.workers.length) rfl
    (fun s' a h => (length_workers_step s' a).trans h) acts

theorem herded_start (capacity : ℕ) (policy : EvictionPolicy) (workers : ℕ) :
    Herded capacity (start (.fresh capacity policy) workers) where
  settled := BenchmarkCache.settled_fresh capacity policy
  maxCapacity := rfl
  requested := fun k hk => by simp [start, BenchmarkCache.fresh] at hk
  waiting := fun k _ => by
    have hnone : (List.replicate workers Worker.head).countP (·.inserts? k) = 0 :=
      List.countP_eq_zero.mpr fun w hw => by simp [List.eq_of_mem_replicate hw, Worker.inserts?]
    rw [start, hnone]
    rfl
  bounded := fun k => Nat.zero_le _
  done := fun t ht => by simp [start] at ht
  earned := fun _ k hk => by simp [start, BenchmarkCache.fresh] at hk

/-- **While the keys fit, every run keeps its herds together.** -/
theorem herded_after (capacity : ℕ) (policy : EvictionPolicy) (workers : ℕ) (acts : List Action)
    (hfits : (StepMachine.after step (start (.fresh capacity policy) workers) acts).distinctKeys ≤
      capacity) :
    Herded capacity (StepMachine.after step (start (.fresh capacity policy) workers) acts) := by
  induction acts using List.reverseRecOn with
  | nil => exact herded_start capacity policy workers
  | append_singleton acts a ih =>
    have ha := accounted_after (.fresh capacity policy) workers acts
    rw [StepMachine.after_append, StepMachine.after_cons, StepMachine.after_nil] at hfits ⊢
    rcases processes_or_rests (StepMachine.after step _ acts) a with
      ⟨i, t, request, w, calls, w', h⟩ | h
    · rw [distinctKeys, h.pushed] at hfits
      exact (ih hfits).processes ha hfits h
    · obtain ⟨added, hpushed⟩ := h.pushed
      exact (ih ((distinctKeys_mono hpushed).trans hfits)).rests ha (length_workers_step _ a) h

/-- Every miss that was counted was the miss of a key. -/
theorem Accounted.length_missedKeys (hs : Accounted s) :
    s.missedKeys.length = s.outcomes.countP fun e => !e.2 := by
  rw [missedKeys, List.length_filterMap_eq_countP]
  refine List.countP_congr fun e he => ?_
  rw [List.getElem?_eq_getElem (hs.lt_of_outcome he)]
  cases e.2 <;> simp

theorem missCount_after (capacity : ℕ) (policy : EvictionPolicy) (workers : ℕ)
    (acts : List Action) :
    let s := StepMachine.after step (start (.fresh capacity policy) workers) acts
    s.cache.missCount = s.missedKeys.length := by
  intro s
  obtain ⟨added, counted, hsince⟩ := since_resetStats (start (.fresh capacity policy) workers) acts
  have hs : Accounted s := accounted_after (.fresh capacity policy) workers acts
  have ho : s.outcomes = counted := hsince.outcomes
  rw [hs.length_missedKeys, ho]
  exact hsince.missCount

theorem mem_pushed_of_mem_missedKeys (hk : k ∈ s.missedKeys) :
    k ∈ s.pushed.map BenchmarkRequest.key := by
  obtain ⟨e, -, he⟩ := List.mem_filterMap.mp hk
  split_ifs at he
  obtain ⟨request, hat, rfl⟩ := Option.map_eq_some_iff.mp he
  exact List.mem_map_of_mem (List.mem_of_getElem? hat)

/-- **At most one miss of a key for each worker.** When the distinct keys that were
requested fit in the cache, then in every run of the pool, under every policy, no key has
missed more often than there are workers, so that there are at most `workers` misses for
each distinct key; the key of a finished request is in the cache and stays; and when the
requests are all `get`s, as those of a trace, and finished, there was at least one miss for
each distinct key. With one worker the two bounds are the same. -/
theorem herd (capacity : ℕ) (policy : EvictionPolicy) (workers : ℕ) (acts : List Action)
    (hfits : (StepMachine.after step (start (.fresh capacity policy) workers) acts).distinctKeys ≤
      capacity) :
    let s := StepMachine.after step (start (.fresh capacity policy) workers) acts
    (∀ k, s.missedKeys.count k ≤ workers) ∧
      s.cache.missCount ≤ workers * s.distinctKeys ∧
      (∀ t ∈ s.finished, ∀ request, s.pushed[t]? = some request →
        request.operation ∈ [lit "GET", lit "PUT"] → request.key ∈ s.cache.cacheMap) ∧
      ((∀ request ∈ s.pushed, request.operation = lit "GET") →
        (∀ t < s.pushed.length, t ∈ s.finished) → s.distinctKeys ≤ s.cache.missCount) := by
  intro s
  have hs : Herded capacity s := herded_after capacity policy workers acts hfits
  have hbounded : ∀ k, s.missedKeys.count k ≤ workers := by
    intro k
    have hlen : s.workers.length = (List.replicate workers Worker.head).length :=
      length_workers_after _ acts
    rw [List.length_replicate] at hlen
    exact hlen ▸ hs.bounded k
  have hmisses : s.cache.missCount = s.missedKeys.length :=
    missCount_after capacity policy workers acts
  refine ⟨hbounded, ?_, hs.done, fun hgets hall => ?_⟩
  · have hsub : s.missedKeys.toFinset ⊆ (s.pushed.map BenchmarkRequest.key).toFinset := fun k hk =>
      List.mem_toFinset.mpr (mem_pushed_of_mem_missedKeys (List.mem_toFinset.mp hk))
    rw [hmisses]
    have hcount : ∀ k, s.missedKeys.countP (· = k) ≤ workers := fun k =>
      le_of_eq_of_le (List.countP_congr fun b _ => by simp) (hbounded k)
    exact (Census.length_le_mul_card hcount).trans
      (Nat.mul_le_mul_left workers (Finset.card_le_card hsub))
  · rw [hmisses]
    refine (Finset.card_le_card fun k hk => ?_).trans (List.toFinset_card_le s.missedKeys)
    obtain ⟨request, hmem, rfl⟩ := List.mem_map.mp (List.mem_toFinset.mp hk)
    obtain ⟨t, hat⟩ := List.mem_iff_getElem?.mp hmem
    have hlt : t < s.pushed.length := (List.getElem?_eq_some_iff.mp hat).1
    refine List.mem_toFinset.mpr (hs.earned hgets _ (hs.done t (hall t hlt) request hat ?_))
    rw [hgets request hmem]
    exact List.mem_cons_self

/-- Two workers miss the same key before either has put it. -/
theorem herd_two_workers :
    let acts : List Action := [.addRequest ⟨lit "k", lit "GET"⟩, .addRequest ⟨lit "k", lit "GET"⟩,
      .push 0, .push 0, .worker 0, .worker 0, .worker 0, .worker 0, .worker 1, .worker 1,
      .worker 1, .worker 1, .worker 0, .worker 1]
    let s := StepMachine.after step (start (.fresh 1 .lru) 2) acts
    s.missedKeys.count (lit "k") ≤ 2 ∧ s.cache.missCount = 2 ∧ s.distinctKeys = 1 := by
  intro acts s
  refine ⟨(herd 1 .lru 2 acts (by decide)).1 (lit "k"), ?_, ?_⟩
  · decide
  · decide

end BenchmarkServer

end PagedCacheServer
