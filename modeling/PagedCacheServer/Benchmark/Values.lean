import PagedCacheServer.Benchmark.Invariant

/-!
# A hit returns what was put last

The policies decide which entries stay. They write to the bits of an entry and take
entries out, all of them, but what is in an entry they leave alone: every entry that is
there after an eviction was there before it, with its value
(`PagedCacheServer.BenchmarkCache.SameValues`). The loop of `evict_sieve` and that of
`evict_clock` need no more than induction for this, wherever they stop.

So over a run, under any policy, a `get` that hits returns the value of the last `put` of
its key (`PagedCacheServer.BenchmarkCache.get_latest`), however often the key was evicted
and came back in between.
-/

namespace PagedCacheServer

namespace BenchmarkCache

variable {s s' s'' : BenchmarkCache} {k key v : Bytes} {n : ℕ}
  {f : BenchmarkCacheEntry → BenchmarkCacheEntry}

/-- The entries of `s'` are entries of `s`, with the same values. -/
def SameValues (s s' : BenchmarkCache) : Prop :=
  ∀ k e', s'.cacheMap.lookup k = some e' →
    ∃ e, s.cacheMap.lookup k = some e ∧ e'.value = e.value

theorem SameValues.of_eq (h : s'.cacheMap = s.cacheMap) : SameValues s s' :=
  fun _ e' he => ⟨e', h ▸ he, rfl⟩

theorem SameValues.trans (h : SameValues s s') (h' : SameValues s' s'') : SameValues s s'' := by
  intro k e'' he
  obtain ⟨e', he', hvalue'⟩ := h' k e'' he
  obtain ⟨e, he, hvalue⟩ := h k e' he'
  exact ⟨e, he, hvalue'.trans hvalue⟩

theorem SameValues.of_erase (h : s'.cacheMap = s.cacheMap.erase v) : SameValues s s' := by
  intro k e' he
  rw [h] at he
  rcases eq_or_ne k v with rfl | hne
  · simp at he
  · rw [AList.lookup_erase_ne hne] at he
    exact ⟨e', he, rfl⟩

theorem sameValues_modifyEntry (hf : ∀ e, (f e).value = e.value) :
    SameValues s (s.modifyEntry key f) := by
  intro k e' he
  rw [lookup_modifyEntry] at he
  split_ifs at he with hk
  · obtain ⟨e, hlookup, rfl⟩ := Option.map_eq_some_iff.mp he
    exact ⟨e, hlookup, hf e⟩
  · exact ⟨e', he, rfl⟩

/-! ### The sweeps -/

theorem sameValues_sieveLoop (passed rest : List Bytes) (s : BenchmarkCache) :
    SameValues s (sieveLoop passed rest s).2 := by
  induction rest generalizing passed s with
  | nil => exact .of_eq rfl
  | cons key rest ih =>
    rw [sieveLoop]
    split
    · split_ifs
      · exact .of_erase rfl
      · refine SameValues.trans ?_ (ih _ _)
        exact sameValues_modifyEntry fun _ => rfl
    · refine SameValues.trans ?_ (ih _ _)
      exact .of_eq rfl

theorem sameValues_clockLoop (h : clockLoop n s = some s') : SameValues s s' := by
  induction n generalizing s with
  | zero => simp [clockLoop] at h
  | succ n ih =>
    rw [clockLoop] at h
    split at h
    · split_ifs at h
      · obtain rfl := Option.some.inj h
        exact .of_erase rfl
      · refine SameValues.trans ?_ (ih h)
        exact (sameValues_modifyEntry (f := fun e => { e with referenceBit := false })
          fun _ => rfl).trans (.of_eq rfl)
    · refine SameValues.trans ?_ (ih h)
      exact .of_eq rfl

/-- **No policy changes a value.** -/
theorem sameValues_evict (s : BenchmarkCache) : SameValues s s.evict := by
  rcases hp : s.policy <;> simp only [evict, hp]
  · rw [evictLru]
    split
    · exact .of_erase rfl
    · exact .of_eq rfl
  · rw [evictFifo]
    split
    · exact .of_erase rfl
    · exact .of_eq rfl
  · have h := sameValues_sieveLoop [] s.sieveOrder s
    rw [evictSieve]
    dsimp only
    split_ifs
    · exact h
    · split
      · exact h.trans (.of_erase rfl)
      · exact h
  · rw [evictClock]
    split_ifs
    · exact .of_eq rfl
    · rcases hloop : clockLoop (2 * s.clockBuffer.length) s with _ | s'
      · exact .of_eq rfl
      · exact sameValues_clockLoop hloop

theorem sameValues_update (s : BenchmarkCache) (key : Bytes) : SameValues s (s.update key) := by
  rcases hp : s.policy <;> simp only [update, hp]
  · exact .of_eq rfl
  · exact .of_eq rfl
  · exact sameValues_modifyEntry fun _ => rfl
  · exact sameValues_modifyEntry fun _ => rfl

theorem sameValues_add (s : BenchmarkCache) (key : Bytes) : SameValues s (s.add key) := by
  rcases hp : s.policy <;> simp only [add, hp]
  · exact .of_eq rfl
  · exact .of_eq rfl
  · exact SameValues.trans (.of_eq rfl) (sameValues_modifyEntry fun _ => rfl)
  · exact SameValues.trans (.of_eq rfl) (sameValues_modifyEntry fun _ => rfl)

theorem sameValues_makeRoom (s : BenchmarkCache) : SameValues s s.makeRoom := by
  rw [makeRoom]
  split_ifs
  · exact sameValues_evict s
  · exact .of_eq rfl

/-! ### One call -/

/-- What is in an entry after a call: what the call put there, or what was in it
before. -/
theorem stored_step {e' : BenchmarkCacheEntry} (s : BenchmarkCache) (call : Call)
    (he : (s.step call).2.cacheMap.lookup k = some e') :
    call = .put k e'.value ∨ (∀ v, call ≠ .put k v) ∧
      ∃ e, s.cacheMap.lookup k = some e ∧ e'.value = e.value := by
  cases call with
  | get key =>
    refine .inr ⟨fun v => by simp, ?_⟩
    rcases hkey : s.cacheMap.lookup key with _ | entry
    · simp only [step, get, hkey] at he
      have hsame : SameValues s s.countMiss := .of_eq rfl
      exact hsame k e' he
    · simp only [step, get, hkey] at he
      have hsame : SameValues s s.countHit := .of_eq rfl
      exact hsame.trans (sameValues_update _ key) k e' he
  | put key value =>
    by_cases hkey : key ∈ s.cacheMap
    · simp only [step, put, if_pos hkey] at he
      obtain ⟨e, hlookup, hvalue⟩ := sameValues_update _ key k e' he
      rw [lookup_modifyEntry] at hlookup
      split_ifs at hlookup with heq
      · obtain ⟨e₀, -, rfl⟩ := Option.map_eq_some_iff.mp hlookup
        exact .inl (by rw [heq, hvalue])
      · exact .inr ⟨fun v hput => heq (by cases hput; rfl), e, hlookup, hvalue⟩
    · simp only [step, put, if_neg hkey] at he
      obtain ⟨e, hlookup, hvalue⟩ := sameValues_add _ key k e' he
      rw [store] at hlookup
      rcases eq_or_ne k key with rfl | hne
      · rw [AList.lookup_insert, Option.some.injEq] at hlookup
        exact .inl (by rw [hvalue, ← hlookup]; rfl)
      · rw [AList.lookup_insert_ne hne] at hlookup
        obtain ⟨e₀, hlookup₀, hvalue₀⟩ := sameValues_makeRoom s k e hlookup
        exact .inr ⟨fun v hput => hne (by cases hput; rfl), e₀, hlookup₀, hvalue.trans hvalue₀⟩

/-! ### Runs -/

/-- The last `put` of the key was with this value. -/
def LastPut (calls : List Call) (k v : Bytes) : Prop :=
  ∃ before since, calls = before ++ .put k v :: since ∧ ∀ w, .put k w ∉ since

theorem LastPut.snoc {calls : List Call} {call : Call} (h : LastPut calls k v)
    (hcall : ∀ w, call ≠ .put k w) : LastPut (calls ++ [call]) k v := by
  obtain ⟨before, since, rfl, hsince⟩ := h
  refine ⟨before, since ++ [call], by simp, fun w hmem => ?_⟩
  rcases List.mem_append.mp hmem with hmem | hmem
  · exact hsince w hmem
  · exact hcall w (List.mem_singleton.mp hmem).symm

/-- What is in an entry was put there last. -/
theorem lastPut_after (capacity : ℕ) (policy : EvictionPolicy) (calls : List Call)
    {e : BenchmarkCacheEntry}
    (he : (StepMachine.after step (fresh capacity policy) calls).cacheMap.lookup k = some e) :
    LastPut calls k e.value := by
  induction calls using List.reverseRecOn generalizing e with
  | nil => simp [fresh, AList.lookup_empty] at he
  | append_singleton calls call ih =>
    rw [StepMachine.after_append, StepMachine.after_cons, StepMachine.after_nil] at he
    rcases stored_step _ call he with rfl | ⟨hcall, e₀, he₀, hvalue⟩
    · exact ⟨calls, [], rfl, by simp⟩
    · rw [hvalue]
      exact (ih he₀).snoc hcall

/-- **A `get` never returns an old value.** After every run, for every capacity and
policy, a `get` hits exactly if its key is resident, and returns what the last `put` of
the key put there; a `get` that misses leaves the variable it was given as it was. -/
theorem get_latest (capacity : ℕ) (policy : EvictionPolicy) (calls : List Call)
    (k value : Bytes) :
    let s := StepMachine.after step (fresh capacity policy) calls
    (k ∈ s.cacheMap → ∃ v, LastPut calls k v ∧ (s.get k value).1 = (true, v)) ∧
      (k ∉ s.cacheMap → (s.get k value).1 = (false, value)) := by
  intro s
  refine ⟨fun hk => ?_, fun hk => ?_⟩
  · obtain ⟨e, he⟩ := Option.isSome_iff_exists.mp (AList.lookup_isSome.mpr hk)
    exact ⟨e.value, lastPut_after capacity policy calls he, by simp only [get, he]⟩
  · simp only [get, AList.lookup_eq_none.mpr hk]

end BenchmarkCache

end PagedCacheServer
