import PagedCacheServer.Benchmark.Sweeps
import PagedCacheServer.Library.StepMachine

/-!
# Every call leaves the cache settled

Each policy evicts from a cache that has an entry, and its books follow the map
(`PagedCacheServer.BenchmarkCache.Settled.evict`); a new key enters both
(`PagedCacheServer.BenchmarkCache.Books.store_add`). So the invariant between calls is
kept by every call (`PagedCacheServer.BenchmarkCache.Settled.step`), whatever the
keys.
-/

namespace PagedCacheServer

namespace BenchmarkCache

variable {s s' : BenchmarkCache} {k key v : Bytes} {call : Call}

/-! ### Sizes -/

theorem keys_eq_nil_iff {m : AList fun _ : Bytes => BenchmarkCacheEntry} :
    m.keys = [] ↔ ∀ k, k ∉ m := by
  simp only [List.eq_nil_iff_forall_not_mem, AList.mem_keys]

theorem getCurrentSize_congr (h : ∀ k, k ∈ s'.cacheMap ↔ k ∈ s.cacheMap) :
    s'.getCurrentSize = s.getCurrentSize :=
  ((List.perm_ext_iff_of_nodup s'.cacheMap.nodupKeys s.cacheMap.nodupKeys).mpr h).length_eq

theorem getCurrentSize_of_insert (hk : key ∉ s.cacheMap)
    (h : ∀ k, k ∈ s'.cacheMap ↔ k = key ∨ k ∈ s.cacheMap) :
    s'.getCurrentSize = s.getCurrentSize + 1 := by
  have hnd : (key :: s.cacheMap.keys).Nodup := List.nodup_cons.mpr ⟨hk, s.cacheMap.nodupKeys⟩
  refine ((List.perm_ext_iff_of_nodup s'.cacheMap.nodupKeys hnd).mpr fun k => ?_).length_eq
  rw [List.mem_cons]
  exact h k

theorem Removes.getCurrentSize (h : Removes s s' v) :
    s'.getCurrentSize + 1 = s.getCurrentSize := by
  have hv : v ∉ s'.cacheMap := fun hmem => ((h.mem_iff v).mp hmem).1 rfl
  refine (getCurrentSize_of_insert hv fun k => ?_).symm
  rw [h.mem_iff]
  by_cases hk : k = v
  · simp [hk, h.resident]
  · simp [hk]

/-! ### The orders -/

/-- The keys of a list policy, the one that came in or was used last first. -/
def newestFirst (s : BenchmarkCache) : List Bytes :=
  match s.policy with
  | .lru => s.lruOrder
  | .fifo => s.fifoQueue.reverse
  | .sieve => s.sieveOrder.reverse
  | .clock => []

theorem books_iff_keeps (hp : s.policy ≠ .clock) : s.Books ↔ Keeps s.newestFirst s.cacheMap := by
  rcases hpol : s.policy <;> simp only [Books, newestFirst, hpol]
  · exact ⟨fun h => h.perm (List.reverse_perm _), fun h => h.perm (List.reverse_perm _).symm⟩
  · exact ⟨fun h => h.perm (List.reverse_perm _), fun h => h.perm (List.reverse_perm _).symm⟩
  · exact absurd hpol hp

theorem newestFirst_add (hp : s.policy ≠ .clock) (key : Bytes) :
    (s.add key).newestFirst = key :: s.newestFirst := by
  rcases hpol : s.policy <;> simp [newestFirst, add, addLru, addFifo, addSieve, modifyEntry, hpol]
  exact absurd hpol hp

theorem newestFirst_update (s : BenchmarkCache) (key : Bytes) :
    (s.update key).newestFirst =
      if s.policy = .lru then key :: s.newestFirst.erase key else s.newestFirst := by
  rcases hpol : s.policy <;>
    simp [newestFirst, update, updateLru, updateSieve, updateClock, modifyEntry, hpol]

theorem mem_update : k ∈ (s.update key).cacheMap ↔ k ∈ s.cacheMap := by
  rcases hpol : s.policy <;> simp [update, updateLru, updateSieve, updateClock, hpol]

theorem mem_add : k ∈ (s.add key).cacheMap ↔ k ∈ s.cacheMap := by
  rcases hpol : s.policy <;> simp only [add, hpol]
  · rfl
  · rfl
  · exact mem_modifyEntry
  · exact mem_modifyEntry

/-! ### Evictions -/

theorem evictLru_removes (h : Keeps s.lruOrder s.cacheMap) (hmap : s.cacheMap.keys ≠ []) :
    ∃ v, Removes s s.evictLru v ∧ s.lruOrder = s.evictLru.lruOrder ++ [v] := by
  have hne : s.lruOrder ≠ [] := fun hnil => hmap (h.eq_nil_iff.mp hnil)
  obtain ⟨init, v, horder⟩ := List.eq_nil_or_concat' s.lruOrder |>.resolve_left hne
  have hevict : s.evictLru = { s with lruOrder := init, cacheMap := s.cacheMap.erase v } := by
    simp [evictLru, horder]
  refine ⟨v, ?_, ?_⟩
  · rw [hevict]
    exact ⟨(h.mem_iff v).mp (by simp [horder]), fun k => AList.mem_erase⟩
  · rw [hevict]
    exact horder

theorem evictFifo_removes (h : Keeps s.fifoQueue s.cacheMap) (hmap : s.cacheMap.keys ≠ []) :
    ∃ v, Removes s s.evictFifo v ∧ s.fifoQueue = v :: s.evictFifo.fifoQueue := by
  have hne : s.fifoQueue ≠ [] := fun hnil => hmap (h.eq_nil_iff.mp hnil)
  obtain ⟨v, rest, horder⟩ := List.exists_cons_of_ne_nil hne
  have hevict : s.evictFifo = { s with fifoQueue := rest, cacheMap := s.cacheMap.erase v } := by
    simp [evictFifo, horder]
  refine ⟨v, ?_, ?_⟩
  · rw [hevict]
    exact ⟨(h.mem_iff v).mp (by simp [horder]), fun k => AList.mem_erase⟩
  · rw [hevict]
    exact horder

theorem removes_of_modifyAll {keys l : List Bytes} (hv : v ∈ s.cacheMap) :
    Removes s { s.modifyAll keys unvisit with
      sieveOrder := l, cacheMap := (s.modifyAll keys unvisit).cacheMap.erase v } v := by
  refine ⟨hv, fun k => ?_⟩
  rw [AList.mem_erase, mem_modifyAll]

theorem evictSieve_removes (h : Keeps s.sieveOrder s.cacheMap) (hmap : s.cacheMap.keys ≠ []) :
    ∃ v pre post, Removes s s.evictSieve v ∧ s.sieveOrder = pre ++ v :: post ∧
      s.evictSieve.sieveOrder = pre ++ post := by
  have hne : s.sieveOrder ≠ [] := fun hnil => hmap (h.eq_nil_iff.mp hnil)
  rcases flag_cases s.visited s.sieveOrder with ⟨pre, v, post, horder, hpre, hv⟩ | hall
  · have hmem : v ∈ s.cacheMap := (h.mem_iff v).mp (by simp [horder])
    rw [evictSieve_of_split h horder hpre hv]
    exact ⟨v, pre, post, removes_of_modifyAll hmem, horder, rfl⟩
  · obtain ⟨v, rest, horder⟩ := List.exists_cons_of_ne_nil hne
    have hmem : v ∈ s.cacheMap := (h.mem_iff v).mp (by simp [horder])
    rw [evictSieve_of_all h horder hall]
    exact ⟨v, [], rest, removes_of_modifyAll hmem, horder, rfl⟩

theorem evictClock_removes (h : s.ClockBooks) (hslots : s.clockBuffer ≠ [])
    (hmap : s.cacheMap.keys ≠ []) : ∃ v, Removes s s.evictClock v ∧ s.evictClock.ClockBooks := by
  have hpos : 0 < s.clockBuffer.length := List.length_pos_of_ne_nil hslots
  obtain ⟨s', hs'⟩ := Option.isSome_iff_exists.mp (h.clockLoop_ends hslots hmap)
  have hevict : s.evictClock = s' := by
    rw [evictClock, if_neg hslots, hs', Option.getD_some]
  have hhand := h.hand
  obtain ⟨hrem, hlt, hbuf⟩ := clockLoop_removes (by omega) hs'
  generalize hv : s.clockBuffer.getD s'.clockHand [] = v at hrem
  rw [hevict]
  refine ⟨v, hrem, fun k hk => ?_, ?_⟩
  · -- only the slot under the hand has changed, and it held the key that is gone
    rw [hbuf, List.count_set hlt, h.count k hk, ← List.getD_eq_getElem _ [] hlt, hv]
    simp only [hrem.mem_iff, beq_iff_eq, Ne.symm hk, if_false, Nat.add_zero]
    by_cases hkv : v = k
    · simp [← hkv, hrem.resident]
    · simp [hkv, Ne.symm hkv]
  · rw [hbuf, List.length_set]
    omega

/-- **An eviction finds an entry when there is one**, and removes it from the map
and from the books. -/
theorem Settled.evict (h : s.Settled) (hmap : s.cacheMap.keys ≠ []) :
    ∃ v, Removes s s.evict v ∧ s.evict.Books ∧ s.evict.newestFirst.Sublist s.newestFirst := by
  have hpol := (frame_evict s).policy
  have hbooks := h.books
  rcases hp : s.policy <;> simp only [BenchmarkCache.evict, hp] at hpol <;>
    simp only [Books, newestFirst, hp, hpol, BenchmarkCache.evict] at hbooks ⊢
  · obtain ⟨v, hrem, horder⟩ := evictLru_removes hbooks hmap
    rw [horder] at hbooks ⊢
    refine ⟨v, hrem, ?_, List.sublist_append_left _ _⟩
    simpa using hbooks.of_removes hrem
  · obtain ⟨v, hrem, horder⟩ := evictFifo_removes hbooks hmap
    rw [horder] at hbooks ⊢
    refine ⟨v, hrem, Keeps.of_removes (a := []) hbooks hrem, ?_⟩
    rw [List.reverse_sublist]
    exact List.sublist_cons_self _ _
  · obtain ⟨v, pre, post, hrem, horder, horder'⟩ := evictSieve_removes hbooks hmap
    rw [horder] at hbooks
    refine ⟨v, hrem, horder' ▸ hbooks.of_removes hrem, ?_⟩
    rw [List.reverse_sublist, horder, horder']
    exact (List.Sublist.refl pre).append (List.sublist_cons_self v post)
  · have hslots : s.clockBuffer ≠ [] := fun hnil => hmap ((h.slots hp).mp hnil)
    obtain ⟨v, hrem, hbooks'⟩ := evictClock_removes hbooks hslots hmap
    exact ⟨v, hrem, hbooks', List.Sublist.refl []⟩

/-! ### Calls -/

/-- There is nothing to evict from an empty cache. -/
theorem Settled.evict_of_empty (h : s.Settled) (hmap : s.cacheMap.keys = []) : s.evict = s := by
  have hbooks := h.books
  rcases hp : s.policy <;> simp only [Books, hp, BenchmarkCache.evict] at hbooks ⊢
  · simp [evictLru, hbooks.eq_nil_iff.mpr hmap]
  · simp [evictFifo, hbooks.eq_nil_iff.mpr hmap]
  · simp [evictSieve, sieveLoop, hbooks.eq_nil_iff.mpr hmap]
  · simp [evictClock, (h.slots hp).mpr hmap]

theorem count_fillSlot (hk : k ≠ []) (key : Bytes) (l : List Bytes) :
    (fillSlot key l).count k = l.count k + if key = k then 1 else 0 := by
  induction l with
  | nil => simp [fillSlot, List.count_cons]
  | cons a l ih =>
    rw [fillSlot]
    split_ifs with ha hkey hkey
    · simp [ha, hkey, Ne.symm hk]
    · simp [ha, hkey, Ne.symm hk]
    · rw [List.count_cons, ih, if_pos hkey, List.count_cons]
      omega
    · rw [List.count_cons, ih, if_neg hkey, List.count_cons]
      omega

theorem length_le_length_fillSlot (key : Bytes) (l : List Bytes) :
    l.length ≤ (fillSlot key l).length := by
  induction l with
  | nil => simp [fillSlot]
  | cons a l ih =>
    rw [fillSlot]
    split_ifs
    · simp
    · simpa using ih

theorem fillSlot_ne_nil (key : Bytes) (l : List Bytes) : fillSlot key l ≠ [] := by
  cases l with
  | nil => simp [fillSlot]
  | cons a l =>
    rw [fillSlot]
    split_ifs <;> simp

/-- **A new key enters the books** with its entry. -/
theorem Books.store_add (h : s.Books) (hkey : key ∉ s.cacheMap) (value : Bytes) :
    ((s.store key value).add key).Settled := by
  have hpol : ((s.store key value).add key).policy = s.policy :=
    (frame_add (s.store key value) key).policy
  have hmem : ∀ k, k ∈ ((s.store key value).add key).cacheMap ↔ k = key ∨ k ∈ s.cacheMap :=
    fun k => mem_add.trans (AList.mem_insert _)
  by_cases hp : s.policy = .clock
  · have hadd : ((s.store key value).add key) = (s.store key value).addClock key := by
      simp only [add, store, hp]
    rw [books_of_clock hp] at h
    refine ⟨(books_of_clock (hpol.trans hp)).mpr ?_, fun _ => ?_⟩
    · refine ⟨fun k hk => ?_, ?_⟩
      · simp only [hmem]
        rw [hadd]
        simp only [addClock, modifyEntry, store]
        rw [count_fillSlot hk, h.count k hk]
        by_cases hkk : k = key
        · simp [hkk, hkey]
        · simp [hkk, Ne.symm hkk]
      · rw [hadd]
        have hlen := length_le_length_fillSlot key s.clockBuffer
        have hhand := h.hand
        simp only [addClock, modifyEntry, store]
        omega
    · have hslots : ((s.store key value).add key).clockBuffer ≠ [] := by
        rw [hadd]
        exact fillSlot_ne_nil key s.clockBuffer
      have hkeys : ((s.store key value).add key).cacheMap.keys ≠ [] := by
        rw [Ne, keys_eq_nil_iff]
        push Not
        exact ⟨key, (hmem key).mpr (Or.inl rfl)⟩
      simp [hslots, hkeys]
  · rw [books_iff_keeps hp] at h
    refine ⟨?_, fun hclock => absurd (hpol.symm.trans hclock) hp⟩
    rw [books_iff_keeps (hpol ▸ hp), newestFirst_add (s := s.store key value) hp]
    exact Keeps.congr (h.cons_insert (e := .new key value) hkey) fun k => mem_add

/-- **A key that is there is brought up to date** in the books. -/
theorem Settled.update (h : s.Settled) (hkey : key ∈ s.cacheMap) : (s.update key).Settled := by
  have hpol := (frame_update s key).policy
  by_cases hp : s.policy = .clock
  · have hupd : s.update key = s.updateClock key := by
      simp only [BenchmarkCache.update, hp]
    have hbooks := (books_of_clock hp).mp h.books
    refine ⟨(books_of_clock (hpol.trans hp)).mpr ?_, fun _ => ?_⟩
    · rw [hupd]
      refine ⟨fun k hk => ?_, hbooks.hand⟩
      simp only [updateClock, mem_modifyEntry]
      exact hbooks.count k hk
    · rw [hupd, keys_eq_nil_iff]
      simp only [updateClock, mem_modifyEntry]
      rw [← keys_eq_nil_iff]
      exact h.slots hp
  · have hkeeps := (books_iff_keeps hp).mp h.books
    refine ⟨?_, fun hclock => absurd (hpol.symm.trans hclock) hp⟩
    rw [books_iff_keeps (hpol ▸ hp), newestFirst_update]
    refine Keeps.congr ?_ fun k => mem_update
    split_ifs
    · exact hkeeps.perm (List.perm_cons_erase ((hkeeps.mem_iff key).mpr hkey)).symm
    · exact hkeeps

/-- Nothing of the counters and values is in the books. -/
theorem Settled.alike (h : s.Settled) (ha : Alike s s') : s'.Settled := by
  have hkeys : s'.cacheMap.keys = [] ↔ s.cacheMap.keys = [] := by
    simp only [keys_eq_nil_iff, ha.mem_iff]
  refine ⟨?_, fun hp => ?_⟩
  · have hbooks := h.books
    rcases hp : s.policy <;> simp only [Books, ha.policy, hp] at hbooks ⊢
    · rw [ha.lruOrder]
      exact hbooks.congr ha.mem_iff
    · rw [ha.fifoQueue]
      exact hbooks.congr ha.mem_iff
    · rw [ha.sieveOrder]
      exact hbooks.congr ha.mem_iff
    · refine ⟨fun k hk => ?_, ?_⟩
      · rw [ha.clockBuffer, hbooks.count k hk]
        simp only [ha.mem_iff]
      · rw [ha.clockBuffer, ha.clockHand]
        exact hbooks.hand
  · rw [ha.clockBuffer, hkeys]
    exact h.slots (ha.policy.symm.trans hp)

/-- A new entry needs the place of another one. -/
def Full (s : BenchmarkCache) : Prop :=
  s.maxCapacity ≤ s.getCurrentSize ∧ s.cacheMap.keys ≠ []

theorem Settled.makeRoom_of_full (h : s.Settled) (hfull : s.Full) :
    ∃ v, Removes s s.makeRoom v ∧ s.makeRoom.Books ∧
      s.makeRoom.newestFirst.Sublist s.newestFirst := by
  rw [makeRoom, if_pos hfull.1]
  exact h.evict hfull.2

theorem Settled.makeRoom_of_not_full (h : s.Settled) (hfull : ¬s.Full) : s.makeRoom = s := by
  rw [makeRoom]
  split_ifs with hsize
  · refine h.evict_of_empty ?_
    by_contra hkeys
    exact hfull ⟨hsize, hkeys⟩
  · rfl

theorem Settled.makeRoom_books (h : s.Settled) : s.makeRoom.Books := by
  by_cases hfull : s.Full
  · obtain ⟨v, -, hbooks, -⟩ := h.makeRoom_of_full hfull
    exact hbooks
  · rw [h.makeRoom_of_not_full hfull]
    exact h.books

theorem Settled.mem_of_mem_makeRoom (h : s.Settled) (hk : k ∈ s.makeRoom.cacheMap) :
    k ∈ s.cacheMap := by
  by_cases hfull : s.Full
  · obtain ⟨v, hrem, -⟩ := h.makeRoom_of_full hfull
    exact ((hrem.mem_iff k).mp hk).2
  · rwa [h.makeRoom_of_not_full hfull] at hk

theorem Alike.newestFirst (h : Alike s s') : s'.newestFirst = s.newestFirst := by
  simp only [BenchmarkCache.newestFirst, h.policy, h.lruOrder, h.fifoQueue, h.sieveOrder]

theorem Settled.makeRoom_sublist (h : s.Settled) :
    s.makeRoom.newestFirst.Sublist s.newestFirst := by
  by_cases hfull : s.Full
  · obtain ⟨v, -, -, hsub⟩ := h.makeRoom_of_full hfull
    exact hsub
  · rw [h.makeRoom_of_not_full hfull]

theorem frame_makeRoom (s : BenchmarkCache) : Frame s s.makeRoom := by
  rw [makeRoom]
  split_ifs
  · exact frame_evict s
  · exact Frame.refl s

/-- **Every call leaves the cache settled.** -/
theorem Settled.step (h : s.Settled) (call : Call) : (s.step call).2.Settled := by
  rcases step_cases s call with ⟨hkey, t, ha, hstep⟩ | ⟨key, rfl, hkey, ha⟩ |
    ⟨key, value, rfl, hkey, hstep⟩
  · rw [hstep]
    exact (h.alike ha).update ((ha.mem_iff _).mpr hkey)
  · exact h.alike ha
  · rw [hstep]
    exact h.makeRoom_books.store_add (fun hmem => hkey (h.mem_of_mem_makeRoom hmem)) value

theorem settled_fresh (capacity : ℕ) (policy : EvictionPolicy) :
    (fresh capacity policy).Settled := by
  refine ⟨?_, fun _ => by simp [fresh]⟩
  cases policy <;> simp only [Books, fresh]
  · exact fun k => rfl
  · exact fun k => rfl
  · exact fun k => rfl
  · exact ⟨fun k _ => rfl, Nat.zero_le _⟩

/-- **The books are in step after every run**, for arbitrary keys. -/
theorem settled_after (capacity : ℕ) (policy : EvictionPolicy) (calls : List Call) :
    (StepMachine.after BenchmarkCache.step (fresh capacity policy) calls).Settled :=
  StepMachine.invariant_after (settled_fresh capacity policy) (fun _ call h => h.step call) calls

end BenchmarkCache

end PagedCacheServer
