import PagedCacheServer.Benchmark.Reference

/-!
# SIEVE without a hand

The published algorithm has a hand that stays where the last eviction left it. The
cache has no place for one: `evict_sieve` starts at the oldest key every time. So it
evicts other keys than the published algorithm
(`PagedCacheServer.BenchmarkCache.sieve_differs`), and the same keys, in the same order,
as the variant whose hand goes back to the oldest key before every eviction
(`PagedCacheServer.BenchmarkCache.sieve_follows`).
-/

namespace PagedCacheServer

namespace BenchmarkCache

open BitQueue (Sieve)

variable {s s' : BenchmarkCache} {k key v : Bytes} {q : Sieve Bytes}

/-! ### The visited flags -/

theorem Alike.visited (h : Alike s s') (k : Bytes) : s'.visited k = s.visited k := by
  have hbits := congrArg (Option.map Prod.fst) (h.bits k)
  rw [Option.map_map, Option.map_map] at hbits
  exact congrArg (Option.getD · false) hbits

theorem visited_updateSieve (hkey : key ∈ s.cacheMap) (k : Bytes) :
    (s.updateSieve key).visited k = if k = key then true else s.visited k :=
  flag_modifyEntry (f := fun e => { e with visited := true }) (fun _ => rfl) hkey k

theorem visited_addSieve (s : BenchmarkCache) (key value k : Bytes) :
    ((s.store key value).addSieve key).visited k = if k = key then false else s.visited k := by
  have hmem : key ∈ (s.store key value).cacheMap := (AList.mem_insert _).mpr (Or.inl rfl)
  refine Eq.trans (flag_modifyEntry visited_unvisit hmem k) ?_
  split_ifs with hk
  · rfl
  · exact flag_store_of_ne hk value

/-! ### The queue -/

/-- The keys with their flags, oldest first. -/
def sieveQueue (s : BenchmarkCache) : List (Bytes × Bool) :=
  s.sieveOrder.map fun k => (k, s.visited k)

/-- The cache and the queue hold the same objects. -/
structure SameObjects (s : BenchmarkCache) (q : Sieve Bytes) : Prop where
  policy : s.policy = .sieve
  keeps : Keeps s.sieveOrder s.cacheMap
  objects : q.objects = s.sieveQueue

theorem map_fst_sieveQueue (s : BenchmarkCache) : s.sieveQueue.map Prod.fst = s.sieveOrder := by
  simp [sieveQueue, Function.comp_def]

/-- A new object enters unvisited, at the newest end. -/
theorem sieveQueue_add (hkey : key ∉ s.sieveOrder) (value : Bytes) :
    ((s.store key value).addSieve key).sieveQueue = s.sieveQueue ++ [(key, false)] := by
  have horder : ((s.store key value).addSieve key).sieveOrder = s.sieveOrder ++ [key] := rfl
  rw [sieveQueue, horder, List.map_append, sieveQueue]
  refine congrArg₂ (· ++ ·) (List.map_congr_left fun k hk => ?_) ?_
  · have hne : k ≠ key := fun h => hkey (h ▸ hk)
    rw [visited_addSieve, if_neg hne]
  · simp [visited_addSieve]

/-- Storing an object under a new key. -/
theorem sameObjects_store_add (hbooks : s.Books) (hp : s.policy = .sieve)
    (hkey : key ∉ s.cacheMap) (value : Bytes)
    (hq : q.objects = s.sieveQueue ++ [(key, false)]) :
    SameObjects ((s.store key value).add key) q := by
  have hadd : (s.store key value).add key = (s.store key value).addSieve key := by
    simp only [add, store, hp]
  have hsettled := hbooks.store_add hkey value
  rw [hadd] at hsettled ⊢
  have hp' : ((s.store key value).addSieve key).policy = .sieve := hp
  refine ⟨hp', (books_of_sieve hp').mp hsettled.books, ?_⟩
  have hnew : key ∉ s.sieveOrder := fun hmem =>
    hkey ((((books_of_sieve hp).mp hbooks).mem_iff key).mp hmem)
  rw [hq, sieveQueue_add hnew]

/-- The objects after an eviction, their flags cleared as far as the sweep went. -/
theorem sieveQueue_erase_modifyAll (keys pre post : List Bytes) (hv : v ∉ pre ++ post)
    (hpre : ∀ k ∈ pre, k ∈ keys) (hpost : ∀ k ∈ post, k ∉ keys) :
    ({ s.modifyAll keys unvisit with
        sieveOrder := pre ++ post
        cacheMap := (s.modifyAll keys unvisit).cacheMap.erase v } : BenchmarkCache).sieveQueue =
      BitQueue.clear (pre.map fun k => (k, s.visited k)) ++
        post.map fun k => (k, s.visited k) := by
  rw [sieveQueue, List.map_append, BitQueue.clear, List.map_map]
  have hne : ∀ k ∈ pre ++ post, k ≠ v := fun k hk h => hv (h ▸ hk)
  refine congrArg₂ (· ++ ·) (List.map_congr_left fun k hk => ?_)
    (List.map_congr_left fun k hk => ?_)
  · rw [visited, flag_erase_modifyAll unvisit_unvisit visited_unvisit rfl (hne k (by simp [hk])),
      if_pos (hpre k hk)]
    rfl
  · rw [visited, flag_erase_modifyAll unvisit_unvisit visited_unvisit rfl (hne k (by simp [hk])),
      if_neg (hpost k hk)]
    rfl

/-- **The eviction is a sweep from the oldest object.** -/
theorem evictSieve_eq (h : Keeps s.sieveOrder s.cacheMap) (hmap : s.cacheMap.keys ≠ []) :
    ∃ v, Removes s s.evictSieve v ∧ (Sieve.evict ⟨s.sieveQueue, 0⟩).1 = some v ∧
      (Sieve.evict ⟨s.sieveQueue, 0⟩).2.objects = s.evictSieve.sieveQueue := by
  have hnd := h.nodup
  rcases flag_cases s.visited s.sieveOrder with ⟨pre, v, post, horder, hpre, hv⟩ | hall
  · have hmem : v ∈ s.cacheMap := (h.mem_iff v).mp (by simp [horder])
    rw [horder, List.nodup_middle, List.nodup_cons, List.nodup_append] at hnd
    have hqueue : s.sieveQueue = pre.map (fun k => (k, s.visited k)) ++
        (v, false) :: post.map fun k => (k, s.visited k) := by
      simp [sieveQueue, horder, hv]
    have hset : ∀ x ∈ pre.map fun k => (k, s.visited k), x.2 = true := by simpa using hpre
    rw [evictSieve_of_split h horder hpre hv, hqueue, sieveQueue_erase_modifyAll pre pre post
      hnd.1 (fun k hk => hk) fun k hk hk' => hnd.2.2.2 k hk' k hk rfl]
    exact ⟨v, removes_of_modifyAll hmem, BitQueue.evict_of_split hset⟩
  · obtain ⟨v, rest, horder⟩ :=
      List.exists_cons_of_ne_nil fun hnil => hmap (h.eq_nil_iff.mp hnil)
    have hmem : v ∈ s.cacheMap := (h.mem_iff v).mp (by simp [horder])
    rw [horder, List.nodup_cons] at hnd
    have hqueue : s.sieveQueue =
        (v, s.visited v) :: rest.map fun k => (k, s.visited k) := by
      simp [sieveQueue, horder]
    have hset : ∀ x ∈ (v, s.visited v) :: rest.map fun k => (k, s.visited k), x.2 = true := by
      rw [← hqueue, sieveQueue]
      simpa using hall
    have hafter := sieveQueue_erase_modifyAll (s := s) (v := v) s.sieveOrder rest []
      (by simpa using hnd.1) (fun k hk => by simp [horder, hk]) (by simp)
    rw [List.append_nil, List.map_nil, List.append_nil] at hafter
    rw [evictSieve_of_all h horder hall, hqueue, hafter]
    exact ⟨v, removes_of_modifyAll hmem, BitQueue.evict_of_all hset⟩

theorem refines_sieve : Refines BitQueue.sieveFromOldest (fun _ => True) SameObjects where
  mem_iff {s q} h k := by
    change k ∈ q.objects.map Prod.fst ↔ _
    rw [h.objects, map_fst_sieveQueue, h.keeps.mem_iff]
  length {s q} h := by
    change q.objects.length = _
    rw [h.objects, sieveQueue, List.length_map]
    exact h.keeps.length_eq
  alike {s s' q} h ha := by
    refine ⟨ha.policy.trans h.policy, ?_, ?_⟩
    · rw [ha.sieveOrder]
      exact h.keeps.congr ha.mem_iff
    · rw [h.objects, sieveQueue, sieveQueue, ha.sieveOrder]
      exact List.map_congr_left fun k _ => by rw [ha.visited]
  hit {s q key} _ h hkey := by
    have hupdate : s.update key = s.updateSieve key := by simp only [update, h.policy]
    rw [hupdate]
    refine ⟨h.policy, h.keeps.congr fun k => mem_modifyEntry, ?_⟩
    change BitQueue.mark q.objects key = (s.sieveOrder.map fun k => (k, _))
    rw [h.objects, sieveQueue, BitQueue.mark, List.map_map]
    refine List.map_congr_left fun k _ => ?_
    rw [visited_updateSieve hkey]
    by_cases hk : k = key <;> simp [hk]
  join {s q key} hs h _ hkey _ value :=
    sameObjects_store_add hs.books h.policy hkey value (congrArg (· ++ [(key, false)]) h.objects)
  replace {s q key} hs h _ hkey hfull value := by
    have hevict : s.makeRoom = s.evictSieve := by
      rw [makeRoom, if_pos hfull.1]
      simp only [evict, h.policy]
    obtain ⟨v, hrem, hv, hobjects⟩ := evictSieve_eq h.keeps hfull.2
    have hfrom : BitQueue.Sieve.evictFromOldest q = Sieve.evict ⟨s.sieveQueue, 0⟩ := by
      rw [BitQueue.Sieve.evictFromOldest, h.objects]
    have hp : s.evictSieve.policy = .sieve := by
      rw [← hevict, (frame_makeRoom s).policy, h.policy]
    have hkey' : key ∉ s.evictSieve.cacheMap := fun hmem => hkey ((hrem.mem_iff key).mp hmem).2
    have hbooks := hs.makeRoom_books
    rw [hevict] at hbooks ⊢
    refine ⟨v, hrem, (congrArg Prod.fst hfrom).trans hv,
      sameObjects_store_add hbooks hp hkey' value ?_⟩
    rw [← hobjects, ← hfrom]
    rfl

/-- **The policy is SIEVE with a hand that starts at the oldest object each time**: for
every capacity from 1 on and every run, each call finds its key or not, and evicts, as
there. -/
theorem sieve_follows (capacity : ℕ) (hcap : 1 ≤ capacity) (calls : List Call) :
    StepMachine.history watch (fresh capacity .sieve) calls =
      StepMachine.history (follow BitQueue.sieveFromOldest capacity) ⟨[], 0⟩ calls := by
  have hstart : SameObjects (fresh capacity .sieve) ⟨[], 0⟩ := ⟨rfl, fun k => rfl, rfl⟩
  exact refines_sieve.history_eq (settled_fresh capacity .sieve) hcap hstart fun _ _ => trivial

/-- Three objects, of which the oldest is visited, and two puts. -/
def sieveCalls : List Call :=
  [.put (lit "a") [], .put (lit "b") [], .put (lit "c") [], .get (lit "a"), .put (lit "d") [],
    .put (lit "e") []]

theorem sieve_follows_six_calls :
    StepMachine.history watch (fresh 3 .sieve) sieveCalls =
      StepMachine.history (follow BitQueue.sieveFromOldest 3) ⟨[], 0⟩ sieveCalls :=
  sieve_follows 3 (by decide) sieveCalls

/-- **The published algorithm evicts other keys**: its hand has passed `a` when it
evicts `b`, and evicts `c` next, while the cache comes back to `a`. -/
theorem sieve_differs :
    ¬∀ (capacity : ℕ), 1 ≤ capacity → ∀ calls,
      (StepMachine.history watch (fresh capacity .sieve) calls).map (fun e => e.2.2) =
        (StepMachine.history (follow BitQueue.sieve capacity) ⟨[], 0⟩ calls).map
          (fun e => e.2.2) := by
  intro h
  have hsame := h 3 (by decide) sieveCalls
  revert hsame
  decide

end BenchmarkCache

end PagedCacheServer
