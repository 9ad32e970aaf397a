import PagedCacheServer.Cache.Fragmentation

/-!
# Allocating and freeing, against their specifications

What a caller may expect of `allocate_pages_linked` and `deallocate_pages_linked`
says nothing of blocks and of walking a list of them. It is about the set of the
free pages: an allocation takes the lowest ones, in order, or none at all
(`PagedCacheServer.PageMemory.allocatePagesLinked_spec`), and freeing adds the
pages of a chain to the set, so that neither their order nor how they are
distributed over several calls can matter
(`PagedCacheServer.PageMemory.deallocatePagesLinked_spec`).

That this determines the free list, block by block, is because the memory is well
formed, before and after.
-/

namespace PagedCacheServer

open FreeBlock Spans

namespace PageMemory

variable {m : PageMemory} {n : ℕ} {blocks : List ℕ}

/-! ### Allocating -/

/-- The chain lists the `n` lowest free pages of `m` in increasing order, and `m'` is
well formed and has their bits set besides those of `m`. -/
structure TakesLowest (m : PageMemory) (n : ℕ) (chain : List ℕ) (m' : PageMemory) : Prop where
  length : chain.length = n
  increasing : chain.Pairwise (· < ·)
  free : ∀ p ∈ chain, m.IsFree p
  lowest : ∀ p ∈ chain, ∀ q, m.IsFree q → q ∉ chain → p < q
  bits : ∀ i, m'.pageBitmap[i]? = if i ∈ chain then some true else m.pageBitmap[i]?
  wf : m'.Wf

/-- An initial segment of the free pages is lower than what comes after it. -/
theorem Wf.lt_of_mem_take {p q : ℕ} (h : m.Wf)
    (hp : p ∈ (points startPage numPages m.freeList).take n) (hq : m.IsFree q)
    (hnot : q ∉ (points startPage numPages m.freeList).take n) : p < q := by
  have hsplit := List.take_append_drop n (points startPage numPages m.freeList)
  have hpairs := h.canonical.separated.pairwise_points
  rw [← hsplit, List.pairwise_append] at hpairs
  have hmem : q ∈ points startPage numPages m.freeList := h.loose.mem_points_iff.mpr hq
  rw [← hsplit, List.mem_append] at hmem
  exact hpairs.2.2 p hp q (hmem.resolve_left hnot)

theorem Wf.takesLowest (h : m.Wf) (hpos : 0 < n) (hn : n ≤ m.getFreePages) :
    TakesLowest m n (m.allocatePagesLinked n).1 (m.allocatePagesLinked n).2 := by
  obtain ⟨hchain, ha⟩ := h.allocatePagesLinked_of_le hpos hn
  refine ⟨ha.length, ?_, ha.free, fun p hp q hq hnot => ?_, ha.bits, ha.wf⟩
  · rw [hchain]
    exact h.canonical.separated.pairwise_points.sublist (List.take_sublist _ _)
  · rw [hchain] at hp hnot
    exact h.lt_of_mem_take hp hq hnot

/-- **`allocate_pages_linked` against its specification**, on a well-formed memory:
it returns a chain exactly when there are enough free pages; the chain is then the
lowest of them, and otherwise nothing has changed. -/
theorem allocatePagesLinked_spec (h : m.Wf) (hn : 1 ≤ n) :
    ((m.allocatePagesLinked n).1 ≠ [] ↔ n ≤ m.getFreePages) ∧
      (n ≤ m.getFreePages →
        TakesLowest m n (m.allocatePagesLinked n).1 (m.allocatePagesLinked n).2) ∧
      (m.getFreePages < n → m.allocatePagesLinked n = ([], m)) := by
  refine ⟨⟨fun hne => ?_, fun hle hnil => ?_⟩, h.takesLowest hn, h.allocatePagesLinked_of_lt⟩
  · by_contra hlt
    exact hne (by rw [h.allocatePagesLinked_of_lt (Nat.lt_of_not_le hlt)])
  · have hlength := (h.takesLowest hn hle).length
    rw [hnil, List.length_nil] at hlength
    omega

/-- The memory of a fresh cache. -/
def unused : PageMemory := ⟨List.replicate totalPages false, [⟨0, totalPages⟩]⟩

theorem getFreePages_unused : unused.getFreePages = totalPages := by
  rw [getFreePages, unused, List.count_replicate_self]

/-- Three pages of a fresh cache, and one more than it has. -/
theorem allocatePagesLinked_unused :
    unused.Wf ∧
      TakesLowest unused 3 (unused.allocatePagesLinked 3).1 (unused.allocatePagesLinked 3).2 ∧
      unused.allocatePagesLinked (totalPages + 1) = ([], unused) := by
  have hfree := getFreePages_unused
  refine ⟨wf_replicate, (allocatePagesLinked_spec wf_replicate (by omega)).2.1 ?_,
    (allocatePagesLinked_spec wf_replicate (by omega)).2.2 ?_⟩
  · rw [← unused, hfree]
    decide
  · rw [← unused, hfree]
    omega

/-! ### Freeing -/

/-- What freeing several chains, one after the other, does. -/
theorem Wf.foldl_deallocatePagesLinked {chains : List (List ℕ)} (h : m.Wf)
    (hnd : chains.flatten.Nodup) (hb : ∀ p ∈ chains.flatten, m.pageBitmap[p]? = some true) :
    (chains.foldl deallocatePagesLinked m).Wf ∧
      ∀ i, (chains.foldl deallocatePagesLinked m).pageBitmap[i]? =
        if i ∈ chains.flatten then some false else m.pageBitmap[i]? := by
  induction chains generalizing m with
  | nil => exact ⟨h, by simp⟩
  | cons chain chains ih =>
    rw [List.flatten_cons] at hnd hb
    obtain ⟨hchain, hrest, -⟩ := List.nodup_append.mp hnd
    obtain ⟨hwf, hbits⟩ := h.loose.deallocatePagesLinked hchain fun p hp => hb p (by simp [hp])
    -- the pages of the other chains are still allocated
    have hb' : ∀ p ∈ chains.flatten,
        (m.deallocatePagesLinked chain).pageBitmap[p]? = some true := by
      intro p hp
      have hnot : p ∉ chain := fun hp' => List.disjoint_of_nodup_append hnd hp' hp
      rw [hbits, if_neg hnot]
      exact hb p (List.mem_append_right _ hp)
    obtain ⟨hwf', hbits'⟩ := ih hwf hrest hb'
    refine ⟨hwf', fun i => ?_⟩
    rw [List.foldl_cons, hbits', hbits]
    simp only [List.flatten_cons, List.mem_append]
    by_cases hi : i ∈ chains.flatten
    · rw [if_pos hi, if_pos (Or.inr hi)]
    · simp only [hi, if_false, or_false]

/-- **`deallocate_pages_linked` against its specification**, on a well-formed memory
and for a chain of distinct allocated pages: exactly their bits are cleared and the
memory is well formed again; permuting the chain makes no difference, nor does
distributing its pages over several calls, in any order. -/
theorem deallocatePagesLinked_spec (h : m.Wf) (hnd : blocks.Nodup)
    (hb : ∀ p ∈ blocks, m.pageBitmap[p]? = some true) :
    (m.deallocatePagesLinked blocks).Wf ∧
      (∀ i, (m.deallocatePagesLinked blocks).pageBitmap[i]? =
        if i ∈ blocks then some false else m.pageBitmap[i]?) ∧
      (∀ blocks' : List ℕ, blocks'.Perm blocks →
        m.deallocatePagesLinked blocks' = m.deallocatePagesLinked blocks) ∧
      ∀ chains : List (List ℕ), chains.flatten.Perm blocks →
        chains.foldl deallocatePagesLinked m = m.deallocatePagesLinked blocks := by
  obtain ⟨hwf, hbits⟩ := h.loose.deallocatePagesLinked hnd hb
  have hsplit : ∀ chains : List (List ℕ), chains.flatten.Perm blocks →
      chains.foldl deallocatePagesLinked m = m.deallocatePagesLinked blocks := by
    intro chains hperm
    obtain ⟨hwf', hbits'⟩ := h.foldl_deallocatePagesLinked (hperm.nodup_iff.mpr hnd)
      fun p hp => hb p (hperm.mem_iff.mp hp)
    refine hwf'.eq_of_pageBitmap hwf (List.ext_getElem? fun i => ?_)
    rw [hbits', hbits]
    simp only [hperm.mem_iff]
  refine ⟨hwf, hbits, fun blocks' hperm => ?_, hsplit⟩
  exact hsplit [blocks'] (by simpa using hperm)

/-- Three pages are allocated and given back, in two calls and out of order. -/
theorem deallocatePagesLinked_unused :
    let m := (unused.allocatePagesLinked 3).2
    (unused.allocatePagesLinked 3).1 = [0, 1, 2] ∧
      [[1], [2, 0]].foldl deallocatePagesLinked m = m.deallocatePagesLinked [2, 0, 1] := by
  intro m
  have hfit : 3 ≤ unused.getFreePages := by
    rw [getFreePages_unused]
    decide
  obtain ⟨hchain, ha⟩ := Wf.allocatePagesLinked_of_le (m := unused) wf_replicate (by omega) hfit
  have htake : (points startPage numPages unused.freeList).take 3 = [0, 1, 2] := by
    have hpoints : points startPage numPages unused.freeList = List.range' 0 totalPages := by
      simp [unused]
    rw [hpoints, List.take_range'_of_length_ge (by decide)]
    rfl
  rw [htake] at hchain
  have hset : ∀ p ∈ [2, 0, 1], m.pageBitmap[p]? = some true := by
    intro p hp
    have hmem : p ∈ [0, 1, 2] := (show [2, 0, 1].Perm [0, 1, 2] by decide).mem_iff.mp hp
    rw [ha.bits, if_pos (hchain ▸ hmem)]
  refine ⟨hchain, (deallocatePagesLinked_spec ha.wf (by decide) hset).2.2.2 [[1], [2, 0]] ?_⟩
  decide

end PageMemory

end PagedCacheServer
