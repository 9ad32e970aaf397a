import PagedCacheServer.Cache.PageSpec

/-!
# The contiguous path

Before pages were linked they had to lie next to each other, and the three methods
for that are still there: find a free block that is long enough, take a range of
pages out of a block, give a range back. Nothing in the program calls them any more.
They work on the same bitmap and the same free list, and keep them in the same
form: the search returns the lowest run that is long enough, taking a range leaves
the canonical list of what is left of it, and giving it back undoes the split.
-/

namespace PagedCacheServer

open FreeBlock Spans

namespace PageMemory

variable {m : PageMemory} {start n i : ℕ} {l : List FreeBlock} {b : FreeBlock}

/-! ### Finding a run -/

/-- **The pages of a range of free pages are in one block.** -/
theorem Wf.exists_block_of_range (h : m.Wf) (hn : 0 < n)
    (hfree : ∀ i, start ≤ i → i < start + n → m.IsFree i) :
    ∃ b ∈ m.freeList, b.startPage ≤ start ∧ start + n ≤ b.startPage + b.numPages := by
  obtain ⟨b, hb, hle, hlt⟩ := (h.covers_iff start).mpr (hfree start le_rfl (by omega))
  refine ⟨b, hb, hle, ?_⟩
  -- otherwise the page behind the block would be free
  have hrun : (b.startPage, b.numPages) ∈ m.freeRuns := h.mem_freeRuns.mpr ⟨b, hb, rfl, rfl⟩
  by_contra hgt
  exact hrun.2.2.1 (hfree _ (by omega) (by omega))

/-- Where the runs of at least `n` free pages start. -/
def longRuns (m : PageMemory) (n : ℕ) : Set ℕ := {a | ∃ k, n ≤ k ∧ IsMaxRun m.IsFree a k}

theorem Wf.mem_longRuns (h : m.Wf) {a : ℕ} :
    a ∈ m.longRuns n ↔ ∃ b ∈ m.freeList, b.startPage = a ∧ n ≤ b.numPages := by
  constructor
  · rintro ⟨k, hk, hrun⟩
    have hmem : (a, k) ∈ m.freeRuns := hrun
    obtain ⟨b, hb, rfl, rfl⟩ := h.mem_freeRuns.mp hmem
    exact ⟨b, hb, rfl, hk⟩
  · rintro ⟨b, hb, rfl, hk⟩
    have hrun : (b.startPage, b.numPages) ∈ m.freeRuns := h.mem_freeRuns.mpr ⟨b, hb, rfl, rfl⟩
    exact ⟨b.numPages, hk, hrun⟩

/-- The first block that is long enough is the lowest one. -/
theorem Wf.isLeast_of_find (h : m.Wf) {a : ℕ} (ha : m.findContiguousPages n = some a) :
    IsLeast (m.longRuns n) a := by
  obtain ⟨b, hfind, rfl⟩ := Option.map_eq_some_iff.mp ha
  have hmem := List.mem_of_find?_eq_some hfind
  refine ⟨h.mem_longRuns.mpr ⟨b, hmem, rfl, by simpa using List.find?_some hfind⟩, ?_⟩
  intro a' ha'
  obtain ⟨c, hc, rfl, hlong⟩ := h.mem_longRuns.mp ha'
  obtain ⟨pre, post, hl, hpre⟩ := (List.find?_eq_some_iff_append.mp hfind).2
  rw [hl] at hc
  rcases List.mem_append.mp hc with hc | hc
  · exact absurd hlong (by simpa using hpre c hc)
  · rcases List.mem_cons.mp hc with rfl | hc
    · exact le_rfl
    · have hpairs := h.canonical.apart
      rw [hl, List.pairwise_append, List.pairwise_cons] at hpairs
      have := hpairs.2.1.1 c hc
      omega

/-- **The search succeeds exactly when there are that many free pages in a row.** -/
theorem Wf.exists_find_iff (h : m.Wf) (hn : 0 < n) :
    (∃ a, m.findContiguousPages n = some a) ↔
      ∃ a, ∀ i, a ≤ i → i < a + n → m.IsFree i := by
  constructor
  · rintro ⟨a, ha⟩
    obtain ⟨k, hk, hrun⟩ := (h.isLeast_of_find ha).1
    exact ⟨a, fun i hi hi' => hrun.2.1 i hi (by omega)⟩
  · rintro ⟨a, hfree⟩
    obtain ⟨b, hb, hle, hge⟩ := h.exists_block_of_range hn hfree
    have hsome : (m.freeList.find? fun current => current.numPages ≥ n).isSome := by
      rw [List.find?_isSome]
      exact ⟨b, hb, by simp; omega⟩
    obtain ⟨c, hc⟩ := Option.isSome_iff_exists.mp hsome
    exact ⟨c.startPage, by rw [findContiguousPages, hc, Option.map_some]⟩

/-! ### Taking a range -/

/-- The range lies inside the block. -/
def Holds (b : FreeBlock) (start n : ℕ) : Prop :=
  b.startPage ≤ start ∧ start + n ≤ b.startPage + b.numPages

/-- What is left of a block when a range inside it is taken: what lies before the
range and what lies behind it, if anything does. -/
def leftOver (b : FreeBlock) (start n : ℕ) : List FreeBlock :=
  (if start - b.startPage > 0 then [⟨b.startPage, start - b.startPage⟩] else []) ++
    if b.startPage + b.numPages - (start + n) > 0 then
      [⟨start + n, b.startPage + b.numPages - (start + n)⟩] else []

/-- The walk passes the blocks that do not hold the range. -/
theorem splitBlock_append {pre post : List FreeBlock} (hpre : ∀ c ∈ pre, ¬Holds c start n)
    (hb : Holds b start n) :
    splitBlock start n (pre ++ b :: post) = pre ++ (leftOver b start n ++ post) := by
  induction pre with
  | nil =>
    obtain ⟨hle, hge⟩ := hb
    rw [List.nil_append, List.nil_append, splitBlock, if_pos ⟨hle, hge⟩, leftOver]
    dsimp only
    -- space before the range or not, and space behind it or not
    split_ifs <;> rfl
  | cons c pre ih =>
    have hc : ¬(c.startPage ≤ start ∧ start + n ≤ c.startPage + c.numPages) := hpre c (by simp)
    rw [List.cons_append, List.cons_append, splitBlock, if_neg hc,
      ih fun d hd => hpre d (by simp [hd])]

theorem covers_leftOver (hb : Holds b start n) :
    Covers startPage numPages (leftOver b start n) i ↔
      (b.startPage ≤ i ∧ i < b.startPage + b.numPages) ∧ ¬(start ≤ i ∧ i < start + n) := by
  obtain ⟨hle, hge⟩ := hb
  rw [leftOver, covers_append]
  split_ifs <;> simp only [covers_cons, not_covers_nil, or_false, false_or, false_iff] <;> omega

theorem mem_leftOver {c : FreeBlock} (hb : Holds b start n) (hc : c ∈ leftOver b start n) :
    b.startPage ≤ c.startPage ∧ c.startPage + c.numPages ≤ b.startPage + b.numPages := by
  obtain ⟨hle, hge⟩ := hb
  rw [leftOver, List.mem_append] at hc
  rcases hc with hc | hc
  · split_ifs at hc
    · obtain rfl := List.mem_singleton.mp hc
      simp only
      omega
    · simp at hc
  · split_ifs at hc
    · obtain rfl := List.mem_singleton.mp hc
      simp only
      omega
    · simp at hc

/-- The two rests of a block do not touch, the range being between them. -/
theorem canonical_leftOver (hn : 0 < n) (hb : Holds b start n) :
    Canonical startPage numPages (leftOver b start n) := by
  obtain ⟨hle, hge⟩ := hb
  rw [leftOver]
  split_ifs <;> simp [canonical_cons, canonical_nil] <;> omega

/-- **Splitting a block of a canonical list** leaves the canonical list of what it
covered, without the range. -/
theorem canonical_splitBlock (hl : Canonical startPage numPages l) (hn : 0 < n) (hb : b ∈ l)
    (hholds : Holds b start n) :
    Canonical startPage numPages (splitBlock start n l) ∧
      ∀ i, Covers startPage numPages (splitBlock start n l) i ↔
        Covers startPage numPages l i ∧ ¬(start ≤ i ∧ i < start + n) := by
  obtain ⟨pre, post, rfl⟩ := List.append_of_mem hb
  obtain ⟨-, hpost, hpre⟩ := canonical_append.mp hl
  obtain ⟨-, hpost, -⟩ := canonical_cons.mp hpost
  obtain ⟨hle, hge⟩ := hholds
  have hnot : ∀ c ∈ pre, ¬Holds c start n := by
    rintro c hc ⟨-, hcge⟩
    have := hpre c hc b (by simp)
    omega
  rw [splitBlock_append hnot ⟨hle, hge⟩]
  refine ⟨hl.replace (canonical_leftOver hn ⟨hle, hge⟩) fun c hc => mem_leftOver ⟨hle, hge⟩ hc,
    fun i => ?_⟩
  -- the other blocks have none of the range
  have hbefore : Covers startPage numPages pre i → i < start := by
    rintro ⟨c, hc, -, hlt⟩
    have := hpre c hc b (by simp)
    omega
  have hafter : Covers startPage numPages post i → start + n ≤ i := by
    rintro ⟨c, hc, hcle, -⟩
    have := hpost c hc
    omega
  rw [covers_append, covers_append, covers_append, covers_cons, covers_leftOver ⟨hle, hge⟩]
  constructor
  · rintro (hi | hi | hi)
    · exact ⟨Or.inl hi, fun hr => absurd (hbefore hi) (by omega)⟩
    · exact ⟨Or.inr (Or.inl hi.1), hi.2⟩
    · exact ⟨Or.inr (Or.inr hi), fun hr => absurd (hafter hi) (by omega)⟩
  · rintro ⟨hi | hi | hi, hr⟩
    · exact Or.inl hi
    · exact Or.inr (Or.inl ⟨hi, hr⟩)
    · exact Or.inr (Or.inr hi)

/-- The range a block holds is free. -/
theorem Wf.isFree_of_holds (h : m.Wf) (hb : b ∈ m.freeList) (hholds : Holds b start n)
    (hi : i ∈ List.range' start n) : m.IsFree i := by
  obtain ⟨hle, hge⟩ := hholds
  have hi' := List.mem_range'_1.mp hi
  exact (h.covers_iff i).mp ⟨b, hb, by omega, by omega⟩

/-- **`allocate_pages` on a range inside a free block** sets exactly its bits, and
leaves a well-formed memory. -/
theorem Wf.allocatePages (h : m.Wf) (hn : 0 < n) (hb : b ∈ m.freeList)
    (hholds : Holds b start n) :
    (m.allocatePages start n).Wf ∧
      ∀ i, (m.allocatePages start n).pageBitmap[i]? =
        if start ≤ i ∧ i < start + n then some true else m.pageBitmap[i]? := by
  have hlt : ∀ p ∈ List.range' start n, p < m.pageBitmap.length := fun p hp =>
    (List.getElem?_eq_some_iff.mp (h.isFree_of_holds hb hholds hp)).1
  have hbits : ∀ i, (m.allocatePages start n).pageBitmap[i]? =
      if start ≤ i ∧ i < start + n then some true else m.pageBitmap[i]? := by
    intro i
    rw [PageMemory.allocatePages, getElem?_markAllocated hlt]
    simp only [List.mem_range'_1]
  obtain ⟨hcan, hcovers⟩ := canonical_splitBlock h.canonical hn hb hholds
  refine ⟨⟨?_, hcan, fun i => ?_⟩, hbits⟩
  · rw [PageMemory.allocatePages, length_markAllocated, h.length]
  · rw [hbits, PageMemory.allocatePages, hcovers, h.covers_iff]
    by_cases hi : start ≤ i ∧ i < start + n <;> simp [hi]

/-! ### Giving a range back -/

/-- **`deallocate_pages` on a range of allocated pages** clears exactly its bits,
and leaves a well-formed memory. -/
theorem Wf.deallocatePages (h : m.Wf) (hn : 0 < n)
    (hset : ∀ i, start ≤ i → i < start + n → m.pageBitmap[i]? = some true) :
    (m.deallocatePages start n).Wf ∧
      ∀ i, (m.deallocatePages start n).pageBitmap[i]? =
        if start ≤ i ∧ i < start + n then some false else m.pageBitmap[i]? := by
  have hlt : ∀ p ∈ List.range' start n, p < m.pageBitmap.length := by
    intro p hp
    obtain ⟨hle, hlt⟩ := List.mem_range'_1.mp hp
    exact (List.getElem?_eq_some_iff.mp (hset p hle hlt)).1
  have hbits : ∀ i, (markFree m.pageBitmap (List.range' start n))[i]? =
      if start ≤ i ∧ i < start + n then some false else m.pageBitmap[i]? := by
    intro i
    rw [markFree, getElem?_foldl_set false hlt]
    simp only [List.mem_range'_1]
  -- before the blocks are merged
  have hloose : (addToFreeList
      { m with pageBitmap := markFree m.pageBitmap (List.range' start n) } start n).Loose := by
    refine ⟨?_, separated_addToFreeList h.canonical.separated hn fun i hle hlt hc => ?_,
      fun i => ?_⟩
    · rw [addToFreeList_pageBitmap, markFree, length_foldl_set, h.length]
    · have hfree := (h.covers_iff i).mp hc
      rw [hset i hle hlt] at hfree
      simp at hfree
    · rw [covers_addToFreeList, addToFreeList_pageBitmap, hbits, h.covers_iff]
      by_cases hi : start ≤ i ∧ i < start + n <;> simp [hi]
  refine ⟨hloose.wf_coalesceFreeBlocks, fun i => ?_⟩
  rw [PageMemory.deallocatePages, coalesceFreeBlocks_pageBitmap, addToFreeList_pageBitmap, hbits]

/-- Giving a range back undoes the split. -/
theorem Wf.deallocatePages_allocatePages (h : m.Wf) (hn : 0 < n) (hb : b ∈ m.freeList)
    (hholds : Holds b start n) :
    (m.allocatePages start n).deallocatePages start n = m := by
  obtain ⟨hwf, hbits⟩ := h.allocatePages hn hb hholds
  obtain ⟨hwf', hbits'⟩ := hwf.deallocatePages hn fun i hle hlt => by
    rw [hbits, if_pos ⟨hle, hlt⟩]
  refine hwf'.eq_of_pageBitmap h (List.ext_getElem? fun i => ?_)
  rw [hbits', hbits]
  by_cases hi : start ≤ i ∧ i < start + n
  · rw [if_pos hi]
    exact (h.isFree_of_holds hb hholds (List.mem_range'_1.mpr hi)).symm
  · rw [if_neg hi, if_neg hi]

/-! ### The three together -/

/-- **The contiguous path keeps the representation of the linked one.** On a
well-formed memory and for at least one page: the search succeeds exactly when there
is a run of that many free pages, and returns the lowest; taking any range inside a
free block sets its bits and no others and leaves a well-formed memory, and giving
the range back restores the memory, free list and bitmap. -/
theorem contiguous_spec (h : m.Wf) (hn : 1 ≤ n) :
    ((∃ a, m.findContiguousPages n = some a) ↔ ∃ a, ∀ i, a ≤ i → i < a + n → m.IsFree i) ∧
      (∀ a, m.findContiguousPages n = some a → IsLeast (m.longRuns n) a) ∧
      ∀ start, ∀ b ∈ m.freeList, Holds b start n →
        (m.allocatePages start n).Wf ∧
          (∀ i, (m.allocatePages start n).pageBitmap[i]? =
            if start ≤ i ∧ i < start + n then some true else m.pageBitmap[i]?) ∧
          (m.allocatePages start n).deallocatePages start n = m := by
  refine ⟨h.exists_find_iff hn, fun a ha => h.isLeast_of_find ha, fun start b hb hholds => ?_⟩
  obtain ⟨hwf, hbits⟩ := h.allocatePages hn hb hholds
  exact ⟨hwf, hbits, h.deallocatePages_allocatePages hn hb hholds⟩

/-- Three pages in the middle of the one block of a fresh cache are taken, which
leaves two blocks, and given back. -/
theorem contiguous_unused :
    unused.findContiguousPages 3 = some 0 ∧ IsLeast (unused.longRuns 3) 0 ∧
      (unused.allocatePages 5 3).freeList = [⟨0, 5⟩, ⟨8, totalPages - 8⟩] ∧
      (unused.allocatePages 5 3).deallocatePages 5 3 = unused := by
  have hwf : unused.Wf := wf_replicate
  obtain ⟨-, hleast, hrange⟩ := contiguous_spec (n := 3) hwf (by omega)
  have hfind : unused.findContiguousPages 3 = some 0 := by decide
  have hholds : Holds ⟨0, totalPages⟩ 5 3 := ⟨by decide, by decide⟩
  obtain ⟨-, -, hback⟩ := hrange 5 ⟨0, totalPages⟩ (List.mem_singleton.mpr rfl) hholds
  exact ⟨hfind, hleast 0 hfind, by decide, hback⟩

end PageMemory

end PagedCacheServer
