import Mathlib.Data.List.Perm.Basic
import PagedCacheServer.Cache.FreeList

/-!
# Allocation

`allocate_pages_linked` walks the free list from its head and takes whole blocks
until the last one, which it shrinks from the front. On a well-formed memory this
is easy to say in terms of the enumeration of the free pages
(`Spans.points`): the chain is its first `n` members, and the free list that is
left describes the rest (`PagedCacheServer.PageMemory.allocateLoop_spec`).

When there are not enough pages the walk has taken all of them, emptied the free
list and set every bit; the rollback returns them one by one. Since a well-formed
memory is determined by its bitmap, the result is the memory the call started
from, block for block
(`PagedCacheServer.PageMemory.Wf.allocatePagesLinked_of_lt`): **a failed
allocation has no effect at all**.
-/

namespace PagedCacheServer

open FreeBlock Spans

namespace PageMemory

variable {m : PageMemory} {n : ℕ}

/-! ### Counting free pages -/

/-- The bits of one kind are counted by any list of their indices. -/
theorem count_eq_length {bitmap : List Bool} {pages : List ℕ} (b : Bool) (hnd : pages.Nodup)
    (hmem : ∀ i, i ∈ pages ↔ bitmap[i]? = some b) : bitmap.count b = pages.length := by
  have hcount : ∀ bitmap : List Bool, bitmap.count b =
      ((List.range bitmap.length).filter fun i => bitmap[i]? = some b).length := by
    intro bitmap
    induction bitmap using List.reverseRecOn with
    | nil => rfl
    | append_singleton bitmap a ih =>
      have hinit : (List.range bitmap.length).filter (fun i => (bitmap ++ [a])[i]? = some b) =
          (List.range bitmap.length).filter fun i => bitmap[i]? = some b := by
        refine List.filter_congr fun i hi => ?_
        rw [List.getElem?_append_left (List.mem_range.mp hi)]
      rw [List.count_append, ih, List.length_append, List.length_singleton, List.range_succ,
        List.filter_append, List.length_append, hinit]
      cases a <;> cases b <;> simp
  have hperm : pages.Perm
      ((List.range bitmap.length).filter fun i => bitmap[i]? = some b) := by
    refine (List.perm_ext_iff_of_nodup hnd (List.nodup_range.filter _)).mpr fun i => ?_
    rw [hmem, List.mem_filter, List.mem_range]
    constructor
    · intro hi
      exact ⟨(List.getElem?_eq_some_iff.mp hi).1, by simpa using hi⟩
    · rintro ⟨-, hi⟩
      simpa using hi
  rw [hcount, hperm.length_eq]

theorem Loose.mem_points_iff (h : m.Loose) {i : ℕ} :
    i ∈ points startPage numPages m.freeList ↔ m.pageBitmap[i]? = some false := by
  rw [mem_points, h.covers_iff]

/-- `get_free_pages` counts the pages the free list describes. -/
theorem Loose.getFreePages_eq (h : m.Loose) :
    m.getFreePages = (points startPage numPages m.freeList).length :=
  count_eq_length false h.separated.nodup_points fun _ => h.mem_points_iff

/-- Returning a chain adds its length to the free pages. -/
theorem Wf.getFreePages_deallocatePagesLinked {blocks : List ℕ} (h : m.Wf) (hnd : blocks.Nodup)
    (hb : ∀ p ∈ blocks, m.pageBitmap[p]? = some true) :
    (m.deallocatePagesLinked blocks).getFreePages = m.getFreePages + blocks.length := by
  obtain ⟨hwf, hbits⟩ := h.loose.deallocatePagesLinked hnd hb
  have hdisj : ∀ i ∈ points startPage numPages m.freeList, i ∉ blocks := by
    intro i hi hib
    rw [h.loose.mem_points_iff, hb i hib] at hi
    simp at hi
  have hnd' : (points startPage numPages m.freeList ++ blocks).Nodup :=
    List.nodup_append'.mpr ⟨h.loose.separated.nodup_points, hnd, hdisj⟩
  rw [getFreePages, count_eq_length false hnd' fun i => ?_, List.length_append,
    ← h.loose.getFreePages_eq]
  rw [hbits, List.mem_append, h.loose.mem_points_iff]
  by_cases hi : i ∈ blocks <;> simp [hi]

/-! ### Setting bits -/

theorem length_foldl_set (bit : Bool) (bitmap : List Bool) (pages : List ℕ) :
    (pages.foldl (fun bitmap page => bitmap.set page bit) bitmap).length = bitmap.length := by
  induction pages generalizing bitmap with
  | nil => rfl
  | cons p pages ih => rw [List.foldl_cons, ih, List.length_set]

/-- Writing the bits of a list of pages changes these bits and no others. -/
theorem getElem?_foldl_set (bit : Bool) {bitmap : List Bool} {pages : List ℕ}
    (hp : ∀ p ∈ pages, p < bitmap.length) (i : ℕ) :
    (pages.foldl (fun bitmap page => bitmap.set page bit) bitmap)[i]? =
      if i ∈ pages then some bit else bitmap[i]? := by
  induction pages generalizing bitmap with
  | nil => simp
  | cons p pages ih =>
    have hlt : p < bitmap.length := hp p (by simp)
    have hrest : ∀ q ∈ pages, q < (bitmap.set p bit).length := fun q hq => by
      simpa using hp q (by simp [hq])
    rw [List.foldl_cons, ih hrest, List.getElem?_set]
    by_cases hi : i ∈ pages
    · simp [hi]
    · rcases eq_or_ne i p with rfl | hne
      · simp [hlt]
      · simp [hi, hne, hne.symm]

theorem length_markAllocated (bitmap : List Bool) (pages : List ℕ) :
    (markAllocated bitmap pages).length = bitmap.length :=
  length_foldl_set true bitmap pages

theorem getElem?_markAllocated {bitmap : List Bool} {pages : List ℕ}
    (hp : ∀ p ∈ pages, p < bitmap.length) (i : ℕ) :
    (markAllocated bitmap pages)[i]? = if i ∈ pages then some true else bitmap[i]? :=
  getElem?_foldl_set true hp i

/-! ### The walk along the free list -/

theorem markAllocated_append (bitmap : List Bool) (pages pages' : List ℕ) :
    markAllocated bitmap (pages ++ pages') = markAllocated (markAllocated bitmap pages) pages' := by
  simp [markAllocated]

/-- Once enough pages are taken the loop ends. -/
theorem allocateLoop_of_le {l : List FreeBlock} {bitmap : List Bool} {blocks : List ℕ}
    {allocated : ℕ} (h : n ≤ allocated) :
    allocateLoop n l bitmap blocks allocated = ⟨⟨bitmap, l⟩, blocks, allocated⟩ := by
  cases l with
  | nil => rfl
  | cons current next => rw [allocateLoop, if_neg (by omega)]

/-- **What the walk does**: with `k` pages left to take, it takes the first `k`
pages of the list – or all of them – and leaves the description of the rest. -/
theorem allocateLoop_spec (k : ℕ) (bitmap : List Bool) (blocks : List ℕ) {l : List FreeBlock}
    {allocated : ℕ} (hl : Canonical startPage numPages l) (hn : n = allocated + k) :
    let r := allocateLoop n l bitmap blocks allocated
    let taken := (points startPage numPages l).take k
    r.allocatedBlocks = blocks ++ taken ∧
      r.pagesAllocated = allocated + taken.length ∧
      r.memory.pageBitmap = markAllocated bitmap taken ∧
      Canonical startPage numPages r.memory.freeList ∧
      points startPage numPages r.memory.freeList = (points startPage numPages l).drop k := by
  induction l generalizing k bitmap blocks allocated with
  | nil => simp [allocateLoop, markAllocated, canonical_nil]
  | cons current next ih =>
    obtain ⟨hpos, hcn, hnext⟩ := canonical_cons.mp hl
    rcases Nat.eq_zero_or_pos k with rfl | hk
    · simp [allocateLoop_of_le (show n ≤ allocated by omega), markAllocated, hl]
    rw [allocateLoop, if_pos (by omega)]
    have hleft : n - allocated = k := by omega
    rcases Nat.lt_or_ge k current.numPages with hlt | hge
    · -- the block is not used up: it is shrunk, and the loop is over
      have hmin : min current.numPages (n - allocated) = k := by omega
      have htake : (points startPage numPages (current :: next)).take k =
          List.range' current.startPage k := by
        rw [points_cons, List.take_append_of_le_length (by simpa using hlt.le),
          List.take_range'_of_length_ge hlt.le]
      have hdrop : (points startPage numPages (current :: next)).drop k =
          List.range' (current.startPage + k) (current.numPages - k) ++
            points startPage numPages next := by
        rw [points_cons, List.drop_append_of_le_length (by simpa using hlt.le),
          List.drop_range', Nat.mul_one]
      simp only [hmin, if_neg hlt.ne, htake, hdrop, List.length_range',
        allocateLoop_of_le (show n ≤ allocated + k by omega)]
      refine ⟨trivial, trivial, trivial, canonical_cons.mpr ⟨?_, fun c hc => ?_, hnext⟩, rfl⟩
      · show 0 < current.numPages - k
        omega
      · have := hcn c hc
        show current.startPage + k + (current.numPages - k) < c.startPage
        omega
    · -- the whole block is taken and unlinked
      have hmin : min current.numPages (n - allocated) = current.numPages := by omega
      have htake : (points startPage numPages (current :: next)).take k =
          List.range' current.startPage current.numPages ++
            (points startPage numPages next).take (k - current.numPages) := by
        rw [points_cons, List.take_append, List.length_range',
          List.take_range'_of_length_le hge]
      have hdrop : (points startPage numPages (current :: next)).drop k =
          (points startPage numPages next).drop (k - current.numPages) := by
        rw [points_cons, List.drop_append, List.length_range', List.drop_range']
        simp [show current.numPages - k = 0 by omega]
      obtain ⟨h₁, h₂, h₃, h₄, h₅⟩ := ih (k - current.numPages)
        (markAllocated bitmap (List.range' current.startPage current.numPages))
        (blocks ++ List.range' current.startPage current.numPages) hnext
        (show n = allocated + current.numPages + (k - current.numPages) by omega)
      simp only [hmin, if_pos, htake, hdrop, List.length_append, List.length_range']
      refine ⟨by rw [h₁, List.append_assoc], by rw [h₂, Nat.add_assoc], ?_, h₄, h₅⟩
      rw [h₃, markAllocated_append]

/-! ### The two outcomes -/

/-- The pages the walk takes are free ones. -/
theorem Wf.mem_take_points (h : m.Wf) {k i : ℕ}
    (hi : i ∈ (points startPage numPages m.freeList).take k) : m.pageBitmap[i]? = some false :=
  h.loose.mem_points_iff.mp (List.mem_of_mem_take hi)

theorem Wf.lt_of_mem_take_points (h : m.Wf) {k i : ℕ}
    (hi : i ∈ (points startPage numPages m.freeList).take k) : i < m.pageBitmap.length :=
  (List.getElem?_eq_some_iff.mp (h.mem_take_points hi)).1

/-- What a successful allocation of `n` pages is: a chain of `n` distinct pages
that were free, whose bits are now set, and a well-formed memory with `n` free
pages fewer. -/
structure Allocates (m : PageMemory) (n : ℕ) (blocks : List ℕ) (m' : PageMemory) : Prop where
  wf : m'.Wf
  length : blocks.length = n
  nodup : blocks.Nodup
  free : ∀ p ∈ blocks, m.pageBitmap[p]? = some false
  bits : ∀ i, m'.pageBitmap[i]? = if i ∈ blocks then some true else m.pageBitmap[i]?
  freePages : m'.getFreePages + n = m.getFreePages

/-- **An allocation that fits takes the lowest free pages.** -/
theorem Wf.allocatePagesLinked_of_le (h : m.Wf) (hpos : 0 < n) (hn : n ≤ m.getFreePages) :
    (m.allocatePagesLinked n).1 = (points startPage numPages m.freeList).take n ∧
      Allocates m n (m.allocatePagesLinked n).1 (m.allocatePagesLinked n).2 := by
  obtain ⟨hblocks, hcount, hbitmap, hcan, hrest⟩ :=
    allocateLoop_spec n m.pageBitmap [] h.canonical (Nat.zero_add n).symm
  rw [h.loose.getFreePages_eq] at hn
  have hlen : ((points startPage numPages m.freeList).take n).length = n := by
    rw [List.length_take]
    omega
  rw [hlen, Nat.zero_add] at hcount
  have halloc : m.allocatePagesLinked n =
      ((points startPage numPages m.freeList).take n,
        (allocateLoop n m.freeList m.pageBitmap [] 0).memory) := by
    rw [allocatePagesLinked, if_neg (by omega)]
    simp only [hcount, if_true, hblocks, List.nil_append]
  have hnd := h.loose.separated.nodup_points
  have hbits : ∀ i, (allocateLoop n m.freeList m.pageBitmap [] 0).memory.pageBitmap[i]? =
      if i ∈ (points startPage numPages m.freeList).take n then some true
      else m.pageBitmap[i]? := fun i => by
    rw [hbitmap, getElem?_markAllocated fun p hp => h.lt_of_mem_take_points hp]
  have hwf : (allocateLoop n m.freeList m.pageBitmap [] 0).memory.Wf := by
    refine ⟨by rw [hbitmap, length_markAllocated, h.length], hcan, fun i => ?_⟩
    rw [← mem_points, hrest, hbits]
    -- what is free afterwards is what was free and not taken
    have hsplit := List.take_append_drop n (points startPage numPages m.freeList)
    have hdisj := List.disjoint_of_nodup_append (hsplit.symm ▸ hnd)
    have hor : i ∈ points startPage numPages m.freeList ↔
        i ∈ (points startPage numPages m.freeList).take n ∨
          i ∈ (points startPage numPages m.freeList).drop n := by
      rw [← List.mem_append, hsplit]
    by_cases hi : i ∈ (points startPage numPages m.freeList).take n
    · simpa [hi] using fun hd => hdisj hi hd
    · rw [if_neg hi, ← h.loose.mem_points_iff, hor]
      simp [hi]
  rw [halloc]
  refine ⟨rfl, hwf, hlen, hnd.sublist (List.take_sublist _ _), fun p hp => h.mem_take_points hp,
    hbits, ?_⟩
  rw [hwf.loose.getFreePages_eq, h.loose.getFreePages_eq, hrest, List.length_drop]
  omega

/-- **An allocation that does not fit has no effect**: the rollback rebuilds the
very free list the walk has emptied. -/
theorem Wf.allocatePagesLinked_of_lt (h : m.Wf) (hn : m.getFreePages < n) :
    m.allocatePagesLinked n = ([], m) := by
  obtain ⟨hblocks, hcount, hbitmap, hcan, hrest⟩ :=
    allocateLoop_spec n m.pageBitmap [] h.canonical (Nat.zero_add n).symm
  rw [h.loose.getFreePages_eq] at hn
  have htake : (points startPage numPages m.freeList).take n =
      points startPage numPages m.freeList := List.take_of_length_le hn.le
  rw [List.drop_of_length_le hn.le] at hrest
  rw [htake] at hblocks hcount hbitmap
  rw [List.nil_append] at hblocks
  have hne : ¬(allocateLoop n m.freeList m.pageBitmap [] 0).pagesAllocated = n := by omega
  rw [allocatePagesLinked, if_neg (by omega)]
  simp only [if_neg hne, hblocks]
  -- the walk has used up the free list
  have hempty : (allocateLoop n m.freeList m.pageBitmap [] 0).memory.freeList = [] := by
    refine hcan.eq_of_covers ext_of_eq canonical_nil fun i => ?_
    rw [← mem_points, ← mem_points, hrest]
    rfl
  have hlt : ∀ p ∈ points startPage numPages m.freeList, p < m.pageBitmap.length := fun p hp =>
    h.lt_of_mem_take_points (htake.symm ▸ hp)
  have hbits : ∀ i, (allocateLoop n m.freeList m.pageBitmap [] 0).memory.pageBitmap[i]? =
      if i ∈ points startPage numPages m.freeList then some true else m.pageBitmap[i]? :=
    fun i => by rw [hbitmap, getElem?_markAllocated hlt]
  have hfull : (allocateLoop n m.freeList m.pageBitmap [] 0).memory.Loose := by
    refine ⟨by rw [hbitmap, length_markAllocated, h.length], hcan.separated, fun i => ?_⟩
    rw [hempty, hbits]
    by_cases hi : m.pageBitmap[i]? = some false <;> simp [h.loose.mem_points_iff, hi]
  by_cases hnil : points startPage numPages m.freeList = []
  · -- there was nothing to take, and nothing is given back
    rw [if_pos hnil]
    refine congrArg (Prod.mk []) ?_
    have hwf : (allocateLoop n m.freeList m.pageBitmap [] 0).memory.Wf :=
      ⟨hfull.length, hcan, hfull.covers_iff⟩
    exact hwf.eq_of_pageBitmap h (by rw [hbitmap, hnil]; rfl)
  · rw [if_neg hnil]
    refine congrArg (Prod.mk []) ?_
    obtain ⟨hwf, hback⟩ := hfull.deallocatePagesLinked h.loose.separated.nodup_points
      fun p hp => by rw [hbits, if_pos hp]
    refine hwf.eq_of_pageBitmap h (List.ext_getElem? fun i => ?_)
    rw [hback, hbits]
    by_cases hi : m.pageBitmap[i]? = some false <;> simp [h.loose.mem_points_iff, hi]

end PageMemory

end PagedCacheServer
