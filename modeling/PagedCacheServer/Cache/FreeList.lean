import PagedCacheServer.Cache.Defs
import PagedCacheServer.Library.Spans

/-!
# The free list

What the three functions that give pages back do to the free list, in the terms
of `Spans`: `add_to_free_list` inserts a block into a separated list and leaves a
separated list, and `coalesce_free_blocks` turns a separated list into a
canonical one that covers the same pages. A chain of pages can therefore be
returned page by page, in any order, without ever looking at what touches what:
the one pass at the end of `deallocate_pages_linked` finds every pair of blocks
that have become adjacent, because a block that has just swallowed its neighbour
is compared again with the next one.

The bitmap and the free list agree when the list covers exactly the pages whose
bit is clear. `PagedCacheServer.PageMemory.Loose` is that agreement with a
separated list – the state in the middle of a deallocation – and
`PagedCacheServer.PageMemory.Wf` with a canonical one, which is what holds
between operations.
-/

namespace PagedCacheServer

namespace FreeBlock

theorem ext_of_eq (a b : FreeBlock) (h₁ : a.startPage = b.startPage)
    (h₂ : a.numPages = b.numPages) : a = b := by
  cases a
  cases b
  simp_all

end FreeBlock

open FreeBlock Spans

namespace PageMemory

/-! ### Inserting a block -/

section Insert

variable {new current c : FreeBlock} {rest : List FreeBlock} {i : ℕ}

theorem mem_insertAfter :
    c ∈ insertAfter new current rest ↔ c = new ∨ c ∈ current :: rest := by
  induction rest generalizing current with
  | nil => simp [insertAfter, or_comm]
  | cons next rest ih =>
    rw [insertAfter]
    split
    · rw [List.mem_cons, ih, List.mem_cons (a := c) (b := current)]
      tauto
    · simp only [List.mem_cons]
      tauto

theorem covers_insertAfter :
    Covers startPage numPages (insertAfter new current rest) i ↔
      (new.startPage ≤ i ∧ i < new.startPage + new.numPages) ∨
        Covers startPage numPages (current :: rest) i := by
  simp only [Covers, mem_insertAfter, or_and_right, exists_or, exists_eq_left]

/-- Two blocks do not overlap. -/
def Disjoint (a b : FreeBlock) : Prop :=
  a.startPage + a.numPages ≤ b.startPage ∨ b.startPage + b.numPages ≤ a.startPage

/-- The walk past the blocks that start lower ends at the place of the new
block. -/
theorem separated_insertAfter (h : Separated startPage numPages (current :: rest))
    (hnew : 0 < new.numPages) (hdisj : ∀ b ∈ current :: rest, Disjoint new b)
    (hle : current.startPage ≤ new.startPage) :
    Separated startPage numPages (insertAfter new current rest) := by
  have hcur : current.startPage + current.numPages ≤ new.startPage := by
    have := h.pos current (by simp)
    rcases hdisj current (by simp) with h' | h' <;> omega
  induction rest generalizing current with
  | nil =>
    have := h.pos current (by simp)
    simp [insertAfter, separated_cons, separated_nil, *]
  | cons next rest ih =>
    obtain ⟨hc, hcr, hr⟩ := separated_cons.mp h
    obtain ⟨hn, hnr, -⟩ := separated_cons.mp hr
    have hdisj' : ∀ b ∈ next :: rest, Disjoint new b := fun b hb =>
      hdisj b (List.mem_cons_of_mem _ hb)
    rw [insertAfter]
    split
    case isTrue hlt =>
      have hnext : next.startPage + next.numPages ≤ new.startPage := by
        rcases hdisj' next (by simp) with h' | h' <;> omega
      refine separated_cons.mpr ⟨hc, fun c hcm => ?_, ih hr hdisj' hlt.le hnext⟩
      rcases mem_insertAfter.mp hcm with rfl | hcm
      · exact hcur
      · exact hcr c hcm
    case isFalse hge =>
      have hend : new.startPage + new.numPages ≤ next.startPage := by
        rcases hdisj' next (by simp) with h' | h' <;> omega
      refine separated_cons.mpr ⟨hc, fun c hcm => ?_,
        separated_cons.mpr ⟨hnew, fun c hcm => ?_, hr⟩⟩
      · rcases List.mem_cons.mp hcm with rfl | hcm
        · exact hcur
        · exact hcr c hcm
      · rcases List.mem_cons.mp hcm with rfl | hcm
        · exact hend
        · have := hnr c hcm
          omega

end Insert

variable {m : PageMemory} {i start n : ℕ}

@[simp] theorem addToFreeList_pageBitmap :
    (m.addToFreeList start n).pageBitmap = m.pageBitmap := by
  rw [addToFreeList]
  split
  · rfl
  · split <;> rfl

theorem covers_addToFreeList :
    Covers startPage numPages (m.addToFreeList start n).freeList i ↔
      (start ≤ i ∧ i < start + n) ∨ Covers startPage numPages m.freeList i := by
  rw [addToFreeList]
  split
  case h_1 hnil => simp [hnil]
  case h_2 head rest hcons =>
    rw [hcons]
    split
    · simp
    · exact covers_insertAfter

/-- **A block of pages nobody covers is inserted in its place.** -/
theorem separated_addToFreeList (h : Separated startPage numPages m.freeList) (hn : 0 < n)
    (hnew : ∀ i, start ≤ i → i < start + n → ¬Covers startPage numPages m.freeList i) :
    Separated startPage numPages (m.addToFreeList start n).freeList := by
  have hdisj : ∀ b ∈ m.freeList, Disjoint ⟨start, n⟩ b := by
    intro b hb
    have hpos := h.pos b hb
    by_contra hcon
    simp only [Disjoint, not_or, not_le] at hcon
    -- the later of the two starts lies in both blocks
    refine hnew (max start b.startPage) (by omega) (by omega) ⟨b, hb, by omega, by omega⟩
  rw [addToFreeList]
  split
  case h_1 hnil => exact separated_cons.mpr ⟨hn, by simp, separated_nil⟩
  case h_2 head rest hcons =>
    rw [hcons] at h hdisj
    split
    case isTrue hlt =>
      refine separated_cons.mpr ⟨hn, fun c hc => ?_, h⟩
      have hhead : start + n ≤ head.startPage := by
        rcases hdisj head (by simp) with h' | h' <;> simp only at h' <;> omega
      rcases List.mem_cons.mp hc with rfl | hc
      · exact hhead
      · have := (separated_cons.mp h).2.1 c hc
        show start + n ≤ c.startPage
        omega
    case isFalse hge =>
      exact separated_insertAfter h hn hdisj (by simpa using hge)

/-! ### Merging adjacent blocks -/

section Coalesce

variable {current c : FreeBlock} {rest : List FreeBlock}

theorem covers_coalesceFrom :
    Covers startPage numPages (coalesceFrom current rest) i ↔
      Covers startPage numPages (current :: rest) i := by
  induction rest generalizing current with
  | nil => rfl
  | cons next rest ih =>
    rw [coalesceFrom]
    split
    case isTrue htouch =>
      rw [ih]
      simp only [covers_cons, ← or_assoc]
      refine or_congr_left ?_
      omega
    case isFalse =>
      rw [covers_cons, ih]
      exact covers_cons.symm

/-- A block that swallows the one it touches stays separated from the rest. -/
theorem separated_merge {next : FreeBlock}
    (h : Separated startPage numPages (current :: next :: rest))
    (htouch : current.startPage + current.numPages = next.startPage) :
    Separated startPage numPages
      (⟨current.startPage, current.numPages + next.numPages⟩ :: rest) := by
  obtain ⟨hpos, -, hr⟩ := separated_cons.mp h
  obtain ⟨-, hnr, hr'⟩ := separated_cons.mp hr
  refine separated_cons.mpr ⟨by simp only; omega, fun d hd => ?_, hr'⟩
  have := hnr d hd
  simp only
  omega

/-- Merging never moves the start of the first block. -/
theorem startPage_le_of_mem_coalesceFrom (h : Separated startPage numPages (current :: rest))
    (hc : c ∈ coalesceFrom current rest) : current.startPage ≤ c.startPage := by
  induction rest generalizing current with
  | nil =>
    rw [coalesceFrom, List.mem_singleton] at hc
    rw [hc]
  | cons next rest ih =>
    obtain ⟨-, hcr, hr⟩ := separated_cons.mp h
    have hnext := hcr next (by simp)
    rw [coalesceFrom] at hc
    split at hc
    case isTrue htouch =>
      have hle := ih (separated_merge h htouch) hc
      exact hle
    case isFalse =>
      rcases List.mem_cons.mp hc with rfl | hc
      · exact le_rfl
      · have := ih hr hc
        omega

/-- **One pass is enough**: what `coalesce_free_blocks` leaves has no two
adjacent blocks, however long the runs of adjacent blocks were. -/
theorem canonical_coalesceFrom (h : Separated startPage numPages (current :: rest)) :
    Canonical startPage numPages (coalesceFrom current rest) := by
  induction rest generalizing current with
  | nil =>
    have := h.pos current (by simp)
    exact canonical_cons.mpr ⟨this, by simp, canonical_nil⟩
  | cons next rest ih =>
    obtain ⟨hpos, hcr, hr⟩ := separated_cons.mp h
    have hnext := hcr next (by simp)
    rw [coalesceFrom]
    split
    case isTrue htouch =>
      -- the merged block takes the place of both, and is compared again
      exact ih (separated_merge h htouch)
    case isFalse hapart =>
      refine canonical_cons.mpr ⟨hpos, fun c hc => ?_, ih hr⟩
      have := startPage_le_of_mem_coalesceFrom hr hc
      omega

end Coalesce

@[simp] theorem coalesceFreeBlocks_pageBitmap :
    m.coalesceFreeBlocks.pageBitmap = m.pageBitmap := by
  rw [coalesceFreeBlocks]
  split <;> rfl

theorem covers_coalesceFreeBlocks :
    Covers startPage numPages m.coalesceFreeBlocks.freeList i ↔
      Covers startPage numPages m.freeList i := by
  rw [coalesceFreeBlocks]
  split
  case h_1 => rfl
  case h_2 head rest hcons =>
    rw [hcons]
    exact covers_coalesceFrom

theorem canonical_coalesceFreeBlocks (h : Separated startPage numPages m.freeList) :
    Canonical startPage numPages m.coalesceFreeBlocks.freeList := by
  rw [coalesceFreeBlocks]
  split
  case h_1 hnil =>
    rw [hnil]
    exact canonical_nil
  case h_2 head rest hcons =>
    rw [hcons] at h
    exact canonical_coalesceFrom h

/-! ### Returning a chain -/

/-- The bitmap and the free list agree, the list being separated. -/
structure Loose (m : PageMemory) : Prop where
  length : m.pageBitmap.length = totalPages
  separated : Separated startPage numPages m.freeList
  covers_iff : ∀ i, Covers startPage numPages m.freeList i ↔ m.pageBitmap[i]? = some false

/-- **The memory is well formed**: the free list is the canonical description of
the pages whose bit is clear. -/
structure Wf (m : PageMemory) : Prop where
  length : m.pageBitmap.length = totalPages
  canonical : Canonical startPage numPages m.freeList
  covers_iff : ∀ i, Covers startPage numPages m.freeList i ↔ m.pageBitmap[i]? = some false

theorem Wf.loose (h : m.Wf) : m.Loose := ⟨h.length, h.canonical.separated, h.covers_iff⟩

/-- A well-formed memory is determined by its bitmap. -/
theorem Wf.eq_of_pageBitmap {m' : PageMemory} (h : m.Wf) (h' : m'.Wf)
    (hb : m.pageBitmap = m'.pageBitmap) : m = m' := by
  have hl : m.freeList = m'.freeList :=
    h.canonical.eq_of_covers ext_of_eq h'.canonical fun i => by
      rw [h.covers_iff, h'.covers_iff, hb]
  cases m
  cases m'
  simp_all

/-- The memory of a fresh cache: nothing is allocated, and the free list is one
block. -/
theorem wf_replicate : PageMemory.Wf ⟨List.replicate totalPages false, [⟨0, totalPages⟩]⟩ where
  length := List.length_replicate
  canonical := canonical_cons.mpr ⟨by decide, by simp, canonical_nil⟩
  covers_iff i := by
    rw [List.getElem?_replicate]
    by_cases hi : i < totalPages <;> simp [hi]

theorem Loose.wf_coalesceFreeBlocks (h : m.Loose) : m.coalesceFreeBlocks.Wf where
  length := by simpa using h.length
  canonical := canonical_coalesceFreeBlocks h.separated
  covers_iff i := by rw [covers_coalesceFreeBlocks, coalesceFreeBlocks_pageBitmap, h.covers_iff]

theorem freePage_pageBitmap (page : ℕ) :
    (m.freePage page).pageBitmap = m.pageBitmap.set page false := by
  rw [freePage, addToFreeList_pageBitmap]

theorem Loose.freePage {page : ℕ} (h : m.Loose) (hp : m.pageBitmap[page]? = some true) :
    (m.freePage page).Loose where
  length := by simpa [freePage_pageBitmap] using h.length
  separated := by
    refine separated_addToFreeList h.separated (by omega) fun i h₁ h₂ hc => ?_
    obtain rfl : i = page := by omega
    have := (h.covers_iff i).mp hc
    simp [hp] at this
  covers_iff i := by
    obtain ⟨hlt, -⟩ := List.getElem?_eq_some_iff.mp hp
    rw [freePage_pageBitmap, PageMemory.freePage, covers_addToFreeList, List.getElem?_set]
    rw [show (({ m with pageBitmap := m.pageBitmap.set page false } : PageMemory).freeList) =
      m.freeList from rfl, h.covers_iff]
    by_cases hi : page = i
    · subst hi
      simp [hlt]
    · rw [if_neg hi, or_iff_right (by omega)]

/-- What returning the pages of a chain one by one does. -/
theorem Loose.foldl_freePage {blocks : List ℕ} (h : m.Loose) (hnd : blocks.Nodup)
    (hb : ∀ p ∈ blocks, m.pageBitmap[p]? = some true) :
    (blocks.foldl PageMemory.freePage m).Loose ∧
      ∀ i, (blocks.foldl PageMemory.freePage m).pageBitmap[i]? =
        if i ∈ blocks then some false else m.pageBitmap[i]? := by
  induction blocks generalizing m with
  | nil => exact ⟨h, by simp⟩
  | cons p blocks ih =>
    obtain ⟨hp, hnd'⟩ := List.nodup_cons.mp hnd
    have hset : ∀ i, (m.freePage p).pageBitmap[i]? =
        if i = p then some false else m.pageBitmap[i]? := by
      intro i
      obtain ⟨hlt, -⟩ := List.getElem?_eq_some_iff.mp (hb p (by simp))
      rw [freePage_pageBitmap, List.getElem?_set]
      rcases eq_or_ne i p with rfl | hne
      · simp [hlt]
      · simp [hne, hne.symm]
    have hb' : ∀ q ∈ blocks, (m.freePage p).pageBitmap[q]? = some true := by
      intro q hq
      have hne : q ≠ p := fun he => hp (he ▸ hq)
      rw [hset, if_neg hne]
      exact hb q (by simp [hq])
    obtain ⟨hloose, hbits⟩ := ih (h.freePage (hb p (by simp))) hnd' hb'
    refine ⟨hloose, fun i => ?_⟩
    rw [List.foldl_cons, hbits, hset]
    by_cases hi : i ∈ blocks
    · simp [hi]
    · by_cases hip : i = p <;> simp [hi, hip]

/-- **Returning a chain of allocated pages** clears exactly their bits and
leaves a well-formed memory, whatever the order of the chain. -/
theorem Loose.deallocatePagesLinked {blocks : List ℕ} (h : m.Loose) (hnd : blocks.Nodup)
    (hb : ∀ p ∈ blocks, m.pageBitmap[p]? = some true) :
    (m.deallocatePagesLinked blocks).Wf ∧
      ∀ i, (m.deallocatePagesLinked blocks).pageBitmap[i]? =
        if i ∈ blocks then some false else m.pageBitmap[i]? := by
  obtain ⟨hloose, hbits⟩ := h.foldl_freePage hnd hb
  refine ⟨hloose.wf_coalesceFreeBlocks, fun i => ?_⟩
  rw [PageMemory.deallocatePagesLinked, coalesceFreeBlocks_pageBitmap, hbits]

end PageMemory

end PagedCacheServer
