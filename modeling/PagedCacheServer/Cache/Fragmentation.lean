import Mathlib.Data.Set.Card
import PagedCacheServer.Cache.Ownership

/-!
# The free list is the run decomposition of the bitmap

Over every run the free list is canonical: its blocks are the maximal runs of
free pages, in increasing order. The statistics `get_fragmentation_stats` reads
off the list are therefore statistics of the bitmap, and a cache without entries
has one free block again, whatever happened before.
-/

namespace PagedCacheServer

open FreeBlock Spans

namespace PageMemory

/-- The page is free, as the bitmap says. -/
def IsFree (m : PageMemory) (page : ℕ) : Prop := m.pageBitmap[page]? = some false

/-- The maximal runs of free pages: where they start, and how long they are. -/
def freeRuns (m : PageMemory) : Set (ℕ × ℕ) := {r | IsMaxRun m.IsFree r.1 r.2}

/-- **The free list describes the free pages of the bitmap, run by run.** -/
structure RunDecomposition (m : PageMemory) : Prop where
  nonempty : ∀ b ∈ m.freeList, 0 < b.numPages
  increasing : m.freeList.Pairwise fun a b => a.startPage < b.startPage
  apart : m.freeList.Pairwise fun a b => a.startPage + a.numPages < b.startPage
  covers : ∀ p, (∃ b ∈ m.freeList, b.startPage ≤ p ∧ p < b.startPage + b.numPages) ↔ m.IsFree p
  blocksCount : m.getFragmentationStats.freeBlocksCount = m.freeRuns.ncard
  largest : IsGreatest (insert 0 (Set.image Prod.snd m.freeRuns))
    m.getFragmentationStats.largestFreeBlock
  totalFree : m.getFragmentationStats.totalFreePages = m.getFreePages

/-! ### The statistics -/

/-- The fold of `get_fragmentation_stats`, component by component. -/
theorem foldl_stats (l : List FreeBlock) (st : FragmentationStats) :
    l.foldl (fun stats current => ⟨stats.freeBlocksCount + 1,
        max stats.largestFreeBlock current.numPages, stats.totalFreePages + current.numPages⟩) st =
      ⟨st.freeBlocksCount + l.length, (l.map numPages).foldl max st.largestFreeBlock,
        st.totalFreePages + (l.map numPages).sum⟩ := by
  induction l generalizing st with
  | nil => rfl
  | cons b l ih =>
    rw [List.foldl_cons, ih]
    simp only [List.length_cons, List.map_cons, List.foldl_cons, List.sum_cons,
      FragmentationStats.mk.injEq, true_and]
    omega

theorem getFragmentationStats_eq (m : PageMemory) :
    m.getFragmentationStats = ⟨m.freeList.length, (m.freeList.map numPages).foldl max 0,
      (m.freeList.map numPages).sum⟩ := by
  rw [getFragmentationStats, foldl_stats]
  simp

/-- The maximum of a fold is its start or a member, and bounds them all. -/
theorem isGreatest_foldl_max (l : List ℕ) (a : ℕ) :
    IsGreatest (insert a {x | x ∈ l}) (l.foldl max a) := by
  induction l generalizing a with
  | nil => simp [IsGreatest, upperBounds]
  | cons b l ih =>
    obtain ⟨hmem, hle⟩ := ih (max a b)
    rw [List.foldl_cons]
    refine ⟨?_, fun x hx => ?_⟩
    · rcases hmem with hmax | hmem
      · rw [hmax]
        rcases max_choice a b with h | h <;> simp [h]
      · exact Or.inr (List.mem_cons_of_mem _ hmem)
    · rcases hx with rfl | hx
      · exact (le_max_left x b).trans (hle (Or.inl rfl))
      · rcases List.mem_cons.mp hx with rfl | hx
        · exact (le_max_right a x).trans (hle (Or.inl rfl))
        · exact hle (Or.inr hx)

variable {m : PageMemory}

theorem Wf.isFree_eq (h : m.Wf) : m.IsFree = Covers startPage numPages m.freeList := by
  funext p
  exact propext (h.covers_iff p).symm

theorem Wf.mem_freeRuns (h : m.Wf) {r : ℕ × ℕ} :
    r ∈ m.freeRuns ↔ ∃ b ∈ m.freeList, b.startPage = r.1 ∧ b.numPages = r.2 := by
  rw [freeRuns, Set.mem_ofPred_eq, h.isFree_eq]
  exact h.canonical.isMaxRun_iff

theorem Wf.runDecomposition (h : m.Wf) : m.RunDecomposition where
  nonempty := h.canonical.pos
  increasing := h.canonical.apart.imp fun {a b} hab => by omega
  apart := h.canonical.apart
  covers := h.covers_iff
  blocksCount := by
    rw [getFragmentationStats_eq, freeRuns, h.isFree_eq]
    exact h.canonical.ncard_isMaxRun.symm
  largest := by
    have hset : Set.image Prod.snd m.freeRuns = {x | x ∈ m.freeList.map numPages} := by
      ext n
      simp only [Set.mem_image, Prod.exists, exists_eq_right, Set.mem_ofPred_eq, List.mem_map]
      constructor
      · rintro ⟨a, hr⟩
        obtain ⟨b, hb, -, hn⟩ := h.mem_freeRuns.mp hr
        exact ⟨b, hb, hn⟩
      · rintro ⟨b, hb, hn⟩
        exact ⟨b.startPage, h.mem_freeRuns.mpr ⟨b, hb, rfl, hn⟩⟩
    rw [hset, getFragmentationStats_eq]
    exact isGreatest_foldl_max _ 0
  totalFree := by
    rw [getFragmentationStats_eq, h.loose.getFreePages_eq, length_points]

end PageMemory

namespace PagedCache

variable {s : PagedCache}

/-- With no entry left nothing is allocated, and one block is free. -/
theorem Wf.freeList_of_empty (h : s.Wf) (hempty : s.cacheMap.entries = []) :
    s.freeList = [⟨0, PagedCacheServer.totalPages⟩] := by
  have hnone : ∀ b ∈ s.pageBitmap, b = false := by
    intro b hb
    obtain ⟨p, hp⟩ := List.mem_iff_getElem?.mp hb
    rcases b with _ | _
    · rfl
    · have hmem := (h.mem_chainPages_iff p).mpr hp
      simp [chainPages, residents, hempty] at hmem
  have hbitmap : s.pageBitmap = List.replicate PagedCacheServer.totalPages false :=
    List.eq_replicate_iff.mpr ⟨h.pages.memory.length, hnone⟩
  exact congrArg PageMemory.freeList
    (h.pages.memory.eq_of_pageBitmap PageMemory.wf_replicate hbitmap)

/-- **The free list is canonical over whole runs**, and is the single block of a
fresh cache whenever no entry is left. -/
theorem runDecomposition_after (calls : List Call) :
    let s := StepMachine.after PagedCache.step fresh calls
    s.toPageMemory.RunDecomposition ∧
      (s.residents = [] → s.freeList = [⟨0, PagedCacheServer.totalPages⟩]) := by
  intro s
  have h : s.Wf := wf_after calls
  refine ⟨h.pages.memory.runDecomposition, fun hnil => h.freeList_of_empty ?_⟩
  exact List.map_eq_nil_iff.mp hnil

end PagedCache

end PagedCacheServer
