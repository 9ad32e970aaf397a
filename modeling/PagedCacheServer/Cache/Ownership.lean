import Mathlib.Algebra.Order.Floor.Div
import Mathlib.Data.Bool.Count
import PagedCacheServer.Cache.Refine

/-!
# Every page has one owner

The page ownership invariant, read off the invariant of
`PagedCacheServer.Cache.Invariant` in the terms of the data structures
themselves: the bitmap, the blocks of the free list, and the chains of all the
entries taken together. Over every run, each page is in exactly one chain or in
exactly one free block, and the bitmap says which.
-/

namespace PagedCacheServer

namespace PagedCache

/-- The entries of the cache. -/
def residents (s : PagedCache) : List CacheEntry := s.cacheMap.entries.map Sigma.snd

/-- The pages of all chains of all entries. -/
def chainPages (s : PagedCache) : List ℕ := s.residents.flatMap CacheEntry.memoryBlocks

/-- The number of free blocks that cover a page. -/
def coveringBlocks (s : PagedCache) (page : ℕ) : ℕ :=
  s.freeList.countP fun b => b.startPage ≤ page ∧ page < b.startPage + b.numPages

/-- **Who owns which page**, as the bitmap, the free list and the chains say. -/
structure PageOwnership (s : PagedCache) : Prop where
  /-- A chain has as many pages as its entry counts, at least one, and enough for
  the value. -/
  chain : ∀ e ∈ s.residents, e.memoryBlocks.length = e.totalPages ∧ 1 ≤ e.totalPages ∧
    e.value.length ⌈/⌉ pageSize ≤ e.totalPages
  /-- No page occurs twice in the chains. -/
  distinct : s.chainPages.Nodup
  inRange : ∀ p ∈ s.chainPages, p < PagedCacheServer.totalPages
  bitmap : s.pageBitmap.length = PagedCacheServer.totalPages
  allocated : ∀ p, s.pageBitmap[p]? = some true ↔ p ∈ s.chainPages
  covered : ∀ p, s.pageBitmap[p]? = some false → s.coveringBlocks p = 1
  uncovered : ∀ p, s.pageBitmap[p]? = some true → s.coveringBlocks p = 0
  total : s.getFreePages + (s.residents.map CacheEntry.totalPages).sum =
    PagedCacheServer.totalPages

variable {s : PagedCache} {e : CacheEntry}

theorem mem_residents : e ∈ s.residents ↔ ∃ k, s.cacheMap.lookup k = some e := by
  simp only [residents, List.mem_map, Sigma.exists, exists_eq_right]
  exact exists_congr fun k => AList.mem_lookup_iff.symm

/-- The recency list is the resident keys, in another order. -/
theorem Wf.perm_keys (h : s.Wf) : s.lruOrder.Perm s.cacheMap.keys :=
  (List.perm_ext_iff_of_nodup h.lru.nodup s.cacheMap.nodupKeys).mpr fun k => h.lru.mem_iff k

theorem mem_chainPages {p : ℕ} :
    p ∈ s.chainPages ↔ ∃ k e, s.cacheMap.lookup k = some e ∧ p ∈ e.memoryBlocks := by
  simp only [chainPages, List.mem_flatMap, mem_residents]
  constructor
  · rintro ⟨e, ⟨k, hk⟩, hp⟩
    exact ⟨k, e, hk, hp⟩
  · rintro ⟨k, e, hk, hp⟩
    exact ⟨e, ⟨k, hk⟩, hp⟩

/-- Distinct entries have distinct keys, hence disjoint chains. -/
theorem Wf.nodup_chainPages (h : s.Wf) : s.chainPages.Nodup := by
  have hown : ∀ x ∈ s.cacheMap.entries, Owns s.cacheMap none x.1 x.2 := fun x hx =>
    ⟨AList.mem_lookup_iff.mpr hx, by simp⟩
  rw [chainPages, residents, List.flatMap_map, List.nodup_flatMap]
  refine ⟨fun x hx => h.pages.nodup x.1 x.2 (hown x hx), ?_⟩
  have hkeys := List.pairwise_map.mp s.cacheMap.nodupKeys
  refine hkeys.imp_of_mem fun {x y} hx hy hne p hpx hpy => hne ?_
  exact h.pages.disjoint x.1 y.1 x.2 y.2 p (hown x hx) (hown y hy) hpx hpy

theorem Wf.mem_chainPages_iff (h : s.Wf) (p : ℕ) :
    p ∈ s.chainPages ↔ s.pageBitmap[p]? = some true := by
  rw [h.pages.owned_iff, mem_chainPages]
  simp [Owns]

theorem Wf.length_chainPages (h : s.Wf) :
    s.chainPages.length = (s.residents.map CacheEntry.totalPages).sum := by
  rw [chainPages, List.length_flatMap]
  refine congrArg List.sum (List.map_congr_left fun e he => ?_)
  obtain ⟨k, hk⟩ := mem_residents.mp he
  exact (h.pages.entry k e hk).length

/-- The clear bits and the set ones make up the bitmap. -/
theorem Wf.free_add_chainPages (h : s.Wf) :
    s.getFreePages + s.chainPages.length = PagedCacheServer.totalPages := by
  have htrue : s.pageBitmap.count true = s.chainPages.length :=
    PageMemory.count_eq_length true h.nodup_chainPages h.mem_chainPages_iff
  rw [← h.pages.memory.length, ← htrue, PageMemory.getFreePages]
  exact List.count_add_count_not s.pageBitmap false

theorem Wf.pageOwnership (h : s.Wf) : s.PageOwnership where
  chain e he := by
    obtain ⟨k, hk⟩ := mem_residents.mp he
    have hok := h.pages.entry k e hk
    refine ⟨hok.length, hok.pos, ?_⟩
    rw [Nat.ceilDiv_eq_add_pred_div]
    exact hok.fits
  distinct := h.nodup_chainPages
  inRange p hp := by
    obtain ⟨hlt, -⟩ := List.getElem?_eq_some_iff.mp ((h.mem_chainPages_iff p).mp hp)
    exact h.pages.memory.length ▸ hlt
  bitmap := h.pages.memory.length
  allocated p := (h.mem_chainPages_iff p).symm
  covered p hp :=
    h.pages.memory.canonical.separated.countP_eq_one ((h.pages.memory.covers_iff p).mpr hp)
  uncovered p hp := by
    refine List.countP_eq_zero.mpr fun b hb hcov => ?_
    have hfalse := (h.pages.memory.covers_iff p).mp ⟨b, hb, by simpa using hcov⟩
    rw [hp] at hfalse
    simp at hfalse
  total := by rw [← h.length_chainPages, h.free_add_chainPages]

/-- **Page ownership over whole runs.** Whatever the calls and their results, each
page belongs to one chain or to one free block. -/
theorem pageOwnership_after (calls : List Call) :
    (StepMachine.after PagedCache.step fresh calls).PageOwnership :=
  (wf_after calls).pageOwnership

end PagedCache

end PagedCacheServer
