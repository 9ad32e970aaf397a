import PagedCacheServer.Library.StepMachine
import PagedCacheServer.Cache.PointerPages

/-!
# Sessions of the page allocator

Below the four operations of the cache, `cache.cpp` has an allocator with two ways to ask
for pages: a chain of single pages, wherever they are free, and a range of consecutive
ones. Both work on the same free list and the same bitmap, and nothing keeps them from
being mixed.

A session is any sequence of such requests, with the two functions that only look at the
free list in between. It is run on the nodes and on lists, the chains that were handed
out being kept by their number. The runs agree
(`PagedCacheServer.Pointer.session_run`): the second one is what the rest of the
development reasons about, the first one is the program.
-/

namespace PagedCacheServer

namespace Pointer

open Nodes

/-- A request to the allocator. -/
inductive Order
  /-- `allocate_pages_linked`. -/
  | takeChain (numPages : ℕ)
  /-- `deallocate_pages_linked`, of the chain that was handed out as the `i`-th. -/
  | giveChain (i : ℕ)
  /-- `allocate_pages`. -/
  | takeRange (startPage numPages : ℕ)
  /-- `deallocate_pages`. -/
  | giveRange (startPage numPages : ℕ)
  /-- `find_contiguous_pages`. -/
  | findRange (numPages : ℕ)
  /-- `get_fragmentation_stats` and `get_free_pages`. -/
  | stats
deriving DecidableEq, Repr

/-- What a request is answered. -/
inductive Answer
  | done
  | chain (isNull : Bool)
  | range (startPage : Option ℕ)
  | stats (freePages : ℕ) (fragmentation : PagedCacheServer.PageMemory.FragmentationStats)
deriving DecidableEq, Repr

/-- The pages and the chains handed out so far, on lists. -/
structure Session where
  pages : PagedCacheServer.PageMemory
  chains : List (List ℕ)

/-- One request, on lists. -/
def Session.step (s : Session) : Order → Answer × Session
  | .takeChain numPages =>
    let r := s.pages.allocatePagesLinked numPages
    (.chain (r.1 = []), ⟨r.2, s.chains ++ [r.1]⟩)
  | .giveChain i =>
    (.done, { s with pages := s.pages.deallocatePagesLinked (s.chains[i]?.getD []) })
  | .takeRange startPage numPages =>
    (.done, { s with pages := s.pages.allocatePages startPage numPages })
  | .giveRange startPage numPages =>
    (.done, { s with pages := s.pages.deallocatePages startPage numPages })
  | .findRange numPages => (.range (s.pages.findContiguousPages numPages), s)
  | .stats => (.stats s.pages.getFreePages s.pages.getFragmentationStats, s)

/-- The pages and the chains handed out so far, on nodes. -/
structure NodeSession where
  pages : PageMemory
  chains : List (Option ℕ)

/-- One request, on nodes. -/
def NodeSession.step (s : NodeSession) : Order → Option (Answer × NodeSession)
  | .takeChain numPages => do
    let (blocks, m) ← s.pages.allocatePagesLinked numPages
    some (.chain blocks.isNone, ⟨m, s.chains ++ [blocks]⟩)
  | .giveChain i => do
    let m ← s.pages.deallocatePagesLinked (s.chains[i]?.getD none)
    some (.done, { s with pages := m })
  | .takeRange startPage numPages => do
    let m ← s.pages.allocatePages startPage numPages
    some (.done, { s with pages := m })
  | .giveRange startPage numPages => do
    let m ← s.pages.deallocatePages startPage numPages
    some (.done, { s with pages := m })
  | .findRange numPages => do
    let h := s.pages.freeBlocks
    let found ← PageMemory.findContiguousPages numPages h (h.size + 1) s.pages.freeListHead
    some (.range found, s)
  | .stats => do
    let h := s.pages.freeBlocks
    let stats ← PageMemory.statsLoop h (h.size + 1) ⟨0, 0, 0⟩ s.pages.freeListHead
    some (.stats (s.pages.pageBitmap.count false) stats, s)

/-- The range a request names lies within the cache. -/
def Order.InRange : Order → Prop
  | .takeRange startPage numPages | .giveRange startPage numPages =>
    startPage + numPages ≤ PagedCacheServer.totalPages
  | _ => True

/-! ### Looking at the free list -/

section Looking

variable {h : Heap FreeBlock} {q : Option ℕ} {cells : List (ℕ × FreeBlock)} {fuel : ℕ}

theorem findContiguousPages_of_chain (n : ℕ) (hc : Chain h q cells) (hfuel : cells.length < fuel) :
    PageMemory.findContiguousPages n h fuel q =
      some (((values cells).find? fun b => b.numPages ≥ n).map FreeBlock.startPage) := by
  induction cells generalizing q fuel with
  | nil =>
    obtain ⟨fuel, rfl⟩ : ∃ k, fuel = k + 1 := ⟨fuel - 1, by omega⟩
    obtain rfl : q = none := hc
    rfl
  | cons c cells ih =>
    obtain ⟨fuel, rfl⟩ : ∃ k, fuel = k + 1 := ⟨fuel - 1, by omega⟩
    obtain ⟨rfl, next, hread, hrest⟩ := hc
    simp only [PageMemory.findContiguousPages, hread, Option.bind_eq_bind, Option.bind_some]
    split
    case isTrue hn => rw [values, List.map_cons, List.find?_cons_of_pos (by simpa using hn)]; rfl
    case isFalse hn =>
      rw [values, List.map_cons, List.find?_cons_of_neg (by simpa using hn)]
      exact ih hrest (by simpa using hfuel)

theorem statsLoop_of_chain (stats : PagedCacheServer.PageMemory.FragmentationStats)
    (hc : Chain h q cells) (hfuel : cells.length < fuel) :
    PageMemory.statsLoop h fuel stats q =
      some ((values cells).foldl
        (fun stats current => ⟨stats.freeBlocksCount + 1,
          max stats.largestFreeBlock current.numPages, stats.totalFreePages + current.numPages⟩)
        stats) := by
  induction cells generalizing q fuel stats with
  | nil =>
    obtain ⟨fuel, rfl⟩ : ∃ k, fuel = k + 1 := ⟨fuel - 1, by omega⟩
    obtain rfl : q = none := hc
    rfl
  | cons c cells ih =>
    obtain ⟨fuel, rfl⟩ : ∃ k, fuel = k + 1 := ⟨fuel - 1, by omega⟩
    obtain ⟨rfl, next, hread, hrest⟩ := hc
    simp only [PageMemory.statsLoop, hread, Option.bind_eq_bind, Option.bind_some, values,
      List.map_cons, List.foldl_cons]
    exact ih _ hrest (by simpa using hfuel)

end Looking

/-! ### Sessions agree -/

theorem getD_append_singleton {α : Type*} (l : List α) (a d : α) (i : ℕ) :
    (l ++ [a])[i]?.getD d = if i = l.length then a else l[i]?.getD d := by
  rcases lt_trichotomy i l.length with hlt | rfl | hgt
  · rw [List.getElem?_append_left hlt, if_neg hlt.ne]
  · simp
  · rw [List.getElem?_eq_none (by simpa using hgt), if_neg hgt.ne',
      List.getElem?_eq_none hgt.le]

/-- A session on nodes stands for one on lists. -/
structure Agrees (s' : NodeSession) (s : Session) : Prop where
  pages : Represents s'.pages s.pages
  length : s.pages.pageBitmap.length = PagedCacheServer.totalPages
  count : s'.chains.length = s.chains.length
  chains : ∀ i : ℕ, PointsTo s'.pages.memoryBlocks (s'.chains[i]?.getD none) (s.chains[i]?.getD [])
  inRange : ∀ i : ℕ, ∀ page ∈ s.chains[i]?.getD [], page < PagedCacheServer.totalPages

namespace Agrees

variable {s' : NodeSession} {s : Session}

/-- New pages under the same chains. -/
theorem setPages {p : PageMemory} {m : PagedCacheServer.PageMemory} (hs : Agrees s' s)
    (hp : Represents p m) (hmem : p.memoryBlocks = s'.pages.memoryBlocks)
    (hlen : m.pageBitmap.length = s.pages.pageBitmap.length) :
    Agrees { s' with pages := p } { s with pages := m } where
  pages := hp
  length := hlen.trans hs.length
  count := hs.count
  chains i := by
    rw [hmem]
    exact hs.chains i
  inRange := hs.inRange

theorem takeChain (hs : Agrees s' s) (n : ℕ) :
    ∃ t', s'.step (.takeChain n) = some ((s.step (.takeChain n)).1, t') ∧
      Agrees t' (s.step (.takeChain n)).2 := by
  obtain ⟨q, p, halloc, hp, hq, hf, hrange⟩ := hs.pages.allocatePagesLinked n
  have hnull : q.isNone = decide ((s.pages.allocatePagesLinked n).1 = []) := by
    rw [← decide_eq_decide.mpr hq.eq_none_iff]
    cases q <;> rfl
  refine ⟨⟨p, s'.chains ++ [q]⟩, ?_, hp, ?_, ?_, ?_, ?_⟩
  · simp only [NodeSession.step, halloc, Option.bind_eq_bind, Option.bind_some, hnull,
      Session.step]
  · exact (length_allocatePagesLinked _ _).trans hs.length
  · simp [Session.step, hs.count]
  · intro i
    simp only [Session.step, getD_append_singleton, hs.count]
    split
    · exact hq
    · exact (hs.chains i).frame hf
  · intro i page hpage
    simp only [Session.step, getD_append_singleton] at hpage
    split at hpage
    · exact (hrange page hpage).trans_eq hs.length
    · exact hs.inRange i page hpage

/-- **One request**, on nodes and on lists. -/
theorem step (hs : Agrees s' s) (order : Order) (horder : order.InRange) :
    ∃ t', s'.step order = some ((s.step order).1, t') ∧ Agrees t' (s.step order).2 := by
  obtain ⟨cells, hc, hvalues⟩ := hs.pages.freeList
  have hfuel : cells.length < s'.pages.freeBlocks.size + 1 := Nat.lt_succ_of_le hc.length_le
  cases order with
  | takeChain n => exact hs.takeChain n
  | giveChain i =>
    obtain ⟨p, hfree, hp, hmem⟩ := hs.pages.deallocatePagesLinked (hs.chains i)
      (by rw [hs.length]; exact hs.inRange i)
    refine ⟨_, ?_, hs.setPages hp hmem (length_deallocatePagesLinked _ _)⟩
    simp only [NodeSession.step, hfree, Option.bind_eq_bind, Option.bind_some, Session.step]
  | takeRange startPage n =>
    obtain ⟨p, htake, hp, hmem⟩ := hs.pages.allocatePages (horder.trans_eq hs.length.symm)
    refine ⟨_, ?_, hs.setPages hp hmem ?_⟩
    · simp only [NodeSession.step, htake, Option.bind_eq_bind, Option.bind_some, Session.step]
    · exact PagedCacheServer.PageMemory.length_markAllocated _ _
  | giveRange startPage n =>
    obtain ⟨p, hgive, hp, hmem⟩ := hs.pages.deallocatePages (horder.trans_eq hs.length.symm)
    refine ⟨_, ?_, hs.setPages hp hmem ?_⟩
    · simp only [NodeSession.step, hgive, Option.bind_eq_bind, Option.bind_some, Session.step]
    · rw [PagedCacheServer.PageMemory.deallocatePages,
        PagedCacheServer.PageMemory.coalesceFreeBlocks_pageBitmap,
        PagedCacheServer.PageMemory.addToFreeList_pageBitmap]
      exact PagedCacheServer.PageMemory.length_foldl_set false _ _
  | findRange n =>
    refine ⟨s', ?_, hs⟩
    simp only [NodeSession.step, findContiguousPages_of_chain n hc hfuel, hvalues,
      Option.bind_eq_bind, Option.bind_some, Session.step,
      PagedCacheServer.PageMemory.findContiguousPages]
  | stats =>
    refine ⟨s', ?_, hs⟩
    simp only [NodeSession.step, statsLoop_of_chain _ hc hfuel, hvalues, Option.bind_eq_bind,
      Option.bind_some, Session.step, PagedCacheServer.PageMemory.getFragmentationStats,
      PagedCacheServer.PageMemory.getFreePages, hs.pages.pageBitmap]

end Agrees

/-- **Every session on nodes runs as it does on lists**: as long as the ranges it names
lie within the cache, no null pointer is followed and every loop ends, and each request
is answered alike. -/
theorem session_run (orders : List Order) (horders : ∀ order ∈ orders, order.InRange) :
    ∃ s', StepMachine.run NodeSession.step ⟨PagedCache.fresh.toPageMemory, []⟩ orders =
        some (StepMachine.history Session.step
          ⟨PagedCacheServer.PagedCache.fresh.toPageMemory, []⟩ orders, s') ∧
      Agrees s' (StepMachine.after Session.step
        ⟨PagedCacheServer.PagedCache.fresh.toPageMemory, []⟩ orders) := by
  refine StepMachine.run_of_simulation (fun _ _ order horder hs => hs.step order horder) ?_ orders
    horders
  refine ⟨represents_fresh, by simp [PagedCacheServer.PagedCache.fresh], rfl, ?_, by simp⟩
  intro i
  simpa using pointsTo_none _

/-- Two chains, a range and the return of the first chain. -/
theorem session_run_four :
    ∃ s', StepMachine.run NodeSession.step ⟨PagedCache.fresh.toPageMemory, []⟩
        [.takeChain 3, .takeChain 2, .takeRange 7 2, .giveChain 0] =
      some (StepMachine.history Session.step
        ⟨PagedCacheServer.PagedCache.fresh.toPageMemory, []⟩
        [.takeChain 3, .takeChain 2, .takeRange 7 2, .giveChain 0], s') := by
  obtain ⟨s', hrun, -⟩ := session_run [.takeChain 3, .takeChain 2, .takeRange 7 2, .giveChain 0] (by
    intro order horder
    simp only [List.mem_cons, List.not_mem_nil, or_false] at horder
    rcases horder with rfl | rfl | rfl | rfl
    · trivial
    · trivial
    · change 7 + 2 ≤ PagedCacheServer.totalPages
      decide
    · trivial)
  exact ⟨s', hrun⟩

end Pointer

end PagedCacheServer
