import PagedCacheServer.Cache.Allocate
import PagedCacheServer.Cache.Pointers

/-!
# The free list and the chains stand for lists

What the functions of `PagedCacheServer.Pointer.PageMemory` do to the nodes is what the
functions of `PagedCacheServer.PageMemory` do to lists. The relation between the two is
`PagedCacheServer.Pointer.Represents`: the same bitmap, and a head pointer that leads to
the free list. It also has the free blocks lie within the bitmap, which is all that is
needed for no bit beyond its end ever to be written.

The loops that rewrite the list walk down it, so each is described by induction on the
nodes that are left: which chain it leaves from here on, and that it touched nothing but
the nodes of that chain (`PagedCacheServer.Pointer.PageMemory.chain_insertAfter`,
`PagedCacheServer.Pointer.PageMemory.chain_coalesceFrom`). The nodes that were passed
are put back in front by `Nodes.Chain.cons_frame`.

In `allocate_pages_linked` the variable `prev` is only ever set in the round that ends
the loop: a block is shrunk only when it has more pages than are still asked for. The
branch `prev->next = current->next` is therefore never taken, and the blocks that are used
up are always the first ones of the list
(`PagedCacheServer.Pointer.took_allocateLoop`).
-/

namespace PagedCacheServer

namespace Pointer

open Nodes

namespace PageMemory

variable {h : Heap FreeBlock} {v b : FreeBlock} {new current fuel : ℕ}
  {rest : List (ℕ × FreeBlock)}

/-! ### The free list -/

theorem linkAfter_of_read {next q : Option ℕ} (hcur : h.read current = some ⟨v, next⟩)
    (hnew : h.read new = some ⟨b, q⟩) (hne : new ≠ current) :
    linkAfter h new current = some ((h.write new ⟨b, next⟩).write current ⟨v, some new⟩) := by
  have hcur' : (h.write new ⟨b, next⟩).read current = some ⟨v, next⟩ := by
    rw [Heap.read_write_of_ne _ hne, hcur]
  simp only [linkAfter, Option.bind_eq_bind]
  rw [hcur, Option.bind_some, Heap.setNext_of_read hnew, Option.bind_some,
    Heap.setNext_of_read hcur']

/-- A block linked behind another one. -/
theorem chain_linkAfter {q : Option ℕ} (hc : Chain h (some current) ((current, v) :: rest))
    (hnew : h.read new = some ⟨b, q⟩) (hfresh : new ∉ addresses ((current, v) :: rest)) :
    ∃ h', linkAfter h new current = some h' ∧
      Chain h' (some current) ((current, v) :: (new, b) :: rest) ∧ h'.size = h.size ∧
      Frame (new :: addresses ((current, v) :: rest)) h h' := by
  have hnotMem := hc.notMem_of_cons
  obtain ⟨-, next, hr, hrest⟩ := hc
  rw [addresses, List.map_cons, List.mem_cons, not_or] at hfresh
  obtain ⟨hne, hfresh⟩ := hfresh
  have hlt := Heap.lt_size_of_read hr
  have hframe : Frame [new, current] h ((h.write new ⟨b, next⟩).write current ⟨v, some new⟩) :=
    (frame_write _ (by simp)).trans (frame_write _ (by simp))
  refine ⟨_, linkAfter_of_read hr hnew hne, ⟨rfl, some new, ?_, rfl, next, ?_, ?_⟩, by simp, ?_⟩
  · exact Heap.read_write_self _ (by simpa using hlt)
  · rw [Heap.read_write_of_ne _ (Ne.symm hne), Heap.read_write_self _ (Heap.lt_size_of_read hnew)]
  · refine hrest.frame hframe fun a ha => ?_
    rw [List.mem_cons, List.mem_singleton, not_or]
    exact ⟨fun hEq => hfresh (hEq ▸ ha), fun hEq => hnotMem (hEq ▸ ha)⟩
  · exact hframe.mono (by simp)

/-- The walk of `add_to_free_list`. -/
theorem chain_insertAfter {q : Option ℕ} (hc : Chain h (some current) ((current, v) :: rest))
    (hnew : h.read new = some ⟨b, q⟩) (hfresh : new ∉ addresses ((current, v) :: rest))
    (hfuel : rest.length < fuel) :
    ∃ h' cells', insertAfter new b.startPage fuel h current = some h' ∧
      Chain h' (some current) cells' ∧
      values cells' = PagedCacheServer.PageMemory.insertAfter b v (values rest) ∧
      h'.size = h.size ∧ Frame (new :: addresses ((current, v) :: rest)) h h' := by
  induction rest generalizing current v fuel with
  | nil =>
    obtain ⟨fuel, rfl⟩ : ∃ n, fuel = n + 1 := ⟨fuel - 1, by omega⟩
    obtain ⟨h', hlink, hchain, hsize, hframe⟩ := chain_linkAfter hc hnew hfresh
    obtain ⟨-, next, hr, hrest⟩ := hc
    refine ⟨h', _, ?_, hchain, rfl, hsize, hframe⟩
    rw [chain_nil.mp hrest] at hr
    simp only [insertAfter, Option.bind_eq_bind, hr, Option.bind_some]
    exact hlink
  | cons c rest ih =>
    obtain ⟨fuel, rfl⟩ : ∃ n, fuel = n + 1 := ⟨fuel - 1, by omega⟩
    obtain ⟨a, w⟩ := c
    obtain ⟨h', hlink, hchain, hsize, hframe⟩ := chain_linkAfter hc hnew hfresh
    have hnotMem := hc.notMem_of_cons
    obtain ⟨-, next, hr, hnext, next', hr', hrest⟩ := hc
    obtain rfl : next = some a := hnext
    have hunfold : insertAfter new b.startPage (fuel + 1) h current =
        if w.startPage < b.startPage then insertAfter new b.startPage fuel h a
        else linkAfter h new current := by
      simp only [insertAfter, Option.bind_eq_bind, hr, hr', Option.bind_some]
    rw [hunfold]
    simp only [values, List.map_cons, PagedCacheServer.PageMemory.insertAfter]
    split
    · obtain ⟨h'', cells', hins, hcells, hvalues, hsize', hframe'⟩ :=
        ih ⟨rfl, next', hr', hrest⟩ (fun hmem => hfresh (List.mem_cons_of_mem _ hmem))
          (by simpa using hfuel)
      have hcur : current ∉ new :: addresses ((a, w) :: rest) := by
        rw [List.mem_cons, not_or]
        exact ⟨fun hEq => hfresh (by simp [hEq]), hnotMem⟩
      refine ⟨h'', (current, v) :: cells', hins, Chain.cons_frame hr hframe' hcur hcells, ?_,
        hsize', hframe'.mono ?_⟩
      · simpa using hvalues
      · intro x hx
        simp only [addresses, List.map_cons, List.mem_cons] at hx ⊢
        tauto
    · exact ⟨h', _, hlink, hchain, rfl, hsize, hframe⟩

/-- The loop of `coalesce_free_blocks`. -/
theorem chain_coalesceFrom (hc : Chain h (some current) ((current, v) :: rest))
    (hfuel : rest.length < fuel) :
    ∃ h' cells', coalesceFrom fuel h (some current) = some h' ∧ Chain h' (some current) cells' ∧
      values cells' = PagedCacheServer.PageMemory.coalesceFrom v (values rest) ∧
      Frame (addresses ((current, v) :: rest)) h h' := by
  induction rest generalizing h current v fuel with
  | nil =>
    obtain ⟨fuel, rfl⟩ : ∃ n, fuel = n + 1 := ⟨fuel - 1, by omega⟩
    refine ⟨h, _, ?_, hc, rfl, Frame.refl _ _⟩
    obtain ⟨-, next, hr, hrest⟩ := hc
    rw [chain_nil.mp hrest] at hr
    simp only [coalesceFrom, Option.bind_eq_bind, hr, Option.bind_some]
  | cons c rest ih =>
    obtain ⟨fuel, rfl⟩ : ∃ n, fuel = n + 1 := ⟨fuel - 1, by omega⟩
    obtain ⟨a, w⟩ := c
    have hnotMem := hc.notMem_of_cons
    obtain ⟨-, next, hr, hnext, next', hr', hrest⟩ := hc
    obtain rfl : next = some a := hnext
    simp only [values, List.map_cons, PagedCacheServer.PageMemory.coalesceFrom]
    split
    case isTrue hend =>
      let merged : FreeBlock := ⟨v.startPage, v.numPages + w.numPages⟩
      let h₁ := (h.write current ⟨merged, some a⟩).write current ⟨merged, next'⟩
      have hlt := Heap.lt_size_of_read hr
      have hframe : Frame [current] h h₁ :=
        (frame_write _ (by simp)).trans (frame_write _ (by simp))
      have hchain : Chain h₁ (some current) ((current, merged) :: rest) := by
        refine ⟨rfl, next', Heap.read_write_self _ (by simpa using hlt), hrest.frame hframe ?_⟩
        intro x hx hmem
        rw [List.mem_singleton.mp hmem] at hx
        exact hnotMem (List.mem_cons_of_mem _ hx)
      obtain ⟨h', cells', hrun, hcells, hvalues, hframe'⟩ :=
        ih hchain (show rest.length < fuel by simpa using hfuel)
      refine ⟨h', cells', ?_, hcells, hvalues, ?_⟩
      · have hfirst : h.setValue current merged = some (h.write current ⟨merged, some a⟩) :=
          Heap.setValue_of_read hr _
        have hsecond : (h.write current ⟨merged, some a⟩).setNext current next' = some h₁ :=
          Heap.setNext_of_read (Heap.read_write_self _ hlt) _
        simp only [coalesceFrom, Option.bind_eq_bind, hr, hr', Option.bind_some, if_pos hend]
        rw [hfirst, Option.bind_some, hsecond, Option.bind_some, hrun]
      · refine (hframe.mono (by simp)).trans (hframe'.mono ?_)
        intro x hx
        simp only [addresses, List.map_cons, List.mem_cons] at hx ⊢
        tauto
    case isFalse hend =>
      obtain ⟨h', cells', hrun, hcells, hvalues, hframe⟩ :=
        ih ⟨rfl, next', hr', hrest⟩ (show rest.length < fuel by simpa using hfuel)
      refine ⟨h', (current, v) :: cells', ?_, Chain.cons_frame hr hframe hnotMem hcells, ?_,
        hframe.mono (List.subset_cons_self _ _)⟩
      · simp only [coalesceFrom, Option.bind_eq_bind, hr, hr', Option.bind_some, if_neg hend]
        exact hrun
      · simpa using hvalues

end PageMemory

/-! ### The pages -/

/-- The blocks of a free list lie within the first `n` pages. -/
def InRange (n : ℕ) (l : List FreeBlock) : Prop := ∀ b ∈ l, b.startPage + b.numPages ≤ n

theorem inRange_insertAfter {n : ℕ} {new current : FreeBlock} {l : List FreeBlock}
    (hnew : new.startPage + new.numPages ≤ n) (hl : InRange n (current :: l)) :
    InRange n (PagedCacheServer.PageMemory.insertAfter new current l) := by
  intro b hb
  rcases PagedCacheServer.PageMemory.mem_insertAfter.mp hb with rfl | hb
  · exact hnew
  · exact hl b hb

theorem inRange_coalesceFrom {n : ℕ} {current : FreeBlock} {l : List FreeBlock}
    (hl : InRange n (current :: l)) :
    InRange n (PagedCacheServer.PageMemory.coalesceFrom current l) := by
  induction l generalizing current with
  | nil => exact hl
  | cons next l ih =>
    obtain ⟨hcur, hnext, hl⟩ : current.startPage + current.numPages ≤ n ∧
        next.startPage + next.numPages ≤ n ∧ InRange n l := by
      simpa [InRange] using hl
    rw [PagedCacheServer.PageMemory.coalesceFrom]
    split
    · refine ih (List.forall_mem_cons.mpr ⟨?_, hl⟩)
      change current.startPage + (current.numPages + next.numPages) ≤ n
      omega
    · exact List.forall_mem_cons.mpr ⟨hcur, ih (List.forall_mem_cons.mpr ⟨hnext, hl⟩)⟩

theorem length_deallocatePagesLinked (m : PagedCacheServer.PageMemory) (blocks : List ℕ) :
    (m.deallocatePagesLinked blocks).pageBitmap.length = m.pageBitmap.length := by
  rw [PagedCacheServer.PageMemory.deallocatePagesLinked,
    PagedCacheServer.PageMemory.coalesceFreeBlocks_pageBitmap]
  induction blocks generalizing m with
  | nil => rfl
  | cons page blocks ih =>
    rw [List.foldl_cons, ih, PagedCacheServer.PageMemory.freePage_pageBitmap, List.length_set]

theorem length_allocateLoop (n : ℕ) (l : List FreeBlock) (bitmap : List Bool) (blocks : List ℕ)
    (k : ℕ) :
    (PagedCacheServer.PageMemory.allocateLoop n l bitmap blocks k).memory.pageBitmap.length =
      bitmap.length := by
  induction l generalizing bitmap blocks k with
  | nil => rfl
  | cons b l ih =>
    have hlen := PagedCacheServer.PageMemory.length_markAllocated
    rw [PagedCacheServer.PageMemory.allocateLoop]
    split
    · dsimp only
      split
      · rw [ih, hlen]
      · change (PagedCacheServer.PageMemory.allocateLoop n l _ _ _).memory.pageBitmap.length = _
        rw [ih, hlen]
    · rfl

theorem length_allocatePagesLinked (m : PagedCacheServer.PageMemory) (n : ℕ) :
    (m.allocatePagesLinked n).2.pageBitmap.length = m.pageBitmap.length := by
  rw [PagedCacheServer.PageMemory.allocatePagesLinked]
  split
  · rfl
  · dsimp only
    split
    · exact length_allocateLoop ..
    · split
      · exact length_allocateLoop ..
      · exact (length_deallocatePagesLinked _ _).trans (length_allocateLoop ..)

/-- The pages with pointers `p` stand for the pages `m`, whose free blocks all lie
within the bitmap. -/
structure Represents (p : PageMemory) (m : PagedCacheServer.PageMemory) : Prop where
  pageBitmap : p.pageBitmap = m.pageBitmap
  freeList : PointsTo p.freeBlocks p.freeListHead m.freeList
  inRange : InRange m.pageBitmap.length m.freeList

/-- What the constructor makes. -/
theorem represents_fresh :
    Represents PagedCache.fresh.toPageMemory PagedCacheServer.PagedCache.fresh.toPageMemory := by
  refine ⟨rfl, ⟨[(0, ⟨0, PagedCacheServer.totalPages⟩)], ?_, rfl⟩, ?_⟩
  · exact ⟨rfl, none, Heap.read_make_self ⟨[]⟩ _, rfl⟩
  · simp [InRange, PagedCacheServer.PagedCache.fresh]

namespace Represents

variable {p : PageMemory} {m : PagedCacheServer.PageMemory} {startPage numPages : ℕ}

/-- A new node put in front of the free list. -/
theorem chain_front {h : Heap FreeBlock} {q : Option ℕ} {cells : List (ℕ × FreeBlock)}
    (hc : Chain h q cells) (b : FreeBlock) :
    ∃ h', (h.make b).setNext h.size q = some h' ∧
      Chain h' (some h.size) ((h.size, b) :: cells) := by
  refine ⟨_, Heap.setNext_of_read (Heap.read_make_self h b) q, rfl, q,
    Heap.read_write_self _ (by simp), ?_⟩
  refine (hc.frame (frame_make [] b) (by simp)).frame (frame_write (S := [h.size]) _ (by simp)) ?_
  intro a ha hmem
  have := hc.lt_size a ha
  rw [List.mem_singleton.mp hmem] at this
  omega

/-- **`add_to_free_list` on the nodes is `add_to_free_list` on the list.** -/
theorem addToFreeList (hr : Represents p m)
    (hrange : startPage + numPages ≤ m.pageBitmap.length) :
    ∃ p', p.addToFreeList startPage numPages = some p' ∧
      Represents p' (m.addToFreeList startPage numPages) ∧ p'.memoryBlocks = p.memoryBlocks := by
  obtain ⟨bitmap, l⟩ := m
  obtain ⟨bitmap', head, h, mem⟩ := p
  obtain ⟨hbitmap, ⟨cells, hc, hvalues⟩, hl⟩ := hr
  obtain rfl : bitmap' = bitmap := hbitmap
  obtain rfl : values cells = l := hvalues
  change Chain h head cells at hc
  cases cells with
  | nil =>
    obtain ⟨h', hset, hchain⟩ := chain_front hc ⟨startPage, numPages⟩
    obtain rfl : head = none := hc
    refine ⟨⟨bitmap', some h.size, h', mem⟩, ?_, ⟨rfl, ⟨_, hchain, rfl⟩, ?_⟩, rfl⟩
    · simp only [PageMemory.addToFreeList, Option.bind_eq_bind, hset, Option.bind_some]
    · simpa [InRange, PagedCacheServer.PageMemory.addToFreeList] using hrange
  | cons c rest =>
    obtain ⟨a, v⟩ := c
    obtain rfl : head = some a := hc.1
    have hlt : a < h.size := hc.lt_size a (by simp)
    have hread : ∃ next, (h.make ⟨startPage, numPages⟩).read a = some ⟨v, next⟩ := by
      obtain ⟨-, next, hr, -⟩ := hc
      exact ⟨next, by rw [Heap.read_make_of_lt _ hlt, hr]⟩
    obtain ⟨next, hread⟩ := hread
    simp only [PageMemory.addToFreeList, PagedCacheServer.PageMemory.addToFreeList,
      Option.bind_eq_bind, hread, Option.bind_some, values, List.map_cons]
    split
    · obtain ⟨h', hset, hchain⟩ := chain_front hc ⟨startPage, numPages⟩
      refine ⟨⟨bitmap', some h.size, h', mem⟩, ?_, ⟨rfl, ⟨_, hchain, rfl⟩, ?_⟩, rfl⟩
      · rw [hset, Option.bind_some]
      · exact List.forall_mem_cons.mpr ⟨hrange, hl⟩
    · have hc' : Chain (h.make ⟨startPage, numPages⟩) (some a) ((a, v) :: rest) :=
        hc.frame (frame_make [] _) (by simp)
      have hfresh : h.size ∉ addresses ((a, v) :: rest) := fun hmem => by
        have := hc.lt_size _ hmem
        omega
      obtain ⟨h', cells', hins, hchain, hvalues, -, -⟩ :=
        PageMemory.chain_insertAfter hc'
          (Heap.read_make_self h ⟨startPage, numPages⟩) hfresh hc'.length_le
      refine ⟨⟨bitmap', some a, h', mem⟩, ?_, ⟨rfl, ⟨cells', hchain, hvalues⟩, ?_⟩, rfl⟩
      · rw [hins, Option.bind_some]
      · exact inRange_insertAfter hrange hl

/-- **`coalesce_free_blocks` on the nodes is `coalesce_free_blocks` on the list.** -/
theorem coalesceFreeBlocks (hr : Represents p m) :
    ∃ p', p.coalesceFreeBlocks = some p' ∧ Represents p' m.coalesceFreeBlocks ∧
      p'.memoryBlocks = p.memoryBlocks := by
  obtain ⟨bitmap, l⟩ := m
  obtain ⟨bitmap', head, h, mem⟩ := p
  obtain ⟨hbitmap, ⟨cells, hc, hvalues⟩, hl⟩ := hr
  obtain rfl : bitmap' = bitmap := hbitmap
  obtain rfl : values cells = l := hvalues
  change Chain h head cells at hc
  cases cells with
  | nil =>
    obtain rfl : head = none := hc
    exact ⟨_, rfl, ⟨rfl, pointsTo_none h, hl⟩, rfl⟩
  | cons c rest =>
    obtain ⟨a, v⟩ := c
    obtain rfl : head = some a := hc.1
    obtain ⟨h', cells', hrun, hchain, hvalues, -⟩ := PageMemory.chain_coalesceFrom hc hc.length_le
    refine ⟨⟨bitmap', some a, h', mem⟩, ?_, ⟨rfl, ⟨cells', hchain, hvalues⟩, ?_⟩, rfl⟩
    · simp only [PageMemory.coalesceFreeBlocks, Option.bind_eq_bind, hrun, Option.bind_some]
    · exact inRange_coalesceFrom hl

/-- The loop of `deallocate_pages_linked`. The nodes of the chain are only read. -/
theorem freeLoop {q : Option ℕ} {cells : List (ℕ × ℕ)} {fuel : ℕ} (hr : Represents p m)
    (hc : Chain p.memoryBlocks q cells) (hpages : ∀ page ∈ values cells, page < m.pageBitmap.length)
    (hfuel : cells.length < fuel) :
    ∃ p', p.freeLoop fuel q = some p' ∧
      Represents p' ((values cells).foldl PagedCacheServer.PageMemory.freePage m) ∧
      p'.memoryBlocks = p.memoryBlocks := by
  induction cells generalizing p m q fuel with
  | nil =>
    obtain ⟨fuel, rfl⟩ : ∃ n, fuel = n + 1 := ⟨fuel - 1, by omega⟩
    obtain rfl : q = none := hc
    exact ⟨p, rfl, hr, rfl⟩
  | cons c cells ih =>
    obtain ⟨fuel, rfl⟩ : ∃ n, fuel = n + 1 := ⟨fuel - 1, by omega⟩
    obtain ⟨rfl, next, hread, hrest⟩ := hc
    obtain ⟨hpage, hpages⟩ := List.forall_mem_cons.mp hpages
    have hbit : Represents { p with pageBitmap := p.pageBitmap.set c.2 false }
        { m with pageBitmap := m.pageBitmap.set c.2 false } :=
      ⟨by rw [hr.pageBitmap], hr.freeList, by simpa using hr.inRange⟩
    obtain ⟨p₁, hadd, hr₁, hmem₁⟩ := hbit.addToFreeList
      (show c.2 + 1 ≤ (m.pageBitmap.set c.2 false).length by simpa using hpage)
    have hlen : (m.freePage c.2).pageBitmap.length = m.pageBitmap.length := by
      rw [PagedCacheServer.PageMemory.freePage_pageBitmap, List.length_set]
    obtain ⟨p', hrun, hr', hmem'⟩ := ih (m := m.freePage c.2) hr₁ (by rwa [hmem₁])
      (by rwa [hlen]) (show cells.length < fuel by simpa using hfuel)
    refine ⟨p', ?_, hr', hmem'.trans hmem₁⟩
    have hset : setBit p.pageBitmap c.2 false = some (p.pageBitmap.set c.2 false) :=
      if_pos (by rwa [hr.pageBitmap])
    simp only [PageMemory.freeLoop, Option.bind_eq_bind, hread, Option.bind_some, hset, hadd, hrun]

/-- **`deallocate_pages_linked` on the nodes is the same on lists.** -/
theorem deallocatePagesLinked {q : Option ℕ} {blocks : List ℕ} (hr : Represents p m)
    (hq : PointsTo p.memoryBlocks q blocks)
    (hblocks : ∀ page ∈ blocks, page < m.pageBitmap.length) :
    ∃ p', p.deallocatePagesLinked q = some p' ∧ Represents p' (m.deallocatePagesLinked blocks) ∧
      p'.memoryBlocks = p.memoryBlocks := by
  obtain ⟨cells, hc, rfl⟩ := hq
  obtain ⟨p₁, hfree, hr₁, hmem₁⟩ := hr.freeLoop hc hblocks (Nat.lt_succ_of_le hc.length_le)
  obtain ⟨p₂, hcoal, hr₂, hmem₂⟩ := hr₁.coalesceFreeBlocks
  refine ⟨p₂, ?_, hr₂, hmem₂.trans hmem₁⟩
  simp only [PageMemory.deallocatePagesLinked, Option.bind_eq_bind, hfree, Option.bind_some, hcoal]

end Represents

/-! ### Allocation -/

section Allocation

variable {s : PageMemory.Allocating} {h₀ : Heap ℕ} {blocks : List ℕ} {n fuel : ℕ}

/-- The inner loop of `allocate_pages_linked`. -/
theorem foldlM_takePage {pages : List ℕ}
    (hb : Built h₀ s.memoryBlocks s.allocatedBlocks s.currentBlock blocks)
    (hpages : ∀ page ∈ pages, page < s.pageBitmap.length) :
    ∃ h first last, pages.foldlM PageMemory.takePage s = some { s with
        pageBitmap := PagedCacheServer.PageMemory.markAllocated s.pageBitmap pages
        memoryBlocks := h, allocatedBlocks := first, currentBlock := last } ∧
      Built h₀ h first last (blocks ++ pages) := by
  induction pages generalizing s blocks with
  | nil => exact ⟨s.memoryBlocks, s.allocatedBlocks, s.currentBlock, rfl, by simpa using hb⟩
  | cons page pages ih =>
    obtain ⟨hpage, hpages⟩ := List.forall_mem_cons.mp hpages
    have hstep : ∃ h first last, PageMemory.takePage s page = some { s with
          pageBitmap := s.pageBitmap.set page true
          memoryBlocks := h, allocatedBlocks := first, currentBlock := last } ∧
        Built h₀ h first last (blocks ++ [page]) := by
      have hset : setBit s.pageBitmap page true = some (s.pageBitmap.set page true) := if_pos hpage
      rcases hfirst : s.allocatedBlocks with _ | a
      · rw [hfirst] at hb
        refine ⟨_, _, _, ?_, hb.first page⟩
        simp only [PageMemory.takePage, hfirst, Option.bind_eq_bind, Option.bind_some, hset]
      · rw [hfirst] at hb
        obtain ⟨b, h', hlast, hnext, hb'⟩ := hb.snoc page
        refine ⟨_, _, _, ?_, hb'⟩
        simp only [PageMemory.takePage, hfirst, hlast, hnext, Option.bind_eq_bind,
          Option.bind_some, hset]
    obtain ⟨h₁, first₁, last₁, hrun, hb₁⟩ := hstep
    let s₁ : PageMemory.Allocating := { s with
      pageBitmap := s.pageBitmap.set page true
      memoryBlocks := h₁, allocatedBlocks := first₁, currentBlock := last₁ }
    obtain ⟨h', first, last, hrest, hb'⟩ := ih (s := s₁) hb₁ (by simpa [s₁] using hpages)
    refine ⟨h', first, last, ?_, by simpa using hb'⟩
    rw [List.foldlM_cons, hrun, Option.bind_eq_bind, Option.bind_some, hrest]
    rfl

theorem allocateLoop_of_le (hn : n ≤ s.pagesAllocated) (hfuel : 0 < fuel) :
    PageMemory.allocateLoop n fuel s = some s := by
  obtain ⟨fuel, rfl⟩ : ∃ k, fuel = k + 1 := ⟨fuel - 1, by omega⟩
  rw [PageMemory.allocateLoop]
  split
  · rfl
  · rw [if_neg (by omega)]

/-- What the loop of `allocate_pages_linked` leaves on the nodes stands for what it
leaves on lists. -/
structure Took (h₀ : Heap ℕ) (s : PageMemory.Allocating)
    (r : PagedCacheServer.PageMemory.Allocation) : Prop where
  represents : Represents s.toPageMemory r.memory
  built : Built h₀ s.memoryBlocks s.allocatedBlocks s.currentBlock r.allocatedBlocks
  inRange : ∀ page ∈ r.allocatedBlocks, page < r.memory.pageBitmap.length
  pagesAllocated : s.pagesAllocated = r.pagesAllocated

/-- The outer loop of `allocate_pages_linked`. Only the last block of all is shrunk, so
that there is no previous block as long as the loop runs. -/
theorem took_allocateLoop {cells : List (ℕ × FreeBlock)}
    (hc : Chain s.freeBlocks s.current cells) (hprev : s.prev = none)
    (hhead : s.freeListHead = s.current)
    (hb : Built h₀ s.memoryBlocks s.allocatedBlocks s.currentBlock blocks)
    (hcells : InRange s.pageBitmap.length (values cells))
    (hblocks : ∀ page ∈ blocks, page < s.pageBitmap.length) (hfuel : cells.length < fuel) :
    ∃ s', PageMemory.allocateLoop n fuel s = some s' ∧
      Took h₀ s' (PagedCacheServer.PageMemory.allocateLoop n (values cells) s.pageBitmap blocks
        s.pagesAllocated) := by
  induction cells generalizing s blocks fuel with
  | nil =>
    obtain ⟨fuel, rfl⟩ : ∃ k, fuel = k + 1 := ⟨fuel - 1, by omega⟩
    have hnone : s.current = none := hc
    refine ⟨s, by rw [PageMemory.allocateLoop, hnone], ⟨rfl, ?_, hcells⟩, hb, hblocks, rfl⟩
    exact ⟨[], hhead.trans hnone, rfl⟩
  | cons c cells ih =>
    obtain ⟨fuel, rfl⟩ : ∃ k, fuel = k + 1 := ⟨fuel - 1, by omega⟩
    by_cases hlt : s.pagesAllocated < n
    swap
    · refine ⟨s, allocateLoop_of_le (by omega) (by omega), ?_⟩
      rw [PagedCacheServer.PageMemory.allocateLoop_of_le (by omega)]
      exact ⟨⟨rfl, ⟨_, by rw [hhead]; exact hc, rfl⟩, hcells⟩, hb, hblocks, rfl⟩
    obtain ⟨a, v⟩ := c
    have hnotMem := hc.notMem_of_cons
    obtain ⟨hcur, next, hread, hrest⟩ := hc
    obtain ⟨hv, hcells⟩ := List.forall_mem_cons.mp hcells
    change v.startPage + v.numPages ≤ _ at hv
    have hfuel' : cells.length < fuel := by simpa using hfuel
    let pagesToTake := min v.numPages (n - s.pagesAllocated)
    have hle : pagesToTake ≤ v.numPages := min_le_left _ _
    have htaken : ∀ page ∈ List.range' v.startPage pagesToTake, page < s.pageBitmap.length := by
      intro page hpage
      rw [List.mem_range'_1] at hpage
      omega
    obtain ⟨h', first, last, hrun, hb'⟩ := foldlM_takePage hb htaken
    have hblocks' : ∀ page ∈ blocks ++ List.range' v.startPage pagesToTake,
        page < s.pageBitmap.length := fun page hmem =>
      (List.mem_append.mp hmem).elim (hblocks page) (htaken page)
    simp only [PageMemory.allocateLoop, hcur, if_pos hlt, hread, Option.bind_eq_bind,
      Option.bind_some, values, List.map_cons, PagedCacheServer.PageMemory.allocateLoop]
    rw [hrun, Option.bind_some]
    have hlen : (PagedCacheServer.PageMemory.markAllocated s.pageBitmap
        (List.range' v.startPage pagesToTake)).length = s.pageBitmap.length :=
      PagedCacheServer.PageMemory.length_markAllocated _ _
    split
    case isTrue hall =>
      simp only [hprev, PageMemory.relink, Option.bind_some]
      exact ih hrest rfl rfl hb' (by rwa [hlen]) (by rwa [hlen]) hfuel'
    case isFalse hsome =>
      have htake : s.pagesAllocated + pagesToTake = n := by omega
      rw [PagedCacheServer.PageMemory.allocateLoop_of_le htake.ge,
        Heap.setValue_of_read hread, Option.bind_some,
        allocateLoop_of_le htake.ge (by omega)]
      have hshrunk : Chain (s.freeBlocks.write a
            ⟨⟨v.startPage + pagesToTake, v.numPages - pagesToTake⟩, next⟩) (some a)
          ((a, ⟨v.startPage + pagesToTake, v.numPages - pagesToTake⟩) :: cells) := by
        refine ⟨rfl, next, Heap.read_write_self _ (Heap.lt_size_of_read hread), ?_⟩
        refine hrest.frame (frame_write (S := [a]) _ (by simp)) fun x hx hmem => ?_
        exact hnotMem (List.mem_singleton.mp hmem ▸ hx)
      rw [← show s.freeListHead = some a from hhead.trans hcur] at hshrunk
      refine ⟨_, rfl, ⟨rfl, ⟨_, hshrunk, rfl⟩, ?_⟩, hb', by rwa [hlen], rfl⟩
      rw [hlen]
      refine List.forall_mem_cons.mpr ⟨?_, hcells⟩
      change v.startPage + pagesToTake + (v.numPages - pagesToTake) ≤ _
      omega

/-- **`allocate_pages_linked` on the nodes is the same on lists**: the pointer it returns
leads to the chain of the pages taken, made of new nodes, and is null when that is
empty. -/
theorem Represents.allocatePagesLinked {p : PageMemory} {m : PagedCacheServer.PageMemory}
    (hr : Represents p m) (n : ℕ) :
    ∃ q p', p.allocatePagesLinked n = some (q, p') ∧
      Represents p' (m.allocatePagesLinked n).2 ∧
      PointsTo p'.memoryBlocks q (m.allocatePagesLinked n).1 ∧
      Frame [] p.memoryBlocks p'.memoryBlocks ∧
      ∀ page ∈ (m.allocatePagesLinked n).1, page < m.pageBitmap.length := by
  unfold PageMemory.allocatePagesLinked PagedCacheServer.PageMemory.allocatePagesLinked
  split
  · exact ⟨none, p, rfl, hr, pointsTo_none _, Frame.refl _ _, by simp⟩
  obtain ⟨cells, hc, hvalues⟩ := hr.freeList
  have hrange := hr.inRange
  rw [← hr.pageBitmap, ← hvalues] at hrange
  obtain ⟨s, hrun, htook⟩ := took_allocateLoop (n := n)
    (s := { p with
      allocatedBlocks := none, currentBlock := none, pagesAllocated := 0
      prev := none, current := p.freeListHead })
    hc rfl rfl (built_nil p.memoryBlocks) hrange (by simp) (Nat.lt_succ_of_le hc.length_le)
  rw [hvalues, hr.pageBitmap] at htook
  have hlen := length_allocateLoop n m.freeList m.pageBitmap [] 0
  obtain ⟨r, hloop⟩ : ∃ r, PagedCacheServer.PageMemory.allocateLoop n m.freeList m.pageBitmap [] 0
      = r := ⟨_, rfl⟩
  rw [hloop] at htook hlen
  simp only [hrun, hloop, Option.bind_eq_bind, Option.bind_some, htook.pagesAllocated]
  split
  · refine ⟨_, _, rfl, htook.represents, htook.built.pointsTo, htook.built.frame, ?_⟩
    rw [← hlen]
    exact htook.inRange
  · rcases hfirst : s.allocatedBlocks with _ | a
    · have hnil : r.allocatedBlocks = [] := htook.built.pointsTo.eq_none_iff.mp hfirst
      rw [if_pos hnil]
      exact ⟨none, _, rfl, htook.represents, pointsTo_none _, htook.built.frame, by simp⟩
    · have hcons : r.allocatedBlocks ≠ [] := fun hnil => by
        rw [htook.built.pointsTo.eq_none_iff.mpr hnil] at hfirst
        simp at hfirst
      obtain ⟨p', hfree, hr', hmem⟩ :=
        htook.represents.deallocatePagesLinked htook.built.pointsTo htook.inRange
      rw [hfirst] at hfree
      rw [if_neg hcons]
      refine ⟨none, p', ?_, hr', pointsTo_none _, by rw [hmem]; exact htook.built.frame, by simp⟩
      rw [if_pos (Option.isSome_some), hfree, Option.bind_some]

end Allocation

/-! ### Cutting a range out of a block -/

section Range

variable {p p' : PageMemory} {prev current q : Option ℕ} {S : List ℕ} {startPage n fuel : ℕ}
  {cells : List (ℕ × FreeBlock)}

/-- The pointer behind `prev` – the head, if there is no previous block – was set to `q`,
and nothing else was written outside of `S`. -/
structure Relinked (S : List ℕ) (p p' : PageMemory) (prev q : Option ℕ) : Prop where
  pageBitmap : p'.pageBitmap = p.pageBitmap
  memoryBlocks : p'.memoryBlocks = p.memoryBlocks
  frame : Frame S p.freeBlocks p'.freeBlocks
  head : prev = none → p'.freeListHead = q
  head_of_prev : prev ≠ none → p'.freeListHead = p.freeListHead
  link : ∀ a ∈ prev, ∀ node, p.freeBlocks.read a = some node →
    p'.freeBlocks.read a = some ⟨node.value, q⟩

theorem relinked_relink (q : Option ℕ)
    (hprev : ∀ a ∈ prev, ∃ node, p.freeBlocks.read a = some node) :
    ∃ p', p.relink prev q = some p' ∧ Relinked prev.toList p p' prev q := by
  rcases prev with _ | a
  · exact ⟨_, rfl, rfl, rfl, Frame.refl _ _, fun _ => rfl, fun h => absurd rfl h, by simp⟩
  · obtain ⟨node, hread⟩ := hprev a rfl
    refine ⟨{ p with freeBlocks := p.freeBlocks.write a ⟨node.value, q⟩ }, ?_, rfl, rfl,
      frame_write _ (by simp), by simp, fun _ => rfl, ?_⟩
    · simp only [PageMemory.relink, Heap.setNext_of_read hread, Option.bind_eq_bind,
        Option.bind_some]
    · rintro b ⟨⟩ node' hread'
      rw [hread, Option.some.injEq] at hread'
      rw [← hread', Heap.read_write_self _ (Heap.lt_size_of_read hread)]

/-- A new block linked in front of a chain, behind `prev`. -/
theorem relinked_new (b : FreeBlock) (hc : Chain p.freeBlocks q cells)
    (hprev : ∀ a ∈ prev, a ∉ addresses cells ∧ ∃ node, p.freeBlocks.read a = some node) :
    ∃ h p', (p.freeBlocks.make b).setNext p.freeBlocks.size q = some h ∧
      PageMemory.relink { p with freeBlocks := h } prev (some p.freeBlocks.size) = some p' ∧
      Relinked prev.toList p p' prev (some p.freeBlocks.size) ∧
      p'.freeBlocks.read p.freeBlocks.size = some ⟨b, q⟩ ∧ Chain p'.freeBlocks q cells := by
  have hmade := Heap.setNext_of_read (Heap.read_make_self p.freeBlocks b) q
  obtain ⟨h, hh⟩ : ∃ h, (p.freeBlocks.make b).write p.freeBlocks.size ⟨b, q⟩ = h := ⟨_, rfl⟩
  have hnew : h.read p.freeBlocks.size = some ⟨b, q⟩ := by
    rw [← hh]
    exact Heap.read_write_self _ (by simp)
  have hold : Frame [] p.freeBlocks h := by
    rw [← hh]
    exact (frame_make [] b).trans_new (frame_write (S := [p.freeBlocks.size]) _ (by simp))
      (by simp)
  have hprev' : ∀ a ∈ prev, ∃ node, h.read a = some node := fun a ha => by
    obtain ⟨-, node, hread⟩ := hprev a ha
    exact ⟨node, by rw [hold.read_eq a (Heap.lt_size_of_read hread) (by simp), hread]⟩
  obtain ⟨p', hlink, hr⟩ := relinked_relink (p := { p with freeBlocks := h })
    (some p.freeBlocks.size) hprev'
  have hne : ∀ a ∈ prev.toList, a < p.freeBlocks.size ∧ a ∉ addresses cells := fun a ha => by
    obtain ⟨hmem, node, hread⟩ := hprev a (Option.mem_toList.mp ha)
    exact ⟨Heap.lt_size_of_read hread, hmem⟩
  have hnotMem : p.freeBlocks.size ∉ prev.toList := fun hmem => absurd (hne _ hmem).1 (by simp)
  refine ⟨h, p', hh ▸ hmade, hlink, ⟨hr.pageBitmap, hr.memoryBlocks, ?_, hr.head,
    hr.head_of_prev, fun a ha node hread => hr.link a ha node ?_⟩, ?_, ?_⟩
  · exact (hold.mono (by simp)).trans hr.frame
  · rw [← hread]
    exact hold.read_eq a (Heap.lt_size_of_read hread) (by simp)
  · rw [← hnew]
    exact hr.frame.read_eq _ (Heap.lt_size_of_read hnew) hnotMem
  · exact (hc.frame hold (by simp)).frame hr.frame fun a ha hmem => (hne a hmem).2 ha

/-- What `allocate_pages` does to the block it has found: the pieces that are left of it
take its place. -/
theorem relinked_cutBlock {v : FreeBlock} (hc : Chain p.freeBlocks q cells)
    (hprev : ∀ a ∈ prev, a ∉ addresses cells ∧ ∃ node, p.freeBlocks.read a = some node)
    (hholds : v.startPage ≤ startPage ∧ startPage + n ≤ v.startPage + v.numPages) :
    ∃ p' q' cells', p.cutBlock startPage n prev ⟨v, q⟩ = some p' ∧
      Chain p'.freeBlocks q' cells' ∧
      values cells' = PagedCacheServer.PageMemory.splitBlock startPage n (v :: values cells) ∧
      Relinked prev.toList p p' prev q' := by
  rw [PagedCacheServer.PageMemory.splitBlock, if_pos hholds]
  unfold PageMemory.cutBlock
  dsimp only
  by_cases hbefore : startPage - v.startPage > 0
  · obtain ⟨h₁, p₁, hmade₁, hlink₁, hr₁, hread₁, hc₁⟩ :=
      relinked_new ⟨v.startPage, startPage - v.startPage⟩ hc hprev
    simp only [if_pos hbefore, if_neg hbefore.ne', hmade₁, hlink₁, Option.bind_eq_bind,
      Option.bind_some]
    by_cases hafter : v.startPage + v.numPages - (startPage + n) > 0
    · -- the second block goes behind the first one, which is new itself
      have hbehind : ∀ a ∈ some p.freeBlocks.size, a ∉ addresses cells ∧
          ∃ node, p₁.freeBlocks.read a = some node := by
        rintro a ⟨⟩
        exact ⟨fun hmem => absurd (hc.lt_size _ hmem) (lt_irrefl _), _, hread₁⟩
      obtain ⟨h₂, p₂, hmade₂, hlink₂, hr₂, hread₂, hc₂⟩ := relinked_new
        ⟨startPage + n, v.startPage + v.numPages - (startPage + n)⟩ hc₁ hbehind
      simp only [if_pos hafter, hmade₂, hlink₂, Option.bind_some]
      refine ⟨p₂, some p.freeBlocks.size,
        (p.freeBlocks.size, _) :: (p₁.freeBlocks.size, _) :: cells, rfl,
        ⟨rfl, _, hr₂.link _ rfl _ hread₁, rfl, q, hread₂, hc₂⟩, rfl, ?_⟩
      refine ⟨hr₂.pageBitmap.trans hr₁.pageBitmap, hr₂.memoryBlocks.trans hr₁.memoryBlocks,
        hr₁.frame.trans_new hr₂.frame (by simp), fun hnone => ?_, fun hsome => ?_,
        fun a ha node hread => ?_⟩
      · rw [hr₂.head_of_prev (by simp), hr₁.head hnone]
      · rw [hr₂.head_of_prev (by simp), hr₁.head_of_prev hsome]
      · have hlt := Heap.lt_size_of_read hread
        rw [← hr₁.link a ha node hread]
        exact hr₂.frame.read_eq a (hlt.trans_le hr₁.frame.size_le) (by simpa using hlt.ne)
    · simp only [if_neg hafter]
      exact ⟨p₁, _, (p.freeBlocks.size, _) :: cells, rfl, ⟨rfl, q, hread₁, hc₁⟩, rfl, hr₁⟩
  · simp only [if_neg hbefore, Option.bind_eq_bind, Option.bind_some]
    by_cases hafter : v.startPage + v.numPages - (startPage + n) > 0
    · obtain ⟨h₁, p₁, hmade₁, hlink₁, hr₁, hread₁, hc₁⟩ := relinked_new
        ⟨startPage + n, v.startPage + v.numPages - (startPage + n)⟩ hc hprev
      simp only [if_pos hafter, hmade₁, hlink₁, Option.bind_some]
      exact ⟨p₁, _, (p.freeBlocks.size, _) :: cells, rfl, ⟨rfl, q, hread₁, hc₁⟩, rfl, hr₁⟩
    · obtain ⟨p', hlink, hr⟩ := relinked_relink q fun a ha => (hprev a ha).2
      simp only [if_neg hafter, if_pos (Nat.eq_zero_of_not_pos hbefore)]
      refine ⟨p', q, cells, hlink, hc.frame hr.frame fun a ha hmem => ?_, rfl, hr⟩
      exact (hprev a (Option.mem_toList.mp hmem)).1 ha

/-- The loop of `allocate_pages`. -/
theorem relinked_splitBlock (hc : Chain p.freeBlocks current cells)
    (hprev : ∀ a ∈ prev, a ∉ addresses cells ∧ ∃ v, p.freeBlocks.read a = some ⟨v, current⟩)
    (hhead : prev = none → p.freeListHead = current) (hfuel : cells.length < fuel) :
    ∃ p' q cells', p.splitBlock startPage n fuel prev current = some p' ∧
      Chain p'.freeBlocks q cells' ∧
      values cells' = PagedCacheServer.PageMemory.splitBlock startPage n (values cells) ∧
      Relinked (prev.toList ++ addresses cells) p p' prev q := by
  induction cells generalizing prev current fuel with
  | nil =>
    obtain ⟨fuel, rfl⟩ : ∃ k, fuel = k + 1 := ⟨fuel - 1, by omega⟩
    obtain rfl : current = none := hc
    refine ⟨p, none, [], rfl, rfl, rfl, rfl, rfl, Frame.refl _ _, hhead, fun _ => rfl, ?_⟩
    intro a ha node hread
    obtain ⟨-, v, hv⟩ := hprev a ha
    rw [hv, Option.some.injEq] at hread
    rw [hv, ← hread]
  | cons c cells ih =>
    obtain ⟨fuel, rfl⟩ : ∃ k, fuel = k + 1 := ⟨fuel - 1, by omega⟩
    obtain ⟨a, v⟩ := c
    have hnotMem := hc.notMem_of_cons
    obtain ⟨rfl, next, hread, hrest⟩ := hc
    by_cases hholds : v.startPage ≤ startPage ∧ startPage + n ≤ v.startPage + v.numPages
    · obtain ⟨p', q, cells', hrun, hcells, hvalues, hr⟩ := relinked_cutBlock hrest
        (fun b hb => ⟨fun hmem => (hprev b hb).1 (List.mem_cons_of_mem _ hmem),
          _, (hprev b hb).2.choose_spec⟩) hholds
      refine ⟨p', q, cells', ?_, hcells, hvalues, hr.pageBitmap, hr.memoryBlocks,
        hr.frame.mono (List.subset_append_left _ _), hr.head, hr.head_of_prev, hr.link⟩
      simp only [PageMemory.splitBlock, hread, Option.bind_eq_bind, Option.bind_some,
        if_pos hholds, hrun]
    · simp only [PageMemory.splitBlock, hread, Option.bind_eq_bind, Option.bind_some, values,
        List.map_cons, PagedCacheServer.PageMemory.splitBlock, if_neg hholds]
      obtain ⟨p', q, cells', hrun, hcells, hvalues, hr⟩ := ih hrest
        (show ∀ b ∈ some a, b ∉ addresses cells ∧ ∃ v, p.freeBlocks.read b = some ⟨v, next⟩ by
          rintro b ⟨⟩
          exact ⟨hnotMem, v, hread⟩)
        (by simp) (show cells.length < fuel by simpa using hfuel)
      have hlink : p'.freeBlocks.read a = some ⟨v, q⟩ := hr.link a rfl _ hread
      have hframe : Frame (addresses ((a, v) :: cells)) p.freeBlocks p'.freeBlocks := by
        simpa using hr.frame
      refine ⟨p', some a, (a, v) :: cells', hrun, ⟨rfl, q, hlink, hcells⟩,
        by simp [hvalues], hr.pageBitmap, hr.memoryBlocks,
        hframe.mono (List.subset_append_right _ _), fun hnone => ?_,
        fun _ => hr.head_of_prev (by simp), fun b hb node hnode => ?_⟩
      · rw [hr.head_of_prev (by simp), hhead hnone]
      · obtain ⟨hmem, w, hw⟩ := hprev b hb
        rw [hframe.read_eq b (Heap.lt_size_of_read hw) hmem, hnode]
        rw [hw, Option.some.injEq] at hnode
        rw [← hnode]

theorem foldlM_setBit {bitmap : List Bool} {pages : List ℕ} (bit : Bool)
    (hpages : ∀ page ∈ pages, page < bitmap.length) :
    pages.foldlM (fun bitmap page => setBit bitmap page bit) bitmap =
      some (pages.foldl (fun bitmap page => bitmap.set page bit) bitmap) := by
  induction pages generalizing bitmap with
  | nil => rfl
  | cons page pages ih =>
    obtain ⟨hpage, hpages⟩ := List.forall_mem_cons.mp hpages
    rw [List.foldlM_cons, List.foldl_cons, setBit, if_pos hpage, Option.bind_eq_bind,
      Option.bind_some, ih (by simpa using hpages)]

theorem inRange_splitBlock {k : ℕ} {l : List FreeBlock} (hl : InRange k l) :
    InRange k (PagedCacheServer.PageMemory.splitBlock startPage n l) := by
  induction l with
  | nil => exact hl
  | cons b l ih =>
    obtain ⟨hb, hl⟩ := List.forall_mem_cons.mp hl
    change b.startPage + b.numPages ≤ k at hb
    rw [PagedCacheServer.PageMemory.splitBlock]
    split
    case isTrue hholds =>
      have hrest : InRange k
          (if b.startPage + b.numPages - (startPage + n) > 0 then
            ⟨startPage + n, b.startPage + b.numPages - (startPage + n)⟩ :: l else l) := by
        split
        · refine List.forall_mem_cons.mpr ⟨?_, hl⟩
          change startPage + n + (b.startPage + b.numPages - (startPage + n)) ≤ k
          omega
        · exact hl
      dsimp only
      split
      · refine List.forall_mem_cons.mpr ⟨?_, hrest⟩
        change b.startPage + (startPage - b.startPage) ≤ k
        omega
      · exact hrest
    case isFalse =>
      exact List.forall_mem_cons.mpr ⟨hb, ih hl⟩

variable {m : PagedCacheServer.PageMemory}

/-- **`allocate_pages` on the nodes is `allocate_pages` on the list.** -/
theorem Represents.allocatePages (hr : Represents p m)
    (hrange : startPage + n ≤ m.pageBitmap.length) :
    ∃ p', p.allocatePages startPage n = some p' ∧ Represents p' (m.allocatePages startPage n) ∧
      p'.memoryBlocks = p.memoryBlocks := by
  obtain ⟨cells, hc, hvalues⟩ := hr.freeList
  have hbits : PageMemory.setBits p.pageBitmap startPage n true =
      some (m.allocatePages startPage n).pageBitmap := by
    rw [hr.pageBitmap]
    refine foldlM_setBit true fun page hpage => ?_
    rw [List.mem_range'_1] at hpage
    omega
  obtain ⟨p', q, cells', hrun, hc', hvalues', hlinked⟩ := relinked_splitBlock
    (p := { p with pageBitmap := (m.allocatePages startPage n).pageBitmap }) (n := n) hc
    (show ∀ a ∈ (none : Option ℕ), _ by simp) (fun _ => rfl) (Nat.lt_succ_of_le hc.length_le)
  refine ⟨p', ?_, ⟨hlinked.pageBitmap, ⟨cells', ?_, ?_⟩, ?_⟩, hlinked.memoryBlocks⟩
  · simp only [PageMemory.allocatePages, hbits, Option.bind_eq_bind, Option.bind_some]
    exact hrun
  · rw [hlinked.head rfl]
    exact hc'
  · rw [hvalues', hvalues]
    rfl
  · have hlen : (m.allocatePages startPage n).pageBitmap.length = m.pageBitmap.length :=
      PagedCacheServer.PageMemory.length_markAllocated _ _
    rw [hlen]
    exact inRange_splitBlock hr.inRange

/-- **`deallocate_pages` on the nodes is `deallocate_pages` on the list.** -/
theorem Represents.deallocatePages (hr : Represents p m)
    (hrange : startPage + n ≤ m.pageBitmap.length) :
    ∃ p', p.deallocatePages startPage n = some p' ∧ Represents p' (m.deallocatePages startPage n) ∧
      p'.memoryBlocks = p.memoryBlocks := by
  obtain ⟨bitmap, hbitmap⟩ : ∃ bitmap,
      PagedCacheServer.PageMemory.markFree m.pageBitmap (List.range' startPage n) = bitmap :=
    ⟨_, rfl⟩
  have hbits : PageMemory.setBits p.pageBitmap startPage n false = some bitmap := by
    rw [hr.pageBitmap, ← hbitmap]
    refine foldlM_setBit false fun page hpage => ?_
    rw [List.mem_range'_1] at hpage
    omega
  have hlen : bitmap.length = m.pageBitmap.length := by
    rw [← hbitmap]
    exact PagedCacheServer.PageMemory.length_foldl_set false _ _
  have hfreed : Represents { p with pageBitmap := bitmap } { m with pageBitmap := bitmap } :=
    ⟨rfl, hr.freeList, by rw [hlen]; exact hr.inRange⟩
  obtain ⟨p₁, hadd, hr₁, hmem₁⟩ := hfreed.addToFreeList (hrange.trans_eq hlen.symm)
  obtain ⟨p₂, hcoal, hr₂, hmem₂⟩ := hr₁.coalesceFreeBlocks
  refine ⟨p₂, ?_, ?_, hmem₂.trans hmem₁⟩
  · simp only [PageMemory.deallocatePages, hbits, hadd, hcoal, Option.bind_eq_bind,
      Option.bind_some]
  · rw [PagedCacheServer.PageMemory.deallocatePages, hbitmap]
    exact hr₂

end Range

end Pointer

end PagedCacheServer
