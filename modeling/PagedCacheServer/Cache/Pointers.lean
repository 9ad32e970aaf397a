import PagedCacheServer.Library.Nodes
import PagedCacheServer.Cache.Defs

/-!
# The cache with its pointers

`PagedCacheServer.PagedCache` reads the free list and the chains of memory blocks as
lists. `cache.cpp` has neither: it has nodes with a `next` pointer, which it walks,
relinks and drops. This file is the same program with the nodes – the functions of
`cache.cpp` again, statement by statement, on two heaps of nodes, one of `FreeBlock` and
one of `MemoryBlock`. A pointer is an address or null.

What can go wrong with pointers goes wrong here as well, and is the answer `none`: a
null pointer is followed, a bit beyond the end of the bitmap is written, or a loop runs
for more rounds than there are nodes, which it can only do by going round in a circle.
A `shared_ptr` keeps its node as long as somebody points to it, so that a node that was
unlinked is simply never found again; nothing is ever freed under a reader.
-/

namespace PagedCacheServer

namespace Pointer

open Nodes

/-! ### The pages -/

/-- The bitmap and the free list of the cache, with the nodes that were ever made. The
`next` of a `FreeBlock` and of a `MemoryBlock` is that of their node. -/
structure PageMemory where
  pageBitmap : List Bool
  freeListHead : Option ℕ
  freeBlocks : Heap FreeBlock
  /-- The nodes of type `MemoryBlock`, by their `page_index`. -/
  memoryBlocks : Heap ℕ
deriving DecidableEq, Repr

/-- `page_bitmap[page] = bit`. -/
def setBit (bitmap : List Bool) (page : ℕ) (bit : Bool) : Option (List Bool) :=
  if page < bitmap.length then some (bitmap.set page bit) else none

namespace PageMemory

/-- The end of `add_to_free_list`: `new_block` is linked behind `current`. -/
def linkAfter (h : Heap FreeBlock) (new current : ℕ) : Option (Heap FreeBlock) := do
  let node ← h.read current
  let h ← h.setNext new node.next
  h.setNext current (some new)

/-- The loop of `add_to_free_list`, and what comes after it. -/
def insertAfter (new startPage : ℕ) : ℕ → Heap FreeBlock → ℕ → Option (Heap FreeBlock)
  | 0, _, _ => none
  | fuel + 1, h, current => do
    let node ← h.read current
    match node.next with
    | none => linkAfter h new current
    | some next =>
      let nextNode ← h.read next
      if nextNode.value.startPage < startPage then insertAfter new startPage fuel h next
      else linkAfter h new current

/-- `add_to_free_list`. -/
def addToFreeList (m : PageMemory) (startPage numPages : ℕ) : Option PageMemory :=
  let new := m.freeBlocks.size
  let h := m.freeBlocks.make ⟨startPage, numPages⟩
  match m.freeListHead with
  | none => do
    let h ← h.setNext new none
    some { m with freeBlocks := h, freeListHead := some new }
  | some head => do
    let node ← h.read head
    if startPage < node.value.startPage then
      let h ← h.setNext new (some head)
      some { m with freeBlocks := h, freeListHead := some new }
    else
      let h ← insertAfter new startPage h.size h head
      some { m with freeBlocks := h }

/-- The loop of `coalesce_free_blocks`. -/
def coalesceFrom : ℕ → Heap FreeBlock → Option ℕ → Option (Heap FreeBlock)
  | 0, _, _ => none
  | _ + 1, h, none => some h
  | fuel + 1, h, some current => do
    let node ← h.read current
    match node.next with
    | none => some h
    | some next =>
      let nextNode ← h.read next
      if node.value.startPage + node.value.numPages = nextNode.value.startPage then
        let h ← h.setValue current
          ⟨node.value.startPage, node.value.numPages + nextNode.value.numPages⟩
        let h ← h.setNext current nextNode.next
        coalesceFrom fuel h (some current)
      else coalesceFrom fuel h (some next)

/-- `coalesce_free_blocks`. -/
def coalesceFreeBlocks (m : PageMemory) : Option PageMemory :=
  match m.freeListHead with
  | none => some m
  | some head => do
    let h ← coalesceFrom m.freeBlocks.size m.freeBlocks (some head)
    some { m with freeBlocks := h }

/-- The loop of `deallocate_pages_linked`. -/
def freeLoop : ℕ → PageMemory → Option ℕ → Option PageMemory
  | 0, _, _ => none
  | _ + 1, m, none => some m
  | fuel + 1, m, some current => do
    let node ← m.memoryBlocks.read current
    let bitmap ← setBit m.pageBitmap node.value false
    let m ← addToFreeList { m with pageBitmap := bitmap } node.value 1
    freeLoop fuel m node.next

/-- `deallocate_pages_linked`. -/
def deallocatePagesLinked (m : PageMemory) (blocks : Option ℕ) : Option PageMemory := do
  let m ← freeLoop (m.memoryBlocks.size + 1) m blocks
  m.coalesceFreeBlocks

/-- `prev->next = p`, or `free_list_head = p` when there is no previous block. -/
def relink (m : PageMemory) (prev p : Option ℕ) : Option PageMemory :=
  match prev with
  | some prev => do
    let h ← m.freeBlocks.setNext prev p
    some { m with freeBlocks := h }
  | none => some { m with freeListHead := p }

/-- The local variables of `allocate_pages_linked`, with the pages. -/
structure Allocating extends PageMemory where
  allocatedBlocks : Option ℕ
  currentBlock : Option ℕ
  pagesAllocated : ℕ
  prev : Option ℕ
  current : Option ℕ

/-- One round of the inner loop of `allocate_pages_linked`: a new memory block at the end
of the chain, and its bit. -/
def takePage (s : Allocating) (page : ℕ) : Option Allocating := do
  let new := s.memoryBlocks.size
  let h := s.memoryBlocks.make page
  let s ← match s.allocatedBlocks with
    | none =>
      some { s with memoryBlocks := h, allocatedBlocks := some new, currentBlock := some new }
    | some _ => do
      let currentBlock ← s.currentBlock
      let h ← h.setNext currentBlock (some new)
      some { s with memoryBlocks := h, currentBlock := some new }
  let bitmap ← setBit s.pageBitmap page true
  some { s with pageBitmap := bitmap }

/-- The outer loop of `allocate_pages_linked`. -/
def allocateLoop (numPages : ℕ) : ℕ → Allocating → Option Allocating
  | 0, _ => none
  | fuel + 1, s =>
    match s.current with
    | none => some s
    | some current =>
      if s.pagesAllocated < numPages then do
        let node ← s.freeBlocks.read current
        let pagesToTake := min node.value.numPages (numPages - s.pagesAllocated)
        let s ← (List.range' node.value.startPage pagesToTake).foldlM takePage s
        let s := { s with pagesAllocated := s.pagesAllocated + pagesToTake }
        if pagesToTake = node.value.numPages then
          let m ← s.toPageMemory.relink s.prev node.next
          allocateLoop numPages fuel { s with toPageMemory := m, current := node.next }
        else
          let h ← s.freeBlocks.setValue current
            ⟨node.value.startPage + pagesToTake, node.value.numPages - pagesToTake⟩
          allocateLoop numPages fuel
            { s with freeBlocks := h, prev := some current, current := node.next }
      else some s

/-- `allocate_pages_linked`. -/
def allocatePagesLinked (m : PageMemory) (numPages : ℕ) : Option (Option ℕ × PageMemory) :=
  if numPages = 0 then some (none, m)
  else do
    let s ← allocateLoop numPages (m.freeBlocks.size + 1)
      { m with
        allocatedBlocks := none, currentBlock := none, pagesAllocated := 0
        prev := none, current := m.freeListHead }
    if s.pagesAllocated = numPages then some (s.allocatedBlocks, s.toPageMemory)
    else if s.allocatedBlocks.isSome then
      let m ← s.toPageMemory.deallocatePagesLinked s.allocatedBlocks
      some (none, m)
    else some (none, s.toPageMemory)

/-- The split of the block `node` in `allocate_pages`: what it has in front of the range
and behind it becomes a new block each. -/
def cutBlock (startPage numPages : ℕ) (m : PageMemory) (prev : Option ℕ) (node : Node FreeBlock) :
    Option PageMemory := do
  let beforePages := startPage - node.value.startPage
  let afterPages := node.value.startPage + node.value.numPages - (startPage + numPages)
  let (m, prev) ←
    if beforePages > 0 then do
      let before := m.freeBlocks.size
      let h ← (m.freeBlocks.make ⟨node.value.startPage, beforePages⟩).setNext before node.next
      let m ← relink { m with freeBlocks := h } prev (some before)
      some (m, some before)
    else some (m, prev)
  if afterPages > 0 then
    let after := m.freeBlocks.size
    let h ← (m.freeBlocks.make ⟨startPage + numPages, afterPages⟩).setNext after node.next
    relink { m with freeBlocks := h } prev (some after)
  else if beforePages = 0 then m.relink prev node.next
  else some m

/-- The loop of `allocate_pages`, down to the block that holds the range. -/
def splitBlock (startPage numPages : ℕ) :
    ℕ → PageMemory → Option ℕ → Option ℕ → Option PageMemory
  | 0, _, _, _ => none
  | _ + 1, m, _, none => some m
  | fuel + 1, m, prev, some current => do
    let node ← m.freeBlocks.read current
    if node.value.startPage ≤ startPage ∧
        startPage + numPages ≤ node.value.startPage + node.value.numPages then
      cutBlock startPage numPages m prev node
    else splitBlock startPage numPages fuel m (some current) node.next

/-- The loop that sets the bits of a range. -/
def setBits (bitmap : List Bool) (startPage numPages : ℕ) (bit : Bool) : Option (List Bool) :=
  (List.range' startPage numPages).foldlM (fun bitmap page => setBit bitmap page bit) bitmap

/-- `allocate_pages`. -/
def allocatePages (m : PageMemory) (startPage numPages : ℕ) : Option PageMemory := do
  let bitmap ← setBits m.pageBitmap startPage numPages true
  splitBlock startPage numPages (m.freeBlocks.size + 1) { m with pageBitmap := bitmap } none
    m.freeListHead

/-- `deallocate_pages`. -/
def deallocatePages (m : PageMemory) (startPage numPages : ℕ) : Option PageMemory := do
  let bitmap ← setBits m.pageBitmap startPage numPages false
  let m ← addToFreeList { m with pageBitmap := bitmap } startPage numPages
  m.coalesceFreeBlocks

/-- `find_contiguous_pages`. -/
def findContiguousPages (numPages : ℕ) (h : Heap FreeBlock) :
    ℕ → Option ℕ → Option (Option ℕ)
  | 0, _ => none
  | _ + 1, none => some none
  | fuel + 1, some current => do
    let node ← h.read current
    if node.value.numPages ≥ numPages then some (some node.value.startPage)
    else findContiguousPages numPages h fuel node.next

/-- The loop of `get_fragmentation_stats`. -/
def statsLoop (h : Heap FreeBlock) :
    ℕ → PagedCacheServer.PageMemory.FragmentationStats → Option ℕ →
      Option PagedCacheServer.PageMemory.FragmentationStats
  | 0, _, _ => none
  | _ + 1, stats, none => some stats
  | fuel + 1, stats, some current => do
    let node ← h.read current
    statsLoop h fuel
      ⟨stats.freeBlocksCount + 1, max stats.largestFreeBlock node.value.numPages,
        stats.totalFreePages + node.value.numPages⟩ node.next

end PageMemory

/-! ### The cache -/

/-- An entry of the cache. -/
structure CacheEntry where
  key : Bytes
  value : Bytes
  memoryBlocks : Option ℕ
  totalPages : ℕ
  clientId : Bytes
deriving DecidableEq, Repr

/-- The state of a `PagedCache`. -/
structure PagedCache extends PageMemory where
  cacheMap : AList fun _ : Bytes => CacheEntry
  lruOrder : List Bytes

namespace PagedCache

/-- The constructor. -/
def fresh : PagedCache where
  pageBitmap := List.replicate PagedCacheServer.totalPages false
  freeListHead := some 0
  freeBlocks := Heap.make ⟨[]⟩ ⟨0, PagedCacheServer.totalPages⟩
  memoryBlocks := ⟨[]⟩
  cacheMap := ∅
  lruOrder := []

/-- `allocate_pages_linked`, on the pages of the cache. -/
def allocatePagesLinked (s : PagedCache) (numPages : ℕ) : Option (Option ℕ × PagedCache) := do
  let (blocks, m) ← s.toPageMemory.allocatePagesLinked numPages
  some (blocks, { s with toPageMemory := m })

/-- `deallocate_pages_linked`, on the pages of the cache. -/
def deallocatePagesLinked (s : PagedCache) (blocks : Option ℕ) : Option PagedCache := do
  let m ← s.toPageMemory.deallocatePagesLinked blocks
  some { s with toPageMemory := m }

/-- `update_lru`. -/
def updateLru (s : PagedCache) (key : Bytes) : PagedCache :=
  { s with lruOrder := key :: s.lruOrder.erase key }

/-- The loop of `evict_lru_if_needed`, its iterator as in
`PagedCacheServer.PagedCache.evictLoop`. -/
def evictLoop (pagesToFree : ℕ) (requestingClient : Bytes) :
    List Bytes → List Bytes → PagedCache → ℕ → Option (PagedCache × ℕ)
  | [], _, s, pagesFreed => some (s, pagesFreed)
  | lruKey :: rest, passed, s, pagesFreed =>
    if pagesFreed < pagesToFree then
      match s.cacheMap.lookup lruKey with
      | some entry =>
        if entry.clientId ≠ requestingClient then do
          let s' ← s.deallocatePagesLinked entry.memoryBlocks
          evictLoop pagesToFree requestingClient rest passed
            { s' with cacheMap := s'.cacheMap.erase lruKey, lruOrder := rest.reverse ++ passed }
            (pagesFreed + entry.totalPages)
        else evictLoop pagesToFree requestingClient rest (lruKey :: passed) s pagesFreed
      | none => evictLoop pagesToFree requestingClient rest (lruKey :: passed) s pagesFreed
    else some (s, pagesFreed)

/-- `evict_lru_if_needed`. -/
def evictLruIfNeeded (s : PagedCache) (pagesNeeded : ℕ) (requestingClient : Bytes) :
    Option (Bool × PagedCache) :=
  let freePages := s.pageBitmap.count false
  if freePages ≥ pagesNeeded then some (true, s)
  else do
    let pagesToFree := pagesNeeded - freePages
    let (s, pagesFreed) ← evictLoop pagesToFree requestingClient s.lruOrder.reverse [] s 0
    some (decide (pagesFreed ≥ pagesToFree), s)

/-- `allocate_pages_linked`, and once more after an eviction: the way `add_key` and
`update_key` come by their pages. -/
def findRoom (s : PagedCache) (pagesNeeded : ℕ) (clientId : Bytes) :
    Option (Option ℕ × PagedCache) := do
  let (blocks, s) ← s.allocatePagesLinked pagesNeeded
  match blocks with
  | some block => some (some block, s)
  | none =>
    let (room, s) ← s.evictLruIfNeeded pagesNeeded clientId
    if room = false then some (none, s)
    else s.allocatePagesLinked pagesNeeded

/-- `add_key`. -/
def addKey (s : PagedCache) (key value clientId : Bytes) :
    Option (OperationResult × PagedCache) :=
  if key ∈ s.cacheMap then some (.keyExists, s)
  else do
    let pagesNeeded := calculatePagesNeeded value
    let (allocatedBlocks, s) ← s.findRoom pagesNeeded clientId
    match allocatedBlocks with
    | none => some (.noSpace, s)
    | some block =>
      let entry : CacheEntry := ⟨key, value, some block, pagesNeeded, clientId⟩
      let s := { s with cacheMap := s.cacheMap.insert key entry }
      some (.success, s.updateLru key)

/-- The restoration of the old allocation in `update_key`. -/
def restoreBlocks (s : PagedCache) (key : Bytes) (entry : CacheEntry) : Option PagedCache := do
  let (restoreBlocks, s) ← s.allocatePagesLinked entry.totalPages
  match restoreBlocks with
  | none => some s
  | some block =>
    some { s with cacheMap := s.cacheMap.insert key { entry with memoryBlocks := some block } }

/-- `update_key`. -/
def updateKey (s : PagedCache) (key value clientId : Bytes) :
    Option (OperationResult × PagedCache) :=
  match s.cacheMap.lookup key with
  | none => some (.keyNotFound, s)
  | some entry =>
    if entry.clientId ≠ clientId then some (.clientMismatch, s)
    else
      let newPagesNeeded := calculatePagesNeeded value
      if newPagesNeeded ≤ entry.totalPages then
        let s := { s with cacheMap := s.cacheMap.insert key { entry with value := value } }
        some (.success, s.updateLru key)
      else do
        let s ← s.deallocatePagesLinked entry.memoryBlocks
        let (newBlocks, s) ← s.findRoom newPagesNeeded clientId
        match newBlocks with
        | none =>
          let s ← s.restoreBlocks key entry
          some (.noSpace, s)
        | some block =>
          let entry := { entry with
            value := value, memoryBlocks := some block, totalPages := newPagesNeeded }
          let s := { s with cacheMap := s.cacheMap.insert key entry }
          some (.success, s.updateLru key)

/-- `get_key`. -/
def getKey (s : PagedCache) (key value clientId : Bytes) :
    (OperationResult × Bytes) × PagedCache :=
  match s.cacheMap.lookup key with
  | none => ((.keyNotFound, value), s)
  | some entry =>
    if entry.clientId ≠ clientId then ((.clientMismatch, value), s)
    else ((.success, entry.value), s.updateLru key)

/-- `delete_key`. -/
def deleteKey (s : PagedCache) (key clientId : Bytes) : Option (OperationResult × PagedCache) :=
  match s.cacheMap.lookup key with
  | none => some (.keyNotFound, s)
  | some entry =>
    if entry.clientId ≠ clientId then some (.clientMismatch, s)
    else do
      let s ← s.deallocatePagesLinked entry.memoryBlocks
      some (.success, { s with
        lruOrder := s.lruOrder.erase key, cacheMap := s.cacheMap.erase key })

/-- One call on the cache. -/
def step (s : PagedCache) : PagedCacheServer.PagedCache.Call →
    Option (PagedCacheServer.PagedCache.Reply × PagedCache)
  | .add key value clientId => do
    let (result, s) ← s.addKey key value clientId
    some (⟨result, []⟩, s)
  | .update key value clientId => do
    let (result, s) ← s.updateKey key value clientId
    some (⟨result, []⟩, s)
  | .get key clientId =>
    let r := s.getKey key [] clientId
    some (⟨r.1.1, r.1.2⟩, r.2)
  | .delete key clientId => do
    let (result, s) ← s.deleteKey key clientId
    some (⟨result, []⟩, s)

end PagedCache

end Pointer

end PagedCacheServer
