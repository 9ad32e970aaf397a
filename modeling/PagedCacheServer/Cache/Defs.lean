import Mathlib.Data.List.AList
import Mathlib.Data.List.Range
import PagedCacheServer.Bytes

/-!
# The paged cache

The data and the operations of `PagedCache`, as `cache.h` and `cache.cpp` have
them. Two gigabytes are cut into pages of 40 KB; an entry of the cache owns a
chain of pages, and two redundant structures describe the pages nobody owns: a
bitmap and a list of free blocks sorted by their first page.

Pointers are read as values. A chain of `MemoryBlock` nodes is the list of its
page indices, the null pointer being the empty chain – which is why
`PagedCacheServer.PageMemory.allocatePagesLinked` answers `[]` both when it is
asked for no page and when it runs out of them. The free list is the list of its
blocks. Neither kind of node is ever shared between two lists, so nothing
observes the difference.

Every operation holds the mutex of the cache from its first to its last
statement, and is a function from states to states. `last_access` is written
but never read, and is left out; sizes are naturals, the program never coming
near the end of `size_t`.
-/

namespace PagedCacheServer

/-! ### Configuration -/

/-- `TOTAL_CACHE_SIZE`: two gigabytes. -/
def totalCacheSize : ℕ := 2 * 1024 * 1024 * 1024

/-- `PAGE_SIZE`: forty kilobytes. -/
def pageSize : ℕ := 40 * 1024

/-- `TOTAL_PAGES`. -/
def totalPages : ℕ := totalCacheSize / pageSize

/-! ### The pages -/

/-- A block of consecutive free pages. -/
structure FreeBlock where
  startPage : ℕ
  numPages : ℕ
deriving DecidableEq, Repr

/-- The part of the cache that knows which pages are in use: the bitmap – `true`
for an allocated page – and the free list. -/
structure PageMemory where
  pageBitmap : List Bool
  freeList : List FreeBlock
deriving DecidableEq, Repr

/-- `calculate_pages_needed`. -/
def calculatePagesNeeded (value : Bytes) : ℕ := (value.length + pageSize - 1) / pageSize

namespace PageMemory

/-- The walk of `add_to_free_list` past `current`, down to the last block that
starts below the new one. -/
def insertAfter (new : FreeBlock) : FreeBlock → List FreeBlock → List FreeBlock
  | current, [] => [current, new]
  | current, next :: rest =>
    if next.startPage < new.startPage then current :: insertAfter new next rest
    else current :: new :: next :: rest

/-- `add_to_free_list`. -/
def addToFreeList (m : PageMemory) (startPage numPages : ℕ) : PageMemory :=
  let new : FreeBlock := ⟨startPage, numPages⟩
  match m.freeList with
  | [] => { m with freeList := [new] }
  | head :: rest =>
    if startPage < head.startPage then { m with freeList := new :: head :: rest }
    else { m with freeList := insertAfter new head rest }

/-- The loop of `coalesce_free_blocks`: a block that ends where the next one
starts swallows it, and is compared with the one after. -/
def coalesceFrom : FreeBlock → List FreeBlock → List FreeBlock
  | current, [] => [current]
  | current, next :: rest =>
    if current.startPage + current.numPages = next.startPage then
      coalesceFrom ⟨current.startPage, current.numPages + next.numPages⟩ rest
    else current :: coalesceFrom next rest

/-- `coalesce_free_blocks`. -/
def coalesceFreeBlocks (m : PageMemory) : PageMemory :=
  match m.freeList with
  | [] => m
  | head :: rest => { m with freeList := coalesceFrom head rest }

/-- One round of `deallocate_pages_linked`: clear the bit, and give the page back
as a block of its own. -/
def freePage (m : PageMemory) (page : ℕ) : PageMemory :=
  addToFreeList { m with pageBitmap := m.pageBitmap.set page false } page 1

/-- `deallocate_pages_linked`. -/
def deallocatePagesLinked (m : PageMemory) (blocks : List ℕ) : PageMemory :=
  (blocks.foldl freePage m).coalesceFreeBlocks

/-- Set the bits of `pages` to allocated. -/
def markAllocated (bitmap : List Bool) (pages : List ℕ) : List Bool :=
  pages.foldl (fun bitmap page => bitmap.set page true) bitmap

/-- What the loop of `allocate_pages_linked` leaves behind. -/
structure Allocation where
  memory : PageMemory
  allocatedBlocks : List ℕ
  pagesAllocated : ℕ

/-- The loop of `allocate_pages_linked`, over the free blocks from `current` on:
a block that is used up is unlinked, one that is not is shrunk from the front
and ends the loop. -/
def allocateLoop (numPages : ℕ) : List FreeBlock → List Bool → List ℕ → ℕ → Allocation
  | [], bitmap, blocks, allocated => ⟨⟨bitmap, []⟩, blocks, allocated⟩
  | current :: next, bitmap, blocks, allocated =>
    if allocated < numPages then
      let pagesToTake := min current.numPages (numPages - allocated)
      let taken := List.range' current.startPage pagesToTake
      let r := allocateLoop numPages next (markAllocated bitmap taken) (blocks ++ taken)
        (allocated + pagesToTake)
      if pagesToTake = current.numPages then r
      else
        let shrunk : FreeBlock :=
          ⟨current.startPage + pagesToTake, current.numPages - pagesToTake⟩
        { r with memory := { r.memory with freeList := shrunk :: r.memory.freeList } }
    else ⟨⟨bitmap, current :: next⟩, blocks, allocated⟩

/-- `allocate_pages_linked`. The answer is the chain of the pages taken, empty
when none was asked for or when there were not enough. -/
def allocatePagesLinked (m : PageMemory) (numPages : ℕ) : List ℕ × PageMemory :=
  if numPages = 0 then ([], m)
  else
    let r := allocateLoop numPages m.freeList m.pageBitmap [] 0
    if r.pagesAllocated = numPages then (r.allocatedBlocks, r.memory)
    else if r.allocatedBlocks = [] then ([], r.memory)
    else ([], r.memory.deallocatePagesLinked r.allocatedBlocks)

/-- `find_contiguous_pages`: the start page it finds, if it returns `true`. -/
def findContiguousPages (m : PageMemory) (numPages : ℕ) : Option ℕ :=
  (m.freeList.find? fun current => current.numPages ≥ numPages).map FreeBlock.startPage

/-- The walk of `allocate_pages` to the first free block that holds the range. What
the block has in front of the range and behind it takes its place. -/
def splitBlock (startPage numPages : ℕ) : List FreeBlock → List FreeBlock
  | [] => []
  | current :: next =>
    if current.startPage ≤ startPage ∧
        startPage + numPages ≤ current.startPage + current.numPages then
      let beforePages := startPage - current.startPage
      let afterPages := current.startPage + current.numPages - (startPage + numPages)
      let rest : List FreeBlock :=
        if afterPages > 0 then ⟨startPage + numPages, afterPages⟩ :: next else next
      if beforePages > 0 then ⟨current.startPage, beforePages⟩ :: rest else rest
    else current :: splitBlock startPage numPages next

/-- `allocate_pages`. -/
def allocatePages (m : PageMemory) (startPage numPages : ℕ) : PageMemory where
  pageBitmap := markAllocated m.pageBitmap (List.range' startPage numPages)
  freeList := splitBlock startPage numPages m.freeList

/-- Set the bits of `pages` to free. -/
def markFree (bitmap : List Bool) (pages : List ℕ) : List Bool :=
  pages.foldl (fun bitmap page => bitmap.set page false) bitmap

/-- `deallocate_pages`. -/
def deallocatePages (m : PageMemory) (startPage numPages : ℕ) : PageMemory :=
  (addToFreeList { m with pageBitmap := markFree m.pageBitmap (List.range' startPage numPages) }
    startPage numPages).coalesceFreeBlocks

/-- `get_free_pages`. -/
def getFreePages (m : PageMemory) : ℕ := m.pageBitmap.count false

/-- What `get_fragmentation_stats` counts over the free list. The ratio it
derives from the last two is a floating-point number, and is left out. -/
structure FragmentationStats where
  freeBlocksCount : ℕ
  largestFreeBlock : ℕ
  totalFreePages : ℕ
deriving DecidableEq, Repr

/-- `get_fragmentation_stats`. -/
def getFragmentationStats (m : PageMemory) : FragmentationStats :=
  m.freeList.foldl
    (fun stats current => ⟨stats.freeBlocksCount + 1,
      max stats.largestFreeBlock current.numPages, stats.totalFreePages + current.numPages⟩)
    ⟨0, 0, 0⟩

end PageMemory

/-! ### The cache -/

/-- An entry of the cache. -/
structure CacheEntry where
  key : Bytes
  value : Bytes
  /-- The chain of pages the entry owns. -/
  memoryBlocks : List ℕ
  totalPages : ℕ
  clientId : Bytes
deriving DecidableEq, Repr

/-- The state of a `PagedCache`. -/
structure PagedCache extends PageMemory where
  cacheMap : AList fun _ : Bytes => CacheEntry
  /-- The keys, most recently used first. -/
  lruOrder : List Bytes

/-- `PagedCache::OperationResult`. -/
inductive OperationResult
  | success
  | keyExists
  | keyNotFound
  | noSpace
  | clientMismatch
deriving DecidableEq, Repr

namespace PagedCache

/-- The constructor: every page is free, in one block. -/
def fresh : PagedCache where
  pageBitmap := List.replicate PagedCacheServer.totalPages false
  freeList := [⟨0, PagedCacheServer.totalPages⟩]
  cacheMap := ∅
  lruOrder := []

/-- `allocate_pages_linked`, on the pages of the cache. -/
def allocatePagesLinked (s : PagedCache) (numPages : ℕ) : List ℕ × PagedCache :=
  let r := s.toPageMemory.allocatePagesLinked numPages
  (r.1, { s with toPageMemory := r.2 })

/-- `deallocate_pages_linked`, on the pages of the cache. -/
def deallocatePagesLinked (s : PagedCache) (blocks : List ℕ) : PagedCache :=
  { s with toPageMemory := s.toPageMemory.deallocatePagesLinked blocks }

/-- `update_lru`. -/
def updateLru (s : PagedCache) (key : Bytes) : PagedCache :=
  { s with lruOrder := key :: s.lruOrder.erase key }

/-- The loop of `evict_lru_if_needed`. The reverse iterator splits `lru_order`
in two: the keys still to visit, least recently used first, and the keys passed
over, in their own order. Erasing under the iterator leaves the rest of both. -/
def evictLoop (pagesToFree : ℕ) (requestingClient : Bytes) :
    List Bytes → List Bytes → PagedCache → ℕ → PagedCache × ℕ
  | [], _, s, pagesFreed => (s, pagesFreed)
  | lruKey :: rest, passed, s, pagesFreed =>
    if pagesFreed < pagesToFree then
      match s.cacheMap.lookup lruKey with
      | some entry =>
        if entry.clientId ≠ requestingClient then
          let s' := s.deallocatePagesLinked entry.memoryBlocks
          evictLoop pagesToFree requestingClient rest passed
            { s' with cacheMap := s'.cacheMap.erase lruKey, lruOrder := rest.reverse ++ passed }
            (pagesFreed + entry.totalPages)
        else evictLoop pagesToFree requestingClient rest (lruKey :: passed) s pagesFreed
      | none => evictLoop pagesToFree requestingClient rest (lruKey :: passed) s pagesFreed
    else (s, pagesFreed)

/-- `evict_lru_if_needed`. -/
def evictLruIfNeeded (s : PagedCache) (pagesNeeded : ℕ) (requestingClient : Bytes) :
    Bool × PagedCache :=
  let freePages := s.getFreePages
  if freePages ≥ pagesNeeded then (true, s)
  else
    let pagesToFree := pagesNeeded - freePages
    let r := evictLoop pagesToFree requestingClient s.lruOrder.reverse [] s 0
    (decide (r.2 ≥ pagesToFree), r.1)

/-- `add_key`. -/
def addKey (s : PagedCache) (key value clientId : Bytes) : OperationResult × PagedCache :=
  if key ∈ s.cacheMap then (.keyExists, s)
  else
    let pagesNeeded := calculatePagesNeeded value
    let store (s : PagedCache) (blocks : List ℕ) : PagedCache :=
      { s with cacheMap := s.cacheMap.insert key ⟨key, value, blocks, pagesNeeded, clientId⟩ }
    let first := s.allocatePagesLinked pagesNeeded
    if first.1 = [] then
      let room := first.2.evictLruIfNeeded pagesNeeded clientId
      if room.1 = false then (.noSpace, room.2)
      else
        let second := room.2.allocatePagesLinked pagesNeeded
        if second.1 = [] then (.noSpace, second.2)
        else (.success, (store second.2 second.1).updateLru key)
    else (.success, (store first.2 first.1).updateLru key)

/-- The restoration of the old allocation in `update_key`: as many pages as the
entry had, if they can be had. -/
def restoreBlocks (s : PagedCache) (key : Bytes) (entry : CacheEntry) : PagedCache :=
  let restore := s.allocatePagesLinked entry.totalPages
  if restore.1 = [] then restore.2
  else { restore.2 with
    cacheMap := restore.2.cacheMap.insert key { entry with memoryBlocks := restore.1 } }

/-- `update_key`. -/
def updateKey (s : PagedCache) (key value clientId : Bytes) : OperationResult × PagedCache :=
  match s.cacheMap.lookup key with
  | none => (.keyNotFound, s)
  | some entry =>
    if entry.clientId ≠ clientId then (.clientMismatch, s)
    else
      let newPagesNeeded := calculatePagesNeeded value
      if newPagesNeeded ≤ entry.totalPages then
        let s' : PagedCache :=
          { s with cacheMap := s.cacheMap.insert key { entry with value := value } }
        (.success, s'.updateLru key)
      else
        let store (s : PagedCache) (blocks : List ℕ) : PagedCache :=
          { s with
            cacheMap := s.cacheMap.insert key
              { entry with value := value, memoryBlocks := blocks, totalPages := newPagesNeeded } }
        let released := s.deallocatePagesLinked entry.memoryBlocks
        let first := released.allocatePagesLinked newPagesNeeded
        if first.1 = [] then
          let room := first.2.evictLruIfNeeded newPagesNeeded clientId
          if room.1 = false then (.noSpace, room.2.restoreBlocks key entry)
          else
            let second := room.2.allocatePagesLinked newPagesNeeded
            if second.1 = [] then (.noSpace, second.2.restoreBlocks key entry)
            else (.success, (store second.2 second.1).updateLru key)
        else (.success, (store first.2 first.1).updateLru key)

/-- `get_key`. The second component of the answer is the variable passed by
reference, which is only written on success. -/
def getKey (s : PagedCache) (key value clientId : Bytes) :
    (OperationResult × Bytes) × PagedCache :=
  match s.cacheMap.lookup key with
  | none => ((.keyNotFound, value), s)
  | some entry =>
    if entry.clientId ≠ clientId then ((.clientMismatch, value), s)
    else ((.success, entry.value), s.updateLru key)

/-- `delete_key`. -/
def deleteKey (s : PagedCache) (key clientId : Bytes) : OperationResult × PagedCache :=
  match s.cacheMap.lookup key with
  | none => (.keyNotFound, s)
  | some entry =>
    if entry.clientId ≠ clientId then (.clientMismatch, s)
    else
      let s' := s.deallocatePagesLinked entry.memoryBlocks
      (.success, { s' with
        lruOrder := s'.lruOrder.erase key, cacheMap := s'.cacheMap.erase key })

/-! ### Calls -/

/-- A call of one of the four public operations, with the client that makes it. -/
inductive Call
  | add (key value clientId : Bytes)
  | update (key value clientId : Bytes)
  | get (key clientId : Bytes)
  | delete (key clientId : Bytes)
deriving DecidableEq, Repr

/-- What a call returns: its result and, for a `get_key`, the value read. -/
structure Reply where
  result : OperationResult
  value : Bytes
deriving DecidableEq, Repr

/-- The key a call names. -/
def Call.key : Call → Bytes
  | .add key _ _ | .update key _ _ | .get key _ | .delete key _ => key

/-- The client that makes a call. -/
def Call.clientId : Call → Bytes
  | .add _ _ clientId | .update _ _ clientId | .get _ clientId | .delete _ clientId => clientId

/-- One call on the cache. -/
def step (s : PagedCache) : Call → Reply × PagedCache
  | .add key value clientId =>
    let r := s.addKey key value clientId
    (⟨r.1, []⟩, r.2)
  | .update key value clientId =>
    let r := s.updateKey key value clientId
    (⟨r.1, []⟩, r.2)
  | .get key clientId =>
    let r := s.getKey key [] clientId
    (⟨r.1.1, r.1.2⟩, r.2)
  | .delete key clientId =>
    let r := s.deleteKey key clientId
    (⟨r.1, []⟩, r.2)

end PagedCache

end PagedCacheServer
