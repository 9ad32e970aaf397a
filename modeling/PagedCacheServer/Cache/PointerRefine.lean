import PagedCacheServer.Library.StepMachine
import PagedCacheServer.Cache.PointerPages
import PagedCacheServer.Cache.Refine

/-!
# The cache with pointers does what the cache does

The operations of `PagedCacheServer.Pointer.PagedCache`, on nodes, against those of
`PagedCacheServer.PagedCache`, on lists. A state with pointers stands for one without
(`PagedCacheServer.Pointer.Stands`) when the pages do and every entry points to its chain.

An operation may look at an entry, give its chain back, allocate and evict, and look at
the entry again. What it then finds is what was there: nodes of type `MemoryBlock` are
only ever written while their chain is being built, so that all that happens in between
is a `Nodes.Frame` that leaves every node alone. `PagedCacheServer.Pointer.Follows`
carries that along.

Two results come out for whole runs. The pointers cannot be observed, and what can be is
the abstract store (`PagedCacheServer.Pointer.pointers_run`). And no two entries ever
share a node (`PagedCacheServer.Pointer.chains_apart`), so that giving back the chain of
one cannot touch the chain of another.
-/

namespace PagedCacheServer

namespace Pointer

open Nodes

/-! ### The cache -/

/-- An entry with a pointer to its chain stands for one with the chain itself, the pages
of which are among the first `n`. -/
structure EntryStands (h : Heap ℕ) (n : ℕ) (e' : CacheEntry) (e : PagedCacheServer.CacheEntry) :
    Prop where
  key : e'.key = e.key
  value : e'.value = e.value
  totalPages : e'.totalPages = e.totalPages
  clientId : e'.clientId = e.clientId
  memoryBlocks : PointsTo h e'.memoryBlocks e.memoryBlocks
  inRange : ∀ page ∈ e.memoryBlocks, page < n

theorem EntryStands.frame {h h' : Heap ℕ} {n : ℕ} {e' : CacheEntry}
    {e : PagedCacheServer.CacheEntry} (he : EntryStands h n e' e) (hf : Frame [] h h') :
    EntryStands h' n e' e :=
  { he with memoryBlocks := he.memoryBlocks.frame hf }

/-- The cache with pointers `s'` stands for the cache `s`. -/
structure Stands (s' : PagedCache) (s : PagedCacheServer.PagedCache) : Prop where
  pages : Represents s'.toPageMemory s.toPageMemory
  entries : ∀ k, Option.Rel (EntryStands s'.memoryBlocks s.pageBitmap.length)
    (s'.cacheMap.lookup k) (s.cacheMap.lookup k)
  lruOrder : s'.lruOrder = s.lruOrder

namespace Stands

variable {s' : PagedCache} {s : PagedCacheServer.PagedCache} {k : Bytes}

/-- Both caches have the key, or neither has. -/
theorem lookup_cases (hs : Stands s' s) (k : Bytes) :
    s'.cacheMap.lookup k = none ∧ s.cacheMap.lookup k = none ∨
      ∃ e' e, s'.cacheMap.lookup k = some e' ∧ s.cacheMap.lookup k = some e ∧
        EntryStands s'.memoryBlocks s.pageBitmap.length e' e := by
  have h := hs.entries k
  revert h
  rcases s'.cacheMap.lookup k with _ | e' <;> rcases s.cacheMap.lookup k with _ | e
  · simp
  · rintro ⟨⟩
  · rintro ⟨⟩
  · rintro ⟨he⟩
    exact Or.inr ⟨e', e, rfl, rfl, he⟩

theorem mem_iff (hs : Stands s' s) (k : Bytes) : k ∈ s'.cacheMap ↔ k ∈ s.cacheMap := by
  rw [← AList.lookup_isSome, ← AList.lookup_isSome]
  rcases hs.lookup_cases k with ⟨h₁, h₂⟩ | ⟨e', e, h₁, h₂, -⟩ <;> simp [h₁, h₂]

/-- New pages under the same entries. -/
theorem setPages {p : PageMemory} {m : PagedCacheServer.PageMemory} (hs : Stands s' s)
    (hp : Represents p m) (hf : Frame [] s'.memoryBlocks p.memoryBlocks)
    (hlen : m.pageBitmap.length = s.pageBitmap.length) :
    Stands { s' with toPageMemory := p } { s with toPageMemory := m } where
  pages := hp
  entries k := by
    rcases hs.lookup_cases k with ⟨h₁, h₂⟩ | ⟨e', e, h₁, h₂, he⟩
    · simp [h₁, h₂]
    · simp only [h₁, h₂, hlen]
      exact Option.Rel.some (he.frame hf)
  lruOrder := hs.lruOrder

theorem insert {e' : CacheEntry} {e : PagedCacheServer.CacheEntry} (hs : Stands s' s)
    (he : EntryStands s'.memoryBlocks s.pageBitmap.length e' e) (k : Bytes) :
    Stands { s' with cacheMap := s'.cacheMap.insert k e' }
      { s with cacheMap := s.cacheMap.insert k e } where
  pages := hs.pages
  entries k' := by
    rcases eq_or_ne k' k with rfl | hne
    · simpa only [AList.lookup_insert] using Option.Rel.some he
    · simpa only [AList.lookup_insert_ne hne] using hs.entries k'
  lruOrder := hs.lruOrder

theorem erase (hs : Stands s' s) (k : Bytes) (order : List Bytes) :
    Stands { s' with cacheMap := s'.cacheMap.erase k, lruOrder := order }
      { s with cacheMap := s.cacheMap.erase k, lruOrder := order } where
  pages := hs.pages
  entries k' := by
    rcases eq_or_ne k' k with rfl | hne
    · simp
    · simpa only [AList.lookup_erase_ne hne] using hs.entries k'
  lruOrder := rfl

theorem updateLru (hs : Stands s' s) (k : Bytes) : Stands (s'.updateLru k) (s.updateLru k) where
  pages := hs.pages
  entries := hs.entries
  lruOrder := by simp [PagedCache.updateLru, PagedCacheServer.PagedCache.updateLru, hs.lruOrder]

end Stands

/-- The step from `s'` to `t'` follows the one from `s` to `t`: the result stands for the
result, and no chain of memory blocks was rewritten on the way. -/
structure Follows (s' : PagedCache) (s : PagedCacheServer.PagedCache) (t' : PagedCache)
    (t : PagedCacheServer.PagedCache) : Prop where
  stands : Stands t' t
  frame : Frame [] s'.memoryBlocks t'.memoryBlocks
  length : t.pageBitmap.length = s.pageBitmap.length

section Operations

variable {s' t' u' : PagedCache} {s t u : PagedCacheServer.PagedCache} {k c : Bytes} {n : ℕ}

theorem Follows.trans (h₁ : Follows s' s t' t) (h₂ : Follows t' t u' u) : Follows s' s u' u :=
  ⟨h₂.stands, h₁.frame.trans h₂.frame, h₂.length.trans h₁.length⟩

theorem Stands.refl (hs : Stands s' s) : Follows s' s s' s := ⟨hs, Frame.refl _ _, rfl⟩

/-- An entry of the first cache, seen from the second. -/
theorem Follows.entry {e' : CacheEntry} {e : PagedCacheServer.CacheEntry}
    (h : Follows s' s t' t) (he : EntryStands s'.memoryBlocks s.pageBitmap.length e' e) :
    EntryStands t'.memoryBlocks t.pageBitmap.length e' e := by
  rw [h.length]
  exact he.frame h.frame

theorem Stands.deallocatePagesLinked {e' : CacheEntry} {e : PagedCacheServer.CacheEntry}
    (hs : Stands s' s) (he : EntryStands s'.memoryBlocks s.pageBitmap.length e' e) :
    ∃ t', s'.deallocatePagesLinked e'.memoryBlocks = some t' ∧
      Follows s' s t' (s.deallocatePagesLinked e.memoryBlocks) := by
  obtain ⟨p, hfree, hp, hmem⟩ := hs.pages.deallocatePagesLinked he.memoryBlocks he.inRange
  have hf : Frame [] s'.memoryBlocks p.memoryBlocks := by
    rw [hmem]
    exact Frame.refl _ _
  have hlen := length_deallocatePagesLinked s.toPageMemory e.memoryBlocks
  refine ⟨_, ?_, hs.setPages hp hf hlen, hf, hlen⟩
  simp only [PagedCache.deallocatePagesLinked, Option.bind_eq_bind, hfree, Option.bind_some]

/-- An allocation on both sides: the same pages, or none. -/
structure Allocated (s' : PagedCache) (s : PagedCacheServer.PagedCache) (q : Option ℕ)
    (t' : PagedCache) (r : List ℕ × PagedCacheServer.PagedCache) : Prop where
  follows : Follows s' s t' r.2
  pointsTo : PointsTo t'.memoryBlocks q r.1
  inRange : ∀ page ∈ r.1, page < r.2.pageBitmap.length

theorem Stands.allocatePagesLinked (hs : Stands s' s) (n : ℕ) :
    ∃ q t', s'.allocatePagesLinked n = some (q, t') ∧
      Allocated s' s q t' (s.allocatePagesLinked n) := by
  obtain ⟨q, p, halloc, hp, hq, hf, hrange⟩ := hs.pages.allocatePagesLinked n
  have hlen := length_allocatePagesLinked s.toPageMemory n
  refine ⟨q, _, ?_, ⟨hs.setPages hp hf hlen, hf, hlen⟩, hq, fun page hpage => ?_⟩
  · simp only [PagedCache.allocatePagesLinked, Option.bind_eq_bind, halloc, Option.bind_some]
  · exact (hrange page hpage).trans_eq hlen.symm

/-- The loop of `evict_lru_if_needed`. -/
theorem Stands.evictLoop (pagesToFree : ℕ) (c : Bytes) (todo passed : List Bytes)
    (pagesFreed : ℕ) (hs : Stands s' s) :
    ∃ t', s'.evictLoop pagesToFree c todo passed pagesFreed =
        some (t', (s.evictLoop pagesToFree c todo passed pagesFreed).2) ∧
      Follows s' s t' (s.evictLoop pagesToFree c todo passed pagesFreed).1 := by
  induction todo generalizing s' s passed pagesFreed with
  | nil => exact ⟨s', rfl, hs.refl⟩
  | cons k rest ih =>
    rw [PagedCache.evictLoop, PagedCacheServer.PagedCache.evictLoop]
    by_cases hlt : pagesFreed < pagesToFree
    swap
    · rw [if_neg hlt, if_neg hlt]
      exact ⟨s', rfl, hs.refl⟩
    rw [if_pos hlt, if_pos hlt]
    rcases hs.lookup_cases k with ⟨hk', hk⟩ | ⟨e', e, hk', hk, he⟩
    · rw [hk', hk]
      exact ih _ _ hs
    · rw [hk', hk]
      dsimp only
      rw [he.clientId, he.totalPages]
      by_cases hc : e.clientId ≠ c
      · rw [if_pos hc, if_pos hc]
        obtain ⟨t', hfree, hf⟩ := hs.deallocatePagesLinked he
        obtain ⟨u', hrun, hf'⟩ := ih passed (pagesFreed + e.totalPages)
          (hf.stands.erase k (rest.reverse ++ passed))
        refine ⟨u', ?_, hf'.stands, hf.frame.trans hf'.frame, hf'.length.trans hf.length⟩
        rw [hfree, Option.bind_eq_bind, Option.bind_some, hrun]
      · rw [if_neg hc, if_neg hc]
        exact ih _ _ hs

/-- `evict_lru_if_needed`. -/
theorem Stands.evictLruIfNeeded (n : ℕ) (c : Bytes) (hs : Stands s' s) :
    ∃ t', s'.evictLruIfNeeded n c = some ((s.evictLruIfNeeded n c).1, t') ∧
      Follows s' s t' (s.evictLruIfNeeded n c).2 := by
  rw [PagedCache.evictLruIfNeeded, hs.pages.pageBitmap, hs.lruOrder]
  by_cases hfree : s.getFreePages ≥ n
  · rw [show s.evictLruIfNeeded n c = (true, s) from if_pos hfree]
    exact ⟨s', if_pos hfree, hs.refl⟩
  · obtain ⟨t', hrun, hf⟩ := hs.evictLoop (n - s.getFreePages) c s.lruOrder.reverse [] 0
    rw [show s.evictLruIfNeeded n c = (_, _) from if_neg hfree]
    refine ⟨t', (if_neg hfree).trans ?_, hf⟩
    exact congrArg (Option.bind · _) hrun

/-- The pages `add_key` and `update_key` come by, on lists. -/
def findRoom (s : PagedCacheServer.PagedCache) (n : ℕ) (c : Bytes) :
    List ℕ × PagedCacheServer.PagedCache :=
  let first := s.allocatePagesLinked n
  if first.1 = [] then
    let room := first.2.evictLruIfNeeded n c
    if room.1 = false then ([], room.2) else room.2.allocatePagesLinked n
  else first

theorem Stands.findRoom (n : ℕ) (c : Bytes) (hs : Stands s' s) :
    ∃ q t', s'.findRoom n c = some (q, t') ∧ Allocated s' s q t' (findRoom s n c) := by
  obtain ⟨q, t', halloc, hfirst⟩ := hs.allocatePagesLinked n
  unfold PagedCache.findRoom Pointer.findRoom
  rw [halloc, Option.bind_eq_bind, Option.bind_some]
  rcases q with _ | block
  · have hnil : (s.allocatePagesLinked n).1 = [] := hfirst.pointsTo.eq_none_iff.mp rfl
    obtain ⟨u', hevict, hf⟩ := hfirst.follows.stands.evictLruIfNeeded n c
    rw [if_pos hnil]
    dsimp only
    rw [hevict, Option.bind_eq_bind, Option.bind_some]
    dsimp only
    split
    · exact ⟨none, u', rfl, hfirst.follows.trans hf, pointsTo_none _, by simp⟩
    · obtain ⟨q, v', hsecond, ha⟩ := hf.stands.allocatePagesLinked n
      exact ⟨q, v', hsecond, (hfirst.follows.trans hf).trans ha.follows, ha.pointsTo, ha.inRange⟩
  · have hcons : (s.allocatePagesLinked n).1 ≠ [] := fun hnil => by
      simpa using hfirst.pointsTo.eq_none_iff.mpr hnil
    rw [if_neg hcons]
    exact ⟨some block, t', rfl, hfirst⟩

theorem addKey_eq_findRoom (s : PagedCacheServer.PagedCache) (key value clientId : Bytes) :
    s.addKey key value clientId =
      if key ∈ s.cacheMap then (.keyExists, s)
      else
        let r := findRoom s (calculatePagesNeeded value) clientId
        if r.1 = [] then (.noSpace, r.2)
        else
          let stored : PagedCacheServer.PagedCache := { r.2 with
            cacheMap := r.2.cacheMap.insert key
              ⟨key, value, r.1, calculatePagesNeeded value, clientId⟩ }
          (.success, stored.updateLru key) := by
  unfold PagedCacheServer.PagedCache.addKey findRoom
  split
  · rfl
  · dsimp only
    split
    · split <;> rfl
    · rfl

theorem updateKey_eq_findRoom {e : PagedCacheServer.CacheEntry} {key value clientId : Bytes}
    (hk : s.cacheMap.lookup key = some e) (hc : e.clientId = clientId)
    (hn : e.totalPages < calculatePagesNeeded value) :
    s.updateKey key value clientId =
      let r := findRoom (s.deallocatePagesLinked e.memoryBlocks) (calculatePagesNeeded value)
        clientId
      if r.1 = [] then (.noSpace, r.2.restoreBlocks key e)
      else
        let stored : PagedCacheServer.PagedCache := { r.2 with
          cacheMap := r.2.cacheMap.insert key
            { e with
              value := value, memoryBlocks := r.1, totalPages := calculatePagesNeeded value } }
        (.success, stored.updateLru key) := by
  unfold PagedCacheServer.PagedCache.updateKey findRoom
  rw [hk]
  dsimp only
  rw [if_neg (by simpa using hc), if_neg (by omega)]
  split
  · split <;> rfl
  · rfl

/-- `add_key`. -/
theorem Stands.addKey (key value clientId : Bytes) (hs : Stands s' s) :
    ∃ t', s'.addKey key value clientId = some ((s.addKey key value clientId).1, t') ∧
      Stands t' (s.addKey key value clientId).2 := by
  rw [addKey_eq_findRoom, PagedCache.addKey]
  by_cases hk : key ∈ s.cacheMap
  · rw [if_pos hk, if_pos ((hs.mem_iff key).mpr hk)]
    exact ⟨s', rfl, hs⟩
  · rw [if_neg hk, if_neg (mt (hs.mem_iff key).mp hk)]
    obtain ⟨q, t', hroom, ha⟩ := hs.findRoom (calculatePagesNeeded value) clientId
    simp only [hroom, Option.bind_eq_bind, Option.bind_some]
    rcases q with _ | block
    · have hnil := ha.pointsTo.eq_none_iff.mp rfl
      simp only [if_pos hnil]
      exact ⟨t', rfl, ha.follows.stands⟩
    · have hcons : (Pointer.findRoom s (calculatePagesNeeded value) clientId).1 ≠ [] :=
        fun hnil => by simpa using ha.pointsTo.eq_none_iff.mpr hnil
      simp only [if_neg hcons]
      refine ⟨_, rfl, (ha.follows.stands.insert ?_ key).updateLru key⟩
      exact ⟨rfl, rfl, rfl, rfl, ha.pointsTo, ha.inRange⟩

/-- The restoration of the old allocation in `update_key`. -/
theorem Stands.restoreBlocks {e' : CacheEntry} {e : PagedCacheServer.CacheEntry} (key : Bytes)
    (hs : Stands s' s) (he : EntryStands s'.memoryBlocks s.pageBitmap.length e' e) :
    ∃ t', s'.restoreBlocks key e' = some t' ∧ Stands t' (s.restoreBlocks key e) := by
  obtain ⟨q, t', halloc, ha⟩ := hs.allocatePagesLinked e.totalPages
  rw [PagedCache.restoreBlocks, PagedCacheServer.PagedCache.restoreBlocks, he.totalPages, halloc,
    Option.bind_eq_bind, Option.bind_some]
  rcases q with _ | block
  · simp only [if_pos (ha.pointsTo.eq_none_iff.mp rfl)]
    exact ⟨t', rfl, ha.follows.stands⟩
  · have hcons : (s.allocatePagesLinked e.totalPages).1 ≠ [] :=
      fun hnil => by simpa using ha.pointsTo.eq_none_iff.mpr hnil
    simp only [if_neg hcons]
    refine ⟨_, rfl, ha.follows.stands.insert ?_ key⟩
    exact ⟨he.key, he.value, rfl, he.clientId, ha.pointsTo, ha.inRange⟩

/-- `update_key`. -/
theorem Stands.updateKey (key value clientId : Bytes) (hs : Stands s' s) :
    ∃ t', s'.updateKey key value clientId = some ((s.updateKey key value clientId).1, t') ∧
      Stands t' (s.updateKey key value clientId).2 := by
  rcases hs.lookup_cases key with ⟨hk', hk⟩ | ⟨e', e, hk', hk, he⟩
  · simp only [PagedCache.updateKey, PagedCacheServer.PagedCache.updateKey, hk', hk]
    exact ⟨s', rfl, hs⟩
  by_cases hc : e.clientId ≠ clientId
  · simp only [PagedCache.updateKey, PagedCacheServer.PagedCache.updateKey, hk', hk, he.clientId,
      if_pos hc]
    exact ⟨s', rfl, hs⟩
  by_cases hn : calculatePagesNeeded value ≤ e.totalPages
  · simp only [PagedCache.updateKey, PagedCacheServer.PagedCache.updateKey, hk', hk, he.clientId,
      he.totalPages, if_neg hc, if_pos hn]
    refine ⟨_, rfl, (hs.insert ?_ key).updateLru key⟩
    exact ⟨he.key, rfl, rfl, rfl, he.memoryBlocks, he.inRange⟩
  rw [updateKey_eq_findRoom hk (not_not.mp hc) (not_le.mp hn)]
  obtain ⟨t', hfree, hf⟩ := hs.deallocatePagesLinked he
  obtain ⟨q, u', hroom, ha⟩ := hf.stands.findRoom (calculatePagesNeeded value) clientId
  simp only [PagedCache.updateKey, hk', he.clientId, he.totalPages, if_neg hc, if_neg hn, hfree,
    hroom, Option.bind_eq_bind, Option.bind_some]
  rcases q with _ | block
  · have hnil := ha.pointsTo.eq_none_iff.mp rfl
    obtain ⟨v', hrestore, hv⟩ := ha.follows.stands.restoreBlocks key
      ((hf.trans ha.follows).entry he)
    simp only [if_pos hnil, hrestore, Option.bind_some]
    exact ⟨v', rfl, hv⟩
  · have hcons : (Pointer.findRoom (s.deallocatePagesLinked e.memoryBlocks)
        (calculatePagesNeeded value) clientId).1 ≠ [] :=
      fun hnil => by simpa using ha.pointsTo.eq_none_iff.mpr hnil
    simp only [if_neg hcons]
    refine ⟨_, rfl, (ha.follows.stands.insert ?_ key).updateLru key⟩
    exact ⟨he.key, rfl, rfl, rfl, ha.pointsTo, ha.inRange⟩

/-- `get_key`. -/
theorem Stands.getKey (key value clientId : Bytes) (hs : Stands s' s) :
    (s'.getKey key value clientId).1 = (s.getKey key value clientId).1 ∧
      Stands (s'.getKey key value clientId).2 (s.getKey key value clientId).2 := by
  unfold PagedCache.getKey PagedCacheServer.PagedCache.getKey
  rcases hs.lookup_cases key with ⟨hk', hk⟩ | ⟨e', e, hk', hk, he⟩
  · simp only [hk', hk]
    exact ⟨trivial, hs⟩
  · simp only [hk', hk, he.clientId, he.value]
    split
    · exact ⟨rfl, hs⟩
    · exact ⟨rfl, hs.updateLru key⟩

/-- `delete_key`. -/
theorem Stands.deleteKey (key clientId : Bytes) (hs : Stands s' s) :
    ∃ t', s'.deleteKey key clientId = some ((s.deleteKey key clientId).1, t') ∧
      Stands t' (s.deleteKey key clientId).2 := by
  unfold PagedCache.deleteKey PagedCacheServer.PagedCache.deleteKey
  rcases hs.lookup_cases key with ⟨hk', hk⟩ | ⟨e', e, hk', hk, he⟩
  · simp only [hk', hk]
    exact ⟨s', rfl, hs⟩
  · simp only [hk', hk, he.clientId]
    by_cases hc : e.clientId ≠ clientId
    · simp only [if_pos hc]
      exact ⟨s', rfl, hs⟩
    · obtain ⟨t', hfree, hf⟩ := hs.deallocatePagesLinked he
      simp only [if_neg hc, hfree, Option.bind_eq_bind, Option.bind_some]
      rw [hf.stands.lruOrder]
      exact ⟨_, rfl, hf.stands.erase key _⟩

/-- **One call**, with pointers and without. -/
theorem Stands.step (hs : Stands s' s) (call : PagedCacheServer.PagedCache.Call) :
    ∃ t', s'.step call = some ((s.step call).1, t') ∧ Stands t' (s.step call).2 := by
  cases call with
  | add key value clientId =>
    obtain ⟨t', hadd, ht⟩ := hs.addKey key value clientId
    exact ⟨t', by simp only [PagedCache.step, hadd]; rfl, ht⟩
  | update key value clientId =>
    obtain ⟨t', hupdate, ht⟩ := hs.updateKey key value clientId
    exact ⟨t', by simp only [PagedCache.step, hupdate]; rfl, ht⟩
  | get key clientId =>
    obtain ⟨hreply, ht⟩ := hs.getKey key [] clientId
    exact ⟨_, by simp only [PagedCache.step, hreply]; rfl, ht⟩
  | delete key clientId =>
    obtain ⟨t', hdelete, ht⟩ := hs.deleteKey key clientId
    exact ⟨t', by simp only [PagedCache.step, hdelete]; rfl, ht⟩

end Operations

/-! ### Runs -/

theorem stands_fresh : Stands PagedCache.fresh PagedCacheServer.PagedCache.fresh where
  pages := represents_fresh
  entries k := by
    simp [PagedCache.fresh, PagedCacheServer.PagedCache.fresh, AList.lookup_empty]
  lruOrder := rfl

theorem exists_run (calls : List PagedCacheServer.PagedCache.Call) :
    ∃ s', StepMachine.run PagedCache.step PagedCache.fresh calls =
        some (StepMachine.history PagedCacheServer.PagedCache.step
          PagedCacheServer.PagedCache.fresh calls, s') ∧
      Stands s' (StepMachine.after PagedCacheServer.PagedCache.step
        PagedCacheServer.PagedCache.fresh calls) :=
  StepMachine.run_of_simulation (P := fun _ => True) (fun _ _ call _ hs => hs.step call)
    stands_fresh calls fun _ _ => trivial

/-- **The pointers are safe, and invisible.** Whatever calls the cache serves, no null
pointer is followed, no bit beyond the end of the bitmap is written and every loop over
a list ends. The nodes that are left stand for the lists of the cache without pointers,
and the replies are those of the abstract store: nodes, bitmap, free list and chains
together are a map, an order on its keys and a number of free pages. -/
theorem pointers_run (calls : List PagedCacheServer.PagedCache.Call) :
    ∃ s', StepMachine.run PagedCache.step PagedCache.fresh calls =
        some (StepMachine.history Store.step
          ⟨fun _ => none, [], PagedCacheServer.totalPages⟩ calls, s') ∧
      Stands s' (StepMachine.after PagedCacheServer.PagedCache.step
        PagedCacheServer.PagedCache.fresh calls) := by
  obtain ⟨s', hrun, hs⟩ := exists_run calls
  rw [(PagedCacheServer.PagedCache.view_after calls).2,
    PagedCacheServer.PagedCache.fresh_view] at hrun
  exact ⟨s', hrun, hs⟩

section Sharing

variable {s' : PagedCache} {s : PagedCacheServer.PagedCache} {k : Bytes} {e' : CacheEntry}
  {cells : List (ℕ × ℕ)}

/-- The chain an entry points to, and the entry it stands for. -/
theorem Stands.exists_chain (hs : Stands s' s) (hk : s'.cacheMap.lookup k = some e') :
    ∃ e cells, s.cacheMap.lookup k = some e ∧ Chain s'.memoryBlocks e'.memoryBlocks cells ∧
      values cells = e.memoryBlocks ∧ e'.totalPages = e.totalPages := by
  rcases hs.lookup_cases k with ⟨hk', -⟩ | ⟨e₁, e, hk', hlookup, he⟩
  · rw [hk'] at hk
    simp at hk
  · obtain rfl : e₁ = e' := Option.some.inj (hk'.symm.trans hk)
    obtain ⟨cells, hc, hvalues⟩ := he.memoryBlocks
    exact ⟨e, cells, hlookup, hc, hvalues, he.totalPages⟩

/-- The chains of two entries of a well-formed cache have no node in common: it would
put its page into both. -/
theorem Stands.disjoint {k₂ : Bytes} {e₂ : CacheEntry} {cells₂ : List (ℕ × ℕ)} (hs : Stands s' s)
    (h : s.Wf) (hk : s'.cacheMap.lookup k = some e') (hk₂ : s'.cacheMap.lookup k₂ = some e₂)
    (hne : k ≠ k₂) (hc : Chain s'.memoryBlocks e'.memoryBlocks cells)
    (hc₂ : Chain s'.memoryBlocks e₂.memoryBlocks cells₂) :
    (addresses cells).Disjoint (addresses cells₂) := by
  intro a ha ha₂
  obtain ⟨c, hmem, rfl⟩ := List.mem_map.mp ha
  obtain ⟨c₂, hmem₂, haddr⟩ := List.mem_map.mp ha₂
  obtain ⟨next, hread⟩ := hc.exists_read hmem
  obtain ⟨next₂, hread₂⟩ := hc₂.exists_read hmem₂
  have hpage : c₂.2 = c.2 := by
    rw [haddr, hread, Option.some.injEq, Node.mk.injEq] at hread₂
    exact hread₂.1.symm
  obtain ⟨e, cells', hlookup, hc', hvalues, -⟩ := hs.exists_chain hk
  obtain ⟨d, cells₂', hlookup₂, hc₂', hvalues₂, -⟩ := hs.exists_chain hk₂
  refine hne (h.pages.disjoint k k₂ e d c.2 ⟨hlookup, by simp⟩ ⟨hlookup₂, by simp⟩ ?_ ?_)
  · rw [← hvalues, ← hc.unique hc']
    exact List.mem_map_of_mem hmem
  · rw [← hvalues₂, ← hc₂.unique hc₂', ← hpage]
    exact List.mem_map_of_mem hmem₂

end Sharing

/-- **No two entries share a node.** In every state the cache can reach, each entry
points to a chain with as many nodes as it counts pages, and the chains of different keys
have no node in common. -/
theorem chains_apart (calls : List PagedCacheServer.PagedCache.Call) :
    ∃ hist s', StepMachine.run PagedCache.step PagedCache.fresh calls = some (hist, s') ∧
      (∀ k e, s'.cacheMap.lookup k = some e →
        ∃ cells, Chain s'.memoryBlocks e.memoryBlocks cells ∧ cells.length = e.totalPages) ∧
      ∀ k₁ k₂ e₁ e₂ cells₁ cells₂, k₁ ≠ k₂ → s'.cacheMap.lookup k₁ = some e₁ →
        s'.cacheMap.lookup k₂ = some e₂ → Chain s'.memoryBlocks e₁.memoryBlocks cells₁ →
        Chain s'.memoryBlocks e₂.memoryBlocks cells₂ →
        (addresses cells₁).Disjoint (addresses cells₂) := by
  obtain ⟨s', hrun, hs⟩ := exists_run calls
  have hwf := PagedCacheServer.PagedCache.wf_after calls
  refine ⟨_, s', hrun, fun k e' hk => ?_, fun k₁ k₂ e₁ e₂ cells₁ cells₂ hne hk₁ hk₂ hc₁ hc₂ =>
    hs.disjoint hwf hk₁ hk₂ hne hc₁ hc₂⟩
  obtain ⟨e, cells, hlookup, hc, hvalues, hpages⟩ := hs.exists_chain hk
  refine ⟨cells, hc, ?_⟩
  rw [hpages, ← (hwf.pages.entry k e hlookup).length, ← hvalues, List.length_map]

end Pointer

end PagedCacheServer
