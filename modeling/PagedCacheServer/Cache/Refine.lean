import PagedCacheServer.Cache.Invariant
import PagedCacheServer.Cache.Steps

/-!
# The code refines the specification

`PagedCacheServer.PagedCache.view` forgets the pages of a cache and keeps what a
client can observe: what each key is bound to, the recency order, the number of
free pages. Each operation of the code, seen through it, is the operation of
`PagedCacheServer.Store` of the same name, gives the same answer, and keeps the
invariant (`PagedCacheServer.PagedCache.Wf.step`).

The one loop of the argument is the eviction sweep: as long as it lacks pages it
drops the next foreign entry, so that what it drops in all is the shortest
prefix of the foreign entries that covers the deficit
(`PagedCacheServer.PagedCache.evictLoop_spec`). It runs with a hole in the
ownership invariant when `update_key` calls it; the hole belongs to the
requesting client and is passed over.

An entry an operation does not name is either left exactly as it was – its chain
included – or gone. This *frame* is not visible in the abstract store, and is
carried along.
-/

namespace PagedCacheServer

namespace PagedCache

/-! ### The view -/

/-- What an entry shows: its owner, its value and its number of pages. -/
def itemOf (e : CacheEntry) : Item Bytes Bytes := ⟨e.clientId, e.value, e.totalPages⟩

/-- **What a client can observe of the cache.** -/
def view (s : PagedCache) : Store Bytes Bytes Bytes where
  item k := (s.cacheMap.lookup k).map itemOf
  order := s.lruOrder
  free := s.getFreePages

variable {s : PagedCache} {hole : Option Bytes} {k c value : Bytes} {e : CacheEntry} {n : ℕ}

theorem view_item (s : PagedCache) (k : Bytes) :
    s.view.item k = (s.cacheMap.lookup k).map itemOf := rfl

theorem view_free (s : PagedCache) : s.view.free = s.getFreePages := rfl

theorem view_item_eq_none : s.view.item k = none ↔ k ∉ s.cacheMap := by
  rw [view_item, Option.map_eq_none_iff, AList.lookup_eq_none]

theorem exists_lookup_of_view_item {i : Item Bytes Bytes} (hi : s.view.item k = some i) :
    ∃ e, s.cacheMap.lookup k = some e ∧ itemOf e = i := Option.map_eq_some_iff.mp hi

theorem view_item_of_lookup (hk : s.cacheMap.lookup k = some e) :
    s.view.item k = some (itemOf e) := by
  rw [view_item, hk, Option.map_some]

theorem view_pagesOf (hk : s.cacheMap.lookup k = some e) : s.view.pagesOf k = e.totalPages := by
  rw [Store.pagesOf, view_item_of_lookup hk]
  rfl

theorem view_foreign (hk : s.cacheMap.lookup k = some e) :
    s.view.foreign c k = decide (e.clientId ≠ c) := by
  rw [Store.foreign, view_item_of_lookup hk]
  rfl

theorem view_foreign_of_none (hk : s.cacheMap.lookup k = none) : s.view.foreign c k = false := by
  rw [Store.foreign, view_item, hk]
  rfl

theorem Wf.inv (h : s.Wf) : s.view.Inv where
  nodup := h.lru.nodup
  mem_order k := by
    rw [view_item, Option.isSome_map, AList.lookup_isSome]
    exact h.lru.mem_iff k
  pos k i hi := by
    obtain ⟨e, he, rfl⟩ := exists_lookup_of_view_item hi
    exact (h.pages.entry k e he).pos

/-- Storing an entry, seen through the view. -/
theorem view_insert (s : PagedCache) (k : Bytes) (e : CacheEntry) :
    ({ s with cacheMap := s.cacheMap.insert k e } : PagedCache).view =
      s.view.bind k (itemOf e) := by
  refine Store.ext (funext fun k' => ?_) rfl rfl
  change ((s.cacheMap.insert k e).lookup k').map itemOf = Function.update s.view.item k _ k'
  rcases eq_or_ne k' k with rfl | hne
  · rw [AList.lookup_insert, Function.update_self, Option.map_some]
  · rw [AList.lookup_insert_ne hne, Function.update_of_ne hne, view_item]

/-- Using a key, seen through the view. -/
theorem view_updateLru (s : PagedCache) (k : Bytes) : (s.updateLru k).view = s.view.touch k :=
  Store.ext rfl (congrArg (List.cons k) (Store.erase_eq _ _).symm) rfl

/-! ### Dropping an entry -/

/-- The cache once the entry `e` under `k` has been dropped. -/
def dropEntry (s : PagedCache) (k : Bytes) (e : CacheEntry) : PagedCache :=
  { s.deallocatePagesLinked e.memoryBlocks with
    cacheMap := s.cacheMap.erase k, lruOrder := s.lruOrder.erase k }

theorem view_dropEntry (hp : PageInv s.toPageMemory s.cacheMap hole)
    (hk : Owns s.cacheMap hole k e) : (s.dropEntry k e).view = s.view.remove k := by
  refine Store.ext (funext fun k' => ?_) (Store.erase_eq _ _).symm ?_
  · rw [Store.remove_item]
    change ((s.cacheMap.erase k).lookup k').map itemOf = _
    rcases eq_or_ne k' k with rfl | hne
    · rw [AList.lookup_erase, if_pos rfl, Option.map_none]
    · rw [AList.lookup_erase_ne hne, if_neg hne, view_item]
  · change (s.toPageMemory.deallocatePagesLinked e.memoryBlocks).getFreePages =
      s.getFreePages + s.view.pagesOf k
    rw [hp.getFreePages_deallocate hk, view_pagesOf hk.1]

/-! ### The eviction sweep -/

/-- What the sweep establishes, between the cache `s` it starts from and the one
it leaves, when it drops the keys `vs`. -/
structure Evicts (s : PagedCache) (hole : Option Bytes) (vs : List Bytes) (s' : PagedCache) :
    Prop where
  pages : PageInv s'.toPageMemory s'.cacheMap hole
  lru : LruInv s'.lruOrder s'.cacheMap
  view : s'.view = s.view.removeAll vs
  lookup : ∀ k, s'.cacheMap.lookup k = if k ∈ vs then none else s.cacheMap.lookup k

theorem Evicts.refl (hp : PageInv s.toPageMemory s.cacheMap hole)
    (hl : LruInv s.lruOrder s.cacheMap) : Evicts s hole [] s :=
  ⟨hp, hl, rfl, fun k => by simp⟩

theorem Evicts.cons {s' : PagedCache} {vs : List Bytes}
    (hp : PageInv s.toPageMemory s.cacheMap hole) (hk : Owns s.cacheMap hole k e)
    (h : Evicts (s.dropEntry k e) hole vs s') : Evicts s hole (k :: vs) s' := by
  refine ⟨h.pages, h.lru, ?_, fun k' => ?_⟩
  · rw [h.view, view_dropEntry hp hk, Store.removeAll_cons]
  · rw [h.lookup]
    change (if k' ∈ vs then none else (s.cacheMap.erase k).lookup k') = _
    rcases eq_or_ne k' k with rfl | hne
    · simp
    · simp [AList.lookup_erase_ne hne, hne]

/-- Making room for a client leaves its own entries alone. -/
theorem Evicts.lookup_of_owner {s' : PagedCache} {d : ℕ}
    (h : Evicts s hole (s.view.victims c d) s')
    (hk : s.cacheMap.lookup k = some e) (hc : e.clientId = c) :
    s'.cacheMap.lookup k = some e := by
  have hnv : k ∉ s.view.victims c d := by
    intro hmem
    have hf := Store.foreign_of_mem_victims hmem
    simp [view_foreign hk, hc] at hf
  rw [h.lookup, if_neg hnv, hk]

/-- Erasing under the reverse iterator is erasing the key it points at. -/
theorem erase_split {rest passed : List Bytes} (hnd : ((k :: rest).reverse ++ passed).Nodup) :
    ((k :: rest).reverse ++ passed).erase k = rest.reverse ++ passed := by
  have hk : k ∉ rest.reverse := by
    rw [List.reverse_cons, List.append_assoc] at hnd
    exact fun hmem => List.disjoint_of_nodup_append hnd hmem (by simp)
  rw [List.reverse_cons, List.append_assoc, List.erase_append_right _ hk, List.singleton_append,
    List.erase_cons_head]

/-- One round of the sweep that drops an entry. -/
theorem evictLoop_cons_of_foreign {pagesToFree pagesFreed : ℕ} {rest passed : List Bytes}
    (hlt : pagesFreed < pagesToFree) (hk : s.cacheMap.lookup k = some e) (hc : e.clientId ≠ c)
    (hnd : s.lruOrder.Nodup) (horder : s.lruOrder = (k :: rest).reverse ++ passed) :
    evictLoop pagesToFree c (k :: rest) passed s pagesFreed =
      evictLoop pagesToFree c rest passed (s.dropEntry k e) (pagesFreed + e.totalPages) := by
  have hdrop : s.dropEntry k e = { s.deallocatePagesLinked e.memoryBlocks with
      cacheMap := s.cacheMap.erase k, lruOrder := rest.reverse ++ passed } := by
    rw [dropEntry, horder, erase_split (horder ▸ hnd)]
  rw [hdrop]
  simp only [evictLoop, hlt, if_true, hk, ne_eq, hc, not_false_eq_true]
  rfl

/-- The victims of a sweep that starts with a foreign key. -/
theorem shortest_filter_cons_of_foreign {rest : List Bytes} {d : ℕ} (hd : 0 < d)
    (hf : s.view.foreign c k = true) :
    Recency.shortest s.view.pagesOf d ((k :: rest).filter (s.view.foreign c)) =
      k :: Recency.shortest s.view.pagesOf (d - s.view.pagesOf k)
        (rest.filter (s.view.foreign c)) := by
  rw [List.filter_cons_of_pos hf, Recency.shortest_cons_of_pos _ hd]

/-- **The sweep drops the shortest prefix of the foreign keys still to visit
that covers what is missing.** The induction is on those keys; passing over one
moves it to the other side of the iterator and changes nothing else. -/
theorem evictLoop_spec (pagesToFree pagesFreed : ℕ) {todo passed : List Bytes}
    (hp : PageInv s.toPageMemory s.cacheMap hole) (hl : LruInv s.lruOrder s.cacheMap)
    (hhole : ∀ k, hole = some k → ∃ e, s.cacheMap.lookup k = some e ∧ e.clientId = c)
    (horder : s.lruOrder = todo.reverse ++ passed) :
    let vs := Recency.shortest s.view.pagesOf (pagesToFree - pagesFreed)
      (todo.filter (s.view.foreign c))
    let r := evictLoop pagesToFree c todo passed s pagesFreed
    Evicts s hole vs r.1 ∧ r.2 = pagesFreed + Recency.weight s.view.pagesOf vs := by
  induction todo generalizing s pagesFreed passed with
  | nil => simpa [evictLoop] using Evicts.refl hp hl
  | cons k rest ih =>
    rcases Nat.lt_or_ge pagesFreed pagesToFree with hlt | hge
    swap
    · -- enough pages are free: the loop ends here
      have hzero : pagesToFree - pagesFreed = 0 := by omega
      simpa [evictLoop, Nat.not_lt.mpr hge, hzero] using Evicts.refl hp hl
    have hpass : s.lruOrder = rest.reverse ++ k :: passed := by
      rw [horder, List.reverse_cons, List.append_assoc, List.singleton_append]
    rcases hk : s.cacheMap.lookup k with _ | e
    · -- the key is not resident
      have hf : s.view.foreign c k = false := view_foreign_of_none hk
      simpa [evictLoop, hlt, hk, hf] using ih pagesFreed hp hl hhole hpass
    by_cases hc : e.clientId = c
    · -- an entry of the requesting client is passed over
      have hf : s.view.foreign c k = false := by simp [view_foreign hk, hc]
      simpa [evictLoop, hlt, hk, hf, hc] using ih pagesFreed hp hl hhole hpass
    · -- a foreign entry is dropped
      have hf : s.view.foreign c k = true := by simp [view_foreign hk, hc]
      have hown : Owns s.cacheMap hole k e := by
        refine ⟨hk, fun hh => ?_⟩
        obtain ⟨e', he', hc'⟩ := hhole k hh
        exact hc (Option.some.inj (hk.symm.trans he') ▸ hc')
      have hhole' : ∀ k', hole = some k' →
          ∃ e', (s.dropEntry k e).cacheMap.lookup k' = some e' ∧ e'.clientId = c := by
        intro k' hh
        obtain ⟨e', he', hc'⟩ := hhole k' hh
        have hne : k' ≠ k := fun heq => hown.2 (heq ▸ hh)
        exact ⟨e', (AList.lookup_erase_ne hne).trans he', hc'⟩
      have horder' : (s.dropEntry k e).lruOrder = rest.reverse ++ passed := by
        rw [dropEntry, horder, erase_split (horder ▸ hl.nodup)]
      obtain ⟨hev, hfreed⟩ := ih (pagesFreed + e.totalPages)
        (hp.drop hown) (hl.erase k) hhole' horder'
      -- the rest of the sweep does not see the key just dropped
      have hrest : k ∉ rest := by
        have hnd := hpass ▸ hl.nodup
        exact fun hk' => List.disjoint_of_nodup_append hnd (List.mem_reverse.mpr hk') (by simp)
      have hsub : pagesToFree - (pagesFreed + e.totalPages) =
          pagesToFree - pagesFreed - s.view.pagesOf k := by
        rw [view_pagesOf hk]
        omega
      rw [view_dropEntry hp hown, Store.shortest_remove hrest, hsub] at hev hfreed
      rw [Store.weight_remove fun hk' =>
        hrest (List.mem_of_mem_filter (Recency.mem_of_mem_shortest hk'))] at hfreed
      rw [evictLoop_cons_of_foreign hlt hk hc hl.nodup horder,
        shortest_filter_cons_of_foreign (by omega) hf]
      refine ⟨hev.cons hp hown, ?_⟩
      rw [hfreed, Recency.weight_cons, view_pagesOf hk, Nat.add_assoc]

/-- **Making room.** `evict_lru_if_needed` evicts the victims of the
specification, and reports whether the pages needed are free now. -/
theorem evictLruIfNeeded_spec (hp : PageInv s.toPageMemory s.cacheMap hole)
    (hl : LruInv s.lruOrder s.cacheMap)
    (hhole : ∀ k, hole = some k → ∃ e, s.cacheMap.lookup k = some e ∧ e.clientId = c) :
    Evicts s hole (s.view.victims c (n - s.view.free)) (s.evictLruIfNeeded n c).2 ∧
      ((s.evictLruIfNeeded n c).1 = true ↔ n ≤ (s.evictLruIfNeeded n c).2.view.free) := by
  rcases Nat.lt_or_ge s.getFreePages n with hlt | hge
  swap
  · have hfit : s.evictLruIfNeeded n c = (true, s) := by rw [evictLruIfNeeded, if_pos hge]
    have hzero : n - s.view.free = 0 := Nat.sub_eq_zero_of_le hge
    rw [hfit, hzero, Store.victims_zero]
    exact ⟨Evicts.refl hp hl, iff_of_true rfl hge⟩
  · obtain ⟨hev, hfreed⟩ := evictLoop_spec (n - s.getFreePages) 0 hp hl hhole
      (show s.lruOrder = s.lruOrder.reverse.reverse ++ [] by simp)
    rw [Nat.sub_zero] at hev hfreed
    rw [evictLruIfNeeded, if_neg (Nat.not_le.mpr hlt)]
    refine ⟨hev, ?_⟩
    have hfree := Store.makeRoom_free (s := s.view) (c := c) (n := n) hl.nodup
    simp only [decide_eq_true_iff, hfreed, hev.view]
    change _ ≤ 0 + Recency.weight s.view.pagesOf (s.view.victims c (n - s.view.free)) ↔
      n ≤ (s.view.makeRoom c n).free
    rw [hfree]
    change n - s.view.free ≤ _ ↔ _
    omega

/-- What making room comes to: there is room afterwards, or there is none, and the
caller is told which. The result is named, so that the kernel does not run the sweep
in the proofs about the callers. -/
theorem exists_room (hp : PageInv s.toPageMemory s.cacheMap hole)
    (hl : LruInv s.lruOrder s.cacheMap)
    (hhole : ∀ k, hole = some k → ∃ e, s.cacheMap.lookup k = some e ∧ e.clientId = c) :
    ∃ room, s.evictLruIfNeeded n c = room ∧
      Evicts s hole (s.view.victims c (n - s.view.free)) room.2 ∧
      room.2.view = s.view.makeRoom c n ∧
      (room.1 = true ∧ n ≤ room.2.view.free ∨ room.1 = false ∧ ¬n ≤ room.2.view.free) := by
  obtain ⟨hev, hroom⟩ := evictLruIfNeeded_spec (n := n) hp hl hhole
  refine ⟨_, rfl, hev, hev.view, ?_⟩
  by_cases ht : (s.evictLruIfNeeded n c).1 = true
  · exact Or.inl ⟨ht, hroom.mp ht⟩
  · exact Or.inr ⟨Bool.eq_false_iff.mpr ht, fun hfits => ht (hroom.mpr hfits)⟩

/-- The sweep passes over the hole when its entry is that of the requesting
client. -/
theorem hole_of_lookup (hk : s.cacheMap.lookup k = some e) (k' : Bytes) (heq : some k = some k') :
    ∃ e', s.cacheMap.lookup k' = some e' ∧ e'.clientId = e.clientId :=
  ⟨e, Option.some.inj heq ▸ hk, rfl⟩

/-! ### Allocating -/

theorem allocatePagesLinked_zero : s.allocatePagesLinked 0 = ([], s) := rfl

theorem allocatePagesLinked_of_lt (h : s.toPageMemory.Wf) (hn : s.view.free < n) :
    s.allocatePagesLinked n = ([], s) := by
  rw [allocatePagesLinked, h.allocatePagesLinked_of_lt hn]

/-- An allocation that fits, followed by storing the entry that gets the pages
and bringing its key to the front. -/
theorem exists_allocate (h : s.toPageMemory.Wf) (hpos : 0 < n) (hn : n ≤ s.view.free) :
    ∃ blocks m', s.allocatePagesLinked n = (blocks, { s with toPageMemory := m' }) ∧
      blocks ≠ [] ∧ PageMemory.Allocates s.toPageMemory n blocks m' := by
  obtain ⟨-, ha⟩ := h.allocatePagesLinked_of_le hpos hn
  refine ⟨_, _, rfl, fun hnil => ?_, ha⟩
  have := ha.length
  rw [hnil, List.length_nil] at this
  omega

/-- The cache once `e` is stored under `k` with the pages of `m'`. -/
def storeEntry (s : PagedCache) (m' : PageMemory) (k : Bytes) (e : CacheEntry) : PagedCache :=
  { s with toPageMemory := m', cacheMap := s.cacheMap.insert k e }

theorem view_storeEntry {m' : PageMemory}
    (ha : PageMemory.Allocates s.toPageMemory e.totalPages e.memoryBlocks m') :
    (s.storeEntry m' k e).view =
      ({ s.view with free := s.view.free - e.totalPages }).bind k (itemOf e) := by
  have hfree : m'.getFreePages = s.view.free - e.totalPages := by
    have := ha.freePages
    change _ = s.toPageMemory.getFreePages - e.totalPages
    omega
  have hview := view_insert { s with toPageMemory := m' } k e
  refine hview.trans (congrArg (fun t : Store Bytes Bytes Bytes => t.bind k (itemOf e)) ?_)
  exact Store.ext rfl rfl hfree

/-! ### The four operations -/

/-- An operation on the key `k` of `s` with outcome `r` does what the operation
of the specification with outcome `a` says, keeps the invariant, and leaves each
other entry as it was or drops it. -/
structure Simulates (s : PagedCache) (k : Bytes) (r : OperationResult × PagedCache)
    (a : OperationResult × Store Bytes Bytes Bytes) : Prop where
  wf : r.2.Wf
  result : r.1 = a.1
  view : r.2.view = a.2
  frame : ∀ k', k' ≠ k → r.2.cacheMap.lookup k' = s.cacheMap.lookup k' ∨
    r.2.cacheMap.lookup k' = none

theorem Simulates.refl (h : s.Wf) (o : OperationResult) :
    Simulates s k (o, s) (o, s.view) := ⟨h, rfl, rfl, fun _ _ => Or.inl rfl⟩

theorem Evicts.frame {vs : List Bytes} {s' : PagedCache} (h : Evicts s hole vs s') (k' : Bytes) :
    s'.cacheMap.lookup k' = s.cacheMap.lookup k' ∨ s'.cacheMap.lookup k' = none := by
  rw [h.lookup]
  by_cases hk' : k' ∈ vs <;> simp [hk']

/-- **The last step of a successful `add_key` or growing `update_key`**: with the
key as the hole and enough free pages, the entry is allocated and stored. -/
theorem exists_store (s₀ : PagedCache) (key c : Bytes)
    (hp : PageInv s.toPageMemory s.cacheMap (some k)) (hl : LruInv s.lruOrder s.cacheMap)
    (hframe : ∀ k', k' ≠ k → s.cacheMap.lookup k' = s₀.cacheMap.lookup k' ∨
      s.cacheMap.lookup k' = none)
    (hn : n = calculatePagesNeeded value) (hpos : 0 < n) (hfree : n ≤ s.view.free) :
    ∃ blocks m', s.allocatePagesLinked n = (blocks, { s with toPageMemory := m' }) ∧
      blocks ≠ [] ∧ Simulates s₀ k
        (.success, (s.storeEntry m' k ⟨key, value, blocks, n, c⟩).updateLru k)
        (.success, (({ s.view with free := s.view.free - n }).bind k ⟨c, value, n⟩).touch k) := by
  obtain ⟨blocks, m', halloc, hne, ha⟩ := exists_allocate hp.memory hpos hfree
  refine ⟨blocks, m', halloc, hne, ⟨?_, ?_⟩, rfl, ?_, fun k' hk' => ?_⟩
  · exact hp.store ha hpos hn.ge
  · exact hl.touch k _
  · have hview := view_storeEntry (k := k) (e := ⟨key, value, blocks, n, c⟩) ha
    rw [view_updateLru, hview]
    rfl
  · change (s.cacheMap.insert k _).lookup k' = _ ∨ (s.cacheMap.insert k _).lookup k' = none
    rw [AList.lookup_insert_ne hk']
    exact hframe k' hk'

/-- **`add_key` refines its specification.** -/
theorem Wf.addKey (h : s.Wf) (k value c : Bytes) :
    Simulates s k (s.addKey k value c) (s.view.add calculatePagesNeeded k value c) := by
  by_cases hk : k ∈ s.cacheMap
  · have hsome : (s.view.item k).isSome := by
      rw [view_item, Option.isSome_map]
      exact AList.lookup_isSome.mpr hk
    rw [PagedCache.addKey, if_pos hk, Store.add, if_pos hsome]
    exact Simulates.refl h _
  have hnone : ¬(s.view.item k).isSome := by rw [view_item_eq_none.mpr hk]; simp
  have hhole := h.pages.hole_of_notMem hk
  rw [PagedCache.addKey, if_neg hk, Store.add, if_neg hnone]
  rcases Nat.eq_zero_or_pos (calculatePagesNeeded value) with hzero | hpos
  · -- no page is asked for: both attempts answer the null pointer
    have hevict : s.evictLruIfNeeded 0 c = (true, s) := by
      rw [evictLruIfNeeded, if_pos (Nat.zero_le _)]
    simp only [hzero, allocatePagesLinked_zero, hevict, if_true, Bool.true_eq_false, if_false]
    exact Simulates.refl h _
  rw [if_neg hpos.ne']
  rcases Nat.lt_or_ge s.view.free (calculatePagesNeeded value) with hlt | hge
  swap
  · -- the first attempt succeeds
    obtain ⟨blocks, m', halloc, hne, hsim⟩ := exists_store s k c hhole h.lru
      (fun _ _ => Or.inl rfl) rfl hpos hge
    simp only [halloc, if_neg hne, Store.makeRoom_of_le hge, if_pos hge]
    exact hsim
  · simp only [allocatePagesLinked_of_lt h.pages.memory hlt, if_true]
    obtain ⟨room, hsweep, hev, hview, hroom⟩ := exists_room (n := calculatePagesNeeded value)
      (c := c) h.pages h.lru (by simp)
    simp only [hsweep, ← hview]
    rcases hroom with ⟨htrue, hfits⟩ | ⟨hfalse, hfits⟩
    · -- the second one does
      have hk' : k ∉ room.2.cacheMap := by
        rw [← AList.lookup_eq_none, hev.lookup, AList.lookup_eq_none.mpr hk, ite_self]
      obtain ⟨blocks, m', halloc, hne, hsim⟩ := exists_store s k c
        (hev.pages.hole_of_notMem hk') hev.lru (fun k' _ => hev.frame k') rfl hpos hfits
      simp only [htrue, Bool.true_eq_false, if_false, halloc, if_neg hne, if_pos hfits]
      exact hsim
    · simp only [hfalse, if_true, if_neg hfits]
      exact ⟨⟨hev.pages, hev.lru⟩, rfl, rfl, fun k' _ => hev.frame k'⟩

/-- The chain of the entry under `k` has been given back. -/
theorem view_release (hp : PageInv s.toPageMemory s.cacheMap none)
    (hk : s.cacheMap.lookup k = some e) :
    (s.deallocatePagesLinked e.memoryBlocks).view =
      { s.view with free := s.view.free + e.totalPages } :=
  Store.ext rfl rfl (hp.getFreePages_deallocate ⟨hk, by simp⟩)

/-- The restoration, once it has got its pages. -/
theorem restoreBlocks_of_allocate {blocks : List ℕ} {m' : PageMemory}
    (halloc : s.allocatePagesLinked e.totalPages = (blocks, { s with toPageMemory := m' }))
    (hne : blocks ≠ []) :
    s.restoreBlocks k e = s.storeEntry m' k { e with memoryBlocks := blocks } := by
  rw [restoreBlocks, halloc]
  simp only [if_neg hne]
  rfl

/-- **The restoration of a failed `update_key`** always finds the pages it gave
back: the entry has as many pages as before, if not the same ones. -/
theorem wf_restoreBlocks (hp : PageInv s.toPageMemory s.cacheMap (some k))
    (hl : LruInv s.lruOrder s.cacheMap) (hk : s.cacheMap.lookup k = some e)
    (hfree : e.totalPages ≤ s.view.free) :
    (s.restoreBlocks k e).Wf ∧
      (s.restoreBlocks k e).view = { s.view with free := s.view.free - e.totalPages } ∧
      ∀ k', k' ≠ k → (s.restoreBlocks k e).cacheMap.lookup k' = s.cacheMap.lookup k' := by
  have hok := hp.entry k e hk
  obtain ⟨blocks, m', halloc, hne, ha⟩ := exists_allocate hp.memory hok.pos hfree
  have hmem : ∀ k', k' ∈ s.cacheMap.insert k { e with memoryBlocks := blocks } ↔
      k' ∈ s.cacheMap := by
    intro k'
    have hkmem : k ∈ s.cacheMap := AList.lookup_isSome.mp (Option.isSome_of_eq_some hk)
    rw [AList.mem_insert]
    exact ⟨fun h => h.elim (fun he => he ▸ hkmem) id, Or.inr⟩
  rw [restoreBlocks_of_allocate halloc hne]
  refine ⟨⟨hp.store ha hok.pos hok.fits, hl.nodup, fun k' => ?_⟩, ?_, fun k' hne' => ?_⟩
  · exact (hl.mem_iff k').trans (hmem k').symm
  · rw [view_storeEntry (e := { e with memoryBlocks := blocks }) ha]
    refine Store.ext ?_ rfl rfl
    exact Function.update_eq_self_iff.mpr (view_item_of_lookup hk).symm
  · exact AList.lookup_insert_ne hne'

/-- **`update_key` refines its specification.** -/
theorem Wf.updateKey (h : s.Wf) (k value c : Bytes) :
    Simulates s k (s.updateKey k value c) (s.view.update calculatePagesNeeded k value c) := by
  rw [PagedCache.updateKey, Store.update, view_item]
  rcases hk : s.cacheMap.lookup k with _ | e
  · exact Simulates.refl h _
  simp only [Option.map_some, itemOf]
  by_cases hc : e.clientId = c
  swap
  · simp only [ne_eq, hc, not_false_eq_true, if_true]
    exact Simulates.refl h _
  subst hc
  simp only [ne_eq, not_true_eq_false, if_false]
  by_cases hle : calculatePagesNeeded value ≤ e.totalPages
  · -- the old chain is long enough
    simp only [if_pos hle]
    refine ⟨⟨h.pages.setValue hk hle, h.lru.touch k _⟩, rfl, ?_, fun k' hk' => Or.inl ?_⟩
    · rw [view_updateLru, view_insert, itemOf]
    · exact AList.lookup_insert_ne hk'
  have hpos : 0 < calculatePagesNeeded value := by omega
  -- the old chain is given back; its entry is now the hole
  have hview := view_release h.pages hk
  have hp : PageInv (s.deallocatePagesLinked e.memoryBlocks).toPageMemory
    (s.deallocatePagesLinked e.memoryBlocks).cacheMap (some k) := h.pages.release hk
  have hl : LruInv (s.deallocatePagesLinked e.memoryBlocks).lruOrder
    (s.deallocatePagesLinked e.memoryBlocks).cacheMap := h.lru
  have hk₁ : (s.deallocatePagesLinked e.memoryBlocks).cacheMap.lookup k = some e := hk
  have hmap : ∀ k', (s.deallocatePagesLinked e.memoryBlocks).cacheMap.lookup k' =
    s.cacheMap.lookup k' := fun _ => rfl
  simp only [if_neg hle, ← hview]
  have hfree : e.totalPages ≤ (s.deallocatePagesLinked e.memoryBlocks).view.free := by
    rw [hview]
    exact Nat.le_add_left _ _
  generalize s.deallocatePagesLinked e.memoryBlocks = s₁ at *
  rcases Nat.lt_or_ge s₁.view.free (calculatePagesNeeded value) with hlt | hge
  swap
  · -- the first attempt succeeds
    obtain ⟨blocks, m', halloc, hne, hsim⟩ := exists_store s e.key e.clientId hp hl
      (fun k' _ => Or.inl (hmap k')) rfl hpos hge
    simp only [halloc, if_neg hne, Store.makeRoom_of_le hge, if_pos hge]
    exact hsim
  simp only [allocatePagesLinked_of_lt hp.memory hlt, if_true]
  obtain ⟨room, hsweep, hev, hview₂, hroom⟩ := exists_room (n := calculatePagesNeeded value)
    (c := e.clientId) hp hl (hole_of_lookup hk₁)
  simp only [hsweep, ← hview₂]
  have hframe : ∀ k', k' ≠ k → room.2.cacheMap.lookup k' = s.cacheMap.lookup k' ∨
      room.2.cacheMap.lookup k' = none := fun k' _ => hmap k' ▸ hev.frame k'
  rcases hroom with ⟨htrue, hfits⟩ | ⟨hfalse, hfits⟩
  · -- the second attempt does
    obtain ⟨blocks, m', halloc, hne, hsim⟩ := exists_store s e.key e.clientId hev.pages hev.lru
      hframe rfl hpos hfits
    simp only [htrue, Bool.true_eq_false, if_false, halloc, if_neg hne, if_pos hfits]
    exact hsim
  · -- the old pages are free
    have hfree₂ : e.totalPages ≤ room.2.view.free := by
      rw [hview₂]
      exact hfree.trans (Store.free_le_makeRoom_free hl.nodup)
    have hk₂ : room.2.cacheMap.lookup k = some e := hev.lookup_of_owner hk₁ rfl
    obtain ⟨hwf, hrestored, hothers⟩ := wf_restoreBlocks hev.pages hev.lru hk₂ hfree₂
    simp only [hfalse, if_true, if_neg hfits]
    exact ⟨hwf, rfl, hrestored, fun k' hk' => hothers k' hk' ▸ hframe k' hk'⟩

/-- **`delete_key` refines its specification.** -/
theorem Wf.deleteKey (h : s.Wf) (k c : Bytes) :
    Simulates s k (s.deleteKey k c) (s.view.delete k c) := by
  rw [PagedCache.deleteKey, Store.delete, view_item]
  rcases hk : s.cacheMap.lookup k with _ | e
  · exact Simulates.refl h _
  simp only [Option.map_some, itemOf]
  by_cases hc : e.clientId = c
  swap
  · simp only [ne_eq, hc, not_false_eq_true, if_true]
    exact Simulates.refl h _
  simp only [ne_eq, hc, not_true_eq_false, if_false]
  have hown : Owns s.cacheMap none k e := ⟨hk, by simp⟩
  exact ⟨⟨h.pages.drop hown, h.lru.erase k⟩, rfl, view_dropEntry h.pages hown,
    fun k' hk' => Or.inl (AList.lookup_erase_ne hk')⟩

/-- **`get_key` refines its specification**, and reads the value the entry
has. -/
theorem Wf.getKey (h : s.Wf) (k v c : Bytes) :
    Simulates s k ((s.getKey k v c).1.1, (s.getKey k v c).2)
        ((s.view.get k c).1.1, (s.view.get k c).2) ∧
      (s.getKey k v c).1.2 = (s.view.get k c).1.2.getD v := by
  rw [PagedCache.getKey, Store.get, view_item]
  rcases hk : s.cacheMap.lookup k with _ | e
  · exact ⟨Simulates.refl h _, rfl⟩
  simp only [Option.map_some, itemOf]
  by_cases hc : e.clientId = c
  swap
  · simp only [ne_eq, hc, not_false_eq_true, if_true]
    exact ⟨Simulates.refl h _, rfl⟩
  simp only [ne_eq, hc, not_true_eq_false, if_false]
  refine ⟨⟨⟨h.pages, ?_⟩, rfl, view_updateLru s k, fun _ _ => Or.inl rfl⟩, rfl⟩
  have hkmem : k ∈ s.lruOrder :=
    (h.lru.mem_iff k).mpr (AList.lookup_isSome.mp (Option.isSome_of_eq_some hk))
  refine ⟨List.nodup_cons.mpr ⟨h.lru.nodup.not_mem_erase, h.lru.nodup.erase k⟩, fun k' => ?_⟩
  change k' ∈ k :: s.lruOrder.erase k ↔ k' ∈ s.cacheMap
  rw [← h.lru.mem_iff, List.mem_cons, h.lru.nodup.mem_erase_iff]
  constructor
  · rintro (rfl | ⟨-, hk'⟩)
    · exact hkmem
    · exact hk'
  · intro hk'
    by_cases heq : k' = k
    · exact Or.inl heq
    · exact Or.inr ⟨heq, hk'⟩

/-! ### Runs -/

/-- A call and its outcome `r` do what the specification, with outcome `a`, says,
and leave each entry they do not name as it was or drop it. -/
structure Refines (s : PagedCache) (call : Call) (r : Reply × PagedCache)
    (a : Reply × Store Bytes Bytes Bytes) : Prop where
  wf : r.2.Wf
  reply : r.1 = a.1
  view : r.2.view = a.2
  frame : ∀ k, k ≠ call.key → r.2.cacheMap.lookup k = s.cacheMap.lookup k ∨
    r.2.cacheMap.lookup k = none

/-- **Each call refines its specification.** -/
theorem Wf.step (h : s.Wf) (call : Call) : Refines s call (s.step call) (s.view.step call) := by
  cases call with
  | add k v c =>
    have hsim := h.addKey k v c
    exact ⟨hsim.wf, congrArg (Reply.mk · []) hsim.result, hsim.view, hsim.frame⟩
  | update k v c =>
    have hsim := h.updateKey k v c
    exact ⟨hsim.wf, congrArg (Reply.mk · []) hsim.result, hsim.view, hsim.frame⟩
  | get k c =>
    obtain ⟨hsim, hvalue⟩ := h.getKey k [] c
    exact ⟨hsim.wf, congrArg₂ Reply.mk hsim.result hvalue, hsim.view, hsim.frame⟩
  | delete k c =>
    have hsim := h.deleteKey k c
    exact ⟨hsim.wf, congrArg (Reply.mk · []) hsim.result, hsim.view, hsim.frame⟩

theorem wf_fresh : fresh.Wf where
  pages := by
    have hown : ∀ k e, ¬Owns fresh.cacheMap none k e := by
      rintro k e ⟨hk, -⟩
      simp [fresh] at hk
    refine ⟨PageMemory.wf_replicate, fun k e hk => absurd ⟨hk, by simp⟩ (hown k e),
      fun k e hk => absurd hk (hown k e), fun k _ e _ _ hk => absurd hk (hown k e), fun p => ?_⟩
    refine iff_of_false (fun hp => ?_) fun ⟨k, e, hk, _⟩ => hown k e hk
    have hrep : (List.replicate PagedCacheServer.totalPages false)[p]? = some true := hp
    rw [List.getElem?_replicate] at hrep
    split at hrep <;> simp at hrep
  lru := ⟨List.nodup_nil, fun k => by simp [fresh]⟩

/-- **The invariant holds of every reachable cache.** -/
theorem wf_after (calls : List Call) : (StepMachine.after PagedCache.step fresh calls).Wf :=
  StepMachine.invariant_after wf_fresh (fun _ call h => (h.step call).wf) calls

/-- **Runs refine runs**: on the same calls the code and the specification end in
the same state and give the same replies. -/
theorem view_after (calls : List Call) :
    (StepMachine.after PagedCache.step fresh calls).view =
        StepMachine.after Store.step fresh.view calls ∧
      StepMachine.history PagedCache.step fresh calls =
        StepMachine.history Store.step fresh.view calls := by
  induction calls using List.reverseRecOn with
  | nil => exact ⟨rfl, rfl⟩
  | append_singleton calls call ih =>
    have hstep := (wf_after calls).step call
    simp only [StepMachine.after_append, StepMachine.history_append, StepMachine.after_cons,
      StepMachine.after_nil, StepMachine.history_cons, StepMachine.history_nil, ← ih.1, ← ih.2]
    exact ⟨hstep.view, by rw [hstep.reply]⟩

/-! ### A cache with one entry

Caches near the end of their memory are too large to be computed with page by
page. Through the view they are not. -/

theorem fresh_view : fresh.view = ⟨fun _ => none, [], PagedCacheServer.totalPages⟩ := by
  have hfree : fresh.getFreePages = PagedCacheServer.totalPages := by
    rw [PageMemory.getFreePages, fresh, List.count_replicate_self]
  rw [view, hfree]
  rfl

/-- `client_5` has one entry, of one page. -/
def oneEntry : PagedCache :=
  StepMachine.after PagedCache.step fresh [.add (lit "a") (lit "x") (lit "client_5")]

theorem wf_oneEntry : oneEntry.Wf := wf_after _

theorem view_oneEntry :
    oneEntry.view = StepMachine.after Store.step ⟨fun _ => none, [], PagedCacheServer.totalPages⟩
      [.add (lit "a") (lit "x") (lit "client_5")] := by
  rw [oneEntry, (view_after _).1, fresh_view]

theorem othersPages_oneEntry : oneEntry.view.othersPages (lit "client_6") = 1 := by
  rw [view_oneEntry]
  decide +kernel

theorem item_oneEntry : oneEntry.view.item (lit "b") = none := by
  rw [view_oneEntry]
  decide +kernel

theorem ownItem_oneEntry :
    oneEntry.view.item (lit "a") = some ⟨lit "client_5", lit "x", 1⟩ := by
  rw [view_oneEntry]
  decide +kernel

theorem free_oneEntry : oneEntry.view.free = PagedCacheServer.totalPages - 1 := by
  rw [view_oneEntry]
  decide +kernel

theorem shortage_oneEntry (value : Bytes) :
    oneEntry.view.shortage (.add (lit "b") value (lit "client_6")) =
      calculatePagesNeeded value - (PagedCacheServer.totalPages - 1) := by
  rw [Store.shortage, item_oneEntry, Option.isSome_none, if_neg Bool.false_ne_true, free_oneEntry]

/-- A value that needs all pages. -/
def wholeValue : Bytes := List.replicate (PagedCacheServer.totalPages * pageSize) 120

theorem calculatePagesNeeded_wholeValue :
    calculatePagesNeeded wholeValue = PagedCacheServer.totalPages := by
  rw [calculatePagesNeeded, wholeValue, List.length_replicate]
  decide

/-- A value that needs one page more than there are. -/
def hugeValue : Bytes := List.replicate (PagedCacheServer.totalPages * pageSize + 1) 120

theorem calculatePagesNeeded_hugeValue :
    calculatePagesNeeded hugeValue = PagedCacheServer.totalPages + 1 := by
  rw [calculatePagesNeeded, hugeValue, List.length_replicate]
  decide

/-- Of all pages one is taken. -/
theorem shortage_oneEntry_of_whole {value : Bytes}
    (hneed : calculatePagesNeeded value = PagedCacheServer.totalPages) :
    oneEntry.view.shortage (.add (lit "b") value (lit "client_6")) = 1 := by
  rw [shortage_oneEntry, hneed]
  decide

/-- The other client has to give it up. -/
theorem success_oneEntry_of_whole {value : Bytes}
    (hneed : calculatePagesNeeded value = PagedCacheServer.totalPages) :
    (oneEntry.view.step (.add (lit "b") value (lit "client_6"))).1.result = .success := by
  rw [Store.step_result_eq_success_iff wf_oneEntry.lru.nodup, shortage_oneEntry_of_whole hneed]
  refine ⟨⟨item_oneEntry, ?_⟩, othersPages_oneEntry.ge⟩
  rw [hneed]
  decide

end PagedCache

end PagedCacheServer
