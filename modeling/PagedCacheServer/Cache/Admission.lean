import PagedCacheServer.Cache.Noninterference

/-!
# When a write is admitted

An `add_key` or `update_key` that needs pages tries to allocate them, makes room
if that fails, and tries again. Three ways of counting meet on this path: the
deficit is computed from the bitmap, the pages gained by evicting from the page
counts of the entries, and the allocation takes what the free list has. They
agree, so that the outcome is a matter of arithmetic: a write is admitted exactly
when what it needs is at most the free pages, its own old ones and those of the
other clients' entries (`PagedCacheServer.PagedCache.admission_after`). That
memory is fragmented never matters.
-/

namespace PagedCacheServer

namespace Store

variable {t : Store Bytes Bytes Bytes} {k v c : Bytes}

/-! ### The outcome of the specification -/

/-- An `add` of something under an unbound key. -/
theorem add_fst (hnd : t.order.Nodup) (hk : t.item k = none) (hpos : 0 < calculatePagesNeeded v) :
    (t.add calculatePagesNeeded k v c).1 =
      if calculatePagesNeeded v ≤ t.free + t.othersPages c then .success else .noSpace := by
  have hiff : calculatePagesNeeded v ≤ (t.makeRoom c (calculatePagesNeeded v)).free ↔
      calculatePagesNeeded v ≤ t.free + t.othersPages c := le_makeRoom_free_iff hnd
  simp only [add, hk, Option.isSome_none, Bool.false_eq_true, if_false, if_neg hpos.ne', hiff]
  split_ifs <;> rfl

/-- An `update` of an item of the client. -/
theorem update_fst {i : Item Bytes Bytes} (hnd : t.order.Nodup) (hk : t.item k = some i)
    (hc : i.owner = c) :
    (t.update calculatePagesNeeded k v c).1 =
      if calculatePagesNeeded v ≤ i.pages ∨
        calculatePagesNeeded v ≤ t.free + i.pages + t.othersPages c
      then .success else .noSpace := by
  -- the pages of the item count as free, and what the others have does not change
  have hiff : calculatePagesNeeded v ≤
      (({ t with free := t.free + i.pages } : Store Bytes Bytes Bytes).makeRoom c
        (calculatePagesNeeded v)).free ↔
      calculatePagesNeeded v ≤ t.free + i.pages + t.othersPages c :=
    le_makeRoom_free_iff (s := { t with free := t.free + i.pages }) hnd
  simp only [update, hk, ne_eq, hc, not_true_eq_false, if_false, hiff]
  by_cases hle : calculatePagesNeeded v ≤ i.pages
  · simp only [hle, true_or, if_true]
  · simp only [hle, false_or, if_false]
    split_ifs <;> rfl

end Store

namespace PagedCache

/-- The pages of the entries that `c` does not own. -/
def othersPages (s : PagedCache) (c : Bytes) : ℕ :=
  ((s.residents.filter fun e => e.clientId ≠ c).map CacheEntry.totalPages).sum

variable {s : PagedCache} {hole : Option Bytes} {k v c : Bytes} {e : CacheEntry} {n : ℕ}

theorem calculatePagesNeeded_eq_ceilDiv (v : Bytes) :
    calculatePagesNeeded v = v.length ⌈/⌉ pageSize := by
  rw [calculatePagesNeeded, Nat.ceilDiv_eq_add_pred_div]

theorem calculatePagesNeeded_pos (hv : v ≠ []) : 0 < calculatePagesNeeded v := by
  have hlen : 0 < v.length := List.length_pos_iff.mpr hv
  rw [calculatePagesNeeded]
  exact Nat.div_pos (by omega) (by decide)

/-! ### Counting by entries -/

/-- The pages of the others, counted over the entries or over the recency
list. -/
theorem Wf.othersPages_view (h : s.Wf) (c : Bytes) : s.view.othersPages c = s.othersPages c := by
  have hperm : (s.view.candidates c).Perm (s.cacheMap.keys.filter (s.view.foreign c)) :=
    ((List.reverse_perm _).trans h.perm_keys).filter _
  have hlookup : ∀ x ∈ s.cacheMap.entries, s.cacheMap.lookup x.1 = some x.2 :=
    fun x hx => AList.mem_lookup_iff.mpr hx
  have hfilter : s.cacheMap.entries.filter (fun x => s.view.foreign c x.1) =
      s.cacheMap.entries.filter fun x => decide (x.2.clientId ≠ c) :=
    List.filter_congr fun x hx => view_foreign (hlookup x hx)
  calc s.view.othersPages c
      = ((s.cacheMap.keys.filter (s.view.foreign c)).map s.view.pagesOf).sum :=
        (hperm.map _).sum_eq
    _ = ((s.cacheMap.entries.filter fun x => s.view.foreign c x.1).map
          fun x => s.view.pagesOf x.1).sum := by
        rw [AList.keys, List.keys, List.filter_map, List.map_map]
        rfl
    _ = ((s.cacheMap.entries.filter fun x => decide (x.2.clientId ≠ c)).map
          fun x => x.2.totalPages).sum := by
        rw [hfilter]
        refine congrArg List.sum (List.map_congr_left fun x hx => ?_)
        exact view_pagesOf (hlookup x (List.mem_of_mem_filter hx))
    _ = s.othersPages c := by
        rw [PagedCache.othersPages, residents, List.filter_map, List.map_map]
        rfl

/-! ### Making room for an allocation -/

/-- An attempt that fails has found fewer free pages than it wants, and changes
nothing. -/
theorem allocate_eq_nil (h : s.toPageMemory.Wf) (hpos : 0 < n)
    (hnil : (s.allocatePagesLinked n).1 = []) :
    s.view.free < n ∧ (s.allocatePagesLinked n).2 = s := by
  rcases Nat.lt_or_ge s.view.free n with hlt | hge
  · rw [allocatePagesLinked_of_lt h hlt]
    exact ⟨hlt, rfl⟩
  · obtain ⟨blocks, m', halloc, hne, -⟩ := exists_allocate h hpos hge
    rw [halloc] at hnil
    exact absurd hnil hne

/-- **Room that has been made is there**: the allocation that follows a
successful `evict_lru_if_needed` succeeds. -/
theorem allocate_of_evict (hp : PageInv s.toPageMemory s.cacheMap hole)
    (hl : LruInv s.lruOrder s.cacheMap)
    (hhole : ∀ k, hole = some k → ∃ e, s.cacheMap.lookup k = some e ∧ e.clientId = c)
    (hpos : 0 < n) (ht : (s.evictLruIfNeeded n c).1 = true) :
    ((s.evictLruIfNeeded n c).2.allocatePagesLinked n).1.length = n := by
  obtain ⟨hev, hroom⟩ := evictLruIfNeeded_spec (n := n) hp hl hhole
  obtain ⟨blocks, m', halloc, -, ha⟩ := exists_allocate hev.pages.memory hpos (hroom.mp ht)
  rw [halloc]
  exact ha.length

/-- The same with the attempt that fails before it. -/
theorem allocate_of_room (hp : PageInv s.toPageMemory s.cacheMap hole)
    (hl : LruInv s.lruOrder s.cacheMap)
    (hhole : ∀ k, hole = some k → ∃ e, s.cacheMap.lookup k = some e ∧ e.clientId = c)
    (hpos : 0 < n) (hnil : (s.allocatePagesLinked n).1 = [])
    (ht : ((s.allocatePagesLinked n).2.evictLruIfNeeded n c).1 = true) :
    (((s.allocatePagesLinked n).2.evictLruIfNeeded n c).2.allocatePagesLinked n).1.length = n := by
  have hsame := (allocate_eq_nil hp.memory hpos hnil).2
  rw [hsame] at ht ⊢
  exact allocate_of_evict hp hl hhole hpos ht

/-! ### Adding what fits -/

/-- An empty value takes no page, and the chain of no pages is the null pointer:
both attempts look as if they had failed. -/
theorem Wf.addKey_nil (h : s.Wf) (hk : k ∉ s.cacheMap) (c : Bytes) :
    (s.addKey k [] c).1 = .noSpace := by
  have hzero : calculatePagesNeeded [] = 0 := by decide
  rw [(h.addKey k [] c).result, Store.add, view_item_eq_none.mpr hk]
  simp [hzero]

/-- **What fits is added**, and nothing else changes. -/
theorem Wf.addKey_of_fits (h : s.Wf) (hk : k ∉ s.cacheMap) (hv : v ≠ [])
    (hfits : calculatePagesNeeded v ≤ s.getFreePages) (c : Bytes) :
    (s.addKey k v c).1 = .success ∧
      (∃ e, (s.addKey k v c).2.cacheMap.lookup k = some e ∧ e.value = v ∧ e.clientId = c) ∧
      ∀ k', k' ≠ k → (s.addKey k v c).2.cacheMap.lookup k' = s.cacheMap.lookup k' := by
  have hpos := calculatePagesNeeded_pos hv
  have hnone := view_item_eq_none.mpr hk
  have hsim := h.addKey k v c
  have hadd : s.view.add calculatePagesNeeded k v c = (.success,
      ({ s.view with free := s.view.free - calculatePagesNeeded v }.bind k
        ⟨c, v, calculatePagesNeeded v⟩).touch k) := by
    have hle : calculatePagesNeeded v ≤ s.view.free := hfits
    simp only [Store.add, hnone, Option.isSome_none, Bool.false_eq_true, if_false,
      if_neg hpos.ne', Store.makeRoom_of_le hle, if_pos hle]
  rw [hadd] at hsim
  refine ⟨hsim.result, ?_, fun k' hne => ?_⟩
  · have hitem : (s.addKey k v c).2.view.item k = some ⟨c, v, calculatePagesNeeded v⟩ := by
      rw [hsim.view]
      exact Function.update_self ..
    obtain ⟨e, he, hi⟩ := exists_lookup_of_view_item hitem
    exact ⟨e, he, congrArg Item.value hi, congrArg Item.owner hi⟩
  · have hitem : (s.addKey k v c).2.view.item k' = s.view.item k' := by
      rw [hsim.view]
      exact Function.update_of_ne hne ..
    -- an entry that is still seen has not been touched
    rcases hsim.frame k' hne with hsame | hgone
    · exact hsame
    · rw [hgone, eq_comm, AList.lookup_eq_none, ← view_item_eq_none, ← hitem,
        view_item_eq_none, ← AList.lookup_eq_none, hgone]

/-! ### The decision -/

/-- **How the cache decides about a write** of `v` under `k` by `c`. -/
structure Decides (s : PagedCache) (k v c : Bytes) : Prop where
  add : k ∉ s.cacheMap → (s.addKey k v c).1 =
    if v.length ⌈/⌉ pageSize ≤ s.getFreePages + s.othersPages c then .success else .noSpace
  update : ∀ e, s.cacheMap.lookup k = some e → e.clientId = c → (s.updateKey k v c).1 =
    if v.length ⌈/⌉ pageSize ≤ e.totalPages ∨
      v.length ⌈/⌉ pageSize ≤ s.getFreePages + e.totalPages + s.othersPages c
    then .success else .noSpace
  /-- When `add_key` is told that there is room, its second attempt succeeds. -/
  addRoom : k ∉ s.cacheMap →
    let first := s.allocatePagesLinked (calculatePagesNeeded v)
    let room := first.2.evictLruIfNeeded (calculatePagesNeeded v) c
    first.1 = [] → room.1 = true →
      (room.2.allocatePagesLinked (calculatePagesNeeded v)).1.length = calculatePagesNeeded v
  /-- The same for `update_key`, which has given the old chain back. -/
  updateRoom : ∀ e, s.cacheMap.lookup k = some e → e.clientId = c →
    let first := (s.deallocatePagesLinked e.memoryBlocks).allocatePagesLinked
      (calculatePagesNeeded v)
    let room := first.2.evictLruIfNeeded (calculatePagesNeeded v) c
    first.1 = [] → room.1 = true →
      (room.2.allocatePagesLinked (calculatePagesNeeded v)).1.length = calculatePagesNeeded v

theorem Wf.decides (h : s.Wf) (hv : v ≠ []) (k c : Bytes) : s.Decides k v c := by
  have hpos := calculatePagesNeeded_pos hv
  have hceil := calculatePagesNeeded_eq_ceilDiv v
  refine ⟨fun hk => ?_, fun e hk hc => ?_, fun hk hnil ht => ?_, fun e hk hc hnil ht => ?_⟩
  · rw [(h.addKey k v c).result, Store.add_fst h.lru.nodup (view_item_eq_none.mpr hk) hpos,
      h.othersPages_view, hceil]
    rfl
  · rw [(h.updateKey k v c).result, Store.update_fst h.lru.nodup (view_item_of_lookup hk) hc,
      h.othersPages_view, hceil]
    rfl
  · exact allocate_of_room h.pages h.lru (by simp) hpos hnil ht
  · subst hc
    exact allocate_of_room (s := s.deallocatePagesLinked e.memoryBlocks) (h.pages.release hk) h.lru
      (hole_of_lookup hk) hpos hnil ht

/-- **The exact admission decision, in every reachable cache**, for a value that
is not empty. -/
theorem admission_after (calls : List Call) (k v c : Bytes) (hv : v ≠ []) :
    (StepMachine.after PagedCache.step fresh calls).Decides k v c :=
  (wf_after calls).decides hv k c

/-- Of a value of the size of the whole cache: another client's entry makes room
for it, and the own entry does too. -/
theorem admission_oneEntry :
    let big : Bytes := List.replicate (PagedCacheServer.totalPages * pageSize) 120
    big ≠ [] ∧ (oneEntry.addKey (lit "b") big (lit "client_6")).1 = .success ∧
      (oneEntry.updateKey (lit "a") big (lit "client_5")).1 = .success := by
  intro big
  have hbig : big ≠ [] := by
    rw [← List.length_pos_iff, List.length_replicate]
    decide
  have hneed : big.length ⌈/⌉ pageSize = PagedCacheServer.totalPages := by
    rw [List.length_replicate, Nat.ceilDiv_eq_add_pred_div]
    decide
  have hfree : oneEntry.getFreePages = PagedCacheServer.totalPages - 1 :=
    (view_free oneEntry).symm.trans free_oneEntry
  refine ⟨hbig, ?_, ?_⟩
  · have hdecides : oneEntry.Decides (lit "b") big (lit "client_6") :=
      admission_after _ _ _ _ hbig
    have hothers : oneEntry.othersPages (lit "client_6") = 1 :=
      (wf_oneEntry.othersPages_view _).symm.trans othersPages_oneEntry
    rw [hdecides.add (view_item_eq_none.mp item_oneEntry), hneed, hfree, hothers,
      if_pos (by decide)]
  · have hdecides : oneEntry.Decides (lit "a") big (lit "client_5") :=
      admission_after _ _ _ _ hbig
    obtain ⟨e, he, hitem⟩ := exists_lookup_of_view_item ownItem_oneEntry
    have hpages : e.totalPages = 1 := congrArg Item.pages hitem
    rw [hdecides.update e he (congrArg Item.owner hitem), hneed, hfree, hpages,
      if_pos (Or.inr (by omega))]

end PagedCache

end PagedCacheServer
