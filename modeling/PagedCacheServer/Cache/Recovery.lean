import PagedCacheServer.Cache.Admission
import PagedCacheServer.Cache.Eviction

/-!
# A failed update keeps its entry

A growing `update_key` gives the old chain back before it knows whether there is
room for a longer one. When there is not, it allocates as many pages as the entry
had and hangs them in; should that fail, the entry would keep a chain that is no
longer its own. It never fails: the pages given back are free, and nothing on the
way takes one (`PagedCacheServer.PagedCache.Wf.keptWhole`).

The pages of the entry may be others than before, and the entries of other clients
are gone. Neither shows in what is done with the entry afterwards. An operation on
its key depends on the item there and on what its client could still get – the
free pages and those of the others, which is all but the client's own
(`PagedCacheServer.PagedCache.Wf.free_add_othersPages_eq`) –, and an eviction
changes neither. But when the entry has been deleted, the key is free to be added by
anybody, and to a client that has lost an entry to the eviction the room for a new one
is another than before (`PagedCacheServer.PagedCache.ActsOn` leaves this out).
-/

namespace PagedCacheServer

namespace Store

open PagedCache (Call)

variable {t : Store Bytes Bytes Bytes} {call : Call} {k c : Bytes}

/-! ### The items of a client -/

/-- What a client has under a key. -/
def ownItem (t : Store Bytes Bytes Bytes) (c k : Bytes) : Option (Item Bytes Bytes) :=
  (t.item k).filter fun i => i.owner = c

theorem ownItem_eq_some {i : Item Bytes Bytes} :
    t.ownItem c k = some i ↔ t.item k = some i ∧ i.owner = c := by
  simp [ownItem]

/-- The pages of the client itself. -/
def ownPages (t : Store Bytes Bytes Bytes) (c : Bytes) : ℕ :=
  Recency.weight t.pagesOf (t.order.filter fun k => !t.foreign c k)

/-- A call writes under its key if it succeeds, and leaves it alone if not. -/
theorem step_item_key (hnd : t.order.Nodup) (call : Call) :
    (t.step call).2.item call.key =
      if (t.step call).1.result = .success then t.written call else t.item call.key := by
  rcases step_outcome hnd call with hs | hf
  · rw [if_pos hs.result, hs.item, if_pos rfl]
  · rw [if_neg hf.result, hf.state, removeAll_item, if_neg (key_notMem_evicted call)]

/-- Elsewhere a call only evicts. -/
theorem step_item_of_ne (hnd : t.order.Nodup) (hk : k ≠ call.key) :
    (t.step call).2.item k = if k ∈ t.evicted call then none else t.item k := by
  rcases step_outcome hnd call with hs | hf
  · rw [hs.item, if_neg hk]
  · rw [hf.state, removeAll_item]
    by_cases hev : k ∈ t.evicted call <;> simp [hev]

/-- **A call that can evict at all leaves its own client the other items.** -/
theorem step_ownItem_of_ne (hnd : t.order.Nodup) (call : Call)
    (hc : t.Permits call → call.clientId = c) (hk : k ≠ call.key) :
    (t.step call).2.ownItem c k = t.ownItem c k := by
  rw [ownItem, step_item_of_ne hnd hk]
  by_cases hev : k ∈ t.evicted call
  swap
  · rw [if_neg hev, ownItem]
  -- what is evicted belongs to someone else
  obtain ⟨i, hi, hne⟩ := foreign_iff.mp (foreign_of_mem_victims hev)
  have hclient := hc (permits_of_shortage_pos (shortage_pos_of_mem_evicted hev))
  rw [if_pos hev, ownItem, hi, Option.filter_some, if_neg (by simpa [← hclient] using hne)]
  rfl

end Store

namespace PagedCache

variable {s s' : PagedCache} {k k' v c : Bytes} {e : CacheEntry} {call : Call}

/-! ### What a client could get -/

theorem Wf.free_add_othersPages (h : s.Wf) (c : Bytes) :
    s.view.free + s.view.othersPages c + s.view.ownPages c = PagedCacheServer.totalPages := by
  have hperm : (s.view.candidates c ++ s.view.order.filter fun k => !s.view.foreign c k).Perm
      s.view.order := by
    refine List.Perm.trans (List.Perm.append_right _ ?_)
      (List.filter_append_perm (s.view.foreign c) s.view.order)
    exact (List.reverse_perm s.view.order).filter _
  have hsum : s.view.othersPages c + s.view.ownPages c =
      Recency.weight s.view.pagesOf s.view.order := by
    have hmap := (hperm.map s.view.pagesOf).sum_eq
    rw [List.map_append, List.sum_append] at hmap
    exact hmap
  rw [Nat.add_assoc, hsum, h.free_add_weight]

/-- The keys of a client are those it has an item under. -/
theorem Wf.mem_ownKeys (h : s.Wf) :
    k ∈ s.view.order.filter (fun k => !s.view.foreign c k) ↔
      ∃ i, s.view.ownItem c k = some i := by
  simp only [List.mem_filter, h.inv.mem_order, Option.isSome_iff_exists, Store.ownItem_eq_some]
  constructor
  · rintro ⟨⟨i, hi⟩, hown⟩
    exact ⟨i, hi, by simpa [Store.foreign, hi] using hown⟩
  · rintro ⟨i, hi, rfl⟩
    exact ⟨⟨i, hi⟩, by simp [Store.foreign, hi]⟩

/-- **What a client could get depends on its own items only.** -/
theorem Wf.free_add_othersPages_eq (h : s.Wf) (h' : s'.Wf)
    (hown : ∀ k, s'.view.ownItem c k = s.view.ownItem c k) :
    s'.view.free + s'.view.othersPages c = s.view.free + s.view.othersPages c := by
  have hperm : (s'.view.order.filter fun k => !s'.view.foreign c k).Perm
      (s.view.order.filter fun k => !s.view.foreign c k) := by
    refine (List.perm_ext_iff_of_nodup (h'.inv.nodup.filter _) (h.inv.nodup.filter _)).mpr
      fun k => ?_
    rw [h'.mem_ownKeys, h.mem_ownKeys, hown]
  have hpages : ∀ k ∈ s.view.order.filter (fun k => !s.view.foreign c k),
      s'.view.pagesOf k = s.view.pagesOf k := by
    intro k hk
    obtain ⟨i, hi⟩ := h.mem_ownKeys.mp hk
    have hi' := (Store.ownItem_eq_some.mp ((hown k).trans hi)).1
    rw [Store.pagesOf, Store.pagesOf, hi', (Store.ownItem_eq_some.mp hi).1]
  have hweight : s'.view.ownPages c = s.view.ownPages c := by
    rw [Store.ownPages, Store.ownPages, ← Recency.weight_congr hpages]
    exact (hperm.map _).sum_eq
  have htotal := h.free_add_othersPages c
  have htotal' := h'.free_add_othersPages c
  omega

/-! ### Two caches that are the same to the owner of a key -/

/-- The caches have the same items of `c`, and the same item under `k`, which is
that of `c` if there is one. -/
structure Twin (k c : Bytes) (s s' : PagedCache) : Prop where
  wf : s.Wf
  wf' : s'.Wf
  item : s'.view.item k = s.view.item k
  owner : ∀ i, s.view.item k = some i → i.owner = c
  own : ∀ k, s'.view.ownItem c k = s.view.ownItem c k

/-- A call on `k`, other than an `add` of another client once the key is
unbound. -/
def ActsOn (k c : Bytes) (s : PagedCache) (call : Call) : Prop :=
  call.key = k ∧ (k ∉ s.cacheMap → ∀ v c', call = .add k v c' → c' = c)

/-- Only the owner of the key is permitted anything. -/
theorem Twin.clientId_eq (h : Twin k c s s') (hcall : ActsOn k c s call)
    (hp : s.view.Permits call) : call.clientId = c := by
  have howned : s.view.OwnedBy call.clientId k → call.clientId = c := by
    rintro ⟨i, hi, hc⟩
    exact hc.symm.trans (h.owner i hi)
  obtain ⟨rfl, hadd⟩ := hcall
  cases call with
  | add k v c' => exact hadd (view_item_eq_none.mp hp.1) v c' rfl
  | update k v c' => exact howned hp
  | get k c' => exact howned hp
  | delete k c' => exact howned hp

theorem Twin.reply_eq (h : Twin k c s s') (hcall : ActsOn k c s call) :
    (s.view.step call).1 = (s'.view.step call).1 := by
  have hkey : s.view.item call.key = s'.view.item call.key := by rw [hcall.1, h.item]
  have hbudget := h.wf.free_add_othersPages_eq h.wf' h.own
  by_cases hp : s.view.Permits call
  swap
  · -- a call that is not permitted lacks nothing
    have hp' : ¬s'.view.Permits call := mt (Store.permits_congr hkey).mpr hp
    exact Store.step_fst_congr hkey (Store.shortage_eq_zero hp) (Store.shortage_eq_zero hp')
  have hclient := h.clientId_eq hcall hp
  have hp' : s'.view.Permits call := (Store.permits_congr hkey).mp hp
  cases call with
  | add k' v c' =>
    obtain rfl : c' = c := hclient
    refine congrArg (Reply.mk · []) ?_
    rw [Store.add_fst h.wf.inv.nodup hp.1 hp.2, Store.add_fst h.wf'.inv.nodup hp'.1 hp.2, hbudget]
  | update k' v c' =>
    obtain rfl : c' = c := hclient
    obtain ⟨i, hi, hc⟩ := hp
    have hi' : s'.view.item k' = some i := hkey.symm.trans hi
    have hsum : s'.view.free + i.pages + s'.view.othersPages c' =
        s.view.free + i.pages + s.view.othersPages c' := by omega
    refine congrArg (Reply.mk · []) ?_
    rw [Store.update_fst h.wf.inv.nodup hi hc, Store.update_fst h.wf'.inv.nodup hi' hc, hsum]
  | get k' c' => exact Store.step_fst_congr hkey rfl rfl
  | delete k' c' => exact Store.step_fst_congr hkey rfl rfl

/-- **One call on the key**, in both caches. -/
theorem Twin.step (h : Twin k c s s') (hcall : ActsOn k c s call) :
    (s.step call).1 = (s'.step call).1 ∧ Twin k c (s.step call).2 (s'.step call).2 := by
  have href := h.wf.step call
  have href' := h.wf'.step call
  have hreply := h.reply_eq hcall
  have hkey : s.view.item call.key = s'.view.item call.key := by rw [hcall.1, h.item]
  have hclient := fun hp => h.clientId_eq hcall hp
  have hclient' : s'.view.Permits call → call.clientId = c :=
    fun hp => hclient ((Store.permits_congr hkey).mpr hp)
  -- under the key both write the same, or nothing
  have hitem : (s'.view.step call).2.item call.key = (s.view.step call).2.item call.key := by
    rw [Store.step_item_key h.wf.inv.nodup call, Store.step_item_key h.wf'.inv.nodup call,
      ← hreply, hkey, Store.written_congr hkey]
  refine ⟨by rw [href.reply, href'.reply, hreply], href.wf, href'.wf, ?_, fun i hi => ?_,
    fun k' => ?_⟩
  · rw [href.view, href'.view, ← hcall.1, hitem]
  · rw [href.view, ← hcall.1, Store.step_item_key h.wf.inv.nodup call] at hi
    split_ifs at hi with hsucc
    · have hp := (Store.step_of_success h.wf.inv.nodup hsucc).permits
      rw [Store.owner_of_written hp hi, hclient hp]
    · exact h.owner i (hcall.1 ▸ hi)
  · rw [href.view, href'.view]
    rcases eq_or_ne k' call.key with rfl | hne
    · rw [Store.ownItem, Store.ownItem, hitem]
    · rw [Store.step_ownItem_of_ne h.wf.inv.nodup call hclient hne,
        Store.step_ownItem_of_ne h.wf'.inv.nodup call hclient' hne, h.own]

/-! ### The restoration -/

/-- The cache in which a growing `update_key` that has found no room restores the
old allocation: the chain has been given back, an attempt has failed, and so has
the eviction, or a second attempt after it. -/
def beforeRestore (s : PagedCache) (entry : CacheEntry) (value : Bytes) : PagedCache :=
  let newPagesNeeded := calculatePagesNeeded value
  let first := (s.deallocatePagesLinked entry.memoryBlocks).allocatePagesLinked newPagesNeeded
  let room := first.2.evictLruIfNeeded newPagesNeeded entry.clientId
  if room.1 = false then room.2 else (room.2.allocatePagesLinked newPagesNeeded).2

/-- Both attempts of a growing `update_key` fail, the second one if it is made. -/
structure FindsNoRoom (s : PagedCache) (entry : CacheEntry) (value : Bytes) : Prop where
  first : ((s.deallocatePagesLinked entry.memoryBlocks).allocatePagesLinked
    (calculatePagesNeeded value)).1 = []
  second :
    let first := (s.deallocatePagesLinked entry.memoryBlocks).allocatePagesLinked
      (calculatePagesNeeded value)
    let room := first.2.evictLruIfNeeded (calculatePagesNeeded value) entry.clientId
    room.1 = true → (room.2.allocatePagesLinked (calculatePagesNeeded value)).1 = []

/-- An `update_key` that answers `NO_SPACE` ends with the restoration. -/
theorem updateKey_of_noSpace (h : (s.updateKey k v c).1 = .noSpace) :
    ∃ e, s.cacheMap.lookup k = some e ∧ e.clientId = c ∧
      e.totalPages < calculatePagesNeeded v ∧ s.FindsNoRoom e v ∧
      (s.updateKey k v c).2 = (s.beforeRestore e v).restoreBlocks k e := by
  rw [updateKey] at h ⊢
  rcases hk : s.cacheMap.lookup k with _ | e
  · simp [hk] at h
  simp only [hk] at h ⊢
  by_cases hc : e.clientId = c
  swap
  · simp [hc] at h
  subst hc
  simp only [ne_eq, not_true_eq_false, if_false] at h ⊢
  by_cases hle : calculatePagesNeeded v ≤ e.totalPages
  · simp [hle] at h
  simp only [if_neg hle] at h ⊢
  refine ⟨e, rfl, rfl, Nat.lt_of_not_le hle, ?_⟩
  simp only [beforeRestore]
  split_ifs at h ⊢ with hfirst hroom hsecond
  · exact ⟨⟨hfirst, fun ht => absurd (hroom.symm.trans ht) Bool.false_ne_true⟩, rfl⟩
  · exact ⟨⟨hfirst, fun _ => hsecond⟩, rfl⟩

/-- The second attempt is never made: where there is no room, the eviction says
so. -/
theorem Wf.beforeRestore_eq (h : s.Wf) (hk : s.cacheMap.lookup k = some e)
    (hpos : 0 < calculatePagesNeeded v) (hno : s.FindsNoRoom e v) :
    s.beforeRestore e v = ((s.deallocatePagesLinked e.memoryBlocks).evictLruIfNeeded
      (calculatePagesNeeded v) e.clientId).2 := by
  have hp := h.pages.release hk
  have hsame := (allocate_eq_nil (s := s.deallocatePagesLinked e.memoryBlocks) hp.memory hpos
    hno.first).2
  have hsecond := hno.second
  simp only [hsame] at hsecond
  have hfalse : ((s.deallocatePagesLinked e.memoryBlocks).evictLruIfNeeded
      (calculatePagesNeeded v) e.clientId).1 = false := by
    rw [← Bool.not_eq_true]
    intro ht
    have hlen := allocate_of_evict (s := s.deallocatePagesLinked e.memoryBlocks) hp h.lru
      (hole_of_lookup hk) hpos ht
    rw [hsecond ht, List.length_nil] at hlen
    omega
  simp only [beforeRestore, hsame, hfalse, if_true]

/-- **The old pages are there to be had again**, and the eviction has left the
entries of the client alone. -/
theorem Wf.beforeRestore (h : s.Wf) (hk : s.cacheMap.lookup k = some e)
    (hpos : 0 < calculatePagesNeeded v) (hno : s.FindsNoRoom e v) :
    PageInv (s.beforeRestore e v).toPageMemory (s.beforeRestore e v).cacheMap (some k) ∧
      e.totalPages ≤ (s.beforeRestore e v).view.free ∧
      ∀ k' e', s.cacheMap.lookup k' = some e' → e'.clientId = e.clientId →
        (s.beforeRestore e v).cacheMap.lookup k' = some e' := by
  have hfree : e.totalPages ≤ (s.deallocatePagesLinked e.memoryBlocks).view.free := by
    rw [view_release h.pages hk]
    exact Nat.le_add_left _ _
  obtain ⟨hev, -⟩ := evictLruIfNeeded_spec (s := s.deallocatePagesLinked e.memoryBlocks)
    (n := calculatePagesNeeded v) (h.pages.release hk) h.lru (hole_of_lookup hk)
  rw [h.beforeRestore_eq hk hpos hno]
  refine ⟨hev.pages, ?_, fun k' e' hk' hc => hev.lookup_of_owner hk' hc⟩
  rw [hev.view]
  exact hfree.trans (Store.free_le_makeRoom_free h.lru.nodup)

/-- The entry has a chain of its own. -/
structure Whole (s : PagedCache) (k : Bytes) (e : CacheEntry) : Prop where
  resident : s.cacheMap.lookup k = some e
  length : e.memoryBlocks.length = e.totalPages
  nodup : e.memoryBlocks.Nodup
  allocated : ∀ p ∈ e.memoryBlocks, s.pageBitmap[p]? = some true
  unshared : ∀ k' e', k' ≠ k → s.cacheMap.lookup k' = some e' →
    ∀ p ∈ e.memoryBlocks, p ∉ e'.memoryBlocks

theorem Wf.whole (h : s.Wf) (hk : s.cacheMap.lookup k = some e) : s.Whole k e where
  resident := hk
  length := (h.pages.entry k e hk).length
  nodup := h.pages.nodup k e ⟨hk, by simp⟩
  allocated _ hp := h.pages.allocated_of_mem ⟨hk, by simp⟩ hp
  unshared k' e' hne hk' p hp hp' :=
    hne (h.pages.disjoint k' k e' e p ⟨hk', by simp⟩ ⟨hk, by simp⟩ hp' hp)

/-- What an `update_key` with the value `v`, turned down for lack of space, leaves
of the cache `s` and of the entry `e` under `k`. -/
structure KeptWhole (s : PagedCache) (k v : Bytes) (e : CacheEntry) (s' : PagedCache) :
    Prop where
  /-- The allocation of the old number of pages succeeds. -/
  restored : ((s.beforeRestore e v).allocatePagesLinked e.totalPages).1 ≠ [] ∧
    s' = (s.beforeRestore e v).restoreBlocks k e
  /-- The entry is what it was, on a chain of its own. -/
  entry : ∃ blocks, s'.Whole k { e with memoryBlocks := blocks }
  /-- The other entries of the client are untouched. -/
  others : ∀ k' e', k' ≠ k → s.cacheMap.lookup k' = some e' → e'.clientId = e.clientId →
    s'.cacheMap.lookup k' = some e'
  /-- What is done with the key afterwards, short of an `add` of another client, gets the
  same answers as if the update had not been tried, and leaves the same item there. -/
  later : ∀ calls, StepMachine.Admits PagedCache.step (ActsOn k e.clientId) s calls →
    StepMachine.history PagedCache.step s calls = StepMachine.history PagedCache.step s' calls ∧
      (StepMachine.after PagedCache.step s' calls).view.item k =
        (StepMachine.after PagedCache.step s calls).view.item k

theorem Wf.result_of_noSpace (h : s.Wf) (hfail : (s.updateKey k v c).1 = .noSpace) :
    (s.view.step (.update k v c)).1.result ≠ .success := by
  rw [← (h.step (.update k v c)).reply]
  change (s.updateKey k v c).1 ≠ _
  rw [hfail]
  decide

/-- A failed update does nothing but its evictions. -/
theorem Wf.view_of_noSpace (h : s.Wf) (hfail : (s.updateKey k v c).1 = .noSpace) :
    (s.updateKey k v c).2.view = s.view.removeAll (s.view.evicted (.update k v c)) :=
  (h.step (.update k v c)).view.trans
    (Store.step_of_failure h.inv.nodup (h.result_of_noSpace hfail)).state

/-- A failed update is not noticed by the owner of the key. -/
theorem Wf.twin_of_noSpace (h : s.Wf) (hk : s.cacheMap.lookup k = some e)
    (hfail : (s.updateKey k v e.clientId).1 = .noSpace) :
    Twin k e.clientId s (s.updateKey k v e.clientId).2 := by
  have href := h.step (.update k v e.clientId)
  have hitem := view_item_of_lookup hk
  have hkey := Store.step_item_key h.inv.nodup (.update k v e.clientId)
  rw [if_neg (h.result_of_noSpace hfail), ← href.view] at hkey
  refine ⟨h, href.wf, hkey, fun i hi => ?_, fun k' => ?_⟩
  · obtain rfl := Option.some.inj (hitem.symm.trans hi)
    rfl
  · rcases eq_or_ne k' k with rfl | hne
    · exact congrArg (Option.filter _) hkey
    · have hown := Store.step_ownItem_of_ne (c := e.clientId) h.inv.nodup
        (.update k v e.clientId) (fun _ => rfl) hne
      rw [← href.view] at hown
      exact hown

theorem Wf.keptWhole (h : s.Wf) (hfail : (s.updateKey k v c).1 = .noSpace) :
    ∃ e, s.cacheMap.lookup k = some e ∧ e.clientId = c ∧
      KeptWhole s k v e (s.updateKey k v c).2 := by
  obtain ⟨e, hk, rfl, hgrow, hno, hstate⟩ := updateKey_of_noSpace hfail
  obtain ⟨hpages, hfree, hothers⟩ := h.beforeRestore hk (by omega) hno
  have hwf : (s.updateKey k v e.clientId).2.Wf := (h.updateKey k v e.clientId).wf
  obtain ⟨blocks, m', halloc, hne, -⟩ := exists_allocate hpages.memory
    (h.pages.entry k e hk).pos hfree
  have hstored := hstate.trans (restoreBlocks_of_allocate halloc hne)
  have hentry : (s.updateKey k v e.clientId).2.cacheMap.lookup k =
      some { e with memoryBlocks := blocks } := by
    rw [hstored]
    exact AList.lookup_insert _
  refine ⟨e, hk, rfl, ⟨by rw [halloc]; exact hne, hstate⟩, ⟨blocks, hwf.whole hentry⟩,
    fun k' e' hne' hk' hc => ?_, fun calls hcalls => ?_⟩
  · rw [hstored]
    exact (AList.lookup_insert_ne hne').trans (hothers k' e' hk' hc)
  · have hstep : ∀ s s' call, ActsOn k e.clientId s call → Twin k e.clientId s s' →
        (s.step call).1 = (s'.step call).1 ∧
          Twin k e.clientId (s.step call).2 (s'.step call).2 := fun _ _ _ hcall h => h.step hcall
    obtain ⟨hhistory, hend⟩ := StepMachine.history_eq_of_lockstep hstep
      (h.twin_of_noSpace hk hfail) calls hcalls
    exact ⟨hhistory, hend.item⟩

/-- **A failed update keeps its entry whole, in every reachable cache**, and operations on
its key do not notice the update, until another client adds the key again. -/
theorem keptWhole_after (calls : List Call) (k v c : Bytes) :
    let s := StepMachine.after PagedCache.step fresh calls
    (s.updateKey k v c).1 = .noSpace →
      ∃ e, s.cacheMap.lookup k = some e ∧ e.clientId = c ∧
        KeptWhole s k v e (s.updateKey k v c).2 :=
  fun hfail => (wf_after calls).keptWhole hfail

/-- A client grows its one entry beyond the size of the cache. -/
theorem keptWhole_oneEntry :
    let huge : Bytes := List.replicate (PagedCacheServer.totalPages * pageSize + 1) 120
    (oneEntry.updateKey (lit "a") huge (lit "client_5")).1 = .noSpace ∧
      ∃ e, oneEntry.cacheMap.lookup (lit "a") = some e ∧ e.clientId = lit "client_5" ∧
        KeptWhole oneEntry (lit "a") huge e
          (oneEntry.updateKey (lit "a") huge (lit "client_5")).2 := by
  intro huge
  have hneed : calculatePagesNeeded huge = PagedCacheServer.totalPages + 1 :=
    calculatePagesNeeded_hugeValue
  have hnone : oneEntry.view.othersPages (lit "client_5") = 0 := by
    rw [view_oneEntry]
    decide +kernel
  have hfail : (oneEntry.updateKey (lit "a") huge (lit "client_5")).1 = .noSpace := by
    rw [(wf_oneEntry.updateKey _ _ _).result,
      Store.update_fst wf_oneEntry.inv.nodup ownItem_oneEntry rfl, hneed, free_oneEntry, hnone,
      if_neg (by decide)]
  exact ⟨hfail, keptWhole_after [.add (lit "a") (lit "x") (lit "client_5")] _ _ _ hfail⟩

/-- `client_5` and `client_6` have one entry each, of one page. -/
def twoEntries : PagedCache :=
  StepMachine.after PagedCache.step fresh
    [.add (lit "a") (lit "x") (lit "client_5"), .add (lit "b") (lit "y") (lit "client_6")]

theorem view_twoEntries :
    twoEntries.view = StepMachine.after Store.step ⟨fun _ => none, [], PagedCacheServer.totalPages⟩
      [.add (lit "a") (lit "x") (lit "client_5"), .add (lit "b") (lit "y") (lit "client_6")] := by
  rw [twoEntries, (view_after _).1, fresh_view]

/-- The reply to an `add_key` with a new key, after one other call. -/
theorem Wf.reply_add (h : s.Wf) (call : Call) (hk : (s.view.step call).2.item k = none)
    (hpos : 0 < calculatePagesNeeded v) :
    ((s.step call).2.step (.add k v c)).1.result =
      if calculatePagesNeeded v ≤
        (s.view.step call).2.free + (s.view.step call).2.othersPages c then .success
      else .noSpace := by
  have href := h.step call
  rw [(href.wf.step _).reply, ← Store.add_fst (c := c) (href.view ▸ href.wf.inv.nodup) hk hpos,
    href.view]
  rfl

/-- An update to the huge value fails, and evicts the entry of the other client. -/
theorem update_twoEntries :
    (twoEntries.updateKey (lit "a") hugeValue (lit "client_5")).1 = .noSpace ∧
      (twoEntries.updateKey (lit "a") hugeValue (lit "client_5")).2.view =
        twoEntries.view.removeAll [lit "b"] := by
  have hwf : twoEntries.Wf := wf_after _
  have hitem : twoEntries.view.item (lit "a") = some ⟨lit "client_5", lit "x", 1⟩ := by
    rw [view_twoEntries]
    decide +kernel
  have hothers : twoEntries.view.othersPages (lit "client_5") = 1 := by
    rw [view_twoEntries]
    decide +kernel
  have hfree : twoEntries.view.free = PagedCacheServer.totalPages - 2 := by
    rw [view_twoEntries]
    decide +kernel
  have hfail : (twoEntries.updateKey (lit "a") hugeValue (lit "client_5")).1 = .noSpace := by
    rw [(hwf.updateKey _ _ _).result, Store.update_fst hwf.inv.nodup hitem rfl,
      calculatePagesNeeded_hugeValue, hfree, hothers, if_neg (by decide)]
  let update : Call := .update (lit "a") hugeValue (lit "client_5")
  have hshort : twoEntries.view.shortage update = 2 := by
    simp only [update, Store.shortage, hitem, calculatePagesNeeded_hugeValue, hfree]
    decide
  -- two pages are lacking, and there is only one to be had
  have hevicted : twoEntries.view.evicted update = [lit "b"] := by
    have hall : twoEntries.view.evicted update = twoEntries.view.candidates (lit "client_5") := by
      refine Recency.shortest_eq_self ?_
      rw [hshort]
      exact hothers.trans_lt (by decide)
    rw [hall, view_twoEntries]
    decide +kernel
  exact ⟨hfail, by rw [hwf.view_of_noSpace hfail, hevicted]⟩

/-- The failed update of `client_5` evicts the entry of `client_6`. When the key has been
deleted, `client_6` can add it with a value of the size of the whole cache; had the update
not been tried, its own entry would be in the way. -/
theorem not_keptWhole :
    ¬∀ (calls : List Call) (k v c : Bytes) (later : List Call),
      let s := StepMachine.after PagedCache.step fresh calls
      (s.updateKey k v c).1 = .noSpace → (∀ call ∈ later, call.key = k) →
        StepMachine.history PagedCache.step s later =
          StepMachine.history PagedCache.step (s.updateKey k v c).2 later := by
  intro hall
  let delete : Call := .delete (lit "a") (lit "client_5")
  let add : Call := .add (lit "a") wholeValue (lit "client_6")
  have hpos : 0 < calculatePagesNeeded wholeValue := by
    rw [calculatePagesNeeded_wholeValue]
    decide
  obtain ⟨hfail, hview⟩ := update_twoEntries
  have hwf : twoEntries.Wf := wf_after _
  have hwf' := (hwf.updateKey (lit "a") hugeValue (lit "client_5")).wf
  have hwithout : ((twoEntries.step delete).2.step add).1.result = .noSpace := by
    rw [hwf.reply_add delete (by rw [view_twoEntries]; decide +kernel) hpos,
      calculatePagesNeeded_wholeValue, view_twoEntries]
    decide +kernel
  have hwith : (((twoEntries.updateKey (lit "a") hugeValue (lit "client_5")).2.step
      delete).2.step add).1.result = .success := by
    rw [hwf'.reply_add delete (by rw [hview, view_twoEntries]; decide +kernel) hpos,
      calculatePagesNeeded_wholeValue, hview, view_twoEntries]
    decide +kernel
  have hsame := hall _ _ _ _ [delete, add] hfail (by simp [delete, add, Call.key])
  simp only [StepMachine.history_cons, StepMachine.history_nil, List.cons.injEq, Prod.mk.injEq,
    true_and, and_true] at hsame
  have hreply := congrArg Reply.result hsame.2
  rw [← twoEntries, hwithout, hwith] at hreply
  exact absurd hreply (by decide)

end PagedCache

end PagedCacheServer
