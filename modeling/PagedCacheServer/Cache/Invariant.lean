import PagedCacheServer.Cache.Allocate

/-!
# Page ownership

Four structures of the cache describe the same thing: the bitmap, the free list,
the chains of the entries, and the page counts kept next to the chains.
`PagedCacheServer.PagedCache.PageInv` says how they agree: the memory is well
formed, each chain has as many distinct pages as its entry counts, no page is in
two chains, and the allocated pages are those of the chains.

In the middle of a growing `update_key` this fails for one entry: its chain has
been given back and the entry still points at it. The *hole* of the invariant is
the key of that entry, whose chain is disregarded; between operations there is no
hole.

The lemmas of this file are the ways the ownership of a page changes: an entry
is dropped (`PagedCacheServer.PagedCache.PageInv.drop`), an
entry gives its chain back and becomes the hole
(`PagedCacheServer.PagedCache.PageInv.release`), and an entry is stored with a
chain just allocated (`PagedCacheServer.PagedCache.PageInv.store`).
-/

namespace PagedCacheServer

namespace PagedCache

/-- The counts an entry keeps: its chain has `totalPages` pages, at least one and
enough for the value. -/
structure EntryOk (e : CacheEntry) : Prop where
  length : e.memoryBlocks.length = e.totalPages
  pos : 0 < e.totalPages
  fits : calculatePagesNeeded e.value ≤ e.totalPages

/-- The entry under a key owns its chain, the hole owning nothing. -/
def Owns (map : AList fun _ : Bytes => CacheEntry) (hole : Option Bytes) (k : Bytes)
    (e : CacheEntry) : Prop := map.lookup k = some e ∧ hole ≠ some k

/-- **The page ownership invariant.** -/
structure PageInv (m : PageMemory) (map : AList fun _ : Bytes => CacheEntry)
    (hole : Option Bytes) : Prop where
  memory : m.Wf
  entry : ∀ k e, map.lookup k = some e → EntryOk e
  nodup : ∀ k e, Owns map hole k e → e.memoryBlocks.Nodup
  disjoint : ∀ k k' e e' p, Owns map hole k e → Owns map hole k' e' →
    p ∈ e.memoryBlocks → p ∈ e'.memoryBlocks → k = k'
  owned_iff : ∀ p, m.pageBitmap[p]? = some true ↔ ∃ k e, Owns map hole k e ∧ p ∈ e.memoryBlocks

/-- The recency list holds every resident key once. -/
structure LruInv (order : List Bytes) (map : AList fun _ : Bytes => CacheEntry) : Prop where
  nodup : order.Nodup
  mem_iff : ∀ k, k ∈ order ↔ k ∈ map

/-- **The invariant of the cache between operations.** -/
structure Wf (s : PagedCache) : Prop where
  pages : PageInv s.toPageMemory s.cacheMap none
  lru : LruInv s.lruOrder s.cacheMap

variable {m : PageMemory} {map : AList fun _ : Bytes => CacheEntry} {hole : Option Bytes}
  {k : Bytes} {e : CacheEntry}

theorem PageInv.allocated_of_mem {p : ℕ} (h : PageInv m map hole) (hk : Owns map hole k e)
    (hp : p ∈ e.memoryBlocks) : m.pageBitmap[p]? = some true :=
  (h.owned_iff p).mpr ⟨k, e, hk, hp⟩

/-- A key that is not resident may as well be the hole. -/
theorem PageInv.hole_of_notMem (h : PageInv m map none) (hk : k ∉ map) :
    PageInv m map (some k) := by
  have hown : ∀ k' e', Owns map (some k) k' e' ↔ Owns map none k' e' := by
    refine fun k' e' => ⟨fun hk' => ⟨hk'.1, by simp⟩, fun hk' => ⟨hk'.1, fun he => hk ?_⟩⟩
    rw [Option.some.inj he]
    exact AList.lookup_isSome.mp (Option.isSome_of_eq_some hk'.1)
  refine ⟨h.memory, h.entry, fun k' e' hk' => h.nodup k' e' ((hown _ _).mp hk'),
    fun k₁ k₂ e₁ e₂ p h₁ h₂ => h.disjoint k₁ k₂ e₁ e₂ p ((hown _ _).mp h₁) ((hown _ _).mp h₂),
    fun p => ?_⟩
  simp only [h.owned_iff, hown]

/-! ### Giving a chain back -/

section Deallocate

variable (h : PageInv m map hole) (hk : Owns map hole k e)
include h hk

theorem PageInv.wf_deallocate :
    (m.deallocatePagesLinked e.memoryBlocks).Wf ∧
      ∀ i, (m.deallocatePagesLinked e.memoryBlocks).pageBitmap[i]? =
        if i ∈ e.memoryBlocks then some false else m.pageBitmap[i]? :=
  h.memory.loose.deallocatePagesLinked (h.nodup k e hk) fun _ hp => h.allocated_of_mem hk hp

theorem PageInv.getFreePages_deallocate :
    (m.deallocatePagesLinked e.memoryBlocks).getFreePages = m.getFreePages + e.totalPages := by
  rw [h.memory.getFreePages_deallocatePagesLinked (h.nodup k e hk) fun _ hp =>
    h.allocated_of_mem hk hp, (h.entry k e hk.1).length]

/-- What is allocated once the chain of `k` has been given back: the chains of
the other entries. -/
theorem PageInv.owned_deallocate (p : ℕ) :
    (m.deallocatePagesLinked e.memoryBlocks).pageBitmap[p]? = some true ↔
      ∃ k' e', Owns map hole k' e' ∧ k' ≠ k ∧ p ∈ e'.memoryBlocks := by
  rw [(h.wf_deallocate hk).2]
  constructor
  · intro hp
    have hpe : p ∉ e.memoryBlocks := fun hmem => by simp [hmem] at hp
    rw [if_neg hpe] at hp
    obtain ⟨k', e', hk', hp'⟩ := (h.owned_iff p).mp hp
    refine ⟨k', e', hk', fun he => hpe ?_, hp'⟩
    subst he
    have hee : e' = e := Option.some.inj (hk'.1.symm.trans hk.1)
    exact hee ▸ hp'
  · rintro ⟨k', e', hk', hne, hp⟩
    have hpe : p ∉ e.memoryBlocks := fun hmem => hne (h.disjoint k' k e' e p hk' hk hp hmem)
    rw [if_neg hpe]
    exact h.allocated_of_mem hk' hp

/-- **An entry is dropped**: its pages are given back and its key unbound. -/
theorem PageInv.drop :
    PageInv (m.deallocatePagesLinked e.memoryBlocks) (map.erase k) hole := by
  have hown : ∀ k' e', Owns (map.erase k) hole k' e' ↔ Owns map hole k' e' ∧ k' ≠ k := by
    intro k' e'
    rcases eq_or_ne k' k with rfl | hne
    · simp [Owns]
    · simp [Owns, AList.lookup_erase_ne hne, hne]
  refine ⟨(h.wf_deallocate hk).1, fun k' e' hk' => ?_, fun k' e' hk' => ?_,
    fun k₁ k₂ e₁ e₂ p h₁ h₂ => ?_, fun p => ?_⟩
  · rcases eq_or_ne k' k with rfl | hne
    · simp at hk'
    · exact h.entry k' e' (AList.lookup_erase_ne hne ▸ hk')
  · exact h.nodup k' e' ((hown _ _).mp hk').1
  · exact h.disjoint k₁ k₂ e₁ e₂ p ((hown _ _).mp h₁).1 ((hown _ _).mp h₂).1
  · simp only [h.owned_deallocate hk, hown, and_assoc]

end Deallocate

/-- **An entry gives its chain back** and stays, as the hole. -/
theorem PageInv.release (h : PageInv m map none) (hk : map.lookup k = some e) :
    PageInv (m.deallocatePagesLinked e.memoryBlocks) map (some k) := by
  have hke : Owns map none k e := ⟨hk, by simp⟩
  have hown : ∀ k' e', Owns map (some k) k' e' ↔ Owns map none k' e' ∧ k' ≠ k := by
    intro k' e'
    simp [Owns, eq_comm]
  refine ⟨(h.wf_deallocate hke).1, h.entry, fun k' e' hk' => h.nodup k' e' ((hown _ _).mp hk').1,
    fun k₁ k₂ e₁ e₂ p h₁ h₂ => ?_, fun p => ?_⟩
  · exact h.disjoint k₁ k₂ e₁ e₂ p ((hown _ _).mp h₁).1 ((hown _ _).mp h₂).1
  · simp only [h.owned_deallocate hke, hown, and_assoc]

/-! ### Storing an entry -/

/-- **An entry is stored with a chain just allocated**, in the place of the
hole. -/
theorem PageInv.store {m' : PageMemory} (h : PageInv m map (some k))
    (ha : PageMemory.Allocates m e.totalPages e.memoryBlocks m') (hpos : 0 < e.totalPages)
    (hfits : calculatePagesNeeded e.value ≤ e.totalPages) :
    PageInv m' (map.insert k e) none := by
  have hlook : ∀ k' e', (map.insert k e).lookup k' = some e' ↔
      (k' = k ∧ e' = e) ∨ Owns map (some k) k' e' := by
    intro k' e'
    rcases eq_or_ne k' k with rfl | hne
    · simp [Owns, eq_comm]
    · simp [Owns, AList.lookup_insert_ne hne, hne, hne.symm]
  -- the pages of the new chain were free, so no other chain has them
  have hfresh : ∀ k' e' p, Owns map (some k) k' e' → p ∈ e'.memoryBlocks →
      p ∉ e.memoryBlocks := by
    intro k' e' p hk' hp hpe
    have := h.allocated_of_mem hk' hp
    rw [ha.free p hpe] at this
    simp at this
  refine ⟨ha.wf, fun k' e' hk' => ?_, fun k' e' hk' => ?_,
    fun k₁ k₂ e₁ e₂ p h₁ h₂ hp₁ hp₂ => ?_, fun p => ?_⟩
  · rcases (hlook _ _).mp hk' with ⟨-, rfl⟩ | hk'
    · exact ⟨ha.length, hpos, hfits⟩
    · exact h.entry k' e' hk'.1
  · rcases (hlook _ _).mp hk'.1 with ⟨-, rfl⟩ | hk'
    · exact ha.nodup
    · exact h.nodup k' e' hk'
  · rcases (hlook _ _).mp h₁.1 with ⟨rfl, rfl⟩ | h₁' <;>
      rcases (hlook _ _).mp h₂.1 with ⟨rfl, rfl⟩ | h₂'
    · rfl
    · exact absurd hp₁ (hfresh _ _ p h₂' hp₂)
    · exact absurd hp₂ (hfresh _ _ p h₁' hp₁)
    · exact h.disjoint _ _ _ _ p h₁' h₂' hp₁ hp₂
  · rw [ha.bits]
    constructor
    · intro hp
      by_cases hpe : p ∈ e.memoryBlocks
      · exact ⟨k, e, ⟨(hlook _ _).mpr (Or.inl ⟨rfl, rfl⟩), by simp⟩, hpe⟩
      · rw [if_neg hpe] at hp
        obtain ⟨k', e', hk', hp'⟩ := (h.owned_iff p).mp hp
        exact ⟨k', e', ⟨(hlook _ _).mpr (Or.inr hk'), by simp⟩, hp'⟩
    · rintro ⟨k', e', hk', hp⟩
      rcases (hlook _ _).mp hk'.1 with ⟨-, rfl⟩ | hk'
      · rw [if_pos hp]
      · rw [if_neg (hfresh _ _ p hk' hp)]
        exact h.allocated_of_mem hk' hp

/-- Ownership only reads the chains of the entries. -/
theorem PageInv.congr_chains {map' : AList fun _ : Bytes => CacheEntry} (h : PageInv m map hole)
    (hchain : ∀ k, (map'.lookup k).map CacheEntry.memoryBlocks =
      (map.lookup k).map CacheEntry.memoryBlocks)
    (hok : ∀ k e, map'.lookup k = some e → EntryOk e) : PageInv m map' hole := by
  have hto : ∀ k e', Owns map' hole k e' →
      ∃ e, Owns map hole k e ∧ e.memoryBlocks = e'.memoryBlocks := by
    rintro k e' ⟨hk, hhole⟩
    have hmap := hchain k
    rw [hk, Option.map_some, eq_comm, Option.map_eq_some_iff] at hmap
    obtain ⟨e, he, hb⟩ := hmap
    exact ⟨e, ⟨he, hhole⟩, hb⟩
  have hof : ∀ k e, Owns map hole k e →
      ∃ e', Owns map' hole k e' ∧ e'.memoryBlocks = e.memoryBlocks := by
    rintro k e ⟨hk, hhole⟩
    have hmap := hchain k
    rw [hk, Option.map_some, Option.map_eq_some_iff] at hmap
    obtain ⟨e', he, hb⟩ := hmap
    exact ⟨e', ⟨he, hhole⟩, hb⟩
  refine ⟨h.memory, hok, fun k e' hk => ?_, fun k₁ k₂ e₁ e₂ p h₁ h₂ hp₁ hp₂ => ?_, fun p => ?_⟩
  · obtain ⟨e, he, hb⟩ := hto k e' hk
    exact hb ▸ h.nodup k e he
  · obtain ⟨e₁', hk₁, hb₁⟩ := hto k₁ e₁ h₁
    obtain ⟨e₂', hk₂, hb₂⟩ := hto k₂ e₂ h₂
    exact h.disjoint k₁ k₂ e₁' e₂' p hk₁ hk₂ (hb₁ ▸ hp₁) (hb₂ ▸ hp₂)
  · rw [h.owned_iff]
    constructor
    · rintro ⟨k, e, hk, hp⟩
      obtain ⟨e', hk', hb⟩ := hof k e hk
      exact ⟨k, e', hk', hb ▸ hp⟩
    · rintro ⟨k, e', hk, hp⟩
      obtain ⟨e, hk', hb⟩ := hto k e' hk
      exact ⟨k, e, hk', hb ▸ hp⟩

/-- **An entry changes its value** and keeps its chain. -/
theorem PageInv.setValue {value : Bytes} (h : PageInv m map none) (hk : map.lookup k = some e)
    (hfits : calculatePagesNeeded value ≤ e.totalPages) :
    PageInv m (map.insert k { e with value := value }) none := by
  refine h.congr_chains (fun k' => ?_) fun k' e' hk' => ?_
  · rcases eq_or_ne k' k with rfl | hne
    · simp [hk]
    · rw [AList.lookup_insert_ne hne]
  · rcases eq_or_ne k' k with rfl | hne
    · rw [AList.lookup_insert] at hk'
      obtain rfl := Option.some.inj hk'
      have hok := h.entry k' e hk
      exact ⟨hok.length, hok.pos, hfits⟩
    · exact h.entry k' e' (AList.lookup_insert_ne hne ▸ hk')

/-! ### The recency list -/

theorem LruInv.erase {order : List Bytes} (h : LruInv order map) (k : Bytes) :
    LruInv (order.erase k) (map.erase k) := by
  refine ⟨h.nodup.erase k, fun k' => ?_⟩
  rw [h.nodup.mem_erase_iff, h.mem_iff, AList.mem_erase]

theorem LruInv.touch {order : List Bytes} (h : LruInv order map) (k : Bytes) (e : CacheEntry) :
    LruInv (k :: order.erase k) (map.insert k e) := by
  refine ⟨List.nodup_cons.mpr ⟨h.nodup.not_mem_erase, h.nodup.erase k⟩, fun k' => ?_⟩
  rw [List.mem_cons, h.nodup.mem_erase_iff, h.mem_iff, AList.mem_insert]
  tauto

end PagedCache

end PagedCacheServer
