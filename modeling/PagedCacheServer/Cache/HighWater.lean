import PagedCacheServer.Cache.History
import PagedCacheServer.Cache.Ownership
import PagedCacheServer.Cache.Recovery

/-!
# The pages a key keeps

A shorter value does not give pages back: `update_key` keeps the chain of an entry as
long as it suffices, to avoid frequent reallocations. So what an entry holds is not
decided by the value it has but by the largest one it ever had, since it was added –
its *high water* (`PagedCacheServer.PagedCache.highWater`), which can be read off the
calls and their answers.

This is the price, and it buys something. Up to its high water an entry can be written
at any time, however full the cache is: the call cannot fail, evicts nothing, and does
not touch a page (`PagedCacheServer.PagedCache.high_water`).
-/

namespace PagedCacheServer

namespace PagedCache

/-- The pages of an item after a successful call on it, when it had `n` before. -/
def Call.grow (n : ℕ) : Call → ℕ
  | .add _ value _ => calculatePagesNeeded value
  | .update _ value _ => max n (calculatePagesNeeded value)
  | .get _ _ => n
  | .delete _ _ => 0

/-- The pages needed by the largest value written under a key since it was last added. -/
def highWater (k : Bytes) (h : List (Call × Reply)) : ℕ :=
  h.foldl (fun n x => if x.1.key = k ∧ x.2.result = .success then x.1.grow n else n) 0

theorem highWater_snoc (k : Bytes) (h : List (Call × Reply)) (x : Call × Reply) :
    highWater k (h ++ [x]) =
      if x.1.key = k ∧ x.2.result = .success then x.1.grow (highWater k h)
      else highWater k h := by
  rw [highWater, List.foldl_append]
  rfl

end PagedCache

namespace Store

open PagedCache (Call)

variable {t : Store Bytes Bytes Bytes} {call : Call} {k : Bytes} {n : ℕ} {i : Item Bytes Bytes}

/-- A call on another key changes no number of pages, one on the key does so only if it
succeeds. -/
theorem step_pages (hnd : t.order.Nodup) (hpages : ∀ j, t.item k = some j → j.pages = n)
    (hi : (t.step call).2.item k = some i) :
    i.pages = if call.key = k ∧ (t.step call).1.result = .success then call.grow n else n := by
  by_cases hk : call.key = k
  swap
  · rw [step_item_of_ne hnd (Ne.symm hk)] at hi
    rw [if_neg fun hand => hk hand.1]
    split_ifs at hi
    exact hpages i hi
  subst hk
  rw [step_item_key hnd] at hi
  by_cases hs : (t.step call).1.result = .success
  swap
  · rw [if_neg hs] at hi
    rw [if_neg fun hand => hs hand.2]
    exact hpages i hi
  rw [if_pos hs] at hi
  rw [if_pos ⟨rfl, hs⟩]
  cases call with
  | add k v c =>
    obtain rfl := Option.some.inj hi
    rfl
  | update k v c =>
    obtain ⟨j, hj, rfl⟩ := Option.map_eq_some_iff.mp hi
    exact congrArg (max · (calculatePagesNeeded v)) (hpages j hj)
  | get k c => exact hpages i hi
  | delete k c => exact absurd hi (by simp [written])

end Store

namespace PagedCache

variable {s : PagedCache} {h : List (Call × Reply)} {k v : Bytes} {e : CacheEntry}

/-! ### What an entry holds -/

/-- Every item has the pages of its high water. -/
structure Filled (h : List (Call × Reply)) (s : PagedCache) : Prop where
  wf : s.Wf
  pages : ∀ k i, s.view.item k = some i → i.pages = highWater k h

theorem filled_after (calls : List Call) :
    Filled (StepMachine.history PagedCache.step fresh calls)
      (StepMachine.after PagedCache.step fresh calls) := by
  refine StepMachine.invariant_history (R := Filled) ⟨wf_fresh, fun k i hi => ?_⟩ ?_ calls
  · simp [view, fresh] at hi
  · rintro h s call ⟨hwf, hpages⟩
    have href := hwf.step call
    refine ⟨href.wf, fun k i hi => ?_⟩
    rw [href.view] at hi
    rw [highWater_snoc, href.reply]
    exact Store.step_pages hwf.lru.nodup (hpages k) hi

theorem Filled.totalPages_eq (hf : Filled h s) (hk : s.cacheMap.lookup k = some e) :
    e.totalPages = highWater k h := hf.pages k _ (view_item_of_lookup hk)

/-- Pages that are not free are those of the high waters. -/
theorem Filled.free_add_highWater (hf : Filled h s) :
    s.getFreePages + (s.cacheMap.keys.map fun k => highWater k h).sum =
      PagedCacheServer.totalPages := by
  have hkeys : (s.cacheMap.keys.map fun k => highWater k h) =
      s.residents.map CacheEntry.totalPages := by
    rw [AList.keys, List.keys, residents, List.map_map, List.map_map]
    refine List.map_congr_left fun x hx => ?_
    exact (hf.totalPages_eq (AList.mem_lookup_iff.mpr hx)).symm
  rw [hkeys]
  exact hf.wf.pageOwnership.total

/-! ### Writing below it -/

/-- A value that fits into the chain of the entry goes there. -/
theorem updateKey_of_le (hk : s.cacheMap.lookup k = some e)
    (hle : calculatePagesNeeded v ≤ e.totalPages) :
    s.updateKey k v e.clientId = (.success, ({ s with
      cacheMap := s.cacheMap.insert k { e with value := v } } : PagedCache).updateLru k) := by
  simp only [updateKey, hk, ne_eq, not_true_eq_false, if_false, if_pos hle]

/-- **The high water of a key.** After any calls, every entry holds exactly the pages of
the largest value written under its key since it was added, whatever its value is now, and
all other pages are free. Its client can write a value up to this size, which always
succeeds, leaves the chain, the bitmap and the free list as they are, and every other
entry. -/
theorem high_water (calls : List Call) :
    let s := StepMachine.after PagedCache.step fresh calls
    let h := StepMachine.history PagedCache.step fresh calls
    (∀ k e, s.cacheMap.lookup k = some e →
      e.totalPages = highWater k h ∧ e.memoryBlocks.length = highWater k h) ∧
    s.getFreePages + (s.cacheMap.keys.map fun k => highWater k h).sum =
      PagedCacheServer.totalPages ∧
    ∀ k e v, s.cacheMap.lookup k = some e → calculatePagesNeeded v ≤ highWater k h →
      let r := s.step (.update k v e.clientId)
      r.1 = ⟨.success, []⟩ ∧ r.2.toPageMemory = s.toPageMemory ∧
        r.2.cacheMap.lookup k = some { e with value := v } ∧
        ∀ k', k' ≠ k → r.2.cacheMap.lookup k' = s.cacheMap.lookup k' := by
  intro s h
  have hf : Filled h s := filled_after calls
  refine ⟨fun k e hk => ?_, hf.free_add_highWater, fun k e v hk hle => ?_⟩
  · have htotal := hf.totalPages_eq hk
    exact ⟨htotal, (hf.wf.pages.entry k e hk).length.trans htotal⟩
  · intro r
    rw [← hf.totalPages_eq hk] at hle
    have hr : r = (⟨.success, []⟩, ({ s with
        cacheMap := s.cacheMap.insert k { e with value := v } } : PagedCache).updateLru k) := by
      change ((⟨(s.updateKey k v e.clientId).1, []⟩ : Reply), _) = _
      rw [updateKey_of_le hk hle]
    rw [hr]
    exact ⟨rfl, rfl, AList.lookup_insert _, fun k' hne => AList.lookup_insert_ne hne⟩

/-- An entry that has been emptied keeps its page, and can be filled again. -/
theorem high_water_emptied :
    let calls : List Call := [.add (lit "k") (lit "a") (lit "client_5"),
      .update (lit "k") [] (lit "client_5")]
    let s := StepMachine.after PagedCache.step fresh calls
    calculatePagesNeeded [] = 0 ∧
      highWater (lit "k") (StepMachine.history PagedCache.step fresh calls) = 1 ∧
      (s.step (.update (lit "k") (lit "bc") (lit "client_5"))).1 = ⟨.success, []⟩ ∧
      (s.step (.update (lit "k") (lit "bc") (lit "client_5"))).2.toPageMemory =
        s.toPageMemory := by
  intro calls s
  have hwater : highWater (lit "k") (StepMachine.history PagedCache.step fresh calls) = 1 := by
    decide +kernel
  have hk : s.cacheMap.lookup (lit "k") = some ⟨lit "k", [], [0], 1, lit "client_5"⟩ := by
    decide +kernel
  have hneed : calculatePagesNeeded (lit "bc") = 1 := by decide
  have hwrite := (high_water calls).2.2 (lit "k") _ (lit "bc") hk (hneed.trans hwater.symm).le
  exact ⟨by decide, hwater, hwrite.1, hwrite.2.1⟩

end PagedCache

end PagedCacheServer
