import PagedCacheServer.Cache.Ownership

/-!
# Clients that do not notice each other

Clients share the pages, and nothing else as long as they keep to their own keys.
When no call lacks pages, a client is given the same answers as if it were alone.

The two runs have different pages, free lists and recency lists. What relates them
(`PagedCacheServer.PagedCache.Alone`) is that the client's items are the same, and
that is enough: the pages of a cache are all free or bound
(`PagedCacheServer.PagedCache.Wf.free_add_weight`), so the run with fewer items has
at least as many free pages, and a call that has enough of them in the shared
cache has enough in its own.
-/

namespace PagedCacheServer

namespace Store

open PagedCache (Call)

variable {t t' : Store Bytes Bytes Bytes} {call : Call}

/-! ### Calls that lack no page -/

theorem permits_congr (h : t.item call.key = t'.item call.key) :
    t.Permits call ↔ t'.Permits call := by
  cases call <;> simp_all [Permits, OwnedBy, Call.key]

theorem written_congr (h : t.item call.key = t'.item call.key) :
    t.written call = t'.written call := by
  cases call <;> simp_all [written, Call.key]

/-- The answer to a call that lacks no page depends on the item under its key
only. -/
theorem step_fst_congr (h : t.item call.key = t'.item call.key) (hs : t.shortage call = 0)
    (hs' : t'.shortage call = 0) : (t.step call).1 = (t'.step call).1 := by
  cases call with
  | add k v c =>
    have hk : t.item k = t'.item k := h
    simp only [step, add, ← hk]
    rcases hi : t.item k with _ | i
    · simp only [shortage, ← hk, hi, Option.isSome_none, Bool.false_eq_true, if_false] at hs hs'
      have hle := Nat.le_of_sub_eq_zero hs
      have hle' := Nat.le_of_sub_eq_zero hs'
      simp only [Option.isSome_none, Bool.false_eq_true, if_false, makeRoom_of_le hle,
        makeRoom_of_le hle', if_pos hle, if_pos hle']
      split_ifs <;> rfl
    · -- not `rfl`, for which the kernel would run the branch that is not taken
      simp only [Option.isSome_some, if_true]
  | update k v c =>
    have hk : t.item k = t'.item k := h
    simp only [step, update, ← hk]
    rcases hi : t.item k with _ | i
    · rfl
    · by_cases hc : i.owner = c
      swap
      · simp [hc]
      by_cases hle : calculatePagesNeeded v ≤ i.pages
      · simp [hc, hle]
      have hgrow : i.owner = c ∧ i.pages < calculatePagesNeeded v := ⟨hc, by omega⟩
      simp only [shortage, ← hk, hi, if_pos hgrow] at hs hs'
      have hfit := Nat.le_of_sub_eq_zero hs
      have hfit' := Nat.le_of_sub_eq_zero hs'
      have hroom := makeRoom_of_le (s := { t with free := t.free + i.pages }) (c := c) hfit
      have hroom' := makeRoom_of_le (s := { t' with free := t'.free + i.pages }) (c := c) hfit'
      simp [hc, hle, hroom, hroom', hfit, hfit']
  | get k c =>
    have hk : t.item k = t'.item k := h
    simp only [step, get, ← hk]
    rcases t.item k with _ | i
    · rfl
    · by_cases hc : i.owner = c <;> simp [hc]
  | delete k c =>
    have hk : t.item k = t'.item k := h
    simp only [step, delete, ← hk]
    rcases t.item k with _ | i
    · rfl
    · by_cases hc : i.owner = c <;> simp [hc]

open Classical in
/-- A call that lacks no page changes the item under its key only, and only if it
is permitted. -/
theorem step_item_of_shortage_eq_zero (hnd : t.order.Nodup) (hs : t.shortage call = 0)
    (k : Bytes) :
    (t.step call).2.item k =
      if k = call.key ∧ t.Permits call then t.written call else t.item k := by
  have hnone := evicted_of_shortage_eq_zero hs
  rcases step_outcome hnd call with hsucc | hfail
  · rw [hsucc.item, hnone]
    by_cases hk : k = call.key <;> simp [hk, hsucc.permits]
  · have hp : ¬t.Permits call := fun hp => by
      have := hfail.refused hp
      omega
    rw [hfail.state, hnone, removeAll_nil, if_neg fun h => hp h.2]

/-- A successful call leaves an item of its client, or none. -/
theorem owner_of_written {i : Item Bytes Bytes} (hp : t.Permits call)
    (hi : t.written call = some i) : i.owner = call.clientId := by
  cases call with
  | add k v c =>
    obtain rfl := Option.some.inj hi
    rfl
  | update k v c =>
    obtain ⟨j, -, rfl⟩ := Option.map_eq_some_iff.mp hi
    rfl
  | get k c =>
    obtain ⟨j, hj, hc⟩ := hp
    obtain rfl := Option.some.inj (hj.symm.trans hi)
    exact hc
  | delete k c => simp [written] at hi

end Store

namespace PagedCache

variable {s s' : PagedCache} {call : Call} {c : Bytes} {calls : List Call}

/-! ### Pages are free or bound -/

/-- **The free pages and those of the items make up the memory.** -/
theorem Wf.free_add_weight (h : s.Wf) :
    s.view.free + Recency.weight s.view.pagesOf s.view.order = PagedCacheServer.totalPages := by
  have hkeys : s.cacheMap.keys.map s.view.pagesOf = s.residents.map CacheEntry.totalPages := by
    rw [AList.keys, List.keys, List.map_map, residents, List.map_map]
    exact List.map_congr_left fun x hx => view_pagesOf (AList.mem_lookup_iff.mpr hx)
  have hsum : Recency.weight s.view.pagesOf s.view.order =
      (s.residents.map CacheEntry.totalPages).sum := by
    rw [← hkeys]
    exact (h.perm_keys.map _).sum_eq
  rw [hsum]
  exact h.pageOwnership.total

/-- The items of a cache that has some of the items of another one leave more pages
free. -/
theorem Wf.free_le_of_item (h : s.Wf) (h' : s'.Wf)
    (hitem : ∀ k i, s'.view.item k = some i → s.view.item k = some i) :
    s.view.free ≤ s'.view.free := by
  have htotal := h.free_add_weight
  have htotal' := h'.free_add_weight
  have hmem : ∀ k ∈ s'.view.order, k ∈ s.view.order ∧ s'.view.pagesOf k = s.view.pagesOf k := by
    intro k hk
    obtain ⟨i, hi⟩ := Option.isSome_iff_exists.mp ((h'.inv.mem_order k).mp hk)
    have hi' := hitem k i hi
    refine ⟨(h.inv.mem_order k).mpr (Option.isSome_of_eq_some hi'), ?_⟩
    rw [Store.pagesOf, Store.pagesOf, hi, hi']
  have hle : Recency.weight s'.view.pagesOf s'.view.order ≤
      Recency.weight s.view.pagesOf s.view.order := by
    rw [Recency.weight_congr fun k hk => (hmem k hk).2]
    obtain ⟨l, hperm, hsub⟩ := List.subperm_of_subset h'.lru.nodup fun k hk => (hmem k hk).1
    calc Recency.weight s.view.pagesOf s'.view.order
        = Recency.weight s.view.pagesOf l := (hperm.symm.map _).sum_eq
      _ ≤ Recency.weight s.view.pagesOf s.view.order := (hsub.map _).sum_le_sum (by simp)
  omega

/-! ### The condition -/

/-- Whatever the call allocates it gets at the first attempt. A value that takes no
page asks for none. -/
def FirstAttempt (s : PagedCache) : Call → Prop
  | .add key value _ => key ∉ s.cacheMap → 0 < calculatePagesNeeded value →
    (s.allocatePagesLinked (calculatePagesNeeded value)).1 ≠ []
  | .update key value clientId => ∀ e, s.cacheMap.lookup key = some e → e.clientId = clientId →
    e.totalPages < calculatePagesNeeded value →
      ((s.deallocatePagesLinked e.memoryBlocks).allocatePagesLinked
        (calculatePagesNeeded value)).1 ≠ []
  | .get _ _ | .delete _ _ => True

theorem Wf.shortage_of_firstAttempt (h : s.Wf) (hf : s.FirstAttempt call) :
    s.view.shortage call = 0 := by
  cases call with
  | add k v c =>
    simp only [Store.shortage]
    split_ifs with hk
    · rfl
    · have hk' : k ∉ s.cacheMap := view_item_eq_none.mp (Option.not_isSome_iff_eq_none.mp hk)
      by_contra hne
      refine hf hk' (by omega) ?_
      rw [allocatePagesLinked_of_lt h.pages.memory (by omega)]
  | update k v c =>
    simp only [Store.shortage, view_item]
    rcases hk : s.cacheMap.lookup k with _ | e
    · rfl
    · simp only [Option.map_some, itemOf]
      split_ifs with hgrow
      · by_contra hne
        refine hf e hk hgrow.1 hgrow.2 ?_
        have hfree : (s.deallocatePagesLinked e.memoryBlocks).view.free =
            s.view.free + e.totalPages := congrArg Store.free (view_release h.pages hk)
        rw [allocatePagesLinked_of_lt (h.pages.release hk).memory (by omega)]
      · rfl
  | get k c => rfl
  | delete k c => rfl

/-! ### The simulation -/

/-- The cache `s'` of the client `c` alone, next to the shared cache `s`: it has the
items of `c`. Every item belongs to a client that named its key. -/
structure Alone (calls : List Call) (c : Bytes) (s s' : PagedCache) : Prop where
  wf : s.Wf
  wf' : s'.Wf
  named : ∀ k i, s.view.item k = some i → ∃ x ∈ calls, x.key = k ∧ x.clientId = i.owner
  item : ∀ k, s'.view.item k = (s.view.item k).filter fun i => i.owner = c

theorem Alone.free_le (h : Alone calls c s s') : s.view.free ≤ s'.view.free := by
  refine h.wf.free_le_of_item h.wf' fun k i hi => ?_
  rw [h.item, Option.filter_eq_some_iff] at hi
  exact hi.1

/-- No key is named by two clients. -/
def OwnKeys (calls : List Call) : Prop :=
  ∀ x ∈ calls, ∀ y ∈ calls, x.key = y.key → x.clientId = y.clientId

/-- What is under the key of a call belongs to the client that makes it. -/
theorem Alone.owner_eq (h : Alone calls c s s') (hkeys : OwnKeys calls) (hcall : call ∈ calls)
    {i : Item Bytes Bytes} (hi : s.view.item call.key = some i) : i.owner = call.clientId := by
  obtain ⟨x, hx, hkey, howner⟩ := h.named _ i hi
  rw [← howner]
  exact hkeys x hx call hcall hkey

theorem Alone.named_step (h : Alone calls c s s') (hcall : call ∈ calls)
    (hs : s.view.shortage call = 0) (k : Bytes) (i : Item Bytes Bytes)
    (hi : (s.step call).2.view.item k = some i) :
    ∃ x ∈ calls, x.key = k ∧ x.clientId = i.owner := by
  classical
  rw [(h.wf.step call).view, Store.step_item_of_shortage_eq_zero h.wf.lru.nodup hs] at hi
  split_ifs at hi with hk
  · exact ⟨call, hcall, hk.1.symm, (Store.owner_of_written hk.2 hi).symm⟩
  · exact h.named k i hi

/-- **A call of the client** gets the same answer in both caches, and leaves it with
the same items. -/
theorem Alone.step_own (h : Alone calls call.clientId s s') (hkeys : OwnKeys calls)
    (hcall : call ∈ calls) (hs : s.view.shortage call = 0) :
    (s.step call).1 = (s'.step call).1 ∧
      Alone calls call.clientId (s.step call).2 (s'.step call).2 := by
  classical
  have hsame : s.view.item call.key = s'.view.item call.key := by
    rw [h.item]
    rcases hi : s.view.item call.key with _ | i
    · rfl
    · have howner := h.owner_eq hkeys hcall hi
      rw [Option.filter_some, if_pos (decide_eq_true howner)]
  have hs' : s'.view.shortage call = 0 := by
    have hfree := h.free_le
    cases call with
    | add k v c =>
      have hk : s.view.item k = s'.view.item k := hsame
      simp only [Store.shortage, hk] at hs ⊢
      split_ifs at hs ⊢ <;> omega
    | update k v c =>
      have hk : s.view.item k = s'.view.item k := hsame
      simp only [Store.shortage, hk] at hs ⊢
      rcases hi : s'.view.item k with _ | i
      · rfl
      · simp only [hi] at hs ⊢
        split_ifs at hs ⊢ <;> omega
    | get k c => rfl
    | delete k c => rfl
  have href := h.wf.step call
  have href' := h.wf'.step call
  refine ⟨?_, href.wf, href'.wf, h.named_step hcall hs, fun k => ?_⟩
  · rw [href.reply, href'.reply]
    exact Store.step_fst_congr hsame hs hs'
  · rw [href.view, href'.view, Store.step_item_of_shortage_eq_zero h.wf.lru.nodup hs,
      Store.step_item_of_shortage_eq_zero h.wf'.lru.nodup hs', ← Store.permits_congr hsame,
      ← Store.written_congr hsame]
    split_ifs with hk
    · rcases hw : s.view.written call with _ | i
      · rfl
      · rw [Option.filter_some, if_pos (decide_eq_true (Store.owner_of_written hk.2 hw))]
    · exact h.item k

/-- **A call of another client** does not touch the items of this one. -/
theorem Alone.step_other (h : Alone calls c s s') (hkeys : OwnKeys calls) (hcall : call ∈ calls)
    (hs : s.view.shortage call = 0) (hne : call.clientId ≠ c) :
    Alone calls c (s.step call).2 s' := by
  classical
  have href := h.wf.step call
  refine ⟨href.wf, h.wf', h.named_step hcall hs, fun k => ?_⟩
  rw [href.view, Store.step_item_of_shortage_eq_zero h.wf.lru.nodup hs, h.item]
  split_ifs with hk
  · -- neither what was there nor what is written is an item of `c`
    have hold : (s.view.item k).filter (fun i => i.owner = c) = none := by
      rcases hi : s.view.item k with _ | i
      · rfl
      · have howner : i.owner ≠ c := h.owner_eq hkeys hcall (hk.1 ▸ hi) ▸ hne
        rw [Option.filter_some, if_neg (by simpa using howner)]
    rw [hold]
    rcases hw : s.view.written call with _ | i
    · rfl
    · have howner : i.owner ≠ c := Store.owner_of_written hk.2 hw ▸ hne
      rw [Option.filter_some, if_neg (by simpa using howner)]
  · rfl

/-- **Non-interference without memory pressure.** In every run in which no key is
named by two clients and every allocation succeeds at its first attempt, the answers
to the calls of a client are those of the run of its calls alone. -/
theorem noninterference (calls : List Call) (hkeys : OwnKeys calls)
    (hroom : StepMachine.Admits PagedCache.step FirstAttempt fresh calls) (c : Bytes) :
    (StepMachine.history PagedCache.step fresh calls).filter (fun e => e.1.clientId = c) =
      StepMachine.history PagedCache.step fresh (calls.filter fun call => call.clientId = c) := by
  have hstart : Alone calls c fresh fresh := by
    refine ⟨wf_fresh, wf_fresh, fun k i hi => ?_, fun k => rfl⟩
    simp [view, fresh] at hi
  refine StepMachine.filter_history_eq (fun call => call.clientId = c) ?_ ?_ hstart calls
    (hroom.and_mem (P := (· ∈ calls)) fun _ h => h)
  · rintro s s' call ⟨hf, hcall⟩ h hc
    obtain rfl : call.clientId = c := of_decide_eq_true hc
    exact h.step_own hkeys hcall (h.wf.shortage_of_firstAttempt hf)
  · rintro s s' call ⟨hf, hcall⟩ h hc
    exact h.step_other hkeys hcall (h.wf.shortage_of_firstAttempt hf) (of_decide_eq_false hc)

/-- Two clients, one key each: the first one reads its entry back as if the second
one had never called. -/
theorem noninterference_two_clients :
    let calls : List Call := [.add (lit "a") (lit "x") (lit "client_5"),
      .add (lit "b") (lit "y") (lit "client_6"), .get (lit "a") (lit "client_5")]
    (StepMachine.history PagedCache.step fresh calls).filter
        (fun e => e.1.clientId = lit "client_5") =
      StepMachine.history PagedCache.step fresh
        [.add (lit "a") (lit "x") (lit "client_5"), .get (lit "a") (lit "client_5")] := by
  intro calls
  have hkeys : OwnKeys calls := by
    unfold OwnKeys
    decide
  have hroom : StepMachine.Admits PagedCache.step FirstAttempt fresh calls := by
    refine ⟨fun _ _ => ?_, fun _ _ => ?_, trivial, trivial⟩ <;> decide +kernel
  exact noninterference calls hkeys hroom (lit "client_5")

end PagedCache

end PagedCacheServer
