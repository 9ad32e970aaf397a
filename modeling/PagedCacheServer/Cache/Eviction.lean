import PagedCacheServer.Cache.Refine

/-!
# Eviction is by recency

Two facts make the sweep of `evict_lru_if_needed` an eviction of the least
recently used entries. The list it walks backwards is the resident keys by the
age of their last successful use, over the whole run that led here
(`PagedCacheServer.PagedCache.recency_after`). And what it drops is the shortest
initial segment of the other clients' entries, oldest first, that makes up for
the missing pages – nothing, when none are missing.
-/

namespace PagedCacheServer

namespace PagedCache

/-- The call used the key with success: it added it, read it or updated it. -/
def uses (event : Call × Reply) (k : Bytes) : Bool :=
  event.2.result = .success &&
    match event.1 with
    | .delete _ _ => false
    | .add key _ _ | .update key _ _ | .get key _ => decide (key = k)

/-- The recency list after a history: each resident key once, in the order of
its last use. -/
structure RecencyOrder (h : List (Call × Reply)) (s : PagedCache) : Prop where
  nodup : s.lruOrder.Nodup
  mem_iff : ∀ k, k ∈ s.lruOrder ↔ k ∈ s.cacheMap
  used : ∀ k ∈ s.lruOrder, ∃ event ∈ h, uses event k = true
  byAge : Recency.ByAge uses h s.lruOrder

/-- What a call of `c` that lacks `d` pages removes: the shortest initial segment
of the entries of others, least recently used first, with at least `d` pages. -/
structure ShortestSegment (s : PagedCache) (c : Bytes) (d : ℕ) (removed : List Bytes) : Prop where
  isPrefix : removed <+: s.lruOrder.reverse.filter (s.view.foreign c)
  enough : d ≤ Recency.weight s.view.pagesOf removed
  shortest : ∀ p, p <+: removed → p ≠ removed → Recency.weight s.view.pagesOf p < d

variable {call : Call} {reply : Reply} {k : Bytes}

theorem uses_of_failure (h : reply.result ≠ .success) : uses (call, reply) k = false := by
  simp [uses, h]

theorem uses_of_ne (h : k ≠ call.key) : uses (call, reply) k = false := by
  cases call <;> simp [uses] <;> exact fun _ he => h he.symm

/-! ### One call -/

end PagedCache

namespace Store

open PagedCache (Call Reply uses uses_of_failure uses_of_ne)

variable {t : Store Bytes Bytes Bytes} {call : Call} {h : List (Call × Reply)}

/-- The order after a call: some of the old keys, none of which it used, behind
the key it used, if it used one. -/
theorem step_order (hnd : t.order.Nodup) (call : Call) :
    ∃ kept, kept.Sublist t.order ∧
      (∀ k ∈ kept, uses (call, (t.step call).1) k = false) ∧
      ((t.step call).2.order = kept ∨
        (t.step call).2.order = call.key :: kept ∧
          uses (call, (t.step call).1) call.key = true) := by
  rcases step_outcome hnd call with hs | hf
  swap
  · refine ⟨_, removeAll_order_sublist (t.evicted call), fun k _ => uses_of_failure hf.result,
      Or.inl ?_⟩
    rw [hf.state]
  -- the keys that were not evicted, without the one the call names
  let kept := (t.order.filter (· ∉ t.evicted call)).erase call.key
  have hsub : kept.Sublist t.order := List.erase_sublist.trans List.filter_sublist
  have hkept : ∀ k ∈ kept, uses (call, (t.step call).1) k = false := by
    intro k hk
    refine uses_of_ne fun heq => ?_
    subst heq
    exact (hnd.filter _).not_mem_erase hk
  refine ⟨kept, hsub, hkept, ?_⟩
  have horder := hs.order
  cases call with
  | delete k c => exact Or.inl horder
  | add k v c => exact Or.inr ⟨horder, by simp [uses, hs.result, Call.key]⟩
  | update k v c => exact Or.inr ⟨horder, by simp [uses, hs.result, Call.key]⟩
  | get k c => exact Or.inr ⟨horder, by simp [uses, hs.result, Call.key]⟩

/-- The sweep never drops the key it runs for. -/
theorem key_notMem_evicted (call : Call) : call.key ∉ t.evicted call := by
  intro hmem
  have hp := permits_of_shortage_pos (shortage_pos_of_mem_evicted hmem)
  obtain ⟨i, hi, hne⟩ := foreign_iff.mp (foreign_of_mem_victims hmem)
  have howned : ¬t.OwnedBy call.clientId call.key := by
    rintro ⟨j, hj, hc⟩
    exact hne (Option.some.inj (hi.symm.trans hj) ▸ hc)
  cases call with
  | add k v c =>
    have hnone : t.item k = none := hp.1
    exact absurd (hnone.symm.trans hi) (by simp)
  | update k v c => exact howned hp
  | get k c => exact howned hp
  | delete k c => exact howned hp

/-- The keys a successful call removes are those it evicts, unless it deletes its
own. -/
theorem mem_evicted_iff (hnd : t.order.Nodup) (hsucc : (t.step call).1.result = .success)
    (hw : (t.step call).2.item call.key ≠ none) (k : Bytes) :
    k ∈ t.evicted call ↔ t.item k ≠ none ∧ (t.step call).2.item k = none := by
  have hs := step_of_success hnd hsucc
  rcases eq_or_ne k call.key with rfl | hne
  · exact iff_of_false (key_notMem_evicted call) fun hk => hw hk.2
  rw [hs.item, if_neg hne]
  constructor
  · intro hk
    obtain ⟨i, hi, -⟩ := foreign_iff.mp (foreign_of_mem_victims hk)
    exact ⟨by simp [hi], if_pos hk⟩
  · rintro ⟨hsome, hnone⟩
    by_contra hk
    rw [if_neg hk] at hnone
    exact hsome hnone

end Store

namespace PagedCache

variable {s : PagedCache} {call : Call}

/-! ### Runs -/

theorem RecencyOrder.step {h : List (Call × Reply)} (hwf : s.Wf) (hr : RecencyOrder h s) :
    RecencyOrder (h ++ [(call, (s.step call).1)]) (s.step call).2 := by
  have href := hwf.step call
  have hlru := href.wf.lru
  obtain ⟨kept, hsub, hunused, horder⟩ := Store.step_order (t := s.view) hwf.lru.nodup call
  rw [← href.view, ← href.reply] at horder
  rw [← href.reply] at hunused
  have hold : ∀ k ∈ kept, ∃ event ∈ h ++ [(call, (s.step call).1)], uses event k = true := by
    intro k hk
    obtain ⟨event, hmem, hev⟩ := hr.used k (hsub.subset hk)
    exact ⟨event, List.mem_append_left _ hmem, hev⟩
  rcases horder with horder | ⟨horder, hused⟩
  · have hlist : (s.step call).2.lruOrder = kept := horder
    refine ⟨hlru.nodup, hlru.mem_iff, ?_, ?_⟩ <;> rw [hlist]
    · exact hold
    · exact hr.byAge.snoc_keep hsub hunused
  · have hlist : (s.step call).2.lruOrder = call.key :: kept := horder
    refine ⟨hlru.nodup, hlru.mem_iff, ?_, ?_⟩ <;> rw [hlist]
    · refine List.forall_mem_cons.mpr ⟨⟨_, by simp, hused⟩, hold⟩
    · exact hr.byAge.snoc_touch hsub hused hunused

theorem recency_after (calls : List Call) :
    RecencyOrder (StepMachine.history PagedCache.step fresh calls)
      (StepMachine.after PagedCache.step fresh calls) := by
  refine (StepMachine.invariant_history (R := fun h (s : PagedCache) => s.Wf ∧ RecencyOrder h s)
    ⟨wf_fresh, ?_⟩ ?_ calls).2
  · exact ⟨List.nodup_nil, wf_fresh.lru.mem_iff, by simp [fresh], Recency.byAge_nil _⟩
  · intro h s call hs
    exact ⟨(hs.1.step call).wf, hs.2.step hs.1⟩

/-- A successful write removes what it evicts, by the view. -/
theorem Wf.removed_iff (h : s.Wf) (hw : ∃ k v c, call = .add k v c ∨ call = .update k v c)
    (hsucc : (s.step call).1.result = .success) (k : Bytes) :
    k ∈ s.view.evicted call ↔ k ∈ s.cacheMap ∧ k ∉ (s.step call).2.cacheMap := by
  have href := h.step call
  rw [href.reply] at hsucc
  have hkey : (s.view.step call).2.item call.key ≠ none := by
    have hs := Store.step_of_success h.lru.nodup hsucc
    rw [hs.item, if_pos rfl]
    obtain ⟨k, v, c, rfl | rfl⟩ := hw
    · simp [Store.written]
    · obtain ⟨i, hi, -⟩ := hs.permits
      simp [Store.written, hi]
  rw [Store.mem_evicted_iff h.lru.nodup hsucc hkey, ← href.view, Ne, view_item_eq_none, not_not,
    view_item_eq_none]

/-- **Eviction is by recency, over whole runs.** The recency list is the resident
keys by their last use; and an `add_key` or `update_key` that succeeds removes
nothing if it lacks no page, and otherwise the shortest segment of the other
clients' entries, oldest first, that covers what it lacks. -/
theorem evicts_leastRecent (calls : List Call) :
    let s := StepMachine.after PagedCache.step fresh calls
    RecencyOrder (StepMachine.history PagedCache.step fresh calls) s ∧
      ∀ call, (∃ k v c, call = .add k v c ∨ call = .update k v c) →
        (s.step call).1.result = .success →
        ∃ removed, (∀ k, k ∈ removed ↔ k ∈ s.cacheMap ∧ k ∉ (s.step call).2.cacheMap) ∧
          (s.view.shortage call = 0 → removed = []) ∧
          (0 < s.view.shortage call →
            ShortestSegment s call.clientId (s.view.shortage call) removed) := by
  intro s
  have h : s.Wf := wf_after calls
  refine ⟨recency_after calls, fun call hw hsucc => ?_⟩
  refine ⟨s.view.evicted call, h.removed_iff hw hsucc, Store.evicted_of_shortage_eq_zero,
    fun _ => ⟨?_, ?_, fun p => ?_⟩⟩
  · exact Recency.isPrefix_shortest _ _
  · rw [(h.step call).reply] at hsucc
    exact Recency.le_weight_shortest (Store.step_of_success h.lru.nodup hsucc).room
  · exact Recency.weight_lt_of_prefix_shortest

/-- A value of the size of the whole cache lacks one page, and the one entry that
is there goes. -/
theorem evicts_oneEntry :
    let call : Call := .add (lit "b")
      (List.replicate (PagedCacheServer.totalPages * pageSize) 120) (lit "client_6")
    (oneEntry.step call).1.result = .success ∧
      ∃ removed,
        (∀ k, k ∈ removed ↔ k ∈ oneEntry.cacheMap ∧ k ∉ (oneEntry.step call).2.cacheMap) ∧
          ShortestSegment oneEntry (lit "client_6") 1 removed := by
  intro call
  have hneed : calculatePagesNeeded
      (List.replicate (PagedCacheServer.totalPages * pageSize) 120) =
        PagedCacheServer.totalPages := calculatePagesNeeded_wholeValue
  have hshort : oneEntry.view.shortage call = 1 := shortage_oneEntry_of_whole hneed
  have hsucc : (oneEntry.step call).1.result = .success := by
    rw [(wf_oneEntry.step call).reply]
    exact success_oneEntry_of_whole hneed
  have hmain := (evicts_leastRecent [.add (lit "a") (lit "x") (lit "client_5")]).2 call
    ⟨_, _, _, Or.inl rfl⟩
  rw [← oneEntry, hshort] at hmain
  obtain ⟨removed, hremoved, -, hsegment⟩ := hmain hsucc
  exact ⟨hsucc, removed, hremoved, hsegment Nat.one_pos⟩

end PagedCache

end PagedCacheServer
