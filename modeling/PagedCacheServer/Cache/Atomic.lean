import PagedCacheServer.Cache.Refine

/-!
# When failing leaves no trace

A call that fails does nothing but its evictions
(`PagedCacheServer.Store.Fails`). Both `add_key` and `update_key` undo what they
did to the pages when they run out of them – the allocation is rolled back, the
old chain is restored – but the entries the sweep evicted on the way are gone for
good. A failed call is therefore without effect exactly when the sweep found
nothing to evict: it *evicts in vain* when other clients have entries, and not
enough pages.
-/

namespace PagedCacheServer

namespace Store

open PagedCache (Call)

variable {t : Store Bytes Bytes Bytes} {call : Call}

/-- The call lacks pages, the entries of the other clients do not make up for
them, and there is such an entry. -/
def EvictsInVain (t : Store Bytes Bytes Bytes) (call : Call) : Prop :=
  0 < t.othersPages call.clientId ∧ t.othersPages call.clientId < t.shortage call

/-- Other clients hold pages exactly when they hold entries. -/
theorem Inv.candidates_eq_nil_iff (h : t.Inv) (c : Bytes) :
    t.candidates c = [] ↔ t.othersPages c = 0 := by
  constructor
  · intro hnil
    rw [othersPages, hnil, Recency.weight_nil]
  · intro hzero
    refine List.eq_nil_iff_forall_not_mem.mpr fun k hk => ?_
    obtain ⟨i, hi, -⟩ := foreign_iff.mp (mem_candidates.mp hk).2
    have hpages : t.pagesOf k = i.pages := by rw [pagesOf, hi]; rfl
    have hle : t.pagesOf k ≤ t.othersPages c :=
      List.single_le_sum (by simp) _ (List.mem_map_of_mem hk)
    have := h.pos k i hi
    omega

/-- A failed call evicts all there is to evict, or has not asked for pages. -/
theorem evicted_of_failure (hnd : t.order.Nodup) (h : (t.step call).1.result ≠ .success) :
    t.evicted call = [] ∨
      t.evicted call = t.candidates call.clientId ∧
        t.othersPages call.clientId < t.shortage call := by
  rcases Nat.eq_zero_or_pos (t.shortage call) with hzero | hpos
  · exact Or.inl (evicted_of_shortage_eq_zero hzero)
  · have hlt := (step_of_failure hnd h).refused (permits_of_shortage_pos hpos)
    exact Or.inr ⟨Recency.shortest_eq_self hlt, hlt⟩

/-- **A call is atomic exactly when it does not evict in vain.** -/
theorem Inv.step_atomic_iff (h : t.Inv) (call : Call) :
    ((t.step call).1.result ≠ .success → (t.step call).2 = t) ↔ ¬t.EvictsInVain call := by
  constructor
  · rintro hatomic ⟨hpos, hlt⟩
    have hfail : (t.step call).1.result ≠ .success := by
      rw [Ne, step_result_eq_success_iff h.nodup]
      rintro ⟨-, hle⟩
      exact Nat.not_le.mpr hlt hle
    -- some entry of another client is evicted, and missing afterwards
    obtain ⟨k, hk⟩ := List.exists_mem_of_ne_nil _
      (mt (h.candidates_eq_nil_iff call.clientId).mp hpos.ne')
    have hall : t.evicted call = t.candidates call.clientId := Recency.shortest_eq_self hlt
    obtain ⟨i, hi, -⟩ := foreign_iff.mp (mem_candidates.mp hk).2
    have hgone : (t.step call).2.item k = none := by
      rw [(step_of_failure h.nodup hfail).state, removeAll_item, hall, if_pos hk]
    rw [hatomic hfail, hi] at hgone
    simp at hgone
  · intro hvain hfail
    have hnil : t.evicted call = [] := by
      rcases evicted_of_failure h.nodup hfail with hnil | ⟨hall, hlt⟩
      · exact hnil
      · have hzero : t.othersPages call.clientId = 0 := by
          by_contra hne
          exact hvain ⟨Nat.pos_of_ne_zero hne, hlt⟩
        rw [hall, h.candidates_eq_nil_iff, hzero]
    rw [(step_of_failure h.nodup hfail).state, hnil, removeAll_nil]

end Store

namespace PagedCache

variable {s : PagedCache}

theorem Wf.step_atomic_iff (h : s.Wf) (call : Call) :
    ((s.step call).1.result ≠ .success → (s.step call).2.view = s.view) ↔
      ¬s.view.EvictsInVain call := by
  rw [(h.step call).reply, (h.step call).view]
  exact h.inv.step_atomic_iff call

/-- **When a failed call leaves no trace.** In every reachable cache, a call that
returns anything but success leaves the resident keys with their values, owners
and page counts, the recency order and the number of free pages as they were
exactly when it does not evict in vain. -/
theorem step_atomic_iff_after (calls : List Call) (call : Call) :
    let s := StepMachine.after PagedCache.step fresh calls
    ((s.step call).1.result ≠ .success → (s.step call).2.view = s.view) ↔
      ¬s.view.EvictsInVain call :=
  (wf_after calls).step_atomic_iff call

/-- A client has one small entry when another one asks for a byte more than the
whole cache holds. The call fails, and the entry is gone. -/
theorem add_not_atomic :
    ¬∀ (calls : List Call) (call : Call),
      let s := StepMachine.after PagedCache.step fresh calls
      (s.step call).1.result ≠ .success → (s.step call).2.view = s.view := by
  intro hall
  have hvain :=
    (wf_oneEntry.step_atomic_iff (.add (lit "b") hugeValue (lit "client_6"))).mp (hall _ _)
  refine hvain ⟨?_, ?_⟩
  · rw [Call.clientId, othersPages_oneEntry]
    decide
  · rw [Call.clientId, othersPages_oneEntry, shortage_oneEntry,
      calculatePagesNeeded_hugeValue]
    decide

end PagedCache

end PagedCacheServer
