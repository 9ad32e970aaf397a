import PagedCacheServer.Cache.Refine

/-!
# Reads return the last write

What is under a key is decided by the history of the calls on it. The history
invariant is that whatever a resident key is bound to was put there by the last
successful change of that key (`PagedCacheServer.PagedCache.LastWrite`), which
gives the first half of read-your-writes. For the second half, an item its client
does not touch stays bound until a call of *another* client that lacks pages
evicts it (`PagedCacheServer.Store.kept_or_evicted`).

Neither half mentions pages: both are proved of the specification, and carried
over to the code by the refinement.
-/

namespace PagedCacheServer

namespace PagedCache

/-- The call succeeded in writing `v` under `k` for `c`. -/
def Writes (k v c : Bytes) (event : Call × Reply) : Prop :=
  event.2.result = .success ∧ (event.1 = .add k v c ∨ event.1 = .update k v c)

/-- The call succeeded in deleting `k` for `c`. -/
def Deletes (k c : Bytes) (event : Call × Reply) : Prop :=
  event.2.result = .success ∧ event.1 = .delete k c

/-- The last successful write under `k` was that of `v` by `c`, and no successful
delete of `k` followed it. -/
def LastWrite (h : List (Call × Reply)) (k v c : Bytes) : Prop :=
  ∃ before event later, h = before ++ event :: later ∧ Writes k v c event ∧
    ∀ x ∈ later, (∀ v' c', ¬Writes k v' c' x) ∧ ∀ c', ¬Deletes k c' x

variable {k v c : Bytes} {h : List (Call × Reply)} {x : Call × Reply}

theorem Writes.key_eq (hx : Writes k v c x) : x.1.key = k := by
  rcases hx.2 with he | he <;> rw [he] <;> rfl

theorem Deletes.key_eq (hx : Deletes k c x) : x.1.key = k := by
  rw [hx.2]
  rfl

theorem Writes.lastWrite (hx : Writes k v c x) : LastWrite (h ++ [x]) k v c :=
  ⟨h, x, [], rfl, hx, by simp⟩

/-- An event that does not change the key leaves the last write what it was. -/
theorem LastWrite.snoc (hlast : LastWrite h k v c) (hw : ∀ v' c', ¬Writes k v' c' x)
    (hd : ∀ c', ¬Deletes k c' x) : LastWrite (h ++ [x]) k v c := by
  obtain ⟨before, event, later, rfl, hevent, hlater⟩ := hlast
  refine ⟨before, event, later ++ [x], by simp, hevent, fun y hy => ?_⟩
  rcases List.mem_append.mp hy with hy | hy
  · exact hlater y hy
  · obtain rfl := List.mem_singleton.mp hy
    exact ⟨hw, hd⟩

end PagedCache

namespace Store

open PagedCache (Call Reply Writes Deletes LastWrite)

variable {t : Store Bytes Bytes Bytes} {call : Call} {k v c : Bytes} {i : Item Bytes Bytes}

/-! ### One call -/

theorem item_of_removeAll_eq_some {ks : List Bytes} (h : (t.removeAll ks).item k = some i) :
    t.item k = some i := by
  rw [removeAll_item] at h
  split at h
  · simp at h
  · exact h

/-- What a call leaves under a key is what was there, unless it is a successful
write under that key. -/
theorem step_item (hnd : t.order.Nodup) (hi : (t.step call).2.item k = some i) :
    Writes k i.value i.owner (call, (t.step call).1) ∨
      t.item k = some i ∧ ((∀ v' c', ¬Writes k v' c' (call, (t.step call).1)) ∧
        ∀ c', ¬Deletes k c' (call, (t.step call).1)) := by
  rcases step_outcome hnd call with hs | hf
  swap
  · -- nothing is written by a call that fails
    rw [hf.state] at hi
    exact Or.inr ⟨item_of_removeAll_eq_some hi, fun v' c' hw => hf.result hw.1,
      fun c' hd => hf.result hd.1⟩
  rw [hs.item] at hi
  by_cases hk : k = call.key
  · rw [if_pos hk] at hi
    cases call with
    | add k' v' c' =>
      obtain rfl : k = k' := hk
      cases hi
      exact Or.inl ⟨hs.result, Or.inl rfl⟩
    | update k' v' c' =>
      obtain rfl : k = k' := hk
      obtain ⟨j, -, rfl⟩ := Option.map_eq_some_iff.mp hi
      exact Or.inl ⟨hs.result, Or.inr rfl⟩
    | get k' c' =>
      obtain rfl : k = k' := hk
      exact Or.inr ⟨hi, by simp [Writes], by simp [Deletes]⟩
    | delete k' c' => simp [written] at hi
  · rw [if_neg hk] at hi
    refine Or.inr ⟨?_, fun v' c' hw => hk hw.key_eq.symm, fun c' hd => hk hd.key_eq.symm⟩
    split at hi
    · simp at hi
    · exact hi

/-- A successful write leaves its value, in the name of its client. -/
theorem item_of_writes (hnd : t.order.Nodup) (hw : Writes k v c (call, (t.step call).1)) :
    ∃ i, (t.step call).2.item k = some i ∧ i.owner = c ∧ i.value = v := by
  have hs := step_of_success hnd hw.1
  have hitem := hs.item k
  rw [if_pos hw.key_eq.symm] at hitem
  rcases hw.2 with he | he
  · obtain rfl : call = .add k v c := he
    exact ⟨_, hitem, rfl, rfl⟩
  · obtain rfl : call = .update k v c := he
    obtain ⟨j, hj, -⟩ := hs.permits
    rw [written, hj] at hitem
    exact ⟨_, hitem, rfl, rfl⟩

/-- A call that lacks pages asks for some. -/
theorem isWrite_of_shortage_pos (h : 0 < t.shortage call) :
    ∃ k v c, call = .add k v c ∨ call = .update k v c := by
  cases call with
  | add k v c => exact ⟨k, v, c, Or.inl rfl⟩
  | update k v c => exact ⟨k, v, c, Or.inr rfl⟩
  | get k c => simp [shortage] at h
  | delete k c => simp [shortage] at h

/-- **An item its client does not touch is kept**, or evicted by a call of
another client that lacks pages. -/
theorem kept_or_evicted (call : Call) (hnd : t.order.Nodup) (hi : t.item k = some i)
    (hw : ∀ v', ¬Writes k v' i.owner (call, (t.step call).1))
    (hd : ¬Deletes k i.owner (call, (t.step call).1)) :
    (t.step call).2.item k = some i ∨
      call.clientId ≠ i.owner ∧ 0 < t.shortage call ∧ (t.step call).2.item k = none := by
  -- an evicted key belongs to someone else than the caller
  have hevicted : k ∈ t.evicted call → call.clientId ≠ i.owner ∧ 0 < t.shortage call := by
    intro hmem
    obtain ⟨j, hj, hne⟩ := foreign_iff.mp (foreign_of_mem_victims hmem)
    obtain rfl : i = j := Option.some.inj (hi.symm.trans hj)
    exact ⟨hne.symm, shortage_pos_of_mem_evicted hmem⟩
  rcases step_outcome hnd call with hs | hf
  swap
  · rw [hf.state, removeAll_item]
    by_cases hmem : k ∈ t.evicted call
    · exact Or.inr ⟨(hevicted hmem).1, (hevicted hmem).2, if_pos hmem⟩
    · exact Or.inl (by rw [if_neg hmem, hi])
  rw [hs.item]
  by_cases hk : k = call.key
  · -- a successful call on the key, which must be a read by the owner
    have howner : ∀ c', t.OwnedBy c' k → c' = i.owner := by
      rintro c' ⟨j, hj, rfl⟩
      rw [Option.some.inj (hi.symm.trans hj)]
    have hp := hs.permits
    cases call with
    | add k' v' c' =>
      obtain rfl : k = k' := hk
      rw [hp.1] at hi
      simp at hi
    | update k' v' c' =>
      obtain rfl : k = k' := hk
      exact absurd ⟨hs.result, Or.inr (by rw [howner c' hp])⟩ (hw v')
    | get k' c' =>
      obtain rfl : k = k' := hk
      exact Or.inl ((if_pos rfl).trans hi)
    | delete k' c' =>
      obtain rfl : k = k' := hk
      exact absurd ⟨hs.result, by rw [howner c' hp]⟩ hd
  · rw [if_neg hk]
    by_cases hmem : k ∈ t.evicted call
    · exact Or.inr ⟨(hevicted hmem).1, (hevicted hmem).2, if_pos hmem⟩
    · exact Or.inl (by rw [if_neg hmem, hi])

theorem get_reply_eq_iff :
    (t.step (.get k c)).1 = ⟨.success, v⟩ ↔
      ∃ i, t.item k = some i ∧ i.owner = c ∧ i.value = v := by
  rcases hk : t.item k with _ | i
  · simp [step, get, hk]
  · by_cases hc : i.owner = c <;> simp [step, get, hk, hc]

end Store

namespace PagedCache

variable {s : PagedCache} {call : Call} {k v c : Bytes} {i : Item Bytes Bytes}

/-! ### Runs -/

/-- The call, an `add_key` or `update_key` of a client other than `c` that finds
too few free pages, evicts `k`. -/
def EvictedBy (s : PagedCache) (call : Call) (k c : Bytes) : Prop :=
  call.clientId ≠ c ∧ (∃ k' v' c', call = .add k' v' c' ∨ call = .update k' v' c') ∧
    0 < s.view.shortage call ∧ k ∈ s.cacheMap ∧ k ∉ (s.step call).2.cacheMap

/-- The history explains what is in the cache. -/
structure Explains (h : List (Call × Reply)) (s : PagedCache) : Prop where
  wf : s.Wf
  last : ∀ k i, s.view.item k = some i → LastWrite h k i.value i.owner

/-- **What a resident key is bound to was put there by its last change.** -/
theorem explains_after (calls : List Call) :
    Explains (StepMachine.history PagedCache.step fresh calls)
      (StepMachine.after PagedCache.step fresh calls) := by
  refine StepMachine.invariant_history (R := Explains) ⟨wf_fresh, fun k i hi => ?_⟩ ?_ calls
  · simp [view, fresh] at hi
  · rintro h s call ⟨hwf, hlast⟩
    have href := hwf.step call
    refine ⟨href.wf, fun k i hi => ?_⟩
    rw [href.view] at hi
    rw [href.reply]
    rcases Store.step_item hwf.lru.nodup hi with hw | ⟨hold, hw, hd⟩
    · exact hw.lastWrite
    · exact (hlast k i hold).snoc hw hd

/-- **Over a run in which its client does not touch it**, an item stays or falls
to a call of another client that lacks pages. -/
theorem Wf.kept_or_evicted (h : s.Wf) (hi : s.view.item k = some i) (calls : List Call)
    (hno : ∀ x ∈ StepMachine.history PagedCache.step s calls,
      (∀ v', ¬Writes k v' i.owner x) ∧ ¬Deletes k i.owner x) :
    (StepMachine.after PagedCache.step s calls).view.item k = some i ∨
      ∃ mid call rest, calls = mid ++ call :: rest ∧
        EvictedBy (StepMachine.after PagedCache.step s mid) call k i.owner := by
  induction calls generalizing s with
  | nil => exact Or.inl hi
  | cons call calls ih =>
    have href := h.step call
    rw [StepMachine.history_cons, List.forall_mem_cons, href.reply] at hno
    rcases Store.kept_or_evicted call h.lru.nodup hi hno.1.1 hno.1.2 with hkeep | ⟨hne, hpos, hgone⟩
    · rcases ih href.wf (href.view ▸ hkeep) hno.2 with hlast | ⟨mid, x, rest, rfl, hx⟩
      · exact Or.inl hlast
      · exact Or.inr ⟨call :: mid, x, rest, rfl, hx⟩
    · refine Or.inr ⟨[], call, calls, rfl, hne, Store.isWrite_of_shortage_pos hpos, hpos, ?_, ?_⟩
      · by_contra hk
        rw [StepMachine.after_nil, ← view_item_eq_none, hi] at hk
        simp at hk
      · rw [StepMachine.after_nil, ← view_item_eq_none, href.view, hgone]

/-- **A call leaves the other entries of its client exactly as they are**, their
chains included. -/
theorem Wf.lookup_of_owner {e : CacheEntry} (h : s.Wf) (hk : s.cacheMap.lookup k = some e)
    (hc : e.clientId = call.clientId) (hne : k ≠ call.key) :
    (s.step call).2.cacheMap.lookup k = some e := by
  have href := h.step call
  have hkept := Store.kept_or_evicted call h.lru.nodup (view_item_of_lookup hk)
    (fun v' hw => hne hw.key_eq.symm) fun hd => hne hd.key_eq.symm
  rcases hkept with hkeep | ⟨hother, -⟩
  · rcases href.frame k hne with hsame | hnone
    · rw [hsame, hk]
    · rw [← href.view, view_item, hnone] at hkeep
      simp at hkeep
  · exact absurd hc.symm hother

theorem get_reply_eq_iff (h : s.Wf) :
    (s.step (.get k c)).1 = ⟨.success, v⟩ ↔
      ∃ i, s.view.item k = some i ∧ i.owner = c ∧ i.value = v := by
  rw [(h.step _).reply, Store.get_reply_eq_iff]

theorem oneEntry_eq :
    oneEntry = (fresh.step (.add (lit "a") (lit "x") (lit "client_5"))).2 := by
  rw [oneEntry, StepMachine.after_cons, StepMachine.after_nil]

/-- The entry falls to a value of `client_6` that needs all pages. -/
theorem oneEntry_stolen {v : Bytes} (hneed : calculatePagesNeeded v = PagedCacheServer.totalPages) :
    (oneEntry.step (.add (lit "b") v (lit "client_6"))).2.view.item (lit "a") = none := by
  have hevicted : lit "a" ∈ oneEntry.view.evicted (.add (lit "b") v (lit "client_6")) := by
    rw [Store.evicted, shortage_oneEntry_of_whole hneed, view_oneEntry, Call.clientId]
    decide +kernel
  have hne : lit "a" ≠ (Call.add (lit "b") v (lit "client_6")).key := by
    rw [Call.key]
    decide
  have hstep := Store.step_of_success wf_oneEntry.lru.nodup (success_oneEntry_of_whole hneed)
  rw [(wf_oneEntry.step _).view, hstep.item, if_neg hne, if_pos hevicted]

/-- **Read your writes.** A successful read returns the last value written, by
the reader; a value that its writer neither overwrote nor deleted is read back,
unless a call of another client that lacked pages evicted it; and no call touches
another entry of its own client. -/
theorem readYourWrites :
    (∀ calls k c v,
      ((StepMachine.after PagedCache.step fresh calls).step (.get k c)).1 = ⟨.success, v⟩ →
        LastWrite (StepMachine.history PagedCache.step fresh calls) k v c) ∧
    (∀ before call later k v c,
      let s := StepMachine.after PagedCache.step fresh before
      let s' := (s.step call).2
      Writes k v c (call, (s.step call).1) →
      (∀ x ∈ StepMachine.history PagedCache.step s' later,
        (∀ v', ¬Writes k v' c x) ∧ ¬Deletes k c x) →
      ((StepMachine.after PagedCache.step fresh (before ++ call :: later)).step (.get k c)).1 =
          ⟨.success, v⟩ ∨
        ∃ mid x rest, later = mid ++ x :: rest ∧
          EvictedBy (StepMachine.after PagedCache.step s' mid) x k c) ∧
    ∀ calls call k e,
      let s := StepMachine.after PagedCache.step fresh calls
      s.cacheMap.lookup k = some e → e.clientId = call.clientId → k ≠ call.key →
        (s.step call).2.cacheMap.lookup k = some e := by
  refine ⟨fun calls k c v hget => ?_, ?_, fun calls call k e hk hc hne =>
    (wf_after calls).lookup_of_owner hk hc hne⟩
  · obtain ⟨i, hi, rfl, rfl⟩ := (get_reply_eq_iff (wf_after calls)).mp hget
    exact (explains_after calls).last k i hi
  · intro before call later k v c s s' hw hno
    have hs : s.Wf := wf_after before
    have hs' : s'.Wf := (hs.step call).wf
    -- the write leaves the value, under the name of its client
    obtain ⟨i, hi, rfl, rfl⟩ : ∃ i, s'.view.item k = some i ∧ i.owner = c ∧ i.value = v := by
      rw [(hs.step call).reply] at hw
      rw [(hs.step call).view]
      exact Store.item_of_writes hs.lru.nodup hw
    have hend : StepMachine.after PagedCache.step fresh (before ++ call :: later) =
        StepMachine.after PagedCache.step s' later := by
      rw [StepMachine.after_append, StepMachine.after_cons]
    rw [hend]
    rcases hs'.kept_or_evicted hi later hno with hkeep | hgone
    · have hwf : (StepMachine.after PagedCache.step s' later).Wf := hend ▸ wf_after _
      exact Or.inl ((get_reply_eq_iff hwf).mpr ⟨i, hkeep, rfl, rfl⟩)
    · exact Or.inr hgone

/-- A read by `client_5` is explained by its write; then the entry falls to a value of
`client_6` that needs the whole cache. -/
theorem readYourWrites_two_clients :
    let steal : Call := .add (lit "b") wholeValue (lit "client_6")
    (oneEntry.step (.get (lit "a") (lit "client_5"))).1 = ⟨.success, lit "x"⟩ ∧
      LastWrite (StepMachine.history PagedCache.step fresh
        [.add (lit "a") (lit "x") (lit "client_5")]) (lit "a") (lit "x") (lit "client_5") ∧
      ((oneEntry.step steal).2.step (.get (lit "a") (lit "client_5"))).1 ≠
        ⟨.success, lit "x"⟩ ∧
      EvictedBy oneEntry steal (lit "a") (lit "client_5") := by
  -- of the value only its pages matter, and the proof does not look at its bytes
  have hneed := calculatePagesNeeded_wholeValue
  obtain ⟨big, hbig⟩ : ∃ big, wholeValue = big := ⟨wholeValue, rfl⟩
  rw [hbig] at hneed ⊢
  intro steal
  have hget : (oneEntry.step (.get (lit "a") (lit "client_5"))).1 = ⟨.success, lit "x"⟩ := by
    decide +kernel
  have hlost : ((oneEntry.step steal).2.step (.get (lit "a") (lit "client_5"))).1 ≠
      ⟨.success, lit "x"⟩ := by
    rw [Ne, get_reply_eq_iff (wf_oneEntry.step steal).wf, oneEntry_stolen hneed]
    simp
  have hadd : Writes (lit "a") (lit "x") (lit "client_5")
      (.add (lit "a") (lit "x") (lit "client_5"), ((StepMachine.after PagedCache.step fresh []).step
        (.add (lit "a") (lit "x") (lit "client_5"))).1) :=
    ⟨by decide +kernel, .inl rfl⟩
  have hkey : steal.key ≠ lit "a" := by
    change lit "b" ≠ lit "a"
    decide
  have hwrites := readYourWrites.2.1 [] (.add (lit "a") (lit "x") (lit "client_5")) [steal]
    (lit "a") (lit "x") (lit "client_5") hadd (fun x hx => by
      rw [StepMachine.history_cons, StepMachine.history_nil, List.mem_singleton] at hx
      subst hx
      exact ⟨fun v' hw => hkey hw.key_eq, fun hd => hkey hd.key_eq⟩)
  simp only [List.nil_append, StepMachine.after_cons, StepMachine.after_nil, ← oneEntry_eq]
    at hwrites
  obtain ⟨mid, x, rest, hsplit, hevicted⟩ := hwrites.resolve_left hlost
  obtain ⟨rfl, rfl, rfl⟩ : mid = [] ∧ x = steal ∧ rest = [] := by
    rcases mid with _ | ⟨y, mid⟩
    · obtain ⟨heq, hnil⟩ := List.cons.inj hsplit
      exact ⟨rfl, heq.symm, hnil.symm⟩
    · simp at hsplit
  exact ⟨hget, readYourWrites.1 _ _ _ _ hget, hlost, hevicted⟩

end PagedCache

end PagedCacheServer
