import PagedCacheServer.Cache.Store
import PagedCacheServer.Library.StepMachine

/-!
# What a call can do

The abstract cache as a machine over the calls of `PagedCache`, and the only
place where its four operations are taken apart. A call is *permitted* when its
key is there for its client to use – or, for an `add`, free to take –, and it may
lack pages: `PagedCacheServer.Store.shortage` counts them, the pages of the entry
being updated counting as free.

Whatever its outcome, a call evicts `PagedCacheServer.Store.evicted`. It then
succeeds exactly when it is permitted and the entries of the other clients cover
the shortage (`PagedCacheServer.Store.step_result_eq_success_iff`). A call that
fails does nothing more (`PagedCacheServer.Store.step_of_failure`); one that
succeeds writes under its own key and moves it in the order
(`PagedCacheServer.Store.step_of_success`). What is proved of whole runs of the
cache uses these three statements alone.
-/

namespace PagedCacheServer

namespace Store

open PagedCache (Call Reply)

/-- The abstract cache on one call. -/
def step (t : Store Bytes Bytes Bytes) : Call → Reply × Store Bytes Bytes Bytes
  | .add key value clientId =>
    let r := t.add calculatePagesNeeded key value clientId
    (⟨r.1, []⟩, r.2)
  | .update key value clientId =>
    let r := t.update calculatePagesNeeded key value clientId
    (⟨r.1, []⟩, r.2)
  | .get key clientId =>
    let r := t.get key clientId
    (⟨r.1.1, r.1.2.getD []⟩, r.2)
  | .delete key clientId =>
    let r := t.delete key clientId
    (⟨r.1, []⟩, r.2)

/-- The key is bound to an item of the client. -/
def OwnedBy (t : Store Bytes Bytes Bytes) (c k : Bytes) : Prop :=
  ∃ i, t.item k = some i ∧ i.owner = c

/-- The call may use its key: an `add` of something takes an unbound one, the
other calls want one their client owns. -/
def Permits (t : Store Bytes Bytes Bytes) : Call → Prop
  | .add key value _ => t.item key = none ∧ 0 < calculatePagesNeeded value
  | .update key _ clientId | .get key clientId | .delete key clientId => t.OwnedBy clientId key

/-- The number of free pages the call lacks. An `update` that does not fit gives
its own pages back first. -/
def shortage (t : Store Bytes Bytes Bytes) : Call → ℕ
  | .add key value _ => if (t.item key).isSome then 0 else calculatePagesNeeded value - t.free
  | .update key value clientId =>
    match t.item key with
    | none => 0
    | some i =>
      if i.owner = clientId ∧ i.pages < calculatePagesNeeded value then
        calculatePagesNeeded value - (t.free + i.pages)
      else 0
  | .get _ _ | .delete _ _ => 0

/-- The pages held by the clients other than `c`. -/
def othersPages (t : Store Bytes Bytes Bytes) (c : Bytes) : ℕ :=
  Recency.weight t.pagesOf (t.candidates c)

/-- The keys the call evicts. -/
def evicted (t : Store Bytes Bytes Bytes) (call : Call) : List Bytes :=
  t.victims call.clientId (t.shortage call)

/-- What the call, if it succeeds, leaves under its key. -/
def written (t : Store Bytes Bytes Bytes) : Call → Option (Item Bytes Bytes)
  | .add _ value clientId => some ⟨clientId, value, calculatePagesNeeded value⟩
  | .update key value clientId =>
    (t.item key).map fun i => ⟨clientId, value, max i.pages (calculatePagesNeeded value)⟩
  | .get key _ => t.item key
  | .delete _ _ => none

/-- The order after a successful call. -/
def reorder (order : List Bytes) : Call → List Bytes
  | .delete key _ => order.erase key
  | .add key _ _ | .update key _ _ | .get key _ => key :: order.erase key

/-- The two ways of comparing keys erase the same one. -/
theorem erase_eq (l : List Bytes) (k : Bytes) :
    @List.erase Bytes instBEqOfDecidableEq l k = l.erase k := by
  rw [lawful_beq_subsingleton instBEqOfDecidableEq (inferInstanceAs (BEq Bytes))]

variable {t : Store Bytes Bytes Bytes} {call : Call}

/-! ### Making room with pages on loan -/

/-- Removing keys does not depend on how many pages are free. -/
theorem removeAll_addFree (p : ℕ) (ks : List Bytes) :
    ({ t with free := t.free + p } : Store Bytes Bytes Bytes).removeAll ks =
      { t.removeAll ks with free := (t.removeAll ks).free + p } := by
  induction ks generalizing t with
  | nil => rfl
  | cons k ks ih =>
    rw [removeAll_cons, removeAll_cons, ← ih]
    refine congrArg (fun u : Store Bytes Bytes Bytes => u.removeAll ks) (Store.ext rfl rfl ?_)
    change t.free + p + t.pagesOf k = t.free + t.pagesOf k + p
    omega

theorem makeRoom_addFree (p n : ℕ) (c : Bytes) :
    ({ t with free := t.free + p } : Store Bytes Bytes Bytes).makeRoom c n =
      { t.removeAll (t.victims c (n - (t.free + p))) with
        free := (t.removeAll (t.victims c (n - (t.free + p)))).free + p } :=
  removeAll_addFree p _

theorem evicted_of_shortage_eq_zero (h : t.shortage call = 0) : t.evicted call = [] := by
  rw [evicted, h, victims_zero]

/-- Only a call that may use its key ever lacks pages. -/
theorem permits_of_shortage_pos (h : 0 < t.shortage call) : t.Permits call := by
  cases call with
  | add k v c =>
    rcases hk : t.item k with _ | i
    · refine ⟨hk, ?_⟩
      simp only [shortage, hk, Option.isSome_none, Bool.false_eq_true, if_false] at h
      omega
    · simp [shortage, hk] at h
  | update k v c =>
    rcases hk : t.item k with _ | i
    · simp [shortage, hk] at h
    · by_cases hc : i.owner = c
      · exact ⟨i, hk, hc⟩
      · simp [shortage, hk, hc] at h
  | get k c => simp [shortage] at h
  | delete k c => simp [shortage] at h

theorem shortage_eq_zero (hp : ¬t.Permits call) : t.shortage call = 0 :=
  Nat.eq_zero_of_not_pos (mt permits_of_shortage_pos hp)

/-- Only a call that lacks pages evicts. -/
theorem shortage_pos_of_mem_evicted {k : Bytes} (hk : k ∈ t.evicted call) :
    0 < t.shortage call := by
  refine Nat.pos_of_ne_zero fun hzero => ?_
  rw [evicted_of_shortage_eq_zero hzero] at hk
  exact absurd hk List.not_mem_nil

/-- With the pages evicted for `c` the free pages cover `n` exactly when those of
the other clients cover what is missing. -/
theorem le_free_removeAll_iff (hnd : t.order.Nodup) {n : ℕ} {c : Bytes} :
    n ≤ (t.removeAll (t.victims c (n - t.free))).free ↔ n - t.free ≤ t.othersPages c := by
  have hiff := le_makeRoom_free_iff (s := t) (c := c) (n := n) hnd
  rw [makeRoom] at hiff
  rw [hiff, othersPages]
  omega

/-! ### The outcome of a call -/

/-- The effect of a successful call on what the clients see. -/
structure Succeeds (t : Store Bytes Bytes Bytes) (call : Call)
    (r : Reply × Store Bytes Bytes Bytes) : Prop where
  result : r.1.result = .success
  permits : t.Permits call
  room : t.shortage call ≤ t.othersPages call.clientId
  item : ∀ k, r.2.item k =
    if k = call.key then t.written call
    else if k ∈ t.evicted call then none else t.item k
  order : r.2.order = reorder (t.order.filter (· ∉ t.evicted call)) call

/-- The effect of a call that fails: the evictions, which were for nothing. -/
structure Fails (t : Store Bytes Bytes Bytes) (call : Call)
    (r : Reply × Store Bytes Bytes Bytes) : Prop where
  result : r.1.result ≠ .success
  refused : t.Permits call → t.othersPages call.clientId < t.shortage call
  state : r.2 = t.removeAll (t.evicted call)

/-- A call that is not permitted is refused, without any effect. -/
theorem step_of_not_permits (hp : ¬t.Permits call) :
    (t.step call).1.result ≠ .success ∧ (t.step call).2 = t := by
  -- the key is missing, or is someone else's
  have hother : ∀ {k c i}, ¬t.OwnedBy c k → t.item k = some i → i.owner ≠ c :=
    fun hnot hk hc => hnot ⟨_, hk, hc⟩
  cases call with
  | add k v c =>
    rcases hk : t.item k with _ | i
    · have hzero : calculatePagesNeeded v = 0 := by simpa [Permits, hk] using hp
      simp [step, add, hk, hzero]
    · simp [step, add, hk]
  | update k v c =>
    rcases hk : t.item k with _ | i
    · simp [step, update, hk]
    · simp [step, update, hk, hother hp hk]
  | get k c =>
    rcases hk : t.item k with _ | i
    · simp [step, get, hk]
    · simp [step, get, hk, hother hp hk]
  | delete k c =>
    rcases hk : t.item k with _ | i
    · simp [step, delete, hk]
    · simp [step, delete, hk, hother hp hk]

theorem fails_of_not_permits (hp : ¬t.Permits call) : Fails t call (t.step call) := by
  obtain ⟨hresult, hstate⟩ := step_of_not_permits hp
  refine ⟨hresult, fun h => absurd h hp, ?_⟩
  rw [hstate, evicted_of_shortage_eq_zero (shortage_eq_zero hp), removeAll_nil]

/-- A call that evicts, finds its pages and stores an item under its key. -/
theorem Succeeds.of_store {i : Item Bytes Bytes} {f : ℕ} (hnd : t.order.Nodup)
    (hp : t.Permits call) (hroom : t.shortage call ≤ t.othersPages call.clientId)
    (hw : t.written call = some i)
    (ho : reorder (t.order.filter (· ∉ t.evicted call)) call =
      call.key :: (t.order.filter (· ∉ t.evicted call)).erase call.key) :
    Succeeds t call (⟨.success, []⟩,
      (({ t.removeAll (t.evicted call) with free := f } : Store Bytes Bytes Bytes).bind
        call.key i).touch call.key) := by
  refine ⟨rfl, hp, hroom, fun k => ?_, ?_⟩
  · change Function.update (t.removeAll (t.evicted call)).item call.key (some i) k = _
    rw [Function.update_apply, removeAll_item, hw]
    by_cases hk : k ∈ t.evicted call <;> simp [hk]
  · have horder : (t.removeAll (t.evicted call)).order =
        t.order.filter (· ∉ t.evicted call) := by
      rw [removeAll_order hnd]
      exact List.filter_congr fun a _ => by simp
    rw [ho, ← horder, ← erase_eq]
    rfl

theorem add_outcome (hnd : t.order.Nodup) {k v c : Bytes} (hp : t.Permits (.add k v c)) :
    Succeeds t (.add k v c) (t.step (.add k v c)) ∨ Fails t (.add k v c) (t.step (.add k v c)) := by
  obtain ⟨hk, hpos⟩ := hp
  have hs : t.shortage (.add k v c) = calculatePagesNeeded v - t.free := by simp [shortage, hk]
  have hroom : t.makeRoom c (calculatePagesNeeded v) = t.removeAll (t.evicted (.add k v c)) := by
    rw [makeRoom, evicted, hs]
    rfl
  have hiff := le_free_removeAll_iff (n := calculatePagesNeeded v) (c := c) hnd
  simp only [step, add, hk, Option.isSome_none, Bool.false_eq_true, if_false, hpos.ne']
  by_cases hfits : calculatePagesNeeded v ≤ (t.makeRoom c (calculatePagesNeeded v)).free
  · refine Or.inl ?_
    simp only [if_pos hfits]
    rw [hroom]
    exact Succeeds.of_store hnd ⟨hk, hpos⟩ (hs ▸ hiff.mp hfits) rfl rfl
  · refine Or.inr ?_
    simp only [if_neg hfits]
    refine ⟨by simp, fun _ => ?_, hroom⟩
    have hlt := mt hiff.mpr hfits
    rw [hs]
    exact Nat.lt_of_not_le hlt

theorem update_outcome (hnd : t.order.Nodup) {k v c : Bytes} (hp : t.Permits (.update k v c)) :
    Succeeds t (.update k v c) (t.step (.update k v c)) ∨
      Fails t (.update k v c) (t.step (.update k v c)) := by
  obtain ⟨i, hk, hc⟩ := hp
  have hpermits : t.Permits (.update k v c) := ⟨i, hk, hc⟩
  simp only [step, update, hk, ne_eq, hc, not_true_eq_false, if_false]
  by_cases hle : calculatePagesNeeded v ≤ i.pages
  · -- the value fits the pages of the item
    have hs : t.shortage (.update k v c) = 0 := by
      simp [shortage, hk, hc, Nat.not_lt.mpr hle]
    have hw : t.written (.update k v c) = some { i with value := v } := by
      simp [written, hk, ← hc, Nat.max_eq_left hle]
    refine Or.inl ?_
    have hsucc := Succeeds.of_store (f := t.free) hnd hpermits (by omega) hw rfl
    rw [evicted_of_shortage_eq_zero hs, removeAll_nil] at hsucc
    simp only [if_pos hle, ← hc]
    exact hc ▸ hsucc
  have hs : t.shortage (.update k v c) = calculatePagesNeeded v - (t.free + i.pages) := by
    simp [shortage, hk, hc, Nat.lt_of_not_le hle]
  have hw : t.written (.update k v c) = some ⟨c, v, calculatePagesNeeded v⟩ := by
    simp [written, hk, Nat.max_eq_right (Nat.le_of_not_le hle)]
  have hevicted : t.victims c (calculatePagesNeeded v - (t.free + i.pages)) =
      t.evicted (.update k v c) := by
    rw [evicted, hs]
    rfl
  -- the pages of the item are on loan while room is made
  have hiff : calculatePagesNeeded v ≤ (t.removeAll (t.evicted (.update k v c))).free + i.pages ↔
      calculatePagesNeeded v - (t.free + i.pages) ≤ t.othersPages c := by
    have := le_free_removeAll_iff (t := { t with free := t.free + i.pages })
      (n := calculatePagesNeeded v) (c := c) hnd
    rw [removeAll_addFree] at this
    rw [← hevicted]
    exact this
  simp only [if_neg hle, makeRoom_addFree, hevicted]
  by_cases hfits : calculatePagesNeeded v ≤
      (t.removeAll (t.evicted (.update k v c))).free + i.pages
  · refine Or.inl ?_
    simp only [if_pos hfits]
    exact Succeeds.of_store hnd hpermits (hs ▸ hiff.mp hfits) hw rfl
  · refine Or.inr ?_
    simp only [if_neg hfits]
    refine ⟨by simp, fun _ => ?_, ?_⟩
    · have hlt := mt hiff.mpr hfits
      rw [hs]
      exact Nat.lt_of_not_le hlt
    · exact Store.ext rfl rfl (Nat.add_sub_cancel _ _)

theorem get_outcome {k c : Bytes} (hp : t.Permits (.get k c)) :
    Succeeds t (.get k c) (t.step (.get k c)) := by
  obtain ⟨i, hk, hc⟩ := hp
  have hnone : t.evicted (.get k c) = [] := evicted_of_shortage_eq_zero rfl
  simp only [step, get, hk, ne_eq, hc, not_true_eq_false, if_false]
  refine ⟨rfl, ⟨i, hk, hc⟩, Nat.zero_le _, fun k' => ?_, ?_⟩
  · rcases eq_or_ne k' k with rfl | hne
    · simp [Call.key, written, touch]
    · simp [Call.key, hne, hnone, touch]
  · simp [hnone, touch, reorder, erase_eq]

theorem delete_outcome {k c : Bytes} (hp : t.Permits (.delete k c)) :
    Succeeds t (.delete k c) (t.step (.delete k c)) := by
  obtain ⟨i, hk, hc⟩ := hp
  have hnone : t.evicted (.delete k c) = [] := evicted_of_shortage_eq_zero rfl
  simp only [step, delete, hk, ne_eq, hc, not_true_eq_false, if_false]
  refine ⟨rfl, ⟨i, hk, hc⟩, Nat.zero_le _, fun k' => ?_, ?_⟩
  · rcases eq_or_ne k' k with rfl | hne
    · simp [Call.key, written]
    · simp [Call.key, hne, hnone]
  · simp [hnone, remove, reorder, erase_eq]

/-- **Every call succeeds or fails, and there is nothing else it can do.** -/
theorem step_outcome (hnd : t.order.Nodup) (call : Call) :
    Succeeds t call (t.step call) ∨ Fails t call (t.step call) := by
  by_cases hp : t.Permits call
  swap
  · exact Or.inr (fails_of_not_permits hp)
  cases call with
  | add k v c => exact add_outcome hnd hp
  | update k v c => exact update_outcome hnd hp
  | get k c => exact Or.inl (get_outcome hp)
  | delete k c => exact Or.inl (delete_outcome hp)

theorem step_of_success (hnd : t.order.Nodup) (h : (t.step call).1.result = .success) :
    Succeeds t call (t.step call) :=
  (step_outcome hnd call).resolve_right fun hf => hf.result h

theorem step_of_failure (hnd : t.order.Nodup) (h : (t.step call).1.result ≠ .success) :
    Fails t call (t.step call) :=
  (step_outcome hnd call).resolve_left fun hs => h hs.result

/-- **A call succeeds exactly when it is permitted and the other clients have the
pages it lacks.** -/
theorem step_result_eq_success_iff (hnd : t.order.Nodup) :
    (t.step call).1.result = .success ↔
      t.Permits call ∧ t.shortage call ≤ t.othersPages call.clientId := by
  constructor
  · intro h
    have hs := step_of_success hnd h
    exact ⟨hs.permits, hs.room⟩
  · rintro ⟨hp, hroom⟩
    by_contra h
    exact absurd hroom (Nat.not_le.mpr ((step_of_failure hnd h).refused hp))

end Store

end PagedCacheServer
