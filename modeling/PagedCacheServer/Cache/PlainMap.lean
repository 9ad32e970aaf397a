import Mathlib.Algebra.Order.BigOperators.Group.Finset
import PagedCacheServer.Cache.Admission
import PagedCacheServer.Cache.Noninterference

/-!
# With enough pages the cache is a map

What a client would like to know of the cache is that it gives back what was put into it.
That is a map from keys to owners and values, and nothing else
(`PagedCacheServer.Table`): no pages, no order, nothing that disappears. One rule the map
takes over from the cache: an empty value cannot be added, and the answer to that is
`NO_SPACE`. Only an update can write it.

The cache is that map as long as all that is ever written would fit into it at once
(`PagedCacheServer.PagedCache.Fits`, `PagedCacheServer.PagedCache.plain_map`). An item has no
more pages than the largest value written under its key needs, since an update keeps the
pages only of an item that has enough of them. So a call that needs pages finds them free,
whatever the other keys hold, and evicts nothing.
-/

namespace PagedCacheServer

open PagedCache (Call Reply)

/-- A map from keys to owners and values. -/
abbrev Table : Type := Bytes → Option (Bytes × Bytes)

/-- A call on a map. As in the cache, there is no space for an empty value under a new
key. -/
def Table.step (m : Table) : Call → Reply × Table
  | .add key value clientId =>
    if (m key).isSome then (⟨.keyExists, []⟩, m)
    else if value = [] then (⟨.noSpace, []⟩, m)
    else (⟨.success, []⟩, Function.update m key (some (clientId, value)))
  | .update key value clientId =>
    match m key with
    | none => (⟨.keyNotFound, []⟩, m)
    | some (owner, _) =>
      if owner ≠ clientId then (⟨.clientMismatch, []⟩, m)
      else (⟨.success, []⟩, Function.update m key (some (clientId, value)))
  | .get key clientId =>
    match m key with
    | none => (⟨.keyNotFound, []⟩, m)
    | some (owner, value) =>
      if owner ≠ clientId then (⟨.clientMismatch, []⟩, m) else (⟨.success, value⟩, m)
  | .delete key clientId =>
    match m key with
    | none => (⟨.keyNotFound, []⟩, m)
    | some (owner, _) =>
      if owner ≠ clientId then (⟨.clientMismatch, []⟩, m)
      else (⟨.success, []⟩, Function.update m key none)

namespace Store

variable {t : Store Bytes Bytes Bytes} {call : Call}

/-- What the clients can get back. -/
def table (t : Store Bytes Bytes Bytes) : Table :=
  fun k => (t.item k).map fun i => (i.owner, i.value)

theorem table_of_none {k : Bytes} (hk : t.item k = none) : t.table k = none := by
  rw [table, hk]
  rfl

theorem table_of_some {k : Bytes} {i : Item Bytes Bytes} (hk : t.item k = some i) :
    t.table k = some (i.owner, i.value) := by
  rw [table, hk]
  rfl

theorem table_of_bind {t' : Store Bytes Bytes Bytes} {k : Bytes} (i : Item Bytes Bytes)
    (h : t'.item = Function.update t.item k (some i)) :
    t'.table = Function.update t.table k (some (i.owner, i.value)) := by
  funext k'
  rw [table, h]
  rcases eq_or_ne k' k with rfl | hne
  · rw [Function.update_self, Function.update_self]
    rfl
  · rw [Function.update_of_ne hne, Function.update_of_ne hne]
    rfl

theorem table_remove (t : Store Bytes Bytes Bytes) (k : Bytes) :
    (t.remove k).table = Function.update t.table k none := by
  funext k'
  rw [table, remove_item]
  rcases eq_or_ne k' k with rfl | hne
  · rw [if_pos rfl, Function.update_self]
    rfl
  · rw [if_neg hne, Function.update_of_ne hne]
    rfl

/-- **A call that lacks no page is a call on the map.** -/
theorem step_table (hs : t.shortage call = 0) :
    (t.step call).1 = (t.table.step call).1 ∧ (t.step call).2.table = (t.table.step call).2 := by
  cases call with
  | add k v c =>
    rcases hk : t.item k with _ | i
    · simp only [shortage, hk, Option.isSome_none, Bool.false_eq_true, if_false] at hs
      have hle := Nat.le_of_sub_eq_zero hs
      have hadd : t.add calculatePagesNeeded k v c =
          if calculatePagesNeeded v = 0 then (.noSpace, t)
          else (.success, ({ t with free := t.free - calculatePagesNeeded v }.bind k
            ⟨c, v, calculatePagesNeeded v⟩).touch k) := by
        rw [add, hk, if_neg (by simp), makeRoom_of_le hle, if_pos hle]
      have htable : t.table.step (.add k v c) = if v = [] then (⟨.noSpace, []⟩, t.table)
          else (⟨.success, []⟩, Function.update t.table k (some (c, v))) := by
        rw [Table.step, table_of_none hk, if_neg (by simp)]
      rw [Store.step, htable, hadd]
      rcases eq_or_ne v [] with rfl | hv
      · exact ⟨rfl, rfl⟩
      · have hpos := PagedCache.calculatePagesNeeded_pos hv
        rw [if_neg hpos.ne', if_neg hv]
        exact ⟨rfl, table_of_bind ⟨c, v, _⟩ rfl⟩
    · simp only [Store.step, Table.step, add, hk, table_of_some hk, Option.isSome_some, if_true,
        and_self]
  | update k v c =>
    rcases hk : t.item k with _ | i
    · simp only [Store.step, Table.step, update, hk, table_of_none hk, and_self]
    · simp only [Store.step, Table.step, update, hk, table_of_some hk]
      by_cases hc : i.owner = c
      swap
      · simp [hc]
      by_cases hle : calculatePagesNeeded v ≤ i.pages
      · simp only [hc, hle, ne_eq, not_true_eq_false, if_false, if_true]
        exact ⟨trivial, table_of_bind ⟨c, v, _⟩ rfl⟩
      · have hgrow : i.owner = c ∧ i.pages < calculatePagesNeeded v := ⟨hc, by omega⟩
        simp only [shortage, hk, if_pos hgrow] at hs
        have hfit := Nat.le_of_sub_eq_zero hs
        have hroom := makeRoom_of_le (s := { t with free := t.free + i.pages }) (c := c) hfit
        simp only [hc, hle, ne_eq, not_true_eq_false, if_false, hroom, hfit, if_true]
        exact ⟨trivial, table_of_bind ⟨c, v, _⟩ rfl⟩
  | get k c =>
    rcases hk : t.item k with _ | i
    · simp only [Store.step, Table.step, get, hk, table_of_none hk, Option.getD_none, and_self]
    · simp only [Store.step, Table.step, get, hk, table_of_some hk]
      by_cases hc : i.owner = c
      · simp only [hc, ne_eq, not_true_eq_false, if_false]
        exact ⟨rfl, rfl⟩
      · simp [hc]
  | delete k c =>
    rcases hk : t.item k with _ | i
    · simp only [Store.step, Table.step, delete, hk, table_of_none hk, and_self]
    · simp only [Store.step, Table.step, delete, hk, table_of_some hk]
      by_cases hc : i.owner = c
      · simp only [hc, ne_eq, not_true_eq_false, if_false]
        exact ⟨trivial, table_remove t k⟩
      · simp [hc]

end Store

namespace PagedCache

/-! ### All that is ever written -/

/-- The pages the value of a call needs. -/
def Call.demand : Call → ℕ
  | .add _ value _ | .update _ value _ => calculatePagesNeeded value
  | .get _ _ | .delete _ _ => 0

/-- The most pages a value needs that some calls write under a key. -/
def demandOf (calls : List Call) (k : Bytes) : ℕ :=
  calls.foldr (fun call most => if call.key = k then max call.demand most else most) 0

/-- **All that some calls ever write would fit into the memory at once.** -/
def Fits (calls : List Call) : Prop :=
  ∑ k ∈ (calls.map Call.key).toFinset, demandOf calls k ≤ PagedCacheServer.totalPages

variable {s : PagedCache} {call : Call} {calls : List Call}

theorem demand_le (h : call ∈ calls) : call.demand ≤ demandOf calls call.key := by
  induction calls with
  | nil => exact absurd h List.not_mem_nil
  | cons x calls ih =>
    rw [demandOf, List.foldr_cons, ← demandOf]
    rcases List.mem_cons.mp h with rfl | hmem
    · rw [if_pos rfl]
      exact le_max_left _ _
    · split_ifs
      · exact (ih hmem).trans (le_max_right _ _)
      · exact ih hmem

/-- A cache whose items are no larger than some calls need. -/
structure Modest (calls : List Call) (s : PagedCache) : Prop where
  wf : s.Wf
  named : ∀ k ∈ s.view.order, k ∈ calls.map Call.key
  pages : ∀ k, s.view.pagesOf k ≤ demandOf calls k

/-- **What a key may need is free, but for the pages it has.** -/
theorem Modest.room (h : Modest calls s) (hfits : Fits calls) {k : Bytes}
    (hk : k ∈ calls.map Call.key) : demandOf calls k ≤ s.view.free + s.view.pagesOf k := by
  let keys := (calls.map Call.key).toFinset
  have hkeys : k ∈ keys := List.mem_toFinset.mpr hk
  have htotal := h.wf.free_add_weight
  -- the pages of all items, counted over all keys that are ever named
  have hweight : Recency.weight s.view.pagesOf s.view.order = ∑ k' ∈ keys, s.view.pagesOf k' := by
    have hsum : ∑ k' ∈ s.view.order.toFinset, s.view.pagesOf k' =
        Recency.weight s.view.pagesOf s.view.order :=
      List.sum_toFinset _ h.wf.inv.nodup
    rw [← hsum]
    refine Finset.sum_subset (fun k' hk' => ?_) fun k' _ hk' => ?_
    · exact List.mem_toFinset.mpr (h.named k' (List.mem_toFinset.mp hk'))
    · have hnone : s.view.item k' = none := by
        rw [← Option.not_isSome_iff_eq_none, ← h.wf.inv.mem_order]
        exact fun hmem => hk' (List.mem_toFinset.mpr hmem)
      rw [Store.pagesOf, hnone]
      rfl
  have hothers : ∑ k' ∈ keys.erase k, s.view.pagesOf k' ≤ ∑ k' ∈ keys.erase k, demandOf calls k' :=
    Finset.sum_le_sum fun k' _ => h.pages k'
  have hsplit := Finset.add_sum_erase keys s.view.pagesOf hkeys
  have hsplit' := Finset.add_sum_erase keys (demandOf calls) hkeys
  have hle : ∑ k' ∈ keys, demandOf calls k' ≤ PagedCacheServer.totalPages := hfits
  omega

theorem Modest.shortage_eq_zero (h : Modest calls s) (hfits : Fits calls) (hcall : call ∈ calls) :
    s.view.shortage call = 0 := by
  have hroom := h.room hfits (List.mem_map_of_mem hcall)
  have hdemand := demand_le hcall
  cases call with
  | add k v c =>
    have hle : calculatePagesNeeded v ≤ s.view.free + s.view.pagesOf k := hdemand.trans hroom
    rw [Store.shortage]
    split_ifs with hk
    · rfl
    · rw [Store.pagesOf, Option.not_isSome_iff_eq_none.mp hk] at hle
      exact Nat.sub_eq_zero_of_le hle
  | update k v c =>
    have hle : calculatePagesNeeded v ≤ s.view.free + s.view.pagesOf k := hdemand.trans hroom
    rw [Store.shortage]
    rcases hk : s.view.item k with _ | i
    · rfl
    · rw [Store.pagesOf, hk] at hle
      dsimp only
      split_ifs
      · exact Nat.sub_eq_zero_of_le hle
      · rfl
  | get k c => rfl
  | delete k c => rfl

/-- What a call writes is no larger than the value it writes, or than what was there. -/
theorem Modest.written_le (h : Modest calls s) (hcall : call ∈ calls) :
    ((s.view.written call).elim 0 Item.pages) ≤ demandOf calls call.key := by
  have hdemand := demand_le hcall
  have hpages := h.pages call.key
  rw [Store.pagesOf] at hpages
  cases call with
  | add k v c =>
    rw [Store.written, Option.elim_some]
    exact hdemand
  | update k v c =>
    rcases hk : s.view.item k with _ | i
    · simp [Store.written, hk]
    · have hle : i.pages ≤ demandOf calls k := by simpa [Call.key, hk] using hpages
      simp only [Store.written, hk, Option.map_some, Option.elim_some]
      exact max_le hle hdemand
  | get k c => exact hpages
  | delete k c => exact Nat.zero_le _

/-- **Each of the calls is one on the map.** -/
theorem Modest.step (h : Modest calls s) (hfits : Fits calls) (hcall : call ∈ calls) :
    (s.step call).1 = (s.view.table.step call).1 ∧
      (s.step call).2.view.table = (s.view.table.step call).2 ∧ Modest calls (s.step call).2 := by
  classical
  have hs := h.shortage_eq_zero hfits hcall
  have hstep := h.wf.step call
  have hitem : ∀ k, (s.step call).2.view.item k =
      if k = call.key ∧ s.view.Permits call then s.view.written call else s.view.item k := by
    rw [hstep.view]
    exact Store.step_item_of_shortage_eq_zero h.wf.inv.nodup hs
  obtain ⟨hreply, htable⟩ := Store.step_table hs
  refine ⟨hstep.reply.trans hreply, (congrArg Store.table hstep.view).trans htable,
    hstep.wf, fun k hk => ?_, fun k => ?_⟩
  · rw [hstep.wf.inv.mem_order, hitem] at hk
    rcases eq_or_ne k call.key with rfl | hne
    · exact List.mem_map_of_mem hcall
    · rw [if_neg fun hand => hne hand.1, ← h.wf.inv.mem_order] at hk
      exact h.named k hk
  · rw [Store.pagesOf, hitem]
    split_ifs with hand
    · rw [hand.1]
      exact h.written_le hcall
    · exact h.pages k

theorem Modest.run (h : Modest calls s) (hfits : Fits calls) {later : List Call}
    (hsub : ∀ call ∈ later, call ∈ calls) :
    StepMachine.history PagedCache.step s later =
        StepMachine.history Table.step s.view.table later ∧
      (StepMachine.after PagedCache.step s later).view.table =
        StepMachine.after Table.step s.view.table later := by
  induction later generalizing s with
  | nil => exact ⟨rfl, rfl⟩
  | cons call later ih =>
    rw [List.forall_mem_cons] at hsub
    obtain ⟨hreply, htable, hmodest⟩ := h.step hfits hsub.1
    obtain ⟨hhistory, hafter⟩ := ih hmodest hsub.2
    rw [htable] at hhistory hafter
    exact ⟨by rw [StepMachine.history_cons, StepMachine.history_cons, hreply, hhistory], hafter⟩

theorem modest_fresh (calls : List Call) : Modest calls fresh where
  wf := wf_fresh
  named k hk := by simp [fresh_view] at hk
  pages k := by
    rw [fresh_view]
    exact Nat.zero_le _

/-- **With enough pages the cache is a map.** On calls whose values would fit into the memory
together, each key with the largest one written under it, the cache gives the answers of
a map that forgets nothing and refuses to add an empty value, and holds what the map
holds. -/
theorem plain_map (calls : List Call) (hfits : Fits calls) :
    StepMachine.history PagedCache.step fresh calls =
        StepMachine.history Table.step (fun _ => none) calls ∧
      ∀ k, ((StepMachine.after PagedCache.step fresh calls).cacheMap.lookup k).map
          (fun e => (e.clientId, e.value)) =
        StepMachine.after Table.step (fun _ => none) calls k := by
  have hempty : fresh.view.table = fun _ => none := by
    rw [fresh_view]
    rfl
  obtain ⟨hhistory, hafter⟩ := (modest_fresh calls).run hfits fun _ => id
  rw [hempty] at hhistory hafter
  refine ⟨hhistory, fun k => ?_⟩
  rw [← hafter, Store.table, view_item, Option.map_map]
  rfl

/-- Two values under one key, and a look at it by its owner and by someone else. -/
theorem plain_map_two_values :
    let calls : List Call := [.add (lit "k") (lit "a") (lit "client_5"),
      .update (lit "k") (lit "bc") (lit "client_5"), .get (lit "k") (lit "client_6"),
      .get (lit "k") (lit "client_5")]
    Fits calls ∧ (StepMachine.history PagedCache.step fresh calls).map Prod.snd =
      [⟨.success, []⟩, ⟨.success, []⟩, ⟨.clientMismatch, []⟩, ⟨.success, lit "bc"⟩] := by
  intro calls
  have hfits : Fits calls := by
    have hkeys : (calls.map Call.key).toFinset = {lit "k"} := by decide
    have hdemand : demandOf calls (lit "k") = 1 := by decide
    rw [Fits, hkeys, Finset.sum_singleton, hdemand]
    decide
  refine ⟨hfits, ?_⟩
  rw [(plain_map calls hfits).1]
  decide

end PagedCache

end PagedCacheServer
