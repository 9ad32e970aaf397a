import Mathlib.Data.List.Nodup
import Mathlib.Logic.Function.Basic
import PagedCacheServer.Cache.Defs
import PagedCacheServer.Library.Recency

/-!
# What the cache is for

The paged cache, without its pages: a map from keys to items – an owner, a value
and a number of pages –, the keys in order of recency, and a number of free
pages. This is the specification the code is compared with in
`PagedCacheServer.Cache.Refine`; nothing here knows which page is whose, or that
memory can be fragmented.

An operation that needs `n` pages first *makes room*
(`PagedCacheServer.Store.makeRoom`): among the items of other owners, the least
recently used first, it removes the shortest prefix whose pages cover the
deficit – all of them, if they do not suffice. The operation succeeds when `n`
pages are then free. That items removed for nothing are gone all the same is part
of this specification, as it is of the code.

Keys, owners and values are arbitrary; `need` says how many pages a value takes.
-/

namespace PagedCacheServer

/-- What a key is bound to. -/
@[ext] structure Item (C V : Type*) where
  owner : C
  value : V
  pages : ℕ
deriving DecidableEq

/-- The abstract cache. -/
@[ext] structure Store (K C V : Type*) where
  item : K → Option (Item C V)
  /-- The keys, most recently used first. -/
  order : List K
  free : ℕ

namespace Store

variable {K C V : Type*} [DecidableEq K]

/-! ### Operations -/

section Defs

variable [DecidableEq C] (need : V → ℕ) (s : Store K C V)

/-- The number of pages bound to a key. -/
def pagesOf (k : K) : ℕ := (s.item k).elim 0 Item.pages

/-- The key is bound to an item of another owner. -/
def foreign (c : C) (k : K) : Bool := (s.item k).any fun i => i.owner ≠ c

/-- What may be evicted for `c`, least recently used first. -/
def candidates (c : C) : List K := s.order.reverse.filter (s.foreign c)

/-- What is evicted for `c` to gain `d` pages. -/
def victims (c : C) (d : ℕ) : List K := Recency.shortest s.pagesOf d (s.candidates c)

/-- Unbind a key and free its pages. -/
def remove (k : K) : Store K C V where
  item := Function.update s.item k none
  order := s.order.erase k
  free := s.free + s.pagesOf k

/-- Unbind several keys. -/
def removeAll (ks : List K) : Store K C V := ks.foldl remove s

/-- Evict for `c` until `n` pages are free, or nothing can be evicted any more. -/
def makeRoom (c : C) (n : ℕ) : Store K C V := s.removeAll (s.victims c (n - s.free))

/-- Bring a key to the front. -/
def touch (k : K) : Store K C V := { s with order := k :: s.order.erase k }

/-- Bind a key. -/
def bind (k : K) (i : Item C V) : Store K C V :=
  { s with item := Function.update s.item k (some i) }

/-- Bind a new key, if there is room for it. A value that takes no page is
refused. -/
def add (k : K) (v : V) (c : C) : OperationResult × Store K C V :=
  if (s.item k).isSome then (.keyExists, s)
  else if need v = 0 then (.noSpace, s)
  else
    let s' := s.makeRoom c (need v)
    if need v ≤ s'.free then
      (.success, ({ s' with free := s'.free - need v }.bind k ⟨c, v, need v⟩).touch k)
    else (.noSpace, s')

/-- Change the value under a key. An item keeps its pages when they suffice;
otherwise they count as free while room is made. -/
def update (k : K) (v : V) (c : C) : OperationResult × Store K C V :=
  match s.item k with
  | none => (.keyNotFound, s)
  | some i =>
    if i.owner ≠ c then (.clientMismatch, s)
    else if need v ≤ i.pages then (.success, (s.bind k { i with value := v }).touch k)
    else
      let s' := { s with free := s.free + i.pages }.makeRoom c (need v)
      if need v ≤ s'.free then
        (.success, ({ s' with free := s'.free - need v }.bind k ⟨c, v, need v⟩).touch k)
      else (.noSpace, { s' with free := s'.free - i.pages })

/-- Read the value under a key. -/
def get (k : K) (c : C) : (OperationResult × Option V) × Store K C V :=
  match s.item k with
  | none => ((.keyNotFound, none), s)
  | some i =>
    if i.owner ≠ c then ((.clientMismatch, none), s)
    else ((.success, some i.value), s.touch k)

/-- Unbind a key. -/
def delete (k : K) (c : C) : OperationResult × Store K C V :=
  match s.item k with
  | none => (.keyNotFound, s)
  | some i => if i.owner ≠ c then (.clientMismatch, s) else (.success, s.remove k)

end Defs

/-- The order lists every bound key once, and every item has a page. -/
structure Inv (s : Store K C V) : Prop where
  nodup : s.order.Nodup
  mem_order : ∀ k, k ∈ s.order ↔ (s.item k).isSome
  pos : ∀ k i, s.item k = some i → 0 < i.pages

variable {s : Store K C V} {c : C} {k : K} {n d : ℕ}

/-! ### Removing -/

@[simp] theorem removeAll_nil : s.removeAll [] = s := rfl

@[simp] theorem removeAll_cons (ks : List K) :
    s.removeAll (k :: ks) = (s.remove k).removeAll ks := rfl

@[simp] theorem remove_item (k' : K) :
    (s.remove k).item k' = if k' = k then none else s.item k' := by
  simp [remove, Function.update_apply]

theorem remove_pagesOf_of_ne {k' : K} (h : k' ≠ k) : (s.remove k).pagesOf k' = s.pagesOf k' := by
  simp [pagesOf, h]

theorem remove_foreign_of_ne [DecidableEq C] {k' : K} (h : k' ≠ k) :
    (s.remove k).foreign c k' = s.foreign c k' := by
  simp [foreign, h]

theorem removeAll_item (ks : List K) (k' : K) :
    (s.removeAll ks).item k' = if k' ∈ ks then none else s.item k' := by
  induction ks generalizing s with
  | nil => simp
  | cons k ks ih =>
    rw [removeAll_cons, ih, remove_item]
    by_cases h₁ : k' ∈ ks
    · simp [h₁]
    · by_cases h₂ : k' = k <;> simp [h₁, h₂]

theorem removeAll_order (hnd : s.order.Nodup) (ks : List K) :
    (s.removeAll ks).order = s.order.filter (· ∉ ks) := by
  induction ks generalizing s with
  | nil => simp
  | cons k ks ih =>
    have hnd' : (s.remove k).order.Nodup := hnd.erase k
    rw [removeAll_cons, ih hnd']
    show (s.order.erase k).filter (· ∉ ks) = _
    rw [hnd.erase_eq_filter, List.filter_filter]
    refine List.filter_congr fun a _ => ?_
    by_cases h₁ : a = k <;> simp [h₁]

theorem removeAll_order_sublist (ks : List K) : (s.removeAll ks).order.Sublist s.order := by
  induction ks generalizing s with
  | nil => exact List.Sublist.refl _
  | cons k ks ih => exact ih.trans List.erase_sublist

theorem weight_remove {l : List K} (hl : k ∉ l) :
    Recency.weight (s.remove k).pagesOf l = Recency.weight s.pagesOf l :=
  Recency.weight_congr fun _ ha => remove_pagesOf_of_ne fun he => hl (he ▸ ha)

theorem removeAll_free {ks : List K} (hnd : ks.Nodup) :
    (s.removeAll ks).free = s.free + Recency.weight s.pagesOf ks := by
  induction ks generalizing s with
  | nil => simp
  | cons k ks ih =>
    obtain ⟨hk, hnd'⟩ := List.nodup_cons.mp hnd
    rw [removeAll_cons, ih hnd', weight_remove hk, Recency.weight_cons]
    show s.free + s.pagesOf k + _ = _
    omega

/-! ### Making room -/

variable [DecidableEq C]

omit [DecidableEq K] in
theorem foreign_iff : s.foreign c k = true ↔ ∃ i, s.item k = some i ∧ i.owner ≠ c := by
  simp [foreign, Option.any_eq_true]

omit [DecidableEq K] in
theorem mem_candidates : k ∈ s.candidates c ↔ k ∈ s.order ∧ s.foreign c k = true := by
  simp [candidates]

omit [DecidableEq K] in
theorem mem_candidates_of_mem_victims (h : k ∈ s.victims c d) : k ∈ s.candidates c :=
  Recency.mem_of_mem_shortest h

omit [DecidableEq K] in
/-- What is evicted for `c` belongs to someone else. -/
theorem foreign_of_mem_victims (h : k ∈ s.victims c d) : s.foreign c k = true :=
  (mem_candidates.mp (mem_candidates_of_mem_victims h)).2

omit [DecidableEq K] in
theorem nodup_candidates (hnd : s.order.Nodup) : (s.candidates c).Nodup :=
  (List.nodup_reverse.mpr hnd).filter _

omit [DecidableEq K] in
theorem nodup_victims (hnd : s.order.Nodup) : (s.victims c d).Nodup :=
  (nodup_candidates hnd).sublist (Recency.isPrefix_shortest _ _).sublist

omit [DecidableEq K] in
@[simp] theorem victims_zero : s.victims c 0 = [] := Recency.shortest_zero _ _

/-- Removing a key leaves the sweep over other keys what it was. -/
theorem shortest_remove {l : List K} (hl : k ∉ l) (d : ℕ) :
    Recency.shortest (s.remove k).pagesOf d (l.filter ((s.remove k).foreign c)) =
      Recency.shortest s.pagesOf d (l.filter (s.foreign c)) := by
  have hne : ∀ a ∈ l, a ≠ k := fun a ha he => hl (he ▸ ha)
  rw [List.filter_congr fun a ha => remove_foreign_of_ne (hne a ha)]
  exact Recency.shortest_congr
    (fun a ha => remove_pagesOf_of_ne (hne a (List.mem_of_mem_filter ha))) d

theorem makeRoom_of_le (h : n ≤ s.free) : s.makeRoom c n = s := by
  rw [makeRoom, Nat.sub_eq_zero_of_le h, victims_zero, removeAll_nil]

theorem makeRoom_free (hnd : s.order.Nodup) :
    (s.makeRoom c n).free = s.free + Recency.weight s.pagesOf (s.victims c (n - s.free)) :=
  removeAll_free (nodup_victims hnd)

theorem free_le_makeRoom_free (hnd : s.order.Nodup) : s.free ≤ (s.makeRoom c n).free := by
  rw [makeRoom_free hnd]
  omega

/-- **Room can be made exactly when the free pages and those of the other owners
suffice.** -/
theorem le_makeRoom_free_iff (hnd : s.order.Nodup) :
    n ≤ (s.makeRoom c n).free ↔ n ≤ s.free + Recency.weight s.pagesOf (s.candidates c) := by
  have hiff : n - s.free ≤ Recency.weight s.pagesOf (s.victims c (n - s.free)) ↔
      n - s.free ≤ Recency.weight s.pagesOf (s.candidates c) := Recency.le_weight_shortest_iff
  rw [makeRoom_free hnd]
  omega

end Store

end PagedCacheServer
