import Mathlib.Data.List.Basic
import Mathlib.Tactic.Common

/-!
# Queues of keys with a bit

The policies that approximate recency keep their keys in a queue, with one bit for
each that a hit sets and a sweep clears. A *discipline* says what a hit, a new key and
a replacement do to such a queue (`BitQueue.Discipline`), and runs on a sequence of
accesses (`BitQueue.Discipline.access`). The disciplines of this file are

* `BitQueue.secondChance` – a sweep takes the front key, moves it to the back with its
  bit cleared if the bit was set, and else evicts it; a new key joins the back with its
  bit set;
* `BitQueue.frontChance` – the same, but a key that comes in for another one joins the
  *front*;
* `BitQueue.sieve` – the keys stay in the order they came; a hand moves over them,
  clears the bits it passes and evicts the first key whose bit is clear; a new key
  joins at the end with its bit clear. The hand rests where it evicted, and
  `BitQueue.sieveFromOldest` is the variant that takes it back to the oldest key first.

A sweep either stops at the first clear bit or clears them all and stops at the first
key (`BitQueue.bits_cases`); what it leaves in the two cases is written out for each of
them.
-/

namespace BitQueue

variable {κ σ : Type*}

/-! ### Bits -/

/-- All bits cleared. -/
def clear (q : List (κ × Bool)) : List (κ × Bool) := q.map fun x => (x.1, false)

/-- The bit of `k` set. -/
def mark [DecidableEq κ] (q : List (κ × Bool)) (k : κ) : List (κ × Bool) :=
  q.map fun x => if x.1 = k then (x.1, true) else x

@[simp] theorem clear_nil : clear ([] : List (κ × Bool)) = [] := rfl

@[simp] theorem clear_cons (x : κ × Bool) (q : List (κ × Bool)) :
    clear (x :: q) = (x.1, false) :: clear q := rfl

@[simp] theorem clear_append (q q' : List (κ × Bool)) : clear (q ++ q') = clear q ++ clear q' :=
  List.map_append

@[simp] theorem length_clear (q : List (κ × Bool)) : (clear q).length = q.length := by
  simp [clear]

theorem map_fst_clear (q : List (κ × Bool)) : (clear q).map Prod.fst = q.map Prod.fst := by
  simp [clear, Function.comp_def]

theorem map_fst_mark [DecidableEq κ] (q : List (κ × Bool)) (k : κ) :
    (mark q k).map Prod.fst = q.map Prod.fst := by
  rw [mark, List.map_map]
  refine List.map_congr_left fun x _ => ?_
  by_cases hx : x.1 = k <;> simp [hx]

/-- Some bit is clear, and there is a first such one, or all are set. -/
theorem bits_cases (q : List (κ × Bool)) :
    (∃ pre v post, q = pre ++ (v, false) :: post ∧ ∀ x ∈ pre, x.2 = true) ∨
      ∀ x ∈ q, x.2 = true := by
  induction q with
  | nil => exact Or.inr (by simp)
  | cons x q ih =>
    obtain ⟨k, b⟩ := x
    cases b with
    | false => exact Or.inl ⟨[], k, q, rfl, by simp⟩
    | true =>
      rcases ih with ⟨pre, v, post, rfl, hpre⟩ | hall
      · exact Or.inl ⟨(k, true) :: pre, v, post, rfl, by simpa using hpre⟩
      · exact Or.inr (by simpa using hall)

/-! ### Disciplines -/

/-- What a hit, a new key and a replacement do to the queue. A replacement also says
which key went. -/
structure Discipline (κ σ : Type*) where
  queue : σ → List (κ × Bool)
  hit : σ → κ → σ
  join : σ → κ → σ
  replace : σ → κ → Option κ × σ

/-- An access to a key of a queue that holds `capacity` keys, which brings it in if it
`brings`, with whether the key was found and the keys that went. -/
def Discipline.access [DecidableEq κ] (d : Discipline κ σ) (capacity : ℕ) (q : σ)
    (brings : Bool) (k : κ) : (Bool × List κ) × σ :=
  if k ∈ (d.queue q).map Prod.fst then ((true, []), d.hit q k)
  else if brings = false then ((false, []), q)
  else if (d.queue q).length < capacity then ((false, []), d.join q k)
  else ((false, (d.replace q k).1.toList), (d.replace q k).2)

section Access

variable [DecidableEq κ] {d : Discipline κ σ} {capacity : ℕ} {q : σ} {k : κ}

theorem access_of_mem {brings : Bool} (hk : k ∈ (d.queue q).map Prod.fst) :
    d.access capacity q brings k = ((true, []), d.hit q k) := by
  rw [Discipline.access, if_pos hk]

theorem access_of_notMem (hk : k ∉ (d.queue q).map Prod.fst) :
    d.access capacity q false k = ((false, []), q) := by
  rw [Discipline.access, if_neg hk, if_pos rfl]

theorem access_of_lt (hk : k ∉ (d.queue q).map Prod.fst) (hlen : (d.queue q).length < capacity) :
    d.access capacity q true k = ((false, []), d.join q k) := by
  rw [Discipline.access, if_neg hk, if_neg (by simp), if_pos hlen]

theorem access_of_le (hk : k ∉ (d.queue q).map Prod.fst) (hlen : capacity ≤ (d.queue q).length) :
    d.access capacity q true k =
      ((false, (d.replace q k).1.toList), (d.replace q k).2) := by
  rw [Discipline.access, if_neg hk, if_neg (by simp), if_neg (by omega)]

end Access

/-! ### Second chance -/

/-- The sweep of a second-chance queue, for at most `n` keys. -/
def chanceSweep : ℕ → List (κ × Bool) → Option κ × List (κ × Bool)
  | 0, q => (none, q)
  | _ + 1, [] => (none, [])
  | n + 1, (k, true) :: q => chanceSweep n (q ++ [(k, false)])
  | _ + 1, (k, false) :: q => (some k, q)

/-- The second-chance queue. -/
def secondChance [DecidableEq κ] : Discipline κ (List (κ × Bool)) where
  queue := id
  hit := mark
  join q k := q ++ [(k, true)]
  replace q k := ((chanceSweep (2 * q.length) q).1, (chanceSweep (2 * q.length) q).2 ++ [(k, true)])

/-- The same with the replacing key in front. -/
def frontChance [DecidableEq κ] : Discipline κ (List (κ × Bool)) where
  queue := id
  hit := mark
  join q k := q ++ [(k, true)]
  replace q k := ((chanceSweep (2 * q.length) q).1, (k, true) :: (chanceSweep (2 * q.length) q).2)

section Chance

variable {q pre post : List (κ × Bool)} {v : κ} {b : Bool} {n : ℕ}

/-- The sweep takes the keys whose bit is set to the back. -/
theorem chanceSweep_pass (hpre : ∀ x ∈ pre, x.2 = true) (rest : List (κ × Bool)) (n : ℕ) :
    chanceSweep (pre.length + n) (pre ++ rest) = chanceSweep n (rest ++ clear pre) := by
  induction pre generalizing rest with
  | nil => simp
  | cons x pre ih =>
    obtain ⟨k, b⟩ := x
    obtain rfl : b = true := hpre (k, b) (by simp)
    have hlen : ((k, true) :: pre).length + n = (pre.length + n) + 1 := by
      rw [List.length_cons]
      omega
    rw [hlen, List.cons_append, chanceSweep, List.append_assoc,
      ih fun x hx => hpre x (by simp [hx])]
    simp

/-- **The sweep stops at the first clear bit.** -/
theorem chanceSweep_of_split (hpre : ∀ x ∈ pre, x.2 = true) (hn : pre.length < n) :
    chanceSweep n (pre ++ (v, false) :: post) = (some v, post ++ clear pre) := by
  obtain ⟨m, rfl⟩ := Nat.exists_eq_add_of_lt hn
  rw [Nat.add_assoc, chanceSweep_pass hpre, List.cons_append, chanceSweep]

/-- **All bits are set**: all are cleared, and the front key goes. -/
theorem chanceSweep_of_all (hall : ∀ x ∈ (v, b) :: q, x.2 = true) (hn : q.length + 1 < n) :
    chanceSweep n ((v, b) :: q) = (some v, clear q) := by
  obtain ⟨m, rfl⟩ := Nat.exists_eq_add_of_lt hn
  have hpass := chanceSweep_pass hall [] (m + 1)
  rw [List.append_nil, List.nil_append, clear_cons, chanceSweep] at hpass
  rw [Nat.add_assoc]
  exact hpass

end Chance

/-! ### SIEVE -/

/-- The queue of SIEVE, oldest key first, and its hand. -/
structure Sieve (κ : Type*) where
  objects : List (κ × Bool)
  hand : ℕ
deriving DecidableEq

namespace Sieve

/-- The sweep of the hand, for at most `n` keys. -/
def sweep : ℕ → Sieve κ → Option κ × Sieve κ
  | 0, q => (none, q)
  | n + 1, q =>
    match q.objects[q.hand]? with
    | none => (none, q)
    | some (k, true) =>
      sweep n ⟨q.objects.set q.hand (k, false), (q.hand + 1) % q.objects.length⟩
    | some (k, false) =>
      let objects := q.objects.eraseIdx q.hand
      (some k, ⟨objects, if q.hand < objects.length then q.hand else 0⟩)

/-- The hand moves on from where it is. -/
def evict (q : Sieve κ) : Option κ × Sieve κ := q.sweep (2 * q.objects.length)

/-- The hand starts at the oldest key. -/
def evictFromOldest (q : Sieve κ) : Option κ × Sieve κ := evict { q with hand := 0 }

end Sieve

/-- SIEVE, for a way to evict. -/
def sieveWith [DecidableEq κ] (evict : Sieve κ → Option κ × Sieve κ) : Discipline κ (Sieve κ) where
  queue q := q.objects
  hit q k := { q with objects := mark q.objects k }
  join q k := { q with objects := q.objects ++ [(k, false)] }
  replace q k :=
    ((evict q).1, { (evict q).2 with objects := (evict q).2.objects ++ [(k, false)] })

/-- SIEVE: the hand stays where it is between evictions. -/
def sieve [DecidableEq κ] : Discipline κ (Sieve κ) := sieveWith Sieve.evict

/-- SIEVE with a hand that goes back to the oldest key before every eviction. -/
def sieveFromOldest [DecidableEq κ] : Discipline κ (Sieve κ) := sieveWith Sieve.evictFromOldest

section Sieve

variable {q pre post : List (κ × Bool)} {v : κ} {b : Bool} {n : ℕ}

/-- The hand clears the bits it passes. -/
theorem sweep_pass (hpre : ∀ x ∈ pre, x.2 = true) (passed : List (κ × Bool)) (y : κ × Bool)
    (rest : List (κ × Bool)) (n : ℕ) :
    Sieve.sweep (pre.length + n) ⟨passed ++ pre ++ y :: rest, passed.length⟩ =
      Sieve.sweep n ⟨passed ++ clear pre ++ y :: rest, passed.length + pre.length⟩ := by
  induction pre generalizing passed with
  | nil => simp
  | cons x pre ih =>
    obtain ⟨k, b⟩ := x
    obtain rfl : b = true := hpre (k, b) (by simp)
    have hlen : ((k, true) :: pre).length + n = (pre.length + n) + 1 := by
      rw [List.length_cons]
      omega
    have hnext : Sieve.sweep (pre.length + n + 1)
          ⟨passed ++ (k, true) :: pre ++ y :: rest, passed.length⟩ =
        Sieve.sweep (pre.length + n)
          ⟨(passed ++ [(k, false)]) ++ pre ++ y :: rest, (passed ++ [(k, false)]).length⟩ := by
      rw [Sieve.sweep]
      simp only [List.append_assoc, List.cons_append, List.getElem?_append_right (Nat.le_refl _),
        Nat.sub_self, List.getElem?_cons_zero, List.set_append_right _ _ (Nat.le_refl _),
        List.set_cons_zero, List.nil_append, List.length_append, List.length_cons, List.length_nil]
      rw [Nat.mod_eq_of_lt (by omega)]
    rw [hlen, hnext, ih fun x hx => hpre x (by simp [hx])]
    simp only [List.append_assoc, List.length_append, List.length_cons, List.length_nil, clear_cons,
      List.cons_append, List.nil_append]
    congr 2
    omega

theorem sweep_clear (passed rest : List (κ × Bool)) (v : κ) (n : ℕ) :
    (Sieve.sweep (n + 1) ⟨passed ++ (v, false) :: rest, passed.length⟩).1 = some v ∧
      (Sieve.sweep (n + 1) ⟨passed ++ (v, false) :: rest, passed.length⟩).2.objects =
        passed ++ rest := by
  rw [Sieve.sweep]
  simp [List.eraseIdx_append_of_length_le]

/-- **From the oldest key on, the sweep stops at the first clear bit.** -/
theorem evict_of_split (hpre : ∀ x ∈ pre, x.2 = true) :
    (Sieve.evict ⟨pre ++ (v, false) :: post, 0⟩).1 = some v ∧
      (Sieve.evict ⟨pre ++ (v, false) :: post, 0⟩).2.objects = clear pre ++ post := by
  obtain ⟨m, hm⟩ : ∃ m, 2 * (pre ++ (v, false) :: post).length = pre.length + (m + 1) :=
    ⟨pre.length + 2 * post.length + 1, by simp only [List.length_append, List.length_cons]; omega⟩
  have hpass := sweep_pass hpre [] (v, false) post (m + 1)
  simp only [List.nil_append, List.length_nil, Nat.zero_add] at hpass
  have hend := sweep_clear (clear pre) post v m
  rw [length_clear] at hend
  simp only [Sieve.evict, hm, hpass]
  exact hend

/-- **All bits are set**: all are cleared, and the oldest key goes. -/
theorem evict_of_all (hall : ∀ x ∈ (v, b) :: q, x.2 = true) :
    (Sieve.evict ⟨(v, b) :: q, 0⟩).1 = some v ∧
      (Sieve.evict ⟨(v, b) :: q, 0⟩).2.objects = clear q := by
  obtain ⟨init, y, hsplit⟩ := (List.eq_nil_or_concat' ((v, b) :: q)).resolve_left (by simp)
  obtain ⟨m, hm⟩ : ∃ m, 2 * ((v, b) :: q).length = init.length + ((m + 1) + 1) := by
    have hlen := congrArg List.length hsplit
    simp only [List.length_cons, List.length_append, List.length_nil] at hlen
    exact ⟨q.length, by simp only [List.length_cons]; omega⟩
  have hinit : ∀ x ∈ init, x.2 = true := fun x hx => hall x (by simp [hsplit, hx])
  obtain ⟨k, hy⟩ : ∃ k, y = (k, true) := ⟨y.1, Prod.ext rfl (hall y (by simp [hsplit]))⟩
  have hpass := sweep_pass hinit [] y [] ((m + 1) + 1)
  simp only [List.nil_append, List.length_nil, Nat.zero_add] at hpass
  -- the last key takes the hand back to the oldest one
  have hwrap : Sieve.sweep ((m + 1) + 1) ⟨clear init ++ [y], init.length⟩ =
      Sieve.sweep (m + 1) ⟨(v, false) :: clear q, 0⟩ := by
    have hcleared : clear init ++ [(k, false)] = (v, false) :: clear q := by
      have hclear := congrArg clear hsplit
      rw [clear_cons, clear_append, hy] at hclear
      exact hclear.symm
    rw [Sieve.sweep, hy, ← length_clear init]
    simp [List.set_append_right, hcleared]
  have hend := sweep_clear [] (clear q) v m
  simp only [Sieve.evict, hm]
  rw [hsplit, hpass, hwrap]
  exact hend

end Sieve

end BitQueue
