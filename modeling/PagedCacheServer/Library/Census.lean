import Mathlib.Algebra.Order.BigOperators.Group.Finset
import Mathlib.Algebra.Order.BigOperators.Group.List
import Mathlib.Algebra.Ring.Nat
import Mathlib.Data.Finset.Card

/-!
# Counting the members of a pool

A pool of threads is a list of the places they stand at, and a step of one of them
writes to its entry. An invariant that says how many stand at places of some kind is
kept by such a write when the two places it replaces balance
(`Census.countP_set_add`); the same goes for a sum over the places
(`Census.sum_map_set_add`).

A queue that numbers its members as they come in has them in increasing order; those
below a bound are then a prefix, so that none is left when the first is not below it
(`Census.countP_lt_eq_zero`).
-/

namespace Census

variable {α : Type*} {l : List α} {i : ℕ} {a b : α}

/-- **Moving one member.** What the old place counted for goes, and what the new one
counts for comes. -/
theorem countP_set_add (h : l[i]? = some a) (b : α) (p : α → Bool) :
    (l.set i b).countP p + (if p a then 1 else 0) = l.countP p + if p b then 1 else 0 := by
  obtain ⟨hi, rfl⟩ := List.getElem?_eq_some_iff.mp h
  have hle : (if p l[i] then 1 else 0) ≤ l.countP p := List.boole_getElem_le_countP hi
  rw [List.countP_set hi]
  omega

/-- A move between places that count for the same. -/
theorem countP_set_eq {p : α → Bool} (h : l[i]? = some a) (hb : p b = p a) :
    (l.set i b).countP p = l.countP p := by
  have := countP_set_add h b p
  rw [hb] at this
  exact Nat.add_right_cancel this

/-- The same for a sum over the places. -/
theorem sum_map_set_add (h : l[i]? = some a) (b : α) (f : α → ℕ) :
    ((l.set i b).map f).sum + f a = (l.map f).sum + f b := by
  induction l generalizing i with
  | nil => simp at h
  | cons c l ih =>
    cases i with
    | zero =>
      obtain rfl : c = a := by simpa using h
      simp only [List.set_cons_zero, List.map_cons, List.sum_cons]
      omega
    | succ i =>
      have := ih (i := i) (by simpa using h)
      simp only [List.set_cons_succ, List.map_cons, List.sum_cons]
      omega

theorem forall_mem_set {P : α → Prop} (h : ∀ a ∈ l, P a) (hb : P b) : ∀ a ∈ l.set i b, P a := by
  intro a ha
  rcases List.mem_or_eq_of_mem_set ha with ha | rfl
  · exact h a ha
  · exact hb

/-- The members that do not move stay. -/
theorem mem_set_of_ne {c : α} (h : l[i]? = some a) (hc : c ∈ l) (hne : c ≠ a) (b : α) :
    c ∈ l.set i b := by
  obtain ⟨j, hj⟩ := List.mem_iff_getElem?.mp hc
  have hij : i ≠ j := by
    rintro rfl
    exact hne (Option.some.inj (hj.symm.trans h))
  exact List.mem_of_getElem? ((List.getElem?_set_ne hij).trans hj)

/-- What is counted once at most is at one place at most. -/
theorem eq_of_countP_le_one {p : α → Bool} (h : l.countP p ≤ 1) (ha : a ∈ l) (hb : b ∈ l)
    (hpa : p a = true) (hpb : p b = true) : a = b := by
  obtain ⟨c, hc⟩ : ∃ c, ∀ x ∈ l.filter p, x = c := by
    rw [List.countP_eq_length_filter] at h
    rcases hl : l.filter p with _ | ⟨c, _ | ⟨d, l'⟩⟩
    · exact ⟨a, by simp⟩
    · exact ⟨c, by simp⟩
    · rw [hl] at h
      simp at h
  exact (hc a (List.mem_filter.mpr ⟨ha, hpa⟩)).trans (hc b (List.mem_filter.mpr ⟨hb, hpb⟩)).symm

/-- A change of place that `p` does not see, for all members at once. -/
theorem countP_map_eq {f : α → α} {p : α → Bool} (h : ∀ a, p (f a) = p a) (l : List α) :
    (l.map f).countP p = l.countP p := by
  rw [List.countP_map]
  exact List.countP_congr fun a _ => by simp [h a]

/-- What has each member at most `n` times is at most `n` times as long as it is wide. -/
theorem length_le_mul_card [DecidableEq α] {n : ℕ} (h : ∀ a, l.countP (· = a) ≤ n) :
    l.length ≤ n * l.toFinset.card := by
  rw [← List.sum_toFinset_count_eq_length, Nat.mul_comm]
  refine Finset.sum_le_card_nsmul _ _ _ fun a _ => le_of_eq_of_le ?_ (h a)
  exact List.countP_congr fun b _ => by simp

/-- In a queue that is in order, no member is below the bound when the first is not. -/
theorem countP_lt_eq_zero {f : α → ℕ} {bound : ℕ}
    (h : (a :: l).Pairwise fun x y => f x < f y) (ha : ¬ f a < bound) :
    (a :: l).countP (fun x => decide (f x < bound)) = 0 := by
  refine List.countP_eq_zero.mpr fun x hx => ?_
  rcases List.mem_cons.mp hx with rfl | hx
  · simpa using ha
  · have : f a < f x := (List.pairwise_cons.mp h).1 x hx
    simp only [decide_eq_true_eq]
    omega

end Census
