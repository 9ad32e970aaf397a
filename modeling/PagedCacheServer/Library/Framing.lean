import Mathlib.Data.List.Infix
import Mathlib.Data.List.TakeDrop

/-!
# Cutting a stream at a delimiter

Messages on a stream end with a delimiter, a non-empty list `d`. The reader
looks for the first occurrence of `d` in what it has, cuts after it, and starts
over on the rest; this is `Framing.cut`, and what is left at the end is the part
of the stream where no delimiter has been seen yet.

* `Framing.cut_append` – **cutting does not depend on when the bytes arrive**:
  to cut `l ++ l'`, cut `l`, then what it left followed by `l'`. The reason is
  that a first occurrence stays the first one when more bytes follow
  (`Framing.find_append`), although a delimiter may be split between the two
  parts and may overlap itself.
* `Framing.flatten_cut` – nothing is lost.
* `Framing.cut_flatten` – frames, lists where the delimiter occurs at the end
  and nowhere before, are recovered one by one; also when the stream breaks off in
  the middle of one (`Framing.cut_flatten_append`).
-/

namespace Framing

variable {α : Type*} [DecidableEq α]

/-- The position of the first occurrence of `d`. -/
def find (d : List α) : List α → Option ℕ
  | [] => if d = [] then some 0 else none
  | a :: l => if d <+: a :: l then some 0 else (find d l).map (· + 1)

/-- `d` occurs at position `n`. -/
def OccursAt (d l : List α) (n : ℕ) : Prop := d <+: l.drop n

variable {d l l' : List α} {n m : ℕ}

/-! ### First occurrences -/

omit [DecidableEq α] in
theorem OccursAt.le_length (h : OccursAt d l n) (hd : d ≠ []) : n + d.length ≤ l.length := by
  have hlen := h.length_le
  rw [List.length_drop] at hlen
  have hpos := List.length_pos_iff.mpr hd
  omega

omit [DecidableEq α] in
/-- An occurrence that ends within `l` is an occurrence in `l`. -/
theorem occursAt_append (hn : n + d.length ≤ l.length) :
    OccursAt d (l ++ l') n ↔ OccursAt d l n := by
  have hdrop : (l ++ l').drop n = l.drop n ++ l' := List.drop_append_of_le_length (by omega)
  rw [OccursAt, OccursAt, hdrop]
  constructor
  · intro h
    refine List.prefix_of_prefix_length_le h (List.prefix_append _ _) ?_
    rw [List.length_drop]
    omega
  · intro h
    exact h.trans (List.prefix_append _ _)

/-- `find` finds the first occurrence. -/
theorem find_eq_some_iff (hd : d ≠ []) :
    find d l = some n ↔ OccursAt d l n ∧ ∀ m, m < n → ¬OccursAt d l m := by
  induction l generalizing n with
  | nil =>
    simp only [find, if_neg hd, OccursAt, List.drop_nil, List.prefix_nil]
    simp [hd]
  | cons a l ih =>
    by_cases hp : d <+: a :: l
    · simp only [find, if_pos hp, Option.some.injEq]
      constructor
      · rintro rfl
        exact ⟨hp, fun m hm => absurd hm (Nat.not_lt_zero m)⟩
      · rintro ⟨-, hmin⟩
        by_contra hne
        exact hmin 0 (by omega) hp
    · simp only [find, if_neg hp, Option.map_eq_some_iff]
      constructor
      · rintro ⟨k, hk, rfl⟩
        obtain ⟨hocc, hmin⟩ := ih.mp hk
        refine ⟨hocc, fun m hm hm' => ?_⟩
        rcases m with _ | m
        · exact hp hm'
        · exact hmin m (by omega) hm'
      · rintro ⟨hocc, hmin⟩
        rcases n with _ | k
        · exact absurd hocc hp
        · exact ⟨k, ih.mpr ⟨hocc, fun m hm hm' => hmin (m + 1) (by omega) hm'⟩, rfl⟩

theorem find_eq_none_iff (hd : d ≠ []) : find d l = none ↔ ∀ m, ¬OccursAt d l m := by
  induction l with
  | nil => simp [find, hd, OccursAt]
  | cons a l ih =>
    by_cases hp : d <+: a :: l
    · simp only [find, if_pos hp, reduceCtorEq, false_iff, not_forall, not_not]
      exact ⟨0, hp⟩
    · simp only [find, if_neg hp, Option.map_eq_none_iff, ih]
      constructor
      · intro h m hm
        rcases m with _ | m
        · exact hp hm
        · exact h m hm
      · intro h m hm
        exact h (m + 1) hm

/-- **The first occurrence stays first when more follows.** -/
theorem find_append (hd : d ≠ []) (h : find d l = some n) (l' : List α) :
    find d (l ++ l') = some n := by
  obtain ⟨hocc, hmin⟩ := (find_eq_some_iff hd).mp h
  have hlen := hocc.le_length hd
  refine (find_eq_some_iff hd).mpr ⟨(occursAt_append hlen).mpr hocc, fun m hm hm' => ?_⟩
  exact hmin m hm ((occursAt_append (by omega)).mp hm')

theorem find_le_length (hd : d ≠ []) (h : find d l = some n) : n + d.length ≤ l.length :=
  ((find_eq_some_iff hd).mp h).1.le_length hd

theorem length_drop_find_lt (hd : d ≠ []) (h : find d l = some n) :
    (l.drop (n + d.length)).length < l.length := by
  have hlen := find_le_length hd h
  have hpos := List.length_pos_iff.mpr hd
  rw [List.length_drop]
  omega

/-! ### Cutting -/

/-- The messages of a stream, and what is left. -/
def cut (d : List α) (hd : d ≠ []) (l : List α) : List (List α) × List α :=
  match h : find d l with
  | none => ([], l)
  | some n =>
    have := length_drop_find_lt hd h
    let r := cut d hd (l.drop (n + d.length))
    (l.take (n + d.length) :: r.1, r.2)
termination_by l.length
decreasing_by assumption

section Cut

variable (hd : d ≠ [])
include hd

theorem cut_of_none (h : find d l = none) : cut d hd l = ([], l) := by
  rw [cut]
  split
  · rfl
  · simp_all

theorem cut_of_some (h : find d l = some n) :
    cut d hd l = (l.take (n + d.length) :: (cut d hd (l.drop (n + d.length))).1,
      (cut d hd (l.drop (n + d.length))).2) := by
  rw [cut]
  split
  · simp_all
  · next m hm =>
    obtain rfl : m = n := by simpa [h] using hm.symm
    rfl

/-- Induction along the messages of a stream. -/
theorem cut_induction {P : List α → Prop} (none : ∀ l, find d l = none → P l)
    (some : ∀ l n, find d l = some n → P (l.drop (n + d.length)) → P l) (l : List α) : P l := by
  generalize hk : l.length = k
  induction k using Nat.strong_induction_on generalizing l with
  | h k ih =>
    rcases h : find d l with _ | n
    · exact none l h
    · refine some l n h (ih _ ?_ _ rfl)
      have := length_drop_find_lt hd h
      omega

/-- **Nothing is lost.** -/
theorem flatten_cut (l : List α) : (cut d hd l).1.flatten ++ (cut d hd l).2 = l := by
  induction l using cut_induction hd with
  | none l h => rw [cut_of_none hd h, List.flatten_nil, List.nil_append]
  | some l n h ih =>
    rw [cut_of_some hd h, List.flatten_cons, List.append_assoc, ih, List.take_append_drop]

/-- No delimiter is left. -/
theorem find_cut (l : List α) : find d (cut d hd l).2 = none := by
  induction l using cut_induction hd with
  | none l h => rw [cut_of_none hd h, h]
  | some l n h ih => rw [cut_of_some hd h, ih]

/-- **Cutting does not depend on when the rest arrives.** -/
theorem cut_append (l l' : List α) :
    cut d hd (l ++ l') =
      ((cut d hd l).1 ++ (cut d hd ((cut d hd l).2 ++ l')).1,
        (cut d hd ((cut d hd l).2 ++ l')).2) := by
  induction l using cut_induction hd with
  | none l h => rw [cut_of_none hd h, List.nil_append]
  | some l n h ih =>
    have hlen := find_le_length hd h
    rw [cut_of_some hd h, cut_of_some hd (find_append hd h l'), List.take_append_of_le_length hlen,
      List.drop_append_of_le_length hlen, ih, List.cons_append]

/-! ### Frames -/

/-- The delimiter occurs at the end of the list, and not before. -/
def IsFrame (d l : List α) : Prop := ∃ n, find d l = some n ∧ n + d.length = l.length

omit hd in
/-- What ends with the one element it is delimited by. -/
theorem isFrame_singleton {a : α} (h : a ∉ l) : IsFrame [a] (l ++ [a]) := by
  refine ⟨l.length, ?_, by simp⟩
  induction l with
  | nil => simp [find]
  | cons b l ih =>
    rw [List.mem_cons, not_or] at h
    have hp : ¬[a] <+: b :: (l ++ [a]) := fun hp => h.1 (List.cons_prefix_cons.mp hp).1
    rw [List.cons_append, find, if_neg hp, ih h.2, Option.map_some, List.length_cons]

theorem cut_frame_append (h : IsFrame d l) (l' : List α) :
    cut d hd (l ++ l') = (l :: (cut d hd l').1, (cut d hd l').2) := by
  obtain ⟨n, hfind, hlen⟩ := h
  rw [cut_of_some hd (find_append hd hfind l'), hlen, List.take_left, List.drop_left]

/-- **Frames come out as they went in.** -/
theorem cut_flatten {frames : List (List α)} (h : ∀ f ∈ frames, IsFrame d f) :
    cut d hd frames.flatten = (frames, []) := by
  induction frames with
  | nil =>
    refine cut_of_none hd ((find_eq_none_iff hd).mpr fun m hm => ?_)
    have := hm.le_length hd
    have hpos := List.length_pos_iff.mpr hd
    simp only [List.flatten_nil, List.length_nil] at this
    omega
  | cons f frames ih =>
    have hf : IsFrame d f := h f (by simp)
    rw [List.flatten_cons, cut_frame_append hd hf, ih fun g hg => h g (by simp [hg])]

/-- In the beginning of a frame there is nothing to be seen of its end. -/
theorem find_of_prefix (h : IsFrame d l) (hbegin : l' <+: l) (hne : l' ≠ l) :
    find d l' = none := by
  obtain ⟨n, hfind, hlen⟩ := h
  obtain ⟨rest, rfl⟩ := hbegin
  rcases hl' : find d l' with _ | m
  · rfl
  · have hmn : m = n := Option.some.inj ((find_append hd hl' rest).symm.trans hfind)
    have hle := find_le_length hd hl'
    rw [List.length_append] at hlen
    have hrest : rest = [] := List.length_eq_zero_iff.mp (by omega)
    rw [hrest, List.append_nil] at hne
    exact absurd rfl hne

/-- **Frames come out as they went in when the stream breaks off**, and what broke off is
left over. -/
theorem cut_flatten_append {frames : List (List α)} (h : ∀ f ∈ frames, IsFrame d f)
    (hl : find d l = none) : cut d hd (frames.flatten ++ l) = (frames, l) := by
  rw [cut_append, cut_flatten hd h, List.nil_append, cut_of_none hd hl, List.append_nil]

end Cut

end Framing
