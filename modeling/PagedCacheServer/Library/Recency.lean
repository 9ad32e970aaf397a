import Mathlib.Algebra.Order.BigOperators.Group.List
import Mathlib.Algebra.Ring.Nat
import Mathlib.Data.Finset.Card
import Mathlib.Data.List.DropRight
import Mathlib.Data.List.Infix
import Mathlib.Data.List.Induction

/-!
# Recency orders, stacks and shortest prefixes

Four list notions an eviction by recency rests on.

* `Recency.age` – how many events ago a key was last touched, read off a history
  (oldest event first), and `Recency.ByAge`: a list of keys in increasing order
  of age, that is, most recent first. An event either touches one key, which
  comes to the front, or none; either way the other ages grow together
  (`Recency.ByAge.snoc_touch`, `Recency.ByAge.snoc_keep`).
* `Recency.stack` – the distinct keys of a trace, the one requested last first.
  How deep a key lies in it is the number of distinct keys requested since
  (`Recency.mem_take_stack_iff`), whatever part of the stack is kept
  (`Recency.take_touch`).
* The window of the last `n` elements of a list, `List.rtake n`: what is in it has fewer
  than `n` elements after it (`Recency.mem_rtake_iff`).
* `Recency.shortest` – the shortest prefix of a list of weighted keys whose
  weight reaches a bound: what a sweep that stops as soon as enough is collected
  takes. It is characterised by `Recency.isPrefix_shortest`,
  `Recency.le_weight_shortest` and `Recency.weight_lt_of_prefix_shortest`.
-/

namespace Recency

/-! ### Ages -/

section Age

variable {ε κ : Type*} (touches : ε → κ → Bool)

/-- The number of events since `k` was last touched. -/
def age (h : List ε) (k : κ) : ℕ := h.reverse.findIdx fun e => touches e k

/-- The list is ordered from the most to the least recently touched key. -/
def ByAge (h : List ε) (l : List κ) : Prop :=
  l.Pairwise fun a b => age touches h a < age touches h b

variable {touches} {h : List ε} {e : ε} {k : κ} {l l' : List κ}

theorem age_snoc_of_touches (hk : touches e k = true) : age touches (h ++ [e]) k = 0 := by
  simp [age, List.findIdx_cons, hk]

theorem age_snoc_of_not_touches (hk : touches e k = false) :
    age touches (h ++ [e]) k = age touches h k + 1 := by
  simp [age, List.findIdx_cons, hk]

theorem byAge_nil (h : List ε) : ByAge touches h [] := List.Pairwise.nil

/-- An event that touches none of the keys kept leaves them in order. -/
theorem ByAge.snoc_keep (hl : ByAge touches h l) (hsub : l'.Sublist l)
    (hl' : ∀ a ∈ l', touches e a = false) : ByAge touches (h ++ [e]) l' := by
  refine (hl.sublist hsub).imp_of_mem fun {a b} ha hb hab => ?_
  rw [age_snoc_of_not_touches (hl' a ha), age_snoc_of_not_touches (hl' b hb)]
  omega

/-- The key an event touches comes to the front. -/
theorem ByAge.snoc_touch (hl : ByAge touches h l) (hsub : l'.Sublist l)
    (hk : touches e k = true) (hl' : ∀ a ∈ l', touches e a = false) :
    ByAge touches (h ++ [e]) (k :: l') := by
  refine List.pairwise_cons.mpr ⟨fun a ha => ?_, hl.snoc_keep hsub hl'⟩
  rw [age_snoc_of_touches hk, age_snoc_of_not_touches (hl' a ha)]
  omega

end Age

/-! ### Stacks -/

section Stack

variable {κ : Type*} [DecidableEq κ]

/-- The key comes to the front of the list. -/
def touch (l : List κ) (k : κ) : List κ := k :: l.filter (· ≠ k)

/-- The distinct keys of a trace, the one requested last first. -/
def stack (trace : List κ) : List κ := trace.foldl touch []

variable {k : κ} {l trace since : List κ} {n : ℕ}

@[simp] theorem stack_nil : stack ([] : List κ) = [] := rfl

@[simp] theorem stack_snoc (trace : List κ) (k : κ) :
    stack (trace ++ [k]) = touch (stack trace) k := by
  simp [stack]

theorem nodup_touch (h : l.Nodup) (k : κ) : (touch l k).Nodup :=
  List.nodup_cons.mpr ⟨by simp, h.filter _⟩

theorem mem_touch {a : κ} : a ∈ touch l k ↔ a = k ∨ a ∈ l := by
  by_cases ha : a = k <;> simp [touch, ha]

theorem nodup_stack (trace : List κ) : (stack trace).Nodup := by
  induction trace using List.reverseRecOn with
  | nil => exact List.nodup_nil
  | append_singleton trace k ih =>
    rw [stack_snoc]
    exact nodup_touch ih k

theorem mem_stack : k ∈ stack trace ↔ k ∈ trace := by
  induction trace using List.reverseRecOn with
  | nil => rfl
  | append_singleton trace a ih =>
    rw [stack_snoc, mem_touch, ih, List.mem_append, List.mem_singleton, or_comm]

theorem length_stack (trace : List κ) : (stack trace).length = trace.toFinset.card := by
  rw [← List.toFinset_card_of_nodup (nodup_stack trace)]
  refine congrArg Finset.card (Finset.ext fun k => ?_)
  rw [List.mem_toFinset, List.mem_toFinset, mem_stack]

/-- Over a key lie the keys requested since, each once. -/
theorem stack_split (before : List κ) (hk : k ∉ since) :
    ∃ above below, stack (before ++ k :: since) = above ++ k :: below ∧
      above.length = since.toFinset.card := by
  suffices h : ∃ above below, stack (before ++ k :: since) = above ++ k :: below ∧
      ∀ a, a ∈ above ↔ a ∈ since by
    obtain ⟨above, below, hstack, hmem⟩ := h
    refine ⟨above, below, hstack, ?_⟩
    have hnd : above.Nodup := by
      have hall := nodup_stack (before ++ k :: since)
      rw [hstack] at hall
      exact (List.nodup_append.mp hall).1
    rw [← List.toFinset_card_of_nodup hnd]
    refine congrArg Finset.card (Finset.ext fun a => ?_)
    rw [List.mem_toFinset, List.mem_toFinset, hmem]
  induction since using List.reverseRecOn with
  | nil =>
    refine ⟨[], (stack before).filter (· ≠ k), ?_, fun a => Iff.rfl⟩
    rw [stack_snoc]
    rfl
  | append_singleton since a ih =>
    obtain ⟨hsince, hne⟩ : k ∉ since ∧ k ≠ a := by simpa using hk
    obtain ⟨above, below, hstack, hmem⟩ := ih hsince
    refine ⟨touch above a, below.filter (· ≠ a), ?_, fun b => ?_⟩
    · rw [← List.cons_append, ← List.append_assoc, stack_snoc, hstack, touch,
        List.filter_append, List.filter_cons_of_pos (by simpa using hne)]
      rfl
    · rw [mem_touch, hmem, List.mem_append, List.mem_singleton, or_comm]

/-- **Depth is reuse distance**: a key is among the first `n` of the stack exactly
when it was requested and fewer than `n` distinct keys were since. -/
theorem mem_take_stack_iff :
    k ∈ (stack trace).take n ↔
      ∃ before since, trace = before ++ k :: since ∧ k ∉ since ∧ since.toFinset.card < n := by
  have hdepth : ∀ before since : List κ, k ∉ since →
      (k ∈ (stack (before ++ k :: since)).take n ↔ since.toFinset.card < n) := by
    intro before since hk
    obtain ⟨above, below, hstack, hlen⟩ := stack_split before hk
    have hnd := nodup_stack (before ++ k :: since)
    rw [hstack] at hnd ⊢
    have habove : k ∉ above := fun h => (List.nodup_append.mp hnd).2.2 k h k (by simp) rfl
    rw [← hlen, List.take_append]
    constructor
    · intro h
      rcases List.mem_append.mp h with h | h
      · exact absurd (List.mem_of_mem_take h) habove
      · by_contra hle
        rw [Nat.sub_eq_zero_of_le (by omega), List.take_zero] at h
        simp at h
    · intro hlt
      obtain ⟨m, hm⟩ := Nat.exists_eq_add_of_lt hlt
      rw [hm]
      simp [Nat.add_assoc]
  constructor
  · intro h
    have hk : k ∈ trace := mem_stack.mp (List.mem_of_mem_take h)
    -- the last request for the key is the first one of the reversed trace
    obtain ⟨since, before, hrev, hsince⟩ := List.eq_append_cons_of_mem (List.mem_reverse.mpr hk)
    obtain rfl : trace = before.reverse ++ k :: since.reverse := by
      rw [← List.reverse_reverse trace, hrev]
      simp
    have hsince' : k ∉ since.reverse := fun h => hsince (List.mem_reverse.mp h)
    exact ⟨_, _, rfl, hsince', (hdepth _ _ hsince').mp h⟩
  · rintro ⟨before, since, rfl, hsince, hlt⟩
    exact (hdepth before since hsince).mpr hlt

theorem take_filter_of_mem (hl : l.Nodup) (hk : k ∈ l.take (n + 1)) :
    (l.filter (· ≠ k)).take n = (l.take (n + 1)).filter (· ≠ k) := by
  induction l generalizing n with
  | nil => simp
  | cons a l ih =>
    obtain ⟨ha, hl⟩ := List.nodup_cons.mp hl
    by_cases hak : a = k
    · have hkeep : ∀ b ∈ l, decide (b ≠ k) = true := fun b hb =>
        decide_eq_true fun hbk => ha (by rw [hak, ← hbk]; exact hb)
      rw [List.take_succ_cons, List.filter_cons_of_neg (by simp [hak]),
        List.filter_cons_of_neg (by simp [hak]), List.filter_eq_self.mpr hkeep,
        List.filter_eq_self.mpr fun b hb => hkeep b (List.mem_of_mem_take hb)]
    · rw [List.take_succ_cons, List.mem_cons] at hk
      have hk' : k ∈ l.take n := hk.resolve_left (Ne.symm hak)
      obtain ⟨m, rfl⟩ : ∃ m, n = m + 1 := by
        refine Nat.exists_eq_succ_of_ne_zero ?_
        rintro rfl
        simp at hk'
      rw [List.take_succ_cons, List.filter_cons_of_pos (by simpa using hak),
        List.filter_cons_of_pos (by simpa using hak), List.take_succ_cons, ih hl hk']

theorem take_filter_of_notMem (hk : k ∉ l.take n) : (l.filter (· ≠ k)).take n = l.take n := by
  induction l generalizing n with
  | nil => simp
  | cons a l ih =>
    cases n with
    | zero => simp
    | succ n =>
      rw [List.take_succ_cons, List.mem_cons, not_or] at hk
      rw [List.filter_cons_of_pos (by simpa using Ne.symm hk.1), List.take_succ_cons,
        List.take_succ_cons, ih hk.2]

/-- What is kept of a list follows the key that comes to its front: the others move
down, and the last one kept makes place if the key was not kept before. -/
theorem take_touch (hl : l.Nodup) (n : ℕ) (k : κ) :
    (touch l k).take (n + 1) =
      if k ∈ l.take (n + 1) then touch (l.take (n + 1)) k else k :: l.take n := by
  rw [touch, List.take_succ_cons]
  split_ifs with hk
  · rw [take_filter_of_mem hl hk, touch]
  · have hk' : k ∉ l.take n := fun h => hk (List.take_subset_take_left l (Nat.le_succ n) h)
    rw [take_filter_of_notMem hk']

end Stack

/-! ### Windows -/

section Window

variable {α : Type*} {l : List α} {a : α} {n : ℕ}

theorem rtake_eq_drop (l : List α) (n : ℕ) : l.rtake n = l.drop (l.length - n) := rfl

/-- A window one place shorter. -/
theorem rtake_eq_of_succ (l : List α) (n : ℕ) :
    l.rtake n = if n + 1 ≤ (l.rtake (n + 1)).length then (l.rtake (n + 1)).tail
      else l.rtake (n + 1) := by
  simp only [rtake_eq_drop, List.length_drop, List.tail_drop]
  split_ifs with hlen
  · exact congrArg (l.drop ·) (by omega)
  · exact congrArg (l.drop ·) (by omega)

/-- What is in a window is near the end. -/
theorem mem_rtake_iff :
    a ∈ l.rtake n ↔ ∃ before since, l = before ++ a :: since ∧ since.length < n := by
  rw [rtake_eq_drop]
  constructor
  · intro ha
    obtain ⟨before, since, hsplit⟩ := List.append_of_mem ha
    refine ⟨l.take (l.length - n) ++ before, since, ?_, ?_⟩
    · rw [List.append_assoc, ← hsplit, List.take_append_drop]
    · have hlen := congrArg List.length hsplit
      simp only [List.length_drop, List.length_append, List.length_cons] at hlen
      omega
  · rintro ⟨before, since, rfl, hlen⟩
    have hle : (before ++ a :: since).length - n ≤ before.length := by
      simp only [List.length_append, List.length_cons]
      omega
    rw [List.drop_append_of_le_length hle]
    exact List.mem_append_right _ List.mem_cons_self

end Window

/-! ### Shortest prefixes -/

section Shortest

variable {κ : Type*} (w w' : κ → ℕ)

/-- The total weight of a list. -/
def weight (l : List κ) : ℕ := (l.map w).sum

/-- The shortest prefix whose weight reaches `d`, or the whole list. -/
def shortest : ℕ → List κ → List κ
  | _, [] => []
  | d, k :: l => if d = 0 then [] else k :: shortest (d - w k) l

@[simp] theorem weight_nil : weight w [] = 0 := rfl

@[simp] theorem weight_cons (k : κ) (l : List κ) : weight w (k :: l) = w k + weight w l := by
  simp [weight]

@[simp] theorem shortest_nil (d : ℕ) : shortest w d [] = [] := by
  cases d <;> rfl

@[simp] theorem shortest_zero (l : List κ) : shortest w 0 l = [] := by
  cases l <;> simp [shortest]

theorem shortest_cons_of_pos {d : ℕ} (hd : 0 < d) (k : κ) (l : List κ) :
    shortest w d (k :: l) = k :: shortest w (d - w k) l := by
  rw [shortest, if_neg (by omega)]

variable {w w'} {d : ℕ} {k : κ} {l p : List κ}

theorem isPrefix_shortest (d : ℕ) (l : List κ) : shortest w d l <+: l := by
  induction l generalizing d with
  | nil => simp
  | cons k l ih =>
    rcases Nat.eq_zero_or_pos d with rfl | hd
    · simp
    · rw [shortest_cons_of_pos w hd, List.prefix_cons_inj]
      exact ih _

theorem mem_of_mem_shortest (hk : k ∈ shortest w d l) : k ∈ l :=
  (isPrefix_shortest d l).subset hk

/-- The prefix reaches the bound when the list does. -/
theorem le_weight_shortest (hd : d ≤ weight w l) : d ≤ weight w (shortest w d l) := by
  induction l generalizing d with
  | nil => simpa using hd
  | cons k l ih =>
    rcases Nat.eq_zero_or_pos d with rfl | hpos
    · simp
    · rw [weight_cons] at hd
      have := ih (d := d - w k) (by omega)
      rw [shortest_cons_of_pos w hpos, weight_cons]
      omega

/-- A list that does not reach the bound is taken whole. -/
theorem shortest_eq_self (hd : weight w l < d) : shortest w d l = l := by
  induction l generalizing d with
  | nil => simp
  | cons k l ih =>
    rw [weight_cons] at hd
    rw [shortest_cons_of_pos w (by omega), ih (by omega)]

theorem le_weight_shortest_iff : d ≤ weight w (shortest w d l) ↔ d ≤ weight w l := by
  refine ⟨fun h => ?_, le_weight_shortest⟩
  by_contra hlt
  rw [shortest_eq_self (by omega)] at h
  exact hlt h

/-- **The prefix is the shortest one**: no proper prefix of it reaches the
bound. -/
theorem weight_lt_of_prefix_shortest (hp : p <+: shortest w d l) (hne : p ≠ shortest w d l) :
    weight w p < d := by
  induction l generalizing d p with
  | nil =>
    rw [shortest_nil] at hp hne
    exact absurd (List.prefix_nil.mp hp) hne
  | cons k l ih =>
    rcases Nat.eq_zero_or_pos d with rfl | hpos
    · rw [shortest_zero] at hp hne
      exact absurd (List.prefix_nil.mp hp) hne
    · rw [shortest_cons_of_pos w hpos] at hp hne
      rcases p with _ | ⟨a, p⟩
      · simpa using hpos
      · obtain ⟨rfl, hp'⟩ := List.cons_prefix_cons.mp hp
        have := ih hp' fun heq => hne (by rw [heq])
        rw [weight_cons]
        omega

theorem weight_congr (h : ∀ k ∈ l, w k = w' k) : weight w l = weight w' l := by
  rw [weight, weight, List.map_congr_left h]

theorem shortest_congr (h : ∀ k ∈ l, w k = w' k) (d : ℕ) : shortest w d l = shortest w' d l := by
  induction l generalizing d with
  | nil => simp
  | cons k l ih =>
    have hl : ∀ a ∈ l, w a = w' a := fun a ha => h a (by simp [ha])
    rw [shortest, shortest, h k (by simp), ih hl]

end Shortest

end Recency
