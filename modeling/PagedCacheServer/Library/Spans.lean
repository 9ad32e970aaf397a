import Mathlib.Data.List.Pairwise
import Mathlib.Data.List.Range
import Mathlib.Data.Set.Card
import Mathlib.Tactic.Ring

/-!
# Lists of spans

A *span* is a block of consecutive naturals, given by where it starts and how
many there are; `β` is any type of blocks and `lo`, `sz` read the two numbers
off a block. A list of spans describes the set of the naturals it covers, and
this file is about the one description of a set that is worth keeping: the list
of its maximal runs, in increasing order.

* `Spans.Separated` – the blocks are non-empty, increasing and do not overlap,
  but may touch;
* `Spans.Canonical` – they do not even touch;
* `Spans.Canonical.eq_of_covers` – **a set has one canonical description**;
* `Spans.Canonical.isMaxRun_iff` – its blocks are the maximal runs of the set.

The members of a description, in order, are `Spans.points`; for a separated list
they are strictly increasing, so that `Spans.points` is the sorted enumeration of
the set.
-/

namespace Spans

variable {β : Type*} (lo sz : β → ℕ)

/-- The list covers `i`. -/
def Covers (l : List β) (i : ℕ) : Prop := ∃ b ∈ l, lo b ≤ i ∧ i < lo b + sz b

/-- The naturals a list covers, block by block. -/
def points (l : List β) : List ℕ := l.flatMap fun b => List.range' (lo b) (sz b)

/-- Non-empty blocks, increasing and disjoint; two of them may touch. -/
structure Separated (l : List β) : Prop where
  pos : ∀ b ∈ l, 0 < sz b
  apart : l.Pairwise fun a b => lo a + sz a ≤ lo b

/-- Non-empty blocks, increasing, with a gap between any two of them. -/
structure Canonical (l : List β) : Prop where
  pos : ∀ b ∈ l, 0 < sz b
  apart : l.Pairwise fun a b => lo a + sz a < lo b

/-- A maximal run of a set of naturals: `n` members from `a` on, and no member
just before or just after them. -/
def IsMaxRun (P : ℕ → Prop) (a n : ℕ) : Prop :=
  0 < n ∧ (∀ i, a ≤ i → i < a + n → P i) ∧ ¬P (a + n) ∧ ∀ j, j + 1 = a → ¬P j

variable {lo sz} {l l' : List β} {b c : β} {i : ℕ}

/-! ### Membership -/

@[simp] theorem not_covers_nil : ¬Covers lo sz ([] : List β) i := by
  rintro ⟨b, hb, -⟩
  simp at hb

@[simp] theorem covers_cons :
    Covers lo sz (b :: l) i ↔ (lo b ≤ i ∧ i < lo b + sz b) ∨ Covers lo sz l i := by
  simp [Covers]

@[simp] theorem covers_append :
    Covers lo sz (l ++ l') i ↔ Covers lo sz l i ∨ Covers lo sz l' i := by
  simp only [Covers, List.mem_append, or_and_right, exists_or]

theorem mem_points : i ∈ points lo sz l ↔ Covers lo sz l i := by
  simp [points, Covers, List.mem_range'_1]

@[simp] theorem points_nil : points lo sz ([] : List β) = [] := rfl

@[simp] theorem points_cons :
    points lo sz (b :: l) = List.range' (lo b) (sz b) ++ points lo sz l := rfl

theorem length_points : (points lo sz l).length = (l.map sz).sum := by
  induction l with
  | nil => rfl
  | cons b l ih => simp [ih]

/-! ### Taking a list apart -/

theorem canonical_nil : Canonical lo sz ([] : List β) := ⟨by simp, List.Pairwise.nil⟩

theorem canonical_cons :
    Canonical lo sz (b :: l) ↔
      0 < sz b ∧ (∀ c ∈ l, lo b + sz b < lo c) ∧ Canonical lo sz l := by
  constructor
  · rintro ⟨hpos, hap⟩
    rw [List.pairwise_cons] at hap
    exact ⟨hpos b (by simp), hap.1, fun c hc => hpos c (by simp [hc]), hap.2⟩
  · rintro ⟨hb, hbl, hpos, hap⟩
    refine ⟨fun c hc => ?_, List.pairwise_cons.mpr ⟨hbl, hap⟩⟩
    rcases List.mem_cons.mp hc with rfl | hc
    · exact hb
    · exact hpos c hc

theorem separated_nil : Separated lo sz ([] : List β) := ⟨by simp, List.Pairwise.nil⟩

theorem separated_cons :
    Separated lo sz (b :: l) ↔
      0 < sz b ∧ (∀ c ∈ l, lo b + sz b ≤ lo c) ∧ Separated lo sz l := by
  constructor
  · rintro ⟨hpos, hap⟩
    rw [List.pairwise_cons] at hap
    exact ⟨hpos b (by simp), hap.1, fun c hc => hpos c (by simp [hc]), hap.2⟩
  · rintro ⟨hb, hbl, hpos, hap⟩
    refine ⟨fun c hc => ?_, List.pairwise_cons.mpr ⟨hbl, hap⟩⟩
    rcases List.mem_cons.mp hc with rfl | hc
    · exact hb
    · exact hpos c hc

theorem Canonical.separated (h : Canonical lo sz l) : Separated lo sz l :=
  ⟨h.pos, h.apart.imp fun hab => hab.le⟩

theorem canonical_append :
    Canonical lo sz (l ++ l') ↔
      Canonical lo sz l ∧ Canonical lo sz l' ∧ ∀ b ∈ l, ∀ c ∈ l', lo b + sz b < lo c := by
  constructor
  · rintro ⟨hpos, hap⟩
    obtain ⟨hl, hl', hcross⟩ := List.pairwise_append.mp hap
    refine ⟨⟨fun b hb => ?_, hl⟩, ⟨fun b hb => ?_, hl'⟩, hcross⟩
    · exact hpos b (List.mem_append_left _ hb)
    · exact hpos b (List.mem_append_right _ hb)
  · rintro ⟨⟨hpos, hl⟩, ⟨hpos', hl'⟩, hcross⟩
    refine ⟨fun b hb => ?_, List.pairwise_append.mpr ⟨hl, hl', hcross⟩⟩
    rcases List.mem_append.mp hb with hb | hb
    · exact hpos b hb
    · exact hpos' b hb

/-- A block may be replaced by blocks inside it. -/
theorem Canonical.replace {r : List β} (h : Canonical lo sz (l ++ b :: l'))
    (hr : Canonical lo sz r) (hin : ∀ c ∈ r, lo b ≤ lo c ∧ lo c + sz c ≤ lo b + sz b) :
    Canonical lo sz (l ++ (r ++ l')) := by
  obtain ⟨hl, hbl, hcross⟩ := canonical_append.mp h
  obtain ⟨-, hafter, hl'⟩ := canonical_cons.mp hbl
  refine canonical_append.mpr ⟨hl, canonical_append.mpr ⟨hr, hl', ?_⟩, ?_⟩
  · intro c hc d hd
    have hcb := (hin c hc).2
    have hbd := hafter d hd
    omega
  · intro a ha c hc
    rcases List.mem_append.mp hc with hc | hc
    · have hab := hcross a ha b (by simp)
      have hbc := (hin c hc).1
      omega
    · exact hcross a ha c (by simp [hc])

/-- Nothing a list covers lies below a bound of its starts. -/
theorem Covers.le_of_forall {n : ℕ} (h : Covers lo sz l i) (hn : ∀ c ∈ l, n ≤ lo c) : n ≤ i := by
  obtain ⟨c, hc, hle, -⟩ := h
  exact (hn c hc).trans hle

/-- The points of a separated list are enumerated in increasing order. -/
theorem Separated.pairwise_points (h : Separated lo sz l) :
    (points lo sz l).Pairwise (· < ·) := by
  induction l with
  | nil => exact List.Pairwise.nil
  | cons b l ih =>
    obtain ⟨-, hbl, hl⟩ := separated_cons.mp h
    refine List.pairwise_append.mpr ⟨List.pairwise_lt_range', ih hl, fun i hi j hj => ?_⟩
    have hij := (mem_points.mp hj).le_of_forall hbl
    have hi' := List.mem_range'_1.mp hi
    omega

theorem Separated.nodup_points (h : Separated lo sz l) : (points lo sz l).Nodup :=
  h.pairwise_points.imp fun hab => hab.ne

/-- Exactly one block of a separated list covers a covered point. -/
theorem Separated.countP_eq_one (h : Separated lo sz l) (hi : Covers lo sz l i) :
    l.countP (fun b => decide (lo b ≤ i ∧ i < lo b + sz b)) = 1 := by
  induction l with
  | nil => simp at hi
  | cons b l ih =>
    obtain ⟨-, hbl, hl⟩ := separated_cons.mp h
    rw [List.countP_cons]
    by_cases hb : lo b ≤ i ∧ i < lo b + sz b
    · -- the later blocks start beyond `i`
      have hzero : l.countP (fun b => decide (lo b ≤ i ∧ i < lo b + sz b)) = 0 := by
        refine List.countP_eq_zero.mpr fun c hc => ?_
        have := hbl c hc
        simp only [decide_eq_true_eq]
        omega
      rw [hzero, if_pos (decide_eq_true hb)]
    · have hil : Covers lo sz l i := (covers_cons.mp hi).resolve_left hb
      rw [ih hl hil, if_neg (by simpa using hb)]

/-! ### Uniqueness -/

/-- In a canonical list the tail covers what lies beyond the head. -/
theorem Canonical.covers_tail_iff (h : Canonical lo sz (b :: l)) :
    Covers lo sz l i ↔ Covers lo sz (b :: l) i ∧ lo b + sz b ≤ i := by
  obtain ⟨-, hbl, -⟩ := canonical_cons.mp h
  rw [covers_cons]
  constructor
  · intro hi
    exact ⟨Or.inr hi, hi.le_of_forall fun c hc => (hbl c hc).le⟩
  · rintro ⟨⟨-, hlt⟩ | hi, hge⟩
    · omega
    · exact hi

/-- A canonical list does not cover the point just after its first block. -/
theorem Canonical.not_covers_end (h : Canonical lo sz (b :: l)) :
    ¬Covers lo sz (b :: l) (lo b + sz b) := by
  obtain ⟨-, hbl, -⟩ := canonical_cons.mp h
  rw [covers_cons]
  rintro (⟨-, hlt⟩ | hi)
  · omega
  · have := hi.le_of_forall (n := lo b + sz b + 1) hbl
    omega

/-- The first block of a canonical list starts at the least covered point. -/
theorem Canonical.head_le (h : Canonical lo sz (b :: l)) (hi : Covers lo sz (b :: l) i) :
    lo b ≤ i := by
  obtain ⟨-, hbl, -⟩ := canonical_cons.mp h
  rcases covers_cons.mp hi with ⟨hle, -⟩ | hi
  · exact hle
  · exact hi.le_of_forall fun c hc => by
      have := hbl c hc
      omega

theorem Canonical.covers_head (h : Canonical lo sz (b :: l)) : Covers lo sz (b :: l) (lo b) := by
  have := (canonical_cons.mp h).1
  exact covers_cons.mpr (Or.inl ⟨le_rfl, by omega⟩)

/-- Of two canonical lists covering the same points, the first block of one is
no longer than that of the other. -/
theorem Canonical.sz_le_of_covers (h' : Canonical lo sz (c :: l'))
    (hc : ∀ i, Covers lo sz (b :: l) i ↔ Covers lo sz (c :: l') i) (hlo : lo b = lo c) :
    sz b ≤ sz c := by
  by_contra hlt
  refine h'.not_covers_end ((hc _).mp (covers_cons.mpr (Or.inl ?_)))
  omega

/-- **A set of naturals has one canonical description.** -/
theorem Canonical.eq_of_covers (hinj : ∀ a b : β, lo a = lo b → sz a = sz b → a = b)
    (h : Canonical lo sz l) (h' : Canonical lo sz l')
    (hc : ∀ i, Covers lo sz l i ↔ Covers lo sz l' i) : l = l' := by
  induction l generalizing l' with
  | nil =>
    cases l' with
    | nil => rfl
    | cons c l' => exact absurd ((hc _).mpr h'.covers_head) not_covers_nil
  | cons b l ih =>
    cases l' with
    | nil => exact absurd ((hc _).mp h.covers_head) not_covers_nil
    | cons c l' =>
      have hlo : lo b = lo c :=
        le_antisymm (h.head_le ((hc _).mpr h'.covers_head)) (h'.head_le ((hc _).mp h.covers_head))
      have hsz : sz b = sz c := le_antisymm (h'.sz_le_of_covers hc hlo)
        (h.sz_le_of_covers (fun i => (hc i).symm) hlo.symm)
      obtain rfl : b = c := hinj b c hlo hsz
      have htail : l = l' := ih (canonical_cons.mp h).2.2 (canonical_cons.mp h').2.2 fun i => by
        rw [h.covers_tail_iff, h'.covers_tail_iff, hc]
      rw [htail]

/-! ### Maximal runs -/

/-- Two blocks of a canonical list are the same or have a gap between them. -/
theorem Canonical.eq_or_apart (h : Canonical lo sz l) (hb : b ∈ l) (hc : c ∈ l) :
    b = c ∨ lo b + sz b < lo c ∨ lo c + sz c < lo b := by
  induction l with
  | nil => simp at hb
  | cons d l ih =>
    obtain ⟨-, hdl, hl⟩ := canonical_cons.mp h
    rcases List.mem_cons.mp hb with rfl | hb' <;> rcases List.mem_cons.mp hc with rfl | hc'
    · exact Or.inl rfl
    · exact Or.inr (Or.inl (hdl c hc'))
    · exact Or.inr (Or.inr (hdl b hb'))
    · exact ih hl hb' hc'

/-- **The blocks of a canonical list are the maximal runs of what it covers.** -/
theorem Canonical.isMaxRun_iff (h : Canonical lo sz l) {a n : ℕ} :
    IsMaxRun (Covers lo sz l) a n ↔ ∃ b ∈ l, lo b = a ∧ sz b = n := by
  -- neither neighbour of a block is covered by another block
  have hend : ∀ b ∈ l, ¬Covers lo sz l (lo b + sz b) := by
    rintro b hb ⟨c, hc, hle, hlt⟩
    rcases h.eq_or_apart hb hc with rfl | hbc | hcb <;> omega
  have hstart : ∀ b ∈ l, ∀ j, j + 1 = lo b → ¬Covers lo sz l j := by
    rintro b hb j hj ⟨c, hc, hle, hlt⟩
    rcases h.eq_or_apart hb hc with rfl | hbc | hcb <;> omega
  constructor
  · rintro ⟨hn, hin, hout, hbefore⟩
    obtain ⟨b, hb, hle, hlt⟩ := hin a le_rfl (by omega)
    have hcov : ∀ i, lo b ≤ i → i < lo b + sz b → Covers lo sz l i := fun i h1 h2 =>
      ⟨b, hb, h1, h2⟩
    have hlo : lo b = a := by
      by_contra hne
      exact hbefore (a - 1) (by omega) (hcov _ (by omega) (by omega))
    refine ⟨b, hb, hlo, le_antisymm ?_ ?_⟩
    · by_contra hgt
      exact hout (hcov _ (by omega) (by omega))
    · by_contra hgt
      exact hend b hb (hin _ (by omega) (by omega))
  · rintro ⟨b, hb, rfl, rfl⟩
    exact ⟨h.pos b hb, fun i h1 h2 => ⟨b, hb, h1, h2⟩, hend b hb, hstart b hb⟩

/-- A canonical list has as many blocks as the set it covers has maximal
runs. -/
theorem Canonical.ncard_isMaxRun (h : Canonical lo sz l) :
    {r : ℕ × ℕ | IsMaxRun (Covers lo sz l) r.1 r.2}.ncard = l.length := by
  have hset : {r : ℕ × ℕ | IsMaxRun (Covers lo sz l) r.1 r.2} =
      ((l.map fun b => (lo b, sz b)).toFinset : Set (ℕ × ℕ)) := by
    ext ⟨a, n⟩
    rw [Set.mem_ofPred_eq, h.isMaxRun_iff]
    simp
  have hnodup : (l.map fun b => (lo b, sz b)).Nodup := by
    refine List.pairwise_map.mpr (h.apart.imp fun {a b} hab heq => ?_)
    have : lo a = lo b := congrArg Prod.fst heq
    omega
  rw [hset, Set.ncard_coe_finset, List.toFinset_card_of_nodup hnodup, List.length_map]

end Spans
