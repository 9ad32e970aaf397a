import Mathlib.Data.Finset.Card
import Mathlib.Data.Finset.Lattice.Lemmas
import Mathlib.Data.List.Induction
import Mathlib.Tactic.Ring

/-!
# Paging, and what it can cost at most

A cache of a given size serves a trace of keys. `Paging.Serves` says that it can be done
with a given number of misses, by whatever choice of the keys to keep, with the whole
trace known in advance if need be.

A history of hits and misses is *conservative* at size `c` (`Paging.Conservative`) if no
stretch of it over at most `c` distinct keys has more than `c` misses. Then it is never
far from the best: cut the trace where the distinct keys of a stretch come to be more
than `c`. A stretch costs at most `c` misses, and from the second key of one to the first
of the next any cache of size `h` has to bring in `c + 1 - h` keys
(`Paging.Conservative.length_missed_mul_le`).

A history is conservative if between two misses of a key there are always more than `c`
distinct keys, itself included (`Paging.Conservative.of_spaced`).
-/

namespace Paging

variable {κ : Type*} {k : κ} {hist before stretch : List (κ × Bool)}

/-! ### Misses -/

/-- The keys that missed, in order. -/
def missed (hist : List (κ × Bool)) : List κ := (hist.filter fun e => !e.2).map Prod.fst

@[simp] theorem missed_nil : missed ([] : List (κ × Bool)) = [] := rfl

theorem missed_append (hist hist' : List (κ × Bool)) :
    missed (hist ++ hist') = missed hist ++ missed hist' := by simp [missed]

theorem missed_snoc_hit (hist : List (κ × Bool)) (k : κ) :
    missed (hist ++ [(k, true)]) = missed hist := by simp [missed]

theorem missed_snoc_miss (hist : List (κ × Bool)) (k : κ) :
    missed (hist ++ [(k, false)]) = missed hist ++ [k] := by simp [missed]

theorem mem_missed : k ∈ missed hist ↔ (k, false) ∈ hist := by simp [missed]

theorem mem_keys_of_mem_missed (hk : k ∈ missed hist) : k ∈ hist.map Prod.fst :=
  List.mem_map.mpr ⟨(k, false), mem_missed.mp hk, rfl⟩

/-- The last occurrence of an element. -/
theorem exists_last {α : Type*} {a : α} {l : List α} (ha : a ∈ l) :
    ∃ before since, l = before ++ a :: since ∧ a ∉ since := by
  obtain ⟨since, before, hrev, hsince⟩ := List.eq_append_cons_of_mem (List.mem_reverse.mpr ha)
  refine ⟨before.reverse, since.reverse, ?_, fun hmem => hsince (List.mem_reverse.mp hmem)⟩
  rw [← List.reverse_reverse l, hrev]
  simp

variable [DecidableEq κ] {c h n : ℕ} {C : Finset κ} {trace t : List κ}

/-! ### Schedules -/

/-- A cache of size `h` can serve the trace with `n` misses, starting from these
contents: after each request it has the key that was requested, and otherwise keys it had
before. -/
inductive Serves (h : ℕ) : Finset κ → List κ → ℕ → Prop
  | nil (C : Finset κ) : Serves h C [] 0
  | hit {C C' : Finset κ} {k : κ} {trace : List κ} {n : ℕ} (hk : k ∈ C) (hkeep : k ∈ C')
      (hsub : C' ⊆ C) (hroom : C'.card ≤ h) (rest : Serves h C' trace n) :
      Serves h C (k :: trace) n
  | miss {C C' : Finset κ} {k : κ} {trace : List κ} {n : ℕ} (hk : k ∉ C) (hkeep : k ∈ C')
      (hsub : C' ⊆ insert k C) (hroom : C'.card ≤ h) (rest : Serves h C' trace n) :
      Serves h C (k :: trace) (n + 1)

/-- What is not there to begin with has to be brought in. -/
theorem Serves.card_sdiff_le (hs : Serves h C t n) : (t.toFinset \ C).card ≤ n := by
  induction hs with
  | nil C => simp
  | @hit C C' k trace n hk hkeep hsub hroom rest ih =>
    refine (Finset.card_le_card fun x hx => ?_).trans ih
    simp only [List.toFinset_cons, Finset.mem_sdiff, Finset.mem_insert] at hx ⊢
    obtain ⟨rfl | hx, hnot⟩ := hx
    · exact absurd hk hnot
    · exact ⟨hx, fun hmem => hnot (hsub hmem)⟩
  | @miss C C' k trace n hk hkeep hsub hroom rest ih =>
    have hle : ((k :: trace).toFinset \ C).card ≤ (insert k (trace.toFinset \ C')).card := by
      refine Finset.card_le_card fun x hx => ?_
      simp only [List.toFinset_cons, Finset.mem_sdiff, Finset.mem_insert] at hx ⊢
      obtain ⟨rfl | hx, hnot⟩ := hx
      · exact .inl rfl
      · rcases eq_or_ne x k with rfl | hne
        · exact .inl rfl
        · refine .inr ⟨hx, fun hmem => ?_⟩
          rcases Finset.mem_insert.mp (hsub hmem) with heq | hmem
          · exact hne heq
          · exact hnot hmem
    exact (hle.trans (Finset.card_insert_le _ _)).trans (Nat.succ_le_succ ih)

/-- The misses up to a request, and those after it. -/
theorem Serves.split {t' : List κ} (hs : Serves h C (t ++ k :: t') n) :
    ∃ C' n₁ n₂, n = n₁ + n₂ ∧ Serves h C (t ++ [k]) n₁ ∧ k ∈ C' ∧ C'.card ≤ h ∧
      Serves h C' t' n₂ := by
  induction t generalizing C n with
  | nil =>
    cases hs with
    | @hit _ C' _ _ n hk hkeep hsub hroom rest =>
      exact ⟨C', 0, n, by omega, .hit hk hkeep hsub hroom (.nil C'), hkeep, hroom, rest⟩
    | @miss _ C' _ _ n hk hkeep hsub hroom rest =>
      exact ⟨C', 1, n, by omega, .miss hk hkeep hsub hroom (.nil C'), hkeep, hroom, rest⟩
  | cons a t ih =>
    cases hs with
    | hit hk hkeep hsub hroom rest =>
      obtain ⟨C', n₁, n₂, rfl, hfirst, hmem, hcard, hlast⟩ := ih rest
      exact ⟨C', n₁, n₂, rfl, .hit hk hkeep hsub hroom hfirst, hmem, hcard, hlast⟩
    | miss hk hkeep hsub hroom rest =>
      obtain ⟨C', n₁, n₂, rfl, hfirst, hmem, hcard, hlast⟩ := ih rest
      exact ⟨C', n₁ + 1, n₂, by omega, .miss hk hkeep hsub hroom hfirst, hmem, hcard, hlast⟩

/-! ### Conservative histories -/

/-- The number of distinct keys of a stretch. -/
def distinct (stretch : List (κ × Bool)) : ℕ := (stretch.map Prod.fst).toFinset.card

theorem distinct_le_of_subset {stretch' : List (κ × Bool)} (hsub : stretch ⊆ stretch') :
    distinct stretch ≤ distinct stretch' := by
  refine Finset.card_le_card fun x hx => ?_
  obtain ⟨e, he, rfl⟩ := List.mem_map.mp (List.mem_toFinset.mp hx)
  exact List.mem_toFinset.mpr (List.mem_map_of_mem (hsub he))

/-- A stretch of the history over at most `c` distinct keys has at most `c` misses. -/
def Conservative (c : ℕ) (hist : List (κ × Bool)) : Prop :=
  ∀ stretch, stretch <:+: hist → distinct stretch ≤ c → (missed stretch).length ≤ c

/-- When a key misses again, and no key missed twice in between, there were more than `c`
distinct keys in between, itself included. -/
def Spaced (c : ℕ) (hist : List (κ × Bool)) : Prop :=
  ∀ before k between, before ++ (k, false) :: (between ++ [(k, false)]) <+: hist →
    (missed between).Nodup → k ∉ missed between → c < distinct ((k, false) :: between)

theorem Spaced.nodup_missed (hs : Spaced c hist) (hpre : before ++ stretch <+: hist)
    (hle : distinct stretch ≤ c) : (missed stretch).Nodup := by
  induction stretch using List.reverseRecOn with
  | nil => exact List.nodup_nil
  | append_singleton stretch e ih =>
    obtain ⟨k, hit⟩ := e
    have hpre' : before ++ stretch <+: hist := by
      refine List.IsPrefix.trans ?_ hpre
      rw [← List.append_assoc]
      exact List.prefix_append _ _
    have hnd := ih hpre' ((distinct_le_of_subset (List.subset_append_left _ _)).trans hle)
    cases hit with
    | true => rwa [missed_snoc_hit]
    | false =>
      rw [missed_snoc_miss, ← List.concat_eq_append, List.nodup_concat]
      refine ⟨fun hk => ?_, hnd⟩
      -- the closest miss of the key before this one
      obtain ⟨first, between, rfl, hbetween⟩ := exists_last (mem_missed.mp hk)
      have hlt : c < distinct ((k, false) :: between) := by
        refine hs (before ++ first) k between (by simpa using hpre) ?_ fun hmem =>
          hbetween (mem_missed.mp hmem)
        rw [show first ++ (k, false) :: between = (first ++ [(k, false)]) ++ between by simp,
          missed_append] at hnd
        exact (List.nodup_append.mp hnd).2.1
      refine absurd hle (Nat.not_le.mpr (hlt.trans_le (distinct_le_of_subset ?_)))
      exact fun e he => List.mem_append_left _ (List.mem_append_right _ he)

theorem Conservative.of_spaced (hs : Spaced c hist) : Conservative c hist := by
  rintro stretch ⟨before, after, rfl⟩ hle
  have hnd := hs.nodup_missed (List.prefix_append _ _) hle
  refine le_trans ?_ hle
  rw [← List.toFinset_card_of_nodup hnd]
  refine Finset.card_le_card fun x hx => ?_
  exact List.mem_toFinset.mpr (mem_keys_of_mem_missed (List.mem_toFinset.mp hx))

/-- The first stretch: what follows its first request, up to the request that brings the
distinct keys above `c`, if there is one. -/
theorem exists_stretch (c : ℕ) (e : κ × Bool) (rest : List (κ × Bool)) (hc : 1 ≤ c) :
    distinct (e :: rest) ≤ c ∨ ∃ stretch e' rest', rest = stretch ++ e' :: rest' ∧
      distinct (e :: stretch) ≤ c ∧ c < distinct (e :: (stretch ++ [e'])) := by
  induction rest using List.reverseRecOn with
  | nil =>
    refine .inl ?_
    simpa [distinct] using hc
  | append_singleton rest e' ih =>
    rcases ih with hle | ⟨stretch, e₁, rest', rfl, hle, hlt⟩
    · by_cases hle' : distinct (e :: (rest ++ [e'])) ≤ c
      · exact .inl hle'
      · exact .inr ⟨rest, e', [], rfl, hle, Nat.not_le.mp hle'⟩
    · exact .inr ⟨stretch, e₁, rest' ++ [e'], by simp, hle, hlt⟩

/-- **What a stretch costs, and what it costs any other cache.** -/
theorem Conservative.length_missed_mul_le (hcons : Conservative c hist) (hle : h ≤ c)
    {e : κ × Bool} {rest : List (κ × Bool)} (hsuf : e :: rest <:+ hist) (he : e.1 ∈ C)
    (hC : C.card ≤ h) (hs : Serves h C (rest.map Prod.fst) n) :
    (missed (e :: rest)).length * (c + 1 - h) ≤ c * (c + 1 - h + n) := by
  have hpos : 1 ≤ c := (Finset.card_pos.mpr ⟨e.1, he⟩).trans_le (hC.trans hle)
  induction hlen : rest.length using Nat.strong_induction_on generalizing e rest C n with
  | _ len ih =>
    rcases exists_stretch c e rest hpos with hone | ⟨stretch, e', rest', rfl, hfits, hover⟩
    · have hmiss := hcons _ hsuf.isInfix hone
      exact Nat.mul_le_mul hmiss (Nat.le_add_right _ _)
    · rw [List.map_append, List.map_cons] at hs
      obtain ⟨C', n₁, n₂, rfl, hfirst, he', hC', hlast⟩ := hs.split
      have hsuf' : e' :: rest' <:+ hist := by
        refine List.IsSuffix.trans ?_ hsuf
        exact ⟨e :: stretch, by simp⟩
      -- the requests after the first of this stretch, up to the first of the next
      have hpay : c + 1 - h ≤ n₁ := by
        have hcost := hfirst.card_sdiff_le
        have hsub : ((e :: (stretch ++ [e'])).map Prod.fst).toFinset \ C ⊆
            (stretch.map Prod.fst ++ [e'.1]).toFinset \ C := by
          intro x hx
          simp only [List.map_cons, List.toFinset_cons, Finset.mem_sdiff, Finset.mem_insert,
            List.map_append, List.map_nil] at hx ⊢
          obtain ⟨rfl | hx, hnot⟩ := hx
          · exact absurd he hnot
          · exact ⟨hx, hnot⟩
        have hcard := (Finset.le_card_sdiff C _).trans (Finset.card_le_card hsub)
        rw [distinct] at hover
        omega
      have hmiss : (missed (e :: stretch)).length ≤ c := by
        refine hcons _ ?_ hfits
        refine List.IsInfix.trans ⟨[], e' :: rest', ?_⟩ hsuf.isInfix
        simp
      have hlt : rest'.length < len := by
        rw [← hlen, List.length_append, List.length_cons]
        omega
      have hrest := ih rest'.length hlt hsuf' he' hC' hlast rfl
      rw [show e :: (stretch ++ e' :: rest') = (e :: stretch) ++ e' :: rest' by simp,
        missed_append, List.length_append]
      calc ((missed (e :: stretch)).length + (missed (e' :: rest')).length) * (c + 1 - h)
          = (missed (e :: stretch)).length * (c + 1 - h) +
              (missed (e' :: rest')).length * (c + 1 - h) := Nat.add_mul _ _ _
        _ ≤ c * (c + 1 - h) + c * (c + 1 - h + n₂) :=
            Nat.add_le_add (Nat.mul_le_mul_right _ hmiss) hrest
        _ ≤ c * n₁ + c * (c + 1 - h + n₂) :=
            Nat.add_le_add_right (Nat.mul_le_mul_left c hpay) _
        _ = c * (c + 1 - h + (n₁ + n₂)) := by ring

/-- **A conservative history against any schedule**, both from an empty cache. -/
theorem Conservative.against (hcons : Conservative c hist) (hle : h ≤ c)
    (hs : Serves h ∅ (hist.map Prod.fst) n) :
    (c + 1 - h) * (missed hist).length ≤ c * (n + (c - h)) := by
  rcases hist with _ | ⟨e, rest⟩
  · simp
  · cases hs with
    | hit hk => simp at hk
    | @miss _ C' _ _ n hk hkeep hsub hroom hrest =>
      have hbound := hcons.length_missed_mul_le hle List.suffix_rfl hkeep hroom hrest
      rw [Nat.mul_comm]
      refine hbound.trans (Nat.mul_le_mul_left c ?_)
      omega

end Paging
