import Mathlib.Data.List.Nodup
import PagedCacheServer.Library.BitQueue

/-!
# When the front is as good as the back

A replacing key joins the back of a second-chance queue and the front of the queue of
`BitQueue.frontChance`. There it is the first one the next sweep examines, so its bit
is cleared at once and it is at the back after all, but without its bit: the two
queues hold the same keys in the same order, and differ in the bits of the keys that
came in for another one and were not hit since the next sweep.

`BitQueue.Watch` keeps account of these keys, and `BitQueue.Fair` says that it is not
the turn of one of them. Under this condition the two queues show the same at every
access (`BitQueue.Related.access`).
-/

namespace BitQueue

variable {κ : Type*} [DecidableEq κ]

/-! ### The account -/

/-- The key that came in for another one last, and those that did before it and were
not hit since the next replacement. -/
structure Watch (κ : Type*) where
  newest : Option κ
  early : List κ
deriving DecidableEq

namespace Watch

/-- All of them. -/
def suspects (w : Watch κ) : List κ := w.newest.toList ++ w.early

/-- The account after an access. -/
def next (w : Watch κ) (capacity : ℕ) (q : List (κ × Bool)) (brings : Bool) (k : κ) : Watch κ :=
  if k ∈ q.map Prod.fst then ⟨w.newest, w.early.filter (· ≠ k)⟩
  else if brings = false then w
  else if q.length < capacity then ⟨w.newest, w.early.filter (· ≠ k)⟩
  else ⟨some k, w.suspects.filter (· ≠ k)⟩

end Watch

/-- The key whose turn it is: the first one whose bit is clear, or the front key if all
bits are set. -/
def turn (q : List (κ × Bool)) : Option κ := ((q.find? fun x => !x.2).or q.head?).map Prod.fst

/-- If the access replaces a key, it is not the turn of a suspect, or there is no other
key. -/
def Fair (w : Watch κ) (capacity : ℕ) (q : List (κ × Bool)) (brings : Bool) (k : κ) : Prop :=
  k ∉ q.map Prod.fst → brings = true → capacity ≤ q.length →
    q.length = 1 ∨ ∀ v ∈ turn q, v ∉ w.suspects

/-! ### Bits that are late -/

/-- The bits of the keys in `late` are set, whatever they were. -/
def lag (late : List κ) (q : List (κ × Bool)) : List (κ × Bool) :=
  q.map fun x => (x.1, x.2 || decide (x.1 ∈ late))

variable {late late' : List κ} {q q' r : List (κ × Bool)} {k : κ} {x : κ × Bool}

theorem map_fst_lag (late : List κ) (q : List (κ × Bool)) :
    (lag late q).map Prod.fst = q.map Prod.fst := by
  simp [lag, Function.comp_def]

@[simp] theorem lag_append (late : List κ) (q q' : List (κ × Bool)) :
    lag late (q ++ q') = lag late q ++ lag late q' := List.map_append

theorem length_lag (late : List κ) (q : List (κ × Bool)) : (lag late q).length = q.length :=
  List.length_map _

theorem lag_congr (h : ∀ x ∈ q, (x.1 ∈ late ↔ x.1 ∈ late')) : lag late q = lag late' q := by
  refine List.map_congr_left fun x hx => ?_
  simp only [h x hx]

/-- No key of the queue is late. -/
theorem lag_eq_self (h : ∀ x ∈ q, x.1 ∉ late) : lag late q = q := by
  refine (List.map_congr_left fun x hx => ?_).trans (List.map_id q)
  simp [h x hx]

theorem mem_mark_of_ne (hx : x.1 ≠ k) : x ∈ mark q k ↔ x ∈ q := by
  rw [mark, List.mem_map]
  constructor
  · rintro ⟨y, hy, heq⟩
    split_ifs at heq with hyk
    · rw [← heq] at hx
      exact absurd hyk hx
    · exact heq ▸ hy
  · intro h
    exact ⟨x, h, if_neg hx⟩

theorem mark_eq_self (h : k ∉ q.map Prod.fst) : mark q k = q := by
  refine (List.map_congr_left fun x hx => ?_).trans (List.map_id q)
  have hne : x.1 ≠ k := fun heq => h (heq ▸ List.mem_map_of_mem hx)
  rw [if_neg hne, id]

/-- A hit on a late key is a hit. -/
theorem mark_lag (hk : ∀ x ∈ q, x.1 ≠ k → (x.1 ∈ late ↔ x.1 ∈ late')) :
    lag late' (mark q k) = mark (lag late q) k := by
  rw [lag, mark, mark, lag, List.map_map, List.map_map]
  refine List.map_congr_left fun x hx => ?_
  by_cases hxk : x.1 = k
  · simp [hxk]
  · simp [hxk, hk x hx hxk]

theorem lag_mark_of_mem (hk : k ∈ late) : lag late (mark q k) = lag late q := by
  rw [lag, mark, lag, List.map_map]
  refine List.map_congr_left fun x _ => ?_
  by_cases hxk : x.1 = k <;> simp [hxk, hk]

/-! ### The queue the next sweep sees -/

/-- The queue with the newest key where the next sweep takes it first: at the back,
its bit cleared. -/
def due (w : Watch κ) (q : List (κ × Bool)) : List (κ × Bool) :=
  match w.newest with
  | none => q
  | some n => q.tail ++ [(n, false)]

/-- The front queue `q` and the second-chance queue `r` after the same accesses. -/
structure Related (capacity : ℕ) (w : Watch κ) (q r : List (κ × Bool)) : Prop where
  nodup : (q.map Prod.fst).Nodup
  newest : ∀ n, w.newest = some n → capacity ≤ q.length ∧ ∃ rest, q = (n, true) :: rest
  unset : ∀ k ∈ w.suspects, (k, true) ∉ due w q
  lagged : r = lag w.suspects (due w q)

variable {capacity : ℕ} {w : Watch κ}

theorem Related.perm (h : Related capacity w q r) :
    ((due w q).map Prod.fst).Perm (q.map Prod.fst) := by
  rcases hn : w.newest with _ | n
  · simp only [due, hn, List.Perm.refl]
  · obtain ⟨-, rest, rfl⟩ := h.newest n hn
    simp only [due, hn, List.tail_cons, List.map_append, List.map_cons, List.map_nil]
    exact List.perm_append_singleton n _

theorem Related.mem_iff (h : Related capacity w q r) (k : κ) :
    k ∈ r.map Prod.fst ↔ k ∈ q.map Prod.fst := by
  rw [h.lagged, map_fst_lag, h.perm.mem_iff]

theorem Related.length_due (h : Related capacity w q r) : (due w q).length = q.length := by
  have := h.perm.length_eq
  rwa [List.length_map, List.length_map] at this

theorem Related.length (h : Related capacity w q r) : r.length = q.length := by
  rw [h.lagged, length_lag, h.length_due]

omit [DecidableEq κ] in
theorem due_of_none (hn : w.newest = none) : due w q = q := by
  simp only [due, hn]

omit [DecidableEq κ] in
theorem due_of_some {n : κ} {rest : List (κ × Bool)} (hn : w.newest = some n) :
    due w ((n, true) :: rest) = rest ++ [(n, false)] := by
  simp only [due, hn, List.tail_cons]

theorem mem_suspects_filter (hx : x.1 ≠ k) :
    x.1 ∈ w.suspects ↔ x.1 ∈ (⟨w.newest, w.early.filter (· ≠ k)⟩ : Watch κ).suspects := by
  simp [Watch.suspects, hx]

/-- A hit sets the same bit in both. -/
theorem Related.hit (h : Related capacity w q r) (k : κ) :
    Related capacity ⟨w.newest, w.early.filter (· ≠ k)⟩ (mark q k) (mark r k) := by
  have hmark : mark r k =
      lag (⟨w.newest, w.early.filter (· ≠ k)⟩ : Watch κ).suspects (mark (due w q) k) := by
    rw [h.lagged]
    exact (mark_lag fun x _ hx => mem_suspects_filter hx).symm
  have hnodup : ((mark q k).map Prod.fst).Nodup := by
    rw [map_fst_mark]
    exact h.nodup
  rcases hn : w.newest with _ | n
  · rw [hn, due_of_none hn] at hmark
    refine ⟨hnodup, by simp, fun x hx hmem => ?_, hmark⟩
    have hxk : x ≠ k := by
      rintro rfl
      simp [Watch.suspects] at hx
    refine h.unset x (by simp_all [Watch.suspects]) ?_
    rw [due_of_none hn]
    exact (mem_mark_of_ne hxk).mp hmem
  · obtain ⟨hcap, rest, rfl⟩ := h.newest n hn
    have hrest : n ∉ rest.map Prod.fst := (List.nodup_cons.mp h.nodup).1
    rw [hn, due_of_some hn] at hmark
    by_cases hk : n = k
    · -- the newest key stays where it is, with its bit set
      obtain rfl := hk
      have hsame : mark ((n, true) :: rest) n = (n, true) :: rest := by
        have := mark_eq_self hrest
        rw [mark] at this ⊢
        rw [List.map_cons, this, if_pos rfl]
      rw [hsame]
      refine ⟨h.nodup, fun m hm => ?_, fun x hx => ?_, ?_⟩
      · obtain rfl := Option.some.inj hm
        exact ⟨hcap, rest, rfl⟩
      · rw [due_of_some rfl, ← due_of_some (w := w) hn]
        refine h.unset x ?_
        simp only [Watch.suspects, hn, Option.toList_some, List.mem_append, List.mem_singleton,
          List.mem_filter] at hx ⊢
        exact hx.imp_right And.left
      · rw [hmark, lag_mark_of_mem (by simp [Watch.suspects]), due_of_some rfl]
    · have hfront : mark ((n, true) :: rest) k = (n, true) :: mark rest k := by
        rw [mark, List.map_cons, if_neg hk, mark]
      have hback : mark (rest ++ [(n, false)]) k = mark rest k ++ [(n, false)] := by
        rw [mark, List.map_append, List.map_singleton, if_neg hk, mark]
      rw [hfront] at hnodup ⊢
      refine ⟨hnodup, fun m hm => ?_, fun x hx hmem => ?_, ?_⟩
      · obtain rfl := Option.some.inj hm
        refine ⟨?_, mark rest k, rfl⟩
        simpa [mark] using hcap
      · have hxk : x ≠ k := by
          rintro rfl
          simp [Watch.suspects, Ne.symm hk] at hx
        rw [due_of_some rfl, ← hback] at hmem
        refine h.unset x (by simp_all [Watch.suspects]) ?_
        rw [due_of_some hn]
        exact (mem_mark_of_ne hxk).mp hmem
      · rw [hmark, hback, due_of_some rfl]

/-- A key that has room joins the back of both. -/
theorem Related.join (h : Related capacity w q r) (hk : k ∉ q.map Prod.fst)
    (hlen : q.length < capacity) :
    Related capacity ⟨w.newest, w.early.filter (· ≠ k)⟩ (q ++ [(k, true)]) (r ++ [(k, true)]) := by
  rcases hn : w.newest with _ | n
  swap
  · have := (h.newest n hn).1
    omega
  have hsus : ∀ x ∈ q, (x.1 ∈ w.suspects ↔
      x.1 ∈ (⟨none, w.early.filter (· ≠ k)⟩ : Watch κ).suspects) := by
    intro x hx
    have hxk : x.1 ≠ k := fun heq => hk (heq ▸ List.mem_map_of_mem hx)
    rw [← hn]
    exact mem_suspects_filter hxk
  refine ⟨?_, by simp, fun x hx hmem => ?_, ?_⟩
  · rw [List.map_append, List.map_singleton]
    have hconcat := h.nodup.concat hk
    rwa [List.concat_eq_append] at hconcat
  · rw [due_of_none rfl] at hmem
    rcases List.mem_append.mp hmem with hmem | hmem
    · refine h.unset x ((hsus (x, true) hmem).mpr hx) ?_
      rw [due_of_none hn]
      exact hmem
    · obtain rfl : x = k := by simpa using hmem
      simp [Watch.suspects] at hx
  · rw [h.lagged, due_of_none hn, due_of_none rfl, lag_append, lag_congr hsus]
    rfl

/-! ### Replacements -/

omit [DecidableEq κ] in
/-- The sweep of the front queue takes its newest key first. -/
theorem Related.sweep_due [DecidableEq κ] (h : Related capacity w q r) :
    ∃ m, (due w q).length ≤ m ∧ (w.newest = none → (due w q).length + 1 ≤ m ∨ q = []) ∧
      chanceSweep (2 * q.length) q = chanceSweep m (due w q) := by
  rcases hn : w.newest with _ | n
  · rw [due_of_none hn]
    refine ⟨2 * q.length, by omega, fun _ => ?_, rfl⟩
    rcases q with _ | ⟨x, q⟩
    · exact Or.inr rfl
    · rw [List.length_cons]
      exact Or.inl (by omega)
  · obtain ⟨-, rest, rfl⟩ := h.newest n hn
    rw [due_of_some hn]
    refine ⟨2 * rest.length + 1, ?_, by simp, ?_⟩
    · rw [List.length_append, List.length_singleton]
      omega
    · rw [List.length_cons, Nat.mul_succ, chanceSweep]

omit [DecidableEq κ] in
theorem turn_of_split {pre post : List (κ × Bool)} {v : κ} (hpre : ∀ x ∈ pre, x.2 = true) :
    turn (pre ++ (v, false) :: post) = some v := by
  have hnone : pre.find? (fun x => !x.2) = none := by
    rw [List.find?_eq_none]
    simpa using hpre
  rw [turn, List.find?_append, hnone, Option.none_or, List.find?_cons_of_pos (by rfl),
    Option.some_or, Option.map_some]

/-- It is the turn of the key the next sweep stops at. -/
theorem Related.turn_eq (h : Related capacity w q r) {pre post : List (κ × Bool)} {v : κ}
    (hdue : due w q = pre ++ (v, false) :: post) (hpre : ∀ x ∈ pre, x.2 = true) :
    turn q = some v := by
  rcases hn : w.newest with _ | n
  · rw [due_of_none hn] at hdue
    rw [hdue, turn_of_split hpre]
  · obtain ⟨-, rest, rfl⟩ := h.newest n hn
    rw [due_of_some hn] at hdue
    rcases List.eq_nil_or_concat' post with rfl | ⟨init, y, rfl⟩
    · -- all the others have their bits set
      obtain ⟨rfl, hlast⟩ := List.append_inj' hdue rfl
      obtain rfl : n = v := by simpa using hlast
      have hnone : ((n, true) :: rest).find? (fun x => !x.2) = none := by
        rw [List.find?_eq_none]
        simpa using hpre
      rw [turn, hnone, Option.none_or, List.head?_cons, Option.map_some]
    · have hsplit : rest = pre ++ (v, false) :: init := by
        have hdue' : rest ++ [(n, false)] = (pre ++ (v, false) :: init) ++ [y] := by
          rw [hdue]
          simp
        exact (List.append_inj' hdue' rfl).1
      have hset : ∀ x ∈ (n, true) :: pre, x.2 = true := by simpa using hpre
      rw [hsplit, ← List.cons_append, turn_of_split hset]

/-- The two queues after a replacement that left the same keys. -/
theorem related_after {rest : List (κ × Bool)} (hnodup : (rest.map Prod.fst).Nodup)
    (hk : k ∉ rest.map Prod.fst) (hcap : capacity ≤ rest.length + 1)
    (hclear : ∀ x ∈ late, (x, true) ∉ rest) :
    Related capacity ⟨some k, late.filter (· ≠ k)⟩ ((k, true) :: rest)
      (lag late rest ++ [(k, true)]) := by
  have hne : ∀ x ∈ rest, x.1 ≠ k := fun x hx heq => hk (heq ▸ List.mem_map_of_mem hx)
  have hsus : ∀ x ∈ rest, (x.1 ∈ late ↔
      x.1 ∈ (⟨some k, late.filter (· ≠ k)⟩ : Watch κ).suspects) := by
    intro x hx
    simp [Watch.suspects, hne x hx]
  refine ⟨List.nodup_cons.mpr ⟨hk, hnodup⟩, fun n hn => ?_, fun x hx hmem => ?_, ?_⟩
  · obtain rfl := Option.some.inj hn
    exact ⟨hcap, rest, rfl⟩
  · rw [due_of_some rfl] at hmem
    rcases List.mem_append.mp hmem with hmem | hmem
    · exact hclear x ((hsus (x, true) hmem).mpr hx) hmem
    · simp at hmem
  · rw [due_of_some rfl, lag_append, lag_congr hsus]
    simp [lag, Watch.suspects]

/-- A key whose bit is set is no suspect. -/
theorem Related.notMem_suspects {x : κ × Bool} (h : Related capacity w q r) (hx : x ∈ due w q)
    (hbit : x.2 = true) : x.1 ∉ w.suspects := fun hsus => h.unset x.1 hsus (by rwa [← hbit])

/-- The newest key is due without its bit. -/
theorem Related.newest_eq_none (h : Related capacity w q r) (hall : ∀ x ∈ due w q, x.2 = true) :
    w.newest = none := by
  rcases hn : w.newest with _ | n
  · rfl
  · obtain ⟨-, rest, rfl⟩ := h.newest n hn
    rw [due_of_some hn] at hall
    have := hall (n, false) (by simp)
    simp at this

/-- The sweeps stop at the same key, unless it is the turn of a suspect, and leave the
same keys, in the same order. -/
theorem Related.sweeps (h : Related capacity w q r) (hne : q ≠ [])
    (hfair : q.length = 1 ∨ ∀ v ∈ turn q, v ∉ w.suspects) :
    ∃ v rest, chanceSweep (2 * q.length) q = (some v, rest) ∧
      chanceSweep (2 * r.length) r = (some v, lag w.suspects rest) ∧
      (v :: rest.map Prod.fst).Perm (q.map Prod.fst) ∧ ∀ x ∈ w.suspects, (x, true) ∉ rest := by
  obtain ⟨m, hm, hm', hfront⟩ := h.sweep_due
  have hlen := h.length
  have hkeep : ∀ l : List (κ × Bool), (∀ x ∈ l, x ∈ due w q ∧ x.2 = true) →
      lag w.suspects (clear l) = clear l := by
    intro l hl
    refine lag_eq_self fun x hx => ?_
    obtain ⟨y, hy, rfl⟩ := List.mem_map.mp hx
    exact h.notMem_suspects (x := y) (hl y hy).1 (hl y hy).2
  have hcleared : ∀ (l : List (κ × Bool)) (x : κ), (x, true) ∉ clear l := fun l x hx => by
    simp [clear] at hx
  rw [hfront]
  rcases bits_cases (due w q) with ⟨pre, v, post, hdue, hpre⟩ | hall
  · have hlen' := h.length_due
    have hperm := h.perm
    rw [hdue, List.length_append, List.length_cons] at hlen' hm
    rw [hdue, List.map_append, List.map_cons] at hperm
    have hpre' : ∀ x ∈ pre, x ∈ due w q ∧ x.2 = true := fun x hx => ⟨by simp [hdue, hx], hpre x hx⟩
    refine ⟨v, post ++ clear pre, ?_, ?_, ?_, fun x hx hmem => ?_⟩
    · rw [hdue, chanceSweep_of_split hpre (by omega)]
    · have hlag : r = pre ++ (v, decide (v ∈ w.suspects)) :: lag w.suspects post := by
        have hself : lag w.suspects pre = pre :=
          lag_eq_self fun x hx => h.notMem_suspects (hpre' x hx).1 (hpre' x hx).2
        rw [h.lagged, hdue, lag_append, hself]
        simp [lag]
      rw [lag_append, hkeep pre hpre']
      by_cases hv : v ∈ w.suspects
      · -- the only key goes, whatever its bit
        have hone : q.length = 1 :=
          hfair.resolve_right fun hall => hall v (h.turn_eq hdue hpre) hv
        obtain rfl : pre = [] := List.length_eq_zero_iff.mp (by omega)
        obtain rfl : post = [] := List.length_eq_zero_iff.mp (by omega)
        rw [hlag, decide_eq_true hv]
        rfl
      · have hlen'' := congrArg List.length hlag
        rw [List.length_append, List.length_cons] at hlen''
        rw [decide_eq_false hv] at hlag
        rw [hlen'', hlag, chanceSweep_of_split hpre (by omega)]
    · rw [List.map_append, map_fst_clear]
      exact ((List.perm_append_comm.cons v).trans List.perm_middle.symm).trans hperm
    · rcases List.mem_append.mp hmem with hmem | hmem
      · exact h.unset x hx (by simp [hdue, hmem])
      · exact hcleared pre x hmem
  · have hnone := h.newest_eq_none hall
    have hself : lag w.suspects (due w q) = due w q :=
      lag_eq_self fun x hx => h.notMem_suspects hx (hall x hx)
    have hlag := h.lagged
    have hlt := (hm' hnone).resolve_right hne
    rw [hself] at hlag
    rw [due_of_none hnone] at hlag hall hlt hkeep ⊢
    obtain ⟨⟨v, b⟩, rest, rfl⟩ := List.exists_cons_of_ne_nil hne
    rw [List.length_cons] at hlt
    refine ⟨v, clear rest, chanceSweep_of_all hall hlt, ?_, ?_, fun x _ => hcleared rest x⟩
    · rw [hkeep rest fun x hx => ⟨by simp [hx], hall x (by simp [hx])⟩, hlag]
      refine chanceSweep_of_all hall ?_
      rw [List.length_cons]
      omega
    · rw [map_fst_clear, List.map_cons]

/-- **A replacement** takes the same key from both, unless it is the turn of a
suspect. -/
theorem Related.replace (h : Related capacity w q r) (hk : k ∉ q.map Prod.fst)
    (hcap : capacity ≤ q.length) (hne : q ≠ [])
    (hfair : q.length = 1 ∨ ∀ v ∈ turn q, v ∉ w.suspects) :
    (frontChance.replace q k).1 = (secondChance.replace r k).1 ∧
      Related capacity ⟨some k, w.suspects.filter (· ≠ k)⟩ (frontChance.replace q k).2
        (secondChance.replace r k).2 := by
  obtain ⟨v, rest, hfront, hback, hperm, hclear⟩ := h.sweeps hne hfair
  have hnd := hperm.nodup_iff.mpr h.nodup
  have hkr : k ∉ rest.map Prod.fst := fun hmem => hk (hperm.mem_iff.mp (by simp [hmem]))
  have hlen := hperm.length_eq
  rw [List.length_cons, List.length_map, List.length_map] at hlen
  simp only [frontChance, secondChance, hfront, hback]
  exact ⟨trivial, related_after (List.nodup_cons.mp hnd).2 hkr (by omega) hclear⟩

/-- **One access**: the two queues show the same, and stay related. -/
theorem Related.access (h : Related capacity w q r) (hcap : 1 ≤ capacity) {brings : Bool}
    (hfair : Fair w capacity q brings k) :
    (frontChance.access capacity q brings k).1 = (secondChance.access capacity r brings k).1 ∧
      Related capacity (w.next capacity q brings k) (frontChance.access capacity q brings k).2
        (secondChance.access capacity r brings k).2 := by
  have hlen := h.length
  by_cases hk : k ∈ q.map Prod.fst
  · have hk' : k ∈ r.map Prod.fst := (h.mem_iff k).mpr hk
    have hnext : w.next capacity q brings k = ⟨w.newest, w.early.filter (· ≠ k)⟩ := by
      rw [Watch.next, if_pos hk]
    rw [access_of_mem (d := frontChance) hk, access_of_mem (d := secondChance) hk', hnext]
    exact ⟨rfl, h.hit k⟩
  have hk' : k ∉ r.map Prod.fst := fun hmem => hk ((h.mem_iff k).mp hmem)
  rcases hb : brings with _ | _
  · have hnext : w.next capacity q false k = w := by
      rw [Watch.next, if_neg hk, if_pos rfl]
    rw [access_of_notMem (d := frontChance) hk, access_of_notMem (d := secondChance) hk', hnext]
    exact ⟨rfl, h⟩
  by_cases hroom : q.length < capacity
  · have hroom' : r.length < capacity := by omega
    have hnext : w.next capacity q true k = ⟨w.newest, w.early.filter (· ≠ k)⟩ := by
      rw [Watch.next, if_neg hk, if_neg (by simp), if_pos hroom]
    rw [access_of_lt (d := frontChance) hk hroom, access_of_lt (d := secondChance) hk' hroom',
      hnext]
    exact ⟨rfl, h.join hk hroom⟩
  · have hfull : capacity ≤ q.length := by omega
    have hfull' : capacity ≤ r.length := by omega
    have hne : q ≠ [] := List.ne_nil_of_length_pos (by omega)
    have hnext : w.next capacity q true k = ⟨some k, w.suspects.filter (· ≠ k)⟩ := by
      rw [Watch.next, if_neg hk, if_neg (by simp), if_neg hroom]
    obtain ⟨hsame, hrel⟩ := h.replace hk hfull hne (hfair hk hb hfull)
    rw [access_of_le (d := frontChance) hk hfull, access_of_le (d := secondChance) hk' hfull',
      hnext, hsame]
    exact ⟨rfl, hrel⟩

end BitQueue
