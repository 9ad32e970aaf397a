import Mathlib.Data.List.GetD
import PagedCacheServer.Benchmark.Books

/-!
# The sweeps of SIEVE and CLOCK

Two of the policies look for the entry to evict. The sweep of SIEVE goes once over
`sieve_order`, and what it leaves is written out here for the two ways it can go
(`PagedCacheServer.BenchmarkCache.evictSieve_of_split`,
`PagedCacheServer.BenchmarkCache.evictSieve_of_all`).

The sweep of CLOCK is a loop without a bound. It ends because some slot names a
resident key: one round of the hand takes it to that slot, and if its bit was set,
one more round takes it to a bit that is clear
(`PagedCacheServer.BenchmarkCache.ClockBooks.clockLoop_ends`).
-/

namespace PagedCacheServer

namespace BenchmarkCache

variable {s s' : BenchmarkCache} {k key v : Bytes} {n : ℕ}
  {f : BenchmarkCacheEntry → BenchmarkCacheEntry}

/-! ### Writing to several entries -/

/-- The same write to several entries. -/
def modifyAll (s : BenchmarkCache) (keys : List Bytes)
    (f : BenchmarkCacheEntry → BenchmarkCacheEntry) : BenchmarkCache :=
  { s with cacheMap := keys.foldl (writeThrough f) s.cacheMap }

theorem lookup_modifyAll (hf : ∀ e, f (f e) = f e) (keys : List Bytes) :
    (s.modifyAll keys f).cacheMap.lookup k =
      if k ∈ keys then (s.cacheMap.lookup k).map f else s.cacheMap.lookup k := by
  induction keys generalizing s with
  | nil => simp [modifyAll]
  | cons key keys ih =>
    have hstep : s.modifyAll (key :: keys) f = (s.modifyEntry key f).modifyAll keys f := rfl
    rw [hstep, ih, lookup_modifyEntry]
    by_cases hk : k = key <;> by_cases hkeys : k ∈ keys <;>
      simp [hk, hkeys, Option.map_map, Function.comp_def, hf]

theorem mem_modifyAll (keys : List Bytes) :
    k ∈ (s.modifyAll keys f).cacheMap ↔ k ∈ s.cacheMap := by
  induction keys generalizing s with
  | nil => rfl
  | cons key keys ih =>
    have hstep : s.modifyAll (key :: keys) f = (s.modifyEntry key f).modifyAll keys f := rfl
    rw [hstep, ih, mem_modifyEntry]

/-! ### Flags -/

/-- A flag of the entry under a key. -/
def flag (bit : BenchmarkCacheEntry → Bool) (s : BenchmarkCache) (key : Bytes) : Bool :=
  ((s.cacheMap.lookup key).map bit).getD false

variable {bit : BenchmarkCacheEntry → Bool} {b : Bool}

theorem exists_of_flag (h : s.flag bit key = true) :
    ∃ e, s.cacheMap.lookup key = some e ∧ bit e = true := by
  rw [flag] at h
  rcases hkey : s.cacheMap.lookup key with _ | e
  · simp [hkey] at h
  · exact ⟨e, rfl, by simpa [hkey] using h⟩

theorem flag_of_lookup {e : BenchmarkCacheEntry} (h : s.cacheMap.lookup key = some e) :
    s.flag bit key = bit e := by
  rw [flag, h, Option.map_some, Option.getD_some]

/-- A write to an entry changes its own flag only. -/
theorem flag_modifyEntry (hf : ∀ e, bit (f e) = b) (hkey : key ∈ s.cacheMap) (k : Bytes) :
    (s.modifyEntry key f).flag bit k = if k = key then b else s.flag bit k := by
  obtain ⟨e, he⟩ := Option.isSome_iff_exists.mp (AList.lookup_isSome.mpr hkey)
  rw [flag, lookup_modifyEntry]
  split_ifs with hk
  · obtain rfl := hk
    rw [he, Option.map_some, Option.map_some, Option.getD_some, hf]
  · rfl

theorem flag_store_of_ne (hk : k ≠ key) (value : Bytes) :
    (s.store key value).flag bit k = s.flag bit k := by
  rw [flag, store, AList.lookup_insert_ne hk, flag]

/-- What is left of the flags when some of them are cleared and an entry goes. -/
theorem flag_erase_modifyAll (hidem : ∀ e, f (f e) = f e) (hf : ∀ e, bit (f e) = false)
    {keys : List Bytes} (hs' : s'.cacheMap = (s.modifyAll keys f).cacheMap.erase v) (hk : k ≠ v) :
    s'.flag bit k = if k ∈ keys then false else s.flag bit k := by
  rw [flag, hs', AList.lookup_erase_ne hk, lookup_modifyAll hidem]
  split_ifs
  · rcases s.cacheMap.lookup k with _ | e
    · rfl
    · rw [Option.map_some, Option.map_some, Option.getD_some, hf]
  · rfl

/-- A sweep stops at the first key whose flag is clear, or finds none. -/
theorem flag_cases (p : Bytes → Bool) (l : List Bytes) :
    (∃ pre v post, l = pre ++ v :: post ∧ (∀ k ∈ pre, p k = true) ∧ p v = false) ∨
      ∀ k ∈ l, p k = true := by
  induction l with
  | nil => exact Or.inr (by simp)
  | cons key rest ih =>
    rcases hkey : p key with _ | _
    · exact Or.inl ⟨[], key, rest, rfl, by simp, hkey⟩
    · rcases ih with ⟨pre, v, post, rfl, hpre, hv⟩ | hall
      · exact Or.inl ⟨key :: pre, v, post, rfl, by simpa [hkey] using hpre, hv⟩
      · exact Or.inr (by simpa [hkey] using hall)

/-! ### The sweep of SIEVE -/

/-- The visited flag under a key. -/
def visited (s : BenchmarkCache) (key : Bytes) : Bool := s.flag BenchmarkCacheEntry.visited key

/-- The visited flag cleared. -/
def unvisit (e : BenchmarkCacheEntry) : BenchmarkCacheEntry := { e with visited := false }

theorem unvisit_unvisit (e : BenchmarkCacheEntry) : unvisit (unvisit e) = unvisit e := rfl

theorem visited_unvisit (e : BenchmarkCacheEntry) : (unvisit e).visited = false := rfl

/-- The loop passes over the visited keys and clears their flags. -/
theorem sieveLoop_pass {passed pre rest : List Bytes} (hnd : pre.Nodup)
    (hpre : ∀ k ∈ pre, s.visited k = true) :
    sieveLoop passed (pre ++ rest) s =
      sieveLoop (passed ++ pre) rest (s.modifyAll pre unvisit) := by
  induction pre generalizing passed s with
  | nil => simp [modifyAll]
  | cons key pre ih =>
    obtain ⟨hkey, hnd⟩ := List.nodup_cons.mp hnd
    obtain ⟨e, he, hvis⟩ := exists_of_flag (hpre key (by simp))
    have hpre' : ∀ k ∈ pre, (s.modifyEntry key unvisit).visited k = true := by
      intro k hk
      have hne : k ≠ key := fun h => hkey (h ▸ hk)
      have hmem := AList.lookup_isSome.mp (Option.isSome_of_eq_some he)
      rw [visited, flag_modifyEntry visited_unvisit hmem, if_neg hne]
      exact hpre k (by simp [hk])
    have hloop : sieveLoop passed (key :: pre ++ rest) s =
        sieveLoop (passed ++ [key]) (pre ++ rest) (s.modifyEntry key unvisit) := by
      rw [List.cons_append, sieveLoop, he]
      simp only [hvis, Bool.true_eq_false, if_false]
      rfl
    rw [hloop, ih hnd hpre', List.append_assoc]
    rfl

/-- **The sweep finds a key that is not visited**: it evicts the first one. -/
theorem evictSieve_of_split {pre post : List Bytes} (h : Keeps s.sieveOrder s.cacheMap)
    (horder : s.sieveOrder = pre ++ v :: post) (hpre : ∀ k ∈ pre, s.visited k = true)
    (hv : s.visited v = false) :
    s.evictSieve = { s.modifyAll pre unvisit with
      sieveOrder := pre ++ post, cacheMap := (s.modifyAll pre unvisit).cacheMap.erase v } := by
  have hnd := h.nodup
  rw [horder] at hnd
  have hvpre : v ∉ pre := fun hmem =>
    (List.nodup_append.mp hnd).2.2 v hmem v (by simp) rfl
  obtain ⟨e, he⟩ := Option.isSome_iff_exists.mp
    (AList.lookup_isSome.mpr ((h.mem_iff v).mp (by simp [horder])))
  have hlook : (s.modifyAll pre unvisit).cacheMap.lookup v = some e := by
    rw [lookup_modifyAll unvisit_unvisit, if_neg hvpre, he]
  have hvis : e.visited = false := (flag_of_lookup he).symm.trans hv
  have hloop : sieveLoop [] s.sieveOrder s = (true, { s.modifyAll pre unvisit with
      sieveOrder := pre ++ post, cacheMap := (s.modifyAll pre unvisit).cacheMap.erase v }) := by
    rw [horder, sieveLoop_pass (List.nodup_append.mp hnd).1 hpre, sieveLoop, hlook]
    simp [hvis]
  rw [evictSieve, hloop]
  rfl

/-- **Every key is visited**: all flags are cleared, and the oldest key goes. -/
theorem evictSieve_of_all {rest : List Bytes} (h : Keeps s.sieveOrder s.cacheMap)
    (horder : s.sieveOrder = v :: rest) (hall : ∀ k ∈ s.sieveOrder, s.visited k = true) :
    s.evictSieve = { s.modifyAll s.sieveOrder unvisit with
      sieveOrder := rest
      cacheMap := (s.modifyAll s.sieveOrder unvisit).cacheMap.erase v } := by
  have hloop : sieveLoop [] s.sieveOrder s = (false, s.modifyAll s.sieveOrder unvisit) := by
    have hpass : sieveLoop [] (s.sieveOrder ++ []) s =
        sieveLoop ([] ++ s.sieveOrder) [] (s.modifyAll s.sieveOrder unvisit) :=
      sieveLoop_pass h.nodup hall
    rw [List.append_nil] at hpass
    rw [hpass, sieveLoop]
  rw [evictSieve, hloop]
  simp only [Bool.false_eq_true, if_false, modifyAll]
  rw [horder]

/-- Whether the loop of `evict_sieve` comes to its inconsistent state, a key of
`sieve_order` that is not in `cache_map`. -/
def sieveInconsistent : List Bytes → BenchmarkCache → Bool
  | [], _ => false
  | key :: rest, s =>
    match s.cacheMap.lookup key with
    | some entry =>
      if entry.visited = false then false
      else sieveInconsistent rest (s.modifyEntry key fun e => { e with visited := false })
    | none => true

theorem sieveInconsistent_eq_false {l : List Bytes} (h : ∀ k ∈ l, k ∈ s.cacheMap) :
    sieveInconsistent l s = false := by
  induction l generalizing s with
  | nil => rfl
  | cons key rest ih =>
    obtain ⟨e, he⟩ := Option.isSome_iff_exists.mp (AList.lookup_isSome.mpr (h key (by simp)))
    rw [sieveInconsistent, he]
    dsimp only
    split_ifs
    · rfl
    · exact ih fun k hk => mem_modifyEntry.mpr (h k (by simp [hk]))

/-! ### The sweep of CLOCK -/

/-- The slot the hand comes to after `i` moves. -/
def slot (s : BenchmarkCache) (i : ℕ) : Bytes :=
  s.clockBuffer.getD ((s.clockHand + i) % s.clockBuffer.length) []

/-- The entry under the key is there, and its reference bit is clear. -/
def Evictable (s : BenchmarkCache) (key : Bytes) : Prop :=
  ∃ e, s.cacheMap.lookup key = some e ∧ e.referenceBit = false

theorem slot_zero (h : s.clockHand < s.clockBuffer.length) :
    s.slot 0 = s.clockBuffer.getD s.clockHand [] := by
  rw [slot, Nat.add_zero, Nat.mod_eq_of_lt h]

theorem slot_advanceHand (s : BenchmarkCache) (i : ℕ) : s.advanceHand.slot i = s.slot (i + 1) := by
  simp only [slot, advanceHand, Nat.mod_add_mod]
  congr 2
  omega

theorem slot_length (s : BenchmarkCache) : s.slot s.clockBuffer.length = s.slot 0 := by
  simp [slot]

theorem advanceHand_lt (h : 0 < s.clockBuffer.length) :
    s.advanceHand.clockHand < s.advanceHand.clockBuffer.length := Nat.mod_lt _ h

/-- The reference bit cleared. -/
def unreference (e : BenchmarkCacheEntry) : BenchmarkCacheEntry := { e with referenceBit := false }

/-- One iteration of the loop of `evict_clock`. -/
theorem clockLoop_succ (hhand : s.clockHand < s.clockBuffer.length) :
    clockLoop (n + 1) s =
      match s.cacheMap.lookup (s.slot 0) with
      | some e =>
        if e.referenceBit = false then
          some { s with
            cacheMap := s.cacheMap.erase (s.slot 0)
            clockBuffer := s.clockBuffer.set s.clockHand [] }
        else clockLoop n (s.modifyEntry (s.slot 0) unreference).advanceHand
      | none => clockLoop n s.advanceHand := by
  rw [clockLoop, slot_zero hhand]
  rfl

/-- The loop ends when the hand comes to an entry with a clear bit. -/
theorem clockLoop_isSome_of_evictable {i : ℕ} (hhand : s.clockHand < s.clockBuffer.length)
    (hi : i < n) (h : s.Evictable (s.slot i)) : (clockLoop n s).isSome := by
  induction i generalizing s n with
  | zero =>
    obtain ⟨m, rfl⟩ := Nat.exists_eq_succ_of_ne_zero (by omega : n ≠ 0)
    obtain ⟨e, he, hbit⟩ := h
    rw [clockLoop_succ hhand, he]
    simp [hbit]
  | succ i ih =>
    obtain ⟨m, rfl⟩ := Nat.exists_eq_succ_of_ne_zero (by omega : n ≠ 0)
    rw [clockLoop_succ hhand]
    split
    · split_ifs
      · rfl
      · refine ih (advanceHand_lt (by simp only [modifyEntry]; omega)) (by omega) ?_
        -- a bit that is clear stays clear, whichever one was cleared
        obtain ⟨e, he, hbit⟩ := h
        rw [slot_advanceHand]
        change Evictable _ (s.slot (i + 1))
        by_cases hkey : s.slot (i + 1) = s.slot 0
        · refine ⟨unreference e, ?_, rfl⟩
          simp only [advanceHand, lookup_modifyEntry, if_pos hkey, he, Option.map_some]
        · refine ⟨e, ?_, hbit⟩
          simp only [advanceHand, lookup_modifyEntry, if_neg hkey, he]
    · refine ih (advanceHand_lt (by omega)) (by omega) ?_
      rw [slot_advanceHand]
      exact h

/-- A bit the loop has cleared is found clear one round later. -/
theorem clockLoop_isSome_of_cleared (hhand : s.clockHand < s.clockBuffer.length)
    (hn : s.clockBuffer.length ≤ n) (h : s.slot 0 ∈ s.cacheMap) :
    (clockLoop n (s.modifyEntry (s.slot 0) unreference).advanceHand).isSome := by
  obtain ⟨e, he⟩ := Option.isSome_iff_exists.mp (AList.lookup_isSome.mpr h)
  refine clockLoop_isSome_of_evictable (i := s.clockBuffer.length - 1)
    (advanceHand_lt (by simp only [modifyEntry]; omega)) (by omega) ?_
  have hround : (s.modifyEntry (s.slot 0) unreference).slot (s.clockBuffer.length - 1 + 1) =
      s.slot 0 := by
    rw [Nat.sub_add_cancel (by omega)]
    exact slot_length s
  rw [slot_advanceHand, hround]
  refine ⟨unreference e, ?_, rfl⟩
  simp only [advanceHand, lookup_modifyEntry, if_true, he, Option.map_some]

/-- **The loop ends**: one round takes the hand to an entry, one more to a clear
bit. -/
theorem clockLoop_isSome {i : ℕ} (hhand : s.clockHand < s.clockBuffer.length)
    (hi : i + 1 + s.clockBuffer.length ≤ n) (h : s.slot i ∈ s.cacheMap) :
    (clockLoop n s).isSome := by
  induction i generalizing s n with
  | zero =>
    obtain ⟨m, rfl⟩ := Nat.exists_eq_succ_of_ne_zero (by omega : n ≠ 0)
    obtain ⟨e, he⟩ := Option.isSome_iff_exists.mp (AList.lookup_isSome.mpr h)
    rw [clockLoop_succ hhand, he]
    dsimp only
    split_ifs
    · rfl
    · exact clockLoop_isSome_of_cleared hhand (by omega) h
  | succ i ih =>
    obtain ⟨m, rfl⟩ := Nat.exists_eq_succ_of_ne_zero (by omega : n ≠ 0)
    rw [clockLoop_succ hhand]
    split
    · next e he =>
      split_ifs
      · rfl
      · exact clockLoop_isSome_of_cleared hhand (by omega)
          (AList.lookup_isSome.mp (Option.isSome_of_eq_some he))
    · refine ih (advanceHand_lt (by omega)) ?_ ?_
      · simp only [advanceHand]
        omega
      · rw [slot_advanceHand]
        exact h

/-- When the loop ends, the key under the hand is gone, from its slot and from the
map. -/
theorem clockLoop_removes (hhand : s.clockHand < s.clockBuffer.length)
    (h : clockLoop n s = some s') :
    Removes s s' (s.clockBuffer.getD s'.clockHand []) ∧
      s'.clockHand < s.clockBuffer.length ∧
      s'.clockBuffer = s.clockBuffer.set s'.clockHand [] := by
  induction n generalizing s with
  | zero => simp [clockLoop] at h
  | succ n ih =>
    have hlt := advanceHand_lt (s := s) (by omega)
    rw [clockLoop_succ hhand] at h
    split at h
    · next e he =>
      have hmem : s.slot 0 ∈ s.cacheMap := AList.lookup_isSome.mp (Option.isSome_of_eq_some he)
      split_ifs at h
      · obtain rfl := Option.some.inj h
        rw [slot_zero hhand] at hmem ⊢
        exact ⟨⟨hmem, fun k => AList.mem_erase⟩, hhand, rfl⟩
      · obtain ⟨hrem, hlt', hbuf⟩ :=
          ih (s := (s.modifyEntry (s.slot 0) unreference).advanceHand) hlt h
        refine ⟨⟨mem_modifyEntry.mp hrem.resident, fun k => ?_⟩, hlt', hbuf⟩
        exact (hrem.mem_iff k).trans (and_congr_right fun _ => mem_modifyEntry)
    · obtain ⟨hrem, hlt', hbuf⟩ := ih (s := s.advanceHand) hlt h
      exact ⟨⟨hrem.resident, hrem.mem_iff⟩, hlt', hbuf⟩

theorem ClockBooks.exists_slot (h : s.ClockBooks) (hslots : s.clockBuffer ≠ [])
    (hmap : s.cacheMap.keys ≠ []) : ∃ i < s.clockBuffer.length, s.slot i ∈ s.cacheMap := by
  have hpos : 0 < s.clockBuffer.length := List.length_pos_of_ne_nil hslots
  have hhand := h.hand
  by_cases hkey : ∃ k ≠ [], k ∈ s.cacheMap
  · obtain ⟨k, hne, hk⟩ := hkey
    have hmem : k ∈ s.clockBuffer := by
      rw [← List.count_pos_iff, h.count k hne, if_pos hk]
      exact Nat.one_pos
    obtain ⟨j, hj, rfl⟩ := List.mem_iff_getElem.mp hmem
    -- the slot `j` is ahead of the hand, or comes after the end of the buffer
    refine ⟨(j + s.clockBuffer.length - s.clockHand) % s.clockBuffer.length, Nat.mod_lt _ hpos, ?_⟩
    have hpos' : (s.clockHand + (j + s.clockBuffer.length - s.clockHand) % s.clockBuffer.length) %
        s.clockBuffer.length = j := by
      rw [Nat.add_mod_mod, Nat.add_sub_cancel' (by omega), Nat.add_mod_right, Nat.mod_eq_of_lt hj]
    rw [slot, hpos', List.getD_eq_getElem _ _ hj]
    exact hk
  · -- only the empty string is resident, and every slot holds it
    push Not at hkey
    obtain ⟨k, hk⟩ := List.exists_mem_of_ne_nil _ hmap
    obtain rfl : k = [] := by
      by_contra hne
      exact hkey k hne hk
    refine ⟨0, hpos, ?_⟩
    have hslot : s.slot 0 = [] := by
      by_contra hne
      have hcount := h.count _ hne
      rw [if_neg (hkey _ hne), List.count_eq_zero, slot_zero (by omega)] at hcount
      apply hcount
      rw [List.getD_eq_getElem _ _ (by omega)]
      exact List.getElem_mem _
    rw [hslot]
    exact hk

/-- **Two rounds are enough** for the loop of `evict_clock`. -/
theorem ClockBooks.clockLoop_ends (h : s.ClockBooks) (hslots : s.clockBuffer ≠ [])
    (hmap : s.cacheMap.keys ≠ []) : (clockLoop (2 * s.clockBuffer.length) s).isSome := by
  have hpos : 0 < s.clockBuffer.length := List.length_pos_of_ne_nil hslots
  have hhand := h.hand
  obtain ⟨i, hi, hmem⟩ := h.exists_slot hslots hmap
  exact clockLoop_isSome (by omega) (by omega) hmem

end BenchmarkCache

end PagedCacheServer
