import PagedCacheServer.Benchmark.Bookkeeping

/-!
# The hand of the clock

`evict_clock` loops until it has found an entry whose reference bit is clear, and
reads `clock_buffer[clock_hand]` in each iteration without checking the index. Over
every run the loop ends within two rounds, whatever the keys, and every index is
within the buffer (`PagedCacheServer.BenchmarkCache.sweep_after`).

The empty string is a key like any other and also the mark of a free slot. An entry
under it may have no slot of its own, when another key has taken its slot for a
free one. That cannot keep the loop from ending: as long as another key is resident
the hand comes to its slot, and when none is, every slot is free, and reads as the
empty string.
-/

namespace PagedCacheServer

namespace BenchmarkCache

variable {s s' t : BenchmarkCache} {n : ℕ}

/-- The caches at the head of each iteration the loop of `evict_clock` makes, of at
most `n`. -/
def clockHeads : ℕ → BenchmarkCache → List BenchmarkCache
  | 0, _ => []
  | n + 1, s =>
    let currentKey := s.clockBuffer.getD s.clockHand []
    s :: match s.cacheMap.lookup currentKey with
      | some entry =>
        if entry.referenceBit = false then []
        else clockHeads n
          (s.modifyEntry currentKey fun e => { e with referenceBit := false }).advanceHand
      | none => clockHeads n s.advanceHand

/-- A loop that has ended makes no further iteration. -/
theorem clockHeads_of_ended (h : clockLoop n s = some s') (k : ℕ) :
    clockHeads (n + k) s = clockHeads n s := by
  induction n generalizing s with
  | zero => simp [clockLoop] at h
  | succ n ih =>
    rw [Nat.add_right_comm, clockHeads, clockHeads]
    rw [clockLoop] at h
    rcases he : s.cacheMap.lookup (s.clockBuffer.getD s.clockHand []) with _ | entry
    · simp only [he] at h ⊢
      rw [ih h]
    · simp only [he] at h ⊢
      split_ifs at h ⊢ with hbit
      · rfl
      · rw [ih h]

/-- The hand never leaves the buffer. -/
theorem hand_lt_of_mem_clockHeads (hhand : s.clockHand < s.clockBuffer.length)
    (ht : t ∈ clockHeads n s) : t.clockHand < t.clockBuffer.length := by
  induction n generalizing s with
  | zero => simp [clockHeads] at ht
  | succ n ih =>
    have hpos : 0 < s.clockBuffer.length := by omega
    rw [clockHeads] at ht
    rcases List.mem_cons.mp ht with rfl | ht
    · exact hhand
    · split at ht
      · split_ifs at ht
        · simp at ht
        · exact ih (s := (s.modifyEntry _ _).advanceHand) (Nat.mod_lt _ hpos) ht
      · exact ih (s := s.advanceHand) (Nat.mod_lt _ hpos) ht

theorem length_clockHeads_le (n : ℕ) (s : BenchmarkCache) : (clockHeads n s).length ≤ n := by
  induction n generalizing s with
  | zero => simp [clockHeads]
  | succ n ih =>
    rw [clockHeads, List.length_cons]
    refine Nat.succ_le_succ ?_
    split
    · split_ifs
      · exact Nat.zero_le n
      · exact ih _
    · exact ih _

/-- **How the sweep ends**: within two rounds, with one entry less in the map, and
without an access out of bounds. -/
structure SweepEnds (s : BenchmarkCache) : Prop where
  ends : ∃ s' v, clockLoop (2 * s.clockBuffer.length) s = some s' ∧ s.evictClock = s' ∧
    Removes s s' v ∧ s'.getCurrentSize + 1 = s.getCurrentSize
  inBounds : ∀ n, ∀ t ∈ clockHeads n s, t.clockHand < t.clockBuffer.length
  /-- There is no iteration after the first `2 * clock_buffer.size()`. -/
  iterations : ∀ n, (clockHeads n s).length ≤ 2 * s.clockBuffer.length

theorem ClockBooks.sweepEnds (h : s.ClockBooks) (hslots : s.clockBuffer ≠ [])
    (hmap : s.cacheMap.keys ≠ []) : s.SweepEnds := by
  have hpos : 0 < s.clockBuffer.length := List.length_pos_of_ne_nil hslots
  have hhand : s.clockHand < s.clockBuffer.length := by
    have := h.hand
    omega
  obtain ⟨s', hs'⟩ := Option.isSome_iff_exists.mp (h.clockLoop_ends hslots hmap)
  obtain ⟨hrem, -, -⟩ := clockLoop_removes hhand hs'
  have hevict : s.evictClock = s' := by rw [evictClock, if_neg hslots, hs', Option.getD_some]
  refine ⟨⟨s', _, hs', hevict, hrem, hrem.getCurrentSize⟩,
    fun n t ht => hand_lt_of_mem_clockHeads hhand ht, fun n => ?_⟩
  rcases Nat.le_total n (2 * s.clockBuffer.length) with hle | hge
  · exact Nat.le_trans (length_clockHeads_le n s) hle
  · obtain ⟨k, rfl⟩ := Nat.exists_eq_add_of_le hge
    rw [clockHeads_of_ended hs']
    exact length_clockHeads_le _ s

/-- **The sweep of CLOCK ends, in every reachable cache** that has a slot. -/
theorem sweep_after (capacity : ℕ) (calls : List Call) :
    let s := StepMachine.after BenchmarkCache.step (fresh capacity .clock) calls
    s.clockBuffer ≠ [] → s.SweepEnds := by
  intro s hslots
  have hsettled : s.Settled := settled_after capacity .clock calls
  have hpolicy : s.policy = .clock := (kept_after capacity .clock calls).policy_eq
  have hbooks := (books_of_clock hpolicy).mp hsettled.books
  exact hbooks.sweepEnds hslots fun hnil => hslots ((hsettled.slots hpolicy).mpr hnil)

/-- Two entries, and one slot: the second key has taken the slot of the empty
string for a free one. -/
theorem sweep_empty_key :
    let calls : List Call := [.put [] (lit "x"), .put (lit "a") (lit "y")]
    let s := StepMachine.after BenchmarkCache.step (fresh 2 .clock) calls
    s.clockBuffer = [lit "a"] ∧ [] ∈ s.cacheMap ∧ s.SweepEnds := by
  intro calls s
  have hbuffer : s.clockBuffer = [lit "a"] := by decide
  have hmem : [] ∈ s.cacheMap := by decide
  exact ⟨hbuffer, hmem, sweep_after 2 calls (by rw [hbuffer]; exact List.cons_ne_nil _ _)⟩

end BenchmarkCache

end PagedCacheServer
