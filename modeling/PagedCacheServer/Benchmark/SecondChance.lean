import PagedCacheServer.Benchmark.Clock
import PagedCacheServer.Library.Chances

/-!
# CLOCK and second chance

The sweep of `evict_clock` returns without moving the hand past the slot it has
emptied, and the new key is put there. In a second-chance queue the new key would be
the last one to be examined; here it is the first, and its bit is cleared by the next
sweep although nobody had a chance to use it. The next time it is its turn, it is
evicted where second chance would have spared it
(`PagedCacheServer.BenchmarkCache.clock_differs`).

This is all that can go wrong. As long as it is never the turn of a key that came in
for another one and was not hit since the next eviction, CLOCK evicts the same keys in
the same order as the second-chance queue
(`PagedCacheServer.BenchmarkCache.clock_second_chance`).
-/

namespace PagedCacheServer

namespace BenchmarkCache

open BitQueue (Watch)

variable {s : BenchmarkCache} {call : Call} {calls : List Call} {w : Watch Bytes}
  {r : List (Bytes × Bool)}

/-- **Without any condition** CLOCK is the queue in which a replacing key joins the
front. -/
theorem clock_follows_front (capacity : ℕ) (hcap : 1 ≤ capacity)
    (hkeys : ∀ call ∈ calls, call.key ≠ []) :
    StepMachine.history watch (fresh capacity .clock) calls =
      StepMachine.history (follow BitQueue.frontChance capacity) [] calls := by
  have hstart : SameRing (fresh capacity .clock) [] :=
    ⟨settled_fresh capacity .clock, rfl, by simp [fresh], AList.notMem_empty _, fun _ => rfl, rfl⟩
  exact refines_clock.history_eq (settled_fresh capacity .clock) hcap hstart hkeys

/-- One call, with the account of the keys that came in for another one. -/
def account (x : BenchmarkCache × Watch Bytes) (call : Call) :
    Unit × (BenchmarkCache × Watch Bytes) :=
  ((), (x.1.step call).2, x.2.next x.1.maxCapacity x.1.clockQueue call.brings call.key)

/-- If the call evicts, it is not the turn of a key that came in for another one and was
not hit since the next eviction, or there is no other key. -/
def FairCall (x : BenchmarkCache × Watch Bytes) (call : Call) : Prop :=
  BitQueue.Fair x.2 x.1.maxCapacity x.1.clockQueue call.brings call.key

/-- The cache next to the second-chance queue. -/
structure Spared (s : BenchmarkCache) (w : Watch Bytes) (r : List (Bytes × Bool)) : Prop where
  ring : SameRing s s.clockQueue
  related : BitQueue.Related s.maxCapacity w s.clockQueue r

/-- **One call** whose eviction is fair. -/
theorem Spared.step (h : Spared s w r) (hcap : 1 ≤ s.maxCapacity) (hkey : call.key ≠ [])
    (hfair : FairCall (s, w) call) :
    (s.watch call).1 = (follow BitQueue.secondChance s.maxCapacity r call).1 ∧
      Spared (s.step call).2 (account (s, w) call).2.2
        (follow BitQueue.secondChance s.maxCapacity r call).2 := by
  obtain ⟨hsame, hring⟩ := refines_clock.step h.ring.settled hcap h.ring hkey
  obtain ⟨hsame', hrel⟩ := h.related.access hcap hfair
  have hring' : SameRing (s.step call).2
      (BitQueue.frontChance.access s.maxCapacity s.clockQueue call.brings call.key).2 := hring
  have hqueue := hring'.queue
  refine ⟨hsame.trans hsame', ?_, ?_⟩
  · rw [← hqueue]
    exact hring'
  · rw [(frame_step s call).1, ← hqueue]
    exact hrel

/-- **CLOCK is second chance as long as every eviction is fair**: for every capacity
from 1 on and every run over keys that are not empty, each call finds its key or not,
and evicts, as in the second-chance queue. -/
theorem clock_second_chance (capacity : ℕ) (hcap : 1 ≤ capacity) (calls : List Call)
    (hkeys : ∀ call ∈ calls, call.key ≠ [])
    (hfair : StepMachine.Admits account FairCall (fresh capacity .clock, ⟨none, []⟩) calls) :
    StepMachine.history watch (fresh capacity .clock) calls =
      StepMachine.history (follow BitQueue.secondChance capacity) [] calls := by
  suffices h : ∀ (calls : List Call) (s : BenchmarkCache) (w : Watch Bytes)
      (r : List (Bytes × Bool)), Spared s w r → s.maxCapacity = capacity →
      (∀ call ∈ calls, call.key ≠ []) → StepMachine.Admits account FairCall (s, w) calls →
      StepMachine.history watch s calls =
        StepMachine.history (follow BitQueue.secondChance capacity) r calls by
    refine h calls (fresh capacity .clock) ⟨none, []⟩ [] ⟨?_, ?_⟩ rfl hkeys hfair
    · exact ⟨settled_fresh capacity .clock, rfl, by simp [fresh], AList.notMem_empty _,
        fun _ => rfl, rfl⟩
    · exact ⟨List.nodup_nil, by simp, by simp [BitQueue.Watch.suspects], rfl⟩
  clear hkeys hfair
  intro calls
  induction calls with
  | nil => exact fun _ _ _ _ _ _ _ => rfl
  | cons call calls ih =>
    rintro s w r h rfl hkeys ⟨hfair, hrest⟩
    rw [List.forall_mem_cons] at hkeys
    obtain ⟨hsame, h'⟩ := h.step hcap hkeys.1 hfair
    rw [StepMachine.history_cons, StepMachine.history_cons, hsame]
    refine congrArg (_ :: ·) ?_
    exact ih _ _ _ h' (frame_step s call).1 hkeys.2 hrest

/-- Four puts into two slots: the key that came in last is spared by both. -/
theorem clock_second_chance_four_puts :
    let calls : List Call := [.put (lit "a") [], .put (lit "b") [], .put (lit "c") [],
      .put (lit "d") []]
    StepMachine.history watch (fresh 2 .clock) calls =
      StepMachine.history (follow BitQueue.secondChance 2) [] calls := by
  intro calls
  have hkeys : ∀ call ∈ calls, call.key ≠ [] := by decide
  have hfair : StepMachine.Admits account FairCall (fresh 2 .clock, ⟨none, []⟩) calls := by
    refine ⟨?_, ?_, ?_, ?_, trivial⟩ <;> unfold FairCall BitQueue.Fair <;> decide
  exact clock_second_chance 2 (by decide) calls hkeys hfair

/-- **CLOCK does not give every key its second chance**: `c` comes in for `a` and is
examined before `b`, which has been hit, so `d` evicts `c` where second chance evicts
`b`. -/
theorem clock_differs :
    ¬∀ (capacity : ℕ), 1 ≤ capacity → ∀ calls : List Call, (∀ call ∈ calls, call.key ≠ []) →
      (StepMachine.history watch (fresh capacity .clock) calls).map (fun e => e.2.2) =
        (StepMachine.history (follow BitQueue.secondChance capacity) [] calls).map
          (fun e => e.2.2) := by
  intro h
  have hsame := h 2 (by decide) [.put (lit "a") [], .put (lit "b") [], .put (lit "c") [],
    .get (lit "b"), .put (lit "d") []] (by decide)
  revert hsame
  decide

end BenchmarkCache

end PagedCacheServer
