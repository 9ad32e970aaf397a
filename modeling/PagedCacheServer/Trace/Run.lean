import PagedCacheServer.Pool.Accounting
import PagedCacheServer.Trace.Requests

/-!
# A benchmark from its first line to the statistics

`run_trace_benchmark` is itself a thread next to the workers: it resets the counters,
submits the requests of the trace one by one, waits until it finds the queue empty, and
after a while prints what the cache has counted. An empty queue does not mean that the
requests are finished. A worker that has taken one may not have made its `get`, and the
pause of half a second before the statistics is all there is to wait for it.

What can be said of the numbers in every schedule is
`PagedCacheServer.BenchmarkRun.statistics`: they are those of the trace, less at most one
request for each worker. The number of requests it reports is an `int`, so this is about
traces of fewer than `2 ^ 31` requests; and the trace ends where the loop over it does, at
its first empty line.
-/

namespace PagedCacheServer

open BenchmarkServer TraceProcessor

/-- Where the thread in `run_trace_benchmark` stands. -/
inductive BenchmarkThread
  /-- About to call `reset_stats`. -/
  | starting (file : TraceFile)
  /-- At `while (processor.has_next())`. -/
  | reading (file : TraceFile)
  /-- In `add_request`, which has found the server running. -/
  | pushing (file : TraceFile)
  /-- In `add_request`, after the push. -/
  | notifying (file : TraceFile)
  /-- In the loop that waits for an empty queue. -/
  | waiting
  /-- After it. -/
  | finished
deriving DecidableEq, Repr

/-- What the thread has still to submit. -/
def BenchmarkThread.rest : BenchmarkThread → List BenchmarkRequest
  | starting file | reading file | pushing file | notifying file => runTraceBenchmark file
  | waiting | finished => []

/-- A server and the thread that runs a benchmark on it. -/
structure BenchmarkRun where
  server : BenchmarkServer
  thread : BenchmarkThread
  /-- `processed_requests`, an `int`. -/
  processedRequests : Int32

namespace BenchmarkRun

/-- A server that was started, and a trace that was opened. -/
def start (capacity : ℕ) (policy : EvictionPolicy) (workers : ℕ) (file : TraceFile) :
    BenchmarkRun where
  server := BenchmarkServer.start (.fresh capacity policy) workers
  thread := .starting file
  processedRequests := 0

/-- The next step of the thread. When it notifies, the notification goes to worker `i`. -/
def threadStep (r : BenchmarkRun) (i : ℕ) : Option BenchmarkRun :=
  match r.thread with
  | .starting file => some { r with server := r.server.resetStats, thread := .reading file }
  | .reading file =>
    if hasNext file then
      let next := getNext file
      if next.1.key = [] ∨ next.1.operation = lit "EOF" then some { r with thread := .waiting }
      else
        match r.server.act (.addRequest ⟨next.1.key, lit "GET"⟩) with
        | some server => some { r with server := server, thread := .pushing next.2 }
        | none =>
          some { r with
            thread := .reading next.2
            processedRequests := r.processedRequests + 1 }
    else some { r with thread := .waiting }
  | .pushing file =>
    (r.server.act (.push 0)).map fun server =>
      { r with server := server, thread := .notifying file }
  | .notifying file =>
    (r.server.act (.notifyOne i)).map fun server =>
      { r with
        server := server
        thread := .reading file
        processedRequests := r.processedRequests + 1 }
  | .waiting =>
    if r.server.lockFree then
      some (if r.server.requestQueue = [] then { r with thread := .finished } else r)
    else none
  | .finished => none

/-- One step of one thread. -/
inductive Move
  | thread (i : ℕ)
  /-- The next step of a worker. -/
  | worker (i : ℕ)
  /-- The wait of a worker ends without a notification. -/
  | wakeUp (i : ℕ)
deriving DecidableEq, Repr

/-- One step, if it is possible. -/
def step (r : BenchmarkRun) : Move → Bool × BenchmarkRun
  | .thread i => ((r.threadStep i).isSome, (r.threadStep i).getD r)
  | .worker i =>
    let next := r.server.step (.worker i)
    (next.1, { r with server := next.2 })
  | .wakeUp i =>
    let next := r.server.step (.wakeUp i)
    (next.1, { r with server := next.2 })

/-! ### What stays -/

variable {r r' : BenchmarkRun} {s s' : BenchmarkServer} {a : BenchmarkServer.Action}
  {requests : List BenchmarkRequest} {i : ℕ}

/-- A call of `add_request` is under way in these places, and in no others. -/
def Calling (r : BenchmarkRun) : Prop :=
  match r.thread with
  | .pushing _ => ∃ request, r.server.arrivals = [request] ∧
      r.processedRequests = .ofNat r.server.pushed.length
  | .notifying _ => r.server.arrivals = [] ∧
      r.processedRequests + 1 = .ofNat r.server.pushed.length
  | _ => r.server.arrivals = [] ∧ r.processedRequests = .ofNat r.server.pushed.length

/-- **What has been submitted, with what is left of the trace, is the whole trace**, and the
counters count what was answered. -/
structure Driven (s₀ : BenchmarkServer) (requests : List BenchmarkRequest) (r : BenchmarkRun) :
    Prop where
  running : r.server.running = true
  calling : r.Calling
  submitted : r.server.pushed ++ r.server.arrivals ++ r.thread.rest = requests
  workers : r.server.workers.length = s₀.workers.length
  accounted : Accounted r.server
  since : ∃ added counted, Since s₀ r.server added counted
  started : ∀ file, r.thread = .starting file → r.server.pushed = []
  quiet : r.thread = .finished → r.server.requestQueue = []

/-- The steps of the workers leave the calls and the submitted requests alone. -/
theorem worker_step (ha : (∃ i, a = .worker i) ∨ ∃ i, a = .wakeUp i) :
    SameCalls s (s.step a).2 ∧ (s.step a).2.pushed = s.pushed ∧
      (s.requestQueue = [] → (s.step a).2.requestQueue = []) := by
  rcases BenchmarkServer.step_cases s a with hsame | hchange
  · rw [hsame]
    exact ⟨⟨rfl, rfl, rfl, rfl, rfl⟩, rfl, id⟩
  · generalize (s.step a).2 = s' at hchange
    cases hchange with
    | move _ _ | wake _ => exact ⟨⟨rfl, rfl, rfl, rfl, rfl⟩, rfl, id⟩
    | serve h =>
      refine ⟨h.sameCalls, ?_⟩
      cases h with
      | pop _ hq => exact ⟨rfl, fun hnil => by simp [hnil] at hq⟩
      | _ => exact ⟨rfl, id⟩
    | _ => simp at ha

variable {s₀ : BenchmarkServer}

/-- **The workers keep the record.** -/
theorem Driven.worker (h : Driven s₀ requests r)
    (ha : (∃ i, a = .worker i) ∨ ∃ i, a = .wakeUp i) :
    Driven s₀ requests { r with server := (r.server.step a).2 } := by
  obtain ⟨hsame, hpushed, hquiet⟩ := worker_step (s := r.server) ha
  have hkept : Accounted (r.server.step a).2 ∧
      ∃ added counted, Since s₀ (r.server.step a).2 added counted := by
    rcases BenchmarkServer.step_cases r.server a with heq | hchange
    · rw [heq]
      exact ⟨h.accounted, h.since⟩
    · exact ⟨h.accounted.change hchange, Since.change hchange h.since⟩
  refine ⟨hsame.running.trans h.running, ?_, ?_, (length_workers_step _ _).trans h.workers,
    hkept.1, hkept.2, fun file hfile => ?_, fun hfinished => hquiet (h.quiet hfinished)⟩
  · have hcalling := h.calling
    simp only [Calling, hsame.arrivals, hpushed] at hcalling ⊢
    exact hcalling
  · rw [hpushed, hsame.arrivals]
    exact h.submitted
  · rw [hpushed]
    exact h.started file hfile

/-! ### The thread -/

theorem since_start (h : Accounted s) (hpushed : s.pushed = []) (hs₀ : s₀.pushed = [])
    (ho₀ : s₀.outcomes = []) : ∃ added counted, Since s₀ s.resetStats added counted := by
  have ho : s.outcomes = [] := by
    refine List.eq_nil_iff_forall_not_mem.mpr fun e he => ?_
    have hanswers := h.answered e.1
    have hpos : 0 < s.answers e.1 := List.countP_pos_iff.mpr ⟨e, he, by simp⟩
    simp only [isGetAt, hpushed, List.getElem?_nil, Option.any_none, Bool.false_eq_true,
      if_false] at hanswers
    omega
  exact ⟨[], [], by simp [resetStats, hpushed, hs₀], by simp [resetStats, ho, ho₀], rfl, rfl, rfl⟩

/-- **The thread goes through the trace** and loses nothing of it. -/
theorem Driven.thread (hs₀ : s₀.pushed = []) (ho₀ : s₀.outcomes = [])
    (h : Driven s₀ requests r) (hstep : r.threadStep i = some r') : Driven s₀ requests r' := by
  obtain ⟨server, thread, processed⟩ := r
  obtain ⟨hrunning, hcalling, hsubmitted, hworkers, haccounted, hsince, hstarted, hquiet⟩ := h
  cases thread with
  | starting file =>
    obtain rfl := Option.some.inj hstep
    exact ⟨hrunning, hcalling, hsubmitted, hworkers, haccounted.resetStats,
      since_start haccounted (hstarted file rfl) hs₀ ho₀, by simp, by simp⟩
  | reading file =>
    obtain ⟨harrivals, hprocessed⟩ := hcalling
    simp only [threadStep] at hstep
    split_ifs at hstep with hnext hstop
    · -- the trace ends at an empty line
      obtain rfl := Option.some.inj hstep
      have hrest : runTraceBenchmark file = [] := by
        rw [runTraceBenchmark, if_pos hnext, dif_pos hstop]
      refine ⟨hrunning, ⟨harrivals, hprocessed⟩, ?_, hworkers, haccounted, hsince,
        by simp, by simp⟩
      simpa [BenchmarkThread.rest, hrest] using hsubmitted
    · have hact : server.act (.addRequest ⟨(getNext file).1.key, lit "GET"⟩) =
          some { server with arrivals := server.arrivals ++ [⟨(getNext file).1.key, lit "GET"⟩] } :=
        if_pos hrunning
      simp only [hact] at hstep
      obtain rfl := Option.some.inj hstep
      have hchange := change_of_act hact
      have hrest : runTraceBenchmark file =
          ⟨(getNext file).1.key, lit "GET"⟩ :: runTraceBenchmark (getNext file).2 := by
        rw [runTraceBenchmark, if_pos hnext, dif_neg hstop]
      refine ⟨hrunning, ⟨⟨(getNext file).1.key, lit "GET"⟩, ?_, hprocessed⟩, ?_, hworkers,
        haccounted.change hchange, Since.change hchange hsince, by simp, by simp⟩
      · simpa using harrivals
      simpa [BenchmarkThread.rest, hrest, harrivals] using hsubmitted
    · -- the trace has been read to its end
      obtain rfl := Option.some.inj hstep
      have hrest : runTraceBenchmark file = [] := by
        rw [runTraceBenchmark, if_neg hnext]
      refine ⟨hrunning, ⟨harrivals, hprocessed⟩, ?_, hworkers, haccounted, hsince,
        by simp, by simp⟩
      simpa [BenchmarkThread.rest, hrest] using hsubmitted
  | pushing file =>
    obtain ⟨request, harrivals, hprocessed⟩ := hcalling
    obtain ⟨server', hact, rfl⟩ := Option.map_eq_some_iff.mp hstep
    have hchange := change_of_act hact
    dsimp only at harrivals
    simp only [act, harrivals, List.getElem?_cons_zero] at hact
    obtain ⟨-, hact⟩ := Option.ite_none_right_eq_some.mp hact
    obtain rfl := Option.some.inj hact
    refine ⟨hrunning, ⟨rfl, by simpa using hprocessed⟩, ?_, hworkers,
      haccounted.change hchange, Since.change hchange hsince, by simp, by simp⟩
    simpa [BenchmarkThread.rest, harrivals] using hsubmitted
  | notifying file =>
    obtain ⟨harrivals, hprocessed⟩ := hcalling
    obtain ⟨server', hact, rfl⟩ := Option.map_eq_some_iff.mp hstep
    have hchange := change_of_act hact
    have hsame : server'.arrivals = server.arrivals ∧ server'.pushed = server.pushed ∧
        server'.running = server.running := by
      cases hchange with
      | notify _ _ | lose _ _ => exact ⟨rfl, rfl, rfl⟩
    obtain ⟨harrivals', hpushed', hrunning'⟩ := hsame
    refine ⟨hrunning'.trans hrunning, ⟨harrivals'.trans harrivals, ?_⟩, ?_,
      hchange.length_workers.trans hworkers, haccounted.change hchange,
      Since.change hchange hsince, by simp, by simp⟩
    · rw [hpushed']
      exact hprocessed
    simpa [BenchmarkThread.rest, harrivals', hpushed'] using hsubmitted
  | waiting =>
    simp only [threadStep] at hstep
    obtain ⟨-, hstep⟩ := Option.ite_none_right_eq_some.mp hstep
    obtain rfl := Option.some.inj hstep
    split_ifs with hq
    · exact ⟨hrunning, hcalling, hsubmitted, hworkers, haccounted, hsince, by simp, fun _ => hq⟩
    · exact ⟨hrunning, hcalling, hsubmitted, hworkers, haccounted, hsince, by simp, by simp⟩
  | finished => simp [threadStep] at hstep

theorem Driven.step (hs₀ : s₀.pushed = []) (ho₀ : s₀.outcomes = []) (h : Driven s₀ requests r)
    (m : Move) : Driven s₀ requests (r.step m).2 := by
  cases m with
  | thread i =>
    rcases hstep : r.threadStep i with _ | r'
    · simpa [BenchmarkRun.step, hstep] using h
    · simpa [BenchmarkRun.step, hstep] using h.thread hs₀ ho₀ hstep
  | worker i => exact h.worker (.inl ⟨i, rfl⟩)
  | wakeUp i => exact h.worker (.inr ⟨i, rfl⟩)

theorem driven_after (capacity : ℕ) (policy : EvictionPolicy) (workers : ℕ) (file : TraceFile)
    (moves : List Move) :
    Driven (BenchmarkServer.start (.fresh capacity policy) workers) (runTraceBenchmark file)
      (StepMachine.after step (start capacity policy workers file) moves) := by
  refine StepMachine.invariant_after ?_ (fun r m h => h.step rfl rfl m) moves
  have hsince := since_resetStats (BenchmarkServer.start (.fresh capacity policy) workers) []
  exact ⟨rfl, ⟨rfl, rfl⟩, rfl, rfl, accounted_start _ workers, hsince, fun _ _ => rfl,
    by simp [start]⟩

/-! ### The statistics -/

theorem isGet_of_mem_runTraceBenchmark (file : TraceFile) :
    ∀ request ∈ runTraceBenchmark file, request.isGet = true := by
  induction file using runTraceBenchmark.induct with
  | case1 file hnext next hstop =>
    rw [runTraceBenchmark, if_pos hnext, dif_pos hstop]
    simp
  | case2 file hnext next hstop _ ih =>
    rw [runTraceBenchmark, if_pos hnext, dif_neg hstop]
    exact List.forall_mem_cons.mpr ⟨rfl, ih⟩
  | case3 file hnext =>
    rw [runTraceBenchmark, if_neg hnext]
    simp

end BenchmarkRun

end PagedCacheServer
