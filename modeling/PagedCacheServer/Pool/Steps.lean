import PagedCacheServer.Benchmark.Books
import PagedCacheServer.Library.Census
import PagedCacheServer.Pool.Defs

/-!
# What one step of the pool can do

Every invariant of the pool has to look at every step of every thread. This file says
once what these steps are, with the conditions under which each is taken:

* `PagedCacheServer.BenchmarkServer.Moves` lists the steps in which a worker goes to
  another place of its loop and nothing else changes;
* `PagedCacheServer.BenchmarkServer.Serves` lists those in which it takes a request and
  processes it;
* `PagedCacheServer.BenchmarkServer.Change` adds the steps of `add_request` and `stop`.

`PagedCacheServer.BenchmarkServer.step_cases` says that an action is one of them or does
nothing, and `PagedCacheServer.BenchmarkServer.kept_after_of_admits` turns what every
change keeps into what every run keeps.
-/

namespace PagedCacheServer

/-- The request is answered by a `get`. -/
def BenchmarkRequest.isGet (request : BenchmarkRequest) : Bool := request.operation = lit "GET"

namespace Worker

@[simp] theorem number?_head : head.number? = none := rfl

@[simp] theorem number?_ready : ready.number? = none := rfl

@[simp] theorem number?_processing {t : ℕ} {request : BenchmarkRequest} :
    (processing t request).number? = some t := rfl

@[simp] theorem number?_inserting {t : ℕ} {request : BenchmarkRequest} :
    (inserting t request).number? = some t := rfl

end Worker

namespace BenchmarkServer

/-- The steps of a worker that only take it to another place. -/
inductive Moves (s : BenchmarkServer) : Worker → Worker → Prop
  | enter (h : s.running = true) : Moves s .head .locking
  | exit (h : s.running = false) : Moves s .head .left
  | lock (h : s.lockFree = true) : Moves s .locking .checking
  | pass (h : s.requestQueue ≠ [] ∨ s.shutdown = true) : Moves s .checking .ready
  | fail (hq : s.requestQueue = []) (h : s.shutdown = false) : Moves s .checking .parking
  | block : Moves s .parking .blocked
  | quit (hq : s.requestQueue = []) (h : s.shutdown = true) : Moves s .ready .left
  | again (hq : s.requestQueue = []) (h : s.shutdown = false) : Moves s .ready .head

/-- The steps in which a worker takes a request and processes it. -/
inductive Serves (s : BenchmarkServer) (i : ℕ) : BenchmarkServer → Prop
  | pop {number : ℕ} {request : BenchmarkRequest} {rest : List (ℕ × BenchmarkRequest)}
      (hw : s.workers[i]? = some .ready) (hq : s.requestQueue = (number, request) :: rest) :
      Serves s i ({ s with requestQueue := rest }.setWorker i (.processing number request))
  | hit {number : ℕ} {request : BenchmarkRequest}
      (hw : s.workers[i]? = some (.processing number request)) (hget : request.isGet = true)
      (hkey : request.key ∈ s.cache.cacheMap) :
      Serves s i (({ s with
        cache := s.cache.countHit.update request.key
        outcomes := s.outcomes ++ [(number, true)] } : BenchmarkServer).finish i number)
  | miss {number : ℕ} {request : BenchmarkRequest}
      (hw : s.workers[i]? = some (.processing number request)) (hget : request.isGet = true)
      (hkey : request.key ∉ s.cache.cacheMap) :
      Serves s i (({ s with
        cache := s.cache.countMiss
        outcomes := s.outcomes ++ [(number, false)] } : BenchmarkServer).setWorker i
          (.inserting number request))
  /-- The `put` after a miss, and a request that is not a `get`. -/
  | done {number : ℕ} {request : BenchmarkRequest} {w : Worker} {cache : BenchmarkCache}
      (hw : s.workers[i]? = some w)
      (hplace : w = .inserting number request ∨
        w = .processing number request ∧ request.isGet = false)
      (hframe : BenchmarkCache.Frame s.cache cache) :
      Serves s i (({ s with cache := cache } : BenchmarkServer).finish i number)

/-- The steps of all threads. -/
inductive Change (s : BenchmarkServer) : Action → BenchmarkServer → Prop
  | move {i : ℕ} {w w' : Worker} (hw : s.workers[i]? = some w) (hm : Moves s w w') :
      Change s (.worker i) (s.setWorker i w')
  | wake {i : ℕ} (hw : s.workers[i]? = some .blocked) :
      Change s (.wakeUp i) (s.setWorker i .locking)
  | serve {i : ℕ} {s' : BenchmarkServer} (h : Serves s i s') : Change s (.worker i) s'
  | arrive {request : BenchmarkRequest} (h : s.running = true) :
      Change s (.addRequest request) { s with arrivals := s.arrivals ++ [request] }
  | push {j : ℕ} {request : BenchmarkRequest} (hj : s.arrivals[j]? = some request)
      (h : s.lockFree = true) :
      Change s (.push j) { s with
        arrivals := s.arrivals.eraseIdx j
        requestQueue := s.requestQueue ++ [(s.pushed.length, request)]
        notifications := s.notifications + 1
        pushed := s.pushed ++ [request] }
  | notify {i : ℕ} (hn : s.notifications ≠ 0) (hw : s.workers[i]? = some .blocked) :
      Change s (.notifyOne i) { s.setWorker i .locking with notifications := s.notifications - 1 }
  /-- A notification when nobody is in the wait. -/
  | lose {i : ℕ} (hn : s.notifications ≠ 0) (hw : .blocked ∉ s.workers) :
      Change s (.notifyOne i) { s with notifications := s.notifications - 1 }
  | call (hp : s.stopping = .notCalled) (h : s.running = true) :
      Change s .stop { s with stopping := .called, pushedBeforeStop := s.pushed.length }
  | setShutdown (hp : s.stopping = .called) :
      Change s .stop { s with stopping := .shutdownSet, shutdown := true }
  | clearRunning (hp : s.stopping = .shutdownSet) :
      Change s .stop { s with stopping := .runningCleared, running := false }
  | notifyAll (hp : s.stopping = .runningCleared) :
      Change s .stop { s with stopping := .notified, workers := s.workers.map Worker.notify }
  | join (hp : s.stopping = .notified) (hw : ∀ w ∈ s.workers, w = .left) :
      Change s .stop { s with stopping := .joined }

/-! ### Every action is one of these -/

variable {s s' : BenchmarkServer} {a : Action} {i : ℕ}

theorem serves_processRequest {number : ℕ} {request : BenchmarkRequest}
    (hw : s.workers[i]? = some (.processing number request)) :
    Serves s i (s.processRequest i number request) := by
  rw [processRequest]
  split_ifs with hget
  · have hop : request.isGet = true := decide_eq_true hget
    rcases hlookup : s.cache.cacheMap.lookup request.key with _ | entry
    · have hkey : request.key ∉ s.cache.cacheMap := AList.lookup_eq_none.mp hlookup
      simpa [BenchmarkCache.get, hlookup] using Serves.miss hw hop hkey
    · have hkey : request.key ∈ s.cache.cacheMap := AList.lookup_isSome.mp (by simp [hlookup])
      simpa [BenchmarkCache.get, hlookup] using Serves.hit hw hop hkey
  · exact .done hw (.inr ⟨rfl, decide_eq_false hget⟩) (BenchmarkCache.frame_put _ _ _)
  · have hframe : BenchmarkCache.Frame s.cache s.cache := .refl _
    exact .done hw (.inr ⟨rfl, decide_eq_false hget⟩) hframe

theorem change_of_workerStep (h : s.workerStep i = some s') : Change s (.worker i) s' := by
  rw [workerStep] at h
  rcases hw : s.workers[i]? with _ | w
  · simp [hw] at h
  rw [hw] at h
  cases w with
  | head =>
    obtain rfl := Option.some.inj h
    split_ifs with hrun
    · exact .move hw (.enter hrun)
    · exact .move hw (.exit (by simpa using hrun))
  | locking =>
    obtain ⟨hfree, h⟩ := Option.ite_none_right_eq_some.mp h
    obtain rfl := Option.some.inj h
    exact .move hw (.lock hfree)
  | checking =>
    obtain rfl := Option.some.inj h
    split_ifs with hpred
    · exact .move hw (.pass hpred)
    · push Not at hpred
      exact .move hw (.fail hpred.1 (by simpa using hpred.2))
  | parking =>
    obtain rfl := Option.some.inj h
    exact .move hw .block
  | blocked => simp at h
  | ready =>
    rcases hq : s.requestQueue with _ | ⟨⟨number, request⟩, rest⟩
    · rcases hshut : s.shutdown with _ | _
      · obtain rfl : s.setWorker i .head = s' := by simpa [hq, hshut] using h
        exact .move hw (.again hq hshut)
      · obtain rfl : s.setWorker i .left = s' := by simpa [hq, hshut] using h
        exact .move hw (.quit hq hshut)
    · simp only [hq, reduceCtorEq, and_false, if_false] at h
      obtain rfl := Option.some.inj h
      exact .serve (.pop hw hq)
  | processing number request =>
    obtain rfl := Option.some.inj h
    exact .serve (serves_processRequest hw)
  | inserting number request =>
    obtain rfl := Option.some.inj h
    exact .serve (.done hw (.inl rfl) (BenchmarkCache.frame_put _ _ _))
  | left => simp at h

theorem change_of_stopStep (h : s.stopStep = some s') : Change s .stop s' := by
  rw [stopStep] at h
  rcases hp : s.stopping <;> simp only [hp] at h
  case notCalled =>
    obtain ⟨hrun, h⟩ := Option.ite_none_right_eq_some.mp h
    obtain rfl := Option.some.inj h
    exact .call hp hrun
  case called =>
    obtain rfl := Option.some.inj h
    exact .setShutdown hp
  case shutdownSet =>
    obtain rfl := Option.some.inj h
    exact .clearRunning hp
  case runningCleared =>
    obtain rfl := Option.some.inj h
    exact .notifyAll hp
  case notified =>
    obtain ⟨hleft, h⟩ := Option.ite_none_right_eq_some.mp h
    obtain rfl := Option.some.inj h
    exact .join hp hleft
  case joined => simp at h

/-- **What an action that is possible does.** -/
theorem change_of_act (h : s.act a = some s') : Change s a s' := by
  cases a with
  | worker i => exact change_of_workerStep h
  | wakeUp i =>
    obtain ⟨hw, h⟩ := Option.ite_none_right_eq_some.mp h
    obtain rfl := Option.some.inj h
    exact .wake hw
  | addRequest request =>
    obtain ⟨hrun, h⟩ := Option.ite_none_right_eq_some.mp h
    obtain rfl := Option.some.inj h
    exact .arrive hrun
  | push j =>
    rw [act] at h
    rcases hj : s.arrivals[j]? with _ | request
    · simp [hj] at h
    · rw [hj] at h
      obtain ⟨hfree, h⟩ := Option.ite_none_right_eq_some.mp h
      obtain rfl := Option.some.inj h
      exact .push hj hfree
  | notifyOne i =>
    rw [act] at h
    split_ifs at h with hn hw hnone
    · obtain rfl := Option.some.inj h
      exact .notify hn hw
    · obtain rfl := Option.some.inj h
      exact .lose hn hnone
  | stop => exact change_of_stopStep h

/-- **An action does one of these or nothing.** -/
theorem step_cases (s : BenchmarkServer) (a : Action) :
    (s.step a).2 = s ∨ Change s a (s.step a).2 := by
  rcases h : s.act a with _ | s'
  · exact .inl (by simp [step, h])
  · refine .inr ?_
    simpa [step, h] using change_of_act h

/-- **What every change keeps, every run keeps**, under the guard the actions meet. -/
theorem kept_after_of_admits {I : BenchmarkServer → Prop} {ok : BenchmarkServer → Action → Prop}
    (h₀ : I s)
    (hchange : ∀ {s s' : BenchmarkServer} {a : Action}, ok s a → Change s a s' → I s → I s')
    (acts : List Action) (hok : StepMachine.Admits step ok s acts) :
    I (StepMachine.after step s acts) := by
  refine StepMachine.invariant_history_of_admits (R := fun _ s => I s) h₀ ?_ acts hok
  intro _ s a ha hs
  rcases step_cases s a with h | h
  · rwa [h]
  · exact hchange ha h hs

theorem kept_after {I : BenchmarkServer → Prop} (h₀ : I s)
    (hchange : ∀ {s s' : BenchmarkServer} {a : Action}, Change s a s' → I s → I s')
    (acts : List Action) : I (StepMachine.after step s acts) :=
  kept_after_of_admits h₀ (fun _ => hchange) acts
    (StepMachine.admits_of_forall (fun _ _ => trivial) s acts)

/-! ### What serving a request leaves alone -/

/-- The calls of `add_request` and `stop` stand where they did. -/
structure SameCalls (s s' : BenchmarkServer) : Prop where
  stopping : s'.stopping = s.stopping
  shutdown : s'.shutdown = s.shutdown
  running : s'.running = s.running
  arrivals : s'.arrivals = s.arrivals
  notifications : s'.notifications = s.notifications

theorem Serves.sameCalls (h : Serves s i s') : SameCalls s s' := by
  cases h <;> exact ⟨rfl, rfl, rfl, rfl, rfl⟩

/-- A worker that serves a request comes from the wait or has the request in its hands,
and goes on with it or back to the head of its loop. -/
theorem Serves.workers_eq (h : Serves s i s') :
    ∃ w w', s.workers[i]? = some w ∧ s'.workers = s.workers.set i w' ∧
      (w = .ready ∨ w.number? ≠ none) ∧ (w' = .head ∨ w'.number? ≠ none) := by
  cases h with
  | pop hw _ => exact ⟨_, _, hw, rfl, .inl rfl, .inr (by simp)⟩
  | hit hw _ _ => exact ⟨_, _, hw, rfl, .inr (by simp), .inl rfl⟩
  | miss hw _ _ =>
    exact ⟨_, _, hw, rfl, .inr (by simp), .inr (by simp)⟩
  | done hw hplace _ =>
    refine ⟨_, _, hw, rfl, .inr ?_, .inl rfl⟩
    rcases hplace with rfl | ⟨rfl, -⟩ <;> simp

/-- Threads come from nowhere and stay. -/
theorem Change.length_workers (h : Change s a s') : s'.workers.length = s.workers.length := by
  cases h with
  | serve h =>
    obtain ⟨-, w', -, hworkers, -⟩ := h.workers_eq
    rw [hworkers, List.length_set]
  | _ => simp [setWorker]

theorem length_workers_step (s : BenchmarkServer) (a : Action) :
    (s.step a).2.workers.length = s.workers.length := by
  rcases step_cases s a with hsame | hchange
  · rw [hsame]
  · exact hchange.length_workers

/-! ### The flags -/

/-- What the flags are in each phase of `stop`. -/
structure Flagged (s : BenchmarkServer) : Prop where
  shutdown : s.stopping ∉ [StopPhase.notCalled, .called] → s.shutdown = true
  running : s.stopping ∈ [StopPhase.runningCleared, .notified, .joined] → s.running = false
  pushedBeforeStop_le : s.pushedBeforeStop ≤ s.pushed.length

theorem Flagged.change (h : Change s a s') (hs : Flagged s) : Flagged s' := by
  cases h with
  | move _ _ | wake _ => exact ⟨hs.shutdown, hs.running, hs.pushedBeforeStop_le⟩
  | serve h => cases h <;> exact ⟨hs.shutdown, hs.running, hs.pushedBeforeStop_le⟩
  | arrive _ | notify _ _ | lose _ _ =>
    exact ⟨hs.shutdown, hs.running, hs.pushedBeforeStop_le⟩
  | push _ _ =>
    refine ⟨hs.shutdown, hs.running, ?_⟩
    simp only [List.length_append]
    exact Nat.le_add_right_of_le hs.pushedBeforeStop_le
  | call _ _ => exact ⟨by simp, by simp, le_rfl⟩
  | setShutdown _ => exact ⟨by simp, by simp, hs.pushedBeforeStop_le⟩
  | clearRunning hp => exact ⟨fun _ => hs.shutdown (by simp [hp]), by simp, hs.pushedBeforeStop_le⟩
  | notifyAll hp | join hp _ =>
    exact ⟨fun _ => hs.shutdown (by simp [hp]), fun _ => hs.running (by simp [hp]),
      hs.pushedBeforeStop_le⟩

theorem flagged_start (cache : BenchmarkCache) (workers : ℕ) : Flagged (start cache workers) :=
  ⟨by simp [start], by simp [start], le_rfl⟩

end BenchmarkServer

end PagedCacheServer
