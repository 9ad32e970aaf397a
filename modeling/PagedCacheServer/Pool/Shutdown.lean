import PagedCacheServer.Pool.Accounting

/-!
# What is left in the queue at shutdown

A worker leaves its loop at two places: at the head, when `running` is false, and after
the wait, when `shutdown` is set and the queue is empty. The second is there to drain
the queue; the first does not look at it. Once `stop` has cleared `running`, a worker
that is back at the head is gone, so each of those that have passed it takes at most one
more request. Requests leave the queue in the order of their numbers, and a worker in
the wait does not give up while there is one, so the number of old requests in the
queue, beyond the workers that are to take them, is settled when `running` is cleared
(`PagedCacheServer.BenchmarkServer.old_le_takers_iff`).

`PagedCacheServer.BenchmarkServer.stop_drains_iff` says when the queue is drained, and
`PagedCacheServer.BenchmarkServer.stop_drops_request` is a run in which it is not.
-/

namespace PagedCacheServer

namespace BenchmarkServer

variable {s s' : BenchmarkServer} {a : Action} {i b : ℕ}

/-! ### The order of the queue -/

/-- The queue is in the order in which the requests were pushed. -/
def Ordered (s : BenchmarkServer) : Prop := s.requestQueue.Pairwise fun e e' => e.1 < e'.1

theorem Ordered.change (h : Change s a s') (hm : Matches s) (hs : Ordered s) : Ordered s' := by
  rcases h.cases_request with hidle | ⟨i, -, hserves⟩ | ⟨request, -, -, -, -, -, hq⟩
  · rwa [Ordered, hidle.requestQueue]
  · cases hserves with
    | pop hw hq =>
      rw [Ordered, hq] at hs
      exact (List.pairwise_cons.mp hs).2
    | hit _ _ _ | miss _ _ _ | done _ _ _ => exact hs
  · rw [Ordered, hq, List.pairwise_append]
    refine ⟨hs, List.pairwise_singleton _ _, fun e he e' he' => ?_⟩
    obtain rfl := List.mem_singleton.mp he'
    exact (List.getElem?_eq_some_iff.mp (hm.queued e he)).1

/-! ### Requests and the workers to take them -/

/-- The requests in the queue with a number below `b`. -/
def old (s : BenchmarkServer) (b : ℕ) : ℕ := s.requestQueue.countP fun e => e.1 < b

/-- The workers that have passed the head of their loop and have taken no request yet. -/
def takers (s : BenchmarkServer) : ℕ := s.workers.countP Worker.waiting

/-- What holds from the moment `running` is cleared: `b` requests were pushed before
`stop` was called. -/
structure Closing (b : ℕ) (s : BenchmarkServer) : Prop where
  accounted : Accounted s
  ordered : Ordered s
  shutdown : s.shutdown = true
  running : s.running = false
  le : b ≤ s.pushed.length

theorem Closing.change (h : Change s a s') (hs : Closing b s) : Closing b s' where
  accounted := hs.accounted.change h
  ordered := hs.ordered.change h hs.accounted.fit
  shutdown := by
    have := hs.shutdown
    cases h with
    | serve h => cases h <;> exact this
    | setShutdown _ => rfl
    | _ => exact this
  running := by
    have := hs.running
    cases h with
    | serve h => cases h <;> exact this
    | clearRunning _ => rfl
    | _ => exact this
  le := by
    have := hs.le
    rcases h.cases_request with hidle | ⟨i, -, hserves⟩ | ⟨request, -, -, -, -, hpushed, -⟩
    · rwa [hidle.pushed]
    · cases hserves <;> exact this
    · rw [hpushed, List.length_append]
      omega

/-- When `running` is cleared, a worker that moves and was to take a request still is,
unless there is none to take. -/
theorem Closing.takers_move (hs : Closing b s) {w w' : Worker} (hw : s.workers[i]? = some w)
    (hm : Moves s w w') :
    (s.setWorker i w').takers = s.takers ∨
      (s.setWorker i w').takers + 1 = s.takers ∧ s.requestQueue = [] := by
  have hset := Census.countP_set_add hw w' Worker.waiting
  simp only [takers, setWorker]
  cases hm with
  | enter h =>
    rw [hs.running] at h
    cases h
  | quit hq _ => exact .inr ⟨by simpa [Worker.waiting] using hset, hq⟩
  | again _ h =>
    rw [hs.shutdown] at h
    cases h
  | _ => exact .inl (by simpa [Worker.waiting] using hset)

theorem Closing.old_le_takers_serves (hs : Closing b s) (h : Serves s i s') :
    s'.old b ≤ s'.takers ↔ s.old b ≤ s.takers := by
  cases h with
  | @pop number request rest hw hq =>
    have hset := Census.countP_set_add hw (.processing number request) Worker.waiting
    have hold : s.old b = rest.countP (fun e => e.1 < b) + if number < b then 1 else 0 := by
      simp [old, hq, List.countP_cons]
    simp only [Worker.waiting, if_true, Bool.false_eq_true, if_false, Nat.add_zero] at hset
    simp only [old, takers, setWorker] at hold ⊢
    rw [hold]
    by_cases hnumber : number < b
    · -- an old request and a worker to take it
      rw [if_pos hnumber]
      omega
    · -- the first request is a new one, so that no old one is left
      have hzero : s.old b = 0 := by
        have hordered := hs.ordered
        rw [Ordered, hq] at hordered
        rw [old, hq]
        exact Census.countP_lt_eq_zero hordered hnumber
      have := hold.symm.trans hzero
      omega
  | hit hw _ _ =>
    have htakers := Census.countP_set_eq (b := .head) (p := Worker.waiting) hw rfl
    simp only [old, takers, finish, htakers]
  | @miss number request hw _ _ =>
    have htakers :=
      Census.countP_set_eq (b := .inserting number request) (p := Worker.waiting) hw rfl
    simp only [old, takers, setWorker, htakers]
  | @done number request w cache hw hplace _ =>
    have hwaits : Worker.head.waiting = w.waiting := by
      rcases hplace with rfl | ⟨rfl, -⟩ <;> rfl
    simp only [old, takers, finish, Census.countP_set_eq hw hwaits]

/-- **Whether there are enough workers for the old requests does not change** once
`running` is cleared. -/
theorem Closing.old_le_takers_iff (h : Change s a s') (hs : Closing b s) :
    s'.old b ≤ s'.takers ↔ s.old b ≤ s.takers := by
  cases h with
  | @move i w w' hw hm =>
    have hold : (s.setWorker i w').old b = s.old b := rfl
    rw [hold]
    rcases hs.takers_move hw hm with htakers | ⟨htakers, hq⟩
    · rw [htakers]
    · have hzero : s.old b = 0 := by rw [old, hq, List.countP_nil]
      rw [hzero]
      simp
  | serve h => exact hs.old_le_takers_serves h
  | push _ _ =>
    have hnew : ¬ s.pushed.length < b := Nat.not_lt.mpr hs.le
    simp [old, takers, List.countP_append, hnew]
  | notify _ hw | wake hw =>
    have htakers := Census.countP_set_eq (b := .locking) (p := Worker.waiting) hw rfl
    simp only [old, takers, setWorker, htakers]
  | notifyAll _ =>
    have hmap : (s.workers.map Worker.notify).countP Worker.waiting = s.takers :=
      Census.countP_map_eq (fun w => by cases w <;> rfl) _
    simp only [old, takers] at hmap ⊢
    rw [hmap]
  | _ => exact Iff.rfl

/-! ### When all workers have left -/

theorem old_eq_zero_iff : s.old b = 0 ↔ ∀ t < b, s.inQueue t = 0 := by
  simp only [old, inQueue, List.countP_eq_zero, decide_eq_true_eq]
  constructor
  · rintro h t ht e he rfl
    exact h e he ht
  · intro h e he hlt
    exact h e.1 hlt e he rfl

/-- When no worker is left, the old requests are finished exactly if none is in the
queue. -/
theorem Closing.finished_iff (hs : Closing b s) (hleft : ∀ w ∈ s.workers, w = .left) :
    (∀ t < b, s.finished.count t = 1) ↔ s.old b = 0 := by
  have hhands : ∀ t, s.inHands t = 0 := fun t =>
    List.countP_eq_zero.mpr fun w hw => by rw [hleft w hw]; simp [Worker.number?]
  have hplace : ∀ t < b, s.inQueue t + s.finished.count t = 1 := by
    intro t ht
    have := hs.accounted.placed t
    rwa [hhands, if_pos (lt_of_lt_of_le ht hs.le), Nat.add_zero] at this
  rw [old_eq_zero_iff]
  constructor
  · intro h t ht
    have := hplace t ht
    have := h t ht
    omega
  · intro h t ht
    have := hplace t ht
    have := h t ht
    omega

theorem takers_eq_zero (hleft : ∀ w ∈ s.workers, w = .left) : s.takers = 0 :=
  List.countP_eq_zero.mpr fun w hw => by rw [hleft w hw]; simp [Worker.waiting]

theorem ordered_after (cache : BenchmarkCache) (workers : ℕ) (acts : List Action) :
    Ordered (StepMachine.after step (start cache workers) acts) := by
  have hstart : Accounted (start cache workers) ∧ Ordered (start cache workers) :=
    ⟨accounted_start cache workers, List.Pairwise.nil⟩
  refine (kept_after (I := fun s => Accounted s ∧ Ordered s) hstart ?_ acts).2
  exact fun h hs => ⟨hs.1.change h, hs.2.change h hs.1.fit⟩

/-- The step that clears `running`. -/
theorem step_stop_of_shutdownSet (h : s.stopping = .shutdownSet) :
    (s.step .stop).2 = { s with stopping := .runningCleared, running := false } := by
  simp [step, act, stopStep, h]

/-- **When shutdown drains the queue.** `stop` is about to clear `running` after the run
`before`, and all workers have left after `acts`. Each request that was pushed before
`stop` was called is then finished, once, exactly if at that moment no more of them were
in the queue than there were workers between the head of the loop and their next
request. -/
theorem stop_drains_iff (cache : BenchmarkCache) (workers : ℕ) (before acts : List Action)
    (hphase : (StepMachine.after step (start cache workers) before).stopping = .shutdownSet)
    (hleft : ∀ w ∈ (StepMachine.after step (start cache workers)
      (before ++ .stop :: acts)).workers, w = .left) :
    let s := StepMachine.after step (start cache workers) before
    let s' := StepMachine.after step (start cache workers) (before ++ .stop :: acts)
    (∀ t < s.pushedBeforeStop, s'.finished.count t = 1) ↔ s.old s.pushedBeforeStop ≤ s.takers := by
  intro s s'
  have hphase : s.stopping = .shutdownSet := hphase
  have hflags : Flagged s := kept_after (flagged_start cache workers) Flagged.change before
  have haccounted : Accounted s := accounted_after cache workers before
  have hcleared : Closing s.pushedBeforeStop
      { s with stopping := .runningCleared, running := false } :=
    { accounted := haccounted.change (.clearRunning hphase)
      ordered := ordered_after cache workers before
      shutdown := hflags.shutdown (by simp [hphase])
      running := rfl
      le := hflags.pushedBeforeStop_le }
  have hrun : s' = StepMachine.after step
      { s with stopping := .runningCleared, running := false } acts := by
    rw [← step_stop_of_shutdownSet hphase]
    exact StepMachine.after_append _ _ _
  have hclosing : Closing s.pushedBeforeStop s' ∧
      (s'.old s.pushedBeforeStop ≤ s'.takers ↔ s.old s.pushedBeforeStop ≤ s.takers) := by
    rw [hrun]
    refine kept_after (I := fun s' => Closing s.pushedBeforeStop s' ∧
      (s'.old s.pushedBeforeStop ≤ s'.takers ↔ s.old s.pushedBeforeStop ≤ s.takers))
      ⟨hcleared, Iff.rfl⟩ ?_ acts
    exact fun h hs => ⟨hs.1.change h, (hs.1.old_le_takers_iff h).trans hs.2⟩
  rw [hclosing.1.finished_iff hleft, ← hclosing.2, takers_eq_zero hleft, Nat.le_zero]

/-- A worker in the wait takes the request that was pushed before `stop` was called. -/
theorem stop_drains_one_waiting :
    let s' := StepMachine.after step (start (.fresh 1 .lru) 1)
      ([Action.worker 0, .worker 0, .worker 0, .worker 0, .addRequest ⟨[], lit "PUT"⟩, .push 0,
        .notifyOne 0, .stop, .stop] ++ Action.stop :: [.stop, .worker 0, .worker 0, .worker 0,
        .worker 0, .worker 0])
    (∀ w ∈ s'.workers, w = .left) ∧ ∀ t < 1, s'.finished.count t = 1 :=
  ⟨by decide, (stop_drains_iff (.fresh 1 .lru) 1 [.worker 0, .worker 0, .worker 0, .worker 0,
    .addRequest ⟨[], lit "PUT"⟩, .push 0, .notifyOne 0, .stop, .stop] [.stop, .worker 0,
    .worker 0, .worker 0, .worker 0, .worker 0] (by decide) (by decide)).mpr (by decide)⟩

/-- **Shutdown can drop a request.** The workers are at the head of their loops when
`stop` clears `running`, and leave with the request still in the queue. -/
theorem stop_drops_request :
    let s := StepMachine.after step (start (.fresh 1 .lru) numWorkerThreads)
      [.addRequest ⟨[], lit "GET"⟩, .push 0, .notifyOne 0, .stop, .stop, .stop, .stop,
        .worker 0, .worker 1, .worker 2, .worker 3, .stop]
    s.stopping = .joined ∧ (∀ w ∈ s.workers, w = .left) ∧ s.pushedBeforeStop = 1 ∧
      s.finished = [] ∧ s.requestQueue = [(0, ⟨[], lit "GET"⟩)] := by
  decide

end BenchmarkServer

end PagedCacheServer
