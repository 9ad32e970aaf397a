import PagedCacheServer.Pool.Steps

/-!
# The wake-up at shutdown

`stop` sets `shutdown` and notifies without `queue_mutex`. A worker evaluates the
predicate of its wait and blocks in two steps, with the lock, and `stop` can do all of
its own between them: the notification then finds the worker not yet in the wait, and
nobody is left to send another (`PagedCacheServer.BenchmarkServer.Stuck`).

The window is the only way in. After `notify_all` the flag is set, so nobody comes to
the wait with a false predicate any more, and the workers in it were woken. At most one
worker stands in the window, because it has the lock; and an `add_request` that has
found the server running and is still to push can only do so when this worker is in the
wait, and wakes it. So

* in every run in which `notify_all` never meets a worker in the window, unless a push
  is still to come, no worker is stuck (`PagedCacheServer.BenchmarkServer.no_lost_wakeup`);
* from every state in which it does, a worker may be stuck
  (`PagedCacheServer.BenchmarkServer.stuck_of_parking`), and then stays where it is
  (`PagedCacheServer.BenchmarkServer.Stuck.blocked_after`).
-/

namespace PagedCacheServer

namespace Worker

/-- The worker has found the predicate false and was not woken yet. -/
def asleep : Worker → Bool
  | parking | blocked => true
  | _ => false

theorem asleep_of_number? {w : Worker} (h : w.number? ≠ none) : w.asleep = false := by
  cases w with
  | processing _ _ | inserting _ _ => rfl
  | _ => exact absurd rfl h

theorem holdsLock_notify (w : Worker) : w.notify.holdsLock = w.holdsLock := by cases w <;> rfl

end Worker

namespace BenchmarkServer

variable {s s' : BenchmarkServer} {a : Action} {i : ℕ}

/-- `stop` is past `notify_all`, and a worker is in the wait with `shutdown` set, and no
notification to come: none is about to be sent, and no `add_request` is under way or can
begin. -/
structure Stuck (s : BenchmarkServer) : Prop where
  stopping : s.stopping ∈ [StopPhase.notified, .joined]
  blocked : .blocked ∈ s.workers
  shutdown : s.shutdown = true
  running : s.running = false
  arrivals : s.arrivals = []
  notifications : s.notifications = 0

/-! ### Mutual exclusion -/

/-- At most one worker has the lock. -/
def Exclusive (s : BenchmarkServer) : Prop := s.workers.countP Worker.holdsLock ≤ 1

theorem lockFree_iff : s.lockFree = true ↔ s.workers.countP Worker.holdsLock = 0 := by
  simp [lockFree, List.countP_eq_zero]

/-- A worker that neither takes the lock nor gives it back. -/
theorem Exclusive.set (hs : Exclusive s) {w w' : Worker} (hs' : s'.workers = s.workers.set i w')
    (hw : s.workers[i]? = some w) (hlock : w'.holdsLock = w.holdsLock) : Exclusive s' := by
  rwa [Exclusive, hs', Census.countP_set_eq hw hlock]

theorem Exclusive.move (hs : Exclusive s) {w w' : Worker} (hw : s.workers[i]? = some w)
    (hm : Moves s w w') : Exclusive (s.setWorker i w') := by
  have hset := Census.countP_set_add hw w' Worker.holdsLock
  simp only [Exclusive, setWorker] at hs ⊢
  cases hm with
  | lock h =>
    rw [lockFree_iff] at h
    simp only [Worker.holdsLock, if_true, Bool.false_eq_true, if_false] at hset
    omega
  | _ =>
    simp only [Worker.holdsLock, if_true, Bool.false_eq_true, if_false] at hset
    omega

theorem Exclusive.change (h : Change s a s') (hs : Exclusive s) : Exclusive s' := by
  cases h with
  | move hw hm => exact hs.move hw hm
  | serve h =>
    cases h with
    | @pop number request rest hw hq =>
      have hset := Census.countP_set_add hw (.processing number request) Worker.holdsLock
      simp only [Worker.holdsLock, if_true, Bool.false_eq_true, if_false] at hset
      simp only [Exclusive, setWorker] at hs ⊢
      omega
    | hit hw _ _ | miss hw _ _ => exact hs.set rfl hw rfl
    | @done number request w cache hw hplace _ =>
      have hlock : Worker.head.holdsLock = w.holdsLock := by
        rcases hplace with rfl | ⟨rfl, -⟩ <;> rfl
      exact hs.set rfl hw hlock
  | notify _ hw | wake hw => exact hs.set rfl hw rfl
  | notifyAll _ => rwa [Exclusive, Census.countP_map_eq Worker.holdsLock_notify]
  | _ => exact hs

/-! ### Who can still be asleep -/

/-- The workers that have found the predicate false and were not woken yet. -/
def sleepers (s : BenchmarkServer) : ℕ := s.workers.countP Worker.asleep

/-- After `notify_all`, nobody is asleep, or only the one worker that a push, or the
notification after it, is still to wake. -/
def Woken (s : BenchmarkServer) : Prop :=
  s.stopping ∈ [StopPhase.notified, .joined] →
    s.sleepers = 0 ∨
      s.sleepers ≤ 1 ∧ (s.arrivals ≠ [] ∨ s.notifications ≠ 0 ∧ .parking ∉ s.workers)

/-- What `notify_all` must not meet: a worker in the window, and no push to come. -/
def WindowClosed (s : BenchmarkServer) (a : Action) : Prop :=
  a = .stop → s.stopping = .runningCleared → .parking ∉ s.workers ∨ s.arrivals ≠ []

instance (s : BenchmarkServer) (a : Action) : Decidable (WindowClosed s a) :=
  inferInstanceAs (Decidable (_ → _ → _ ∨ _))

/-- A worker that is neither woken nor put to sleep. -/
theorem Woken.set (hs : Woken s) (hc : SameCalls s s') {w w' : Worker}
    (hs' : s'.workers = s.workers.set i w') (hw : s.workers[i]? = some w)
    (hasleep : w'.asleep = w.asleep) (hne : w' ≠ .parking) : Woken s' := by
  intro hphase
  have hsleepers : s'.sleepers = s.sleepers := by
    rw [sleepers, hs', Census.countP_set_eq hw hasleep, sleepers]
  rw [hsleepers, hc.arrivals, hc.notifications, hs']
  rw [hc.stopping] at hphase
  rcases hs hphase with hzero | ⟨hle, harrivals | ⟨hn, hparking⟩⟩
  · exact .inl hzero
  · exact .inr ⟨hle, .inl harrivals⟩
  · refine .inr ⟨hle, .inr ⟨hn, fun hmem => ?_⟩⟩
    rcases List.mem_or_eq_of_mem_set hmem with hmem | heq
    · exact hparking hmem
    · exact hne heq.symm

/-- The worker that is woken was the last one asleep. -/
theorem sleepers_wake (hs : s.sleepers ≤ 1) (hw : s.workers[i]? = some .blocked) :
    (s.setWorker i .locking).sleepers = 0 := by
  have hset := Census.countP_set_add hw .locking Worker.asleep
  simp only [Worker.asleep, if_true, Bool.false_eq_true, if_false] at hset
  simp only [sleepers, setWorker] at hs ⊢
  omega

theorem Woken.sleepers_le (hs : Woken s) (hphase : s.stopping ∈ [StopPhase.notified, .joined]) :
    s.sleepers ≤ 1 := by
  rcases hs hphase with hzero | ⟨hle, -⟩
  · omega
  · exact hle

theorem Woken.move (hs : Woken s) (hf : Flagged s) {w w' : Worker}
    (hw : s.workers[i]? = some w) (hm : Moves s w w') : Woken (s.setWorker i w') := by
  cases hm with
  | fail _ h =>
    -- the predicate is not false any more when `shutdown` is set
    intro hphase
    have hshut : s.shutdown = true := by
      refine hf.shutdown ?_
      rcases List.mem_pair.mp hphase with h | h <;> simp [show s.stopping = _ from h]
    rw [h] at hshut
    cases hshut
  | _ => exact hs.set ⟨rfl, rfl, rfl, rfl, rfl⟩ rfl hw rfl (by simp)

theorem Woken.serves (hs : Woken s) (h : Serves s i s') : Woken s' := by
  obtain ⟨w, w', hw, hs', hfrom, hto⟩ := h.workers_eq
  have hawake : w.asleep = false := by
    rcases hfrom with rfl | hnumber
    · rfl
    · exact Worker.asleep_of_number? hnumber
  have hawake' : w'.asleep = false := by
    rcases hto with rfl | hnumber
    · rfl
    · exact Worker.asleep_of_number? hnumber
  refine hs.set h.sameCalls hs' hw (hawake'.trans hawake.symm) ?_
  rintro rfl
  cases hawake'

theorem sleepers_notify (l : List Worker) :
    (l.map Worker.notify).countP Worker.asleep = l.countP (· = .parking) := by
  rw [List.countP_map]
  refine List.countP_congr fun w _ => ?_
  cases w <;> simp [Worker.notify, Worker.asleep]

/-- **After `notify_all`, whoever is asleep will be woken**, if the window was closed. -/
theorem Woken.change (ha : WindowClosed s a) (h : Change s a s') (hf : Flagged s)
    (he : Exclusive s) (hs : Woken s) : Woken s' := by
  cases h with
  | move hw hm => exact hs.move hf hw hm
  | serve h => exact hs.serves h
  | arrive _ =>
    intro hphase
    exact .inr ⟨hs.sleepers_le hphase, .inl (by simp)⟩
  | push _ hfree =>
    intro hphase
    refine .inr ⟨hs.sleepers_le hphase, .inr ⟨Nat.succ_ne_zero _, fun hmem => ?_⟩⟩
    exact List.countP_eq_zero.mp (lockFree_iff.mp hfree) _ hmem rfl
  | notify _ hw | wake hw =>
    exact fun hphase => .inl (sleepers_wake (hs.sleepers_le hphase) hw)
  | lose _ hnone =>
    intro hphase
    rcases hs hphase with hzero | ⟨hle, harrivals | ⟨-, hparking⟩⟩
    · exact .inl hzero
    · exact .inr ⟨hle, .inl harrivals⟩
    · refine .inl (List.countP_eq_zero.mpr fun w hw hasleep => ?_)
      cases w with
      | parking => exact hparking hw
      | blocked => exact hnone hw
      | _ => cases hasleep
  | notifyAll hp =>
    intro _
    have hsleepers : s.workers.countP (· = .parking) ≤ s.workers.countP Worker.holdsLock := by
      refine List.countP_mono_left fun w _ hw => ?_
      rw [of_decide_eq_true hw]
      rfl
    rcases ha rfl hp with hparking | harrivals
    · refine .inl ((sleepers_notify _).trans (List.countP_eq_zero.mpr fun w hw heq => ?_))
      rw [of_decide_eq_true heq] at hw
      exact hparking hw
    · exact .inr ⟨Nat.le_trans (Nat.le_of_eq (sleepers_notify _)) (Nat.le_trans hsleepers he),
        .inl harrivals⟩
  | join hp _ => exact fun _ => hs (by simp [hp])
  | call _ _ | setShutdown _ | clearRunning _ => exact fun hphase => by simp at hphase

theorem Woken.not_stuck (hs : Woken s) : ¬ Stuck s := by
  intro h
  have hpos : 0 < s.sleepers := List.countP_pos_iff.mpr ⟨.blocked, h.blocked, rfl⟩
  rcases hs h.stopping with hzero | ⟨-, harrivals | ⟨hn, -⟩⟩
  · omega
  · exact harrivals h.arrivals
  · exact hn h.notifications

/-- **No wake-up is lost**, for any number of workers, in a run in which `notify_all`
meets no worker between its check of the predicate and the wait, or some `add_request`
that is still to push. -/
theorem no_lost_wakeup (cache : BenchmarkCache) (workers : ℕ) (acts : List Action)
    (hclosed : StepMachine.Admits step WindowClosed (start cache workers) acts) :
    ¬ Stuck (StepMachine.after step (start cache workers) acts) := by
  have hstart : Flagged (start cache workers) ∧ Exclusive (start cache workers) ∧
      Woken (start cache workers) :=
    ⟨flagged_start cache workers,
      by simp [Exclusive, start, List.countP_replicate, Worker.holdsLock],
      fun hphase => by simp [start] at hphase⟩
  have hrun := kept_after_of_admits
    (I := fun s => Flagged s ∧ Exclusive s ∧ Woken s) hstart
    (fun ha h hs => ⟨hs.1.change h, hs.2.1.change h, hs.2.2.change ha h hs.1 hs.2.1⟩) acts hclosed
  exact hrun.2.2.not_stuck

/-- A worker that is in the wait when `stop` notifies. -/
theorem no_lost_wakeup_blocked :
    ¬ Stuck (StepMachine.after step (start (.fresh 1 .lru) 1)
      [.worker 0, .worker 0, .worker 0, .worker 0, .stop, .stop, .stop, .stop]) :=
  no_lost_wakeup (.fresh 1 .lru) 1 _ (by decide)

/-- **A wake-up can be lost.** The worker has found the queue empty and the server up when
`stop` sets the flags and notifies, and blocks after that. -/
theorem stuck_worker :
    Stuck (StepMachine.after step (start (.fresh 1 .lru) numWorkerThreads)
      [.worker 0, .worker 0, .worker 0, .stop, .stop, .stop, .stop, .worker 0]) :=
  ⟨by decide, by decide, by decide, by decide, by decide, by decide⟩

/-! ### The window -/

/-- The step of `notify_all`. -/
theorem step_stop_of_runningCleared (h : s.stopping = .runningCleared) :
    (s.step .stop).2 =
      { s with stopping := .notified, workers := s.workers.map Worker.notify } := by
  simp [step, act, stopStep, h]

theorem blocked_notMem_notify (l : List Worker) : .blocked ∉ l.map Worker.notify := by
  intro hmem
  obtain ⟨w, -, hw⟩ := List.mem_map.mp hmem
  cases w <;> cases hw

/-- Notifications that come when nobody is in the wait are lost. -/
theorem after_notifyOne (n : ℕ) (hn : s.notifications = n) (hnone : .blocked ∉ s.workers) :
    StepMachine.after step s (List.replicate n (.notifyOne i)) = { s with notifications := 0 } := by
  induction n generalizing s with
  | zero => rw [List.replicate_zero, StepMachine.after_nil, ← hn]
  | succ n ih =>
    have hi : s.workers[i]? ≠ some .blocked := fun h => hnone (List.mem_of_getElem? h)
    have hstep : (s.step (.notifyOne i)).2 = { s with notifications := n } := by
      simp [step, act, hn, hi, hnone]
    rw [List.replicate_succ, StepMachine.after_cons, hstep]
    exact ih rfl hnone

/-- **The window is a way in**: when `notify_all` meets a worker in it and no push is to
come, this worker may be stuck. -/
theorem stuck_of_parking (hf : Flagged s) (hphase : s.stopping = .runningCleared)
    (hparking : .parking ∈ s.workers) (harrivals : s.arrivals = []) :
    ∃ acts, Stuck (StepMachine.after step s (.stop :: acts)) := by
  obtain ⟨i, hi⟩ := List.mem_iff_getElem?.mp hparking
  -- the notifications under way come while the worker is in the window, and then it blocks
  refine ⟨List.replicate s.notifications (.notifyOne i) ++ [.worker i], ?_⟩
  have hstep : ∀ s : BenchmarkServer, s.workers[i]? = some .parking →
      (s.step (.worker i)).2 = s.setWorker i .blocked := by
    intro s hi
    simp [step, act, workerStep, hi]
  have hi' : (s.workers.map Worker.notify)[i]? = some .parking := by
    rw [List.getElem?_map, hi]
    rfl
  rw [StepMachine.after_cons, step_stop_of_runningCleared hphase, StepMachine.after_append,
    after_notifyOne _ rfl (blocked_notMem_notify _), StepMachine.after_cons, StepMachine.after_nil,
    hstep _ hi']
  exact
    { stopping := by simp [setWorker]
      blocked := List.mem_set (List.getElem?_eq_some_iff.mp hi').1 _
      shutdown := hf.shutdown (by simp [hphase])
      running := hf.running (by simp [hphase])
      arrivals := harrivals
      notifications := rfl }

theorem Stuck.of_sameCalls (h : Stuck s) (hc : SameCalls s s')
    (hi : s'.workers[i]? = some .blocked) : Stuck s' where
  stopping := hc.stopping ▸ h.stopping
  blocked := List.mem_of_getElem? hi
  shutdown := hc.shutdown.trans h.shutdown
  running := hc.running.trans h.running
  arrivals := hc.arrivals.trans h.arrivals
  notifications := hc.notifications.trans h.notifications

/-- A step at another place of the pool. -/
theorem Stuck.set {j : ℕ} {w w' : Worker} (h : Stuck s ∧ s.workers[i]? = some .blocked)
    (hc : SameCalls s s') (hs' : s'.workers = s.workers.set j w') (hw : s.workers[j]? = some w)
    (hne : w ≠ .blocked) : Stuck s' ∧ s'.workers[i]? = some .blocked := by
  have hij : j ≠ i := by
    rintro rfl
    exact hne (Option.some.inj (hw.symm.trans h.2))
  have hi : s'.workers[i]? = some .blocked := by rw [hs', List.getElem?_set_ne hij, h.2]
  exact ⟨h.1.of_sameCalls hc hi, hi⟩

/-- **A stuck worker stays in the wait**, and `stop` with it, unless the wait ends without
a notification. -/
theorem Stuck.blocked_after (h : Stuck s) (hi : s.workers[i]? = some .blocked)
    (acts : List Action) (hacts : .wakeUp i ∉ acts) :
    (StepMachine.after step s acts).workers[i]? = some .blocked := by
  have hadmits : StepMachine.Admits step (fun _ a => True ∧ a ≠ .wakeUp i) s acts :=
    (StepMachine.admits_of_forall (fun _ _ => trivial) s acts).and_mem
      fun a ha heq => hacts (heq ▸ ha)
  refine (kept_after_of_admits (I := fun s => Stuck s ∧ s.workers[i]? = some .blocked)
    ⟨h, hi⟩ ?_ acts hadmits).2
  intro s s' a ha hchange hs
  have hphase := hs.1.stopping
  cases hchange with
  | move hw hm =>
    refine Stuck.set hs ⟨rfl, rfl, rfl, rfl, rfl⟩ rfl hw ?_
    rintro rfl
    cases hm
  | @wake j hw =>
    have hij : j ≠ i := fun heq => ha.2 (by rw [heq])
    have hi : (s.workers.set j .locking)[i]? = some .blocked := by
      rw [List.getElem?_set_ne hij, hs.2]
    exact ⟨hs.1.of_sameCalls ⟨rfl, rfl, rfl, rfl, rfl⟩ hi, hi⟩
  | serve hserves =>
    obtain ⟨w, w', hw, hs', hfrom, -⟩ := hserves.workers_eq
    refine Stuck.set hs hserves.sameCalls hs' hw ?_
    rintro rfl
    simp [Worker.number?] at hfrom
  | arrive hrun =>
    rw [hs.1.running] at hrun
    cases hrun
  | push hj _ =>
    rw [hs.1.arrivals] at hj
    cases hj
  | notify hn _ | lose hn _ => exact absurd hs.1.notifications hn
  | join _ hleft => cases hleft _ hs.1.blocked
  | call hp _ | setShutdown hp | clearRunning hp | notifyAll hp => simp [hp] at hphase

end BenchmarkServer

end PagedCacheServer
