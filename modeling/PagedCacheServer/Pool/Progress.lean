import PagedCacheServer.Pool.Accounting
import PagedCacheServer.Pool.Wakeup

/-!
# The pool drains its queue

While the server is up, a request that was pushed is processed, in whatever order the
threads go. Two facts make this so.

Nobody goes to sleep over a request. A worker blocks with the lock in its hands, having
found the queue empty, and a push needs the lock; so when there are requests in the
queue, some worker is not in the wait or some notification is still to come
(`PagedCacheServer.BenchmarkServer.Tended`). A notification is lost only when nobody is in
the wait, and then everybody is awake.

And the threads cannot go round in circles. Each step of a worker, each push and each
notification makes `PagedCacheServer.BenchmarkServer.work` smaller. The numbers in it are
chosen so that a worker that takes a request pays with the request, one that is woken
with the notification, and a request and its notification with the call of
`add_request` they come from.

So a schedule that takes any possible step of these, as long as there is one, comes to
an end, and leaves every request finished (`PagedCacheServer.BenchmarkServer.drains`). No
fairness is asked of it. What it may not do is let waits end without a notification,
which could go on for ever.
-/

namespace PagedCacheServer

namespace Worker

/-- How many steps the worker can still take before it blocks, if it takes no request. -/
def effort : Worker → ℕ
  | head => 4
  | locking => 3
  | checking => 2
  | parking | ready => 1
  | blocked | left => 0
  | processing _ _ => 6
  | inserting _ _ => 5

end Worker

namespace BenchmarkServer

variable {s s' : BenchmarkServer} {a : Action} {i : ℕ}

/-- What is left to do. -/
def work (s : BenchmarkServer) : ℕ :=
  11 * s.arrivals.length + 4 * s.notifications + 6 * s.requestQueue.length +
    (s.workers.map Worker.effort).sum

/-- A step of a worker, or of a call of `add_request` that is under way. -/
def Action.isPending : Action → Bool
  | .worker _ | .push _ | .notifyOne _ => true
  | _ => false

/-- **While the server is up, requests are tended to.** -/
structure Tended (s : BenchmarkServer) : Prop where
  running : s.running = true
  shutdown : s.shutdown = false
  exclusive : Exclusive s
  nonempty : s.workers ≠ []
  staying : .left ∉ s.workers
  /-- Nothing is pushed between the check of the predicate and the wait. -/
  parked : .parking ∈ s.workers → s.requestQueue = []
  /-- Nothing is taken between the check of the predicate and the end of the wait. -/
  served : .ready ∈ s.workers → s.requestQueue ≠ []
  tended : s.requestQueue ≠ [] → s.notifications ≠ 0 ∨ ∃ w ∈ s.workers, w ≠ .blocked

/-- Who gives back the lock was the last to have it. -/
theorem Exclusive.notMem_set (hs : Exclusive s) {w w' : Worker} (hw : s.workers[i]? = some w)
    (hlock : w.holdsLock = true) (hlock' : w'.holdsLock = false) {v : Worker}
    (hv : v.holdsLock = true) : v ∉ s.workers.set i w' := by
  have hset := Census.countP_set_add hw w' Worker.holdsLock
  rw [Exclusive] at hs
  rw [hlock, hlock', if_pos rfl, if_neg Bool.false_ne_true] at hset
  have hzero : (s.workers.set i w').countP Worker.holdsLock = 0 := by omega
  exact fun hmem => List.countP_eq_zero.mp hzero v hmem hv

theorem Tended.set (hs : Tended s) (hc : SameCalls s s') {w w' : Worker}
    (hs' : s'.workers = s.workers.set i w') (hw : s.workers[i]? = some w)
    (hexclusive : Exclusive s') (hleft : w' ≠ .left)
    (hparked : .parking ∈ s'.workers → s'.requestQueue = [])
    (hserved : .ready ∈ s'.workers → s'.requestQueue ≠ []) (hne : w' ≠ .blocked) : Tended s' where
  running := hc.running.trans hs.running
  shutdown := hc.shutdown.trans hs.shutdown
  exclusive := hexclusive
  nonempty := by
    rw [hs', ne_eq, List.set_eq_nil_iff]
    exact hs.nonempty
  staying := by
    rw [hs']
    intro hmem
    rcases List.mem_or_eq_of_mem_set hmem with hmem | heq
    · exact hs.staying hmem
    · exact hleft heq.symm
  parked := hparked
  served := hserved
  tended := fun _ => by
    refine .inr ⟨w', ?_, hne⟩
    rw [hs']
    exact List.mem_set (List.getElem?_eq_some_iff.mp hw).1 _

/-- A step that leaves the queue alone and brings nobody to the two places at which it
matters. -/
theorem Tended.set_of_queue (hs : Tended s) (hc : SameCalls s s') {w w' : Worker}
    (hq : s'.requestQueue = s.requestQueue) (hs' : s'.workers = s.workers.set i w')
    (hw : s.workers[i]? = some w) (hexclusive : Exclusive s')
    (hto : w' ∉ [.left, .parking, .ready, .blocked]) : Tended s' := by
  simp only [List.mem_cons, List.not_mem_nil, or_false, not_or] at hto
  obtain ⟨hleft, hparking, hready, hblocked⟩ := hto
  have hmem : ∀ v, v ≠ w' → v ∈ s'.workers → v ∈ s.workers := fun v hv hv' => by
    rw [hs'] at hv'
    exact (List.mem_or_eq_of_mem_set hv').resolve_right hv
  refine hs.set hc hs' hw hexclusive hleft (fun h => ?_) (fun h => ?_) hblocked
  · rw [hq]
    exact hs.parked (hmem _ (Ne.symm hparking) h)
  · rw [hq]
    exact hs.served (hmem _ (Ne.symm hready) h)

theorem Tended.move (hs : Tended s) {w w' : Worker} (hw : s.workers[i]? = some w)
    (hm : Moves s w w') : Tended (s.setWorker i w') := by
  have hmem := List.mem_of_getElem? hw
  have hexclusive := hs.exclusive.move hw hm
  cases hm with
  | enter _ | lock _ =>
    exact hs.set_of_queue ⟨rfl, rfl, rfl, rfl, rfl⟩ rfl rfl hw hexclusive (by simp)
  | exit h =>
    rw [hs.running] at h
    cases h
  | pass h =>
    have hq : s.requestQueue ≠ [] := h.resolve_right (by simp [hs.shutdown])
    refine hs.set ⟨rfl, rfl, rfl, rfl, rfl⟩ rfl hw hexclusive (by simp) (fun hp => ?_)
      (fun _ => hq) (by simp)
    exact hs.parked ((List.mem_or_eq_of_mem_set hp).resolve_right (by simp))
  | fail hq _ =>
    refine hs.set ⟨rfl, rfl, rfl, rfl, rfl⟩ rfl hw hexclusive (by simp) (fun _ => hq)
      (fun hr => ?_) (by simp)
    exact hs.served ((List.mem_or_eq_of_mem_set hr).resolve_right (by simp))
  | block =>
    -- the worker that blocks has found the queue empty, and it still is
    have hq := hs.parked hmem
    have hset : ∀ v, v ≠ .blocked → v ∈ s.workers.set i .blocked → v ∈ s.workers :=
      fun v hv hv' => (List.mem_or_eq_of_mem_set hv').resolve_right hv
    exact
      { running := hs.running
        shutdown := hs.shutdown
        exclusive := hexclusive
        nonempty := by simpa [setWorker, List.set_eq_nil_iff] using hs.nonempty
        staying := fun h => hs.staying (hset _ (by simp) h)
        parked := fun _ => hq
        served := fun h => hs.served (hset _ (by simp) h)
        tended := fun h => absurd hq h }
  | quit _ h =>
    rw [hs.shutdown] at h
    cases h
  | again hq _ => exact absurd hq (hs.served hmem)

theorem Tended.serves (hs : Tended s) (h : Serves s i s') : Tended s' := by
  have hexclusive : Exclusive s' := hs.exclusive.change (.serve h)
  cases h with
  | pop hw hq =>
    have hmem := List.mem_of_getElem? hw
    refine hs.set ⟨rfl, rfl, rfl, rfl, rfl⟩ rfl hw hexclusive (by simp) (fun hp => ?_)
      (fun hr => ?_) (by simp)
    · have hempty := hs.parked ((List.mem_or_eq_of_mem_set hp).resolve_right (by simp))
      exact absurd hempty (hs.served hmem)
    · exact absurd hr (hs.exclusive.notMem_set hw rfl rfl rfl)
  | hit hw _ _ | done hw _ _ =>
    exact hs.set_of_queue ⟨rfl, rfl, rfl, rfl, rfl⟩ rfl rfl hw hexclusive (by simp)
  | miss hw _ _ =>
    exact hs.set_of_queue ⟨rfl, rfl, rfl, rfl, rfl⟩ rfl rfl hw hexclusive (by simp)

/-- **Every step but those of `stop` keeps the requests tended.** -/
theorem Tended.change (ha : a ≠ .stop) (h : Change s a s') (hs : Tended s) : Tended s' := by
  have hexclusive : Exclusive s' := hs.exclusive.change h
  cases h with
  | move hw hm => exact hs.move hw hm
  | serve h => exact hs.serves h
  | wake hw => exact hs.set_of_queue ⟨rfl, rfl, rfl, rfl, rfl⟩ rfl rfl hw hexclusive (by simp)
  | arrive _ => exact { hs with exclusive := hexclusive }
  | push _ hfree =>
    refine { hs with exclusive := hexclusive, parked := fun hp => ?_, served := ?_, tended := ?_ }
    · exact absurd rfl (List.countP_eq_zero.mp (lockFree_iff.mp hfree) _ hp)
    · exact fun _ => by simp
    · exact fun _ => .inl (Nat.succ_ne_zero _)
  | @notify i hn hw =>
    have hset : ∀ v, v ≠ .locking → v ∈ s.workers.set i .locking → v ∈ s.workers :=
      fun v hv hv' => (List.mem_or_eq_of_mem_set hv').resolve_right hv
    exact
      { running := hs.running
        shutdown := hs.shutdown
        exclusive := hexclusive
        nonempty := by simpa [setWorker, List.set_eq_nil_iff] using hs.nonempty
        staying := fun h => hs.staying (hset _ (by simp) h)
        parked := fun h => hs.parked (hset _ (by simp) h)
        served := fun h => hs.served (hset _ (by simp) h)
        tended := fun _ => .inr ⟨.locking,
          List.mem_set (List.getElem?_eq_some_iff.mp hw).1 _, by simp⟩ }
  | lose _ hnone =>
    refine { hs with exclusive := hexclusive, tended := fun _ => ?_ }
    obtain ⟨w, hw⟩ := List.exists_mem_of_ne_nil _ hs.nonempty
    exact .inr ⟨w, hw, fun heq => hnone (heq ▸ hw)⟩
  | call _ _ | setShutdown _ | clearRunning _ | notifyAll _ | join _ _ => exact absurd rfl ha

theorem tended_start (cache : BenchmarkCache) {workers : ℕ} (hpos : 0 < workers) :
    Tended (start cache workers) where
  running := rfl
  shutdown := rfl
  exclusive := by simp [Exclusive, start, List.countP_replicate, Worker.holdsLock]
  nonempty := by simpa [start, List.replicate_eq_nil_iff] using Nat.pos_iff_ne_zero.mp hpos
  staying := by simp [start]
  parked := by simp [start]
  served := by simp [start]
  tended := by simp [start]

/-! ### Nothing goes on for ever -/

theorem sum_effort_set {workers : List Worker} {w : Worker} (hw : workers[i]? = some w)
    (w' : Worker) :
    ((workers.set i w').map Worker.effort).sum + w.effort =
      (workers.map Worker.effort).sum + w'.effort :=
  Census.sum_map_set_add hw w' Worker.effort

/-- **Every step that is pending makes the work less.** -/
theorem work_change (ha : a.isPending = true) (h : Change s a s') (hs : Tended s) :
    s'.work < s.work := by
  simp only [work]
  cases h with
  | @move i w w' hw hm =>
    have hset := sum_effort_set hw w'
    have hlt : w'.effort < w.effort := by
      cases hm with
      | exit h => simp [hs.running] at h
      | quit _ h => simp [hs.shutdown] at h
      | again hq _ => exact absurd hq (hs.served (List.mem_of_getElem? hw))
      | _ => decide
    simp only [setWorker]
    omega
  | serve h =>
    cases h with
    | @pop number request rest hw hq =>
      have hset := sum_effort_set hw (.processing number request)
      simp only [Worker.effort] at hset
      simp only [setWorker, hq, List.length_cons]
      omega
    | hit hw _ _ =>
      have hset := sum_effort_set hw .head
      simp only [Worker.effort] at hset
      simp only [finish]
      omega
    | @miss number request hw _ _ =>
      have hset := sum_effort_set hw (.inserting number request)
      simp only [Worker.effort] at hset
      simp only [setWorker]
      omega
    | @done number request w cache hw hplace _ =>
      have hset := sum_effort_set hw .head
      have hlt : Worker.head.effort < w.effort := by
        rcases hplace with rfl | ⟨rfl, -⟩ <;> simp [Worker.effort]
      simp only [finish]
      omega
  | @push j request hj _ =>
    have hlen := List.length_eraseIdx_add_one (List.getElem?_eq_some_iff.mp hj).1
    simp only [List.length_append, List.length_singleton]
    omega
  | notify hn hw =>
    have hset := sum_effort_set hw .locking
    simp only [Worker.effort] at hset
    simp only [setWorker]
    omega
  | lose hn _ =>
    simp only
    omega
  | wake _ | arrive _ | call _ _ | setShutdown _ | clearRunning _ | notifyAll _ | join _ _ =>
    simp [Action.isPending] at ha

/-! ### Where it ends -/

/-- The step is pending, and possible. -/
def Takes (s : BenchmarkServer) (a : Action) : Prop := a.isPending = true ∧ (s.act a).isSome = true

instance (s : BenchmarkServer) (a : Action) : Decidable (Takes s a) :=
  inferInstanceAs (Decidable (_ ∧ _))

/-- A worker that is not in the wait can go on, or the one that has the lock can. -/
theorem exists_takes_of_worker (hs : Tended s) {w : Worker} (hw : w ∈ s.workers)
    (hne : w ≠ .blocked) : ∃ a, Takes s a := by
  obtain ⟨i, hi⟩ := List.mem_iff_getElem?.mp hw
  have hgo : ∀ j v, s.workers[j]? = some v → v ∉ [.blocked, .left, .locking] →
      Takes s (.worker j) := by
    intro j v hj hv
    refine ⟨rfl, ?_⟩
    simp only [List.mem_cons, List.not_mem_nil, or_false, not_or] at hv
    cases v with
    | ready =>
      simp only [act, workerStep, hj]
      rcases hq : s.requestQueue with _ | ⟨⟨number, request⟩, rest⟩
      · exact absurd hq (hs.served (List.mem_of_getElem? hj))
      · simp
    | blocked | left | locking => simp at hv
    | _ => simp [act, workerStep, hj]
  by_cases hlocking : w = .locking
  · subst hlocking
    rcases hfree : s.lockFree with _ | _
    · -- somebody has the lock
      have hpos : 0 < s.workers.countP Worker.holdsLock := by
        rw [Nat.pos_iff_ne_zero, ne_eq, ← lockFree_iff, hfree]
        exact Bool.false_ne_true
      obtain ⟨v, hv, hlock⟩ := List.countP_pos_iff.mp hpos
      obtain ⟨j, hj⟩ := List.mem_iff_getElem?.mp hv
      refine ⟨_, hgo j v hj ?_⟩
      cases v <;> simp [Worker.holdsLock] at hlock ⊢
    · exact ⟨.worker i, rfl, by simp [act, workerStep, hi, hfree]⟩
  · refine ⟨_, hgo i w hi ?_⟩
    simp only [List.mem_cons, List.not_mem_nil, or_false, not_or]
    exact ⟨hne, fun h => hs.staying (h ▸ hw), hlocking⟩

/-- **When nothing is possible any more**, everybody is in the wait, and there is no
request in the queue and no call under way. -/
theorem quiet_of_not_takes (hs : Tended s) (hnone : ∀ a, ¬ Takes s a) :
    (∀ w ∈ s.workers, w = .blocked) ∧ s.requestQueue = [] ∧ s.arrivals = [] ∧
      s.notifications = 0 := by
  have hblocked : ∀ w ∈ s.workers, w = .blocked := by
    intro w hw
    by_contra hne
    obtain ⟨a, ha⟩ := exists_takes_of_worker hs hw hne
    exact hnone a ha
  have hnotifications : s.notifications = 0 := by
    by_contra hn
    obtain ⟨w, hw⟩ := List.exists_mem_of_ne_nil _ hs.nonempty
    obtain ⟨i, hi⟩ := List.mem_iff_getElem?.mp hw
    rw [hblocked w hw] at hi
    exact hnone (.notifyOne i) ⟨rfl, by simp [act, hn, hi]⟩
  have hfree : s.lockFree = true := by
    rw [lockFree_iff, List.countP_eq_zero]
    intro w hw
    rw [hblocked w hw]
    exact Bool.false_ne_true
  refine ⟨hblocked, ?_, ?_, hnotifications⟩
  · by_contra hq
    rcases hs.tended hq with hn | ⟨w, hw, hne⟩
    · exact hn hnotifications
    · exact hne (hblocked w hw)
  · by_contra harrivals
    obtain ⟨request, hmem⟩ := List.exists_mem_of_ne_nil _ harrivals
    obtain ⟨j, hj⟩ := List.mem_iff_getElem?.mp hmem
    exact hnone (.push j) ⟨rfl, by simp [act, hj, hfree]⟩

/-- Requests that are in no queue and in nobody's hands are finished. -/
theorem Placed.mem_finished (hs : Placed s) (hq : s.requestQueue = [])
    (hidle : ∀ w ∈ s.workers, w.number? = none) {t : ℕ} (ht : t < s.pushed.length) :
    t ∈ s.finished := by
  have hplace := hs t
  have hhands : s.inHands t = 0 := by
    refine List.countP_eq_zero.mpr fun w hw => ?_
    simp [hidle w hw]
  rw [if_pos ht, hhands, inQueue, hq, List.countP_nil] at hplace
  exact List.count_pos_iff.mp (by omega)

theorem Change.length_pushed (ha : a.isPending = true) (h : Change s a s') :
    s'.pushed.length + s'.arrivals.length = s.pushed.length + s.arrivals.length := by
  cases h with
  | serve h => cases h <;> rfl
  | @push j request hj _ =>
    have hlen := List.length_eraseIdx_add_one (List.getElem?_eq_some_iff.mp hj).1
    simp only [List.length_append, List.length_singleton]
    omega
  | arrive _ => simp [Action.isPending] at ha
  | _ => rfl

theorem change_of_takes (h : Takes s a) : Change s a (s.step a).2 := by
  obtain ⟨s', hs'⟩ := Option.isSome_iff_exists.mp h.2
  rw [show (s.step a).2 = s' by simp [step, hs']]
  exact change_of_act hs'

/-- **The pool drains its queue.** From every state a server with workers can reach before
`stop` is called, a schedule of steps of its workers and of the calls of `add_request`
under way is no longer than the work there is; and where none of these steps is possible
any more, every request is finished, those of the calls under way among them, and every
worker is in the wait. -/
theorem drains (cache : BenchmarkCache) {workers : ℕ} (hpos : 0 < workers) (acts : List Action)
    (hstop : .stop ∉ acts) {schedule : List Action}
    (hschedule : StepMachine.Admits step Takes
      (StepMachine.after step (start cache workers) acts) schedule) :
    let s := StepMachine.after step (start cache workers) acts
    let s' := StepMachine.after step s schedule
    schedule.length ≤ s.work ∧
      ((∀ a, ¬ Takes s' a) → s'.pushed.length = s.pushed.length + s.arrivals.length ∧
        (∀ t < s'.pushed.length, t ∈ s'.finished) ∧ s'.requestQueue = [] ∧
        ∀ w ∈ s'.workers, w = .blocked) := by
  intro s s'
  have hs : Tended s := by
    have hacts : StepMachine.Admits step (fun _ a => True ∧ a ≠ .stop) (start cache workers) acts :=
      (StepMachine.admits_of_forall (fun _ _ => trivial) _ acts).and_mem
        fun a ha heq => hstop (heq ▸ ha)
    refine kept_after_of_admits (tended_start cache hpos) ?_ acts hacts
    exact fun ha h hs => hs.change ha.2 h
  have hrun := StepMachine.length_add_le_of_decreasing (μ := work)
    (I := fun s' => Tended s' ∧
      s'.pushed.length + s'.arrivals.length = s.pushed.length + s.arrivals.length)
    (fun u a hu ha => by
      have hchange := change_of_takes ha
      have hne : a ≠ .stop := fun heq => by simp [heq, Takes, Action.isPending] at ha
      exact ⟨⟨hu.1.change hne hchange, (hchange.length_pushed ha.1).trans hu.2⟩,
        work_change ha.1 hchange hu.1⟩)
    ⟨hs, rfl⟩ hschedule
  obtain ⟨⟨htended, hlength⟩, hwork⟩ := hrun
  refine ⟨Nat.le_trans (Nat.le_add_right _ _) hwork, fun hnone => ?_⟩
  obtain ⟨hblocked, hq, harrivals, -⟩ := quiet_of_not_takes htended hnone
  have hplaced : Placed s' := by
    have hall := (accounted_after cache workers (acts ++ schedule)).placed
    rwa [StepMachine.after_append] at hall
  refine ⟨?_, fun t ht => hplaced.mem_finished hq (fun w hw => ?_) ht, hq, hblocked⟩
  · simpa only [harrivals, List.length_nil, Nat.add_zero] using hlength
  · rw [hblocked w hw]
    rfl

theorem not_takes_of_quiet (hblocked : ∀ w ∈ s.workers, w = .blocked)
    (harrivals : s.arrivals = []) (hn : s.notifications = 0) (a : Action) : ¬ Takes s a := by
  rintro ⟨ha, hact⟩
  cases a with
  | worker i =>
    rcases hw : s.workers[i]? with _ | w
    · simp [act, workerStep, hw] at hact
    · obtain rfl := hblocked w (List.mem_of_getElem? hw)
      simp [act, workerStep, hw] at hact
  | push j => simp [act, harrivals] at hact
  | notifyOne i => simp [act, hn] at hact
  | wakeUp i | addRequest request | stop => simp [Action.isPending] at ha

/-- One worker and one `get`, from the call of `add_request` to the wait. -/
theorem drains_one_get :
    let s := StepMachine.after step (start (.fresh 1 .lru) 1) [.addRequest ⟨[], lit "GET"⟩]
    let schedule : List Action := [.push 0, .notifyOne 0, .worker 0, .worker 0, .worker 0,
      .worker 0, .worker 0, .worker 0, .worker 0, .worker 0, .worker 0, .worker 0]
    schedule.length ≤ s.work ∧ 0 ∈ (StepMachine.after step s schedule).finished := by
  intro s schedule
  have hschedule : StepMachine.Admits step Takes s schedule := by decide
  obtain ⟨hle, hend⟩ := drains (.fresh 1 .lru) Nat.one_pos [.addRequest ⟨[], lit "GET"⟩]
    (by decide) hschedule
  obtain ⟨-, hfinished, -⟩ := hend
    (not_takes_of_quiet (by decide) (by decide) (by decide))
  exact ⟨hle, hfinished 0 (by decide)⟩

end BenchmarkServer

end PagedCacheServer
