import PagedCacheServer.Pool.Steps

/-!
# No request is lost or counted twice

A request goes from the queue into the hands of a worker, and from there to the
finished ones. Its `get` and the `put` after a miss are two steps, between which the
other workers may do anything to the cache, so what is kept is not about the cache but
about the request:

* `PagedCacheServer.BenchmarkServer.Placed`: at each moment it is in exactly one of the
  three places;
* `PagedCacheServer.BenchmarkServer.Answered`: its `get` has been counted if it is
  finished, or about to be inserted, and not otherwise;
* `PagedCacheServer.BenchmarkServer.Tallied`: the `get`s that were counted and those
  still to come are those of the requests that were pushed.

The counters are those of the outcomes since the last `reset_stats`
(`PagedCacheServer.BenchmarkServer.Since`), and
`PagedCacheServer.BenchmarkServer.accounting` puts these together.
-/

namespace PagedCacheServer

namespace Worker

/-- The request in the hands of the worker, with its number. -/
def request? : Worker → Option (ℕ × BenchmarkRequest)
  | processing number request | inserting number request => some (number, request)
  | _ => none

/-- The worker has made the `get` of the request, and goes on to the `put`. -/
def inserts (t : ℕ) : Worker → Bool
  | inserting number _ => number = t
  | _ => false

/-- The worker is about to make a `get`. -/
def awaitsGet : Worker → Bool
  | processing _ request => request.isGet
  | _ => false

theorem number?_eq_map (w : Worker) : w.number? = w.request?.map Prod.fst := by cases w <;> rfl

end Worker

namespace BenchmarkServer

variable {s s' : BenchmarkServer} {a : Action} {i t : ℕ}

/-- How often the request is in the queue. -/
def inQueue (s : BenchmarkServer) (t : ℕ) : ℕ := s.requestQueue.countP fun e => e.1 = t

/-- How many workers have the request in their hands. -/
def inHands (s : BenchmarkServer) (t : ℕ) : ℕ := s.workers.countP fun w => w.number? = some t

/-- How often the `get` of the request was counted. -/
def answers (s : BenchmarkServer) (t : ℕ) : ℕ := s.outcomes.countP fun e => e.1 = t

/-- The requests whose `get` is still to come. -/
def awaitingGets (s : BenchmarkServer) : ℕ :=
  s.requestQueue.countP (fun e => e.2.isGet) + s.workers.countP Worker.awaitsGet

/-- The request with this number is a `get`. -/
def isGetAt (s : BenchmarkServer) (t : ℕ) : Bool := s.pushed[t]?.any BenchmarkRequest.isGet

/-! ### Steps that touch no request -/

/-- The step does nothing to a request. -/
structure Idle (s s' : BenchmarkServer) : Prop where
  cache : s'.cache = s.cache
  requestQueue : s'.requestQueue = s.requestQueue
  pushed : s'.pushed = s.pushed
  outcomes : s'.outcomes = s.outcomes
  finished : s'.finished = s.finished
  /-- The workers that have a request in their hands are the same. -/
  countP_workers : ∀ p : Worker → Bool, (∀ w, w.request? = none → p w = false) →
    s'.workers.countP p = s.workers.countP p

theorem Moves.request?_eq_none {w w' : Worker} (h : Moves s w w') :
    w.request? = none ∧ w'.request? = none := by
  cases h <;> exact ⟨rfl, rfl⟩

theorem countP_set_of_request? {l : List Worker} {w w' : Worker} {p : Worker → Bool}
    (hl : l[i]? = some w) (hw : w.request? = none) (hw' : w'.request? = none)
    (hp : ∀ w, w.request? = none → p w = false) : (l.set i w').countP p = l.countP p := by
  refine Census.countP_set_eq hl ?_
  rw [hp w hw, hp w' hw']

theorem notify_countP {p : Worker → Bool} (hp : ∀ w, w.request? = none → p w = false)
    (l : List Worker) : (l.map Worker.notify).countP p = l.countP p := by
  refine Census.countP_map_eq (fun w => ?_) l
  cases w with
  | blocked => exact (hp _ rfl).trans (hp _ rfl).symm
  | _ => rfl

/-- **What a step does to the requests**: nothing, or it serves one, or it adds one. -/
theorem Change.cases_request (h : Change s a s') :
    Idle s s' ∨ (∃ i, a = .worker i ∧ Serves s i s') ∨
      ∃ request, s'.cache = s.cache ∧ s'.workers = s.workers ∧ s'.outcomes = s.outcomes ∧
        s'.finished = s.finished ∧ s'.pushed = s.pushed ++ [request] ∧
        s'.requestQueue = s.requestQueue ++ [(s.pushed.length, request)] := by
  cases h with
  | move hw hm =>
    obtain ⟨hnone, hnone'⟩ := hm.request?_eq_none
    exact .inl ⟨rfl, rfl, rfl, rfl, rfl, fun p => countP_set_of_request? hw hnone hnone'⟩
  | notify _ hw | wake hw =>
    exact .inl ⟨rfl, rfl, rfl, rfl, rfl, fun p => countP_set_of_request? hw rfl rfl⟩
  | notifyAll _ => exact .inl ⟨rfl, rfl, rfl, rfl, rfl, fun p hp => notify_countP hp _⟩
  | serve h => exact .inr (.inl ⟨_, rfl, h⟩)
  | push _ _ => exact .inr (.inr ⟨_, rfl, rfl, rfl, rfl, rfl, rfl⟩)
  | arrive _ | lose _ _ | call _ _ | setShutdown _ | clearRunning _ | join _ _ =>
    exact .inl ⟨rfl, rfl, rfl, rfl, rfl, fun _ _ => rfl⟩

theorem Idle.mem_workers (h : Idle s s') {w : Worker} (hw : w ∈ s'.workers)
    (hr : w.request? ≠ none) : w ∈ s.workers := by
  have hcount : s'.workers.countP (· = w) = s.workers.countP (· = w) := by
    refine h.countP_workers _ fun w' hnone => decide_eq_false ?_
    rintro rfl
    exact hr hnone
  have hpos : 0 < s'.workers.countP (· = w) := List.countP_pos_iff.mpr ⟨w, hw, by simp⟩
  rw [hcount] at hpos
  obtain ⟨w', hw', heq⟩ := List.countP_pos_iff.mp hpos
  rwa [of_decide_eq_true heq] at hw'

/-! ### Numbers and requests -/

/-- What the worker has in its hands was pushed under its number, and only a `get` is
followed by an insertion. -/
def Fits (pushed : List BenchmarkRequest) : Worker → Prop
  | .processing t request => pushed[t]? = some request
  | .inserting t request => pushed[t]? = some request ∧ request.isGet = true
  | _ => True

/-- Requests keep their numbers. -/
structure Matches (s : BenchmarkServer) : Prop where
  queued : ∀ e ∈ s.requestQueue, s.pushed[e.1]? = some e.2
  held : ∀ w ∈ s.workers, Fits s.pushed w

theorem fits_of_request?_eq_none {pushed : List BenchmarkRequest} {w : Worker}
    (h : w.request? = none) : Fits pushed w := by
  cases w with
  | processing t request | inserting t request => simp [Worker.request?] at h
  | _ => trivial

theorem getElem?_append_of_some {α : Type*} {l l' : List α} {x : α} (h : l[t]? = some x) :
    (l ++ l')[t]? = some x := by
  obtain ⟨ht, -⟩ := List.getElem?_eq_some_iff.mp h
  rwa [List.getElem?_append_left ht]

theorem Fits.append {pushed : List BenchmarkRequest} {w : Worker} (h : Fits pushed w)
    (added : List BenchmarkRequest) : Fits (pushed ++ added) w := by
  cases w with
  | processing t request => exact getElem?_append_of_some h
  | inserting t request => exact ⟨getElem?_append_of_some h.1, h.2⟩
  | _ => trivial

theorem Matches.serves (hs : Matches s) (h : Serves s i s') : Matches s' := by
  cases h with
  | pop hw hq =>
    have hqueued := hs.queued
    rw [hq, List.forall_mem_cons] at hqueued
    exact ⟨hqueued.2, Census.forall_mem_set hs.held hqueued.1⟩
  | hit hw hget hkey => exact ⟨hs.queued, Census.forall_mem_set hs.held trivial⟩
  | miss hw hget hkey =>
    have hheld := hs.held _ (List.mem_of_getElem? hw)
    exact ⟨hs.queued, Census.forall_mem_set hs.held ⟨hheld, hget⟩⟩
  | done hw hplace hframe => exact ⟨hs.queued, Census.forall_mem_set hs.held trivial⟩

theorem Matches.change (h : Change s a s') (hs : Matches s) : Matches s' := by
  rcases h.cases_request with hidle | ⟨i, -, hserves⟩ | ⟨request, -, hw, -, -, hpushed, hq⟩
  · refine ⟨?_, fun w hw => ?_⟩
    · rw [hidle.requestQueue, hidle.pushed]
      exact hs.queued
    · rw [hidle.pushed]
      by_cases hnone : w.request? = none
      · exact fits_of_request?_eq_none hnone
      · exact hs.held w (hidle.mem_workers hw hnone)
  · exact hs.serves hserves
  · constructor
    · rw [hq, hpushed]
      intro e he
      rcases List.mem_append.mp he with he | he
      · exact getElem?_append_of_some (hs.queued e he)
      · obtain rfl := List.mem_singleton.mp he
        simp
    · rw [hw, hpushed]
      exact fun w hw => (hs.held w hw).append _

/-! ### One place at a time -/

/-- **Each request that was pushed is in one place**, and no other is anywhere. -/
def Placed (s : BenchmarkServer) : Prop :=
  ∀ t, s.inQueue t + s.inHands t + s.finished.count t = if t < s.pushed.length then 1 else 0

/-- How the hands of the workers change when one of them does. -/
theorem inHands_set {workers : List Worker} {w : Worker} (hw : workers[i]? = some w) (w' : Worker) :
    (workers.set i w').countP (fun w => w.number? = some t) +
        (if w.number? = some t then 1 else 0) =
      workers.countP (fun w => w.number? = some t) + if w'.number? = some t then 1 else 0 := by
  simpa using Census.countP_set_add hw w' fun w => w.number? = some t

theorem Placed.serves (hs : Placed s) (h : Serves s i s') : Placed s' := by
  intro t
  -- the number of pushed requests stays, so both sides are compared with the old places
  have hpushed : s'.pushed = s.pushed := by cases h <;> rfl
  rw [hpushed, ← hs t]
  simp only [inQueue, inHands]
  cases h with
  | @pop number request rest hw hq =>
    have hset := inHands_set (t := t) hw (.processing number request)
    simp only [Worker.number?_ready, reduceCtorEq, if_false, Worker.number?_processing,
      Option.some.injEq] at hset
    simp only [setWorker, hq, List.countP_cons, decide_eq_true_eq]
    omega
  | @hit number request hw hget hkey =>
    have hset := inHands_set (t := t) hw .head
    simp only [Worker.number?_processing, Option.some.injEq, Worker.number?_head, reduceCtorEq,
      if_false] at hset
    simp only [finish, List.count_append, List.count_singleton, beq_iff_eq]
    omega
  | @miss number request hw hget hkey =>
    simp only [setWorker]
    rw [Census.countP_set_eq hw (by simp)]
  | @done number request w cache hw hplace hframe =>
    have hset := inHands_set (t := t) hw .head
    have hnumber : w.number? = some number := by rcases hplace with rfl | ⟨rfl, -⟩ <;> rfl
    simp only [hnumber, Option.some.injEq, Worker.number?_head, reduceCtorEq, if_false] at hset
    simp only [finish, List.count_append, List.count_singleton, beq_iff_eq]
    omega

theorem Placed.change (h : Change s a s') (hs : Placed s) : Placed s' := by
  rcases h.cases_request with hidle | ⟨i, -, hserves⟩ | ⟨request, -, hw, -, hf, hpushed, hq⟩
  · intro t
    have hhands : s'.inHands t = s.inHands t := by
      refine hidle.countP_workers _ fun w hnone => decide_eq_false ?_
      rw [w.number?_eq_map, hnone]
      simp
    simpa only [inQueue, hhands, hidle.requestQueue, hidle.finished, hidle.pushed] using hs t
  · exact hs.serves hserves
  · intro t
    have hplace := hs t
    simp only [inQueue, inHands, hw, hq, hf, hpushed, List.countP_append, List.countP_singleton,
      List.length_append, List.length_singleton, decide_eq_true_eq] at hplace ⊢
    split_ifs at hplace ⊢ <;> omega

/-! ### One answer each -/

/-- **The `get` of a request is counted once**, when it has left the hands of its worker
or is about to. -/
def Answered (s : BenchmarkServer) : Prop :=
  ∀ t, s.answers t =
    if s.isGetAt t then s.finished.count t + s.workers.countP (Worker.inserts t) else 0

theorem isGetAt_eq {request : BenchmarkRequest} (h : s.pushed[t]? = some request) :
    s.isGetAt t = request.isGet := by
  simp [isGetAt, h]

theorem Answered.serves (hs : Answered s) (hm : Matches s) (h : Serves s i s') : Answered s' := by
  intro t
  have hsame : s'.isGetAt t = s.isGetAt t := by cases h <;> rfl
  have hold := hs t
  rw [hsame]
  simp only [answers] at hold ⊢
  clear hsame
  cases h with
  | @pop number request rest hw hq =>
    have hset :=
      Census.countP_set_eq (b := .processing number request) (p := Worker.inserts t) hw rfl
    simpa only [setWorker, hset] using hold
  | @hit number request hw hget hkey =>
    have hset := Census.countP_set_eq (b := .head) (p := Worker.inserts t) hw rfl
    have hheld := isGetAt_eq (hm.held _ (List.mem_of_getElem? hw))
    simp only [finish, hset, List.countP_append, List.countP_singleton, decide_eq_true_eq,
      List.count_append, List.count_singleton, beq_iff_eq, hold]
    by_cases hnumber : number = t
    · subst hnumber
      simp only [hheld, hget, if_true]
      omega
    · simp only [hnumber, if_false, Nat.add_zero]
  | @miss number request hw hget hkey =>
    have hset := Census.countP_set_add hw (.inserting number request) (Worker.inserts t)
    have hheld := isGetAt_eq (hm.held _ (List.mem_of_getElem? hw))
    simp only [Worker.inserts, Bool.false_eq_true, if_false, Nat.add_zero,
      decide_eq_true_eq] at hset
    simp only [setWorker, hset, List.countP_append, List.countP_singleton, decide_eq_true_eq, hold]
    by_cases hnumber : number = t
    · subst hnumber
      simp only [hheld, hget, if_true]
      omega
    · simp only [hnumber, if_false, Nat.add_zero]
  | @done number request w cache hw hplace hframe =>
    have hset := Census.countP_set_add hw .head (Worker.inserts t)
    have hheld := hm.held _ (List.mem_of_getElem? hw)
    simp only [finish, List.count_append, List.count_singleton, beq_iff_eq, hold]
    rcases hplace with rfl | ⟨rfl, hnot⟩
    · simp only [Worker.inserts, Bool.false_eq_true, if_false, Nat.add_zero,
        decide_eq_true_eq] at hset
      split_ifs at hset ⊢ <;> omega
    · simp only [Worker.inserts, Bool.false_eq_true, if_false, Nat.add_zero] at hset
      by_cases hnumber : number = t
      · subst hnumber
        rw [isGetAt_eq hheld, hnot]
        simp
      · simp only [hset, hnumber, if_false, Nat.add_zero]

theorem countP_inserts_le (s : BenchmarkServer) (t : ℕ) :
    s.workers.countP (Worker.inserts t) ≤ s.inHands t := by
  refine List.countP_mono_left fun w _ hw => ?_
  cases w with
  | inserting number request => simpa [Worker.inserts] using hw
  | _ => simp [Worker.inserts] at hw

theorem Answered.change (h : Change s a s') (hm : Matches s) (hp : Placed s) (hs : Answered s) :
    Answered s' := by
  rcases h.cases_request with hidle | ⟨i, -, hserves⟩ | ⟨request, -, hw, ho, hf, hpushed, -⟩
  · intro t
    have hins : s'.workers.countP (Worker.inserts t) = s.workers.countP (Worker.inserts t) := by
      refine hidle.countP_workers _ fun w hnone => ?_
      cases w with
      | inserting number request => simp [Worker.request?] at hnone
      | _ => rfl
    have hsame : s'.isGetAt t = s.isGetAt t := by rw [isGetAt, hidle.pushed, isGetAt]
    rw [hsame, hins, hidle.finished, ← hs t, answers, hidle.outcomes, answers]
  · exact hs.serves hm hserves
  · intro t
    have hsame : s'.answers t = s.answers t := by rw [answers, ho, answers]
    rw [hsame, hs t, hw, hf]
    rcases Nat.lt_or_ge t s.pushed.length with ht | ht
    · have hget : s'.isGetAt t = s.isGetAt t := by
        rw [isGetAt, hpushed, List.getElem?_append_left ht, isGetAt]
      rw [hget]
    · -- a number that was not given out is nowhere
      have hplace := hp t
      have hle := s.countP_inserts_le t
      rw [if_neg (Nat.not_lt.mpr ht)] at hplace
      split_ifs <;> omega

/-! ### The requests still to come -/

/-- The `get`s that were counted and those still to come are those of the requests that
were pushed. -/
def Tallied (s : BenchmarkServer) : Prop :=
  s.outcomes.length + s.awaitingGets = s.pushed.countP BenchmarkRequest.isGet

theorem Tallied.serves (hs : Tallied s) (h : Serves s i s') : Tallied s' := by
  have hpushed : s'.pushed = s.pushed := by cases h <;> rfl
  rw [Tallied, hpushed, ← hs]
  simp only [awaitingGets]
  cases h with
  | @pop number request rest hw hq =>
    have hset := Census.countP_set_add hw (.processing number request) Worker.awaitsGet
    simp only [Worker.awaitsGet, Bool.false_eq_true, if_false] at hset
    simp only [setWorker, hq, List.countP_cons]
    rcases hget : request.isGet with _ | _
    · simp only [hget, Bool.false_eq_true, if_false] at hset ⊢
      omega
    · simp only [hget, if_true] at hset ⊢
      omega
  | @hit number request hw hget hkey =>
    have hset := Census.countP_set_add hw .head Worker.awaitsGet
    simp only [Worker.awaitsGet, hget, Bool.false_eq_true, if_true, if_false] at hset
    simp only [finish, List.length_append, List.length_singleton]
    omega
  | @miss number request hw hget hkey =>
    have hset := Census.countP_set_add hw (.inserting number request) Worker.awaitsGet
    simp only [Worker.awaitsGet, hget, Bool.false_eq_true, if_true, if_false] at hset
    simp only [setWorker, List.length_append, List.length_singleton]
    omega
  | @done number request w cache hw hplace hframe =>
    have hnot : Worker.head.awaitsGet = w.awaitsGet := by
      rcases hplace with rfl | ⟨rfl, hnot⟩
      · rfl
      · exact hnot.symm
    simp only [finish, Census.countP_set_eq hw hnot]

theorem Tallied.change (h : Change s a s') (hs : Tallied s) : Tallied s' := by
  rcases h.cases_request with hidle | ⟨i, -, hserves⟩ | ⟨request, -, hw, ho, -, hpushed, hq⟩
  · have hawaits : s'.workers.countP Worker.awaitsGet = s.workers.countP Worker.awaitsGet := by
      refine hidle.countP_workers _ fun w hnone => ?_
      cases w with
      | processing number request => simp [Worker.request?] at hnone
      | _ => rfl
    simpa only [Tallied, awaitingGets, hawaits, hidle.outcomes, hidle.pushed,
      hidle.requestQueue] using hs
  · exact hs.serves hserves
  · simp only [Tallied, awaitingGets, hw, ho, hpushed, hq, List.countP_append,
      List.countP_singleton] at hs ⊢
    split_ifs <;> omega

/-! ### The record over a run -/

/-- What is kept of the requests. -/
structure Accounted (s : BenchmarkServer) : Prop where
  fit : Matches s
  placed : Placed s
  answered : Answered s
  tallied : Tallied s

theorem Accounted.change (h : Change s a s') (hs : Accounted s) : Accounted s' where
  fit := hs.fit.change h
  placed := hs.placed.change h
  answered := hs.answered.change h hs.fit hs.placed
  tallied := hs.tallied.change h

theorem accounted_start (cache : BenchmarkCache) (workers : ℕ) :
    Accounted (start cache workers) where
  fit := ⟨by simp [start], fun w hw => by rw [List.eq_of_mem_replicate hw]; trivial⟩
  placed := fun t => by simp [start, inQueue, inHands]
  answered := fun t => by simp [start, answers, isGetAt]
  tallied := by simp [start, Tallied, awaitingGets, Worker.awaitsGet]

/-- **Every run keeps account of its requests.** -/
theorem accounted_after (cache : BenchmarkCache) (workers : ℕ) (acts : List Action) :
    Accounted (StepMachine.after step (start cache workers) acts) :=
  kept_after (accounted_start cache workers) Accounted.change acts

/-! ### The counters -/

/-- What was pushed and what was counted from `s₀` to `s`, when the counters were zero
at `s₀`. -/
structure Since (s₀ s : BenchmarkServer) (added : List BenchmarkRequest)
    (counted : List (ℕ × Bool)) : Prop where
  pushed : s.pushed = s₀.pushed ++ added
  outcomes : s.outcomes = s₀.outcomes ++ counted
  hitCount : s.cache.hitCount = counted.countP fun e => e.2
  missCount : s.cache.missCount = counted.countP fun e => !e.2
  totalRequests : s.cache.totalRequests = counted.length

variable {s₀ : BenchmarkServer} {added : List BenchmarkRequest} {counted : List (ℕ × Bool)}

theorem Since.serves (hs : Since s₀ s added counted) (h : Serves s i s') :
    ∃ counted', Since s₀ s' added counted' := by
  cases h with
  | pop hw hq =>
    exact ⟨counted, hs.pushed, hs.outcomes, hs.hitCount, hs.missCount, hs.totalRequests⟩
  | @hit number request hw hget hkey =>
    have hframe := BenchmarkCache.frame_update s.cache.countHit request.key
    refine ⟨counted ++ [(number, true)], hs.pushed, ?_, ?_, ?_, ?_⟩
    · simp [finish, hs.outcomes]
    · simpa [finish, BenchmarkCache.countHit, hs.hitCount] using hframe.hitCount
    · simpa [finish, BenchmarkCache.countHit, hs.missCount] using hframe.missCount
    · simpa [finish, BenchmarkCache.countHit, hs.totalRequests] using hframe.totalRequests
  | @miss number request hw hget hkey =>
    refine ⟨counted ++ [(number, false)], hs.pushed, ?_, ?_, ?_, ?_⟩
    · simp [setWorker, hs.outcomes]
    · simp [setWorker, BenchmarkCache.countMiss, hs.hitCount]
    · simp [setWorker, BenchmarkCache.countMiss, hs.missCount]
    · simp [setWorker, BenchmarkCache.countMiss, hs.totalRequests]
  | done hw hplace hframe =>
    exact ⟨counted, hs.pushed, hs.outcomes, hframe.hitCount.trans hs.hitCount,
      hframe.missCount.trans hs.missCount, hframe.totalRequests.trans hs.totalRequests⟩

theorem Since.change (h : Change s a s')
    (hs : ∃ added counted, Since s₀ s added counted) :
    ∃ added counted, Since s₀ s' added counted := by
  obtain ⟨added, counted, hs⟩ := hs
  rcases h.cases_request with hidle | ⟨i, -, hserves⟩ | ⟨request, hc, -, ho, -, hpushed, -⟩
  · refine ⟨added, counted, hidle.pushed.trans hs.pushed, hidle.outcomes.trans hs.outcomes,
      ?_, ?_, ?_⟩
    · rw [hidle.cache, hs.hitCount]
    · rw [hidle.cache, hs.missCount]
    · rw [hidle.cache, hs.totalRequests]
  · exact ⟨added, hs.serves hserves⟩
  · refine ⟨added ++ [request], counted, ?_, ho.trans hs.outcomes, ?_, ?_, ?_⟩
    · rw [hpushed, hs.pushed, List.append_assoc]
    · rw [hc, hs.hitCount]
    · rw [hc, hs.missCount]
    · rw [hc, hs.totalRequests]

/-- The counters count the `get`s since they were reset. -/
theorem since_resetStats (s₀ : BenchmarkServer) (acts : List Action) :
    ∃ added counted, Since s₀ (StepMachine.after step s₀.resetStats acts) added counted :=
  kept_after (I := fun s => ∃ added counted, Since s₀ s added counted)
    ⟨[], [], by simp [resetStats], by simp [resetStats], rfl, rfl, rfl⟩ Since.change acts

/-! ### Hits and misses -/

/-- The next step of the worker is the `get` of the request with number `e.1`, which is a
hit exactly if the key is resident now, and is recorded as such. -/
def Gets (s : BenchmarkServer) (i : ℕ) (e : ℕ × Bool) : Prop :=
  ∃ request, s.workers[i]? = some (.processing e.1 request) ∧ request.isGet = true ∧
    (e.2 = true ↔ request.key ∈ s.cache.cacheMap) ∧
    (s.step (.worker i)).2.outcomes = s.outcomes ++ [e]

theorem step_outcomes (s : BenchmarkServer) (a : Action) :
    (s.step a).2.outcomes = s.outcomes ∨ ∃ i e, a = .worker i ∧ Gets s i e := by
  rcases step_cases s a with h | h
  · rw [h]
    exact .inl rfl
  generalize hs' : (s.step a).2 = s' at h
  rcases h.cases_request with hidle | ⟨i, rfl, hserves⟩ | ⟨request, -, -, ho, -⟩
  · exact .inl hidle.outcomes
  · cases hserves with
    | pop hw hq => exact .inl rfl
    | @hit number request hw hget hkey =>
      exact .inr ⟨i, (number, true), rfl, request, hw, hget, by simpa using hkey, by rw [hs']; rfl⟩
    | @miss number request hw hget hkey =>
      exact .inr ⟨i, (number, false), rfl, request, hw, hget, by simpa using hkey, by rw [hs']; rfl⟩
    | done hw hplace hframe => exact .inl rfl
  · exact .inl ho

/-- **Every outcome was that of a `get` at some moment of the run.** -/
theorem outcomes_after (s : BenchmarkServer) (acts : List Action) :
    ∃ counted, (StepMachine.after step s acts).outcomes = s.outcomes ++ counted ∧
      ∀ e ∈ counted, ∃ pre i post, acts = pre ++ .worker i :: post ∧
        Gets (StepMachine.after step s pre) i e := by
  induction acts using List.reverseRecOn with
  | nil => exact ⟨[], by simp, by simp⟩
  | append_singleton acts a ih =>
    obtain ⟨counted, houtcomes, hgets⟩ := ih
    have hlater : ∀ e ∈ counted, ∃ pre i post, acts ++ [a] = pre ++ .worker i :: post ∧
        Gets (StepMachine.after step s pre) i e := by
      intro e he
      obtain ⟨pre, i, post, rfl, h⟩ := hgets e he
      exact ⟨pre, i, post ++ [a], by simp, h⟩
    rw [StepMachine.after_append, StepMachine.after_cons, StepMachine.after_nil]
    rcases step_outcomes (StepMachine.after step s acts) a with h | ⟨i, e, rfl, h⟩
    · exact ⟨counted, h.trans houtcomes, hlater⟩
    · refine ⟨counted ++ [e], ?_, ?_⟩
      · obtain ⟨request, -, -, -, hstep⟩ := h
        rw [hstep, houtcomes, List.append_assoc]
      · intro e' he'
        rcases List.mem_append.mp he' with he' | he'
        · exact hlater e' he'
        · obtain rfl := List.mem_singleton.mp he'
          exact ⟨acts, i, [], rfl, h⟩

/-! ### Since the counters were reset -/

theorem Accounted.resetStats (h : Accounted s) : Accounted s.resetStats :=
  ⟨⟨h.fit.queued, h.fit.held⟩, h.placed, h.answered, h.tallied⟩

theorem awaitingGets_eq_zero (hq : s.requestQueue = [])
    (hidle : ∀ w ∈ s.workers, w.number? = none) : s.awaitingGets = 0 := by
  have hworkers : s.workers.countP Worker.awaitsGet = 0 := by
    refine List.countP_eq_zero.mpr fun w hw => ?_
    cases w with
    | processing number request => simpa using hidle _ hw
    | _ => simp [Worker.awaitsGet]
  rw [awaitingGets, hworkers, hq]
  rfl

/-- A request that was added since is counted from then on. -/
theorem Since.countP_eq (h : Since s₀ s added counted) (h₀ : Accounted s₀) (hs : Accounted s)
    {j : ℕ} {request : BenchmarkRequest} (hj : added[j]? = some request)
    (hget : request.isGet = true) (hfin : s₀.pushed.length + j ∈ s.finished) :
    counted.countP (fun e => e.1 = s₀.pushed.length + j) = 1 := by
  have hat : s.pushed[s₀.pushed.length + j]? = some request := by
    rw [h.pushed, List.getElem?_append_right (Nat.le_add_right _ _), Nat.add_sub_cancel_left, hj]
  have hlt : s₀.pushed.length + j < s.pushed.length := (List.getElem?_eq_some_iff.mp hat).1
  -- nothing was recorded under this number before
  have hbefore : s₀.answers (s₀.pushed.length + j) = 0 := by
    rw [h₀.answered, isGetAt, List.getElem?_eq_none (Nat.le_add_right _ _)]
    rfl
  have hplace := hs.placed (s₀.pushed.length + j)
  have hanswers := hs.answered (s₀.pushed.length + j)
  have hle := s.countP_inserts_le (s₀.pushed.length + j)
  have hpos : 0 < s.finished.count (s₀.pushed.length + j) := List.count_pos_iff.mpr hfin
  rw [if_pos hlt] at hplace
  rw [isGetAt_eq hat, hget, if_pos rfl, answers, h.outcomes, List.countP_append] at hanswers
  rw [answers] at hbefore
  omega

/-- **No request is lost or counted twice.** The counters are reset in a state `s₀`, and `s`
is any state after that. `added` are the requests pushed since, whose numbers start at
`s₀.pushed.length`, and `counted` the `get`s since:

* each request that was added is in one place, the queue, the hands of one worker or
  the finished ones;
* a `get` that is finished was counted once, as a hit or as a miss;
* each hit or miss agrees with whether the key was resident when the `get` was made;
* if no `get` is to come in `s₀`, as when a trace is started, the counters have these `get`s
  and nothing else, and when the queue is empty and all workers are idle, they have the
  `get`s that were added. -/
theorem accounting (cache : BenchmarkCache) (workers : ℕ) (before acts : List Action) :
    let s₀ := StepMachine.after step (start cache workers) before
    let s := StepMachine.after step s₀.resetStats acts
    ∃ added counted, s.pushed = s₀.pushed ++ added ∧ s.outcomes = s₀.outcomes ++ counted ∧
      (∀ j < added.length, s.inQueue (s₀.pushed.length + j) + s.inHands (s₀.pushed.length + j) +
        s.finished.count (s₀.pushed.length + j) = 1) ∧
      (∀ j request, added[j]? = some request → request.isGet = true →
        s₀.pushed.length + j ∈ s.finished →
        counted.countP (fun e => e.1 = s₀.pushed.length + j) = 1) ∧
      (∀ e ∈ counted, ∃ pre i post, acts = pre ++ .worker i :: post ∧
        Gets (StepMachine.after step s₀.resetStats pre) i e) ∧
      (s₀.awaitingGets = 0 →
        s.cache.hitCount = counted.countP (fun e => e.2) ∧
        s.cache.missCount = counted.countP (fun e => !e.2) ∧
        s.cache.hitCount + s.cache.missCount = s.cache.totalRequests ∧
        (s.requestQueue = [] → (∀ w ∈ s.workers, w.number? = none) →
          s.cache.totalRequests = added.countP BenchmarkRequest.isGet)) := by
  intro s₀ s
  have h₀ : Accounted s₀ := accounted_after cache workers before
  have hs : Accounted s := kept_after h₀.resetStats Accounted.change acts
  obtain ⟨added, counted, hsince⟩ := since_resetStats s₀ acts
  obtain ⟨counted', houtcomes, hgets⟩ := outcomes_after s₀.resetStats acts
  obtain rfl : counted' = counted := List.append_cancel_left (houtcomes.symm.trans hsince.outcomes)
  refine ⟨added, counted', hsince.pushed, hsince.outcomes, fun j hj => ?_,
    fun j request hj hget hfin => hsince.countP_eq h₀ hs hj hget hfin, hgets,
    fun hquiet => ⟨hsince.hitCount, hsince.missCount, ?_, fun hq hidle => ?_⟩⟩
  · have hlt : s₀.pushed.length + j < s.pushed.length := by
      rw [hsince.pushed, List.length_append]
      omega
    rw [hs.placed, if_pos hlt]
  · have hsplit := List.length_eq_countP_add_countP (fun e : ℕ × Bool => e.2) (l := counted')
    rw [hsince.hitCount, hsince.missCount, hsince.totalRequests, hsplit]
    simp
  · -- nothing was to come at the reset, and nothing is to come now
    have htally₀ : s₀.outcomes.length + s₀.awaitingGets = s₀.pushed.countP _ := h₀.tallied
    have htally : s.outcomes.length + s.awaitingGets = s.pushed.countP _ := hs.tallied
    rw [awaitingGets_eq_zero hq hidle, hsince.outcomes, hsince.pushed, List.length_append,
      List.countP_append] at htally
    rw [hquiet] at htally₀
    rw [hsince.totalRequests]
    omega

/-- One worker and one `get`, from the reset on. -/
theorem accounting_one_get :
    let s₀ := StepMachine.after step (start (.fresh 1 .lru) 1) [.worker 0]
    let s := StepMachine.after step s₀.resetStats [.addRequest ⟨[], lit "GET"⟩, .push 0,
      .notifyOne 0, .worker 0, .worker 0, .worker 0, .worker 0, .worker 0]
    s₀.awaitingGets = 0 ∧ s.finished = [0] ∧ s.cache.totalRequests = 1 := by
  intro s₀ s
  have hquiet : s₀.awaitingGets = 0 := by decide
  obtain ⟨added, counted, hpushed, -, -, -, -, hcounters⟩ :=
    accounting (.fresh 1 .lru) 1 [.worker 0] [.addRequest ⟨[], lit "GET"⟩, .push 0,
      .notifyOne 0, .worker 0, .worker 0, .worker 0, .worker 0, .worker 0]
  obtain ⟨-, -, -, htotal⟩ := hcounters hquiet
  have hadded : added = [⟨[], lit "GET"⟩] := hpushed.symm.trans (by decide)
  refine ⟨hquiet, by decide, ?_⟩
  rw [htotal (by decide) (by decide), hadded]
  decide

/-- A `get` that waits in the queue while the counters are reset is counted after that,
although no request has been added since. -/
theorem not_accounting :
    ¬∀ (cache : BenchmarkCache) (workers : ℕ) (before acts : List Action)
      (added : List BenchmarkRequest),
      let s₀ := StepMachine.after step (start cache workers) before
      let s := StepMachine.after step s₀.resetStats acts
      s.pushed = s₀.pushed ++ added → s.requestQueue = [] →
        (∀ w ∈ s.workers, w.number? = none) →
        s.cache.totalRequests = added.countP BenchmarkRequest.isGet := by
  intro hall
  have hzero := hall (.fresh 1 .lru) 1 [.addRequest ⟨lit "k", lit "GET"⟩, .push 0]
    [.worker 0, .worker 0, .worker 0, .worker 0, .worker 0, .worker 0] []
    (by decide) (by decide) (by decide)
  revert hzero
  decide

end BenchmarkServer

end PagedCacheServer
