import PagedCacheServer.Benchmark.Values
import PagedCacheServer.Pool.Accounting

/-!
# The calls of the cache, one after the other

`process_request` makes a `get` and, after a miss, a `put`, and between the two another
worker may come in. What the workers do together is still a run of the cache alone: a log
of calls, each made for one request, that leads to the cache as it is
(`PagedCacheServer.BenchmarkServer.Scripted`). What the log has of one request is what
`process_request` does when it is alone: a prefix of it as long as the request is in the
hands of a worker, all of it when the request is finished, and nothing before.

The workers put nothing but made-up values, so that a hit returns the one that belongs to
its key, whoever put it there.
-/

namespace PagedCacheServer

namespace BenchmarkServer

open BenchmarkCache (Call)

variable {s s' : BenchmarkServer} {a : Action} {i t : ℕ} {w w' : Worker}
  {request : BenchmarkRequest} {cache : BenchmarkCache} {calls log : List (ℕ × Call)}
  {capacity : ℕ} {policy : EvictionPolicy}

/-! ### Scripts -/

/-- A call made for the request with this number, and what it returned. -/
abbrev Entry := (ℕ × Call) × (Bool × Bytes)

/-- What `process_request` does, when its `get` is a hit or not. -/
def script (t : ℕ) (request : BenchmarkRequest) (hit : Bool) : List Entry :=
  let put : Entry := ((t, .put request.key (dummyValue request.key)), (true, []))
  if request.operation = lit "GET" then
    if hit then [((t, .get request.key), (true, dummyValue request.key))]
    else [((t, .get request.key), (false, [])), put]
  else if request.operation = lit "PUT" then [put]
  else []

/-- The cache, called for a request. -/
def call (cache : BenchmarkCache) (c : ℕ × Call) : (Bool × Bytes) × BenchmarkCache :=
  cache.step c.2

/-- What the entries have of one request. -/
def entriesOf (t : ℕ) (entries : List Entry) : List Entry := entries.filter fun e => e.1.1 = t

/-- The record of an entry that is a `get`. -/
def Entry.outcome? (e : Entry) : Option (ℕ × Bool) :=
  match e.1.2 with
  | .get _ => some (e.1.1, e.2.1)
  | .put _ _ => none

/-- The entry of a `get` that missed. -/
def missEntry (t : ℕ) (request : BenchmarkRequest) : Entry := ((t, .get request.key), (false, []))

/-! ### One step -/

/-- The calls a worker makes in one step of `process_request`, and where it goes. -/
inductive Executes (t : ℕ) (request : BenchmarkRequest) (cache : BenchmarkCache) :
    Worker → List (ℕ × Call) → Worker → Prop
  | hit (hget : request.operation = lit "GET") (hkey : request.key ∈ cache.cacheMap) :
      Executes t request cache (.processing t request) [(t, .get request.key)] .head
  | miss (hget : request.operation = lit "GET") (hkey : request.key ∉ cache.cacheMap) :
      Executes t request cache (.processing t request) [(t, .get request.key)]
        (.inserting t request)
  | insert : Executes t request cache (.inserting t request)
      [(t, .put request.key (dummyValue request.key))] .head
  | put (hget : request.operation ≠ lit "GET") (hput : request.operation = lit "PUT") :
      Executes t request cache (.processing t request)
        [(t, .put request.key (dummyValue request.key))] .head
  | skip (hget : request.operation ≠ lit "GET") (hput : request.operation ≠ lit "PUT") :
      Executes t request cache (.processing t request) [] .head

/-- A step of `process_request`. -/
structure Processes (s : BenchmarkServer) (i t : ℕ) (request : BenchmarkRequest) (w : Worker)
    (calls : List (ℕ × Call)) (w' : Worker) (s' : BenchmarkServer) : Prop where
  stands : s.workers[i]? = some w
  executes : Executes t request s.cache w calls w'
  cache : s'.cache = StepMachine.after call s.cache calls
  workers : s'.workers = s.workers.set i w'
  pushed : s'.pushed = s.pushed
  finished : s'.finished = if w' = .head then s.finished ++ [t] else s.finished
  outcomes : s'.outcomes =
    s.outcomes ++ (StepMachine.history call s.cache calls).filterMap Entry.outcome?

/-- Any other step. -/
structure Rests (s s' : BenchmarkServer) : Prop where
  cache : s'.cache = s.cache
  outcomes : s'.outcomes = s.outcomes
  finished : s'.finished = s.finished
  pushed : ∃ added, s'.pushed = s.pushed ++ added
  /-- The workers that have made the `get` of a request stay where they are. -/
  countP_workers : ∀ p : Worker → Bool, (∀ w, (∀ t, w.inserts t = false) → p w = false) →
    s'.workers.countP p = s.workers.countP p

theorem Rests.inserting_mem (h : Rests s s') (t : ℕ) (request : BenchmarkRequest) :
    .inserting t request ∈ s'.workers ↔ .inserting t request ∈ s.workers := by
  have hcount := h.countP_workers (· = .inserting t request) fun w hw =>
    decide_eq_false fun heq => by
      have := hw t
      simp [heq, Worker.inserts] at this
  have hmem : ∀ l : List Worker, .inserting t request ∈ l ↔
      0 < l.countP (· = .inserting t request) := fun l => by
    simp [List.countP_pos_iff]
  rw [hmem, hmem, hcount]

theorem Idle.rests (h : Idle s s') : Rests s s' where
  cache := h.cache
  outcomes := h.outcomes
  finished := h.finished
  pushed := ⟨[], by simp [h.pushed]⟩
  countP_workers := fun p hp => h.countP_workers p fun w hw => hp w fun t => by
    cases w with
    | inserting number request => simp [Worker.request?] at hw
    | _ => rfl

theorem workerStep_processing (hw : s.workers[i]? = some (.processing t request)) :
    (s.step (.worker i)).2 = s.processRequest i t request := by
  simp [step, act, workerStep, hw]

theorem workerStep_inserting (hw : s.workers[i]? = some (.inserting t request)) :
    (s.step (.worker i)).2 = (s.putRequest request).finish i t := by
  simp [step, act, workerStep, hw]

theorem processes_of_inserting (hw : s.workers[i]? = some (.inserting t request)) :
    Processes s i t request (.inserting t request)
      [(t, .put request.key (dummyValue request.key))] .head (s.step (.worker i)).2 := by
  rw [workerStep_inserting hw]
  refine ⟨hw, .insert, rfl, rfl, rfl, rfl, ?_⟩
  simp [finish, putRequest, Entry.outcome?]

/-- **One step of `process_request`.** -/
theorem processes_of_processing (hw : s.workers[i]? = some (.processing t request)) :
    ∃ calls w', Processes s i t request (.processing t request) calls w'
      (s.step (.worker i)).2 := by
  rw [workerStep_processing hw, processRequest]
  split_ifs with hget hput
  · rcases hlookup : s.cache.cacheMap.lookup request.key with _ | entry
    · have hkey : request.key ∉ s.cache.cacheMap := AList.lookup_eq_none.mp hlookup
      simp only [BenchmarkCache.get, hlookup, Bool.false_eq_true, if_false]
      refine ⟨_, _, hw, .miss hget hkey, ?_, rfl, rfl, rfl, ?_⟩ <;>
        simp [call, BenchmarkCache.step, BenchmarkCache.get, hlookup, setWorker, Entry.outcome?]
    · have hkey : request.key ∈ s.cache.cacheMap := AList.lookup_isSome.mp (by simp [hlookup])
      simp only [BenchmarkCache.get, hlookup, if_true]
      refine ⟨_, _, hw, .hit hget hkey, ?_, rfl, rfl, rfl, ?_⟩ <;>
        simp [call, BenchmarkCache.step, BenchmarkCache.get, hlookup, finish, Entry.outcome?]
  · refine ⟨_, _, hw, .put hget hput, rfl, rfl, rfl, rfl, ?_⟩
    simp [finish, putRequest, Entry.outcome?]
  · refine ⟨_, _, hw, .skip hget hput, rfl, rfl, rfl, rfl, ?_⟩
    simp [finish]

/-- **Every action is a step of `process_request` or leaves the cache alone.** -/
theorem processes_or_rests (s : BenchmarkServer) (a : Action) :
    (∃ i t request w calls w', Processes s i t request w calls w' (s.step a).2) ∨
      Rests s (s.step a).2 := by
  rcases step_cases s a with hsame | hchange
  · rw [hsame]
    exact .inr ⟨rfl, rfl, rfl, ⟨[], by simp⟩, fun _ _ => rfl⟩
  rcases hchange.cases_request with hidle | ⟨i, rfl, hserves⟩ |
    ⟨request, hc, hw, ho, hf, hpushed, -⟩
  · exact .inr hidle.rests
  · generalize hs' : (s.step (.worker i)).2 = s' at hserves
    cases hserves with
    | pop hw hq =>
      refine .inr ⟨rfl, rfl, rfl, ⟨[], by simp [setWorker]⟩, fun p hp => ?_⟩
      exact Census.countP_set_eq hw ((hp _ fun _ => rfl).trans (hp _ fun _ => rfl).symm)
    | hit hw _ _ | miss hw _ _ =>
      obtain ⟨calls, w', h⟩ := processes_of_processing hw
      rw [hs'] at h
      exact .inl ⟨_, _, _, _, calls, w', h⟩
    | done hw hplace _ =>
      rcases hplace with rfl | ⟨rfl, -⟩
      · have h := processes_of_inserting hw
        rw [hs'] at h
        exact .inl ⟨_, _, _, _, _, _, h⟩
      · obtain ⟨calls, w', h⟩ := processes_of_processing hw
        rw [hs'] at h
        exact .inl ⟨_, _, _, _, calls, w', h⟩
  · exact .inr ⟨hc, ho, hf, ⟨[request], hpushed⟩, fun p _ => by rw [hw]⟩

/-! ### What a step adds to the log -/

theorem Executes.number (h : Executes t request cache w calls w') :
    w.number? = some t ∧ (w' = .head ∨ w' = .inserting t request) ∧ ∀ c ∈ calls, c.1 = t := by
  cases h <;> simp

/-- The workers put nothing but made-up values. -/
theorem Executes.made (h : Executes t request cache w calls w') :
    ∀ c ∈ calls, ∀ k v, c.2 = .put k v → v = dummyValue k := by
  intro c hc k v hput
  cases h with
  | hit | miss =>
    obtain rfl := List.mem_singleton.mp hc
    cases hput
  | insert | put =>
    obtain rfl := List.mem_singleton.mp hc
    cases hput
    rfl
  | skip => cases hc

theorem entriesOf_append (t : ℕ) (entries entries' : List Entry) :
    entriesOf t (entries ++ entries') = entriesOf t entries ++ entriesOf t entries' :=
  List.filter_append _ _

theorem mem_of_mem_history {e : Entry} (he : e ∈ StepMachine.history call cache calls) :
    e.1 ∈ calls := by
  have hfst : (StepMachine.history call cache calls).map Prod.fst = calls :=
    StepMachine.map_fst_history cache calls
  rw [← hfst]
  exact List.mem_map_of_mem he

theorem entriesOf_history (hcalls : ∀ c ∈ calls, c.1 = t) :
    entriesOf t (StepMachine.history call cache calls) = StepMachine.history call cache calls :=
  List.filter_eq_self.mpr fun _ he => decide_eq_true (hcalls _ (mem_of_mem_history he))

theorem entriesOf_history_of_ne {t' : ℕ} (hcalls : ∀ c ∈ calls, c.1 = t) (ht : t' ≠ t) :
    entriesOf t' (StepMachine.history call cache calls) = [] :=
  List.filter_eq_nil_iff.mpr fun _ he => by
    rw [hcalls _ (mem_of_mem_history he), decide_eq_true_eq]
    exact ht.symm

/-- What the log has of the request in the hands of the worker. -/
def heldEntries : Worker → List Entry
  | .inserting t request => [missEntry t request]
  | _ => []

theorem Executes.pushed {pushed : List BenchmarkRequest}
    (h : Executes t request cache w calls w') (hw : Fits pushed w) :
    pushed[t]? = some request := by
  cases h with
  | insert => exact hw.1
  | _ => exact hw

/-- **Where `process_request` goes on, its script goes on**; where it ends, the script
does. -/
theorem Executes.script {pushed : List BenchmarkRequest}
    (h : Executes t request cache w calls w') (hw : Fits pushed w)
    (hvalue : ∀ k e, cache.cacheMap.lookup k = some e → e.value = dummyValue k) :
    (w' = .head → ∃ hit, heldEntries w ++ StepMachine.history call cache calls =
        script t request hit) ∧
      (w' = .inserting t request →
        heldEntries w ++ StepMachine.history call cache calls = [missEntry t request]) := by
  cases h with
  | hit hget hkey =>
    obtain ⟨e, he⟩ := Option.isSome_iff_exists.mp (AList.lookup_isSome.mpr hkey)
    refine ⟨fun _ => ⟨true, ?_⟩, by simp⟩
    simp [heldEntries, call, BenchmarkCache.step, BenchmarkCache.get, he, hvalue _ e he,
      BenchmarkServer.script, hget]
  | miss hget hkey =>
    refine ⟨by simp, fun _ => ?_⟩
    simp [heldEntries, missEntry, call, BenchmarkCache.step, BenchmarkCache.get,
      AList.lookup_eq_none.mpr hkey]
  | insert =>
    have hget : request.operation = lit "GET" := of_decide_eq_true hw.2
    refine ⟨fun _ => ⟨false, ?_⟩, by simp⟩
    simp [heldEntries, missEntry, call, BenchmarkCache.step, BenchmarkServer.script, hget]
  | put hget hput =>
    refine ⟨fun _ => ⟨false, ?_⟩, by simp⟩
    have hne : lit "PUT" ≠ lit "GET" := by decide
    simp [heldEntries, call, BenchmarkCache.step, BenchmarkServer.script, hput, hne]
  | skip hget hput =>
    refine ⟨fun _ => ⟨false, ?_⟩, by simp⟩
    simp [heldEntries, BenchmarkServer.script, hget, hput]

/-! ### The log of a run -/

/-- The calls with their answers, on a new cache. -/
def entries (capacity : ℕ) (policy : EvictionPolicy) (log : List (ℕ × Call)) : List Entry :=
  StepMachine.history call (.fresh capacity policy) log

/-- **The log leads to the cache**, and has of each request what was done of it. -/
structure Scripted (capacity : ℕ) (policy : EvictionPolicy) (s : BenchmarkServer)
    (log : List (ℕ × Call)) : Prop where
  cache : s.cache = StepMachine.after call (.fresh capacity policy) log
  outcomes : s.outcomes = (entries capacity policy log).filterMap Entry.outcome?
  made : ∀ c ∈ log, ∀ k v, c.2 = .put k v → v = dummyValue k
  inserting : ∀ t request, .inserting t request ∈ s.workers →
    entriesOf t (entries capacity policy log) = [missEntry t request]
  finished : ∀ t ∈ s.finished, ∃ request hit, s.pushed[t]? = some request ∧
    entriesOf t (entries capacity policy log) = script t request hit
  others : ∀ t, t ∉ s.finished → (∀ request, .inserting t request ∉ s.workers) →
    entriesOf t (entries capacity policy log) = []

/-- For which requests the calls are made does not matter to the cache. -/
theorem after_call (cache : BenchmarkCache) (log : List (ℕ × Call)) :
    StepMachine.after call cache log =
      StepMachine.after BenchmarkCache.step cache (log.map Prod.snd) :=
  StepMachine.after_map Prod.snd cache log

theorem Scripted.value_eq (hs : Scripted capacity policy s log) (k : Bytes)
    (e : BenchmarkCacheEntry) (he : s.cache.cacheMap.lookup k = some e) :
    e.value = dummyValue k := by
  rw [hs.cache, after_call] at he
  obtain ⟨before, since, hlog, -⟩ := BenchmarkCache.lastPut_after capacity policy _ he
  have hput : Call.put k e.value ∈ log.map Prod.snd := by simp [hlog]
  obtain ⟨c, hc, heq⟩ := List.mem_map.mp hput
  exact hs.made c hc k e.value heq

theorem Placed.notMem_finished (hs : Placed s) (hw : w ∈ s.workers) (ht : w.number? = some t) :
    t ∉ s.finished := by
  intro hmem
  have hplace := hs t
  have hfin : 0 < s.finished.count t := List.count_pos_iff.mpr hmem
  have hhands : 0 < s.inHands t := List.countP_pos_iff.mpr ⟨w, hw, decide_eq_true ht⟩
  split_ifs at hplace <;> omega

theorem Placed.unique (hs : Placed s) (hw : w ∈ s.workers) (hw' : w' ∈ s.workers)
    (ht : w.number? = some t) (ht' : w'.number? = some t) : w = w' := by
  refine Census.eq_of_countP_le_one (p := fun w => w.number? = some t) ?_ hw hw'
    (decide_eq_true ht) (decide_eq_true ht')
  have hplace := hs t
  simp only [inHands] at hplace
  split_ifs at hplace <;> omega

theorem Scripted.processes (hs : Scripted capacity policy s log) (ha : Accounted s)
    (ha' : Accounted s') (h : Processes s i t request w calls w' s') :
    Scripted capacity policy s' (log ++ calls) := by
  obtain ⟨hnumber, hnext, hcalls⟩ := h.executes.number
  have hw := List.mem_of_getElem? h.stands
  have hunfinished := ha.placed.notMem_finished hw hnumber
  have hi : i < s.workers.length := (List.getElem?_eq_some_iff.mp h.stands).1
  have hw' : w' ∈ s'.workers := by
    rw [h.workers]
    exact List.mem_set hi w'
  -- what the log has of the other requests, and of this one
  have hentries : entries capacity policy (log ++ calls) =
      entries capacity policy log ++ StepMachine.history call s.cache calls := by
    rw [entries, StepMachine.history_append, ← hs.cache, entries]
  have hother : ∀ t' ≠ t, entriesOf t' (entries capacity policy (log ++ calls)) =
      entriesOf t' (entries capacity policy log) := by
    intro t' ht'
    rw [hentries, entriesOf_append, entriesOf_history_of_ne hcalls ht', List.append_nil]
  have hheld : entriesOf t (entries capacity policy log) = heldEntries w := by
    rcases h.executes with _ | _ | _ | _ | _
    case insert => exact hs.inserting t request hw
    all_goals
      refine hs.others t hunfinished fun request' hmem => ?_
      have heq := ha.placed.unique hw hmem hnumber rfl
      cases heq
  have hown : entriesOf t (entries capacity policy (log ++ calls)) =
      heldEntries w ++ StepMachine.history call s.cache calls := by
    rw [hentries, entriesOf_append, entriesOf_history hcalls, hheld]
  have hpushed := h.executes.pushed (ha.fit.held w hw)
  obtain ⟨hdone, hmore⟩ := h.executes.script (ha.fit.held w hw) hs.value_eq
  refine ⟨?_, ?_, ?_, fun t' request' hmem => ?_, fun t' hmem => ?_, fun t' hnot hno => ?_⟩
  · rw [h.cache, StepMachine.after_append, hs.cache]
  · rw [h.outcomes, hentries, List.filterMap_append, hs.outcomes]
  · intro c hc k v hput
    rcases List.mem_append.mp hc with hc | hc
    · exact hs.made c hc k v hput
    · exact h.executes.made c hc k v hput
  · rcases eq_or_ne t' t with rfl | hne
    · rcases hnext with rfl | rfl
      · have hfin : t' ∈ s'.finished := by simp [h.finished]
        exact absurd hfin (ha'.placed.notMem_finished hmem rfl)
      · have heq := ha'.placed.unique hmem hw' rfl rfl
        rw [hown, hmore rfl, (Worker.inserting.inj heq).2]
    · rw [hother t' hne]
      refine hs.inserting t' request' ?_
      rw [h.workers] at hmem
      rcases List.mem_or_eq_of_mem_set hmem with hmem | rfl
      · exact hmem
      · rcases hnext with heq | heq
        · cases heq
        · exact absurd (Worker.inserting.inj heq).1 hne
  · rcases eq_or_ne t' t with rfl | hne
    · rcases hnext with rfl | rfl
      · obtain ⟨hit, hscript⟩ := hdone rfl
        exact ⟨request, hit, by rw [h.pushed, hpushed], hown.trans hscript⟩
      · exact absurd hmem (ha'.placed.notMem_finished hw' rfl)
    · have hmem' : t' ∈ s.finished := by
        rw [h.finished] at hmem
        split_ifs at hmem
        · simpa [hne] using hmem
        · exact hmem
      obtain ⟨request', hit, hat, hscript⟩ := hs.finished t' hmem'
      exact ⟨request', hit, by rw [h.pushed, hat], (hother t' hne).trans hscript⟩
  · rcases eq_or_ne t' t with rfl | hne
    · rcases hnext with rfl | rfl
      · exact absurd (by simp [h.finished]) hnot
      · exact absurd hw' (hno request)
    · rw [hother t' hne]
      refine hs.others t' (fun hmem => hnot ?_) fun request' hmem => hno request' ?_
      · rw [h.finished]
        split_ifs
        · exact List.mem_append_left _ hmem
        · exact hmem
      · rw [h.workers]
        refine Census.mem_set_of_ne h.stands hmem ?_ w'
        rintro rfl
        exact hne (Option.some.inj hnumber)

theorem Scripted.rests (hs : Scripted capacity policy s log) (h : Rests s s') :
    Scripted capacity policy s' log where
  cache := h.cache.trans hs.cache
  outcomes := h.outcomes.trans hs.outcomes
  made := hs.made
  inserting := fun t request hmem => hs.inserting t request ((h.inserting_mem t request).mp hmem)
  finished := fun t hmem => by
    obtain ⟨added, hadded⟩ := h.pushed
    obtain ⟨request, hit, hat, hscript⟩ := hs.finished t (h.finished ▸ hmem)
    exact ⟨request, hit, by rw [hadded, getElem?_append_of_some hat], hscript⟩
  others := fun t hnot hno =>
    hs.others t (h.finished ▸ hnot) fun request hmem =>
      hno request ((h.inserting_mem t request).mpr hmem)

/-- **Every run of the pool has a log.** -/
theorem scripted_after (capacity : ℕ) (policy : EvictionPolicy) (workers : ℕ)
    (acts : List Action) :
    ∃ log, Scripted capacity policy
      (StepMachine.after step (start (.fresh capacity policy) workers) acts) log := by
  induction acts using List.reverseRecOn with
  | nil =>
    refine ⟨[], rfl, rfl, by simp, fun t request hmem => ?_, by simp [start], fun _ _ _ => rfl⟩
    rw [StepMachine.after_nil] at hmem
    cases List.eq_of_mem_replicate hmem
  | append_singleton acts a ih =>
    obtain ⟨log, hlog⟩ := ih
    have ha := accounted_after (.fresh capacity policy) workers acts
    have ha' := accounted_after (.fresh capacity policy) workers (acts ++ [a])
    rw [StepMachine.after_append, StepMachine.after_cons, StepMachine.after_nil] at ha' ⊢
    rcases processes_or_rests (StepMachine.after step _ acts) a with
      ⟨i, t, request, w, calls, w', h⟩ | h
    · exact ⟨log ++ calls, hlog.processes ha ha' h⟩
    · exact ⟨log, hlog.rests h⟩

theorem Placed.lt_of_held (hs : Placed s) (hw : w ∈ s.workers) (ht : w.number? = some t) :
    t < s.pushed.length := by
  by_contra hlt
  have hplace := hs t
  have hhands : 0 < s.inHands t := List.countP_pos_iff.mpr ⟨w, hw, decide_eq_true ht⟩
  rw [if_neg hlt] at hplace
  omega

theorem Placed.lt_of_finished (hs : Placed s) (ht : t ∈ s.finished) : t < s.pushed.length := by
  by_contra hlt
  have hplace := hs t
  have hfin : 0 < s.finished.count t := List.count_pos_iff.mpr ht
  rw [if_neg hlt] at hplace
  omega

/-- What the log has of a request that was pushed. -/
theorem Scripted.isPrefix (hs : Scripted capacity policy s log) (ha : Accounted s)
    (hat : s.pushed[t]? = some request) :
    ∃ hit, entriesOf t (entries capacity policy log) <+: script t request hit ∧
      (t ∈ s.finished → entriesOf t (entries capacity policy log) = script t request hit) := by
  by_cases hfin : t ∈ s.finished
  · obtain ⟨request', hit, hat', hscript⟩ := hs.finished t hfin
    obtain rfl := Option.some.inj (hat.symm.trans hat')
    exact ⟨hit, hscript ▸ List.prefix_refl _, fun _ => hscript⟩
  · refine ⟨false, ?_, fun h => absurd h hfin⟩
    by_cases hins : ∃ request', .inserting t request' ∈ s.workers
    · obtain ⟨request', hmem⟩ := hins
      obtain ⟨hat', hget⟩ := ha.fit.held _ hmem
      obtain rfl := Option.some.inj (hat.symm.trans hat')
      have hop : request.operation = lit "GET" := of_decide_eq_true hget
      rw [hs.inserting t request hmem, script, if_pos hop]
      exact List.prefix_append [missEntry t request] _
    · rw [hs.others t hfin fun request' hmem => hins ⟨request', hmem⟩]
      exact List.nil_prefix

/-- **Whatever the schedule, the workers act on the cache one after the other.** For every
capacity, policy, number of workers and interleaving, the cache is the one a sequential run
of some calls leads to, and what the `get`s are recorded to have returned is what they
return in it. The calls are those of the scripts of the requests, interleaved: the entries
of a request are a prefix of its script, all of it once the request is finished, and none
before it was pushed. Every entry of the cache has the value that belongs to its key, and
so has every hit of a script. -/
theorem interleaved (capacity : ℕ) (policy : EvictionPolicy) (workers : ℕ)
    (acts : List Action) :
    let s := StepMachine.after step (start (.fresh capacity policy) workers) acts
    ∃ log : List (ℕ × Call),
      s.cache = StepMachine.after BenchmarkCache.step (.fresh capacity policy)
        (log.map Prod.snd) ∧
      s.outcomes = (entries capacity policy log).filterMap Entry.outcome? ∧
      (∀ t request, s.pushed[t]? = some request → ∃ hit,
        entriesOf t (entries capacity policy log) <+: script t request hit ∧
        (t ∈ s.finished → entriesOf t (entries capacity policy log) = script t request hit)) ∧
      (∀ t, s.pushed[t]? = none → entriesOf t (entries capacity policy log) = []) ∧
      ∀ k e, s.cache.cacheMap.lookup k = some e → e.value = dummyValue k := by
  intro s
  have ha : Accounted s := accounted_after (.fresh capacity policy) workers acts
  obtain ⟨log, hs⟩ := scripted_after capacity policy workers acts
  refine ⟨log, ?_, hs.outcomes, fun t request => hs.isPrefix ha, fun t hnone => ?_, hs.value_eq⟩
  · exact hs.cache.trans (after_call _ log)
  · have hge : s.pushed.length ≤ t := List.getElem?_eq_none_iff.mp hnone
    refine hs.others t (fun hmem => ?_) fun request hmem => ?_
    · exact absurd (ha.placed.lt_of_finished hmem) (Nat.not_lt.mpr hge)
    · exact absurd (ha.placed.lt_of_held hmem rfl) (Nat.not_lt.mpr hge)

end BenchmarkServer

end PagedCacheServer
