import PagedCacheServer.Pool.Steps
import PagedCacheServer.Protocol.RoundTrip
import PagedCacheServer.Trace.Defs

/-!
# What is requested of a trace

Every line of a trace that is not empty stands for one `GET`. The loop of
`run_trace_benchmark` submits these requests, in order, up to the first empty line:
the entry of such a line has an empty key, and the loop takes an empty key for the
end of the file, for which there is an entry of its own. Nothing is lost exactly
when no empty line stands in front of one that is not
(`PagedCacheServer.TraceProcessor.submits_iff`).

The requests go to a running server, whose workers take them off the queue while
the loop is still adding; in every interleaving they are queued in the order in
which they were submitted (`PagedCacheServer.BenchmarkServer.pushed_of_orderly`).
-/

namespace PagedCacheServer

open ProtocolParser (lineFeed getlines getlines_append)

/-! ### Words -/

/-- The words of a line: what stands between white space. -/
def words (line : Bytes) : List Bytes := (line.splitOnP isSpace).filter (· ≠ [])

theorem words_nil : words [] = [] := rfl

theorem words_cons_of_space {c : UInt8} (hc : isSpace c = true) (line : Bytes) :
    words (c :: line) = words line := by
  simp [words, List.splitOnP_cons_eq_if_modifyHead, hc]

theorem words_dropWhile (line : Bytes) : words (line.dropWhile isSpace) = words line := by
  induction line with
  | nil => rfl
  | cons c line ih =>
    by_cases hc : isSpace c = true
    · rw [List.dropWhile_cons_of_pos hc, ih, words_cons_of_space hc]
    · rw [List.dropWhile_cons_of_neg hc]

theorem splitOnP_append {w : Bytes} (hw : ∀ c ∈ w, isSpace c = false) (rest : Bytes) :
    (w ++ rest).splitOnP isSpace = (rest.splitOnP isSpace).modifyHead (w ++ ·) := by
  induction w with
  | nil =>
    change _ = (rest.splitOnP isSpace).modifyHead id
    rw [List.modifyHead_id]
    rfl
  | cons c w ih =>
    rw [List.forall_mem_cons] at hw
    simp [List.splitOnP_cons_eq_if_modifyHead, hw.1, ih hw.2, Function.comp_def]

/-- A word in front of white space, or of nothing. -/
theorem words_append {w rest : Bytes} (hne : w ≠ []) (hw : ∀ c ∈ w, isSpace c = false)
    (hrest : ∀ c ∈ rest.head?, isSpace c = true) : words (w ++ rest) = w :: words rest := by
  rw [words, splitOnP_append hw]
  rcases rest with _ | ⟨c, rest⟩
  · simp [hne, words_nil]
  · have hc : isSpace c = true := hrest c rfl
    rw [words_cons_of_space hc, List.splitOnP_cons_eq_if_modifyHead, if_pos hc]
    simp [hne, words]

/-- What a sweep stops at is not what it drops. -/
theorem of_mem_head?_dropWhile {p : UInt8 → Bool} {l : Bytes} {c : UInt8}
    (hc : c ∈ (l.dropWhile p).head?) : p c = false := by
  have hstop := List.head?_dropWhile_not p l
  rw [Option.mem_def.mp hc] at hstop
  exact hstop

/-- **An extraction takes the first word.** -/
theorem extract_eq (s : Bytes) :
    (extract s = none ∧ words s = []) ∨
      ∃ w rest, extract s = some (w, rest) ∧ w ≠ [] ∧ words s = w :: words rest := by
  have hhead : ∀ c ∈ (s.dropWhile isSpace).head?, isSpace c = false :=
    fun _ hc => of_mem_head?_dropWhile hc
  rw [← words_dropWhile, extract]
  obtain ⟨s', hs'⟩ : ∃ s', s.dropWhile isSpace = s' := ⟨_, rfl⟩
  simp only [hs'] at hhead ⊢
  rcases s' with _ | ⟨c, s'⟩
  · exact Or.inl ⟨rfl, rfl⟩
  · have hc : isSpace c = false := hhead c rfl
    have hne : (c :: s').takeWhile (!isSpace ·) ≠ [] := by
      rw [List.takeWhile_cons_of_pos (by simp [hc])]
      exact List.cons_ne_nil _ _
    refine Or.inr ⟨_, _, if_neg (List.cons_ne_nil c s'), hne, ?_⟩
    conv_lhs => rw [← List.takeWhile_append_dropWhile (p := (!isSpace ·)) (l := c :: s')]
    refine words_append hne (fun c' hc' => ?_) fun c' hc' => ?_
    · simpa using List.mem_takeWhile_imp hc'
    · simpa using of_mem_head?_dropWhile hc'

/-! ### What a trace asks for -/

/-- The key a line stands for: the second of three words or more, or the whole
line. -/
def keyOf (line : Bytes) : Bytes :=
  match words line with
  | _ :: key :: _ :: _ => key
  | _ => line

/-- The request a line stands for. -/
def requestOf (line : Bytes) : BenchmarkRequest := ⟨keyOf line, lit "GET"⟩

/-- The requests of a trace: one for each line that is not empty. -/
def requestsOf (content : Bytes) : List BenchmarkRequest :=
  ((getlines content).filter (· ≠ [])).map requestOf

/-- No empty line stands in front of one that is not. -/
def BlankLinesLast (content : Bytes) : Prop :=
  (getlines content).Pairwise fun line line' => line = [] → line' = []

namespace TraceProcessor

theorem parseEntry_operation (line : Bytes) : (parseEntry line).operation = lit "GET" := by
  rw [parseEntry]
  split
  · rfl
  · split
    · rfl
    · split <;> rfl

/-- The three extractions of `get_next` find the key. -/
theorem parseEntry_key (line : Bytes) : (parseEntry line).key = keyOf line := by
  rw [parseEntry, keyOf]
  rcases extract_eq line with ⟨h₁, hw⟩ | ⟨w₁, r₁, h₁, -, hw⟩
  · rw [h₁, hw]
  rw [h₁, hw]
  rcases extract_eq r₁ with ⟨h₂, hw₂⟩ | ⟨w₂, r₂, h₂, -, hw₂⟩
  · simp only [h₂, hw₂]
  simp only [h₂, hw₂]
  rcases extract_eq r₂ with ⟨h₃, hw₃⟩ | ⟨w₃, r₃, h₃, -, hw₃⟩
  · simp only [h₃, hw₃]
  · simp only [h₃, hw₃]

/-- A line has an empty key exactly when it is empty. -/
theorem keyOf_eq_nil {line : Bytes} : keyOf line = [] ↔ line = [] := by
  constructor
  · intro h
    rw [keyOf] at h
    split at h
    · next key _ _ hw =>
      have hmem : key ∈ words line := by simp [hw]
      exact absurd h (by simpa using List.of_mem_filter hmem)
    · exact h
  · rintro rfl
    rfl

/-! ### The loop -/

/-- Without a line feed there is one line. -/
theorem getlines_of_notMem {content : Bytes} (hfeed : lineFeed ∉ content) (hne : content ≠ []) :
    getlines content = [content] := by
  induction content with
  | nil => exact absurd rfl hne
  | cons c content ih =>
    rw [List.mem_cons, not_or] at hfeed
    rw [getlines, if_neg (Ne.symm hfeed.1)]
    rcases eq_or_ne content [] with rfl | hne'
    · rfl
    · rw [ih hfeed.2 hne']

section Loop

variable {line content rest : Bytes}

theorem good_mk (rest : Bytes) : TraceFile.good { rest := rest } = true := rfl

/-- A line ended by a line feed leaves the stream in good order. -/
theorem getNext_append (hline : lineFeed ∉ line) (rest : Bytes) :
    getNext { rest := line ++ lineFeed :: rest } = (parseEntry line, { rest := rest }) := by
  have htake : (line ++ lineFeed :: rest).takeWhile (· ≠ lineFeed) = line := by
    have hall : ∀ c ∈ line, decide (c ≠ lineFeed) = true :=
      fun c hc => decide_eq_true fun he => hline (he ▸ hc)
    rw [List.takeWhile_append_of_pos hall, List.takeWhile_cons_of_neg (by simp), List.append_nil]
  have hgetline : TraceFile.getline { rest := line ++ lineFeed :: rest } =
      (some line, { rest := rest }) := by
    have hfeed : lineFeed ∈ line ++ lineFeed :: rest := by simp
    simp only [TraceFile.getline, good_mk, if_true, htake, if_pos hfeed]
    rw [← List.drop_drop, List.drop_left]
    rfl
  rw [getNext, hgetline]

/-- A last line without a line feed is read, and the end noticed. -/
theorem getNext_last (hcontent : lineFeed ∉ content) (hne : content ≠ []) :
    getNext { rest := content } = (parseEntry content, { rest := [], eofbit := true }) := by
  have htake : content.takeWhile (· ≠ lineFeed) = content :=
    List.takeWhile_eq_self_iff.mpr fun c hc => decide_eq_true fun he => hcontent (he ▸ hc)
  have hgetline : TraceFile.getline { rest := content } =
      (some content, { rest := [], eofbit := true }) := by
    simp only [TraceFile.getline, good_mk, if_true, htake, if_neg hcontent, if_neg hne]
  rw [getNext, hgetline]

/-- One round of the loop. -/
theorem runTraceBenchmark_of_line {file file' : TraceFile} (hgood : hasNext file = true)
    (hnext : getNext file = (parseEntry line, file')) :
    runTraceBenchmark file =
      if line = [] then [] else requestOf line :: runTraceBenchmark file' := by
  have hget : lit "GET" ≠ lit "EOF" := by decide
  rw [runTraceBenchmark, if_pos hgood]
  simp only [hnext, parseEntry_key, parseEntry_operation, keyOf_eq_nil, hget, or_false]
  by_cases hline : line = []
  · rw [dif_pos hline, if_pos hline]
  · rw [dif_neg hline, if_neg hline]
    rfl

/-- **The loop submits the requests of the lines in front of the first empty
one.** -/
theorem runTraceBenchmark_eq (content : Bytes) :
    runTraceBenchmark { rest := content } =
      ((getlines content).takeWhile (· ≠ [])).map requestOf := by
  induction hn : content.length using Nat.strong_induction_on generalizing content with
  | _ n ih =>
    by_cases hfeed : lineFeed ∈ content
    · obtain ⟨line, rest, rfl, hline⟩ := List.eq_append_cons_of_mem hfeed
      have hlt : rest.length < n := by
        rw [← hn, List.length_append, List.length_cons]
        omega
      rw [runTraceBenchmark_of_line rfl (getNext_append hline rest), getlines_append hline,
        List.takeWhile_cons]
      by_cases hnil : line = []
      · simp [hnil]
      · simp [hnil, ih _ hlt rest rfl]
    · rcases eq_or_ne content [] with rfl | hne
      · rw [runTraceBenchmark]
        rfl
      · have hdone : runTraceBenchmark { rest := [], eofbit := true } = [] := by
          rw [runTraceBenchmark]
          rfl
        have hlines : getlines content = [content] := getlines_of_notMem hfeed hne
        rw [runTraceBenchmark_of_line rfl (getNext_last hfeed hne), if_neg hne, hdone, hlines]
        simp [hne]

/-- **Nothing is lost exactly when the empty lines come last.** The requests
submitted are the first ones of those there should be, so it is enough to count
them. -/
theorem runTraceBenchmark_eq_iff (content : Bytes) :
    runTraceBenchmark { rest := content } = requestsOf content ↔ BlankLinesLast content := by
  rw [runTraceBenchmark_eq, requestsOf, BlankLinesLast]
  induction getlines content with
  | nil => simp
  | cons line lines ih =>
    rw [List.pairwise_cons]
    by_cases hline : line = []
    · rw [List.takeWhile_cons_of_neg (by simpa using hline),
        List.filter_cons_of_neg (by simpa using hline), List.map_nil, eq_comm,
        List.map_eq_nil_iff, List.filter_eq_nil_iff]
      constructor
      · intro h
        have hall : ∀ l ∈ lines, l = [] := fun l hl => by simpa using h l hl
        exact ⟨fun l hl _ => hall l hl,
          List.pairwise_of_forall_mem_list fun _ _ l hl _ => hall l hl⟩
      · rintro ⟨h, -⟩ l hl
        simpa using h l hl hline
    · rw [List.takeWhile_cons_of_pos (by simpa using hline),
        List.filter_cons_of_pos (by simpa using hline), List.map_cons, List.map_cons,
        List.cons.injEq, and_iff_right rfl, ih]
      exact (and_iff_right fun _ _ he => absurd he hline).symm

end Loop

end TraceProcessor

/-! ### Into the queue -/

namespace BenchmarkServer

/-- The requests `add_request` is called with. -/
def addCalls (acts : List Action) : List BenchmarkRequest :=
  acts.filterMap fun
    | .addRequest request => some request
    | _ => none

/-- Nobody stops the server, and `add_request` is called by one thread only: the
call before has pushed its request. -/
def Orderly (s : BenchmarkServer) (a : Action) : Prop :=
  a ≠ .stop ∧ ∀ request, a = .addRequest request → s.arrivals = []

variable {s s' : BenchmarkServer} {a : Action} {acts : List Action}

/-- What has been pushed, with what is about to be, is what was submitted. -/
structure InOrder (base submitted : List BenchmarkRequest) (s : BenchmarkServer) : Prop where
  running : s.running = true
  single : s.arrivals.length ≤ 1
  pushed : s.pushed ++ s.arrivals = base ++ submitted

theorem InOrder.change {base submitted : List BenchmarkRequest} (ha : Orderly s a)
    (hchange : Change s a s') (h : InOrder base submitted s) :
    InOrder base (submitted ++ addCalls [a]) s' := by
  -- the steps of the workers and the notifications leave all of it alone
  have hsame : s'.running = s.running → s'.arrivals = s.arrivals → s'.pushed = s.pushed →
      addCalls [a] = [] → InOrder base (submitted ++ addCalls [a]) s' := by
    intro hrunning harrivals hpushed hnone
    rw [hnone, List.append_nil]
    exact ⟨hrunning ▸ h.running, harrivals ▸ h.single, by rw [hpushed, harrivals, h.pushed]⟩
  cases hchange with
  | move hw hm => exact hsame rfl rfl rfl rfl
  | wake hw => exact hsame rfl rfl rfl rfl
  | serve hserves =>
    have hpushed : s'.pushed = s.pushed := by cases hserves <;> rfl
    exact hsame hserves.sameCalls.running hserves.sameCalls.arrivals hpushed rfl
  | notify hn hw => exact hsame rfl rfl rfl rfl
  | lose hn hw => exact hsame rfl rfl rfl rfl
  | @arrive request hrunning =>
    have hnil : s.arrivals = [] := ha.2 request rfl
    have hpushed := h.pushed
    rw [hnil, List.append_nil] at hpushed
    exact ⟨hrunning, by simp [hnil], by simp [hnil, hpushed, addCalls]⟩
  | @push j request hj hlock =>
    have hsingle : s.arrivals = [request] ∧ j = 0 := by
      obtain ⟨hlt, hget⟩ := List.getElem?_eq_some_iff.mp hj
      have hle := h.single
      have hj0 : j = 0 := by omega
      subst hj0
      refine ⟨?_, rfl⟩
      obtain ⟨x, hx⟩ := List.length_eq_one_iff.mp (show s.arrivals.length = 1 by omega)
      simp only [hx, List.getElem_cons_zero] at hget
      rw [hx, hget]
    obtain ⟨harrivals, rfl⟩ := hsingle
    have hpushed := h.pushed
    rw [harrivals] at hpushed
    exact ⟨h.running, by simp [harrivals], by simp [harrivals, hpushed, addCalls]⟩
  | call _ _ | setShutdown _ | clearRunning _ | notifyAll _ | join _ _ => exact absurd rfl ha.1

theorem step_addRequest (hrunning : s.running = true) (request : BenchmarkRequest) :
    (step s (.addRequest request)).2 = { s with arrivals := s.arrivals ++ [request] } := by
  simp [step, act, hrunning]

/-- **What one thread submits to a running server is queued, in order**, whatever
the workers do in between. -/
theorem pushed_of_orderly (hrunning : s.running = true) (harrivals : s.arrivals = [])
    (hacts : StepMachine.Admits step Orderly s acts) :
    InOrder s.pushed (addCalls acts) (StepMachine.after step s acts) := by
  have hrun := StepMachine.invariant_history_of_admits
    (R := fun h s' => InOrder s.pushed (addCalls (h.map Prod.fst)) s') ?_ ?_ acts hacts
  · rwa [StepMachine.map_fst_history] at hrun
  · exact ⟨hrunning, by simp [harrivals], by simp [harrivals, addCalls]⟩
  · intro h s' a ha hs'
    have happend : addCalls ((h ++ [(a, (step s' a).1)]).map Prod.fst) =
        addCalls (h.map Prod.fst) ++ addCalls [a] := by
      rw [List.map_append]
      exact List.filterMap_append
    rw [happend]
    by_cases hcall : ∃ request, a = .addRequest request
    · -- a running server takes every call
      obtain ⟨request, rfl⟩ := hcall
      rw [step_addRequest hs'.running]
      exact hs'.change ha (.arrive hs'.running)
    · have hnone : addCalls [a] = [] := by
        cases a with
        | addRequest request => exact absurd ⟨request, rfl⟩ hcall
        | worker | wakeUp | push | notifyOne | stop => rfl
      rcases step_cases s' a with hsame | hchange
      · rw [hsame, hnone, List.append_nil]
        exact hs'
      · exact hs'.change ha hchange

/-- A run in which the requests are submitted before anything else happens. -/
def submission (requests : List BenchmarkRequest) : List Action :=
  requests.flatMap fun request => [.addRequest request, .push 0]

theorem addCalls_submission (requests : List BenchmarkRequest) :
    addCalls (submission requests) = requests := by
  induction requests with
  | nil => rfl
  | cons request requests ih =>
    rw [submission, List.flatMap_cons, addCalls, List.filterMap_append]
    exact congrArg (request :: ·) ih

theorem step_push_of_single {request : BenchmarkRequest} (harrivals : s.arrivals = [request])
    (hlock : s.lockFree = true) :
    (step s (.push 0)).2 = { s with
      arrivals := []
      requestQueue := s.requestQueue ++ [(s.pushed.length, request)]
      notifications := s.notifications + 1
      pushed := s.pushed ++ [request] } := by
  simp [step, act, harrivals, hlock]

theorem orderly_submission (requests : List BenchmarkRequest) (hrunning : s.running = true)
    (harrivals : s.arrivals = []) (hlock : s.lockFree = true) :
    StepMachine.Admits step Orderly s (submission requests) ∧
      (StepMachine.after step s (submission requests)).arrivals = [] := by
  induction requests generalizing s with
  | nil => exact ⟨trivial, harrivals⟩
  | cons request requests ih =>
    have hadd := step_addRequest hrunning request
    rw [harrivals, List.nil_append] at hadd
    have hpush := step_push_of_single (s := { s with arrivals := [request] }) rfl hlock
    have hsplit : submission (request :: requests) =
        .addRequest request :: .push 0 :: submission requests := rfl
    rw [hsplit]
    simp only [StepMachine.Admits, StepMachine.after_cons, hadd, hpush]
    -- the server is as it was, but for one request more in the queue
    obtain ⟨hadmits, hafter⟩ := ih (s := { s with
      arrivals := []
      requestQueue := s.requestQueue ++ [(s.pushed.length, request)]
      notifications := s.notifications + 1
      pushed := s.pushed ++ [request] }) hrunning rfl hlock
    exact ⟨⟨⟨by simp, fun _ _ => harrivals⟩, ⟨by simp, by simp⟩, hadmits⟩, hafter⟩

end BenchmarkServer

namespace TraceProcessor

open BenchmarkServer

/-- **Run on a running server, the benchmark submits the requests of the trace**:
whatever the interleaving, when the thread that runs it has made its calls, these
requests have been queued, and no others. -/
def Submits (content : Bytes) : Prop :=
  ∀ (s : BenchmarkServer) (acts : List BenchmarkServer.Action), s.running = true → s.arrivals = [] →
    StepMachine.Admits BenchmarkServer.step Orderly s acts →
    addCalls acts = runTraceBenchmark { rest := content } →
    (StepMachine.after BenchmarkServer.step s acts).arrivals = [] →
      (StepMachine.after BenchmarkServer.step s acts).pushed = s.pushed ++ requestsOf content

theorem submits_iff_eq (content : Bytes) :
    Submits content ↔ runTraceBenchmark { rest := content } = requestsOf content := by
  constructor
  · intro h
    let s := start (BenchmarkCache.fresh 1 .lru) numWorkerThreads
    obtain ⟨hadmits, hafter⟩ := orderly_submission (s := s)
      (runTraceBenchmark { rest := content }) rfl rfl rfl
    have hcalls := addCalls_submission (runTraceBenchmark { rest := content })
    have hpushed := (pushed_of_orderly rfl rfl hadmits).pushed
    rw [hafter, List.append_nil, hcalls, h s _ rfl rfl hadmits hcalls hafter] at hpushed
    exact (List.append_cancel_left hpushed).symm
  · intro heq s acts hrunning harrivals hacts hcalls hafter
    have hpushed := (pushed_of_orderly hrunning harrivals hacts).pushed
    rw [hafter, List.append_nil, hcalls, heq] at hpushed
    exact hpushed

/-- **When no trace line is lost**: exactly when no empty line stands in front of
one that is not. -/
theorem submits_iff (content : Bytes) : Submits content ↔ BlankLinesLast content := by
  rw [submits_iff_eq, runTraceBenchmark_eq_iff]

/-- Of two keys with an empty line between them only the first one is requested. -/
theorem not_submits : ¬∀ content, Submits content := by
  intro hall
  have hlast := (runTraceBenchmark_eq_iff (lit "a\n\nb\n")).mp ((submits_iff_eq _).mp (hall _))
  revert hlast
  rw [BlankLinesLast]
  decide

end TraceProcessor

end PagedCacheServer
