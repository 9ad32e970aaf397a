import PagedCacheServer.Benchmark.Defs
import PagedCacheServer.Library.StepMachine

/-!
# The worker pool of the benchmark server

`BenchmarkServer` runs some worker threads over one queue of requests. Threads
interleave, so the server is a state with one step for each thing a thread does
between two points at which another one can come in:

* a worker reads `running` at the head of its loop, locks `queue_mutex`, evaluates the
  predicate of the wait, blocks, wakes up, takes a request, and processes it in one or
  two calls of the cache;
* a caller of `add_request` reads `running`, pushes under the lock, and notifies one
  worker;
* `stop` sets `shutdown`, clears `running`, notifies all workers, and joins them.

Who goes next is not decided by the program: a run is any list of
`PagedCacheServer.BenchmarkServer.Action`, and an action that is not possible leaves
the state as it is. `queue_mutex` is held by the worker that stands between its lock
and its unlock. The flags are atomic, and `stop` writes them without the lock. A wait
may also end without a notification.

The state carries a record of the requests, which no step reads: each one that is
pushed gets the next number, and the record says which were finished and what the
`get` of each returned. The listener thread does nothing and is left out.
-/

namespace PagedCacheServer

/-- `BenchmarkRequest`, without the `client_id`, which is never read. -/
structure BenchmarkRequest where
  key : Bytes
  operation : Bytes
deriving DecidableEq, Repr

/-- `NUM_WORKER_THREADS`. -/
def numWorkerThreads : ℕ := 4

/-- Where a worker stands in `worker_thread_function`. -/
inductive Worker
  /-- At `while (running)`. -/
  | head
  /-- About to lock `queue_mutex`, on its way in or after it was woken. -/
  | locking
  /-- With the lock, about to evaluate the predicate of the wait. -/
  | checking
  /-- With the lock; the predicate was false. -/
  | parking
  /-- In the wait, without the lock. -/
  | blocked
  /-- With the lock, after the wait. -/
  | ready
  /-- In `process_request`. -/
  | processing (number : ℕ) (request : BenchmarkRequest)
  /-- In `process_request`, after a miss. -/
  | inserting (number : ℕ) (request : BenchmarkRequest)
  /-- Gone. -/
  | left
deriving DecidableEq, Repr

/-- Where the call of `stop` stands. -/
inductive StopPhase
  | notCalled
  /-- It has found the server running. -/
  | called
  | shutdownSet
  | runningCleared
  /-- After `notify_all`, waiting for the workers. -/
  | notified
  | joined
deriving DecidableEq, Repr

/-- The state of a `BenchmarkServer` and of the threads in it. -/
structure BenchmarkServer where
  cache : BenchmarkCache
  workers : List Worker
  /-- The requests with their numbers, next one first. -/
  requestQueue : List (ℕ × BenchmarkRequest)
  running : Bool
  shutdown : Bool
  /-- The calls of `add_request` that have found the server running. -/
  arrivals : List BenchmarkRequest
  /-- The calls of `add_request` that have pushed and are about to notify. -/
  notifications : ℕ
  stopping : StopPhase
  /-- Every request that was pushed, in order. -/
  pushed : List BenchmarkRequest
  /-- What each `get` returned: whether it was a hit. -/
  outcomes : List (ℕ × Bool)
  /-- The requests that were processed. -/
  finished : List ℕ
  /-- How many requests had been pushed when `stop` was called. -/
  pushedBeforeStop : ℕ

namespace Worker

/-- The worker has the lock. -/
def holdsLock : Worker → Bool
  | checking | parking | ready => true
  | _ => false

/-- The worker has passed the head of its loop and has not taken a request yet. -/
def waiting : Worker → Bool
  | locking | checking | parking | blocked | ready => true
  | _ => false

/-- The request in the hands of the worker. -/
def number? : Worker → Option ℕ
  | processing number _ | inserting number _ => some number
  | _ => none

/-- What a notification does to the worker. -/
def notify : Worker → Worker
  | blocked => locking
  | w => w

end Worker

namespace BenchmarkServer

/-- `start`, with any number of workers, on a server that was not running. -/
def start (cache : BenchmarkCache) (workers : ℕ) : BenchmarkServer where
  cache := cache
  workers := List.replicate workers .head
  requestQueue := []
  running := true
  shutdown := false
  arrivals := []
  notifications := 0
  stopping := .notCalled
  pushed := []
  outcomes := []
  finished := []
  pushedBeforeStop := 0

/-- `queue_mutex` is free. -/
def lockFree (s : BenchmarkServer) : Bool := s.workers.all fun w => !w.holdsLock

def setWorker (s : BenchmarkServer) (i : ℕ) (w : Worker) : BenchmarkServer :=
  { s with workers := s.workers.set i w }

/-- The worker is done with its request and goes back to the head of its loop. -/
def finish (s : BenchmarkServer) (i number : ℕ) : BenchmarkServer :=
  { s with workers := s.workers.set i .head, finished := s.finished ++ [number] }

/-- The value `process_request` makes up. -/
def dummyValue (key : Bytes) : Bytes := lit "cached_content_for_" ++ key

/-- `cache->reset_stats()`, as `run_trace_benchmark` calls it. It takes no lock, so this is
one step only when no `get` is to come. -/
def resetStats (s : BenchmarkServer) : BenchmarkServer := { s with cache := s.cache.resetStats }

/-- `cache->put(request.key, dummy_value)`. -/
def putRequest (s : BenchmarkServer) (request : BenchmarkRequest) : BenchmarkServer :=
  { s with cache := s.cache.put request.key (dummyValue request.key) }

/-- `process_request`, up to the `put` that follows a miss. -/
def processRequest (s : BenchmarkServer) (i number : ℕ) (request : BenchmarkRequest) :
    BenchmarkServer :=
  if request.operation = lit "GET" then
    let r := s.cache.get request.key []
    let s := { s with cache := r.2, outcomes := s.outcomes ++ [(number, r.1.1)] }
    if r.1.1 then s.finish i number else s.setWorker i (.inserting number request)
  else if request.operation = lit "PUT" then (s.putRequest request).finish i number
  else s.finish i number

/-- The next step of a worker in `worker_thread_function`. -/
def workerStep (s : BenchmarkServer) (i : ℕ) : Option BenchmarkServer :=
  match s.workers[i]? with
  | some .head => some (s.setWorker i (if s.running then .locking else .left))
  | some .locking => if s.lockFree then some (s.setWorker i .checking) else none
  | some .checking =>
    some (s.setWorker i (if s.requestQueue ≠ [] ∨ s.shutdown then .ready else .parking))
  | some .parking => some (s.setWorker i .blocked)
  | some .ready =>
    if s.shutdown ∧ s.requestQueue = [] then some (s.setWorker i .left)
    else
      match s.requestQueue with
      | (number, request) :: rest =>
        some ({ s with requestQueue := rest }.setWorker i (.processing number request))
      | [] => some (s.setWorker i .head)
  | some (.processing number request) => some (s.processRequest i number request)
  | some (.inserting number request) => some ((s.putRequest request).finish i number)
  | some .blocked | some .left | none => none

/-- The next step of the call of `stop`. -/
def stopStep (s : BenchmarkServer) : Option BenchmarkServer :=
  match s.stopping with
  | .notCalled =>
    if s.running then some { s with stopping := .called, pushedBeforeStop := s.pushed.length }
    else none
  | .called => some { s with stopping := .shutdownSet, shutdown := true }
  | .shutdownSet => some { s with stopping := .runningCleared, running := false }
  | .runningCleared =>
    some { s with stopping := .notified, workers := s.workers.map Worker.notify }
  | .notified => if ∀ w ∈ s.workers, w = .left then some { s with stopping := .joined } else none
  | .joined => none

/-- One step of one thread. -/
inductive Action
  /-- The next step of a worker. -/
  | worker (i : ℕ)
  /-- The wait of a worker ends without a notification. -/
  | wakeUp (i : ℕ)
  /-- `add_request` is called, and reads `running`. -/
  | addRequest (request : BenchmarkRequest)
  /-- The `j`-th call of `add_request` that is under way pushes its request. -/
  | push (j : ℕ)
  /-- A call of `add_request` notifies, and the notification goes to this worker. -/
  | notifyOne (i : ℕ)
  /-- The next step of `stop`. -/
  | stop
deriving DecidableEq, Repr

/-- The state after an action, if it is possible. -/
def act (s : BenchmarkServer) : Action → Option BenchmarkServer
  | .worker i => s.workerStep i
  | .wakeUp i => if s.workers[i]? = some .blocked then some (s.setWorker i .locking) else none
  | .addRequest request =>
    if s.running then some { s with arrivals := s.arrivals ++ [request] } else none
  | .push j =>
    match s.arrivals[j]? with
    | some request =>
      if s.lockFree then
        some { s with
          arrivals := s.arrivals.eraseIdx j
          requestQueue := s.requestQueue ++ [(s.pushed.length, request)]
          notifications := s.notifications + 1
          pushed := s.pushed ++ [request] }
      else none
    | none => none
  | .notifyOne i =>
    if s.notifications = 0 then none
    else if s.workers[i]? = some .blocked then
      some { s.setWorker i .locking with notifications := s.notifications - 1 }
    else if .blocked ∈ s.workers then none
    else some { s with notifications := s.notifications - 1 }
  | .stop => s.stopStep

/-- One action. It says whether it was possible. -/
def step (s : BenchmarkServer) (a : Action) : Bool × BenchmarkServer :=
  ((s.act a).isSome, (s.act a).getD s)

end BenchmarkServer

end PagedCacheServer
