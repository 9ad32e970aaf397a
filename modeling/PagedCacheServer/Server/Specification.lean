import PagedCacheServer.Server.Streams

/-!
# What the server is for

Seen from outside there are no chunks, buffers, sockets or pages: there are questions,
each asked on some connection, and answers. The specification has nothing but the abstract
cache of `PagedCacheServer.Store`. It answers one question after the other
(`PagedCacheServer.Store.answer`), as the client whose descriptor the question was asked on.

The server refines it (`PagedCacheServer.TCPServer.serves_store`): whatever arrives
in whatever pieces on however many connections, there is one order of all the questions
in which the specification gives the answers that the server gave. On each connection this is
the order in which the questions came, and the questions are the messages its stream is
cut into, as the server appends it: of each chunk what comes before its first zero byte.
-/

namespace PagedCacheServer

open ProtocolParser TCPServer PagedCache

/-- What is said of a reply. -/
def PagedCache.Call.render : Call → Reply → Bytes
  | .add _ _ _, reply =>
    match reply.result with
    | .success => Response.okAdded
    | .keyExists => Response.errorExists
    | .noSpace => Response.errorNoSpace
    | .keyNotFound | .clientMismatch => Response.errorInvalidCommand
  | .update _ _ _, reply =>
    match reply.result with
    | .success => Response.okUpdated
    | .keyNotFound => Response.errorNotFound
    | .clientMismatch => Response.errorAccessDenied
    | .noSpace => Response.errorNoSpace
    | .keyExists => Response.errorInvalidCommand
  | .get _ _, reply =>
    match reply.result with
    | .success => Response.okValue reply.value
    | .keyNotFound => Response.errorNotFound
    | .clientMismatch => Response.errorAccessDenied
    | .keyExists | .noSpace => Response.errorInvalidCommand
  | .delete _ _, reply =>
    match reply.result with
    | .success => Response.okDeleted
    | .keyNotFound => Response.errorNotFound
    | .clientMismatch => Response.errorAccessDenied
    | .keyExists | .noSpace => Response.errorInvalidCommand

/-- A message, and the descriptor it was received on. -/
structure Question where
  fd : ℕ
  message : Bytes
deriving DecidableEq, Repr

/-- **The specification**: the abstract cache answers a question. -/
def Store.answer (s : Store Bytes Bytes Bytes) (q : Question) :
    Bytes × Store Bytes Bytes Bytes :=
  match (parseMessage q.message).call (clientIdOf q.fd) with
  | none => (formatResponse Response.errorInvalidCommand, s)
  | some call => (formatResponse (call.render (s.step call).1), (s.step call).2)

/-- The abstract cache when nothing is stored. -/
def Store.vacant : Store Bytes Bytes Bytes := ⟨fun _ => none, [], PagedCacheServer.totalPages⟩

/-- The questions of a trace, with the answers to them. -/
def answers (t : List Action) : List (Question × Bytes) :=
  t.filterMap fun
    | .answered fd x => some (⟨fd, x.message⟩, x.response)
    | .opened _ | .closed _ => none

/-- The questions of a trace. -/
def questions (t : List Action) : List Question := (answers t).map Prod.fst

section Lemmas

variable {t : List Action} {fd fd' : ℕ} {x : Exchange}

theorem answers_answered :
    answers (t ++ [.answered fd x]) = answers t ++ [(⟨fd, x.message⟩, x.response)] := by
  simp [answers]

theorem answers_opened : answers (t ++ [.opened fd]) = answers t := by simp [answers]

theorem answers_closed : answers (t ++ [.closed fd]) = answers t := by simp [answers]

/-- The messages of a connection are the last questions asked on its descriptor. -/
theorem messagesOn_isSuffix (t : List Action) (fd : ℕ) :
    messagesOn t fd <:+ ((questions t).filter (·.fd = fd)).map Question.message := by
  induction t using List.reverseRecOn with
  | nil => exact List.suffix_rfl
  | append_singleton t a ih =>
    cases a with
    | opened fd' =>
      rw [questions, answers_opened, messagesOn_opened]
      split_ifs
      · exact List.nil_suffix
      · exact ih
    | closed fd' =>
      rw [questions, answers_closed, messagesOn_closed]
      exact ih
    | answered fd' x =>
      rw [questions, answers_answered, List.map_append, List.filter_append, List.map_append,
        ← questions]
      rcases eq_or_ne fd' fd with rfl | hne
      · have hsnoc : messagesOn (t ++ [.answered fd' x]) fd' = messagesOn t fd' ++ [x.message] :=
          messagesOn_answered [x]
        rw [hsnoc]
        simpa using List.suffix_append_self_iff.mpr ih
      · have hsame : messagesOn (t ++ [.answered fd' x]) fd = messagesOn t fd :=
          messagesOn_answered_of_ne hne.symm [x]
        rw [hsame]
        simpa [hne] using ih

/-- **`process_command` is a call on the cache, and what is said of the reply.** -/
theorem processCommand_of_some {cache : PagedCache} {cmd : Command} {clientId : Bytes}
    {call : Call} (h : cmd.call clientId = some call) :
    processCommand cache cmd clientId =
      (formatResponse (call.render (cache.step call).1), (cache.step call).2) := by
  rcases cmd with ⟨type, key, value⟩
  cases type with
  | invalid => simp [Command.call] at h
  | add =>
    obtain rfl := Option.some.inj h
    simp only [processCommand, PagedCache.step, Call.render]
    rcases (cache.addKey key value clientId).1 with _ | _ | _ | _ | _ <;> rfl
  | update =>
    obtain rfl := Option.some.inj h
    simp only [processCommand, PagedCache.step, Call.render]
    rcases (cache.updateKey key value clientId).1 with _ | _ | _ | _ | _ <;> rfl
  | get =>
    obtain rfl := Option.some.inj h
    simp only [processCommand, PagedCache.step, Call.render]
    rcases (cache.getKey key [] clientId).1.1 with _ | _ | _ | _ | _ <;> rfl
  | delete =>
    obtain rfl := Option.some.inj h
    simp only [processCommand, PagedCache.step, Call.render]
    rcases (cache.deleteKey key clientId).1 with _ | _ | _ | _ | _ <;> rfl

/-- **One question.** -/
theorem Exchange.Genuine.answer {cache : PagedCache} (hx : x.Genuine cache fd) (h : cache.Wf) :
    cache.view.answer ⟨fd, x.message⟩ =
      (x.response, (processCommand cache x.command (clientIdOf fd)).2.view) := by
  obtain ⟨hcommand, hresponse⟩ := hx
  rw [hresponse, hcommand, Store.answer]
  rcases hcall : (parseMessage x.message).call (clientIdOf fd) with _ | call
  · rw [processCommand_of_none hcall]
  · have hstep := h.step call
    rw [processCommand_of_some hcall, hstep.reply, hstep.view]

/-- The trace is answered question by question. -/
theorem Legal.answers {admits : PagedCache → ℕ → Prop} (h : Legal admits t) :
    answers t = StepMachine.history Store.answer Store.vacant (questions t) ∧
      (replay t).view = StepMachine.after Store.answer Store.vacant (questions t) := by
  induction h with
  | nil => exact ⟨rfl, fresh_view⟩
  | opened ht hfd ih =>
    rw [questions, answers_opened, replay_snoc]
    exact ih
  | closed ht hfd ih =>
    rw [questions, answers_closed, replay_snoc]
    exact ih
  | @answered t fd x ht hfd hx ih =>
    obtain ⟨hanswers, hview⟩ := ih
    have hanswer := hx.answer (replay_wf t)
    rw [questions, answers_answered, List.map_append, List.map_singleton, ← questions,
      replay_snoc, StepMachine.history_append, StepMachine.after_append, ← hanswers, ← hview,
      StepMachine.history_cons, StepMachine.history_nil, StepMachine.after_cons,
      StepMachine.after_nil, hanswer]
    exact ⟨rfl, rfl⟩

end Lemmas

/-- **The server answers as the specification does.** In every run the answers are those of
the abstract cache to the same questions, one after the other, and what it holds is what the
cache of the server stands for; and the last questions asked on the descriptor of an open
connection are the messages its stream is cut into, in their order. The stream is the one
the server appends to its buffer, without what follows a zero byte in its chunk. -/
theorem TCPServer.serves_store (events : List Event) :
    let s := StepMachine.after TCPServer.step TCPServer.fresh events
    let t := trace TCPServer.fresh events
    answers t = StepMachine.history Store.answer Store.vacant (questions t) ∧
      s.cache.view = StepMachine.after Store.answer Store.vacant (questions t) ∧
      ∀ fd client, s.clients.lookup fd = some client →
        (cutMessages (appended (received events fd))).1 <:+
          ((questions t).filter (·.fd = fd)).map Question.message := by
  intro s t
  have htracks := tracks_run events
  obtain ⟨hanswers, hview⟩ := htracks.legal.answers
  refine ⟨hanswers, ?_, fun fd client hfd => ?_⟩
  · rw [htracks.cache, hview]
  · rw [← framed_after events fd client hfd]
    exact messagesOn_isSuffix t fd

end PagedCacheServer
