import PagedCacheServer.Cache.Refine
import PagedCacheServer.Protocol.RoundTrip
import PagedCacheServer.Server.Defs

/-!
# Traces of the server

What the connections of a server add up to, without chunks and buffers: a trace
of actions, in which connections are opened and closed and messages on open ones
are answered. `PagedCacheServer.Legal` says which traces there are – a message is
only answered on an open connection, and answered as `process_command` does on
the cache that the earlier answers left (`PagedCacheServer.replay`).

`PagedCacheServer.TCPServer.tracks_after` is the simulation: **the trace of every
run is legal**, its cache is the cache of the server and its open connections are
the clients of the server. What is claimed of the answers of a server is then
proved by induction over legal traces.

Which connections the environment opens can be restricted: `admits` is a
condition on the cache and the descriptor at each `opened`.
-/

namespace PagedCacheServer

open ProtocolParser TCPServer

/-- The effect of an action on the cache. -/
def Action.apply (cache : PagedCache) : Action → PagedCache
  | .answered fd x => (processCommand cache x.command (clientIdOf fd)).2
  | .opened _ | .closed _ => cache

/-- The cache a trace leaves. -/
def replay (t : List Action) : PagedCache := t.foldl Action.apply PagedCache.fresh

/-- The connection on `fd` is open at the end of a trace. -/
def isOpen (t : List Action) (fd : ℕ) : Bool :=
  t.foldl (fun live a =>
    match a with
    | .opened fd' => fd' = fd || live
    | .closed fd' => fd' ≠ fd && live
    | .answered _ _ => live) false

/-- The command is the one in the message, and the response the one
`process_command` gives. -/
def Exchange.Genuine (cache : PagedCache) (fd : ℕ) (x : Exchange) : Prop :=
  x.command = parseMessage x.message ∧
    x.response = (processCommand cache x.command (clientIdOf fd)).1

/-- **The traces of a server** whose environment opens connections as `admits`
says. -/
inductive Legal (admits : PagedCache → ℕ → Prop) : List Action → Prop
  | nil : Legal admits []
  | opened {t : List Action} {fd : ℕ} (ht : Legal admits t) (hfd : admits (replay t) fd) :
    Legal admits (t ++ [.opened fd])
  | closed {t : List Action} {fd : ℕ} (ht : Legal admits t) (hfd : isOpen t fd = true) :
    Legal admits (t ++ [.closed fd])
  | answered {t : List Action} {fd : ℕ} {x : Exchange} (ht : Legal admits t)
    (hfd : isOpen t fd = true) (hx : x.Genuine (replay t) fd) : Legal admits (t ++ [.answered fd x])

section Lemmas

variable {t : List Action} {fd fd' : ℕ} {x : Exchange}

theorem replay_snoc (t : List Action) (a : Action) : replay (t ++ [a]) = a.apply (replay t) := by
  simp [replay]

@[simp] theorem isOpen_nil : isOpen [] fd = false := rfl

@[simp] theorem isOpen_opened :
    isOpen (t ++ [Action.opened fd']) fd = (decide (fd' = fd) || isOpen t fd) := by
  simp [isOpen]

@[simp] theorem isOpen_closed :
    isOpen (t ++ [Action.closed fd']) fd = (decide (fd' ≠ fd) && isOpen t fd) := by
  simp [isOpen]

@[simp] theorem isOpen_answered : isOpen (t ++ [Action.answered fd' x]) fd = isOpen t fd := by
  simp [isOpen]

end Lemmas

/-- An action of a trace that is one longer is the last one, or was there
before. -/
theorem snoc_eq_append_cons {t before later : List Action} {a b : Action}
    (h : t ++ [a] = before ++ b :: later) :
    (later = [] ∧ t = before ∧ a = b) ∨
      ∃ later', later = later' ++ [a] ∧ t = before ++ b :: later' := by
  rcases List.eq_nil_or_concat later with rfl | ⟨later', c, rfl⟩
  · obtain ⟨ht, ha⟩ := List.append_inj' h rfl
    exact Or.inl ⟨rfl, ht, List.singleton_inj.mp ha⟩
  · have hlast : t ++ [a] = (before ++ b :: later') ++ [c] := by simpa using h
    obtain ⟨ht, ha⟩ := List.append_inj' hlast rfl
    obtain rfl := List.singleton_inj.mp ha
    exact Or.inr ⟨later', by simp, ht⟩

/-- Every answer of a legal trace follows a legal trace, and is that of
`process_command`. -/
theorem Legal.split {admits : PagedCache → ℕ → Prop} {before later : List Action} {fd : ℕ}
    {x : Exchange} (h : Legal admits (before ++ Action.answered fd x :: later)) :
    Legal admits before ∧ x.Genuine (replay before) fd := by
  generalize heq : before ++ Action.answered fd x :: later = t at h
  induction h generalizing later with
  | nil => simp at heq
  | opened ht hfd ih =>
    rcases snoc_eq_append_cons heq.symm with ⟨-, -, ha⟩ | ⟨later', -, ht'⟩
    · exact absurd ha (by simp)
    · exact ih ht'.symm
  | closed ht hfd ih =>
    rcases snoc_eq_append_cons heq.symm with ⟨-, -, ha⟩ | ⟨later', -, ht'⟩
    · exact absurd ha (by simp)
    · exact ih ht'.symm
  | answered ht hfd hx ih =>
    rcases snoc_eq_append_cons heq.symm with ⟨-, rfl, ha⟩ | ⟨later', -, ht'⟩
    · obtain ⟨rfl, rfl⟩ := Action.answered.inj ha
      exact ⟨ht, hx⟩
    · exact ih ht'.symm

/-! ### The cache of a trace -/

/-- The call a command makes on the cache, if it makes one. -/
def Command.call (cmd : Command) (clientId : Bytes) : Option PagedCache.Call :=
  match cmd.type with
  | .invalid => none
  | .add => some (.add cmd.key cmd.value clientId)
  | .update => some (.update cmd.key cmd.value clientId)
  | .get => some (.get cmd.key clientId)
  | .delete => some (.delete cmd.key clientId)

/-- A call is on the key of the command it is made for, by the client that sent
it. -/
theorem Command.call_eq_some {cmd : Command} {clientId : Bytes} {call : PagedCache.Call}
    (h : cmd.call clientId = some call) :
    call.key = cmd.key ∧ call.clientId = clientId ∧ cmd.type ≠ .invalid := by
  rcases cmd with ⟨type, key, value⟩
  cases type with
  | invalid => simp [Command.call] at h
  | add | update | get | delete =>
    obtain rfl := Option.some.inj h
    exact ⟨rfl, rfl, by simp⟩

theorem processCommand_of_none {cache : PagedCache} {cmd : Command} {clientId : Bytes}
    (h : cmd.call clientId = none) :
    processCommand cache cmd clientId =
      (formatResponse Response.errorInvalidCommand, cache) := by
  rcases cmd with ⟨type, key, value⟩
  cases type <;> simp_all [Command.call, processCommand]

/-- A command leaves the cache as its call does. -/
theorem processCommand_snd {cache : PagedCache} {cmd : Command} {clientId : Bytes}
    {call : PagedCache.Call} (h : cmd.call clientId = some call) :
    (processCommand cache cmd clientId).2 = (cache.step call).2 := by
  rcases cmd with ⟨type, key, value⟩
  cases type with
  | invalid => simp [Command.call] at h
  | add | update | get | delete =>
    obtain rfl := Option.some.inj h
    rfl

theorem processCommand_wf {cache : PagedCache} (h : cache.Wf) (cmd : Command) (clientId : Bytes) :
    (processCommand cache cmd clientId).2.Wf := by
  rcases hcall : cmd.call clientId with _ | call
  · rw [processCommand_of_none hcall]
    exact h
  · rw [processCommand_snd hcall]
    exact (h.step call).wf

theorem replay_wf (t : List Action) : (replay t).Wf := by
  induction t using List.reverseRecOn with
  | nil => exact PagedCache.wf_fresh
  | append_singleton t a ih =>
    rw [replay_snoc]
    cases a with
    | answered fd x => exact processCommand_wf ih _ _
    | opened fd => exact ih
    | closed fd => exact ih

/-! ### Answers -/

/-- The response reports success. -/
def Exchange.succeeded (x : Exchange) : Bool := (lit "OK").isPrefixOf x.response

/-- A response reports success exactly when the call did. -/
theorem ok_isPrefixOf_processCommand {cache : PagedCache} {cmd : Command} {clientId : Bytes} :
    (lit "OK").isPrefixOf (processCommand cache cmd clientId).1 = true ↔
      ∃ call, cmd.call clientId = some call ∧ (cache.step call).1.result = .success := by
  rcases cmd with ⟨type, key, value⟩
  cases type with
  | invalid =>
    refine iff_of_false ?_ (by simp [Command.call])
    simp only [processCommand]
    decide
  | add =>
    simp only [processCommand, Command.call, Option.some.injEq, exists_eq_left', PagedCache.step]
    rcases (cache.addKey key value clientId).1 with _ | _ | _ | _ | _ <;> decide
  | update =>
    simp only [processCommand, Command.call, Option.some.injEq, exists_eq_left', PagedCache.step]
    rcases (cache.updateKey key value clientId).1 with _ | _ | _ | _ | _ <;> decide
  | get =>
    simp only [processCommand, Command.call, Option.some.injEq, exists_eq_left', PagedCache.step]
    rcases (cache.getKey key [] clientId).1.1 with _ | _ | _ | _ | _
    · exact iff_of_true rfl rfl
    all_goals
      dsimp only
      decide
  | delete =>
    simp only [processCommand, Command.call, Option.some.injEq, exists_eq_left', PagedCache.step]
    rcases (cache.deleteKey key clientId).1 with _ | _ | _ | _ | _ <;> decide

theorem Exchange.Genuine.succeeded_iff {cache : PagedCache} {x : Exchange} {fd : ℕ}
    (hx : x.Genuine cache fd) :
    x.succeeded = true ↔ ∃ call, x.command.call (clientIdOf fd) = some call ∧
      (cache.step call).1.result = .success := by
  rw [Exchange.succeeded, hx.2]
  exact ok_isPrefixOf_processCommand

/-! ### The message loop -/

namespace TCPServer

section MessageLoop

variable {clientId buffer : Bytes} {cache : PagedCache} {sends : List Bool} {n : ℕ}

/-- What is exchanged over one message. -/
def exchangeOf (clientId : Bytes) (cache : PagedCache) (message : Bytes) : Exchange :=
  ⟨message, parseMessage message, (processCommand cache (parseMessage message) clientId).1⟩

theorem messageLoop_of_none (h : Framing.find delimiter buffer = none) :
    messageLoop clientId buffer cache sends = ⟨[], buffer, cache, sends, true⟩ := by
  rw [messageLoop]
  split
  · rfl
  · simp_all

theorem messageLoop_of_some (h : Framing.find delimiter buffer = some n) :
    let message := buffer.take (n + delimiter.length)
    let rest := buffer.drop (n + delimiter.length)
    let cache' := (processCommand cache (parseMessage message) clientId).2
    let p := messageLoop clientId rest cache' sends.tail
    messageLoop clientId buffer cache sends =
      if sends.headD true then
        { p with exchanges := exchangeOf clientId cache message :: p.exchanges }
      else ⟨[exchangeOf clientId cache message], rest, cache', sends.tail, false⟩ := by
  intro message rest cache' p
  rw [messageLoop]
  split
  · simp_all
  · next m hm =>
    obtain rfl : m = n := by simpa [h] using hm.symm
    rfl

end MessageLoop

/-! ### The simulation -/

variable {admits : PagedCache → ℕ → Prop} {t : List Action} {s : TCPServer} {fd : ℕ}
  {client : ClientConnection}

/-- The server is where the trace says. -/
structure Tracks (admits : PagedCache → ℕ → Prop) (t : List Action) (s : TCPServer) : Prop where
  legal : Legal admits t
  cache : s.cache = replay t
  clientId : ∀ fd client, s.clients.lookup fd = some client → client.clientId = clientIdOf fd
  isOpen_iff : ∀ fd, isOpen t fd = true ↔ fd ∈ s.clients

theorem Tracks.handleNewConnection (h : Tracks admits t s) (registered : Bool)
    (hfd : registered = true → admits s.cache fd) :
    Tracks admits (t ++ (s.handleNewConnection fd registered).1)
      (s.handleNewConnection fd registered).2 := by
  cases registered with
  | false => simpa [TCPServer.handleNewConnection] using h
  | true =>
    refine ⟨h.legal.opened (h.cache ▸ hfd rfl), ?_, fun fd' client hfd' => ?_, fun fd' => ?_⟩
    · exact h.cache.trans (replay_snoc t (.opened fd)).symm
    · change (s.clients.insert fd _).lookup fd' = some client at hfd'
      rcases eq_or_ne fd' fd with rfl | hne
      · rw [AList.lookup_insert] at hfd'
        obtain rfl := Option.some.inj hfd'
        rfl
      · exact h.clientId fd' client (AList.lookup_insert_ne hne ▸ hfd')
    · change isOpen (t ++ [Action.opened fd]) fd' = true ↔ fd' ∈ s.clients.insert fd _
      rw [isOpen_opened, Bool.or_eq_true, decide_eq_true_iff, h.isOpen_iff, AList.mem_insert,
        eq_comm]

theorem Tracks.handleClientDisconnect (h : Tracks admits t s) (hfd : fd ∈ s.clients) :
    Tracks admits (t ++ (s.handleClientDisconnect fd).1) (s.handleClientDisconnect fd).2 := by
  refine ⟨h.legal.closed ((h.isOpen_iff fd).mpr hfd), ?_, fun fd' client hfd' => ?_, fun fd' => ?_⟩
  · exact h.cache.trans (replay_snoc t (.closed fd)).symm
  · change (s.clients.erase fd).lookup fd' = some client at hfd'
    rcases eq_or_ne fd' fd with rfl | hne
    · simp at hfd'
    · exact h.clientId fd' client (AList.lookup_erase_ne hne ▸ hfd')
  · change isOpen (t ++ [Action.closed fd]) fd' = true ↔ fd' ∈ s.clients.erase fd
    rw [isOpen_closed, Bool.and_eq_true, decide_eq_true_iff, h.isOpen_iff, AList.mem_erase,
      ne_comm]

/-- What a message loop on `fd` leaves is where the trace goes on to. -/
structure Answers (admits : PagedCache → ℕ → Prop) (t : List Action) (fd : ℕ) (p : Processed) :
    Prop where
  legal : Legal admits (t ++ p.exchanges.map (Action.answered fd))
  cache : p.cache = replay (t ++ p.exchanges.map (Action.answered fd))
  isOpen : ∀ fd', isOpen (t ++ p.exchanges.map (Action.answered fd)) fd' = isOpen t fd'

theorem Answers.cons {x : Exchange} {p : Processed}
    (h : Answers admits (t ++ [Action.answered fd x]) fd p) :
    Answers admits t fd { p with exchanges := x :: p.exchanges } := by
  have hsplit : t ++ (x :: p.exchanges).map (Action.answered fd) =
      (t ++ [Action.answered fd x]) ++ p.exchanges.map (Action.answered fd) := by simp
  refine ⟨?_, ?_, fun fd' => ?_⟩
  · exact hsplit ▸ h.legal
  · exact h.cache.trans (congrArg replay hsplit.symm)
  · rw [hsplit, h.isOpen, isOpen_answered]

/-- **The message loop answers message after message.** The induction is along
the messages in the buffer. -/
theorem answers_messageLoop (ht : Legal admits t) (hfd : isOpen t fd = true) (buffer : Bytes)
    (sends : List Bool) :
    Answers admits t fd (messageLoop (clientIdOf fd) buffer (replay t) sends) := by
  induction buffer using Framing.cut_induction delimiter_ne_nil generalizing t sends with
  | none buffer h =>
    rw [messageLoop_of_none h]
    exact ⟨by simpa using ht, by simp, by simp⟩
  | some buffer n h ih =>
    let x := exchangeOf (clientIdOf fd) (replay t) (buffer.take (n + delimiter.length))
    -- the trace with the first message answered
    have hx : Legal admits (t ++ [Action.answered fd x]) := ht.answered hfd ⟨rfl, rfl⟩
    have hcache : (processCommand (replay t) (parseMessage (buffer.take (n + delimiter.length)))
        (clientIdOf fd)).2 = replay (t ++ [Action.answered fd x]) :=
      (replay_snoc t (.answered fd x)).symm
    simp only [messageLoop_of_some h, hcache]
    by_cases hsend : sends.headD true = true
    · rw [if_pos hsend]
      exact (ih hx (by simpa using hfd) sends.tail).cons
    · rw [if_neg hsend]
      exact ⟨hx, rfl, by simp⟩

/-- The server with a connection in which the message loop has run. -/
theorem Tracks.answers {p : Processed} (h : Tracks admits t s) (ha : Answers admits t fd p)
    (hfd : s.clients.lookup fd = some client) :
    Tracks admits (t ++ p.exchanges.map (Action.answered fd))
      ⟨p.cache, s.clients.insert fd { client with buffer := p.buffer }⟩ := by
  have hmem : fd ∈ s.clients := AList.lookup_isSome.mp (Option.isSome_of_eq_some hfd)
  refine ⟨ha.legal, ha.cache, fun fd' client' hfd' => ?_, fun fd' => ?_⟩
  · rcases eq_or_ne fd' fd with rfl | hne
    · rw [AList.lookup_insert] at hfd'
      obtain rfl := Option.some.inj hfd'
      exact h.clientId fd' client hfd
    · exact h.clientId fd' client' (AList.lookup_insert_ne hne ▸ hfd')
  · rw [ha.isOpen, h.isOpen_iff, AList.mem_insert]
    exact ⟨Or.inr, fun ho => ho.elim (fun he => he ▸ hmem) id⟩

/-- **The receive loop extends the trace**, chunk by chunk. -/
theorem Tracks.receiveLoop (h : Tracks admits t s) (hfd : s.clients.lookup fd = some client)
    (recvs : List Recv) (sends : List Bool) :
    Tracks admits (t ++ (receiveLoop fd s client recvs sends).1)
      (receiveLoop fd s client recvs sends).2 := by
  have hmem : ∀ {s : TCPServer} {client}, s.clients.lookup fd = some client → fd ∈ s.clients :=
    fun hl => AList.lookup_isSome.mp (Option.isSome_of_eq_some hl)
  induction recvs generalizing t s client sends with
  | nil => simpa [TCPServer.receiveLoop] using h
  | cons recv recvs ih =>
    cases recv with
    | closed => exact h.handleClientDisconnect (hmem hfd)
    | failed => exact h.handleClientDisconnect (hmem hfd)
    | data chunk =>
      have ha := answers_messageLoop h.legal ((h.isOpen_iff fd).mpr (hmem hfd))
        (client.buffer ++ cString chunk.bytes) sends
      rw [← h.cache, ← h.clientId fd client hfd] at ha
      have htracks := h.answers ha hfd
      simp only [TCPServer.receiveLoop]
      rw [← List.append_assoc]
      by_cases hsent : (messageLoop client.clientId (client.buffer ++ cString chunk.bytes) s.cache
          sends).sent = true
      · simp only [hsent, if_true]
        exact ih htracks (AList.lookup_insert _) _
      · simp only [hsent]
        exact htracks.handleClientDisconnect (hmem (AList.lookup_insert _))

/-- The condition `admits` puts on an event. -/
def Allowed (admits : PagedCache → ℕ → Prop) (s : TCPServer) : Event → Prop
  | .accept fd true => admits s.cache fd
  | .accept _ false | .clientData _ _ _ => True

theorem Tracks.step (h : Tracks admits t s) {e : Event} (he : Allowed admits s e) :
    Tracks admits (t ++ (s.step e).1) (s.step e).2 := by
  cases e with
  | accept fd registered =>
    refine h.handleNewConnection registered fun hr => ?_
    subst hr
    exact he
  | clientData fd recvs sends =>
    rw [TCPServer.step, handleClientData]
    rcases hfd : s.clients.lookup fd with _ | client
    · simpa using h
    · exact h.receiveLoop hfd recvs sends

/-- **The trace of every run is legal**, and says where the server is. -/
theorem tracks_after (events : List Event)
    (hok : StepMachine.Admits TCPServer.step (Allowed admits) fresh events) :
    Tracks admits (trace fresh events) (StepMachine.after TCPServer.step fresh events) := by
  refine StepMachine.invariant_history_of_admits
    (R := fun h s => Tracks admits (h.flatMap Prod.snd) s) ⟨.nil, rfl, ?_, ?_⟩ ?_ events hok
  · intro fd client hfd
    simp [fresh] at hfd
  · intro fd
    simp [fresh]
  · intro h s e he hs
    simpa using hs.step he

/-- The same with nothing asked of the environment. -/
theorem tracks_run (events : List Event) :
    Tracks (fun _ _ => True) (trace fresh events)
      (StepMachine.after TCPServer.step fresh events) :=
  tracks_after events (StepMachine.admits_of_forall (fun s e => by
    rcases e with ⟨fd, _ | _⟩ | _ <;> trivial) _ _)

end TCPServer

end PagedCacheServer
