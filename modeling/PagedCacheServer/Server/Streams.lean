import PagedCacheServer.Server.Sessions

/-!
# What a connection makes of its stream

The bytes of a connection arrive in chunks, over any number of calls of
`handle_client_data` and between the events of other connections. On a connection
that is still open all of that is invisible: the messages it has been answered
and the bytes in its buffer are what cutting the whole stream at its delimiters
gives (`PagedCacheServer.TCPServer.framed_after`).

The stream here is what the server appends to its buffer. `std::string(buffer)`
stops at the first zero byte of a chunk, so it is the stream that was sent exactly
when no chunk holds one.
-/

namespace PagedCacheServer

open ProtocolParser

namespace TCPServer

/-! ### Bytes in, messages out -/

/-- The chunks a list of `recv`s yields. -/
def chunksOf (recvs : List Recv) : List Chunk :=
  recvs.filterMap fun
    | .data chunk => some chunk
    | .closed | .failed => none

/-- The chunks received on `fd` since its connection was opened. -/
def received (events : List Event) (fd : ℕ) : List Chunk :=
  events.foldl (fun chunks event =>
    match event with
    | .accept fd' registered => if registered ∧ fd' = fd then [] else chunks
    | .clientData fd' recvs _ => if fd' = fd then chunks ++ chunksOf recvs else chunks) []

/-- The messages answered on `fd` since its connection was opened. -/
def messagesOn (t : List Action) (fd : ℕ) : List Bytes :=
  t.foldl (fun messages a =>
    match a with
    | .opened fd' => if fd' = fd then [] else messages
    | .answered fd' x => if fd' = fd then messages ++ [x.message] else messages
    | .closed _ => messages) []

/-- Cut a stream into messages. -/
def cutMessages (stream : Bytes) : List Bytes × Bytes :=
  Framing.cut delimiter delimiter_ne_nil stream

/-- Process messages one after the other. -/
def serve (clientId : Bytes) : PagedCache → List Bytes → List Exchange × PagedCache
  | cache, [] => ([], cache)
  | cache, message :: messages =>
    let r := serve clientId (processCommand cache (parseMessage message) clientId).2 messages
    (exchangeOf clientId cache message :: r.1, r.2)

theorem chunksOf_map_data (chunks : List Chunk) : chunksOf (chunks.map Recv.data) = chunks := by
  simp [chunksOf, List.filterMap_map]

section MessagesOn

variable {t : List Action} {fd fd' : ℕ}

theorem messagesOn_opened :
    messagesOn (t ++ [Action.opened fd]) fd' = if fd = fd' then [] else messagesOn t fd' := by
  simp [messagesOn]

theorem messagesOn_closed : messagesOn (t ++ [Action.closed fd]) fd' = messagesOn t fd' := by
  simp [messagesOn]

theorem messagesOn_answered (xs : List Exchange) :
    messagesOn (t ++ xs.map (Action.answered fd)) fd =
      messagesOn t fd ++ xs.map Exchange.message := by
  induction xs using List.reverseRecOn with
  | nil => simp
  | append_singleton xs x ih =>
    rw [List.map_append, ← List.append_assoc, List.map_append, ← List.append_assoc, ← ih]
    simp [messagesOn]

theorem messagesOn_answered_of_ne (hne : fd' ≠ fd) (xs : List Exchange) :
    messagesOn (t ++ xs.map (Action.answered fd)) fd' = messagesOn t fd' := by
  induction xs using List.reverseRecOn with
  | nil => simp
  | append_singleton xs x ih =>
    rw [List.map_append, ← List.append_assoc, ← ih]
    simp [messagesOn, hne.symm]

end MessagesOn

section Serve

variable {clientId : Bytes} {cache : PagedCache}

theorem serve_append (ms ms' : List Bytes) :
    serve clientId cache (ms ++ ms') =
      ((serve clientId cache ms).1 ++ (serve clientId (serve clientId cache ms).2 ms').1,
        (serve clientId (serve clientId cache ms).2 ms').2) := by
  induction ms generalizing cache with
  | nil => rfl
  | cons m ms ih => rw [List.cons_append, serve, ih, serve, List.cons_append]

theorem map_message_serve (ms : List Bytes) :
    (serve clientId cache ms).1.map Exchange.message = ms := by
  induction ms generalizing cache with
  | nil => rfl
  | cons m ms ih =>
    rw [serve, List.map_cons, ih]
    rfl

/-- **The message loop that sends all its responses serves the messages of the
buffer**, and leaves what comes after them. -/
theorem messageLoop_of_sent {buffer : Bytes} {sends : List Bool} {p : Processed}
    (hp : messageLoop clientId buffer cache sends = p) (hsent : p.sent = true) :
    p.exchanges = (serve clientId cache (cutMessages buffer).1).1 ∧
      p.cache = (serve clientId cache (cutMessages buffer).1).2 ∧
      p.buffer = (cutMessages buffer).2 := by
  induction buffer using Framing.cut_induction delimiter_ne_nil generalizing cache sends p with
  | none buffer hnone =>
    rw [messageLoop_of_none hnone] at hp
    subst hp
    rw [cutMessages, Framing.cut_of_none _ hnone]
    exact ⟨rfl, rfl, rfl⟩
  | some buffer n hsome ih =>
    rw [messageLoop_of_some hsome] at hp
    by_cases hsend : sends.headD true = true
    · rw [if_pos hsend] at hp
      subst hp
      obtain ⟨hx, hc, hb⟩ := ih rfl hsent
      rw [cutMessages, Framing.cut_of_some _ hsome]
      exact ⟨congrArg (List.cons _) hx, hc, hb⟩
    · rw [if_neg hsend] at hp
      subst hp
      simp at hsent

/-- With nothing in the way every response is sent. -/
theorem messageLoop_nil (clientId buffer : Bytes) (cache : PagedCache) :
    (messageLoop clientId buffer cache []).sent = true ∧
      (messageLoop clientId buffer cache []).sends = [] := by
  induction buffer using Framing.cut_induction delimiter_ne_nil generalizing cache with
  | none buffer hnone =>
    rw [messageLoop_of_none hnone]
    exact ⟨rfl, rfl⟩
  | some buffer n hsome ih =>
    rw [messageLoop_of_some hsome]
    exact ih _

end Serve

/-! ### The receive loop -/

/-- What the server appends to its buffer. -/
def appended (chunks : List Chunk) : Bytes := chunks.flatMap fun chunk => cString chunk.bytes

/-- The stream is cut where its first chunk ends. -/
theorem cutMessages_cons (buffer : Bytes) (chunk : Chunk) (chunks : List Chunk) :
    let first := cutMessages (buffer ++ cString chunk.bytes)
    cutMessages (buffer ++ appended (chunk :: chunks)) =
      (first.1 ++ (cutMessages (first.2 ++ appended chunks)).1,
        (cutMessages (first.2 ++ appended chunks)).2) :=
  (congrArg cutMessages (List.append_assoc _ _ _).symm).trans
    (Framing.cut_append delimiter_ne_nil _ _)

/-- What the message loop leaves in the buffer holds no message. -/
theorem find_buffer_of_sent {clientId buffer : Bytes} {cache : PagedCache} {sends : List Bool}
    {p : Processed} (hp : messageLoop clientId buffer cache sends = p) (hsent : p.sent = true) :
    Framing.find delimiter p.buffer = none := by
  rw [(messageLoop_of_sent hp hsent).2.2]
  exact Framing.find_cut delimiter_ne_nil _

variable {s : TCPServer} {client client' : ClientConnection} {fd fd' : ℕ} {recvs : List Recv}
  {sends : List Bool} {t : List Action}

/-- A connection that has been handed some bytes and is still open. -/
structure Delivered (fd : ℕ) (s : TCPServer) (client : ClientConnection) (bytes : Bytes)
    (r : List Action × TCPServer) (client' : ClientConnection) : Prop where
  actions : r.1 = (serve client.clientId s.cache
    (cutMessages (client.buffer ++ bytes)).1).1.map (Action.answered fd)
  cache : r.2.cache = (serve client.clientId s.cache (cutMessages (client.buffer ++ bytes)).1).2
  client : client' = { client with buffer := (cutMessages (client.buffer ++ bytes)).2 }

/-- **The receive loop cuts the stream**, as long as the connection stays open.
The buffer holds no whole message when it starts, nor after any chunk. -/
theorem delivered_receiveLoop (hfd : s.clients.lookup fd = some client)
    (hbuf : Framing.find delimiter client.buffer = none)
    (hlive : (receiveLoop fd s client recvs sends).2.clients.lookup fd = some client') :
    Delivered fd s client (appended (chunksOf recvs)) (receiveLoop fd s client recvs sends)
      client' := by
  induction recvs generalizing s client sends with
  | nil =>
    have hcut : cutMessages client.buffer = ([], client.buffer) := Framing.cut_of_none _ hbuf
    rw [receiveLoop, hfd] at hlive
    obtain rfl := Option.some.inj hlive
    refine ⟨?_, ?_, ?_⟩ <;> simp [receiveLoop, chunksOf, appended, hcut, serve]
  | cons recv recvs ih =>
    cases recv with
    | closed => simp [receiveLoop, handleClientDisconnect] at hlive
    | failed => simp [receiveLoop, handleClientDisconnect] at hlive
    | data chunk =>
      simp only [receiveLoop] at hlive ⊢
      generalize hp : messageLoop client.clientId (client.buffer ++ cString chunk.bytes) s.cache
        sends = p at hlive ⊢
      by_cases hsent : p.sent = true
      swap
      · -- a response could not be sent, and the connection is closed
        simp [hsent, handleClientDisconnect] at hlive
      simp only [hsent, if_true] at hlive ⊢
      obtain ⟨hx, hc, hb⟩ := messageLoop_of_sent hp hsent
      have hrest : Delivered fd ⟨p.cache, s.clients.insert fd { client with buffer := p.buffer }⟩
          { client with buffer := p.buffer } (appended (chunksOf recvs)) _ client' :=
        ih (AList.lookup_insert _) (find_buffer_of_sent hp hsent) hlive
      have hcut : cutMessages (client.buffer ++ appended (chunksOf (.data chunk :: recvs))) =
          ((cutMessages (client.buffer ++ cString chunk.bytes)).1 ++
              (cutMessages (p.buffer ++ appended (chunksOf recvs))).1,
            (cutMessages (p.buffer ++ appended (chunksOf recvs))).2) := by
        rw [hb]
        exact cutMessages_cons _ _ _
      refine ⟨?_, ?_, ?_⟩
      · rw [hcut, serve_append, List.map_append, ← hx, ← hc, hrest.actions]
      · rw [hcut, serve_append, ← hc, hrest.cache]
      · rw [hcut, hrest.client]

/-- The receive loop leaves the other connections alone. -/
theorem receiveLoop_of_ne (hne : fd' ≠ fd) (s : TCPServer) (client : ClientConnection)
    (recvs : List Recv) (sends : List Bool) (t : List Action) :
    (receiveLoop fd s client recvs sends).2.clients.lookup fd' = s.clients.lookup fd' ∧
      messagesOn (t ++ (receiveLoop fd s client recvs sends).1) fd' = messagesOn t fd' := by
  have hclosed : ∀ (s : TCPServer) (t : List Action),
      (s.handleClientDisconnect fd).2.clients.lookup fd' = s.clients.lookup fd' ∧
        messagesOn (t ++ (s.handleClientDisconnect fd).1) fd' = messagesOn t fd' := fun s t =>
    ⟨AList.lookup_erase_ne hne, messagesOn_closed⟩
  induction recvs generalizing s client sends t with
  | nil => simp [receiveLoop]
  | cons recv recvs ih =>
    cases recv with
    | closed => exact hclosed s t
    | failed => exact hclosed s t
    | data chunk =>
      simp only [receiveLoop]
      generalize messageLoop client.clientId (client.buffer ++ cString chunk.bytes) s.cache
        sends = p
      have hlookup : s.clients.lookup fd' =
          (s.clients.insert fd { client with buffer := p.buffer }).lookup fd' :=
        (AList.lookup_insert_ne hne).symm
      rw [← List.append_assoc, ← messagesOn_answered_of_ne (t := t) hne p.exchanges, hlookup]
      by_cases hsent : p.sent = true
      · simp only [hsent, if_true]
        exact ih _ _ _ _
      · simp only [Bool.eq_false_iff.mpr hsent, Bool.false_eq_true, if_false]
        exact hclosed _ _

/-- With every response sent, data that arrives in two parts is handled as if it
came at once. -/
theorem receiveLoop_append (hfd : s.clients.lookup fd = some client) (chunks : List Chunk)
    (recvs : List Recv) :
    ∃ client', (receiveLoop fd s client (chunks.map Recv.data) []).2.clients.lookup fd =
        some client' ∧
      receiveLoop fd s client (chunks.map Recv.data ++ recvs) [] =
        ((receiveLoop fd s client (chunks.map Recv.data) []).1 ++
            (receiveLoop fd (receiveLoop fd s client (chunks.map Recv.data) []).2 client' recvs
              []).1,
          (receiveLoop fd (receiveLoop fd s client (chunks.map Recv.data) []).2 client' recvs
            []).2) := by
  induction chunks generalizing s client with
  | nil => exact ⟨client, hfd, rfl⟩
  | cons chunk chunks ih =>
    obtain ⟨hsent, hsends⟩ := messageLoop_nil client.clientId
      (client.buffer ++ cString chunk.bytes) s.cache
    simp only [List.map_cons, List.cons_append, receiveLoop, hsent, hsends, if_true]
    generalize messageLoop client.clientId (client.buffer ++ cString chunk.bytes) s.cache [] = p
    have hfd' : (⟨p.cache, s.clients.insert fd { client with buffer := p.buffer }⟩ :
        TCPServer).clients.lookup fd = some { client with buffer := p.buffer } :=
      AList.lookup_insert _
    obtain ⟨client', hclient', heq⟩ := ih hfd'
    refine ⟨client', hclient', ?_⟩
    rw [heq, List.append_assoc]

/-! ### Runs -/

/-- The connections have answered and buffered what cutting their streams
gives. -/
def Framed (events : List Event) (t : List Action) (s : TCPServer) : Prop :=
  ∀ fd client, s.clients.lookup fd = some client →
    (messagesOn t fd, client.buffer) = cutMessages (appended (received events fd))

theorem Framed.find_buffer {events : List Event} (h : Framed events t s)
    (hfd : s.clients.lookup fd = some client) : Framing.find delimiter client.buffer = none := by
  have hcut := Framing.find_cut delimiter_ne_nil (appended (received events fd))
  rwa [← cutMessages, ← h fd client hfd] at hcut

theorem Framed.accept {events : List Event} (h : Framed events t s) (fd : ℕ) (registered : Bool) :
    Framed (events ++ [Event.accept fd registered]) (t ++ (s.handleNewConnection fd registered).1)
      (s.handleNewConnection fd registered).2 := by
  intro fd' client hfd'
  cases registered with
  | false =>
    have hreceived : received (events ++ [Event.accept fd false]) fd' = received events fd' := by
      simp [received]
    rw [hreceived]
    simpa [handleNewConnection] using h fd' client hfd'
  | true =>
    change (s.clients.insert fd _).lookup fd' = some client at hfd'
    change (messagesOn (t ++ [Action.opened fd]) fd', _) = _
    rcases eq_or_ne fd fd' with rfl | hne
    · -- the new connection has received nothing
      rw [AList.lookup_insert] at hfd'
      obtain rfl := Option.some.inj hfd'
      have hreceived : received (events ++ [Event.accept fd true]) fd = [] := by simp [received]
      rw [hreceived, messagesOn_opened, if_pos rfl]
      have hnone : Framing.find delimiter [] = none := by decide
      exact (Framing.cut_of_none delimiter_ne_nil hnone).symm
    · have hreceived : received (events ++ [Event.accept fd true]) fd' = received events fd' := by
        simp [received, hne]
      rw [hreceived, messagesOn_opened, if_neg hne]
      exact h fd' client (AList.lookup_insert_ne hne.symm ▸ hfd')

theorem Framed.clientData {events : List Event} (h : Framed events t s) (fd : ℕ)
    (recvs : List Recv) (sends : List Bool) :
    Framed (events ++ [Event.clientData fd recvs sends])
      (t ++ (s.handleClientData fd recvs sends).1) (s.handleClientData fd recvs sends).2 := by
  intro fd' client' hfd'
  rw [handleClientData] at hfd' ⊢
  have hother : fd ≠ fd' →
      received (events ++ [Event.clientData fd recvs sends]) fd' = received events fd' := by
    intro hne
    simp [received, hne]
  rcases hfd : s.clients.lookup fd with _ | client
  · -- an event for a descriptor that is not open
    simp only [hfd] at hfd' ⊢
    have hne : fd ≠ fd' := by
      rintro rfl
      rw [hfd] at hfd'
      simp at hfd'
    rw [hother hne, List.append_nil]
    exact h fd' client' hfd'
  simp only [hfd] at hfd' ⊢
  rcases eq_or_ne fd fd' with rfl | hne
  swap
  · obtain ⟨hlookup, hmessages⟩ := receiveLoop_of_ne hne.symm s client recvs sends t
    rw [hother hne, hmessages]
    exact h fd' client' (hlookup ▸ hfd')
  · have hd := delivered_receiveLoop hfd (h.find_buffer hfd) hfd'
    have hreceived : appended (received (events ++ [Event.clientData fd recvs sends]) fd) =
        appended (received events fd) ++ appended (chunksOf recvs) := by
      simp [received, appended]
    -- what was cut before, and what the rest of the buffer adds
    have hcut : cutMessages (appended (received events fd) ++ appended (chunksOf recvs)) =
        (messagesOn t fd ++ (cutMessages (client.buffer ++ appended (chunksOf recvs))).1,
          (cutMessages (client.buffer ++ appended (chunksOf recvs))).2) := by
      have hold : cutMessages (appended (received events fd)) = (messagesOn t fd, client.buffer) :=
        (h fd client hfd).symm
      have := Framing.cut_append delimiter_ne_nil (appended (received events fd))
        (appended (chunksOf recvs))
      rw [← cutMessages, ← cutMessages, hold] at this
      exact this
    rw [hreceived, hcut, hd.actions, hd.client, messagesOn_answered, map_message_serve]

/-- **Framing over whole runs.** On every open connection, the messages answered
and the bytes buffered are what the stream cuts into. -/
theorem framed_after (events : List Event) :
    Framed events (trace fresh events) (StepMachine.after TCPServer.step fresh events) := by
  have hrun : Framed ((StepMachine.history TCPServer.step fresh events).map Prod.fst)
      (trace fresh events) (StepMachine.after TCPServer.step fresh events) := by
    refine StepMachine.invariant_history
      (R := fun h s => Framed (h.map Prod.fst) (h.flatMap Prod.snd) s) ?_ ?_ events
    · intro fd client hfd
      simp [fresh] at hfd
    · intro h s event hs
      rw [List.map_append, List.flatMap_append, List.map_singleton, List.flatMap_singleton]
      cases event with
      | accept fd registered => exact hs.accept fd registered
      | clientData fd recvs sends => exact hs.clientData fd recvs sends
  rwa [StepMachine.map_fst_history] at hrun

/-- **Several calls of `handle_client_data` are one**, if every response is sent
and no other connection is active. -/
theorem after_calls (hfd : s.clients.lookup fd = some client) (calls : List (List Chunk)) :
    let events := calls.map fun chunks => Event.clientData fd (chunks.map Recv.data) []
    let r := receiveLoop fd s client (calls.flatten.map Recv.data) []
    trace s events = r.1 ∧ StepMachine.after TCPServer.step s events = r.2 := by
  induction calls generalizing s client with
  | nil => exact ⟨rfl, rfl⟩
  | cons chunks calls ih =>
    have hstep : s.step (.clientData fd (chunks.map Recv.data) []) =
        receiveLoop fd s client (chunks.map Recv.data) [] := by
      simp only [TCPServer.step, handleClientData, hfd]
    obtain ⟨client', hclient', heq⟩ := receiveLoop_append hfd chunks (calls.flatten.map Recv.data)
    obtain ⟨htrace, hafter⟩ := ih hclient'
    simp only [List.flatten_cons, List.map_append, heq]
    rw [← hstep] at htrace hafter ⊢
    exact ⟨congrArg _ htrace, hafter⟩

end TCPServer

end PagedCacheServer
