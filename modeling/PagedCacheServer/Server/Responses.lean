import PagedCacheServer.Cache.History
import PagedCacheServer.Server.Chunking

/-!
# Responses end where they seem to

A response is a line: it ends with a carriage return and a line feed, and a client
reads it up to the line feed. `GET` sends back a stored value as it is, so this
depends on what is stored. The parser reads a message line by line, and what it
hands over has no line feed in it
(`PagedCacheServer.ProtocolParser.parseMessage_oneLine`); hence nothing stored
ever has (`PagedCacheServer.Legal.oneLine`), and no response has more than the one
at its end.

With every response sent, a connection is answered once for each message cut from
what the server appended to its buffer, up to the event that closed it
(`PagedCacheServer.TCPServer.answered_after`). These are the messages the
client sent, unless a chunk held a zero byte
(`PagedCacheServer.TCPServer.not_selfDelimiting`).
-/

namespace PagedCacheServer

open ProtocolParser

namespace ProtocolParser

/-! ### What the parser lets through -/

/-- Lines hold no line feed. -/
theorem lineFeed_notMem_getlines {message line : Bytes} (h : line ∈ getlines message) :
    lineFeed ∉ line := by
  induction message generalizing line with
  | nil => simp [getlines] at h
  | cons c rest ih =>
    rw [getlines] at h
    split at h
    · rcases List.mem_cons.mp h with rfl | h
      · simp
      · exact ih h
    · next hc =>
      split at h
      · obtain rfl := List.mem_singleton.mp h
        exact fun hmem => hc (List.mem_singleton.mp hmem).symm
      · next first lines hlines =>
        rw [hlines] at ih
        rcases List.mem_cons.mp h with rfl | h
        · intro hmem
          rcases List.mem_cons.mp hmem with heq | hmem
          · exact hc heq.symm
          · exact ih List.mem_cons_self hmem
        · exact ih (List.mem_cons_of_mem _ h)

theorem trim_sublist (s : Bytes) : (trim s).Sublist s := by
  rw [trim_eq_strip, strip]
  exact (List.rdropWhile_prefix _ _).sublist.trans (List.dropWhile_sublist _)

theorem popCarriageReturn_sublist (line : Bytes) : (popCarriageReturn line).Sublist line := by
  rw [popCarriageReturn]
  split
  · exact List.dropLast_sublist _
  · exact List.Sublist.refl _

/-- A field is part of its line. -/
theorem parseLine_sublist {line : Bytes} {field : Bytes × Bytes} (h : parseLine line = some field) :
    field.1.Sublist line ∧ field.2.Sublist line := by
  rw [parseLine] at h
  split at h
  · simp at h
  · split at h
    · simp at h
    · obtain rfl := Option.some.inj h
      exact ⟨(trim_sublist _).trans ((List.take_sublist _ _).trans (popCarriageReturn_sublist _)),
        (trim_sublist _).trans ((List.drop_sublist _ _).trans (popCarriageReturn_sublist _))⟩

/-- No field holds a line feed. -/
theorem lineFeed_notMem_parseFields {message name value : Bytes}
    (h : (parseFields message).lookup name = some value) : lineFeed ∉ value := by
  -- the fields are added line by line
  suffices hfold : ∀ (lines : List Bytes) (fields : AList fun _ : Bytes => Bytes),
      (∀ line ∈ lines, lineFeed ∉ line) → (∀ n v, fields.lookup n = some v → lineFeed ∉ v) →
        ∀ n v, (lines.foldl addField fields).lookup n = some v → lineFeed ∉ v from
    hfold _ ∅ (fun _ => lineFeed_notMem_getlines) (by simp) name value h
  intro lines
  induction lines with
  | nil => exact fun fields _ hfields => hfields
  | cons line lines ih =>
    intro fields hlines hfields
    refine ih (addField fields line) (fun l hl => hlines l (by simp [hl])) fun n v hv => ?_
    rw [addField] at hv
    split at hv
    · exact hfields n v hv
    · next field hparse =>
      rcases eq_or_ne n field.1 with rfl | hne
      · rw [AList.lookup_insert] at hv
        obtain rfl := Option.some.inj hv
        exact fun hmem => hlines line (by simp) ((parseLine_sublist hparse).2.subset hmem)
      · exact hfields n v (AList.lookup_insert_ne hne ▸ hv)

/-- **Keys and values the parser hands over hold no line feed.** -/
theorem parseMessage_oneLine (message : Bytes) :
    lineFeed ∉ (parseMessage message).key ∧ lineFeed ∉ (parseMessage message).value := by
  have hempty : lineFeed ∉ ([] : Bytes) := by simp
  rcases hmethod : (parseFields message).lookup (lit "Method") with _ | method
  · simp [parseMessage, hmethod]
  rcases hkey : (parseFields message).lookup (lit "Key") with _ | key
  · simp only [parseMessage, hmethod, hkey]
    split_ifs <;> exact ⟨hempty, hempty⟩
  have hk := lineFeed_notMem_parseFields hkey
  rcases hvalue : (parseFields message).lookup (lit "Value") with _ | value
  · simp only [parseMessage, hmethod, hkey, hvalue]
    split_ifs
    · exact ⟨hempty, hempty⟩
    · exact ⟨hk, hempty⟩
    · exact ⟨hk, hempty⟩
  · simp only [parseMessage, hmethod, hkey, hvalue]
    split_ifs
    · exact ⟨hempty, hempty⟩
    · exact ⟨hk, lineFeed_notMem_parseFields hvalue⟩

end ProtocolParser

/-! ### What is stored -/

open TCPServer PagedCache

/-- No key and no value in the cache holds a line feed. -/
def OneLine (cache : PagedCache) : Prop :=
  ∀ k e, cache.cacheMap.lookup k = some e → lineFeed ∉ k ∧ lineFeed ∉ e.value

/-- The response is a line, and not two. -/
def IsLine (response : Bytes) : Prop :=
  ∃ body, response = body ++ [carriageReturn, lineFeed] ∧ lineFeed ∉ body

/-- What a command writes is its own key and value. -/
theorem Command.call_writes {cmd : Command} {clientId : Bytes} {call : Call} {reply : Reply}
    {k v c : Bytes} (h : cmd.call clientId = some call) (hw : Writes k v c (call, reply)) :
    cmd.key = k ∧ cmd.value = v := by
  rcases cmd with ⟨type, key, value⟩
  cases type with
  | invalid => simp [Command.call] at h
  | get | delete =>
    obtain rfl := Option.some.inj h
    rcases hw.2 with he | he <;> simp at he
  | add | update =>
    obtain rfl := Option.some.inj h
    rcases hw.2 with he | he <;> simp at he
    exact ⟨he.1, he.2.1⟩

variable {admits : PagedCache → ℕ → Prop} {t : List Action} {fd : ℕ} {x : Exchange}

theorem OneLine.answered (h : OneLine (replay t)) (hx : x.Genuine (replay t) fd) :
    OneLine (replay (t ++ [Action.answered fd x])) := by
  intro k e he
  rw [replay_snoc, Action.apply] at he
  have hwf := replay_wf t
  rcases hcall : x.command.call (clientIdOf fd) with _ | call
  · rw [processCommand_of_none hcall] at he
    exact h k e he
  rw [processCommand_snd hcall] at he
  have hitem := view_item_of_lookup he
  rw [(hwf.step call).view] at hitem
  rcases Store.step_item hwf.lru.nodup hitem with hw | ⟨hold, -⟩
  · obtain ⟨hkey, hvalue⟩ := Command.call_writes hcall hw
    rw [← hkey, show e.value = x.command.value from hvalue.symm, hx.1]
    exact parseMessage_oneLine x.message
  · obtain ⟨e', he', heq⟩ := exists_lookup_of_view_item hold
    obtain ⟨hk, hv⟩ := h k e' he'
    have hval : e'.value = e.value := congrArg Item.value heq
    exact ⟨hk, hval ▸ hv⟩

theorem isLine_formatResponse {response : Bytes} (h : lineFeed ∉ response) :
    IsLine (formatResponse response) := ⟨response, rfl, h⟩

/-- The texts of the responses are one line each, and so is what `GET` returns. -/
theorem OneLine.isLine_processCommand {cache : PagedCache} (h : OneLine cache) (cmd : Command)
    (clientId : Bytes) : IsLine (processCommand cache cmd clientId).1 := by
  rcases cmd with ⟨type, key, value⟩
  cases type with
  | invalid => exact isLine_formatResponse (by decide)
  | add =>
    refine isLine_formatResponse ?_
    rcases (cache.addKey key value clientId).1 with _ | _ | _ | _ | _ <;> decide
  | update =>
    refine isLine_formatResponse ?_
    rcases (cache.updateKey key value clientId).1 with _ | _ | _ | _ | _ <;> decide
  | delete =>
    refine isLine_formatResponse ?_
    rcases (cache.deleteKey key clientId).1 with _ | _ | _ | _ | _ <;> decide
  | get =>
    refine isLine_formatResponse ?_
    simp only [getKey]
    rcases hk : cache.cacheMap.lookup key with _ | e
    · dsimp only
      decide
    · by_cases hc : e.clientId = clientId
      · simp only [hc, ne_eq, not_true_eq_false, if_false, Response.okValue, List.mem_append,
          not_or]
        exact ⟨by decide, (h key e hk).2⟩
      · simp only [ne_eq, hc, not_false_eq_true, if_true]
        decide

/-- **Nothing stored holds a line feed, and every response is one line.** -/
theorem Legal.oneLine (h : Legal admits t) :
    OneLine (replay t) ∧ ∀ fd x, .answered fd x ∈ t → IsLine x.response := by
  have hkeep : ∀ {t : List Action} {a : Action}, (∀ fd x, a ≠ .answered fd x) →
      (∀ fd x, .answered fd x ∈ t → IsLine x.response) →
        ∀ fd x, .answered fd x ∈ t ++ [a] → IsLine x.response := by
    intro t a ha ht fd x hx
    rcases List.mem_append.mp hx with hx | hx
    · exact ht fd x hx
    · exact absurd (List.mem_singleton.mp hx).symm (ha fd x)
  induction h with
  | nil => exact ⟨fun k e he => by simp [replay, PagedCache.fresh] at he, by simp⟩
  | opened ht hfd ih => exact ⟨replay_snoc _ _ ▸ ih.1, hkeep (by simp) ih.2⟩
  | closed ht hfd ih => exact ⟨replay_snoc _ _ ▸ ih.1, hkeep (by simp) ih.2⟩
  | answered ht hfd hx ih =>
    refine ⟨ih.1.answered hx, fun fd' x' hmem => ?_⟩
    rcases List.mem_append.mp hmem with hmem | hmem
    · exact ih.2 fd' x' hmem
    · obtain ⟨rfl, rfl⟩ := Action.answered.inj (List.mem_singleton.mp hmem)
      rw [hx.2]
      exact ih.1.isLine_processCommand _ _

namespace TCPServer

/-! ### One response for each message -/

/-- What was exchanged on `fd` since its connection was opened. -/
def exchangesOn (t : List Action) (fd : ℕ) : List Exchange :=
  t.foldl (fun exchanges a =>
    match a with
    | .opened fd' => if fd' = fd then [] else exchanges
    | .answered fd' x => if fd' = fd then exchanges ++ [x] else exchanges
    | .closed _ => exchanges) []

/-- The bytes sent on `fd` since its connection was opened. -/
def output (t : List Action) (fd : ℕ) : Bytes := (exchangesOn t fd).flatMap Exchange.response

/-- The chunks read by the `recv`s of one call of `handle_client_data`, which stops
at the end of the stream and at an error. -/
def chunksRead : List Recv → List Chunk
  | .data chunk :: recvs => chunk :: chunksRead recvs
  | _ => []

/-- The `recv`s end neither with the stream nor with an error. -/
def staysOpen (recvs : List Recv) : Bool :=
  recvs.all fun
    | .data _ => true
    | .closed | .failed => false

/-- What the last connection on `fd` has received, whether it is still open or
not. -/
structure Session where
  live : Bool
  chunks : List Chunk

/-- The session on `fd` after some events, every response being sent. -/
def session (events : List Event) (fd : ℕ) : Session :=
  events.foldl (fun session event =>
    match event with
    | .accept fd' registered => if registered ∧ fd' = fd then ⟨true, []⟩ else session
    | .clientData fd' recvs _ =>
      if fd' = fd ∧ session.live = true then
        ⟨staysOpen recvs, session.chunks ++ chunksRead recvs⟩
      else session) ⟨false, []⟩

/-- Every response can be sent. -/
def SendsSucceed (events : List Event) : Prop :=
  ∀ fd recvs sends, .clientData fd recvs sends ∈ events → ∀ sent ∈ sends, sent = true

/-- **Responses are self-delimiting**, in one run: nothing stored holds a line
feed; every response is one line; on every connection, the messages answered are
the complete messages among the bytes it sent, in order; and what it is sent back,
cut at the line feeds, is the responses one by one. -/
structure SelfDelimiting (events : List Event) : Prop where
  stored : OneLine (StepMachine.after TCPServer.step fresh events).cache
  lines : ∀ fd x, .answered fd x ∈ trace fresh events → IsLine x.response
  answered : ∀ fd, (exchangesOn (trace fresh events) fd).map Exchange.message =
    (cutMessages (bytesOf (session events fd).chunks)).1
  split : ∀ fd, Framing.cut [lineFeed] (List.cons_ne_nil _ _) (output (trace fresh events) fd) =
    ((exchangesOn (trace fresh events) fd).map Exchange.response, [])

section ExchangesOn

variable {t : List Action} {fd fd' : ℕ}

theorem exchangesOn_opened :
    exchangesOn (t ++ [Action.opened fd']) fd = if fd' = fd then [] else exchangesOn t fd := by
  simp [exchangesOn]

theorem exchangesOn_closed : exchangesOn (t ++ [Action.closed fd']) fd = exchangesOn t fd := by
  simp [exchangesOn]

theorem exchangesOn_answered {x : Exchange} :
    exchangesOn (t ++ [Action.answered fd' x]) fd =
      if fd' = fd then exchangesOn t fd ++ [x] else exchangesOn t fd := by
  simp [exchangesOn]

theorem map_message_exchangesOn (t : List Action) (fd : ℕ) :
    (exchangesOn t fd).map Exchange.message = messagesOn t fd := by
  induction t using List.reverseRecOn with
  | nil => rfl
  | append_singleton t a ih =>
    cases a with
    | opened fd' =>
      rw [exchangesOn_opened, messagesOn_opened, ← ih]
      split_ifs <;> rfl
    | closed fd' => rw [exchangesOn_closed, messagesOn_closed, ih]
    | answered fd' x =>
      rw [exchangesOn_answered]
      rcases eq_or_ne fd' fd with rfl | hne
      · rw [if_pos rfl, List.map_append, ih]
        exact (messagesOn_answered [x]).symm
      · rw [if_neg hne, ih]
        exact (messagesOn_answered_of_ne hne.symm [x]).symm

theorem answered_mem_of_mem_exchangesOn {x : Exchange} (h : x ∈ exchangesOn t fd) :
    .answered fd x ∈ t := by
  induction t using List.reverseRecOn with
  | nil => simp [exchangesOn] at h
  | append_singleton t a ih =>
    rw [List.mem_append]
    cases a with
    | opened fd' =>
      rw [exchangesOn_opened] at h
      split_ifs at h
      · simp at h
      · exact Or.inl (ih h)
    | closed fd' => exact Or.inl (ih (exchangesOn_closed ▸ h))
    | answered fd' y =>
      rw [exchangesOn_answered] at h
      split_ifs at h with heq
      · subst heq
        rcases List.mem_append.mp h with h | h
        · exact Or.inl (ih h)
        · exact Or.inr (by simp [List.mem_singleton.mp h])
      · exact Or.inl (ih h)

end ExchangesOn

/-! ### The receive loop, when every response is sent -/

section Sent

variable {s : TCPServer} {client : ClientConnection} {fd : ℕ} {sends : List Bool}

theorem messageLoop_of_forall (clientId buffer : Bytes) (cache : PagedCache)
    (h : ∀ sent ∈ sends, sent = true) :
    (messageLoop clientId buffer cache sends).sent = true ∧
      ∀ sent ∈ (messageLoop clientId buffer cache sends).sends, sent = true := by
  induction buffer using Framing.cut_induction delimiter_ne_nil generalizing cache sends with
  | none buffer hnone =>
    rw [messageLoop_of_none hnone]
    exact ⟨rfl, h⟩
  | some buffer n hsome ih =>
    have hhead : sends.headD true = true := by
      cases sends with
      | nil => rfl
      | cons sent sends => exact h sent (by simp)
    rw [messageLoop_of_some hsome, if_pos hhead]
    exact ih _ fun sent hsent => h sent (List.mem_of_mem_tail hsent)

/-- **The receive loop answers what it has read**, and closes the connection if it
came to the end of the stream. -/
theorem receiveLoop_of_forall (hfd : s.clients.lookup fd = some client)
    (hbuf : Framing.find delimiter client.buffer = none) (hsends : ∀ sent ∈ sends, sent = true)
    (recvs : List Recv) :
    let cut := cutMessages (client.buffer ++ appended (chunksRead recvs))
    let r := receiveLoop fd s client recvs sends
    ∃ closing, r.1 = (serve client.clientId s.cache cut.1).1.map (Action.answered fd) ++ closing ∧
      (staysOpen recvs = true ∧ closing = [] ∧
          r.2.clients.lookup fd = some { client with buffer := cut.2 } ∨
        staysOpen recvs = false ∧ closing = [.closed fd] ∧ r.2.clients.lookup fd = none) := by
  induction recvs generalizing s client sends with
  | nil =>
    have hcut : cutMessages client.buffer = ([], client.buffer) := Framing.cut_of_none _ hbuf
    refine ⟨[], ?_, Or.inl ⟨rfl, rfl, ?_⟩⟩
    · simp [receiveLoop, chunksRead, appended, hcut, serve]
    · simp [receiveLoop, chunksRead, appended, hcut, hfd]
  | cons recv recvs ih =>
    cases recv with
    | closed | failed =>
      have hcut : cutMessages client.buffer = ([], client.buffer) := Framing.cut_of_none _ hbuf
      refine ⟨[.closed fd], ?_, Or.inr ⟨rfl, rfl, ?_⟩⟩
      · simp [receiveLoop, chunksRead, appended, hcut, serve, handleClientDisconnect]
      · simp [receiveLoop, handleClientDisconnect]
    | data chunk =>
      obtain ⟨hsent, hsends'⟩ := messageLoop_of_forall client.clientId
        (client.buffer ++ cString chunk.bytes) s.cache hsends
      simp only [receiveLoop, hsent, if_true]
      generalize hp : messageLoop client.clientId (client.buffer ++ cString chunk.bytes) s.cache
        sends = p at hsent hsends'
      obtain ⟨hx, hc, hb⟩ := messageLoop_of_sent hp hsent
      have hfd' : (s.clients.insert fd { client with buffer := p.buffer }).lookup fd =
          some { client with buffer := p.buffer } := AList.lookup_insert _
      obtain ⟨closing, hactions, hend⟩ := ih
        (s := ⟨p.cache, s.clients.insert fd { client with buffer := p.buffer }⟩)
        hfd' (find_buffer_of_sent hp hsent) hsends'
      have hsplit : cutMessages (client.buffer ++ appended (chunksRead (.data chunk :: recvs))) =
          ((cutMessages (client.buffer ++ cString chunk.bytes)).1 ++
              (cutMessages (p.buffer ++ appended (chunksRead recvs))).1,
            (cutMessages (p.buffer ++ appended (chunksRead recvs))).2) := by
        rw [hb]
        exact cutMessages_cons _ _ _
      refine ⟨closing, ?_, ?_⟩
      · rw [hsplit, serve_append, List.map_append, ← hx, ← hc, hactions, List.append_assoc]
      · rw [hsplit]
        exact hend

end Sent

/-! ### Runs -/

/-- On every descriptor the messages answered are those of the stream the session
appended, and the open connections hold the rest of theirs. -/
structure Answered (events : List Event) (t : List Action) (s : TCPServer) : Prop where
  messages : ∀ fd, messagesOn t fd = (cutMessages (appended (session events fd).chunks)).1
  live : ∀ fd, (session events fd).live = true →
    ∃ client, s.clients.lookup fd = some client ∧
      client.buffer = (cutMessages (appended (session events fd).chunks)).2
  dead : ∀ fd, (session events fd).live = false → s.clients.lookup fd = none

section Runs

variable {events : List Event} {t : List Action} {s : TCPServer} {fd fd' : ℕ}

theorem session_accept {registered : Bool} :
    session (events ++ [Event.accept fd' registered]) fd =
      if registered ∧ fd' = fd then ⟨true, []⟩ else session events fd := by
  simp [session]

theorem session_clientData {recvs : List Recv} {sends : List Bool} :
    session (events ++ [Event.clientData fd' recvs sends]) fd =
      if fd' = fd ∧ (session events fd).live = true then
        ⟨staysOpen recvs, (session events fd).chunks ++ chunksRead recvs⟩
      else session events fd := by
  rw [session, List.foldl_append]
  rfl

/-- An event that changes no session changes nothing. -/
theorem Answered.congr {events' : List Event} (h : Answered events t s)
    (hsession : ∀ fd, session events' fd = session events fd) : Answered events' (t ++ []) s := by
  rw [List.append_nil]
  refine ⟨fun fd => ?_, fun fd hlive => ?_, fun fd hdead => ?_⟩
  · rw [hsession, h.messages]
  · rw [hsession] at hlive ⊢
    exact h.live fd hlive
  · rw [hsession] at hdead
    exact h.dead fd hdead

/-- An event on one descriptor leaves the others as they were. -/
theorem Answered.update {events' : List Event} {t' : List Action} {s' : TCPServer}
    (h : Answered events t s) (fd : ℕ)
    (hother : ∀ fd', fd ≠ fd' → session events' fd' = session events fd' ∧
      messagesOn t' fd' = messagesOn t fd' ∧ s'.clients.lookup fd' = s.clients.lookup fd')
    (hmessages : messagesOn t' fd = (cutMessages (appended (session events' fd).chunks)).1)
    (hend : (session events' fd).live = true ∧
        (∃ client, s'.clients.lookup fd = some client ∧
          client.buffer = (cutMessages (appended (session events' fd).chunks)).2) ∨
      (session events' fd).live = false ∧ s'.clients.lookup fd = none) :
    Answered events' t' s' := by
  refine ⟨fun fd' => ?_, fun fd' hlive => ?_, fun fd' hdead => ?_⟩
  · rcases eq_or_ne fd fd' with rfl | hne
    · exact hmessages
    · obtain ⟨hsession, hsame, -⟩ := hother fd' hne
      rw [hsession, hsame, h.messages]
  · rcases eq_or_ne fd fd' with rfl | hne
    · rcases hend with ⟨-, hclient⟩ | ⟨hdead, -⟩
      · exact hclient
      · exact absurd (hlive.symm.trans hdead) (by simp)
    · obtain ⟨hsession, -, hlookup⟩ := hother fd' hne
      rw [hsession] at hlive ⊢
      rw [hlookup]
      exact h.live fd' hlive
  · rcases eq_or_ne fd fd' with rfl | hne
    · rcases hend with ⟨hlive, -⟩ | ⟨-, hnone⟩
      · exact absurd (hlive.symm.trans hdead) (by simp)
      · exact hnone
    · obtain ⟨hsession, -, hlookup⟩ := hother fd' hne
      rw [hsession] at hdead
      rw [hlookup]
      exact h.dead fd' hdead

theorem Answered.accept (h : Answered events t s) (fd : ℕ) (registered : Bool) :
    Answered (events ++ [Event.accept fd registered]) (t ++ (s.handleNewConnection fd registered).1)
      (s.handleNewConnection fd registered).2 := by
  cases registered with
  | false => exact h.congr fun fd' => by simp [session_accept]
  | true =>
    have hempty : cutMessages [] = ([], []) := Framing.cut_of_none _ (by decide)
    have hself : session (events ++ [Event.accept fd true]) fd = ⟨true, []⟩ := by
      simp [session_accept]
    refine h.update fd (fun fd' hne => ⟨?_, ?_, ?_⟩) ?_ (Or.inl ?_)
    · simp [session_accept, hne]
    · exact messagesOn_opened.trans (if_neg hne)
    · exact AList.lookup_insert_ne hne.symm
    · rw [hself]
      exact (messagesOn_opened.trans (if_pos rfl)).trans (congrArg Prod.fst hempty).symm
    · rw [hself]
      exact ⟨rfl, _, AList.lookup_insert _, (congrArg Prod.snd hempty).symm⟩

theorem Answered.find_buffer {client : ClientConnection} (h : Answered events t s)
    (hfd : s.clients.lookup fd = some client) :
    (session events fd).live = true ∧
      client.buffer = (cutMessages (appended (session events fd).chunks)).2 ∧
        Framing.find delimiter client.buffer = none := by
  have hlive : (session events fd).live = true := by
    by_contra hdead
    rw [h.dead fd (Bool.eq_false_iff.mpr hdead)] at hfd
    simp at hfd
  obtain ⟨client', hclient', hbuf⟩ := h.live fd hlive
  obtain rfl := Option.some.inj (hclient'.symm.trans hfd)
  refine ⟨hlive, hbuf, ?_⟩
  rw [hbuf]
  exact Framing.find_cut delimiter_ne_nil _

theorem Answered.clientData (h : Answered events t s) (fd : ℕ) (recvs : List Recv)
    {sends : List Bool} (hsends : ∀ sent ∈ sends, sent = true) :
    Answered (events ++ [Event.clientData fd recvs sends])
      (t ++ (s.handleClientData fd recvs sends).1) (s.handleClientData fd recvs sends).2 := by
  rw [handleClientData]
  rcases hfd : s.clients.lookup fd with _ | client
  · -- an event for a descriptor that is not open
    have hdead : (session events fd).live = false := by
      by_contra hlive
      obtain ⟨client, hclient, -⟩ := h.live fd (Bool.not_eq_false _ ▸ hlive)
      rw [hfd] at hclient
      simp at hclient
    refine h.congr fun fd' => ?_
    rw [session_clientData, if_neg]
    rintro ⟨rfl, hlive⟩
    rw [hdead] at hlive
    simp at hlive
  obtain ⟨hlive, hbuf, hnone⟩ := h.find_buffer hfd
  have hself : session (events ++ [Event.clientData fd recvs sends]) fd =
      ⟨staysOpen recvs, (session events fd).chunks ++ chunksRead recvs⟩ := by
    rw [session_clientData, if_pos ⟨rfl, hlive⟩]
  -- what was cut before, and what the rest of the buffer adds
  have hcut : cutMessages (appended ((session events fd).chunks ++ chunksRead recvs)) =
      (messagesOn t fd ++ (cutMessages (client.buffer ++ appended (chunksRead recvs))).1,
        (cutMessages (client.buffer ++ appended (chunksRead recvs))).2) := by
    have happend : appended ((session events fd).chunks ++ chunksRead recvs) =
        appended (session events fd).chunks ++ appended (chunksRead recvs) := by simp [appended]
    rw [happend, h.messages, hbuf]
    exact Framing.cut_append delimiter_ne_nil _ _
  obtain ⟨closing, hactions, hend⟩ := receiveLoop_of_forall hfd hnone hsends recvs
  refine h.update fd (fun fd' hne => ?_) ?_ ?_
  · obtain ⟨hlookup, hsame⟩ := receiveLoop_of_ne hne.symm s client recvs sends t
    exact ⟨session_clientData.trans (if_neg fun hand => hne hand.1), hsame, hlookup⟩
  · have hclosing : messagesOn (t ++ (receiveLoop fd s client recvs sends).1) fd =
        messagesOn (t ++ (serve client.clientId s.cache
          (cutMessages (client.buffer ++ appended (chunksRead recvs))).1).1.map
            (Action.answered fd)) fd := by
      rw [hactions, ← List.append_assoc]
      rcases hend with ⟨-, rfl, -⟩ | ⟨-, rfl, -⟩
      · rw [List.append_nil]
      · exact messagesOn_closed
    rw [hself, hcut]
    exact hclosing.trans (by rw [messagesOn_answered, map_message_serve])
  · rw [hself]
    rcases hend with ⟨hstays, -, hlookup⟩ | ⟨hstays, -, hlookup⟩
    · exact Or.inl ⟨hstays, _, hlookup, (congrArg Prod.snd hcut).symm⟩
    · exact Or.inr ⟨hstays, hlookup⟩

/-- **Every message is answered, once and in order**, on open connections and on
closed ones. -/
theorem answered_after (events : List Event) (hsends : SendsSucceed events) :
    Answered events (trace fresh events) (StepMachine.after TCPServer.step fresh events) := by
  induction events using List.reverseRecOn with
  | nil =>
    have hempty : cutMessages [] = ([], []) := Framing.cut_of_none _ (by decide)
    refine ⟨fun fd => (congrArg Prod.fst hempty).symm, fun fd hl => ?_, fun fd _ => rfl⟩
    simp [session] at hl
  | append_singleton events event ih =>
    have hrest := ih fun fd recvs sends hmem => hsends fd recvs sends (by simp [hmem])
    simp only [trace, StepMachine.history_append, StepMachine.after_append, List.flatMap_append,
      StepMachine.history_cons, StepMachine.history_nil, StepMachine.after_cons,
      StepMachine.after_nil, List.flatMap_singleton]
    cases event with
    | accept fd registered => exact hrest.accept fd registered
    | clientData fd recvs sends =>
      exact hrest.clientData fd recvs (hsends fd recvs sends (by simp))

end Runs

/-- No chunk holds a zero byte. -/
def NoZeroBytes (events : List Event) : Prop :=
  ∀ fd recvs sends, .clientData fd recvs sends ∈ events →
    ∀ chunk, .data chunk ∈ recvs → 0 ∉ chunk.bytes

theorem data_mem_of_mem_chunksRead {chunk : Chunk} {recvs : List Recv}
    (h : chunk ∈ chunksRead recvs) : .data chunk ∈ recvs := by
  induction recvs with
  | nil => simp [chunksRead] at h
  | cons recv recvs ih =>
    cases recv with
    | data c =>
      rcases List.mem_cons.mp h with rfl | h
      · exact List.mem_cons_self
      · exact List.mem_cons_of_mem _ (ih h)
    | closed | failed => simp [chunksRead] at h

theorem NoZeroBytes.session {events : List Event} (h : NoZeroBytes events) (fd : ℕ) :
    ∀ chunk ∈ (session events fd).chunks, 0 ∉ chunk.bytes := by
  induction events using List.reverseRecOn with
  | nil => simp [TCPServer.session]
  | append_singleton events event ih =>
    have hrest := ih fun fd recvs sends hmem => h fd recvs sends (by simp [hmem])
    cases event with
    | accept fd' registered =>
      rw [session_accept]
      split_ifs
      · simp
      · exact hrest
    | clientData fd' recvs sends =>
      rw [session_clientData]
      split_ifs
      · intro chunk hmem
        rcases List.mem_append.mp hmem with hmem | hmem
        · exact hrest chunk hmem
        · exact h fd' recvs sends (by simp) chunk (data_mem_of_mem_chunksRead hmem)
      · exact hrest

theorem IsLine.isFrame {response : Bytes} (h : IsLine response) :
    Framing.IsFrame [lineFeed] response := by
  obtain ⟨body, rfl, hbody⟩ := h
  have hline : lineFeed ∉ body ++ [carriageReturn] := by
    simp [hbody, lineFeed_ne_carriageReturn]
  simpa using Framing.isFrame_singleton hline

/-- **Responses are self-delimiting where no chunk holds a zero byte**, in every run
in which every response is sent. -/
theorem selfDelimiting_of_noZeroBytes (events : List Event) (hsends : SendsSucceed events)
    (hzero : NoZeroBytes events) : SelfDelimiting events := by
  have htracks := tracks_run events
  obtain ⟨hstored, hlines⟩ := htracks.legal.oneLine
  refine ⟨htracks.cache ▸ hstored, hlines, fun fd => ?_, fun fd => ?_⟩
  · rw [map_message_exchangesOn, (answered_after events hsends).messages,
      appended_eq_iff.mpr (hzero.session fd)]
  · have hframes : ∀ f ∈ (exchangesOn (trace fresh events) fd).map Exchange.response,
        Framing.IsFrame [lineFeed] f := by
      intro f hf
      obtain ⟨x, hx, rfl⟩ := List.mem_map.mp hf
      exact IsLine.isFrame (hlines fd x (answered_mem_of_mem_exchangesOn hx))
    rw [output, List.flatMap_def]
    exact Framing.cut_flatten _ hframes

/-- A value is stored and read back, in two chunks. -/
theorem selfDelimiting_read_back :
    let events : List Event := [.accept 5 true, .clientData 5
      [.data (Chunk.of (lit "Method:ADD\r\nKey:k\r\nValue:a\r\n\r\nMethod:GE")),
        .data (Chunk.of (lit "T\r\nKey:k\r\n\r\n"))] [true, true]]
    SendsSucceed events ∧ NoZeroBytes events ∧ SelfDelimiting events := by
  intro events
  have hsends : SendsSucceed events := by
    intro fd recvs sends hmem
    obtain ⟨rfl, rfl, rfl⟩ : fd = 5 ∧ recvs = _ ∧ sends = _ := by
      simpa [events] using hmem
    simp
  have hzero : NoZeroBytes events := by
    intro fd recvs sends hmem chunk hchunk
    obtain ⟨rfl, rfl, rfl⟩ : fd = 5 ∧ recvs = _ ∧ sends = _ := by
      simpa [events] using hmem
    simp only [List.mem_cons, Recv.data.injEq, List.not_mem_nil, or_false] at hchunk
    rcases hchunk with rfl | rfl <;> decide
  exact ⟨hsends, hzero, selfDelimiting_of_noZeroBytes events hsends hzero⟩

/-- A message with a zero byte in it is complete, and gets no response. -/
theorem not_selfDelimiting :
    ¬∀ events : List Event, SendsSucceed events → SelfDelimiting events := by
  intro hall
  let chunk := Chunk.of (lit "Method:GET\r\nKey:k" ++ 0 :: lit "\r\n\r\n")
  let events : List Event := [.accept 5 true, .clientData 5 [.data chunk] []]
  have hsends : SendsSucceed events := by
    intro fd recvs sends hmem
    obtain ⟨rfl, rfl, rfl⟩ : fd = 5 ∧ recvs = _ ∧ sends = _ := by
      simpa [events] using hmem
    simp
  have hanswered := (hall events hsends).answered 5
  have hnone : exchangesOn (trace fresh events) 5 = [] := by decide +kernel
  have hone : cutMessages (bytesOf (session events 5).chunks) = ([chunk.bytes], []) := by
    decide +kernel
  rw [hnone, hone] at hanswered
  simp at hanswered

end TCPServer

end PagedCacheServer
