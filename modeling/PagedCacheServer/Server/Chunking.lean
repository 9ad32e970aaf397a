import PagedCacheServer.Server.Streams

/-!
# Chunks do not matter, zero bytes do

Three consequences of the framing of streams
(`PagedCacheServer.TCPServer.framed_after`).

* A stream without zero bytes is cut into the same messages however it arrives,
  and if nobody else is served meanwhile it gets the same responses and leaves the
  same cache (`PagedCacheServer.TCPServer.chunking_independent`).
* Requests that are encoded and sent one after the other come out one by one, as
  the commands they stand for (`PagedCacheServer.TCPServer.requests_extracted`).
* Nothing that was received is lost, exactly when no chunk holds a zero byte: the
  rest of such a chunk never reaches the buffer
  (`PagedCacheServer.TCPServer.conserved_iff`).
-/

namespace PagedCacheServer

open ProtocolParser

namespace TCPServer

variable {chunks : List Chunk}

/-! ### Zero bytes -/

/-- The bytes of some chunks. -/
def bytesOf (chunks : List Chunk) : Bytes := chunks.flatMap Chunk.bytes

theorem cString_eq_self_iff {bytes : Bytes} : cString bytes = bytes ↔ 0 ∉ bytes := by
  rw [cString, List.takeWhile_eq_self_iff]
  constructor
  · intro h hmem
    simpa using h 0 hmem
  · intro h c hc
    simpa using fun he : c = 0 => h (he ▸ hc)

theorem length_cString_le (bytes : Bytes) : (cString bytes).length ≤ bytes.length :=
  (List.takeWhile_sublist _).length_le

theorem length_appended_le (chunks : List Chunk) :
    (appended chunks).length ≤ (bytesOf chunks).length := by
  induction chunks with
  | nil => rfl
  | cons chunk chunks ih =>
    have := length_cString_le chunk.bytes
    simp only [appended, bytesOf, List.flatMap_cons, List.length_append] at ih ⊢
    omega

/-- The server appends what it received exactly when it received no zero byte. -/
theorem appended_eq_iff : appended chunks = bytesOf chunks ↔ ∀ c ∈ chunks, 0 ∉ c.bytes := by
  induction chunks with
  | nil => simp [appended, bytesOf]
  | cons chunk chunks ih =>
    rw [List.forall_mem_cons, ← cString_eq_self_iff, ← ih]
    change cString chunk.bytes ++ appended chunks = chunk.bytes ++ bytesOf chunks ↔ _
    constructor
    · intro h
      -- neither part can make up for bytes the other one has lost
      have hlen := congrArg List.length h
      rw [List.length_append, List.length_append] at hlen
      have h₁ := length_cString_le chunk.bytes
      have h₂ := length_appended_le chunks
      exact List.append_inj h (by omega)
    · rintro ⟨h₁, h₂⟩
      rw [h₁, h₂]

theorem appended_of_zero_notMem (h : 0 ∉ bytesOf chunks) : appended chunks = bytesOf chunks :=
  appended_eq_iff.mpr fun c hc hzero => h (List.mem_flatMap.mpr ⟨c, hc, hzero⟩)

/-! ### Chunking -/

/-- A connection is opened and then served alone, all its responses being sent. -/
def aloneOn (fd : ℕ) (calls : List (List Chunk)) : List Event :=
  .accept fd true :: calls.map fun chunks => .clientData fd (chunks.map Recv.data) []

/-- What serving a connection alone comes to: its messages are served one after
the other, and what follows the last one stays in the buffer. -/
theorem served_alone (s : TCPServer) (fd : ℕ) (calls : List (List Chunk))
    (hzero : 0 ∉ bytesOf calls.flatten) :
    let cut := cutMessages (bytesOf calls.flatten)
    let served := serve (clientIdOf fd) s.cache cut.1
    let s' := StepMachine.after TCPServer.step s (aloneOn fd calls)
    trace s (aloneOn fd calls) = .opened fd :: served.1.map (Action.answered fd) ∧
      s'.cache = served.2 ∧ s'.clients.lookup fd = some ⟨fd, clientIdOf fd, cut.2⟩ := by
  intro cut served s'
  -- the connection has just been opened
  let s₁ : TCPServer := (s.step (.accept fd true)).2
  have hfd : s₁.clients.lookup fd = some (ClientConnection.ofFd fd) := AList.lookup_insert _
  have hempty : Framing.find delimiter [] = none := by decide
  obtain ⟨htrace, hafter⟩ := after_calls hfd calls
  obtain ⟨client', hlive, -⟩ := receiveLoop_append hfd calls.flatten []
  have hd := delivered_receiveLoop hfd hempty hlive
  have hbytes : (ClientConnection.ofFd fd).buffer ++
      appended (chunksOf (calls.flatten.map Recv.data)) = bytesOf calls.flatten := by
    rw [chunksOf_map_data, appended_of_zero_notMem hzero]
    rfl
  have hactions := hd.actions
  have hcache := hd.cache
  have hclient := hd.client
  rw [hbytes] at hactions hcache hclient
  refine ⟨?_, ?_, ?_⟩
  · exact congrArg (List.cons (Action.opened fd)) (htrace.trans hactions)
  · exact (congrArg TCPServer.cache hafter).trans hcache
  · exact (congrArg (fun s : TCPServer => s.clients.lookup fd) hafter).trans
      (hlive.trans (congrArg some hclient))

/-- **Chunking independence.** On every open connection that received no zero
byte, in any run, the messages and the buffer are those of the whole stream cut
after each first delimiter; and a connection that is served alone, and to which
every response can be sent, is given the responses and leaves the cache of these
messages. -/
theorem chunking_independent :
    (∀ (events : List Event) (fd : ℕ) (client : ClientConnection),
      (StepMachine.after TCPServer.step fresh events).clients.lookup fd = some client →
      0 ∉ bytesOf (received events fd) →
        (messagesOn (trace fresh events) fd, client.buffer) =
          cutMessages (bytesOf (received events fd))) ∧
    ∀ (before : List Event) (fd : ℕ) (calls : List (List Chunk)), 0 ∉ bytesOf calls.flatten →
      let s := StepMachine.after TCPServer.step fresh before
      let cut := cutMessages (bytesOf calls.flatten)
      let served := serve (clientIdOf fd) s.cache cut.1
      let s' := StepMachine.after TCPServer.step s (aloneOn fd calls)
      trace s (aloneOn fd calls) = .opened fd :: served.1.map (Action.answered fd) ∧
        s'.cache = served.2 ∧ s'.clients.lookup fd = some ⟨fd, clientIdOf fd, cut.2⟩ := by
  refine ⟨fun events fd client hfd hzero => ?_, fun before fd calls hzero => ?_⟩
  · rw [← appended_of_zero_notMem hzero]
    exact framed_after events fd client hfd
  · exact served_alone _ fd calls hzero

/-- A delimiter and a half, cut inside the delimiter and received in two calls. -/
theorem chunking_independent_split :
    let first := Chunk.of (lit "\r\n\r")
    let second := Chunk.of (lit "\n\r\n")
    let s := StepMachine.after TCPServer.step fresh (aloneOn 5 [[first], [second]])
    0 ∉ bytesOf [first, second] ∧
      trace fresh (aloneOn 5 [[first], [second]]) = [.opened 5, .answered 5
        ⟨lit "\r\n\r\n", {}, formatResponse Response.errorInvalidCommand⟩] ∧
      s.clients.lookup 5 = some ⟨5, clientIdOf 5, lit "\r\n"⟩ := by
  intro first second s
  have hzero : 0 ∉ bytesOf [first, second] := by decide
  have hcut : cutMessages (bytesOf [first, second]) = ([lit "\r\n\r\n"], lit "\r\n") := by
    decide +kernel
  obtain ⟨htrace, -, hclient⟩ := chunking_independent.2 [] 5 [[first], [second]] hzero
  refine ⟨hzero, htrace.trans ?_, hclient.trans ?_⟩
  · rw [show [[first], [second]].flatten = [first, second] from rfl, hcut]
    rfl
  · rw [show [[first], [second]].flatten = [first, second] from rfl, hcut]

/-! ### Conservation -/

/-- What was answered and what is buffered add up to what was appended. -/
theorem flatten_messagesOn (events : List Event) {fd : ℕ} {client : ClientConnection}
    (hfd : (StepMachine.after TCPServer.step fresh events).clients.lookup fd = some client) :
    (messagesOn (trace fresh events) fd).flatten ++ client.buffer =
      appended (received events fd) := by
  have hcut := Framing.flatten_cut delimiter_ne_nil (appended (received events fd))
  rwa [← cutMessages, ← framed_after events fd client hfd] at hcut

/-- **No byte is lost exactly when no chunk holds a zero byte**, on every open
connection of every run. -/
theorem conserved_iff (events : List Event) (fd : ℕ) (client : ClientConnection)
    (hfd : (StepMachine.after TCPServer.step fresh events).clients.lookup fd = some client) :
    (messagesOn (trace fresh events) fd).flatten ++ client.buffer =
        bytesOf (received events fd) ↔
      ∀ c ∈ received events fd, 0 ∉ c.bytes := by
  rw [flatten_messagesOn events hfd]
  exact appended_eq_iff

/-- Half a message, in one chunk. -/
def halfChunk : Chunk := Chunk.of (lit "Method:GET\r\nKey:k\r\n")

/-- A connection that has received half a message still has it. -/
theorem conserved_half :
    let events : List Event := [.accept 5 true, .clientData 5 [.data halfChunk] []]
    let s := StepMachine.after TCPServer.step fresh events
    s.clients.lookup 5 = some ⟨5, clientIdOf 5, halfChunk.bytes⟩ ∧
      (messagesOn (trace fresh events) 5).flatten ++ halfChunk.bytes =
        bytesOf (received events 5) := by
  intro events s
  have hfd : s.clients.lookup 5 = some ⟨5, clientIdOf 5, halfChunk.bytes⟩ := by decide +kernel
  refine ⟨hfd, (conserved_iff events 5 _ hfd).mpr fun c hc => ?_⟩
  obtain rfl : c = halfChunk := List.mem_singleton.mp hc
  decide

/-- Two messages in one chunk, the value of the first one with a zero byte. -/
def zeroChunk : Chunk :=
  Chunk.of (lit "Method:ADD\r\nKey:k\r\nValue:a" ++ 0 :: lit "b\r\n\r\nMethod:GET\r\nKey:k\r\n\r\n")

/-- What follows a zero byte is lost. -/
theorem not_conserved :
    ¬∀ (events : List Event) (fd : ℕ) (client : ClientConnection),
      (StepMachine.after TCPServer.step fresh events).clients.lookup fd = some client →
        (messagesOn (trace fresh events) fd).flatten ++ client.buffer =
          bytesOf (received events fd) := by
  intro hall
  let events : List Event := [.accept 5 true, .clientData 5 [.data zeroChunk] []]
  have hfd : (StepMachine.after TCPServer.step fresh events).clients.lookup 5 =
      some ⟨5, clientIdOf 5, lit "Method:ADD\r\nKey:k\r\nValue:a"⟩ := by decide +kernel
  have hkept := hall events 5 _ hfd
  rw [flatten_messagesOn events hfd, appended_eq_iff] at hkept
  exact absurd (hkept zeroChunk (List.mem_singleton.mpr rfl)) (by decide)

/-! ### Requests -/

theorem zero_notMem_encodings (requests : List Request) :
    0 ∉ requests.flatMap Request.encode := by
  intro h
  obtain ⟨r, -, hr⟩ := List.mem_flatMap.mp h
  exact zero_notMem_encode r hr

/-- Encoded requests are cut where they were joined. -/
theorem cutMessages_encodings (requests : List Request) :
    cutMessages (requests.flatMap Request.encode) = (requests.map Request.encode, []) := by
  rw [List.flatMap_def]
  refine Framing.cut_flatten delimiter_ne_nil fun f hf => ?_
  obtain ⟨r, -, rfl⟩ := List.mem_map.mp hf
  exact isFrame_encode r

theorem map_parseMessage_encode (requests : List Request) :
    (requests.map Request.encode).map parseMessage = requests.map Request.command := by
  rw [List.map_map]
  exact List.map_congr_left fun r _ => parseMessage_encode r

/-- **Pipelined requests.** When the encodings of some requests are all a
connection was sent, in whatever chunks, then its messages are these encodings,
nothing is left in its buffer, and the commands parsed from them are those of the
requests. This holds of every connection that is open, in any run; and one that is
served alone is open. -/
theorem requests_extracted :
    (∀ (requests : List Request) (events : List Event) (fd : ℕ) (client : ClientConnection),
      (StepMachine.after TCPServer.step fresh events).clients.lookup fd = some client →
      bytesOf (received events fd) = requests.flatMap Request.encode →
        messagesOn (trace fresh events) fd = requests.map Request.encode ∧ client.buffer = [] ∧
          (messagesOn (trace fresh events) fd).map parseMessage =
            requests.map Request.command) ∧
    ∀ (requests : List Request) (before : List Event) (fd : ℕ) (calls : List (List Chunk)),
      bytesOf calls.flatten = requests.flatMap Request.encode →
        let s := StepMachine.after TCPServer.step fresh before
        let s' := StepMachine.after TCPServer.step s (aloneOn fd calls)
        messagesOn (trace s (aloneOn fd calls)) fd = requests.map Request.encode ∧
          s'.clients.lookup fd = some ⟨fd, clientIdOf fd, []⟩ ∧
          (messagesOn (trace s (aloneOn fd calls)) fd).map parseMessage =
            requests.map Request.command := by
  refine ⟨fun requests events fd client hfd hbytes => ?_, fun requests before fd calls hbytes => ?_⟩
  · have hzero : 0 ∉ bytesOf (received events fd) := hbytes ▸ zero_notMem_encodings requests
    have hcut := framed_after events fd client hfd
    rw [appended_of_zero_notMem hzero, hbytes, cutMessages_encodings] at hcut
    obtain ⟨hmessages, hbuffer⟩ := Prod.mk.inj hcut
    exact ⟨hmessages, hbuffer, hmessages ▸ map_parseMessage_encode requests⟩
  · have hzero : 0 ∉ bytesOf calls.flatten := hbytes ▸ zero_notMem_encodings requests
    intro s s'
    obtain ⟨htrace, -, hclient⟩ := served_alone s fd calls hzero
    rw [hbytes, cutMessages_encodings] at htrace hclient
    have hmessages : messagesOn (trace s (aloneOn fd calls)) fd = requests.map Request.encode := by
      rw [htrace, ← List.singleton_append, messagesOn_answered, map_message_serve]
      simp [messagesOn]
    exact ⟨hmessages, hclient, hmessages ▸ map_parseMessage_encode requests⟩

/-- An `UPDATE` in mixed letters, with blanks around its key and inside it, to the
empty value. -/
def spacedUpdate : Request where
  type := .update
  method := lit "Update"
  key := lit " a: b\t"
  value := some []
  isValid := by decide
  spelled := by decide
  keyClean := by decide
  valueClean _ h := Option.some.inj h ▸ by decide
  hasValue _ := by decide

/-- Two requests, cut in the middle of the second one. -/
theorem requests_extracted_twice :
    let first := Chunk.of
      (lit "Method:Update\r\nKey: a: b\t\r\nValue:\r\n\r\nMethod:Up")
    let second := Chunk.of (lit "date\r\nKey: a: b\t\r\nValue:\r\n\r\n")
    bytesOf [first, second] = [spacedUpdate, spacedUpdate].flatMap Request.encode ∧
      (messagesOn (trace fresh (aloneOn 5 [[first], [second]])) 5).map parseMessage =
        [⟨.update, lit "a: b", []⟩, ⟨.update, lit "a: b", []⟩] := by
  intro first second
  have hbytes : bytesOf [first, second] = [spacedUpdate, spacedUpdate].flatMap Request.encode := by
    decide
  have hcommand : spacedUpdate.command = ⟨.update, lit "a: b", []⟩ := by decide
  obtain ⟨-, -, hparsed⟩ :=
    requests_extracted.2 [spacedUpdate, spacedUpdate] [] 5 [[first], [second]] hbytes
  refine ⟨hbytes, hparsed.trans ?_⟩
  rw [List.map_cons, List.map_cons, List.map_nil, hcommand]

end TCPServer

end PagedCacheServer
