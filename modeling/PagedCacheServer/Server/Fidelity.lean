import PagedCacheServer.Cache.History
import PagedCacheServer.Server.Chunking

/-!
# From `ADD` to `GET`

A value that is added over a connection and read back over it passes through
everything there is: it is framed, parsed, stored, looked up and formatted. What
comes back is the value without the blanks around it, byte for byte – the parser
trims every field, and nothing else on the way touches it
(`PagedCacheServer.TCPServer.value_returned`).

Between the two commands anything may happen, on any connection, but for a
command on the same key. Then the entry is the one that was added or it is gone
(`PagedCacheServer.lookup_replay_append`).
-/

namespace PagedCacheServer

open ProtocolParser TCPServer PagedCache

/-! ### The two messages -/

/-- Neither a line feed nor a zero byte. -/
def Clean (s : Bytes) : Prop := lineFeed ∉ s ∧ 0 ∉ s

/-- The message that adds `v` under `k`. -/
def encodeAdd (k v : Bytes) : Bytes :=
  encodeLine (lit "Method") (lit "ADD") ++ encodeLine (lit "Key") k ++
    encodeLine (lit "Value") v ++ [carriageReturn, lineFeed]

/-- The message that reads `k`. -/
def encodeGet (k : Bytes) : Bytes :=
  encodeLine (lit "Method") (lit "GET") ++ encodeLine (lit "Key") k ++ [carriageReturn, lineFeed]

section Encode

variable {k v : Bytes}

/-- The request behind `encodeAdd`. -/
def addRequest (hk : Clean k) (hv : Clean v) : Request where
  type := .add
  method := lit "ADD"
  key := k
  value := some v
  isValid := by decide
  spelled := by decide
  keyClean := hk
  valueClean _ h := Option.some.inj h ▸ hv
  hasValue _ := by simp

/-- The request behind `encodeGet`. -/
def getRequest (hk : Clean k) : Request where
  type := .get
  method := lit "GET"
  key := k
  value := none
  isValid := by decide
  spelled := by decide
  keyClean := hk
  valueClean _ h := by simp at h
  hasValue h := by simp at h

theorem parseMessage_encodeAdd (hk : Clean k) (hv : Clean v) :
    parseMessage (encodeAdd k v) = ⟨.add, strip k, strip v⟩ :=
  parseMessage_encode (addRequest hk hv)

theorem encode_getRequest (hk : Clean k) : (getRequest hk).encode = encodeGet k := by
  simp [Request.encode, getRequest, encodeGet]

theorem parseMessage_encodeGet (hk : Clean k) :
    parseMessage (encodeGet k) = ⟨.get, strip k, []⟩ :=
  encode_getRequest hk ▸ parseMessage_encode (getRequest hk)

theorem cutMessages_encodeGet (hk : Clean k) :
    cutMessages (encodeGet k) = ([encodeGet k], []) := by
  simpa [encode_getRequest] using cutMessages_encodings [getRequest hk]

end Encode

/-! ### The entry -/

/-- The action is a command on `k`. -/
def Action.names (k : Bytes) : Action → Bool
  | .answered _ x => x.command.type ≠ .invalid && x.command.key = k
  | .opened _ | .closed _ => false

variable {admits : PagedCache → ℕ → Prop} {t before mid later : List Action} {fd : ℕ}
  {x y : Exchange} {k v : Bytes} {e : CacheEntry}

/-- An action that is no command on `k` leaves the entry under `k` as it is, or
drops it. -/
theorem lookup_apply {cache : PagedCache} {a : Action} (hwf : cache.Wf) (ha : a.names k = false) :
    (a.apply cache).cacheMap.lookup k = cache.cacheMap.lookup k ∨
      (a.apply cache).cacheMap.lookup k = none := by
  cases a with
  | opened fd => exact Or.inl rfl
  | closed fd => exact Or.inl rfl
  | answered fd x =>
    rw [Action.apply]
    rcases hcall : x.command.call (clientIdOf fd) with _ | call
    · rw [processCommand_of_none hcall]
      exact Or.inl rfl
    · rw [processCommand_snd hcall]
      obtain ⟨hkey, -, hvalid⟩ := Command.call_eq_some hcall
      refine (hwf.step call).frame k fun heq => ?_
      simp [Action.names, hvalid, heq, hkey] at ha

/-- **Over a part of a trace without a command on `k`** the entry under `k` stays
as it is, or goes for good. -/
theorem lookup_replay_append (t : List Action) (hmid : ∀ a ∈ mid, a.names k = false) :
    (replay (t ++ mid)).cacheMap.lookup k = (replay t).cacheMap.lookup k ∨
      (replay (t ++ mid)).cacheMap.lookup k = none := by
  induction mid using List.reverseRecOn with
  | nil => simp
  | append_singleton mid a ih =>
    have hrest : ∀ b ∈ mid, b.names k = false := fun b hb => hmid b (by simp [hb])
    rw [← List.append_assoc, replay_snoc]
    rcases lookup_apply (replay_wf (t ++ mid)) (hmid a (by simp)) with hsame | hnone
    · rw [hsame]
      exact ih hrest
    · exact Or.inr hnone

/-- An `ADD` that is answered with success leaves the value it was sent, without
the blanks around it. -/
theorem lookup_of_added (hk : Clean k) (hv : Clean v) (hx : x.Genuine (replay t) fd)
    (hmessage : x.message = encodeAdd k v) (hok : x.response = formatResponse Response.okAdded) :
    ∃ e, (replay (t ++ [Action.answered fd x])).cacheMap.lookup (strip k) = some e ∧
      e.clientId = clientIdOf fd ∧ e.value = strip v := by
  have hcmd : x.command = ⟨.add, strip k, strip v⟩ := by
    rw [hx.1, hmessage, parseMessage_encodeAdd hk hv]
  have hsucceeded : x.succeeded = true := by
    rw [Exchange.succeeded, hok]
    decide
  obtain ⟨call, hcall, hsucc⟩ := hx.succeeded_iff.mp hsucceeded
  obtain rfl : call = .add (strip k) (strip v) (clientIdOf fd) := by
    rw [hcmd] at hcall
    exact (Option.some.inj hcall).symm
  have hwf := replay_wf t
  have href := hwf.step (.add (strip k) (strip v) (clientIdOf fd))
  rw [href.reply] at hsucc
  obtain ⟨i, hi, howner, hvalue⟩ := Store.item_of_writes hwf.lru.nodup ⟨hsucc, Or.inl rfl⟩
  rw [← href.view] at hi
  obtain ⟨e, he, rfl⟩ := exists_lookup_of_view_item hi
  rw [replay_snoc, Action.apply, processCommand_snd hcall]
  exact ⟨e, he, howner, hvalue⟩

/-- A `GET` of an entry of the own client. -/
theorem processCommand_get {cache : PagedCache} {clientId value : Bytes}
    (he : cache.cacheMap.lookup k = some e) (hc : e.clientId = clientId) :
    (processCommand cache ⟨.get, k, value⟩ clientId).1 =
      lit "OK: Value=" ++ e.value ++ [carriageReturn, lineFeed] := by
  simp [processCommand, PagedCache.getKey, he, hc, formatResponse, Response.okValue]

/-- The trace starts with an `ADD` of `v` under `k` that is answered with success
on `fd`, and goes on without a command on the key it stored the value under. -/
structure Added (t : List Action) (fd : ℕ) (k v : Bytes) : Prop where
  cleanKey : Clean k
  cleanValue : Clean v
  added : ∃ before x mid, t = before ++ .answered fd x :: mid ∧ x.message = encodeAdd k v ∧
    x.response = formatResponse Response.okAdded ∧ ∀ a ∈ mid, a.names (strip k) = false

/-- Nothing has happened since the `ADD`. -/
theorem Added.of_last (hk : Clean k) (hv : Clean v) (hmessage : x.message = encodeAdd k v)
    (hok : x.response = formatResponse Response.okAdded) :
    Added (t ++ [Action.answered fd x]) fd k v :=
  ⟨hk, hv, t, x, [], rfl, hmessage, hok, by simp⟩

/-- The entry an `ADD` made is still the one it made, if it was not evicted. -/
theorem Added.lookup (ha : Added t fd k v) (hlegal : Legal admits t)
    (hkept : strip k ∈ (replay t).cacheMap) :
    ∃ e, (replay t).cacheMap.lookup (strip k) = some e ∧ e.clientId = clientIdOf fd ∧
      e.value = strip v := by
  obtain ⟨before, x, mid, rfl, hmessage, hok, hmid⟩ := ha.added
  obtain ⟨e, he, hc, hval⟩ := lookup_of_added ha.cleanKey ha.cleanValue hlegal.split.2 hmessage hok
  have hsplit : before ++ Action.answered fd x :: mid =
      (before ++ [Action.answered fd x]) ++ mid := by simp
  rw [hsplit] at hkept ⊢
  rcases lookup_replay_append (before ++ [Action.answered fd x]) hmid with hsame | hnone
  · exact ⟨e, hsame.trans he, hc, hval⟩
  · exact absurd hkept (AList.lookup_eq_none.mp hnone)

namespace TCPServer

/-! ### The answer -/

/-- **The value comes back, trimmed.** In every run, when an `ADD` of `v` under
`k` has been answered with success on a connection, no command on the key came
after it and the entry is still there, then a `GET` of `k` on the same descriptor
is answered with `v` without the blanks around it. This is said of any `GET`
message in the trace of a run; and of the event that completes one on an open
connection, which does answer it. -/
theorem value_returned :
    (∀ (events : List Event) (fd : ℕ) (k v : Bytes) (before later : List Action) (y : Exchange),
      trace fresh events = before ++ .answered fd y :: later → Added before fd k v →
      y.message = encodeGet k → strip k ∈ (replay before).cacheMap →
        y.response = lit "OK: Value=" ++ strip v ++ [carriageReturn, lineFeed]) ∧
    ∀ (events : List Event) (fd : ℕ) (k v : Bytes) (client : ClientConnection)
      (chunks : List Chunk),
      let s := StepMachine.after TCPServer.step fresh events
      Added (trace fresh events) fd k v → strip k ∈ s.cache.cacheMap →
      s.clients.lookup fd = some client → client.buffer ++ bytesOf chunks = encodeGet k →
        (s.step (.clientData fd (chunks.map Recv.data) [])).1 =
          [.answered fd ⟨encodeGet k, ⟨.get, strip k, []⟩,
            lit "OK: Value=" ++ strip v ++ [carriageReturn, lineFeed]⟩] := by
  refine ⟨fun events fd k v before later y htrace hadded hget hkept => ?_, ?_⟩
  · have hlegal := (tracks_run events).legal
    rw [htrace] at hlegal
    obtain ⟨hbefore, hy⟩ := hlegal.split
    obtain ⟨e, he, hc, hv⟩ := hadded.lookup hbefore hkept
    rw [hy.2, hy.1, hget, parseMessage_encodeGet hadded.cleanKey, processCommand_get he hc, hv]
  · intro events fd k v client chunks s hadded hkept hfd hbytes
    have htracks := tracks_run events
    rw [htracks.cache] at hkept
    obtain ⟨e, he, hc, hv⟩ := hadded.lookup htracks.legal hkept
    -- the event completes the message, and nothing else
    have hzero : 0 ∉ bytesOf chunks := by
      intro h
      have hmem : (0 : UInt8) ∈ encodeGet k := hbytes ▸ List.mem_append_right _ h
      exact zero_notMem_encode _ (encode_getRequest hadded.cleanKey ▸ hmem)
    obtain ⟨client', hlive, -⟩ := receiveLoop_append hfd chunks []
    have hactions := (delivered_receiveLoop hfd ((framed_after events).find_buffer hfd)
      hlive).actions
    rw [chunksOf_map_data, appended_of_zero_notMem hzero, hbytes, cutMessages_encodeGet
      hadded.cleanKey, htracks.cache, htracks.clientId fd client hfd] at hactions
    have hstep : s.step (.clientData fd (chunks.map Recv.data) []) =
        receiveLoop fd s client (chunks.map Recv.data) [] := by
      simp only [TCPServer.step, handleClientData, hfd]
    rw [hstep, hactions]
    simp only [serve, exchangeOf, parseMessage_encodeGet hadded.cleanKey, processCommand_get he hc,
      hv, List.map_cons, List.map_nil]

theorem clean_k : Clean (lit "k") := ⟨by decide, by decide⟩

/-- A value with a blank inside comes back as it was sent. -/
theorem value_returned_inner_blank :
    ∃ (add get : Chunk) (before : List Action) (y : Exchange),
      trace fresh [.accept 5 true, .clientData 5 [.data add, .data get] []] =
          before ++ .answered 5 y :: [] ∧
        Added before 5 (lit "k") (lit "a b") ∧ y.message = encodeGet (lit "k") ∧
        strip (lit "k") ∈ (replay before).cacheMap ∧
        y.response = lit "OK: Value=" ++ lit "a b" ++ [carriageReturn, lineFeed] := by
  let add := Chunk.of (encodeAdd (lit "k") (lit "a b"))
  let get := Chunk.of (encodeGet (lit "k"))
  let x : Exchange := ⟨add.bytes, ⟨.add, lit "k", lit "a b"⟩, formatResponse Response.okAdded⟩
  let y : Exchange := ⟨get.bytes, ⟨.get, lit "k", []⟩,
    formatResponse (Response.okValue (lit "a b"))⟩
  have htrace : trace fresh [.accept 5 true, .clientData 5 [.data add, .data get] []] =
      [Action.opened 5, .answered 5 x] ++ Action.answered 5 y :: [] := by decide +kernel
  have hadded : Added ([Action.opened 5] ++ [Action.answered 5 x]) 5 (lit "k") (lit "a b") :=
    .of_last clean_k ⟨by decide, by decide⟩ rfl rfl
  have hkept : strip (lit "k") ∈ (replay [.opened 5, .answered 5 x]).cacheMap := by
    decide +kernel
  have hresponse := value_returned.1 _ 5 _ _ _ [] y htrace hadded rfl hkept
  have hstrip : strip (lit "a b") = lit "a b" := by decide
  rw [hstrip] at hresponse
  exact ⟨add, get, _, y, htrace, hadded, rfl, hkept, hresponse⟩

/-- A value with a blank in front is added and comes back without it. -/
theorem value_not_returned :
    ¬∀ (events : List Event) (fd : ℕ) (k v : Bytes) (before later : List Action) (y : Exchange),
      trace fresh events = before ++ .answered fd y :: later → Added before fd k v →
      y.message = encodeGet k → strip k ∈ (replay before).cacheMap →
        y.response = lit "OK: Value=" ++ v ++ [carriageReturn, lineFeed] := by
  intro hall
  let addBlank := Chunk.of (encodeAdd (lit "k") (lit " a"))
  let getKey := Chunk.of (encodeGet (lit "k"))
  let events : List Event := [.accept 5 true, .clientData 5 [.data addBlank, .data getKey] []]
  let added : Exchange := ⟨addBlank.bytes, ⟨.add, lit "k", lit "a"⟩,
    formatResponse Response.okAdded⟩
  let got : Exchange := ⟨getKey.bytes, ⟨.get, lit "k", []⟩,
    formatResponse (Response.okValue (lit "a"))⟩
  have htrace : trace fresh events =
      [Action.opened 5, .answered 5 added] ++ Action.answered 5 got :: [] := by decide +kernel
  have hadded : Added ([Action.opened 5] ++ [Action.answered 5 added]) 5 (lit "k") (lit " a") :=
    .of_last clean_k ⟨by decide, by decide⟩ rfl rfl
  have hkept : strip (lit "k") ∈ (replay [.opened 5, .answered 5 added]).cacheMap := by
    decide +kernel
  exact absurd (hall events 5 _ _ _ [] got htrace hadded rfl hkept) (by decide)

end TCPServer

end PagedCacheServer
