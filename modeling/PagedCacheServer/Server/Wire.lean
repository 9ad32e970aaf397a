import PagedCacheServer.Server.Responses

/-!
# What a client reads

`send_response` hands its bytes to `send` again and again, since `send` takes as many as
there is room for. Here it is the loop it is in the code, and the bytes that leave the
server are part of the state; for the rest the loops are those of
`PagedCacheServer.TCPServer.receiveLoop`, and every run goes as one of the server does that
is told beforehand which responses can be sent (`PagedCacheServer.Wired.client_reads`).

Every loop is taken to end: after some `send`s there is room, or one of them fails. For as
long as a peer neither reads nor hangs up, the server tries again.

So a client that cuts what it reads into lines finds the responses to its messages, whole
and in order. Only the last one can be missing, and then its connection is closed: a
response that breaks off is the last thing sent on a connection, and it has no line feed.
-/

namespace PagedCacheServer

open ProtocolParser TCPServer

/-- What a `send` returns. -/
inductive Send
  | sent (n : ℕ)
  /-- There is no room. -/
  | again
  | failed
deriving DecidableEq, Repr

/-- `send_response`, with what is left to be sent: the bytes that were taken, and whether
these are all. The `send`s return `sends`, and take everything beyond that. -/
def sendResponse (data : Bytes) : List Send → Bytes × Bool
  | [] => (data, true)
  | result :: sends =>
    if data = [] then ([], true)
    else
      match result with
      | .sent n =>
        let r := sendResponse (data.drop n) sends
        (data.take n ++ r.1, r.2)
      | .again => sendResponse data sends
      | .failed => ([], false)

/-- Where the message loop stops, and the bytes it has sent. -/
structure Written where
  exchanges : List Exchange
  buffer : Bytes
  cache : PagedCache
  /-- The results of `send` not used up, one list for each response. -/
  sends : List (List Send)
  /-- Whether every response was sent. -/
  sent : Bool
  wire : Bytes

/-- The server, and what was sent on each descriptor since its connection was opened. -/
structure Wired where
  server : TCPServer
  wire : ℕ → Bytes

/-- An event of the server, with what each `send` returns. -/
inductive WireEvent
  | accept (fd : ℕ) (registered : Bool)
  | clientData (fd : ℕ) (recvs : List Recv) (sends : List (List Send))

namespace Wired

/-- The message loop of `handle_client_data`. -/
def messageLoop (clientId buffer : Bytes) (cache : PagedCache) (sends : List (List Send)) :
    Written :=
  match h : Framing.find delimiter buffer with
  | none => ⟨[], buffer, cache, sends, true, []⟩
  | some msgEnd =>
    have : (buffer.drop (msgEnd + 4)).length < buffer.length :=
      Framing.length_drop_find_lt (by decide) h
    let message := buffer.take (msgEnd + 4)
    let rest := buffer.drop (msgEnd + 4)
    let cmd := parseMessage message
    let r := processCommand cache cmd clientId
    let out := sendResponse r.1 (sends.headD [])
    if out.2 then
      let p := messageLoop clientId rest r.2 sends.tail
      { p with exchanges := ⟨message, cmd, r.1⟩ :: p.exchanges, wire := out.1 ++ p.wire }
    else ⟨[⟨message, cmd, r.1⟩], rest, r.2, sends.tail, false, out.1⟩
termination_by buffer.length
decreasing_by assumption

/-- The receive loop of `handle_client_data`, with the bytes it has sent. -/
def receiveLoop (fd : ℕ) :
    TCPServer → ClientConnection → List Recv → List (List Send) →
      (List Action × TCPServer) × Bytes
  | s, _, [], _ => (([], s), [])
  | s, client, .data chunk :: recvs, sends =>
    let p := messageLoop client.clientId (client.buffer ++ cString chunk.bytes) s.cache sends
    let client := { client with buffer := p.buffer }
    let s : TCPServer := { cache := p.cache, clients := s.clients.insert fd client }
    let r := if p.sent then receiveLoop fd s client recvs p.sends
      else (s.handleClientDisconnect fd, [])
    ((p.exchanges.map (Action.answered fd) ++ r.1.1, r.1.2), p.wire ++ r.2)
  | s, _, .closed :: _, _ => (s.handleClientDisconnect fd, [])
  | s, _, .failed :: _, _ => (s.handleClientDisconnect fd, [])

/-- A server that has just started. -/
def fresh : Wired := ⟨TCPServer.fresh, fun _ => []⟩

/-- One event of the server. -/
def step (s : Wired) : WireEvent → List Action × Wired
  | .accept fd registered =>
    let r := s.server.handleNewConnection fd registered
    (r.1, ⟨r.2, if registered then Function.update s.wire fd [] else s.wire⟩)
  | .clientData fd recvs sends =>
    match s.server.clients.lookup fd with
    | none => ([], s)
    | some client =>
      let r := receiveLoop fd s.server client recvs sends
      (r.1.1, ⟨r.1.2, Function.update s.wire fd (s.wire fd ++ r.2)⟩)

/-- The actions of a run, in order. -/
def trace (s : Wired) (events : List WireEvent) : List Action :=
  (StepMachine.history step s events).flatMap Prod.snd

end Wired

/-! ### Responses on the wire -/

/-- Bytes that were sent for some responses: all of them, or all but the end of the last
one. -/
inductive Carries : List Bytes → Bytes → Bool → Prop
  | whole (responses : List Bytes) : Carries responses responses.flatten true
  | broken (responses : List Bytes) {last bytes : Bytes} (hbegin : bytes <+: last)
    (hne : bytes ≠ last) : Carries (responses ++ [last]) (responses.flatten ++ bytes) false

theorem Carries.append {responses responses' : List Bytes} {wire wire' : Bytes} {whole : Bool}
    (h : Carries responses wire true) (h' : Carries responses' wire' whole) :
    Carries (responses ++ responses') (wire ++ wire') whole := by
  cases h
  cases h' with
  | whole =>
    rw [← List.flatten_append]
    exact .whole _
  | broken responses' hbegin hne =>
    rw [← List.append_assoc, ← List.append_assoc, ← List.flatten_append]
    exact .broken _ hbegin hne

/-- What a reader cuts such bytes into. -/
theorem Carries.cut {responses : List Bytes} {wire : Bytes} {whole : Bool}
    (h : Carries responses wire whole)
    (hframes : ∀ f ∈ responses, Framing.IsFrame [lineFeed] f) :
    let lines := Framing.cut [lineFeed] (List.cons_ne_nil _ _) wire
    lines.1 <+: responses ∧ responses.length ≤ lines.1.length + 1 ∧
      (whole = true → lines = (responses, [])) := by
  intro lines
  cases h with
  | whole =>
    have hcut : lines = (responses, []) := Framing.cut_flatten _ hframes
    rw [hcut]
    exact ⟨List.prefix_rfl, Nat.le_succ _, fun _ => rfl⟩
  | broken init hbegin hne =>
    have hlast := Framing.find_of_prefix (List.cons_ne_nil _ _)
      (hframes _ (List.mem_append_right _ (List.mem_singleton.mpr rfl))) hbegin hne
    have hcut : lines = (init, _) :=
      Framing.cut_flatten_append _ (fun f hf => hframes f (List.mem_append_left _ hf)) hlast
    rw [hcut]
    exact ⟨List.prefix_append _ _, by simp, nofun⟩

/-- **What `send_response` sends** is the beginning of the response, and all of it exactly
when it says so. -/
theorem sendResponse_prefix (data : Bytes) (sends : List Send) :
    (sendResponse data sends).1 <+: data ∧
      ((sendResponse data sends).2 = true ↔ (sendResponse data sends).1 = data) := by
  induction sends generalizing data with
  | nil => exact ⟨List.prefix_rfl, iff_of_true rfl rfl⟩
  | cons result sends ih =>
    rcases eq_or_ne data [] with rfl | hdata
    · cases result <;> exact ⟨List.prefix_rfl, iff_of_true rfl rfl⟩
    · cases result with
      | sent n =>
        simp only [sendResponse, if_neg hdata]
        obtain ⟨hbegin, hwhole⟩ := ih (data.drop n)
        have hcut : data.take n ++ data.drop n = data := List.take_append_drop n data
        refine ⟨?_, hwhole.trans ?_⟩
        · calc data.take n ++ (sendResponse (data.drop n) sends).1
              <+: data.take n ++ data.drop n := (List.prefix_append_right_inj _).mpr hbegin
            _ = data := hcut
        · constructor
          · intro h
            rw [h, hcut]
          · intro h
            exact List.append_cancel_left (h.trans hcut.symm)
      | again =>
        simp only [sendResponse, if_neg hdata]
        exact ih data
      | failed =>
        simp only [sendResponse, if_neg hdata]
        exact ⟨List.nil_prefix, by simp [Ne.symm hdata]⟩

theorem carries_sendResponse (data : Bytes) (sends : List Send) :
    Carries [data] (sendResponse data sends).1 (sendResponse data sends).2 := by
  obtain ⟨hbegin, hwhole⟩ := sendResponse_prefix data sends
  rcases hsent : (sendResponse data sends).2 with _ | _
  · exact .broken [] hbegin fun h => by simp [hwhole.mpr h] at hsent
  · rw [hwhole.mp hsent]
    simpa using Carries.whole [data]

/-! ### The loops -/

namespace Wired

section MessageLoop

variable {clientId buffer : Bytes} {cache : PagedCache} {sends : List (List Send)} {n : ℕ}

theorem messageLoop_of_none (h : Framing.find delimiter buffer = none) :
    messageLoop clientId buffer cache sends = ⟨[], buffer, cache, sends, true, []⟩ := by
  rw [messageLoop]
  split
  · rfl
  · simp_all

theorem messageLoop_of_some (h : Framing.find delimiter buffer = some n) :
    let x := exchangeOf clientId cache (buffer.take (n + delimiter.length))
    let rest := buffer.drop (n + delimiter.length)
    let cache' := (processCommand cache x.command clientId).2
    let out := sendResponse x.response (sends.headD [])
    let p := messageLoop clientId rest cache' sends.tail
    messageLoop clientId buffer cache sends =
      if out.2 then { p with exchanges := x :: p.exchanges, wire := out.1 ++ p.wire }
      else ⟨[x], rest, cache', sends.tail, false, out.1⟩ := by
  intro x rest cache' out p
  rw [messageLoop]
  split
  · simp_all
  · next m hm =>
    obtain rfl : m = n := by simpa [h] using hm.symm
    rfl

/-- **The loop goes as if it was told beforehand which responses can be sent**, and sends
these. -/
theorem messageLoop_agrees (clientId buffer : Bytes) (cache : PagedCache)
    (sends : List (List Send)) (unused : List Bool) :
    let p := messageLoop clientId buffer cache sends
    Carries (p.exchanges.map Exchange.response) p.wire p.sent ∧
      ∃ sends', TCPServer.messageLoop clientId buffer cache sends' =
        ⟨p.exchanges, p.buffer, p.cache, unused, p.sent⟩ := by
  induction buffer using Framing.cut_induction delimiter_ne_nil generalizing cache sends with
  | none buffer hnone =>
    rw [messageLoop_of_none hnone]
    exact ⟨.whole [], unused, TCPServer.messageLoop_of_none hnone⟩
  | some buffer n hsome ih =>
    rw [messageLoop_of_some hsome]
    have hout := carries_sendResponse (exchangeOf clientId cache (buffer.take
      (n + delimiter.length))).response (sends.headD [])
    dsimp only
    split_ifs with hsent
    · rw [hsent] at hout
      obtain ⟨hcarries, sends', hloop⟩ := ih _ sends.tail
      refine ⟨hout.append hcarries, true :: sends', ?_⟩
      rw [TCPServer.messageLoop_of_some hsome, List.headD_cons, if_pos rfl, List.tail_cons]
      dsimp only [exchangeOf] at hloop ⊢
      rw [hloop]
    · rw [Bool.eq_false_iff.mpr hsent] at hout
      refine ⟨hout, false :: unused, ?_⟩
      rw [TCPServer.messageLoop_of_some hsome, List.headD_cons, if_neg Bool.false_ne_true]
      rfl

end MessageLoop

/-- What a call of `handle_client_data` on `fd` does: it answers, and then it may close. -/
structure Spoke (fd : ℕ) (r : List Action × TCPServer) (bytes : Bytes) (xs : List Exchange)
    (whole : Bool) : Prop where
  carries : Carries (xs.map Exchange.response) bytes whole
  actions : r.1 = xs.map (Action.answered fd) ∨ r.1 = xs.map (Action.answered fd) ++ [.closed fd]
  closed : whole = false → fd ∉ r.2.clients

theorem spoke_disconnect (fd : ℕ) (s : TCPServer) :
    Spoke fd (s.handleClientDisconnect fd) [] [] true :=
  ⟨.whole [], .inr rfl, nofun⟩

/-- **The receive loop does as the one of the server**, for some `sends`. -/
theorem receiveLoop_agrees (fd : ℕ) (s : TCPServer) (client : ClientConnection)
    (recvs : List Recv) (sends : List (List Send)) :
    ∃ sends' xs whole,
      TCPServer.receiveLoop fd s client recvs sends' = (receiveLoop fd s client recvs sends).1 ∧
      Spoke fd (receiveLoop fd s client recvs sends).1 (receiveLoop fd s client recvs sends).2 xs
        whole := by
  induction recvs generalizing s client sends with
  | nil => exact ⟨[], [], true, rfl, .whole [], .inl rfl, nofun⟩
  | cons recv recvs ih =>
    cases recv with
    | closed | failed => exact ⟨[], [], true, rfl, spoke_disconnect fd s⟩
    | data chunk =>
      have hloop := messageLoop_agrees client.clientId (client.buffer ++ cString chunk.bytes)
        s.cache sends
      simp only [receiveLoop]
      generalize messageLoop client.clientId (client.buffer ++ cString chunk.bytes) s.cache sends =
        p at hloop
      dsimp only at hloop
      rcases hsent : p.sent with _ | _
      · -- the connection is closed after a response that broke off
        obtain ⟨hcarries, sends', hsends⟩ := hloop []
        rw [hsent] at hcarries hsends
        refine ⟨sends', p.exchanges, false, ?_, ?_, .inr ?_, fun _ => ?_⟩
        · simp only [TCPServer.receiveLoop, hsends, Bool.false_eq_true, if_false]
        · simpa using hcarries
        · simp [handleClientDisconnect]
        · simp [handleClientDisconnect]
      · obtain ⟨later, xs, whole, hrest, hspoke⟩ := ih
          ⟨p.cache, s.clients.insert fd { client with buffer := p.buffer }⟩
          { client with buffer := p.buffer } p.sends
        obtain ⟨hcarries, sends', hsends⟩ := hloop later
        rw [hsent] at hcarries hsends
        refine ⟨sends', p.exchanges ++ xs, whole, ?_, ?_, ?_, hspoke.closed⟩
        · simp only [TCPServer.receiveLoop, hsends, if_true, hrest]
        · rw [List.map_append]
          exact hcarries.append hspoke.carries
        · rw [if_pos rfl, List.map_append, List.append_assoc]
          exact hspoke.actions.imp (congrArg _) (congrArg _)

/-! ### Runs -/

theorem exchangesOn_spoke {fd : ℕ} {r : List Action × TCPServer} {bytes : Bytes}
    {xs : List Exchange} {whole : Bool} (h : Spoke fd r bytes xs whole) (t : List Action)
    (fd' : ℕ) :
    exchangesOn (t ++ r.1) fd' =
      if fd = fd' then exchangesOn t fd' ++ xs else exchangesOn t fd' := by
  have hanswers : ∀ xs : List Exchange, exchangesOn (t ++ xs.map (Action.answered fd)) fd' =
      if fd = fd' then exchangesOn t fd' ++ xs else exchangesOn t fd' := fun xs => by
    induction xs using List.reverseRecOn with
    | nil => simp
    | append_singleton xs x ih =>
      rw [List.map_append, ← List.append_assoc, List.map_singleton, exchangesOn_answered, ih]
      split_ifs
      · rw [List.append_assoc]
      · rfl
  rcases h.actions with hactions | hactions
  · rw [hactions, hanswers]
  · rw [hactions, ← List.append_assoc, exchangesOn_closed, hanswers]

end Wired

/-- An event without what becomes of the responses. -/
def Event.unsent : Event → Event
  | .accept fd registered => .accept fd registered
  | .clientData fd recvs _ => .clientData fd recvs []

/-- An event without what becomes of the responses. -/
def WireEvent.unsent : WireEvent → Event
  | .accept fd registered => .accept fd registered
  | .clientData fd recvs _ => .clientData fd recvs []

namespace Wired

/-- The server has done what it does on some events, and has sent what it answered. -/
structure Follows (inputs : List WireEvent) (t : List Action) (s : Wired) (events : List Event) :
    Prop where
  same : events.map Event.unsent = inputs.map WireEvent.unsent
  trace : t = TCPServer.trace TCPServer.fresh events
  server : s.server = StepMachine.after TCPServer.step TCPServer.fresh events
  wire : ∀ fd, ∃ whole, Carries ((exchangesOn t fd).map Exchange.response) (s.wire fd) whole ∧
    (whole = false → fd ∉ s.server.clients)

variable {inputs : List WireEvent} {t : List Action} {s : Wired} {events : List Event}

theorem Follows.snoc (h : Follows inputs t s events) {input : WireEvent} {event : Event}
    {r : List Action × TCPServer} {s' : Wired} (hsame : event.unsent = input.unsent)
    (hstep : s.server.step event = r) (hs' : s'.server = r.2)
    (hwire : ∀ fd, ∃ whole, Carries ((exchangesOn (t ++ r.1) fd).map Exchange.response)
      (s'.wire fd) whole ∧ (whole = false → fd ∉ r.2.clients)) :
    Follows (inputs ++ [input]) (t ++ r.1) s' (events ++ [event]) := by
  have hserver : StepMachine.after TCPServer.step TCPServer.fresh (events ++ [event]) = r.2 := by
    rw [StepMachine.after_append, ← h.server, ← hstep]
    rfl
  refine ⟨?_, ?_, hs'.trans hserver.symm, fun fd => hs' ▸ hwire fd⟩
  · rw [List.map_append, List.map_append, h.same, List.map_singleton, List.map_singleton, hsame]
  · rw [TCPServer.trace, StepMachine.history_append, List.flatMap_append, ← h.server,
      StepMachine.history_cons, StepMachine.history_nil, List.flatMap_singleton, hstep, h.trace]
    rfl

theorem Follows.accept (h : Follows inputs t s events) (fd : ℕ) (registered : Bool) :
    ∃ event, Follows (inputs ++ [.accept fd registered])
      (t ++ (s.step (.accept fd registered)).1) (s.step (.accept fd registered)).2
      (events ++ [event]) := by
  refine ⟨.accept fd registered, h.snoc rfl rfl rfl fun fd' => ?_⟩
  cases registered with
  | false =>
    change ∃ whole, Carries ((exchangesOn (t ++ []) fd').map Exchange.response) (s.wire fd') whole ∧
      (whole = false → fd' ∉ s.server.clients)
    rw [List.append_nil]
    exact h.wire fd'
  | true =>
    obtain ⟨whole, hcarries, hclosed⟩ := h.wire fd'
    change ∃ whole, Carries ((exchangesOn (t ++ [.opened fd]) fd').map Exchange.response)
      (Function.update s.wire fd [] fd') whole ∧
        (whole = false → fd' ∉ s.server.clients.insert fd (ClientConnection.ofFd fd))
    rw [exchangesOn_opened]
    rcases eq_or_ne fd fd' with rfl | hne
    · rw [if_pos rfl, Function.update_self]
      exact ⟨true, .whole [], nofun⟩
    · rw [if_neg hne, Function.update_of_ne hne.symm, AList.mem_insert, or_iff_right hne.symm]
      exact ⟨whole, hcarries, hclosed⟩

theorem Follows.clientData (h : Follows inputs t s events) (fd : ℕ) (recvs : List Recv)
    (sends : List (List Send)) :
    ∃ event, Follows (inputs ++ [.clientData fd recvs sends])
      (t ++ (s.step (.clientData fd recvs sends)).1) (s.step (.clientData fd recvs sends)).2
      (events ++ [event]) := by
  rcases hfd : s.server.clients.lookup fd with _ | client
  · have hstep : s.step (.clientData fd recvs sends) = ([], s) := by simp only [Wired.step, hfd]
    rw [hstep]
    refine ⟨.clientData fd recvs [], h.snoc (r := ([], s.server)) rfl ?_ rfl fun fd' => ?_⟩
    · simp only [TCPServer.step, handleClientData, hfd]
    · simpa using h.wire fd'
  · obtain ⟨sends', xs, whole, hloop, hspoke⟩ := receiveLoop_agrees fd s.server client recvs sends
    simp only [Wired.step, hfd]
    refine ⟨.clientData fd recvs sends', h.snoc rfl ?_ rfl fun fd' => ?_⟩
    · simp only [TCPServer.step, handleClientData, hfd, hloop]
    · obtain ⟨whole', hcarries, hclosed⟩ := h.wire fd'
      rw [exchangesOn_spoke hspoke]
      dsimp only
      rcases eq_or_ne fd fd' with rfl | hne
      · have hopen : fd ∈ s.server.clients :=
          AList.lookup_isSome.mp (Option.isSome_of_eq_some hfd)
        -- nothing had broken off before
        have htrue : whole' = true := by
          by_contra hfalse
          exact hclosed (Bool.eq_false_iff.mpr hfalse) hopen
        rw [if_pos rfl, Function.update_self, List.map_append]
        exact ⟨whole, (htrue ▸ hcarries).append hspoke.carries, hspoke.closed⟩
      · rw [if_neg hne, Function.update_of_ne hne.symm, ← AList.lookup_isSome, ← hloop,
          (receiveLoop_of_ne hne.symm s.server client recvs sends' []).1, AList.lookup_isSome]
        exact ⟨whole', hcarries, hclosed⟩

theorem follows_after (inputs : List WireEvent) :
    ∃ events, Follows inputs (trace fresh inputs) (StepMachine.after Wired.step fresh inputs)
      events := by
  have hrun : ∃ events, Follows ((StepMachine.history Wired.step fresh inputs).map Prod.fst)
      (trace fresh inputs) (StepMachine.after Wired.step fresh inputs) events := by
    refine StepMachine.invariant_history
      (R := fun h s => ∃ events, Follows (h.map Prod.fst) (h.flatMap Prod.snd) s events) ?_ ?_
      inputs
    · exact ⟨[], rfl, rfl, rfl, fun fd => ⟨true, .whole [], nofun⟩⟩
    · rintro h s input ⟨events, hs⟩
      rw [List.map_append, List.flatMap_append, List.map_singleton, List.flatMap_singleton]
      cases input with
      | accept fd registered => exact (hs.accept fd registered).imp' (events ++ [·]) fun _ => id
      | clientData fd recvs sends =>
        exact (hs.clientData fd recvs sends).imp' (events ++ [·]) fun _ => id
  rwa [StepMachine.map_fst_history] at hrun

/-- **What a client reads.** In every run, whatever the `send`s return, the server does
what it does when told beforehand which responses can be sent. A client that cuts what it
was sent into lines gets the responses to its messages, in order and each one whole, but
perhaps for the last one; and all of them, with nothing left over, as long as its
connection is open. -/
theorem client_reads (inputs : List WireEvent) :
    let s := StepMachine.after Wired.step fresh inputs
    let t := trace fresh inputs
    (∃ events : List Event, events.map Event.unsent = inputs.map WireEvent.unsent ∧
      t = TCPServer.trace TCPServer.fresh events ∧
      s.server = StepMachine.after TCPServer.step TCPServer.fresh events) ∧
    ∀ fd,
      let responses := (exchangesOn t fd).map Exchange.response
      let lines := Framing.cut [lineFeed] (List.cons_ne_nil _ _) (s.wire fd)
      lines.1 <+: responses ∧ responses.length ≤ lines.1.length + 1 ∧
        (fd ∈ s.server.clients → lines = (responses, [])) := by
  intro s t
  obtain ⟨events, h⟩ := follows_after inputs
  refine ⟨⟨events, h.same, h.trace, h.server⟩, fun fd => ?_⟩
  intro responses lines
  have hframes : ∀ f ∈ responses, Framing.IsFrame [lineFeed] f := by
    intro f hf
    obtain ⟨x, hx, rfl⟩ := List.mem_map.mp hf
    have hmem : .answered fd x ∈ TCPServer.trace TCPServer.fresh events :=
      h.trace ▸ answered_mem_of_mem_exchangesOn hx
    exact IsLine.isFrame ((tracks_run events).legal.oneLine.2 fd x hmem)
  obtain ⟨whole, hcarries, hclosed⟩ := h.wire fd
  obtain ⟨hbegin, hlength, hwhole⟩ := hcarries.cut hframes
  refine ⟨hbegin, hlength, fun hopen => hwhole ?_⟩
  by_contra hfalse
  exact hclosed (Bool.eq_false_iff.mpr hfalse) hopen

end Wired

end PagedCacheServer
