import PagedCacheServer.Server.Chunking

/-!
# The event loop

`run` waits in `epoll_wait` and hands every descriptor it is told of to
`handle_new_connection` or `handle_client_data`. Connections are registered
edge-triggered: the kernel tells of one when something arrives on it, and not again
because something is still there. The listening socket is level-triggered, and is told
of as long as somebody waits to be accepted.

The kernel is the environment here. It keeps what the peers have sent and how much of it
was read, the list of descriptors to tell of, and the connections that wait to be accepted.
An input is a move of the peers, a return of `epoll_wait`, a return of `accept`, or a call
of `handle_client_data` with what its `recv`s return; what arrives between two of these
`recv`s might as well have arrived before the first one, since a `recv` need not return all
there is. `PagedCacheServer.EventLoop.Permits` says what the kernel may do.

A call of `handle_client_data` is one move, as every response is taken or refused in the
end. What is left out is a peer that neither reads nor hangs up: `send_response` tries again
for as long as there is no room, and all other clients wait.

The handler reads until the kernel has no more, so nothing is forgotten: whenever
`epoll_wait` blocks, every connection has been read to its end
(`PagedCacheServer.EventLoop.nothing_unread`).

Among the descriptors `none` is the listening socket. An interrupted `epoll_wait` is called
again and makes no difference; one that fails ends the loop, and is left out.
-/

namespace PagedCacheServer

open TCPServer

/-- `MAX_EVENTS`. -/
def maxEvents : ℕ := 64

/-- What the kernel knows of a connection. -/
structure Socket where
  /-- What the peer has sent. -/
  sent : Bytes
  /-- How much of it has been read. -/
  taken : ℕ
  /-- The peer has closed its side. -/
  hungUp : Bool
deriving DecidableEq, Repr

namespace Socket

def unread (k : Socket) : Bytes := k.sent.drop k.taken

/-- A `recv` would not say that there is nothing more to read. -/
def readable (k : Socket) : Bool := k.unread ≠ [] || k.hungUp

/-- The `recv`s of one call of `handle_client_data` may return `recvs`, and then nothing
more. A connection that has failed may fail at any of them. -/
def yields (unread : Bytes) (hungUp : Bool) : List Recv → Bool
  | [] => unread = [] && !hungUp
  | .data chunk :: recvs =>
    chunk.bytes.isPrefixOf unread && yields (unread.drop chunk.bytes.length) hungUp recvs
  | [.closed] => unread = [] && hungUp
  | [.failed] => true
  | .closed :: _ :: _ | .failed :: _ :: _ => false

end Socket

/-- The server in its loop, with the kernel. -/
structure EventLoop where
  server : TCPServer
  sockets : ℕ → Socket
  /-- The connections that wait to be accepted: what was sent on each, and whether its peer
  has closed its side. -/
  backlog : List (Bytes × Bool)
  /-- The descriptors to tell of. -/
  ready : List (Option ℕ)
  /-- The rest of `events`, not handled yet. -/
  batch : List (Option ℕ)

namespace EventLoop

inductive Input
  /-- A peer connects; it may have sent something before it is accepted. -/
  | connect (sent : Bytes) (hungUp : Bool)
  | arrive (fd : ℕ) (bytes : Bytes)
  | hangUp (fd : ℕ)
  /-- `epoll_wait` returns. -/
  | wait
  /-- `accept` returns a connection; `registered` says whether `epoll_ctl` took it. -/
  | accept (fd : ℕ) (registered : Bool)
  /-- `accept` returns no connection. -/
  | acceptStops
  /-- `handle_client_data` is called. -/
  | handle (recvs : List Recv) (sends : List Bool)

/-- Tell of a descriptor, if that is not to be done anyway. -/
def raise (x : Option ℕ) (ready : List (Option ℕ)) : List (Option ℕ) :=
  if x ∈ ready then ready else ready ++ [x]

/-- There is still something to tell of. -/
def readable (s : EventLoop) : Option ℕ → Bool
  | none => s.backlog ≠ []
  | some fd => (s.sockets fd).readable

/-- What `epoll_wait` can report. It blocks when there is nothing. -/
def due (s : EventLoop) : List (Option ℕ) := s.ready.filter s.readable

/-- A server that has just started. -/
def fresh : EventLoop := ⟨TCPServer.fresh, fun _ => ⟨[], 0, false⟩, [], [], []⟩

/-- One move, with the events it is for the server. A call of `handle_client_data` is one
move, with its responses taken or refused. -/
def step (s : EventLoop) : Input → List Event × EventLoop
  | .connect sent hungUp =>
    ([], { s with backlog := s.backlog ++ [(sent, hungUp)], ready := raise none s.ready })
  | .arrive fd bytes =>
    let k := s.sockets fd
    ([], { s with
      sockets := Function.update s.sockets fd { k with sent := k.sent ++ bytes }
      ready := raise (some fd) s.ready })
  | .hangUp fd =>
    ([], { s with
      sockets := Function.update s.sockets fd { s.sockets fd with hungUp := true }
      ready := raise (some fd) s.ready })
  | .wait =>
    let batch := s.due.take maxEvents
    -- the listening socket goes back to the end of the list
    ([], { s with
      ready := s.due.drop maxEvents ++ if none ∈ batch then [none] else []
      batch })
  | .accept fd registered =>
    match s.backlog with
    | [] => ([], s)
    | (sent, hungUp) :: backlog =>
      let server := (s.server.step (.accept fd registered)).2
      let k : Socket := ⟨sent, 0, hungUp⟩
      ([.accept fd registered],
        if registered then
          { s with
            server, backlog
            sockets := Function.update s.sockets fd k
            ready := if k.readable then raise (some fd) s.ready else s.ready }
        else { s with server, backlog })
  | .acceptStops => ([], { s with batch := s.batch.tail })
  | .handle recvs sends =>
    match s.batch with
    | some fd :: batch =>
      let server := (s.server.step (.clientData fd recvs sends)).2
      let k := s.sockets fd
      ([.clientData fd recvs sends], { s with
        server, batch
        sockets := Function.update s.sockets fd
          { k with taken := k.taken + (bytesOf (chunksOf recvs)).length }
        -- a descriptor that is closed is forgotten
        ready := if fd ∈ server.clients then s.ready else s.ready.filter (· ≠ some fd) })
    | _ => ([], s)

/-- What may happen: peers send on open connections until they hang up, `epoll_wait` returns
when there is something to report and the last report has been handled, `accept` gives a
descriptor that is not in use, and `recv` returns what was sent, in order. -/
def Permits (s : EventLoop) : Input → Prop
  | .connect _ _ => True
  | .arrive fd _ | .hangUp fd => fd ∈ s.server.clients ∧ (s.sockets fd).hungUp = false
  | .wait => s.batch = [] ∧ s.due ≠ []
  | .accept fd _ => s.batch.head? = some none ∧ s.backlog ≠ [] ∧ fd ∉ s.server.clients
  | .acceptStops => s.batch.head? = some none
  | .handle recvs _ => ∃ fd, s.batch.head? = some (some fd) ∧
      Socket.yields (s.sockets fd).unread (s.sockets fd).hungUp recvs = true

/-- The events of a run, for the server. -/
def events (s : EventLoop) (inputs : List Input) : List Event :=
  (StepMachine.history step s inputs).flatMap Prod.snd

end EventLoop

/-! ### What a call reads -/

theorem received_accept (events : List Event) (fd fd' : ℕ) (registered : Bool) :
    received (events ++ [.accept fd registered]) fd' =
      if registered ∧ fd = fd' then [] else received events fd' := by
  simp [received]

theorem received_clientData (events : List Event) (fd fd' : ℕ) (recvs : List Recv)
    (sends : List Bool) :
    received (events ++ [.clientData fd recvs sends]) fd' =
      if fd = fd' then received events fd' ++ chunksOf recvs else received events fd' := by
  simp [received]

/-- A call that leaves the connection open was told neither that it is closed nor that it
has failed. -/
theorem TCPServer.receiveLoop_open {fd : ℕ} {s : TCPServer} {client : ClientConnection}
    {recvs : List Recv} {sends : List Bool}
    (h : fd ∈ (receiveLoop fd s client recvs sends).2.clients) :
    recvs = (chunksOf recvs).map Recv.data := by
  induction recvs generalizing s client sends with
  | nil => rfl
  | cons recv recvs ih =>
    cases recv with
    | closed => simp [receiveLoop, handleClientDisconnect] at h
    | failed => simp [receiveLoop, handleClientDisconnect] at h
    | data chunk =>
      simp only [receiveLoop] at h
      split at h
      · exact congrArg (List.cons _) (ih h)
      · simp [handleClientDisconnect] at h

/-- **A call that leaves the connection open has read all there is.** -/
theorem Socket.yields_data {unread : Bytes} {hungUp : Bool} {chunks : List Chunk}
    (h : yields unread hungUp (chunks.map Recv.data) = true) :
    bytesOf chunks = unread ∧ hungUp = false := by
  induction chunks generalizing unread with
  | nil =>
    rw [List.map_nil, yields, Bool.and_eq_true, decide_eq_true_iff, Bool.not_eq_true'] at h
    exact ⟨h.1.symm, h.2⟩
  | cons chunk chunks ih =>
    rw [List.map_cons, yields, Bool.and_eq_true, List.isPrefixOf_iff_prefix] at h
    obtain ⟨⟨rest, rfl⟩, hrest⟩ := h
    rw [List.drop_left] at hrest
    obtain ⟨hbytes, hhung⟩ := ih hrest
    exact ⟨congrArg (chunk.bytes ++ ·) hbytes, hhung⟩

namespace EventLoop

variable {s : EventLoop} {events : List Event}

theorem mem_raise {x y : Option ℕ} {ready : List (Option ℕ)} :
    x ∈ raise y ready ↔ x = y ∨ x ∈ ready := by
  rw [raise]
  split_ifs with hmem
  · exact ⟨.inr, fun h => h.elim (fun he => he ▸ hmem) id⟩
  · rw [List.mem_append, List.mem_singleton, or_comm]

theorem nodup_raise {x : Option ℕ} {ready : List (Option ℕ)} (h : ready.Nodup) :
    (raise x ready).Nodup := by
  rw [raise]
  split_ifs with hmem
  · exact h
  · exact h.append (List.nodup_singleton x) (List.disjoint_singleton.mpr hmem)

/-! ### The invariant -/

/-- The server is where the events lead, and the kernel tells it of all there is to read. -/
structure Watched (events : List Event) (s : EventLoop) : Prop where
  server : s.server = StepMachine.after TCPServer.step TCPServer.fresh events
  read : ∀ fd ∈ s.server.clients,
    bytesOf (received events fd) = (s.sockets fd).sent.take (s.sockets fd).taken ∧
      (s.sockets fd).taken ≤ (s.sockets fd).sent.length
  told : ∀ fd ∈ s.server.clients, (s.sockets fd).readable = true →
    some fd ∈ s.ready ∨ some fd ∈ s.batch
  waiting : s.backlog ≠ [] → none ∈ s.ready
  /-- The descriptors reported are those of open connections. -/
  known : ∀ fd, some fd ∈ s.ready ∨ some fd ∈ s.batch → fd ∈ s.server.clients
  nodup_ready : s.ready.Nodup
  nodup_batch : s.batch.Nodup

theorem Watched.connect (h : Watched events s) (sent : Bytes) (hungUp : Bool) :
    Watched events (s.step (.connect sent hungUp)).2 where
  server := h.server
  read := h.read
  told fd hfd hr := (h.told fd hfd hr).imp_left fun hmem => mem_raise.mpr (.inr hmem)
  waiting _ := mem_raise.mpr (.inl rfl)
  known fd hfd := h.known fd (hfd.imp_left fun hmem => by
    rcases mem_raise.mp hmem with heq | hmem
    · cases heq
    · exact hmem)
  nodup_ready := nodup_raise h.nodup_ready
  nodup_batch := h.nodup_batch

/-- What the peer of an open connection does is told, and leaves alone what was read. -/
theorem Watched.stir (h : Watched events s) {fd : ℕ} (hfd : fd ∈ s.server.clients) {k : Socket}
    (htaken : k.taken = (s.sockets fd).taken) (hsent : (s.sockets fd).sent <+: k.sent) :
    Watched events { s with
      sockets := Function.update s.sockets fd k
      ready := raise (some fd) s.ready } where
  server := h.server
  read fd' hfd' := by
    obtain ⟨hread, hle⟩ := h.read fd' hfd'
    dsimp only
    rcases eq_or_ne fd' fd with rfl | hne
    · obtain ⟨more, hmore⟩ := hsent
      rw [Function.update_self, htaken, ← hmore, List.take_append_of_le_length hle,
        List.length_append]
      exact ⟨hread, by omega⟩
    · rw [Function.update_of_ne hne]
      exact ⟨hread, hle⟩
  told fd' hfd' hr := by
    rcases eq_or_ne fd' fd with rfl | hne
    · exact .inl (mem_raise.mpr (.inl rfl))
    · dsimp only at hr
      rw [Function.update_of_ne hne] at hr
      exact (h.told fd' hfd' hr).imp_left fun hmem => mem_raise.mpr (.inr hmem)
  waiting hb := mem_raise.mpr (.inr (h.waiting hb))
  known fd' hfd' := by
    rcases eq_or_ne fd' fd with rfl | hne
    · exact hfd
    · refine h.known fd' (hfd'.imp_left fun hmem => ?_)
      exact (mem_raise.mp hmem).resolve_left fun heq => hne (Option.some.inj heq)
  nodup_ready := nodup_raise h.nodup_ready
  nodup_batch := h.nodup_batch

theorem Watched.wait (h : Watched events s) (hbatch : s.batch = []) :
    Watched events (s.step .wait).2 := by
  have hsplit : ∀ x, x ∈ s.due → x ∈ s.due.drop maxEvents ∨ x ∈ s.due.take maxEvents :=
    fun x hx => by
      rw [← List.take_append_drop maxEvents s.due, List.mem_append] at hx
      exact hx.symm
  have hdue : s.due.Nodup := h.nodup_ready.filter _
  have hdisjoint : (s.due.take maxEvents).Disjoint (s.due.drop maxEvents) :=
    List.disjoint_take_drop hdue le_rfl
  refine ⟨h.server, h.read, fun fd hfd hr => ?_, fun hb => ?_, fun fd hfd => ?_, ?_, ?_⟩
  · have hready := (h.told fd hfd hr).resolve_right (by simp [hbatch])
    exact (hsplit _ (List.mem_filter.mpr ⟨hready, hr⟩)).imp_left (List.mem_append_left _)
  · have hnone : none ∈ s.due := List.mem_filter.mpr ⟨h.waiting hb, decide_eq_true hb⟩
    refine List.mem_append.mpr ((hsplit _ hnone).imp_right fun hmem => ?_)
    rw [if_pos hmem]
    exact List.mem_singleton.mpr rfl
  · have hmem : some fd ∈ s.due := by
      rcases hfd with hfd | hfd
      · refine List.mem_of_mem_drop ((List.mem_append.mp hfd).resolve_right fun hone => ?_)
        split_ifs at hone
        · simp at hone
        · simp at hone
      · exact List.mem_of_mem_take hfd
    exact h.known fd (.inl (List.mem_filter.mp hmem).1)
  · change (s.due.drop maxEvents ++ if none ∈ s.due.take maxEvents then [none] else []).Nodup
    refine (hdue.sublist (List.drop_sublist _ _)).append (by split_ifs <;> simp) ?_
    split_ifs with hmem
    · exact List.disjoint_singleton.mpr (hdisjoint hmem)
    · exact List.disjoint_nil_right _
  · exact hdue.sublist (List.take_sublist _ _)

theorem after_snoc {s : TCPServer} (h : s = StepMachine.after TCPServer.step TCPServer.fresh events)
    (e : Event) :
    (s.step e).2 = StepMachine.after TCPServer.step TCPServer.fresh (events ++ [e]) := by
  rw [StepMachine.after_append, ← h]
  rfl

/-- A new connection is told of when there is something to read on it. -/
theorem Watched.opened (h : Watched events s) {fd : ℕ} {k : Socket} (htaken : k.taken = 0)
    (hnew : fd ∉ s.server.clients) (hb : s.backlog ≠ []) (backlog : List (Bytes × Bool)) :
    Watched (events ++ [.accept fd true]) { s with
      server := (s.server.step (.accept fd true)).2
      backlog
      sockets := Function.update s.sockets fd k
      ready := if k.readable then raise (some fd) s.ready else s.ready } := by
  have hclients : ∀ fd', fd' ∈ (s.server.step (.accept fd true)).2.clients ↔
      fd' = fd ∨ fd' ∈ s.server.clients := fun fd' => AList.mem_insert _
  have hmem : ∀ x, x ∈ s.ready → x ∈ if k.readable then raise (some fd) s.ready else s.ready :=
    fun x hx => by
      split_ifs
      · exact mem_raise.mpr (.inr hx)
      · exact hx
  refine ⟨after_snoc h.server _, fun fd' hfd' => ?_, fun fd' hfd' hr => ?_,
    fun _ => hmem _ (h.waiting hb), fun fd' hfd' => ?_, ?_, h.nodup_batch⟩
  · dsimp only
    rcases eq_or_ne fd' fd with rfl | hne
    · rw [received_accept, if_pos ⟨rfl, rfl⟩, Function.update_self, htaken]
      exact ⟨rfl, Nat.zero_le _⟩
    · rw [received_accept, if_neg fun hand => hne hand.2.symm, Function.update_of_ne hne]
      exact h.read fd' (((hclients fd').mp hfd').resolve_left hne)
  · dsimp only at hr ⊢
    rcases eq_or_ne fd' fd with rfl | hne
    · rw [Function.update_self] at hr
      rw [if_pos hr]
      exact .inl (mem_raise.mpr (.inl rfl))
    · rw [Function.update_of_ne hne] at hr
      exact (h.told fd' (((hclients fd').mp hfd').resolve_left hne) hr).imp_left (hmem _)
  · refine (hclients fd').mpr (or_iff_not_imp_left.mpr fun hne => h.known fd' ?_)
    refine hfd'.imp_left fun hready => ?_
    dsimp only at hready
    split_ifs at hready
    · exact (mem_raise.mp hready).resolve_left fun heq => hne (Option.some.inj heq)
    · exact hready
  · dsimp only
    split_ifs
    · exact nodup_raise h.nodup_ready
    · exact h.nodup_ready

theorem Watched.accept (h : Watched events s) {fd : ℕ} (registered : Bool)
    (hnew : fd ∉ s.server.clients) (hb : s.backlog ≠ []) :
    Watched (events ++ (s.step (.accept fd registered)).1) (s.step (.accept fd registered)).2 := by
  simp only [EventLoop.step]
  rcases hbacklog : s.backlog with _ | ⟨⟨sent, hungUp⟩, backlog⟩
  · exact absurd hbacklog hb
  cases registered with
  | true => exact h.opened rfl hnew hb backlog
  | false =>
    -- the connection is closed at once
    refine ⟨after_snoc h.server _, fun fd' hfd' => ?_, h.told, fun _ => h.waiting hb, h.known,
      h.nodup_ready, h.nodup_batch⟩
    rw [received_accept, if_neg fun hand => Bool.false_ne_true hand.1]
    exact h.read fd' hfd'

theorem Watched.acceptStops (h : Watched events s) (hhead : s.batch.head? = some none) :
    Watched events (s.step .acceptStops).2 := by
  obtain ⟨batch, hbatch⟩ : ∃ batch, s.batch = none :: batch := by
    rcases hs : s.batch with _ | ⟨x, batch⟩
    · simp [hs] at hhead
    · rw [hs, List.head?_cons, Option.some.injEq] at hhead
      exact ⟨batch, by rw [hhead]⟩
  have hmem : ∀ fd, some fd ∈ s.batch ↔ some fd ∈ s.batch.tail := fun fd => by simp [hbatch]
  refine ⟨h.server, h.read, fun fd hfd hr => ?_, h.waiting, fun fd hfd => ?_, h.nodup_ready,
    h.nodup_batch.sublist (List.tail_sublist _)⟩
  · exact (h.told fd hfd hr).imp_right (hmem fd).mp
  · exact h.known fd (hfd.imp_right (hmem fd).mpr)

/-- The call leaves the other connections as they are. -/
theorem mem_clients_clientData (server : TCPServer) {fd fd' : ℕ} (hne : fd' ≠ fd)
    (recvs : List Recv) (sends : List Bool) :
    fd' ∈ (server.step (.clientData fd recvs sends)).2.clients ↔ fd' ∈ server.clients := by
  rw [TCPServer.step, handleClientData]
  rcases hfd : server.clients.lookup fd with _ | client
  · exact Iff.rfl
  · rw [← AList.lookup_isSome, ← AList.lookup_isSome,
      (receiveLoop_of_ne hne server client recvs sends []).1]

/-- **A call that leaves the connection open leaves nothing to read.** -/
theorem drained_of_open {server : TCPServer} {fd : ℕ} {recvs : List Recv} {sends : List Bool}
    {k : Socket} (hopen : fd ∈ server.clients)
    (hfd : fd ∈ (server.step (.clientData fd recvs sends)).2.clients)
    (hrecvs : Socket.yields k.unread k.hungUp recvs = true) :
    bytesOf (chunksOf recvs) = k.unread ∧ k.hungUp = false := by
  rw [TCPServer.step, handleClientData] at hfd
  rcases hlookup : server.clients.lookup fd with _ | client
  · exact absurd hopen (AList.lookup_eq_none.mp hlookup)
  · simp only [hlookup] at hfd
    have hdata := receiveLoop_open hfd
    rw [hdata] at hrecvs
    exact Socket.yields_data hrecvs

theorem Watched.handle (h : Watched events s) {fd : ℕ} {batch : List (Option ℕ)}
    (hbatch : s.batch = some fd :: batch) {recvs : List Recv} (sends : List Bool)
    (hrecvs : Socket.yields (s.sockets fd).unread (s.sockets fd).hungUp recvs = true) :
    Watched (events ++ (s.step (.handle recvs sends)).1) (s.step (.handle recvs sends)).2 := by
  have hopen : fd ∈ s.server.clients :=
    h.known fd (.inr (hbatch ▸ List.mem_cons_self))
  have hnodup := h.nodup_batch
  rw [hbatch, List.nodup_cons] at hnodup
  simp only [EventLoop.step, hbatch]
  have hclients : ∀ fd', fd' ≠ fd → (fd' ∈ (s.server.step (.clientData fd recvs sends)).2.clients ↔
      fd' ∈ s.server.clients) := fun fd' hne => mem_clients_clientData s.server hne recvs sends
  have hdrained : fd ∈ (s.server.step (.clientData fd recvs sends)).2.clients →
      bytesOf (chunksOf recvs) = (s.sockets fd).unread ∧ (s.sockets fd).hungUp = false :=
    fun hfd => drained_of_open hopen hfd hrecvs
  have hserver := after_snoc h.server (.clientData fd recvs sends)
  generalize (s.server.step (.clientData fd recvs sends)).2 = server at hclients hdrained hserver ⊢
  have hready : ∀ x, x ≠ some fd →
      (x ∈ (if fd ∈ server.clients then s.ready else s.ready.filter (· ≠ some fd)) ↔ x ∈ s.ready) :=
    fun x hx => by
      split_ifs
      · exact Iff.rfl
      · simp [hx]
  refine ⟨hserver, fun fd' hfd' => ?_, fun fd' hfd' hr => ?_, fun hb => ?_, fun fd' hfd' => ?_, ?_,
    hnodup.2⟩
  · dsimp only
    rcases eq_or_ne fd' fd with rfl | hne
    · obtain ⟨hbytes, -⟩ := hdrained hfd'
      obtain ⟨hread, hle⟩ := h.read fd' hopen
      have hall : (s.sockets fd').taken + (s.sockets fd').unread.length =
          (s.sockets fd').sent.length := by
        rw [Socket.unread, List.length_drop]
        omega
      rw [received_clientData, if_pos rfl, Function.update_self, hbytes, hall, List.take_length]
      refine ⟨?_, le_rfl⟩
      calc bytesOf (received events fd' ++ chunksOf recvs)
          = bytesOf (received events fd') ++ bytesOf (chunksOf recvs) := List.flatMap_append
        _ = (s.sockets fd').sent.take (s.sockets fd').taken ++ (s.sockets fd').unread := by
            rw [hread, hbytes]
        _ = (s.sockets fd').sent := List.take_append_drop _ _
    · rw [received_clientData, if_neg hne.symm, Function.update_of_ne hne]
      exact h.read fd' ((hclients fd' hne).mp hfd')
  · dsimp only at hr ⊢
    rcases eq_or_ne fd' fd with rfl | hne
    · -- the connection was read to its end
      obtain ⟨hbytes, hhung⟩ := hdrained hfd'
      rw [Function.update_self, hbytes] at hr
      simp [Socket.readable, Socket.unread, hhung] at hr
      omega
    · have hne' : some fd' ≠ some fd := fun heq => hne (Option.some.inj heq)
      rw [Function.update_of_ne hne] at hr
      rw [hready _ hne']
      refine (h.told fd' ((hclients fd' hne).mp hfd') hr).imp_right fun hmem => ?_
      rw [hbatch] at hmem
      exact (List.mem_cons.mp hmem).resolve_left hne'
  · exact (hready none (by simp)).mpr (h.waiting hb)
  · dsimp only at hfd' ⊢
    rcases eq_or_ne fd' fd with rfl | hne
    · by_contra hclosed
      rw [if_neg hclosed] at hfd'
      rcases hfd' with hmem | hmem
      · simp at hmem
      · exact hnodup.1 hmem
    · rw [hready _ fun heq => hne (Option.some.inj heq)] at hfd'
      refine (hclients fd' hne).mpr (h.known fd' (hfd'.imp_right fun hmem => ?_))
      rw [hbatch]
      exact List.mem_cons_of_mem _ hmem
  · dsimp only
    split_ifs
    · exact h.nodup_ready
    · exact h.nodup_ready.filter _

theorem Watched.step (h : Watched events s) {input : Input} (hok : s.Permits input) :
    Watched (events ++ (s.step input).1) (s.step input).2 := by
  cases input with
  | connect sent hungUp => simpa [EventLoop.step] using h.connect sent hungUp
  | arrive fd bytes =>
    simpa [EventLoop.step] using
      h.stir hok.1 (k := ⟨(s.sockets fd).sent ++ bytes, (s.sockets fd).taken, _⟩) rfl
        (List.prefix_append _ _)
  | hangUp fd =>
    simpa [EventLoop.step] using
      h.stir hok.1 (k := { s.sockets fd with hungUp := true }) rfl List.prefix_rfl
  | wait => simpa [EventLoop.step] using h.wait hok.1
  | accept fd registered => exact h.accept registered hok.2.2 hok.2.1
  | acceptStops => simpa [EventLoop.step] using h.acceptStops hok
  | handle recvs sends =>
    obtain ⟨fd, hhead, hrecvs⟩ := hok
    obtain ⟨batch, hbatch⟩ := List.head?_eq_some_iff.mp hhead
    exact h.handle hbatch sends hrecvs

theorem watched_fresh : Watched [] fresh where
  server := rfl
  read := by simp [fresh, TCPServer.fresh]
  told := by simp [fresh, TCPServer.fresh]
  waiting := by simp [fresh]
  known := by simp [fresh]
  nodup_ready := List.nodup_nil
  nodup_batch := List.nodup_nil

theorem watched_after (inputs : List Input)
    (hok : StepMachine.Admits EventLoop.step Permits fresh inputs) :
    Watched (fresh.events inputs) (StepMachine.after EventLoop.step fresh inputs) :=
  StepMachine.invariant_history_of_admits
    (R := fun h s => Watched (h.flatMap Prod.snd) s) watched_fresh
    (fun h s input hinput hs => by simpa using hs.step hinput) inputs hok

/-- `epoll_wait` has been called, and blocks. -/
def Blocked (s : EventLoop) : Prop := s.batch = [] ∧ s.due = []

/-- What holds of the open connections when `epoll_wait` blocks. -/
theorem Watched.quiet (h : Watched events s) (hblocked : s.Blocked) :
    s.backlog = [] ∧
      ∀ fd client, s.server.clients.lookup fd = some client →
        (s.sockets fd).hungUp = false ∧
        bytesOf (received events fd) = (s.sockets fd).sent ∧
        (0 ∉ (s.sockets fd).sent →
          (messagesOn (trace TCPServer.fresh events) fd, client.buffer) =
            cutMessages (s.sockets fd).sent) := by
  refine ⟨?_, fun fd client hfd => ?_⟩
  · by_contra hb
    exact List.filter_eq_nil_iff.mp hblocked.2 none (h.waiting hb) (decide_eq_true hb)
  · have hopen : fd ∈ s.server.clients := AList.lookup_isSome.mp (Option.isSome_of_eq_some hfd)
    -- what could be read would be told of
    have hquiet : (s.sockets fd).readable = false := by
      rw [← Bool.not_eq_true]
      intro hr
      rcases h.told fd hopen hr with hmem | hmem
      · exact List.filter_eq_nil_iff.mp hblocked.2 _ hmem hr
      · rw [hblocked.1] at hmem
        simp at hmem
    rw [Socket.readable, Bool.or_eq_false_iff, decide_eq_false_iff_not, not_not] at hquiet
    obtain ⟨hunread, hhung⟩ := hquiet
    have hbytes : bytesOf (received events fd) = (s.sockets fd).sent := by
      rw [(h.read fd hopen).1, List.take_of_length_le (List.drop_eq_nil_iff.mp hunread)]
    refine ⟨hhung, hbytes, fun hzero => ?_⟩
    rw [← hbytes] at hzero ⊢
    rw [h.server] at hfd
    rw [← appended_of_zero_notMem hzero]
    exact framed_after events fd client hfd

/-- **When the server waits, nothing is left unread.** In every run of the loop the
descriptors it has been told of are those of open connections; and whenever `epoll_wait`
blocks nobody waits to be accepted, no open connection has hung up, and every one has been
read to its end, so that each message its peer has completed is answered and the rest is
in the buffer, if there was no zero byte. -/
theorem nothing_unread (inputs : List Input)
    (hok : StepMachine.Admits EventLoop.step Permits fresh inputs) :
    let s := StepMachine.after EventLoop.step fresh inputs
    let events := fresh.events inputs
    s.server = StepMachine.after TCPServer.step TCPServer.fresh events ∧
      (∀ fd, some fd ∈ s.batch → fd ∈ s.server.clients) ∧
      (s.Blocked → s.backlog = [] ∧
        ∀ fd client, s.server.clients.lookup fd = some client →
          (s.sockets fd).hungUp = false ∧
          bytesOf (received events fd) = (s.sockets fd).sent ∧
          (0 ∉ (s.sockets fd).sent →
            (messagesOn (trace TCPServer.fresh events) fd, client.buffer) =
              cutMessages (s.sockets fd).sent)) := by
  intro s events
  have h : Watched events s := watched_after inputs hok
  exact ⟨h.server, fun fd hfd => h.known fd (.inr hfd), h.quiet⟩

/-- Half a delimiter. -/
def crlfChunk : Chunk := Chunk.of (lit "\r\n")

/-- The moves of a server to which a peer connects. -/
def earlyPeer : List Input :=
  [.wait, .accept 5 true, .acceptStops, .wait, .handle [.data crlfChunk] []]

theorem permits_earlyPeer :
    StepMachine.Admits EventLoop.step Permits fresh (.connect (lit "\r\n") false :: earlyPeer) := by
  refine ⟨trivial, ⟨rfl, ?_⟩, ⟨rfl, ?_, ?_⟩, rfl, ⟨rfl, ?_⟩, ⟨5, rfl, ?_⟩, trivial⟩
  all_goals decide

/-- What was sent before the connection was accepted has been read. -/
theorem nothing_unread_early_peer :
    let inputs := .connect (lit "\r\n") false :: earlyPeer
    let s := StepMachine.after EventLoop.step fresh inputs
    s.Blocked ∧ s.server.clients.lookup 5 = some ⟨5, clientIdOf 5, lit "\r\n"⟩ ∧
      bytesOf (received (fresh.events inputs) 5) = lit "\r\n" := by
  intro inputs s
  have hblocked : s.Blocked := ⟨rfl, by decide +kernel⟩
  have hfd : s.server.clients.lookup 5 = some ⟨5, clientIdOf 5, lit "\r\n"⟩ := by decide +kernel
  obtain ⟨-, -, hquiet⟩ := nothing_unread inputs permits_earlyPeer
  exact ⟨hblocked, hfd, ((hquiet hblocked).2 5 _ hfd).2.1⟩

end EventLoop

end PagedCacheServer
