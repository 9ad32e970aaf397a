import PagedCacheServer.Server.EventLoop

/-!
# The event loop comes to rest

The server does not go round in circles. Each of its moves makes
`PagedCacheServer.EventLoop.load` smaller: a connection that is accepted may have to be
told of, one that is told of has to be handled, and one that is handled has been read to
its end, so that it is told of again only when its peer sends something more. Only a
failing `accept` could go on for ever, since the listening socket is told of as long as
somebody waits.

And it is stuck nowhere: it can make a move unless `epoll_wait` blocks. So once the peers
fall silent the server ends up waiting, after a number of moves that is known beforehand,
with everything read and answered (`PagedCacheServer.EventLoop.settles`).

A call of `handle_client_data` is one move, so all this is said of a server whose responses
are taken or refused in the end. A peer that neither reads nor hangs up keeps it in
`send_response`, which tries again without end.
-/

namespace PagedCacheServer

open TCPServer

namespace EventLoop

variable {s : EventLoop} {events : List Event}

/-- A move of the server. -/
def Input.isOwn : Input → Bool
  | .connect _ _ | .arrive _ _ | .hangUp _ => false
  | .wait | .accept _ _ | .acceptStops | .handle _ _ => true

/-- A move of the server, `accept` not failing. -/
def Proceeds (s : EventLoop) (input : Input) : Prop :=
  s.Permits input ∧ input.isOwn = true ∧ (input = .acceptStops → s.backlog = [])

/-- Somebody waits to be accepted, and this has still to be reported. -/
def unheard (s : EventLoop) : Bool := s.backlog ≠ [] && !s.batch.contains none

/-- What the loop has still to do. A connection that is accepted may have to be told of,
and one that is told of has to be handled. -/
def load (s : EventLoop) : ℕ :=
  3 * s.backlog.length + (if s.unheard then 2 else 0) + 2 * s.ready.countP Option.isSome +
    s.batch.length

theorem unheard_eq_true : s.unheard = true ↔ s.backlog ≠ [] ∧ none ∉ s.batch := by
  simp [unheard]

theorem unheard_of_mem (h : none ∈ s.batch) : s.unheard = false :=
  Bool.eq_false_iff.mpr fun hunheard => (unheard_eq_true.mp hunheard).2 h

theorem unheard_of_eq_nil (h : s.backlog = []) : s.unheard = false :=
  Bool.eq_false_iff.mpr fun hunheard => (unheard_eq_true.mp hunheard).1 h

/-- Handling a connection makes no difference to those who wait. -/
theorem unheard_congr {s' : EventLoop} (hb : s'.backlog = s.backlog)
    (hbatch : none ∈ s'.batch ↔ none ∈ s.batch) : s'.unheard = s.unheard := by
  rw [Bool.eq_iff_iff, unheard_eq_true, unheard_eq_true, hb, hbatch]

theorem countP_raise_le (fd : ℕ) (ready : List (Option ℕ)) :
    (raise (some fd) ready).countP Option.isSome ≤ ready.countP Option.isSome + 1 := by
  rw [raise]
  split_ifs
  · omega
  · simp [List.countP_append]

theorem length_of_nodup {batch : List (Option ℕ)} (h : batch.Nodup) :
    batch.length = batch.countP Option.isSome + if none ∈ batch then 1 else 0 := by
  induction batch with
  | nil => rfl
  | cons x batch ih =>
    obtain ⟨hx, hrest⟩ := List.nodup_cons.mp h
    cases x with
    | none => simp [ih hrest, hx]
    | some fd =>
      simp only [List.length_cons, ih hrest, List.countP_cons, List.mem_cons, reduceCtorEq,
        false_or, Option.isSome_some, if_true]
      omega

theorem load_wait_lt (h : Watched events s) (hok : s.Permits .wait) :
    (s.step .wait).2.load < s.load := by
  obtain ⟨hbatch, hdue⟩ := hok
  have hcount : (s.due.take maxEvents).countP Option.isSome +
      (s.due.drop maxEvents).countP Option.isSome ≤ s.ready.countP Option.isSome := by
    rw [← List.countP_append, List.take_append_drop]
    exact List.filter_sublist.countP_le
  have hpos : (s.due.take maxEvents).length ≠ 0 := by
    rw [List.length_take, ne_eq, Nat.min_eq_zero_iff, List.length_eq_zero_iff]
    exact not_or.mpr ⟨by decide, hdue⟩
  have hnodup : (s.due.take maxEvents).Nodup :=
    (h.nodup_ready.filter _).sublist (List.take_sublist _ _)
  have hlength := length_of_nodup hnodup
  have hlistening : none ∈ s.due.take maxEvents → s.backlog ≠ [] := fun hmem =>
    of_decide_eq_true (List.mem_filter.mp (List.mem_of_mem_take hmem)).2
  have hlast : (if none ∈ s.due.take maxEvents then [(none : Option ℕ)] else []).countP
      Option.isSome = 0 := by
    split_ifs <;> rfl
  have hload : (s.step .wait).2.load = 3 * s.backlog.length +
      (if (s.step .wait).2.unheard then 2 else 0) +
      2 * (s.due.drop maxEvents).countP Option.isSome + (s.due.take maxEvents).length := by
    change _ + 2 * (s.due.drop maxEvents ++ if none ∈ s.due.take maxEvents then [none]
      else []).countP Option.isSome + _ = _
    rw [List.countP_append, hlast, Nat.add_zero]
    rfl
  rw [hload, load, hbatch, List.length_nil]
  by_cases hmem : none ∈ s.due.take maxEvents
  · -- the listening socket is told of, and somebody waits
    have hwaits : s.unheard = true :=
      unheard_eq_true.mpr ⟨hlistening hmem, by rw [hbatch]; exact List.not_mem_nil⟩
    have hheard : (s.step .wait).2.unheard = false := unheard_of_mem hmem
    rw [if_pos hmem] at hlength
    rw [hwaits, hheard, if_pos rfl, if_neg Bool.false_ne_true]
    omega
  · have hsame : (s.step .wait).2.unheard = s.unheard :=
      unheard_congr rfl (iff_of_false hmem (by rw [hbatch]; exact List.not_mem_nil))
    rw [if_neg hmem] at hlength
    rw [hsame]
    omega

theorem load_accept_lt {fd : ℕ} {registered : Bool} (hok : s.Permits (.accept fd registered)) :
    (s.step (.accept fd registered)).2.load < s.load := by
  obtain ⟨hhead, hb, -⟩ := hok
  have hmem : none ∈ s.batch := List.mem_of_mem_head? hhead
  have hraise := countP_raise_le fd s.ready
  have hheard : s.unheard = false := unheard_of_mem hmem
  have hheard' : ∀ server sockets backlog ready,
      (EventLoop.mk server sockets backlog ready s.batch).unheard = false :=
    fun _ _ _ _ => unheard_of_mem hmem
  simp only [EventLoop.step]
  rcases hbacklog : s.backlog with _ | ⟨⟨sent, hungUp⟩, backlog⟩
  · exact absurd hbacklog hb
  have hlength : s.backlog.length = backlog.length + 1 := by rw [hbacklog, List.length_cons]
  cases registered with
  | false =>
    simp only [load, Bool.false_eq_true, if_false]
    rw [hheard, hheard']
    omega
  | true =>
    simp only [load, if_true]
    rw [hheard, hheard', if_neg Bool.false_ne_true]
    split_ifs
    · omega
    · omega

theorem load_step_lt (h : Watched events s) {input : Input} (hok : s.Proceeds input) :
    (s.step input).2.load < s.load := by
  obtain ⟨hpermits, hown, hstops⟩ := hok
  cases input with
  | connect | arrive | hangUp => exact absurd hown Bool.false_ne_true
  | wait => exact load_wait_lt h hpermits
  | accept fd registered => exact load_accept_lt hpermits
  | acceptStops =>
    obtain ⟨batch, hbatch⟩ := List.head?_eq_some_iff.mp hpermits
    have hb : s.backlog = [] := hstops rfl
    have hb' : (s.step .acceptStops).2.unheard = false := unheard_of_eq_nil hb
    rw [load, load, hb', unheard_of_eq_nil hb]
    simp [EventLoop.step, hbatch]
  | handle recvs sends =>
    obtain ⟨fd, hhead, -⟩ := hpermits
    obtain ⟨batch, hbatch⟩ := List.head?_eq_some_iff.mp hhead
    have hready : (if fd ∈ (s.server.step (.clientData fd recvs sends)).2.clients then s.ready
        else s.ready.filter (· ≠ some fd)).countP Option.isSome ≤
        s.ready.countP Option.isSome := by
      split_ifs
      · exact le_rfl
      · exact List.filter_sublist.countP_le
    have hsame : (s.step (.handle recvs sends)).2.unheard = s.unheard := by
      refine unheard_congr ?_ ?_
      · simp only [EventLoop.step, hbatch]
      · simp [EventLoop.step, hbatch]
    rw [load, load, hsame]
    simp only [EventLoop.step, hbatch, List.length_cons]
    omega

/-- What was sent can be read, chunk by chunk. -/
theorem exists_yields (unread : Bytes) (hungUp : Bool) :
    ∃ recvs, Socket.yields unread hungUp recvs = true := by
  induction hn : unread.length using Nat.strong_induction_on generalizing unread with
  | h n ih =>
    rcases eq_or_ne unread [] with rfl | hne
    · cases hungUp with
      | false => exact ⟨[], rfl⟩
      | true => exact ⟨[.closed], rfl⟩
    · have hpos : 0 < unread.length := List.length_pos_of_ne_nil hne
      have hsize : 0 < bufferSize - 1 := by decide
      let chunk : Chunk := ⟨unread.take (bufferSize - 1), by rw [List.length_take]; omega,
        List.length_take_le _ _⟩
      have hchunk : 0 < chunk.bytes.length := chunk.pos
      obtain ⟨recvs, hrecvs⟩ := ih (unread.drop chunk.bytes.length).length
        (by rw [List.length_drop]; omega) _ rfl
      refine ⟨.data chunk :: recvs, ?_⟩
      rw [Socket.yields, Bool.and_eq_true, List.isPrefixOf_iff_prefix]
      exact ⟨List.take_prefix _ _, hrecvs⟩

/-- **The loop is never stuck**: it can go on, or `epoll_wait` blocks. -/
theorem exists_proceeds (s : EventLoop) (h : ¬s.Blocked) : ∃ input, s.Proceeds input := by
  rcases hbatch : s.batch with _ | ⟨_ | fd, batch⟩
  · exact ⟨.wait, ⟨hbatch, fun hdue => h ⟨hbatch, hdue⟩⟩, rfl, nofun⟩
  · have hhead : s.batch.head? = some none := by rw [hbatch]; rfl
    rcases eq_or_ne s.backlog [] with hb | hb
    · exact ⟨.acceptStops, hhead, rfl, fun _ => hb⟩
    · obtain ⟨fd, hfd⟩ := Infinite.exists_notMem_finset s.server.clients.keys.toFinset
      exact ⟨.accept fd true, ⟨hhead, hb, fun hmem => hfd (List.mem_toFinset.mpr hmem)⟩, rfl,
        nofun⟩
  · obtain ⟨recvs, hrecvs⟩ := exists_yields (s.sockets fd).unread (s.sockets fd).hungUp
    exact ⟨.handle recvs [], ⟨fd, by rw [hbatch]; rfl, hrecvs⟩, rfl, nofun⟩

/-- **The loop comes to rest.** When the peers fall silent, in any state that a run can
reach, the server makes at most `load` more moves, whatever `epoll_wait`, `accept` and
`recv` return, as long as `accept` does not fail and every response is taken or refused in
the end. It stops nowhere but in `epoll_wait`; and there everything sent on an open
connection has been read, and all its complete messages have been answered if there was no
zero byte. -/
theorem settles (before later : List Input)
    (hbefore : StepMachine.Admits EventLoop.step Permits fresh before)
    (hlater : StepMachine.Admits EventLoop.step Proceeds
      (StepMachine.after EventLoop.step fresh before) later) :
    let s := StepMachine.after EventLoop.step fresh before
    let s' := StepMachine.after EventLoop.step s later
    let events := fresh.events (before ++ later)
    later.length + s'.load ≤ s.load ∧
      ((∀ input, ¬s'.Proceeds input) → s'.Blocked ∧ s'.backlog = [] ∧
        ∀ fd client, s'.server.clients.lookup fd = some client →
          bytesOf (received events fd) = (s'.sockets fd).sent ∧
          (0 ∉ (s'.sockets fd).sent →
            (messagesOn (trace TCPServer.fresh events) fd, client.buffer) =
              cutMessages (s'.sockets fd).sent)) := by
  intro s s' events
  have hs : Watched (fresh.events before) s := watched_after before hbefore
  have hrun := StepMachine.length_add_le_of_decreasing
    (I := fun s => ∃ events, Watched events s)
    (fun s input ⟨events, h⟩ hinput => ⟨⟨_, h.step hinput.1⟩, load_step_lt h hinput⟩)
    ⟨_, hs⟩ hlater
  refine ⟨hrun.2, fun hstuck => ?_⟩
  have hblocked : s'.Blocked := by
    by_contra hnot
    obtain ⟨input, hinput⟩ := exists_proceeds s' hnot
    exact hstuck input hinput
  have hs' : Watched events s' := by
    have hall : StepMachine.Admits EventLoop.step Permits fresh (before ++ later) :=
      StepMachine.admits_append.mpr ⟨hbefore, hlater.imp fun _ _ h => h.1⟩
    have hafter := watched_after (before ++ later) hall
    rwa [StepMachine.after_append] at hafter
  obtain ⟨hbacklog, hopen⟩ := hs'.quiet hblocked
  exact ⟨hblocked, hbacklog, fun fd client hfd => (hopen fd client hfd).2⟩

/-- The bound is met: five moves, after which nothing is left to do. -/
theorem settles_early_peer :
    let s := StepMachine.after EventLoop.step fresh [.connect (lit "\r\n") false]
    let s' := StepMachine.after EventLoop.step s earlyPeer
    s.load = 5 ∧ earlyPeer.length + s'.load ≤ s.load := by
  intro s s'
  obtain ⟨hconnect, h₁, h₂, h₃, h₄, h₅, -⟩ := permits_earlyPeer
  have hlater : StepMachine.Admits EventLoop.step Proceeds s earlyPeer :=
    ⟨⟨h₁, rfl, nofun⟩, ⟨h₂, rfl, nofun⟩, ⟨h₃, rfl, fun _ => rfl⟩, ⟨h₄, rfl, nofun⟩,
      ⟨h₅, rfl, nofun⟩, trivial⟩
  exact ⟨rfl, (settles [_] earlyPeer ⟨hconnect, trivial⟩ hlater).1⟩

end EventLoop

end PagedCacheServer
