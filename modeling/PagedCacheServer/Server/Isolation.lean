import PagedCacheServer.Cache.History
import PagedCacheServer.Cache.Ownership
import PagedCacheServer.Server.Sessions

/-!
# Sessions and descriptors

A client only gets at the entries of its own client id, and that id is made from
the descriptor of its connection. Descriptors are used again: an entry outlives
the connection that made it, and the next connection on the same descriptor finds
itself the owner (`PagedCacheServer.TCPServer.not_isolated`).

Nothing else goes wrong. As long as no connection is accepted on a descriptor
whose id still owns an entry, every successful `GET`, `UPDATE` or `DELETE` is on
an entry that was added on the very same connection
(`PagedCacheServer.TCPServer.isolated_of_noLeftovers`). The invariant is that each
entry of an open connection was made since that connection was opened; ids of
different descriptors never clash (`PagedCacheServer.clientIdOf_injective`).
-/

namespace PagedCacheServer

open ProtocolParser TCPServer PagedCache

/-! ### Client ids -/

theorem toDecimal_injective : Function.Injective toDecimal := by
  -- the number is read back off its digits
  let value : Bytes → ℕ := fun l => Nat.ofDigits 10 (l.map fun c => c.toNat - 48).reverse
  refine Function.LeftInverse.injective (g := value) fun n => ?_
  rcases eq_or_ne n 0 with rfl | hn
  · decide
  have hdigits : (toDecimal n).map (fun c => c.toNat - 48) = (Nat.digits 10 n).reverse := by
    rw [toDecimal, if_neg hn, List.map_map]
    refine (List.map_congr_left fun d hd => ?_).trans (List.map_id _)
    have hlt : d < 10 := Nat.digits_lt_base (by omega) (List.mem_reverse.mp hd)
    simp only [Function.comp_apply, UInt8.toNat_ofNat', id_eq]
    omega
  change Nat.ofDigits 10 ((toDecimal n).map fun c => c.toNat - 48).reverse = n
  rw [hdigits, List.reverse_reverse, Nat.ofDigits_digits]

/-- Connections on different descriptors are different clients. -/
theorem clientIdOf_injective : Function.Injective clientIdOf := fun _ _ h =>
  toDecimal_injective (List.append_cancel_left h)

/-! ### Who made an entry -/

/-- The action is an `ADD` that made an entry under `k`. -/
def Action.adds (k : Bytes) : Action → Bool
  | .answered _ x => x.command.type = .add && x.command.key = k && x.succeeded
  | .opened _ | .closed _ => false

/-- The action opens or closes the connection on `fd`. -/
def Action.switches (fd : ℕ) : Action → Bool
  | .opened fd' | .closed fd' => fd' = fd
  | .answered _ _ => false

/-- The entry under `k` was made on the connection that is open on `fd`: the last
`ADD` that made one was answered on `fd`, and the connection on `fd` was neither
opened nor closed since. -/
def CreatedOn (t : List Action) (fd : ℕ) (k : Bytes) : Prop :=
  ∃ before x later, t = before ++ .answered fd x :: later ∧ (Action.answered fd x).adds k = true ∧
    ∀ a ∈ later, a.adds k = false ∧ a.switches fd = false

/-- **Session isolation**: whenever a `GET`, `UPDATE` or `DELETE` is answered with
success, the entry was made on the same connection. -/
def Isolated (t : List Action) : Prop :=
  ∀ before fd x later, t = before ++ .answered fd x :: later → x.succeeded = true →
    x.command.type = .get ∨ x.command.type = .update ∨ x.command.type = .delete →
      CreatedOn before fd x.command.key

variable {t : List Action} {fd : ℕ} {k : Bytes} {a : Action}

theorem CreatedOn.snoc (h : CreatedOn t fd k) (hadd : a.adds k = false)
    (hsw : a.switches fd = false) : CreatedOn (t ++ [a]) fd k := by
  obtain ⟨before, x, later, rfl, hx, hlater⟩ := h
  refine ⟨before, x, later ++ [a], by simp, hx, fun b hb => ?_⟩
  rcases List.mem_append.mp hb with hb | hb
  · exact hlater b hb
  · obtain rfl := List.mem_singleton.mp hb
    exact ⟨hadd, hsw⟩

theorem not_createdOn_of_switches (hsw : a.switches fd = true) : ¬CreatedOn (t ++ [a]) fd k := by
  rintro ⟨before, x, later, heq, -, hlater⟩
  rcases snoc_eq_append_cons heq with ⟨-, -, rfl⟩ | ⟨later', rfl, -⟩
  · simp [Action.switches] at hsw
  · rw [(hlater a (by simp)).2] at hsw
    simp at hsw

theorem isolated_nil : Isolated [] := by
  intro before fd x later heq
  simp at heq

theorem Isolated.snoc (h : Isolated t)
    (ha : ∀ fd x, a = .answered fd x → x.succeeded = true →
      x.command.type = .get ∨ x.command.type = .update ∨ x.command.type = .delete →
        CreatedOn t fd x.command.key) : Isolated (t ++ [a]) := by
  intro before fd x later heq
  rcases snoc_eq_append_cons heq with ⟨-, rfl, rfl⟩ | ⟨later', -, ht⟩
  · exact ha fd x rfl
  · exact h before fd x later' ht

/-! ### The invariant -/

/-- No entry of the client id of `fd` is resident. -/
def NoLeftovers (cache : PagedCache) (fd : ℕ) : Prop :=
  ∀ e ∈ cache.residents, e.clientId ≠ clientIdOf fd

/-- Every entry of an open connection was made on it. -/
def Homegrown (t : List Action) : Prop :=
  ∀ k fd, (replay t).view.OwnedBy (clientIdOf fd) k → isOpen t fd = true → CreatedOn t fd k

theorem NoLeftovers.not_ownedBy {cache : PagedCache} (h : NoLeftovers cache fd) (k : Bytes) :
    ¬cache.view.OwnedBy (clientIdOf fd) k := by
  rintro ⟨i, hi, hc⟩
  obtain ⟨e, he, rfl⟩ := exists_lookup_of_view_item hi
  exact h e (mem_residents.mpr ⟨k, he⟩) hc

/-- An answer whose call succeeds, on an entry of its own client. -/
theorem createdOn_of_permits {x : Exchange} {call : Call} (hg : Homegrown t)
    (hopen : isOpen t fd = true) (hcall : x.command.call (clientIdOf fd) = some call)
    (htype : x.command.type ≠ .add) (hp : (replay t).view.Permits call) :
    CreatedOn t fd x.command.key := by
  refine hg _ _ ?_ hopen
  rcases x with ⟨message, ⟨type, key, value⟩, response⟩
  cases type with
  | add => exact absurd rfl htype
  | invalid => simp [Command.call] at hcall
  | update | get | delete =>
    simp only [Command.call, Option.some.injEq] at hcall
    subst hcall
    exact hp

/-- What an `ADD` that makes an entry does to the cache. -/
theorem Exchange.Genuine.call_of_adds {cache : PagedCache} {x : Exchange} (hx : x.Genuine cache fd)
    (h : (Action.answered fd x).adds k = true) :
    x.command.call (clientIdOf fd) = some (.add k x.command.value (clientIdOf fd)) ∧
      (cache.step (.add k x.command.value (clientIdOf fd))).1.result = .success := by
  simp only [Action.adds, Bool.and_eq_true, decide_eq_true_iff] at h
  obtain ⟨⟨htype, rfl⟩, hsucc⟩ := h
  have hcall : x.command.call (clientIdOf fd) =
      some (.add x.command.key x.command.value (clientIdOf fd)) := by rw [Command.call, htype]
  obtain ⟨call, hcall', hresult⟩ := hx.succeeded_iff.mp hsucc
  rw [hcall] at hcall'
  obtain rfl := Option.some.inj hcall'
  exact ⟨hcall, hresult⟩

theorem adds_of_call {cache : PagedCache} {x : Exchange} {v : Bytes} (hx : x.Genuine cache fd)
    (hcall : x.command.call (clientIdOf fd) = some (.add k v (clientIdOf fd)))
    (hsucc : (cache.step (.add k v (clientIdOf fd))).1.result = .success) :
    (Action.answered fd x).adds k = true := by
  have hok := hx.succeeded_iff.mpr ⟨_, hcall, hsucc⟩
  rcases x with ⟨message, ⟨type, key, value⟩, response⟩
  cases type with
  | add =>
    simp only [Command.call, Option.some.injEq, Call.add.injEq] at hcall
    obtain ⟨rfl, -⟩ := hcall
    simp [Action.adds, hok]
  | invalid | update | get | delete => simp [Command.call] at hcall

/-- **An answer keeps the entries of the open connections homegrown.** -/
theorem Homegrown.answered {x : Exchange} (hg : Homegrown t) (hopen : isOpen t fd = true)
    (hx : x.Genuine (replay t) fd) : Homegrown (t ++ [Action.answered fd x]) := by
  rintro k fd' ⟨i, hi, hc⟩ hopen'
  rw [isOpen_answered] at hopen'
  rw [replay_snoc, Action.apply] at hi
  have hwf := replay_wf t
  have hsw : (Action.answered fd x).switches fd' = false := rfl
  rcases hcall : x.command.call (clientIdOf fd) with _ | call
  · -- no call was made
    rw [processCommand_of_none hcall] at hi
    refine (hg k fd' ⟨i, hi, hc⟩ hopen').snoc (Bool.eq_false_iff.mpr fun hadds => ?_) hsw
    rw [(hx.call_of_adds hadds).1] at hcall
    simp at hcall
  rw [processCommand_snd hcall, (hwf.step call).view] at hi
  rcases Store.step_item hwf.lru.nodup hi with hw | ⟨hold, hnot, -⟩
  · -- the entry was written by this call, so it belongs to this connection
    rw [← (hwf.step call).reply] at hw
    have howner : i.owner = clientIdOf fd := by
      rw [← (Command.call_eq_some hcall).2.1]
      rcases hw.2 with he | he <;> rw [show call = _ from he] <;> rfl
    obtain rfl : fd' = fd := clientIdOf_injective (hc.symm.trans howner)
    rcases hw.2 with he | he
    · obtain rfl : call = _ := he
      rw [howner] at hcall hw
      exact ⟨t, x, [], rfl, adds_of_call hx hcall hw.1, by simp⟩
    · obtain rfl : call = _ := he
      have hsucc : ((replay t).view.step (.update k i.value i.owner)).1.result = .success := by
        rw [← (hwf.step _).reply]
        exact hw.1
      have hp := (Store.step_of_success hwf.lru.nodup hsucc).permits
      refine (hg k fd' ?_ hopen).snoc (Bool.eq_false_iff.mpr fun hadds => ?_) hsw
      · exact hc ▸ hp
      · rw [(hx.call_of_adds hadds).1] at hcall
        simp at hcall
  · -- the entry was there before, and no `ADD` under its key can have succeeded
    refine (hg k fd' ⟨i, hold, hc⟩ hopen').snoc (Bool.eq_false_iff.mpr fun hadds => ?_) hsw
    obtain ⟨hcall', hsucc⟩ := hx.call_of_adds hadds
    obtain rfl : call = _ := Option.some.inj (hcall.symm.trans hcall')
    rw [← (hwf.step _).reply] at hnot
    exact hnot _ _ ⟨hsucc, Or.inl rfl⟩

/-- **Legal traces without leftovers are isolated.** -/
theorem Legal.isolated (h : Legal NoLeftovers t) : Homegrown t ∧ Isolated t := by
  induction h with
  | nil =>
    refine ⟨fun k fd _ hopen => ?_, isolated_nil⟩
    simp at hopen
  | @opened t fd ht hfd ih =>
    refine ⟨fun k fd' hk hopen => ?_, ih.2.snoc (by simp)⟩
    rw [replay_snoc, Action.apply] at hk
    rcases eq_or_ne fd fd' with rfl | hne
    · exact absurd hk (hfd.not_ownedBy k)
    · have hopen' : isOpen t fd' = true := by simpa [hne] using hopen
      exact (ih.1 k fd' hk hopen').snoc rfl (by simp [Action.switches, hne])
  | @closed t fd ht hfd ih =>
    refine ⟨fun k fd' hk hopen => ?_, ih.2.snoc (by simp)⟩
    rw [replay_snoc, Action.apply] at hk
    rw [isOpen_closed, Bool.and_eq_true, decide_eq_true_iff] at hopen
    exact (ih.1 k fd' hk hopen.2).snoc rfl (by simp [Action.switches, hopen.1])
  | @answered t fd x ht hfd hx ih =>
    refine ⟨ih.1.answered hfd hx, ih.2.snoc ?_⟩
    rintro fd' x' heq hok htype
    obtain ⟨rfl, rfl⟩ := Action.answered.inj heq
    obtain ⟨call, hcall, hsucc⟩ := hx.succeeded_iff.mp hok
    have hwf := replay_wf t
    rw [(hwf.step call).reply] at hsucc
    have hp := (Store.step_of_success hwf.lru.nodup hsucc).permits
    refine createdOn_of_permits ih.1 hfd hcall ?_ hp
    rcases htype with h | h | h <;> simp [h]

namespace TCPServer

/-- **Session isolation, where descriptors leave nothing behind.** In every run in
which no connection is accepted on a descriptor whose client id still owns an
entry, a `GET`, `UPDATE` or `DELETE` that is answered with success is on an entry
that was added on the same connection. -/
theorem isolated_of_noLeftovers (events : List Event)
    (hok : StepMachine.Admits TCPServer.step (Allowed NoLeftovers) fresh events) :
    Isolated (trace fresh events) :=
  (tracks_after events hok).legal.isolated.2

/-- An `ADD`, in one chunk. -/
def addChunk : Chunk := Chunk.of (lit "Method:ADD\r\nKey:k\r\nValue:v\r\n\r\n")

/-- A `GET` of the same key, in one chunk. -/
def getChunk : Chunk := Chunk.of (lit "Method:GET\r\nKey:k\r\n\r\n")

/-- Two connections, the second one opened while the first has an entry. -/
theorem isolated_two_connections :
    let events : List Event := [.accept 5 true, .clientData 5 [.data addChunk] [],
      .accept 6 true, .clientData 6 [.data getChunk] [], .clientData 5 [.data getChunk] []]
    StepMachine.Admits TCPServer.step (Allowed NoLeftovers) fresh events ∧
      Isolated (trace fresh events) := by
  intro events
  have hok : StepMachine.Admits TCPServer.step (Allowed NoLeftovers) fresh events := by
    refine ⟨?_, trivial, ?_, trivial, trivial, trivial⟩
    · change ∀ e ∈ PagedCache.fresh.residents, e.clientId ≠ clientIdOf 5
      decide +kernel
    · change ∀ e ∈ (StepMachine.after TCPServer.step fresh
        [.accept 5 true, .clientData 5 [.data addChunk] []]).cache.residents,
          e.clientId ≠ clientIdOf 6
      decide +kernel
  exact ⟨hok, isolated_of_noLeftovers events hok⟩

/-- The kernel gives a new connection a descriptor that is not open. -/
def KernelAllows (s : TCPServer) : Event → Prop
  | .accept fd _ => fd ∉ s.clients
  | .clientData _ _ _ => True

/-- A client adds an entry and leaves; the next one gets its descriptor, and
reads the entry. -/
theorem not_isolated :
    ¬∀ events : List Event, StepMachine.Admits TCPServer.step KernelAllows fresh events →
      Isolated (trace fresh events) := by
  intro hall
  let events : List Event := [.accept 5 true, .clientData 5 [.data addChunk, .closed] [],
    .accept 5 true, .clientData 5 [.data getChunk] []]
  have hok : StepMachine.Admits TCPServer.step KernelAllows fresh events := by
    refine ⟨?_, trivial, ?_, trivial, trivial⟩
    · change 5 ∉ fresh.clients
      decide +kernel
    · change 5 ∉ (StepMachine.after TCPServer.step fresh
        [.accept 5 true, .clientData 5 [.data addChunk, .closed] []]).clients
      decide +kernel
  let added : Exchange := ⟨addChunk.bytes, ⟨.add, lit "k", lit "v"⟩,
    formatResponse Response.okAdded⟩
  let got : Exchange := ⟨getChunk.bytes, ⟨.get, lit "k", []⟩,
    formatResponse (Response.okValue (lit "v"))⟩
  have htrace : trace fresh events =
      ([Action.opened 5, .answered 5 added, .closed 5] ++ [Action.opened 5]) ++
        Action.answered 5 got :: [] := by
    decide +kernel
  have hcreated := hall events hok _ 5 got [] htrace (by decide) (Or.inl rfl)
  exact not_createdOn_of_switches rfl hcreated

end TCPServer

end PagedCacheServer
