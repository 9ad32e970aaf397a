import PagedCacheServer.Cache.Admission
import PagedCacheServer.Server.Fidelity

/-!
# An `ADD` that fits

`parse_message` accepts an `ADD` whose `Value` is blank, and an empty value needs
no page. It always fits, and it is always turned down: `allocate_pages_linked`
answers the null pointer when it is asked for no page, which `add_key` takes for
being out of memory. An `ADD` of a new key that fits is accepted exactly when its
value is not empty.
-/

namespace PagedCacheServer

open ProtocolParser PagedCache

namespace TCPServer

/-- The command is answered with `OK_ADDED`, its key is bound to its value for its
client, and every other entry is as it was. -/
structure AcceptsAdd (cache : PagedCache) (cmd : Command) (clientId : Bytes) : Prop where
  response : (processCommand cache cmd clientId).1 = formatResponse Response.okAdded
  resident : ∃ e, (processCommand cache cmd clientId).2.cacheMap.lookup cmd.key = some e ∧
    e.value = cmd.value ∧ e.clientId = clientId
  others : ∀ k, k ≠ cmd.key →
    (processCommand cache cmd clientId).2.cacheMap.lookup k = cache.cacheMap.lookup k

variable {cache : PagedCache} {cmd : Command}

theorem acceptsAdd_iff (h : cache.Wf) (hadd : cmd.type = .add) (hkey : cmd.key ∉ cache.cacheMap)
    (hfits : calculatePagesNeeded cmd.value ≤ cache.getFreePages) (clientId : Bytes) :
    AcceptsAdd cache cmd clientId ↔ cmd.value ≠ [] := by
  constructor
  · rintro haccepts hnil
    have hresponse := haccepts.response
    simp only [processCommand, hadd, hnil, h.addKey_nil hkey] at hresponse
    exact absurd hresponse (by decide)
  · intro hv
    obtain ⟨hresult, hresident, hothers⟩ := h.addKey_of_fits hkey hv hfits clientId
    constructor
    · simp only [processCommand, hadd, hresult]
    · simpa only [processCommand, hadd] using hresident
    · simpa only [processCommand, hadd] using hothers

theorem wf_cache (events : List Event) :
    (StepMachine.after TCPServer.step fresh events).cache.Wf := by
  rw [(tracks_run events).cache]
  exact replay_wf _

/-- **When an `ADD` that fits is accepted**: in every reachable server, of every
message that is read as an `ADD` of a new key and whose value fits the free
pages. -/
theorem add_accepted_iff (events : List Event) (clientId message : Bytes) :
    let cache := (StepMachine.after TCPServer.step fresh events).cache
    let cmd := parseMessage message
    cmd.type = .add → cmd.key ∉ cache.cacheMap →
      calculatePagesNeeded cmd.value ≤ cache.getFreePages →
      (AcceptsAdd cache cmd clientId ↔ cmd.value ≠ []) :=
  fun hadd hkey hfits => acceptsAdd_iff (wf_cache events) hadd hkey hfits clientId

/-- A new server, and a message that adds one byte. -/
theorem add_accepted_iff_one_byte :
    let cmd := parseMessage (encodeAdd (lit "k") (lit "v"))
    cmd = ⟨.add, lit "k", lit "v"⟩ ∧ cmd.key ∉ fresh.cache.cacheMap ∧
      calculatePagesNeeded cmd.value ≤ fresh.cache.getFreePages ∧
      (AcceptsAdd fresh.cache cmd (clientIdOf 5) ↔ cmd.value ≠ []) := by
  intro cmd
  have hcmd : cmd = ⟨.add, lit "k", lit "v"⟩ := by decide
  have hkey : cmd.key ∉ fresh.cache.cacheMap := by
    rw [hcmd]
    decide
  have hfits : calculatePagesNeeded cmd.value ≤ fresh.cache.getFreePages := by
    have hfree : fresh.cache.getFreePages = PagedCacheServer.totalPages :=
      (view_free _).symm.trans (congrArg Store.free fresh_view)
    rw [hcmd, hfree]
    decide
  exact ⟨hcmd, hkey, hfits,
    add_accepted_iff [] (clientIdOf 5) _ (congrArg Command.type hcmd) hkey hfits⟩

/-- A blank value is turned down by a server with all its pages free. -/
theorem add_not_accepted :
    ¬∀ (events : List Event) (clientId message : Bytes),
      let cache := (StepMachine.after TCPServer.step fresh events).cache
      let cmd := parseMessage message
      cmd.type = .add → cmd.key ∉ cache.cacheMap →
        calculatePagesNeeded cmd.value ≤ cache.getFreePages → AcceptsAdd cache cmd clientId := by
  intro hall
  have hcmd : parseMessage (encodeAdd (lit "k") []) = ⟨.add, lit "k", []⟩ := by decide
  have haccepts := hall [] (clientIdOf 5) (encodeAdd (lit "k") [])
  simp only [hcmd] at haccepts
  have hkey : lit "k" ∉ fresh.cache.cacheMap := by decide
  have hzero : calculatePagesNeeded [] ≤ fresh.cache.getFreePages := Nat.zero_le _
  exact (acceptsAdd_iff (wf_cache []) rfl hkey hzero (clientIdOf 5)).mp
    (haccepts trivial hkey hzero) rfl

end TCPServer

end PagedCacheServer
