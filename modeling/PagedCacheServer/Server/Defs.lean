import Mathlib.Data.Nat.Digits.Defs
import PagedCacheServer.Cache.Defs
import PagedCacheServer.Library.Framing
import PagedCacheServer.Library.StepMachine
import PagedCacheServer.Protocol.Defs

/-!
# The server

`TCPServer`, as `server.h` and `server.cpp` have it: one thread, one cache, and
for each open descriptor a connection with the bytes received so far.

What the kernel decides is input: the descriptor a new connection gets, what each
`recv` returns, and whether a response can be sent. One event is one round of the
loop of `handle_new_connection`, or one call of `handle_client_data` with all its
calls of `recv`. Besides the new state an event yields the actions it performed,
in order, which is what a run is judged by.

A message is looked for with `std::string::find` and cut off with `substr` and
`erase`; the loop runs until no message is left, and each round makes the buffer
shorter.

`authenticated` is never read, and the printing and the set-up of the sockets are
left out.
-/

namespace PagedCacheServer

open ProtocolParser

/-- `BUFFER_SIZE`. -/
def bufferSize : ℕ := 4096

/-- `std::to_string` of a descriptor: its decimal digits. -/
def toDecimal (n : ℕ) : Bytes :=
  if n = 0 then [48] else (Nat.digits 10 n).reverse.map fun d => UInt8.ofNat (48 + d)

/-- The client id of a connection, made from its descriptor. -/
def clientIdOf (fd : ℕ) : Bytes := lit "client_" ++ toDecimal fd

/-- `ClientConnection`. -/
structure ClientConnection where
  socketFd : ℕ
  clientId : Bytes
  buffer : Bytes
deriving DecidableEq, Repr

/-- The constructor of `ClientConnection`. -/
def ClientConnection.ofFd (fd : ℕ) : ClientConnection := ⟨fd, clientIdOf fd, []⟩

/-- The state of a `TCPServer`. -/
structure TCPServer where
  cache : PagedCache
  clients : AList fun _ : ℕ => ClientConnection

/-! ### What the kernel hands over -/

/-- The bytes of one successful `recv`: at least one, and at most as many as the
buffer holds besides the terminating zero. -/
structure Chunk where
  bytes : Bytes
  pos : 0 < bytes.length
  le : bytes.length ≤ bufferSize - 1

/-- A chunk that is written out, its length being counted. -/
def Chunk.of (bytes : Bytes)
    (h : 0 < bytes.length ∧ bytes.length ≤ bufferSize - 1 := by decide) : Chunk :=
  ⟨bytes, h.1, h.2⟩

/-- What a `recv` returns, when it does not say that there is nothing more to
read. -/
inductive Recv
  | data (chunk : Chunk)
  | closed
  | failed

/-- An event of the server. -/
inductive Event
  /-- A connection is accepted; `registered` says whether `epoll_ctl` took it. -/
  | accept (fd : ℕ) (registered : Bool)
  /-- A descriptor is readable. The `recv`s return `recvs`, then nothing; the
  responses can be sent or not as `sends` says, and can be beyond it. -/
  | clientData (fd : ℕ) (recvs : List Recv) (sends : List Bool)

/-- A message, the command read from it, and the response to it. -/
structure Exchange where
  message : Bytes
  command : Command
  response : Bytes
deriving DecidableEq, Repr

/-- What the server does, seen from outside. -/
inductive Action
  | opened (fd : ℕ)
  | answered (fd : ℕ) (exchange : Exchange)
  | closed (fd : ℕ)
deriving DecidableEq, Repr

namespace TCPServer

/-! ### Commands -/

/-- `process_command`. -/
def processCommand (cache : PagedCache) (cmd : Command) (clientId : Bytes) : Bytes × PagedCache :=
  match cmd.type with
  | .invalid => (formatResponse Response.errorInvalidCommand, cache)
  | .add =>
    let r := cache.addKey cmd.key cmd.value clientId
    (formatResponse
      (match r.1 with
        | .success => Response.okAdded
        | .keyExists => Response.errorExists
        | .noSpace => Response.errorNoSpace
        | _ => Response.errorInvalidCommand), r.2)
  | .update =>
    let r := cache.updateKey cmd.key cmd.value clientId
    (formatResponse
      (match r.1 with
        | .success => Response.okUpdated
        | .keyNotFound => Response.errorNotFound
        | .clientMismatch => Response.errorAccessDenied
        | .noSpace => Response.errorNoSpace
        | _ => Response.errorInvalidCommand), r.2)
  | .get =>
    let r := cache.getKey cmd.key [] clientId
    (formatResponse
      (match r.1.1 with
        | .success => Response.okValue r.1.2
        | .keyNotFound => Response.errorNotFound
        | .clientMismatch => Response.errorAccessDenied
        | _ => Response.errorInvalidCommand), r.2)
  | .delete =>
    let r := cache.deleteKey cmd.key clientId
    (formatResponse
      (match r.1 with
        | .success => Response.okDeleted
        | .keyNotFound => Response.errorNotFound
        | .clientMismatch => Response.errorAccessDenied
        | _ => Response.errorInvalidCommand), r.2)

/-! ### Connections -/

/-- One round of the loop of `handle_new_connection`. -/
def handleNewConnection (s : TCPServer) (fd : ℕ) (registered : Bool) : List Action × TCPServer :=
  if registered then
    ([.opened fd], { s with clients := s.clients.insert fd (ClientConnection.ofFd fd) })
  else ([], s)

/-- `handle_client_disconnect`. -/
def handleClientDisconnect (s : TCPServer) (fd : ℕ) : List Action × TCPServer :=
  ([.closed fd], { s with clients := s.clients.erase fd })

/-! ### Messages -/

/-- `std::string(buffer)`, for a buffer closed by a zero byte: everything before
the first one. -/
def cString (bytes : Bytes) : Bytes := bytes.takeWhile (· ≠ 0)

/-- Where the message loop stops. -/
structure Processed where
  exchanges : List Exchange
  buffer : Bytes
  cache : PagedCache
  /-- The send outcomes not used up. -/
  sends : List Bool
  /-- Whether every response was sent. -/
  sent : Bool

/-- The message loop of `handle_client_data`. -/
def messageLoop (clientId buffer : Bytes) (cache : PagedCache) (sends : List Bool) : Processed :=
  match h : Framing.find delimiter buffer with
  | none => ⟨[], buffer, cache, sends, true⟩
  | some msgEnd =>
    have : (buffer.drop (msgEnd + 4)).length < buffer.length :=
      Framing.length_drop_find_lt (by decide) h
    let message := buffer.take (msgEnd + 4)
    let rest := buffer.drop (msgEnd + 4)
    let cmd := parseMessage message
    let r := processCommand cache cmd clientId
    if sends.headD true then
      let p := messageLoop clientId rest r.2 sends.tail
      { p with exchanges := ⟨message, cmd, r.1⟩ :: p.exchanges }
    else ⟨[⟨message, cmd, r.1⟩], rest, r.2, sends.tail, false⟩
termination_by buffer.length
decreasing_by assumption

/-- The receive loop of `handle_client_data`. -/
def receiveLoop (fd : ℕ) :
    TCPServer → ClientConnection → List Recv → List Bool → List Action × TCPServer
  | s, _, [], _ => ([], s)
  | s, client, .data chunk :: recvs, sends =>
    let p := messageLoop client.clientId (client.buffer ++ cString chunk.bytes) s.cache sends
    let client := { client with buffer := p.buffer }
    let s : TCPServer := { cache := p.cache, clients := s.clients.insert fd client }
    let r := if p.sent then receiveLoop fd s client recvs p.sends else s.handleClientDisconnect fd
    (p.exchanges.map (Action.answered fd) ++ r.1, r.2)
  | s, _, .closed :: _, _ => s.handleClientDisconnect fd
  | s, _, .failed :: _, _ => s.handleClientDisconnect fd

/-- `handle_client_data`. -/
def handleClientData (s : TCPServer) (fd : ℕ) (recvs : List Recv) (sends : List Bool) :
    List Action × TCPServer :=
  match s.clients.lookup fd with
  | none => ([], s)
  | some client => receiveLoop fd s client recvs sends

/-! ### Runs -/

/-- A server that has just started. -/
def fresh : TCPServer := ⟨PagedCache.fresh, ∅⟩

/-- One event of the server. -/
def step (s : TCPServer) : Event → List Action × TCPServer
  | .accept fd registered => s.handleNewConnection fd registered
  | .clientData fd recvs sends => s.handleClientData fd recvs sends

/-- The actions of a run, in order. -/
def trace (s : TCPServer) (events : List Event) : List Action :=
  (StepMachine.history step s events).flatMap Prod.snd

end TCPServer

end PagedCacheServer
