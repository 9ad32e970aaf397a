import Mathlib.Algebra.Group.Nat.Defs
import PagedCacheServer.Pool.Defs
import PagedCacheServer.Protocol.Defs

/-!
# Reading a trace

`TraceProcessor`, and the loop of `run_trace_benchmark` over it. An open file is
what is left to read of it and the two flags of the stream that a read can set;
both are only set by a read that has come to the end, so that `has_next` answers
`true` once more than there are lines when the last line is ended by a line feed.

A line is split by the extractions of an `istringstream`, in the C locale. The
size of an entry is read and never used.

How the file is found – downloaded, unpacked, opened – is left out, and so are the
progress messages. The threads around the loop are in `PagedCacheServer.Trace.Run`.
-/

namespace PagedCacheServer

/-! ### Streams -/

/-- An `ifstream` that was opened. -/
structure TraceFile where
  /-- What is left to read. -/
  rest : Bytes
  eofbit : Bool := false
  failbit : Bool := false
deriving DecidableEq, Repr

namespace TraceFile

/-- `good`. -/
def good (file : TraceFile) : Bool := !file.eofbit && !file.failbit

/-- `eof`. -/
def eof (file : TraceFile) : Bool := file.eofbit

/-- `std::getline`: the line, if the stream has not failed after it. Coming to the
end sets `eofbit`, and `failbit` too if there was nothing to read. -/
def getline (file : TraceFile) : Option Bytes × TraceFile :=
  if file.good then
    let line := file.rest.takeWhile (· ≠ ProtocolParser.lineFeed)
    if ProtocolParser.lineFeed ∈ file.rest then
      (some line, { file with rest := file.rest.drop (line.length + 1) })
    else if file.rest = [] then (none, { file with eofbit := true, failbit := true })
    else (some line, { file with rest := [], eofbit := true })
  else (none, { file with failbit := true })

end TraceFile

/-- `isspace`, in the C locale. -/
def isSpace (c : UInt8) : Bool := c = 32 || (9 ≤ c && c ≤ 13)

/-- The extraction `>>` of a string: skip white space, and take what comes up to the
next white space. It fails when there is nothing left. -/
def extract (s : Bytes) : Option (Bytes × Bytes) :=
  let s := s.dropWhile isSpace
  if s = [] then none
  else some (s.takeWhile (!isSpace ·), s.dropWhile (!isSpace ·))

/-- `std::stoull`, without leading white space: a sign, digits, and whatever comes
after them. `none` stands for the exceptions it throws, when there is no digit and
when the number does not fit. -/
def stoull (s : Bytes) : Option ℕ :=
  let signed := s.head? = some 45 ∨ s.head? = some 43
  let digits := (if signed then s.tail else s).takeWhile fun c => 48 ≤ c && c ≤ 57
  let n := digits.foldl (fun n c => 10 * n + (c.toNat - 48)) 0
  if digits = [] ∨ 2 ^ 64 ≤ n then none
  else if s.head? = some 45 then some ((2 ^ 64 - n) % 2 ^ 64)
  else some n

/-! ### Entries -/

/-- `TraceEntry`. -/
structure TraceEntry where
  key : Bytes
  operation : Bytes
  size : ℕ
deriving DecidableEq, Repr

namespace TraceProcessor

/-- The entry of a line: of `timestamp key size`, or of a key alone. -/
def parseEntry (line : Bytes) : TraceEntry :=
  match extract line with
  | none => ⟨line, lit "GET", 1024⟩
  | some (_, rest) =>
    match extract rest with
    | none => ⟨line, lit "GET", 1024⟩
    | some (key, rest) =>
      match extract rest with
      | none => ⟨line, lit "GET", 1024⟩
      | some (sizeStr, _) => ⟨key, lit "GET", (stoull sizeStr).getD 1024⟩

/-- `has_next`. -/
def hasNext (file : TraceFile) : Bool := file.good && !file.eof

/-- `get_next`. -/
def getNext (file : TraceFile) : TraceEntry × TraceFile :=
  match file.getline with
  | (some line, file) => (parseEntry line, file)
  | (none, file) => (⟨[], lit "EOF", 0⟩, file)

/-- An entry that does not say that the file has ended was read from it. -/
theorem length_getNext_lt {file : TraceFile} (h : (getNext file).1.operation ≠ lit "EOF") :
    (getNext file).2.rest.length < file.rest.length := by
  rw [getNext, TraceFile.getline] at h ⊢
  split_ifs at h ⊢ with hgood hfeed hnil
  · have hpos : 0 < file.rest.length := List.length_pos_of_mem hfeed
    simp only [List.length_drop]
    omega
  · exact absurd rfl h
  · exact List.length_pos_iff.mpr hnil
  · exact absurd rfl h

/-- The loop of `run_trace_benchmark`: the requests it hands to `add_request`, in
order. -/
def runTraceBenchmark (file : TraceFile) : List BenchmarkRequest :=
  if hasNext file then
    let next := getNext file
    if h : next.1.key = [] ∨ next.1.operation = lit "EOF" then []
    else
      have := length_getNext_lt fun he => h (Or.inr he)
      ⟨next.1.key, lit "GET"⟩ :: runTraceBenchmark next.2
  else []
termination_by file.rest.length

end TraceProcessor

end PagedCacheServer
