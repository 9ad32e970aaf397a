import Mathlib.Data.List.AList
import PagedCacheServer.Bytes

/-!
# The protocol

`ProtocolParser` and the response texts, as `protocol.h` and `protocol.cpp` have
them. A message is a list of lines `Name:value`; the parser splits it at the line
feeds, drops one carriage return at the end of each line, splits the line at its
first colon, trims both sides and keeps the last value it sees for each name.

`std::string::npos` is `none`. Where the source does arithmetic on it –
`erase(0, npos)` clears the string, `npos + 1` is zero – the definition says what
comes out.
-/

namespace PagedCacheServer

/-! ### Commands -/

/-- `CommandType`. -/
inductive CommandType
  | add
  | update
  | get
  | delete
  | invalid
deriving DecidableEq, Repr

/-- `Command`; a new one is invalid. -/
structure Command where
  type : CommandType := .invalid
  key : Bytes := []
  value : Bytes := []
deriving DecidableEq, Repr

namespace ProtocolParser

def lineFeed : UInt8 := 10
def carriageReturn : UInt8 := 13
def colon : UInt8 := 58

/-- What ends a message; `handle_client_data` looks for it. -/
def delimiter : Bytes := lit "\r\n\r\n"

/-- The blanks the parser trims: space and tab. -/
def isBlank (c : UInt8) : Bool := c = 32 || c = 9

/-- `toupper`, in the C locale. -/
def toupper (c : UInt8) : UInt8 := if 97 ≤ c ∧ c ≤ 122 then c - 32 else c

/-- `string_to_command`. -/
def stringToCommand (cmdStr : Bytes) : CommandType :=
  let cmdUpper := cmdStr.map toupper
  if cmdUpper = lit "ADD" then .add
  else if cmdUpper = lit "UPDATE" then .update
  else if cmdUpper = lit "GET" then .get
  else if cmdUpper = lit "DELETE" then .delete
  else .invalid

/-! ### Fields -/

/-- The lines `getline` reads, one after the other. What follows the last line
feed is a line too, unless it is empty. -/
def getlines : Bytes → List Bytes
  | [] => []
  | c :: rest =>
    if c = lineFeed then [] :: getlines rest
    else
      match getlines rest with
      | [] => [[c]]
      | line :: lines => (c :: line) :: lines

/-- Drop the last byte if it is a carriage return. -/
def popCarriageReturn (line : Bytes) : Bytes :=
  if line.getLast? = some carriageReturn then line.dropLast else line

/-- `find_first_not_of(" \t")`. -/
def findFirstNotOf (s : Bytes) : Option ℕ := s.findIdx? fun c => !isBlank c

/-- `find_last_not_of(" \t")`. -/
def findLastNotOf (s : Bytes) : Option ℕ :=
  (s.reverse.findIdx? fun c => !isBlank c).map fun i => s.length - 1 - i

/-- The two erasures that trim a field. -/
def trim (field : Bytes) : Bytes :=
  let field :=
    match findFirstNotOf field with
    | some first => field.drop first
    | none => []
  match findLastNotOf field with
  | some last => field.take (last + 1)
  | none => []

/-- One round of the loop of `parse_fields`: the field the line adds, if any. -/
def parseLine (line : Bytes) : Option (Bytes × Bytes) :=
  let line := popCarriageReturn line
  if line = [] then none
  else
    match line.findIdx? (· = colon) with
    | none => none
    | some colonPos => some (trim (line.take colonPos), trim (line.drop (colonPos + 1)))

/-- Store a field, over an earlier one of the same name. -/
def addField (fields : AList fun _ : Bytes => Bytes) (line : Bytes) :
    AList fun _ : Bytes => Bytes :=
  match parseLine line with
  | none => fields
  | some field => fields.insert field.1 field.2

/-- `parse_fields`. -/
def parseFields (message : Bytes) : AList fun _ : Bytes => Bytes :=
  (getlines message).foldl addField ∅

/-- `parse_message`. -/
def parseMessage (message : Bytes) : Command :=
  let cmd : Command := {}
  let fields := parseFields message
  match fields.lookup (lit "Method") with
  | none => cmd
  | some method =>
    let cmd := { cmd with type := stringToCommand method }
    if cmd.type = .invalid then cmd
    else
      match fields.lookup (lit "Key") with
      | none => { cmd with type := .invalid }
      | some key =>
        let cmd := { cmd with key := key }
        match fields.lookup (lit "Value") with
        | some value => { cmd with value := value }
        | none =>
          if cmd.type = .add ∨ cmd.type = .update then { cmd with type := .invalid }
          else cmd

/-- `format_response`. -/
def formatResponse (response : Bytes) : Bytes := response ++ [carriageReturn, lineFeed]

end ProtocolParser

/-! ### Responses -/

namespace Response

def okAdded : Bytes := lit "OK: Key added successfully."
def okUpdated : Bytes := lit "OK: Key updated successfully."
def okDeleted : Bytes := lit "OK: Key deleted successfully."
def errorExists : Bytes := lit "ERROR: Key already exists."
def errorNotFound : Bytes := lit "ERROR: Key not found."
def errorNoSpace : Bytes := lit "ERROR: Not enough contiguous space."
def errorAccessDenied : Bytes := lit "ERROR: Access denied to key."
def errorInvalidCommand : Bytes := lit "ERROR: Invalid command format."

/-- `ok_value`. -/
def okValue (value : Bytes) : Bytes := lit "OK: Value=" ++ value

end Response

end PagedCacheServer
