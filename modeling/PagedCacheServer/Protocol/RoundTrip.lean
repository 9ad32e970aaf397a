import Mathlib.Data.List.DropRight
import PagedCacheServer.Library.Framing
import PagedCacheServer.Protocol.Defs

/-!
# What is encoded is parsed

A client encodes a command line by line – `Method:m`, `Key:k`, perhaps
`Value:v`, an empty line –, each line ended by a carriage return and a line feed.
`PagedCacheServer.ProtocolParser.parseMessage_encode` says that the parser gets
the command back, keys and values losing the blanks around them and nothing
else. The only thing asked of them is that they contain no line feed; colons,
carriage returns and inner blanks are harmless, and an empty value stays one.

That a message ends where it should, and not earlier, is
`PagedCacheServer.ProtocolParser.isFrame_encode`: two line feeds two bytes apart
need an empty line between them.
-/

namespace PagedCacheServer

namespace ProtocolParser

/-! ### Trimming -/

/-- A byte string without the blanks around it. -/
def strip (s : Bytes) : Bytes := (s.dropWhile isBlank).rdropWhile isBlank

theorem drop_findFirstNotOf (s : Bytes) :
    (match findFirstNotOf s with
      | some first => s.drop first
      | none => []) = s.dropWhile isBlank := by
  rw [List.dropWhile_eq_drop_findIdx_not, findFirstNotOf]
  rcases h : s.findIdx? (fun c => !isBlank c) with _ | first
  · rw [List.findIdx?_eq_none_iff_findIdx_eq] at h
    rw [h, List.drop_length]
  · rw [(List.findIdx?_eq_some_iff_findIdx_eq.mp h).2]

theorem take_findLastNotOf (s : Bytes) :
    (match findLastNotOf s with
      | some last => s.take (last + 1)
      | none => []) = s.rdropWhile isBlank := by
  rw [List.rdropWhile, List.dropWhile_eq_drop_findIdx_not, findLastNotOf]
  rcases h : s.reverse.findIdx? (fun c => !isBlank c) with _ | i
  · rw [List.findIdx?_eq_none_iff_findIdx_eq] at h
    rw [h, List.drop_length]
    rfl
  · obtain ⟨hlt, hi⟩ := List.findIdx?_eq_some_iff_findIdx_eq.mp h
    rw [List.length_reverse] at hlt
    rw [hi, List.reverse_drop, List.reverse_reverse, List.length_reverse, Option.map_some]
    exact congrArg s.take (by omega)

/-- The two erasures of the source strip the field, whatever `npos` does. -/
theorem trim_eq_strip (s : Bytes) : trim s = strip s := by
  rw [strip, ← take_findLastNotOf, ← drop_findFirstNotOf]
  rfl

theorem strip_eq_self {s : Bytes} (h : ∀ c ∈ s, isBlank c = false) : strip s = s := by
  have hfront : s.dropWhile isBlank = s := by
    rcases s with _ | ⟨c, s⟩
    · rfl
    · exact List.dropWhile_cons_of_neg (by simp [h c])
  rw [strip, hfront, List.rdropWhile_eq_self_iff]
  intro hne
  rw [h _ (List.getLast_mem hne)]
  exact Bool.false_ne_true

/-! ### Words -/

/-- Every byte comes from the letters or from beyond them. The names of fields and
of methods are of this kind; the bytes that mean something to the parser are not,
and neither is the zero byte. -/
def IsWord (s : Bytes) : Prop := ∀ c ∈ s, 65 ≤ c

instance : DecidablePred IsWord := fun s => List.decidableBAll (65 ≤ ·) s

section Words

variable {s : Bytes}

theorem IsWord.notMem (h : IsWord s) {c : UInt8} (hc : c < 65) : c ∉ s := fun hmem =>
  UInt8.not_le.mpr hc (h c hmem)

theorem IsWord.lineFeed_notMem (h : IsWord s) : lineFeed ∉ s := h.notMem (by decide)

theorem IsWord.carriageReturn_notMem (h : IsWord s) : carriageReturn ∉ s := h.notMem (by decide)

theorem IsWord.colon_notMem (h : IsWord s) : colon ∉ s := h.notMem (by decide)

theorem IsWord.zero_notMem (h : IsWord s) : 0 ∉ s := h.notMem (by decide)

theorem IsWord.strip_eq (h : IsWord s) : strip s = s := by
  refine strip_eq_self fun c hc => Bool.eq_false_iff.mpr fun hblank => ?_
  have hcases : c = 32 ∨ c = 9 := by simpa [isBlank] using hblank
  rcases hcases with rfl | rfl
  · exact h.notMem (by decide) hc
  · exact h.notMem (by decide) hc

/-- What is a word in capitals is a word. -/
theorem isWord_of_map_toupper (h : IsWord (s.map toupper)) : IsWord s := by
  intro c hc
  have hup : 65 ≤ toupper c := h _ (List.mem_map_of_mem hc)
  rw [toupper] at hup
  split at hup
  · next hlower => exact UInt8.le_trans (by decide) hlower.1
  · exact hup

theorem isWord_fields :
    IsWord (lit "Method") ∧ IsWord (lit "Key") ∧ IsWord (lit "Value") := by decide

end Words

/-! ### Lines -/

theorem lineFeed_ne_colon : lineFeed ≠ colon := by decide

theorem lineFeed_ne_carriageReturn : lineFeed ≠ carriageReturn := by decide

theorem getlines_append {line : Bytes} (h : lineFeed ∉ line) (rest : Bytes) :
    getlines (line ++ lineFeed :: rest) = line :: getlines rest := by
  induction line with
  | nil => simp [getlines]
  | cons c line ih =>
    rw [List.mem_cons, not_or] at h
    rw [List.cons_append, getlines, if_neg (Ne.symm h.1), ih h.2]

/-- The line of a field. -/
def encodeLine (name value : Bytes) : Bytes :=
  name ++ colon :: value ++ [carriageReturn, lineFeed]

theorem lineFeed_notMem_field {name value : Bytes} (hn : IsWord name) (hv : lineFeed ∉ value) :
    lineFeed ∉ name ++ colon :: value := by
  simp [hn.lineFeed_notMem, hv, lineFeed_ne_colon]

theorem getlines_encodeLine {name value : Bytes} (hn : IsWord name) (hv : lineFeed ∉ value)
    (rest : Bytes) :
    getlines (encodeLine name value ++ rest) =
      (name ++ colon :: value ++ [carriageReturn]) :: getlines rest := by
  have hline : lineFeed ∉ name ++ colon :: value ++ [carriageReturn] := by
    rw [List.mem_append, not_or]
    exact ⟨lineFeed_notMem_field hn hv, by simp [lineFeed_ne_carriageReturn]⟩
  rw [← getlines_append hline]
  simp [encodeLine]

/-- A line is split at its first colon and loses one carriage return. -/
theorem parseLine_field {name : Bytes} (hn : IsWord name) (value : Bytes) :
    parseLine (name ++ colon :: value ++ [carriageReturn]) = some (name, strip value) := by
  have hpop : popCarriageReturn (name ++ colon :: value ++ [carriageReturn]) =
      name ++ colon :: value := by
    rw [popCarriageReturn, List.getLast?_concat, if_pos rfl, List.dropLast_concat]
  have hcolon : (name ++ colon :: value).findIdx? (· = colon) = some name.length := by
    rw [List.findIdx?_append, List.findIdx?_eq_none_iff.mpr fun c hc => ?_]
    · simp [List.findIdx?_cons]
    · exact decide_eq_false fun he => hn.colon_notMem (he ▸ hc)
  simp only [parseLine, hpop, hcolon]
  rw [if_neg (by simp), List.take_left, trim_eq_strip, trim_eq_strip, hn.strip_eq,
    ← List.drop_drop]
  simp

theorem addField_field (fields : AList fun _ : Bytes => Bytes) {name : Bytes} (hn : IsWord name)
    (value : Bytes) :
    addField fields (name ++ colon :: value ++ [carriageReturn]) =
      fields.insert name (strip value) := by
  rw [addField, parseLine_field hn]

theorem addField_empty (fields : AList fun _ : Bytes => Bytes) :
    addField fields [carriageReturn] = fields := rfl

/-! ### Messages -/

/-- The name of a command, in capitals. -/
def commandName : CommandType → Bytes
  | .add => lit "ADD"
  | .update => lit "UPDATE"
  | .get => lit "GET"
  | .delete => lit "DELETE"
  | .invalid => []

/-- **A command as a client encodes it.** The method is spelled in any letter
case; key and value hold neither a line feed nor a zero byte; a value is there at
least when the command needs one. -/
structure Request where
  type : CommandType
  method : Bytes
  key : Bytes
  value : Option Bytes
  isValid : type ≠ .invalid
  spelled : method.map toupper = commandName type
  keyClean : lineFeed ∉ key ∧ 0 ∉ key
  valueClean : ∀ v, value = some v → lineFeed ∉ v ∧ 0 ∉ v
  hasValue : type = .add ∨ type = .update → value ≠ none

/-- The bytes of a request. -/
def Request.encode (r : Request) : Bytes :=
  encodeLine (lit "Method") r.method ++ encodeLine (lit "Key") r.key ++
    (r.value.elim [] (encodeLine (lit "Value"))) ++ [carriageReturn, lineFeed]

/-- The command a request stands for. -/
def Request.command (r : Request) : Command :=
  ⟨r.type, strip r.key, strip (r.value.getD [])⟩

variable (r : Request)

/-- The method is spelled in letters. -/
theorem Request.isWord_method : IsWord r.method := by
  refine isWord_of_map_toupper ?_
  rw [r.spelled]
  cases r.type <;> decide

theorem Request.stringToCommand_method : stringToCommand r.method = r.type := by
  have hvalid := r.isValid
  rw [stringToCommand, r.spelled]
  generalize r.type = type at hvalid
  cases type with
  | invalid => exact absurd rfl hvalid
  | _ => decide

/-- The fields of a message are those of its request. -/
theorem parseFields_encode :
    parseFields r.encode =
      let fields := ((∅ : AList fun _ : Bytes => Bytes).insert (lit "Method") r.method).insert
        (lit "Key") (strip r.key)
      r.value.elim fields fun v => fields.insert (lit "Value") (strip v) := by
  obtain ⟨hMethod, hKey, hValue⟩ := isWord_fields
  have hlast : getlines [carriageReturn, lineFeed] = [[carriageReturn]] := by decide
  rw [parseFields, Request.encode, List.append_assoc, List.append_assoc,
    getlines_encodeLine hMethod r.isWord_method.lineFeed_notMem,
    getlines_encodeLine hKey r.keyClean.1, List.foldl_cons, List.foldl_cons,
    addField_field _ hMethod, addField_field _ hKey, r.isWord_method.strip_eq]
  rcases hv : r.value with _ | v
  · rw [Option.elim_none, List.nil_append, hlast, List.foldl_cons, addField_empty]
    rfl
  · rw [Option.elim_some, getlines_encodeLine hValue (r.valueClean v hv).1, hlast,
      List.foldl_cons, addField_field _ hValue, List.foldl_cons, addField_empty]
    rfl

theorem lookup_encode :
    (parseFields r.encode).lookup (lit "Method") = some r.method ∧
      (parseFields r.encode).lookup (lit "Key") = some (strip r.key) ∧
      (parseFields r.encode).lookup (lit "Value") = r.value.map strip := by
  have hMK : lit "Method" ≠ lit "Key" := by decide
  have hMV : lit "Method" ≠ lit "Value" := by decide
  have hKV : lit "Key" ≠ lit "Value" := by decide
  rw [parseFields_encode]
  rcases r.value with _ | v
  · refine ⟨?_, AList.lookup_insert _, ?_⟩
    · exact (AList.lookup_insert_ne hMK).trans (AList.lookup_insert _)
    · exact (AList.lookup_insert_ne hKV.symm).trans (AList.lookup_insert_ne hMV.symm)
  · refine ⟨?_, ?_, AList.lookup_insert _⟩
    · exact (AList.lookup_insert_ne hMV).trans
        ((AList.lookup_insert_ne hMK).trans (AList.lookup_insert _))
    · exact (AList.lookup_insert_ne hKV).trans (AList.lookup_insert _)

/-- **The parser inverts the encoding**, up to the blanks around key and
value. -/
theorem parseMessage_encode : parseMessage r.encode = r.command := by
  obtain ⟨hmethod, hkey, hvalue⟩ := lookup_encode r
  simp only [parseMessage, hmethod, hkey, hvalue, r.stringToCommand_method, if_neg r.isValid,
    Request.command]
  rcases hv : r.value with _ | v
  · have hneed : ¬(r.type = .add ∨ r.type = .update) := fun h => r.hasValue h hv
    simp only [Option.map_none, if_neg hneed, Option.getD_none]
    rfl
  · rfl

/-! ### Framing -/

theorem delimiter_eq : delimiter = [carriageReturn, lineFeed, carriageReturn, lineFeed] := by
  decide

theorem delimiter_ne_nil : delimiter ≠ [] := by decide

/-- No message ends in front of a byte other than a line feed. -/
theorem find_cons_of_head_ne {c : UInt8} {l : Bytes} (h : l.head? ≠ some lineFeed) :
    Framing.find delimiter (c :: l) = (Framing.find delimiter l).map (· + 1) := by
  rw [Framing.find, if_neg]
  rintro ⟨rest, hrest⟩
  rw [delimiter_eq, List.cons_append, List.cons.injEq] at hrest
  rw [← hrest.2] at h
  exact h rfl

/-- The search passes over a line. -/
theorem find_line_append {line : Bytes} (h : lineFeed ∉ line) (l : Bytes) :
    Framing.find delimiter (line ++ carriageReturn :: l) =
      (Framing.find delimiter (carriageReturn :: l)).map (· + line.length) := by
  induction line with
  | nil => simp
  | cons c line ih =>
    rw [List.mem_cons, not_or] at h
    have hhead : (line ++ carriageReturn :: l).head? ≠ some lineFeed := by
      rcases line with _ | ⟨c', line⟩
      · simp only [List.nil_append, List.head?_cons]
        decide
      · simp only [List.cons_append, List.head?_cons, ne_eq, Option.some.injEq]
        exact fun he => h.2 (by simp [he])
    rw [List.cons_append, find_cons_of_head_ne hhead, ih h.2, Option.map_map]
    refine congrArg (Option.map · _) (funext fun n => ?_)
    simp only [Function.comp_apply, List.length_cons]
    omega

/-- An end of line in front of another line does not end the message. -/
theorem find_crlf_append {l : Bytes} (h : l.head? ≠ some carriageReturn) :
    Framing.find delimiter (carriageReturn :: lineFeed :: l) =
      (Framing.find delimiter l).map (· + 2) := by
  have hfirst : ¬delimiter <+: carriageReturn :: lineFeed :: l := by
    rintro ⟨rest, hrest⟩
    rw [delimiter_eq, List.cons_append, List.cons_append, List.cons.injEq, List.cons.injEq] at hrest
    rw [← hrest.2.2] at h
    exact h rfl
  have hsecond : ¬delimiter <+: lineFeed :: l := by
    rintro ⟨rest, hrest⟩
    rw [delimiter_eq, List.cons_append, List.cons.injEq] at hrest
    exact absurd hrest.1 (by decide)
  rw [Framing.find, if_neg hfirst, Framing.find, if_neg hsecond, Option.map_map]
  rfl

section Line

variable {name value : Bytes} (hn : IsWord name) (hv : lineFeed ∉ value)
include hn hv

theorem find_encodeLine_append {l : Bytes} (hl : l.head? ≠ some carriageReturn) :
    Framing.find delimiter (encodeLine name value ++ l) =
      (Framing.find delimiter l).map (· + (encodeLine name value).length) := by
  have hline : encodeLine name value ++ l =
      (name ++ colon :: value) ++ carriageReturn :: lineFeed :: l := by simp [encodeLine]
  rw [hline, find_line_append (lineFeed_notMem_field hn hv), find_crlf_append hl, Option.map_map]
  refine congrArg (Option.map · _) (funext fun n => ?_)
  simp only [Function.comp_apply, encodeLine, List.length_append, List.length_cons,
    List.length_nil]
  omega

/-- An empty line after the last field ends the message. -/
theorem isFrame_encodeLine :
    Framing.IsFrame delimiter (encodeLine name value ++ [carriageReturn, lineFeed]) := by
  have hline : encodeLine name value ++ [carriageReturn, lineFeed] =
      (name ++ colon :: value) ++ carriageReturn :: [lineFeed, carriageReturn, lineFeed] := by
    simp [encodeLine]
  have hend : Framing.find delimiter [carriageReturn, lineFeed, carriageReturn, lineFeed] =
      some 0 := by decide
  refine ⟨(name ++ colon :: value).length, ?_, ?_⟩
  · rw [hline, find_line_append (lineFeed_notMem_field hn hv), hend, Option.map_some, Nat.zero_add]
  · rw [hline, delimiter_eq]
    exact List.length_append.symm

/-- A field in front of a frame that does not start with an end of line. -/
theorem isFrame_encodeLine_append {l : Bytes} (hl : l.head? ≠ some carriageReturn)
    (h : Framing.IsFrame delimiter l) : Framing.IsFrame delimiter (encodeLine name value ++ l) := by
  obtain ⟨n, hfind, hlen⟩ := h
  refine ⟨n + (encodeLine name value).length, ?_, ?_⟩
  · rw [find_encodeLine_append hn hv hl, hfind, Option.map_some]
  · rw [List.length_append, ← hlen]
    omega

end Line

/-- A line that starts with a name does not start with an end of line. -/
theorem head?_encodeLine {name : Bytes} (hn : IsWord name) (value l : Bytes) :
    (encodeLine name value ++ l).head? ≠ some carriageReturn := by
  rcases name with _ | ⟨c, name⟩
  · change some colon ≠ some carriageReturn
    decide
  · exact fun he => hn.carriageReturn_notMem (Option.some.inj he ▸ List.mem_cons_self)

/-- **A message ends with its encoding**, and not earlier. -/
theorem isFrame_encode : Framing.IsFrame delimiter r.encode := by
  obtain ⟨hMethod, hKey, hValue⟩ := isWord_fields
  rw [Request.encode, List.append_assoc, List.append_assoc]
  refine isFrame_encodeLine_append hMethod r.isWord_method.lineFeed_notMem
    (head?_encodeLine hKey _ _) ?_
  rcases hv : r.value with _ | v
  · exact isFrame_encodeLine hKey r.keyClean.1
  · refine isFrame_encodeLine_append hKey r.keyClean.1 (head?_encodeLine hValue _ _) ?_
    exact isFrame_encodeLine hValue (r.valueClean v hv).1

theorem zero_notMem_encodeLine {name value : Bytes} (hn : IsWord name) (hv : 0 ∉ value) :
    0 ∉ encodeLine name value := by
  simp [encodeLine, hn.zero_notMem, hv, colon, carriageReturn, lineFeed]

/-- No zero byte is ever sent. -/
theorem zero_notMem_encode : 0 ∉ r.encode := by
  obtain ⟨hMethod, hKey, hValue⟩ := isWord_fields
  have hvalue : (0 : UInt8) ∉ r.value.elim [] (encodeLine (lit "Value")) := by
    rcases hv : r.value with _ | v
    · simp
    · exact zero_notMem_encodeLine hValue (r.valueClean v hv).2
  rw [Request.encode, List.mem_append, List.mem_append, List.mem_append]
  rintro (((h | h) | h) | h)
  · exact zero_notMem_encodeLine hMethod r.isWord_method.zero_notMem h
  · exact zero_notMem_encodeLine hKey r.keyClean.2 h
  · exact hvalue h
  · exact absurd h (by decide)

end ProtocolParser

end PagedCacheServer
