import Mathlib.Logic.Relation
import PagedCacheServer.Protocol.RoundTrip

/-!
# The order of the lines does not matter

A message is a list of lines, and the parser keeps of each name the last value it
sees. What it makes of the message is therefore a function of three things: the
last `Method` line, the last `Key` line and the last `Value` line
(`PagedCacheServer.ProtocolParser.lookup_parseFields`). Moving lines of different
names past each other, dropping a line that a later one overrides, dropping or
adding a line without a name the parser asks for, and ending a line with or without
a carriage return all leave the three as they are.

Name and value of a line are defined here by what stands in front of its first
colon and behind it; that the arithmetic on `npos` in `parse_fields` comes to the
same is `PagedCacheServer.ProtocolParser.Line.parseLine_raw`.
-/

namespace PagedCacheServer

namespace ProtocolParser

/-! ### Lines -/

/-- A line of a message: what is on it, and whether it ends in a carriage return
and a line feed or in a line feed alone. -/
structure Line where
  content : Bytes
  crlf : Bool
  clean : carriageReturn ∉ content ∧ lineFeed ∉ content

namespace Line

/-- The line without its line feed. -/
def raw (l : Line) : Bytes := l.content ++ if l.crlf then [carriageReturn] else []

/-- What stands in front of the first colon, without the blanks around it. -/
def name (l : Line) : Option Bytes :=
  if colon ∈ l.content then some (strip (l.content.takeWhile (· ≠ colon))) else none

/-- What stands behind the first colon, without the blanks around it. -/
def value (l : Line) : Bytes := strip ((l.content.dropWhile (· ≠ colon)).drop 1)

theorem lineFeed_notMem_raw (l : Line) : lineFeed ∉ l.raw := by
  rw [raw, List.mem_append, not_or]
  refine ⟨l.clean.2, ?_⟩
  split_ifs
  · simp [lineFeed_ne_carriageReturn]
  · exact List.not_mem_nil

theorem popCarriageReturn_raw (l : Line) : popCarriageReturn l.raw = l.content := by
  rw [popCarriageReturn, raw]
  by_cases hcrlf : l.crlf
  · rw [if_pos hcrlf, List.getLast?_concat, if_pos rfl, List.dropLast_concat]
  · rw [if_neg hcrlf, List.append_nil, if_neg]
    exact fun hlast => l.clean.1 (List.mem_of_getLast? hlast)

/-- **A line is read as its name and its value**, if it has a name. -/
theorem parseLine_raw (l : Line) : parseLine l.raw = l.name.map fun n => (n, l.value) := by
  simp only [parseLine, popCarriageReturn_raw]
  by_cases hcolon : colon ∈ l.content
  · have hne : l.content ≠ [] := List.ne_nil_of_mem hcolon
    have hfind : l.content.findIdx? (fun c => decide (c = colon)) =
        some (l.content.findIdx fun c => decide (c = colon)) :=
      List.findIdx?_eq_some_of_exists ⟨colon, hcolon, by simp⟩
    have hnot : (fun c : UInt8 => !decide (c ≠ colon)) = fun c => decide (c = colon) := by
      funext c
      simp
    rw [if_neg hne, hfind, name, if_pos hcolon, value, Option.map_some,
      List.takeWhile_eq_take_findIdx_not, List.dropWhile_eq_drop_findIdx_not, hnot,
      List.drop_drop]
    simp only [trim_eq_strip]
  · have hfind : l.content.findIdx? (fun c => decide (c = colon)) = none := by
      rw [List.findIdx?_eq_none_iff]
      exact fun c hc => decide_eq_false fun he => hcolon (he ▸ hc)
    rw [hfind, name, if_neg hcolon, Option.map_none]
    split_ifs <;> rfl

end Line

/-- The message made of the lines. -/
def message (lines : List Line) : Bytes := lines.flatMap fun l => l.raw ++ [lineFeed]

theorem getlines_message (lines : List Line) : getlines (message lines) = lines.map Line.raw := by
  induction lines with
  | nil => rfl
  | cons l lines ih =>
    have hcons : message (l :: lines) = l.raw ++ lineFeed :: message lines := by simp [message]
    rw [hcons, getlines_append l.lineFeed_notMem_raw, ih, List.map_cons]

/-! ### The last line of a name -/

/-- The lines of a name, in their order. -/
def named (lines : List Line) (n : Bytes) : List Line := lines.filter fun l => l.name = some n

/-- The value on the last line of a name. -/
def lastValue (lines : List Line) (n : Bytes) : Option Bytes :=
  (named lines n).getLast?.map Line.value

/-- **What the parser keeps of a name is the value on its last line.** -/
theorem lookup_parseFields (lines : List Line) (n : Bytes) :
    (parseFields (message lines)).lookup n = lastValue lines n := by
  rw [parseFields, getlines_message]
  induction lines using List.reverseRecOn with
  | nil => rfl
  | append_singleton lines l ih =>
    rw [List.map_append, List.foldl_append, List.map_singleton, List.foldl_cons, List.foldl_nil,
      addField, l.parseLine_raw, lastValue, named, List.filter_append]
    rcases hname : l.name with _ | n'
    · simpa [hname, lastValue, named] using ih
    · rcases eq_or_ne n' n with rfl | hne
      · simp [hname]
      · simpa [hname, hne, AList.lookup_insert_ne hne.symm, lastValue, named] using ih

/-- The names the parser asks for. -/
def fieldNames : List Bytes := [lit "Method", lit "Key", lit "Value"]

/-- A message is read by the last values of the three names. -/
theorem parseMessage_congr {lines lines' : List Line}
    (h : ∀ n ∈ fieldNames, lastValue lines n = lastValue lines' n) :
    parseMessage (message lines) = parseMessage (message lines') := by
  have hlookup : ∀ n ∈ fieldNames, (parseFields (message lines)).lookup n =
      (parseFields (message lines')).lookup n := fun n hn => by
    rw [lookup_parseFields, lookup_parseFields, h n hn]
  have hMethod := hlookup (lit "Method") (by simp [fieldNames])
  have hKey := hlookup (lit "Key") (by simp [fieldNames])
  have hValue := hlookup (lit "Value") (by simp [fieldNames])
  simp only [parseMessage, hMethod, hKey, hValue]

/-! ### Edits -/

/-- The line is empty, has no colon, or has a name the parser does not ask for. -/
def Line.Ignored (l : Line) : Prop :=
  l.content = [] ∨ colon ∉ l.content ∨ ∀ n ∈ fieldNames, l.name ≠ some n

/-- One change of a message. -/
inductive Edit : List Line → List Line → Prop
  /-- The lines are permuted, those of the same name keeping their order. -/
  | reorder {l l' : List Line} (hperm : l.Perm l') (horder : ∀ n, named l n = named l' n) :
    Edit l l'
  /-- A line the parser ignores is removed. -/
  | ignored (l₁ : List Line) {x : Line} (l₂ : List Line) (hx : x.Ignored) :
    Edit (l₁ ++ x :: l₂) (l₁ ++ l₂)
  /-- A line that is followed by another one of its name is removed. -/
  | overridden (l₁ : List Line) {x y : Line} (l₂ : List Line) {n : Bytes} (hn : n ∈ fieldNames)
    (hx : x.name = some n) (hy : y.name = some n) (hmem : y ∈ l₂) :
    Edit (l₁ ++ x :: l₂) (l₁ ++ l₂)
  /-- A line is ended in the other way, or in the same. -/
  | ending (l₁ : List Line) (x : Line) (l₂ : List Line) (crlf : Bool) :
    Edit (l₁ ++ x :: l₂) (l₁ ++ { x with crlf := crlf } :: l₂)

section Edits

variable {l l₁ l₂ : List Line} {x y : Line} {n : Bytes}

theorem Line.Ignored.name_ne (h : x.Ignored) (hn : n ∈ fieldNames) : x.name ≠ some n := by
  rcases h with hnil | hcolon | hname
  · simp [Line.name, hnil]
  · simp [Line.name, hcolon]
  · exact hname n hn

theorem named_append_cons :
    named (l₁ ++ x :: l₂) n =
      named l₁ n ++ (if x.name = some n then [x] else []) ++ named l₂ n := by
  rw [named, List.filter_append, List.filter_cons, List.append_assoc]
  by_cases hx : x.name = some n <;> simp [hx, named]

theorem named_append : named (l₁ ++ l₂) n = named l₁ n ++ named l₂ n := List.filter_append ..

/-- Two lines of different names may change places. -/
theorem Edit.swap (h : x.name ≠ y.name) : Edit (x :: y :: l) (y :: x :: l) := by
  refine .reorder (List.Perm.swap ..) fun n => ?_
  simp only [named, List.filter_cons]
  by_cases hx : x.name = some n
  · have hy : y.name ≠ some n := fun hy => h (hx.trans hy.symm)
    simp [hx, hy]
  · simp [hx]

/-- A line of another name can go. -/
theorem lastValue_drop (hx : x.name ≠ some n) :
    lastValue (l₁ ++ x :: l₂) n = lastValue (l₁ ++ l₂) n := by
  rw [lastValue, named_append_cons, if_neg hx, List.append_nil, ← named_append, lastValue]

/-- So can a line that is overridden. -/
theorem lastValue_drop_of_mem (hmem : y ∈ l₂) (hy : y.name = some n) :
    lastValue (l₁ ++ x :: l₂) n = lastValue (l₁ ++ l₂) n := by
  have hne : named l₂ n ≠ [] := List.ne_nil_of_mem (List.mem_filter.mpr ⟨hmem, by simpa using hy⟩)
  rw [lastValue, named_append_cons, lastValue, named_append, List.getLast?_append_of_ne_nil _ hne,
    List.getLast?_append_of_ne_nil _ hne]

/-- Name and value do not depend on how the line ends. -/
theorem lastValue_ending (crlf : Bool) :
    lastValue (l₁ ++ x :: l₂) n = lastValue (l₁ ++ { x with crlf := crlf } :: l₂) n := by
  have hname : ({ x with crlf := crlf } : Line).name = x.name := rfl
  rw [lastValue, named_append_cons, lastValue, named_append_cons, hname]
  by_cases hx : x.name = some n
  · simp only [if_pos hx, List.getLast?_append, List.getLast?_singleton, Option.some_or,
      Option.map_or, Option.map_some]
    rfl
  · rw [if_neg hx, if_neg hx]

/-- **One edit leaves the last values of the three names as they are.** -/
theorem Edit.lastValue_eq {l l' : List Line} (h : Edit l l') (hn : n ∈ fieldNames) :
    lastValue l n = lastValue l' n := by
  cases h with
  | reorder hperm horder => rw [lastValue, horder n, lastValue]
  | ignored l₁ l₂ hx => exact lastValue_drop (hx.name_ne hn)
  | overridden l₁ l₂ hn' hx hy hmem =>
    rename_i x y n'
    rcases eq_or_ne n' n with rfl | hne
    · exact lastValue_drop_of_mem hmem hy
    · exact lastValue_drop (by simpa [hx] using hne)
  | ending l₁ x l₂ crlf => exact lastValue_ending crlf

end Edits

/-- **Messages that differ by edits are read as the same command**, whatever the
edits, in either direction, and however many of them. -/
theorem parseMessage_eq_of_edits {l l' : List Line} (h : Relation.EqvGen Edit l l') :
    parseMessage (message l) = parseMessage (message l') := by
  refine parseMessage_congr fun n hn => ?_
  induction h with
  | rel l l' hedit => exact hedit.lastValue_eq hn
  | refl l => rfl
  | symm l l' _ ih => exact ih.symm
  | trans l l' l'' _ _ ih ih' => exact ih.trans ih'

/-- A `Key` line that is overridden and a line without a colon go, the other two
change places, and one of them its end. -/
theorem parseMessage_eq_of_four_edits :
    ∃ first last method noise : Line, first.content = lit "Key: a" ∧ last.content = lit "Key:b " ∧
      method.content = lit "Method:GET" ∧ noise.content = lit "x" ∧
      parseMessage (message [first, last, noise, method]) =
        parseMessage (message [method, { last with crlf := false }]) := by
  let first : Line := ⟨lit "Key: a", true, by decide⟩
  let last : Line := ⟨lit "Key:b ", true, by decide⟩
  let method : Line := ⟨lit "Method:GET", false, by decide⟩
  let noise : Line := ⟨lit "x", false, by decide⟩
  have hfirst : first.name = some (lit "Key") := by decide
  have hlast : last.name = some (lit "Key") := by decide
  have hmethod : method.name = some (lit "Method") := by decide
  have hnoise : noise.Ignored := Or.inr (Or.inl (by decide))
  have hoverridden : Edit [first, last, noise, method] [last, noise, method] :=
    .overridden [] [last, noise, method] (by simp [fieldNames]) hfirst hlast List.mem_cons_self
  have hignored : Edit [last, noise, method] [last, method] := .ignored [last] [method] hnoise
  have hreorder : Edit [last, method] [method, last] := .swap (by rw [hlast, hmethod]; decide)
  have hending : Edit [method, last] [method, { last with crlf := false }] :=
    .ending [method] last [] false
  refine ⟨first, last, method, noise, rfl, rfl, rfl, rfl, parseMessage_eq_of_edits ?_⟩
  refine (Relation.EqvGen.rel _ _ hoverridden).trans _ _ _ ?_
  refine (Relation.EqvGen.rel _ _ hignored).trans _ _ _ ?_
  exact (Relation.EqvGen.rel _ _ hreorder).trans _ _ _ (.rel _ _ hending)

end ProtocolParser

end PagedCacheServer
