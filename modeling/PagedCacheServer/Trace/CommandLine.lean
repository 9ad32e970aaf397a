import PagedCacheServer.Trace.Defs

/-!
# The command line of the benchmark

`main` of `cache_benchmark` goes through its arguments from left to right: an option with
its value is entered into the settings, and anything else ends the program, with the usage,
a message, both of them, or the exception of `std::stoull`, which nobody catches.

So a command line is a list of options with good values, up to its end or to the first
thing that is none (`PagedCacheServer.CommandLine.Stops`). Options can be repeated, and
the last one counts (`PagedCacheServer.CommandLine.settings`); `--file` and `--url` are one
option in this respect, as they name the same thing.
-/

namespace PagedCacheServer

namespace CommandLine

/-! ### The loop of `main` -/

/-- The variables `main` sets. -/
@[ext] structure Settings where
  capacity : ℕ
  traceSource : Bytes
  algorithm : Bytes
  isUrl : Bool
deriving DecidableEq

/-- What they are set to at first. -/
def defaults : Settings where
  capacity := 10000
  traceSource := lit
    "https://analytics.wikimedia.org/published/datasets/caching/2019/text/cache-t-00.gz"
  algorithm := lit "ALL"
  isUrl := true

/-- How the program ends before it has done anything. -/
inductive Exit
  /-- With the usage, as asked for. -/
  | usage
  /-- With a message. -/
  | message (text : Bytes)
  /-- With a message, and the usage after it. -/
  | messageAndUsage (text : Bytes)
  /-- With an exception of `std::stoull`. -/
  | exception
deriving DecidableEq

/-- `std::stoull`, with the white space it skips. -/
def number (value : Bytes) : Option ℕ := stoull (value.dropWhile isSpace)

/-- The loop of `main` over its arguments. -/
def parseArguments (s : Settings) : List Bytes → Except Exit Settings
  | [] => .ok s
  | arg :: rest =>
    if arg = lit "-h" ∨ arg = lit "--help" then .error .usage
    else if arg = lit "-c" ∨ arg = lit "--capacity" then
      match rest with
      | value :: rest =>
        match number value with
        | some capacity => parseArguments { s with capacity := capacity } rest
        | none => .error .exception
      | [] => .error (.message (lit "Error: --capacity requires a value"))
    else if arg = lit "-f" ∨ arg = lit "--file" then
      match rest with
      | path :: rest => parseArguments { s with traceSource := path, isUrl := false } rest
      | [] => .error (.message (lit "Error: --file requires a path"))
    else if arg = lit "-u" ∨ arg = lit "--url" then
      match rest with
      | url :: rest => parseArguments { s with traceSource := url, isUrl := true } rest
      | [] => .error (.message (lit "Error: --url requires a URL"))
    else if arg = lit "-a" ∨ arg = lit "--algorithm" then
      match rest with
      | name :: rest => parseArguments { s with algorithm := name } rest
      | [] => .error (.message (lit "Error: --algorithm requires a value"))
    else .error (.messageAndUsage (lit "Unknown argument: " ++ arg))

/-! ### Options -/

/-- What can be chosen. -/
inductive Choice
  | capacity
  | file
  | url
  | algorithm
deriving DecidableEq

/-- The spellings of an option. -/
def Choice.names : Choice → List Bytes
  | capacity => [lit "-c", lit "--capacity"]
  | file => [lit "-f", lit "--file"]
  | url => [lit "-u", lit "--url"]
  | algorithm => [lit "-a", lit "--algorithm"]

/-- The complaint about an option without a value. -/
def Choice.missing : Choice → Bytes
  | capacity => lit "Error: --capacity requires a value"
  | file => lit "Error: --file requires a path"
  | url => lit "Error: --url requires a URL"
  | algorithm => lit "Error: --algorithm requires a value"

/-- The spellings of the request for help. -/
def help : List Bytes := [lit "-h", lit "--help"]

/-- An option with a value that can be read. -/
structure Argument where
  choice : Choice
  name : Bytes
  value : Bytes
  named : name ∈ choice.names
  readable : choice = .capacity → (number value).isSome

/-- An option as it stands on the command line. -/
def Argument.words (a : Argument) : List Bytes := [a.name, a.value]

/-- What an option sets. -/
def Argument.set (s : Settings) (a : Argument) : Settings :=
  match a.choice with
  | .capacity => { s with capacity := (number a.value).getD s.capacity }
  | .file => { s with traceSource := a.value, isUrl := false }
  | .url => { s with traceSource := a.value, isUrl := true }
  | .algorithm => { s with algorithm := a.value }

/-- The last option of a kind. -/
def lastOf (kind : Choice → Bool) (arguments : List Argument) : Option Argument :=
  (arguments.filter fun a => kind a.choice).getLast?

/-- **The last option of a kind decides**, and the default if there is none. -/
def settings (arguments : List Argument) : Settings where
  capacity := ((lastOf (· = .capacity) arguments).bind fun a => number a.value).getD
    defaults.capacity
  traceSource := ((lastOf (fun c => c = .file ∨ c = .url) arguments).map Argument.value).getD
    defaults.traceSource
  algorithm := ((lastOf (· = .algorithm) arguments).map Argument.value).getD defaults.algorithm
  isUrl := ((lastOf (fun c => c = .file ∨ c = .url) arguments).map
    fun a => decide (a.choice = .url)).getD defaults.isUrl

/-- What begins with no option that could be entered, and how the program ends there. -/
inductive Stops : List Bytes → Exit → Prop
  | usage {arg : Bytes} (harg : arg ∈ help) (rest : List Bytes) : Stops (arg :: rest) .usage
  | missing {choice : Choice} {arg : Bytes} (harg : arg ∈ choice.names) :
      Stops [arg] (.message choice.missing)
  | unreadable {arg value : Bytes} (harg : arg ∈ Choice.capacity.names)
      (hvalue : number value = none) (rest : List Bytes) :
      Stops (arg :: value :: rest) .exception
  | unknown {arg : Bytes} (harg : ∀ choice : Choice, arg ∉ choice.names) (hhelp : arg ∉ help)
      (rest : List Bytes) :
      Stops (arg :: rest) (.messageAndUsage (lit "Unknown argument: " ++ arg))

variable {rest : List Bytes} {exit : Exit}

/-! ### One option -/

theorem Choice.notMem_help {choice : Choice} {arg : Bytes} (h : arg ∈ choice.names) :
    arg ∉ help := by
  cases choice <;> rcases List.mem_pair.mp h with rfl | rfl <;> decide

/-- No spelling stands for two options. -/
theorem Choice.notMem_names {choice : Choice} {arg : Bytes} (h : arg ∈ choice.names)
    (other : Choice) (hne : other ≠ choice) : arg ∉ other.names := by
  cases choice <;> rcases List.mem_pair.mp h with rfl | rfl <;> cases other <;>
    first | exact absurd rfl hne | decide

/-- **An option with a good value is entered.** -/
theorem parseArguments_words (s : Settings) (a : Argument) (rest : List Bytes) :
    parseArguments s (a.words ++ rest) = parseArguments (a.set s) rest := by
  obtain ⟨choice, name, value, hname, hreadable⟩ := a
  have hwords : Argument.words ⟨choice, name, value, hname, hreadable⟩ ++ rest =
      name :: value :: rest := rfl
  have hhelp : ¬(name = lit "-h" ∨ name = lit "--help") :=
    mt List.mem_pair.mpr (Choice.notMem_help hname)
  have hother := Choice.notMem_names hname
  rw [hwords, parseArguments, if_neg hhelp]
  cases choice with
  | capacity =>
    obtain ⟨n, hn⟩ := Option.isSome_iff_exists.mp (hreadable rfl)
    have hset : Argument.set s ⟨.capacity, name, value, hname, hreadable⟩ =
        { s with capacity := n } := by
      rw [Argument.set, hn, Option.getD_some]
    rw [hset, if_pos (List.mem_pair.mp hname)]
    simp only [hn]
  | file =>
    rw [if_neg (mt List.mem_pair.mpr (hother .capacity (by decide))),
      if_pos (List.mem_pair.mp hname)]
    rfl
  | url =>
    rw [if_neg (mt List.mem_pair.mpr (hother .capacity (by decide))),
      if_neg (mt List.mem_pair.mpr (hother .file (by decide))),
      if_pos (List.mem_pair.mp hname)]
    rfl
  | algorithm =>
    rw [if_neg (mt List.mem_pair.mpr (hother .capacity (by decide))),
      if_neg (mt List.mem_pair.mpr (hother .file (by decide))),
      if_neg (mt List.mem_pair.mpr (hother .url (by decide))),
      if_pos (List.mem_pair.mp hname)]
    rfl

/-- **Anything else ends the program.** -/
theorem Stops.ends (h : Stops rest exit) (s : Settings) :
    parseArguments s rest = .error exit := by
  cases h with
  | usage harg rest =>
    rw [parseArguments.eq_def]
    exact if_pos (List.mem_pair.mp harg)
  | @missing choice arg harg =>
    cases choice <;> rcases List.mem_pair.mp harg with rfl | rfl <;> rfl
  | unreadable harg hvalue rest =>
    rw [parseArguments, if_neg (mt List.mem_pair.mpr (Choice.notMem_help harg)),
      if_pos (List.mem_pair.mp harg)]
    simp only [hvalue]
  | @unknown arg harg hhelp rest =>
    have hcapacity := mt List.mem_pair.mpr (harg .capacity)
    have hfile := mt List.mem_pair.mpr (harg .file)
    have hurl := mt List.mem_pair.mpr (harg .url)
    have halgorithm := mt List.mem_pair.mpr (harg .algorithm)
    rw [parseArguments.eq_def]
    dsimp only
    rw [if_neg (mt List.mem_pair.mpr hhelp), if_neg hcapacity, if_neg hfile, if_neg hurl,
      if_neg halgorithm]

/-- **A command line begins with an option, or stops.** -/
theorem exists_words_or_stops (arg : Bytes) (rest : List Bytes) :
    (∃ (a : Argument) (rest' : List Bytes), arg :: rest = a.words ++ rest') ∨
      ∃ exit, Stops (arg :: rest) exit := by
  by_cases hhelp : arg ∈ help
  · exact .inr ⟨_, .usage hhelp rest⟩
  by_cases hnamed : ∃ choice : Choice, arg ∈ choice.names
  swap
  · exact .inr ⟨_, .unknown (not_exists.mp hnamed) hhelp rest⟩
  obtain ⟨choice, harg⟩ := hnamed
  rcases rest with _ | ⟨value, rest⟩
  · exact .inr ⟨_, .missing harg⟩
  by_cases hreadable : choice = .capacity → (number value).isSome
  · exact .inl ⟨⟨choice, arg, value, harg, hreadable⟩, rest, rfl⟩
  · obtain ⟨rfl, hnone⟩ := Classical.not_imp.mp hreadable
    exact .inr ⟨_, .unreadable harg (Option.not_isSome_iff_eq_none.mp hnone) rest⟩

/-! ### Whole command lines -/

theorem parseArguments_flatMap (s : Settings) (arguments : List Argument) (rest : List Bytes) :
    parseArguments s (arguments.flatMap Argument.words ++ rest) =
      parseArguments (arguments.foldl Argument.set s) rest := by
  induction arguments generalizing s with
  | nil => rfl
  | cons a arguments ih =>
    rw [List.flatMap_cons, List.append_assoc, parseArguments_words, ih, List.foldl_cons]

/-- Every command line is a list of options, up to where it stops. -/
theorem exists_arguments (args : List Bytes) :
    ∃ (arguments : List Argument) (rest : List Bytes),
      args = arguments.flatMap Argument.words ++ rest ∧ (rest = [] ∨ ∃ exit, Stops rest exit) := by
  induction hn : args.length using Nat.strong_induction_on generalizing args with
  | _ n ih =>
    rcases args with _ | ⟨arg, args⟩
    · exact ⟨[], [], rfl, .inl rfl⟩
    rcases exists_words_or_stops arg args with ⟨a, rest, hrest⟩ | hstops
    · have hlt : rest.length < n := by
        rw [← hn, hrest, List.length_append, Argument.words, List.length_cons]
        omega
      obtain ⟨arguments, last, rfl, hlast⟩ := ih _ hlt rest rfl
      refine ⟨a :: arguments, last, ?_, hlast⟩
      rw [hrest, List.flatMap_cons, List.append_assoc]
    · exact ⟨[], arg :: args, rfl, .inr hstops⟩

theorem lastOf_snoc (kind : Choice → Bool) (arguments : List Argument) (a : Argument) :
    lastOf kind (arguments ++ [a]) = if kind a.choice then some a else lastOf kind arguments := by
  rw [lastOf, List.filter_append]
  by_cases ha : kind a.choice = true
  · rw [List.filter_cons_of_pos (p := fun b : Argument => kind b.choice) ha, List.filter_nil,
      List.getLast?_concat, if_pos ha]
  · rw [List.filter_cons_of_neg (p := fun b : Argument => kind b.choice) ha, List.filter_nil,
      List.append_nil, if_neg ha, lastOf]

/-- Entering the options one by one, the last one of a kind remains. -/
theorem foldl_set (arguments : List Argument) :
    arguments.foldl Argument.set defaults = settings arguments := by
  induction arguments using List.reverseRecOn with
  | nil => rfl
  | append_singleton arguments a ih =>
    rw [List.foldl_append, ih, List.foldl_cons, List.foldl_nil, Argument.set]
    rcases hchoice : a.choice with _ | _ | _ | _
    · obtain ⟨n, hn⟩ := Option.isSome_iff_exists.mp (a.readable hchoice)
      ext1 <;> simp [settings, lastOf_snoc, hchoice, hn]
    all_goals ext1 <;> simp [settings, lastOf_snoc, hchoice]

/-- **What the command line says.** The program goes on exactly when its arguments are a list
of options with good values; each setting is then what the last option of its kind says, and
the default if there is none, with `--file` and `--url` of one kind. It ends before it has
done anything exactly when such a list is followed by something else, and how it ends is
decided by what comes first after the list. -/
theorem command_line (args : List Bytes) :
    (∀ s, parseArguments defaults args = .ok s ↔
      ∃ arguments : List Argument,
        args = arguments.flatMap Argument.words ∧ s = settings arguments) ∧
    ∀ exit, parseArguments defaults args = .error exit ↔
      ∃ (arguments : List Argument) (rest : List Bytes),
        args = arguments.flatMap Argument.words ++ rest ∧ Stops rest exit := by
  have hgood : ∀ arguments : List Argument,
      parseArguments defaults (arguments.flatMap Argument.words) = .ok (settings arguments) := by
    intro arguments
    have hall := parseArguments_flatMap defaults arguments []
    rw [List.append_nil, foldl_set] at hall
    exact hall
  have hstop : ∀ (arguments : List Argument) (rest : List Bytes) (exit : Exit),
      Stops rest exit →
        parseArguments defaults (arguments.flatMap Argument.words ++ rest) = .error exit := by
    intro arguments rest exit hstops
    rw [parseArguments_flatMap]
    exact hstops.ends _
  obtain ⟨arguments, rest, rfl, rfl | ⟨exit', hstops⟩⟩ := exists_arguments args
  · rw [List.append_nil]
    refine ⟨fun s => ⟨fun h => ?_, ?_⟩, fun exit => ⟨fun h => ?_, ?_⟩⟩
    · rw [hgood] at h
      exact ⟨arguments, rfl, (Except.ok.inj h).symm⟩
    · rintro ⟨arguments', heq, rfl⟩
      rw [heq, hgood]
    · rw [hgood] at h
      simp at h
    · rintro ⟨arguments', rest, heq, hstops⟩
      rw [heq, hstop arguments' rest exit hstops]
  · refine ⟨fun s => ⟨fun h => ?_, ?_⟩, fun exit => ⟨fun h => ?_, ?_⟩⟩
    · rw [hstop arguments rest exit' hstops] at h
      simp at h
    · rintro ⟨arguments', heq, rfl⟩
      rw [heq, hgood]
    · rw [hstop arguments rest exit' hstops] at h
      obtain rfl := Except.error.inj h
      exact ⟨arguments, rest, rfl, hstops⟩
    · rintro ⟨arguments', rest', heq, hstops'⟩
      rw [heq, hstop arguments' rest' exit hstops']

/-- Two capacities, and a file after a URL. -/
example : parseArguments defaults [lit "-c", lit "5", lit "-u", lit "x", lit "--file", lit "y",
    lit "--capacity", lit "7"] = .ok ⟨7, lit "y", lit "ALL", false⟩ := by decide

end CommandLine

end PagedCacheServer
