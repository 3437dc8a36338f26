import TemplateTrace.Proofs.Command.Grammar
import Mathlib.Data.List.Induction
set_option autoImplicit false

/-!
# What arguments come to

Of each option the last setting holds, and a default where there is none (`Draft.foldl_set_eq`).  So
only the order of the settings of one option matters (`Reorders.lastOf_eq`), and every command can
be written as arguments that ask for it (`Command.ofArguments_arguments`).
`Command.ofArguments_reads_groups` puts this together with the grammar: which arguments are
understood, and as what.
-/

namespace TemplateTrace

/-! ## The last setting of an option -/

/-- The options that settings are of. -/
inductive Slot where
  | trace
  | mode
  | preprocessor
  | capacity
  | format
  | verbose
  | maxDepth
  | steps
  deriving DecidableEq, Repr

/-- What a setting of an option says. -/
abbrev Slot.Value : Slot → Type
  | .trace => String
  | .mode => Mode
  | .preprocessor | .verbose => Unit
  | .capacity | .maxDepth | .steps => UInt64
  | .format => Format

namespace Setting

/-- The option that a setting is of. -/
def slot : Setting → Slot
  | .trace _ => .trace
  | .mode _ => .mode
  | .preprocessor => .preprocessor
  | .capacity _ => .capacity
  | .format _ => .format
  | .verbose => .verbose
  | .maxDepth _ => .maxDepth
  | .steps _ => .steps

/-- What a setting says. -/
def value : (setting : Setting) → setting.slot.Value
  | .trace path => path
  | .mode chosen => chosen
  | .preprocessor | .verbose => ()
  | .capacity count | .maxDepth count | .steps count => count
  | .format chosen => chosen

/-- What a setting says if it is one of an option. -/
def value? (slot : Slot) (setting : Setting) : Option slot.Value :=
  if same : setting.slot = slot then some (same ▸ setting.value) else none

end Setting

/-- What the last of some settings of an option says. -/
def lastOf (slot : Slot) (made : List Setting) : Option slot.Value :=
  (made.filterMap (Setting.value? slot)).getLast?

theorem lastOf_snoc (slot : Slot) (made : List Setting) (setting : Setting) :
    lastOf slot (made ++ [setting]) = (setting.value? slot).or (lastOf slot made) := by
  rw [lastOf, List.filterMap_append, List.getLast?_append]
  cases said : setting.value? slot <;> simp [said, lastOf]

/-- What some settings come to: of each option the last one, and a default where there is none. -/
def Draft.ofLast (made : List Setting) : Draft where
  trace := lastOf .trace made
  config :=
    { mode := (lastOf .mode made).getD .minimized
      preprocessor := (lastOf .preprocessor made).isSome
      capacity := lastOf .capacity made
      rootName := "<root>" }
  format := (lastOf .format made).getD .human
  verbose := (lastOf .verbose made).isSome
  maxDepth := lastOf .maxDepth made
  steps := (lastOf .steps made).getD 0

/-- One setting after the other, the last one of each option holds. -/
theorem Draft.foldl_set_eq (made : List Setting) : made.foldl Draft.set .blank = .ofLast made := by
  induction made using List.reverseRecOn with
  | nil => rfl
  | append_singleton made setting ih =>
    -- the last setting says what its option comes to, and leaves the others as they were
    rw [List.foldl_append, List.foldl_cons, List.foldl_nil, ih]
    simp only [ofLast, lastOf_snoc]
    cases setting <;> rfl

/-! ## Understood arguments -/

namespace Command

/-- The command of that word, on the trace at a path, that some settings come to. -/
def ofLast (c : TraceCommand) (path : String) (made : List Setting) : Command :=
  let draft := Draft.ofLast made
  let options : Options := ⟨path, draft.config, draft.format, draft.verbose⟩
  match c with
  | .evaluate => .evaluate options
  | .forwardTrace => .forwardTrace options draft.maxDepth draft.steps
  | .backtrace => .backtrace options draft.steps
  | .status => .status options

theorem ofArguments_word (c : TraceCommand) (rest : List String) :
    ofArguments (c.word :: rest)
      = settings c rest >>= fun made => (Draft.ofLast made).command c := by
  simp only [← Draft.foldl_set_eq]
  cases c <;> simp [ofArguments, TraceCommand.word, TraceCommand.ofWord?]

end Command

theorem Draft.command_ofLast_eq_ok_iff {c : TraceCommand} {made : List Setting}
    {command : Command} :
    (ofLast made).command c = .ok command
      ↔ ∃ path, lastOf .trace made = some path ∧ Command.ofLast c path made = command := by
  rw [Draft.command]
  cases given : lastOf .trace made with
  | none => simp [ofLast, given]
  | some path =>
    simp only [ofLast, given, Except.ok.injEq, Option.some.injEq, exists_eq_left']
    cases c <;> rfl

section

variable {c : TraceCommand}

/-- Arguments that fall into groups are understood as what the last settings say, if some setting
names a trace. -/
theorem Command.ofArguments_wordsOf_eq_ok_iff (groups : List (Group c)) (command : Command) :
    ofArguments (c.word :: wordsOf groups) = .ok command
      ↔ ∃ path, lastOf .trace (madeBy groups) = some path
        ∧ ofLast c path (madeBy groups) = command := by
  rw [ofArguments_word, settings_wordsOf]
  exact Draft.command_ofLast_eq_ok_iff

theorem lastOf_eq_none_iff {slot : Slot} {made : List Setting} :
    lastOf slot made = none ↔ ∀ setting ∈ made, setting.slot ≠ slot := by
  simp [lastOf, Setting.value?]

theorem exists_lastOf_trace_iff (groups : List (Group c)) :
    (∃ path, lastOf .trace (madeBy groups) = some path)
      ↔ ∃ group ∈ groups, group.setting.slot = .trace := by
  rw [← Option.isSome_iff_exists, ← Option.ne_none_iff_isSome, ne_eq, lastOf_eq_none_iff]
  simp [madeBy]

/-- Arguments are understood just when they fall into groups, one of which names a trace. -/
theorem Command.exists_ofArguments_iff (rest : List String) :
    (∃ command, ofArguments (c.word :: rest) = .ok command)
      ↔ ∃ groups : List (Group c), wordsOf groups = rest
        ∧ ∃ group ∈ groups, group.setting.slot = .trace := by
  constructor
  · intro ⟨command, understood⟩
    cases read : settings c rest with
    | error fault =>
      rw [ofArguments_word, read] at understood
      cases understood
    | ok made =>
      obtain ⟨groups, rfl, -⟩ := exists_groups_of_settings read
      obtain ⟨path, last, -⟩ := (ofArguments_wordsOf_eq_ok_iff groups command).1 understood
      exact ⟨groups, rfl, (exists_lastOf_trace_iff groups).1 ⟨path, last⟩⟩
  · intro ⟨groups, words, traced⟩
    obtain ⟨path, last⟩ := (exists_lastOf_trace_iff groups).2 traced
    exact ⟨_, words ▸ (ofArguments_wordsOf_eq_ok_iff groups _).2 ⟨path, last, rfl⟩⟩

/-- Arguments that are understood as a command on a trace are its word and some groups. -/
theorem Command.exists_groups_of_ofArguments {arguments : List String} {command : Command}
    {o : Options} (understood : ofArguments arguments = .ok command)
    (works : command.options? = some o) :
    ∃ (c : TraceCommand) (groups : List (Group c)), c.word :: wordsOf groups = arguments := by
  fun_cases ofArguments arguments with
  | case1 => cases understood
  -- who asks for the version or for help names no trace
  | case2 word rest version =>
    rw [ofArguments, if_pos version] at understood
    cases understood
    cases works
  | case3 word rest noVersion help =>
    rw [ofArguments, if_neg noVersion, if_pos help] at understood
    cases understood
    cases works
  | case4 word rest noVersion noHelp unknown =>
    rw [ofArguments, if_neg noVersion, if_neg noHelp, unknown] at understood
    cases understood
  | case5 word rest noVersion noHelp c found =>
    obtain rfl : c.word = word := by simpa using List.find?_some found
    obtain ⟨groups, rfl, -⟩ := (exists_ofArguments_iff rest).1 ⟨command, understood⟩
    exact ⟨c, groups, rfl⟩

end

/-! ## Other orders -/

section

variable {c : TraceCommand}

/-- The same groups in another order, in which those of one option stand as they did. -/
def Reorders (groups others : List (Group c)) : Prop :=
  ∀ slot, groups.filter (·.setting.slot = slot) = others.filter (·.setting.slot = slot)

/-- What the last setting of an option says is told by the groups of that option. -/
theorem lastOf_madeBy_filter (slot : Slot) (groups : List (Group c)) :
    lastOf slot (madeBy (groups.filter (·.setting.slot = slot))) = lastOf slot (madeBy groups) := by
  rw [lastOf, lastOf, madeBy, madeBy, List.filterMap_map, List.filterMap_map,
    List.filterMap_filter]
  congr 2
  funext group
  by_cases same : group.setting.slot = slot <;> simp [same, Setting.value?]

variable {groups others : List (Group c)}

theorem Reorders.lastOf_eq (reorders : Reorders groups others) (slot : Slot) :
    lastOf slot (madeBy groups) = lastOf slot (madeBy others) := by
  rw [← lastOf_madeBy_filter, reorders slot, lastOf_madeBy_filter]

/-- Groups in another order are understood alike. -/
theorem Reorders.ofArguments_eq (reorders : Reorders groups others) :
    Command.ofArguments (c.word :: wordsOf groups)
      = Command.ofArguments (c.word :: wordsOf others) := by
  have same : Draft.ofLast (madeBy groups) = Draft.ofLast (madeBy others) := by
    simp only [Draft.ofLast, reorders.lastOf_eq]
  rw [Command.ofArguments_word, Command.ofArguments_word, settings_wordsOf, settings_wordsOf]
  exact congrArg (·.command c) same

end

/-! ## Writing commands as arguments -/

/-- The name of a format. -/
def Format.name : Format → String
  | .human => "human"
  | .json => "json"
  | .pretty => "pretty"

namespace Setting

/-- The words for a setting. -/
def words : Setting → List String
  | .trace path => ["--trace", path]
  | .mode chosen => ["--mode", chosen.name]
  | .preprocessor => ["--preprocessor"]
  | .capacity count => ["--capacity", toString count.toNat]
  | .format chosen => ["--output", chosen.name]
  | .verbose => ["--verbose"]
  | .maxDepth depth => ["--max-depth", toString depth.toNat]
  | .steps count => ["--steps", toString count.toNat]

/-- A command takes a setting. -/
def TakenBy (c : TraceCommand) : Setting → Prop
  | .maxDepth _ => c = .forwardTrace
  | .steps _ => c = .forwardTrace ∨ c = .backtrace
  | _ => True

theorem spells_words {c : TraceCommand} {setting : Setting} (taken : setting.TakenBy c) :
    Spells c setting.words setting := by
  cases setting with
  | trace path => exact .trace path
  | mode chosen => exact .mode (by cases chosen <;> decide +kernel)
  | preprocessor => exact .preprocessor
  | capacity count => exact .capacity (denotes_repr count)
  | format chosen => exact .format (by cases chosen <;> decide +kernel)
  | verbose => exact .verbose
  | maxDepth depth => exact .maxDepth taken (denotes_repr depth)
  | steps count => exact .steps taken (denotes_repr count)

end Setting

/-- The words for some settings are read as these. -/
theorem settings_flatMap_words {c : TraceCommand} {made : List Setting}
    (taken : ∀ setting ∈ made, setting.TakenBy c) :
    settings c (made.flatMap Setting.words) = .ok made := by
  induction made with
  | nil => rfl
  | cons setting made ih =>
    obtain ⟨first, others⟩ := List.forall_mem_cons.1 taken
    let group : Group c := ⟨setting.words, setting, Setting.spells_words first⟩
    rw [List.flatMap_cons, group.settings_append, ih others]
    rfl

namespace Options

/-- Settings that say what the options are. -/
def settings (o : Options) : List Setting :=
  [.trace o.trace, .mode o.config.mode]
    ++ (if o.config.preprocessor then [.preprocessor] else [])
    ++ (o.config.capacity.map Setting.capacity).toList
    ++ [.format o.format]
    ++ (if o.verbose then [.verbose] else [])

theorem takenBy_of_mem_settings {o : Options} (c : TraceCommand) :
    ∀ setting ∈ o.settings, setting.TakenBy c := by
  intro setting member
  cases setting with
  | maxDepth depth => simp [settings] at member
  | steps count => simp [settings] at member
  | _ => trivial

theorem foldl_set_settings {o : Options} (root : o.config.rootName = "<root>") :
    o.settings.foldl Draft.set .blank = ⟨some o.trace, o.config, o.format, o.verbose, none, 0⟩ := by
  obtain ⟨trace, ⟨mode, preprocessor, capacity, rootName⟩, format, verbose⟩ := o
  simp only at root
  subst root
  cases preprocessor <;> cases capacity <;> cases verbose <;> rfl

end Options

namespace Command

/-- Arguments of that command with the options, and with more settings of its own. -/
def written (c : TraceCommand) (o : Options) (more : List Setting) : List String :=
  c.word :: (o.settings ++ more).flatMap Setting.words

/-- Arguments that ask for a command. -/
def arguments : Command → List String
  | .evaluate o => written .evaluate o []
  | .forwardTrace o maxDepth steps =>
      written .forwardTrace o (.steps steps :: (maxDepth.map Setting.maxDepth).toList)
  | .backtrace o steps => written .backtrace o [.steps steps]
  | .status o => written .status o []
  | .help => ["--help"]
  | .version => ["--version"]

theorem ofArguments_written {c : TraceCommand} {o : Options} (root : o.config.rootName = "<root>")
    {more : List Setting} (taken : ∀ setting ∈ more, setting.TakenBy c) :
    ofArguments (written c o more)
      = (more.foldl Draft.set
          ⟨some o.trace, o.config, o.format, o.verbose, none, 0⟩).command c := by
  have takenAll : ∀ setting ∈ o.settings ++ more, setting.TakenBy c :=
    List.forall_mem_append.2 ⟨Options.takenBy_of_mem_settings c, taken⟩
  rw [written, ofArguments_word, settings_flatMap_words takenAll, ← Options.foldl_set_settings root,
    ← List.foldl_append, Draft.foldl_set_eq]
  rfl

/-- A command on a trace whose root frame has the usual name is got back from its arguments. -/
theorem ofArguments_arguments {command : Command} {o : Options} (works : command.options? = some o)
    (root : o.config.rootName = "<root>") : ofArguments command.arguments = .ok command := by
  cases command with
  | evaluate options =>
    obtain rfl := Option.some.inj works
    exact ofArguments_written root (List.forall_mem_nil _)
  | forwardTrace options maxDepth steps =>
    obtain rfl := Option.some.inj works
    have taken : ∀ setting ∈ .steps steps :: (maxDepth.map Setting.maxDepth).toList,
        setting.TakenBy .forwardTrace := by
      simp [Setting.TakenBy]
    rw [arguments, ofArguments_written root taken]
    cases maxDepth <;> rfl
  | backtrace options steps =>
    obtain rfl := Option.some.inj works
    exact ofArguments_written root (List.forall_mem_singleton.2 (.inr rfl))
  | status options =>
    obtain rfl := Option.some.inj works
    exact ofArguments_written root (List.forall_mem_nil _)
  | help => cases works
  | version => cases works

/-- Of the arguments after the word of a command, those are understood that fall into groups, in one
way, of which one names a trace; of each option the last group holds, and a default where there is
none.  Other orders of the groups come to the same as long as those of one option stand as they did,
and a command is got back from its arguments. -/
theorem ofArguments_reads_groups :
    (∀ (c : TraceCommand) (rest : List String),
      (∃ command, ofArguments (c.word :: rest) = .ok command)
        ↔ ∃! groups : List (Group c), wordsOf groups = rest
          ∧ ∃ group ∈ groups, group.setting.slot = .trace)
    ∧ (∀ (c : TraceCommand) (groups : List (Group c)) (command : Command),
      ofArguments (c.word :: wordsOf groups) = .ok command
        ↔ ∃ path, lastOf .trace (madeBy groups) = some path
          ∧ ofLast c path (madeBy groups) = command)
    ∧ (∀ (c : TraceCommand) (groups others : List (Group c)), Reorders groups others →
      ofArguments (c.word :: wordsOf groups) = ofArguments (c.word :: wordsOf others))
    ∧ ∀ (command : Command) (o : Options), command.options? = some o →
      o.config.rootName = "<root>" → ofArguments command.arguments = .ok command := by
  refine ⟨?_, ?_, ?_, ?_⟩
  · intro c rest
    rw [exists_ofArguments_iff]
    constructor
    · rintro ⟨groups, words, traced⟩
      refine ⟨groups, ⟨words, traced⟩, ?_⟩
      rintro others ⟨otherWords, -⟩
      exact wordsOf_injective (otherWords.trans words.symm)
    · exact ExistsUnique.exists
  · intro c groups command
    exact ofArguments_wordsOf_eq_ok_iff groups command
  · intro c groups others reorders
    exact reorders.ofArguments_eq
  · intro command o works root
    exact ofArguments_arguments works root

theorem ofArguments_verbose_status :
    let traced : Group .status := ⟨["--trace", "-v"], .trace "-v", .trace "-v"⟩
    let talking : Group .status := ⟨["-v"], .verbose, .verboseShort⟩
    let options : Options := ⟨"-v", .default, .human, true⟩
    Reorders [traced, talking] [talking, traced]
      ∧ ofArguments ["status", "--trace", "-v", "-v"]
        = ofArguments ["status", "-v", "--trace", "-v"]
      ∧ (status options).options? = some options ∧ options.config.rootName = "<root>"
      ∧ ofArguments (status options).arguments = .ok (status options) := by
  intro traced talking options
  have reorders : Reorders [traced, talking] [talking, traced] := by
    intro slot
    cases slot <;> rfl
  obtain ⟨-, -, reordered, writes⟩ := ofArguments_reads_groups
  exact ⟨reorders, reordered .status _ _ reorders, rfl, rfl,
    writes (status options) options rfl rfl⟩

end Command

end TemplateTrace
