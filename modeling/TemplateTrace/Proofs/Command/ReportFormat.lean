import TemplateTrace.Proofs.Command.Settings
set_option autoImplicit false

/-!
# The format of failure reports

A failure is reported in the format that the first word `--output` is followed by, be that word a
setting of the format or the path of a trace (`Command.reportFormat_wordsOf`), while a command
answers in the format of the last setting (`Command.format_eq_of_ofArguments`).  The two differ on
arguments that are understood; `Command.reportFormat_takes_first` says when they do not.
-/

namespace TemplateTrace

/-! ## Which words are `--output` -/

/-- The format that a setting makes failures be reported in, if its words have the word
`--output`. -/
def Setting.reported? : Setting → Option Format
  | .format chosen => some chosen
  | .trace path => if path = "--output" then some .human else none
  | _ => none

theorem not_denotes_output (n : UInt64) : ¬ Denotes "--output" n := by
  rw [← Flag.number?_eq_some_iff]
  simp [Flag.number?, Flag.digits?]

namespace Spells

variable {c : TraceCommand} {words : List String} {setting : Setting}

/-- The words of other settings are no `--output`. -/
theorem output_not_mem (spells : Spells c words setting) (silent : setting.reported? = none) :
    "--output" ∉ words := by
  intro member
  cases spells with
  | trace path => simp_all [Setting.reported?]
  | @mode word chosen spelling =>
    obtain rfl : "--output" = word := by simpa using member
    rw [← Mode.ofWord?_eq_some_iff] at spelling
    exact absurd spelling (by cases chosen <;> decide +kernel)
  | @capacity text n number =>
    obtain rfl : "--output" = text := by simpa using member
    exact not_denotes_output n number
  | format spelling => cases silent
  | @maxDepth text n taken number =>
    obtain rfl : "--output" = text := by simpa using member
    exact not_denotes_output n number
  | @steps text n taken number =>
    obtain rfl : "--output" = text := by simpa using member
    exact not_denotes_output n number
  | _ => simp at member

/-- The first word of a group is no format. -/
theorem ofWord?_head (spells : Spells c words setting) :
    words.head?.bind Format.ofWord? = none := by
  cases spells
  all_goals
    rw [List.head?_cons, Option.bind_some]
    decide +kernel

end Spells

/-! ## The first format -/

namespace Command

theorem reportFormat_append {words : List String} (absent : "--output" ∉ words)
    (rest : List String) : reportFormat (words ++ rest) = reportFormat rest := by
  have passed : ∀ word ∈ words, (word != "--output") = true := by
    intro word member
    simpa using ne_of_mem_of_not_mem member absent
  rw [reportFormat, reportFormat, List.dropWhile_append_of_pos passed]

theorem reportFormat_output (rest : List String) :
    reportFormat ("--output" :: rest) = (rest.head?.bind Format.ofWord?).getD .human := by
  cases rest <;> rfl

end Command

section

variable {c : TraceCommand}

theorem ofWord?_head_wordsOf (groups : List (Group c)) :
    (wordsOf groups).head?.bind Format.ofWord? = none := by
  cases groups with
  | nil => rfl
  | cons group groups =>
    obtain ⟨word, values, words, -⟩ := group.spells.length_eq
    have head := group.spells.ofWord?_head
    rw [words] at head
    rw [wordsOf_cons, words]
    exact head

/-- A group with the word `--output` in front of others says how failures are reported. -/
theorem Group.reportFormat_append {group : Group c} {format : Format}
    (reports : group.setting.reported? = some format) (groups : List (Group c)) :
    Command.reportFormat (group.words ++ wordsOf groups) = format := by
  obtain ⟨words, setting, spells⟩ := group
  cases spells with
  | trace path =>
    obtain ⟨rfl, human⟩ := Option.ite_none_right_eq_some.1 reports
    obtain rfl := Option.some.inj human
    have absent : "--output" ∉ ["--trace"] := by decide
    -- the path is taken for the word, and the next word, if any, starts a group
    have scanned := Command.reportFormat_output (wordsOf groups)
    rw [ofWord?_head_wordsOf] at scanned
    exact (Command.reportFormat_append absent _).trans scanned
  | @format word chosen spelling =>
    obtain rfl := Option.some.inj reports
    rw [← Format.ofWord?_eq_some_iff] at spelling
    have scanned := Command.reportFormat_output (word :: wordsOf groups)
    rwa [List.head?_cons, Option.bind_some, spelling] at scanned
  | _ => cases reports

/-- Failures are reported in the format of the first setting with the word `--output`. -/
theorem Command.reportFormat_wordsOf (groups : List (Group c)) :
    reportFormat (wordsOf groups)
      = ((madeBy groups).findSome? Setting.reported?).getD .human := by
  induction groups with
  | nil => rfl
  | cons group groups ih =>
    rw [wordsOf_cons, madeBy, List.map_cons, List.findSome?_cons]
    cases reports : group.setting.reported? with
    | none =>
      rw [reportFormat_append (group.spells.output_not_mem reports), ih]
      rfl
    | some format => exact Group.reportFormat_append reports groups

theorem Command.reportFormat_word (groups : List (Group c)) :
    reportFormat (c.word :: wordsOf groups)
      = ((madeBy groups).findSome? Setting.reported?).getD .human := by
  have absent : "--output" ∉ [c.word] := by cases c <;> decide
  rw [← reportFormat_wordsOf]
  exact reportFormat_append absent _

/-- The path of a trace is taken for the word. -/
example : Command.reportFormat ["status", "--trace", "--output", "--output", "json"] = .human := by
  decide +kernel

/-- A command answers in the format of the last setting of it. -/
theorem Command.format_eq_of_ofArguments {groups : List (Group c)} {command : Command} {o : Options}
    (understood : ofArguments (c.word :: wordsOf groups) = .ok command)
    (works : command.options? = some o) :
    o.format = (lastOf .format (madeBy groups)).getD .human := by
  obtain ⟨path, -, rfl⟩ := (ofArguments_wordsOf_eq_ok_iff groups command).1 understood
  cases c <;> exact congrArg Options.format (Option.some.inj works).symm

end

/-! ## Where the first format is the last -/

theorem head?_eq_getLast?_of_forall {α : Type} {all : List α} (same : ∀ a ∈ all, ∀ b ∈ all, a = b) :
    all.head? = all.getLast? := by
  cases all with
  | nil => rfl
  | cons a rest =>
    rw [List.head?_cons, List.getLast?_eq_some_getLast (List.cons_ne_nil a rest)]
    exact congrArg some (same a List.mem_cons_self _ (List.getLast_mem _))

/-- Some settings name one format at most, and no trace at the path `--output`. -/
structure NamesOneFormat (made : List Setting) : Prop where
  noPath : .trace "--output" ∉ made
  same : ∀ chosen other : Format, .format chosen ∈ made → .format other ∈ made → chosen = other

theorem Setting.reported?_eq_value? {setting : Setting} (noPath : setting ≠ .trace "--output") :
    setting.reported? = setting.value? .format := by
  cases setting with
  | trace path =>
    have other : path ≠ "--output" := by
      rintro rfl
      exact noPath rfl
    exact if_neg other
  | _ => rfl

theorem Setting.value?_format_eq_some_iff {setting : Setting} {chosen : Format} :
    setting.value? .format = some chosen ↔ setting = .format chosen := by
  cases setting <;> simp [Setting.value?, Setting.slot, Setting.value]

theorem NamesOneFormat.findSome?_eq {made : List Setting} (names : NamesOneFormat made) :
    made.findSome? Setting.reported? = lastOf .format made := by
  have reads : made.filterMap Setting.reported? = made.filterMap (Setting.value? .format) := by
    refine List.filterMap_congr ?_
    intro setting member
    exact Setting.reported?_eq_value? (ne_of_mem_of_not_mem member names.noPath)
  rw [← List.head?_filterMap, reads, lastOf]
  refine head?_eq_getLast?_of_forall ?_
  intro chosen member other otherMember
  obtain ⟨setting, made, said⟩ := List.mem_filterMap.1 member
  obtain ⟨otherSetting, otherMade, otherSaid⟩ := List.mem_filterMap.1 otherMember
  rw [Setting.value?_format_eq_some_iff] at said otherSaid
  subst said otherSaid
  exact names.same chosen other made otherMade

namespace Command

/-- Failures of a command on a trace are reported in the format that it answers in. -/
def ReportsAsAnswers (arguments : List String) : Prop :=
  ∀ command o, ofArguments arguments = .ok command → command.options? = some o →
    reportFormat arguments = o.format

/-- Of arguments that are understood as a command on a trace, the first setting with the word
`--output` says in which format failures are reported, and the last setting of the format says in
which one the command answers.  The two are the same where one format at most is named and no trace
is at the path `--output`. -/
theorem reportFormat_takes_first {arguments : List String} {command : Command} {o : Options}
    (understood : ofArguments arguments = .ok command) (works : command.options? = some o) :
    ∃ (c : TraceCommand) (groups : List (Group c)), c.word :: wordsOf groups = arguments
      ∧ reportFormat arguments = ((madeBy groups).findSome? Setting.reported?).getD .human
      ∧ o.format = (lastOf .format (madeBy groups)).getD .human
      ∧ (NamesOneFormat (madeBy groups) → ReportsAsAnswers arguments) := by
  obtain ⟨c, groups, rfl⟩ := exists_groups_of_ofArguments understood works
  refine ⟨c, groups, rfl, reportFormat_word groups, format_eq_of_ofArguments understood works, ?_⟩
  intro names other options understood works
  rw [reportFormat_word, names.findSome?_eq, format_eq_of_ofArguments understood works]

theorem reportFormat_takes_first_repeated :
    let arguments :=
      ["evaluate", "--trace", "missing.jsonl", "--output", "json", "--output", "human"]
    let options : Options := ⟨"missing.jsonl", .default, .human, false⟩
    ofArguments arguments = .ok (.evaluate options) ∧ (evaluate options).options? = some options
      ∧ ∃ (c : TraceCommand) (groups : List (Group c)), c.word :: wordsOf groups = arguments
        ∧ reportFormat arguments = ((madeBy groups).findSome? Setting.reported?).getD .human
        ∧ options.format = (lastOf .format (madeBy groups)).getD .human
        ∧ (NamesOneFormat (madeBy groups) → ReportsAsAnswers arguments) := by
  intro arguments options
  have understood : ofArguments arguments = .ok (.evaluate options) := by decide +kernel
  exact ⟨understood, rfl, reportFormat_takes_first understood rfl⟩

/-- With two formats the first one is reported in, and the second one answered in. -/
theorem not_reportsAsAnswers_repeated :
    ¬ ReportsAsAnswers
      ["evaluate", "--trace", "missing.jsonl", "--output", "json", "--output", "human"] := by
  intro agrees
  have understood :
      ofArguments ["evaluate", "--trace", "missing.jsonl", "--output", "json", "--output", "human"]
        = .ok (.evaluate ⟨"missing.jsonl", .default, .human, false⟩) := by
    decide +kernel
  exact absurd (agrees _ _ understood rfl) (by decide +kernel)

end Command

end TemplateTrace
