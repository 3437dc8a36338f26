import TemplateTrace.Command.Arguments
import Mathlib.Data.List.Basic
set_option autoImplicit false

/-!
# The grammar of arguments

The arguments of a command are groups of words, one group for each setting: `Spells` tells which
words spell which setting, with no word about how they are read.  Reading accepts the arguments that
fall into groups and no others (`settings_eq_ok_iff`), and they fall into groups in one way only
(`wordsOf_injective`).
-/

namespace TemplateTrace

/-! ## Spellings of values -/

/-- The words for a mode, in small letters. -/
def Mode.spellings : Mode → List String
  | .full => ["full"]
  | .minimized => ["minimized", "min", "normal"]

theorem Mode.ofWord?_eq_some_iff (word : String) (mode : Mode) :
    Mode.ofWord? word = some mode ↔ word.toLower ∈ mode.spellings := by
  unfold Mode.ofWord?
  cases mode <;> grind [Mode.spellings]

/-- The words for a format, in small letters. -/
def Format.spellings : Format → List String
  | .human => ["human", "text"]
  | .json => ["json"]
  | .pretty => ["pretty"]

theorem Format.ofWord?_eq_some_iff (word : String) (format : Format) :
    Format.ofWord? word = some format ↔ word.toLower ∈ format.spellings := by
  unfold Format.ofWord?
  cases format <;> grind [Format.spellings]

/-- A text stands for a number of 64 bits: some decimal digits, which a plus sign may precede. -/
def Denotes (text : String) (n : UInt64) : Prop :=
  ∃ digits, (text.toList = digits ∨ text.toList = '+' :: digits) ∧ digits ≠ []
    ∧ (∀ c ∈ digits, c.isDigit = true) ∧ Nat.ofDigitChars 10 digits 0 = n.toNat

namespace Flag

theorem digits?_eq_some_iff (value n : Nat) (cs : List Char) :
    digits? value cs = some n
      ↔ (∀ c ∈ cs, c.isDigit = true) ∧ Nat.ofDigitChars 10 cs value = n := by
  induction cs generalizing value with
  | nil => simp [digits?]
  | cons c cs ih =>
    have digit : ('0' ≤ c ∧ c ≤ '9') ↔ c.isDigit = true := by
      simp [Char.isDigit, Char.le_def]
    rw [digits?, List.forall_mem_cons, Nat.ofDigitChars_cons, and_assoc]
    by_cases isDigit : c.isDigit = true
    · rw [if_pos (digit.2 isDigit), ih, and_iff_right isDigit]
    · rw [if_neg (mt digit.1 isDigit)]
      simp [isDigit]

/-- A text without the plus sign that it may start with. -/
def unsigned : List Char → List Char
  | '+' :: rest => rest
  | all => all

theorem number?_eq (text : String) :
    number? text = if unsigned text.toList = [] then none
      else (digits? 0 (unsigned text.toList)).bind fun n =>
        if n < UInt64.size then some (.ofNat n) else none := by
  simp only [← List.isEmpty_iff]
  rfl

/-- The digits of a number are what is left of its text without the plus sign. -/
theorem exists_digits_iff {cs : List Char} {reads : List Char → Prop}
    (digits : ∀ ds, reads ds → ∀ c ∈ ds, c.isDigit = true) :
    (∃ ds, (cs = ds ∨ cs = '+' :: ds) ∧ reads ds) ↔ reads (unsigned cs) := by
  unfold unsigned
  split
  · next rest =>
    constructor
    · rintro ⟨ds, rfl | same, holds⟩
      · exact absurd (digits _ holds '+' List.mem_cons_self) (by decide)
      · rwa [(List.cons.inj same).2]
    · intro holds
      exact ⟨rest, .inr rfl, holds⟩
  · next plain =>
    constructor
    · rintro ⟨ds, rfl | same, holds⟩
      · exact holds
      · exact absurd same (plain ds)
    · intro holds
      exact ⟨_, .inl rfl, holds⟩

theorem number?_eq_some_iff (text : String) (n : UInt64) :
    number? text = some n ↔ Denotes text n := by
  have fits (m : Nat) : (m < UInt64.size ∧ UInt64.ofNat m = n) ↔ m = n.toNat := by
    constructor
    · rintro ⟨small, rfl⟩
      exact (UInt64.toNat_ofNat_of_lt small).symm
    · rintro rfl
      exact ⟨n.toNat_lt, UInt64.ofNat_toNat⟩
  rw [Denotes, exists_digits_iff fun _ holds => holds.2.1, number?_eq]
  simp only [Option.ite_none_left_eq_some, Option.bind_eq_some_iff, Option.ite_none_right_eq_some,
    Option.some.injEq, fits, digits?_eq_some_iff, exists_eq_right, ne_eq]

end Flag

/-- A number is written in decimal digits. -/
theorem denotes_repr (n : UInt64) : Denotes (toString n.toNat) n := by
  have text : (toString n.toNat).toList = Nat.toDigits 10 n.toNat := Nat.toList_repr
  refine ⟨Nat.toDigits 10 n.toNat, .inl text, Nat.toDigits_ne_nil, ?_,
    Nat.ofDigitChars_ten_toDigits⟩
  intro c member
  exact Nat.isDigit_of_mem_toDigits (by decide) (by decide) member

/-! ## Groups -/

/-- Some words of the arguments of a command spell a setting. -/
inductive Spells (c : TraceCommand) : List String → Setting → Prop
  | trace (path : String) : Spells c ["--trace", path] (.trace path)
  | mode {word : String} {mode : Mode} (spelling : word.toLower ∈ mode.spellings) :
      Spells c ["--mode", word] (.mode mode)
  | preprocessor : Spells c ["--preprocessor"] .preprocessor
  | capacity {text : String} {n : UInt64} (number : Denotes text n) :
      Spells c ["--capacity", text] (.capacity n)
  | format {word : String} {format : Format} (spelling : word.toLower ∈ format.spellings) :
      Spells c ["--output", word] (.format format)
  | verbose : Spells c ["--verbose"] .verbose
  | verboseShort : Spells c ["-v"] .verbose
  | maxDepth {text : String} {n : UInt64} (taken : c = .forwardTrace) (number : Denotes text n) :
      Spells c ["--max-depth", text] (.maxDepth n)
  | steps {text : String} {n : UInt64} (taken : c = .forwardTrace ∨ c = .backtrace)
      (number : Denotes text n) : Spells c ["--steps", text] (.steps n)

/-- Some words of the arguments of a command, with the setting that they spell. -/
structure Group (c : TraceCommand) where
  words : List String
  setting : Setting
  spells : Spells c words setting

namespace Spells

variable {c : TraceCommand} {words rest : List String} {setting : Setting}

/-- How many words a group has is told by the first one. -/
theorem length_eq (spells : Spells c words setting) : ∃ word values, words = word :: values
    ∧ values.length = if word ∈ ["--preprocessor", "--verbose", "-v"] then 0 else 1 := by
  cases spells <;> exact ⟨_, _, rfl, by simp⟩

/-- A word without a value is a group. -/
theorem of_plain {word : String} (found : Flag.ofWord? c word = some (.plain setting)) :
    Spells c [word] setting := by
  unfold Flag.ofWord? at found
  split at found <;> simp [Flag.numbered] at found
  · exact found ▸ .preprocessor
  · exact found ▸ .verbose
  · exact found ▸ .verboseShort

theorem exists_denotes_of_numbered {word value : String} {setting : UInt64 → Setting}
    {read : String → Except ArgumentFault Setting} {made : Setting}
    (numbered : Flag.numbered word setting = .valued read) (reads : read value = .ok made) :
    ∃ n, Denotes value n ∧ setting n = made := by
  obtain rfl := Flag.valued.inj numbered
  cases number : Flag.number? value with
  | none => simp [number] at reads
  | some n =>
    simp only [number, Except.ok.injEq] at reads
    exact ⟨n, (Flag.number?_eq_some_iff _ _).1 number, reads⟩

/-- A word with a value that is read is a group. -/
theorem of_valued {word value : String} {read : String → Except ArgumentFault Setting}
    (found : Flag.ofWord? c word = some (.valued read)) (reads : read value = .ok setting) :
    Spells c [word, value] setting := by
  unfold Flag.ofWord? at found
  split at found
  · obtain rfl := Flag.valued.inj (Option.some.inj found)
    obtain rfl := Except.ok.inj reads
    exact .trace value
  · obtain rfl := Flag.valued.inj (Option.some.inj found)
    cases spelled : Mode.ofWord? value with
    | none => simp [spelled] at reads
    | some mode =>
      simp only [spelled, Except.ok.injEq] at reads
      exact reads ▸ .mode ((Mode.ofWord?_eq_some_iff _ _).1 spelled)
  · cases found
  · obtain ⟨n, number, rfl⟩ := exists_denotes_of_numbered (Option.some.inj found) reads
    exact .capacity number
  · obtain rfl := Flag.valued.inj (Option.some.inj found)
    cases spelled : Format.ofWord? value with
    | none => simp [spelled] at reads
    | some format =>
      simp only [spelled, Except.ok.injEq] at reads
      exact reads ▸ .format ((Format.ofWord?_eq_some_iff _ _).1 spelled)
  · cases found
  · cases found
  · obtain ⟨taken, same⟩ := Option.ite_none_right_eq_some.1 found
    obtain ⟨n, number, rfl⟩ := exists_denotes_of_numbered (Option.some.inj same) reads
    exact .maxDepth (by simpa [TraceCommand.takesDepth] using taken) number
  · obtain ⟨taken, same⟩ := Option.ite_none_right_eq_some.1 found
    obtain ⟨n, number, rfl⟩ := exists_denotes_of_numbered (Option.some.inj same) reads
    exact .steps (by simpa [TraceCommand.takesSteps] using taken) number
  · cases found

/-- A group is a word without a value, or a word with a value that is read. -/
theorem flag (spells : Spells c words setting) :
    (∃ word, words = [word] ∧ Flag.ofWord? c word = some (.plain setting))
      ∨ ∃ word value read, words = [word, value] ∧ Flag.ofWord? c word = some (.valued read)
        ∧ read value = .ok setting := by
  cases spells with
  | trace path => exact .inr ⟨_, _, _, rfl, rfl, rfl⟩
  | mode spelling =>
    refine .inr ⟨_, _, _, rfl, rfl, ?_⟩
    simp only [(Mode.ofWord?_eq_some_iff _ _).2 spelling]
  | preprocessor => exact .inl ⟨_, rfl, rfl⟩
  | capacity number =>
    refine .inr ⟨_, _, _, rfl, rfl, ?_⟩
    simp only [(Flag.number?_eq_some_iff _ _).2 number]
  | format spelling =>
    refine .inr ⟨_, _, _, rfl, rfl, ?_⟩
    simp only [(Format.ofWord?_eq_some_iff _ _).2 spelling]
  | verbose => exact .inl ⟨_, rfl, rfl⟩
  | verboseShort => exact .inl ⟨_, rfl, rfl⟩
  | maxDepth taken number =>
    subst taken
    refine .inr ⟨_, _, _, rfl, rfl, ?_⟩
    simp only [(Flag.number?_eq_some_iff _ _).2 number]
  | steps taken number =>
    rcases taken with rfl | rfl
    all_goals
      refine .inr ⟨_, _, _, rfl, rfl, ?_⟩
      simp only [(Flag.number?_eq_some_iff _ _).2 number]

end Spells

/-! ## Reading groups -/

section

variable {c : TraceCommand}

theorem settings_of_plain {word : String} {setting : Setting}
    (found : Flag.ofWord? c word = some (.plain setting)) (rest : List String) :
    settings c (word :: rest) = (settings c rest).map (setting :: ·) := by
  rw [settings, found]
  rfl

theorem settings_of_valued {word value : String} {setting : Setting}
    {read : String → Except ArgumentFault Setting}
    (found : Flag.ofWord? c word = some (.valued read)) (reads : read value = .ok setting)
    (rest : List String) :
    settings c (word :: value :: rest) = (settings c rest).map (setting :: ·) := by
  simp only [settings, found, reads]
  rfl

/-- A group in front is read as its setting, whatever follows. -/
theorem Group.settings_append (group : Group c) (rest : List String) :
    settings c (group.words ++ rest) = (settings c rest).map (group.setting :: ·) := by
  obtain ⟨words, setting, spells⟩ := group
  rcases spells.flag with ⟨word, rfl, found⟩ | ⟨word, value, read, rfl, found, reads⟩
  · exact settings_of_plain found rest
  · exact settings_of_valued found reads rest

/-- The words of some groups, one after the other. -/
def wordsOf (groups : List (Group c)) : List String := groups.flatMap Group.words

/-- The settings of some groups. -/
def madeBy (groups : List (Group c)) : List Setting := groups.map Group.setting

theorem settings_wordsOf (groups : List (Group c)) :
    settings c (wordsOf groups) = .ok (madeBy groups) := by
  induction groups with
  | nil => rfl
  | cons group groups ih =>
    rw [wordsOf, List.flatMap_cons, group.settings_append]
    exact congrArg (Except.map _) ih

theorem exists_of_settings_cons {setting : Setting} {rest : List String} {made : List Setting}
    (read : (settings c rest >>= fun more => pure (setting :: more)) = Except.ok made) :
    ∃ more, settings c rest = .ok more ∧ setting :: more = made := by
  cases readRest : settings c rest with
  | error fault =>
    rw [readRest] at read
    cases read
  | ok more =>
    rw [readRest] at read
    exact ⟨more, rfl, Except.ok.inj read⟩

/-- Arguments that are read fall into groups, one for each setting. -/
theorem exists_groups_of_settings {args : List String} {made : List Setting}
    (read : settings c args = .ok made) :
    ∃ groups : List (Group c), wordsOf groups = args ∧ madeBy groups = made := by
  fun_induction settings c args generalizing made with
  | case1 => exact ⟨[], rfl, Except.ok.inj read⟩
  | case2 word rest unknown => cases read
  | case3 word rest setting found ih =>
    obtain ⟨more, readRest, rfl⟩ := exists_of_settings_cons read
    obtain ⟨groups, rfl, rfl⟩ := ih readRest
    exact ⟨⟨[word], setting, .of_plain found⟩ :: groups, rfl, rfl⟩
  | case4 word found => cases read
  | case5 word reads found value rest ih =>
    cases made' : reads value with
    | error fault =>
      rw [made'] at read
      cases read
    | ok setting =>
      rw [made'] at read
      obtain ⟨more, readRest, rfl⟩ := exists_of_settings_cons read
      obtain ⟨groups, rfl, rfl⟩ := ih readRest
      exact ⟨⟨[word, value], setting, .of_valued found made'⟩ :: groups, rfl, rfl⟩

/-- Arguments are read as some settings just when they fall into groups of these. -/
theorem settings_eq_ok_iff {args : List String} {made : List Setting} :
    settings c args = .ok made
      ↔ ∃ groups : List (Group c), wordsOf groups = args ∧ madeBy groups = made := by
  refine ⟨exists_groups_of_settings, ?_⟩
  rintro ⟨groups, rfl, rfl⟩
  exact settings_wordsOf groups

/-! ## One way to fall into groups -/

/-- The words of a group in front of others are told from those that follow. -/
theorem Group.words_append_inj {group other : Group c} {rest otherRest : List String}
    (same : group.words ++ rest = other.words ++ otherRest) :
    group = other ∧ rest = otherRest := by
  obtain ⟨word, values, words, count⟩ := group.spells.length_eq
  obtain ⟨otherWord, otherValues, otherWords, otherCount⟩ := other.spells.length_eq
  have first : word = otherWord := by
    rw [words, otherWords] at same
    exact (List.cons.inj same).1
  subst first
  have length : group.words.length = other.words.length := by
    rw [words, otherWords, List.length_cons, List.length_cons, count, otherCount]
  obtain ⟨sameWords, sameRest⟩ := List.append_inj same length
  -- the setting of a group is what its words are read as
  have reads := group.settings_append []
  rw [sameWords, other.settings_append []] at reads
  obtain ⟨setting, -⟩ := List.cons.inj (Except.ok.inj reads)
  refine ⟨?_, sameRest⟩
  cases group
  cases other
  simp only at sameWords setting
  subst sameWords
  subst setting
  rfl

theorem wordsOf_cons (group : Group c) (groups : List (Group c)) :
    wordsOf (group :: groups) = group.words ++ wordsOf groups :=
  List.flatMap_cons

theorem wordsOf_cons_ne_nil (group : Group c) (groups : List (Group c)) :
    wordsOf (group :: groups) ≠ [] := by
  obtain ⟨word, values, words, -⟩ := group.spells.length_eq
  rw [wordsOf_cons, words]
  exact List.cons_ne_nil _ _

/-- Arguments fall into groups in one way at most. -/
theorem wordsOf_injective : Function.Injective fun groups : List (Group c) => wordsOf groups := by
  intro groups others same
  simp only at same
  induction groups generalizing others with
  | nil =>
    cases others with
    | nil => rfl
    | cons other others => exact absurd same.symm (wordsOf_cons_ne_nil other others)
  | cons group groups ih =>
    cases others with
    | nil => exact absurd same (wordsOf_cons_ne_nil group groups)
    | cons other others =>
      rw [wordsOf_cons, wordsOf_cons] at same
      obtain ⟨rfl, rest⟩ := Group.words_append_inj same
      rw [ih rest]

end

end TemplateTrace
