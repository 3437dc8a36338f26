import TemplateTrace.Config
set_option autoImplicit false

/-!
# Command arguments

The arguments of a command are settings, each a word with or without a value, in any order.  Of two
settings of one option the later one holds.  The words of a command are read from left to right,
and the first that cannot be understood is the fault.
-/

namespace TemplateTrace

/-! ## Formats and faults -/

/-- The form in which a command answers. -/
inductive Format where
  | human
  | json
  | pretty
  deriving DecidableEq, Repr

namespace Format

instance : Inhabited Format := ⟨.human⟩

/-- The format a user asks for, in letters of either case. -/
def ofWord? (word : String) : Option Format :=
  let lower := word.toLower
  if lower == "human" || lower == "text" then some .human
  else if lower == "json" then some .json
  else if lower == "pretty" then some .pretty
  else none

/-- Whether a format is one of JSON. -/
def isJson (f : Format) : Bool := f != .human

end Format

/-- Why the arguments of a command cannot be understood. -/
inductive ArgumentFault where
  | missingCommand
  | unknownCommand (word : String)
  /-- a command does not take an argument -/
  | unknownArgument (command word : String)
  /-- nothing follows an argument that takes a value -/
  | missingValue (word : String)
  | invalidMode (value : String)
  | invalidFormat (value : String)
  /-- the value of an argument is not a number -/
  | invalidNumber (word value : String)
  | missingTrace
  deriving DecidableEq, Repr, Inhabited

/-- The wording of a fault. -/
def ArgumentFault.message : ArgumentFault → String
  | .missingCommand => "Missing command"
  | .unknownCommand word => s!"Unknown command: {word}"
  | .unknownArgument command word => s!"Unknown argument for {command}: {word}"
  | .missingValue word => s!"{word} requires an argument"
  | .invalidMode value => s!"Invalid mode '{value}': expected full or minimized"
  | .invalidFormat value => s!"Invalid output format: {value}"
  | .invalidNumber word value => s!"{word} expects a non-negative integer, got '{value}'"
  | .missingTrace => "--trace is required"

/-! ## Commands -/

/-- The commands that work on a trace. -/
inductive TraceCommand where
  | evaluate
  | forwardTrace
  | backtrace
  | status
  deriving DecidableEq, Repr, Inhabited

namespace TraceCommand

/-- The word of a command. -/
def word : TraceCommand → String
  | .evaluate => "evaluate"
  | .forwardTrace => "forwardtrace"
  | .backtrace => "backtrace"
  | .status => "status"

/-- The command of that word. -/
def ofWord? (word : String) : Option TraceCommand :=
  [evaluate, forwardTrace, backtrace, status].find? fun c => c.word == word

/-- Whether a command takes a depth limit. -/
def takesDepth (c : TraceCommand) : Bool := c == .forwardTrace

/-- Whether a command takes a number of steps. -/
def takesSteps (c : TraceCommand) : Bool := c == .forwardTrace || c == .backtrace

end TraceCommand

/-- What a command on a trace works with. -/
structure Options where
  trace : String
  config : Config
  format : Format
  verbose : Bool
  deriving DecidableEq, Repr, Inhabited

/-- What the program is asked to do. -/
inductive Command where
  | evaluate (options : Options)
  | forwardTrace (options : Options) (maxDepth : Option UInt64) (steps : UInt64)
  | backtrace (options : Options) (steps : UInt64)
  | status (options : Options)
  | help
  | version
  deriving DecidableEq, Repr, Inhabited

/-- The options of a command on a trace. -/
def Command.options? : Command → Option Options
  | .evaluate options | .forwardTrace options _ _ | .backtrace options _ | .status options =>
      some options
  | .help | .version => none

/-! ## Settings -/

/-- What one argument, with its value, sets. -/
inductive Setting where
  | trace (path : String)
  | mode (mode : Mode)
  | preprocessor
  | capacity (count : UInt64)
  | format (format : Format)
  | verbose
  | maxDepth (depth : UInt64)
  | steps (count : UInt64)
  deriving DecidableEq, Repr, Inhabited

/-- How the value of an argument is read. -/
inductive Flag where
  /-- the argument takes no value -/
  | plain (setting : Setting)
  | valued (read : String → Except ArgumentFault Setting)

namespace Flag

/-- The digits of a number from the left, on from what came before; `none` if some character is no
decimal digit. -/
def digits? (value : Nat) : List Char → Option Nat
  | [] => some value
  | c :: rest =>
      if '0' ≤ c ∧ c ≤ '9' then digits? (10 * value + (c.toNat - '0'.toNat)) rest else none

/-- A number of 64 bits in decimal digits, which a plus sign may precede. -/
def number? (text : String) : Option UInt64 := do
  let digits := match text.toList with
    | '+' :: rest => rest
    | all => all
  if digits.isEmpty then none
  else
    let n ← digits? 0 digits
    if n < UInt64.size then some (.ofNat n) else none

/-- An argument that takes a number. -/
def numbered (word : String) (setting : UInt64 → Setting) : Flag :=
  .valued fun value =>
    match number? value with
    | some n => .ok (setting n)
    | none => .error (.invalidNumber word value)

/-- The arguments of a command. -/
def ofWord? (c : TraceCommand) (word : String) : Option Flag :=
  match word with
  | "--trace" => some (.valued fun value => .ok (.trace value))
  | "--mode" => some (.valued fun value =>
      match Mode.ofWord? value with
      | some mode => .ok (.mode mode)
      | none => .error (.invalidMode value))
  | "--preprocessor" => some (.plain .preprocessor)
  | "--capacity" => some (numbered word .capacity)
  | "--output" => some (.valued fun value =>
      match Format.ofWord? value with
      | some format => .ok (.format format)
      | none => .error (.invalidFormat value))
  | "--verbose" | "-v" => some (.plain .verbose)
  | "--max-depth" => if c.takesDepth then some (numbered word .maxDepth) else none
  | "--steps" => if c.takesSteps then some (numbered word .steps) else none
  | _ => none

end Flag

/-- The settings that the arguments of a command make. -/
def settings (c : TraceCommand) : List String → Except ArgumentFault (List Setting)
  | [] => .ok []
  | word :: rest =>
      match Flag.ofWord? c word with
      | none => .error (.unknownArgument c.word word)
      | some (.plain setting) => do return setting :: (← settings c rest)
      | some (.valued read) =>
          match rest with
          | [] => .error (.missingValue word)
          | value :: rest => do
              let setting ← read value
              return setting :: (← settings c rest)

/-! ## What the settings come to -/

/-- What some settings come to. -/
structure Draft where
  trace : Option String
  config : Config
  format : Format
  verbose : Bool
  maxDepth : Option UInt64
  steps : UInt64
  deriving DecidableEq, Repr, Inhabited

namespace Draft

/-- What no setting comes to. -/
def blank : Draft := ⟨none, .default, .human, false, none, 0⟩

/-- What one more setting changes. -/
def set (d : Draft) : Setting → Draft
  | .trace path => { d with trace := some path }
  | .mode mode => { d with config := { d.config with mode } }
  | .preprocessor => { d with config := { d.config with preprocessor := true } }
  | .capacity count => { d with config := { d.config with capacity := some count } }
  | .format format => { d with format }
  | .verbose => { d with verbose := true }
  | .maxDepth depth => { d with maxDepth := some depth }
  | .steps count => { d with steps := count }

/-- The command of that word with these settings; each works on some trace. -/
def command (c : TraceCommand) (d : Draft) : Except ArgumentFault Command :=
  match d.trace with
  | none => .error .missingTrace
  | some trace =>
      let options : Options := ⟨trace, d.config, d.format, d.verbose⟩
      .ok <| match c with
        | .evaluate => .evaluate options
        | .forwardTrace => .forwardTrace options d.maxDepth d.steps
        | .backtrace => .backtrace options d.steps
        | .status => .status options

end Draft

namespace Command

/-- The command that the arguments of the program ask for. -/
def ofArguments : List String → Except ArgumentFault Command
  | [] => .error .missingCommand
  | word :: rest =>
      if word == "--version" || word == "-V" then .ok .version
      else if word == "--help" || word == "-h" then .ok .help
      else match TraceCommand.ofWord? word with
        | none => .error (.unknownCommand word)
        | some c => do
            let made ← settings c rest
            (made.foldl Draft.set Draft.blank).command c

/-- The format in which a failure is reported: what follows the first `--output` names it, wherever
that word stands. -/
def reportFormat (arguments : List String) : Format :=
  match arguments.dropWhile (· != "--output") with
  | _ :: value :: _ => (Format.ofWord? value).getD .human
  | _ => .human

/-- Whether a command tells more about what it does. -/
def isVerbose (c : Command) : Bool :=
  c.options?.any Options.verbose

end Command

end TemplateTrace
