import TemplateTrace.Event.Codec
import TemplateTrace.Text.Line
set_option autoImplicit false

/-!
# Traces

A trace is a text with an event on each line.  Blank lines and lines that start with `#` say
nothing.  A line that gives no event does not keep the later ones from being read; `items_append`
says that lines are read each on its own.

Files that cannot be opened or read are faulted in the words and numbers of the operating system.
-/

namespace TemplateTrace

/-! ## Faults of files -/

/-- Why a file cannot be opened or read. -/
inductive FileFault where
  | notFound
  | permissionDenied
  | notPermitted
  | notADirectory
  | isADirectory
  | nameTooLong
  /-- any other fault the system reports, with its number -/
  | system (text : String) (number : Nat)
  /-- a file name holds a character that no file name can hold -/
  | nameWithNul
  /-- the bytes of a line are not UTF-8 -/
  | notUtf8
  deriving DecidableEq, Repr, Inhabited

namespace FileFault

/-- The fault that the system reports with a number and a text. -/
def ofNumber (number : Nat) (text : String) : FileFault :=
  match number with
  | 1 => .notPermitted
  | 2 => .notFound
  | 13 => .permissionDenied
  | 20 => .notADirectory
  | 21 => .isADirectory
  | 36 => .nameTooLong
  | _ => .system text number

/-- The wording of a fault that the system reports. -/
def systemMessage (text : String) (number : Nat) : String :=
  s!"{text} (os error {number})"

/-- The wording of a fault. -/
def message : FileFault → String
  | .notFound => systemMessage "No such file or directory" 2
  | .permissionDenied => systemMessage "Permission denied" 13
  | .notPermitted => systemMessage "Operation not permitted" 1
  | .notADirectory => systemMessage "Not a directory" 20
  | .isADirectory => systemMessage "Is a directory" 21
  | .nameTooLong => systemMessage "File name too long" 36
  | .system text number => systemMessage text number
  | .nameWithNul => "file name contained an unexpected NUL byte"
  | .notUtf8 => "stream did not contain valid UTF-8"

end FileFault

/-! ## Faults -/

/-- Why a trace does not give its next event. -/
inductive TraceFault where
  /-- the file of that path does not open -/
  | unopened (path : String) (source : FileFault)
  /-- a line cannot be read as text -/
  | unreadable (line : Nat) (source : FileFault)
  /-- a line is not an event -/
  | malformed (line : Nat) (source : Json.Fault)
  deriving DecidableEq, Repr, Inhabited

namespace TraceFault

/-- The wording of what lies behind a fault. -/
def sourceMessage : TraceFault → String
  | .unopened _ source => source.message
  | .unreadable _ source => source.message
  | .malformed _ source => source.message

/-- The wording of a fault, what lies behind it included. -/
def message (fault : TraceFault) : String :=
  match fault with
  | .unopened path _ => s!"cannot open trace {path}: " ++ fault.sourceMessage
  | .unreadable line _ => s!"line {line}: failed to read trace: " ++ fault.sourceMessage
  | .malformed line _ => s!"line {line}: malformed trace event: " ++ fault.sourceMessage

end TraceFault

/-! ## Lines -/

/-- What a line of a trace gives: an event, or why it gives none. -/
abbrev TraceItem := Except TraceFault Event

namespace Trace

/-- Whether a text without blanks at its ends says nothing. -/
def isSilent (text : String) : Bool :=
  match text.toList.head? with
  | none => true
  | some c => c == '#'

/-- What a line gives, if it says anything; `number` counts the lines from one. -/
def item? (number : Nat) (line : List UInt8) : Option TraceItem :=
  match Text.lineText? line with
  | none => some (.error (.unreadable number .notUtf8))
  | some text =>
      let text := Text.trim text
      if isSilent text then none
      else some ((Event.codec.decode text).mapError (.malformed number))

/-- What the lines from some number on give. -/
def itemsFrom (number : Nat) : List (List UInt8) → List TraceItem
  | [] => []
  | line :: rest =>
      match item? number line with
      | none => itemsFrom (number + 1) rest
      | some item => item :: itemsFrom (number + 1) rest

/-- What a trace gives, line by line. -/
def items (bytes : List UInt8) : List TraceItem :=
  itemsFrom 1 (Text.physicalLines bytes)

theorem itemsFrom_append (number : Nat) (a b : List (List UInt8)) :
    itemsFrom number (a ++ b) = itemsFrom number a ++ itemsFrom (number + a.length) b := by
  induction a generalizing number with
  | nil => rfl
  | cons line rest ih =>
    have shift : number + 1 + rest.length = number + (rest.length + 1) := by omega
    simp only [List.cons_append, itemsFrom, List.length_cons, ih, shift]
    cases item? number line <;> rfl

/-- What follows a line end is read as if the lines before it were not there, except that its lines
have later numbers. -/
theorem items_append (a b : List UInt8) :
    items (a ++ [Text.lineFeed] ++ b) = items (a ++ [Text.lineFeed])
      ++ itemsFrom (1 + (Text.physicalLines (a ++ [Text.lineFeed])).length)
          (Text.physicalLines b) := by
  rw [items, Text.physicalLines_append, itemsFrom_append]
  rfl

/-- What is behind a path that opens. -/
inductive Content where
  | readable (bytes : List UInt8)
  /-- nothing that can be read, such as a directory -/
  | unreadable (fault : FileFault)
  deriving DecidableEq, Repr, Inhabited

/-- What a trace with some content gives. -/
def Content.items : Content → List TraceItem
  | .readable bytes => Trace.items bytes
  | .unreadable fault => [.error (.unreadable 1 fault)]

end Trace

end TemplateTrace
