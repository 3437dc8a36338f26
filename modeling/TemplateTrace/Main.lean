import Std.Time.Date
import Std.Time.DateTime.Timestamp
import TemplateTrace.Command.Answer
set_option autoImplicit false

/-!
# The program

Reads the arguments and the trace they name, prints what `Program.run` says, and exits with its
code.  The stamp of a run comes from the clock and from a number that is drawn for the run.
-/

namespace TemplateTrace

/-! ## Stamps from a clock -/

namespace Report

/-- A number with at least so many digits. -/
def padded (width n : Nat) : String :=
  let digits := toString n
  String.ofList (List.replicate (width - digits.length) '0') ++ digits

/-- A date and a time of day, in the form of RFC 3339, for the zone without an offset. -/
def timestampText (seconds : Nat) : String :=
  let date := Std.Time.PlainDate.ofEpochDay ⟨(seconds / 86400 : Nat)⟩
  let ofDay := seconds % 86400
  padded 4 (date.year : Int).toNat ++ "-" ++ padded 2 date.month.val.toNat ++ "-"
    ++ padded 2 date.day.val.toNat ++ "T" ++ padded 2 (ofDay / 3600) ++ ":"
    ++ padded 2 (ofDay / 60 % 60) ++ ":" ++ padded 2 (ofDay % 60) ++ "Z"

/-- The stamp of a run that begins after so many seconds. -/
def Stamp.ofClock (seconds run : Nat) : Stamp :=
  ⟨String.ofList (Text.Hex.ofNat seconds ++ '-' :: Text.Hex.ofNat run), timestampText seconds⟩

end Report

/-! ## The world outside -/

/-- What the system says went wrong. -/
def systemFault : IO.Error → FileFault
  | .noFileOrDirectory _ number text | .interrupted _ number text
  | .alreadyExists _ number text | .invalidArgument _ number text
  | .permissionDenied _ number text | .resourceExhausted _ number text
  | .inappropriateType _ number text | .noSuchThing _ number text
  | .otherError number text | .resourceBusy number text | .resourceVanished number text
  | .unsupportedOperation number text | .hardwareFault number text
  | .unsatisfiedConstraints number text | .illegalOperation number text
  | .protocolError number text | .timeExpired number text => .ofNumber number.toNat text
  | .unexpectedEof => .system "Unexpected end of file" 0
  | .userError text => .system text 0

/-- What became of reading, which the system may refuse. -/
def contentOf : Except IO.Error ByteArray → Trace.Content
  | .ok bytes => .readable bytes.toList
  | .error fault => .unreadable (systemFault fault)

/-- Everything on the standard input. -/
partial def readStream (stream : IO.FS.Stream) (before : ByteArray) : IO ByteArray := do
  let bytes ← stream.read 65536
  if bytes.isEmpty then return before else readStream stream (before ++ bytes)

/-- Opens and reads a trace. -/
def openSource (source : Source) : IO (Except FileFault Trace.Content) := do
  match source with
  | .standardInput =>
      let read ← (readStream (← IO.getStdin) .empty).toBaseIO
      return .ok (contentOf read)
  | .file path =>
      match ← (IO.FS.Handle.mk path .read).toBaseIO with
      | .error fault => return .error (systemFault fault)
      | .ok handle => return .ok (contentOf (← handle.readBinToEnd.toBaseIO))

/-- Runs the program. -/
def runProgram (arguments : List String) : IO UInt32 := do
  let opened ← match Program.source? arguments with
    | some source => openSource source
    | none => pure (.ok (.readable []))
  let now ← Std.Time.Timestamp.now
  let run ← IO.rand 1 4294967295
  let stamp := Report.Stamp.ofClock now.toSecondsSinceUnixEpoch.val.toNat run
  let printout := Program.run arguments opened stamp
  (← IO.getStdout).putStr printout.output
  (← IO.getStderr).putStr printout.errors
  return printout.exitCode

end TemplateTrace

/-- The entry of the program. -/
def main (arguments : List String) : IO UInt32 :=
  TemplateTrace.runProgram arguments
