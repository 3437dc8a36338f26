set_option autoImplicit false

/-!
# Usage

What the program says about itself.
-/

namespace TemplateTrace.Command

/-- The lines that explain how the program is used. -/
def usageLines : List String :=
  ["Metatrace - Debugger for compile-time template metaprograms",
   "",
   "Usage:",
   "  metatrace <command> --trace <FILE|-> [arguments]",
   "  metatrace --help",
   "",
   "  metatrace evaluate --trace <FILE>",
   "  metatrace forwardtrace --trace <FILE> [--max-depth <N>] [--steps <N>]",
   "  metatrace backtrace --trace <FILE> [--steps <N>]",
   "  metatrace status --trace <FILE>",
   "",
   "Commands:",
   "  evaluate      Replay a trace and print the evaluation result",
   "  forwardtrace  Print the call tree below the current frame",
   "  backtrace     Print the frames from the current frame to the root",
   "  status        Show metaprogram statistics",
   "",
   "Global arguments:",
   "  --trace <FILE>      JSON-lines trace to replay, - for stdin",
   "  --mode <MODE>       full or minimized (default: minimized)",
   "  --preprocessor      Show macro, include and directive frames",
   "  --capacity <N>      Maximum number of frames recorded",
   "  --output <FORMAT>   Output format: human (default), json (compact), or pretty (formatted)",
   "  --verbose           Debug logging to stderr (METATRACE_LOG overrides)",
   "  -V, --version       Print version",
   "  -h, --help          Print this help",
   "",
   "Forwardtrace arguments:",
   "  --max-depth <N>     Do not expand frames deeper than N",
   "  --steps <N>         Step N frames before tracing",
   "",
   "Backtrace arguments:",
   "  --steps <N>         Step N frames before printing the backtrace"]

/-- The name and the version of the program. -/
def programVersion : String := "metatrace 0.4.0"

/-- The version of the program and what is known about how it was built. -/
def versionLine : String :=
  programVersion ++ " (unknown unknown)"

end TemplateTrace.Command
