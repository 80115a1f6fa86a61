import TargetView.Command

/-!
# The command line

`run` answers the arguments of one call with what goes to the two output streams and the exit
status.  Arguments are read from left to right, and the first one that does not fit decides what is
said.
-/
namespace TargetView.Command

/-- What a call writes, and its exit status. -/
structure Output where
  exit : Nat := 0
  stdout : String := ""
  stderr : String := ""
  deriving DecidableEq, Inhabited

/-- The version of the tool. -/
def version : String := "0.1.0-alpha.1"

/-- The help text. -/
def usage : String := "\n".intercalate [
  "SCVD view expression tool",
  "",
  "Usage: scvd <command> [options]",
  "",
  "Commands:",
  "  lex <expr>           Tokenize and display tokens",
  "  parse <expr>         Parse and display AST info",
  "  eval <expr>          Evaluate against an empty symbol table",
  "  help                 Show this help message",
  "  version              Show version information",
  "",
  "Eval options:",
  "  --set name=value     Define a symbol before evaluating (value is an expression)",
  "  --symbols            List all symbols afterwards",
  "",
  "Logging:",
  "  RUST_LOG=scvd_eval=debug scvd eval 'a = 1 + 2'",
  "",
  "Examples:",
  "  scvd lex 'x << 2'",
  "  scvd parse 'Value: %d[x + 1]'",
  "  scvd eval 'cnt++' --set cnt=4 --symbols",
  ""]

/-- A failed call with a message. -/
def failure (message : String) : Output := { exit := 1, stderr := message ++ "\n" }

/-- A call that lacks its expression. -/
def usageOf (synopsis : String) : Output := failure ("Usage: scvd " ++ synopsis)

/-- A call that stops at an argument. -/
def refusal (message : String) : Output := failure ("error: " ++ message)

/-- Why the arguments of an evaluation do not fit. -/
inductive Misfit where
  | noPair
  | noAssignment (e : NoAssignment)
  | unexpected (arg : String)

/-- The message about arguments that do not fit. -/
def Misfit.message : Misfit → String
  | noPair => "`--set` needs a `name=value` argument"
  | noAssignment e => e.message
  | unexpected arg => "unexpected argument '" ++ arg ++ "'"

/-- Takes one argument: a flag, or the expression if there is none yet. -/
def takeArgument (text? : Option String) (o : Options) (arg : String) :
    Except Misfit (Option String × Options) :=
  match o.apply arg with
  | .error e => .error (.noAssignment e)
  | .ok (true, o) => .ok (text?, o)
  | .ok (false, o) => if text?.isSome then .error (.unexpected arg) else .ok (some arg, o)

/-- Takes the arguments of an evaluation.  The value of `--set` may be an argument of its own. -/
def takeArguments (text? : Option String) (o : Options) :
    List String → Except Misfit (Option String × Options)
  | [] => .ok (text?, o)
  | ["--set"] => .error .noPair
  | "--set" :: pair :: rest => do
    let (text?, o) ← takeArgument text? o (setFlag ++ pair)
    takeArguments text? o rest
  | arg :: rest => do
    let (text?, o) ← takeArgument text? o arg
    takeArguments text? o rest

/-- Answers a call for an evaluation. -/
def runEvaluation (args : List String) : Output :=
  match takeArguments none {} args with
  | .error misfit => refusal misfit.message
  | .ok (none, _) => usageOf "eval <expr> [--set name=value]... [--symbols]"
  | .ok (some text, o) =>
    match evaluate text o with
    | .ok shown => { stdout := shown ++ "\n" }
    | .error e => failure e.message

/-- Answers the arguments of a call. -/
def run : List String → Output
  | [] => { stdout := usage }
  | "lex" :: text :: _ => { stdout := tokens text }
  | ["lex"] => usageOf "lex <expr>"
  | "parse" :: text :: _ => { stdout := summary text }
  | ["parse"] => usageOf "parse <expr>"
  | "eval" :: args => runEvaluation args
  | "help" :: _ | "--help" :: _ | "-h" :: _ => { stdout := usage }
  | "version" :: _ | "--version" :: _ | "-v" :: _ => { stdout := "scvd " ++ version ++ "\n" }
  | command :: _ =>
    { exit := 1, stdout := usage, stderr := "Unknown command: " ++ command ++ "\n\n" }

end TargetView.Command
