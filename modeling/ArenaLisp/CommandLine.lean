import ArenaLisp.Directory
import ArenaLisp.Program
import ArenaLisp.Text.Controls

/-!
# The command line

The arguments choose the capacity of the arena, whether statistics are shown, and where the program
is: in a file or on standard input.  Values go to standard output; failures, records and statistics
go to standard error, the records without control functions.  The exit code is zero if every
expression has a value.
-/

namespace ArenaLisp

/-- How a program is to be run. -/
structure Options where
  capacity : UInt32
  showStats : Bool
  /-- The file with the program, if one is named. -/
  source? : Option String
  deriving DecidableEq, Repr

/-- What is wrong with arguments. -/
inductive UsageError where
  | capacity
  | unknown (arg : String)
  deriving DecidableEq, Repr

def UsageError.lines : UsageError → List String
  | .capacity => [s!"--capacity requires a cell count between 1 and {Arena.maxCapacity}"]
  | .unknown arg => [s!"Unknown argument: {arg}", "Try 'rlisp --help' for usage information."]

/-- What the arguments ask for. -/
inductive Request where
  | help
  | run (options : Options)
  | refuse (error : UsageError)
  deriving DecidableEq, Repr

namespace Options

/-- How a program is run if nothing is asked for. -/
def default : Options := ⟨Arena.defaultCapacity, false, none⟩

/-- The number that decimal digits denote, if there are any and nothing else. -/
def ofDigits? (digits : List Char) : Option Nat :=
  if digits.isEmpty || !digits.all Char.isDigit then none
  else some (digits.foldl (fun n c => 10 * n + (c.toNat - '0'.toNat)) 0)

/-- A capacity in decimal digits, behind a plus sign or not. -/
def capacity? (s : String) : Option UInt32 := do
  let n ← match s.toList with
    | '+' :: digits => ofDigits? digits
    | digits => ofDigits? digits
  if 1 ≤ n ∧ n ≤ Arena.maxCapacity then some (UInt32.ofNat n) else none

/-- Whether an argument can say where the program is.  Two dashes begin an option, and one dash
alone stands for standard input. -/
def isSource (arg : String) : Bool := arg == "-" || !arg.startsWith "--"

end Options

namespace Request

/-- Goes through arguments from left to right; the first that asks for help or is wrong decides. -/
def ofArgs (options : Options) : List String → Request
  | [] => .run options
  | ["--capacity"] => .refuse .capacity
  | "--capacity" :: count :: args =>
    match Options.capacity? count with
    | some capacity => ofArgs { options with capacity } args
    | none => .refuse .capacity
  | "--stats" :: args => ofArgs { options with showStats := true } args
  | "--help" :: _ | "-h" :: _ => .help
  | arg :: args =>
    if options.source?.isNone && Options.isSource arg then
      ofArgs { options with source? := some arg } args
    else .refuse (.unknown arg)

end Request

/-- A text that the program writes, to standard output or to standard error. -/
inductive Output where
  | out (text : String)
  | err (text : String)
  deriving DecidableEq, Repr

namespace Output

/-- A line on standard output. -/
def outLine (line : String) : Output := .out (line ++ "\n")

/-- A line on standard error. -/
def errLine (line : String) : Output := .err (line ++ "\n")

/-- The line of a record.  A control function that is not complete hides the end of its line. -/
def record (r : Record) : Output := .err (Controls.strip (r.line ++ "\n"))

end Output

/-- All that the program writes, in order, and its exit code. -/
structure Response where
  outputs : List Output
  exitCode : UInt32
  deriving DecidableEq, Repr

namespace Response

/-- What goes to standard output. -/
def stdout (r : Response) : String :=
  String.join (r.outputs.filterMap fun | .out text => some text | .err _ => none)

/-- What goes to standard error. -/
def stderr (r : Response) : String :=
  String.join (r.outputs.filterMap fun | .err text => some text | .out _ => none)

/-- The response of a program that cannot start. -/
def refusal (lines : List String) : Response := ⟨lines.map .errLine, 1⟩

end Response

namespace CommandLine

/-- A bound on the depth of evaluation that no memory suffices to reach. -/
def fuel : Nat := 1000000000

/-- The environment variable that sets the threshold of the log. -/
def logVariable : String := "RUST_LOG"

/-- The help text. -/
def usage : List String :=
  ["Usage: rlisp [OPTIONS] [FILE]",
    "",
    "Evaluates every expression in FILE (or standard input if FILE is",
    "omitted or '-') and prints each result on its own line.",
    "",
    "Options:",
    s!"  --capacity <n>   Arena size in cells (default {Arena.defaultCapacity})",
    "  --stats          Print arena statistics to stderr when done",
    "  --help, -h       Show this help message",
    "",
    "Environment variables:",
    s!"  {logVariable}=debug   Log every collection"]

/-- The line for what became of the expression with a given number. -/
def outcomeLine (number : Nat) : Outcome → Output
  | .value text => .outLine text
  | .failed why => .errLine s!"Expression {number}: {why.message}"
  | .unread why => .errLine why.message
  | .broken fault => .errLine s!"Expression {number}: {fault.message}"

/-- The lines for expressions, numbered from `number` on: for each its records, then what became of
it. -/
def reportLines : Nat → List Report → List Output
  | _, [] => []
  | number, r :: reports =>
    r.records.toList.map .record ++
      outcomeLine number r.outcome :: reportLines (number + 1) reports

/-- The line for a program that came to its end, if such records are let through. -/
def endLines (threshold : Option Level) (reports : List Report) : List Output :=
  if reports.all (·.outcome.goesOn) then
    ((Log.empty threshold).add (.evaluated reports.length)).records.toList.map .record
  else []

/-- The statistics of a machine. -/
def statsLines (m : Machine) : List Output :=
  let a := m.arena
  [.errLine (s!"  Heap: {a.used} of {a.capacity} cells used, {a.freeCount} free, " ++
      s!"{a.tally.collections} collections, {a.tally.reclaimed} cells reclaimed"),
    .errLine s!"  Atoms: {m.lexicon.count} interned, Roots: {m.roots.length} pinned"]

/-- Runs a program on a new machine. -/
def runText (fuel : Nat) (threshold : Option Level) (options : Options) (text : String) :
    Response :=
  let (reports, s) := Program.run fuel ⟨.new options.capacity threshold, .ofString text⟩
  { outputs := reportLines 1 reports ++ endLines threshold reports ++
      if options.showStats then statsLines s.machine else []
    exitCode := if reports.all (·.outcome.isValue) then 0 else 1 }

/-- The text that bytes hold. -/
def decode (bytes : ByteArray) : Except FileError String :=
  match String.fromUTF8? bytes with
  | some text => .ok text
  | none => .error .notText

/-- Answers a request.  Standard input and files are looked at only where the request needs them. -/
def respond {m : Type → Type} [Monad m] (fuel : Nat) (threshold : Option Level)
    (stdin : m ByteArray) (load : String → m (Except FileError ByteArray)) :
    Request → m Response
  | .help => pure ⟨usage.map .outLine, 0⟩
  | .refuse error => pure (.refusal error.lines)
  | .run options => do
    match options.source? with
    | none | some "-" =>
      match decode (← stdin) with
      | .ok text => return runText fuel threshold options text
      | .error e => return .refusal [s!"Error reading standard input: {e.message}"]
    | some path =>
      match (← load path).bind decode with
      | .ok text => return runText fuel threshold options text
      | .error e => return .refusal [s!"Error loading {path}: {e.message}"]

end CommandLine

end ArenaLisp
