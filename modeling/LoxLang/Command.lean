import LoxLang.Arguments
import LoxLang.Path
import LoxLang.Session
import LoxLang.Node.Prefix
/-!
# The command

The command runs a script, lists its tokens or its statements, or asks for one line after another.
It is given all it can see: the arguments, the files and the lines typed in.
-/

namespace LoxLang

/-- What a command leaves behind. -/
structure Outcome where
  exit : Nat
  out : String
  err : String
  /-- The trace file, if one was written. -/
  debug : Option String
  deriving DecidableEq

/-- The name of the trace file. -/
def traceName : String := "debug.txt"

/-- What the trace file holds in the end: what was written, or else what it held before. -/
def Outcome.traceFile (o : Outcome) (files : List (String × Option String)) : Option String :=
  o.debug.or ((Path.ofText traceName).find? files).join

/-- Why a command breaks off without an outcome. -/
inductive Crash where
  /-- The script is not valid text. -/
  | badText
  /-- A statement nests too deeply to be listed. -/
  | tooDeep
  deriving DecidableEq

namespace Command

/-- The exit code after syntax errors. -/
def dataError : Nat := 65

/-- The exit code after the failure of a running program. -/
def softwareError : Nat := 70

/-- Prints lines, each with its line end. -/
def printed (lines : List String) : String := lines.foldl (fun text l => text ++ l ++ "\n") ""

/-- The line that shows how to call the command. -/
def usage : String := "usage: lox [-h] [-v] [--tokens | --ast] [script]\n"

/-- The full help text. -/
def helpText : String :=
  usage ++ printed
    ["",
     "Lox language interpreter",
     "",
     "positional arguments:",
     "  script      Lox script (.lox) to execute",
     "",
     "options:",
     "  -h, --help  show this help message and exit",
     "  -v          increase debug verbosity (can be repeated)",
     "  --tokens    print scanned tokens and exit",
     "  --ast       print parsed statements and exit"]

/-- Line ends of all systems become plain ones. -/
def unifyNewlines : List Char → List Char
  | [] => []
  | '\r' :: '\n' :: cs => '\n' :: unifyNewlines cs
  | '\r' :: cs => '\n' :: unifyNewlines cs
  | c :: cs => c :: unifyNewlines cs

/-- The outcome of refused arguments. -/
def refuse (e : UsageError) : Outcome :=
  ⟨2, "", usage ++ "lox: error: " ++ e.message ++ "\n", none⟩

/-! ## Scripts -/

/-- Lists the tokens of a script. -/
def listTokens (source : String) : Outcome :=
  let scan := Scan.ofText source
  let d := Diagnostics.none.addScan scan.errors
  ⟨if d.syntaxErrors then dataError else 0, printed (scan.tokens.map Token.text),
    printed d.messages, none⟩

/-- Lists the statements of a script; `parsing` and `printing` are how deep the parser and the listing
may nest. -/
def listStatements (source : String) (parsing printing : Nat := nestingLimit) :
    Except Crash Outcome := do
  let scan := Scan.ofText source
  let program := Program.ofScan scan parsing
  let d := (Diagnostics.none.addScan scan.errors).addComplaints program.complaints
  let lines ← (program.statements.mapM (printWithin printing Node.statementText)).mapError
    fun _ => Crash.tooDeep
  return ⟨if d.syntaxErrors then dataError else 0, printed lines, printed d.messages, none⟩

/-- The trace file of a session. -/
def debugFile (s : Session) (verbosity : Nat) : Option String :=
  if verbosity > 0 then some s.traceText else none

/-- Runs a script. -/
def runScript (limits : Limits) (verbosity : Nat) (clock : Nat → Float) (source : String)
    (parsing : Nat := nestingLimit) : Outcome :=
  let s := (Session.new limits verbosity clock).run source parsing
  let exit :=
    if s.diagnostics.syntaxErrors then dataError
    else if s.diagnostics.failures then softwareError
    else 0
  ⟨exit, s.machine.output, printed s.diagnostics.messages, debugFile s verbosity⟩

/-- Does with a script what the options ask for. -/
def onScript (limits : Limits) (o : Options) (clock : Nat → Float) (source : String)
    (parsing printing : Nat := nestingLimit) : Except Crash Outcome :=
  let source := String.ofList (unifyNewlines source.toList)
  if o.tokens then .ok (listTokens source)
  else if o.ast then listStatements source parsing printing
  else .ok (runScript limits o.verbosity clock source parsing)

/-! ## The prompt -/

/-- What is written before each line that is typed in. -/
def promptMark : String := "> "

/-- What one line at the prompt does: the session after it, and what it printed and reported. -/
def promptLine (s : Session) (line : String) (parsing : Nat := nestingLimit) :
    Session × String × String :=
  let s := s.forgetOutput.run line parsing
  ({ s with diagnostics := .none }, s.machine.output, printed s.diagnostics.messages)

/-- Whether a line ends the session. -/
def isExit (line : String) : Bool := trim line.toList == "exit".toList

/-- The lines of a typed text. The last one may lack its line end. -/
def typedLines (cs : List Char) : List String :=
  let lines := splitOn '\n' cs
  (if lines.getLast? = some [] then lines.dropLast else lines).map String.ofList

/-- Asks for lines until there are no more or one ends the session. The trace is gathered. -/
def prompt (parsing : Nat) (s : Session) (out err trace : String) :
    List String → String × String × String
  | [] => (out ++ promptMark ++ "\n", err, trace)
  | line :: lines =>
    let out := out ++ promptMark
    if isExit line then (out, err, trace)
    else
      let (s, printed, reported) := promptLine s line parsing
      prompt parsing s (out ++ printed) (err ++ reported) (trace ++ s.traceText) lines

/-- A session at the prompt. -/
def runPrompt (limits : Limits) (verbosity : Nat) (clock : Nat → Float) (input : String)
    (parsing : Nat := nestingLimit) : Outcome :=
  let lines := typedLines (unifyNewlines input.toList)
  let (out, err, trace) := prompt parsing (Session.new limits verbosity clock) "" "" "" lines
  ⟨0, out, err, if verbosity > 0 then some trace else none⟩

/-! ## The whole command -/

/-- What a command line comes to before any script is read. -/
inductive Plan where
  | finish (o : Outcome)
  | script (options : Options) (path : Path)
  | prompt (verbosity : Nat)

/-- Plans what to do. An empty script name is none. -/
def plan (arguments : List String) : Plan :=
  match Request.ofArguments arguments with
  | .help => .finish ⟨0, helpText, "", none⟩
  | .refused e => .finish (refuse e)
  | .options o =>
    match o.script with
    | some script => if script = "" then noScript o else .script o (.ofText script)
    | none => noScript o
where
  /-- Without a script there is nothing to list. -/
  noScript (o : Options) : Plan :=
    if o.tokens || o.ast then .finish (refuse .scriptRequired) else .prompt o.verbosity

/-- The outcome of a script that does not exist. -/
def missing (path : Path) : Outcome :=
  ⟨1, "", "Error: file " ++ path.text ++ " not found\n", none⟩

/-- The whole command. A file without text is one that is not valid text. -/
def run (limits : Limits) (arguments : List String) (files : List (String × Option String))
    (input : String) (clock : Nat → Float) (parsing printing : Nat := nestingLimit) :
    Except Crash Outcome :=
  match plan arguments with
  | .finish o => .ok o
  | .prompt verbosity => .ok (runPrompt limits verbosity clock input parsing)
  | .script o path =>
    match path.find? files with
    | none => .ok (missing path)
    | some none => .error .badText
    | some (some source) => onScript limits o clock source parsing printing

end Command

end LoxLang
