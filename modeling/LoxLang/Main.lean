import LoxLang.Command
/-!
# The program

Gives the command what it asks for: the script's text, the lines typed in, the clock. Writes what
it leaves behind.
-/

namespace LoxLang.Shell

/-- The seconds that the clock shows from now on. -/
def clockNow : IO (Nat → Float) := do
  let now ← IO.monoMsNow
  return fun _ => Float.ofNat now / 1000

/-- Writes an outcome and gives its exit code. -/
def leave (o : Outcome) : IO UInt32 := do
  let out ← IO.getStdout
  out.putStr o.out
  out.flush
  IO.eprint o.err
  if let some text := o.debug then IO.FS.writeFile traceName text
  return o.exit.toUInt32

/-- Writes the outcome of a command, if it has one. -/
def leaveOr : Except Crash Outcome → IO UInt32
  | .ok o => leave o
  | .error .badText => do
    IO.eprintln "The script is not valid text."
    return 1
  | .error .tooDeep => do
    IO.eprintln "The script nests too deeply to be listed."
    return 1

/-- The bytes of a file, if there is one. -/
def fileBytes? (path : String) : IO (Option ByteArray) := do
  try
    return some (← IO.FS.readBinFile path)
  catch _ => return none

/-- Asks for a line, does what it says, and goes on until the input ends or a line ends it. Gives
the trace. -/
partial def promptLoop (s : Session) (trace : String) : IO String := do
  let out ← IO.getStdout
  out.putStr Command.promptMark
  out.flush
  let line ← (← IO.getStdin).getLine
  match Command.typedLines (Command.unifyNewlines line.toList) with
  | [] =>
    out.putStrLn ""
    return trace
  | first :: _ =>
    if Command.isExit first then return trace
    let (s, printed, reported) := Command.promptLine s first
    out.putStr printed
    out.flush
    IO.eprint reported
    promptLoop s (trace ++ s.traceText)

end LoxLang.Shell

open LoxLang LoxLang.Shell in
/-- The program. -/
def main (arguments : List String) : IO UInt32 := do
  match Command.plan arguments with
  | .finish o => leave o
  | .script o path =>
    match ← fileBytes? path.text with
    | none => leave (Command.missing path)
    | some bytes =>
      match String.fromUTF8? bytes with
      | none => leaveOr (.error .badText)
      | some source => leaveOr (Command.onScript .usual o (← clockNow) source)
  | .prompt verbosity =>
    let trace ← promptLoop (Session.new .usual verbosity (← clockNow)) ""
    if verbosity > 0 then IO.FS.writeFile traceName trace
    return 0
