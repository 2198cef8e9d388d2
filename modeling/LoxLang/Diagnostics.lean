import LoxLang.Token.Scan
/-!
# Diagnostics

What has been reported since the last reset: the messages, and whether syntax errors or failures of
running programs are among them.
-/

namespace LoxLang

/-- The reports since the last reset. -/
structure Diagnostics where
  syntaxErrors : Bool
  failures : Bool
  messages : List String
  deriving DecidableEq

namespace Diagnostics

/-- Nothing reported. -/
def none : Diagnostics := ⟨false, false, []⟩

/-- Adds a syntax error on a line, placed more closely by `place`. -/
def addSyntax (d : Diagnostics) (line : Int) (place message : String) : Diagnostics :=
  { d with
    syntaxErrors := true
    messages := d.messages ++ ["[line " ++ intText line ++ "] Error" ++ place ++ ": " ++ message] }

/-- How a message names the place of a token. -/
def placeOf (t : Token) : String :=
  if t.kind = .eof then " at end" else " at '" ++ t.lexeme ++ "'"

/-- Adds a syntax error at a token. -/
def addSyntaxAt (d : Diagnostics) (t : Token) (message : String) : Diagnostics :=
  d.addSyntax t.line (placeOf t) message

/-- Adds what a running program did wrong at a token. -/
def addFailure (d : Diagnostics) (t : Token) (message : String) : Diagnostics :=
  { d with
    failures := true
    messages := d.messages ++ [message ++ "\n[line " ++ intText t.line ++ "]"] }

/-- Adds a failure that is not the program's own. -/
def addInternal (d : Diagnostics) (what : String) : Diagnostics :=
  { d with
    failures := true
    messages := d.messages ++ ["Internal error: " ++ what] }

/-- Adds what a scan found wrong. -/
def addScan (d : Diagnostics) (errors : List ScanError) : Diagnostics :=
  errors.foldl (fun d e => d.addSyntax e.line "" e.message) d

/-- Adding a syntax error appends one message. -/
theorem messages_addSyntax (d : Diagnostics) (line : Int) (place message : String) :
    (d.addSyntax line place message).messages =
      d.messages ++ ["[line " ++ intText line ++ "] Error" ++ place ++ ": " ++ message] := rfl

theorem syntaxErrors_addScan (d : Diagnostics) (errors : List ScanError) :
    (d.addScan errors).syntaxErrors = (d.syntaxErrors || !errors.isEmpty) := by
  induction errors generalizing d with
  | nil => simp [addScan]
  | cons e es ih =>
    change ((d.addSyntax e.line "" e.message).addScan es).syntaxErrors = _
    rw [ih]
    simp [addSyntax]

/-- The errors of a scan are appended in their order. -/
theorem messages_addScan (d : Diagnostics) (errors : List ScanError) :
    (d.addScan errors).messages = d.messages ++ errors.map fun e =>
      "[line " ++ intText e.line ++ "] Error" ++ "" ++ ": " ++ e.message := by
  induction errors generalizing d with
  | nil => simp [addScan]
  | cons e es ih =>
    change ((d.addSyntax e.line "" e.message).addScan es).messages = _
    rw [ih, messages_addSyntax, List.map_cons, List.append_assoc, List.singleton_append]

end Diagnostics

end LoxLang
