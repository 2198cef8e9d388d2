import LoxLang.Text.Numeral
/-!
# Terminals of prefix form

The words of a text in prefix form: parentheses, operators, numbers, strings and names, with blanks
anywhere between them. Every terminal has the line and the column of its first character, both
counted from one.
-/

namespace LoxLang

/-- A place in a text. -/
structure Place where
  line : Nat
  column : Nat
  deriving DecidableEq

namespace Place

/-- The first place of a text. -/
def start : Place := ⟨1, 1⟩

/-- The place behind a character. -/
def next (p : Place) (c : Char) : Place :=
  if c = '\n' then ⟨p.line + 1, 1⟩ else ⟨p.line, p.column + 1⟩

/-- The place behind some characters. -/
def behind (p : Place) (cs : List Char) : Place := cs.foldl next p

end Place

/-- The words of prefix form. -/
inductive Terminal where
  | openParen
  | closeParen
  | operator (text : String)
  | number (text : String) (value : Decimal)
  | string (body : String)
  | name (text : String)
  deriving DecidableEq

namespace Terminal

/-- The sort of a terminal, as messages name it. -/
def sort : Terminal → String
  | openParen => "LPAR"
  | closeParen => "RPAR"
  | operator _ => "OP"
  | number .. => "NUMBER"
  | string _ => "STRING"
  | name _ => "NAME"

/-- The text of a terminal. -/
def text : Terminal → String
  | openParen => "("
  | closeParen => ")"
  | operator text => text
  | number text _ => text
  | string body => "\"" ++ body ++ "\""
  | name text => text

/-- The blanks between terminals. -/
def isSpace (c : Char) : Bool := c == ' ' || c == '\t' || c == '\x0c' || c == '\r' || c == '\n'

/-- The characters that a name starts with. -/
def isNameStart (c : Char) : Bool := c.isAlpha || c == '_'

/-- The characters that a name goes on with. -/
def isNameRest (c : Char) : Bool := isNameStart c || c.isDigit

/-- The operators of one character. -/
def shortOperators : List Char := ['<', '>', '+', '-', '*', '/', '!', '=']

/-- The operators that an equals sign makes longer. -/
def longOperators : List Char := ['<', '>', '!', '=']

/-- The terminal that starts with `c`, and how many characters it takes after that. -/
def next? (c : Char) (cs : List Char) : Option (Terminal × Nat) :=
  if c = '(' then some (openParen, 0)
  else if c = ')' then some (closeParen, 0)
  else if longOperators.contains c ∧ cs.head? = some '=' then
    some (operator (String.ofList [c, '=']), 1)
  else if shortOperators.contains c then some (operator (String.ofList [c]), 0)
  else if c = '"' then
    let body := cs.takeWhile (· != '"')
    if body.length < cs.length then some (string (String.ofList body), body.length + 1) else none
  else if isNameStart c then
    let rest := cs.takeWhile isNameRest
    some (name (String.ofList (c :: rest)), rest.length)
  else
    match takeNumeral? (c :: cs) with
    | some (value, rest) =>
      let size := cs.length - rest.length
      some (number (String.ofList (c :: cs.take size)) value, size)
    | none => none

end Terminal

/-- A terminal and where it starts. -/
structure PlacedTerminal where
  terminal : Terminal
  place : Place
  deriving DecidableEq

/-- Where reading terminals ended. -/
inductive Ending where
  | finished
  /-- At a character that starts no terminal. -/
  | badCharacter (place : Place)
  deriving DecidableEq

/-- The terminals of a text that starts at the given place, as far as there are any. -/
def terminals (here : Place) : List Char → List PlacedTerminal × Ending
  | [] => ([], .finished)
  | c :: cs =>
    if Terminal.isSpace c then terminals (here.next c) cs
    else
      match Terminal.next? c cs with
      | none => ([], .badCharacter here)
      | some (t, size) =>
        let (ts, ending) := terminals ((here.next c).behind (cs.take size)) (cs.drop size)
        (⟨t, here⟩ :: ts, ending)
termination_by cs => cs.length
decreasing_by all_goals (simp only [List.length_cons, List.length_drop]; omega)

end LoxLang
