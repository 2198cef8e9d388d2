import LoxLang.Token.Item
/-!
# From items to tokens

Marks, numbers, words and closed strings are tokens; stray characters and unclosed strings are
errors. A token's line is that of its last character, and lines count from one.
-/

namespace LoxLang

/-- What is wrong with an item. -/
inductive ScanError where
  | stray (line : Nat) (c : Char)
  | openString (line : Nat)
  deriving DecidableEq

namespace ScanError

/-- The line that is blamed: the opening quote's for an unclosed string. -/
def line : ScanError → Nat
  | stray line _ => line
  | openString line => line

/-- The wording of the error. -/
def message : ScanError → String
  | stray _ c => "Unexpected character '" ++ String.ofList [c] ++ "'."
  | openString _ => "Unterminated string."

end ScanError

namespace Item

/-- How many line ends an item holds. -/
def newlines (i : Item) : Nat := i.text.count '\n'

/-- The value of ASCII digits, one each. -/
def digitValues (ds : List Char) : List Nat := ds.map fun d => d.toNat - '0'.toNat

/-- The kind of a word. -/
def wordKind (text : String) : Kind :=
  match Keyword.ofText? text with
  | some reserved => .keyword reserved
  | none => .identifier

/-- The token of an item that ends on the given line. -/
def token? (i : Item) (line : Nat) : Option Token :=
  let lexeme := String.ofList i.text
  match i with
  | mark kind _ => some ⟨kind, lexeme, .nil, line⟩
  | number whole fraction =>
    let value := Decimal.ofDigits (digitValues whole) (digitValues fraction) 0
    some ⟨.number, lexeme, .number value.toFloat, line⟩
  | word _ => some ⟨wordKind lexeme, lexeme, .string lexeme, line⟩
  | string body => some ⟨.string, lexeme, .string (String.ofList body), line⟩
  | _ => none

/-- The error of an item that starts on the given line. -/
def error? (i : Item) (line : Nat) : Option ScanError :=
  match i with
  | stray c => some (.stray line c)
  | openString _ => some (.openString line)
  | _ => none

end Item

/-- The end of a source text. -/
def Token.eof (line : Nat) : Token := ⟨.eof, "", .nil, line⟩

/-- The tokens and the errors of a source text. -/
structure Scan where
  tokens : List Token
  errors : List ScanError

namespace Scan

/-- Reads items that start on the given line. -/
def ofItems (line : Nat) : List Item → Scan
  | [] => ⟨[Token.eof line], []⟩
  | i :: rest =>
    let after := line + i.newlines
    let scan := ofItems after rest
    ⟨(i.token? after).toList ++ scan.tokens, (i.error? line).toList ++ scan.errors⟩

/-- Reads a source text. -/
def ofText (source : String) : Scan := ofItems 1 (items source.toList)

end Scan

end LoxLang
