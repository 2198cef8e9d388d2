import LoxLang.Decimal.Shortest
import LoxLang.Text.Digit
/-!
# Numerals

Decimal numbers written in digits of any script, with an optional fraction and, where a text allows
it, an exponent. A point or an exponent mark without a digit after it does not belong to the
numeral.
-/

namespace LoxLang

/-- The longest numeral without an exponent at the front: its digits before the point, those after
it, and the rest. -/
def takePlain? (cs : List Char) : Option (List Nat × List Nat × List Char) :=
  match takeDigits cs with
  | ([], _) => none
  | (whole, '.' :: rest) =>
    match takeDigits rest with
    | ([], _) => some (whole, [], '.' :: rest)
    | (fraction, rest) => some (whole, fraction, rest)
  | (whole, rest) => some (whole, [], rest)

/-- The value of digits. -/
def digitsValue (ds : List Nat) : Nat := ds.foldl (fun n d => 10 * n + d) 0

/-- An exponent at the front, and the rest; without one the exponent is zero. -/
def takeExponent (cs : List Char) : Int × List Char :=
  match cs with
  | [] => (0, [])
  | mark :: after =>
    if mark = 'e' ∨ mark = 'E' then
      let (negative, digits) :=
        match after with
        | '-' :: digits => (true, digits)
        | '+' :: digits => (false, digits)
        | digits => (false, digits)
      match takeDigits digits with
      | ([], _) => (0, cs)
      | (ds, rest) => (if negative then -(digitsValue ds : Int) else digitsValue ds, rest)
    else (0, cs)

/-- The longest numeral at the front, and the rest. -/
def takeNumeral? (cs : List Char) : Option (Decimal × List Char) := do
  let (whole, fraction, rest) ← takePlain? cs
  let (exponent, rest) := takeExponent rest
  return (Decimal.ofDigits whole fraction exponent, rest)

/-- The number that a whole text is: a numeral without an exponent, perhaps after a minus sign. -/
def plainNumber? (cs : List Char) : Option Float :=
  let (negative, cs) :=
    match cs with
    | '-' :: cs => (true, cs)
    | cs => (false, cs)
  match takePlain? cs with
  | some (whole, fraction, []) =>
    let x := (Decimal.ofDigits whole fraction 0).toFloat
    some (if negative then -x else x)
  | _ => none

end LoxLang
