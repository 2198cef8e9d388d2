import LoxLang.Decimal.Shortest
/-!
# Number texts

Numbers are written with the fewest digits that read back. A layout says where positional notation
gives way to an exponent and how the exponent looks.
-/

namespace LoxLang

/-- How digits are laid out: numbers from `10 ^ plainFrom` up to `10 ^ plainBelow` are written
positionally, all others with an exponent of at least `exponentDigits` digits. -/
structure Layout where
  plainFrom : Int
  plainBelow : Int
  exponentDigits : Nat

/-- Positional from `0.0001` up to sixteen digits before the point; exponents have two digits. -/
def numberLayout : Layout := ⟨-4, 16, 2⟩

namespace Layout

/-- Pads with zeros on the left. -/
def padLeft (n : Nat) (ds : List Char) : List Char :=
  List.replicate (n - ds.length) '0' ++ ds

/-- The digits of a positional number whose first digit has exponent `e`; there is always a digit
on both sides of the point. -/
def plain (ds : List Char) (e : Int) : List Char :=
  if e < 0 then
    '0' :: '.' :: (List.replicate (-e - 1).toNat '0' ++ ds)
  else
    let size := e.toNat + 1
    let fraction := ds.drop size
    ds.take size ++ List.replicate (size - ds.length) '0' ++
      '.' :: (if fraction = [] then ['0'] else fraction)

/-- The digits of a number with an exponent; the point is left out after a lone digit. -/
def scientific (l : Layout) (ds : List Char) (e : Int) : List Char :=
  let fraction := ds.drop 1
  ds.take 1 ++ (if fraction = [] then [] else '.' :: fraction) ++
    'e' :: (if e < 0 then '-' else '+') :: padLeft l.exponentDigits (Nat.toDigits 10 e.natAbs)

/-- Lays out a decimal; zeros at the end of its coefficient are not significant. -/
def text (l : Layout) (d : Decimal) : List Char :=
  if d.coefficient = 0 then ['0', '.', '0'] else
    let all := Nat.toDigits 10 d.coefficient
    let ds := (all.reverse.dropWhile (· == '0')).reverse
    let e := d.exponent + all.length - 1
    if l.plainFrom ≤ e ∧ e < l.plainBelow then plain ds e else l.scientific ds e

end Layout

/-- The text of a double: shortest digits, the sign of zero kept, and words for the rest. -/
def floatText (x : Float) : String :=
  match Exact.ofFloat? x with
  | some e =>
    let magnitude := numberLayout.text (Decimal.shortest e (if e.negative then -x else x))
    String.ofList (if e.negative then '-' :: magnitude else magnitude)
  | none => if x.isNaN then "nan" else if x < 0 then "-inf" else "inf"

/-- The digits of a whole number, with its sign. -/
def intText (n : Int) : String :=
  String.ofList (if n < 0 then '-' :: Nat.toDigits 10 n.natAbs else Nat.toDigits 10 n.natAbs)

end LoxLang
