/-!
# Doubles as exact numbers

A finite double is a whole mantissa times a power of two, with a sign. Everything that is asked of
a number's size (is it whole, what is left after cutting off the fraction, which decimals lie next
to it) is answered here in exact whole-number arithmetic.
-/

namespace LoxLang

/-- A finite double as the exact number `mantissa * 2 ^ exponent`, negated if `negative`. -/
structure Exact where
  negative : Bool
  mantissa : Nat
  exponent : Int
  deriving DecidableEq

namespace Exact

open Float.Model in
/-- The exact number that a double stands for; infinities and NaN stand for none. -/
def ofFloat? (x : Float) : Option Exact :=
  match x.toModel.unpack with
  | .infinity _ => none
  | .notANumber => none
  | .zero s => some ⟨s == .negative, 0, 0⟩
  | .finite s m e _ => some ⟨s == .negative, m, e⟩

/-- The denominator when the magnitude is written as a fraction. -/
def denominator (x : Exact) : Nat := Nat.pow 2 (-x.exponent).toNat

/-- The numerator when the magnitude is written as a fraction. -/
def numerator (x : Exact) : Nat := x.mantissa * Nat.pow 2 x.exponent.toNat

/-- Whether the number is a whole number. -/
def isWhole (x : Exact) : Bool := x.numerator % x.denominator == 0

/-- The magnitude without its fraction. -/
def wholePart (x : Exact) : Nat := x.numerator / x.denominator

/-- The number rounded toward zero. -/
def truncate (x : Exact) : Int := if x.negative then -(x.wholePart : Int) else x.wholePart

end Exact

end LoxLang
