import LoxLang.Decimal.Exact
/-!
# Shortest decimals

A decimal is a whole coefficient times a power of ten. The shortest decimal of a positive double
is sought on ever finer decimal grids: on the grid of one significant digit, then two, and so on,
the double's neighbours are tried, and the first that reads back as the double is taken. Of two
neighbours the nearer is tried first, and of two equally near ones the even one.
-/

namespace LoxLang

/-- The decimal number `coefficient * 10 ^ exponent`. -/
structure Decimal where
  coefficient : Nat
  exponent : Int
  deriving DecidableEq

/-- The double nearest to a decimal; one that is too large reads as infinity. -/
def Decimal.toFloat (d : Decimal) : Float :=
  Float.ofScientific d.coefficient (d.exponent < 0) d.exponent.natAbs

/-- The decimal with the given digits before and after its point, times a power of ten. -/
def Decimal.ofDigits (whole fraction : List Nat) (exponent : Int) : Decimal :=
  ⟨(whole ++ fraction).foldl (fun n d => 10 * n + d) 0, exponent - fraction.length⟩

namespace Exact

/-- The magnitude divided by `10 ^ k`, as a fraction. -/
def scaled (x : Exact) (k : Int) : Nat × Nat :=
  (x.numerator * Nat.pow 10 (-k).toNat, x.denominator * Nat.pow 10 k.toNat)

/-- The multiples of `10 ^ k` next to the magnitude, the preferred one first. -/
def neighbours (x : Exact) (k : Int) : List Nat :=
  let (num, den) := x.scaled k
  let low := num / den
  match compare (2 * (num % den)) den with
  | .lt => if num % den = 0 then [low] else [low, low + 1]
  | .gt => [low + 1, low]
  | .eq => if low % 2 = 0 then [low, low + 1] else [low + 1, low]

/-- How many times `num` has to grow tenfold to reach `den`, up to a limit. -/
def tenfolds (den : Nat) : Nat → Nat → Nat
  | 0, _ => 0
  | limit + 1, num => if den ≤ num then 0 else tenfolds den limit (10 * num) + 1

/-- No double is so small that its first digit comes after this many zeros. -/
def zerosLimit : Nat := 342

/-- The decimal exponent of the magnitude's first significant digit. -/
def order (x : Exact) : Int :=
  if 0 < x.wholePart then (Nat.toDigits 10 x.wholePart).length - 1
  else -(tenfolds x.denominator zerosLimit x.numerator : Int)

/-- All digits of the magnitude. -/
def full (x : Exact) : Decimal :=
  ⟨x.numerator * Nat.pow 5 (-x.exponent).toNat, min x.exponent 0⟩

/-- The first of the neighbours on the grid of `10 ^ k` that reads back as `back`. -/
def readingBack? (x : Exact) (back : Float) (k : Int) : Option Decimal :=
  ((x.neighbours k).map fun n => Decimal.mk n k).find? fun d => d.toFloat == back

end Exact

/-- The decimal with the fewest digits that reads back as the magnitude of a finite double. -/
def Decimal.shortest (x : Exact) (magnitude : Float) : Decimal :=
  if x.mantissa = 0 then ⟨0, 0⟩ else
  let top := x.order
  ((List.range 17).findSome? fun (n : Nat) => x.readingBack? magnitude (top - n)).getD x.full

end LoxLang
