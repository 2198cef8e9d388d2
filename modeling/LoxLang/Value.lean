import LoxLang.Decimal.Layout
/-!
# Values

The values of a running program, their truth and equality, and the three ways of writing one: as
`print` shows it, as a literal in prefix form, and as the bare literal of a token.
-/

namespace LoxLang

/-- The functions that every program starts with. -/
inductive Native where
  | clock
  | strlen
  | substring
  | indexof
  | strat
  deriving DecidableEq

namespace Native

/-- All natives, in the order in which they are defined. -/
def all : List Native := [.clock, .strlen, .substring, .indexof, .strat]

/-- The global name that a native is defined under. -/
def name : Native → String
  | clock => "clock"
  | strlen => "strlen"
  | substring => "substring"
  | indexof => "indexof"
  | strat => "strat"

/-- How many arguments a native takes. -/
def arity : Native → Nat
  | clock => 0
  | strlen => 1
  | substring => 3
  | indexof => 2
  | strat => 2

/-- The native of a name. -/
def ofName? (name : String) : Option Native := all.find? (·.name == name)

end Native

/-- A user function: its identity among all functions made so far, and what a caller sees of it. -/
structure Callable where
  id : Nat
  name : String
  arity : Nat
  deriving DecidableEq

/-- The values of a program. -/
inductive Value where
  | nil
  | bool (b : Bool)
  | number (x : Float)
  | string (s : String)
  | native (n : Native)
  | function (f : Callable)
  deriving DecidableEq

instance : Inhabited Value := ⟨.nil⟩

namespace Value

/-- Only `nil` and `false` count as false. -/
def truthy : Value → Bool
  | nil => false
  | bool b => b
  | _ => true

/-- Equality as programs see it: values of different sorts differ, numbers compare as numbers, and a
function equals only itself. -/
def equals : Value → Value → Bool
  | nil, nil => true
  | bool a, bool b => a == b
  | number x, number y => x == y
  | string s, string t => s == t
  | native m, native n => m == n
  | function f, function g => f.id == g.id
  | _, _ => false

/-- A truth value counts as one or zero. -/
def asNumber? : Value → Option Float
  | bool b => some (if b then 1 else 0)
  | number x => some x
  | _ => none

/-- Equality of token literals, where truth values compare with numbers. -/
def matchesLiteral (a b : Value) : Bool :=
  match a.asNumber?, b.asNumber? with
  | some x, some y => x == y
  | _, _ => a.equals b

/-- The text of a function. -/
def functionText (name : String) : String := "<fn " ++ name ++ ">"

/-- The text of a native. -/
def nativeText (n : Native) : String := "<native fn " ++ n.name ++ ">"

/-- A number as `print` shows it: whole numbers below `10 ^ 16` have no point. -/
def numberShown (x : Float) : String :=
  match Exact.ofFloat? x with
  | some e =>
    if e.mantissa = 0 then if e.negative then "-0" else "0"
    else if e.isWhole && e.wholePart < Nat.pow 10 16 then intText e.truncate
    else floatText x
  | none => floatText x

/-- The text that `print` shows. -/
def shown : Value → String
  | nil => "nil"
  | bool b => if b then "True" else "False"
  | number x => numberShown x
  | string s => s
  | native n => nativeText n
  | function f => functionText f.name

/-- A number as a literal: whole numbers of any size are written in full. -/
def numberLiteral (x : Float) : String :=
  match Exact.ofFloat? x with
  | some e => if e.isWhole then intText e.truncate else floatText x
  | none => floatText x

/-- The text of a literal in prefix form. -/
def literalText : Value → String
  | nil => "nil"
  | bool b => if b then "true" else "false"
  | number x => numberLiteral x
  | string s => "\"" ++ s ++ "\""
  | native n => nativeText n
  | function f => functionText f.name

/-- The text of a literal in a token listing, where a missing literal leaves no text. -/
def bareText : Value → String
  | nil => ""
  | bool b => if b then "True" else "False"
  | number x => floatText x
  | string s => s
  | native n => nativeText n
  | function f => functionText f.name

end Value

end LoxLang
