import LoxLang.Value
import LoxLang.Text.Blank
import LoxLang.Text.Numeral
/-!
# Natives

The built-in functions. An argument of the wrong sort or out of bounds is rejected with a message
for the program; an index that is infinite or not a number breaks the call off instead, as does a
missing argument. Arguments are looked at from left to right. Lengths and indices count characters.
-/

namespace LoxLang

/-- What a native tells the program about its arguments. -/
inductive Rejection where
  | expectsString (n : Native)
  | expectsNumber (n : Native)
  | outOfBounds (start stop : Int) (length : Nat)
  | outOfRange (index : Int)
  deriving DecidableEq

/-- The wording of a rejection. -/
def Rejection.message : Rejection → String
  | expectsString n => n.name ++ " expects a string argument."
  | expectsNumber n => n.name ++ " expects a number argument."
  | outOfBounds start stop length =>
    "substring range " ++ intText start ++ ".." ++ intText stop ++ " out of bounds for length " ++
      intText length ++ "."
  | outOfRange index => "strat index " ++ intText index ++ " out of range."

/-- Failures that are not the program's own. -/
inductive Breakdown where
  | infiniteIndex
  | nanIndex
  | missingArgument
  | zeroDivisor
  deriving DecidableEq

/-- Why a native gives no value. -/
inductive NativeError where
  | rejected (r : Rejection)
  | broken (b : Breakdown)
  deriving DecidableEq

namespace Native

/-- The argument at a place, which has to be a string. -/
def stringArgument (n : Native) (arguments : List Value) (i : Nat) : Except NativeError String :=
  match arguments[i]? with
  | some (.string s) => .ok s
  | some _ => .error (.rejected (.expectsString n))
  | none => .error (.broken .missingArgument)

/-- The argument at a place, which has to be a number, cut off to a whole number. -/
def indexArgument (n : Native) (arguments : List Value) (i : Nat) : Except NativeError Int :=
  match arguments[i]? with
  | some (.number x) =>
    match Exact.ofFloat? x with
    | some e => .ok e.truncate
    | none => .error (.broken (if x.isNaN then .nanIndex else .infiniteIndex))
  | some _ => .error (.rejected (.expectsNumber n))
  | none => .error (.broken .missingArgument)

/-- The part of a text that starts at `start` and is `length` long, if the text reaches that far. -/
def slice? (cs : List Char) (start length : Int) : Option (List Char) :=
  if start < 0 ∨ length < 0 ∨ cs.length < start + length then none
  else some ((cs.drop start.toNat).take length.toNat)

/-- Where a text first occurs in another. -/
def firstIndex? (target : List Char) : List Char → Option Nat
  | [] => if target.isPrefixOf [] then some 0 else none
  | c :: cs => if target.isPrefixOf (c :: cs) then some 0 else (firstIndex? target cs).map (· + 1)

/-- The fields of a text: its pieces between single spaces after trimming. -/
def fields (s : String) : List (List Char) := splitOn ' ' (trim s.toList)

/-- A field is a number if it looks like one. -/
def fieldValue (field : List Char) : Value :=
  match plainNumber? field with
  | some x => .number x
  | none => .string (String.ofList field)

/-- The value of a native; `reading` is what the clock shows. -/
def apply (n : Native) (reading : Float) (arguments : List Value) : Except NativeError Value :=
  match n with
  | clock => .ok (.number reading)
  | strlen => do
    let s ← n.stringArgument arguments 0
    return .number (Float.ofNat s.length)
  | substring => do
    let s ← n.stringArgument arguments 0
    let start ← n.indexArgument arguments 1
    let length ← n.indexArgument arguments 2
    match slice? s.toList start length with
    | some part => return .string (String.ofList part)
    | none => throw (.rejected (.outOfBounds start (start + length) s.length))
  | indexof => do
    let s ← n.stringArgument arguments 0
    let target ← n.stringArgument arguments 1
    match firstIndex? target.toList s.toList with
    | some i => return .number (Float.ofNat i)
    | none => return .number (-1)
  | strat => do
    let s ← n.stringArgument arguments 0
    let index ← n.indexArgument arguments 1
    if index < 0 then throw (.rejected (.outOfRange index))
    match (fields s)[index.toNat]? with
    | some field => return fieldValue field
    | none => throw (.rejected (.outOfRange index))

end Native

/-- A step that may fail and what follows it give a value only if both do. -/
theorem ok_of_bind {ε α β : Type} {x : Except ε α} {f : α → Except ε β} {b : β}
    (h : x >>= f = .ok b) : ∃ a, x = .ok a ∧ f a = .ok b := by
  cases x with
  | error => cases h
  | ok a => exact ⟨a, rfl, h⟩

end LoxLang
