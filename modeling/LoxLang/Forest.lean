import LoxLang.Machine.Basic
/-!
# Forests of scopes

A forest grows without a program, one step at a time: scopes are made, each on its own or in another
one, and names are bound in them. What is bound is seen from a scope in three ways: a variable is
read, it is given another value, or it is asked whether there is one of its name. Each of the three
goes outwards along the chain of the scope by itself, through as many scopes as there is room for.
-/

namespace LoxLang

namespace Store

/-- The value of a variable as a scope sees it. -/
def read (s : Store) (name : Token) : Nat → Nat → Except Fault Value
  | 0, _ => .error .overflow
  | room + 1, scope =>
    match s.scopes[scope]? with
    | none => .error (.runtime name (.undefined name.lexeme))
    | some here =>
      match here.get? name.lexeme with
      | some value => .ok value
      | none =>
        match here.parent with
        | some parent => read s name room parent
        | none => .error (.runtime name (.undefined name.lexeme))

/-- Gives a variable that a scope sees another value, in the scope that binds it. -/
def assign (s : Store) (name : Token) (value : Value) : Nat → Nat → Except Fault Store
  | 0, _ => .error .overflow
  | room + 1, scope =>
    match s.scopes[scope]? with
    | none => .error (.runtime name (.undefined name.lexeme))
    | some here =>
      if (here.get? name.lexeme).isSome then .ok (s.define scope name.lexeme value)
      else
        match here.parent with
        | some parent => assign s name value room parent
        | none => .error (.runtime name (.undefined name.lexeme))

/-- Whether a scope sees a variable of a name. -/
def sees (s : Store) (name : String) : Nat → Nat → Except Fault Bool
  | 0, _ => .error .overflow
  | room + 1, scope =>
    match s.scopes[scope]? with
    | none => .ok false
    | some here =>
      if (here.get? name).isSome then .ok true
      else
        match here.parent with
        | some parent => sees s name room parent
        | none => .ok false

end Store

/-- What is done with a forest, in or from one of its scopes. -/
inductive ForestStep where
  | openScope (parent : Option Nat)
  | define (scope : Nat) (name : String) (value : Value)
  | assign (scope : Nat) (name : Token) (value : Value)
  | read (scope : Nat) (name : Token)
  | ask (scope : Nat) (name : String)

/-- What comes of a step. -/
inductive ForestAnswer where
  | done
  | opened (scope : Nat)
  | value (v : Value)
  | seen (b : Bool)
  | failed (e : Fault)
  deriving DecidableEq

/-- The scopes that a step names. -/
def ForestStep.scopes : ForestStep → List Nat
  | openScope parent => parent.toList
  | define scope _ _ | assign scope _ _ | read scope _ | ask scope _ => [scope]

/-- Does one step; `room` is how long a chain may be. -/
def Store.step (s : Store) (room : Nat) : ForestStep → Store × ForestAnswer
  | .openScope parent =>
    let (scope, s) := s.openScope ⟨parent, []⟩
    (s, .opened scope)
  | .define scope name value => (s.define scope name value, .done)
  | .assign scope name value =>
    match s.assign name value room scope with
    | .ok s => (s, .done)
    | .error e => (s, .failed e)
  | .read scope name =>
    match s.read name room scope with
    | .ok v => (s, .value v)
    | .error e => (s, .failed e)
  | .ask scope name =>
    match s.sees name room scope with
    | .ok b => (s, .seen b)
    | .error e => (s, .failed e)

end LoxLang
