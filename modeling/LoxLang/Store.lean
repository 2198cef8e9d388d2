import LoxLang.Node
/-!
# Scopes and functions

Scopes form a tree: each binds names to values and may lie in an enclosing scope. A name means its
binding in the nearest scope of the chain. The functions made so far are kept beside the scopes they
were made in. Neither a scope nor a function is ever taken away.
-/

namespace LoxLang

/-- A scope: its enclosing scope, and its names in the order of their first definition. -/
structure Scope where
  parent : Option Nat
  bindings : List (String × Value)

namespace Scope

/-- The value that the scope itself gives to a name. -/
def get? (s : Scope) (name : String) : Option Value := s.bindings.lookup name

/-- Binds a name anew, in its old place if it has one. -/
def insert (name : String) (value : Value) : List (String × Value) → List (String × Value)
  | [] => [(name, value)]
  | b :: bs => if b.1 == name then (name, value) :: bs else b :: insert name value bs

/-- Binds a name in the scope itself. -/
def set (s : Scope) (name : String) (value : Value) : Scope :=
  { s with bindings := insert name value s.bindings }

theorem lookup_insert (name other : String) (value : Value) (bs : List (String × Value)) :
    (insert name value bs).lookup other =
      if other = name then some value else bs.lookup other := by
  have lookup_ne {key : String} (h : ¬ other = key) (held : Value) (bs : List (String × Value)) :
      ((key, held) :: bs).lookup other = bs.lookup other := by
    rw [List.lookup_cons, beq_false_of_ne h]
  induction bs with
  | nil => by_cases h : other = name <;> simp [insert, h, lookup_ne]
  | cons b bs ih =>
    obtain ⟨key, held⟩ := b
    by_cases hk : key = name
    · by_cases h : other = name <;> simp [insert, hk, h, lookup_ne]
    · by_cases h : other = key
      · simp [insert, hk, h]
      · simp [insert, hk, h, ih, lookup_ne]

/-- A name that is bound anew has its new value, and all others keep theirs. -/
theorem get?_set (s : Scope) (name other : String) (value : Value) :
    (s.set name value).get? other = if other = name then some value else s.get? other :=
  lookup_insert name other value s.bindings

end Scope

/-- What a user function runs: its declaration, and the scope it was made in. -/
structure Closure where
  name : Token
  params : List Token
  body : List Node
  scope : Nat

/-- All scopes and functions; both are known by their place. -/
structure Store where
  scopes : Array Scope
  closures : Array Closure

instance : Inhabited Store := ⟨#[], #[]⟩

/-- What a name means in a scope. -/
inductive Resolution where
  | found (scope : Nat) (value : Value)
  | unbound
  | tooDeep
  deriving DecidableEq

namespace Store

/-- A store with nothing in it. -/
def empty : Store := ⟨#[], #[]⟩

/-- Makes a scope. -/
def openScope (s : Store) (scope : Scope) : Nat × Store :=
  (s.scopes.size, { s with scopes := s.scopes.push scope })

/-- Makes a function. -/
def makeFunction (s : Store) (c : Closure) : Callable × Store :=
  (⟨s.closures.size, c.name.lexeme, c.params.length⟩, { s with closures := s.closures.push c })

/-- Binds a name in a scope itself. -/
def define (s : Store) (scope : Nat) (name : String) (value : Value) : Store :=
  { s with scopes := s.scopes.modify scope (·.set name value) }

/-- Looks a name up along the chain of a scope, through at most `room` scopes. -/
def resolve (s : Store) (name : String) : Nat → Nat → Resolution
  | 0, _ => .tooDeep
  | room + 1, scope =>
    match s.scopes[scope]? with
    | none => .unbound
    | some here =>
      match here.get? name with
      | some value => .found scope value
      | none =>
        match here.parent with
        | some parent => resolve s name room parent
        | none => .unbound

/-- Room enough for every chain: an enclosing scope is older than the scopes in it. -/
def room (s : Store) : Nat := s.scopes.size + 1

/-- Binds all natives in a scope. -/
def defineNatives (s : Store) (scope : Nat) : Store :=
  Native.all.foldl (fun s n => s.define scope n.name (.native n)) s

/-- The bindings of a scope itself, sorted by name. -/
def listing (s : Store) (scope : Nat) : List (String × Value) :=
  match s.scopes[scope]? with
  | some here => here.bindings.mergeSort fun a b => a.1 ≤ b.1
  | none => []

/-- What a name is worth before any program has given it a value: its native, or `nil`. -/
def initialValue (name : String) : Value :=
  match Native.ofName? name with
  | some n => .native n
  | none => .nil

/-- The bindings of a scope that differ from what their names are worth anyway, sorted by name. -/
def ownListing (s : Store) (scope : Nat) : List (String × Value) :=
  (s.listing scope).filter fun b => b.2 ≠ initialValue b.1

end Store

end LoxLang
