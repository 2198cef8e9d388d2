import LoxLang.Node
/-!
# Reading tokens

A parser stands between the tokens it has taken and those that lie ahead. It takes one token at a
time, never past the end token, and complains about what it finds. A list without an end token can
be run off; that stops everything.
-/

namespace LoxLang

/-- What is wrong with the tokens of a program. -/
inductive Objection where
  | expected (what : String)
  | invalidTarget
  | tooMany (what : String)
  | tooDeep
  deriving DecidableEq

/-- The most parameters that a function and the most arguments that a call may have. -/
def maxArity : Nat := 255

/-- The wording of an objection. -/
def Objection.message : Objection → String
  | expected what => "Expect " ++ what ++ "."
  | invalidTarget => "Invalid assignment target."
  | tooMany what => "Can't have more than " ++ toString maxArity ++ " " ++ what ++ "."
  | tooDeep => "Too much nesting."

/-- An objection to the token at a place in the list. -/
structure Complaint where
  position : Nat
  token : Token
  objection : Objection
  deriving DecidableEq

/-- Where a parser stands, and what it has complained about so far. -/
structure Cursor where
  /-- The tokens taken, the last one first. -/
  before : List Token
  after : List Token
  complaints : List Complaint

/-- Why a parser stopped. -/
inductive Halt where
  /-- A complaint was made that ends the declaration. -/
  | syntaxError
  | tooDeep
  /-- There is no token where one was looked for. -/
  | offEnd
  deriving DecidableEq

/-- A parser. -/
abbrev Parse := EStateM Halt Cursor

namespace Parse

/-- The next token. -/
def ahead : Parse Token := fun c =>
  match c.after with
  | t :: _ => .ok t c
  | [] => .error .offEnd c

/-- The token taken last. -/
def latest : Parse Token := fun c =>
  match c.before with
  | t :: _ => .ok t c
  | [] => .error .offEnd c

/-- Whether the end token is next. -/
def atEnd : Parse Bool := return (← ahead).kind = .eof

/-- Takes the next token, whatever it is. -/
def step : Parse Unit := fun c =>
  match c.after with
  | t :: rest => .ok () { c with before := t :: c.before, after := rest }
  | [] => .error .offEnd c

/-- Takes the next token unless it is the end token, and gives the token taken last. -/
def take : Parse Token := do
  unless ← atEnd do step
  latest

/-- Whether the next token is of the given kind; the end token is of none. -/
def nextIs (kind : Kind) : Parse Bool := do
  let t ← ahead
  return t.kind ≠ .eof && t.kind = kind

/-- Takes the next token if it is of one of the given kinds. -/
def accept? (kinds : List Kind) : Parse (Option Token) := do
  let t ← ahead
  if t.kind ≠ .eof && kinds.contains t.kind then return some (← take) else return none

/-- How many tokens have been taken. -/
def position : Parse Nat := return (← get).before.length

/-- Complains about a token and goes on. -/
def complain (position : Nat) (token : Token) (objection : Objection) : Parse Unit :=
  modify fun c => { c with complaints := c.complaints ++ [⟨position, token, objection⟩] }

/-- Complains about the next token and goes on. -/
def complainAhead (objection : Objection) : Parse Unit := do
  complain (← position) (← ahead) objection

/-- Complains about the next token and gives the declaration up. -/
def reject {α : Type} (objection : Objection) : Parse α := do
  complainAhead objection
  throw .syntaxError

/-- Takes the next token, which has to be of the given kind. -/
def expect (kind : Kind) (what : String) : Parse Token := do
  match ← accept? [kind] with
  | some t => return t
  | none => reject (.expected what)

/-- Items with commas between them, of which `count` have been read; complains about each item
beyond the limit. -/
def separated {α : Type} (what : String) (item : Parse α) : Nat → Nat → Parse (List α)
  | 0, _ => throw .offEnd
  | rounds + 1, count => do
    if maxArity ≤ count then complainAhead (.tooMany what)
    let x ← item
    match ← accept? [.comma] with
    | some _ => return x :: (← separated what item rounds (count + 1))
    | none => return [x]

/-! ## One parser after another -/

section

variable {α β : Type} {p : Parse α} {f : α → Parse β} {a : α} {b : β} {halt : Halt} {c c' : Cursor}

theorem bind_ok (h : p c = .ok a c') (f : α → Parse β) : (p >>= f) c = f a c' := by
  change EStateM.bind p f c = _
  rw [EStateM.bind, h]

theorem bind_error (h : p c = .error halt c') (f : α → Parse β) :
    (p >>= f) c = .error halt c' := by
  change EStateM.bind p f c = _
  rw [EStateM.bind, h]

/-- If both get through, so does the first. -/
theorem ok_of_bind (h : (p >>= f) c = .ok b c') :
    ∃ a c₁, p c = .ok a c₁ ∧ f a c₁ = .ok b c' := by
  cases hp : p c with
  | ok a c₁ => exact ⟨a, c₁, rfl, by rwa [bind_ok hp] at h⟩
  | error halt c₁ =>
    rw [bind_error hp] at h
    cases h

/-- One of them gives up, the second only if the first gets through. -/
theorem error_of_bind (h : (p >>= f) c = .error halt c') :
    p c = .error halt c' ∨ ∃ a c₁, p c = .ok a c₁ ∧ f a c₁ = .error halt c' := by
  cases hp : p c with
  | ok a c₁ => exact .inr ⟨a, c₁, rfl, by rwa [bind_ok hp] at h⟩
  | error halt' c₁ =>
    rw [bind_error hp] at h
    cases h
    exact .inl rfl

end

/-! ## What single steps do where a token lies ahead -/

section

variable {c : Cursor} {t : Token} {rest : List Token}

theorem ahead_eq (h : c.after = t :: rest) : ahead c = .ok t c := by
  simp only [ahead, h]

theorem atEnd_eq (h : c.after = t :: rest) : atEnd c = .ok (t.kind = .eof) c := by
  simp [atEnd, ahead, h, bind, EStateM.bind, pure, EStateM.pure]

theorem take_eq (h : c.after = t :: rest) (he : t.kind ≠ .eof) :
    take c = .ok t ⟨t :: c.before, rest, c.complaints⟩ := by
  obtain ⟨before, after, complaints⟩ := c
  cases h
  simp [take, atEnd, ahead, step, latest, bind, EStateM.bind, pure, EStateM.pure, he]

theorem take_eof {u : Token} {us : List Token} (h : c.after = t :: rest) (he : t.kind = .eof)
    (hb : c.before = u :: us) : take c = .ok u c := by
  obtain ⟨before, after, complaints⟩ := c
  cases h
  cases hb
  simp [take, atEnd, ahead, latest, bind, EStateM.bind, pure, EStateM.pure, he]

theorem nextIs_eq (h : c.after = t :: rest) (kind : Kind) :
    nextIs kind c = .ok (t.kind ≠ .eof && t.kind = kind) c := by
  simp [nextIs, ahead, h, bind, EStateM.bind, pure, EStateM.pure]

theorem accept?_eq (h : c.after = t :: rest) (kinds : List Kind) :
    accept? kinds c =
      if t.kind ≠ .eof ∧ t.kind ∈ kinds then .ok (some t) ⟨t :: c.before, rest, c.complaints⟩
      else .ok none c := by
  obtain ⟨before, after, complaints⟩ := c
  cases h
  by_cases he : t.kind = .eof
  · simp [accept?, ahead, bind, EStateM.bind, pure, EStateM.pure, he]
  by_cases hk : t.kind ∈ kinds
  · simp [accept?, ahead, take, atEnd, step, latest, bind, EStateM.bind, pure, EStateM.pure, he, hk]
  · simp [accept?, ahead, bind, EStateM.bind, pure, EStateM.pure, he, hk]

theorem complainAhead_eq (h : c.after = t :: rest) (objection : Objection) :
    complainAhead objection c =
      .ok () { c with complaints := c.complaints ++ [⟨c.before.length, t, objection⟩] } := by
  change EStateM.bind ahead (fun t => complain c.before.length t objection) c = _
  rw [EStateM.bind, ahead_eq h]
  rfl

theorem reject_eq {α : Type} (h : c.after = t :: rest) (objection : Objection) :
    (reject objection : Parse α) c =
      .error .syntaxError
        { c with complaints := c.complaints ++ [⟨c.before.length, t, objection⟩] } := by
  change EStateM.bind (complainAhead objection) _ c = _
  rw [EStateM.bind, complainAhead_eq h]
  rfl

theorem expect_eq (h : c.after = t :: rest) (kind : Kind) (what : String) :
    expect kind what c =
      if t.kind ≠ .eof ∧ t.kind = kind then .ok t ⟨t :: c.before, rest, c.complaints⟩
      else .error .syntaxError
        { c with complaints := c.complaints ++ [⟨c.before.length, t, .expected what⟩] } := by
  change EStateM.bind (accept? [kind]) _ c = _
  rw [EStateM.bind, accept?_eq h]
  simp only [List.mem_singleton]
  by_cases hk : t.kind ≠ .eof ∧ t.kind = kind
  · rw [if_pos hk, if_pos hk]
    rfl
  · rw [if_neg hk, if_neg hk]
    exact reject_eq h _

end

end Parse

/-- What a construct is read with: the parsers for the constructs nested in it, and how often a
loop may go round, which is at most once for each token. -/
structure Rules where
  rounds : Nat
  expression : Parse Node
  unary : Parse Node
  statement : Parse Node
  declaration : Parse (Option Node)

/-- The rules that allow no nesting. -/
def Rules.floor (rounds : Nat) : Rules :=
  ⟨rounds, throw .tooDeep, throw .tooDeep, throw .tooDeep, throw .tooDeep⟩

end LoxLang
