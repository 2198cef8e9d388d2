import LoxLang.Proofs.Reading.Congruent
import LoxLang.Proofs.Reading.Program
/-!
# Reading amid other tokens

A run of a parser on some tokens goes the same way if other tokens were taken before them and more
tokens follow, as long as it does not look for a token where there is none. It may also be allowed
more rounds and more layers then, for it does not need them.
-/

namespace LoxLang

open Parse Rules

/-- What surrounds the tokens of a run, and the reasons for which the run alone may have been cut
short. -/
structure Surroundings where
  /-- The tokens taken before, the last one first. -/
  front : List Token
  /-- The complaints made before. -/
  said : List Complaint
  /-- The tokens that follow. -/
  behind : List Token
  excused : Halt → Prop
  offEnd : excused .offEnd
  syntaxError : ¬ excused .syntaxError

/-- A complaint about a token that stands further back. -/
def Complaint.later (k : Nat) (x : Complaint) : Complaint := { x with position := x.position + k }

theorem Complaint.later_zero (x : Complaint) : x.later 0 = x := rfl

/-- Where a parser stands amid its surroundings. -/
def Cursor.amid (s : Surroundings) (c : Cursor) : Cursor where
  before := c.before ++ s.front
  after := c.after ++ s.behind
  complaints := s.said ++ c.complaints.map (Complaint.later s.front.length)

/-- How a run ends amid its surroundings, by how it ends alone. -/
def EndsAmid {α : Type} (s : Surroundings) :
    EStateM.Result Halt Cursor α → EStateM.Result Halt Cursor α → Prop
  | .ok a c, r => r = .ok a (c.amid s)
  | .error halt c, r => s.excused halt ∨ r = .error halt (c.amid s)

/-- The second parser does amid the surroundings what the first one does alone. -/
def Follows {α : Type} (s : Surroundings) (p q : Parse α) : Prop :=
  ∀ c, EndsAmid s (p c) (q (c.amid s))

namespace Follows

variable {s : Surroundings} {α β : Type} {p q : Parse α} {f g : α → Parse β}

protected theorem pure (a : α) : Follows s (pure a) (pure a) := fun _ => rfl

protected theorem throw (halt : Halt) : Follows s (throw halt : Parse α) (throw halt) :=
  fun _ => .inr rfl

/-- What is cut short is excused whatever happens amid the surroundings. -/
theorem excused {halt : Halt} (h : s.excused halt) : Follows s (throw halt) q := fun _ => .inl h

protected theorem bind (h : Follows s p q) (hf : ∀ a, Follows s (f a) (g a)) :
    Follows s (p >>= f) (q >>= g) := by
  intro c
  have hc := h c
  change EndsAmid s (EStateM.bind p f c) (EStateM.bind q g (c.amid s))
  unfold EStateM.bind
  cases hp : p c with
  | ok a c' =>
    rw [hp] at hc
    rw [(hc : q (c.amid s) = _)]
    exact hf a c'
  | error halt c' =>
    rw [hp] at hc
    rcases hc with hc | hc
    · exact .inl hc
    · rw [hc]
      exact .inr rfl

protected theorem map (h : Follows s p q) (g : α → β) : Follows s (g <$> p) (g <$> q) :=
  h.bind fun a => .pure (g a)

protected theorem ite {b : Prop} [Decidable b] {p' q' : Parse α} (h : Follows s p q)
    (h' : Follows s p' q') : Follows s (if b then p else p') (if b then q else q') := by
  split
  · exact h
  · exact h'

/-- A handler has to let pass what may have cut the first run short. -/
protected theorem tryCatch {handler handler' : Halt → Parse α} (h : Follows s p q)
    (handled : ∀ halt, ¬ s.excused halt → Follows s (handler halt) (handler' halt))
    (passed : ∀ halt, s.excused halt → handler halt = throw halt) :
    Follows s (tryCatch p handler) (tryCatch q handler') := by
  intro c
  have hc := h c
  change EndsAmid s (EStateM.tryCatch p handler c) (EStateM.tryCatch q handler' (c.amid s))
  unfold EStateM.tryCatch
  dsimp only [EStateM.Backtrackable.save, EStateM.Backtrackable.restore]
  cases hp : p c with
  | ok a c' =>
    rw [hp] at hc
    rw [(hc : q (c.amid s) = _)]
    rfl
  | error halt c' =>
    rw [hp] at hc
    by_cases hx : s.excused halt
    · dsimp only
      rw [passed halt hx]
      exact .inl hx
    · rw [hc.resolve_left hx]
      exact handled halt hx c'

/-! ## Single tokens -/

protected theorem ahead : Follows s ahead ahead := by
  intro ⟨before, after, complaints⟩
  cases after with
  | nil => exact .inl s.offEnd
  | cons => rfl

protected theorem latest : Follows s latest latest := by
  intro ⟨before, after, complaints⟩
  cases before with
  | nil => exact .inl s.offEnd
  | cons => rfl

protected theorem step : Follows s step step := by
  intro ⟨before, after, complaints⟩
  cases after with
  | nil => exact .inl s.offEnd
  | cons => rfl

/-- What is said about a place is said about the place that it is amid the surroundings. -/
protected theorem complain (position : Nat) (t : Token) (objection : Objection) :
    Follows s (complain position t objection)
      (complain (position + s.front.length) t objection) := by
  intro c
  change EStateM.Result.ok () _ = _
  simp [Cursor.amid, Complaint.later]

protected theorem complainAhead (objection : Objection) :
    Follows s (complainAhead objection) (complainAhead objection) := by
  intro ⟨before, after, complaints⟩
  cases after with
  | nil => exact .inl s.offEnd
  | cons t rest =>
    change EStateM.Result.ok () _ = _
    simp [Cursor.amid, Complaint.later]

protected theorem reject (objection : Objection) :
    Follows s (reject objection : Parse α) (reject objection) :=
  (Follows.complainAhead objection).bind fun _ => .throw _

/-- Whatever is done by whether there is a token of certain kinds. If there is one, it has been taken
before anything else is done. -/
theorem accept_taken {kinds : List Kind} {f g : Option Token → Parse β}
    (some : ∀ t (c : Cursor), c.before ≠ [] → EndsAmid s (f (some t) c) (g (some t) (c.amid s)))
    (none : Follows s (f none) (g none)) :
    Follows s (accept? kinds >>= f) (accept? kinds >>= g) := by
  intro ⟨before, after, complaints⟩
  cases after with
  | nil => exact .inl s.offEnd
  | cons t rest =>
    change EndsAmid s (EStateM.bind (accept? kinds) f _) (EStateM.bind (accept? kinds) g _)
    have hmore : (Cursor.amid s ⟨before, t :: rest, complaints⟩).after = t :: (rest ++ s.behind) := rfl
    rw [EStateM.bind, EStateM.bind, accept?_eq rfl, accept?_eq hmore]
    by_cases hk : t.kind ≠ .eof ∧ t.kind ∈ kinds
    · rw [if_pos hk, if_pos hk]
      exact some t ⟨t :: before, rest, complaints⟩ (List.cons_ne_nil _ _)
    · rw [if_neg hk, if_neg hk]
      exact none ⟨before, t :: rest, complaints⟩

/-- Whatever is done with the number of tokens taken, which are more amid the surroundings. -/
theorem position {f g : Nat → Parse β} {c : Cursor}
    (h : Follows s (f c.before.length) (g (c.before.length + s.front.length))) :
    EndsAmid s ((position >>= f) c) ((position >>= g) (c.amid s)) := by
  have hc := h c
  rw [← List.length_append] at hc
  exact hc

/-- The token that is complained about has been taken, so there is one before the cursor. -/
protected theorem assignTo (left : Node) {taken : Nat} (ht : 1 ≤ taken) (equals : Token)
    (value : Node) :
    Follows s (assignTo left taken equals value)
      (assignTo left (taken + s.front.length) equals value) := by
  have hplace : taken + s.front.length - 1 = taken - 1 + s.front.length := by omega
  unfold assignTo
  split
  · exact .pure _
  · rw [hplace]
    exact (Follows.complain _ _ _).bind fun _ => .pure _

/-- Parsers go the same way amid the surroundings if their parts do. Rounds that are missing are a
reason to be cut short. -/
theorem congruent (s : Surroundings) : Congruent (Follows s) (· ≤ ·) where
  pure := .pure
  bind := .bind
  ahead := .ahead
  latest := .latest
  step := .step
  complainAhead _ := .complainAhead _
  reject _ := .reject _
  assigned left h := by
    refine accept_taken (fun equals c hc => ?_) (.pure left)
    have htaken : 1 ≤ c.before.length := List.length_pos_iff.2 hc
    exact position (h.bind fun value => .assignTo left htaken equals value)
  offEnd := .throw _
  zero _ := .inr fun _ => .excused s.offEnd
  succ h := by
    obtain ⟨left, rfl⟩ := Nat.exists_eq_add_of_lt h
    exact ⟨_, rfl, Nat.le_add_right _ _⟩

end Follows

/-- Rules that do amid the surroundings what others do alone. -/
abbrev Rules.Follow (s : Surroundings) : Rules → Rules → Prop :=
  Rules.Related (Follows s) (· ≤ ·)

/-! ## Layers and programs -/

namespace Rules.Follow

variable {s : Surroundings} {below below' : Rules}

theorem declarationRule (h : Rules.Follow s below below') :
    Follows s (declarationRule below) (declarationRule below') := by
  have hR := Follows.congruent s
  refine .tryCatch ((hR.soundDeclaration h).map some) (fun halt _ => ?_) fun halt hx => ?_
  · cases halt with
    | syntaxError => exact (hR.resume h.rounds).bind fun _ => .pure none
    | tooDeep | offEnd => exact .throw _
  · cases halt with
    | syntaxError => exact absurd hx s.syntaxError
    | tooDeep | offEnd => rfl

theorem above (h : Rules.Follow s below below') :
    Rules.Follow s (Rules.above below) (Rules.above below') :=
  (Follows.congruent s).above h h.declarationRule

/-- As many layers are enough, and fewer if they may be too few. -/
theorem atop {rounds rounds' : Nat} (hr : rounds ≤ rounds') : ∀ {nesting nesting' : Nat},
    nesting = nesting' ∨ s.excused .tooDeep ∧ nesting ≤ nesting' →
      Rules.Follow s (Rules.atop rounds nesting) (Rules.atop rounds' nesting')
  | 0, 0, _ => ⟨hr, .throw _, .throw _, .throw _, .throw _⟩
  | 0, _ + 1, h => by
    obtain ⟨hdeep, -⟩ := h.resolve_left (Nat.succ_ne_zero _).symm
    exact ⟨by simpa using hr, .excused hdeep, .excused hdeep, .excused hdeep, .excused hdeep⟩
  | nesting + 1, nesting' + 1, h => by
    have hbelow : nesting = nesting' ∨ s.excused .tooDeep ∧ nesting ≤ nesting' :=
      h.imp Nat.succ.inj fun h => ⟨h.1, Nat.le_of_succ_le_succ h.2⟩
    exact above (atop hr hbelow)
  | nesting + 1, 0, h => by simp at h

end Rules.Follow

namespace Follows

variable {s : Surroundings} {rules rules' : Rules}

/-- A declaration that nests too deeply is complained about in both runs, unless that is a reason
for which the first may be cut short. -/
protected theorem nextDeclaration (hs : ¬ s.excused .tooDeep) (h : Rules.Follow s rules rules') :
    Follows s (Program.nextDeclaration rules) (Program.nextDeclaration rules') := by
  refine .tryCatch (h.declaration.map some) (fun halt _ => ?_) fun halt hx => ?_
  · cases halt with
    | tooDeep => exact (Follows.complainAhead .tooDeep).bind fun _ => .pure none
    | syntaxError | offEnd => exact .throw _
  · cases halt with
    | tooDeep => exact absurd hx hs
    | syntaxError | offEnd => rfl

protected theorem programDeclarations (hs : ¬ s.excused .tooDeep) (h : Rules.Follow s rules rules') :
    ∀ {rounds rounds' : Nat}, rounds ≤ rounds' →
      Follows s (Program.declarations rules rounds) (Program.declarations rules' rounds')
  | 0, _, _ => .excused s.offEnd
  | _ + 1, _ + 1, hr => (congruent s).atEnd.bind fun _ => .ite (.pure _) <| by
    refine (Follows.nextDeclaration hs h).bind fun o => ?_
    cases o with
    | none => exact .pure _
    | some first =>
      exact (Follows.programDeclarations hs h (Nat.le_of_succ_le_succ hr)).bind fun _ => .pure _

end Follows

end LoxLang
