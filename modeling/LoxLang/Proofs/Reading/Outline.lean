import LoxLang.Proofs.Reading.Confined
import LoxLang.Proofs.Reading.Mirrored
/-!
# Only kinds are read

A program has an outline, in which numbers and strings still are tokens. Whatever is done to the
tokens of a list without changing their kinds is done to the tokens of its outline, and the literals
become those of the new tokens. To find the outline, every token of the list is replaced by a mark
of the same kind that tells its place; what is read then says which place each token comes from.
-/

namespace LoxLang

/-- A tree in which a literal that was read off a token still is the token. -/
inductive Outline where
  /-- A literal that is a word of its own. -/
  | word (v : Value)
  | literal (t : Token)
  | ident (name : Token)
  | assign (name : Token) (value : Outline)
  | unary (operator : Token) (right : Outline)
  | binary (left : Outline) (operator : Token) (right : Outline)
  | logical (left : Outline) (operator : Token) (right : Outline)
  | grouping (inner : Outline)
  | call (callee : Outline) (paren : Token) (arguments : List Outline)
  | exprStmt (value : Outline)
  | printStmt (value : Outline)
  | varDecl (name : Token) (value : Outline)
  | block (body : List Outline)
  | ifStmt (condition thenBranch : Outline) (elseBranch : Option Outline)
  | whileStmt (condition body : Outline)
  | funDecl (name : Token) (params : List Token) (body : List Outline)
  | returnStmt (keyword : Token) (value : Option Outline)

namespace Outline

mutual

/-- The tree of an outline, with `f` applied to every token. -/
def fill (f : Token → Token) : Outline → Node
  | word v => .literal v
  | literal t => .literal (f t).literal
  | ident name => .ident (f name)
  | assign name value => .assign (f name) (value.fill f)
  | unary operator right => .unary (f operator) (right.fill f)
  | binary left operator right => .binary (left.fill f) (f operator) (right.fill f)
  | logical left operator right => .logical (left.fill f) (f operator) (right.fill f)
  | grouping inner => .grouping (inner.fill f)
  | call callee paren arguments => .call (callee.fill f) (f paren) (fills f arguments)
  | exprStmt value => .exprStmt (value.fill f)
  | printStmt value => .printStmt (value.fill f)
  | varDecl name value => .varDecl (f name) (some (value.fill f))
  | block body => .block (fills f body)
  | ifStmt condition thenBranch none => .ifStmt (condition.fill f) (thenBranch.fill f) none
  | ifStmt condition thenBranch (some elseBranch) =>
    .ifStmt (condition.fill f) (thenBranch.fill f) (some (elseBranch.fill f))
  | whileStmt condition body => .whileStmt (condition.fill f) (body.fill f)
  | funDecl name params body => .funDecl (f name) (params.map f) (fills f body)
  | returnStmt keyword none => .returnStmt (f keyword) none
  | returnStmt keyword (some value) => .returnStmt (f keyword) (some (value.fill f))

/-- The trees of some outlines. -/
def fills (f : Token → Token) : List Outline → List Node
  | [] => []
  | o :: os => o.fill f :: fills f os

end

end Outline

/-- The same complaint about another token. -/
def Complaint.relabel (f : Token → Token) (x : Complaint) : Complaint := { x with token := f x.token }

/-! ## Marks -/

/-- A token of the given kind that tells its place, also by its literal. -/
def Token.mark (place : ℕ) (kind : Kind) : Token := ⟨kind, "", .function ⟨place, "", 0⟩, place⟩

/-- The place that a mark tells. -/
def Token.place (t : Token) : ℕ := t.line.toNat

/-- Each mark stands for the token in its place. -/
def Mirror.marks (tokens : ℕ → Token) : Mirror where
  token u t := ∃ place, u = .mark place t.kind ∧ t = tokens place
  kind := by
    rintro _ t ⟨place, rfl, -⟩
    rfl

namespace Node

mutual

/-- The outline of a tree of marks, with the tokens in their places. -/
def outline (tokens : ℕ → Token) : Node → Outline
  | literal (.function f) => .literal (tokens f.id)
  | literal v => .word v
  | ident name => .ident (tokens name.place)
  | assign name value => .assign (tokens name.place) (value.outline tokens)
  | unary operator right => .unary (tokens operator.place) (right.outline tokens)
  | binary left operator right =>
    .binary (left.outline tokens) (tokens operator.place) (right.outline tokens)
  | logical left operator right =>
    .logical (left.outline tokens) (tokens operator.place) (right.outline tokens)
  | grouping inner => .grouping (inner.outline tokens)
  | call callee paren arguments =>
    .call (callee.outline tokens) (tokens paren.place) (outlines tokens arguments)
  | exprStmt value => .exprStmt (value.outline tokens)
  | printStmt value => .printStmt (value.outline tokens)
  | varDecl name (some value) => .varDecl (tokens name.place) (value.outline tokens)
  | block body => .block (outlines tokens body)
  | ifStmt condition thenBranch none =>
    .ifStmt (condition.outline tokens) (thenBranch.outline tokens) none
  | ifStmt condition thenBranch (some elseBranch) =>
    .ifStmt (condition.outline tokens) (thenBranch.outline tokens) (some (elseBranch.outline tokens))
  | whileStmt condition body => .whileStmt (condition.outline tokens) (body.outline tokens)
  | funDecl name params body =>
    .funDecl (tokens name.place) (params.map fun t => tokens t.place) (outlines tokens body)
  | returnStmt keyword none => .returnStmt (tokens keyword.place) none
  | returnStmt keyword (some value) =>
    .returnStmt (tokens keyword.place) (some (value.outline tokens))
  -- The grammar makes no other trees.
  | varDecl _ none | bare _ => .word .nil

/-- The outlines of some trees of marks. -/
def outlines (tokens : ℕ → Token) : List Node → List Outline
  | [] => []
  | n :: ns => n.outline tokens :: outlines tokens ns

end

end Node

variable {tokens : ℕ → Token} {f : Token → Token}

theorem Mirror.place_of_marks {u t : Token} (h : (Mirror.marks (f ∘ tokens)).token u t) :
    f (tokens u.place) = t := by
  obtain ⟨place, rfl, rfl⟩ := h
  rfl

theorem map_eq_of_forall₂ {α β : Type} {R : α → β → Prop} {g : α → β} {as : List α} {bs : List β}
    (h : List.Forall₂ R as bs) (hg : ∀ a ∈ as, ∀ b, R a b → g a = b) : as.map g = bs := by
  induction h with
  | nil => rfl
  | cons hab _ ih =>
    rw [List.map_cons, hg _ (by simp) _ hab, ih fun a ha => hg a (by simp [ha])]

namespace Node

theorem fills_outlines {ns ns' : List Node}
    (h : List.Forall₂ (Node.Mirrors (.marks (f ∘ tokens))) ns ns')
    (ih : ∀ n ∈ ns, ∀ n', n.Mirrors (.marks (f ∘ tokens)) n' → (n.outline tokens).fill f = n') :
    Outline.fills f (outlines tokens ns) = ns' := by
  induction h with
  | nil => simp only [outlines, Outline.fills]
  | cons hn _ ihns =>
    simp only [outlines, Outline.fills]
    rw [ih _ (by simp) _ hn, ihns fun n hn => ih n (by simp [hn])]

/-- The outline of a tree of marks stands for whatever tree has tokens in place of the marks. -/
theorem fill_outline {n n' : Node} (h : n.Mirrors (.marks (f ∘ tokens)) n') :
    (n.outline tokens).fill f = n' := by
  induction n using Node.induction generalizing n' with
  | step n ih =>
    cases h with
    | word hv =>
      obtain rfl | ⟨b, rfl⟩ := hv <;> simp only [outline, Outline.fill]
    | value ht =>
      obtain ⟨place, rfl, rfl⟩ := ht
      simp only [Token.mark, outline, Outline.fill, Function.comp_apply]
    | ident ht => simp only [outline, Outline.fill, Mirror.place_of_marks ht]
    | assign ht h | unary ht h | varDecl ht h | returnValue ht h =>
      simp only [outline, Outline.fill, Mirror.place_of_marks ht, ih _ (by simp [children]) h]
    | binary ha ht hb | logical ha ht hb =>
      simp only [outline, Outline.fill, Mirror.place_of_marks ht, ih _ (by simp [children]) ha,
        ih _ (by simp [children]) hb]
    | grouping h | exprStmt h | printStmt h =>
      simp only [outline, Outline.fill, ih _ (by simp [children]) h]
    | call hcallee ht has =>
      simp only [outline, Outline.fill, Mirror.place_of_marks ht, ih _ (by simp [children]) hcallee,
        fills_outlines has fun m hm n' => ih m (by simp [children, hm])]
    | block hns =>
      simp only [outline, Outline.fill, fills_outlines hns fun m hm n' => ih m (by simpa [children])]
    | ifThen hc hs | whileStmt hc hs =>
      simp only [outline, Outline.fill, ih _ (by simp [children]) hc, ih _ (by simp [children]) hs]
    | ifElse hc hs he =>
      simp only [outline, Outline.fill, ih _ (by simp [children]) hc, ih _ (by simp [children]) hs,
        ih _ (by simp [children]) he]
    | @funDecl _ _ ps ps' _ _ ht hps hns =>
      have hparams : (ps.map fun t => tokens t.place).map f = ps' := by
        rw [List.map_map]
        exact map_eq_of_forall₂ hps fun _ _ _ => Mirror.place_of_marks
      simp only [outline, Outline.fill, Mirror.place_of_marks ht, hparams,
        fills_outlines hns fun m hm n' => ih m (by simpa [children])]
    | returnNil ht => simp only [outline, Outline.fill, Mirror.place_of_marks ht]

end Node

/-! ## Programs -/

theorem Complaint.relabel_marks {x x' : Complaint} (h : x.Mirrors (.marks (f ∘ tokens)) x') :
    (x.relabel fun u => tokens u.place).relabel f = x' := by
  obtain ⟨position, u, objection⟩ := x
  obtain ⟨position', t, objection'⟩ := x'
  obtain ⟨rfl, ht, rfl⟩ := h
  change Complaint.mk position (f (tokens u.place)) objection = _
  rw [Mirror.place_of_marks ht]

/-- The marks for a list of tokens. -/
def Token.marks (ts : List Token) : List Token := ts.mapIdx fun place t => .mark place t.kind

/-- The token in a place of a list. -/
def Token.inPlace (ts : List Token) (place : ℕ) : Token := ts.getD place (.eof 0)

/-- The marks stand for the tokens, whatever is done to these without changing their kinds. -/
theorem Token.marks_forall₂ {ts : List Token} (hf : ∀ t ∈ ts, (f t).kind = t.kind) :
    List.Forall₂ (Mirror.marks (f ∘ Token.inPlace ts)).token (Token.marks ts) (ts.map f) := by
  rw [List.forall₂_iff_get]
  refine ⟨by simp [Token.marks], fun place h h' => ?_⟩
  have hplace : place < ts.length := by simpa using h'
  refine ⟨place, ?_, ?_⟩
  · simp [Token.marks, hf ts[place] (List.getElem_mem hplace)]
  · simp [Token.inPlace, hplace]

namespace Program

/-- What is read off the marks for some tokens tells what is read off the tokens. -/
theorem within?_of_marks {nesting : ℕ} {ts : List Token} {p : Program}
    (h : within? nesting (Token.marks ts) = some p) (hf : ∀ t ∈ ts, (f t).kind = t.kind) :
    within? nesting (ts.map f) =
      some ⟨(p.statements.map (Node.outline (Token.inPlace ts))).map (Outline.fill f),
        (p.complaints.map (Complaint.relabel fun u => Token.inPlace ts u.place)).map
          (Complaint.relabel f)⟩ := by
  have hread := within?_mirrored nesting (Token.marks_forall₂ hf)
  rw [h] at hread
  cases e : within? nesting (ts.map f) with
  | none =>
    rw [e] at hread
    cases hread
  | some p' =>
    rw [e] at hread
    obtain ⟨statements, complaints⟩ := p'
    cases hread with
    | some hread =>
      have hstatements : (p.statements.map (Node.outline (Token.inPlace ts))).map (Outline.fill f) =
          statements := by
        rw [List.map_map]
        exact map_eq_of_forall₂ hread.1 fun _ _ _ => Node.fill_outline
      have hcomplaints : (p.complaints.map (Complaint.relabel fun u => Token.inPlace ts u.place)).map
          (Complaint.relabel f) = complaints := by
        rw [List.map_map]
        exact map_eq_of_forall₂ hread.2 fun _ _ _ => Complaint.relabel_marks
      rw [hstatements, hcomplaints]

/-- Tokens with an end token are read as outlines, with complaints. Whatever is done to the tokens
without changing their kinds, they are read as the same outlines with the same complaints, in which
the same is done to every token; the literals are those of the new tokens. -/
theorem within?_map (nesting : ℕ) {ts : List Token} (hend : ∃ t ∈ ts, t.kind = .eof) :
    ∃ (outlines : List Outline) (complaints : List Complaint),
      within? nesting ts = some ⟨outlines.map (Outline.fill id), complaints⟩ ∧
      ∀ f : Token → Token, (∀ t, (f t).kind = t.kind) →
        within? nesting (ts.map f) =
          some ⟨outlines.map (Outline.fill f), complaints.map (Complaint.relabel f)⟩ := by
  obtain ⟨ns, -, c, -, -, hread⟩ := within?_eq_some nesting hend
  -- There is a program of the marks, since there is one of the tokens.
  obtain ⟨p, hmarks⟩ : ∃ p, within? nesting (Token.marks ts) = some p := by
    have hmirrored := within?_mirrored nesting (Token.marks_forall₂ (f := id) fun t (_ : t ∈ ts) => rfl)
    rw [List.map_id, hread] at hmirrored
    cases e : within? nesting (Token.marks ts) with
    | none =>
      rw [e] at hmirrored
      cases hmirrored
    | some p => exact ⟨p, rfl⟩
  have hid := within?_of_marks hmarks (f := id) fun _ _ => rfl
  have hrelabel : Complaint.relabel id = id := rfl
  rw [List.map_id, hrelabel, List.map_id] at hid
  exact ⟨_, _, hid, fun f hf => within?_of_marks hmarks fun t _ => hf t⟩

/-- An assignment to a number, on the first line. -/
def misassignment : List Token :=
  [⟨.number, "1", .number 1, 1⟩, ⟨.equal, "=", .nil, 1⟩, ⟨.identifier, "x", .string "x", 1⟩,
   ⟨.semicolon, ";", .nil, 1⟩, .eof 1]

theorem within?_map_moved :
    let moved (t : Token) : Token := { t with lexeme := t.lexeme ++ t.lexeme, line := t.line + 3 }
    (∃ t ∈ misassignment, t.kind = .eof) ∧ (∀ t, (moved t).kind = t.kind) ∧
      (within? 3 (misassignment.map moved)).map complaints =
        some [⟨1, ⟨.equal, "==", .nil, 4⟩, .invalidTarget⟩] := by
  intro moved
  have hend : ∃ t ∈ misassignment, t.kind = .eof := ⟨.eof 1, by decide, rfl⟩
  obtain ⟨outlines, cs, hread, hmoved⟩ := within?_map 3 hend
  have hcomplaints : (within? 3 misassignment).map complaints =
      some [⟨1, ⟨.equal, "=", .nil, 1⟩, .invalidTarget⟩] := rfl
  rw [hread, Option.map_some, Option.some_inj] at hcomplaints
  refine ⟨hend, fun _ => rfl, ?_⟩
  rw [hmoved moved fun _ => rfl, Option.map_some]
  dsimp only at hcomplaints ⊢
  rw [hcomplaints]
  rfl

end Program

end LoxLang
