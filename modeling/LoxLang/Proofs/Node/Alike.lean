import LoxLang.Proofs.Node.Children
import Mathlib.Data.List.Forall2
/-!
# Nodes that agree

Two trees are alike if they have the same shape and their tokens agree place by place, where what it
means to agree may depend on the part that a token plays. A tree that is like itself in a strict
sense is well formed (`Likeness.proper`), and trees that differ in the lines of their tokens only
are alike in a loose one.
-/

namespace LoxLang

/-- The part that a token plays in a tree. -/
inductive Role where
  | used
  | declared
  | parameter
  | unary
  | binary
  | logical
  | paren
  | keyword
  deriving DecidableEq

/-- What stands at a place in a tree: an expression, or a statement. Only where a statement may
`bind` can it be a declaration. -/
inductive Site where
  | expression
  | statement (bind : Bool)
  deriving DecidableEq

/-- What it takes for two trees to agree. -/
structure Likeness where
  token : Role → Token → Token → Prop
  literal : Value → Prop
  /-- Whether nodes of the wrong sort are let through. -/
  misplaced : Prop

namespace Node

/-- Whether a node is an expression. -/
def isExpression : Node → Bool
  | literal _ | ident _ | assign .. | unary .. | binary .. | logical .. | grouping _ | call .. => true
  | _ => false

/-- Whether a node can be executed. -/
def isExecutable : Node → Bool
  | exprStmt _ | printStmt _ | varDecl .. | block _ | ifStmt .. | whileStmt .. | funDecl ..
  | returnStmt .. => true
  | _ => false

theorem isExecutable_of_isExpression {n : Node} (h : n.isExpression) : n.isExecutable = false := by
  cases n <;> first | rfl | cases h

/-- Whether a node is of the sort that belongs at a place. -/
def belongs (n : Node) : Site → Bool
  | .expression => n.isExpression
  | .statement _ => n.isExecutable

/-- Two nodes at a place agree. -/
inductive Alike (l : Likeness) : Site → Node → Node → Prop
  | literal {v} : l.literal v → Alike l .expression (.literal v) (.literal v)
  | ident {t t'} : l.token .used t t' → Alike l .expression (.ident t) (.ident t')
  | assign {t t' e e'} : l.token .used t t' → Alike l .expression e e' →
      Alike l .expression (.assign t e) (.assign t' e')
  | unary {t t' e e'} : l.token .unary t t' → Alike l .expression e e' →
      Alike l .expression (.unary t e) (.unary t' e')
  | binary {a a' t t' b b'} : Alike l .expression a a' → l.token .binary t t' →
      Alike l .expression b b' → Alike l .expression (.binary a t b) (.binary a' t' b')
  | logical {a a' t t' b b'} : Alike l .expression a a' → l.token .logical t t' →
      Alike l .expression b b' → Alike l .expression (.logical a t b) (.logical a' t' b')
  | grouping {e e'} : Alike l .expression e e' → Alike l .expression (.grouping e) (.grouping e')
  | call {f f' t t' as as'} : Alike l .expression f f' → l.token .paren t t' →
      List.Forall₂ (Alike l .expression) as as' → Alike l .expression (.call f t as) (.call f' t' as')
  | exprStmt {b e e'} : Alike l .expression e e' →
      Alike l (.statement b) (.exprStmt e) (.exprStmt e')
  | printStmt {b e e'} : Alike l .expression e e' →
      Alike l (.statement b) (.printStmt e) (.printStmt e')
  | block {b ns ns'} : List.Forall₂ (Alike l (.statement true)) ns ns' →
      Alike l (.statement b) (.block ns) (.block ns')
  | ifThen {b c c' s s'} : Alike l .expression c c' → Alike l (.statement b) s s' →
      Alike l (.statement b) (.ifStmt c s none) (.ifStmt c' s' none)
  | ifElse {b c c' s s' e e'} : Alike l .expression c c' → Alike l (.statement b) s s' →
      Alike l (.statement b) e e' →
      Alike l (.statement b) (.ifStmt c s (some e)) (.ifStmt c' s' (some e'))
  | whileStmt {b c c' s s'} : Alike l .expression c c' → Alike l (.statement b) s s' →
      Alike l (.statement b) (.whileStmt c s) (.whileStmt c' s')
  | returnNil {b t t'} : l.token .keyword t t' →
      Alike l (.statement b) (.returnStmt t none) (.returnStmt t' none)
  | returnValue {b t t' e e'} : l.token .keyword t t' → Alike l .expression e e' →
      Alike l (.statement b) (.returnStmt t (some e)) (.returnStmt t' (some e'))
  | varNil {t t'} : l.token .declared t t' →
      Alike l (.statement true) (.varDecl t none) (.varDecl t' none)
  | varValue {t t' e e'} : l.token .declared t t' → Alike l .expression e e' →
      Alike l (.statement true) (.varDecl t (some e)) (.varDecl t' (some e'))
  | funDecl {t t' ps ps' ns ns'} : l.token .declared t t' →
      List.Forall₂ (l.token .parameter) ps ps' →
      List.Forall₂ (Alike l (.statement true)) ns ns' →
      Alike l (.statement true) (.funDecl t ps ns) (.funDecl t' ps' ns')
  | misplaced {s n} : l.misplaced → n.belongs s = false → Alike l s n n

/-- What may stand where no declaration can may also stand where one can. -/
theorem Alike.toBind {l : Likeness} {b : Bool} {n n' : Node} :
    Alike l (.statement b) n n' → Alike l (.statement true) n n'
  | .exprStmt h => .exprStmt h
  | .printStmt h => .printStmt h
  | .block h => .block h
  | .ifThen hc h => .ifThen hc h.toBind
  | .ifElse hc h h' => .ifElse hc h.toBind h'.toBind
  | .whileStmt hc h => .whileStmt hc h.toBind
  | .returnNil h => .returnNil h
  | .returnValue h h' => .returnValue h h'
  | .varNil h => .varNil h
  | .varValue h h' => .varValue h h'
  | .funDecl h h' h'' => .funDecl h h' h''
  | .misplaced hm hn => .misplaced hm hn

theorem forall₂_eq {α : Type} {R : α → α → Prop} {as as' : List α} (h : List.Forall₂ R as as')
    (hR : ∀ a ∈ as, ∀ a', R a a' → a = a') : as = as' := by
  induction h with
  | nil => rfl
  | cons ha _ ih =>
    rw [hR _ (by simp) _ ha, ih fun a h => hR a (by simp [h])]

/-- Trees whose tokens are equal place by place are equal. -/
theorem Alike.eq {l : Likeness} (hl : ∀ {r t t'}, l.token r t t' → t = t') {s : Site}
    {n n' : Node} (h : Alike l s n n') : n = n' := by
  induction n using Node.induction generalizing s n' with
  | step n ih =>
    cases h with
    | literal | misplaced => rfl
    | ident ht | returnNil ht | varNil ht => rw [hl ht]
    | assign ht h | unary ht h | returnValue ht h | varValue ht h =>
      rw [hl ht, ih _ (by simp [children]) h]
    | grouping h | exprStmt h | printStmt h => rw [ih _ (by simp [children]) h]
    | binary h ht h' | logical h ht h' =>
      rw [hl ht, ih _ (by simp [children]) h, ih _ (by simp [children]) h']
    | ifThen h h' | whileStmt h h' =>
      rw [ih _ (by simp [children]) h, ih _ (by simp [children]) h']
    | ifElse h h' h'' =>
      rw [ih _ (by simp [children]) h, ih _ (by simp [children]) h', ih _ (by simp [children]) h'']
    | call h ht hs =>
      rw [hl ht, ih _ (by simp [children]) h,
        forall₂_eq hs fun m hm _ => ih m (by simp [children, hm])]
    | block hs => rw [forall₂_eq hs fun m hm _ => ih m (by simpa [children] using hm)]
    | funDecl ht hps hs =>
      rw [hl ht, forall₂_eq hps fun _ _ _ => hl,
        forall₂_eq hs fun m hm _ => ih m (by simpa [children] using hm)]

theorem forall₂_imp {α : Type} {R S : α → α → Prop} {as as' : List α} (h : List.Forall₂ R as as')
    (hRS : ∀ a ∈ as, ∀ a', R a a' → S a a') : List.Forall₂ S as as' := by
  induction h with
  | nil => exact .nil
  | cons ha _ ih => exact .cons (hRS _ (by simp) _ ha) (ih fun a h => hRS a (by simp [h]))

/-- The tokens of a node itself, with the parts that they play. -/
def ownTokens : Node → List (Role × Token)
  | ident t | assign t _ => [(.used, t)]
  | unary t _ => [(.unary, t)]
  | binary _ t _ => [(.binary, t)]
  | logical _ t _ => [(.logical, t)]
  | call _ t _ => [(.paren, t)]
  | varDecl t _ => [(.declared, t)]
  | funDecl t ps _ => (.declared, t) :: ps.map (.parameter, ·)
  | returnStmt t _ => [(.keyword, t)]
  | _ => []

/-- Trees whose tokens agree in one sense agree in another, if each of their tokens does. -/
theorem Alike.impWithin {l l' : Likeness} {s : Site} {n n' : Node}
    (ht : ∀ {k : Node} {r t t'}, k.Within n → (r, t) ∈ k.ownTokens → l.token r t t' → l'.token r t t')
    (hv : ∀ {v}, l.literal v → l'.literal v) (hm : l.misplaced → l'.misplaced)
    (h : Alike l s n n') : Alike l' s n n' := by
  induction n using Node.induction generalizing s n' with
  | step n ih =>
    have below : ∀ {m s n'}, m ∈ n.children → Alike l s m n' → Alike l' s m n' :=
      fun hmem => ih _ hmem fun hk => ht (.inside hmem hk)
    have own : ∀ {r t t'}, (r, t) ∈ n.ownTokens → l.token r t t' → l'.token r t t' := ht .top
    cases h with
    | literal h => exact .literal (hv h)
    | ident h => exact .ident (own (by simp [ownTokens]) h)
    | assign h he => exact .assign (own (by simp [ownTokens]) h) (below (by simp [children]) he)
    | unary h he => exact .unary (own (by simp [ownTokens]) h) (below (by simp [children]) he)
    | binary ha h hb =>
      exact .binary (below (by simp [children]) ha) (own (by simp [ownTokens]) h)
        (below (by simp [children]) hb)
    | logical ha h hb =>
      exact .logical (below (by simp [children]) ha) (own (by simp [ownTokens]) h)
        (below (by simp [children]) hb)
    | grouping he => exact .grouping (below (by simp [children]) he)
    | call hf h has =>
      exact .call (below (by simp [children]) hf) (own (by simp [ownTokens]) h)
        (forall₂_imp has fun m hm _ => below (by simp [children, hm]))
    | exprStmt he => exact .exprStmt (below (by simp [children]) he)
    | printStmt he => exact .printStmt (below (by simp [children]) he)
    | block hs => exact .block (forall₂_imp hs fun m hm _ => below (by simpa [children] using hm))
    | ifThen hc hs =>
      exact .ifThen (below (by simp [children]) hc) (below (by simp [children]) hs)
    | ifElse hc hs he =>
      exact .ifElse (below (by simp [children]) hc) (below (by simp [children]) hs)
        (below (by simp [children]) he)
    | whileStmt hc hs =>
      exact .whileStmt (below (by simp [children]) hc) (below (by simp [children]) hs)
    | returnNil h => exact .returnNil (own (by simp [ownTokens]) h)
    | returnValue h he =>
      exact .returnValue (own (by simp [ownTokens]) h) (below (by simp [children]) he)
    | varNil h => exact .varNil (own (by simp [ownTokens]) h)
    | varValue h he =>
      exact .varValue (own (by simp [ownTokens]) h) (below (by simp [children]) he)
    | funDecl h hps hs =>
      exact .funDecl (own (by simp [ownTokens]) h)
        (forall₂_imp hps fun p hp _ => own (by simp [ownTokens, hp]))
        (forall₂_imp hs fun m hm _ => below (by simpa [children] using hm))
    | misplaced h hn => exact .misplaced (hm h) hn

/-- Trees that agree in a strict sense agree in a looser one. -/
theorem Alike.imp {l l' : Likeness} (ht : ∀ {r t t'}, l.token r t t' → l'.token r t t')
    (hv : ∀ {v}, l.literal v → l'.literal v) (hm : l.misplaced → l'.misplaced) {s : Site}
    {n n' : Node} (h : Alike l s n n') : Alike l' s n n' :=
  h.impWithin (fun _ _ => ht) hv hm

/-- The expression that a statement consists of agrees with itself if the statement does. -/
theorem Alike.soleExpression? {l : Likeness} {b : Bool} {n e : Node} (hl : ¬ l.misplaced)
    (hn : Alike l (.statement b) n n) (h : n.soleExpression? = some e) :
    Alike l .expression e e := by
  cases hn with
  | exprStmt he | printStmt he =>
    cases h
    exact he
  | misplaced hm => exact absurd hm hl
  | _ => cases h

/-- In a tree that is like itself, with no node of the wrong sort let through, every node belongs
somewhere and is like itself there. -/
theorem Alike.within {l : Likeness} (hl : ¬ l.misplaced) {s : Site} {n k : Node} (h : Alike l s n n)
    (hk : k.Within n) : ∃ s, k.belongs s ∧ Alike l s k k := by
  induction hk generalizing s with
  | top =>
    refine ⟨s, ?_, h⟩
    cases h with
    | misplaced hm => exact absurd hm hl
    | _ => rfl
  | inside hm _ ih =>
    cases h with
    | literal | ident | returnNil | varNil => cases hm
    | assign _ h | unary _ h | returnValue _ h | varValue _ h | grouping h | exprStmt h
    | printStmt h =>
      obtain rfl := List.mem_singleton.1 hm
      exact ih h
    | binary h _ h' | logical h _ h' | ifThen h h' | whileStmt h h' =>
      rcases List.mem_pair.1 hm with rfl | rfl
      · exact ih h
      · exact ih h'
    | ifElse h h' h'' =>
      rcases List.mem_cons.1 hm with rfl | hm
      · exact ih h
      · rcases List.mem_pair.1 hm with rfl | rfl
        · exact ih h'
        · exact ih h''
    | call h _ hs =>
      rcases List.mem_cons.1 hm with rfl | hm
      · exact ih h
      · exact ih (List.forall₂_same.1 hs _ hm)
    | block hs | funDecl _ _ hs => exact ih (List.forall₂_same.1 hs _ hm)
    | misplaced hm => exact absurd hm hl

end Node

/-- Everything agrees with itself. -/
structure Likeness.Reflexive (l : Likeness) : Prop where
  token : ∀ r t, l.token r t t
  literal : ∀ v, l.literal v
  misplaced : l.misplaced

namespace Node

variable {l : Likeness}

/-- Any tree agrees with itself wherever a declaration can stand. -/
theorem alike_self (hl : l.Reflexive) (n : Node) :
    Alike l .expression n n ∧ Alike l (.statement true) n n := by
  have lists : ∀ {ns : List Node} {s : Site}, (∀ m ∈ ns, Alike l s m m) →
      List.Forall₂ (Alike l s) ns ns := fun h => List.forall₂_same.2 h
  induction n using Node.induction with
  | step n ih =>
    have expression : ∀ m ∈ n.children, Alike l .expression m m := fun m hm => (ih m hm).1
    have statement : ∀ m ∈ n.children, Alike l (.statement true) m m := fun m hm => (ih m hm).2
    -- A node belongs at one of the two sites; at the other it is let through.
    have stray : ∀ s, n.belongs s = false → Alike l s n n := fun s => .misplaced hl.misplaced
    cases n with
    | literal v => exact ⟨.literal (hl.literal v), stray _ rfl⟩
    | ident t => exact ⟨.ident (hl.token _ t), stray _ rfl⟩
    | assign t e => exact ⟨.assign (hl.token _ t) (expression e (by simp [children])), stray _ rfl⟩
    | unary t e => exact ⟨.unary (hl.token _ t) (expression e (by simp [children])), stray _ rfl⟩
    | binary a t b =>
      exact ⟨.binary (expression a (by simp [children])) (hl.token _ t)
        (expression b (by simp [children])), stray _ rfl⟩
    | logical a t b =>
      exact ⟨.logical (expression a (by simp [children])) (hl.token _ t)
        (expression b (by simp [children])), stray _ rfl⟩
    | grouping e => exact ⟨.grouping (expression e (by simp [children])), stray _ rfl⟩
    | call f t as =>
      exact ⟨.call (expression f (by simp [children])) (hl.token _ t)
        (lists fun m hm => expression m (by simp [children, hm])), stray _ rfl⟩
    | exprStmt e => exact ⟨stray _ rfl, .exprStmt (expression e (by simp [children]))⟩
    | printStmt e => exact ⟨stray _ rfl, .printStmt (expression e (by simp [children]))⟩
    | varDecl t o =>
      refine ⟨stray _ rfl, ?_⟩
      cases o with
      | none => exact .varNil (hl.token _ t)
      | some e => exact .varValue (hl.token _ t) (expression e (by simp [children]))
    | block ns =>
      exact ⟨stray _ rfl, .block (lists fun m hm => statement m (by simpa [children] using hm))⟩
    | ifStmt c s o =>
      refine ⟨stray _ rfl, ?_⟩
      cases o with
      | none =>
        exact .ifThen (expression c (by simp [children])) (statement s (by simp [children]))
      | some e =>
        exact .ifElse (expression c (by simp [children])) (statement s (by simp [children]))
          (statement e (by simp [children]))
    | whileStmt c s =>
      exact ⟨stray _ rfl,
        .whileStmt (expression c (by simp [children])) (statement s (by simp [children]))⟩
    | funDecl t ps ns =>
      exact ⟨stray _ rfl, .funDecl (hl.token _ t) (List.forall₂_same.2 fun p _ => hl.token _ p)
        (lists fun m hm => statement m (by simpa [children] using hm))⟩
    | returnStmt t o =>
      refine ⟨stray _ rfl, ?_⟩
      cases o with
      | none => exact .returnNil (hl.token _ t)
      | some e => exact .returnValue (hl.token _ t) (expression e (by simp [children]))
    | bare => exact ⟨stray _ rfl, stray _ rfl⟩

end Node

end LoxLang
