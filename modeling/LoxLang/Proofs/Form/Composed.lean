import LoxLang.Proofs.Form.RoundTrip
/-!
# What forms mean

Every head asks for its own operands. A form is well formed if all heads in it take the operands they
have; its compounds are ordered from the inside out and from left to right, and the first head that
does not take its operands is the fault. What a form means is an expression whose tokens all stand on
line one, and there is only one.
-/

namespace LoxLang

namespace Form

/-! ## Compound forms -/

/-- A head and the operands it has. -/
structure Compound where
  head : String
  operands : List Form

mutual

/-- How many parentheses are open around the innermost head. -/
def depth : Form → ℕ
  | number _ => 0
  | string _ => 0
  | name _ => 0
  | list _ operands => depths operands + 1

/-- The greatest depth of some forms. -/
def depths : List Form → ℕ
  | [] => 0
  | f :: fs => max f.depth (depths fs)

end

mutual

/-- The compounds in a form, from the inside out and from left to right. -/
def compounds : Form → List Compound
  | number _ => []
  | string _ => []
  | name _ => []
  | list head operands => allCompounds operands ++ [⟨head, operands⟩]

/-- The compounds in some forms, from left to right. -/
def allCompounds : List Form → List Compound
  | [] => []
  | f :: fs => f.compounds ++ allCompounds fs

end

/-- A head takes the operands it has. -/
inductive Compound.Allowed : Compound → Prop
  | group {f : Form} : Allowed ⟨"group", [f]⟩
  | call {callee : Form} {arguments : List Form} : Allowed ⟨"call", callee :: arguments⟩
  | logical {head : String} {f g : Form} : head ∈ ["and", "or"] → Allowed ⟨head, [f, g]⟩
  | assign {text : String} {f : Form} : text ∉ literalNames → Allowed ⟨"=", [.name text, f]⟩
  | unary {head : String} {f : Form} : head ∈ ["!", "-"] → Allowed ⟨head, [f]⟩
  | binary {head : String} {f g : Form} :
      head ∈ ["+", "-", "*", "/", "==", "!=", "<", "<=", ">", ">="] → Allowed ⟨head, [f, g]⟩

theorem Compound.Allowed.single {head : String} {f : Form} (h : Allowed ⟨head, [f]⟩) :
    head ∈ ["group", "call", "!", "-"] := by
  cases h with
  | group | call => simp
  | unary hhead =>
    rcases List.mem_pair.1 hhead with rfl | rfl <;> simp

/-- All heads in a form take the operands they have. -/
def WellFormed (f : Form) : Prop := ∀ c ∈ f.compounds, c.Allowed

/-- The first of some compounds whose head does not take its operands. -/
inductive FirstFault : List Compound → Compound → Prop
  | here {c : Compound} {cs : List Compound} : ¬ c.Allowed → FirstFault (c :: cs) c
  | later {b c : Compound} {cs : List Compound} : b.Allowed → FirstFault cs c →
      FirstFault (b :: cs) c

namespace FirstFault

variable {cs : List Compound} {c c' : Compound}

theorem append (h : FirstFault cs c) (cs' : List Compound) : FirstFault (cs ++ cs') c := by
  induction h with
  | here hc => exact .here hc
  | later hb _ ih => exact .later hb ih

theorem behind (h : FirstFault cs c) {before : List Compound} (hb : ∀ b ∈ before, b.Allowed) :
    FirstFault (before ++ cs) c := by
  induction before with
  | nil => exact h
  | cons b before ih => exact .later (hb b (by simp)) (ih fun d hd => hb d (by simp [hd]))

theorem not_forall (h : FirstFault cs c) : ¬ ∀ b ∈ cs, b.Allowed := by
  induction h with
  | here hc => exact fun hall => hc (hall _ List.mem_cons_self)
  | later _ _ ih => exact fun hall => ih fun b hb => hall b (List.mem_cons_of_mem _ hb)

/-- There is only one first fault. -/
theorem unique (h : FirstFault cs c) (h' : FirstFault cs c') : c = c' := by
  induction h with
  | here hc =>
    cases h' with
    | here => rfl
    | later hallowed => exact absurd hallowed hc
  | later hallowed _ ih =>
    cases h' with
    | here hc => exact absurd hallowed hc
    | later _ h' => exact ih h'

end FirstFault

/-! ## Meaning -/

/-- The names that stand for values, and these values. -/
def literalValues : List (String × Value) := [("true", .bool true), ("false", .bool false), ("nil", .nil)]

/-- The expression that a head makes of the expressions of its operands. -/
inductive Composed : String → List Node → Node → Prop
  | group {n : Node} : Composed "group" [n] (.grouping n)
  | call {callee : Node} {arguments : List Node} :
      Composed "call" (callee :: arguments) (.call callee (.plain .rightParen ")") arguments)
  | logical {head : String} {kind : Kind} {left right : Node} : (head, kind) ∈ logicalHeads →
      Composed head [left, right] (.logical left (.plain kind head) right)
  | assign {t : Token} {value : Node} : Composed "=" [.ident t, value] (.assign t value)
  | unary {head : String} {kind : Kind} {right : Node} : (head, kind) ∈ unaryHeads →
      Composed head [right] (.unary (.plain kind head) right)
  | binary {head : String} {kind : Kind} {left right : Node} : (head, kind) ∈ binaryHeads →
      Composed head [left, right] (.binary left (.plain kind head) right)

/-- The expression of a form, with all tokens on line one. -/
inductive Means : Form → Node → Prop
  | number {value : Decimal} : Means (.number value) (.literal (.number value.toFloat))
  | string {body : String} : Means (.string body) (.literal (.string body))
  | literal {text : String} {v : Value} : (text, v) ∈ literalValues →
      Means (.name text) (.literal v)
  | ident {text : String} : text ∉ literalNames →
      Means (.name text) (.ident ⟨.identifier, text, .string text, 1⟩)
  | list {head : String} {operands : List Form} {ns : List Node} {n : Node} :
      List.Forall₂ Means operands ns → Composed head ns n → Means (.list head operands) n

theorem means_name_iff {text : String} {n : Node} :
    Means (.name text) n ↔ n = nameNode text := by
  constructor
  · intro h
    cases h with
    | literal h =>
      simp only [literalValues, List.mem_cons, Prod.mk.injEq, List.not_mem_nil, or_false] at h
      rcases h with ⟨rfl, rfl⟩ | ⟨rfl, rfl⟩ | ⟨rfl, rfl⟩ <;> rfl
    | ident h =>
      simp only [literalNames, List.mem_cons, List.not_mem_nil, or_false, not_or] at h
      rw [nameNode, if_neg h.1, if_neg h.2.1, if_neg h.2.2]
  · rintro rfl
    unfold nameNode
    split
    · next h => exact .literal (by simp [h, literalValues])
    split
    · next h => exact .literal (by simp [h, literalValues])
    split
    · next h => exact .literal (by simp [h, literalValues])
    · next htrue hfalse hnil => exact .ident (by simp [literalNames, htrue, hfalse, hnil])

/-- A head makes an expression of its operands as it says. -/
theorem composed_iff {head : String} {ns : List Node} {n : Node} :
    Composed head ns n ↔ compose? head ns = some n := by
  constructor
  · rintro (_ | _ | h | _ | h | h)
    · rfl
    · rfl
    · exact compose?_logical (t := .plain _ _) h _ _
    · rfl
    · exact compose?_unary (t := .plain _ _) h _
    · exact compose?_binary (t := .plain _ _) h _ _
  · intro h
    unfold compose? at h
    split at h
    · cases h
    split at h
    · next hcall =>
      cases h
      exact hcall ▸ .call
    split at h
    · unfold unary? at h
      split at h
      · next hgroup =>
        cases h
        exact hgroup ▸ .group
      · obtain ⟨kind, hkind, rfl⟩ := Option.map_eq_some_iff.1 h
        exact .unary (mem_of_lookup hkind)
    · unfold binary? at h
      split at h
      · next hkind =>
        cases h
        exact .logical (mem_of_lookup hkind)
      · next hkind =>
        cases h
        exact .binary (mem_of_lookup hkind)
      · split at h
        · split at h
          · next hassign =>
            cases h
            exact hassign ▸ .assign
          · cases h
        · cases h
    · cases h

theorem means_ident {f : Form} {t : Token} (h : f.Means (.ident t)) :
    ∃ text, f = .name text ∧ text ∉ literalNames := by
  cases h with
  | ident htext => exact ⟨_, rfl, htext⟩
  | list _ hn => cases hn

theorem mem_heads (heads : List (String × Kind)) {head : String} :
    head ∈ heads.map Prod.fst ↔ ∃ kind, (head, kind) ∈ heads := by
  simp

/-- A head takes operands exactly if it makes an expression of what they mean. -/
theorem allowed_iff {head : String} {operands : List Form} {ns : List Node}
    (h : List.Forall₂ Means operands ns) :
    Compound.Allowed ⟨head, operands⟩ ↔ ∃ n, Composed head ns n := by
  constructor
  · intro ha
    rcases h with _ | ⟨hf, _ | ⟨hg, _ | _⟩⟩
    · cases ha
    · cases ha with
      | group => exact ⟨_, .group⟩
      | call => exact ⟨_, .call⟩
      | unary hhead =>
        obtain ⟨kind, hkind⟩ := (mem_heads unaryHeads).1 hhead
        exact ⟨_, .unary hkind⟩
    · cases ha with
      | call => exact ⟨_, .call⟩
      | logical hhead =>
        obtain ⟨kind, hkind⟩ := (mem_heads logicalHeads).1 hhead
        exact ⟨_, .logical hkind⟩
      | assign htext =>
        cases (means_name_iff.1 hf).trans (means_name_iff.1 (.ident htext)).symm
        exact ⟨_, .assign⟩
      | binary hhead =>
        obtain ⟨kind, hkind⟩ := (mem_heads binaryHeads).1 hhead
        exact ⟨_, .binary hkind⟩
    · cases ha with
      | call => exact ⟨_, .call⟩
  · rintro ⟨n, hn⟩
    rcases h with _ | ⟨hf, _ | ⟨hg, _ | _⟩⟩
    · cases hn
    · cases hn with
      | group => exact .group
      | call => exact .call
      | unary hkind => exact .unary ((mem_heads unaryHeads).2 ⟨_, hkind⟩)
    · cases hn with
      | call => exact .call
      | logical hkind => exact .logical ((mem_heads logicalHeads).2 ⟨_, hkind⟩)
      | assign =>
        obtain ⟨text, rfl, htext⟩ := means_ident hf
        exact .assign htext
      | binary hkind => exact .binary ((mem_heads binaryHeads).2 ⟨_, hkind⟩)
    · cases hn with
      | call => exact .call

mutual

/-- A form means one expression. -/
theorem Means.unique : ∀ {f : Form} {n n' : Node}, f.Means n → f.Means n' → n = n'
  | .number _, _, _, .number, .number => rfl
  | .string _, _, _, .string, .string => rfl
  | .name _, _, _, h, h' => (means_name_iff.1 h).trans (means_name_iff.1 h').symm
  | .list _ _, _, _, .list h hn, .list h' hn' => by
    cases meansAll_unique h h'
    exact Option.some.inj ((composed_iff.1 hn).symm.trans (composed_iff.1 hn'))

theorem meansAll_unique : ∀ {fs : List Form} {ns ns' : List Node},
    List.Forall₂ Means fs ns → List.Forall₂ Means fs ns' → ns = ns'
  | [], _, _, .nil, .nil => rfl
  | _ :: _, _, _, .cons h hs, .cons h' hs' => by
    rw [h.unique h', meansAll_unique hs hs']

end

end Form

end LoxLang
