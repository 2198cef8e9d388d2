import LoxLang.Proofs.Form.Reading
import LoxLang.Proofs.Form.Reread
import LoxLang.Proofs.Form.Spelling
import LoxLang.Proofs.Grammar.Sums
/-!
# Prefix form reads back

What the printer writes for an expression is read as the same expression, but for the lines of its
tokens and the literals of its operators. Infinity alone has no numeral and comes back as a name. The
host's stack bounds how deeply a tree that is written or read may nest.
-/

namespace LoxLang

/-! ## Heads -/

namespace Form

theorem isHead_operator {p : String × Kind} (h : p ∈ unaryHeads ++ binaryHeads) : IsHead p.1 := by
  have hall : (unaryHeads ++ binaryHeads).all fun p =>
      Terminal.shortOperators.any (fun c => p.1 == String.ofList [c]) ||
        Terminal.longOperators.any fun c => p.1 == String.ofList [c, '='] := by
    decide
  have hp := List.all_eq_true.1 hall p h
  rcases Bool.or_eq_true_iff.1 hp with hp | hp
  · obtain ⟨c, hc, heq⟩ := List.any_eq_true.1 hp
    rw [eq_of_beq heq]
    exact isHead_short hc
  · obtain ⟨c, hc, heq⟩ := List.any_eq_true.1 hp
    rw [eq_of_beq heq]
    exact isHead_long hc

theorem isWord_ofList {c : Char} {cs : List Char} (hc : Terminal.isNameStart c)
    (hcs : cs.all Terminal.isNameRest) : IsWord (String.ofList (c :: cs)) :=
  ⟨c, cs, String.toList_ofList, hc, List.all_eq_true.1 hcs⟩

theorem isHead_logical {p : String × Kind} (h : p ∈ logicalHeads) : IsHead p.1 := by
  have hand : IsWord (String.ofList ['a', 'n', 'd']) := isWord_ofList rfl rfl
  have hor : IsWord (String.ofList ['o', 'r']) := isWord_ofList rfl rfl
  rcases List.mem_pair.1 h with rfl | rfl
  · exact isHead_word hand
  · exact isHead_word hor

theorem compose?_unary {t : Token} (h : t.Fits .unary) (right : Node) :
    compose? t.lexeme [right] = some (.unary t.bare right) := by
  have hall : ∀ p ∈ unaryHeads, p.1 ≠ "call" ∧ p.1 ≠ "group" ∧ unaryHeads.lookup p.1 = some p.2 := by
    decide
  obtain ⟨hcall, hgroup, hlookup⟩ := hall _ h
  rw [compose?, if_neg hcall]
  change unary? t.lexeme right = _
  rw [unary?, if_neg hgroup, hlookup]
  rfl

theorem compose?_binary {t : Token} (h : t.Fits .binary) (left right : Node) :
    compose? t.lexeme [left, right] = some (.binary left t.bare right) := by
  have hall : ∀ p ∈ binaryHeads, p.1 ≠ "call" ∧ logicalHeads.lookup p.1 = none ∧
      binaryHeads.lookup p.1 = some p.2 := by
    decide
  obtain ⟨hcall, hlogical, hlookup⟩ := hall _ h
  rw [compose?, if_neg hcall]
  change binary? t.lexeme left right = _
  unfold binary?
  rw [hlogical, hlookup]
  rfl

theorem compose?_logical {t : Token} (h : t.Fits .logical) (left right : Node) :
    compose? t.lexeme [left, right] = some (.logical left t.bare right) := by
  have hall : ∀ p ∈ logicalHeads, p.1 ≠ "call" ∧ logicalHeads.lookup p.1 = some p.2 := by decide
  obtain ⟨hcall, hlookup⟩ := hall _ h
  rw [compose?, if_neg hcall]
  change binary? t.lexeme left right = _
  unfold binary?
  rw [hlookup]
  rfl

end Form

/-! ## Expressions -/

/-- A text that is read as an expression if that may be so high. -/
def ReadsAs (text : String) (height : ℕ) (n : Node) : Prop :=
  ∃ f, Writes text f ∧ ∀ room, height ≤ room + 1 → f.toNode room = .ok n

/-- An expression that is written so that it comes back. -/
def Node.Returns (e : Node) : Prop :=
  ∃ text, e.expressionText = .ok text ∧ ReadsAs text e.height e.reread

namespace ReadsAs

theorem atom {text : String} {t : Terminal} {f : Form} {n : Node} (ht : IsTerminal text t)
    (hf : Reading.atom? t = some f) (hn : ∀ room, f.toNode room = .ok n) (height : ℕ) :
    ReadsAs text height n :=
  ⟨f, .atom ht hf, fun room _ => hn room⟩

theorem name {text : String} (h : IsWord text) (height : ℕ) :
    ReadsAs text height (Form.nameNode text) :=
  atom (isTerminal_name h) rfl (fun room => by rw [Form.toNode]) height

/-- Operands that are read are read one after the other. -/
theorem toNodes {texts : List String} {es : List Node}
    (h : List.Forall₂ (fun text e => ReadsAs text e.height e.reread) texts es) :
    ∃ forms, List.Forall₂ Writes texts forms ∧
      ∀ room, Node.heights es ≤ room + 1 → Form.toNodes room forms = .ok (es.map Node.reread) := by
  induction h with
  | nil => exact ⟨[], .nil, fun room _ => by rw [Form.toNodes]; rfl⟩
  | @cons text e texts es htext _ ih =>
    obtain ⟨f, hf, hread⟩ := htext
    obtain ⟨forms, hforms, hreads⟩ := ih
    refine ⟨f :: forms, .cons hf hforms, fun room hroom => ?_⟩
    rw [Node.heights] at hroom
    rw [Form.toNodes, hread room (by omega), hreads room (by omega)]
    rfl

/-- A head and its operands. -/
theorem form {head : String} (hhead : IsHead head) {texts : List String} {es : List Node}
    (h : List.Forall₂ (fun text e => ReadsAs text e.height e.reread) texts es) (hne : es ≠ [])
    {n : Node} (hn : Form.compose? head (es.map Node.reread) = some n) {height : ℕ}
    (hheight : Node.heights es < height) : ReadsAs (Node.form (head :: texts)) height n := by
  obtain ⟨forms, hforms, hreads⟩ := toNodes h
  have hlength : forms ≠ [] := by
    rintro rfl
    cases hforms
    cases h
    exact hne rfl
  refine ⟨_, .list hhead hforms hlength, fun room hroom => ?_⟩
  -- A form is as high as its operands and one more, so there is room for them if there is for it.
  cases room with
  | zero =>
    cases h with
    | nil => exact absurd rfl hne
    | @cons _ e =>
      have hpos := e.height_pos
      rw [Node.heights] at hheight
      omega
  | succ room =>
    rw [Form.toNode, hreads room (by omega)]
    simp only [bind, Except.bind, hn]
    rfl

/-- A literal comes back, infinity as a name. -/
theorem literal {v : Value} (h : v.Spelled) (height : ℕ) :
    ReadsAs v.literalText height v.reread := by
  have hnil : IsWord (String.ofList ['n', 'i', 'l']) := Form.isWord_ofList rfl rfl
  have htrue : IsWord (String.ofList ['t', 'r', 'u', 'e']) := Form.isWord_ofList rfl rfl
  have hfalse : IsWord (String.ofList ['f', 'a', 'l', 's', 'e']) := Form.isWord_ofList rfl rfl
  have hinf : IsWord (String.ofList ['i', 'n', 'f']) := Form.isWord_ofList rfl rfl
  cases v with
  | nil => exact name hnil height
  | bool b =>
    cases b with
    | true => exact name htrue height
    | false => exact name hfalse height
  | number x =>
    by_cases hx : x.isInf
    · obtain rfl := Unsigned.eq_inf h hx
      rw [Value.literalText, numberLiteral_inf, Value.reread, if_pos hx]
      exact name hinf height
    · obtain ⟨d, hd, rfl⟩ := numeral_numberLiteral h hx
      rw [Value.literalText, Value.reread, if_neg hx]
      exact atom (isTerminal_number hd) rfl (fun room => by rw [Form.toNode]) height
  | string s => exact atom (isTerminal_string h) rfl (fun room => by rw [Form.toNode]; rfl) height
  | native | function => exact h.elim

end ReadsAs

namespace Node

theorem expressionTexts_returns {es : List Node} (h : ∀ e ∈ es, e.Returns) :
    ∃ texts, expressionTexts es = .ok texts ∧
      List.Forall₂ (fun text e => ReadsAs text e.height e.reread) texts es := by
  induction es with
  | nil => exact ⟨[], by rw [expressionTexts], .nil⟩
  | cons e es ih =>
    obtain ⟨text, htext, hread⟩ := h e (by simp)
    obtain ⟨texts, htexts, hreads⟩ := ih fun m hm => h m (by simp [hm])
    exact ⟨text :: texts, by rw [expressionTexts, htext, htexts]; rfl, .cons hread hreads⟩

theorem nameNode_of_isName {t : Token} (h : t.IsName) :
    Form.nameNode t.lexeme = .ident t.relined := by
  have hfree := h.free
  simp only [literalNames, List.mem_cons, List.not_mem_nil, or_false, not_or] at hfree
  obtain ⟨htrue, hfalse, hnil⟩ := hfree
  rw [Form.nameNode, if_neg htrue, if_neg hfalse, if_neg hnil, Token.relined, h.kind, h.literal]

theorem readsAs_ident {t : Token} (h : t.IsName) (height : ℕ) :
    ReadsAs t.lexeme height (.ident t.relined) :=
  nameNode_of_isName h ▸ .name h.word height

namespace Returns

variable {left right callee : Node} {t : Token}

theorem literal {v : Value} (h : v.Spelled) : (literal v).Returns :=
  ⟨_, by rw [expressionText], by rw [reread]; exact .literal h _⟩

theorem ident (ht : t.IsName) : (ident t).Returns :=
  ⟨_, by rw [expressionText], by rw [reread]; exact readsAs_ident ht _⟩

/-- The name stands where an operand of another head would stand. -/
theorem assign {value : Node} (ht : t.IsName) (h : value.Returns) : (assign t value).Returns := by
  obtain ⟨text, htext, hread⟩ := h
  refine ⟨_, by rw [expressionText, htext]; rfl, ?_⟩
  have hname : ReadsAs t.lexeme (Node.ident t).height (Node.ident t).reread := by
    rw [reread]
    exact readsAs_ident ht _
  have hheight : heights [Node.ident t, value] < (Node.assign t value).height := by
    have hpos := value.height_pos
    simp only [heights, height]
    omega
  refine .form (isHead_short (c := '=') (by simp [Terminal.shortOperators]))
    (.cons hname (.cons hread .nil)) (by simp) ?_ hheight
  simp only [List.map_cons, List.map_nil, reread]
  rfl

theorem unary (ht : t.Fits .unary) (h : right.Returns) : (unary t right).Returns := by
  obtain ⟨text, htext, hread⟩ := h
  refine ⟨_, by rw [expressionText, htext]; rfl, ?_⟩
  refine .form (Form.isHead_operator (List.mem_append_left _ ht)) (.cons hread .nil)
    (by simp) ?_ (by simp [heights, height])
  rw [reread]
  exact Form.compose?_unary ht _

theorem binary (hleft : left.Returns) (ht : t.Fits .binary) (hright : right.Returns) :
    (binary left t right).Returns := by
  obtain ⟨_, htext, hread⟩ := hleft
  obtain ⟨_, htext', hread'⟩ := hright
  refine ⟨_, by rw [expressionText, htext, htext']; rfl, ?_⟩
  refine .form (Form.isHead_operator (List.mem_append_right _ ht))
    (.cons hread (.cons hread' .nil)) (by simp) ?_ (by simp [heights, height])
  rw [reread]
  exact Form.compose?_binary ht _ _

theorem logical (hleft : left.Returns) (ht : t.Fits .logical) (hright : right.Returns) :
    (logical left t right).Returns := by
  obtain ⟨_, htext, hread⟩ := hleft
  obtain ⟨_, htext', hread'⟩ := hright
  refine ⟨_, by rw [expressionText, htext, htext']; rfl, ?_⟩
  refine .form (Form.isHead_logical ht)
    (.cons hread (.cons hread' .nil)) (by simp) ?_ (by simp [heights, height])
  rw [reread]
  exact Form.compose?_logical ht _ _

theorem grouping {inner : Node} (h : inner.Returns) : (grouping inner).Returns := by
  obtain ⟨text, htext, hread⟩ := h
  refine ⟨_, by rw [expressionText, htext]; rfl, ?_⟩
  have hgroup : IsWord (String.ofList ['g', 'r', 'o', 'u', 'p']) := Form.isWord_ofList rfl rfl
  refine .form (isHead_word hgroup) (.cons hread .nil) (by simp) ?_ (by simp [heights, height])
  rw [reread]
  rfl

theorem call (hcallee : callee.Returns) (ht : t.Fits .paren) {arguments : List Node}
    (h : ∀ e ∈ arguments, e.Returns) : (call callee t arguments).Returns := by
  obtain ⟨text, htext, hread⟩ := hcallee
  obtain ⟨texts, htexts, hreads⟩ := expressionTexts_returns h
  refine ⟨_, by rw [expressionText, htext, htexts]; rfl, ?_⟩
  have hcall : IsWord (String.ofList ['c', 'a', 'l', 'l']) := Form.isWord_ofList rfl rfl
  -- The parenthesis is not written: the reader makes one up, which is the one of any parsed call.
  have hparen : t.relined = Token.plain .rightParen ")" := by
    obtain ⟨hkind, hlexeme, hliteral⟩ := ht
    rw [Token.relined, hkind, hlexeme, hliteral]
    rfl
  refine .form (isHead_word hcall) (.cons hread hreads) (by simp) ?_ (by simp [heights, height])
  rw [reread, rereads_eq_map, hparen]
  rfl

end Returns

/-- Every readable expression is written so that it comes back. -/
theorem Readable.returns {e : Node} (h : e.Readable) : e.Returns := by
  induction e using Node.induction with
  | step e ih =>
    cases h with
    | literal h => exact .literal h
    | ident ht => exact .ident ht.2
    | assign ht h => exact .assign ht.2 (ih _ (by simp [children]) h)
    | unary ht h => exact .unary ht.2 (ih _ (by simp [children]) h)
    | binary ha ht hb =>
      exact .binary (ih _ (by simp [children]) ha) ht.2 (ih _ (by simp [children]) hb)
    | logical ha ht hb =>
      exact .logical (ih _ (by simp [children]) ha) ht.2 (ih _ (by simp [children]) hb)
    | grouping h => exact .grouping (ih _ (by simp [children]) h)
    | call hf ht has =>
      refine .call (ih _ (by simp [children]) hf) ht.2 fun m hm => ?_
      exact ih m (by simp [children, hm]) (List.forall₂_same.1 has m hm)
    | misplaced h => exact h.elim

/-- An expression that some text yields: one that stands in a parsed program, or one that is read
from prefix form. The parser and the reader may nest as deep as they like. -/
inductive Yielded (e : Node) : Prop
  | parsed {source : String} {nesting : ℕ} {n : Node} :
      n ∈ (Program.ofText source nesting).statements → e.Within n → e.isExpression → e.Yielded
  | read {text : String} {limit : ℕ} : ofText text limit = .ok e → e.Yielded

theorem Yielded.readable {e : Node} : e.Yielded → e.Readable
  | .parsed hn he hexpr => Program.readable hn he hexpr
  | .read h => readable_ofText h

/-- Every expression that a text yields, unless it is higher than the printer or the reader can
follow, has a prefix form that is read as the same expression and written in the same way again. -/
theorem print_read_print {e : Node} (he : e.Yielded) {printing reading : ℕ}
    (hprints : e.height ≤ printing) (hreads : e.height ≤ reading) :
    ∃ text, printWithin printing expressionText e = .ok text ∧
      ofText text reading = .ok e.reread ∧
      printWithin printing expressionText e.reread = .ok text := by
  obtain ⟨text, htext, f, hf, hread⟩ := he.readable.returns
  have hprint : printWithin printing expressionText e = .ok text := by
    rw [printWithin, if_neg (Nat.not_lt.2 hprints), htext]
    rfl
  refine ⟨text, hprint, ?_, ?_⟩
  · rw [ofText, hf.ofText]
    exact hread reading (by omega)
  · rwa [printWithin, height_reread, he.readable.text_reread]

/-- A call with a string that holds a parenthesis, and with an operation, for a printer and a reader
that can just follow it. -/
theorem print_read_print_call :
    let e : Node := .call (.ident ⟨.identifier, "f", .string "f", 1⟩) (.plain .rightParen ")")
      [.literal (.string "("),
        .unary (.plain .minus "-") (.ident ⟨.identifier, "x", .string "x", 1⟩)]
    e.Yielded ∧ e.height ≤ 3 ∧
      ∃ text, printWithin 3 expressionText e = .ok text ∧ ofText text 3 = .ok e.reread ∧
        printWithin 3 expressionText e.reread = .ok text := by
  intro e
  have hread : ofText "(call f \"(\" (- x))" = .ok e := by cbv
  have hheight : e.height ≤ 3 := by decide
  exact ⟨.read hread, hheight, print_read_print (.read hread) hheight hheight⟩

/-- A sum of any length is an expression of a text, but whatever the printer can follow, there is one
that is too long to be written. -/
theorem longSum_unwritten {n printing : ℕ} (hn : printing ≤ n) :
    .exprStmt (LongSum.sum n) ∈ (Program.ofText (LongSum.text n)).statements ∧
      (LongSum.sum n).Yielded ∧
      printWithin printing expressionText (LongSum.sum n) = .error .tooDeep := by
  have hmem : .exprStmt (LongSum.sum n) ∈ (Program.ofText (LongSum.text n)).statements := by
    rw [LongSum.statements_text n (by decide)]
    exact List.mem_singleton_self _
  refine ⟨hmem, .parsed hmem (.inside (List.mem_singleton_self _) .top)
    (LongSum.isExpression_sum n), ?_⟩
  rw [printWithin, LongSum.height_sum, if_pos (by omega)]

/-- The sum of six thousand ones does not come back. -/
theorem sixThousandOnes_lost :
    .exprStmt (LongSum.sum 5999) ∈ (Program.ofText (LongSum.text 5999)).statements ∧
      (LongSum.sum 5999).Yielded ∧
      ¬ ∃ text, printWithin nestingLimit expressionText (LongSum.sum 5999) = .ok text ∧
        ofText text = .ok (LongSum.sum 5999).reread ∧
          printWithin nestingLimit expressionText (LongSum.sum 5999).reread = .ok text := by
  have hlong : nestingLimit ≤ 5999 := by decide
  obtain ⟨hmem, hyielded, hdeep⟩ := longSum_unwritten hlong
  refine ⟨hmem, hyielded, ?_⟩
  rintro ⟨text, hprint, -⟩
  rw [hdeep] at hprint
  cases hprint

end Node

end LoxLang
