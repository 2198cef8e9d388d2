import LoxLang.Proofs.Form.Words
/-!
# What prefix form tells

The prefix form of a statement that stands in a source text tells the statement, but for the lines of
its tokens, and but for infinity, which is written like a variable of that name. How the tree is put
together can be read off its words.
-/

namespace LoxLang

namespace Node

/-! ## Expressions are told -/

mutual

/-- An expression with the literals of its logical operators, which are lost where it is read. -/
def restored : Node → Node
  | assign name value => assign name value.restored
  | unary operator right => unary operator right.restored
  | binary left operator right => binary left.restored operator right.restored
  | logical left operator right =>
    logical left.restored { operator with literal := .string operator.lexeme } right.restored
  | grouping inner => grouping inner.restored
  | call callee paren arguments => call callee.restored paren (restoreds arguments)
  | other => other

/-- Some expressions with the literals of their logical operators. -/
def restoreds : List Node → List Node
  | [] => []
  | n :: ns => n.restored :: restoreds ns

end

theorem restoreds_rereads {es : List Node} (h : ∀ e ∈ es, e.reread.restored = e.unplaced) :
    restoreds (rereads es) = unplaceds es := by
  induction es with
  | nil => rw [rereads, restoreds, unplaceds]
  | cons e es ih =>
    rw [rereads, restoreds, unplaceds, h e (by simp), ih fun m hm => h m (by simp [hm])]

/-- Apart from that, an expression is read as it was. -/
theorem Told.restored_reread {e : Node} (h : e.Told .expression) :
    e.reread.restored = e.unplaced := by
  induction e using Node.induction with
  | step e ih =>
    cases h with
    | @literal v =>
      rw [reread, unplaced]
      unfold Value.reread
      split
      · split <;> rw [restored] <;> simp
      · rw [restored] <;> simp
    | ident => rw [reread, unplaced, restored] <;> simp
    | assign _ h | grouping h => rw [reread, unplaced, restored, ih _ (by simp [children]) h]
    | unary ht h =>
      rw [reread, unplaced, restored, ih _ (by simp [children]) h, Token.bare, Token.relined,
        ht.2.2]
    | binary h ht h' =>
      rw [reread, unplaced, restored, ih _ (by simp [children]) h, ih _ (by simp [children]) h',
        Token.bare, Token.relined, ht.2.2]
    | logical h ht h' =>
      rw [reread, unplaced, restored, ih _ (by simp [children]) h, ih _ (by simp [children]) h',
        Token.bare, Token.relined, ht.2.2]
    | call h _ hs =>
      rw [reread, unplaced, restored, ih _ (by simp [children]) h, restoreds_rereads fun m hm =>
        ih m (by simp [children, hm]) (List.forall₂_same.1 hs m hm)]
    | misplaced hm => exact hm.elim

end Node

theorem ReadsAs.unique {text : String} {height height' : ℕ} {n n' : Node}
    (h : ReadsAs text height n) (h' : ReadsAs text height' n') : n = n' := by
  obtain ⟨f, hf, hread⟩ := h
  obtain ⟨f', hf', hread'⟩ := h'
  have hform : f = f' := Except.ok.inj (hf.ofText.symm.trans hf'.ofText)
  subst hform
  exact Except.ok.inj ((hread (max height height') (by omega)).symm.trans
    (hread' (max height height') (by omega)))

namespace Node

/-- Expressions that are written alike are the same, but for lines. -/
theorem Told.expression_inj {e e' : Node} (h : e.Told .expression) (h' : e'.Told .expression)
    (heq : e.written = e'.written) : e.unplaced = e'.unplaced := by
  obtain ⟨text, htext, hread⟩ := h.readable.returns
  obtain ⟨text', htext', hread'⟩ := h'.readable.returns
  rw [expressionText_eq h, Except.ok.injEq] at htext
  rw [expressionText_eq h', Except.ok.injEq] at htext'
  subst htext htext'
  rw [← heq] at hread'
  rw [← h.restored_reread, ← h'.restored_reread, hread.unique hread']

/-! ## Statements are told -/

/-- The word that a statement starts with, unless it is an expression. -/
def openingWord? : Node → Option String
  | printStmt _ => some "print"
  | varDecl .. => some "var"
  | block _ => some "block"
  | ifStmt .. => some "if"
  | whileStmt .. => some "while"
  | funDecl .. => some "fun"
  | returnStmt .. => some "return"
  | _ => none

/-- The words that statements start with. -/
def openingWords : List String := ["print", "var", "block", "if", "while", "fun", "return"]

end Node

/-- The word that a text starts with, if statements start with it. -/
def Written.openingWord? : Written → Option String
  | group (word text :: _) => if text ∈ Node.openingWords then some text else none
  | _ => none

namespace Node

/-- No expression starts like a statement. -/
theorem openingWord?_expression {e : Node} (h : e.Told .expression) :
    e.written.openingWord? = none := by
  have heads : ∀ p ∈ Form.unaryHeads ++ Form.binaryHeads ++ Form.logicalHeads,
      p.1 ∉ openingWords := by
    decide
  cases h with
  | literal | ident | assign | grouping | call => rw [written]; rfl
  | unary ht =>
    rw [written]
    exact if_neg (heads _ (List.mem_append_left _ (List.mem_append_left _ ht.2.1)))
  | binary _ ht =>
    rw [written]
    exact if_neg (heads _ (List.mem_append_left _ (List.mem_append_right _ ht.2.1)))
  | logical _ ht =>
    rw [written]
    exact if_neg (heads _ (List.mem_append_right _ ht.2.1))
  | misplaced hm => exact hm.elim

/-- How a statement is written tells what kind of statement it is. -/
theorem openingWord?_written {n : Node} {b : Bool} (h : n.Told (.statement b)) :
    n.written.openingWord? = n.openingWord? := by
  cases h with
  | exprStmt h => rw [written, openingWord?_expression h, openingWord?] <;> simp
  | misplaced hm => exact hm.elim
  | _ => rw [written]; rfl

theorem unplaceds_of_writtens {ns ns' : List Node}
    (h : ∀ n ∈ ns, ∀ n' ∈ ns', n.written = n'.written → n.unplaced = n'.unplaced)
    (heq : writtens ns = writtens ns') : unplaceds ns = unplaceds ns' := by
  induction ns generalizing ns' with
  | nil =>
    cases ns' with
    | nil => rfl
    | cons => simp [writtens] at heq
  | cons n ns ih =>
    cases ns' with
    | nil => simp [writtens] at heq
    | cons n' ns' =>
      rw [writtens, writtens] at heq
      obtain ⟨hn, hns⟩ := List.cons.inj heq
      rw [unplaceds, unplaceds, h n (by simp) n' (by simp) hn,
        ih (fun m hm m' hm' => h m (by simp [hm]) m' (by simp [hm'])) hns]

/-- Parameters are known from their lexemes. -/
theorem relined_of_lexemes {ps ps' : List Token} (h : ∀ p ∈ ps, p.IsName) (h' : ∀ p ∈ ps', p.IsName)
    (heq : ps.map (fun p => Written.word p.lexeme) = ps'.map fun p => Written.word p.lexeme) :
    ps.map Token.relined = ps'.map Token.relined := by
  induction ps generalizing ps' with
  | nil =>
    cases ps' with
    | nil => rfl
    | cons => cases heq
  | cons p ps ih =>
    cases ps' with
    | nil => cases heq
    | cons p' ps' =>
      obtain ⟨hp, hps⟩ := List.cons.inj heq
      rw [List.map_cons, List.map_cons, (h p (by simp)).relined_inj (h' p' (by simp)) (by simpa using hp),
        ih (fun q hq => h q (by simp [hq])) (fun q hq => h' q (by simp [hq])) hps]

/-- Statements that are written alike are the same, but for lines. -/
theorem Told.statement_inj {n n' : Node} {b b' : Bool} (h : n.Told (.statement b))
    (h' : n'.Told (.statement b')) (heq : n.written = n'.written) : n.unplaced = n'.unplaced := by
  induction n using Node.induction generalizing n' b b' with
  | step n ih =>
    have hword : n.openingWord? = n'.openingWord? := by
      rw [← openingWord?_written h, heq, openingWord?_written h']
    have lists : ∀ {ns ns' : List Node}, (∀ m ∈ ns, m ∈ n.children) →
        List.Forall₂ (Alike .told (.statement true)) ns ns →
        List.Forall₂ (Alike .told (.statement true)) ns' ns' → writtens ns = writtens ns' →
        unplaceds ns = unplaceds ns' := fun hmem hs hs' => unplaceds_of_writtens fun m hm m' hm' =>
      ih m (hmem m hm) (List.forall₂_same.1 hs m hm) (List.forall₂_same.1 hs' m' hm')
    cases h with
    | exprStmt he =>
      cases h' with
      | exprStmt he' =>
        rw [written, written] at heq
        rw [unplaced, unplaced, Told.expression_inj he he' heq]
      | misplaced hm => exact hm.elim
      | _ => cases hword
    | printStmt he =>
      cases h' with
      | printStmt he' =>
        simp only [written, Written.group.injEq, List.cons.injEq, true_and, and_true] at heq
        rw [unplaced, unplaced, Told.expression_inj he he' heq]
      | misplaced hm => exact hm.elim
      | _ => simp [openingWord?] at hword
    | varNil ht =>
      cases h' with
      | varNil ht' =>
        simp only [written, Written.group.injEq, List.cons.injEq, Written.word.injEq, true_and,
          and_true] at heq
        rw [unplaced, unplaced, Token.IsName.relined_inj ht.2 ht'.2 heq]
      | varValue => simp [written] at heq
      | misplaced hm => exact hm.elim
      | _ => simp [openingWord?] at hword
    | varValue ht he =>
      cases h' with
      | varValue ht' he' =>
        simp only [written, Written.group.injEq, List.cons.injEq, Written.word.injEq, true_and,
          and_true] at heq
        rw [unplaced, unplaced, Token.IsName.relined_inj ht.2 ht'.2 heq.1,
          Told.expression_inj he he' heq.2]
      | varNil => simp [written] at heq
      | misplaced hm => exact hm.elim
      | _ => simp [openingWord?] at hword
    | block hs =>
      cases h' with
      | block hs' =>
        simp only [written, Written.group.injEq, List.cons.injEq, true_and] at heq
        rw [unplaced, unplaced, lists (fun m hm => by simpa [children] using hm) hs hs' heq]
      | misplaced hm => exact hm.elim
      | _ => simp [openingWord?] at hword
    | ifThen he hs =>
      cases h' with
      | ifThen he' hs' =>
        simp only [written, Written.group.injEq, List.cons.injEq, true_and, and_true] at heq
        rw [unplaced, unplaced, Told.expression_inj he he' heq.1,
          ih _ (by simp [children]) hs hs' heq.2]
      | ifElse => simp [written] at heq
      | misplaced hm => exact hm.elim
      | _ => simp [openingWord?] at hword
    | ifElse he hs hs₁ =>
      cases h' with
      | ifElse he' hs' hs₁' =>
        simp only [written, Written.group.injEq, List.cons.injEq, true_and, and_true] at heq
        rw [unplaced, unplaced, Told.expression_inj he he' heq.1,
          ih _ (by simp [children]) hs hs' heq.2.1, ih _ (by simp [children]) hs₁ hs₁' heq.2.2]
      | ifThen => simp [written] at heq
      | misplaced hm => exact hm.elim
      | _ => simp [openingWord?] at hword
    | whileStmt he hs =>
      cases h' with
      | whileStmt he' hs' =>
        simp only [written, Written.group.injEq, List.cons.injEq, true_and, and_true] at heq
        rw [unplaced, unplaced, Told.expression_inj he he' heq.1,
          ih _ (by simp [children]) hs hs' heq.2]
      | misplaced hm => exact hm.elim
      | _ => simp [openingWord?] at hword
    | funDecl ht hps hs =>
      cases h' with
      | funDecl ht' hps' hs' =>
        simp only [written, Written.group.injEq, List.cons.injEq, Written.word.injEq,
          true_and] at heq
        obtain ⟨hname, hparams, hbody⟩ := heq
        rw [unplaced, unplaced, Token.IsName.relined_inj ht.2 ht'.2 hname,
          relined_of_lexemes (fun p hp => (List.forall₂_same.1 hps p hp).2)
            (fun p hp => (List.forall₂_same.1 hps' p hp).2) hparams,
          lists (fun m hm => by simpa [children] using hm) hs hs' hbody]
      | misplaced hm => exact hm.elim
      | _ => simp [openingWord?] at hword
    | returnNil ht =>
      cases h' with
      | returnNil ht' => rw [unplaced, unplaced, Token.relined_return ht.2 ht'.2]
      | returnValue => simp [written] at heq
      | misplaced hm => exact hm.elim
      | _ => simp [openingWord?] at hword
    | returnValue ht he =>
      cases h' with
      | returnValue ht' he' =>
        simp only [written, Written.group.injEq, List.cons.injEq, true_and, and_true] at heq
        rw [unplaced, unplaced, Token.relined_return ht.2 ht'.2, Told.expression_inj he he' heq]
      | returnNil => simp [written] at heq
      | misplaced hm => exact hm.elim
      | _ => simp [openingWord?] at hword
    | misplaced hm => exact hm.elim

/-! ## Texts tell statements -/

theorem written_unplaceds {ns : List Node} (h : ∀ n ∈ ns, n.unplaced.written = n.written) :
    writtens (unplaceds ns) = writtens ns := by
  induction ns with
  | nil => rw [unplaceds]
  | cons n ns ih =>
    rw [unplaceds, writtens, writtens, h n (by simp), ih fun m hm => h m (by simp [hm])]

/-- Lines are not written, and infinity is written as a name. -/
theorem Told.written_unplaced {n : Node} {s : Site} (h : n.Told s) :
    n.unplaced.written = n.written := by
  induction n using Node.induction generalizing s with
  | step n ih =>
    cases h with
    | @literal v hv =>
      rw [unplaced, written]
      unfold Value.reread
      split
      · next x =>
        split
        · next hx => rw [written, Unsigned.eq_inf hv hx, Value.literalText, numberLiteral_inf]
        · rw [written]
      · rw [written]
    | ident | varNil => rw [unplaced, written, written]; rfl
    | returnNil => rw [unplaced, written, written]
    | assign _ h | unary _ h | grouping h | exprStmt h | printStmt h | varValue _ h
    | returnValue _ h =>
      rw [unplaced, written, written, ih _ (by simp [children]) h]
      try rfl
    | binary h _ h' | logical h _ h' | ifThen h h' | whileStmt h h' =>
      rw [unplaced, written, written, ih _ (by simp [children]) h, ih _ (by simp [children]) h']
      try rfl
    | ifElse h h' h'' =>
      rw [unplaced, written, written, ih _ (by simp [children]) h, ih _ (by simp [children]) h',
        ih _ (by simp [children]) h'']
    | call h _ hs =>
      rw [unplaced, written, written, ih _ (by simp [children]) h, written_unplaceds fun m hm =>
        ih m (by simp [children, hm]) (List.forall₂_same.1 hs m hm)]
    | block hs =>
      rw [unplaced, written, written, written_unplaceds fun m hm =>
        ih m (by simpa [children] using hm) (List.forall₂_same.1 hs m hm)]
    | funDecl _ _ hs =>
      rw [unplaced, written, written, written_unplaceds fun m hm =>
        ih m (by simpa [children] using hm) (List.forall₂_same.1 hs m hm), List.map_map]
      rfl
    | misplaced hm => exact hm.elim

/-- A statement that stands somewhere in what a parser makes of a source text, however deep the
parser may nest. -/
def StatementOf (source : String) (n : Node) : Prop :=
  ∃ nesting, ∃ s ∈ (Program.ofText source nesting).statements, n.Within s ∧ n.isStatement

theorem StatementOf.told {source : String} {n : Node} :
    n.StatementOf source → n.Told (.statement true)
  | ⟨_, _, hs, hn, hstmt⟩ => told_of_within hs hn hstmt

/-- Two statements of any source texts have the same prefix form just if they are the same tree with
the same tokens but for their lines, where infinity is a variable of that name. -/
theorem text_tells_statement {source source' : String} {n n' : Node} (hn : n.StatementOf source)
    (hn' : n'.StatementOf source') {limit limit' : ℕ} {text text' : String}
    (h : printWithin limit statementText n = .ok text)
    (h' : printWithin limit' statementText n' = .ok text') :
    text = text' ↔ n.unplaced = n'.unplaced := by
  have printed : ∀ {limit : ℕ} {n : Node} {text : String}, n.Told (.statement true) →
      printWithin limit statementText n = .ok text → text = n.written.text := by
    intro limit n text hn h
    rw [printWithin, statementText_eq hn] at h
    split at h
    · cases h
    · cases h
      rfl
  rw [printed hn.told h, printed hn'.told h']
  constructor
  · intro heq
    exact Told.statement_inj hn.told hn'.told (hn.told.sound.text_inj hn'.told.sound heq)
  · intro heq
    rw [← Told.written_unplaced hn.told, heq, Told.written_unplaced hn'.told]

/-- A numeral that is too long for a double, and a variable on the next line. -/
theorem text_tells_statement_infinity :
    let n : Node := .exprStmt (.literal (.number Float.inf))
    let n' : Node := .exprStmt (.ident ⟨.identifier, "inf", .string "inf", 2⟩)
    n.StatementOf Overlong.text ∧ n'.StatementOf "\ninf;" ∧
      printWithin nestingLimit statementText n = .ok "inf" ∧
      printWithin nestingLimit statementText n' = .ok "inf" ∧ n.unplaced = n'.unplaced := by
  intro n n'
  have htokens : Program.tokensOf "\ninf;" =
      [⟨.identifier, "inf", .string "inf", 2⟩, ⟨.semicolon, ";", .nil, 2⟩] := by
    decide +kernel
  have hd : Derives .declarations (Program.tokensOf "\ninf;") [n'] := by
    rw [htokens]
    exact .nextDeclaration (.statement (.evaluation (.expressionStatement
      (.of_unary (.callee (.primary (.name rfl)))) rfl))) .noDeclarations
  have hn : n.StatementOf Overlong.text := by
    refine ⟨nestingLimit, n, ?_, .top, rfl⟩
    rw [Overlong.statements_text.2]
    exact List.mem_singleton_self _
  have hn' : n'.StatementOf "\ninf;" := by
    refine ⟨nestingLimit, n', ?_, .top, rfl⟩
    rw [(Program.statements_of_short (by rw [htokens]; decide) hd).2]
    exact List.mem_singleton_self _
  have hprint : printWithin nestingLimit statementText n = .ok "inf" := by
    rw [printWithin, if_neg (by decide), statementText, expressionText, Value.literalText,
      numberLiteral_inf]
    rfl
  have hprint' : printWithin nestingLimit statementText n' = .ok "inf" := rfl
  exact ⟨hn, hn', hprint, hprint', (text_tells_statement hn hn' hprint hprint').1 rfl⟩

end Node

end LoxLang
