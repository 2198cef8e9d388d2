import LoxLang.Proofs.Form.Meaning
import LoxLang.Proofs.Form.RoundTrip
import LoxLang.Proofs.Form.Written
/-!
# Words of trees

A tree of a source text is written in prefix form as words in parentheses. Every word is read as one
terminal, and every token is known from its lexeme and its role.
-/

namespace LoxLang

/-! ## Tokens -/

/-- A token of a source text that is a word has its lexeme for a literal. -/
theorem Scan.literal_word {source : String} {t : Token} (h : t ∈ (ofText source).tokens)
    (hk : t.kind = .identifier ∨ ∃ word, t.kind = .keyword word) :
    t.literal = .string t.lexeme ∧ ∀ word, t.kind = .keyword word → t.lexeme = word.text := by
  rcases mem_tokens_ofText h with he | ⟨i, hi, line, ht⟩
  · rw [he] at hk
    rcases hk with hk | ⟨word, hk⟩ <;> cases hk
  · cases i with
    | mark kind text =>
      cases ht
      have hmarks : ∀ p ∈ Item.marks, p.2 ≠ .identifier ∧ ∀ word, p.2 ≠ .keyword word := by
        simp [Item.marks]
      obtain ⟨hidentifier, hkeyword⟩ := hmarks _ hi
      rcases hk with hk | ⟨word, hk⟩
      · exact absurd hk hidentifier
      · exact absurd hk (hkeyword word)
    | number | string =>
      cases ht
      rcases hk with hk | ⟨word, hk⟩ <;> cases hk
    | word text =>
      cases ht
      refine ⟨rfl, fun word hword => ?_⟩
      rcases Item.wordKind_cases (String.ofList text) with hkind | ⟨word', hword', hkind⟩
      · cases hkind.symm.trans hword
      · cases hkind.symm.trans hword
        exact (Keyword.text_ofText? hword').symm
    | _ => cases ht

/-- A token that is known from its lexeme in a role, but for its line. -/
def Token.Told (t : Token) : Role → Prop
  | .used | .declared | .parameter => t.IsName
  | .unary => t.Fits .unary ∧ t.literal = .nil
  | .binary => t.Fits .binary ∧ t.literal = .nil
  | .logical => t.Fits .logical ∧ t.literal = .string t.lexeme
  | .paren => t.Fits .paren
  | .keyword => t.kind = .keyword .returnWord ∧ t.lexeme = "return" ∧ t.literal = .string "return"

theorem Token.told_of_mem {source : String} {t : Token} (h : t ∈ (Scan.ofText source).tokens)
    {role : Role} (hk : t.kind ∈ role.kinds) : t.Told role := by
  cases role with
  | used => exact fits_of_mem h hk
  | declared | parameter => exact (show t.Fits .used from fits_of_mem h hk)
  | unary => exact ⟨fits_of_mem h hk, Scan.literal_operator h (by simp) hk⟩
  | binary => exact ⟨fits_of_mem h hk, Scan.literal_operator h (by simp) hk⟩
  | logical =>
    refine ⟨fits_of_mem h hk, (Scan.literal_word h (.inr ?_)).1⟩
    rcases List.mem_pair.1 hk with hk | hk <;> exact ⟨_, hk⟩
  | paren => exact fits_of_mem h hk
  | keyword =>
    have hkind : t.kind = .keyword .returnWord := List.mem_singleton.1 hk
    obtain ⟨hliteral, hlexeme⟩ := Scan.literal_word h (.inr ⟨_, hkind⟩)
    have hreturn : t.lexeme = "return" := hlexeme _ hkind
    exact ⟨hkind, hreturn, by rw [hliteral, hreturn]⟩

theorem Token.Told.fits {t : Token} {role : Role} (h : t.Told role) : t.Fits role := by
  cases role with
  | used | paren => exact h
  | unary | binary | logical => exact h.1
  | declared | parameter | keyword => trivial

/-- Names are known from their lexemes. -/
theorem Token.IsName.relined_inj {t t' : Token} (h : t.IsName) (h' : t'.IsName)
    (heq : t.lexeme = t'.lexeme) : t.relined = t'.relined := by
  rw [relined, relined, h.kind, h'.kind, h.literal, h'.literal, heq]

/-- There is only one token of a return but for its line. -/
theorem Token.relined_return {t t' : Token} (h : t.Told .keyword) (h' : t'.Told .keyword) :
    t.relined = t'.relined := by
  obtain ⟨hkind, hlexeme, hliteral⟩ := h
  obtain ⟨hkind', hlexeme', hliteral'⟩ := h'
  rw [relined, relined, hkind, hlexeme, hliteral, hkind', hlexeme', hliteral']

/-- A tree is told by its prefix form if it is like itself in this sense. -/
def Likeness.told : Likeness where
  token role t t' := t = t' ∧ t.Told role
  literal := Value.Spelled
  misplaced := False

namespace Node

/-- A tree whose tokens and values are told. -/
abbrev Told (s : Site) (n : Node) : Prop := Alike .told s n n

theorem Told.readable {e : Node} (h : e.Told .expression) : e.Readable := by
  have fits : ∀ {role t t'}, Likeness.told.token role t t' → Likeness.readable.token role t t' := by
    rintro role t t' ⟨rfl, ht⟩
    exact ⟨rfl, ht.fits⟩
  exact h.imp fits id False.elim

/-- The statements of a source text are told, wherever they stand. -/
theorem told_of_within {source : String} {nesting : ℕ} {s n : Node}
    (hs : s ∈ (Program.ofText source nesting).statements) (hn : n.Within s)
    (hstmt : n.isStatement) : n.Told (.statement true) := by
  obtain ⟨-, -, -, hproper, -⟩ := Program.ofText_reads source _
  obtain ⟨site, hsite, h⟩ := (hproper s hs).within id hn
  have htold : n.Told site := by
    refine Alike.imp ?_ ?_ False.elim h
    · rintro role t t' ⟨rfl, ht, hk⟩
      exact ⟨rfl, Token.told_of_mem ht hk⟩
    · rintro v (rfl | ⟨b, rfl⟩ | ⟨t, ht, hk, rfl⟩)
      · trivial
      · trivial
      · exact spelled_of_mem ht hk
  cases site with
  | expression =>
    cases n <;> first
      | exact absurd hstmt Bool.false_ne_true
      | exact absurd hsite Bool.false_ne_true
  | statement => exact htold.toBind

/-! ## Trees without lines -/

mutual

/-- A tree with all its tokens on line one, and infinity as a name. -/
def unplaced : Node → Node
  | literal value => value.reread
  | ident name => ident name.relined
  | assign name value => assign name.relined value.unplaced
  | unary operator right => unary operator.relined right.unplaced
  | binary left operator right => binary left.unplaced operator.relined right.unplaced
  | logical left operator right => logical left.unplaced operator.relined right.unplaced
  | grouping inner => grouping inner.unplaced
  | call callee paren arguments => call callee.unplaced paren.relined (unplaceds arguments)
  | exprStmt value => exprStmt value.unplaced
  | printStmt value => printStmt value.unplaced
  | varDecl name none => varDecl name.relined none
  | varDecl name (some value) => varDecl name.relined (some value.unplaced)
  | block body => block (unplaceds body)
  | ifStmt condition thenBranch none => ifStmt condition.unplaced thenBranch.unplaced none
  | ifStmt condition thenBranch (some elseBranch) =>
    ifStmt condition.unplaced thenBranch.unplaced (some elseBranch.unplaced)
  | whileStmt condition body => whileStmt condition.unplaced body.unplaced
  | funDecl name params body => funDecl name.relined (params.map Token.relined) (unplaceds body)
  | returnStmt keyword none => returnStmt keyword.relined none
  | returnStmt keyword (some value) => returnStmt keyword.relined (some value.unplaced)
  | bare sort => bare sort

/-- Some trees with all their tokens on line one. -/
def unplaceds : List Node → List Node
  | [] => []
  | n :: ns => n.unplaced :: unplaceds ns

end

/-! ## How trees are written -/

mutual

/-- How a tree is put together in prefix form. -/
def written : Node → Written
  | literal value => .word value.literalText
  | ident name => .word name.lexeme
  | assign name value => .group [.word "=", .word name.lexeme, value.written]
  | unary operator right => .group [.word operator.lexeme, right.written]
  | binary left operator right | logical left operator right =>
    .group [.word operator.lexeme, left.written, right.written]
  | grouping inner => .group [.word "group", inner.written]
  | call callee _ arguments => .group (.word "call" :: callee.written :: writtens arguments)
  | exprStmt value => value.written
  | printStmt value => .group [.word "print", value.written]
  | varDecl name none => .group [.word "var", .word name.lexeme]
  | varDecl name (some value) => .group [.word "var", .word name.lexeme, value.written]
  | block body => .group (.word "block" :: writtens body)
  | ifStmt condition thenBranch none =>
    .group [.word "if", condition.written, thenBranch.written]
  | ifStmt condition thenBranch (some elseBranch) =>
    .group [.word "if", condition.written, thenBranch.written, elseBranch.written]
  | whileStmt condition body => .group [.word "while", condition.written, body.written]
  | funDecl name params body =>
    .group (.word "fun" :: .word name.lexeme :: .group (params.map fun p => .word p.lexeme) ::
      writtens body)
  | returnStmt _ none => .group [.word "return"]
  | returnStmt _ (some value) => .group [.word "return", value.written]
  | bare _ => .group []

/-- How some trees are put together. -/
def writtens : List Node → List Written
  | [] => []
  | n :: ns => n.written :: writtens ns

end

theorem texts_words (ts : List Token) :
    Written.texts (ts.map fun t => .word t.lexeme) = ts.map Token.lexeme := by
  induction ts with
  | nil => rw [List.map_nil, Written.texts, List.map_nil]
  | cons t ts ih => rw [List.map_cons, Written.texts, Written.text, ih, List.map_cons]

/-- The printer puts an expression together in this way. -/
theorem expressionText_eq {e : Node} (h : e.Told .expression) :
    e.expressionText = .ok e.written.text := by
  have lists : ∀ {es : List Node}, (∀ m ∈ es, m.expressionText = .ok m.written.text) →
      expressionTexts es = .ok (Written.texts (writtens es)) := by
    intro es hes
    induction es with
    | nil => rw [expressionTexts, writtens, Written.texts]
    | cons e es ih =>
      rw [expressionTexts, hes e (by simp), ih fun m hm => hes m (by simp [hm]), writtens,
        Written.texts]
      rfl
  induction e using Node.induction with
  | step e ih =>
    cases h with
    | literal | ident => rw [expressionText, written, Written.text]
    | assign _ h | unary _ h | grouping h =>
      rw [expressionText, ih _ (by simp [children]) h, written]
      rfl
    | binary h _ h' | logical h _ h' =>
      rw [expressionText, ih _ (by simp [children]) h, ih _ (by simp [children]) h', written]
      rfl
    | call h _ hs =>
      have has := lists fun m hm => ih m (by simp [children, hm]) (List.forall₂_same.1 hs m hm)
      rw [expressionText, ih _ (by simp [children]) h, has, written]
      rfl
    | misplaced hm => exact hm.elim

/-- The printer puts a statement together in this way. -/
theorem statementText_eq {n : Node} {b : Bool} (h : n.Told (.statement b)) :
    n.statementText = .ok n.written.text := by
  have lists : ∀ {ns : List Node}, (∀ m ∈ ns, m.statementText = .ok m.written.text) →
      statementTexts ns = .ok (Written.texts (writtens ns)) := by
    intro ns hns
    induction ns with
    | nil => rw [statementTexts, writtens, Written.texts]
    | cons n ns ih =>
      rw [statementTexts, hns n (by simp), ih fun m hm => hns m (by simp [hm]), writtens,
        Written.texts]
      rfl
  induction n using Node.induction generalizing b with
  | step n ih =>
    cases h with
    | exprStmt h => rw [statementText, expressionText_eq h, written]
    | printStmt h | varValue _ h | returnValue _ h =>
      rw [statementText, expressionText_eq h, written]
      rfl
    | varNil | returnNil => rw [statementText, written]; rfl
    | ifThen h h' | whileStmt h h' =>
      rw [statementText, expressionText_eq h, ih _ (by simp [children]) h', written]
      rfl
    | ifElse h h' h'' =>
      rw [statementText, expressionText_eq h, ih _ (by simp [children]) h',
        ih _ (by simp [children]) h'', written]
      rfl
    | block hs =>
      have hns := lists fun m hm => ih m (by simpa [children] using hm) (List.forall₂_same.1 hs m hm)
      rw [statementText, hns, written]
      rfl
    | @funDecl t _ ps _ ns _ _ _ hs =>
      have hns := lists fun m hm => ih m (by simpa [children] using hm) (List.forall₂_same.1 hs m hm)
      rw [statementText, hns, written, Written.text, Written.texts, Written.text, Written.texts,
        Written.text, Written.texts, Written.text, texts_words]
      rfl
    | misplaced hm => exact hm.elim

end Node

/-! ## Words of trees -/

theorem stands_name {text : String} (h : IsWord text) : Stands text :=
  ⟨_, isTerminal_name h, rfl, by simp, by simp⟩

theorem stands_head {head : String} (h : IsHead head) : Stands head := by
  obtain ⟨t, ht, hhead⟩ := h
  cases t with
  | operator | name =>
    cases hhead
    exact ⟨_, ht, rfl, by simp, by simp⟩
  | _ => cases hhead

/-- The words that say what kind of statement or expression a form is. -/
def formWords : List String :=
  ["group", "call", "print", "var", "block", "if", "while", "fun", "return"]

theorem stands_formWord {word : String} (h : word ∈ formWords) : Stands word := by
  have hall : formWords.all fun word =>
      word.toList.head?.any Terminal.isNameStart && word.toList.all Terminal.isNameRest := by
    decide
  obtain ⟨hstart, hrest⟩ := Bool.and_eq_true_iff.1 (List.all_eq_true.1 hall word h)
  cases hword : word.toList with
  | nil =>
    rw [hword] at hstart
    cases hstart
  | cons c cs =>
    rw [hword] at hstart hrest
    exact stands_name ⟨c, cs, hword, hstart, fun d hd =>
      List.all_eq_true.1 hrest d (List.mem_cons_of_mem _ hd)⟩

/-- A word that is given by its characters stands for itself. -/
theorem stands_ofList {c : Char} {cs : List Char} (hc : Terminal.isNameStart c)
    (hcs : cs.all Terminal.isNameRest) : Stands (String.ofList (c :: cs)) :=
  stands_name (Form.isWord_ofList hc hcs)

theorem Value.Spelled.stands {v : Value} (h : v.Spelled) : Stands v.literalText := by
  cases v with
  | nil => exact (stands_ofList rfl rfl : Stands (String.ofList ['n', 'i', 'l']))
  | bool b =>
    cases b with
    | true => exact (stands_ofList rfl rfl : Stands (String.ofList ['t', 'r', 'u', 'e']))
    | false => exact (stands_ofList rfl rfl : Stands (String.ofList ['f', 'a', 'l', 's', 'e']))
  | number x =>
    by_cases hx : x.isInf
    · obtain rfl := Unsigned.eq_inf h hx
      rw [Value.literalText, numberLiteral_inf]
      exact (stands_ofList rfl rfl : Stands (String.ofList ['i', 'n', 'f']))
    · obtain ⟨d, hd, -⟩ := numeral_numberLiteral h hx
      exact ⟨_, isTerminal_number hd, rfl, by simp, by simp⟩
  | string s => exact ⟨_, isTerminal_string h, rfl, by simp, by simp⟩
  | native | function => exact h.elim

namespace Node

theorem sound_writtens {ns : List Node} (h : ∀ n ∈ ns, n.written.Sound) :
    ∀ x ∈ writtens ns, x.Sound := by
  induction ns with
  | nil => simp [writtens]
  | cons n ns ih =>
    rw [writtens, List.forall_mem_cons]
    exact ⟨h n (by simp), ih fun m hm => h m (by simp [hm])⟩

/-- Every word of a tree that is told is a single terminal. -/
theorem Told.sound {n : Node} {s : Site} (h : n.Told s) : n.written.Sound := by
  have form : ∀ {word : String} {parts : List Written}, word ∈ formWords →
      (∀ x ∈ parts, x.Sound) → (Written.group (.word word :: parts)).Sound := fun hword hparts =>
    .group (List.forall_mem_cons.2 ⟨.word (stands_formWord hword), hparts⟩)
  have head : ∀ {word : String} {parts : List Written}, IsHead word →
      (∀ x ∈ parts, x.Sound) → (Written.group (.word word :: parts)).Sound := fun hword hparts =>
    .group (List.forall_mem_cons.2 ⟨.word (stands_head hword), hparts⟩)
  have name : ∀ {t : Token}, t.IsName → (Written.word t.lexeme).Sound := fun ht =>
    .word (stands_name ht.word)
  induction n using Node.induction generalizing s with
  | step n ih =>
    cases h with
    | literal h => rw [written]; exact .word h.stands
    | ident h => rw [written]; exact name h.2
    | assign ht h =>
      rw [written]
      exact head (isHead_short (c := '=') (by simp [Terminal.shortOperators]))
        (by simpa using ⟨name ht.2, ih _ (by simp [children]) h⟩)
    | unary ht h =>
      rw [written]
      exact head (Form.isHead_operator (List.mem_append_left _ ht.2.1))
        (by simpa using ih _ (by simp [children]) h)
    | binary h ht h' =>
      rw [written]
      exact head (Form.isHead_operator (List.mem_append_right _ ht.2.1))
        (by simpa using ⟨ih _ (by simp [children]) h, ih _ (by simp [children]) h'⟩)
    | logical h ht h' =>
      rw [written]
      exact head (Form.isHead_logical ht.2.1)
        (by simpa using ⟨ih _ (by simp [children]) h, ih _ (by simp [children]) h'⟩)
    | grouping h | printStmt h | returnValue _ h =>
      rw [written]
      exact form (by simp [formWords]) (by simpa using ih _ (by simp [children]) h)
    | call h _ hs =>
      rw [written]
      refine form (by simp [formWords]) (List.forall_mem_cons.2 ⟨ih _ (by simp [children]) h, ?_⟩)
      exact sound_writtens fun m hm => ih m (by simp [children, hm]) (List.forall₂_same.1 hs m hm)
    | exprStmt h => rw [written]; exact ih _ (by simp [children]) h
    | varNil ht => rw [written]; exact form (by simp [formWords]) (by simpa using name ht.2)
    | varValue ht h =>
      rw [written]
      exact form (by simp [formWords]) (by simpa using ⟨name ht.2, ih _ (by simp [children]) h⟩)
    | returnNil => rw [written]; exact form (by simp [formWords]) (by simp)
    | ifThen h h' | whileStmt h h' =>
      rw [written]
      exact form (by simp [formWords])
        (by simpa using ⟨ih _ (by simp [children]) h, ih _ (by simp [children]) h'⟩)
    | ifElse h h' h'' =>
      rw [written]
      exact form (by simp [formWords]) (by simpa using
        ⟨ih _ (by simp [children]) h, ih _ (by simp [children]) h', ih _ (by simp [children]) h''⟩)
    | block hs =>
      rw [written]
      exact form (by simp [formWords]) (sound_writtens fun m hm =>
        ih m (by simpa [children] using hm) (List.forall₂_same.1 hs m hm))
    | funDecl ht hps hs =>
      rw [written]
      refine form (by simp [formWords]) (List.forall_mem_cons.2 ⟨name ht.2, List.forall_mem_cons.2
        ⟨.group (List.forall_mem_map.2 fun p hp => name (List.forall₂_same.1 hps p hp).2), ?_⟩⟩)
      exact sound_writtens fun m hm =>
        ih m (by simpa [children] using hm) (List.forall₂_same.1 hs m hm)
    | misplaced hm => exact hm.elim

end Node

end LoxLang
