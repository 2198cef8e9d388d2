import LoxLang.Proofs.Reading.Amid
/-!
# Reading stays inside

Reading always comes to an end, and it does so between the first token and the first end token: it
goes forward only, it never looks further ahead than the end, and never back from the first token.
Each declaration that it tries takes a token at least, whatever comes of it.
-/

namespace LoxLang

open Parse Rules

/-! ## What follows the end -/

/-- The tokens after an end token. -/
def Surroundings.ending (behind : List Token) : Surroundings where
  front := []
  said := []
  behind := behind
  excused halt := halt = .offEnd
  offEnd := rfl
  syntaxError := by simp

theorem Cursor.amid_ending (c : Cursor) (behind : List Token) :
    c.amid (.ending behind) = ⟨c.before, c.after ++ behind, c.complaints⟩ := by
  have hlater : Complaint.later 0 = id := funext Complaint.later_zero
  simp [Cursor.amid, Surroundings.ending, hlater]

/-- Declarations that are read are read in the same way where more tokens follow. -/
theorem Program.declarations_behind {behind : List Token} {rules rules' : Rules}
    (h : Rules.Follow (.ending behind) rules rules') {rounds rounds' : ℕ} (hr : rounds ≤ rounds')
    {tokens : List Token} {ns : List Node} {c : Cursor}
    (e : declarations rules rounds ⟨[], tokens, []⟩ = .ok ns c) :
    declarations rules' rounds' ⟨[], tokens ++ behind, []⟩ =
      .ok ns ⟨c.before, c.after ++ behind, c.complaints⟩ := by
  have hdeep : ¬ (Surroundings.ending behind).excused .tooDeep := by simp [Surroundings.ending]
  have hfollows := Follows.programDeclarations hdeep h hr ⟨[], tokens, []⟩
  rw [e] at hfollows
  simpa [EndsAmid, Cursor.amid_ending] using hfollows

/-- What follows an end token is not read. -/
theorem Program.within?_behind (nesting : ℕ) (before after : List Token) {last : Token}
    (hl : last.kind = .eof) :
    within? nesting (before ++ last :: after) = within? nesting (before ++ [last]) := by
  have hlength : (before ++ [last]).length + 1 ≤ (before ++ last :: after).length + 1 := by simp
  obtain ⟨ns, -, c, e, -⟩ := declarations_takes (RulesRead.atop _ nesting) _ _
    (Cursor.ready_start (show ∃ t ∈ before ++ [last], t.kind = .eof from ⟨last, by simp, hl⟩))
    (Nat.le_of_eq (Rules.rounds_atop _ _).symm)
  have hmore := declarations_behind
    (.atop hlength (.inl (rfl : nesting = _)) : Rules.Follow (.ending after) _ _) hlength e
  rw [List.append_assoc, List.singleton_append] at hmore
  unfold within?
  dsimp only
  rw [e, hmore]

/-! ## Too deep -/

/-- Nesting is found to be too deep only after a token has been taken. -/
structure DeepLater {α : Type} (origin : Token → Prop) (room : ℕ) (p : Parse α) : Prop where
  takes : ∀ {c c'}, c.Ready origin room → p c = .error .tooDeep c' →
    ∃ ts, c.Takes ts c' ∧ 1 ≤ ts.length

namespace DeepLater

variable {origin : Token → Prop} {room deep d least : ℕ} {below : Rules} {α β : Type}
  {p : Parse α} {whole : α → Prop} {whole' : β → Prop} {clean : List Token → List Token → α → Prop}

/-- Where the first parser takes a token, the second may find nesting too deep at once. -/
protected theorem bind {f : α → Parse β} {clean' : α → List Token → List Token → β → Prop}
    (h : DeepLater origin room p) (hp : Reads (Cursor.Ready origin room) deep 1 p whole clean)
    (hf : ∀ a, whole a → Reads (Cursor.Ready origin room) d least (f a) whole' (clean' a)) :
    DeepLater origin room (p >>= f) where
  takes {c c'} hc e := by
    obtain h₁ | ⟨a, c₁, h₁, e⟩ := Parse.error_of_bind e
    · exact h.takes hc h₁
    · obtain ⟨us, hus, hl, ha, -⟩ := hp.ok hc h₁
      obtain ⟨vs, hvs, -⟩ := (hf a ha).error (hc.takes hus (Nat.le_add_right _ _)) e
      exact ⟨us ++ vs, hus.trans hvs, by rw [List.length_append]; omega⟩

protected theorem map {g : α → β} (h : DeepLater origin room p) :
    DeepLater origin room (g <$> p) where
  takes {c c'} hc e := by
    change EStateM.map g p c = _ at e
    unfold EStateM.map at e
    split at e
    · cases e
    · next h₁ =>
      cases e
      exact h.takes hc h₁

/-- Where a choice is made by a token, that token has been taken. -/
protected theorem accept {kinds : List Kind} {f : Option Token → Parse β}
    {taken : Token → List Token → List Token → β → Prop}
    (some : ∀ t, origin t → t.kind ∈ kinds →
      Reads (Cursor.Ready origin room) d least (f (some t)) whole' (taken t))
    (none : DeepLater origin room (f none)) : DeepLater origin room (accept? kinds >>= f) where
  takes {c c'} hc e := by
    obtain ⟨t, rest, h, ht⟩ := hc.next
    change EStateM.bind _ f c = _ at e
    rw [EStateM.bind, accept?_eq h] at e
    by_cases hk : t.kind ≠ .eof ∧ t.kind ∈ kinds
    · rw [if_pos hk] at e
      have hone := Cursor.Takes.one h hk.1
      obtain ⟨us, hus, -⟩ := (some t ht hk.2).error (hc.takes hone (Nat.le_add_right _ _)) e
      exact ⟨[t] ++ us, hone.trans hus, by simp⟩
    · rw [if_neg hk] at e
      exact none.takes hc e

protected theorem primary (h : ExpressionsRead origin deep below) :
    DeepLater origin below.rounds (primary below) := by
  refine .accept (fun t ht hk => Reads.primaryFrom h ht hk) ⟨fun {c c'} hc e => ?_⟩
  -- Where there is no expression at all, that is what is complained about.
  obtain ⟨t, rest, ht, -⟩ := hc.next
  change reject _ c = _ at e
  rw [reject_eq ht] at e
  cases e

protected theorem unaryRule (h : ExpressionsRead origin deep below) :
    DeepLater origin below.rounds (unaryRule below) := by
  have hcalls : DeepLater origin below.rounds (callChain below) :=
    (DeepLater.primary h).bind (Reads.primary h) fun callee hcallee =>
      Reads.calls h below.rounds below.rounds callee (Nat.le_refl _) (Nat.le_refl _) hcallee
  exact .accept (fun _ ht hk => Reads.andThen h.unary fun _ hn =>
    Reads.pure (show Node.Proper origin .expression _ from .unary ⟨rfl, ht, hk⟩ hn)) hcalls

/-- A level of operators along with what it reads. -/
protected theorem operation_cons (p : Precedence) {innermost : Parse Node} {tighter : List Level}
    (h : Reads (Cursor.Ready origin room) deep 1 (operation room innermost tighter)
        (Node.Proper origin .expression) (fun ts _ n => Derives p.operand ts [n]) ∧
      DeepLater origin room (operation room innermost tighter)) :
    Reads (Cursor.Ready origin room) deep 1 (operation room innermost (p.toLevel :: tighter))
        (Node.Proper origin .expression) (fun ts _ n => Derives (.level p) ts [n]) ∧
      DeepLater origin room (operation room innermost (p.toLevel :: tighter)) :=
  ⟨Reads.operation_cons p h.1, h.2.bind h.1 fun first hfirst =>
    Reads.chain p h.1 room room first (Nat.le_refl _) (Nat.le_refl _) hfirst⟩

protected theorem operations (h : ExpressionsRead origin deep below) :
    Reads (Cursor.Ready origin below.rounds) (deep + 1) 1
        (operation below.rounds (unaryRule below) levels) (Node.Proper origin .expression)
        (fun ts _ n => Derives (.level .disjunction) ts [n]) ∧
      DeepLater origin below.rounds (operation below.rounds (unaryRule below) levels) :=
  levels_eq ▸ DeepLater.operation_cons .disjunction (DeepLater.operation_cons .conjunction
    (DeepLater.operation_cons .equality (DeepLater.operation_cons .comparison
      (DeepLater.operation_cons .sum (DeepLater.operation_cons .product
        ⟨Reads.unaryRule h, DeepLater.unaryRule h⟩)))))

protected theorem expressionRule (h : ExpressionsRead origin deep below) :
    DeepLater origin below.rounds (expressionRule below) := by
  obtain ⟨hread, hdeep⟩ := DeepLater.operations h
  exact hdeep.bind hread fun left hleft => Reads.accept (d := deep)
    (fun equals _ _ => Reads.andThen Reads.position fun taken _ => Reads.andThen h.expression
      fun value hvalue => Reads.assignTo hleft hvalue taken equals)
    (Reads.pure hleft) (Nat.le_add_right _ _) (Nat.le_refl _) (Nat.zero_le _)

protected theorem expressionStatement (h : ExpressionsRead origin deep below) :
    DeepLater origin below.rounds (expressionStatement below) := by
  have hended : DeepLater origin below.rounds (endedBy below "';' after expression") :=
    (DeepLater.expressionRule h).bind (d := deep) (Reads.expressionRule h) fun value hvalue =>
      Reads.andThen (Reads.expect _ _) fun _ _ => Reads.pure hvalue
  exact hended.bind (d := deep) (Reads.endedBy h _) fun value hvalue =>
    Reads.pure (show Node.Proper origin (.statement false) _ from .exprStmt hvalue)

protected theorem statementRule (h : RulesRead origin deep below) :
    DeepLater origin below.rounds (statementRule below) :=
  .accept (fun _ ht hk => Reads.statementFrom h ht hk)
    (.expressionStatement h.toExpressionsRead)

protected theorem soundDeclaration (h : RulesRead origin deep below) :
    DeepLater origin below.rounds (soundDeclaration below) := by
  have hvariable := Reads.variableRule h.toExpressionsRead
  have starts : ∀ t, origin t → t.kind ∈ [.keyword .funWord, .keyword .varWord] →
      Reads (Cursor.Ready origin below.rounds) (deep + 1) 0
        (if t.kind = .keyword .funWord then functionRule below else variableRule below)
        (Node.Proper origin (.statement true)) (fun _ _ _ => True) := by
    intro t _ _
    split
    · exact (Reads.functionRule h).imp (Nat.zero_le _) fun _ _ _ _ _ => trivial
    · exact hvariable.imp (Nat.zero_le _) fun _ _ _ _ _ => trivial
  exact .accept starts (.statementRule h)

end DeepLater

/-! ## Declarations advance -/

section

variable {origin : Token → Prop} {deep : ℕ} {below : Rules}

/-- All that stops a declaration is that it nests too deeply, and then it has taken a token. -/
theorem declarationRule_stopped (h : RulesRead origin deep below) {c c' : Cursor} {halt : Halt}
    (hc : c.Inside origin below.rounds) (e : declarationRule below c = .error halt c') :
    halt = .tooDeep ∧ ∃ ts, c.Takes ts c' ∧ 1 ≤ ts.length := by
  rcases h₁ : (some <$> soundDeclaration below) c with ⟨o, c₁⟩ | ⟨halt₁, c₁⟩
  · rw [declarationRule_eq, h₁] at e
    cases e
  · cases halt₁ with
    | syntaxError =>
      obtain ⟨us, c'', e', -⟩ := Reads.recovery h hc h₁
      rw [e'] at e
      cases e
    | tooDeep =>
      rw [declarationRule_eq, h₁] at e
      cases e
      exact ⟨rfl, (DeepLater.soundDeclaration h).map.takes hc.toReady h₁⟩
    | offEnd =>
      obtain ⟨-, -, hexplained⟩ := (Reads.optionalDeclaration h).error hc.toReady h₁
      exact hexplained.elim

end

/-- The same parser, stopped as if there were no token left unless it takes one. -/
def Parse.advancing {α : Type} (p : Parse α) : Parse α := fun c =>
  match p c with
  | .ok a c' => if c.before.length < c'.before.length then .ok a c' else .error .offEnd c'
  | .error halt c' =>
    if c.before.length < c'.before.length then .error halt c' else .error .offEnd c'

/-- The same rules, where each declaration has to take a token. -/
def Rules.advancing (rules : Rules) : Rules := { rules with declaration := rules.declaration.advancing }

/-- The same layers, where each declaration has to take a token. The lowest layer gives up before
anything is tried. -/
def Rules.atopAdvancing (rounds : ℕ) : ℕ → Rules
  | 0 => floor rounds
  | nesting + 1 => (above (atopAdvancing rounds nesting)).advancing

/-- Reads a program, where each declaration has to take a token. -/
def Program.advancing? (nesting : ℕ) (tokens : List Token) : Option Program :=
  let rounds := tokens.length + 1
  match declarations (atopAdvancing rounds nesting) rounds ⟨[], tokens, []⟩ with
  | .ok statements c => some ⟨statements, c.complaints⟩
  | .error _ _ => none

section

variable {origin : Token → Prop} {room deep : ℕ} {below : Rules} {c c' : Cursor} {ts : List Token}

theorem Cursor.Takes.advances (h : c.Takes ts c') (hl : 1 ≤ ts.length) :
    c.before.length < c'.before.length := by
  rw [h.before, List.length_append, List.length_reverse]
  omega

/-- A parser that takes a token however it ends need not be stopped. -/
theorem Parse.advancing_eq {α : Type} {p : Parse α}
    (ok : ∀ {a c'}, p c = .ok a c' → ∃ ts, c.Takes ts c' ∧ 1 ≤ ts.length)
    (error : ∀ {halt c'}, p c = .error halt c' → ∃ ts, c.Takes ts c' ∧ 1 ≤ ts.length) :
    p.advancing c = p c := by
  unfold Parse.advancing
  split
  · next a c' e =>
    obtain ⟨ts, hts, hl⟩ := ok e
    rw [if_pos (hts.advances hl), e]
  · next halt c' e =>
    obtain ⟨ts, hts, hl⟩ := error e
    rw [if_pos (hts.advances hl), e]

/-- Inside the tokens, a declaration takes a token. -/
theorem RulesRead.declaration_advancing (h : RulesRead origin deep below)
    (hc : c.Inside origin below.rounds) :
    (Rules.above below).advancing.declaration c = (Rules.above below).declaration c := by
  refine Parse.advancing_eq (fun e => ?_) fun e => (declarationRule_stopped h hc e).2
  obtain ⟨ts, hts, hl, -⟩ := (Reads.declarationRule h).ok hc e
  exact ⟨ts, hts, hl⟩

theorem RulesRead.above_advancing (h : RulesRead origin deep below) :
    RulesRead origin (deep + 1) (Rules.above below).advancing where
  toExpressionsRead := ⟨h.above.expression, h.above.unary⟩
  statement := h.above.statement
  declaration :=
    ⟨fun hc e => h.above.declaration.ok hc ((h.declaration_advancing hc).symm.trans e),
      fun hc e => h.above.declaration.error hc ((h.declaration_advancing hc).symm.trans e)⟩
  recovers c c' hc e := h.above.recovers c c' hc ((h.declaration_advancing hc).symm.trans e)

theorem RulesRead.atopAdvancing (rounds : ℕ) :
    ∀ nesting, RulesRead origin nesting (Rules.atopAdvancing rounds nesting)
  | 0 => .floor rounds
  | nesting + 1 => (RulesRead.atopAdvancing rounds nesting).above_advancing

theorem Rules.rounds_atopAdvancing (rounds : ℕ) :
    ∀ nesting, (Rules.atopAdvancing rounds nesting).rounds = rounds
  | 0 => rfl
  | nesting + 1 => Rules.rounds_atopAdvancing rounds nesting

/-- What is not stopped goes on as it would without being watched. -/
theorem Follows.advancing {s : Surroundings} {α : Type} {p q : Parse α} (h : Follows s p q) :
    Follows s p.advancing q := by
  intro c
  have hc := h c
  unfold Parse.advancing
  split
  · next a c' e =>
    rw [e] at hc
    split
    · exact hc
    · exact .inl s.offEnd
  · next halt c' e =>
    rw [e] at hc
    split
    · exact hc
    · exact .inl s.offEnd

theorem Rules.Follow.atopAdvancing (s : Surroundings) (rounds : ℕ) :
    ∀ nesting, Rules.Follow s (Rules.atopAdvancing rounds nesting) (Rules.atop rounds nesting)
  | 0 => .atop (Nat.le_refl _) (.inl (rfl : 0 = 0))
  | nesting + 1 =>
    have below := Rules.Follow.atopAdvancing s rounds nesting
    (Follows.congruent s).above below below.declarationRule.advancing

/-- No declaration of a program has to be stopped. -/
theorem Program.advancing?_eq (nesting : ℕ) {tokens : List Token}
    (h : ∃ t ∈ tokens, t.kind = .eof) : advancing? nesting tokens = within? nesting tokens := by
  obtain ⟨ns, -, c, e, -⟩ := declarations_takes
    (RulesRead.atopAdvancing (tokens.length + 1) nesting) _ _ (Cursor.ready_start h)
    (Nat.le_of_eq (Rules.rounds_atopAdvancing _ _).symm)
  have hsame := declarations_behind (.atopAdvancing (.ending []) (tokens.length + 1) nesting)
    (Nat.le_refl _) e
  rw [List.append_nil, List.append_nil] at hsame
  unfold advancing? within?
  dsimp only
  rw [e, hsame]

end

/-! ## Runs inside -/

/-- However a run from here ends, it has looked for no token where there is none, it has gone forward
by some tokens, at least so many, and the end token is not among them. -/
def Cursor.StaysInside {α : Type} (c : Cursor) (least : ℕ) : EStateM.Result Halt Cursor α → Prop
  | .ok _ c' => ∃ ts, c.Takes ts c' ∧ least ≤ ts.length
  | .error halt c' => halt ≠ .offEnd ∧ ∃ ts, c.Takes ts c' ∧ least ≤ ts.length

/-- The rules keep inside the tokens from a cursor on, and a declaration, which is tried only before
the end, takes a token. -/
structure Rules.StayInside (rules : Rules) (c : Cursor) : Prop where
  expression : c.StaysInside 0 (rules.expression c)
  unary : c.StaysInside 0 (rules.unary c)
  statement : c.StaysInside 0 (rules.statement c)
  declaration : ∀ t rest, c.after = t :: rest → t.kind ≠ .eof →
    c.StaysInside 1 (rules.declaration c)

theorem Reads.staysInside {α : Type} {pre : Cursor → Prop} {deep least : ℕ} {p : Parse α}
    {whole : α → Prop} {clean : List Token → List Token → α → Prop}
    (h : Reads pre deep least p whole clean) {c : Cursor} (hc : pre c) :
    c.StaysInside 0 (p c) := by
  rcases e : p c with ⟨a, c'⟩ | ⟨halt, c'⟩
  · obtain ⟨ts, hts, -⟩ := h.ok hc e
    exact ⟨ts, hts, Nat.zero_le _⟩
  · obtain ⟨ts, hts, hexplained⟩ := h.error hc e
    refine ⟨?_, ts, hts, Nat.zero_le _⟩
    rintro rfl
    exact hexplained

theorem RulesRead.stayInside {origin : Token → Prop} {deep : ℕ} {below : Rules}
    (h : RulesRead origin deep below) {c : Cursor} (hc : c.Ready origin below.rounds) :
    (Rules.above below).StayInside c where
  expression := h.above.expression.staysInside hc
  unary := h.above.unary.staysInside hc
  statement := h.above.statement.staysInside hc
  declaration t rest ht he := by
    have hinside : c.Inside origin below.rounds := ⟨hc, t, rest, ht, he⟩
    change c.StaysInside 1 (declarationRule below c)
    rcases e : declarationRule below c with ⟨o, c'⟩ | ⟨halt, c'⟩
    · obtain ⟨ts, hts, hl, -⟩ := (Reads.declarationRule h).ok hinside e
      exact ⟨ts, hts, hl⟩
    · obtain ⟨rfl, htakes⟩ := declarationRule_stopped h hinside e
      exact ⟨by simp, htakes⟩

/-- Reading tokens that hold an end token comes to a program, with the cursor between the start and
the end. -/
theorem Program.within?_eq_some (nesting : ℕ) {tokens : List Token}
    (h : ∃ t ∈ tokens, t.kind = .eof) :
    ∃ statements taken c,
      declarations (Rules.atop (tokens.length + 1) nesting) (tokens.length + 1) ⟨[], tokens, []⟩ =
        .ok statements c ∧
      Cursor.Takes ⟨[], tokens, []⟩ taken c ∧
      within? nesting tokens = some ⟨statements, c.complaints⟩ := by
  obtain ⟨ns, ts, c, e, hts, -⟩ := declarations_takes
    (RulesRead.atop (tokens.length + 1) nesting) _ _ (Cursor.ready_start h)
    (Nat.le_of_eq (Rules.rounds_atop _ _).symm)
  refine ⟨ns, ts, c, e, hts, ?_⟩
  unfold within?
  dsimp only
  rw [e]

/-- Reading tokens that hold an end token comes to a program, with the cursor between the start and
the end. It is the same program whatever follows the end, and the same if every declaration, of the
program or of a block, has to take a token. Wherever the cursor can be, the rules of any layer keep
inside the tokens. -/
theorem Program.stays_inside (nesting : ℕ) {tokens : List Token}
    (h : ∃ t ∈ tokens, t.kind = .eof) :
    (∃ statements taken c,
      declarations (Rules.atop (tokens.length + 1) nesting) (tokens.length + 1) ⟨[], tokens, []⟩ =
        .ok statements c ∧
      Cursor.Takes ⟨[], tokens, []⟩ taken c ∧
      within? nesting tokens = some ⟨statements, c.complaints⟩) ∧
    (∀ before last after, tokens = before ++ last :: after → last.kind = .eof →
      within? nesting tokens = within? nesting (before ++ [last])) ∧
    advancing? nesting tokens = within? nesting tokens ∧
    ∀ layer taken c, Cursor.Takes ⟨[], tokens, []⟩ taken c →
      (Rules.atop (tokens.length + 1) (layer + 1)).StayInside c := by
  have hstart := Cursor.ready_start h
  refine ⟨within?_eq_some nesting h, ?_, advancing?_eq nesting h, fun layer taken c htaken => ?_⟩
  · rintro before last after rfl hl
    exact within?_behind nesting before after hl
  · have hc : c.Ready (fun _ => True) (Rules.atop (tokens.length + 1) layer).rounds := by
      rw [Rules.rounds_atop]
      exact hstart.takes htaken (Nat.le_add_right _ _)
    exact (RulesRead.atop _ layer).stayInside hc

/-- A brace that closes nothing, a word that starts nothing, and a token behind the end. -/
def Program.strayTokens : List Token :=
  [⟨.rightBrace, "\x7d", .nil, 1⟩, ⟨.keyword .classWord, "class", .nil, 1⟩, .eof 1,
   ⟨.semicolon, ";", .nil, 2⟩]

theorem Program.stays_inside_stray :
    (∃ t ∈ strayTokens, t.kind = .eof) ∧
    (∃ p, within? 1 strayTokens = some p) ∧
    within? 1 strayTokens = within? 1 (strayTokens.take 3) ∧
    advancing? 1 strayTokens = within? 1 strayTokens := by
  have hend : ∃ t ∈ strayTokens, t.kind = .eof := ⟨.eof 1, by decide, rfl⟩
  obtain ⟨⟨_, _, _, -, -, hread⟩, hbehind, hadvancing, -⟩ := stays_inside 1 hend
  refine ⟨hend, ⟨_, hread⟩, ?_, hadvancing⟩
  exact hbehind (strayTokens.take 2) (.eof 1) (strayTokens.drop 3) rfl rfl

end LoxLang
