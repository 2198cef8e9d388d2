import LoxLang.Proofs.Accepting.Program
/-!
# Objections

A program of the loosened grammar is read to its end, and no declaration is given up: what is objected
to is read all the same. The objections are about tokens of the program, each at its place. Only
nesting can stop the parser, and that can hide in what is dropped.
-/

namespace LoxLang

open Parse Rules

/-! ## Where objections are made -/

/-- An objection to one of the tokens, which start at place `k`, that does not end the declaration. -/
structure Complaint.Mild (k : Nat) (ts : List Token) (x : Complaint) : Prop where
  place : ∃ i, x.position = k + i ∧ ts[i]? = some x.token
  mild : x.objection.isFatal = false

/-- Objections to the tokens, which start at place `k`. -/
def Mild (k : Nat) (ts : List Token) (xs : List Complaint) : Prop := ∀ x ∈ xs, x.Mild k ts

namespace Mild

variable {k : Nat} {ts us : List Token} {xs ys : List Complaint}

theorem nil : Mild k ts [] := fun _ h => nomatch h

theorem both (h : Mild k ts xs) (h' : Mild k ts ys) : Mild k ts (xs ++ ys) :=
  List.forall_mem_append.2 ⟨h, h'⟩

theorem append (us : List Token) (h : Mild k ts xs) : Mild k (ts ++ us) xs := by
  intro x hx
  obtain ⟨⟨i, hi, ht⟩, hmild⟩ := h x hx
  obtain ⟨hlt, -⟩ := List.getElem?_eq_some_iff.1 ht
  exact ⟨⟨i, hi, by rw [List.getElem?_append_left hlt, ht]⟩, hmild⟩

theorem behind (us : List Token) (h : Mild (k + us.length) ts xs) : Mild k (us ++ ts) xs := by
  intro x hx
  obtain ⟨⟨i, hi, ht⟩, hmild⟩ := h x hx
  refine ⟨⟨us.length + i, by omega, ?_⟩, hmild⟩
  rw [List.getElem?_append_right (Nat.le_add_right _ _), Nat.add_sub_cancel_left, ht]

theorem cons (t : Token) (h : Mild (k + 1) ts xs) : Mild k (t :: ts) xs := h.behind [t]

theorem head {objection : Objection} (h : objection.isFatal = false) (t : Token)
    (ts : List Token) : Mild k (t :: ts) [⟨k, t, objection⟩] := by
  intro x hx
  obtain rfl := List.mem_singleton.1 hx
  exact ⟨⟨0, rfl, rfl⟩, h⟩

/-- The objection to an item too many is to its first token. -/
theorem surplus (what : String) (count : Nat) (ts : List Token) :
    Mild k ts (surplus what count k ts) := by
  unfold LoxLang.surplus
  split
  · exact nil
  · cases ts with
    | nil => exact nil
    | cons t ts => exact head rfl t ts

theorem enumerated {α : Type} {what : String} {item : Nat → List Token → α → List Complaint → Prop}
    {as : List α} (hi : ∀ k ts a xs, item k ts a xs → Mild k ts xs)
    (h : Enumerated what item k ts as xs) : Mild k ts xs := by
  induction h with
  | first h => exact hi _ _ _ _ h
  | @next ts _ _ comma us _ _ _ _ h ih =>
    exact (ih.append _).both ((((surplus what _ us).both (hi _ _ _ _ h)).cons comma).behind ts)

theorem parameters {params : List Token} (h : LooseParameters k ts params xs) : Mild k ts xs := by
  rcases h with ⟨-, -, rfl⟩ | h
  · exact .nil
  · refine .enumerated ?_ h
    rintro _ _ _ _ ⟨-, -, rfl⟩
    exact .nil

end Mild

/-- Every objection is to a token of the phrase and does not end a declaration. -/
theorem Loose.mild {k : Nat} {ph : Phrase} {ts : List Token} {ns : List Node} {xs : List Complaint}
    (h : Loose k ph ts ns xs) : Mild k ts xs := by
  induction h with
  | falseWord | trueWord | nilWord | literal | name | noClause | noStart | noDeclarations => exact .nil
  | operation _ ih | operand _ ih | callee _ ih | primary _ ih | firstArgument _ ih | clause _ ih
  | startVariable _ ih | startExpression _ ih | evaluation _ ih | declareVariable _ ih
  | statement _ ih => exact ih
  | emptyCall _ _ _ ih | expressionStatement _ _ ih => exact ih.append _
  | unary _ _ ih => exact ih.cons _
  | assignment _ _ _ ih => exact (ih.cons _).cons _
  | grouping _ _ _ ih | printing _ _ _ ih | returning _ _ _ ih | block _ _ _ ih =>
    exact (ih.append _).cons _
  | «variable» _ _ _ _ _ ih => exact (((ih.append _).cons _).cons _).cons _
  | @misassignment _ ts _ _ equals us _ _ _ _ _ _ ih ih' =>
    exact (ih.append _).both (((ih'.cons equals).both (.head rfl equals us)).behind ts)
  | @fold _ _ ts _ _ operator _ _ _ _ _ _ ih ih' =>
    exact (ih.append _).both ((ih'.cons operator).behind ts)
  | @call _ ts _ _ l _ _ _ _ _ _ _ _ ih ih' =>
    exact (ih.append _).both (((ih'.append _).cons l).behind ts)
  | @nextArgument _ ts _ _ comma us _ _ _ _ _ ih ih' =>
    exact (ih.append _).both ((((Mild.surplus _ _ us).both ih').cons comma).behind ts)
  | @whileLoop _ _ _ ts _ _ r _ _ _ _ _ _ _ _ _ ih ih'
  | @ifThen _ _ _ ts _ _ r _ _ _ _ _ _ _ _ _ ih ih' =>
    exact (((ih.append _).both ((ih'.cons r).behind ts)).cons _).cons _
  | @forLoop _ _ _ ts _ _ us _ _ s vs _ _ r _ _ _ _ _ _ _ _ _ _ _ _ ih ih₁ ih₂ ih₃ =>
    refine Mild.cons _ (Mild.cons _ ((ih.append _).both (Mild.behind ts ?_)))
    refine (ih₁.append _).both (Mild.behind us (Mild.cons s ?_))
    exact (ih₂.append _).both ((ih₃.cons r).behind vs)
  | @ifElse _ _ _ ts _ _ r us _ _ e _ _ _ _ _ _ _ _ _ _ _ ih ih₁ ih₂ =>
    refine Mild.cons _ (Mild.cons _ ((ih.append _).both (Mild.behind ts (Mild.cons r ?_))))
    exact (ih₁.append _).both ((ih₂.cons e).behind us)
  | @declareFunction _ _ _ _ ts _ _ r b us _ _ _ _ _ _ hps _ _ _ _ ih =>
    refine Mild.cons _ (Mild.cons _ (Mild.cons _ (((Mild.parameters hps).append _).both
      (Mild.behind ts ?_))))
    exact ((ih.append _).cons b).cons r
  | @nextDeclaration _ ts _ _ _ _ _ _ _ ih ih' => exact (ih.append _).both (ih'.behind ts)

namespace Program

variable {before after : List Token} {last : Token} {ns : List Node} {xs : List Complaint}

/-! ## An assignment to a number -/

/-- The token of a one. -/
def one : Token := ⟨.number, "1", .number (Decimal.toFloat ⟨1, 0⟩), 1⟩

/-- The token of an equals sign. -/
def equals : Token := ⟨.equal, "=", .nil, 1⟩

/-- The token of a minus sign. -/
def minus : Token := ⟨.minus, "-", .nil, 1⟩

/-- The tokens of `1 = 1;` with so many minus signs in front of the second one. -/
def misassigned (n : Nat) : List Token :=
  one :: equals :: (List.replicate n minus ++ [one] ++ [⟨.semicolon, ";", .nil, 1⟩])

/-- An operand is an operation of any level. -/
theorem loose_operation {k : Nat} {ts : List Token} {n : Node} (h : Loose k .unary ts [n] xs) :
    Loose k (.level .disjunction) ts [n] xs :=
  .operand (.operand (.operand (.operand (.operand (.operand h)))))

theorem loose_one (k : Nat) : Loose k .unary [one] [.literal one.literal] [] :=
  .callee (.primary (.literal (.inl rfl)))

theorem loose_minuses (k n : Nat) : ∃ a, Loose k .unary (List.replicate n minus ++ [one]) [a] [] := by
  induction n generalizing k with
  | zero => exact ⟨_, loose_one k⟩
  | succ n ih =>
    obtain ⟨a, ha⟩ := ih (k + 1)
    exact ⟨_, .unary (.inr rfl) ha⟩

/-- Only the one on the left is left of it. -/
theorem loose_misassigned (n : Nat) : Loose 0 .declarations (misassigned n)
    [.exprStmt (.literal one.literal)] [⟨1, equals, .invalidTarget⟩] := by
  obtain ⟨a, ha⟩ := loose_minuses 2 n
  have hequals : equals.kind = .equal := rfl
  have hassigned := Loose.misassignment (loose_operation (loose_one 0)) (by simp) hequals
    (.operation (loose_operation ha))
  have hstatement := Loose.expressionStatement hassigned (s := ⟨.semicolon, ";", .nil, 1⟩) rfl
  have := Loose.nextDeclaration (.statement (.evaluation hstatement)) .noDeclarations
  rwa [List.append_nil] at this

/-! ## Programs of the loosened grammar -/

/-- A program of the loosened grammar is read to its end with all of its statements, and complained
about just where there is an objection to it. No objection is to a syntax error, and each is to the
token at its place. There is one way only to derive the program. Too deep nesting is complained about;
it takes as many tokens as there are layers. -/
theorem within?_loosened (hl : last.kind = .eof) (hd : Loose 0 .declarations before ns xs) :
    (∀ ns' xs', Loose 0 .declarations before ns' xs' → ns' = ns ∧ xs' = xs) ∧
      (∀ x ∈ xs, before[x.position]? = some x.token ∧ x.objection.isFatal = false) ∧
      ∀ nesting,
        (reading nesting (before ++ last :: after) = .ok ns ⟨before.reverse, last :: after, xs⟩ ∧
          within? nesting (before ++ last :: after) = some ⟨ns, xs⟩) ∨
        (nesting ≤ before.length ∧ ∃ p, within? nesting (before ++ last :: after) = some p ∧
          ∃ x ∈ p.complaints, x.objection = .tooDeep) := by
  refine ⟨fun ns' xs' hd' => ?_, fun x hx => ?_, fun nesting => ?_⟩
  · -- With more layers than tokens, both are what is read.
    have read : ∀ {ns xs}, Loose 0 .declarations before ns xs →
        reading (before.length + 1) (before ++ last :: after) =
          .ok ns ⟨before.reverse, last :: after, xs⟩ := by
      intro ns xs hd
      refine (reading_accepts _ after hd.ne_eof hl hd).resolve_right ?_
      rintro ⟨hdeep, -⟩
      omega
    have := (read hd').symm.trans (read hd)
    cases this
    exact ⟨rfl, rfl⟩
  · obtain ⟨⟨i, hi, ht⟩, hmild⟩ := hd.mild x hx
    rw [hi, Nat.zero_add]
    exact ⟨ht, hmild⟩
  · rcases reading_accepts nesting after hd.ne_eof hl hd with e | ⟨hdeep, ms, c, e, hx⟩
    · exact .inl ⟨e, within?_of_reading e⟩
    · exact .inr ⟨hdeep, _, within?_of_reading e, hx⟩

/-- `1 = 1;` is read as its left side, with a complaint about the equals sign. -/
theorem within?_one_one :
    (Token.eof 1).kind = .eof ∧ Loose 0 .declarations (misassigned 0)
        [.exprStmt (.literal one.literal)] [⟨1, equals, .invalidTarget⟩] ∧
      within? 20 (misassigned 0 ++ [Token.eof 1]) =
        some ⟨[.exprStmt (.literal one.literal)], [⟨1, equals, .invalidTarget⟩]⟩ := by
  refine ⟨rfl, loose_misassigned 0, ?_⟩
  obtain ⟨-, h⟩ | ⟨hdeep, -⟩ :=
    (@within?_loosened (misassigned 0) [] (Token.eof 1) _ _ rfl (loose_misassigned 0)).2.2 20
  · exact h
  · exact absurd hdeep (by decide)

/-- The grammar is what can be derived without an objection. -/
theorem derives_iff_loose {ts : List Token} :
    Derives .declarations ts ns ↔ Loose 0 .declarations ts ns [] := by
  refine ⟨fun h => h.loose (by simp) 0, fun h => ?_⟩
  have hlast : (Token.eof 1).kind = .eof := rfl
  have e := (reading_accepts (ts.length + 1) [] h.ne_eof hlast h).resolve_right
    (by rintro ⟨hdeep, -⟩; omega)
  have known : ∀ t ∈ ts ++ [Token.eof 1], (fun _ => True) t := fun _ _ => trivial
  obtain ⟨p, hp, -, hsound⟩ := within?_reads (ts.length + 1) h.ne_eof hlast known
  cases hp.symm.trans (within?_of_reading e)
  exact hsound rfl

/-! ## Nesting in what is dropped -/

/-- The parser runs out of layers. -/
def GivesUp {α : Type} (p : Parse α) (c : Cursor) : Prop := ∃ c', p c = .error .tooDeep c'

theorem GivesUp.bind {α β : Type} {p : Parse α} {c : Cursor} (h : GivesUp p c) (f : α → Parse β) :
    GivesUp (p >>= f) c := by
  obtain ⟨c', e⟩ := h
  exact ⟨c', bind_error e f⟩

theorem GivesUp.of_comes {α : Type} {k : Nat} {p q : Parse α} {ts : List Token}
    {follow : Kind → Prop} (h : Comes k p ts xs follow q) {c : Cursor} {t : Token} {rest : List Token}
    (hk : c.before.length = k) (hc : c.after = ts ++ t :: rest) (ht : follow t.kind)
    (hq : GivesUp q ⟨ts.reverse ++ c.before, t :: rest, c.complaints ++ xs⟩) : GivesUp p c := by
  rcases h.atCursor hk hc ht with e | e
  · rw [GivesUp, e]
    exact hq
  · exact e

/-- As many minus signs as there are layers are too many. -/
theorem minuses_giveUp (rounds : Nat) : ∀ {nesting n : Nat}, nesting ≤ n → ∀ (c : Cursor) t rest,
    c.after = List.replicate n minus ++ t :: rest → GivesUp (Rules.atop rounds nesting).unary c
  | 0, _, _, c, _, _, _ => ⟨c, rfl⟩
  | nesting + 1, n + 1, h, c, t, rest, hc => by
    change GivesUp (unaryRule (Rules.atop rounds nesting)) c
    have sign : Comes c.before.length (unaryRule (Rules.atop rounds nesting)) [minus] []
        (fun _ => True) ((Rules.atop rounds nesting).unary >>= fun a => pure (.unary minus a)) :=
      Comes.accept (by decide) (by decide)
    obtain ⟨u, us, hu, -⟩ := head_append (List.replicate n minus) t rest
    refine .of_comes sign rfl (by rw [hc, ← hu]; rfl) trivial (GivesUp.bind ?_ _)
    exact minuses_giveUp rounds (Nat.le_of_succ_le_succ h) _ t rest hu.symm

/-- So they are in an expression. -/
theorem expression_givesUp (rounds : Nat) {nesting n : Nat} (h : nesting ≤ n) (c : Cursor) (t : Token)
    (rest : List Token) (hc : c.after = List.replicate n minus ++ t :: rest) :
    GivesUp (Rules.atop rounds nesting).expression c := by
  cases nesting with
  | zero => exact ⟨c, rfl⟩
  | succ nesting =>
    have innermost := minuses_giveUp rounds h c t rest hc
    have operations : ∀ levels, GivesUp
        (operation rounds (unaryRule (Rules.atop rounds nesting)) levels) c := by
      intro levels
      induction levels with
      | nil => exact innermost
      | cons level levels ih => exact ih.bind _
    change GivesUp (expressionRule (Rules.atop rounds nesting)) c
    rw [expressionRule, Rules.rounds_atop]
    exact (operations levels).bind _

/-- What is dropped is read before, and it may nest too deeply. -/
theorem misassigned_givesUp {rounds nesting n : Nat} (hr : 1 < rounds) (h : nesting ≤ n)
    (rest : List Token) :
    GivesUp (soundDeclaration (Rules.atop rounds nesting)) ⟨[], misassigned n ++ rest, []⟩ := by
  have accepted := (RulesAccepted.atop rounds nesting).toExpressionsAccepted
  have left : Comes 0 (expressionRule (Rules.atop rounds nesting)) [one, equals] [] (fun _ => True)
      ((Rules.atop rounds nesting).expression >>= fun value =>
        assignTo (.literal one.literal) 2 equals value) := by
    have operand := Accepts.operation accepted (loose_operation (loose_one 0)) (by simpa using hr)
    exact Comes.trans (Comes.bind operand)
      (Comes.cons (Comes.accept (by decide) (by decide)) (Comes.position .refl))
      fun _ _ => Phrase.ends_operation
  obtain ⟨t, us, ht, -⟩ := head_append (List.replicate n minus) one
    (⟨.semicolon, ";", .nil, 1⟩ :: rest)
  have expression : GivesUp (expressionRule (Rules.atop rounds nesting))
      ⟨[], misassigned n ++ rest, []⟩ := by
    have htokens : misassigned n ++ rest = [one, equals] ++ t :: us := by
      rw [← ht]
      simp [misassigned]
    refine .of_comes left rfl htokens trivial (GivesUp.bind ?_ _)
    · exact expression_givesUp rounds h _ one _ ht.symm
  have passed : ∀ {α : Type} {kinds : List Kind} {f : Option Token → Parse α}, .number ∉ kinds →
      GivesUp (f none) ⟨[], misassigned n ++ rest, []⟩ →
      GivesUp (accept? kinds >>= f) ⟨[], misassigned n ++ rest, []⟩ := by
    intro α kinds f hk hf
    exact .of_comes (k := 0) Comes.pass rfl (t := one) rfl hk hf
  exact passed (by decide) (passed (by decide) ((expression.bind _).bind _))

/-- However many layers there are, there is a program of the loosened grammar that nests too deeply. -/
theorem within?_misassigned {nesting n : Nat} (h : nesting ≤ n) :
    ∃ p, within? (nesting + 1) (misassigned n ++ [Token.eof 1]) = some p ∧
      ∃ x ∈ p.complaints, x.objection = .tooDeep := by
  generalize hrounds : (misassigned n ++ [Token.eof 1]).length = rounds
  have hlong : 1 < rounds := by
    rw [← hrounds]
    simp [misassigned]
  obtain ⟨c, e⟩ := misassigned_givesUp (Nat.lt_succ_of_lt hlong) h [Token.eof 1]
  have first : (Rules.atop (rounds + 1) (nesting + 1)).declaration
      ⟨[], misassigned n ++ [Token.eof 1], []⟩ = .error .tooDeep c := declarationRule_tooDeep e
  have inside : Cursor.Inside (fun _ => True) (rounds + 1)
      ⟨[], misassigned n ++ [Token.eof 1], []⟩ := by
    refine ⟨⟨⟨Token.eof 1, by simp, rfl⟩, fun _ _ => trivial, ?_⟩, one, _, rfl, by decide⟩
    rw [← hrounds]
    exact Nat.lt_succ_of_le (List.takeWhile_sublist _).length_le
  have hr : RulesRead (fun _ => True) (nesting + 1) (Rules.atop (rounds + 1) (nesting + 1)) := .atop _ _
  obtain ⟨-, ns, c', e', hx⟩ := declarations_tooDeep hr rounds (by rwa [Rules.rounds_atop]) first
  refine ⟨⟨ns, c'.complaints⟩, within?_of_reading ?_, hx⟩
  rw [reading, hrounds]
  exact e'

/-- A program of the loosened grammar, with a short tree and one objection to it, that nests too deeply
for the parser. -/
theorem ofTokens?_misassigned :
    Loose 0 .declarations (misassigned 6000) [.exprStmt (.literal one.literal)]
        [⟨1, equals, .invalidTarget⟩] ∧
      ofTokens? (misassigned 6000 ++ [Token.eof 1]) ≠
        some ⟨[.exprStmt (.literal one.literal)], [⟨1, equals, .invalidTarget⟩]⟩ := by
  refine ⟨loose_misassigned 6000, fun e => ?_⟩
  obtain ⟨p, hp, x, hx, hdeep⟩ := within?_misassigned (show 499 ≤ 6000 by omega)
  cases hp.symm.trans e
  obtain rfl := List.mem_singleton.1 hx
  cases hdeep

end Program

end LoxLang
