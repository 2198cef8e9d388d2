import LoxLang.Proofs.Accepting.Program
import LoxLang.Proofs.Reading.Recovery
/-!
# A statement without its semicolon

Where a semicolon is missing and a word follows that starts a statement, there is one complaint, about
that word. Reading does not go on there, though, but behind it: the statement that the word starts is
lost as well.
-/

namespace LoxLang

open Parse Rules

/-- A variable declaration, a print or return statement or an expression statement, without the
semicolon at its end. -/
inductive Unended : List Token → Prop
  | «variable» {v name equals ts n} : v.kind = .keyword .varWord → name.kind = .identifier →
      equals.kind = .equal → Derives .expression ts [n] → Unended (v :: name :: equals :: ts)
  | printing {p ts n} : p.kind = .keyword .printWord → Derives .expression ts [n] → Unended (p :: ts)
  | returning {r ts ns} : r.kind = .keyword .returnWord → Derives .clause ts ns → Unended (r :: ts)
  | evaluation {ts n} : Derives .expression ts [n] → Unended ts

variable {k : Nat} {ts : List Token} {n : Node} {xs : List Complaint} {below : Rules} {t : Token}

/-- With the semicolon it is a declaration. -/
theorem Unended.derives {s : Token} (h : Unended ts) (hs : s.kind = .semicolon) :
    ∃ n, Derives .declaration (ts ++ [s]) [n] := by
  cases h with
  | «variable» hv hname hequals hn => exact ⟨_, .declareVariable (.variable hv hname hequals hn hs)⟩
  | printing hp hn => exact ⟨_, .statement (d := false) (.printing hp hn hs)⟩
  | returning hr hns => exact ⟨_, .statement (d := false) (.returning hr hns hs)⟩
  | evaluation hn => exact ⟨_, .statement (.evaluation (.expressionStatement hn hs))⟩

theorem Unended.ne_eof (h : Unended ts) : ∀ t ∈ ts, t.kind ≠ .eof := by
  obtain ⟨n, hn⟩ := h.derives (s := ⟨.semicolon, ";", .nil, 1⟩) rfl
  intro t ht
  exact (hn.loose (by simp) 0).ne_eof t (List.mem_append_left _ ht)

/-! ## Where the parser gives up -/

theorem reject_bind {α β : Type} (objection : Objection) (f : α → Parse β) :
    (reject objection >>= f) = reject objection := by
  funext ⟨before, after, complaints⟩
  cases after <;> rfl

namespace Comes

/-- Another token than the one that has to be there. -/
theorem refused {kind : Kind} {what : String} {β : Type} (f : Token → Parse β) :
    Comes k (Parse.expect kind what >>= f) [] [] (· ≠ kind) (reject (.expected what)) := by
  refine .inl fun c t rest _ hc ht => ?_
  obtain ⟨before, after, complaints⟩ := c
  cases hc
  change EStateM.bind _ f _ = _
  rw [EStateM.bind, expect_eq rfl, if_neg fun h => ht h.2, reject_eq rfl]
  simp

theorem refuse {α β : Type} {p : Parse α} {f : α → Parse β} {follow : Kind → Prop} {what : String}
    (h : Comes k p ts xs follow (reject (.expected what))) :
    Comes k (p >>= f) ts xs follow (reject (.expected what)) := by
  have := h.bind (f := f)
  rwa [reject_bind] at this

end Comes

/-- An expression ends before a word that starts a statement. -/
theorem Phrase.ends_resumption {kind : Kind} (h : kind ∈ resumptions) : Ends .expression kind := by
  simp only [resumptions, List.mem_cons, List.not_mem_nil, or_false] at h
  rcases h with rfl | rfl | rfl | rfl | rfl | rfl | rfl | rfl <;>
    exact ⟨by simp, by simp, fun q _ => by cases q <;> decide⟩

/-- No expression starts with a word that starts a statement. -/
theorem expressionRule_refused :
    Comes k (expressionRule below) [] [] (· ∈ resumptions) (reject (.expected "expression")) := by
  have early : ∀ {kind : Kind} {kinds : List Kind}, (∀ kind ∈ resumptions, kind ∉ kinds) →
      kind ∈ resumptions → kind ∉ kinds := fun h hk => h _ hk
  have innermost : Comes k (unaryRule below) [] [] (· ∈ resumptions)
      (reject (.expected "expression")) := by
    refine Comes.nil Comes.pass (Comes.refuse (Comes.nil Comes.pass .refl fun _ hk => ?_)) fun _ hk => ?_
    · exact early (by decide) hk
    · exact early (by decide) hk
  have operations : ∀ levels, Comes k (operation below.rounds (unaryRule below) levels) [] []
      (· ∈ resumptions) (reject (.expected "expression")) := by
    intro levels
    induction levels with
    | nil => exact innermost
    | cons level levels ih => exact ih.refuse
  exact (operations levels).refuse

/-- An expression is read, but no semicolon follows it. -/
theorem endedBy_refused (h : ExpressionsAccepted below) (hd : Derives .expression ts [n])
    (hl : ts.length < below.rounds) (what : String) :
    Comes k (endedBy below what) ts [] (· ∈ resumptions) (reject (.expected what)) := by
  have read := Comes.bind (f := fun value => expect .semicolon what >>= fun _ => pure value)
    (Accepts.expressionRule h (hd.loose (by simp) k) hl)
  have := read.trans ((Comes.refused _).imp fun kind hk => ?_) fun kind hk => Phrase.ends_resumption hk
  · rwa [List.append_nil] at this
  · rintro rfl
    exact absurd hk (by decide)

/-- Neither is one read after `return`, or none is read at all. -/
theorem returnRule_refused (h : ExpressionsAccepted below) {ns : List Node}
    (hd : Derives .clause ts ns) (hl : ts.length < below.rounds) (keyword : Token) : ∃ what,
      Comes k (returnRule below keyword) ts [] (· ∈ resumptions) (reject (.expected what)) := by
  cases hd with
  | noClause =>
    refine ⟨"expression", Comes.refuse (Comes.nil Comes.notNext (Comes.refuse ?_) fun _ hk => ?_)⟩
    · rw [map_eq_pure_bind]
      exact expressionRule_refused.refuse
    · rintro rfl
      exact absurd hk (by decide)
  | @clause _ n hn =>
    have hloose := hn.loose (by simp) k
    have read := Comes.bind (f := fun clause =>
        expect .semicolon "';' after return value" >>= fun _ => pure clause)
      (Accepts.map (g := some) (Accepts.expressionRule h hloose hl))
    have ended := read.trans ((Comes.refused _).imp fun kind hk => ?_)
      fun kind hk => Phrase.ends_resumption hk
    · rw [List.append_nil] at ended
      refine ⟨_, Comes.refuse (Comes.nil Comes.notNext ended fun kind _ he => ?_)⟩
      have := he ▸ hloose.headKind_mem (by simp) (by simp) kind
      simp [Phrase.starts, Phrase.operandStarts] at this
    · rintro rfl
      exact absurd hk (by decide)

/-- A statement without its semicolon is given up where a word follows that starts a statement. -/
theorem soundDeclaration_refused (h : ExpressionsAccepted below) (hts : Unended ts)
    (hl : ts.length < below.rounds) : ∃ what,
      Comes k (soundDeclaration below) ts [] (· ∈ resumptions) (reject (.expected what)) := by
  rw [Rules.soundDeclaration]
  cases hts with
  | @«variable» v name equals ts n hv hname hequals hn =>
    simp only [List.length_cons] at hl
    refine ⟨"';' after variable declaration", Comes.cons (Comes.accept (by simp [hv]) (by decide)) ?_⟩
    simp only [hv, Kind.keyword.injEq, reduceCtorEq, ↓reduceIte]
    refine Comes.cons (Comes.expect hname (by simp)) (Comes.cons (Comes.expect hequals (by simp)) ?_)
    exact (endedBy_refused h hn (by omega) _).refuse
  | @printing p ts n hp hn =>
    simp only [List.length_cons] at hl
    refine ⟨"';' after value", Comes.nil Comes.pass (Comes.cons
      (Comes.accept (by simp [hp, statementStarts]) (by decide)) ?_) fun _ _ => by simp [hp]⟩
    simp only [statementFrom, hp]
    exact (endedBy_refused h hn (by omega) _).refuse
  | @returning r ts ns hr hns =>
    simp only [List.length_cons] at hl
    obtain ⟨what, refused⟩ := returnRule_refused (k := k + 1) h hns (Nat.lt_of_succ_lt hl) r
    refine ⟨what, Comes.nil Comes.pass (Comes.cons
      (Comes.accept (by simp [hr, statementStarts]) (by decide)) ?_) fun _ _ => by simp [hr]⟩
    simp only [statementFrom, hr]
    exact refused
  | @evaluation _ n hn =>
    -- Neither of the choices before an expression is taken.
    have apart : ∀ {kinds : List Kind}, (∀ kind ∈ Phrase.starts .expression, kind ∉ kinds) →
        ∀ kind, headKind ts kind ∉ kinds := fun hk kind =>
      hk _ ((hn.loose (by simp) 0).headKind_mem (by simp) (by simp) kind)
    refine ⟨"';' after expression", Comes.nil Comes.pass (Comes.nil Comes.pass
      ((endedBy_refused h hn hl _).refuse) fun kind _ => ?_) fun kind _ => ?_⟩
    · exact apart (by decide) kind
    · exact apart (by decide) kind

/-! ## Where reading goes on -/

/-- The phrases of expressions. -/
def Phrase.Inline : Phrase → Prop
  | .expression | .level _ | .unary | .call | .arguments | .primary | .clause => True
  | _ => False

/-- Within an expression there is no place where reading could go on. -/
theorem Derives.inline {ph : Phrase} {ns : List Node} (h : Derives ph ts ns) (hp : ph.Inline) :
    ∀ t ∈ ts, t.kind ∉ .eof :: .semicolon :: resumptions := by
  have known : ∀ {kind : Kind} {t : Token}, t.kind = kind → kind ∉ .eof :: .semicolon :: resumptions →
      t.kind ∉ .eof :: .semicolon :: resumptions := fun h hk => h ▸ hk
  induction h with
  | assignment hn he _ ih =>
    exact List.forall_mem_cons.2 ⟨known hn (by decide), List.forall_mem_cons.2
      ⟨known he (by decide), ih trivial⟩⟩
  | operation _ ih | callee _ ih | primary _ ih | lastArgument _ ih | clause _ ih => exact ih trivial
  | @operand p _ _ _ ih => exact ih (by cases p <;> trivial)
  | @fold p _ _ operator _ _ _ ho _ ih ih' =>
    refine List.forall_mem_append.2 ⟨ih trivial, List.forall_mem_cons.2 ⟨?_, ih' ?_⟩⟩
    · revert ho
      generalize operator.kind = kind
      cases p <;> revert kind <;> decide
    · cases p <;> trivial
  | unary ho _ ih =>
    refine List.forall_mem_cons.2 ⟨?_, ih trivial⟩
    rcases ho with ho | ho <;> exact known ho (by decide)
  | emptyCall _ hl hr ih =>
    exact List.forall_mem_append.2 ⟨ih trivial, List.forall_mem_cons.2 ⟨known hl (by decide),
      List.forall_mem_singleton.2 (known hr (by decide))⟩⟩
  | call _ hl _ _ hr ih ih' =>
    exact List.forall_mem_append.2 ⟨ih trivial, List.forall_mem_cons.2 ⟨known hl (by decide),
      List.forall_mem_append.2 ⟨ih' trivial, List.forall_mem_singleton.2 (known hr (by decide))⟩⟩⟩
  | nextArgument _ hk _ ih ih' =>
    exact List.forall_mem_append.2 ⟨ih trivial, List.forall_mem_cons.2 ⟨known hk (by decide),
      ih' trivial⟩⟩
  | falseWord h | trueWord h | nilWord h | name h =>
    exact List.forall_mem_singleton.2 (known h (by decide))
  | literal h =>
    rcases h with h | h <;> exact List.forall_mem_singleton.2 (known h (by decide))
  | grouping hl _ hr ih =>
    exact List.forall_mem_cons.2 ⟨known hl (by decide), List.forall_mem_append.2 ⟨ih trivial,
      List.forall_mem_singleton.2 (known hr (by decide))⟩⟩
  | noClause => simp
  | _ => exact hp.elim

/-- So there is none behind the first word of a statement that a semicolon ends. -/
theorem Unended.inline {q : Token} (h : Unended (q :: ts)) (hq : q.kind ∈ resumptions) :
    ∀ t ∈ ts, t.kind ∉ .eof :: .semicolon :: resumptions := by
  cases h with
  | «variable» _ hname hequals hn =>
    refine List.forall_mem_cons.2 ⟨?_, List.forall_mem_cons.2 ⟨?_, hn.inline trivial⟩⟩
    · rw [hname]
      decide
    · rw [hequals]
      decide
  | printing _ hn | returning _ hn => exact hn.inline trivial
  | evaluation hn =>
    have := hn.inline trivial q List.mem_cons_self
    exact absurd (List.mem_cons_of_mem _ (List.mem_cons_of_mem _ hq)) this

/-- Reading goes on behind the semicolon of the statement that the word starts. -/
theorem Resumption.of_unended {S body rest : List Token} {q s : Token} {p : Nat}
    (hbody : ∀ t ∈ body, t.kind ∉ .eof :: .semicolon :: resumptions) (hq : q.kind ∈ resumptions)
    (hs : s.kind = .semicolon) (hrest : rest ≠ [])
    (h : Resumption (S ++ q :: (body ++ s :: rest)) S.length p) :
    p = S.length + (body.length + 2) := by
  have here : (S ++ q :: (body ++ s :: rest))[S.length]? = some q := by simp
  -- The tokens are looked up from the word on.
  have lookup : ∀ i, (S ++ q :: (body ++ s :: rest))[S.length + i]? =
      (q :: (body ++ s :: rest))[i]? := by
    intro i
    rw [List.getElem?_append_right (Nat.le_add_right _ _), Nat.add_sub_cancel_left]
  have inner : ∀ i ≤ body.length,
      ¬ Resumable (S ++ q :: (body ++ s :: rest)) (S.length + (i + 1)) := by
    rintro i hi ⟨t, ht, hkind⟩
    have hbefore : S.length + (i + 1) - 1 = S.length + i := by omega
    rw [hbefore, lookup] at hkind
    rw [lookup, List.getElem?_cons_succ, ← List.singleton_append, ← List.append_assoc,
      List.getElem?_append_left (by simp; omega)] at ht
    have hlate : t.kind ∉ .eof :: resumptions := by
      rcases List.mem_append.1 (List.mem_of_getElem? ht) with ht | ht
      · have := hbody t ht
        simp_all
      · rw [List.mem_singleton.1 ht, hs]
        decide
    rcases hkind with hk | ⟨u, hu, hk⟩ | hk
    · exact hlate (by simp [hk])
    · rw [← List.cons_append, List.getElem?_append_left (by simp; omega)] at hu
      rcases List.mem_cons.1 (List.mem_of_getElem? hu) with rfl | hu
      · rw [hk] at hq
        exact absurd hq (by decide)
      · exact hbody u hu (by simp [hk])
    · exact hlate (by simp [hk])
  have behind : Resumable (S ++ q :: (body ++ s :: rest)) (S.length + (body.length + 2)) := by
    obtain ⟨t, rest, rfl⟩ := List.exists_cons_of_ne_nil hrest
    refine ⟨t, ?_, .inr (.inl ⟨s, ?_, hs⟩)⟩
    · rw [lookup, List.getElem?_cons_succ, List.getElem?_append_right (by omega)]
      simp
    · have hbefore : S.length + (body.length + 2) - 1 = S.length + (body.length + 1) := by omega
      rw [hbefore, lookup, List.getElem?_cons_succ, List.getElem?_append_right (Nat.le_refl _)]
      simp
  cases h with
  | atEnd ht he =>
    cases here.symm.trans ht
    rw [he] at hq
    exact absurd hq (by decide)
  | behind _ _ hlt hb hfirst =>
    obtain ⟨i, rfl⟩ : ∃ i, p = S.length + (i + 1) := ⟨p - S.length - 1, by omega⟩
    rcases Nat.lt_trichotomy i (body.length + 1) with hi | hi | hi
    · exact absurd hb (inner i (by omega))
    · omega
    · exact absurd behind (hfirst _ (by omega) (by omega))

namespace Program

variable {S Q after : List Token} {q last : Token}

/-- A program with the statement in it is inside its tokens at the start. -/
theorem inside_unended (hS : Unended S) (hq : q.kind ∈ resumptions) (hl : last.kind = .eof)
    {rounds : Nat} (hr : (S ++ q :: (Q ++ last :: after)).length < rounds) :
    Cursor.Inside (fun _ => True) rounds ⟨[], S ++ q :: (Q ++ last :: after), []⟩ := by
  obtain ⟨t, rest, hnext, ht⟩ := head_append S q (Q ++ last :: after)
  refine ⟨⟨⟨last, by simp, hl⟩, fun _ _ => trivial, ?_⟩, t, rest, hnext, ?_⟩
  · exact Nat.lt_of_le_of_lt (List.takeWhile_sublist _).length_le hr
  · cases S with
    | nil =>
      rw [ht]
      intro he
      exact absurd (he ▸ hq : Kind.eof ∈ resumptions) (by decide)
    | cons u us =>
      cases hnext
      exact hS.ne_eof _ List.mem_cons_self

theorem left_le (ts after : List Token) (hl : last.kind = .eof) :
    Cursor.left ⟨[], ts ++ last :: after, []⟩ ≤ ts.length := by
  rw [Cursor.left]
  induction ts with
  | nil => simp [hl]
  | cons t ts ih =>
    rw [List.cons_append, List.takeWhile_cons]
    split
    · exact Nat.succ_le_succ ih
    · exact Nat.zero_le _

/-- The statement is given up at the word that follows it, with one complaint. -/
theorem declaration_unended (hS : Unended S) (hq : q.kind ∈ resumptions) (hl : last.kind = .eof)
    (nesting : Nat) {rounds : Nat} (hr : (S ++ q :: (Q ++ last :: after)).length < rounds) :
    (∃ c, (Rules.atop rounds nesting).declaration ⟨[], S ++ q :: (Q ++ last :: after), []⟩ =
        .error .tooDeep c) ∨
      ∃ what p, Resumption (S ++ q :: (Q ++ last :: after)) S.length p ∧
        (Rules.atop rounds nesting).declaration ⟨[], S ++ q :: (Q ++ last :: after), []⟩ =
          .ok none (Cursor.at (S ++ q :: (Q ++ last :: after)) p
            [⟨S.length, q, .expected what⟩]) := by
  cases nesting with
  | zero => exact .inl ⟨_, rfl⟩
  | succ nesting =>
    have hlong : S.length < rounds := by
      rw [List.length_append] at hr
      omega
    obtain ⟨what, refused⟩ := soundDeclaration_refused (k := 0)
      (RulesAccepted.atop rounds nesting).toExpressionsAccepted hS (by simpa using hlong)
    rcases refused.atCursor (c := ⟨[], S ++ q :: (Q ++ last :: after), []⟩) rfl rfl hq with
      e | ⟨c, e⟩
    · rw [reject_eq rfl] at e
      have hplace : (S.reverse ++ ([] : List Token)).length = S.length := by simp
      rw [hplace] at e
      obtain ⟨-, p, hp, hgiven⟩ := declarationRule_recovers (RulesRead.atop rounds nesting)
        (.refl _) (by simpa using inside_unended hS hq hl hr) e
      exact .inr ⟨what, p, hplace ▸ hp, hgiven⟩
    · exact .inl ⟨c, declarationRule_tooDeep e⟩

/-- A statement whose semicolon is missing is given up with one complaint, about the word that follows
it and starts a statement. That word is skipped, and reading goes on at the first place behind it where
it can. If a semicolon ends the statement that the word starts, just these two statements are lost. -/
theorem within?_unended (hS : Unended S) (hq : q.kind ∈ resumptions) (hl : last.kind = .eof)
    (nesting : Nat) :
    (nesting ≤ (S ++ q :: Q).length ∧
        ∃ p, within? nesting (S ++ q :: (Q ++ last :: after)) = some p ∧
          ∃ x ∈ p.complaints, x.objection = .tooDeep) ∨
      ∃ what p rest, Resumption (S ++ q :: (Q ++ last :: after)) S.length p ∧ S.length < p ∧
        within? nesting ((S ++ q :: (Q ++ last :: after)).drop p) = some rest ∧
        within? nesting (S ++ q :: (Q ++ last :: after)) = some ⟨rest.statements,
          ⟨S.length, q, .expected what⟩ :: rest.complaints.map (Complaint.later p)⟩ ∧
        ∀ D s Q' ns, q :: Q = D ++ s :: Q' → Unended D → s.kind = .semicolon →
          Derives .declarations Q' ns → p = S.length + D.length + 1 ∧ rest = ⟨ns, []⟩ := by
  generalize htokens : S ++ q :: (Q ++ last :: after) = tokens
  by_cases hdeep : nesting ≤ (S ++ q :: Q).length ∧
      ∃ p, within? nesting tokens = some p ∧ ∃ x ∈ p.complaints, x.objection = .tooDeep
  · exact .inl hdeep
  have hend : ∃ t ∈ tokens, t.kind = .eof := ⟨last, by simp [← htokens], hl⟩
  have hinside : Cursor.Inside (fun _ => True) (tokens.length + 1) ⟨[], tokens, []⟩ :=
    htokens ▸ inside_unended hS hq hl (by rw [htokens]; exact Nat.lt_succ_self _)
  have hr : (S ++ q :: (Q ++ last :: after)).length < tokens.length + 1 := by
    rw [htokens]
    exact Nat.lt_succ_self _
  have hgiven := declaration_unended hS hq hl nesting hr
  rw [htokens] at hgiven
  rcases hgiven with ⟨c, e⟩ | ⟨what, p, hp, e⟩
  · obtain ⟨hleft, ns, c', e', hx⟩ := declarations_tooDeep (RulesRead.atop _ _) tokens.length
      (by simpa using hinside) e
    have hshort : Cursor.left ⟨[], tokens, []⟩ ≤ (S ++ q :: Q).length := by
      have := left_le (S ++ q :: Q) after hl
      rwa [List.append_assoc, List.cons_append, htokens] at this
    exact absurd ⟨Nat.le_trans hleft hshort, _, within?_of_reading e', hx⟩ hdeep
  · obtain ⟨t, rest', ht, he⟩ := hinside.next
    have hpassed := Passes.next ht he e .none
    obtain ⟨rest, hrest, hwhole⟩ := within?_of_passes hend hp.lt hpassed
    have hbehind : S.length < p := by
      refine hp.gt (t := q) (by simp [← htokens]) fun he => ?_
      exact absurd (he ▸ hq : Kind.eof ∈ resumptions) (by decide)
    refine .inr ⟨what, p, rest, hp, hbehind, hrest, hwhole, ?_⟩
    rintro (_ | ⟨u, body⟩) s Q' ns hD hunended hs hns
    · cases hD
      rw [hs] at hq
      exact absurd hq (by decide)
    · obtain ⟨rfl, rfl⟩ : q = u ∧ Q = body ++ s :: Q' := by simpa using hD
      have hplace : p = S.length + (body.length + 2) := by
        rw [← htokens, List.append_assoc, List.cons_append] at hp
        exact Resumption.of_unended (hunended.inline hq) hq hs (by simp) hp
      have hdrop : tokens.drop p = Q' ++ last :: after := by
        rw [← htokens, hplace]
        simp
      rw [hdrop] at hrest
      rcases within?_accepts nesting (hns.loose (by simp) 0).ne_eof hl hrest hns with
        ⟨hquiet, hstatements⟩ | ⟨hlow, x, hx, hobj⟩
      · refine ⟨by rw [hplace]; rfl, ?_⟩
        obtain ⟨statements, complaints⟩ := rest
        cases hquiet
        cases hstatements
        rfl
      · refine absurd ⟨?_, _, hwhole, Complaint.later p x, ?_, hobj⟩ hdeep
        · simp only [List.length_append, List.length_cons] at hlow ⊢
          omega
        · exact List.mem_cons_of_mem _ (List.mem_map_of_mem hx)

/-- The token of a digit. -/
def digit (n : Nat) : Token := ⟨.number, toString n, .number (Decimal.toFloat ⟨n, 0⟩), 1⟩

def printWord : Token := ⟨.keyword .printWord, "print", .string "print", 1⟩

def semicolonMark : Token := ⟨.semicolon, ";", .nil, 1⟩

theorem derives_digit (n : Nat) : Derives .expression [digit n] [.literal (digit n).literal] :=
  .operation (.operand (.operand (.operand (.operand (.operand (.operand
    (.callee (.primary (.literal (.inl rfl))))))))))

theorem unended_print (n : Nat) : Unended [printWord, digit n] := .printing rfl (derives_digit n)

theorem derives_print (n : Nat) : Derives .declarations [printWord, digit n, semicolonMark]
    [.printStmt (.literal (digit n).literal)] := by
  have hprint := Derives.printing (p := printWord) rfl (derives_digit n) (s := semicolonMark) rfl
  exact .nextDeclaration (.statement hprint) .noDeclarations

/-- Of `print 1 print 2; print 3;` the last statement is left. -/
theorem within?_unended_prints :
    Unended [printWord, digit 1] ∧ printWord.kind ∈ resumptions ∧ (Token.eof 1).kind = .eof ∧
      ∃ what, within? 20 ([printWord, digit 1] ++ printWord :: ([digit 2, semicolonMark, printWord,
        digit 3, semicolonMark] ++ [Token.eof 1])) = some ⟨[.printStmt (.literal (digit 3).literal)],
          [⟨2, printWord, .expected what⟩]⟩ := by
  refine ⟨unended_print 1, by decide, rfl, ?_⟩
  rcases @within?_unended [printWord, digit 1]
    [digit 2, semicolonMark, printWord, digit 3, semicolonMark] [] printWord (Token.eof 1)
    (unended_print 1) (by decide) rfl 20 with ⟨hdeep, -⟩ | ⟨what, p, rest, -, -, -, h, hrest⟩
  · exact absurd hdeep (by decide)
  · obtain ⟨-, rfl⟩ := hrest [printWord, digit 2] semicolonMark [printWord, digit 3, semicolonMark] _ rfl
      (unended_print 2) rfl (derives_print 3)
    exact ⟨what, h⟩

/-- The statements need one layer only, whatever is below it. -/
theorem within?_two_prints (nesting : Nat) :
    within? (nesting + 1) [printWord, digit 1, printWord, digit 2, semicolonMark, Token.eof 1] =
      some ⟨[], [⟨2, printWord, .expected "';' after value"⟩]⟩ := by
  have read : ∀ below : Rules, below.rounds = 7 → declarations (above below) 7
      ⟨[], [printWord, digit 1, printWord, digit 2, semicolonMark, Token.eof 1], []⟩ =
        .ok [] ⟨[semicolonMark, digit 2, printWord, digit 1, printWord], [Token.eof 1],
          [⟨2, printWord, .expected "';' after value"⟩]⟩ := by
    rintro ⟨rounds, _, _, _, _⟩ rfl
    rfl
  have whole : reading (nesting + 1)
      [printWord, digit 1, printWord, digit 2, semicolonMark, Token.eof 1] = _ :=
    read (Rules.atop 7 nesting) (Rules.rounds_atop 7 nesting)
  exact within?_of_reading whole

/-- Of `print 1 print 2;` nothing is left, though all of it behind the missing semicolon is right. -/
theorem ofTokens?_unended :
    Unended [printWord, digit 1] ∧ Derives .declarations [printWord, digit 2, semicolonMark]
        [.printStmt (.literal (digit 2).literal)] ∧
      ofTokens? ([printWord, digit 1] ++ [printWord, digit 2, semicolonMark] ++ [Token.eof 1]) =
        some ⟨[], [⟨2, printWord, .expected "';' after value"⟩]⟩ :=
  ⟨unended_print 1, derives_print 2, within?_two_prints 499⟩

end Program

end LoxLang
