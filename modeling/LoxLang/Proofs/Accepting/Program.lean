import LoxLang.Proofs.Accepting.Statement
/-!
# The parser and the grammar

A program is read without a complaint just if its tokens are declarations of the grammar, and then
its trees are those of the grammar. Only nesting that is too deep stands in the way, and that takes
as many tokens as there are layers.
-/

namespace LoxLang

open Parse Rules

namespace Program

variable {origin : Token → Prop} {deep k : Nat} {rules : Rules} {ts : List Token} {ns : List Node}
  {xs : List Complaint}

/-- Nesting that is too deep is complained about, and took as many tokens as there are layers. -/
theorem declarations_tooDeep (hr : RulesRead origin deep rules) {c c' : Cursor} (rounds : Nat)
    (hc : c.Inside origin rules.rounds) (e : rules.declaration c = .error .tooDeep c') :
    deep ≤ c.left ∧ ∃ ns c'', declarations rules (rounds + 1) c = .ok ns c'' ∧
      ∃ x ∈ c''.complaints, x.objection = .tooDeep := by
  obtain ⟨taken, htaken, hdeep⟩ := hr.declaration.error hc e
  obtain ⟨u, us, hu, -⟩ := (hc.toReady.takes htaken (Nat.le_add_right _ _)).next
  obtain ⟨t, rest, ht, he⟩ := hc.next
  exact ⟨hdeep, [], _, declarations_deep ht he e hu, ⟨c'.before.length, u, .tooDeep⟩, by simp, rfl⟩

/-- Declarations up to the end are read as such, with the complaints that belong to them, unless they
nest too deeply. -/
theorem declarations_accept (hr : RulesRead origin deep rules) (ha : RulesAccepted rules)
    (hd : Loose k .declarations ts ns xs) :
    ∀ rounds c t rest, c.before.length = k → c.after = ts ++ t :: rest → t.kind = .eof →
      (∀ u ∈ ts, u.kind ≠ .eof) → (∀ u ∈ c.after, origin u) → ts.length < rounds →
      rounds ≤ rules.rounds →
      declarations rules rounds c =
          .ok ns ⟨ts.reverse ++ c.before, t :: rest, c.complaints ++ xs⟩ ∨
        (deep ≤ ts.length ∧ ∃ ms c', declarations rules rounds c = .ok ms c' ∧
          ∃ x ∈ c'.complaints, x.objection = .tooDeep) := by
  refine Loose.declarations_induction ?nil ?cons hd
  case nil =>
    intro k rounds c t rest _ hc he _ _ hl _
    obtain ⟨rounds, rfl⟩ : ∃ r, rounds = r + 1 := ⟨rounds - 1, by simp at hl; omega⟩
    obtain ⟨before, after, complaints⟩ := c
    cases hc
    rw [List.append_nil]
    exact .inl (declarations_end rfl he)
  case cons =>
    intro k ts n xs us ns ys hn hns ih rounds c t rest hk hc he hin ho hl hrounds
    rw [List.length_append] at hl ⊢
    obtain ⟨rounds, rfl⟩ : ∃ r, rounds = r + 1 := ⟨rounds - 1, by omega⟩
    have hpos : 0 < ts.length := List.length_pos_iff.2 (hn.ne_nil (by simp) (by simp))
    obtain ⟨u, vs, rfl⟩ : ∃ u vs, ts = u :: vs := List.exists_cons_of_length_pos hpos
    have hu : u.kind ≠ .eof := hin u (by simp)
    have hleft : c.left = (u :: vs).length + us.length := by
      rw [Cursor.left, hc, List.takeWhile_append_of_pos (by simpa using hin), ← List.length_append]
      simp [he]
    have hinside : c.Inside origin rules.rounds :=
      ⟨⟨⟨t, by simp [hc], he⟩, ho, by omega⟩, u, vs ++ (us ++ t :: rest), by simp [hc], hu⟩
    obtain ⟨w, ws, hw, hwk⟩ := head_append us t rest
    -- What follows is the end or a declaration, and no declaration starts with `else`.
    have hnext : w.kind ≠ .keyword .elseWord := hwk ▸ hns.headKind_ne_elseWord (by simp [he])
    have hfirst := (ha.declaration k _ n xs hn (by omega)).atCursor hk
      (by rw [hc, List.append_assoc, hw]) hnext
    rcases hfirst with e | ⟨c', e⟩
    · rw [declarations_cons (c := c) (t := u) (by rw [hc]; rfl) hu e, ← hw]
      dsimp only [pure, EStateM.pure, bind, EStateM.bind]
      rcases ih rounds ⟨(u :: vs).reverse ++ c.before, us ++ t :: rest, c.complaints ++ xs⟩ t rest
        (by rw [List.length_append, List.length_reverse, hk, Nat.add_comm]) rfl he
        (fun x hx => hin x (List.mem_append_right _ hx))
        (fun x hx => ho x (by rw [hc, List.append_assoc]; exact List.mem_append_right _ hx))
        (by omega) (by omega) with e' | ⟨hdeep, ms, c', e', x, hx, hobj⟩
      · rw [e']
        exact .inl (by simp)
      · rw [e']
        exact .inr ⟨by omega, n :: ms, c', rfl, x, hx, hobj⟩
    · obtain ⟨hdeep, htooDeep⟩ := declarations_tooDeep hr rounds hinside e
      exact .inr ⟨by omega, htooDeep⟩

/-- Declarations of the loosened grammar are all read as what they stand for, with the complaints that
belong to them, unless they nest too deeply. -/
theorem reading_accepts (nesting : Nat) {before : List Token} (after : List Token) {last : Token}
    (hb : ∀ t ∈ before, t.kind ≠ .eof) (hl : last.kind = .eof)
    (hd : Loose 0 .declarations before ns xs) :
    reading nesting (before ++ last :: after) = .ok ns ⟨before.reverse, last :: after, xs⟩ ∨
      (nesting ≤ before.length ∧ ∃ ms c', reading nesting (before ++ last :: after) = .ok ms c' ∧
        ∃ x ∈ c'.complaints, x.objection = .tooDeep) := by
  have hr : RulesRead (fun _ => True) nesting
      (Rules.atop ((before ++ last :: after).length + 1) nesting) := RulesRead.atop _ _
  have := declarations_accept hr (RulesAccepted.atop _ _) hd ((before ++ last :: after).length + 1)
    ⟨[], before ++ last :: after, []⟩ last after rfl rfl hl hb (by simp)
    (by rw [List.length_append]; omega) (Nat.le_of_eq (Rules.rounds_atop _ _).symm)
  rwa [List.append_nil, List.nil_append] at this

/-- Declarations of the grammar are read as what they stand for, unless they nest too deeply. -/
theorem within?_accepts (nesting : Nat) {before after : List Token} {last : Token} {p : Program}
    (hb : ∀ t ∈ before, t.kind ≠ .eof) (hl : last.kind = .eof)
    (hp : within? nesting (before ++ last :: after) = some p)
    (hd : Derives .declarations before ns) :
    (p.complaints = [] ∧ p.statements = ns) ∨
      (nesting ≤ before.length ∧ ∃ x ∈ p.complaints, x.objection = .tooDeep) := by
  rcases reading_accepts nesting after hb hl (hd.loose (by simp) 0) with
    e | ⟨hdeep, ms, c', e, hx⟩
  · cases hp.symm.trans (within?_of_reading e)
    exact .inl ⟨rfl, rfl⟩
  · cases hp.symm.trans (within?_of_reading e)
    exact .inr ⟨hdeep, hx⟩

/-- The tokens before the end are declarations of the grammar just if a program is read from them
without a complaint, and its trees are then the only ones that the grammar gives. Too deep nesting
is complained about; it takes as many tokens as there are layers. -/
theorem within?_iff_derives {before after : List Token} {last : Token}
    (hb : ∀ t ∈ before, t.kind ≠ .eof) (hl : last.kind = .eof) :
    (∀ ns ns', Derives .declarations before ns → Derives .declarations before ns' → ns = ns') ∧
      ∀ nesting, ∃ p, within? nesting (before ++ last :: after) = some p ∧
        ((nesting ≤ before.length ∧ ∃ x ∈ p.complaints, x.objection = .tooDeep) ∨
          (p.complaints = [] ↔ ∃ ns, Derives .declarations before ns) ∧
            ∀ ns, Derives .declarations before ns → p.statements = ns) := by
  have reads : ∀ nesting, ∃ p, within? nesting (before ++ last :: after) = some p ∧
      (p.complaints = [] → Derives .declarations before p.statements) := by
    intro nesting
    have known : ∀ t ∈ before ++ last :: after, (fun _ => True) t := fun _ _ => trivial
    obtain ⟨p, hp, -, hsound⟩ := within?_reads nesting hb hl known
    exact ⟨p, hp, hsound⟩
  refine ⟨fun ns ns' hd hd' => ?_, fun nesting => ?_⟩
  · -- With more layers than tokens both trees are what is read.
    obtain ⟨p, hp, -⟩ := reads (before.length + 1)
    have statements : ∀ ns, Derives .declarations before ns → p.statements = ns := by
      intro ns hd
      rcases within?_accepts _ hb hl hp hd with ⟨-, h⟩ | ⟨hdeep, -⟩
      · exact h
      · omega
    rw [← statements ns hd, statements ns' hd']
  · obtain ⟨p, hp, hsound⟩ := reads nesting
    refine ⟨p, hp, ?_⟩
    by_cases hdeep : nesting ≤ before.length ∧ ∃ x ∈ p.complaints, x.objection = .tooDeep
    · exact .inl hdeep
    have accepts : ∀ ns, Derives .declarations before ns →
        p.complaints = [] ∧ p.statements = ns := fun ns hd =>
      (within?_accepts nesting hb hl hp hd).resolve_right hdeep
    refine .inr ⟨⟨fun hc => ⟨_, hsound hc⟩, fun ⟨ns, hd⟩ => (accepts ns hd).1⟩, fun ns hd => ?_⟩
    exact (accepts ns hd).2

/-- The tokens of `print true;`. -/
def printTrue : List Token :=
  [⟨.keyword .printWord, "print", .string "print", 1⟩,
   ⟨.keyword .trueWord, "true", .string "true", 1⟩, ⟨.semicolon, ";", .nil, 1⟩]

theorem derives_printTrue : Derives .declarations printTrue [.printStmt (.literal (.bool true))] := by
  have htrue := Derives.operation (.operand (.operand (.operand (.operand (.operand (.operand
    (.callee (.primary (.trueWord (t := ⟨.keyword .trueWord, "true", .string "true", 1⟩) rfl)))))))))
  exact .nextDeclaration (.statement (.printing rfl htrue rfl)) .noDeclarations

/-- The tokens of `print true;` are read without a complaint. -/
theorem within?_print :
    (∀ t ∈ printTrue, t.kind ≠ .eof) ∧ (Token.eof 1).kind = .eof ∧
      ∃ p, within? 20 (printTrue ++ [Token.eof 1]) = some p ∧ p.complaints = [] ∧
        p.statements = [.printStmt (.literal (.bool true))] := by
  have hb : ∀ t ∈ printTrue, t.kind ≠ .eof := by decide
  refine ⟨hb, rfl, ?_⟩
  obtain ⟨p, hp, ⟨hdeep, -⟩ | ⟨hiff, hall⟩⟩ :=
    (@within?_iff_derives printTrue [] (Token.eof 1) hb rfl).2 20
  · exact absurd hdeep (by decide)
  · exact ⟨p, hp, hiff.2 ⟨_, derives_printTrue⟩, hall _ derives_printTrue⟩

end Program

end LoxLang
