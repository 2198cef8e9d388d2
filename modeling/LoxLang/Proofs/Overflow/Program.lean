import LoxLang.Proofs.Overflow.Nesting
import LoxLang.Proofs.Prompt.Batch
import LoxLang.Proofs.Reading.Confined
/-!
# Programs that nest too deeply

Where a program nests too deeply, reading ends with one complaint about that, and the declarations
read before are kept. They are the first ones of the program that is read if nesting may be deeper.
A text with such a complaint is not run.
-/

namespace LoxLang

/-- The message of a complaint about nesting. -/
def Complaint.IsTooDeep (x : Complaint) : Prop := x.objection.message = "Too much nesting."

/-- A text starts as its first part does. -/
theorem firstChar_append {text : String} {c : Char} (h : text.toList.head? = some c) (more : String) :
    (text ++ more).toList.head? = some c := by
  obtain ⟨rest, hrest⟩ := List.head?_eq_some_iff.1 h
  rw [String.toList_append, hrest]
  rfl

/-- No other objection has that message. -/
theorem Complaint.isTooDeep_iff (x : Complaint) : x.IsTooDeep ↔ x.objection = .tooDeep := by
  obtain ⟨position, token, objection⟩ := x
  refine ⟨fun h => ?_, fun h => by cases h; rfl⟩
  have other : ∀ {c : Char}, c ≠ 'T' → objection.message.toList.head? ≠ some c := by
    intro c hc e
    change objection.message = _ at h
    rw [h] at e
    exact hc (Option.some.inj e).symm
  cases objection with
  | tooDeep => rfl
  | invalidTarget => exact absurd rfl (other (c := 'I') (by decide))
  | expected what =>
    exact absurd (firstChar_append (firstChar_append rfl _) _) (other (c := 'E') (by decide))
  | tooMany what =>
    have hmessage : ("Can't have more than " ++ toString maxArity ++ " " ++ what ++ "."
        ).toList.head? = some 'C' :=
      firstChar_append (firstChar_append (firstChar_append (firstChar_append rfl _) _) _) _
    exact absurd hmessage (other (c := 'C') (by decide))

namespace Program

open Rules

variable {rules rules' : Rules} {rounds : Nat} {c c₁ c₂ : Cursor} {ns ns' : List Node}

/-! ## Declarations -/

/-- Where the end is not next, there is a next declaration. -/
theorem next_of_declarations {t : Token} {rest : List Token} (ht : c.after = t :: rest)
    (he : t.kind ≠ .eof) (h : declarations rules (rounds + 1) c = .ok ns c₁) :
    ∃ o c', nextDeclaration rules c = .ok o c' ∧
      o.elim (pure []) (fun first =>
        declarations rules rounds >>= fun ns => pure (first.toList ++ ns)) c' = .ok ns c₁ := by
  rw [declarations, Parse.bind_ok (Parse.atEnd_eq ht)] at h
  simp only [he, decide_false, Bool.false_eq_true, if_false] at h
  obtain ⟨o, c', hnext, h⟩ := Parse.ok_of_bind h
  exact ⟨o, c', hnext, by rw [← h]; cases o <;> rfl⟩

/-- A declaration that nests too deeply is complained about; everything else stays as it is. -/
theorem nextDeclaration_eq (rules : Rules) (c : Cursor) :
    nextDeclaration rules c =
      match rules.declaration c with
      | .ok first c' => .ok (some first) c'
      | .error .tooDeep c' => (Parse.complainAhead .tooDeep >>= fun _ => pure none) c'
      | .error halt c' => .error halt c' := by
  change EStateM.tryCatch (EStateM.map some rules.declaration) _ c = _
  unfold EStateM.tryCatch EStateM.map
  dsimp only [EStateM.Backtrackable.save, EStateM.Backtrackable.restore]
  cases rules.declaration c with
  | ok first c' => rfl
  | error halt c' => cases halt <;> rfl

/-- Declarations that are read come to an end at the end token, go on after the first one, or end
with a complaint about the nesting of the first one. -/
theorem declarations_cases (h : declarations rules (rounds + 1) c = .ok ns c₁) :
    (∃ t rest, c.after = t :: rest ∧ t.kind = .eof ∧ ns = [] ∧ c₁ = c) ∨
      ∃ t rest, c.after = t :: rest ∧ t.kind ≠ .eof ∧
        ((∃ first c' ms, rules.declaration c = .ok first c' ∧
            declarations rules rounds c' = .ok ms c₁ ∧ ns = first.toList ++ ms) ∨
          ∃ c' u, rules.declaration c = .error .tooDeep c' ∧ ns = [] ∧
            c₁.complaints = c'.complaints ++ [⟨c'.before.length, u, .tooDeep⟩]) := by
  cases ht : c.after with
  | nil =>
    obtain ⟨before, after, complaints⟩ := c
    cases ht
    cases h
  | cons t rest =>
    by_cases he : t.kind = .eof
    · rw [declarations_end ht he] at h
      cases h
      exact .inl ⟨t, rest, rfl, he, rfl, rfl⟩
    refine .inr ⟨t, rest, rfl, he, ?_⟩
    obtain ⟨o, c', hnext, h'⟩ := next_of_declarations ht he h
    rw [nextDeclaration_eq] at hnext
    cases hfirst : rules.declaration c with
    | ok first c'' =>
      rw [hfirst] at hnext
      cases hnext
      obtain ⟨ms, c₂, hms, h'⟩ := Parse.ok_of_bind h'
      cases h'
      exact .inl ⟨first, c', ms, rfl, hms, rfl⟩
    | error halt c'' =>
      rw [hfirst] at hnext
      cases halt with
      | syntaxError | offEnd => cases hnext
      | tooDeep =>
        obtain ⟨_, c₂, hcomplain, hnone⟩ := Parse.ok_of_bind hnext
        cases hnone
        cases h'
        cases hu : c''.after with
        | nil =>
          obtain ⟨before, after, complaints⟩ := c''
          cases hu
          cases hcomplain
        | cons u us =>
          rw [Parse.complainAhead_eq hu] at hcomplain
          cases hcomplain
          exact .inr ⟨c'', u, rfl, rfl, rfl⟩

/-- What was complained about before a program is read is complained about first. -/
theorem complaints_declarations (h : Rules.StopShort rules rules') :
    ∀ {rounds c}, declarations rules' rounds c = .ok ns c₁ → c.complaints <+: c₁.complaints := by
  intro rounds
  induction rounds generalizing ns with
  | zero =>
    intro c e
    cases e
  | succ rounds ih =>
    intro c e
    have hgrows := h.declaration.complains c
    obtain ⟨-, -, -, -, -, rfl⟩ | ⟨t, rest, -, -, ⟨first, c', ms, hfirst, hms, -⟩ |
      ⟨c', u, hfirst, -, hlast⟩⟩ := declarations_cases e
    · exact List.prefix_refl _
    · rw [hfirst] at hgrows
      exact hgrows.isPrefix.trans (ih hms)
    · rw [hfirst] at hgrows
      rw [hlast]
      exact hgrows.isPrefix.trans (List.prefix_append _ _)

/-- With rules that stop short of others, either a program is read alike, with no complaint about
nesting, or its declarations are the first ones, with one such complaint at the end. -/
theorem declarations_stopShort (h : Rules.StopShort rules rules') :
    ∀ {rounds c}, declarations rules rounds c = .ok ns c₁ →
      declarations rules' rounds c = .ok ns' c₂ →
      (ns = ns' ∧ c₁ = c₂ ∧ c.Complains c₁) ∨
        ∃ c₀ x, c.Complains c₀ ∧ c₁.complaints = c₀.complaints ++ [x] ∧ x.objection = .tooDeep ∧
          ns <+: ns' ∧ c₀.complaints <+: c₂.complaints := by
  intro rounds
  induction rounds generalizing ns ns' with
  | zero =>
    intro c e
    cases e
  | succ rounds ih =>
    intro c e e'
    have hends := (h.declaration c).2
    have hgrows := h.declaration.complains c
    obtain ⟨t, rest, ht, he, rfl, rfl⟩ | ⟨t, rest, ht, he, ⟨first, c', ms, hfirst, hms, rfl⟩ |
      ⟨c', u, hfirst, rfl, hlast⟩⟩ := declarations_cases e
    · -- At the end there is nothing to stop short of.
      rw [declarations_end ht he] at e'
      cases e'
      exact .inl ⟨rfl, rfl, .of_eq rfl⟩
    · rw [hfirst] at hends
      obtain heq | ⟨c₃, h₃, -⟩ := hends
      · rw [← heq] at hgrows
        rw [declarations_cons ht he heq.symm] at e'
        obtain ⟨ms', c₃, hms', e'⟩ := Parse.ok_of_bind e'
        cases e'
        obtain ⟨rfl, rfl, hc₁⟩ | ⟨c₀, x, hc₀, hx, hdeep, hfewer, hfirst'⟩ := ih hms hms'
        · exact .inl ⟨rfl, rfl, hgrows.trans hc₁⟩
        · exact .inr ⟨c₀, x, hgrows.trans hc₀, hx, hdeep,
            List.prefix_append_right_inj _ |>.2 hfewer, hfirst'⟩
      · cases h₃
    · -- The declaration nests too deeply; with more layers it may not, and reading goes on.
      refine .inr ⟨c', _, ?_, hlast, rfl, List.nil_prefix, ?_⟩
      · obtain heq | ⟨c₃, h₃, hc₃, -⟩ := hends
        · rw [← heq, hfirst] at hgrows
          exact hgrows
        · rw [hfirst] at h₃
          cases h₃
          exact hc₃
      · have hon : c'.complaints <+: (cursorOf (rules'.declaration c)).complaints := by
          obtain heq | ⟨c₃, h₃, -, hon⟩ := hends
          · rw [← heq, hfirst]
            exact List.prefix_refl _
          · rw [hfirst] at h₃
            cases h₃
            exact hon.isPrefix
        refine hon.trans ?_
        obtain ⟨t', rest', ht', he', -⟩ | ⟨-, -, -, -, ⟨first', c'', ms', hfirst', hms', -⟩ |
          ⟨c'', u', hfirst', -, hlast'⟩⟩ := declarations_cases e'
        · rw [ht] at ht'
          cases ht'
          exact absurd he' he
        · rw [hfirst']
          exact complaints_declarations h hms'
        · rw [hfirst', hlast']
          exact List.prefix_append _ _

end Program

/-! ## Runs of texts -/

namespace Session

/-- A text with a complaint is not run. -/
theorem run_complaint {nesting : Nat} {source : String} {p : Program}
    (hp : Program.within? nesting (Scan.ofText source).tokens = some p) (hne : p.complaints ≠ [])
    (s : Session) :
    (s.run source nesting).diagnostics.syntaxErrors = true ∧
      (s.run source nesting).machine = s.machine := by
  have hprogram : Program.ofScan (Scan.ofText source) nesting = p := by
    rw [Program.ofScan, hp, Option.getD_some]
  have hset : (s.read source nesting).1.diagnostics.syntaxErrors = true := by
    change ((s.diagnostics.addScan (Scan.ofText source).errors).addComplaints
      (Program.ofScan (Scan.ofText source) nesting).complaints).syntaxErrors = true
    rw [hprogram, Diagnostics.syntaxErrors_addComplaints, Bool.or_eq_true]
    exact .inr (by simpa using hne)
  rw [show s.run source nesting = (s.read source nesting).1 from if_pos hset]
  exact ⟨hset, rfl⟩

end Session

/-- Tokens with an end token are read with fewer layers and with more. Either nothing is said about
nesting, and then both readings are the same; or the last complaint, and no other, is about nesting,
and the statements and the other complaints are the first ones that more layers lead to. Then a
syntax error is reported, and a text with these tokens is not run. -/
theorem Program.within?_stopsShort {nesting nesting' : Nat} (hle : nesting ≤ nesting')
    {tokens : List Token} (hend : ∃ t ∈ tokens, t.kind = .eof) :
    ∃ low high, within? nesting tokens = some low ∧ within? nesting' tokens = some high ∧
      ((∀ x ∈ low.complaints, ¬ x.IsTooDeep) ∧ low = high ∨
        ∃ others last, low.complaints = others ++ [last] ∧ last.IsTooDeep ∧
          (∀ x ∈ others, ¬ x.IsTooDeep) ∧ low.statements <+: high.statements ∧
          others <+: high.complaints ∧
          (∀ d : Diagnostics, (d.addComplaints low.complaints).syntaxErrors = true) ∧
          ∀ (s : Session) (source : String), (Scan.ofText source).tokens = tokens →
            (s.run source nesting).diagnostics.syntaxErrors = true ∧
              (s.run source nesting).machine = s.machine) := by
  obtain ⟨ns, -, c₁, e, -, hlow⟩ := within?_eq_some nesting hend
  obtain ⟨ns', -, c₂, e', -, hhigh⟩ := within?_eq_some nesting' hend
  refine ⟨_, _, hlow, hhigh, ?_⟩
  -- No complaint was made before reading began.
  have quiet : ∀ {c : Cursor}, Cursor.Complains ⟨[], tokens, []⟩ c →
      ∀ x ∈ c.complaints, ¬ x.IsTooDeep := by
    rintro c ⟨xs, hxs, hnone⟩ x hx
    rw [hxs, List.nil_append] at hx
    rw [Complaint.isTooDeep_iff]
    exact hnone x hx
  obtain ⟨rfl, rfl, hc₁⟩ | ⟨c₀, x, hc₀, hx, hdeep, hfewer, hfirst⟩ :=
    declarations_stopShort (Rules.StopShort.atop _ hle) e e'
  · exact .inl ⟨quiet hc₁, rfl⟩
  · have hne : c₁.complaints ≠ [] := by simp [hx]
    refine .inr ⟨c₀.complaints, x, hx, x.isTooDeep_iff.2 hdeep, quiet hc₀, hfewer, hfirst,
      fun d => ?_, ?_⟩
    · rw [Diagnostics.syntaxErrors_addComplaints, Bool.or_eq_true]
      exact .inr (by simpa using hne)
    · rintro s source rfl
      exact Session.run_complaint hlow hne s

/-- A statement, one that nests two layers deep, and a third one. -/
def Program.groupedTokens : List Token :=
  [⟨.keyword .trueWord, "true", .bool true, 1⟩, ⟨.semicolon, ";", .nil, 1⟩,
   ⟨.leftParen, "(", .nil, 2⟩, ⟨.keyword .falseWord, "false", .bool false, 2⟩,
   ⟨.rightParen, ")", .nil, 2⟩, ⟨.semicolon, ";", .nil, 2⟩,
   ⟨.keyword .nilWord, "nil", .nil, 3⟩, ⟨.semicolon, ";", .nil, 3⟩, .eof 3]

theorem Program.within?_stopsShort_grouped :
    1 ≤ 2 ∧ (∃ t ∈ groupedTokens, t.kind = .eof) ∧
      ∃ low high, within? 1 groupedTokens = some low ∧ within? 2 groupedTokens = some high ∧
        low.statements.length = 1 ∧ high.statements.length = 3 ∧
        low.statements <+: high.statements ∧ (∃ x, low.complaints = [x] ∧ x.IsTooDeep) := by
  have hend : ∃ t ∈ groupedTokens, t.kind = .eof := ⟨.eof 3, by decide, rfl⟩
  obtain ⟨low, high, hlow, hhigh, hcases⟩ := within?_stopsShort (by decide : 1 ≤ 2) hend
  -- What the two readings come to is evaluated here.
  have hlows : (within? 1 groupedTokens).map (fun p => (p.statements.length, p.complaints.length)) =
      some (1, 1) := rfl
  have hhighs : (within? 2 groupedTokens).map (fun p => p.statements.length) = some 3 := rfl
  rw [hlow, Option.map_some, Option.some_inj, Prod.mk.injEq] at hlows
  rw [hhigh, Option.map_some, Option.some_inj] at hhighs
  refine ⟨by decide, hend, low, high, hlow, hhigh, hlows.1, hhighs, ?_⟩
  obtain ⟨-, rfl⟩ | ⟨others, last, hlast, hdeep, -, hfewer, -⟩ := hcases
  · exact absurd (hlows.1.symm.trans hhighs) (by decide)
  · have hothers : others = [] := by
      have hlength := hlows.2
      rw [hlast, List.length_append, List.length_singleton] at hlength
      exact List.length_eq_zero_iff.1 (Nat.succ.inj hlength)
    subst hothers
    exact ⟨hfewer, last, hlast, hdeep⟩

end LoxLang
