import LoxLang.Proofs.Reading.Amid
/-!
# Going on after a syntax error

A top-level declaration that is given up costs the tokens up to the place where reading goes on. What
was read before stays, and what comes from there on is read as if it stood alone.
-/

namespace LoxLang

open Parse Rules

/-! ## Where reading goes on -/

/-- A place where reading can go on: at the end, behind a semicolon, or at a token that starts a
statement. -/
def Resumable (tokens : List Token) (p : Nat) : Prop :=
  ∃ t, tokens[p]? = some t ∧
    (t.kind = .eof ∨ (∃ u, tokens[p - 1]? = some u ∧ u.kind = .semicolon) ∨ t.kind ∈ resumptions)

/-- Where reading goes on after a syntax error at the token at place `e`: at the first place behind it
where that is possible, but at the end token if the error is there. -/
inductive Resumption (tokens : List Token) (e : Nat) : Nat → Prop
  | atEnd {t} : tokens[e]? = some t → t.kind = .eof → Resumption tokens e e
  | behind {t p} : tokens[e]? = some t → t.kind ≠ .eof → e < p → Resumable tokens p →
      (∀ q, e < q → q < p → ¬ Resumable tokens q) → Resumption tokens e p

theorem Resumption.lt {tokens : List Token} {e p : Nat} (h : Resumption tokens e p) :
    p < tokens.length := by
  cases h with
  | atEnd h => exact (List.getElem?_eq_some_iff.1 h).1
  | behind _ _ _ h =>
    obtain ⟨t, ht, -⟩ := h
    exact (List.getElem?_eq_some_iff.1 ht).1

/-- Only where the end is next is no token skipped. -/
theorem Resumption.gt {tokens : List Token} {e p : Nat} {t : Token} (h : Resumption tokens e p)
    (ht : tokens[e]? = some t) (he : t.kind ≠ .eof) : e < p := by
  cases h with
  | atEnd h hk =>
    cases ht.symm.trans h
    exact absurd hk he
  | behind _ _ hlt => exact hlt

/-- The cursor at a place in the tokens. -/
def Cursor.at (tokens : List Token) (p : Nat) (complaints : List Complaint) : Cursor :=
  ⟨(tokens.take p).reverse, tokens.drop p, complaints⟩

variable {origin : Token → Prop} {tokens : List Token} {complaints : List Complaint} {p : Nat}

@[simp] theorem Cursor.complaints_at : (Cursor.at tokens p complaints).complaints = complaints := rfl

theorem Cursor.after_at {t : Token} (h : tokens[p]? = some t) :
    (Cursor.at tokens p complaints).after = t :: tokens.drop (p + 1) := by
  obtain ⟨hp, rfl⟩ := List.getElem?_eq_some_iff.1 h
  exact List.drop_eq_getElem_cons hp

theorem Cursor.before_at {u : Token} (h : tokens[p]? = some u) :
    (Cursor.at tokens (p + 1) complaints).before = u :: (Cursor.at tokens p complaints).before := by
  rw [Cursor.at, List.take_add_one, h]
  simp [Cursor.at]

/-- Taking the token there goes on to the next place. -/
theorem Cursor.step_at {t : Token} (h : tokens[p]? = some t) :
    ⟨t :: (Cursor.at tokens p complaints).before, tokens.drop (p + 1), complaints⟩ =
      Cursor.at tokens (p + 1) complaints := by
  rw [← Cursor.before_at h]
  rfl

/-- Reading can go on where skipping stops. -/
theorem resumable_iff {t u : Token} (ht : tokens[p + 1]? = some t) (hu : tokens[p]? = some u) :
    Resumable tokens (p + 1) ↔ t.kind = .eof ∨ u.kind = .semicolon ∨ t.kind ∈ resumptions := by
  simp [Resumable, ht, hu]

/-- Skipping ends at the first place where reading can go on. -/
theorem skip_at : ∀ rounds p, p < tokens.length →
    (Cursor.at tokens (p + 1) complaints).Ready origin rounds →
    ∃ q, p < q ∧
      skip rounds (Cursor.at tokens (p + 1) complaints) = .ok () (Cursor.at tokens q complaints) ∧
      Resumable tokens q ∧ ∀ r, p < r → r < q → ¬ Resumable tokens r := by
  intro rounds
  induction rounds with
  | zero =>
    intro p _ hc
    exact absurd hc.short (Nat.not_lt_zero _)
  | succ rounds ih =>
    intro p hp hc
    obtain ⟨t, ht⟩ : ∃ t, tokens[p + 1]? = some t := by
      obtain ⟨t, rest, h, -⟩ := hc.next
      exact ⟨t, by rw [← List.head?_drop]; exact congrArg List.head? h⟩
    obtain ⟨u, hu⟩ : ∃ u, tokens[p]? = some u := ⟨_, List.getElem?_eq_getElem hp⟩
    rw [skip_succ (Cursor.after_at ht) (Cursor.before_at hu)]
    split
    · next hb =>
      exact ⟨p + 1, Nat.lt_succ_self p, rfl, (resumable_iff ht hu).2 hb, fun r _ _ => by omega⟩
    · next hb =>
      obtain ⟨hp', -⟩ := List.getElem?_eq_some_iff.1 ht
      have hafter : (Cursor.at tokens (p + 1) complaints).after = _ := Cursor.after_at ht
      have hone := Cursor.Takes.one hafter fun he => hb (.inl he)
      change ∃ q, _ ∧ skip rounds ⟨t :: _, tokens.drop (p + 1 + 1), complaints⟩ = _ ∧ _
      have hready := hc.takes hone (Nat.le_refl _)
      rw [Cursor.complaints_at, Cursor.step_at ht] at hready
      rw [Cursor.step_at ht]
      obtain ⟨q, hq, e, hresumable, hfirst⟩ := ih (p + 1) hp' hready
      refine ⟨q, by omega, e, hresumable, fun r h₁ h₂ => ?_⟩
      rcases Nat.eq_or_lt_of_le (Nat.succ_le_of_lt h₁) with rfl | h₁
      · exact fun h => hb ((resumable_iff ht hu).1 h)
      · exact hfirst r h₁ h₂

/-- Going on after a syntax error takes the cursor where reading goes on. -/
theorem resume_at {rounds : Nat} {t : Token} (ht : tokens[p]? = some t)
    (hc : (Cursor.at tokens p complaints).Ready origin rounds) (hp : t.kind = .eof → p ≠ 0) :
    ∃ q, Resumption tokens p q ∧
      resume rounds (Cursor.at tokens p complaints) = .ok () (Cursor.at tokens q complaints) := by
  have resumed : ∀ {u c' c''}, take (Cursor.at tokens p complaints) = .ok u c' →
      skip rounds c' = .ok () c'' → resume rounds (Cursor.at tokens p complaints) = .ok () c'' := by
    intro u c' c'' h h'
    exact (bind_ok h _).trans h'
  by_cases he : t.kind = .eof
  · obtain ⟨n, rfl⟩ := Nat.exists_eq_succ_of_ne_zero (hp he)
    obtain ⟨hlt, -⟩ := List.getElem?_eq_some_iff.1 ht
    obtain ⟨u, hu⟩ : ∃ u, tokens[n]? = some u := ⟨_, List.getElem?_eq_getElem (by omega)⟩
    obtain ⟨rounds, rfl⟩ : ∃ r, rounds = r + 1 := ⟨rounds - 1, by have := hc.short; omega⟩
    refine ⟨n + 1, .atEnd ht he, resumed (take_eof (Cursor.after_at ht) he (Cursor.before_at hu)) ?_⟩
    rw [skip_succ (Cursor.after_at ht) (Cursor.before_at hu), if_pos (.inl he)]
  · obtain ⟨hlt, -⟩ := List.getElem?_eq_some_iff.1 ht
    have hafter : (Cursor.at tokens p complaints).after = _ := Cursor.after_at ht
    have hone := Cursor.Takes.one hafter he
    have hready := hc.takes hone (Nat.le_add_right _ _)
    have htaken := take_eq hafter he
    rw [Cursor.complaints_at, Cursor.step_at ht] at hready htaken
    obtain ⟨q, hq, e, hresumable, hfirst⟩ := skip_at rounds p hlt hready
    exact ⟨q, .behind ht he hq hresumable hfirst, resumed htaken e⟩

/-- What is taken from the tokens leaves the cursor at a place in them. -/
theorem Cursor.Takes.at {c : Cursor} {ts : List Token} (h : Cursor.Takes ⟨[], tokens, complaints⟩ ts c) :
    c = Cursor.at tokens c.before.length c.complaints := by
  obtain ⟨before, after, complaints⟩ := c
  have hafter : tokens = ts ++ after := h.after
  obtain rfl : before = ts.reverse := by simpa using h.before
  simp [Cursor.at, hafter]

/-- A declaration that is given up leaves the cursor where reading goes on. The last complaint is
about the token of the syntax error. -/
theorem declarationRule_recovers {below : Rules} {deep : Nat} (hr : RulesRead origin deep below)
    {c c' : Cursor} {ts : List Token} (hts : Cursor.Takes ⟨[], tokens, []⟩ ts c)
    (hc : c.Inside origin below.rounds) (herror : soundDeclaration below c = .error .syntaxError c') :
    (∃ t what ys, tokens[c'.before.length]? = some t ∧ c.complaints <+: ys ∧
      c'.complaints = ys ++ [⟨c'.before.length, t, .expected what⟩]) ∧
      ∃ p, Resumption tokens c'.before.length p ∧
        declarationRule below c = .ok none (Cursor.at tokens p c'.complaints) := by
  obtain ⟨us, hus, t, rest, what, ys, ht, hys, hlast⟩ :=
    (Reads.soundDeclaration hr).error hc.toReady herror
  have hat := (hts.trans hus).at
  have htoken : tokens[c'.before.length]? = some t := by
    rw [← List.head?_drop]
    exact congrArg List.head? (hat ▸ ht)
  -- The end was not next where the declaration started, so it comes after some token.
  have hend : t.kind = .eof → c'.before.length ≠ 0 := by
    intro he h
    obtain ⟨u, us', hu, hue⟩ := hc.next
    have hbefore := List.eq_nil_of_length_eq_zero h
    rw [hus.before, List.append_eq_nil_iff, List.reverse_eq_nil_iff] at hbefore
    have hafter := hus.after
    rw [hbefore.1, hu, ht] at hafter
    cases hafter
    exact hue he
  have hready := hc.toReady.takes hus (Nat.le_add_right _ _)
  rw [hat] at hready
  obtain ⟨p, hp, e⟩ := resume_at htoken hready hend
  refine ⟨⟨t, what, ys, htoken, hys, hlast⟩, p, hp, ?_⟩
  rw [declarationRule_syntaxError herror, hat]
  exact bind_ok e _

/-! ## What was read before and what comes after -/

/-- Declarations are read one after another, from one place to another; those that are given up yield
nothing. -/
inductive Passes (rules : Rules) : Cursor → List Node → Cursor → Prop
  | none {c} : Passes rules c [] c
  | next {c c₁ c₂ t rest first ns} : c.after = t :: rest → t.kind ≠ .eof →
      rules.declaration c = .ok first c₁ → Passes rules c₁ ns c₂ →
      Passes rules c (first.toList ++ ns) c₂

namespace Passes

variable {rules : Rules} {c c' : Cursor} {ns : List Node} {deep : Nat}

theorem trans {c'' : Cursor} {ms : List Node} (h : Passes rules c ns c') (h' : Passes rules c' ms c'') :
    Passes rules c (ns ++ ms) c'' := by
  induction h with
  | none => exact h'
  | next ht he e _ ih =>
    rw [List.append_assoc]
    exact .next ht he e (ih h')

/-- What has been read is kept, and every declaration took a token, so there are rounds enough left. -/
theorem declarations (hr : RulesRead origin deep rules) (h : Passes rules c ns c') :
    ∀ rounds, c.Ready origin rounds → rounds ≤ rules.rounds →
      ∃ ts rounds', c.Takes ts c' ∧ rounds ≤ rounds' + ts.length ∧ rounds' ≤ rounds ∧
        ∀ ms c'', Program.declarations rules rounds' c' = .ok ms c'' →
          Program.declarations rules rounds c = .ok (ns ++ ms) c'' := by
  induction h with
  | none =>
    intro rounds _ _
    exact ⟨[], rounds, .refl _, Nat.le_refl _, Nat.le_refl _, fun _ _ h => h⟩
  | @next c c₁ c₂ t rest first ns ht he e _ ih =>
    intro rounds hc hle
    obtain ⟨rounds, rfl⟩ : ∃ r, rounds = r + 1 := ⟨rounds - 1, by have := hc.short; omega⟩
    have inside : c.Inside origin rules.rounds :=
      ⟨⟨hc.ended, hc.known, Nat.lt_of_lt_of_le hc.short hle⟩, t, rest, ht, he⟩
    obtain ⟨us, hus, hl, -⟩ := hr.declaration.ok inside e
    obtain ⟨vs, rounds', hvs, hroom, hless, e'⟩ := ih rounds (hc.takes hus (by omega)) (by omega)
    refine ⟨us ++ vs, rounds', hus.trans hvs, ?_, by omega, fun ms c'' h => ?_⟩
    · rw [List.length_append]
      omega
    · rw [Program.declarations_cons ht he e]
      rw [bind_ok (e' ms c'' h)]
      simp [pure, EStateM.pure]

end Passes

namespace Program

/-- What comes from a place on is read as if it stood alone, with its complaints put behind those
made before. -/
theorem declarations_at (nesting : Nat) {rounds rounds' : Nat} (complaints : List Complaint)
    (hp : p ≤ tokens.length) (h : ∃ t ∈ tokens.drop p, t.kind = .eof)
    (hr : (tokens.drop p).length + 1 ≤ rounds) (hr' : (tokens.drop p).length + 1 ≤ rounds') :
    ∃ rest c, within? nesting (tokens.drop p) = some rest ∧
      declarations (Rules.atop rounds nesting) rounds' (Cursor.at tokens p complaints) =
        .ok rest.statements c ∧
      c.complaints = complaints ++ rest.complaints.map (Complaint.later p) := by
  obtain ⟨ns, ts, c, e, -⟩ := declarations_takes
    (RulesRead.atop ((tokens.drop p).length + 1) nesting) _ _ (Cursor.ready_start h) (by simp)
  let s : Surroundings := ⟨(tokens.take p).reverse, complaints, [], (· = .offEnd), rfl, by simp⟩
  have hrules : Rules.Follow s (Rules.atop ((tokens.drop p).length + 1) nesting)
      (Rules.atop rounds nesting) := .atop hr (.inl rfl)
  have follows := Follows.programDeclarations (by simp [s]) hrules hr' ⟨[], tokens.drop p, []⟩
  rw [e] at follows
  have hat : Cursor.amid s ⟨[], tokens.drop p, []⟩ = Cursor.at tokens p complaints := by
    simp [Cursor.amid, Cursor.at, s]
  have hlater : s.front.length = p := by simp [s, hp]
  rw [hat] at follows
  refine ⟨⟨ns, c.complaints⟩, c.amid s, within?_of_reading e, follows, ?_⟩
  simp [Cursor.amid, hlater, s]

/-- Between two declarations a program falls into parts that are read one without the other. -/
theorem within?_of_passes {nesting : Nat} {done : List Node}
    (hend : ∃ t ∈ tokens, t.kind = .eof) (hp : p < tokens.length)
    (h : Passes (Rules.atop (tokens.length + 1) nesting) ⟨[], tokens, []⟩ done
      (Cursor.at tokens p complaints)) :
    ∃ rest, within? nesting (tokens.drop p) = some rest ∧
      within? nesting tokens =
        some ⟨done ++ rest.statements, complaints ++ rest.complaints.map (Complaint.later p)⟩ := by
  have hstart := Cursor.ready_start hend
  obtain ⟨ts, rounds, hts, hroom, -, hread⟩ := h.declarations (RulesRead.atop _ _) _ hstart (by simp)
  have hplace : ts.length = p := by
    have := congrArg List.length hts.before
    simpa [Cursor.at, Nat.min_eq_left (Nat.le_of_lt hp)] using this.symm
  have hr : (tokens.drop p).length + 1 ≤ tokens.length + 1 := by simp
  have hr' : (tokens.drop p).length + 1 ≤ rounds := by
    rw [List.length_drop]
    omega
  obtain ⟨rest, c, hrest, e, hcomplaints⟩ := declarations_at nesting complaints (Nat.le_of_lt hp)
    (hstart.takes hts (Nat.le_add_right _ _)).ended hr hr'
  refine ⟨rest, hrest, ?_⟩
  rw [within?_of_reading (hread _ _ e), hcomplaints]

/-- If a declaration is given up, reading goes on at one place only, and there as if what is left of the
program stood alone. The statements read before are kept, and so are the complaints made before and in
the declaration; the last of these is about the token of the syntax error. -/
theorem within?_recovers {nesting : Nat} {done : List Node} {c c' : Cursor} {s : Token}
    {ahead : List Token} (hend : ∃ t ∈ tokens, t.kind = .eof)
    (hdone : Passes (Rules.atop (tokens.length + 1) (nesting + 1)) ⟨[], tokens, []⟩ done c)
    (hs : c.after = s :: ahead) (hse : s.kind ≠ .eof)
    (herror : soundDeclaration (Rules.atop (tokens.length + 1) nesting) c = .error .syntaxError c') :
    (∃ t what ys, tokens[c'.before.length]? = some t ∧ c.complaints <+: ys ∧
      c'.complaints = ys ++ [⟨c'.before.length, t, .expected what⟩]) ∧
    ∃ p rest, Resumption tokens c'.before.length p ∧
      within? (nesting + 1) (tokens.drop p) = some rest ∧
      within? (nesting + 1) tokens =
        some ⟨done ++ rest.statements, c'.complaints ++ rest.complaints.map (Complaint.later p)⟩ := by
  have hstart := Cursor.ready_start hend
  obtain ⟨ts, -, hts, -⟩ := hdone.declarations (RulesRead.atop _ _) _ hstart (by simp)
  have hinside : c.Inside (fun _ => True) (Rules.atop (tokens.length + 1) nesting).rounds :=
    ⟨by simpa using hstart.takes hts (Nat.le_add_right _ _), s, ahead, hs, hse⟩
  obtain ⟨hblamed, p, hp, hgiven⟩ :=
    declarationRule_recovers (RulesRead.atop _ nesting) hts hinside herror
  have hpassed := hdone.trans (.next hs hse hgiven .none)
  rw [Option.toList_none, List.append_nil, List.append_nil] at hpassed
  obtain ⟨rest, hrest, hwhole⟩ := within?_of_passes hend hp.lt hpassed
  exact ⟨hblamed, p, rest, hp, hrest, hwhole⟩

/-- The tokens of `print true; ) print true;`. -/
def strayParen : List Token :=
  [⟨.keyword .printWord, "print", .string "print", 1⟩,
   ⟨.keyword .trueWord, "true", .string "true", 1⟩, ⟨.semicolon, ";", .nil, 1⟩,
   ⟨.rightParen, ")", .nil, 1⟩,
   ⟨.keyword .printWord, "print", .string "print", 1⟩,
   ⟨.keyword .trueWord, "true", .string "true", 1⟩, ⟨.semicolon, ";", .nil, 1⟩, Token.eof 1]

/-- The complaint about the parenthesis. -/
def strayParenBlamed : Complaint := ⟨3, ⟨.rightParen, ")", .nil, 1⟩, .expected "expression"⟩

theorem passes_strayParen : Passes (Rules.atop (strayParen.length + 1) 1) ⟨[], strayParen, []⟩
    [.printStmt (.literal (.bool true))] (Cursor.at strayParen 3 []) := by
  have first : (Rules.atop (strayParen.length + 1) 1).declaration ⟨[], strayParen, []⟩ =
      .ok (some (.printStmt (.literal (.bool true)))) (Cursor.at strayParen 3 []) := rfl
  exact .next (t := ⟨.keyword .printWord, "print", .string "print", 1⟩) rfl (by decide) first .none

theorem soundDeclaration_strayParen :
    soundDeclaration (Rules.atop (strayParen.length + 1) 0) (Cursor.at strayParen 3 []) =
      .error .syntaxError (Cursor.at strayParen 3 [strayParenBlamed]) := rfl

/-- The statement in front of the parenthesis is kept, and what is behind it is read on its own. -/
theorem within?_recovers_strayParen :
    (∃ t ∈ strayParen, t.kind = .eof) ∧
      (Cursor.at strayParen 3 []).after = ⟨.rightParen, ")", .nil, 1⟩ :: strayParen.drop 4 ∧
      soundDeclaration (Rules.atop (strayParen.length + 1) 0) (Cursor.at strayParen 3 []) =
        .error .syntaxError (Cursor.at strayParen 3 [strayParenBlamed]) ∧
      ∃ p rest, Resumption strayParen 3 p ∧ within? 1 (strayParen.drop p) = some rest ∧
        within? 1 strayParen = some ⟨[.printStmt (.literal (.bool true))] ++ rest.statements,
          [strayParenBlamed] ++ rest.complaints.map (Complaint.later p)⟩ :=
  ⟨⟨Token.eof 1, by decide, rfl⟩, rfl, soundDeclaration_strayParen,
    (within?_recovers ⟨Token.eof 1, by decide, rfl⟩ passes_strayParen
      (s := ⟨.rightParen, ")", .nil, 1⟩) rfl (by decide) soundDeclaration_strayParen).2⟩

end Program

end LoxLang
