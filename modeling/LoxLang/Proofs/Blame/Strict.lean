import LoxLang.Proofs.Reading.Amid
/-!
# Stopping at the first syntax error

Rules that do not go on after a syntax error, so that they stop at the first one. Up to there they do
what the parser does, and neither has looked at a token behind the one where they stop.
-/

namespace LoxLang

open Parse Rules

namespace Rules

/-- The rules for constructs one layer above the given ones, where a declaration with a syntax error
is the end of everything. -/
def strictAbove (below : Rules) : Rules :=
  { above below with declaration := some <$> soundDeclaration below }

/-- The strict rules that stand on `nesting` layers. -/
def strictAtop (rounds : Nat) : Nat → Rules
  | 0 => floor rounds
  | nesting + 1 => strictAbove (strictAtop rounds nesting)

@[simp] theorem rounds_strictAtop (rounds : Nat) :
    ∀ nesting, (strictAtop rounds nesting).rounds = rounds
  | 0 => rfl
  | nesting + 1 => rounds_strictAtop rounds nesting

end Rules

/-- The declarations up to the end, unless a rule gives up before. -/
def Program.untilHalt (rules : Rules) : Nat → Parse (List Node)
  | 0 => throw .offEnd
  | rounds + 1 => do
    if ← atEnd then return []
    let first ← rules.declaration
    return first.toList ++ (← untilHalt rules rounds)

theorem Congruent.untilHalt {R : ∀ {α : Type}, Parse α → Parse α → Prop} {Rounds : Nat → Nat → Prop}
    (hR : Congruent R Rounds) {rules rules' : Rules} (h : Rules.Related R Rounds rules rules')
    {rounds rounds' : Nat} (hr : Rounds rounds rounds') :
    R (Program.untilHalt rules rounds) (Program.untilHalt rules' rounds') := by
  refine hR.loop (f := fun r (_ : Unit) => Program.untilHalt rules r)
    (g := fun r _ => Program.untilHalt rules' r) (fun _ => rfl) (fun _ => rfl)
    (fun r r' ih _ => ?_) hr ()
  refine hR.bind hR.atEnd fun ended => ?_
  split
  · exact hR.pure _
  · exact hR.bind h.declaration fun _ => hR.bind (ih ()) fun _ => hR.pure _

/-! ## More layers and more rounds -/

/-- Strict rules with more rounds and layers do the same, unless these are what is missing. -/
theorem Rules.Follow.strictAtop {s : Surroundings} {rounds rounds' : Nat} (hr : rounds ≤ rounds')
    (hs : s.excused .tooDeep) : ∀ {nesting nesting' : Nat}, nesting ≤ nesting' →
      Rules.Follow s (Rules.strictAtop rounds nesting) (Rules.strictAtop rounds' nesting')
  | 0, _, _ => ⟨by simpa using hr, .excused hs, .excused hs, .excused hs, .excused hs⟩
  | nesting + 1, nesting' + 1, h => by
    have hR := Follows.congruent s
    have below := Rules.Follow.strictAtop hr hs (Nat.le_of_succ_le_succ h)
    exact hR.above below ((hR.soundDeclaration below).map some)

theorem Follows.untilHalt {s : Surroundings} {rules rules' : Rules} (h : Rules.Follow s rules rules')
    {rounds rounds' : Nat} (hr : rounds ≤ rounds') :
    Follows s (Program.untilHalt rules rounds) (Program.untilHalt rules' rounds') :=
  (congruent s).untilHalt h hr

/-! ## Going on where another parser stops -/

/-- What has been complained about in the end. -/
def said {α : Type} : EStateM.Result Halt Cursor α → List Complaint
  | .ok _ c => c.complaints
  | .error _ c => c.complaints

/-- The second parser does what the first one does, but goes on after a syntax error. It then keeps
what was said, and so it does where other tokens stand behind the token next to those taken. -/
structure Leads {α : Type} (p q : Parse α) : Prop where
  ok : ∀ {c a c'}, p c = .ok a c' → q c = .ok a c' ∧ ∃ ts, c.after = ts ++ c'.after ∧
    ∀ t rest rest', c'.after = t :: rest →
      q { c with after := ts ++ t :: rest' } = .ok a { c' with after := t :: rest' }
  stop : ∀ {c c'}, p c = .error .syntaxError c' → ∃ ts t rest, c.after = ts ++ t :: rest ∧
    c'.after = t :: rest ∧ ∀ rest', c'.complaints <+: said (q { c with after := ts ++ t :: rest' })
  halt : ∀ {c halt c'}, p c = .error halt c' → halt ≠ .syntaxError → q c = .error halt c'
  grows : ∀ c, c.complaints <+: said (q c)

namespace Leads

variable {α β : Type} {p q : Parse α} {f g : α → Parse β}

/-- The same with more of the tokens ahead kept. -/
theorem ok_append (h : Leads p q) {c c' : Cursor} {a : α} (e : p c = .ok a c') :
    ∃ ts, c.after = ts ++ c'.after ∧ ∀ us t rest rest', c'.after = us ++ t :: rest →
      q { c with after := ts ++ (us ++ t :: rest') } = .ok a { c' with after := us ++ t :: rest' } := by
  obtain ⟨-, ts, hts, hlocal⟩ := h.ok e
  refine ⟨ts, hts, fun us t rest rest' hc => ?_⟩
  cases us with
  | nil => exact hlocal t rest rest' hc
  | cons u us => exact hlocal u (us ++ t :: rest) (us ++ t :: rest') hc

theorem said_bind (hg : ∀ a c, c.complaints <+: said (g a c)) (c : Cursor) :
    said (q c) <+: said ((q >>= g) c) := by
  cases h : q c with
  | ok a c' =>
    rw [bind_ok h]
    exact hg a c'
  | error =>
    rw [bind_error h]
    exact List.prefix_refl _

protected theorem bind (h : Leads p q) (hf : ∀ a, Leads (f a) (g a)) : Leads (p >>= f) (q >>= g) where
  ok {c b c''} e := by
    obtain ⟨a, c', e', e⟩ := Parse.ok_of_bind e
    obtain ⟨ts, hts, hlocal⟩ := h.ok_append e'
    obtain ⟨hsame, us, hus, hlocal'⟩ := (hf a).ok e
    refine ⟨?_, ts ++ us, by rw [hts, hus, List.append_assoc], fun t rest rest' hc => ?_⟩
    · rw [bind_ok (h.ok e').1]
      exact hsame
    · rw [List.append_assoc, bind_ok (hlocal us t rest rest' (by rw [hus, hc]))]
      exact hlocal' t rest rest' hc
  stop {c c''} e := by
    obtain e' | ⟨a, c', e', e⟩ := Parse.error_of_bind e
    · obtain ⟨ts, t, rest, hts, hc, hsaid⟩ := h.stop e'
      exact ⟨ts, t, rest, hts, hc, fun rest' =>
        (hsaid rest').trans (said_bind (fun a => (hf a).grows) _)⟩
    · obtain ⟨ts, hts, hlocal⟩ := h.ok_append e'
      obtain ⟨us, t, rest, hus, hc, hsaid⟩ := (hf a).stop e
      refine ⟨ts ++ us, t, rest, by rw [hts, hus, List.append_assoc], hc, fun rest' => ?_⟩
      rw [List.append_assoc, bind_ok (hlocal us t rest rest' hus)]
      exact hsaid rest'
  halt {c halt c''} e hne := by
    obtain e' | ⟨a, c', e', e⟩ := Parse.error_of_bind e
    · exact bind_error (h.halt e' hne) g
    · rw [bind_ok (h.ok e').1]
      exact (hf a).halt e hne
  grows c := (h.grows c).trans (said_bind (fun a => (hf a).grows) c)

/-- A parser that makes no syntax errors and looks no further than at the next token. -/
theorem calm (ok : ∀ {c a c'}, p c = .ok a c' → ∃ ts, c.after = ts ++ c'.after ∧
      ∀ t rest rest', c'.after = t :: rest →
        p { c with after := ts ++ t :: rest' } = .ok a { c' with after := t :: rest' })
    (stop : ∀ c c', p c ≠ .error .syntaxError c') (grows : ∀ c, c.complaints <+: said (p c)) :
    Leads p p where
  ok e := ⟨e, ok e⟩
  stop e := absurd e (stop _ _)
  halt e _ := e
  grows := grows

protected theorem pure (a : α) : Leads (pure a : Parse α) (pure a) := by
  refine calm (fun {c _ _} e => ?_) (fun c c' e => nomatch e) fun _ => List.prefix_refl _
  cases e
  exact ⟨[], rfl, fun _ _ _ _ => rfl⟩

protected theorem throw {halt : Halt} (h : halt ≠ .syntaxError) :
    Leads (throw halt : Parse α) (throw halt) := by
  refine calm (fun e => nomatch e) (fun c c' e => ?_) fun _ => List.prefix_refl _
  cases e
  exact h rfl

/-- Where the first parser gives a declaration up, the second one goes on. -/
protected theorem tryCatch {handler : Halt → Parse α} (h : Leads p q)
    (grows : ∀ c, c.complaints <+: said (handler .syntaxError c))
    (passed : ∀ halt, halt ≠ .syntaxError → handler halt = throw halt) :
    Leads p (tryCatch q handler) where
  ok {c a c'} e := by
    obtain ⟨hsame, ts, hts, hlocal⟩ := h.ok e
    refine ⟨?_, ts, hts, fun t rest rest' hc => ?_⟩
    · change EStateM.tryCatch q handler c = _
      rw [EStateM.tryCatch, hsame]
    · change EStateM.tryCatch q handler _ = _
      rw [EStateM.tryCatch, hlocal t rest rest' hc]
  stop {c c'} e := by
    obtain ⟨ts, t, rest, hts, hc, hsaid⟩ := h.stop e
    exact ⟨ts, t, rest, hts, hc, fun rest' => (hsaid rest').trans (caught grows passed _)⟩
  halt {c halt c'} e hne := by
    change EStateM.tryCatch q handler c = _
    rw [EStateM.tryCatch, h.halt e hne]
    exact congrFun (passed halt hne) c'
  grows c := (h.grows c).trans (caught grows passed c)
where
  caught {q : Parse α} {handler : Halt → Parse α}
      (grows : ∀ c, c.complaints <+: said (handler .syntaxError c))
      (passed : ∀ halt, halt ≠ .syntaxError → handler halt = throw halt) (c : Cursor) :
      said (q c) <+: said (tryCatch q handler c) := by
    change _ <+: said (EStateM.tryCatch q handler c)
    unfold EStateM.tryCatch
    cases e : q c with
    | ok => exact List.prefix_refl _
    | error halt c' =>
      by_cases hne : halt = .syntaxError
      · subst hne
        exact grows c'
      · change _ <+: said (handler halt c')
        rw [passed halt hne]
        exact List.prefix_refl _

/-! ## Single tokens -/

protected theorem ahead : Leads ahead ahead := by
  refine calm ?_ ?_ ?_
  · rintro ⟨before, _ | ⟨t, rest⟩, complaints⟩ a c' e
    · cases e
    · cases e
      refine ⟨[], rfl, fun u rest rest' hc => ?_⟩
      cases hc
      rfl
  · rintro ⟨before, _ | ⟨t, rest⟩, complaints⟩ c' e <;> cases e
  · rintro ⟨before, _ | ⟨t, rest⟩, complaints⟩ <;> exact List.prefix_refl _

protected theorem latest : Leads latest latest := by
  refine calm ?_ ?_ ?_
  · rintro ⟨_ | ⟨u, before⟩, after, complaints⟩ a c' e
    · cases e
    · cases e
      exact ⟨[], rfl, fun _ _ _ _ => rfl⟩
  · rintro ⟨_ | ⟨u, before⟩, after, complaints⟩ c' e <;> cases e
  · rintro ⟨_ | ⟨u, before⟩, after, complaints⟩ <;> exact List.prefix_refl _

protected theorem step : Leads step step := by
  refine calm ?_ ?_ ?_
  · rintro ⟨before, _ | ⟨t, rest⟩, complaints⟩ a c' e
    · cases e
    · cases e
      exact ⟨[t], rfl, fun _ _ _ _ => rfl⟩
  · rintro ⟨before, _ | ⟨t, rest⟩, complaints⟩ c' e <;> cases e
  · rintro ⟨before, _ | ⟨t, rest⟩, complaints⟩ <;> exact List.prefix_refl _

protected theorem position : Leads position position := by
  refine calm ?_ (fun c c' e => nomatch e) fun _ => List.prefix_refl _
  rintro c a c' e
  cases e
  exact ⟨[], rfl, fun _ _ _ _ => rfl⟩

protected theorem complain (position : Nat) (t : Token) (objection : Objection) :
    Leads (complain position t objection) (complain position t objection) := by
  refine calm ?_ (fun c c' e => nomatch e) fun _ => List.prefix_append _ _
  rintro c a c' e
  cases e
  exact ⟨[], rfl, fun _ _ _ _ => rfl⟩

protected theorem complainAhead (objection : Objection) :
    Leads (complainAhead objection) (complainAhead objection) :=
  Leads.position.bind fun _ => Leads.ahead.bind fun _ => .complain _ _ _

/-- The complaint that gives a declaration up is about the next token. -/
protected theorem reject (objection : Objection) :
    Leads (reject objection : Parse α) (reject objection) where
  ok {c a c'} e := by
    obtain ⟨before, _ | ⟨t, rest⟩, complaints⟩ := c <;> cases e
  stop {c c'} e := by
    obtain ⟨before, _ | ⟨t, rest⟩, complaints⟩ := c
    · cases e
    · cases e
      exact ⟨[], t, rest, rfl, rfl, fun _ => List.prefix_refl _⟩
  halt e _ := e
  grows c := by
    obtain ⟨before, _ | ⟨t, rest⟩, complaints⟩ := c
    · exact List.prefix_refl _
    · exact List.prefix_append _ _

theorem stepwise : Stepwise Leads where
  pure := .pure
  bind := .bind
  ahead := .ahead
  latest := .latest
  step := .step

/-- Parsers go on where others stop if their parts do. -/
theorem congruent : Congruent Leads (· = ·) where
  toStepwise := stepwise
  complainAhead _ := .complainAhead _
  reject _ := .reject _
  assigned := stepwise.assignment .position fun place t => .complain place t _
  offEnd := .throw (by simp)
  zero h := .inl h.symm
  succ h := ⟨_, h.symm, rfl⟩

end Leads

/-- Rules that go on where others stop. -/
abbrev Rules.Lead : Rules → Rules → Prop := Rules.Related Leads (· = ·)

namespace Rules.Lead

variable {below below' : Rules}

/-- What the parser skips after a syntax error comes after what was said. -/
theorem declarationRule (h : Rules.Lead below below') :
    Leads (some <$> soundDeclaration below) (declarationRule below') := by
  have hR := Leads.congruent
  refine .tryCatch (hR.map (hR.soundDeclaration h) some) (fun c => ?_) fun halt hne => ?_
  · have resumed : Leads (resume below'.rounds >>= fun _ => pure (none : Option Node))
        (resume below'.rounds >>= fun _ => pure none) :=
      hR.bind (hR.resume rfl) fun _ => hR.pure none
    exact resumed.grows c
  · cases halt with
    | syntaxError => exact absurd rfl hne
    | tooDeep | offEnd => rfl

/-- The parser leads on from the strict rules at every layer. -/
theorem atop (rounds : Nat) : ∀ nesting,
    Rules.Lead (Rules.strictAtop rounds nesting) (Rules.atop rounds nesting)
  | 0 => ⟨rfl, .throw (by simp), .throw (by simp), .throw (by simp), .throw (by simp)⟩
  | nesting + 1 =>
    have below := Rules.Lead.atop rounds nesting
    Leads.congruent.above below below.declarationRule

end Rules.Lead

theorem Leads.untilHalt {rules rules' : Rules} (h : Rules.Lead rules rules')
    {rounds rounds' : Nat} (hr : rounds = rounds') :
    Leads (Program.untilHalt rules rounds) (Program.untilHalt rules' rounds') :=
  congruent.untilHalt h hr

end LoxLang
