import LoxLang.Proofs.Reading.Congruent
import LoxLang.Proofs.Reading.Program
/-!
# Reading that stops short

A parser that may nest less deeply ends like one that may nest more deeply, or it gives up because
of its nesting, which no rule recovers from. What it has complained about by then is what the other
complains about first, and no rule itself complains about nesting.
-/

namespace LoxLang

open Parse Rules

/-- The cursor that a parser leaves behind. -/
def cursorOf {α : Type} : EStateM.Result Halt Cursor α → Cursor
  | .ok _ c | .error _ c => c

/-- Between two cursors there were complaints, none of them about nesting. -/
def Cursor.Complains (c c' : Cursor) : Prop :=
  ∃ xs, c'.complaints = c.complaints ++ xs ∧ ∀ x ∈ xs, x.objection ≠ .tooDeep

namespace Cursor.Complains

variable {c c' c'' : Cursor}

theorem of_eq (h : c'.complaints = c.complaints) : c.Complains c' :=
  ⟨[], by rw [h, List.append_nil], by simp⟩

theorem trans (h : c.Complains c') (h' : c'.Complains c'') : c.Complains c'' := by
  obtain ⟨xs, e, hxs⟩ := h
  obtain ⟨ys, e', hys⟩ := h'
  refine ⟨xs ++ ys, by rw [e', e, List.append_assoc], fun x hx => ?_⟩
  rcases List.mem_append.1 hx with hx | hx
  · exact hxs x hx
  · exact hys x hx

theorem isPrefix (h : c.Complains c') : c.complaints <+: c'.complaints := by
  obtain ⟨xs, e, -⟩ := h
  exact ⟨xs, e.symm⟩

end Cursor.Complains

/-- A parser makes no complaint about nesting. -/
def Parse.Complains {α : Type} (p : Parse α) : Prop := ∀ c : Cursor, c.Complains (cursorOf (p c))

/-- One parser ends like another, or it stops short of it because of its nesting, and the other
complains on from there. -/
def StopsShort {α : Type} (low high : Parse α) : Prop :=
  ∀ c : Cursor, c.Complains (cursorOf (high c)) ∧ (low c = high c ∨
    ∃ c₁, low c = .error .tooDeep c₁ ∧ c.Complains c₁ ∧ c₁.Complains (cursorOf (high c)))

namespace Parse.Complains

variable {α β : Type} {p : Parse α} {f : α → Parse β}

/-- A parser that is given no layer to use cannot stop short of itself. -/
theorem stopsShort (h : p.Complains) : StopsShort p p := fun c => ⟨h c, .inl rfl⟩

/-- Without a layer to nest in, a parser stops short at once. -/
theorem tooDeep (h : p.Complains) : StopsShort (throw .tooDeep) p :=
  fun c => ⟨h c, .inr ⟨c, rfl, .of_eq rfl, h c⟩⟩

protected theorem pure (a : α) : (pure a : Parse α).Complains := fun _ => .of_eq rfl

protected theorem throw (halt : Halt) : (throw halt : Parse α).Complains := fun _ => .of_eq rfl

protected theorem bind (h : p.Complains) (hf : ∀ a, (f a).Complains) : (p >>= f).Complains := by
  intro c
  have hp := h c
  change c.Complains (cursorOf (EStateM.bind p f c))
  unfold EStateM.bind
  cases e : p c with
  | ok a c₁ =>
    rw [e] at hp
    exact hp.trans (hf a c₁)
  | error halt c₁ =>
    rw [e] at hp
    exact hp

/-! ## Single tokens -/

protected theorem ahead : ahead.Complains := by
  rintro ⟨before, _ | ⟨t, after⟩, complaints⟩ <;> exact .of_eq rfl

protected theorem latest : latest.Complains := by
  rintro ⟨_ | ⟨t, before⟩, after, complaints⟩ <;> exact .of_eq rfl

protected theorem step : Parse.step.Complains := by
  rintro ⟨before, _ | ⟨t, after⟩, complaints⟩ <;> exact .of_eq rfl

protected theorem position : position.Complains := fun _ => .of_eq rfl

section

variable {objection : Objection} (h : objection ≠ .tooDeep)

include h

protected theorem complain (position : Nat) (t : Token) :
    (complain position t objection).Complains :=
  fun _ => ⟨[⟨position, t, objection⟩], rfl, by simpa using h⟩

protected theorem complainAhead : (complainAhead objection).Complains :=
  Complains.position.bind fun _ => Complains.ahead.bind fun _ => .complain h _ _

protected theorem reject : (reject objection : Parse α).Complains :=
  (Complains.complainAhead h).bind fun _ => .throw _

end

end Parse.Complains

namespace StopsShort

variable {α β : Type} {p q : Parse α} {f g : α → Parse β}

protected theorem pure (a : α) : StopsShort (pure a) (pure a) := (Complains.pure a).stopsShort

protected theorem throw (halt : Halt) : StopsShort (throw halt : Parse α) (throw halt) :=
  (Complains.throw halt).stopsShort

theorem complains (h : StopsShort p q) : q.Complains := fun c => (h c).1

protected theorem bind (h : StopsShort p q) (hf : ∀ a, StopsShort (f a) (g a)) :
    StopsShort (p >>= f) (q >>= g) := by
  have goesOn : ∀ c : Cursor, (cursorOf (q c)).Complains (cursorOf ((q >>= g) c)) := by
    intro c
    change Cursor.Complains _ (cursorOf (EStateM.bind q g c))
    unfold EStateM.bind
    cases q c with
    | ok a c₁ => exact (hf a).complains c₁
    | error halt c₁ => exact .of_eq rfl
  intro c
  refine ⟨(h.complains c).trans (goesOn c), ?_⟩
  rcases (h c).2 with heq | ⟨c₁, e, hc₁, hon⟩
  · change EStateM.bind p f c = EStateM.bind q g c ∨ ∃ c₁, EStateM.bind p f c = .error .tooDeep c₁ ∧
      c.Complains c₁ ∧ c₁.Complains (cursorOf (EStateM.bind q g c))
    have hq := h.complains c
    unfold EStateM.bind
    rw [heq]
    cases e : q c with
    | ok a c₁ =>
      rw [e] at hq
      refine (hf a c₁).2.imp id ?_
      rintro ⟨c₂, e₂, hc₂, hon⟩
      exact ⟨c₂, e₂, hq.trans hc₂, hon⟩
    | error halt c₁ => exact .inl rfl
  · refine .inr ⟨c₁, ?_, hc₁, hon.trans (goesOn c)⟩
    change EStateM.bind p f c = _
    unfold EStateM.bind
    rw [e]

/-- A handler that lets nesting pass does not recover from it. -/
protected theorem tryCatch {handler handler' : Halt → Parse α} (h : StopsShort p q)
    (handled : ∀ halt, StopsShort (handler halt) (handler' halt))
    (passed : handler .tooDeep = throw .tooDeep) :
    StopsShort (tryCatch p handler) (tryCatch q handler') := by
  intro c
  have hq := h.complains c
  change c.Complains (cursorOf (EStateM.tryCatch q handler' c)) ∧
    (EStateM.tryCatch p handler c = EStateM.tryCatch q handler' c ∨
      ∃ c₁, EStateM.tryCatch p handler c = .error .tooDeep c₁ ∧ c.Complains c₁ ∧
        c₁.Complains (cursorOf (EStateM.tryCatch q handler' c)))
  unfold EStateM.tryCatch
  dsimp only [EStateM.Backtrackable.save, EStateM.Backtrackable.restore]
  rcases (h c).2 with heq | ⟨c₁, e, hc₁, hon⟩
  · rw [heq]
    cases e : q c with
    | ok a c₁ =>
      rw [e] at hq
      exact ⟨hq, .inl rfl⟩
    | error halt c₁ =>
      rw [e] at hq
      obtain ⟨hgrows, hends⟩ := handled halt c₁
      refine ⟨hq.trans hgrows, hends.imp id ?_⟩
      rintro ⟨c₂, e₂, hc₂, hon⟩
      exact ⟨c₂, e₂, hq.trans hc₂, hon⟩
  · rw [e]
    dsimp only
    rw [passed]
    cases e' : q c with
    | ok a c₂ =>
      rw [e'] at hq hon
      exact ⟨hq, .inr ⟨c₁, rfl, hc₁, hon⟩⟩
    | error halt c₂ =>
      rw [e'] at hq hon
      have hgrows := (handled halt).complains c₂
      exact ⟨hq.trans hgrows, .inr ⟨c₁, rfl, hc₁, hon.trans hgrows⟩⟩

theorem stepwise : Stepwise StopsShort where
  pure := .pure
  bind := .bind
  ahead := Complains.ahead.stopsShort
  latest := Complains.latest.stopsShort
  step := Complains.step.stopsShort

/-- Parsers stop short if their parts do. -/
theorem congruent : Congruent StopsShort (· = ·) where
  toStepwise := stepwise
  complainAhead h := (Complains.complainAhead h).stopsShort
  reject h := (Complains.reject h).stopsShort
  assigned := stepwise.assignment Complains.position.stopsShort fun place t =>
    (Complains.complain (by simp) place t).stopsShort
  offEnd := .throw _
  zero h := .inl h.symm
  succ h := ⟨_, h.symm, rfl⟩

end StopsShort

/-- Rules that stop short of others. -/
abbrev Rules.StopShort : Rules → Rules → Prop := Rules.Related StopsShort (· = ·)

namespace Rules.StopShort

variable {below below' : Rules}

/-- A declaration goes on after a syntax error, but not after nesting that is too deep. -/
theorem declarationRule (h : Rules.StopShort below below') :
    StopsShort (declarationRule below) (declarationRule below') := by
  have hR := StopsShort.congruent
  refine .tryCatch (hR.map (hR.soundDeclaration h) some) (fun halt => ?_) rfl
  cases halt with
  | syntaxError => exact hR.bind (hR.resume h.rounds) fun _ => hR.pure none
  | tooDeep | offEnd => exact .throw _

theorem above (h : Rules.StopShort below below') :
    Rules.StopShort (Rules.above below) (Rules.above below') :=
  StopsShort.congruent.above h h.declarationRule

/-- Rules do not stop short of themselves, but no rule complains about nesting. -/
theorem same (rounds : Nat) : ∀ nesting,
    Rules.StopShort (Rules.atop rounds nesting) (Rules.atop rounds nesting)
  | 0 => ⟨rfl, .throw _, .throw _, .throw _, .throw _⟩
  | nesting + 1 => (Rules.StopShort.same rounds nesting).above

/-- With fewer layers, rules stop short of those with more. -/
theorem atop (rounds : Nat) : ∀ {nesting nesting' : Nat}, nesting ≤ nesting' →
    Rules.StopShort (Rules.atop rounds nesting) (Rules.atop rounds nesting')
  | 0, nesting', _ => by
    have h := Rules.StopShort.same rounds nesting'
    exact ⟨by simp, h.expression.complains.tooDeep, h.unary.complains.tooDeep,
      h.statement.complains.tooDeep, h.declaration.complains.tooDeep⟩
  | _ + 1, _ + 1, h => (Rules.StopShort.atop rounds (Nat.le_of_succ_le_succ h)).above

end Rules.StopShort

end LoxLang
