import LoxLang.Proofs.InStep.Basic
/-!
# Putting runs in step together

How runs in step are put together from others, whatever the correspondence, and that values which
are worked out from the same values are the same.
-/

namespace LoxLang

namespace Correspondence

variable {D : Correspondence} {α β : Type} {w w' : D.World} {b : Bool}
  {Q Q' : D.World → α → α → Prop} {R : D.World → β → β → Prop}

/-- Two results of runs in step: one is excused, whatever the other is, or they correspond. -/
@[elab_as_elim]
theorem Ends.elim
    {motive : EStateM.Result Fault Machine α → EStateM.Result Fault Machine α → Prop}
    {r r' : EStateM.Result Fault Machine α} (h : D.Ends w b Q r r')
    (left : ∀ e n r', D.slack = .left → e.isLimit → motive (.error e n) r')
    (right : ∀ r e' n', D.slack = .right → e'.isLimit → motive r (.error e' n'))
    (ok : ∀ w' a a' n n', D.le w w' → D.machines w' b n n' → Q w' a a' →
      motive (.ok a n) (.ok a' n'))
    (error : ∀ w' e e' n n', D.fault e e' → D.le w w' → D.machines w' b n n' →
      motive (.error e n) (.error e' n')) : motive r r' := by
  cases r with
  | ok a n =>
    cases r' with
    | ok a' n' =>
      obtain ⟨w', hle, hn, ha⟩ := h
      exact ok w' a a' n n' hle hn ha
    | error e' n' => exact right _ e' n' h.1 h.2
  | error e n =>
    cases r' with
    | ok a' n' => exact left e n _ h.1 h.2
    | error e' n' =>
      rcases h with (⟨hs, he⟩ | ⟨hs, he⟩) | ⟨hf, w', hle, hn⟩
      · exact left e n _ hs he
      · exact right _ e' n' hs he
      · exact error w' e e' n n' hf hle hn

/-- A run that is excused may be followed by anything on the other side. -/
theorem Ends.excusedLeft (hs : D.slack = .left) {e : Fault} (he : e.isLimit) {m : Machine}
    (r : EStateM.Result Fault Machine α) : D.Ends w b Q (.error e m) r := by
  cases r with
  | ok => exact ⟨hs, he⟩
  | error => exact .inl (.inl ⟨hs, he⟩)

theorem Ends.excusedRight (hs : D.slack = .right) {e : Fault} (he : e.isLimit) {m : Machine}
    (r : EStateM.Result Fault Machine α) : D.Ends w b Q r (.error e m) := by
  cases r with
  | ok => exact ⟨hs, he⟩
  | error => exact .inl (.inr ⟨hs, he⟩)

/-- What ends well from a later world on ends well. -/
theorem Ends.later (hD : D.Lawful) (hle : D.le w w') {r r' : EStateM.Result Fault Machine α}
    (h : D.Ends w' b Q r r') : D.Ends w b Q r r' := by
  refine Ends.elim h ?left ?right ?ok ?error
  case left => exact fun e n r' hs he => Ends.excusedLeft hs he r'
  case right => exact fun r e' n' hs he => Ends.excusedRight hs he r
  case ok => exact fun w'' a a' n n' hle' hn ha => ⟨w'', hD.trans hle hle', hn, ha⟩
  case error => exact fun w'' e e' n n' hf hle' hn => .inr ⟨hf, w'', hD.trans hle hle', hn⟩

theorem Ends.bind (hD : D.Lawful) {x y : Run α} {f g : α → Run β} {m m' : Machine}
    (hx : D.Ends w b Q (x m) (y m'))
    (hf : ∀ w' a a', D.le w w' → Q w' a a' → D.Runs w' b (f a) (g a') R) :
    D.Ends w b R ((x >>= f) m) ((y >>= g) m') := by
  change D.Ends w b R (EStateM.bind x f m) (EStateM.bind y g m')
  unfold EStateM.bind
  refine Ends.elim hx ?left ?right ?ok ?error
  case left => exact fun e n r' hs he => Ends.excusedLeft hs he _
  case right => exact fun r e' n' hs he => Ends.excusedRight hs he _
  case ok => exact fun w' a a' n n' hle hn ha => (hf w' a a' hle ha n n' hn).later hD hle
  case error => exact fun w' e e' n n' hf hle hn => .inr ⟨hf, w', hle, hn⟩

namespace Runs

variable {x y : Run α} {f g : α → Run β}

protected theorem pure (hD : D.Lawful) {a a' : α} (h : Q w a a') : D.Runs w b (pure a) (pure a') Q :=
  fun _ _ hm => ⟨w, hD.refl w, hm, h⟩

protected theorem throw (hD : D.Lawful) {e e' : Fault} (h : D.fault e e') :
    D.Runs w b (throw e) (throw e') Q :=
  fun _ _ hm => .inr ⟨h, w, hD.refl w, hm⟩

theorem excusedLeft (hs : D.slack = .left) {e : Fault} (he : e.isLimit) :
    D.Runs w b (MonadExcept.throw e) y Q :=
  fun _ m' _ => Ends.excusedLeft hs he (y m')

theorem excusedRight (hs : D.slack = .right) {e : Fault} (he : e.isLimit) :
    D.Runs w b x (MonadExcept.throw e) Q :=
  fun m _ _ => Ends.excusedRight hs he (x m)

protected theorem bind (hD : D.Lawful) (h : D.Runs w b x y Q)
    (hf : ∀ w' a a', D.le w w' → Q w' a a' → D.Runs w' b (f a) (g a') R) :
    D.Runs w b (x >>= f) (y >>= g) R :=
  fun m m' hm => Ends.bind hD (h m m' hm) hf

end Runs

end Correspondence

/-! ## Scopes -/

theorem Run.inside_eq {α : Type} (scope : Scope) (body : Run α) (m : Machine) :
    Run.inside scope body m =
      match body (m.inScope scope) with
      | .ok a n => .ok a { n with scope := m.scope }
      | .error e n => .error e { n with scope := m.scope } := rfl

namespace Correspondence

variable {D : Correspondence} {α : Type} {w w' : D.World} {b : Bool} {Q : D.World → α → α → Prop}

theorem Ends.inside (hD : D.Lawful) {m m' : Machine} {s s' : Scope} {x y : Run α}
    (hm : D.machines w b m m') (hle : D.le w w')
    (hin : D.machines w' true (m.inScope s) (m'.inScope s')) (h : D.Runs w' true x y Q) :
    D.Ends w b Q (Run.inside s x m) (Run.inside s' y m') := by
  rw [Run.inside_eq, Run.inside_eq]
  refine Ends.elim (h _ _ hin) ?left ?right ?ok ?error
  case left => exact fun e n r' hs he => Ends.excusedLeft hs he _
  case right => exact fun r e' n' hs he => Ends.excusedRight hs he _
  case ok =>
    intro w'' a a' n n' hle' hn ha
    exact ⟨w'', hD.trans hle hle', hD.leave hm (hD.trans hle hle') hn, ha⟩
  case error =>
    intro w'' e e' n n' hf hle' hn
    exact .inr ⟨hf, w'', hD.trans hle hle', hD.leave hm (hD.trans hle hle') hn⟩

end Correspondence

theorem Run.reading_eq {α : Type} (f : Machine → Run α) (m : Machine) :
    (Operations.reading f : Run α) m = f m m := rfl

theorem Run.get_bind {α : Type} (f : Machine → Run α) (m : Machine) : (get >>= f) m = f m m := rfl

theorem Layer.callFunction_eq (below : Layer Run) (f : Callable) (vs : List Value) (m : Machine) :
    below.callFunction f vs m =
      match m.store.closures[f.id]? with
      | none => .ok .nil m
      | some c =>
        (Run.inside (callScope c vs) (below.executeAll c.body) >>= fun c => pure c.value) m := by
  unfold Layer.callFunction
  rw [Run.reading_eq]
  cases m.store.closures[f.id]? <;> rfl

/-! ## Variables and the trace -/

theorem Run.lookup_eq (name : Token) (m : Machine) :
    Run.lookup name m =
      match m.store.resolve name.lexeme m.store.room m.scope with
      | .found _ value => .ok value m
      | .unbound => .error (.runtime name (.undefined name.lexeme)) m
      | .tooDeep => .error .overflow m := by
  unfold Run.lookup
  rw [Run.get_bind]
  cases m.store.resolve name.lexeme m.store.room m.scope <;> rfl

theorem Run.assign_eq (name : Token) (value : Value) (m : Machine) :
    Run.assign name value m =
      match m.store.resolve name.lexeme m.store.room m.scope with
      | .found scope _ => .ok () { m with store := m.store.define scope name.lexeme value }
      | .unbound => .error (.runtime name (.undefined name.lexeme)) m
      | .tooDeep => .error .overflow m := by
  unfold Run.assign
  rw [Run.get_bind]
  cases m.store.resolve name.lexeme m.store.room m.scope <;> rfl

/-- Tracing touches nothing but the trace. -/
theorem Run.record_eq (e : TraceEvent) (m : Machine) :
    ∃ trace, Run.record e m = .ok () { m with trace := trace } := by
  by_cases h : e.level ≤ m.traceLevel
  · exact ⟨m.trace.push e, congrArg (EStateM.Result.ok ()) (if_pos h)⟩
  · exact ⟨m.trace, congrArg (EStateM.Result.ok ()) (if_neg h)⟩

/-! ## Overflow -/

/-- What becomes of a fault in a call. -/
def Fault.caught (paren : Token) : Fault → Fault
  | .overflow => .runtime paren .stackOverflow
  | e => e

theorem Fault.isLimit_caught {e : Fault} (paren : Token) (h : e.isLimit) :
    (e.caught paren).isLimit := by
  cases e <;> exact h

theorem Run.catchOverflow_eq {α : Type} (paren : Token) (body : Run α) (m : Machine) :
    Run.catchOverflow paren body m =
      match body m with
      | .ok a n => .ok a n
      | .error e n => .error (e.caught paren) n := by
  unfold Run.catchOverflow
  cases body m with
  | ok => rfl
  | error e => cases e <;> rfl

namespace Correspondence

variable {D : Correspondence} {α : Type} {w : D.World} {b : Bool} {Q : D.World → α → α → Prop}

theorem Runs.catchOverflow (hD : D.Lawful) {t t' : Token} {x y : Run α}
    (ht : D.likeness.token .paren t t') (h : D.Runs w b x y Q) :
    D.Runs w b (Run.catchOverflow t x) (Run.catchOverflow t' y) Q := by
  intro m m' hm
  rw [Run.catchOverflow_eq, Run.catchOverflow_eq]
  refine Ends.elim (h m m' hm) ?left ?right ?ok ?error
  case left => exact fun e n r' hs he => Ends.excusedLeft hs (Fault.isLimit_caught t he) _
  case right => exact fun r e' n' hs he => Ends.excusedRight hs (Fault.isLimit_caught t' he) _
  case ok => exact fun w' a a' n n' hle hn ha => ⟨w', hle, hn, ha⟩
  case error =>
    -- An overflow on one side is one on the other side too.
    intro w' e e' n n' hf hle hn
    refine .inr ⟨?_, w', hle, hn⟩
    by_cases he : e = .overflow
    · rw [he, (hD.overflow_iff hf).1 he]
      exact hD.call ht (by simp)
    · have he' : e' ≠ .overflow := fun h => he ((hD.overflow_iff hf).2 h)
      have hcaught : ∀ {e : Fault} (t : Token), e ≠ .overflow → e.caught t = e := by
        intro e t h
        cases e <;> first | rfl | exact absurd rfl h
      rw [hcaught t he, hcaught t' he']
      exact hf

end Correspondence

/-! ## Values that are worked out -/

theorem unaryOperation_congr {t t' : Token} (hk : t.kind = t'.kind) (hl : t.lexeme = t'.lexeme)
    (v : Value) : unaryOperation t v = unaryOperation t' v := by
  unfold unaryOperation
  rw [hk, hl]

theorem binaryOperation_congr {t t' : Token} (hk : t.kind = t'.kind) (hl : t.lexeme = t'.lexeme)
    (x y : Value) : binaryOperation t x y = binaryOperation t' x y := by
  unfold binaryOperation arithmetic
  rw [hk, hl]

theorem unaryOperation_plain {t : Token} {v v' : Value} (h : unaryOperation t v = .ok v')
    (f : Callable) : v' ≠ .function f := by
  rintro rfl
  unfold unaryOperation at h
  split at h
  · cases h
  · split at h <;> cases h
  · cases h

theorem arithmetic_plain {t : Token} {x y : Float} {v : Value} (h : arithmetic t x y = .ok v)
    (f : Callable) : v ≠ .function f := by
  rintro rfl
  unfold arithmetic at h
  split at h <;> try cases h
  split at h
  · cases h
  · unfold quotient at h
    split at h <;> cases h

theorem binaryOperation_plain {t : Token} {x y v : Value} (h : binaryOperation t x y = .ok v)
    (f : Callable) : v ≠ .function f := by
  rintro rfl
  unfold binaryOperation at h
  split at h
  · cases h
  · cases h
  · unfold addition at h
    split at h <;> cases h
  · split at h
    · exact arithmetic_plain h f rfl
    · cases h

theorem Native.apply_plain {n : Native} {x : Float} {vs : List Value} {v : Value}
    (h : n.apply x vs = .ok v) (f : Callable) : v ≠ .function f := by
  rintro rfl
  cases n with
  | clock => cases h
  | strlen =>
    obtain ⟨s, -, h⟩ := ok_of_bind h
    cases h
  | substring =>
    obtain ⟨s, -, h⟩ := ok_of_bind h
    obtain ⟨start, -, h⟩ := ok_of_bind h
    obtain ⟨length, -, h⟩ := ok_of_bind h
    split at h <;> cases h
  | indexof =>
    obtain ⟨s, -, h⟩ := ok_of_bind h
    obtain ⟨target, -, h⟩ := ok_of_bind h
    split at h <;> cases h
  | strat =>
    obtain ⟨s, -, h⟩ := ok_of_bind h
    obtain ⟨index, -, h⟩ := ok_of_bind h
    by_cases hi : index < 0
    · simp only [hi, ↓reduceIte] at h
      split at h <;> cases h
    · simp only [hi, ↓reduceIte] at h
      split at h
      · next field _ =>
        revert h
        change Except.ok (fieldValue field) = _ → False
        unfold fieldValue
        split <;> rintro ⟨⟩
      · cases h

end LoxLang
