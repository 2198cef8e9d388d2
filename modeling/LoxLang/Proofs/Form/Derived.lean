import LoxLang.Proofs.Form.Lexing
/-!
# The grammar of forms

A form is derived from its terminals: an atom from one, a compound from a head and the terminals of
its operands in parentheses. The terminals that have been read so far are always those of the open
forms, so reading finds a form exactly where one can be derived, and all other texts are blamed on
a character, a terminal or their end.
-/

namespace LoxLang

/-- The head of a form is an operator or a name. -/
inductive Terminal.Heads : Terminal → String → Prop
  | operator {text : String} : Heads (.operator text) text
  | name {text : String} : Heads (.name text) text

mutual

/-- The terminals of a form. -/
inductive Form.Derived : List Terminal → Form → Prop
  | number {text : String} {value : Decimal} : Derived [.number text value] (.number value)
  | string {body : String} : Derived [.string body] (.string body)
  | name {text : String} : Derived [.name text] (.name text)
  | list {t : Terminal} {head : String} {ts : List Terminal} {operands : List Form} :
      t.Heads head → DerivedAll ts operands → operands ≠ [] →
      Derived (.openParen :: t :: (ts ++ [.closeParen])) (.list head operands)

/-- The terminals of some forms, one behind the other. -/
inductive Form.DerivedAll : List Terminal → List Form → Prop
  | nil : DerivedAll [] []
  | cons {ts us : List Terminal} {f : Form} {fs : List Form} : Derived ts f → DerivedAll us fs →
      DerivedAll (ts ++ us) (f :: fs)

end

/-- A text is a form, blanks left out. -/
def Form.SpelledBy (f : Form) (text : String) : Prop :=
  ∃ ts, Lexes .start text.toList ts .finished ∧ Derived (ts.map PlacedTerminal.terminal) f

/-- Errors in the text itself. -/
inductive ReadError.InText : ReadError → Prop
  | terminal {t : PlacedTerminal} : InText (.unexpectedTerminal t)
  | ended {place : Place} : InText (.unexpectedEnd place)
  | character {place : Place} : InText (.unexpectedCharacter place)

namespace Form

variable {ts us : List Terminal} {f : Form} {fs : List Form}

theorem head?_iff {t : Terminal} {head : String} : Reading.head? t = some head ↔ t.Heads head := by
  constructor
  · intro h
    cases t <;> cases h
    · exact .operator
    · exact .name
  · rintro ⟨⟩ <;> rfl

theorem derived_atom {t : Terminal} (h : Reading.atom? t = some f) : Derived [t] f := by
  cases t <;> cases h
  · exact .number
  · exact .string
  · exact .name

theorem DerivedAll.snoc (h : DerivedAll ts fs) (hf : Derived us f) :
    DerivedAll (ts ++ us) (fs ++ [f]) := by
  induction fs generalizing ts with
  | nil =>
    cases h
    simpa using DerivedAll.cons hf .nil
  | cons g fs ih =>
    cases h with
    | cons hg h =>
      rw [List.append_assoc]
      exact .cons hg (ih h)

/-! ## Everything that is derived is read -/

mutual

theorem Derived.parses : ∀ {ts : List Terminal} {f : Form}, Derived ts f → Parses ts f
  | _, _, .number => .atom rfl
  | _, _, .string => .atom rfl
  | _, _, .name => .atom rfl
  | _, _, .list hhead hoperands hne => by
    obtain ⟨tss, rfl, h⟩ := hoperands.parses
    exact .list (head?_iff.2 hhead) h hne

theorem DerivedAll.parses : ∀ {ts : List Terminal} {fs : List Form}, DerivedAll ts fs →
    ∃ tss, tss.flatten = ts ∧ List.Forall₂ Parses tss fs
  | _, _, .nil => ⟨[], rfl, .nil⟩
  | _, _, .cons hf hfs => by
    obtain ⟨tss, rfl, h⟩ := hfs.parses
    exact ⟨_ :: tss, rfl, .cons hf.parses h⟩

end

/-! ## Everything that is read is derived -/

/-- The terminals up to the operand that comes next in the innermost of some open forms. -/
inductive Pending : List Terminal → List OpenForm → Prop
  | nil : Pending [] []
  | cons {before inner : List Terminal} {t : Terminal} {current : OpenForm} {outer : List OpenForm} :
      Pending before outer → t.Heads current.head → DerivedAll inner current.operands.reverse →
      Pending (before ++ .openParen :: t :: inner) (current :: outer)

/-- What has been read is made of these terminals. -/
def Covers : Reading → List Terminal → Prop
  | .start, ts => ts = []
  | .opened outer, ts => ∃ before, Pending before outer ∧ ts = before ++ [.openParen]
  | .inside current outer, ts => Pending ts (current :: outer)
  | .whole f, ts => Derived ts f

theorem Pending.finish {outer : List OpenForm} (h : Pending ts outer) (hf : Derived us f) :
    Covers (Reading.finish f outer) (ts ++ us) := by
  cases h with
  | nil => exact hf
  | @cons before inner t current outer houter hhead hinner =>
    have hoperands := hinner.snoc hf
    rw [← List.reverse_cons] at hoperands
    rw [List.append_assoc, List.cons_append, List.cons_append]
    exact .cons houter hhead hoperands

/-- One more terminal is read. -/
theorem Covers.step {r r' : Reading} (hr : Covers r ts) {t : Terminal} (h : r.step? t = some r') :
    Covers r' (ts ++ [t]) := by
  unfold Reading.step? at h
  split at h
  · cases h
    cases hr
    exact ⟨[], .nil, rfl⟩
  · obtain ⟨f, hf, rfl⟩ := Option.map_eq_some_iff.1 h
    cases hr
    exact derived_atom hf
  · obtain ⟨head, hhead, rfl⟩ := Option.map_eq_some_iff.1 h
    obtain ⟨before, hbefore, rfl⟩ := hr
    rw [List.append_assoc]
    exact .cons hbefore (head?_iff.1 hhead) .nil
  · cases h
    exact ⟨ts, hr, rfl⟩
  · next current outer =>
    split at h
    · cases h
    · next hne =>
      cases h
      -- The innermost form is closed: its terminals and those of its operands become an operand.
      cases hr with
      | @cons before inner t _ _ houter hhead hinner =>
        have hlist := Derived.list hhead hinner (by simpa using hne)
        rw [List.append_assoc, List.cons_append, List.cons_append]
        exact houter.finish hlist
  · obtain ⟨f, hf, rfl⟩ := Option.map_eq_some_iff.1 h
    exact Pending.finish hr (derived_atom hf)
  · cases h

theorem Covers.read {r r' : Reading} (hr : Covers r ts) (h : us.foldlM Reading.step? r = some r') :
    Covers r' (ts ++ us) := by
  induction us generalizing r ts with
  | nil =>
    cases h
    rwa [List.append_nil]
  | cons t us ih =>
    rw [List.foldlM_cons] at h
    obtain ⟨next, hnext, h⟩ := Option.bind_eq_some_iff.1 h
    rw [List.append_cons]
    exact ih (hr.step hnext) h

/-- A form is derived from terminals if they are read as it. -/
theorem derived_iff : Derived ts f ↔ ts.foldlM Reading.step? .start = some (.whole f) :=
  ⟨fun h => h.parses.start, fun h => (show Covers .start [] from rfl).read h⟩

/-! ## Texts -/

/-- Either all terminals are read as a form, or the text is wrong. -/
theorem ofTerminals_cases (r : Reading) (last : Place) (placed : List PlacedTerminal)
    (ending : Ending) :
    (∃ f, ofTerminals r last placed ending = .ok f ∧ ending = .finished ∧
      (placed.map PlacedTerminal.terminal).foldlM Reading.step? r = some (.whole f)) ∨
    ∃ e, ofTerminals r last placed ending = .error e ∧ e.InText := by
  induction placed generalizing r last with
  | nil =>
    cases ending with
    | badCharacter place => exact .inr ⟨_, rfl, .character⟩
    | finished =>
      cases r with
      | whole f => exact .inl ⟨f, rfl, rfl, rfl⟩
      | _ => exact .inr ⟨_, rfl, .ended⟩
  | cons t placed ih =>
    unfold ofTerminals
    rw [List.map_cons, List.foldlM_cons]
    cases r.step? t.terminal with
    | none => exact .inr ⟨_, rfl, .terminal⟩
    | some next => exact ih next t.place

/-- A text is read as the form that it spells. -/
theorem spelledBy_iff {text : String} : f.SpelledBy text ↔ ofText text = .ok f := by
  constructor
  · rintro ⟨placed, hlexes, hf⟩
    rw [ofText, lexes_iff.1 hlexes]
    exact Writes.ofTerminals_of_foldlM (derived_iff.1 hf)
  · intro h
    refine ⟨(terminals .start text.toList).1, ?_⟩
    rcases ofTerminals_cases .start .start (terminals .start text.toList).1
      (terminals .start text.toList).2 with ⟨g, hg, hending, hfold⟩ | ⟨e, he, -⟩
    · cases h.symm.trans hg
      exact ⟨lexes_iff.2 (Prod.ext rfl hending), derived_iff.2 hfold⟩
    · cases h.symm.trans he

/-- A text spells a form, or there is an error in it. -/
theorem ofText_cases (text : String) :
    (∃ f, ofText text = .ok f) ∨ ∃ e, ofText text = .error e ∧ e.InText :=
  (ofTerminals_cases .start .start (terminals .start text.toList).1
    (terminals .start text.toList).2).imp_left fun ⟨f, hf, _⟩ => ⟨f, hf⟩

end Form

end LoxLang
