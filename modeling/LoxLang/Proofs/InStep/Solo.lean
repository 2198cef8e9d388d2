import LoxLang.Proofs.InStep.Evaluate
/-!
# A run beside itself

A run goes in step with itself. So the trees that it can come across, those of the functions made so
far among them, stay as they have to be, and the tokens of its faults are theirs.
-/

namespace LoxLang

/-- The bodies of all functions made so far are trees of a certain kind. -/
def Machine.MadeOf (l : Likeness) (m : Machine) : Prop :=
  ∀ c ∈ m.store.closures, ∀ n ∈ c.body, Node.Alike l (.statement true) n n

/-- Trees of a certain kind, and the faults that they can come to. -/
structure Likeness.Admits (l : Likeness) (F : Fault → Prop) : Prop where
  eq : ∀ {r t t'}, l.token r t t' → t = t'
  sorted : ¬ l.misplaced
  undefined : ∀ {t}, l.token .used t t → F (.runtime t (.undefined t.lexeme))
  unary : ∀ {t v e}, l.token .unary t t → unaryOperation t v = .error e → F (e.fault t)
  binary : ∀ {t x y e}, l.token .binary t t → binaryOperation t x y = .error e → F (e.fault t)
  call : ∀ {t c}, l.token .paren t t →
    (c = .notCallable ∨ (∃ i j, c = .arity i j) ∨ (∃ r, c = .native r) ∨ c = .stackOverflow) →
    F (.runtime t c)
  broken : ∀ {n : Native} {x vs b}, vs.length = n.arity → n.apply x vs = .error (.broken b) →
    F (.broken b)
  overflow : F .overflow
  unfinished : F .unfinished

/-- A run of trees of a certain kind beside itself. -/
def solo (l : Likeness) (F : Fault → Prop) : Correspondence where
  World := Unit
  le _ _ := True
  likeness := l
  held _ _ := True
  machines _ _ m m' := m = m' ∧ m.MadeOf l
  fault e e' := e = e' ∧ F e
  slack := .none

/-- A result of a run of trees of a certain kind. -/
def Leaves {α : Type} (l : Likeness) (F : Fault → Prop) : EStateM.Result Fault Machine α → Prop
  | .ok _ m => m.MadeOf l
  | .error e m => F e ∧ m.MadeOf l

namespace Solo

variable {l : Likeness} {F : Fault → Prop} {α : Type} {x : Run α} {w : Unit} {b : Bool}
  {Q : Unit → α → α → Prop}

theorem runs (h : ∀ m : Machine, m.MadeOf l → Leaves l F (x m)) (hq : ∀ w a, Q w a a) :
    (solo l F).Runs w b x x Q := by
  rintro m _ ⟨rfl, hm⟩
  have hx := h m hm
  cases hr : x m with
  | ok a n =>
    rw [hr] at hx
    exact ⟨(), trivial, ⟨rfl, hx⟩, hq _ a⟩
  | error e n =>
    rw [hr] at hx
    exact .inr ⟨⟨rfl, hx.1⟩, (), trivial, rfl, hx.2⟩

theorem leaves (h : (solo l F).Runs w b x x Q) {m : Machine} (hm : m.MadeOf l) :
    Leaves l F (x m) := by
  have hx := h m m ⟨rfl, hm⟩
  cases hr : x m with
  | ok a n =>
    rw [hr] at hx
    obtain ⟨_, _, hn, _⟩ := hx
    exact hn.2
  | error e n =>
    rw [hr] at hx
    rcases hx with (⟨hs, _⟩ | ⟨hs, _⟩) | ⟨hf, _, _, hn⟩
    · cases hs
    · cases hs
    · exact ⟨hf.2, hn.2⟩

/-- What does not touch the functions leaves them as they are. -/
theorem madeOf_of_closures {m n : Machine} (h : n.store.closures = m.store.closures)
    (hm : m.MadeOf l) : n.MadeOf l := by
  unfold Machine.MadeOf
  rw [h]
  exact hm

variable (hl : l.Admits F)

include hl in
theorem lookup_leaves {t : Token} (ht : l.token .used t t) {m : Machine} (hm : m.MadeOf l) :
    Leaves l F (Run.lookup t m) := by
  rw [Run.lookup_eq]
  split
  · exact hm
  · exact ⟨hl.undefined ht, hm⟩
  · exact ⟨hl.overflow, hm⟩

include hl in
theorem assign_leaves {t : Token} (ht : l.token .used t t) (v : Value) {m : Machine}
    (hm : m.MadeOf l) : Leaves l F (Run.assign t v m) := by
  rw [Run.assign_eq]
  split
  · exact madeOf_of_closures rfl hm
  · exact ⟨hl.undefined ht, hm⟩
  · exact ⟨hl.overflow, hm⟩

theorem record_leaves (e : TraceEvent) {m : Machine} (hm : m.MadeOf l) :
    Leaves l F (Run.record e m) := by
  obtain ⟨trace, h⟩ := Run.record_eq e m
  rw [h]
  exact madeOf_of_closures rfl hm

theorem makeFunction_leaves (t : Token) (ps : List Token) {ns : List Node}
    (hns : ∀ n ∈ ns, Node.Alike l (.statement true) n n) {m : Machine} (hm : m.MadeOf l) :
    Leaves l F (Run.makeFunction t ps ns m) := by
  intro c hc
  rcases Array.mem_push.1 hc with hc | rfl
  · exact hm c hc
  · exact hns

include hl in
theorem lawful : (solo l F).Lawful where
  refl _ := trivial
  trans _ _ := trivial
  held_mono _ _ := trivial
  held_plain _ := trivial
  literal _ := trivial
  kind h := by rw [hl.eq h]
  lexeme h := by rw [hl.eq h]
  lookup := by
    intro w b t t' ht
    obtain rfl := hl.eq ht
    exact runs (fun _ => lookup_leaves hl ht) fun _ _ => ⟨rfl, trivial⟩
  assign := by
    intro w b t t' v ht _
    obtain rfl := hl.eq ht
    exact runs (fun _ => assign_leaves hl ht v) fun _ _ => trivial
  define _ := runs (fun _ => madeOf_of_closures rfl) fun _ _ => trivial
  makeFunction := by
    intro w t t' ps ps' ns ns' ht hps hns
    obtain rfl := hl.eq ht
    obtain rfl := Node.forall₂_eq hps fun _ _ _ => hl.eq
    obtain rfl := Node.forall₂_eq hns fun _ _ _ h => h.eq hl.eq
    exact runs (fun _ => makeFunction_leaves t ps (List.forall₂_same.1 hns))
      fun _ _ => ⟨rfl, trivial⟩
  record e := runs (fun _ => record_leaves e) fun _ _ => trivial
  printLine text := runs (fun _ => madeOf_of_closures rfl) fun _ _ => trivial
  readClock := runs (fun _ => madeOf_of_closures rfl) fun _ _ => rfl
  enterBlock := by
    rintro w b m _ ⟨rfl, hm⟩
    exact ⟨(), trivial, rfl, madeOf_of_closures rfl hm⟩
  enterCall := by
    rintro w b m _ f vs ⟨rfl, hm⟩ - -
    cases hc : m.store.closures[f.id]? with
    | none => exact .inl ⟨rfl, rfl⟩
    | some c =>
      have hbody := hm c (Array.mem_of_getElem? hc)
      exact .inr ⟨c, c, (), rfl, rfl, List.forall₂_same.2 hbody, trivial, rfl,
        madeOf_of_closures rfl hm⟩
  leave := by
    rintro w w' b b' m _ n _ ⟨rfl, -⟩ - ⟨rfl, hn⟩
    exact ⟨rfl, madeOf_of_closures rfl hn⟩
  unary := by
    intro t t' v e ht h
    obtain rfl := hl.eq ht
    exact ⟨rfl, hl.unary ht h⟩
  binary := by
    intro t t' x y e ht h
    obtain rfl := hl.eq ht
    exact ⟨rfl, hl.binary ht h⟩
  call := by
    intro t t' c ht hc
    obtain rfl := hl.eq ht
    exact ⟨rfl, hl.call ht hc⟩
  broken hlen h := ⟨rfl, hl.broken hlen h⟩
  misplaced h := (hl.sorted h).elim
  overflow := ⟨rfl, hl.overflow⟩
  unfinished := ⟨rfl, hl.unfinished⟩
  overflow_iff h := by rw [h.1]

end Solo

namespace Likeness.Admits

variable {l : Likeness} {F : Fault → Prop}

theorem inStep (hl : l.Admits F) (limits : Limits) :
    (solo l F).LayersInStep limits.layer limits.layer :=
  Correspondence.layersInStep (Solo.lawful hl) rfl limits.nesting limits.nesting rfl

theorem evaluate (hl : l.Admits F) (limits : Limits) {n : Node}
    (hn : Node.Alike l .expression n n) {m : Machine} (hm : m.MadeOf l) :
    Leaves l F (limits.layer.evaluate n m) :=
  Solo.leaves ((hl.inStep limits).evaluate hn : (solo l F).Runs () true _ _ _) hm

theorem execute (hl : l.Admits F) (limits : Limits) {n : Node}
    (hn : Node.Alike l (.statement true) n n) {m : Machine} (hm : m.MadeOf l) :
    Leaves l F (limits.layer.execute n m) :=
  Solo.leaves ((hl.inStep limits).execute hn : (solo l F).Runs () true _ _ _) hm

end Likeness.Admits

end LoxLang
