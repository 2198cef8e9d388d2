import LoxLang.Proofs.InStep.Evaluate
import LoxLang.Proofs.Scoping.Linked
/-!
# Runs on linked stores

Trees that are alike run in step on linked stores, whatever spare scopes one side has, if their
tokens agree in kind and text.
-/

namespace LoxLang

/-- Tokens that agree do so in what a run can see of them, except in the messages of faults. -/
def Likeness.Faithful (l : Likeness) : Prop :=
  ∀ {r t t'}, l.token r t t' → t.kind = t'.kind ∧ t.lexeme = t'.lexeme

/-- Two machines with linked stores that have printed and traced the same. -/
structure Machine.Linked (l : Likeness) (w : Placing) (m m' : Machine) : Prop where
  store : m.store.Linked l w m'.store
  output : m.output = m'.output
  traceLevel : m.traceLevel = m'.traceLevel
  trace : m.trace = m'.trace
  clock : m.clock = m'.clock
  readings : m.readings = m'.readings

/-- The same fault, at tokens that agree. -/
inductive Fault.Linked (l : Likeness) : Fault → Fault → Prop
  | runtime {r t t'} : l.token r t t' → ∀ c, Linked l (.runtime t c) (.runtime t' c)
  | misplaced m : Linked l (.misplaced m) (.misplaced m)
  | broken b : Linked l (.broken b) (.broken b)
  | overflow : Linked l .overflow .overflow
  | unfinished : Linked l .unfinished .unfinished

/-- Every scope stands where it is. -/
def Placing.identity (size : Nat) : Placing := (List.range size).map fun i => (i, true)

theorem Placing.identity_succ (size : Nat) : identity (size + 1) = identity size ++ [(size, true)] := by
  rw [identity, List.range_succ, List.map_append]
  rfl

/-- Runs on linked stores. A statement may bind only in a scope that stands on both sides. If the
runs are `strict`, all scopes do, and in the same order. -/
def linked (l : Likeness) (slack : Slack) (strict : Prop) : Correspondence where
  World := Placing
  le w w' := w <+: w'
  likeness := l
  held _ _ := True
  machines w bind m m' := m.Linked l w m' ∧
    (∃ own, w[m.scope]? = some (m'.scope, own) ∧ (bind = true → own = true)) ∧
    (strict → w = .identity m'.store.scopes.size)
  fault := Fault.Linked l
  slack := slack

namespace Linked

variable {l : Likeness} {slack : Slack} {strict : Prop} {w w' : Placing} {b : Bool} {m m' : Machine}

/-- The current scope of machines in which a statement may bind. -/
theorem scope_of_bind (h : (linked l slack strict).machines w true m m') :
    w[m.scope]? = some (m'.scope, true) := by
  obtain ⟨-, ⟨own, hs, hown⟩, -⟩ := h
  obtain rfl := hown rfl
  exact hs

/-- A step that makes no scope and stays in the current one keeps the placing. -/
theorem keep (h : (linked l slack strict).machines w b m m') {n n' : Machine} (hn : n.Linked l w n')
    (hs : n.scope = m.scope) (hs' : n'.scope = m'.scope)
    (hsize : n'.store.scopes.size = m'.store.scopes.size) :
    (linked l slack strict).machines w b n n' := by
  obtain ⟨-, hscope, hstrict⟩ := h
  rw [← hs, ← hs'] at hscope
  rw [← hsize] at hstrict
  exact ⟨hn, hscope, hstrict⟩

/-- What the name of a variable means in machines that correspond. -/
theorem resolve (h : (linked l slack strict).machines w b m m') (name : String) :
    Resolution.Linked w (m.store.resolve name m.store.room m.scope)
      (m'.store.resolve name m'.store.room m'.scope) := by
  obtain ⟨hm, ⟨own, hs, -⟩, -⟩ := h
  have hplaces : w.Places m.scope m'.scope := ⟨own, hs⟩
  obtain ⟨hin, hin'⟩ := hm.store.inside hplaces
  exact hm.store.resolve name hplaces (Nat.lt_succ_of_lt hin) (Nat.lt_succ_of_lt hin')

/-- Both sides enter new scopes that hold the same and lie in scopes that have their place. -/
theorem enter (h : (linked l slack strict).machines w b m m') {new new' : Scope}
    (hb : new.bindings = new'.bindings) (hp : w.Encloses new.parent new'.parent) :
    (linked l slack strict).machines (w ++ [(m'.store.scopes.size, true)]) true (m.inScope new)
      (m'.inScope new') := by
  obtain ⟨hm, -, hstrict⟩ := h
  refine ⟨⟨hm.store.openScope hb hp, hm.output, hm.traceLevel, hm.trace, hm.clock, hm.readings⟩,
    ⟨true, ?_, fun _ => rfl⟩, fun h => ?_⟩
  · change (w ++ [(m'.store.scopes.size, true)])[m.store.scopes.size]? =
      some (m'.store.scopes.size, true)
    rw [← hm.store.size, List.getElem?_concat_length]
  · change w ++ [(m'.store.scopes.size, true)] = .identity (m'.store.scopes.push new').size
    rw [Array.size_push, Placing.identity_succ, ← hstrict h]

/-- Only the left enters a new scope, in which no statement may bind. -/
theorem enterSpare (h : (linked l slack False).machines w b m m') :
    (linked l slack False).machines (w ++ [(m'.scope, false)]) false (m.inScope ⟨some m.scope, []⟩)
      m' := by
  obtain ⟨hm, ⟨own, hs, -⟩, -⟩ := h
  refine ⟨⟨hm.store.openSpare ⟨own, hs⟩, hm.output, hm.traceLevel, hm.trace, hm.clock, hm.readings⟩,
    ⟨false, ?_, by simp⟩, False.elim⟩
  change (w ++ [(m'.scope, false)])[m.store.scopes.size]? = some (m'.scope, false)
  rw [← hm.store.size, List.getElem?_concat_length]

theorem lookup (hl : l.Faithful) {r : Role} {t t' : Token} (ht : l.token r t t') :
    (linked l slack strict).Runs w b (Run.lookup t) (Run.lookup t') (linked l slack strict).Same := by
  intro m m' hm
  have hr := resolve hm t.lexeme
  rw [Run.lookup_eq, Run.lookup_eq, ← (hl ht).2]
  generalize m.store.resolve t.lexeme m.store.room m.scope = x at hr
  generalize m'.store.resolve t.lexeme m'.store.room m'.scope = y at hr
  cases hr with
  | found => exact ⟨w, List.prefix_refl _, hm, rfl, trivial⟩
  | unbound => exact .inr ⟨.runtime ht _, w, List.prefix_refl _, hm⟩

theorem define (hm : (linked l slack strict).machines w b m m') {i i' : Nat}
    (hi : w[i]? = some (i', true)) (name : String) (v : Value) :
    (linked l slack strict).machines w b { m with store := m.store.define i name v }
      { m' with store := m'.store.define i' name v } :=
  keep hm ⟨hm.1.store.define hi name v, hm.1.output, hm.1.traceLevel, hm.1.trace, hm.1.clock,
    hm.1.readings⟩ rfl rfl Array.size_modify

theorem assign (hl : l.Faithful) {r : Role} {t t' : Token} (ht : l.token r t t') (v : Value) :
    (linked l slack strict).Runs w b (Run.assign t v) (Run.assign t' v)
      (linked l slack strict).Done := by
  intro m m' hm
  have hr := resolve hm t.lexeme
  rw [Run.assign_eq, Run.assign_eq, ← (hl ht).2]
  generalize m.store.resolve t.lexeme m.store.room m.scope = x at hr
  generalize m'.store.resolve t.lexeme m'.store.room m'.scope = y at hr
  cases hr with
  | found hi => exact ⟨w, List.prefix_refl _, define hm hi t.lexeme v, trivial⟩
  | unbound => exact .inr ⟨.runtime ht _, w, List.prefix_refl _, hm⟩

theorem makeFunction {t t' : Token} {ps ps' : List Token} {ns ns' : List Node} (hl : l.Faithful)
    (ht : l.token .declared t t') (hps : List.Forall₂ (l.token .parameter) ps ps')
    (hns : List.Forall₂ (Node.Alike l (.statement true)) ns ns') :
    (linked l slack strict).Runs w true (Run.makeFunction t ps ns) (Run.makeFunction t' ps' ns')
      (linked l slack strict).Same := by
  intro m m' hm
  have hc : Closure.Linked l w ⟨t, ps, ns, m.scope⟩ ⟨t', ps', ns', m'.scope⟩ :=
    ⟨ht, hps, hns, true, scope_of_bind hm⟩
  refine ⟨w, List.prefix_refl _, keep hm ⟨hm.1.store.makeFunction hc, hm.1.output,
    hm.1.traceLevel, hm.1.trace, hm.1.clock, hm.1.readings⟩ rfl rfl rfl, ?_, trivial⟩
  change Value.function ⟨m.store.closures.size, t.lexeme, ps.length⟩ =
    Value.function ⟨m'.store.closures.size, t'.lexeme, ps'.length⟩
  rw [hm.1.store.closures_size, (hl ht).2, hps.length_eq]

theorem record (e : TraceEvent) : (linked l slack strict).Runs w b (Run.record e) (Run.record e)
    (linked l slack strict).Done := by
  intro m m' hm
  refine ⟨w, List.prefix_refl _, ?_, trivial⟩
  change (linked l slack strict).machines w b (if _ then _ else _) (if _ then _ else _)
  rw [← hm.1.traceLevel]
  split
  · exact keep hm ⟨hm.1.store, hm.1.output, rfl, congrArg (Array.push · e) hm.1.trace, hm.1.clock,
      hm.1.readings⟩ rfl rfl rfl
  · exact hm

theorem lawful (hl : l.Faithful) : (linked l slack strict).Lawful where
  refl _ := List.prefix_refl _
  trans h h' := List.IsPrefix.trans h h'
  held_mono _ _ := trivial
  held_plain _ := trivial
  literal _ := trivial
  kind h := (hl h).1
  lexeme h := (hl h).2
  lookup ht := lookup hl ht
  assign ht _ := assign hl ht _
  define := by
    intro w name v _ m m' hm
    exact ⟨w, List.prefix_refl _, define hm (scope_of_bind hm) name v, trivial⟩
  makeFunction := makeFunction hl
  record := record
  printLine := by
    intro w b text m m' hm
    exact ⟨w, List.prefix_refl _, keep hm ⟨hm.1.store, congrArg (· ++ text ++ "\n") hm.1.output,
      hm.1.traceLevel, hm.1.trace, hm.1.clock, hm.1.readings⟩ rfl rfl rfl, trivial⟩
  readClock := by
    intro w b m m' hm
    refine ⟨w, List.prefix_refl _, keep hm ⟨hm.1.store, hm.1.output, hm.1.traceLevel, hm.1.trace,
      hm.1.clock, congrArg (· + 1) hm.1.readings⟩ rfl rfl rfl, ?_⟩
    change m.clock m.readings = m'.clock m'.readings
    rw [hm.1.clock, hm.1.readings]
  enterBlock := by
    intro w b m m' hm
    obtain ⟨own, hs, -⟩ := hm.2.1
    exact ⟨_, List.prefix_append _ _, enter hm rfl (.within ⟨own, hs⟩)⟩
  enterCall := by
    intro w b m m' f vs hm _ _
    rcases hm.1.store.closure f.id with h | ⟨c, c', hc, hc', hcc⟩
    · exact .inl h
    · refine .inr ⟨c, c', _, hc, hc', hcc.body, List.prefix_append _ _, enter hm ?_ ?_⟩
      · exact Layer.callScope_bindings (hcc.params.imp fun _ _ h => (hl h).2) vs
      · rw [Layer.callScope_parent, Layer.callScope_parent]
        exact .within hcc.scope
  leave := by
    rintro w w' b b' m m' n n' ⟨-, ⟨own, hs, hown⟩, -⟩ hle ⟨hn, -, hstrict⟩
    exact ⟨⟨hn.store, hn.output, hn.traceLevel, hn.trace, hn.clock, hn.readings⟩,
      ⟨own, Placing.kept hle hs, hown⟩, hstrict⟩
  unary := by
    intro t t' v e ht h
    cases e with
    | wrong c => exact .runtime ht c
    | broken b => exact .broken b
  binary := by
    intro t t' x y e ht h
    cases e with
    | wrong c => exact .runtime ht c
    | broken b => exact .broken b
  call ht _ := .runtime ht _
  broken _ _ := .broken _
  misplaced _ := .misplaced _
  overflow := .overflow
  unfinished := .unfinished
  overflow_iff h := by cases h <;> simp

end Linked

end LoxLang
