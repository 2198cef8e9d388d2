import LoxLang.Proofs.Effects.Session
import LoxLang.Proofs.Scoping.Linked
import Mathlib.Data.Set.Insert
/-!
# Which names a run may bind

A scope that exists keeps its place in the tree of scopes and all its names, whatever is run. Only a
declaration adds a name, and only to the scope that is current where the declaration stands.
-/

namespace LoxLang

/-- The names that a scope itself binds. -/
def Scope.names (s : Scope) : Set String := {x | (s.get? x).isSome}

theorem Scope.names_set (s : Scope) (name : String) (v : Value) :
    (s.set name v).names = s.names ∪ {name} := by
  ext x
  rw [Set.mem_union, Set.mem_singleton_iff]
  change ((s.set name v).get? x).isSome ↔ (s.get? x).isSome ∨ x = name
  rw [get?_set]
  by_cases h : x = name <;> simp [h]

/-- The scope that a name is found in binds it. -/
theorem Store.names_of_resolve {s : Store} {x : String} {room : Nat} {j i : Nat} {v : Value}
    (h : s.resolve x room j = .found i v) :
    ∃ here, s.scopes[i]? = some here ∧ x ∈ here.names := by
  induction room generalizing j with
  | zero => cases h
  | succ room ih =>
    cases hj : s.scopes[j]? with
    | none =>
      rw [resolve, hj] at h
      cases h
    | some here =>
      rw [resolve_succ hj] at h
      cases hx : here.get? x with
      | some v' =>
        rw [hx] at h
        cases h
        exact ⟨here, hj, by simp [Scope.names, hx]⟩
      | none =>
        rw [hx] at h
        cases hp : here.parent with
        | none => rw [hp] at h; cases h
        | some p =>
          rw [hp] at h
          exact ih h

/-- Where a scope stood, one with the same enclosing scope and its names stands, and it has gained
no others but those. -/
def Scope.Gains (here : Scope) (names : Set String) (o : Option Scope) : Prop :=
  ∃ here', o = some here' ∧ here'.parent = here.parent ∧ here.names ⊆ here'.names ∧
    here'.names ⊆ here.names ∪ names

namespace Scope.Gains

variable {here here' : Scope} {names names' : Set String} {o : Option Scope}

theorem refl (here : Scope) (names : Set String) : here.Gains names (some here) :=
  ⟨here, rfl, rfl, subset_rfl, Set.subset_union_left⟩

theorem mono (h : here.Gains names o) (hn : names ⊆ names') : here.Gains names' o := by
  obtain ⟨here', ho, hp, hkept, hnew⟩ := h
  exact ⟨here', ho, hp, hkept, hnew.trans (Set.union_subset_union_right _ hn)⟩

theorem trans {o' : Option Scope} (h : here.Gains names o)
    (h' : ∀ here', o = some here' → here'.Gains names o') : here.Gains names o' := by
  obtain ⟨here', ho, hp, hkept, hnew⟩ := h
  obtain ⟨here'', ho', hp', hkept', hnew'⟩ := h' here' ho
  refine ⟨here'', ho', hp'.trans hp, hkept.trans hkept', hnew'.trans ?_⟩
  exact Set.union_subset hnew Set.subset_union_right

/-- A scope that may gain no names has the same ones. -/
theorem names_eq (h : here.Gains ∅ o) :
    ∃ here', o = some here' ∧ here'.parent = here.parent ∧ here'.names = here.names := by
  obtain ⟨here', ho, hp, hkept, hnew⟩ := h
  rw [Set.union_empty] at hnew
  exact ⟨here', ho, hp, hnew.antisymm hkept⟩

/-- Binding a name adds that one, where it is bound. -/
theorem define {s : Store} {j : Nat} (hj : s.scopes[j]? = some here) (i : Nat) (x : String)
    (v : Value) : here.Gains {y | j = i ∧ y = x} (s.define i x v).scopes[j]? := by
  rw [Store.getElem?_define, hj]
  by_cases h : i = j
  · rw [if_pos h]
    refine ⟨here.set x v, rfl, rfl, ?_, ?_⟩
    · rw [Scope.names_set]
      exact Set.subset_union_left
    · rw [Scope.names_set]
      exact Set.union_subset_union_right _ fun y hy => ⟨h.symm, hy⟩
  · rw [if_neg h]
    exact refl here _

end Scope.Gains

/-- Every scope keeps its place and its names, and only the current one may gain the given names. -/
def bindsOnly : Effect := fun names m m' => m'.scope = m.scope ∧
  ∀ (i : Nat) (here : Scope), m.store.scopes[i]? = some here →
    here.Gains {x | i = m.scope ∧ x ∈ names} m'.store.scopes[i]?

theorem bindsOnly_lawful : bindsOnly.Lawful where
  trans := by
    rintro names m m' m'' ⟨hs, h⟩ ⟨hs', h'⟩
    refine ⟨hs'.trans hs, fun i here hi => (h i here hi).trans fun here' hi' => ?_⟩
    rw [← hs]
    exact h' i here' hi'
  mono hn h := ⟨h.1, fun i here hi => (h.2 i here hi).mono fun _ hx => ⟨hx.1, hn hx.2⟩⟩
  aside := by
    intro m m' hs hc
    refine ⟨hc, fun i here hi => ?_⟩
    rw [hs, hi]
    exact .refl here _
  assign := by
    intro m x i v v' hr
    refine ⟨rfl, fun j here hj => ?_⟩
    obtain ⟨bound, hb, hx⟩ := Store.names_of_resolve hr
    obtain ⟨here', h', hp, hkept, hnew⟩ := Scope.Gains.define hj i x v'
    refine ⟨here', h', hp, hkept, hnew.trans (Set.union_subset Set.subset_union_left ?_)⟩
    -- The name that gets a new value was bound in that scope before.
    rintro y ⟨rfl, rfl⟩
    rw [hj] at hb
    cases hb
    exact .inl hx
  define m x v := ⟨rfl, fun _ _ hj => .define hj m.scope x v⟩
  makeFunction _ _ _ _ := ⟨rfl, fun _ here hi => ⟨here, hi, rfl, subset_rfl, Set.subset_union_left⟩⟩
  inside := by
    rintro m n s ⟨-, h⟩
    refine ⟨rfl, fun i here hi => (h i here (Store.openScope_kept hi)).mono ?_⟩
    -- The scope that is current inside is none that existed before.
    have hlt := (Array.getElem?_eq_some_iff.1 hi).1
    rintro x ⟨hsize, -⟩
    exact absurd hsize (Nat.ne_of_lt hlt)

/-- Whatever tree is run on whatever machine, and however the run ends: an expression leaves every
scope its enclosing scope and exactly its names. So does a statement for all scopes but the current
one, which keeps its names and gains none but those that the statement declares there. No step of
a session moves a scope or takes a name from one. -/
theorem names_bound_by_declarations :
    (∀ (turns nesting : Nat) (m : Machine) (n : Node) (i : Nat) (here : Scope),
      m.store.scopes[i]? = some here → let layer : Layer Run := Layer.atop turns nesting
      (∃ here', (machineOf (layer.evaluate n m)).store.scopes[i]? = some here' ∧
        here'.parent = here.parent ∧ here'.names = here.names) ∧
      ∃ here', (machineOf (layer.execute n m)).store.scopes[i]? = some here' ∧
        here'.parent = here.parent ∧ here.names ⊆ here'.names ∧
        here'.names ⊆ here.names ∪ {x | i = m.scope ∧ x ∈ n.declared}) ∧
    ∀ (s : Session) (steps : List Step) (i : Nat) (here : Scope),
      s.machine.store.scopes[i]? = some here →
      ∃ here', (s.after steps).machine.store.scopes[i]? = some here' ∧
        here'.parent = here.parent ∧ here.names ⊆ here'.names := by
  refine ⟨fun turns nesting m n i here hi => ?_, fun s steps i here hi => ?_⟩
  · obtain ⟨hevaluate, hexecute⟩ := (Effect.Does.inherited bindsOnly_lawful).atop turns nesting
    refine ⟨Scope.Gains.names_eq ?_, (hexecute n m).2 i here hi⟩
    exact ((hevaluate ∅ n m).2 i here hi).mono fun x hx => hx.2
  · obtain ⟨here', h, hp, hkept, -⟩ := (Session.after_does bindsOnly_lawful s steps).2 i here hi
    exact ⟨here', h, hp, hkept⟩

end LoxLang
