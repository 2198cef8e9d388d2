import LoxLang.Proofs.Effects.Basic
/-!
# Every run comes back

However the run of a node ends, it leaves the machine in the scope in which it found it.
-/

namespace LoxLang

/-- The scope that was current before is current again. -/
def sameScope : Effect := fun _ m m' => m'.scope = m.scope

theorem sameScope_lawful : sameScope.Lawful where
  trans h h' := Eq.trans h' h
  mono _ h := h
  aside _ h := h
  assign _ _ := rfl
  define _ _ _ := rfl
  makeFunction _ _ _ _ := rfl
  inside _ _ := rfl

/-- A run that ends in the scope in which it began. -/
def Stays {α : Type} (x : Run α) : Prop := ∀ m : Machine, (machineOf (x m)).scope = m.scope

namespace Stays

variable {α β : Type} {x : Run α} {f : α → Run β}

theorem of_does (names : Set String) (h : sameScope.Does names x) : Stays x := h

protected theorem pure (a : α) : Stays (pure a : Run α) := fun _ => rfl

protected theorem bind (hx : Stays x) (hf : ∀ a, Stays (f a)) : Stays (x >>= f) :=
  of_does ∅ (Effect.Does.bind sameScope_lawful hx hf)

/-- A scope that is entered is left, whatever is run in it. -/
theorem within (scope : Nat) (x : Run α) : Stays (Run.within scope x) := by
  intro m
  unfold Run.within
  dsimp only
  cases x { m with scope := scope } <;> rfl

theorem inside (s : Scope) (x : Run α) : Stays (Run.inside s x) :=
  fun m => within m.store.scopes.size x { m with store := (m.store.openScope s).2 }

theorem loop {condition : Run Value} {body : Run Completion} (hc : Stays condition)
    (hb : Stays body) (turns : Nat) : Stays (Layer.loop condition body turns) :=
  of_does ∅ ((Effect.Does.inherited sameScope_lawful).loop hc hb turns)

theorem call {below : Layer Run} (h : ∀ n, Stays (below.execute n)) (callee : Value) (vs : List Value)
    (t : Token) : Stays (below.call callee vs t) :=
  of_does ∅ ((Effect.Does.inherited sameScope_lawful).call h callee vs t)

/-- Whatever is evaluated or executed, the scope that was current before is current again. -/
theorem atop (turns nesting : Nat) :
    (∀ n, Stays ((Layer.atop turns nesting).evaluate n)) ∧
      ∀ n, Stays ((Layer.atop turns nesting).execute n) := by
  obtain ⟨he, hs⟩ := (Effect.Does.inherited sameScope_lawful).atop turns nesting
  exact ⟨he ∅, hs⟩

end Stays

end LoxLang
