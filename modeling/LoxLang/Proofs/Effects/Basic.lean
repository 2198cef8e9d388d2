import LoxLang.Proofs.Effects.Inherited
/-!
# What runs do to a machine

An effect says how the machine that a run leaves behind may differ from the one it found. What the
single steps of a machine do, any run of a tree does, whatever the tree and however the run ends.
-/

namespace LoxLang

/-- The machine that a run leaves behind. -/
def machineOf {α : Type} : EStateM.Result Fault Machine α → Machine
  | .ok _ m | .error _ m => m

/-- How a machine may change, if certain names may be bound in its current scope. -/
abbrev Effect := Set String → Machine → Machine → Prop

/-- The single steps of a machine have the effect. -/
structure Effect.Lawful (E : Effect) : Prop where
  trans : ∀ {names m m' m''}, E names m m' → E names m' m'' → E names m m''
  mono : ∀ {names names' m m'}, names ⊆ names' → E names m m' → E names' m m'
  /-- Printing, tracing and reading the clock. -/
  aside : ∀ {m m'}, m'.store = m.store → m'.scope = m.scope → E ∅ m m'
  assign : ∀ {m x i v} v', m.store.resolve x m.store.room m.scope = .found i v →
    E ∅ m { m with store := m.store.define i x v' }
  define : ∀ m x v, E {x} m { m with store := m.store.define m.scope x v }
  /-- A function is made where its name is bound. -/
  makeFunction : ∀ m t ps ns,
    E {t.lexeme} m { m with store := (m.store.makeFunction ⟨t, ps, ns, m.scope⟩).2 }
  /-- Whatever is bound in a new scope. -/
  inside : ∀ {m n} s, E Set.univ (m.inScope s) n → E ∅ m { n with scope := m.scope }

namespace Effect

/-- A run that has an effect, from whatever machine. -/
def Does {α : Type} (E : Effect) (names : Set String) (x : Run α) : Prop :=
  ∀ m, E names m (machineOf (x m))

namespace Does

variable {E : Effect} {α β : Type} {names names' : Set String} {x : Run α} {f : α → Run β}
  {below : Layer Run}

theorem aside (hE : E.Lawful) (hs : ∀ m, (machineOf (x m)).store = m.store)
    (hc : ∀ m, (machineOf (x m)).scope = m.scope) : E.Does names x :=
  fun m => hE.mono (Set.empty_subset _) (hE.aside (hs m) (hc m))

protected theorem pure (hE : E.Lawful) (a : α) : E.Does names (pure a : Run α) :=
  aside hE (fun _ => rfl) fun _ => rfl

protected theorem throw (hE : E.Lawful) (e : Fault) : E.Does names (throw e : Run α) :=
  aside hE (fun _ => rfl) fun _ => rfl

theorem mono (hE : E.Lawful) (hn : names ⊆ names') (h : E.Does names x) : E.Does names' x :=
  fun m => hE.mono hn (h m)

protected theorem bind (hE : E.Lawful) (hx : E.Does names x) (hf : ∀ a, E.Does names (f a)) :
    E.Does names (x >>= f) := by
  intro m
  change E names m (machineOf (EStateM.bind x f m))
  have hm := hx m
  unfold EStateM.bind
  cases hr : x m with
  | ok a n =>
    rw [hr] at hm
    exact hE.trans hm (hf a n)
  | error e n =>
    rw [hr] at hm
    exact hm

theorem inside (hE : E.Lawful) (s : Scope) (h : E.Does Set.univ x) :
    E.Does names (Run.inside s x) := by
  intro m
  have hm := h (m.inScope s)
  rw [Run.inside_eq]
  cases hr : x (m.inScope s) <;> rw [hr] at hm <;>
    exact hE.mono (Set.empty_subset _) (hE.inside s hm)

theorem catchOverflow (t : Token) (h : E.Does names x) : E.Does names (Run.catchOverflow t x) := by
  intro m
  have hm := h m
  rw [Run.catchOverflow_eq]
  cases hr : x m <;> rw [hr] at hm <;> exact hm

theorem lookup (hE : E.Lawful) (t : Token) : E.Does names (Run.lookup t) := by
  refine aside hE (fun m => ?_) fun m => ?_ <;> rw [Run.lookup_eq] <;> split <;> rfl

theorem assign (hE : E.Lawful) (t : Token) (v : Value) : E.Does names (Run.assign t v) := by
  intro m
  refine hE.mono (Set.empty_subset _) ?_
  rw [Run.assign_eq]
  split
  · next hr => exact hE.assign v hr
  · exact hE.aside rfl rfl
  · exact hE.aside rfl rfl

theorem record (hE : E.Lawful) (e : TraceEvent) : E.Does names (Run.record e) := by
  refine aside hE (fun m => ?_) fun m => ?_ <;> obtain ⟨trace, h⟩ := Run.record_eq e m <;>
    rw [h] <;> rfl

theorem native (hE : E.Lawful) (below : Layer Run) (n : Native) {vs : List Value} (t : Token)
    (hlen : vs.length = n.arity) : E.Does names (below.call (.native n) vs t) := by
  have settled : ∀ r, E.Does names (Layer.settleCall t r) := by
    rintro ((_ | _) | v)
    · exact .throw hE _
    · exact .throw hE _
    · exact .pure hE v
  have entered : E.Does names (Layer.callNative n vs t) := by
    unfold Layer.callNative
    split
    · exact .bind hE (aside hE (fun _ => rfl) fun _ => rfl) fun _ => settled _
    · exact settled _
  unfold Layer.call
  dsimp only [Layer.arity?]
  rw [if_neg (not_not_intro hlen)]
  exact .bind hE (record hE _) fun _ => .bind hE (catchOverflow t entered) fun _ =>
    .bind hE (record hE _) fun _ => .pure hE _

/-- An effect of the single steps is one of all runs. -/
theorem inherited (hE : E.Lawful) : Inherited fun names x => E.Does names x where
  mono hn h := h.mono hE hn
  pure := .pure hE
  throw _ := .throw hE _
  bind := .bind hE
  pointwise := by
    intro α names x h m
    obtain ⟨y, hy, heq⟩ := h m
    rw [heq]
    exact hy m
  lookup := lookup hE
  assign := assign hE
  define x v m := hE.define m x v
  makeFunction t ps ns m := hE.makeFunction m t ps ns
  record := record hE
  printLine _ := aside hE (fun _ => rfl) fun _ => rfl
  inside := inside hE
  catchOverflow := catchOverflow
  native below n _ t := native hE below n t

end Does

end Effect

end LoxLang
