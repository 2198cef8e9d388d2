import LoxLang.Proofs.Effects.Session
import LoxLang.Proofs.Safety.Texts
import LoxLang.Proofs.Scoping.Region
import Mathlib.Data.Set.Lattice
/-!
# Only reachable scopes are touched

What is reachable from a scope is a region, for any code that a text can give rise to. So a run
neither changes a scope that is not reachable nor depends on one. Code that uses certain names only
stays in the smaller region that it can reach by them, which keeps apart the variables of functions
that were made by separate calls.
-/

namespace LoxLang

/-- What is reachable from a scope: the scopes enclosing it, and those of the functions that are
bound in it. -/
inductive Store.Reaches (s : Store) (start : Nat) : Nat → Prop
  | start : Reaches s start start
  | enclosing {i p : Nat} {here : Scope} : Reaches s start i → s.scopes[i]? = some here →
      here.parent = some p → Reaches s start p
  | captured {i : Nat} {here : Scope} {x : String} {f : Callable} {c : Closure} :
      Reaches s start i → s.scopes[i]? = some here → here.get? x = some (.function f) →
      s.closures[f.id]? = some c → Reaches s start c.scope

/-- No function has a function among the literals of its body. -/
def Store.Plain (s : Store) : Prop :=
  ∀ c ∈ s.closures, ∀ n ∈ c.body, n.Keeps Set.univ (.statement true)

/-- How a run ended, the machine aside. -/
def outcomeOf {α : Type} : EStateM.Result Fault Machine α → Except Fault α
  | .ok a _ => .ok a
  | .error e _ => .error e

/-- Two runs from `m` and `m'` end alike: with the same outcome, on machines that differ in scopes
outside the region at most, and there neither has changed anything. -/
structure EndAlike {α : Type} (region : Set Nat) (m m' : Machine)
    (r r' : EStateM.Result Fault Machine α) : Prop where
  outcome : outcomeOf r' = outcomeOf r
  machine : (machineOf r).SameOn region (machineOf r')
  kept : m.store.KeptOutside region (machineOf r).store
  kept' : m'.store.KeptOutside region (machineOf r').store

/-- Code that uses these names only runs in the region and in scopes that it makes itself, and what
stands elsewhere does not matter. -/
def Machine.Confines (m : Machine) (names : Set String) (region : Set Nat) : Prop :=
  ∀ (turns nesting : Nat) (m' : Machine), m.SameOn region m' →
    let layer : Layer Run := Layer.atop turns nesting
    (∀ n : Node, n.Keeps names .expression →
      EndAlike (region ∪ m.store.unmade) m m' (layer.evaluate n m) (layer.evaluate n m')) ∧
    ∀ n : Node, n.Keeps names (.statement true) →
      EndAlike (region ∪ m.store.unmade) m m' (layer.execute n m) (layer.execute n m')

/-! ## Regions confine -/

section

variable {names : Set String} {region : Set Nat} {s s' : Store} {m m' : Machine}

theorem Store.not_unmade {i : Nat} {here : Scope} (h : s.scopes[i]? = some here) : i ∉ s.unmade :=
  fun hi => absurd (Array.getElem?_eq_some_iff.1 h).1 (Nat.not_lt.2 hi)

theorem Store.Admits.mono {region' : Set Nat} (hr : region ⊆ region') {id : Nat}
    (h : s.Admits names region id) : s.Admits names region' id :=
  fun c hc => ⟨hr (h c hc).1, (h c hc).2⟩

/-- The scopes that are yet to be made are no difference. -/
theorem Store.SameOn.withUnmade (h : s.SameOn region s') : s.SameOn (region ∪ s.unmade) s' where
  scopes := by
    rintro i (hi | hi)
    · exact h.scopes i hi
    · have hi : s.scopes.size ≤ i := hi
      rw [Array.getElem?_eq_none hi, Array.getElem?_eq_none (by rw [h.size]; exact hi)]
  size := h.size
  closures := h.closures

theorem Store.Region.guarded (h : m.store.Region names region) (hs : m.scope ∈ region) :
    m.Guarded names (region ∪ m.store.unmade) {id | m.store.Admits names region id} where
  scope := .inl hs
  unmade := Set.subset_union_right
  unknown := by
    intro id hid c hc
    have hlt := (Array.getElem?_eq_some_iff.1 hc).1
    exact absurd hlt (Nat.not_lt.2 hid)
  enclosing := by
    rintro i p here (hi | hi) hhere hp
    · exact .inl (h.enclosing hi hhere hp)
    · exact absurd hi (Store.not_unmade hhere)
  bound := by
    rintro i here x f (hi | hi) hhere hx hf
    · exact h.bound hi hhere hx hf f rfl
    · exact absurd hi (Store.not_unmade hhere)
  admits id hid := Store.Admits.mono Set.subset_union_left hid

variable {known : Set Nat}

/-- What goes in step with itself in a region ends alike. -/
theorem Regional.endAlike {α : Type} {x : Run α} {Q : Unit → α → α → Prop}
    (hx : (regional names region known m.store m'.store).Runs () true x x Q) (hq : ∀ a a', Q () a a' → a = a')
    (hg : m.Guarded names region known) (h : m.SameOn region m') :
    EndAlike region m m' (x m) (x m') ∧ (machineOf (x m)).Guarded names region known := by
  have hends := hx m m' ⟨h, hg, fun _ _ => rfl, fun _ _ => rfl⟩
  refine Correspondence.Ends.elim hends ?left ?right ?ok ?error
  case left => rintro e n r' ⟨⟩
  case right => rintro r e' n' ⟨⟩
  case ok =>
    rintro _ a a' n n' - ⟨hsame, hg', hk, hk'⟩ ha
    obtain rfl := hq a a' ha
    exact ⟨⟨rfl, hsame, hk, hk'⟩, hg'⟩
  case error =>
    rintro _ e e' n n' rfl - ⟨hsame, hg', hk, hk'⟩
    exact ⟨⟨rfl, hsame, hk, hk'⟩, hg'⟩

theorem Regional.inStep (turns nesting : Nat) :
    (regional names region known s s').LayersInStep (.atop turns nesting) (.atop turns nesting) :=
  Correspondence.layersInStep lawful (rfl : turns = turns) _ _ (rfl : nesting = nesting)

theorem Store.Region.confines (h : m.store.Region names region) (hs : m.scope ∈ region) :
    m.Confines names region := by
  intro turns nesting m' hsame
  have hgrown : m.SameOn (region ∪ m.store.unmade) m' := ⟨hsame.1.withUnmade, hsame.2⟩
  refine ⟨fun n hn => ?_, fun n hn => ?_⟩
  · exact (Regional.endAlike ((Regional.inStep turns nesting).evaluate hn) (fun _ _ h => h.1)
      (h.guarded hs) hgrown).1
  · exact (Regional.endAlike ((Regional.inStep turns nesting).execute hn) (fun _ _ h => h.1)
      (h.guarded hs) hgrown).1

/-- If all functions are plain, what is reachable is a region for any names. -/
theorem Store.Plain.reaches (h : s.Plain) (start : Nat) :
    s.Region Set.univ {i | s.Reaches start i} where
  enclosing hi hhere hp := hi.enclosing hhere hp
  bound := by
    rintro i here x v hi hhere - hv f rfl c hc
    exact ⟨hi.captured hhere hv hc, h c (Array.mem_of_getElem? hc)⟩

/-! ## Texts -/

/-- That all functions are plain is what it takes for all scopes together to be a region. -/
theorem Store.plain_iff_guarded :
    m.store.Plain ↔ m.Guarded Set.univ Set.univ Set.univ := by
  constructor
  · intro h
    refine ⟨trivial, fun _ _ => trivial, fun _ _ => trivial, fun _ _ _ => trivial,
      fun _ _ _ _ => trivial, fun id _ c hc => ⟨trivial, h c (Array.mem_of_getElem? hc)⟩⟩
  · intro h c hc
    obtain ⟨id, hid⟩ := Array.getElem?_of_mem hc
    exact (h.admits id trivial c hid).2

theorem evaluate_plain (turns nesting : Nat) {n : Node} (hn : n.Keeps Set.univ .expression)
    (h : m.store.Plain) : (machineOf ((Layer.atop (M := Run) turns nesting).evaluate n m)).store.Plain :=
  Store.plain_iff_guarded.2 (Regional.endAlike ((Regional.inStep turns nesting).evaluate hn)
    (fun _ _ h => h.1) (Store.plain_iff_guarded.1 h) ⟨⟨fun _ _ => rfl, rfl, rfl⟩, rfl⟩).2

theorem execute_plain (turns nesting : Nat) {n : Node} (hn : n.Keeps Set.univ (.statement true))
    (h : m.store.Plain) : (machineOf ((Layer.atop (M := Run) turns nesting).execute n m)).store.Plain :=
  Store.plain_iff_guarded.2 (Regional.endAlike ((Regional.inStep turns nesting).execute hn)
    (fun _ _ h => h.1) (Store.plain_iff_guarded.1 h) ⟨⟨fun _ _ => rfl, rfl, rfl⟩, rfl⟩).2

/-- A tree that is made of the tokens of a text holds no function. -/
theorem Node.Parsed.keeps {site : Site} {n : Node} (hn : n.Parsed site) : n.Keeps Set.univ site := by
  obtain ⟨source, hn⟩ := hn
  refine Node.Alike.imp ?_ ?_ False.elim hn
  · rintro r t t' ⟨rfl, -, -⟩
    exact ⟨rfl, fun _ => trivial⟩
  · rintro v (rfl | ⟨b, rfl⟩ | ⟨t, ht, hk, rfl⟩) f
    · simp
    · simp
    · have hne : t.kind ≠ .eof := by rcases hk with hk | hk <;> simp [hk]
      exact Scan.literal_plain ht hne f

theorem Store.Plain.keptByTexts : KeptByTexts fun m => m.store.Plain where
  record e m h := by
    obtain ⟨trace, hr⟩ := Run.record_eq e m
    rw [hr]
    exact h
  evaluate l _ _ hn h := evaluate_plain l.turns l.nesting hn.keeps h
  execute l _ _ hn h := execute_plain l.turns l.nesting hn.keeps h

end

/-! ## Functions that are made -/

/-- Every function that is made captures a scope that is made too, unless it is bound in the current
one. -/
structure CapturesNew (names : Set String) (m m' : Machine) : Prop where
  scope : m'.scope = m.scope
  scopes : m.store.scopes.size ≤ m'.store.scopes.size
  size : m.store.closures.size ≤ m'.store.closures.size
  kept : ∀ id < m.store.closures.size, m'.store.closures[id]? = m.store.closures[id]?
  made : ∀ id c, m.store.closures.size ≤ id → m'.store.closures[id]? = some c →
    (m.store.scopes.size ≤ c.scope ∧ c.scope < m'.store.scopes.size) ∨
      (c.scope = m.scope ∧ names.Nonempty)

theorem CapturesNew.of_closures {names : Set String} {m m' : Machine} (hs : m'.scope = m.scope)
    (hsize : m.store.scopes.size ≤ m'.store.scopes.size)
    (hc : m'.store.closures = m.store.closures) : CapturesNew names m m' where
  scope := hs
  scopes := hsize
  size := by rw [hc]
  kept _ _ := by rw [hc]
  made id c hid h := by
    rw [hc, Array.getElem?_eq_none hid] at h
    cases h

theorem capturesNew_lawful : Effect.Lawful CapturesNew where
  trans := by
    intro names m m' m'' h h'
    refine ⟨h'.scope.trans h.scope, h.scopes.trans h'.scopes, h.size.trans h'.size, fun id hid => ?_,
      fun id c hid hc => ?_⟩
    · rw [h'.kept id (Nat.lt_of_lt_of_le hid h.size), h.kept id hid]
    · rcases Nat.lt_or_ge id m'.store.closures.size with hlt | hge
      · rw [h'.kept id hlt] at hc
        rcases h.made id c hid hc with ⟨hle, hlt⟩ | hc
        · exact .inl ⟨hle, Nat.lt_of_lt_of_le hlt h'.scopes⟩
        · exact .inr hc
      · rcases h'.made id c hge hc with ⟨hle, hlt⟩ | ⟨hc, hn⟩
        · exact .inl ⟨Nat.le_trans h.scopes hle, hlt⟩
        · exact .inr ⟨hc.trans h.scope, hn⟩
  mono hn h := ⟨h.scope, h.scopes, h.size, h.kept, fun id c hid hc =>
    (h.made id c hid hc).imp (fun hnew => hnew) fun ⟨hc, hne⟩ => ⟨hc, hne.mono hn⟩⟩
  aside hs hc := .of_closures hc (by rw [hs]) (by rw [hs])
  assign _ _ := .of_closures rfl (Array.size_modify ▸ Nat.le_refl _) rfl
  define _ _ _ := .of_closures rfl (Array.size_modify ▸ Nat.le_refl _) rfl
  makeFunction m t ps ns := by
    refine ⟨rfl, Nat.le_refl _, ?_, fun id hid => ?_, fun id c hid hc => ?_⟩
    · change _ ≤ (m.store.closures.push _).size
      rw [Array.size_push]
      exact Nat.le_succ _
    · exact (Array.getElem?_push).trans (if_neg (Nat.ne_of_lt hid))
    · have hc : (m.store.closures.push ⟨t, ps, ns, m.scope⟩)[id]? = some c := hc
      rw [Array.getElem?_push] at hc
      split at hc
      · cases hc
        exact .inr ⟨rfl, t.lexeme, rfl⟩
      · rw [Array.getElem?_eq_none hid] at hc
        cases hc
  inside := by
    intro m n s h
    have hsize : (m.inScope s).store.scopes.size = m.store.scopes.size + 1 := Array.size_push s
    have hgrown := h.scopes
    rw [hsize] at hgrown
    refine ⟨rfl, Nat.le_of_succ_le hgrown, h.size, h.kept, fun id c hid hc => .inl ?_⟩
    -- What is made inside captures the scope that was entered, or one made after it.
    rcases h.made id c hid hc with ⟨hle, hlt⟩ | ⟨hscope, -⟩
    · rw [hsize] at hle
      exact ⟨Nat.le_of_succ_le hle, hlt⟩
    · have hscope : c.scope = m.store.scopes.size := hscope
      exact ⟨Nat.le_of_eq hscope.symm, hscope ▸ hgrown⟩

/-! ## The result -/

/-- A session that is given texts has plain functions only, and there is no function in the trees of
a text. Code of this kind, run in any scope, does not change scopes that are not reachable from it;
nothing that comes of the run depends on what they hold, and all functions stay plain. Code that
keeps to certain names is confined to every region that they do not lead out of: so is a call of a
counter, if its names do not lead to the scope of the other counter. An expression makes functions
in new scopes only, so those of separate calls do not share the scope that they capture. -/
theorem confined_to_reachable :
    (∀ limits traceLevel clock steps, (∀ step ∈ steps, step.ofText) →
      ((Session.new limits traceLevel clock).after steps).machine.store.Plain) ∧
    (∀ source, ∀ n ∈ (Program.ofText source).statements, ∀ k : Node, k.Within n →
      (k.isExpression → k.Keeps Set.univ .expression) ∧
      (k.isExecutable → k.Keeps Set.univ (.statement true))) ∧
    (∀ m : Machine, m.store.Plain → m.Confines Set.univ {i | m.store.Reaches m.scope i} ∧
      ∀ (turns nesting : Nat) (n : Node), let layer : Layer Run := Layer.atop turns nesting
        (n.Keeps Set.univ .expression → (machineOf (layer.evaluate n m)).store.Plain) ∧
        (n.Keeps Set.univ (.statement true) → (machineOf (layer.execute n m)).store.Plain)) ∧
    (∀ (m : Machine) names region, m.store.Region names region → m.scope ∈ region →
      m.Confines names region) ∧
    ∀ (turns nesting : Nat) (m : Machine) (n : Node) (id : Nat) (c : Closure),
      let after := machineOf ((Layer.atop (M := Run) turns nesting).evaluate n m)
      m.store.closures.size ≤ id → after.store.closures[id]? = some c →
      m.store.scopes.size ≤ c.scope ∧ c.scope < after.store.scopes.size := by
  refine ⟨fun limits traceLevel clock steps h => ?_, fun source n hn k hk => ?_,
    fun m h => ?_, fun m names region h hs => h.confines hs, fun turns nesting m n id c => ?_⟩
  · refine Store.Plain.keptByTexts.after ?_ h
    intro c hc
    exact absurd hc (Array.not_mem_empty c)
  · obtain ⟨-, -, -, hproper, -⟩ := Program.ofText_reads source _
    obtain ⟨site, hbelongs, hproper⟩ := (hproper n hn).within id hk
    have hkeeps : k.Keeps Set.univ site := Node.Parsed.keeps ⟨source, hproper⟩
    cases site with
    | expression =>
      refine ⟨fun _ => hkeeps, fun h => ?_⟩
      rw [Node.isExecutable_of_isExpression hbelongs] at h
      cases h
    | statement bind =>
      refine ⟨fun h => ?_, fun _ => hkeeps.toBind⟩
      have hbelongs : k.isExecutable = true := hbelongs
      rw [Node.isExecutable_of_isExpression h] at hbelongs
      cases hbelongs
  · exact ⟨(h.reaches m.scope).confines .start, fun turns nesting n =>
      ⟨fun hn => evaluate_plain turns nesting hn h, fun hn => execute_plain turns nesting hn h⟩⟩
  · intro after hid hc
    have hnew := ((Effect.Does.inherited capturesNew_lawful).atop turns nesting).1 ∅ n m
    rcases hnew.made id c hid hc with h | ⟨-, hne⟩
    · exact h
    · exact absurd hne Set.not_nonempty_empty

/-- The global scope binds two functions, each of which flips a variable `on` of its own. -/
def Machine.switches : Machine :=
  let on : Token := ⟨.identifier, "on", .string "on", 1⟩
  let flip : Nat → Closure := fun scope =>
    ⟨⟨.identifier, "flip", .string "flip", 1⟩, [],
      [.exprStmt (.assign on (.unary ⟨.bang, "!", .nil, 1⟩ (.ident on)))], scope⟩
  { store :=
      ⟨#[⟨none, [("a", .function ⟨0, "flip", 0⟩), ("b", .function ⟨1, "flip", 0⟩)]⟩,
        ⟨some 0, [("on", .bool true)]⟩, ⟨some 0, [("on", .bool false)]⟩], #[flip 1, flip 2]⟩
    scope := 0
    output := ""
    traceLevel := 0
    trace := #[]
    clock := fun _ => 0
    readings := 0 }

/-- Whoever only speaks of the first function cannot change what the second one captured. -/
theorem confined_to_reachable_switches :
    Machine.switches.store.Region {"a", "on"} {0, 1} ∧ Machine.switches.scope ∈ ({0, 1} : Set Nat) ∧
      Machine.switches.Confines {"a", "on"} {0, 1} := by
  have hscope : Machine.switches.scope ∈ ({0, 1} : Set Nat) := .inl rfl
  have hregion : Machine.switches.store.Region {"a", "on"} {0, 1} := by
    refine ⟨?_, ?_⟩
    · rintro i p here (rfl | rfl) hhere hp <;> cases hhere <;> cases hp
      exact .inl rfl
    · rintro i here x v (rfl | rfl) hhere (rfl | rfl) hv <;> cases hhere <;> cases hv
      · -- The scope of the function is the one with its variable.
        rintro f ⟨⟩ c ⟨⟩
        refine ⟨.inr rfl, fun n hn => ?_⟩
        obtain rfl := List.mem_singleton.1 hn
        have named : ∀ r, (Likeness.naming {"a", "on"}).token r ⟨.identifier, "on", .string "on", 1⟩
            ⟨.identifier, "on", .string "on", 1⟩ := fun _ => ⟨rfl, fun _ => .inr rfl⟩
        exact .exprStmt (.assign (named _) (.unary ⟨rfl, by simp⟩ (.ident (named _))))
      · rintro f ⟨⟩
  exact ⟨hregion, hscope, confined_to_reachable.2.2.2.1 _ _ _ hregion hscope⟩

end LoxLang
