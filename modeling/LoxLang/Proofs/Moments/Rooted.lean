import LoxLang.Proofs.Moments.Basic
import LoxLang.Proofs.Effects.Names
import LoxLang.Proofs.Scoping.WellScoped
/-!
# Machines whose chains are rooted

Every scope of a rooted machine but the global one lies in another. Each single step of a run keeps
a machine rooted, leaves every scope in its place, and takes no name from a scope. So at no moment
of a run is a chain cut, and what could be found before is still found.
-/

namespace LoxLang

/-- A single step of a machine, as far as scopes go. -/
inductive Machine.Single (m : Machine) : Machine → Prop
  /-- Printing, tracing and reading the clock, or nothing at all. -/
  | aside {m' : Machine} : m'.store = m.store → m'.scope = m.scope → Single m m'
  /-- A scope is entered, or one that was left before. -/
  | move {i : Nat} : i < m.store.scopes.size → Single m { m with scope := i }
  | define (i : Nat) (x : String) (v : Value) :
    Single m { m with store := m.store.define i x v }
  | makeFunction (t : Token) (ps : List Token) (ns : List Node) :
    Single m { m with store := (m.store.makeFunction ⟨t, ps, ns, m.scope⟩).2 }
  /-- A scope is made in one that is there. -/
  | openScope {s : Scope} {p : Nat} : s.parent = some p → p < m.store.scopes.size →
    Single m { m with store := (m.store.openScope s).2 }

/-- A scope lies in no other exactly if it is the global one. -/
structure Machine.Rooted (m : Machine) : Prop where
  wellScoped : m.WellScoped
  root : ∀ (i : Nat) (here : Scope), m.store.scopes[i]? = some here →
    (here.parent = none ↔ i = Session.globals)

/-- Every scope of an earlier machine has kept its place and its names. -/
def Machine.Later (m m' : Machine) : Prop :=
  ∀ (i : Nat) (here : Scope), m.store.scopes[i]? = some here →
    here.Gains Set.univ m'.store.scopes[i]?

namespace Machine

variable {m m' m'' : Machine}

namespace Later

theorem of_store (h : m'.store = m.store) : m.Later m' := by
  intro i here hi
  rw [h, hi]
  exact .refl here _

theorem trans (h : m.Later m') (h' : m'.Later m'') : m.Later m'' :=
  fun i here hi => (h i here hi).trans (h' i)

/-- No scope is lost. -/
theorem size_le (h : m.Later m') : m.store.scopes.size ≤ m'.store.scopes.size := by
  by_contra hlt
  rw [Nat.not_le] at hlt
  obtain ⟨here', h', -⟩ := h m'.store.scopes.size _ (Array.getElem?_eq_getElem hlt)
  rw [Array.getElem?_eq_none (Nat.le_refl _)] at h'
  cases h'

end Later

/-- A single step leaves every scope in its place and takes no name from one. -/
theorem Single.later (h : m.Single m') : m.Later m' := by
  cases h with
  | aside hs => exact .of_store hs
  | move => exact .of_store rfl
  | define i x v => exact fun _ _ hj => (Scope.Gains.define hj i x v).mono (Set.subset_univ _)
  | makeFunction =>
    exact fun _ here hi => ⟨here, hi, rfl, subset_rfl, Set.subset_union_left⟩
  | openScope =>
    intro i here hi
    exact ⟨here, Store.openScope_kept hi, rfl, subset_rfl, Set.subset_union_left⟩

namespace Rooted

theorem define (h : m.Rooted) (i : Nat) (x : String) (v : Value) :
    Rooted { m with store := m.store.define i x v } where
  wellScoped := by
    have hsize : (m.store.define i x v).scopes.size = m.store.scopes.size := Array.size_modify
    exact ⟨hsize ▸ h.wellScoped.scope, h.wellScoped.ordered.define i x v, hsize ▸ h.wellScoped.closures⟩
  root := by
    intro j here hj
    have hj : (m.store.define i x v).scopes[j]? = some here := hj
    rw [Store.getElem?_define] at hj
    split at hj
    · obtain ⟨before, hb, rfl⟩ := Option.map_eq_some_iff.1 hj
      exact h.root j before hb
    · exact h.root j here hj

theorem openScope (h : m.Rooted) {s : Scope} {p : Nat} (hs : s.parent = some p)
    (hp : p < m.store.scopes.size) : Rooted { m with store := (m.store.openScope s).2 } where
  wellScoped := by
    have hsize : (m.store.openScope s).2.scopes.size = m.store.scopes.size + 1 := Array.size_push s
    refine ⟨?_, h.wellScoped.ordered.openScope fun q hq => ?_, fun c hc => ?_⟩
    · rw [hsize]
      exact Nat.lt_succ_of_lt h.wellScoped.scope
    · rw [hs] at hq
      cases hq
      exact hp
    · rw [hsize]
      exact Nat.lt_succ_of_lt (h.wellScoped.closures c hc)
  root := by
    intro i here hi
    have hi : (m.store.openScope s).2.scopes[i]? = some here := hi
    rw [Store.getElem?_openScope] at hi
    split at hi
    · next hsize =>
      -- The new scope is not the first one, as there is one that it lies in.
      cases hi
      have hne : i ≠ Session.globals := hsize ▸ Nat.ne_of_gt (Nat.zero_lt_of_lt hp)
      simp [hs, hne]
    · exact h.root i here hi

end Rooted

/-- A single step keeps the chains rooted. -/
theorem Single.rooted (h : m.Single m') (hm : m.Rooted) : m'.Rooted := by
  obtain ⟨⟨hscope, hordered, hclosures⟩, hroot⟩ := id hm
  cases h with
  | aside hs hc => exact ⟨⟨hs ▸ hc ▸ hscope, hs ▸ hordered, hs ▸ hclosures⟩, hs ▸ hroot⟩
  | move hi => exact ⟨⟨hi, hordered, hclosures⟩, hroot⟩
  | define i x v => exact hm.define i x v
  | makeFunction t ps ns =>
    refine ⟨⟨hscope, hordered, fun c hc => ?_⟩, hroot⟩
    rcases Array.mem_push.1 hc with hc | rfl
    · exact hclosures c hc
    · exact hscope
  | openScope hs hp => exact hm.openScope hs hp

/-! ## Trails -/

/-- Machines on the way from one to another, each of them a single step from the one before. -/
inductive Trail : Machine → List Machine → Machine → Prop
  | here (m : Machine) : Trail m [] m
  | on {m k n : Machine} {ks : List Machine} : m.Single k → Trail k ks n → Trail m (k :: ks) n

namespace Trail

variable {ks ks' : List Machine}

theorem one (h : m.Single m') : Trail m [m'] m' := .on h (.here m')

theorem append (h : Trail m ks m') (h' : Trail m' ks' m'') : Trail m (ks ++ ks') m'' := by
  induction h with
  | here => exact h'
  | on hk _ ih => exact .on hk (ih h')

theorem rooted (h : Trail m ks m') (hm : m.Rooted) : m'.Rooted := by
  induction h with
  | here => exact hm
  | on hk _ ih => exact ih (hk.rooted hm)

theorem later (h : Trail m ks m') : m.Later m' := by
  induction h with
  | here m => exact .of_store rfl
  | on hk _ ih => exact hk.later.trans ih

theorem all_rooted (h : Trail m ks m') (hm : m.Rooted) : ∀ k ∈ m :: ks, k.Rooted := by
  induction h with
  | here => exact List.forall_mem_singleton.2 hm
  | on hk _ ih => exact List.forall_mem_cons.2 ⟨hm, ih (hk.rooted hm)⟩

/-- Of any two moments the second is later than the first. -/
theorem later_of_le (h : Trail m ks m') {i j : Nat} {k k' : Machine} (hij : i ≤ j)
    (hi : (m :: ks)[i]? = some k) (hj : (m :: ks)[j]? = some k') : k.Later k' := by
  induction h generalizing i j k with
  | here m =>
    obtain rfl : k = m := List.mem_singleton.1 (List.mem_of_getElem? hi)
    obtain rfl : k' = k := List.mem_singleton.1 (List.mem_of_getElem? hj)
    exact .of_store rfl
  | on hs _ ih =>
    cases j with
    | zero =>
      obtain rfl := Nat.le_zero.1 hij
      cases hi
      cases hj
      exact .of_store rfl
    | succ j =>
      cases i with
      | zero =>
        cases hi
        exact hs.later.trans (ih j.zero_le rfl hj)
      | succ i => exact ih (Nat.le_of_succ_le_succ hij) hi hj

theorem isChain (h : Trail m ks m') : (m :: ks).IsChain Single := by
  induction h with
  | here m => exact .singleton m
  | on hs _ ih => exact .cons_cons hs ih

/-- The trail ends where it leads to. -/
theorem getLast? (h : Trail m ks m') : (m :: ks).getLast? = some m' := by
  induction h with
  | here => rfl
  | on _ _ ih => rw [List.getLast?_cons_cons, ih]

end Trail

end Machine

/-! ## Runs -/

namespace Watched

open Machine

variable {α β : Type} {x : Watched α} {f : α → Watched β} {m : Machine}

/-- The moments of a run lead from a machine to the one that it leaves, by single steps. -/
def LeadsFrom (m : Machine) (x : Watched α) : Prop := Trail m (x.moments m) (machineOf (x.run m))

/-- From any machine that is rooted, the moments of the run are single steps. -/
def Keeps (x : Watched α) : Prop := ∀ m : Machine, m.Rooted → LeadsFrom m x

theorem LeadsFrom.bind (hm : m.Rooted) (hx : LeadsFrom m x) (hf : ∀ a, (f a).Keeps) :
    LeadsFrom m (x >>= f) := by
  have hn := hx.rooted hm
  unfold LeadsFrom at *
  change Trail m (x.moments m ++ goingOn f (x.run m)) (machineOf (EStateM.bind x.run _ m))
  unfold EStateM.bind
  cases hr : x.run m with
  | ok a n =>
    rw [hr] at hx hn
    exact hx.append (hf a n hn)
  | error e n =>
    rw [hr] at hx
    exact hx.append (.here n)

/-- A run in a new scope that lies in one that is there. -/
theorem LeadsFrom.inside (hm : m.Rooted) {s : Scope} {p : Nat} (hs : s.parent = some p)
    (hp : p < m.store.scopes.size) (hx : x.Keeps) : LeadsFrom m (Watched.inside s x) := by
  have opened : m.Single { m with store := (m.store.openScope s).2 } := .openScope hs hp
  have entered : Single { m with store := (m.store.openScope s).2 } (m.inScope s) :=
    .move (Nat.lt_of_lt_of_eq (Nat.lt_succ_self _) (Array.size_push s).symm)
  have hin := entered.rooted (opened.rooted hm)
  have body : Trail (m.inScope s) (x.moments (m.inScope s)) (machineOf (x.run (m.inScope s))) :=
    hx _ hin
  -- When the run is left, the scope that it came from is still there.
  have hsize := (opened.later.trans (entered.later.trans body.later)).size_le
  have left : Single (machineOf (x.run (m.inScope s))) (machineOf (Run.inside s x.run m)) := by
    have same : machineOf (Run.inside s x.run m) =
        { machineOf (x.run (m.inScope s)) with scope := m.scope } := by
      rw [Run.inside_eq]
      cases x.run (m.inScope s) <;> rfl
    rw [same]
    exact .move (Nat.lt_of_lt_of_le hm.wellScoped.scope hsize)
  exact .on opened (.on entered (body.append (.one left)))

namespace Keeps

protected theorem pure (a : α) : (Pure.pure a : Watched α).Keeps := fun m _ => .here m

protected theorem bind (hx : x.Keeps) (hf : ∀ a, (f a).Keeps) : (x >>= f).Keeps :=
  fun m hm => (hx m hm).bind hm hf

theorem reading {f : Machine → Watched α} (h : ∀ m, m.Rooted → LeadsFrom m (f m)) :
    (Watched.reading f).Keeps := h

theorem catchOverflow (t : Token) (h : x.Keeps) : (Watched.catchOverflow t x).Keeps := by
  intro m hm
  have hx := h m hm
  unfold LeadsFrom at *
  change Trail m (x.moments m) (machineOf (Run.catchOverflow t x.run m))
  rw [Run.catchOverflow_eq]
  cases hr : x.run m <;> rw [hr] at hx <;> exact hx

/-! ### Single steps -/

theorem step {x : Run α} (h : ∀ m : Machine, m.Single (machineOf (x m))) :
    (Watched.step x).Keeps :=
  fun m _ => .one (h m)

/-- A step that has nothing to do with scopes. -/
theorem aside {x : Run α} (hs : ∀ m, (machineOf (x m)).store = m.store)
    (hc : ∀ m, (machineOf (x m)).scope = m.scope) : (Watched.step x).Keeps :=
  step fun m => .aside (hs m) (hc m)

theorem record (e : TraceEvent) : (Watched.step (Run.record e)).Keeps := by
  refine aside (fun m => ?_) fun m => ?_ <;> obtain ⟨trace, h⟩ := Run.record_eq e m <;>
    rw [h] <;> rfl

theorem isStep {x : Run α} (h : x.IsStep) : (Watched.step x).Keeps := by
  cases h with
  | lookup t => refine aside (fun m => ?_) fun m => ?_ <;> rw [Run.lookup_eq] <;> split <;> rfl
  | assign t v =>
    refine step fun m => ?_
    rw [Run.assign_eq]
    split
    · exact .define _ _ _
    · exact .aside rfl rfl
    · exact .aside rfl rfl
  | define x v => exact step fun m => .define m.scope x v
  | makeFunction t ps ns => exact step fun _ => .makeFunction t ps ns
  | record => exact record _
  | _ => exact aside (fun _ => rfl) fun _ => rfl

/-! ### Trees -/

/-- Evaluation puts single steps together, and enters scopes only that lie in one that is there. -/
theorem parametric : Parametric (M := Watched) (N := Run) fun m x _ => m.Rooted → LeadsFrom m x where
  pure _ _ := .here _
  bind hx hf hm := (hx hm).bind hm fun a n hn => hf a n hn
  step hx hm := Keeps.isStep hx _ hm
  reading h hm := h hm
  inside hs hx hm := by
    rcases hs with hs | ⟨c, hc, hs⟩
    · exact LeadsFrom.inside hm hs hm.wellScoped.scope hx
    · exact LeadsFrom.inside hm hs (hm.wellScoped.closures c hc) hx
  traced callee vs t hx hm :=
    Keeps.bind (record _) (fun _ => .bind (catchOverflow t hx) fun _ => .bind (record _) fun _ => .pure _)
      _ hm

/-- Whatever tree is run, the machine is rooted at every moment. -/
theorem atop (turns nesting : Nat) :
    (∀ n, ((Layer.atop turns nesting : Layer Watched).evaluate n).Keeps) ∧
      ∀ n, ((Layer.atop turns nesting : Layer Watched).execute n).Keeps :=
  ⟨(parametric.atop turns nesting).evaluate, (parametric.atop turns nesting).execute⟩

end Keeps

end Watched

end LoxLang
