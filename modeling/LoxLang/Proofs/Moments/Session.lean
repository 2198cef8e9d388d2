import LoxLang.Proofs.Moments.Rooted
import LoxLang.Proofs.Scoping.Chains
/-!
# Chains at every moment of a session

The moments of a session are those of all that its steps run, in order. As each of them is a single
step from the one before, at every moment the chain of every scope ends in the global one, and what
is found from a scope at one moment is found from it ever after.
-/

namespace LoxLang

/-- The chain of a scope comes to an end, passes no scope twice, and leads to the global one. -/
def Store.RootedAt (s : Store) (i : Nat) : Prop :=
  ∃ is, s.ChainOf i is ∧ is.Nodup ∧ is.getLast? = some Session.globals

/-- A name is found from a scope. -/
def Store.Knows (s : Store) (i : Nat) (x : String) : Prop :=
  ∃ j v, s.resolve x s.room i = .found j v

/-! ## Chains -/

namespace Store

variable {s s' : Store} {i : Nat} {is : List Nat} {x : String}

/-- A scope that binds a name itself is where the name is found. -/
theorem resolve_of_names {here : Scope} (hi : s.scopes[i]? = some here) (hx : x ∈ here.names)
    (room : Nat) : ∃ v, s.resolve x (room + 1) i = .found i v := by
  obtain ⟨v, hv⟩ := Option.isSome_iff_exists.1 hx
  exact ⟨v, by rw [resolve_succ hi, hv]⟩

/-- A name that a scope does not bind itself means what it means in the enclosing one. -/
theorem resolve_of_parent {here : Scope} {p : Nat} (hi : s.scopes[i]? = some here)
    (hx : x ∉ here.names) (hp : here.parent = some p) (room : Nat) :
    s.resolve x (room + 1) i = s.resolve x room p := by
  rw [resolve_succ hi, Option.not_isSome_iff_eq_none.1 hx, hp]

end Store

namespace Machine

variable {m m' : Machine} {x : String}

theorem Rooted.rootedAt (h : m.Rooted) {i : Nat} (hi : i < m.store.scopes.size) :
    m.store.RootedAt i := by
  have ordered := h.wellScoped.ordered
  have chain : ∃ is, m.store.ChainOf i is ∧ is.getLast? = some Session.globals := by
    induction i using Nat.strongRecOn with
    | ind i ih =>
      have hhere := Array.getElem?_eq_getElem hi
      cases hp : m.store.scopes[i].parent with
      | none =>
        obtain rfl : i = Session.globals := (h.root i _ hhere).1 hp
        exact ⟨_, .outermost hhere hp, rfl⟩
      | some p =>
        have hlt := ordered i _ p hhere hp
        obtain ⟨is, his, hlast⟩ := ih p hlt (Nat.lt_trans hlt hi)
        refine ⟨i :: is, .within hhere hp his, ?_⟩
        rw [List.getLast?_cons, hlast]
        rfl
  obtain ⟨is, his, hlast⟩ := chain
  exact ⟨is, his, his.nodup ordered, hlast⟩

/-- What is found from a scope is found from it later, if there is room enough for the chain. -/
theorem Later.resolve (hl : m.Later m') (ho : m.store.Ordered) {room room' i j : Nat} {v : Value}
    (hr : i < room') (h : m.store.resolve x room i = .found j v) :
    ∃ j' v', m'.store.resolve x room' i = .found j' v' := by
  induction room generalizing i room' with
  | zero => cases h
  | succ room ih =>
    obtain ⟨room', rfl⟩ := Nat.exists_eq_add_of_lt hr
    cases hi : m.store.scopes[i]? with
    | none =>
      rw [Store.resolve, hi] at h
      cases h
    | some here =>
      obtain ⟨here', hi', hparent, hkept, -⟩ := hl i here hi
      by_cases hx' : x ∈ here'.names
      · obtain ⟨v', hv'⟩ := Store.resolve_of_names hi' hx' (i + room')
        exact ⟨i, v', hv'⟩
      · have hx : x ∉ here.names := fun hx => hx' (hkept hx)
        cases hp : here.parent with
        | none =>
          rw [Store.resolve_succ hi, Option.not_isSome_iff_eq_none.1 hx, hp] at h
          cases h
        | some p =>
          -- The name is bound further out, and the enclosing scope is the same.
          have hlt := ho i here p hi hp
          rw [Store.resolve_of_parent hi hx hp] at h
          rw [Store.resolve_of_parent hi' hx' (hparent.trans hp)]
          exact ih (by omega) h

theorem Later.knows (hl : m.Later m') (hm : m.Rooted) {i : Nat} (h : m.store.Knows i x) :
    m'.store.Knows i x := by
  obtain ⟨j, v, hv⟩ := h
  have hi : i < m.store.scopes.size := by
    by_contra hge
    rw [Store.room, Store.resolve, Array.getElem?_eq_none (Nat.le_of_not_lt hge)] at hv
    cases hv
  exact hl.resolve hm.wellScoped.ordered (Nat.lt_succ_of_lt (Nat.lt_of_lt_of_le hi hl.size_le)) hv

/-- What the global scope knows is known in all scopes. -/
theorem Rooted.knows (hm : m.Rooted) (h : m.store.Knows Session.globals x) {i : Nat}
    (hi : i < m.store.scopes.size) : m.store.Knows i x := by
  have found : ∀ room, i < room → ∃ j v, m.store.resolve x room i = .found j v := by
    induction i using Nat.strongRecOn with
    | ind i ih =>
      intro room hr
      obtain ⟨room, rfl⟩ := Nat.exists_eq_add_of_lt hr
      have hhere := Array.getElem?_eq_getElem hi
      by_cases hx : x ∈ m.store.scopes[i].names
      · obtain ⟨v, hv⟩ := Store.resolve_of_names hhere hx (i + room)
        exact ⟨i, v, hv⟩
      · cases hp : m.store.scopes[i].parent with
        | none =>
          obtain rfl : i = Session.globals := (hm.root i _ hhere).1 hp
          obtain ⟨j, v, hv⟩ := h
          exact Later.resolve (.of_store rfl) hm.wellScoped.ordered hr hv
        | some p =>
          have hlt := hm.wellScoped.ordered i _ p hhere hp
          rw [Store.resolve_of_parent hhere hx hp]
          exact ih p hlt (Nat.lt_trans hlt hi) (i + room) (by omega)
  exact found m.store.room (Nat.lt_succ_of_lt hi)

end Machine

/-! ## Moments -/

/-- The watched layer of a run. -/
def Limits.watched (l : Limits) : Layer Watched := .atop l.turns l.nesting

namespace Session

open Machine Watched

/-- The moments of statements at top level. -/
def interpretMoments (layer : Layer Watched) (m : Machine) : List Node → List Machine
  | [] => []
  | n :: ns =>
    (topLevel layer n).moments m ++
      match (topLevel layer n).run m with
      | .ok .normal m => interpretMoments layer m ns
      | _ => []

/-- The moments of a job. -/
def Job.moments (l : Limits) (m : Machine) : Job → List Machine
  | nothing => []
  | interpret ns => interpretMoments l.watched m ns
  | evaluate n => (l.watched.evaluate n).moments m
  | execute n => (l.watched.execute n).moments m

/-- The machines that a session passes through in some steps, the first one left out. -/
def moments (s : Session) : List Step → List Machine
  | [] => []
  | step :: steps => (s.job step).moments s.limits s.machine ++ (s.step step).1.moments steps

variable {m : Machine}

theorem evaluate_trail (l : Limits) (n : Node) (hm : m.Rooted) :
    Trail m ((l.watched.evaluate n).moments m) (machineOf (l.layer.evaluate n m)) := by
  have same : (l.watched.evaluate n).run m = l.layer.evaluate n m :=
    (Watched.atop_run l.turns l.nesting).evaluate n m
  rw [← same]
  exact (Keeps.atop l.turns l.nesting).1 n m hm

theorem execute_trail (l : Limits) (n : Node) (hm : m.Rooted) :
    Trail m ((l.watched.execute n).moments m) (machineOf (l.layer.execute n m)) := by
  have same : (l.watched.execute n).run m = l.layer.execute n m :=
    (Watched.atop_run l.turns l.nesting).execute n m
  rw [← same]
  exact (Keeps.atop l.turns l.nesting).2 n m hm

theorem run_topLevel (l : Limits) (n : Node) :
    (topLevel l.watched n).run m = topLevel l.layer n m :=
  parametric_run.topLevel (Watched.atop_run l.turns l.nesting) n

theorem topLevel_trail (l : Limits) (n : Node) (hm : m.Rooted) :
    Trail m ((topLevel l.watched n).moments m) (machineOf (topLevel l.layer n m)) := by
  rw [← run_topLevel]
  exact Keeps.bind (.record _) (fun _ => (Keeps.atop l.turns l.nesting).2 n) m hm

theorem interpret_trail (l : Limits) (d : Diagnostics) (ns : List Node) (hm : m.Rooted) :
    Trail m (interpretMoments l.watched m ns) (interpretWith l.layer m d ns).1 := by
  induction ns generalizing m with
  | nil => exact .here m
  | cons n ns ih =>
    have hn := topLevel_trail l n hm
    unfold interpretMoments interpretWith
    rw [run_topLevel]
    cases hr : topLevel l.layer n m with
    | ok c m' =>
      rw [hr] at hn
      cases c with
      | normal => exact hn.append (ih (hn.rooted hm))
      | returned => exact hn.append (.here m')
    | error e m' =>
      rw [hr] at hn
      exact hn.append (.here m')

/-- The moments of a session lead to its machine. -/
theorem moments_trail (s : Session) (steps : List Step) (hm : s.machine.Rooted) :
    Trail s.machine (s.moments steps) (s.after steps).machine := by
  induction steps generalizing s with
  | nil => exact .here _
  | cons step steps ih =>
    have hstep : Trail s.machine ((s.job step).moments s.limits s.machine) (s.step step).1.machine := by
      rw [step_machine]
      cases s.job step with
      | nothing => exact .here _
      | interpret ns => exact interpret_trail s.limits _ ns hm
      | evaluate n => exact evaluate_trail s.limits n hm
      | execute n => exact execute_trail s.limits n hm
    exact hstep.append (ih _ (hstep.rooted hm))

theorem new_rooted (limits : Limits) (traceLevel : Nat) (clock : Nat → Float) :
    (new limits traceLevel clock).machine.Rooted where
  wellScoped := new_wellScoped limits traceLevel clock
  root := by
    intro i here hi
    have one : (new limits traceLevel clock).machine.store.scopes.size = 1 := rfl
    have hlt : i < 1 := one ▸ (Array.getElem?_eq_some_iff.1 hi).1
    obtain rfl : i = globals := Nat.lt_one_iff.1 hlt
    cases hi
    exact ⟨fun _ => rfl, fun _ => rfl⟩

theorem new_knows (limits : Limits) (traceLevel : Nat) (clock : Nat → Float) (n : Native) :
    (new limits traceLevel clock).machine.store.Knows globals n.name := by
  cases n <;> exact ⟨_, _, rfl⟩

end Session

/-- In whatever scope the machine is, reading the variable gives a value, and assigning to it works. -/
def Machine.Defines (m : Machine) (t : Token) : Prop :=
  ∀ i < m.store.scopes.size,
    (∃ v, Run.lookup t { m with scope := i } = .ok v { m with scope := i }) ∧
      ∀ v, ∃ n, Run.assign t v { m with scope := i } = .ok () n

theorem Machine.Rooted.defines {m : Machine} (hm : m.Rooted) {t : Token}
    (h : m.store.Knows Session.globals t.lexeme) : m.Defines t := by
  intro i hi
  obtain ⟨j, v, hv⟩ := hm.knows h hi
  refine ⟨⟨v, ?_⟩, fun v' => ?_⟩
  · rw [Run.lookup_eq, hv]
  · rw [Run.assign_eq, hv]
    exact ⟨_, rfl⟩

/-- Whatever a new session is asked to do: its machine passes through moments that are single steps
apart, up to the machine that the session ends with. At each of them the chains of the current
scope, of the scopes of all functions, and of all other scopes come to an end in the global scope
and pass no scope twice. What is found from a scope at one moment is found from it at all later
ones. A name that is global at a moment, or that of a native, can be read and assigned from every
scope then and ever after. -/
theorem Session.chains_rooted (limits : Limits) (traceLevel : Nat) (clock : Nat → Float)
    (steps : List Step) :
    let s := Session.new limits traceLevel clock
    let moments := s.machine :: s.moments steps
    moments.IsChain Machine.Single ∧ moments.getLast? = some (s.after steps).machine ∧
    (∀ m ∈ moments, m.store.RootedAt m.scope ∧ (∀ c ∈ m.store.closures, m.store.RootedAt c.scope) ∧
      ∀ i < m.store.scopes.size, m.store.RootedAt i) ∧
    ∀ (k k' : Nat) (m m' : Machine), k ≤ k' → moments[k]? = some m → moments[k']? = some m' →
      (∀ i x, m.store.Knows i x → m'.store.Knows i x) ∧
      ∀ t : Token, (t.lexeme ∈ Native.all.map Native.name ∨ m.store.Knows globals t.lexeme) →
        m'.Defines t := by
  intro s moments
  have hnew : s.machine.Rooted := new_rooted limits traceLevel clock
  have trail := moments_trail s steps hnew
  refine ⟨trail.isChain, trail.getLast?, fun m hmem => ?_, fun k k' m m' hle hk hk' => ?_⟩
  · have hm := trail.all_rooted hnew m hmem
    exact ⟨hm.rootedAt hm.wellScoped.scope, fun c hc => hm.rootedAt (hm.wellScoped.closures c hc),
      fun i hi => hm.rootedAt hi⟩
  · have hm := trail.all_rooted hnew m (List.mem_of_getElem? hk)
    have hm' := trail.all_rooted hnew m' (List.mem_of_getElem? hk')
    have hknows : ∀ i x, m.store.Knows i x → m'.store.Knows i x :=
      fun i x => (trail.later_of_le hle hk hk').knows hm
    refine ⟨hknows, fun t ht => hm'.defines (hknows _ _ ?_)⟩
    rcases ht with ht | ht
    · obtain ⟨n, -, hn⟩ := List.mem_map.1 ht
      rw [← hn]
      exact (trail.later_of_le k.zero_le rfl hk).knows hnew (new_knows limits traceLevel clock n)
    · exact ht

end LoxLang
