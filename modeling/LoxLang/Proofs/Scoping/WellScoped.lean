import LoxLang.Proofs.Effects.Session
import LoxLang.Proofs.Scoping.InStep
import LoxLang.Proofs.Scoping.Stays
/-!
# Machines whose scopes are all there

In a machine that a program has been running on, every scope lies in an older one, and all scopes
that are spoken of exist. Such a machine is linked with itself.
-/

namespace LoxLang

/-- The current scope and those of the functions exist, and every scope lies in an older one. -/
structure Machine.WellScoped (m : Machine) : Prop where
  scope : m.scope < m.store.scopes.size
  ordered : m.store.Ordered
  closures : ∀ c ∈ m.store.closures, c.scope < m.store.scopes.size

theorem Placing.getElem?_identity {size i : Nat} (h : i < size) :
    (identity size)[i]? = some (i, true) := by
  rw [identity, List.getElem?_map, List.getElem?_range h]
  rfl

theorem Placing.of_getElem?_identity {size i : Nat} {place : Nat × Bool}
    (h : (identity size)[i]? = some place) : i < size ∧ place = (i, true) := by
  have hlt : i < size := by
    have := (List.getElem?_eq_some_iff.1 h).1
    simpa [identity] using this
  rw [getElem?_identity hlt] at h
  cases h
  exact ⟨hlt, rfl⟩

/-- The scopes that both machines had from the start are the same. -/
theorem Machine.Linked.scopes_eq {l : Likeness} {size : Nat} {w : Placing} {n n' : Machine}
    (h : n.Linked l w n') (hw : Placing.identity size <+: w) {i : Nat} (hi : i < size) :
    n.store.scopes[i]? = n'.store.scopes[i]? := by
  obtain ⟨here, here', hh, hh', hb, hp⟩ :=
    h.store.own (Placing.kept hw (Placing.getElem?_identity hi))
  obtain ⟨parent, bindings⟩ := here
  obtain ⟨parent', bindings'⟩ := here'
  obtain rfl : bindings = bindings' := hb
  have hparent : parent = parent' := by
    cases hp with
    | outermost => rfl
    | @within p p' hplace =>
      have hlt : p < i := h.store.ordered i _ p hh rfl
      obtain ⟨own, hplace⟩ := hplace
      rw [Placing.kept hw (Placing.getElem?_identity (Nat.lt_trans hlt hi))] at hplace
      cases hplace
      rfl
  rw [hh, hh', hparent]

namespace Machine.WellScoped

variable {l : Likeness} {m : Machine}

theorem linked_self (hl : l.Reflexive) (h : m.WellScoped) :
    m.Linked l (.identity m.store.scopes.size) m := by
  refine ⟨⟨by simp [Placing.identity], ?_, ?_, ?_, h.ordered, h.ordered, ?_⟩, rfl, rfl, rfl, rfl, rfl⟩
  · intro i i' hi
    obtain ⟨hlt, e⟩ := Placing.of_getElem?_identity hi
    cases e
    refine ⟨m.store.scopes[i], m.store.scopes[i], Array.getElem?_eq_getElem hlt,
      Array.getElem?_eq_getElem hlt, rfl, ?_⟩
    cases hp : m.store.scopes[i].parent with
    | none => exact .outermost
    | some p =>
      have hlt' := h.ordered i _ p (Array.getElem?_eq_getElem hlt) hp
      exact .within ⟨true, Placing.getElem?_identity (Nat.lt_trans hlt' hlt)⟩
  · intro i i' hi
    cases (Placing.of_getElem?_identity hi).2
  · intro i j k hi hj
    cases (Placing.of_getElem?_identity hi).2
    cases (Placing.of_getElem?_identity hj).2
    rfl
  · refine List.forall₂_same.2 fun c hc => ⟨hl.token _ _, ?_, ?_, true, ?_⟩
    · exact List.forall₂_same.2 fun p _ => hl.token _ p
    · exact List.forall₂_same.2 fun n _ => (Node.alike_self hl n).2
    · exact Placing.getElem?_identity (h.closures c (Array.mem_toList_iff.1 hc))

theorem machines_self (hl : l.Reflexive) (h : m.WellScoped) (slack : Slack) (strict : Prop)
    (b : Bool) : (linked l slack strict).machines (.identity m.store.scopes.size) b m m :=
  ⟨h.linked_self hl, ⟨true, Placing.getElem?_identity h.scope, fun _ => rfl⟩, fun _ => rfl⟩

/-- What is linked with anything is well scoped. -/
theorem of_machines {slack : Slack} {strict : Prop} {w : Placing} {b : Bool} {m' : Machine}
    (h : (linked l slack strict).machines w b m m') : m.WellScoped := by
  obtain ⟨hm, ⟨own, hs, -⟩, -⟩ := h
  refine ⟨(hm.store.inside ⟨own, hs⟩).1, hm.store.ordered, fun c hc => ?_⟩
  obtain ⟨id, hid⟩ := Array.getElem?_of_mem hc
  rcases hm.store.closure id with ⟨hn, -⟩ | ⟨c', _, hc', -, hcc⟩
  · rw [hn] at hid
    cases hid
  · rw [hid] at hc'
    cases hc'
    exact (hm.store.inside hcc.scope).1

end Machine.WellScoped

/-- Trees that are the same. -/
def Likeness.same : Likeness where
  token _ t t' := t = t'
  literal _ := True
  misplaced := True

theorem Likeness.same_faithful : Likeness.same.Faithful := by
  rintro r t _ rfl
  exact ⟨rfl, rfl⟩

theorem Likeness.same_reflexive : Likeness.same.Reflexive := ⟨fun _ _ => rfl, fun _ => trivial, trivial⟩

/-! ## Runs -/

namespace Machine.WellScoped

variable {m : Machine}

theorem of_ends {α : Type} {w : Placing} {b : Bool} {Q : Placing → α → α → Prop}
    {r : EStateM.Result Fault Machine α} (h : (linked .same .none False).Ends w b Q r r) :
    (machineOf r).WellScoped := by
  cases r with
  | ok a n =>
    obtain ⟨w', -, hn, -⟩ := h
    exact of_machines hn
  | error e n =>
    rcases h with (⟨hs, -⟩ | ⟨hs, -⟩) | ⟨-, w', -, hn⟩
    · cases hs
    · cases hs
    · exact of_machines hn

theorem inStep (l : Limits) : (linked .same .none False).LayersInStep l.layer l.layer := by
  have hD : (linked .same .none False).Lawful := Linked.lawful Likeness.same_faithful
  exact Correspondence.layersInStep hD (rfl : l.turns = l.turns) _ _ (rfl : l.nesting = l.nesting)

theorem evaluate (h : m.WellScoped) (l : Limits) (n : Node) :
    (machineOf (l.layer.evaluate n m)).WellScoped :=
  of_ends ((inStep l).evaluate (Node.alike_self Likeness.same_reflexive n).1 m m
    (h.machines_self Likeness.same_reflexive _ _ true))

theorem execute (h : m.WellScoped) (l : Limits) (n : Node) :
    (machineOf (l.layer.execute n m)).WellScoped :=
  of_ends ((inStep l).execute (Node.alike_self Likeness.same_reflexive n).2 m m
    (h.machines_self Likeness.same_reflexive _ _ true))

end Machine.WellScoped

/-! ## Sessions -/

theorem Store.ordered_defineNatives {s : Store} (h : s.Ordered) (i : Nat) :
    (s.defineNatives i).Ordered := by
  have kept : ∀ (ns : List Native) (s : Store), s.Ordered →
      (ns.foldl (fun s n => s.define i n.name (.native n)) s).Ordered := by
    intro ns
    induction ns with
    | nil => exact fun _ h => h
    | cons n ns ih => exact fun s h => ih _ (h.define i n.name (.native n))
  exact kept Native.all s h

namespace Session

theorem new_wellScoped (limits : Limits) (traceLevel : Nat) (clock : Nat → Float) :
    (new limits traceLevel clock).machine.WellScoped where
  scope := by
    change 0 < ((Store.empty.openScope ⟨none, []⟩).2.defineNatives globals).scopes.size
    decide
  ordered := by
    refine Store.ordered_defineNatives (Store.Ordered.openScope ?_ ?_) globals
    · rintro i here p ⟨⟩
    · rintro p ⟨⟩
  closures := by
    rintro c hc
    exact absurd hc (Array.not_mem_empty c)

theorem topLevel_wellScoped (l : Limits) (n : Node) {m : Machine} (h : m.WellScoped) :
    (machineOf (topLevel l.layer n m)).WellScoped := by
  have recorded : (machineOf (Run.record (.execute n.className) m)).WellScoped := by
    obtain ⟨trace, hr⟩ := Run.record_eq (.execute n.className) m
    rw [hr]
    exact ⟨h.scope, h.ordered, h.closures⟩
  exact recorded.execute l n

theorem interpretWith_wellScoped (l : Limits) (ns : List Node) (d : Diagnostics) {m : Machine}
    (h : m.WellScoped) : (interpretWith l.layer m d ns).1.WellScoped := by
  induction ns generalizing m with
  | nil => exact h
  | cons n ns ih =>
    have hn := topLevel_wellScoped l n h
    unfold interpretWith
    cases hr : topLevel l.layer n m with
    | ok c m' =>
      rw [hr] at hn
      cases c with
      | normal => exact ih hn
      | returned => exact hn
    | error e m' =>
      rw [hr] at hn
      exact hn

theorem step_wellScoped (s : Session) (step : Step) (h : s.machine.WellScoped) :
    (s.step step).1.machine.WellScoped := by
  rw [step_machine]
  cases s.job step with
  | nothing => exact h
  | interpret ns => exact interpretWith_wellScoped s.limits ns _ h
  | evaluate n => exact h.evaluate s.limits n
  | execute n => exact h.execute s.limits n

/-- Whatever a session is asked to do, its machine stays well scoped. -/
theorem after_wellScoped {s : Session} (h : s.machine.WellScoped) (steps : List Step) :
    (s.after steps).machine.WellScoped := by
  induction steps generalizing s with
  | nil => exact h
  | cons step steps ih => exact ih (step_wellScoped s step h)

end Session

end LoxLang
