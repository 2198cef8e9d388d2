import LoxLang.Proofs.Effects.Basic
import LoxLang.Proofs.InStep.Evaluate
import LoxLang.Proofs.Scoping.Linked
/-!
# Regions of the store

A region is a set of scopes that certain code cannot leave: the scopes enclosing one of the region
belong to it, and so do those of the functions that the code can find there. Two runs of the code on
machines that agree on the region go in step, and neither changes a scope outside.
-/

namespace LoxLang

/-- Code that is the same, uses certain names only, and holds no function as a literal. -/
def Likeness.naming (names : Set String) : Likeness where
  token r t t' := t = t' ∧ (r = .used → t.lexeme ∈ names)
  literal v := ∀ f, v ≠ .function f
  misplaced := True

/-- Code that uses certain names only and holds no function as a literal. -/
abbrev Node.Keeps (names : Set String) (s : Site) (n : Node) : Prop :=
  Node.Alike (.naming names) s n n

namespace Store

/-- If there is a function with this identity, it was made in the region and keeps to the names. -/
def Admits (s : Store) (names : Set String) (region : Set Nat) (id : Nat) : Prop :=
  ∀ c, s.closures[id]? = some c → c.scope ∈ region ∧ ∀ n ∈ c.body, n.Keeps names (.statement true)

/-- A value that does not lead out of the region. -/
def Holds (s : Store) (names : Set String) (region : Set Nat) (v : Value) : Prop :=
  ∀ f, v = .function f → s.Admits names region f.id

/-- A set of scopes that code which uses certain names only cannot leave. -/
structure Region (s : Store) (names : Set String) (region : Set Nat) : Prop where
  enclosing : ∀ {i p : Nat} {here : Scope}, i ∈ region → s.scopes[i]? = some here →
    here.parent = some p → p ∈ region
  bound : ∀ {i : Nat} {here : Scope} {x : String} {v : Value}, i ∈ region →
    s.scopes[i]? = some here → x ∈ names → here.get? x = some v → s.Holds names region v

/-- Two stores with the same functions that differ in scopes outside the region at most. -/
structure SameOn (region : Set Nat) (s s' : Store) : Prop where
  scopes : ∀ i ∈ region, s'.scopes[i]? = s.scopes[i]?
  size : s'.scopes.size = s.scopes.size
  closures : s'.closures = s.closures

/-- No scope outside the region has changed. -/
def KeptOutside (region : Set Nat) (s s' : Store) : Prop :=
  ∀ (i : Nat), i ∉ region → s'.scopes[i]? = s.scopes[i]?

/-- The scopes that are yet to be made. -/
def unmade (s : Store) : Set Nat := {i | s.scopes.size ≤ i}

end Store

/-- Two machines that differ in scopes outside the region at most. -/
def Machine.SameOn (region : Set Nat) (m m' : Machine) : Prop :=
  m.store.SameOn region m'.store ∧ m' = { m with store := m'.store }

/-- What a machine keeps to while code runs in a region: `known` are the functions that the code
may come by. -/
structure Machine.Guarded (names : Set String) (region known : Set Nat) (m : Machine) : Prop where
  scope : m.scope ∈ region
  unmade : m.store.unmade ⊆ region
  unknown : ∀ id, m.store.closures.size ≤ id → id ∈ known
  enclosing : ∀ {i p : Nat} {here : Scope}, i ∈ region → m.store.scopes[i]? = some here →
    here.parent = some p → p ∈ region
  bound : ∀ {i : Nat} {here : Scope} {x : String} {f : Callable}, i ∈ region →
    m.store.scopes[i]? = some here → x ∈ names → here.get? x = some (.function f) → f.id ∈ known
  admits : ∀ id ∈ known, m.store.Admits names region id

/-- Code beside itself in a region, on machines whose stores were `s` and `s'` at the start. -/
def regional (names : Set String) (region known : Set Nat) (s s' : Store) : Correspondence where
  World := Unit
  le _ _ := True
  likeness := .naming names
  held _ v := ∀ f, v = .function f → f.id ∈ known
  machines _ _ m m' := m.SameOn region m' ∧ m.Guarded names region known ∧
    s.KeptOutside region m.store ∧ s'.KeptOutside region m'.store
  fault := Eq
  slack := .none

/-! ## Bindings -/

namespace Store

variable {region : Set Nat} {s s' t : Store}

theorem SameOn.room (h : s.SameOn region s') : s'.room = s.room := by
  rw [Store.room, Store.room, h.size]

theorem SameOn.define (h : s.SameOn region s') (i : Nat) (x : String) (v : Value) :
    (s.define i x v).SameOn region (s'.define i x v) where
  scopes j hj := by rw [getElem?_define, getElem?_define, h.scopes j hj]
  size := by
    change (s'.scopes.modify i _).size = (s.scopes.modify i _).size
    rw [Array.size_modify, Array.size_modify, h.size]
  closures := h.closures

theorem KeptOutside.define (h : s.KeptOutside region t) {i : Nat} (hi : i ∈ region) (x : String)
    (v : Value) : s.KeptOutside region (t.define i x v) := by
  intro j hj
  have hne : i ≠ j := by
    rintro rfl
    exact hj hi
  rw [getElem?_define, if_neg hne]
  exact h j hj

theorem SameOn.openScope (h : s.SameOn region s') (new : Scope) :
    (s.openScope new).2.SameOn region (s'.openScope new).2 where
  scopes i hi := by rw [getElem?_openScope, getElem?_openScope, h.size, h.scopes i hi]
  size := by
    change (s'.scopes.push new).size = (s.scopes.push new).size
    rw [Array.size_push, Array.size_push, h.size]
  closures := h.closures

theorem KeptOutside.openScope (h : s.KeptOutside region t) (ht : t.unmade ⊆ region) (new : Scope) :
    s.KeptOutside region (t.openScope new).2 := by
  intro i hi
  have hne : i ≠ t.scopes.size := by
    rintro rfl
    exact hi (ht (Nat.le_refl _))
  rw [getElem?_openScope, if_neg hne]
  exact h i hi

end Store

namespace Layer

/-- A call binds its arguments only. -/
theorem mem_of_callScope {c : Closure} {vs : List Value} {x : String} {v : Value}
    (h : (callScope c vs).get? x = some v) : v ∈ vs := by
  have bound : ∀ (bs : List (Token × Value)) (s : Scope),
      (bs.foldl (fun s b => s.set b.1.lexeme b.2) s).get? x = some v →
        s.get? x = some v ∨ v ∈ bs.map Prod.snd := by
    intro bs
    induction bs with
    | nil => exact fun _ h => .inl h
    | cons b bs ih =>
      intro s h
      rcases ih _ h with h | h
      · rw [Scope.get?_set] at h
        split at h
        · cases h
          exact .inr (by simp)
        · exact .inl h
      · exact .inr (List.mem_cons_of_mem _ h)
  rcases bound _ _ h with h | h
  · cases h
  · obtain ⟨b, hb, rfl⟩ := List.mem_map.1 h
    exact (List.of_mem_zip hb).2

end Layer

namespace Machine

variable {names : Set String} {region known : Set Nat} {m m' : Machine}

/-- In a region a name means the same on both sides, and it is found in the region. -/
theorem SameOn.resolve (h : m.SameOn region m') (hg : m.Guarded names region known) (x : String) :
    m'.store.resolve x m'.store.room m'.scope = m.store.resolve x m.store.room m.scope ∧
      ∀ i v, m.store.resolve x m.store.room m.scope = .found i v →
        i ∈ region ∧ (x ∈ names → ∀ f, v = .function f → f.id ∈ known) := by
  have along : ∀ room, ∀ i ∈ region,
      m'.store.resolve x room i = m.store.resolve x room i ∧
        ∀ j v, m.store.resolve x room i = .found j v →
          j ∈ region ∧ (x ∈ names → ∀ f, v = .function f → f.id ∈ known) := by
    intro room
    induction room with
    | zero => exact fun _ _ => ⟨rfl, by rintro j v ⟨⟩⟩
    | succ room ih =>
      intro i hi
      have hscope := h.1.scopes i hi
      cases hhere : m.store.scopes[i]? with
      | none =>
        rw [hhere] at hscope
        rw [Store.resolve, Store.resolve, hhere, hscope]
        exact ⟨rfl, by rintro j v ⟨⟩⟩
      | some here =>
        rw [hhere] at hscope
        rw [Store.resolve_succ hhere, Store.resolve_succ hscope]
        cases hx : here.get? x with
        | some v =>
          refine ⟨rfl, ?_⟩
          rintro j _ ⟨⟩
          refine ⟨hi, fun hn f hf => ?_⟩
          rw [hf] at hx
          exact hg.bound hi hhere hn hx
        | none =>
          cases hp : here.parent with
          | none => exact ⟨rfl, by rintro j v ⟨⟩⟩
          | some p => exact ih p (hg.enclosing hi hhere hp)
  have hscope : m'.scope = m.scope := by rw [h.2]
  rw [h.1.room, hscope]
  exact along m.store.room m.scope hg.scope

theorem Guarded.define (hg : m.Guarded names region known) (i : Nat) (x : String) {v : Value}
    (hv : ∀ f, v = .function f → f.id ∈ known) :
    { m with store := m.store.define i x v }.Guarded names region known where
  scope := hg.scope
  unmade := by
    refine fun j hj => hg.unmade ?_
    have hsize : (m.store.define i x v).scopes.size = m.store.scopes.size := Array.size_modify
    have hj : (m.store.define i x v).scopes.size ≤ j := hj
    rwa [hsize] at hj
  unknown := hg.unknown
  enclosing := by
    intro j p here hj hhere hp
    rw [Store.getElem?_define] at hhere
    split at hhere
    · obtain ⟨before, hbefore, rfl⟩ := Option.map_eq_some_iff.1 hhere
      exact hg.enclosing hj hbefore hp
    · exact hg.enclosing hj hhere hp
  bound := by
    intro j here y f hj hhere hy hf
    rw [Store.getElem?_define] at hhere
    split at hhere
    · obtain ⟨before, hbefore, rfl⟩ := Option.map_eq_some_iff.1 hhere
      rw [Scope.get?_set] at hf
      split at hf
      · exact hv f (Option.some.inj hf)
      · exact hg.bound hj hbefore hy hf
    · exact hg.bound hj hhere hy hf
  admits := hg.admits

theorem Guarded.inScope (hg : m.Guarded names region known) {new : Scope}
    (hp : ∀ p, new.parent = some p → p ∈ region)
    (hv : ∀ x f, new.get? x = some (.function f) → f.id ∈ known) :
    (m.inScope new).Guarded names region known where
  scope := hg.unmade (Nat.le_refl _)
  unmade := by
    refine fun j hj => hg.unmade ?_
    have hj : (m.store.scopes.push new).size ≤ j := hj
    rw [Array.size_push] at hj
    exact Nat.le_of_succ_le hj
  unknown := hg.unknown
  enclosing := by
    intro i p here hi hhere hparent
    rcases eq_or_ne i m.store.scopes.size with h | h
    · rw [Machine.inScope, Store.getElem?_openScope, if_pos h] at hhere
      cases hhere
      exact hp p hparent
    · rw [Machine.inScope, Store.getElem?_openScope, if_neg h] at hhere
      exact hg.enclosing hi hhere hparent
  bound := by
    intro i here x f hi hhere hx hf
    rcases eq_or_ne i m.store.scopes.size with h | h
    · rw [Machine.inScope, Store.getElem?_openScope, if_pos h] at hhere
      cases hhere
      exact hv x f hf
    · rw [Machine.inScope, Store.getElem?_openScope, if_neg h] at hhere
      exact hg.bound hi hhere hx hf
  admits := hg.admits

theorem Guarded.makeFunction (hg : m.Guarded names region known) {t : Token} {ps : List Token}
    {ns : List Node} (hns : ∀ n ∈ ns, n.Keeps names (.statement true)) :
    { m with store := (m.store.makeFunction ⟨t, ps, ns, m.scope⟩).2 }.Guarded names region known where
  scope := hg.scope
  unmade := hg.unmade
  unknown := by
    intro id hid
    have hid : (m.store.closures.push ⟨t, ps, ns, m.scope⟩).size ≤ id := hid
    rw [Array.size_push] at hid
    exact hg.unknown id (Nat.le_of_succ_le hid)
  enclosing := hg.enclosing
  bound := hg.bound
  admits := by
    intro id hid c hc
    have hc : (m.store.closures.push ⟨t, ps, ns, m.scope⟩)[id]? = some c := hc
    rw [Array.getElem?_push] at hc
    split at hc
    · cases hc
      exact ⟨hg.scope, hns⟩
    · exact hg.admits id hid c hc

end Machine

/-! ## Steps -/

namespace Regional

variable {α : Type} {names : Set String} {region known : Set Nat} {s s' : Store} {w : Unit} {b : Bool}
  {m m' : Machine}

/-- What leaves the store and the scope alone and does not look at the store goes in step. -/
theorem aside {x : Run α} {Q : Unit → α → α → Prop} (f : Machine → Machine) (a : Machine → α)
    (hx : ∀ m, x m = .ok (a m) (f m)) (hs : ∀ m, (f m).store = m.store)
    (hc : ∀ m, (f m).scope = m.scope)
    (hf : ∀ m t, f { m with store := t } = { f m with store := t })
    (ha : ∀ m t, a { m with store := t } = a m) (hq : ∀ a, Q () a a) :
    (regional names region known s s').Runs w b x x Q := by
  rintro m m' ⟨⟨hsame, hrest⟩, hg, hk, hk'⟩
  have hfm : f m' = { f m with store := m'.store } := by rw [hrest, hf]
  have ham : a m' = a m := by rw [hrest, ha]
  rw [hx, hx]
  refine ⟨(), trivial, ⟨⟨?_, ?_⟩, ?_, ?_, ?_⟩, ?_⟩
  · rwa [hs, hs]
  · rw [hs, hfm]
  · constructor
    · rw [hc]
      exact hg.scope
    · rw [hs]
      exact hg.unmade
    · rw [hs]
      exact hg.unknown
    · rw [hs]
      exact hg.enclosing
    · rw [hs]
      exact hg.bound
    · rw [hs]
      exact hg.admits
  · rwa [hs]
  · rwa [hs]
  · rw [ham]
    exact hq _

theorem record (e : TraceEvent) : (regional names region known s s').Runs w b (Run.record e)
    (Run.record e) (regional names region known s s').Done := by
  refine aside (fun m => if e.level ≤ m.traceLevel then { m with trace := m.trace.push e } else m)
    (fun _ => ()) (fun _ => rfl) ?_ ?_ ?_ (fun _ _ => rfl) fun _ => trivial
  · intro m
    split <;> rfl
  · intro m
    split <;> rfl
  · intro m t
    dsimp only
    split <;> rfl

theorem define {i i' : Nat} (h : (regional names region known s s').machines w b m m')
    (hi : i ∈ region) (hii' : i = i') (x : String) {v : Value}
    (hv : ∀ f, v = .function f → f.id ∈ known) :
    (regional names region known s s').machines () b { m with store := m.store.define i x v }
      { m' with store := m'.store.define i' x v } := by
  subst hii'
  obtain ⟨⟨hsame, hrest⟩, hg, hk, hk'⟩ := h
  refine ⟨⟨hsame.define i x v, ?_⟩, hg.define i x hv, hk.define hi x v, hk'.define hi x v⟩
  exact congrArg (fun k => { k with store := m'.store.define i x v : Machine }) hrest

theorem enter (h : (regional names region known s s').machines w b m m') {new : Scope}
    (hp : ∀ p, new.parent = some p → p ∈ region)
    (hv : ∀ x f, new.get? x = some (.function f) → f.id ∈ known) :
    (regional names region known s s').machines () true (m.inScope new) (m'.inScope new) := by
  obtain ⟨⟨hsame, hrest⟩, hg, hk, hk'⟩ := h
  have hunmade : m'.store.unmade ⊆ region := by
    rw [Store.unmade, hsame.size]
    exact hg.unmade
  refine ⟨⟨hsame.openScope new, ?_⟩, hg.inScope hp hv, hk.openScope hg.unmade new,
    hk'.openScope hunmade new⟩
  change { m' with store := (m'.store.openScope new).2, scope := m'.store.scopes.size } =
    { m with store := (m'.store.openScope new).2, scope := m.store.scopes.size }
  rw [hsame.size]
  exact congrArg (fun k =>
    { k with store := (m'.store.openScope new).2, scope := m.store.scopes.size : Machine }) hrest

/-- A name is found in the region, and what it stands for is known. -/
theorem lookup {t t' : Token} (ht : (Likeness.naming names).token .used t t') :
    (regional names region known s s').Runs w b (Run.lookup t) (Run.lookup t')
      (regional names region known s s').Same := by
  obtain ⟨rfl, ht⟩ := ht
  intro m m' hm
  obtain ⟨hr, hfound⟩ := hm.1.resolve hm.2.1 t.lexeme
  rw [Run.lookup_eq, Run.lookup_eq, hr]
  cases h : m.store.resolve t.lexeme m.store.room m.scope with
  | found i v => exact ⟨(), trivial, hm, rfl, (hfound i v h).2 (ht rfl)⟩
  | unbound => exact .inr ⟨rfl, (), trivial, hm⟩
  | tooDeep => exact .inr ⟨rfl, (), trivial, hm⟩

theorem assign {t t' : Token} (ht : (Likeness.naming names).token .used t t') {v : Value}
    (hv : ∀ f, v = .function f → f.id ∈ known) :
    (regional names region known s s').Runs w b (Run.assign t v) (Run.assign t' v)
      (regional names region known s s').Done := by
  obtain ⟨rfl, -⟩ := ht
  intro m m' hm
  obtain ⟨hr, hfound⟩ := hm.1.resolve hm.2.1 t.lexeme
  rw [Run.assign_eq, Run.assign_eq, hr]
  cases h : m.store.resolve t.lexeme m.store.room m.scope with
  | found i _ => exact ⟨(), trivial, define hm (hfound i _ h).1 rfl t.lexeme hv, trivial⟩
  | unbound => exact .inr ⟨rfl, (), trivial, hm⟩
  | tooDeep => exact .inr ⟨rfl, (), trivial, hm⟩

/-- A new function is made in the region, and its identity is one of those that were kept for it. -/
theorem makeFunction {t t' : Token} (ht : (Likeness.naming names).token .declared t t')
    {ps ps' : List Token} (hps : List.Forall₂ ((Likeness.naming names).token .parameter) ps ps')
    {ns ns' : List Node}
    (hns : List.Forall₂ (Node.Alike (.naming names) (.statement true)) ns ns') :
    (regional names region known s s').Runs w true (Run.makeFunction t ps ns)
      (Run.makeFunction t' ps' ns') (regional names region known s s').Same := by
  obtain ⟨rfl, -⟩ := ht
  obtain rfl := Node.forall₂_eq hps fun _ _ _ h => h.1
  obtain rfl := Node.forall₂_eq hns fun _ _ _ h => h.eq fun h => (h : _ ∧ _).1
  rintro m m' ⟨⟨hsame, hrest⟩, hg, hk, hk'⟩
  have hscope : m'.scope = m.scope := by rw [hrest]
  have hbody := List.forall₂_same.1 hns
  refine ⟨(), trivial, ⟨⟨⟨hsame.scopes, hsame.size, ?_⟩, ?_⟩, hg.makeFunction hbody, hk, hk'⟩,
    ?_, ?_⟩
  · rw [hscope]
    exact congrArg (Array.push · _) hsame.closures
  · exact congrArg (fun k =>
      { k with store := (m'.store.makeFunction ⟨t, ps, ns, m'.scope⟩).2 : Machine }) hrest
  · rw [hsame.closures]
  · rintro f ⟨⟩
    exact hg.unknown _ (Nat.le_refl _)

/-- A call of a known function runs a body that keeps to the names, in a scope of the region. -/
theorem enterCall {f : Callable} {vs : List Value}
    (hm : (regional names region known s s').machines w b m m')
    (hf : ∀ g, Value.function f = .function g → g.id ∈ known)
    (hvs : ∀ v ∈ vs, ∀ g, v = .function g → g.id ∈ known) :
    (m.store.closures[f.id]? = none ∧ m'.store.closures[f.id]? = none) ∨
      ∃ c c' w', m.store.closures[f.id]? = some c ∧ m'.store.closures[f.id]? = some c' ∧
        List.Forall₂ (Node.Alike (.naming names) (.statement true)) c.body c'.body ∧
        (regional names region known s s').le w w' ∧
        (regional names region known s s').machines w' true (m.inScope (Layer.callScope c vs))
          (m'.inScope (Layer.callScope c' vs)) := by
  have hclosures := hm.1.1.closures
  cases hc : m.store.closures[f.id]? with
  | none => exact .inl ⟨rfl, by rw [hclosures, hc]⟩
  | some c =>
    obtain ⟨hscope, hbody⟩ := hm.2.1.admits f.id (hf f rfl) c hc
    refine .inr ⟨c, c, (), rfl, by rw [hclosures, hc], List.forall₂_same.2 hbody, trivial,
      enter hm ?_ ?_⟩
    · intro p hp
      rw [Layer.callScope_parent] at hp
      cases hp
      exact hscope
    · exact fun x g hg => hvs _ (Layer.mem_of_callScope hg) g rfl

theorem leave {w' : Unit} {b' : Bool} {n n' : Machine}
    (hm : (regional names region known s s').machines w b m m')
    (hn : (regional names region known s s').machines w' b' n n') :
    (regional names region known s s').machines w' b { n with scope := m.scope }
      { n' with scope := m'.scope } := by
  obtain ⟨⟨-, hrest⟩, hg, -⟩ := hm
  obtain ⟨⟨hsame, hrest'⟩, hg', hk, hk'⟩ := hn
  have hscope : m'.scope = m.scope := by rw [hrest]
  refine ⟨⟨hsame, ?_⟩, ⟨hg.scope, hg'.unmade, hg'.unknown, hg'.enclosing, hg'.bound, hg'.admits⟩,
    hk, hk'⟩
  rw [hscope]
  exact congrArg (fun k => { k with scope := m.scope : Machine }) hrest'

theorem lawful : (regional names region known s s').Lawful where
  refl _ := trivial
  trans _ _ := trivial
  held_mono _ h := h
  held_plain h f hf := absurd hf (h f)
  literal h f hf := absurd hf (h f)
  kind h := by rw [h.1]
  lexeme h := by rw [h.1]
  lookup := lookup
  assign ht hv := assign ht hv
  define := by
    intro w name v hv m m' hm
    have hscope : m'.scope = m.scope := by rw [hm.1.2]
    exact ⟨(), trivial, define hm hm.2.1.scope hscope.symm name hv, trivial⟩
  makeFunction ht hps hns := makeFunction ht hps hns
  record := record
  printLine text := aside (fun m => { m with output := m.output ++ text ++ "\n" }) (fun _ => ())
    (fun _ => rfl) (fun _ => rfl) (fun _ => rfl) (fun _ _ => rfl) (fun _ _ => rfl) fun _ => trivial
  readClock := aside (fun m => { m with readings := m.readings + 1 }) (fun m => m.clock m.readings)
    (fun _ => rfl) (fun _ => rfl) (fun _ => rfl) (fun _ _ => rfl) (fun _ _ => rfl) fun _ => rfl
  enterBlock := by
    intro w b m m' hm
    have hscope : m'.scope = m.scope := by rw [hm.1.2]
    refine ⟨(), trivial, ?_⟩
    rw [hscope]
    refine enter hm ?_ ?_
    · rintro p ⟨⟩
      exact hm.2.1.scope
    · rintro x f ⟨⟩
  enterCall hm hf hvs := enterCall hm hf hvs
  leave hm _ hn := leave hm hn
  unary := by
    rintro t _ v e ⟨rfl, -⟩ -
    rfl
  binary := by
    rintro t _ x y e ⟨rfl, -⟩ -
    rfl
  call := by
    rintro t _ c ⟨rfl, -⟩ -
    rfl
  broken _ _ := rfl
  misplaced _ := rfl
  overflow := rfl
  unfinished := rfl
  overflow_iff h := by rw [h]

end Regional

end LoxLang
