import LoxLang.Proofs.InStep.Rules
/-!
# Stores that are linked

Two stores are linked if they hold the same bindings in the same chains of scopes, and functions
that are alike in the same order. The store on the left may have spare scopes that the one on the
right does without: they are empty and stand between a scope and the one it lies in.
-/

namespace LoxLang

/-- Where each scope of the left is found on the right, and whether it stands there itself. The
place of a spare scope is that of the scope it lies in. -/
abbrev Placing := List (Nat × Bool)

namespace Placing

variable {w w' : Placing} {i i' : Nat}

/-- A scope of the left, spare or not, has its place on the right. -/
def Places (w : Placing) (i i' : Nat) : Prop := ∃ own, w[i]? = some (i', own)

/-- What two scopes lie in. -/
inductive Encloses (w : Placing) : Option Nat → Option Nat → Prop
  | outermost : Encloses w none none
  | within {i i' : Nat} : w.Places i i' → Encloses w (some i) (some i')

theorem kept (h : w <+: w') {place : Nat × Bool} (hi : w[i]? = some place) : w'[i]? = some place := by
  obtain ⟨added, rfl⟩ := h
  have hlt : i < w.length := (List.getElem?_eq_some_iff.1 hi).1
  rw [List.getElem?_append_left hlt, hi]

theorem Places.mono (h : w <+: w') : w.Places i i' → w'.Places i i' := by
  rintro ⟨own, hi⟩
  exact ⟨own, kept h hi⟩

theorem Encloses.mono (h : w <+: w') {p p' : Option Nat} : w.Encloses p p' → w'.Encloses p p'
  | .outermost => .outermost
  | .within hp => .within (hp.mono h)

/-- A place that has been added is the last one. -/
theorem of_snoc {place added : Nat × Bool} (h : (w ++ [added])[i]? = some place) :
    w[i]? = some place ∨ i = w.length ∧ place = added := by
  rcases Nat.lt_trichotomy i w.length with hi | rfl | hi
  · rw [List.getElem?_append_left hi] at h
    exact .inl h
  · rw [List.getElem?_concat_length] at h
    cases h
    exact .inr ⟨rfl, rfl⟩
  · rw [List.getElem?_eq_none (by simp; omega)] at h
    cases h

end Placing

/-- Every scope lies in one that is older. -/
def Store.Ordered (s : Store) : Prop :=
  ∀ (i : Nat) (here : Scope) (p : Nat), s.scopes[i]? = some here → here.parent = some p → p < i

/-- Functions that are alike, in scopes that have their place. -/
structure Closure.Linked (l : Likeness) (w : Placing) (c c' : Closure) : Prop where
  name : l.token .declared c.name c'.name
  params : List.Forall₂ (l.token .parameter) c.params c'.params
  body : List.Forall₂ (Node.Alike l (.statement true)) c.body c'.body
  scope : w.Places c.scope c'.scope

/-- The stores of two runs are linked. -/
structure Store.Linked (l : Likeness) (w : Placing) (s s' : Store) : Prop where
  size : w.length = s.scopes.size
  own : ∀ {i i' : Nat}, w[i]? = some (i', true) → ∃ here here' : Scope, s.scopes[i]? = some here ∧
    s'.scopes[i']? = some here' ∧ here.bindings = here'.bindings ∧
    w.Encloses here.parent here'.parent
  spare : ∀ {i i' : Nat}, w[i]? = some (i', false) →
    ∃ p : Nat, s.scopes[i]? = some ⟨some p, []⟩ ∧ w.Places p i'
  apart : ∀ {i j k : Nat}, w[i]? = some (k, true) → w[j]? = some (k, true) → i = j
  ordered : s.Ordered
  ordered' : s'.Ordered
  closures : List.Forall₂ (Closure.Linked l w) s.closures.toList s'.closures.toList

/-- What a name means on both sides. -/
inductive Resolution.Linked (w : Placing) : Resolution → Resolution → Prop
  | found {i i' v} : w[i]? = some (i', true) → Linked w (.found i v) (.found i' v)
  | unbound : Linked w .unbound .unbound

theorem Store.resolve_succ {s : Store} {i : Nat} {here : Scope} (h : s.scopes[i]? = some here)
    (name : String) (room : Nat) :
    s.resolve name (room + 1) i =
      match here.get? name with
      | some v => .found i v
      | none =>
        match here.parent with
        | some p => s.resolve name room p
        | none => .unbound := by
  rw [resolve]
  split
  · next hnone =>
    rw [hnone] at h
    cases h
  · next hsome =>
    rw [hsome] at h
    cases h
    rfl

namespace Store.Linked

variable {l : Likeness} {w : Placing} {s s' : Store} {i i' : Nat}

/-- What has its place is there on both sides. -/
theorem inside (h : s.Linked l w s') (hi : w.Places i i') :
    i < s.scopes.size ∧ i' < s'.scopes.size := by
  have exists_of_some : ∀ {α : Type} {xs : Array α} {j : Nat} {x : α}, xs[j]? = some x → j < xs.size :=
    fun hx => (Array.getElem?_eq_some_iff.1 hx).1
  induction i using Nat.strongRecOn with
  | ind i ih =>
    obtain ⟨own, hi⟩ := hi
    cases own with
    | true =>
      obtain ⟨here, here', hh, hh', -⟩ := h.own hi
      exact ⟨exists_of_some hh, exists_of_some hh'⟩
    | false =>
      -- The place of a spare scope is that of the scope it lies in, which is older.
      obtain ⟨p, hh, hp⟩ := h.spare hi
      exact ⟨exists_of_some hh, (ih p (h.ordered i _ p hh rfl) hp).2⟩

/-- A name means the same on both sides, if there is room enough for the chains. -/
theorem resolve (h : s.Linked l w s') (name : String) (hi : w.Places i i') {room room' : Nat}
    (hr : i < room) (hr' : i' < room') :
    Resolution.Linked w (s.resolve name room i) (s'.resolve name room' i') := by
  induction i using Nat.strongRecOn generalizing i' room room' with
  | ind i ih =>
    obtain ⟨room, rfl⟩ := Nat.exists_eq_add_of_lt hr
    obtain ⟨room', rfl⟩ := Nat.exists_eq_add_of_lt hr'
    obtain ⟨own, hi⟩ := hi
    cases own with
    | true =>
      obtain ⟨here, here', hh, hh', hb, hp⟩ := h.own hi
      have same : here'.get? name = here.get? name := by rw [Scope.get?, Scope.get?, hb]
      rw [Store.resolve_succ hh, Store.resolve_succ hh', same]
      cases here.get? name with
      | some v => exact .found hi
      | none =>
        -- The scopes that these two lie in have their places too, and are older.
        cases hpar : here.parent with
        | none =>
          rw [hpar] at hp
          cases hpar' : here'.parent with
          | none => exact .unbound
          | some => rw [hpar'] at hp; cases hp
        | some p =>
          rw [hpar] at hp
          cases hpar' : here'.parent with
          | none => rw [hpar'] at hp; cases hp
          | some p' =>
            rw [hpar'] at hp
            cases hp with
            | within hp =>
              have hlt := h.ordered i here p hh hpar
              have hlt' := h.ordered' i' here' p' hh' hpar'
              exact ih p hlt hp (by omega) (by omega)
    | false =>
      -- The right does without a spare scope, so its room is kept.
      obtain ⟨p, hh, hp⟩ := h.spare hi
      have hlt := h.ordered i _ p hh rfl
      rw [Store.resolve_succ hh]
      exact ih p hlt hp (by omega) (by omega)

end Store.Linked

/-! ## Bindings -/

theorem Store.getElem?_define (s : Store) (i : Nat) (name : String) (v : Value) (j : Nat) :
    (s.define i name v).scopes[j]? =
      if i = j then s.scopes[j]?.map (·.set name v) else s.scopes[j]? :=
  Array.getElem?_modify

theorem Store.Ordered.define {s : Store} (h : s.Ordered) (i : Nat) (name : String) (v : Value) :
    (s.define i name v).Ordered := by
  intro j here p hh hp
  rw [Store.getElem?_define] at hh
  split at hh
  · obtain ⟨before, hb, rfl⟩ := Option.map_eq_some_iff.1 hh
    exact h j before p hb hp
  · exact h j here p hh hp

namespace Store.Linked

variable {l : Likeness} {w : Placing} {s s' : Store} {i i' : Nat}

/-- A name may be bound in a scope that stands on both sides. -/
theorem define (h : s.Linked l w s') (hi : w[i]? = some (i', true)) (name : String) (v : Value) :
    (s.define i name v).Linked l w (s'.define i' name v) where
  size := by rw [h.size]; exact Array.size_modify.symm
  own := by
    intro j j' hj
    obtain ⟨here, here', hh, hh', hb, hp⟩ := h.own hj
    by_cases e : i = j
    · subst e
      obtain rfl : i' = j' := by rw [hi] at hj; cases hj; rfl
      refine ⟨here.set name v, here'.set name v, ?_, ?_, ?_, hp⟩
      · rw [getElem?_define, if_pos rfl, hh, Option.map_some]
      · rw [getElem?_define, if_pos rfl, hh', Option.map_some]
      · rw [Scope.set, Scope.set, hb]
    · -- No other scope of the left has its place where the name is bound.
      have e' : i' ≠ j' := by
        rintro rfl
        exact e (h.apart hi hj)
      refine ⟨here, here', ?_, ?_, hb, hp⟩
      · rw [getElem?_define, if_neg e, hh]
      · rw [getElem?_define, if_neg e', hh']
  spare := by
    intro j j' hj
    obtain ⟨p, hh, hp⟩ := h.spare hj
    have e : i ≠ j := by
      rintro rfl
      rw [hi] at hj
      cases hj
    exact ⟨p, by rw [getElem?_define, if_neg e, hh], hp⟩
  apart := h.apart
  ordered := h.ordered.define i name v
  ordered' := h.ordered'.define i' name v
  closures := h.closures

end Store.Linked

/-! ## New scopes -/

theorem Store.getElem?_openScope (s : Store) (new : Scope) (i : Nat) :
    (s.openScope new).2.scopes[i]? = if i = s.scopes.size then some new else s.scopes[i]? :=
  Array.getElem?_push

theorem Store.openScope_kept {s : Store} {new here : Scope} {i : Nat}
    (h : s.scopes[i]? = some here) : (s.openScope new).2.scopes[i]? = some here := by
  have hlt := (Array.getElem?_eq_some_iff.1 h).1
  rw [Store.getElem?_openScope, if_neg (Nat.ne_of_lt hlt), h]

theorem Store.openScope_size (s : Store) (new : Scope) :
    (s.openScope new).2.scopes[s.scopes.size]? = some new := by
  rw [Store.getElem?_openScope, if_pos rfl]

theorem Store.Ordered.openScope {s : Store} (h : s.Ordered) {new : Scope}
    (hn : ∀ p, new.parent = some p → p < s.scopes.size) : (s.openScope new).2.Ordered := by
  intro i here p hh hp
  rw [Store.getElem?_openScope] at hh
  split at hh
  · next hi =>
    cases hh
    rw [hi]
    exact hn p hp
  · exact h i here p hh hp

namespace Store.Linked

variable {l : Likeness} {w : Placing} {s s' : Store} {i i' : Nat}

theorem closures_mono (h : s.Linked l w s') {w' : Placing} (hw : w <+: w') :
    List.Forall₂ (Closure.Linked l w') s.closures.toList s'.closures.toList :=
  h.closures.imp fun _ _ hc => ⟨hc.name, hc.params, hc.body, hc.scope.mono hw⟩

/-- The left makes a scope. The right may make one too, but it loses none. -/
theorem grown (h : s.Linked l w s') {new : Scope} {place : Nat × Bool} {r : Store}
    (hkept : ∀ (i : Nat) (here : Scope), s'.scopes[i]? = some here → r.scopes[i]? = some here)
    (hclosures : r.closures = s'.closures) (hordered : r.Ordered)
    (hparent : ∀ p, new.parent = some p → p < s.scopes.size)
    (hown : place.2 = true → (∀ i : Nat, w[i]? ≠ some (place.1, true)) ∧
      ∃ new' : Scope, r.scopes[place.1]? = some new' ∧ new.bindings = new'.bindings ∧
        w.Encloses new.parent new'.parent)
    (hspare : place.2 = false → ∃ p : Nat, new = ⟨some p, []⟩ ∧ w.Places p place.1) :
    (s.openScope new).2.Linked l (w ++ [place]) r := by
  have hw : w <+: w ++ [place] := List.prefix_append _ _
  have new_here : (s.openScope new).2.scopes[w.length]? = some new := by
    rw [h.size]
    exact openScope_size s new
  refine ⟨?_, ?_, ?_, ?_, h.ordered.openScope hparent, hordered, ?_⟩
  · rw [List.length_append, h.size]
    exact (Array.size_push new).symm
  · intro i i' hi
    rcases Placing.of_snoc hi with hi | ⟨rfl, rfl⟩
    · obtain ⟨here, here', hh, hh', hb, hp⟩ := h.own hi
      exact ⟨here, here', openScope_kept hh, hkept _ _ hh', hb, hp.mono hw⟩
    · obtain ⟨-, new', hn, hb, hp⟩ := hown rfl
      exact ⟨new, new', new_here, hn, hb, hp.mono hw⟩
  · intro i i' hi
    rcases Placing.of_snoc hi with hi | ⟨rfl, rfl⟩
    · obtain ⟨p, hh, hp⟩ := h.spare hi
      exact ⟨p, openScope_kept hh, hp.mono hw⟩
    · obtain ⟨p, rfl, hp⟩ := hspare rfl
      exact ⟨p, new_here, hp.mono hw⟩
  · -- Nothing stood at the new place before.
    intro i j k hi hj
    rcases Placing.of_snoc hi with hi' | ⟨rfl, rfl⟩
    · rcases Placing.of_snoc hj with hj' | ⟨rfl, rfl⟩
      · exact h.apart hi' hj'
      · exact absurd hi' ((hown rfl).1 i)
    · rcases Placing.of_snoc hj with hj' | ⟨rfl, -⟩
      · exact absurd hj' ((hown rfl).1 j)
      · rfl
  · rw [hclosures]
    exact h.closures_mono hw

/-- Both sides make a scope. -/
theorem openScope (h : s.Linked l w s') {new new' : Scope} (hb : new.bindings = new'.bindings)
    (hp : w.Encloses new.parent new'.parent) :
    (s.openScope new).2.Linked l (w ++ [(s'.scopes.size, true)]) (s'.openScope new').2 := by
  have inside : ∀ p p', w.Encloses (some p) (some p') → p < s.scopes.size ∧ p' < s'.scopes.size := by
    rintro p p' ⟨⟩
    next hp => exact h.inside hp
  refine h.grown (fun _ _ => openScope_kept) rfl (h.ordered'.openScope fun p' e => ?_)
    (fun p e => ?_) (fun _ => ⟨fun i hi => ?_, new', openScope_size s' new', hb, hp⟩) (by simp)
  · rw [e] at hp
    cases hpar : new.parent with
    | none => rw [hpar] at hp; cases hp
    | some p =>
      rw [hpar] at hp
      exact (inside p p' hp).2
  · rw [e] at hp
    cases hpar : new'.parent with
    | none => rw [hpar] at hp; cases hp
    | some p' =>
      rw [hpar] at hp
      exact (inside p p' hp).1
  · exact absurd (h.inside ⟨true, hi⟩).2 (Nat.lt_irrefl _)

/-- Only the left makes a scope, with nothing in it. -/
theorem openSpare (h : s.Linked l w s') (hi : w.Places i i') :
    (s.openScope ⟨some i, []⟩).2.Linked l (w ++ [(i', false)]) s' := by
  refine h.grown (fun _ _ hh => hh) rfl h.ordered' ?_ (by simp) fun _ => ⟨i, rfl, hi⟩
  rintro p ⟨⟩
  exact (h.inside hi).1

/-! ## Functions -/

theorem makeFunction (h : s.Linked l w s') {c c' : Closure} (hc : Closure.Linked l w c c') :
    (s.makeFunction c).2.Linked l w (s'.makeFunction c').2 where
  size := h.size
  own := h.own
  spare := h.spare
  apart := h.apart
  ordered := h.ordered
  ordered' := h.ordered'
  closures := by
    change List.Forall₂ _ (s.closures.push c).toList (s'.closures.push c').toList
    rw [Array.toList_push, Array.toList_push]
    exact List.rel_append h.closures (.cons hc .nil)

theorem closures_size (h : s.Linked l w s') : s.closures.size = s'.closures.size :=
  h.closures.length_eq

/-- A function is known on both sides or on none. -/
theorem closure (h : s.Linked l w s') (id : Nat) :
    (s.closures[id]? = none ∧ s'.closures[id]? = none) ∨
      ∃ c c', s.closures[id]? = some c ∧ s'.closures[id]? = some c' ∧ Closure.Linked l w c c' := by
  have known : ∀ {cs cs' : List Closure}, List.Forall₂ (Closure.Linked l w) cs cs' → ∀ id : Nat,
      (cs[id]? = none ∧ cs'[id]? = none) ∨
        ∃ c c', cs[id]? = some c ∧ cs'[id]? = some c' ∧ Closure.Linked l w c c' := by
    intro cs cs' h
    induction h with
    | nil => exact fun _ => .inl ⟨rfl, rfl⟩
    | cons hc _ ih =>
      intro id
      cases id with
      | zero => exact .inr ⟨_, _, rfl, rfl, hc⟩
      | succ id => exact ih id
  rw [← Array.getElem?_toList, ← Array.getElem?_toList]
  exact known h.closures id

end Store.Linked

/-! ## Calls -/

namespace Layer

/-- The bindings of a call depend on the names of the parameters and on the arguments only. -/
theorem callScope_bindings {c c' : Closure}
    (h : List.Forall₂ (fun t t' : Token => t.lexeme = t'.lexeme) c.params c'.params)
    (vs : List Value) : (callScope c vs).bindings = (callScope c' vs).bindings := by
  have same : ∀ {ps ps' : List Token},
      List.Forall₂ (fun t t' : Token => t.lexeme = t'.lexeme) ps ps' →
      ∀ (vs : List Value) (s s' : Scope), s.bindings = s'.bindings →
        ((ps.zip vs).foldl (fun s b => s.set b.1.lexeme b.2) s).bindings =
          ((ps'.zip vs).foldl (fun s b => s.set b.1.lexeme b.2) s').bindings := by
    intro ps ps' h
    induction h with
    | nil => exact fun _ _ _ hs => hs
    | cons ht _ ih =>
      intro vs s s' hs
      cases vs with
      | nil => exact hs
      | cons v vs =>
        apply ih vs _ _
        simp only [Scope.set, ht, hs]
  exact same h vs _ _ rfl

end Layer

end LoxLang
