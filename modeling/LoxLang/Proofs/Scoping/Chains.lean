import LoxLang.Forest
import LoxLang.Proofs.Scoping.Linked
/-!
# Chains of scopes

The chain of a scope leads from it outwards. Reading a variable, assigning it and asking for it all
end at the first scope of the chain that binds its name, if there is room enough for the chain.
-/

namespace LoxLang

namespace Store

/-- The scopes from one on outwards, each of which lies in the next one, and the last in none. -/
inductive ChainOf (s : Store) : Nat → List Nat → Prop
  | outermost {i : Nat} {here : Scope} : s.scopes[i]? = some here → here.parent = none →
    ChainOf s i [i]
  | within {i p : Nat} {here : Scope} {is : List Nat} : s.scopes[i]? = some here →
    here.parent = some p → ChainOf s p is → ChainOf s i (i :: is)

/-- The value that a scope itself gives to a name. -/
def own? (s : Store) (i : Nat) (x : String) : Option Value := s.scopes[i]?.bind (·.get? x)

/-- The first of some scopes that binds a name. -/
def binder? (s : Store) (x : String) (is : List Nat) : Option Nat :=
  is.find? fun i => (s.own? i x).isSome

/-- What a name is worth along a chain: its binder has a value for it. -/
def worth? (s : Store) (x : String) (is : List Nat) : Option Value :=
  (s.binder? x is).bind fun i => s.own? i x

variable {s s' : Store} {i : Nat} {is : List Nat} {x : String}

/-! ## Chains in the tree -/

/-- From a scope outwards there are only older ones. -/
theorem ChainOf.le (h : s.ChainOf i is) (ho : s.Ordered) : ∀ j ∈ is, j ≤ i := by
  induction h with
  | outermost => exact List.forall_mem_singleton.2 (Nat.le_refl _)
  | within hi hp _ ih =>
    have hlt := ho _ _ _ hi hp
    refine List.forall_mem_cons.2 ⟨Nat.le_refl _, fun j hj => ?_⟩
    exact Nat.le_trans (ih j hj) (Nat.le_of_lt hlt)

theorem ChainOf.nodup (h : s.ChainOf i is) (ho : s.Ordered) : is.Nodup := by
  induction h with
  | outermost => exact List.pairwise_singleton _ _
  | within hi hp h ih =>
    have hlt := ho _ _ _ hi hp
    exact List.nodup_cons.2 ⟨fun hmem => absurd (h.le ho _ hmem) (Nat.not_le.2 hlt), ih⟩

/-- Every scope has a chain, since the scopes that it lies in are older. -/
theorem Ordered.exists_chainOf (ho : s.Ordered) (hi : i < s.scopes.size) :
    ∃ is, s.ChainOf i is := by
  induction i using Nat.strongRecOn with
  | ind i ih =>
    have hhere := Array.getElem?_eq_getElem hi
    cases hp : s.scopes[i].parent with
    | none => exact ⟨_, .outermost hhere hp⟩
    | some p =>
      have hlt := ho i _ p hhere hp
      obtain ⟨is, his⟩ := ih p hlt (Nat.lt_trans hlt hi)
      exact ⟨_, .within hhere hp his⟩

/-- Chains stay as they are if the enclosing scopes do. -/
theorem ChainOf.of_parents (h : s.ChainOf i is)
    (hp : ∀ (j : Nat) (here : Scope), s.scopes[j]? = some here →
      ∃ here' : Scope, s'.scopes[j]? = some here' ∧ here'.parent = here.parent) :
    s'.ChainOf i is := by
  induction h with
  | outermost hi hnone =>
    obtain ⟨here', hi', hparent⟩ := hp _ _ hi
    exact .outermost hi' (hparent.trans hnone)
  | within hi hsome _ ih =>
    obtain ⟨here', hi', hparent⟩ := hp _ _ hi
    exact .within hi' (hparent.trans hsome) ih

theorem ChainOf.define (h : s.ChainOf i is) (j : Nat) (x : String) (v : Value) :
    (s.define j x v).ChainOf i is := by
  refine h.of_parents fun k here hk => ?_
  rw [getElem?_define, hk]
  split
  · exact ⟨_, rfl, rfl⟩
  · exact ⟨_, rfl, rfl⟩

/-! ## Binders -/

theorem own?_of_scope {here : Scope} (h : s.scopes[i]? = some here) (x : String) :
    s.own? i x = here.get? x := by
  rw [own?, h, Option.bind_some]

theorem own?_define (s : Store) (i : Nat) (x : String) (v : Value) (hi : i < s.scopes.size)
    (j : Nat) (y : String) :
    (s.define i x v).own? j y = if j = i ∧ y = x then some v else s.own? j y := by
  unfold own?
  rw [getElem?_define]
  by_cases h : i = j
  · subst h
    rw [if_pos rfl, Array.getElem?_eq_getElem hi, Option.map_some, Option.bind_some,
      Option.bind_some, Scope.get?_set]
    simp only [true_and]
  · rw [if_neg h, if_neg fun hj => h hj.1.symm]

theorem binder?_cons (x : String) (i : Nat) (is : List Nat) :
    s.binder? x (i :: is) = if (s.own? i x).isSome then some i else s.binder? x is := by
  rw [binder?, List.find?_cons]
  cases (s.own? i x).isSome <;> rfl

/-- A binder binds the name itself. -/
theorem own?_of_binder? {j : Nat} (h : s.binder? x is = some j) : (s.own? j x).isSome := by
  have hown := List.find?_some h
  exact hown

theorem lt_size_of_own? (h : (s.own? i x).isSome) : i < s.scopes.size := by
  by_contra hi
  rw [own?, Array.getElem?_eq_none (Nat.le_of_not_lt hi)] at h
  cases h

theorem worth?_cons (x : String) (i : Nat) (is : List Nat) :
    s.worth? x (i :: is) = if (s.own? i x).isSome then s.own? i x else s.worth? x is := by
  rw [worth?, binder?_cons]
  split <;> rfl

/-- A name is worth something exactly if it has a binder. -/
theorem isSome_worth? (s : Store) (x : String) (is : List Nat) :
    (s.worth? x is).isSome = (s.binder? x is).isSome := by
  induction is with
  | nil => rfl
  | cons i is ih =>
    rw [worth?_cons, binder?_cons]
    split
    · next h => exact h
    · exact ih

/-- A scope that binds a name is its binder exactly if no nearer scope of the chain is. -/
theorem binder?_eq_some_iff (h : (s.own? i x).isSome) :
    s.binder? x is = some i ↔ i ∈ is ∧ s.binder? x (is.takeWhile (· ≠ i)) = none := by
  induction is with
  | nil => simp [binder?]
  | cons j is ih =>
    by_cases hj : j = i
    · subst hj
      simp [h, binder?]
    · rw [binder?_cons, List.takeWhile_cons_of_pos (by simpa using hj), binder?_cons]
      split
      · simp [hj]
      · rw [ih]
        simp [Ne.symm hj]

/-- A name that is bound in a scope has the new value along the chains that come to this scope
before any other that binds the name. -/
theorem worth?_define (hi : i < s.scopes.size) (x : String) (v : Value) (y : String)
    (is : List Nat) :
    (s.define i x v).worth? y is =
      if y = x ∧ i ∈ is ∧ s.binder? x (is.takeWhile (· ≠ i)) = none then some v
      else s.worth? y is := by
  induction is with
  | nil => simp [worth?, binder?]
  | cons j is ih =>
    rw [worth?_cons, worth?_cons, own?_define s i x v hi]
    by_cases hj : j = i
    · subst hj
      by_cases hy : y = x
      · simp [hy, binder?]
      · rw [ih]
        simp [hy]
    · rw [ih, List.takeWhile_cons_of_pos (by simpa using hj), binder?_cons]
      by_cases hy : y = x
      · subst hy
        by_cases hown : (s.own? j y).isSome
        · simp [hj, hown]
        · simp [hj, hown, Ne.symm hj]
      · simp [hy]

/-! ## Along a chain -/

/-- What becomes of a variable that is not found: it is not there, or the room did not suffice. -/
def notFound (room : Nat) (is : List Nat) (t : Token) : Fault :=
  if is.length ≤ room then .runtime t (.undefined t.lexeme) else .overflow

theorem notFound_cons (room : Nat) (i : Nat) (is : List Nat) (t : Token) :
    notFound (room + 1) (i :: is) t = notFound room is t := by
  simp only [notFound, List.length_cons, Nat.add_le_add_iff_right]

/-- A variable is worth what its name is on the part of the chain that there is room for. -/
theorem read_eq (t : Token) (h : s.ChainOf i is) (room : Nat) :
    s.read t room i =
      match s.worth? t.lexeme (is.take room) with
      | some v => .ok v
      | none => .error (notFound room is t) := by
  induction h generalizing room with
  | outermost hi hp =>
    cases room with
    | zero => rfl
    | succ room =>
      rw [read, hi, List.take_succ_cons, worth?_cons, own?_of_scope hi]
      dsimp only
      cases Scope.get? _ t.lexeme with
      | some v => rfl
      | none =>
        rw [hp, List.take_nil]
        rfl
  | within hi hp _ ih =>
    cases room with
    | zero => rfl
    | succ room =>
      rw [read, hi, List.take_succ_cons, worth?_cons, own?_of_scope hi, notFound_cons]
      dsimp only
      cases Scope.get? _ t.lexeme with
      | some v => rfl
      | none =>
        rw [hp]
        exact ih room

/-- A variable is assigned in its binder, if there is room for the chain so far. -/
theorem assign_eq (t : Token) (v : Value) (h : s.ChainOf i is) (room : Nat) :
    s.assign t v room i =
      match s.binder? t.lexeme (is.take room) with
      | some j => .ok (s.define j t.lexeme v)
      | none => .error (notFound room is t) := by
  induction h generalizing room with
  | outermost hi hp =>
    cases room with
    | zero => rfl
    | succ room =>
      rw [assign, hi, List.take_succ_cons, binder?_cons, own?_of_scope hi]
      dsimp only
      split
      · rfl
      · rw [hp, List.take_nil]
        rfl
  | within hi hp _ ih =>
    cases room with
    | zero => rfl
    | succ room =>
      rw [assign, hi, List.take_succ_cons, binder?_cons, own?_of_scope hi, notFound_cons]
      dsimp only
      split
      · rfl
      · rw [hp]
        exact ih room

/-- A variable is seen if its name has a binder. -/
theorem sees_eq (x : String) (h : s.ChainOf i is) {room : Nat} (hr : is.length ≤ room) :
    s.sees x room i = .ok (s.binder? x is).isSome := by
  induction h generalizing room with
  | outermost hi hp =>
    obtain ⟨room, rfl⟩ := Nat.exists_eq_add_of_lt hr
    rw [sees, hi, binder?_cons, own?_of_scope hi]
    dsimp only
    split
    · rfl
    · rw [hp]
      rfl
  | within hi hp _ ih =>
    obtain ⟨room, rfl⟩ := Nat.exists_eq_add_of_lt hr
    rw [sees, hi, binder?_cons, own?_of_scope hi]
    dsimp only
    split
    · rfl
    · rw [hp]
      exact ih (Nat.le_add_right _ _)

/-! ## The same walk -/

/-- What a name means in a scope says what is read. -/
theorem read_eq_resolve (s : Store) (t : Token) (room i : Nat) :
    s.read t room i =
      match s.resolve t.lexeme room i with
      | .found _ v => .ok v
      | .unbound => .error (.runtime t (.undefined t.lexeme))
      | .tooDeep => .error .overflow := by
  induction room generalizing i with
  | zero => rfl
  | succ room ih =>
    rw [read, resolve]
    cases s.scopes[i]? with
    | none => rfl
    | some here =>
      dsimp only
      cases here.get? t.lexeme with
      | some v => rfl
      | none =>
        cases here.parent with
        | none => rfl
        | some p => exact ih p

/-- What a name means in a scope says where it is assigned. -/
theorem assign_eq_resolve (s : Store) (t : Token) (v : Value) (room i : Nat) :
    s.assign t v room i =
      match s.resolve t.lexeme room i with
      | .found j _ => .ok (s.define j t.lexeme v)
      | .unbound => .error (.runtime t (.undefined t.lexeme))
      | .tooDeep => .error .overflow := by
  induction room generalizing i with
  | zero => rfl
  | succ room ih =>
    rw [assign, resolve]
    cases s.scopes[i]? with
    | none => rfl
    | some here =>
      dsimp only
      cases here.get? t.lexeme with
      | some v => rfl
      | none =>
        cases here.parent with
        | none => rfl
        | some p => exact ih p

end Store

/-! ## Running programs -/

/-- A running program reads a variable as it is read in a forest. -/
theorem Run.lookup_eq_read (t : Token) (m : Machine) :
    Run.lookup t m =
      match m.store.read t m.store.room m.scope with
      | .ok v => .ok v m
      | .error e => .error e m := by
  rw [Run.lookup_eq, Store.read_eq_resolve]
  cases m.store.resolve t.lexeme m.store.room m.scope <;> rfl

/-- A running program assigns a variable as it is assigned in a forest. -/
theorem Run.assign_eq_assign (t : Token) (v : Value) (m : Machine) :
    Run.assign t v m =
      match m.store.assign t v m.store.room m.scope with
      | .ok s => .ok () { m with store := s }
      | .error e => .error e m := by
  rw [Run.assign_eq, Store.assign_eq_resolve]
  cases m.store.resolve t.lexeme m.store.room m.scope <;> rfl

end LoxLang
