import LoxLang.Proofs.Effects.Names
import LoxLang.Proofs.Scoping.Chains
import Mathlib.Data.List.TFAE
import Mathlib.Tactic.TFAE
/-!
# The laws of forests

However a forest has grown, reading, assigning and asking agree from every scope whose chain there
is room for, and a name that is bound or assigned is changed for exactly the scopes that see the
change. A running program reads and assigns by the same laws. Where the room ends before the chain
does, a variable is not found although it is bound.
-/

namespace LoxLang

/-- The forests that grow in steps which name scopes that are there. Functions may be made in
between. -/
inductive Store.Grown (room : Nat) : Store → Prop
  | empty : Grown room .empty
  | makeFunction {s : Store} (c : Closure) : Grown room s → Grown room (s.makeFunction c).2
  | step {s : Store} {next : ForestStep} : (∀ i ∈ next.scopes, i < s.scopes.size) → Grown room s →
    Grown room (s.step room next).1

/-- Every scope has kept its place and its names, and one of them may have gained some. -/
structure Store.Kept (s s' : Store) (gains : Nat → Set String) : Prop where
  size : s'.scopes.size = s.scopes.size
  scopes : ∀ (i : Nat) (here : Scope), s.scopes[i]? = some here →
    here.Gains (gains i) s'.scopes[i]?

/-- The laws of a forest, for the scopes whose chains there is room for. -/
structure Store.ScopeLaws (s : Store) (room : Nat) : Prop where
  chained : ∀ {i : Nat}, i < s.scopes.size → ∃ is, s.ChainOf i is
  /-- A variable is there, can be read and can be assigned, all or none. -/
  agree : ∀ {i : Nat} {is : List Nat}, s.ChainOf i is → is.length ≤ room →
    ∀ (t : Token) (v : Value), [(s.step room (.ask i t.lexeme)).2 = .seen true,
      ∃ w, (s.step room (.read i t)).2 = .value w, (s.step room (.assign i t v)).2 = .done].TFAE
  /-- The nearest scope of the chain that binds the name has the value. -/
  nearest : ∀ {i : Nat} {is : List Nat}, s.ChainOf i is → is.length ≤ room →
    ∀ (t : Token) (v : Value), (s.step room (.read i t)).2 = .value v ↔
      ∃ j, s.binder? t.lexeme is = some j ∧ s.own? j t.lexeme = some v
  /-- An assignment is seen from the scopes in which the name has the same binder. -/
  assigned : ∀ {i : Nat} {is : List Nat}, s.ChainOf i is → is.length ≤ room →
    ∀ {t : Token} {v : Value}, (s.step room (.assign i t v)).2 = .done →
      let s' := (s.step room (.assign i t v)).1
      s.Kept s' (fun _ => ∅) ∧
        ∀ {k : Nat} {ks : List Nat}, s.ChainOf k ks → ks.length ≤ room → ∀ u : Token,
          (s'.step room (.read k u)).2 =
            if u.lexeme = t.lexeme ∧ s.binder? t.lexeme ks = s.binder? t.lexeme is then .value v
            else (s.step room (.read k u)).2
  /-- A new binding is seen from the scopes whose chains come to it before any other. -/
  defined : ∀ {i : Nat}, i < s.scopes.size → ∀ (x : String) (v : Value),
      let s' := (s.step room (.define i x v)).1
      s.Kept s' (fun j => if j = i then {x} else ∅) ∧
        ∀ {k : Nat} {ks : List Nat}, s.ChainOf k ks → ks.length ≤ room → ∀ u : Token,
          (s'.step room (.read k u)).2 =
            if u.lexeme = x ∧ i ∈ ks ∧ s.binder? x (ks.takeWhile (· ≠ i)) = none then .value v
            else (s.step room (.read k u)).2
  /-- What fails is blamed on the token, unless the chain is too long, and changes nothing. -/
  failed : ∀ {i : Nat} {is : List Nat}, s.ChainOf i is →
    ∀ {t : Token} {next : ForestStep}, (next = .read i t ∨ ∃ v, next = .assign i t v) →
      ∀ {e : Fault}, (s.step room next).2 = .failed e →
        (s.step room next).1 = s ∧
          e = notFound room is t

namespace Store

variable {s s' : Store} {room i k : Nat} {is ks : List Nat} {t : Token} {v : Value}

/-! ## Growing -/

/-- An assignment binds a name anew in some scope. -/
theorem define_of_assign (h : s.assign t v room i = .ok s') : ∃ j, s' = s.define j t.lexeme v := by
  induction room generalizing i with
  | zero => cases h
  | succ room ih =>
    rw [assign] at h
    split at h
    · cases h
    · split at h
      · cases h
        exact ⟨i, rfl⟩
      · split at h
        · exact ih h
        · cases h

/-- In a forest every scope lies in an older one. -/
theorem Grown.ordered (h : s.Grown room) : s.Ordered := by
  induction h with
  | empty =>
    intro i here p hi
    cases hi
  | makeFunction c _ ih => exact ih
  | @step s next hscopes _ ih =>
    cases next with
    | openScope parent =>
      refine ih.openScope fun p hp => hscopes p ?_
      exact Option.mem_toList.2 hp
    | define j x v => exact ih.define j x v
    | assign j t v =>
      rw [Store.step]
      split
      · next s' hs =>
        obtain ⟨k, rfl⟩ := define_of_assign hs
        exact ih.define k _ v
      · exact ih
    | read j t =>
      rw [Store.step]
      split <;> exact ih
    | ask j x =>
      rw [Store.step]
      split <;> exact ih

/-! ## Answers -/

theorem answer_read (s : Store) (room i : Nat) (t : Token) :
    (s.step room (.read i t)).2 =
      match s.read t room i with
      | .ok v => .value v
      | .error e => .failed e := by
  rw [step]
  cases s.read t room i <;> rfl

theorem answer_eq_read (h : s.ChainOf i is) (hr : is.length ≤ room) (t : Token) :
    (s.step room (.read i t)).2 =
      match s.worth? t.lexeme is with
      | some v => .value v
      | none => .failed (.runtime t (.undefined t.lexeme)) := by
  rw [answer_read, read_eq t h, List.take_of_length_le hr, notFound, if_pos hr]
  cases s.worth? t.lexeme is <;> rfl

theorem answer_eq_ask (h : s.ChainOf i is) (hr : is.length ≤ room) (x : String) :
    (s.step room (.ask i x)).2 = .seen (s.binder? x is).isSome := by
  rw [step, sees_eq x h hr]

theorem step_eq_assign (h : s.ChainOf i is) (hr : is.length ≤ room) (t : Token) (v : Value) :
    s.step room (.assign i t v) =
      match s.binder? t.lexeme is with
      | some j => (s.define j t.lexeme v, .done)
      | none => (s, .failed (.runtime t (.undefined t.lexeme))) := by
  rw [step, assign_eq t v h, List.take_of_length_le hr, notFound, if_pos hr]
  cases s.binder? t.lexeme is <;> rfl

/-! ## Changes -/

/-- A binding leaves every scope its place and its names, and adds one name to its own scope. -/
theorem kept_define (s : Store) (i : Nat) (x : String) (v : Value) :
    s.Kept (s.define i x v) (fun j => if j = i then {x} else ∅) where
  size := Array.size_modify
  scopes := by
    intro j here hj
    rw [getElem?_define, hj]
    by_cases h : i = j
    · rw [if_pos h, if_pos h.symm]
      refine ⟨_, rfl, rfl, ?_, ?_⟩ <;> rw [Scope.names_set]
      exact Set.subset_union_left
    · rw [if_neg h]
      exact .refl here _

/-- A binding of a name that the scope has already adds none. -/
theorem kept_define_of_own (h : (s.own? i t.lexeme).isSome) (v : Value) :
    s.Kept (s.define i t.lexeme v) (fun _ => ∅) where
  size := Array.size_modify
  scopes := by
    intro j here hj
    rw [getElem?_define, hj]
    by_cases hij : i = j
    · subst hij
      rw [own?_of_scope hj] at h
      have hnames : (here.set t.lexeme v).names = here.names := by
        rw [Scope.names_set]
        exact Set.union_eq_self_of_subset_right (Set.singleton_subset_iff.2 h)
      rw [if_pos rfl]
      exact ⟨_, rfl, rfl, hnames.ge, by rw [hnames]; exact Set.subset_union_left⟩
    · rw [if_neg hij]
      exact .refl here _

/-- What is read after a binding. -/
theorem answer_define (hi : i < s.scopes.size) (x : String) (v : Value) (h : s.ChainOf k ks)
    (hr : ks.length ≤ room) (u : Token) :
    ((s.define i x v).step room (.read k u)).2 =
      if u.lexeme = x ∧ i ∈ ks ∧ s.binder? x (ks.takeWhile (· ≠ i)) = none then .value v
      else (s.step room (.read k u)).2 := by
  rw [answer_eq_read (h.define i x v) hr, answer_eq_read h hr, worth?_define hi]
  by_cases hnew : u.lexeme = x ∧ i ∈ ks ∧ s.binder? x (ks.takeWhile (· ≠ i)) = none
  · rw [if_pos hnew, if_pos hnew]
  · rw [if_neg hnew, if_neg hnew]

/-! ## Laws -/

/-- The laws hold in every forest. -/
theorem Grown.scopeLaws (hs : s.Grown room) : s.ScopeLaws room where
  chained hi := hs.ordered.exists_chainOf hi
  agree := by
    intro i is h hr t v
    have hworth := s.isSome_worth? t.lexeme is
    rw [answer_eq_ask h hr, answer_eq_read h hr, step_eq_assign h hr]
    generalize s.worth? t.lexeme is = w at hworth ⊢
    cases hb : s.binder? t.lexeme is with
    | none =>
      obtain rfl : w = none := by simpa [hb] using hworth
      simp
    | some j =>
      obtain ⟨w, rfl⟩ : ∃ v, w = some v := by simpa [hb, Option.isSome_iff_exists] using hworth
      simp
  nearest := by
    intro i is h hr t v
    rw [answer_eq_read h hr, worth?]
    cases hb : s.binder? t.lexeme is with
    | none => simp
    | some j => cases hown : s.own? j t.lexeme <;> simp [hown]
  assigned := by
    intro i is h hr t v hdone
    rw [step_eq_assign h hr] at hdone ⊢
    cases hb : s.binder? t.lexeme is with
    | none =>
      rw [hb] at hdone
      cases hdone
    | some j =>
      have hown : (s.own? j t.lexeme).isSome = true := own?_of_binder? hb
      have hj : j < s.scopes.size := lt_size_of_own? hown
      refine ⟨kept_define_of_own hown v, fun {k ks} hk hr' u => ?_⟩
      refine (answer_define hj t.lexeme v hk hr' u).trans ?_
      exact if_congr (and_congr_right fun _ => (binder?_eq_some_iff hown).symm) rfl rfl
  defined hi x v := ⟨kept_define s _ x v, fun hk hr u => answer_define hi x v hk hr u⟩
  failed := by
    rintro i is h t next (rfl | ⟨v, rfl⟩) e he
    · rw [Store.step, read_eq t h] at he ⊢
      cases hw : s.worth? t.lexeme (is.take room) with
      | some v =>
        rw [hw] at he
        cases he
      | none =>
        rw [hw] at he
        cases he
        exact ⟨rfl, rfl⟩
    · rw [Store.step, assign_eq t v h] at he ⊢
      cases hb : s.binder? t.lexeme (is.take room) with
      | some j =>
        rw [hb] at he
        cases he
      | none =>
        rw [hb] at he
        cases he
        exact ⟨rfl, rfl⟩

/-! ## A forest at work -/

namespace Shared

/-- An outer scope with two names, one scope in it that binds the first of them anew, with another
one in it, and a second scope in the outer one. -/
def steps : List ForestStep :=
  [.openScope none, .define 0 "x" (.number 1), .define 0 "y" .nil, .openScope (some 0),
    .define 1 "x" (.bool true), .openScope (some 1), .openScope (some 0)]

def forest : Store := steps.foldl (fun s next => (s.step nestingLimit next).1) .empty

end Shared

/-- An assignment from the innermost scope is not seen from the scope beside. -/
theorem Grown.scopeLaws_shared :
    let x : Token := ⟨.identifier, "x", .string "x", 1⟩
    let s := (Shared.forest.step nestingLimit (.assign 2 x (.number 5))).1
    Shared.forest.Grown nestingLimit ∧ Shared.forest.ScopeLaws nestingLimit ∧
      (s.step nestingLimit (.read 2 x)).2 = .value (.number 5) ∧
      (s.step nestingLimit (.read 3 x)).2 = .value (.number 1) := by
  intro x s
  have hgrown : Shared.forest.Grown nestingLimit :=
    .step (by decide) <| .step (by decide) <| .step (by decide) <| .step (by decide) <|
      .step (by decide) <| .step (by decide) <| .step (by decide) .empty
  exact ⟨hgrown, hgrown.scopeLaws, rfl, rfl⟩

/-! ## Chains that are too long -/

/-- Scopes each of which lies in the one before, the outermost with a name. -/
def nested : Nat → Store
  | 0 => ((empty.step nestingLimit (.openScope none)).1.step nestingLimit
      (.define 0 "x" (.bool true))).1
  | n + 1 => ((nested n).step nestingLimit (.openScope (some n))).1

theorem size_nested (n : Nat) : (nested n).scopes.size = n + 1 := by
  induction n with
  | zero => rfl
  | succ n ih =>
    change ((nested n).scopes.push _).size = _
    rw [Array.size_push, ih]

theorem grown_nested (n : Nat) : (nested n).Grown nestingLimit := by
  induction n with
  | zero => exact .step (by decide) (.step (by decide) .empty)
  | succ n ih =>
    refine .step (fun i hi => ?_) ih
    obtain rfl : i = n := by simpa [ForestStep.scopes] using hi
    rw [size_nested]
    exact Nat.lt_succ_self i

/-- The chain of the innermost scope leads through all of them. -/
theorem chainOf_nested (n : Nat) : (nested n).ChainOf n (List.range (n + 1)).reverse := by
  induction n with
  | zero => exact .outermost rfl rfl
  | succ n ih =>
    rw [List.range_succ, List.reverse_append]
    have hkept : (nested (n + 1)).ChainOf n (List.range (n + 1)).reverse :=
      ih.of_parents fun j here hj => ⟨here, openScope_kept hj, rfl⟩
    have hnew := openScope_size (nested n) ⟨some n, []⟩
    rw [size_nested] at hnew
    exact .within hnew rfl hkept

theorem own?_nested {n j : Nat} (hj : j ≤ n) :
    (nested n).own? j "x" = if j = 0 then some (.bool true) else none := by
  induction n with
  | zero =>
    obtain rfl := Nat.le_zero.1 hj
    rfl
  | succ n ih =>
    have hstep : (nested (n + 1)).own? j "x" =
        (if j = n + 1 then some ⟨some n, []⟩ else (nested n).scopes[j]?).bind (·.get? "x") := by
      change ((nested n).openScope ⟨some n, []⟩).2.scopes[j]?.bind _ = _
      rw [getElem?_openScope, size_nested]
    rcases Nat.lt_or_eq_of_le hj with hlt | rfl
    · rw [hstep, if_neg (Nat.ne_of_lt hlt)]
      exact ih (Nat.le_of_lt_succ hlt)
    · rw [hstep, if_pos rfl, if_neg (Nat.succ_ne_zero n)]
      rfl

/-- Only the outermost scope binds the name. -/
theorem binder?_nested {n : Nat} {is : List Nat} (his : ∀ j ∈ is, j ≤ n) :
    (nested n).binder? "x" is = if 0 ∈ is then some 0 else none := by
  induction is with
  | nil => rfl
  | cons j is ih =>
    rw [binder?_cons, own?_nested (his j (by simp)), ih fun k hk => his k (by simp [hk])]
    by_cases hj : j = 0
    · simp [hj]
    · simp [hj, Ne.symm hj]

/-- The name is not read from a scope that is too far away from it. -/
theorem read_nested {n room : Nat} (hr : room ≤ n) (t : Token) (ht : t.lexeme = "x") :
    (nested n).read t room n = .error .overflow := by
  have hchain := chainOf_nested n
  have hle : ∀ j ∈ (List.range (n + 1)).reverse.take room, j ≤ n := by
    intro j hj
    have hmem := List.mem_of_mem_take hj
    simpa [Nat.lt_succ_iff] using hmem
  have hfar : 0 ∉ (List.range (n + 1)).reverse.take room := by
    have hsplit : (List.range (n + 1)).reverse = ((List.range n).map Nat.succ).reverse ++ [0] := by
      rw [List.range_succ_eq_map, List.reverse_cons]
    rw [hsplit, List.take_append_of_le_length (by simpa using hr)]
    intro hmem
    simpa using List.mem_of_mem_take hmem
  have hnone : (nested n).worth? t.lexeme ((List.range (n + 1)).reverse.take room) = none := by
    rw [worth?, ht, binder?_nested hle, if_neg hfar]
    rfl
  rw [read_eq t hchain, hnone, notFound, if_neg (by simpa [Nat.lt_succ_iff] using hr)]

/-- From a scope ten thousand deep in others the name of the outermost one is not read, although
that is the nearest one on the chain to bind it. -/
theorem tenThousandDeep_unread :
    let s := nested 10000
    let is := (List.range 10001).reverse
    let x : Token := ⟨.identifier, "x", .string "x", 1⟩
    s.Grown nestingLimit ∧ s.ChainOf 10000 is ∧ s.binder? "x" is = some 0 ∧
      s.own? 0 "x" = some (.bool true) ∧
      (s.step nestingLimit (.read 10000 x)).2 = .failed .overflow := by
  intro s is x
  have hle : ∀ j ∈ is, j ≤ 10000 := fun j hj => by simpa [is, Nat.lt_succ_iff] using hj
  refine ⟨grown_nested 10000, chainOf_nested 10000, ?_, ?_, ?_⟩
  · rw [binder?_nested hle, if_pos (by simp [is])]
  · exact own?_nested (Nat.zero_le _)
  · rw [answer_read, read_nested (by decide) x rfl]

end Store

end LoxLang
