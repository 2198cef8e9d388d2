import LoxLang.Node.NearestToken
import LoxLang.Proofs.Node.Alike
import Mathlib.Data.List.Lex
import Mathlib.Data.List.Flatten
/-!
# The nearest token comes first

A part of a tree has an address: which field or element to go to, level by level from the root. The
queue of the search holds the rest of one level, and behind it what lies below the beginning of the
level. So the levels are searched one after the other, each in the order of its addresses, and the
token that is found has the shortest address of all, and the first among those. The tokens that have
an address are those of the nodes that stand in the tree: no field of a node is left out.
-/

namespace LoxLang

namespace Part

/-- The part at an address. -/
def at? (root : Part) : List ℕ → Option Part
  | [] => some root
  | i :: address => (root.inner[i]?).bind fun p => p.at? address

/-- A token stands at an address. -/
def HoldsAt (root : Part) (address : List ℕ) (t : Token) : Prop := root.at? address = some (token t)

/-- A token stands at some address, and all others stand deeper, or as deep and further right. -/
def Nearest (root : Part) (t : Token) : Prop :=
  ∃ address, root.HoldsAt address t ∧ ∀ address' t', root.HoldsAt address' t' →
    address.length < address'.length ∨ address.length = address'.length ∧ address ≤ address'

variable {root p : Part} {t t' : Token}

theorem token?_eq_some : p.token? = some t ↔ p = token t := by
  cases p <;> simp [token?]

theorem at?_append (address rest : List ℕ) :
    root.at? (address ++ rest) = (root.at? address).bind fun p => p.at? rest := by
  induction address generalizing root with
  | nil => simp [at?]
  | cons i address ih =>
    rw [List.cons_append, at?, at?]
    cases root.inner[i]? with
    | none => rfl
    | some p => exact ih

theorem at?_singleton (i : ℕ) : root.at? [i] = root.inner[i]? := by
  rw [at?]
  cases root.inner[i]? <;> rfl

/-- There is only one nearest token. -/
theorem Nearest.unique (h : root.Nearest t) (h' : root.Nearest t') : t = t' := by
  obtain ⟨address, ht, hleast⟩ := h
  obtain ⟨address', ht', hleast'⟩ := h'
  have heq : address = address' := by
    rcases hleast _ _ ht', hleast' _ _ ht with ⟨hlt | ⟨hlength, hle⟩, hlt' | ⟨hlength', hle'⟩⟩
    · omega
    · omega
    · omega
    · exact le_antisymm hle hle'
  rw [HoldsAt, heq, ht'] at ht
  cases ht
  rfl

/-! ## Tokens -/

/-- A token stands in a part if it is the part, or stands in something one level below. -/
theorem exists_holdsAt_iff :
    (∃ address, root.HoldsAt address t) ↔
      root = token t ∨ ∃ p ∈ root.inner, ∃ address, p.HoldsAt address t := by
  constructor
  · rintro ⟨_ | ⟨i, address⟩, h⟩
    · exact .inl (Option.some.inj h)
    · obtain ⟨p, hp, h⟩ := Option.bind_eq_some_iff.1 h
      exact .inr ⟨p, List.mem_of_getElem? hp, address, h⟩
  · rintro (rfl | ⟨p, hp, address, h⟩)
    · exact ⟨[], rfl⟩
    · obtain ⟨i, hi⟩ := List.getElem?_of_mem hp
      exact ⟨i :: address, Option.bind_eq_some_iff.2 ⟨p, hi, h⟩⟩

@[simp]
theorem exists_holdsAt_value (v : Value) : (∃ address, (value v).HoldsAt address t) ↔ False := by
  rw [exists_holdsAt_iff]
  simp [inner]

@[simp]
theorem exists_holdsAt_token : (∃ address, (token t').HoldsAt address t) ↔ t' = t := by
  rw [exists_holdsAt_iff]
  simp [inner]

@[simp]
theorem exists_holdsAt_list (parts : List Part) :
    (∃ address, (list parts).HoldsAt address t) ↔ ∃ p ∈ parts, ∃ address, p.HoldsAt address t := by
  rw [exists_holdsAt_iff]
  simp [inner]

/-- The tokens below a node are its own and those of the nodes right below it. -/
theorem exists_holdsAt_node (n : Node) :
    (∃ address, (node n).HoldsAt address t) ↔
      (∃ r, (r, t) ∈ n.ownTokens) ∨ ∃ m ∈ n.children, ∃ address, (node m).HoldsAt address t := by
  rw [exists_holdsAt_iff]
  cases n with
  | varDecl _ v | returnStmt _ v | ifStmt _ _ v =>
    cases v <;> simp [inner, Node.fields, ofOption, Node.ownTokens, Node.children, eq_comm]
  | funDecl => simp [inner, Node.fields, Node.ownTokens, Node.children, exists_or, eq_comm, or_assoc]
  | _ => simp [inner, Node.fields, Node.ownTokens, Node.children, eq_comm, or_left_comm]

/-- The tokens with an address in a tree are the tokens of the nodes that stand in it. -/
theorem exists_holdsAt_iff_within (n : Node) :
    (∃ address, (node n).HoldsAt address t) ↔
      ∃ (k : Node) (r : Role), k.Within n ∧ (r, t) ∈ k.ownTokens := by
  induction n using Node.induction with
  | step n ih =>
    rw [exists_holdsAt_node]
    constructor
    · rintro (⟨r, hr⟩ | ⟨m, hm, h⟩)
      · exact ⟨n, r, .top, hr⟩
      · obtain ⟨k, r, hk, hr⟩ := (ih m hm).1 h
        exact ⟨k, r, .inside hm hk, hr⟩
    · rintro ⟨k, r, hk, hr⟩
      cases hk with
      | top => exact .inl ⟨r, hr⟩
      | inside hm hk => exact .inr ⟨_, hm, (ih _ hm).2 ⟨k, r, hk, hr⟩⟩

/-! ## Levels -/

/-- What lies so many levels below the root, with its addresses, from left to right. -/
def level (root : Part) : ℕ → List (List ℕ × Part)
  | 0 => [([], root)]
  | depth + 1 => (root.level depth).flatMap fun a => a.2.inner.mapIdx fun i p => (a.1 ++ [i], p)

/-- A level holds what has an address of that length. -/
theorem mem_level {depth : ℕ} {address : List ℕ} :
    (address, p) ∈ root.level depth ↔ address.length = depth ∧ root.at? address = some p := by
  induction depth generalizing address p with
  | zero => cases address <;> simp [level, at?, eq_comm]
  | succ depth ih =>
    simp only [level, List.mem_flatMap, List.mem_mapIdx, Prod.mk.injEq, Prod.exists]
    constructor
    · rintro ⟨above, q, hq, i, hi, rfl, rfl⟩
      obtain ⟨hlength, hat⟩ := ih.1 hq
      refine ⟨by simp [hlength], ?_⟩
      rw [at?_append, hat, Option.bind_some, at?_singleton]
      exact List.getElem?_eq_getElem hi
    · rintro ⟨hlength, hat⟩
      obtain ⟨above, i, rfl⟩ : ∃ above i, address = above ++ [i] :=
        ⟨_, _, (List.dropLast_append_getLast (List.ne_nil_of_length_eq_add_one hlength)).symm⟩
      rw [at?_append, Option.bind_eq_some_iff] at hat
      obtain ⟨q, hq, hp⟩ := hat
      rw [at?_singleton] at hp
      obtain ⟨hi, hp⟩ := List.getElem?_eq_some_iff.1 hp
      exact ⟨above, q, ih.2 ⟨by simpa using hlength, hq⟩, i, hi, rfl, hp⟩

/-- Addresses of one length keep their order, whatever is added to them. -/
theorem append_lt_append {above above' : List ℕ} (h : above < above')
    (hlength : above.length = above'.length) (below below' : List ℕ) :
    above ++ below < above' ++ below' := by
  induction above generalizing above' with
  | nil =>
    obtain rfl := List.length_eq_zero_iff.1 hlength.symm
    exact absurd h (lt_irrefl _)
  | cons i above ih =>
    obtain ⟨j, above', rfl⟩ := List.exists_cons_of_length_eq_add_one hlength.symm
    rw [List.cons_append, List.cons_append, List.cons_lt_cons_iff]
    obtain hij | ⟨hij, h⟩ := List.cons_lt_cons_iff.1 h
    · exact .inl hij
    · exact .inr ⟨hij, ih h (by simpa using hlength)⟩

/-- The addresses of a level are in order. -/
theorem pairwise_level (root : Part) (depth : ℕ) :
    (root.level depth).Pairwise fun a b => a.1 < b.1 := by
  induction depth with
  | zero => exact List.pairwise_singleton _ _
  | succ depth ih =>
    rw [level, List.pairwise_flatMap]
    refine ⟨fun a _ => ?_, ih.imp_of_mem fun {a b} ha hb hab => ?_⟩
    · -- Below one part, the last step decides.
      rw [List.pairwise_iff_getElem]
      intro i j hi hj hij
      simp only [List.getElem_mapIdx]
      exact List.append_left_lt (List.cons_lt_cons_iff.2 (.inl hij))
    · -- Below two parts, the parts themselves decide.
      intro x hx y hy
      obtain ⟨i, hi, rfl⟩ := List.mem_mapIdx.1 hx
      obtain ⟨j, hj, rfl⟩ := List.mem_mapIdx.1 hy
      exact append_lt_append hab ((mem_level.1 ha).1.trans (mem_level.1 hb).1.symm) _ _

/-- What lies below the parts of a level is the next one. -/
theorem map_level_succ (root : Part) (depth : ℕ) :
    (root.level (depth + 1)).map Prod.snd = ((root.level depth).map Prod.snd).flatMap inner := by
  rw [level, List.map_flatMap, List.flatMap_map]
  congr 1
  funext a
  exact List.ext_getElem (by simp) (by simp)

/-- Nothing lies below an empty level. -/
theorem at?_of_level_eq_nil {depth : ℕ} (h : root.level depth = []) {address : List ℕ}
    (hlength : depth ≤ address.length) : root.at? address = none := by
  have hnone : root.at? (address.take depth) = none := by
    rw [Option.eq_none_iff_forall_ne_some]
    intro p hp
    have hmem := mem_level.2 ⟨List.length_take_of_le hlength, hp⟩
    rw [h] at hmem
    cases hmem
  rw [← List.take_append_drop depth address, at?_append, hnone]
  rfl

theorem total_flatMap_inner_le (ps : List Part) :
    total (ps.flatMap inner) + ps.length ≤ total ps := by
  induction ps with
  | nil => simp [total]
  | cons p ps ih =>
    have := total_inner_lt p
    simp only [List.flatMap_cons, total_append, total, List.length_cons]
    omega

/-! ## The search -/

theorem firstToken_cons (p : Part) (rest : List Part) :
    firstToken (p :: rest) = p.token?.or (firstToken (rest ++ p.inner)) := by
  rw [firstToken]
  cases p.token? <;> rfl

/-- The rest of a level is searched before what has gathered behind it, and that before what lies
below the rest. -/
theorem firstToken_append (rest gathered : List Part) :
    firstToken (rest ++ gathered) =
      (rest.findSome? token?).or (firstToken (gathered ++ rest.flatMap inner)) := by
  induction rest generalizing gathered with
  | nil => simp
  | cons p rest ih =>
    rw [List.cons_append, firstToken_cons, List.append_assoc, ih, List.findSome?_cons,
      List.flatMap_cons, List.append_assoc]
    cases p.token? <;> rfl

/-- One level is searched after the other. -/
theorem firstToken_level (root : Part) (depth : ℕ) :
    firstToken ((root.level depth).map Prod.snd) =
      ((root.level depth).findSome? (·.2.token?)).or
        (firstToken ((root.level (depth + 1)).map Prod.snd)) := by
  have h := firstToken_append ((root.level depth).map Prod.snd) []
  rw [List.append_nil, List.nil_append, ← map_level_succ, List.findSome?_map] at h
  exact h

/-- Without a token above a level, the first one in the level is the nearest. -/
theorem nearest_of_level {depth : ℕ}
    (habove : ∀ address t, root.HoldsAt address t → depth ≤ address.length)
    (h : (root.level depth).findSome? (·.2.token?) = some t) : root.Nearest t := by
  obtain ⟨left, ⟨address, p⟩, right, hsplit, hp, hleft⟩ := List.findSome?_eq_some_iff.1 h
  obtain rfl := token?_eq_some.1 hp
  have hfound : (address, token t) ∈ root.level depth := by
    rw [hsplit]
    simp
  obtain ⟨hlength, hat⟩ := mem_level.1 hfound
  refine ⟨address, hat, fun address' t' h' => ?_⟩
  obtain hlt | heq := (habove address' t' h').lt_or_eq
  · exact .inl (hlength ▸ hlt)
  refine .inr ⟨hlength.trans heq, ?_⟩
  -- Every other token of the level stands to the right of the one that was found.
  have hmem := mem_level.2 ⟨heq.symm, h'⟩
  have hsorted := root.pairwise_level depth
  rw [hsplit] at hmem hsorted
  rcases List.mem_append.1 hmem with hmem | hmem
  · cases hleft _ hmem
  rcases List.mem_cons.1 hmem with hsame | hmem
  · cases hsame
    exact le_refl _
  · exact le_of_lt (List.rel_of_pairwise_cons (List.pairwise_append.1 hsorted).2.1 hmem)

/-- The search from a level on, if there is no token above it. -/
theorem firstToken_level_cases (depth : ℕ)
    (habove : ∀ address t, root.HoldsAt address t → depth ≤ address.length) :
    (firstToken ((root.level depth).map Prod.snd) = none ∧ ∀ address t, ¬ root.HoldsAt address t) ∨
      ∃ t, firstToken ((root.level depth).map Prod.snd) = some t ∧ root.Nearest t := by
  -- Each level holds less than the one above it.
  induction hsize : total ((root.level depth).map Prod.snd) using Nat.strong_induction_on
    generalizing depth with
  | _ size ih =>
    rw [firstToken_level]
    cases hfirst : (root.level depth).findSome? (·.2.token?) with
    | some t => exact .inr ⟨t, rfl, nearest_of_level habove hfirst⟩
    | none =>
      rw [Option.none_or]
      have hbelow : ∀ address t, root.HoldsAt address t → depth + 1 ≤ address.length := by
        intro address t h
        refine lt_of_le_of_ne (habove address t h) fun heq => ?_
        cases List.findSome?_eq_none_iff.1 hfirst _ (mem_level.2 ⟨heq.symm, h⟩)
      by_cases hempty : root.level depth = []
      · left
        rw [map_level_succ, hempty]
        refine ⟨by simp [firstToken], fun address t h => ?_⟩
        rw [HoldsAt, at?_of_level_eq_nil hempty (habove address t h)] at h
        cases h
      · refine ih _ ?_ (depth + 1) hbelow rfl
        have hle := total_flatMap_inner_le ((root.level depth).map Prod.snd)
        have hpos := List.length_pos_iff.2 hempty
        rw [← map_level_succ, List.length_map] at hle
        omega

/-- The search through a part of a tree, be it a node or lists of any nesting, comes to an end. It
finds nothing if and only if the part holds no token at all, and else the one token that no other
one precedes: all others stand deeper, or as deep and further right. -/
theorem nearestToken?_eq (root : Part) :
    (root.nearestToken? = none ↔ ∀ address t, ¬ root.HoldsAt address t) ∧
      ∀ t, root.nearestToken? = some t ↔ root.Nearest t := by
  change (firstToken ((root.level 0).map Prod.snd) = none ↔ _) ∧
    ∀ t, firstToken ((root.level 0).map Prod.snd) = some t ↔ _
  rcases firstToken_level_cases 0 fun _ _ _ => Nat.zero_le _ with ⟨hnone, hholds⟩ | ⟨t, hsome, ht⟩
  · rw [hnone]
    refine ⟨by simp [hholds], fun t => ⟨nofun, ?_⟩⟩
    rintro ⟨address, h, -⟩
    exact absurd h (hholds address t)
  · rw [hsome]
    obtain ⟨address, h, -⟩ := id ht
    refine ⟨⟨nofun, fun hholds => absurd h (hholds address t)⟩, fun t' => ?_⟩
    rw [Option.some_inj]
    exact ⟨fun e => e ▸ ht, ht.unique⟩

end Part

end LoxLang
