import LoxLang.Node
/-!
# Induction on trees
-/

namespace LoxLang.Node

/-- The nodes right below a node. -/
def children : Node → List Node
  | literal _ | ident _ | bare _ | varDecl _ none | returnStmt _ none => []
  | assign _ value | unary _ value | grouping value | exprStmt value | printStmt value
  | varDecl _ (some value) | returnStmt _ (some value) => [value]
  | binary left _ right | logical left _ right | whileStmt left right
  | ifStmt left right none => [left, right]
  | ifStmt condition thenBranch (some elseBranch) => [condition, thenBranch, elseBranch]
  | call callee _ arguments => callee :: arguments
  | block body | funDecl _ _ body => body

theorem sizeOf_child {n m : Node} (h : m ∈ n.children) : sizeOf m < sizeOf n := by
  have pair : ∀ {a b : Node}, m ∈ [a, b] → sizeOf m ≤ sizeOf a + sizeOf b := by
    intro a b h
    simp only [List.mem_cons, List.not_mem_nil, or_false] at h
    rcases h with rfl | rfl <;> omega
  cases n with
  | literal | ident | bare => cases h
  | assign | unary | grouping | exprStmt | printStmt =>
    obtain rfl := List.mem_singleton.1 h
    simp
    try omega
  | varDecl _ value | returnStmt _ value =>
    cases value with
    | none => cases h
    | some =>
      obtain rfl := List.mem_singleton.1 h
      simp
      omega
  | binary | logical | whileStmt =>
    have := pair h
    simp
    omega
  | ifStmt _ _ elseBranch =>
    cases elseBranch with
    | none =>
      have := pair h
      simp
      omega
    | some =>
      rcases List.mem_cons.1 h with rfl | h
      · simp
        omega
      · have := pair h
        simp
        omega
  | call =>
    rcases List.mem_cons.1 h with rfl | h
    · simp
      omega
    · have := List.sizeOf_lt_of_mem h
      simp
      omega
  | block body | funDecl _ _ body =>
    have h : m ∈ body := h
    have := List.sizeOf_lt_of_mem h
    simp
    omega

/-- What holds of a node whenever it holds of the nodes right below it holds of every node. -/
@[elab_as_elim]
theorem induction {P : Node → Prop} (step : ∀ n : Node, (∀ m ∈ n.children, P m) → P n) (n : Node) :
    P n :=
  step n fun m _ => induction step m
termination_by sizeOf n
decreasing_by exact sizeOf_child ‹_›

theorem height_pos (n : Node) : 0 < n.height := by
  unfold height
  split <;> omega

/-- A node stands somewhere in a tree, if only at its top. -/
inductive Within (k : Node) : Node → Prop
  | top : Within k k
  | inside {n m : Node} : m ∈ n.children → Within k m → Within k n

end LoxLang.Node
