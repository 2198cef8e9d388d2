import LoxLang.Node
/-!
# The nearest token of a tree

The token nearest to the root of a tree, and the leftmost of those equally near. Every field of a
node lies one level below it, and every element of a list one level below the list. The search
keeps a queue of what it has yet to look at.
-/

namespace LoxLang

/-- What a field of a node or an element of a list may hold. -/
inductive Part where
  /-- A plain value; a field without a node holds `nil`. -/
  | value (v : Value)
  | token (t : Token)
  | node (n : Node)
  | list (parts : List Part)

namespace Part

/-- What a field holds that may be without a node. -/
def ofOption : Option Node → Part
  | some n => node n
  | none => value .nil

end Part

/-- The fields of a node in their order. -/
def Node.fields : Node → List Part
  | literal value => [.value value]
  | ident name => [.token name]
  | assign name value => [.token name, .node value]
  | unary operator right => [.token operator, .node right]
  | binary left operator right | logical left operator right =>
    [.node left, .token operator, .node right]
  | grouping inner | exprStmt inner | printStmt inner => [.node inner]
  | call callee paren arguments => [.node callee, .token paren, .list (arguments.map .node)]
  | varDecl token value | returnStmt token value => [.token token, .ofOption value]
  | block body => [.list (body.map .node)]
  | ifStmt condition thenBranch elseBranch =>
    [.node condition, .node thenBranch, .ofOption elseBranch]
  | whileStmt condition body => [.node condition, .node body]
  | funDecl name params body =>
    [.token name, .list (params.map .token), .list (body.map .node)]
  | bare _ => []

namespace Part

/-- The token that a part is, if it is one. -/
def token? : Part → Option Token
  | token t => some t
  | _ => none

/-- What lies one level below a part; the search goes no further than a token. -/
def inner : Part → List Part
  | value _ | token _ => []
  | node n => n.fields
  | list parts => parts

mutual

/-- How much a part holds. -/
noncomputable def size : Part → Nat
  | value v => sizeOf v
  | token t => sizeOf t
  | node n => sizeOf n
  | list parts => total parts + 1

/-- How much some parts hold together. -/
noncomputable def total : List Part → Nat
  | [] => 0
  | p :: ps => p.size + total ps

end

theorem total_append (ps qs : List Part) : total (ps ++ qs) = total ps + total qs := by
  induction ps with
  | nil => simp [total]
  | cons p ps ih => simp only [List.cons_append, total, ih]; omega

theorem total_map_node_lt (ns : List Node) : total (ns.map node) < sizeOf ns := by
  induction ns with
  | nil => simp [total]
  | cons n ns ih => simp only [List.map_cons, total, size, List.cons.sizeOf_spec]; omega

theorem total_map_token_lt (ts : List Token) : total (ts.map token) < sizeOf ts := by
  induction ts with
  | nil => simp [total]
  | cons t ts ih => simp only [List.map_cons, total, size, List.cons.sizeOf_spec]; omega

theorem size_ofOption_le (value : Option Node) : (ofOption value).size ≤ sizeOf value := by
  cases value <;> simp [ofOption, size]

/-- The fields of a node hold less than the node. -/
theorem total_fields_lt (n : Node) : total n.fields < sizeOf n := by
  cases n with
  | call _ _ arguments =>
    have := total_map_node_lt arguments
    simp only [Node.fields, total, size, Node.call.sizeOf_spec]
    omega
  | varDecl _ value | returnStmt _ value | ifStmt _ _ value =>
    have := size_ofOption_le value
    simp [Node.fields, total, size]
    omega
  | block body =>
    have := total_map_node_lt body
    simp [Node.fields, total, size]
    omega
  | funDecl _ params body =>
    have := total_map_node_lt body
    have := total_map_token_lt params
    simp [Node.fields, total, size]
    omega
  | _ => simp +arith [Node.fields, total, size]

theorem total_inner_lt (p : Part) : total p.inner < p.size := by
  cases p with
  | value v => cases v <;> simp +arith [inner, size, total]
  | token t =>
    cases t
    simp only [inner, size, total, Token.mk.sizeOf_spec]
    omega
  | node n => exact total_fields_lt n
  | list parts => simp [inner, size]

/-- Takes one part after the other from the front of a queue, until one of them is a token. What
lies below the others goes to the end of the queue. -/
def firstToken : List Part → Option Token
  | [] => none
  | p :: rest =>
    match p.token? with
    | some t => some t
    | none => firstToken (rest ++ p.inner)
termination_by queue => total queue
decreasing_by
  have := total_inner_lt p
  rw [total_append, total]
  omega

/-- The token nearest to a part, and the leftmost of those equally near. -/
def nearestToken? (root : Part) : Option Token := firstToken [root]

end Part

/-- The token nearest to the root of a tree, and the leftmost of those equally near. -/
def Node.nearestToken? (n : Node) : Option Token := (Part.node n).nearestToken?

end LoxLang
