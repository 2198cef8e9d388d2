import LoxLang.Grammar.Statement
import LoxLang.Diagnostics
/-!
# Programs

A program is a list of declarations up to the end token. Declarations with syntax errors are left
out; nesting that is too deep ends the program early.
-/

namespace LoxLang

/-- What was read: the statements, and the complaints in the order in which they were made. -/
structure Program where
  statements : List Node
  complaints : List Complaint

namespace Program

/-- The next declaration; none if it nests too deeply. -/
def nextDeclaration (rules : Rules) : Parse (Option (Option Node)) :=
  tryCatch (some <$> rules.declaration) fun
    | .tooDeep => do
      Parse.complainAhead .tooDeep
      return none
    | halt => throw halt

/-- The declarations up to the end. -/
def declarations (rules : Rules) : Nat → Parse (List Node)
  | 0 => throw .offEnd
  | rounds + 1 => do
    if ← Parse.atEnd then return []
    match ← nextDeclaration rules with
    | none => return []
    | some first => return first.toList ++ (← declarations rules rounds)

/-- Reads a program that nests at most `nesting` layers deep. Without an end token there is none. -/
def within? (nesting : Nat) (tokens : List Token) : Option Program :=
  let rounds := tokens.length + 1
  match declarations (Rules.atop rounds nesting) rounds ⟨[], tokens, []⟩ with
  | .ok statements c => some ⟨statements, c.complaints⟩
  | .error _ _ => none

/-- Reads a program. -/
def ofTokens? (tokens : List Token) : Option Program := within? nestingLimit tokens

/-- Reads the program of a scan, which always has an end token. -/
def ofScan (scan : Scan) (nesting : Nat := nestingLimit) : Program :=
  (within? nesting scan.tokens).getD ⟨[], []⟩

end Program

/-- Reports what was wrong with the tokens of a program. -/
def Diagnostics.addComplaints (d : Diagnostics) (complaints : List Complaint) : Diagnostics :=
  complaints.foldl (fun d c => d.addSyntaxAt c.token c.objection.message) d

end LoxLang
