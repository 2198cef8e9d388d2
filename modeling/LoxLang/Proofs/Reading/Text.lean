import LoxLang.Proofs.Reading.Program
import LoxLang.Proofs.Token.Scan
/-!
# Reading texts

The end token of a text is the last of its tokens and the only one of its kind, so that every text
has a program.
-/

namespace LoxLang.Program

/-- The program of a text. -/
def ofText (source : String) (nesting : Nat := nestingLimit) : Program :=
  .ofScan (.ofText source) nesting

/-- The tokens of a text before the end token. -/
def tokensOf (source : String) : List Token := Scan.body 1 (items source.toList)

theorem tokensOf_ne_eof (source : String) : ∀ t ∈ tokensOf source, t.kind ≠ .eof :=
  Scan.body_ne_eof (fun _ => Item.proper_of_mem_items) 1

/-- A text has an end token, so reading its tokens comes to its program. -/
theorem within?_ofText (source : String) (nesting : Nat) :
    within? nesting (Scan.ofText source).tokens = some (ofText source nesting) := by
  have htokens : (Scan.ofText source).tokens =
      tokensOf source ++ [Token.eof (Scan.lastLine 1 (items source.toList))] :=
    Scan.tokens_ofItems 1 (items source.toList)
  have anywhere : ∀ t ∈ tokensOf source ++ [Token.eof (Scan.lastLine 1 (items source.toList))], True :=
    fun _ _ => trivial
  obtain ⟨p, hp, -⟩ := within?_reads nesting (tokensOf_ne_eof source) rfl anywhere
  rw [← htokens] at hp
  rw [ofText, ofScan, hp]
  rfl

/-- The trees made of a text are well formed and hold no tokens but its own, also if there was
something wrong with it. If there was not, they are those of the grammar. -/
theorem ofText_reads (source : String) (nesting : Nat) :
    ∃ last : Token, last.kind = .eof ∧
      within? nesting (tokensOf source ++ [last]) = some (ofText source nesting) ∧
      (∀ n ∈ (ofText source nesting).statements,
        n.Proper (· ∈ (Scan.ofText source).tokens) (.statement true)) ∧
      ((ofText source nesting).complaints = [] →
        Derives .declarations (tokensOf source) (ofText source nesting).statements) := by
  have htokens : (Scan.ofText source).tokens =
      tokensOf source ++ [Token.eof (Scan.lastLine 1 (items source.toList))] :=
    Scan.tokens_ofItems 1 (items source.toList)
  have known : ∀ t ∈ tokensOf source ++ [Token.eof (Scan.lastLine 1 (items source.toList))],
      t ∈ (Scan.ofText source).tokens := fun t ht => by rwa [htokens]
  obtain ⟨p, hp, hn, hd⟩ := within?_reads nesting (tokensOf_ne_eof source) rfl known
  have hprogram : ofText source nesting = p := by
    rw [ofText, ofScan, htokens, hp]
    rfl
  rw [hprogram]
  exact ⟨_, rfl, hp, hn, hd⟩

end LoxLang.Program
