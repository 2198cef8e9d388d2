import LoxLang.Proofs.Token.Places
/-!
# Longest match

A text splits into items in one way, each the longest that it can start with there, and those are
the items that are found. The tokens of a scan are those of its token items and an end token, and
what is reported is what is wrong with its other items.
-/

namespace LoxLang

namespace Scan

open Item

/-- Items are blamed in order. -/
theorem blamed_errors (line : ℕ) (is : List Item) :
    List.Forall₂ Blamed (is.filter isError) ((ofItems line is).errors.map fun e =>
      "[line " ++ intText e.line ++ "] Error" ++ "" ++ ": " ++ e.message) := by
  rw [List.forall₂_map_right_iff]
  refine forall₂_of_placed (forall₂_errors line (fun p e h => ?_) [] is)
  rw [Diagnostics.message_nowhere]
  exact blamed_of_error? h

/-- There is an error exactly if some item is one. -/
theorem errors_eq_nil_iff (line : ℕ) (is : List Item) :
    (ofItems line is).errors = [] ↔ ∀ i ∈ is, i.isError = false := by
  rw [errors_ofItems]
  refine forall₂_congr fun i _ => ⟨fun hnone => ?_, error?_eq_none⟩
  by_contra hi
  obtain ⟨e, he⟩ := exists_error? (Bool.eq_true_of_not_eq_false hi) line
  rw [hnone line] at he
  cases he

/-- Every text splits in one way into items that are each the longest match where they start, and
none of it is lost. The tokens are those that the token items give, in their order, and one end
token. For each error there is one message, in their order, and a syntax error has been reported
after a scan if one had been before or some item is an error. -/
theorem longest_match (source : String) :
    ∃ is : List Item,
      (∀ js, Splits source.toList js ↔ js = is) ∧
      is.flatMap Item.text = source.toList ∧
      (∃ ts line, (ofText source).tokens = ts ++ [Token.eof line] ∧ (∀ t ∈ ts, t.kind ≠ .eof) ∧
        List.Forall₂ Gives (is.filter isToken) ts) ∧
      ((ofText source).errors = [] ↔ ∀ i ∈ is, i.isError = false) ∧
      ∀ d : Diagnostics,
        (∃ messages, (d.addScan (ofText source).errors).messages = d.messages ++ messages ∧
          List.Forall₂ Blamed (is.filter isError) messages) ∧
        ((d.addScan (ofText source).errors).syntaxErrors ↔
          d.syntaxErrors ∨ ∃ i ∈ is, i.isError) := by
  refine ⟨items source.toList, fun _ => splits_iff, text_items _, ⟨_, _, tokens_ofItems _ _, ?_,
    gives_body _ _⟩, errors_eq_nil_iff _ _, fun d => ⟨⟨_, d.messages_addScan _,
    blamed_errors _ _⟩, ?_⟩⟩
  · exact body_ne_eof (fun i hi => proper_of_mem_items hi) 1
  · have herrors := errors_eq_nil_iff 1 (items source.toList)
    rw [Diagnostics.syntaxErrors_addScan, Bool.or_eq_true]
    refine or_congr Iff.rfl ?_
    rw [Bool.not_eq_true', ← Bool.not_eq_true, List.isEmpty_iff, ofText, herrors]
    simp

end Scan

end LoxLang
