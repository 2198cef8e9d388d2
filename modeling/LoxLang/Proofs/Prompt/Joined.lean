import LoxLang.Proofs.Accepting.Program
import LoxLang.Proofs.Grammar.Relined
import LoxLang.Proofs.Reading.Text
import LoxLang.Proofs.Token.Lines
/-!
# The program of joined texts

The program of texts with which nothing is wrong, joined by line ends, is that of the one text after
that of the other, but for the lines of the tokens.
-/

namespace LoxLang

/-- Whether neither the scan nor the program of a text is complained about. -/
def isValid (source : String) (nesting : Nat := nestingLimit) : Bool :=
  (Scan.ofText source).errors.isEmpty && (Program.ofText source nesting).complaints.isEmpty

theorem isValid_iff {source : String} {nesting : Nat} : isValid source nesting ↔
    (Scan.ofText source).errors = [] ∧ (Program.ofText source nesting).complaints = [] := by
  simp [isValid]

namespace Program

theorem derives_of_valid {source : String} (h : isValid source) :
    Derives .declarations (tokensOf source) (ofText source).statements := by
  obtain ⟨-, -, -, -, hd⟩ := ofText_reads source _
  exact hd (isValid_iff.1 h).2

/-- What the tokens of joined texts stand for, wherever the first line is. -/
theorem derives_joinLines {texts : List String} (h : ∀ t ∈ texts, isValid t) (k : Nat) :
    ∃ ns, Derives .declarations (Scan.body (1 + k) (items (joinLines texts).toList)) ns ∧
      Node.AllRelined (.statement true) (texts.flatMap fun t => (ofText t).statements) ns := by
  have moved : ∀ {t}, isValid t → ∀ k, ∃ ns,
      Derives .declarations (Scan.body (1 + k) (items t.toList)) ns ∧
        Node.AllRelined (.statement true) (ofText t).statements ns := by
    intro t ht k
    rw [Scan.body_later]
    have later : ∀ t : Token, t.Relined (t.later k) := fun _ => ⟨rfl, rfl, rfl⟩
    exact (derives_of_valid ht).relined later
  induction texts generalizing k with
  | nil =>
    rw [show (joinLines []).toList = [] from rfl, items]
    exact ⟨[], .noDeclarations, .nil⟩
  | cons text texts ih =>
    have htext := h text (by simp)
    obtain ⟨ns, hd, hns⟩ := moved htext k
    cases texts with
    | nil =>
      rw [List.flatMap_cons, List.flatMap_nil, List.append_nil]
      exact ⟨ns, hd, hns⟩
    | cons next texts =>
      -- The texts that follow start on the line after the last one of this text.
      obtain ⟨k', hk'⟩ := Nat.exists_eq_add_of_le
        (Nat.le_trans (Nat.le_add_right 1 k) (Scan.le_lastLine (items text.toList) (1 + k)))
      obtain ⟨ms, hd', hms⟩ := ih (fun t ht => h t (by simp [ht])) (k' + 1)
      rw [items_joinLines_cons (isValid_iff.1 htext).1, Scan.body_append, hk', List.flatMap_cons]
      exact ⟨ns ++ ms, Derives.declarations_append hd hd', List.rel_append hns hms⟩

/-- Nothing is wrong with a text that keeps to the grammar, unless it nests too deeply. -/
theorem ofText_accepts {source : String} {ns : List Node}
    (hd : Derives .declarations (tokensOf source) ns) :
    ((ofText source).complaints = [] ∧ (ofText source).statements = ns) ∨
      (nestingLimit ≤ (tokensOf source).length ∧
        ∃ x ∈ (ofText source).complaints, x.objection = .tooDeep) := by
  obtain ⟨last, hlast, hp, -⟩ := ofText_reads source _
  exact within?_accepts nestingLimit (tokensOf_ne_eof source) hlast hp hd

/-- Texts that are valid are so when they are joined, unless they nest too deeply. -/
theorem ofText_joinLines {texts : List String} (h : ∀ t ∈ texts, isValid t)
    (hdeep : ∀ x ∈ (ofText (joinLines texts)).complaints, x.objection ≠ .tooDeep) :
    isValid (joinLines texts) ∧
      Node.AllRelined (.statement true) (texts.flatMap fun t => (ofText t).statements)
        (ofText (joinLines texts)).statements := by
  obtain ⟨ns, hd, hns⟩ := derives_joinLines h 0
  rcases ofText_accepts hd with ⟨hclean, hstatements⟩ | ⟨-, x, hx, hxd⟩
  · rw [isValid_iff, hstatements]
    exact ⟨⟨errors_joinLines fun t ht => (isValid_iff.1 (h t ht)).1, hclean⟩, hns⟩
  · exact absurd hxd (hdeep x hx)

end Program

end LoxLang
