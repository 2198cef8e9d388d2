import LoxLang.Node.Prefix
import LoxLang.Proofs.Node.Children
import LoxLang.Proofs.Reading.Basic
/-!
# Well-formed trees have a prefix form
-/

namespace LoxLang.Node

variable {origin : Token → Prop} {ns : List Node}

theorem expressionTexts_ok (h : ∀ n ∈ ns, ∃ s, n.expressionText = .ok s) :
    ∃ ss, expressionTexts ns = .ok ss := by
  induction ns with
  | nil => exact ⟨[], by rw [expressionTexts]⟩
  | cons n ns ih =>
    obtain ⟨s, hs⟩ := h n (by simp)
    obtain ⟨ss, hss⟩ := ih fun m hm => h m (by simp [hm])
    exact ⟨s :: ss, by rw [expressionTexts, hs, hss]; rfl⟩

theorem statementTexts_ok (h : ∀ n ∈ ns, ∃ s, n.statementText = .ok s) :
    ∃ ss, statementTexts ns = .ok ss := by
  induction ns with
  | nil => exact ⟨[], by rw [statementTexts]⟩
  | cons n ns ih =>
    obtain ⟨s, hs⟩ := h n (by simp)
    obtain ⟨ss, hss⟩ := ih fun m hm => h m (by simp [hm])
    exact ⟨s :: ss, by rw [statementTexts, hs, hss]; rfl⟩

theorem expressionText_ok {n : Node} (h : n.Proper origin .expression) :
    ∃ s, n.expressionText = .ok s := by
  induction n using Node.induction with
  | step n ih =>
    cases h with
    | literal | ident => exact ⟨_, by rw [expressionText]⟩
    | assign _ h | unary _ h | grouping h =>
      obtain ⟨s, hs⟩ := ih _ (by simp [children]) h
      exact ⟨_, by rw [expressionText, hs]; rfl⟩
    | binary ha _ hb | logical ha _ hb =>
      obtain ⟨s, hs⟩ := ih _ (by simp [children]) ha
      obtain ⟨s', hs'⟩ := ih _ (by simp [children]) hb
      exact ⟨_, by rw [expressionText, hs, hs']; rfl⟩
    | call hf _ has =>
      obtain ⟨s, hs⟩ := ih _ (by simp [children]) hf
      obtain ⟨ss, hss⟩ := expressionTexts_ok fun m hm =>
        ih m (by simp [children, hm]) (List.forall₂_same.1 has m hm)
      exact ⟨_, by rw [expressionText, hs, hss]; rfl⟩
    | misplaced h => exact h.elim

theorem statementText_ok {n : Node} {b : Bool} (h : n.Proper origin (.statement b)) :
    ∃ s, n.statementText = .ok s := by
  induction n using Node.induction generalizing b with
  | step n ih =>
    cases h with
    | exprStmt h =>
      obtain ⟨s, hs⟩ := expressionText_ok h
      exact ⟨_, by rw [statementText, hs]⟩
    | printStmt h | varValue _ h | returnValue _ h =>
      obtain ⟨s, hs⟩ := expressionText_ok h
      exact ⟨_, by rw [statementText, hs]; rfl⟩
    | varNil | returnNil => exact ⟨_, by rw [statementText]⟩
    | block h | funDecl _ _ h =>
      obtain ⟨ss, hss⟩ := statementTexts_ok fun m hm =>
        ih m (by simpa [children] using hm) (List.forall₂_same.1 h m hm)
      exact ⟨_, by rw [statementText, hss]; rfl⟩
    | ifThen hc h | whileStmt hc h =>
      obtain ⟨s, hs⟩ := expressionText_ok hc
      obtain ⟨s', hs'⟩ := ih _ (by simp [children]) h
      exact ⟨_, by rw [statementText, hs, hs']; rfl⟩
    | ifElse hc h he =>
      obtain ⟨s, hs⟩ := expressionText_ok hc
      obtain ⟨s', hs'⟩ := ih _ (by simp [children]) h
      obtain ⟨s'', hs''⟩ := ih _ (by simp [children]) he
      exact ⟨_, by rw [statementText, hs, hs', hs'']; rfl⟩
    | misplaced h => exact h.elim

end LoxLang.Node
