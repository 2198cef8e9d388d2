import LoxLang.Node.Prefix
import LoxLang.Proofs.Decimal.Texts
import LoxLang.Proofs.Form.Readable
/-!
# What comes back

Reading what the printer wrote loses the lines of tokens and the literals of operators, and infinity
comes back as a name. What comes back is as high as the expression and is written in the same way.
-/

namespace LoxLang

/-- A token that is read back, on line one. -/
def Token.relined (t : Token) : Token := { t with line := 1 }

/-- An operator that is read back, which has no literal either. -/
def Token.bare (t : Token) : Token := { t with literal := .nil, line := 1 }

/-- A literal that is read back: infinity as a name, any other as itself. -/
def Value.reread : Value → Node
  | number x => if x.isInf then .ident ⟨.identifier, "inf", .string "inf", 1⟩ else .literal (.number x)
  | v => .literal v

namespace Node

mutual

/-- An expression as it is read back. -/
def reread : Node → Node
  | literal value => value.reread
  | ident name => ident name.relined
  | assign name value => assign name.relined value.reread
  | unary operator right => unary operator.bare right.reread
  | binary left operator right => binary left.reread operator.bare right.reread
  | logical left operator right => logical left.reread operator.bare right.reread
  | grouping inner => grouping inner.reread
  | call callee paren arguments => call callee.reread paren.relined (rereads arguments)
  | other => other

/-- Some expressions as they are read back. -/
def rereads : List Node → List Node
  | [] => []
  | n :: ns => n.reread :: rereads ns

end

theorem rereads_eq_map (ns : List Node) : rereads ns = ns.map reread := by
  induction ns with
  | nil => rw [rereads]; rfl
  | cons n ns ih => rw [rereads, ih]; rfl

theorem height_literal_reread (v : Value) : v.reread.height = 1 := by
  unfold Value.reread
  split
  · split <;> rfl
  · rfl

theorem heights_rereads {ns : List Node} (h : ∀ n ∈ ns, n.reread.height = n.height) :
    heights (rereads ns) = heights ns := by
  induction ns with
  | nil => rw [rereads]
  | cons n ns ih =>
    rw [rereads, heights, heights, h n (by simp), ih fun m hm => h m (by simp [hm])]

/-- What comes back is as high as what was written. -/
theorem height_reread (e : Node) : e.reread.height = e.height := by
  induction e using Node.induction with
  | step e ih =>
    cases e with
    | literal v => rw [reread, height_literal_reread, height]
    | assign _ value | unary _ value | grouping value =>
      rw [reread, height, height, ih value (by simp [children])]
    | binary left _ right | logical left _ right =>
      rw [reread, height, height, ih left (by simp [children]), ih right (by simp [children])]
    | call callee _ arguments =>
      rw [reread, height, height, ih callee (by simp [children]),
        heights_rereads fun m hm => ih m (by simp [children, hm])]
    | _ => rw [reread] <;> simp [height]

theorem literal_reread_text {v : Value} (h : v.Spelled) :
    v.reread.expressionText = .ok v.literalText := by
  unfold Value.reread
  split
  · next x =>
    split
    · next hx =>
      rw [Unsigned.eq_inf h hx, expressionText, Value.literalText, numberLiteral_inf]
    · rw [expressionText]
  · rw [expressionText]

theorem expressionTexts_rereads {ns : List Node}
    (h : ∀ n ∈ ns, n.reread.expressionText = n.expressionText) :
    expressionTexts (rereads ns) = expressionTexts ns := by
  induction ns with
  | nil => rw [rereads]
  | cons n ns ih =>
    rw [rereads, expressionTexts, expressionTexts, h n (by simp), ih fun m hm => h m (by simp [hm])]

/-- What comes back is written in the same way. -/
theorem Readable.text_reread {e : Node} (h : e.Readable) :
    e.reread.expressionText = e.expressionText := by
  induction e using Node.induction with
  | step e ih =>
    cases h with
    | literal h => rw [reread, literal_reread_text h, expressionText]
    | ident => rw [reread, expressionText, expressionText]; rfl
    | assign _ h | unary _ h =>
      rw [reread, expressionText, expressionText, ih _ (by simp [children]) h]
      rfl
    | grouping h => rw [reread, expressionText, expressionText, ih _ (by simp [children]) h]
    | binary ha _ hb | logical ha _ hb =>
      rw [reread, expressionText, expressionText, ih _ (by simp [children]) ha,
        ih _ (by simp [children]) hb]
      rfl
    | call hf _ has =>
      rw [reread, expressionText, expressionText, ih _ (by simp [children]) hf,
        expressionTexts_rereads fun m hm =>
          ih m (by simp [children, hm]) (List.forall₂_same.1 has m hm)]
    | misplaced h => exact h.elim

end Node

end LoxLang
