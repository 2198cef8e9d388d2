import LoxLang.Proofs.Form.Composed
import LoxLang.Proofs.Form.Derived
/-!
# Texts that are accepted

A text in prefix form is accepted exactly if it spells a form that does not nest too deeply and
whose heads all take the operands they have; the expression is the one that the form means. What is
wrong with the text itself comes first, and then, from the inside out and from left to right, the
first head that does not take its operands.
-/

namespace LoxLang

namespace Form

/-! ## Outcomes -/

/-- How giving forms their meaning can end, if `depth` is how deep they nest, `cs` are the compounds
in them and `good` is what they mean. -/
inductive Outcome {α : Type} (room depth : ℕ) (cs : List Compound) (good : α → Prop) :
    Except ReadError α → Prop
  | ok {a : α} : depth ≤ room → (∀ c ∈ cs, c.Allowed) → good a → Outcome room depth cs good (.ok a)
  | malformed {c : Compound} : FirstFault cs c →
      Outcome room depth cs good (.error (.malformed c.head c.operands.length))
  | tooDeep : room < depth → Outcome room depth cs good (.error .tooDeep)

namespace Outcome

variable {α β : Type} {room depth depth' : ℕ} {cs cs' : List Compound} {good : α → Prop}
  {good' : β → Prop}

/-- One thing after the other. -/
theorem bind {x : Except ReadError α} {g : α → Except ReadError β} (hx : Outcome room depth cs good x)
    (hg : ∀ a, good a → Outcome room depth' cs' good' (g a)) :
    Outcome room (max depth depth') (cs ++ cs') good' (x >>= g) := by
  cases hx with
  | @ok a hdepth hcs ha =>
    change Outcome room (max depth depth') (cs ++ cs') good' (g a)
    -- The second part is reached only if nothing is wrong with the compounds of the first.
    have hga := hg a ha
    generalize g a = y at hga
    cases hga with
    | ok hdepth' hcs' hb =>
      refine .ok (max_le hdepth hdepth') (fun c hc => ?_) hb
      exact (List.mem_append.1 hc).elim (hcs c) (hcs' c)
    | malformed hc => exact .malformed (hc.behind hcs)
    | tooDeep hdepth' => exact .tooDeep (lt_max_of_lt_right hdepth')
  | malformed hc => exact .malformed (hc.append cs')
  | tooDeep hdepth => exact .tooDeep (lt_max_of_lt_left hdepth)

theorem map {x : Except ReadError α} {g : α → β} (hx : Outcome room depth cs good x)
    (hg : ∀ a, good a → good' (g a)) : Outcome room depth cs good' (x >>= fun a => return g a) := by
  cases hx with
  | ok hdepth hcs ha => exact .ok hdepth hcs (hg _ ha)
  | malformed hc => exact .malformed hc
  | tooDeep hdepth => exact .tooDeep hdepth

/-- Inside of one more pair of parentheses. -/
theorem inner {x : Except ReadError α} (hx : Outcome room depth cs good x) :
    Outcome (room + 1) (depth + 1) cs good x := by
  cases hx with
  | ok hdepth hcs ha => exact .ok (Nat.succ_le_succ hdepth) hcs ha
  | malformed hc => exact .malformed hc
  | tooDeep hdepth => exact .tooDeep (Nat.succ_lt_succ hdepth)

end Outcome

/-- The last step at a compound. -/
theorem compose?_outcome (room : ℕ) {head : String} {operands : List Form} {ns : List Node}
    (h : List.Forall₂ Means operands ns) :
    Outcome room 0 [⟨head, operands⟩] (Means (.list head operands))
      (match compose? head ns with
      | some n => (return n : Except ReadError Node)
      | none => throw (.malformed head ns.length)) := by
  split
  · next n hn =>
    have hcomposed := composed_iff.2 hn
    refine .ok (Nat.zero_le _) (fun c hc => ?_) (.list h hcomposed)
    obtain rfl := List.mem_singleton.1 hc
    exact (allowed_iff h).2 ⟨n, hcomposed⟩
  · next hnone =>
    rw [← h.length_eq]
    refine .malformed (.here fun hallowed => ?_)
    obtain ⟨n, hn⟩ := (allowed_iff h).1 hallowed
    cases hnone.symm.trans (composed_iff.1 hn)

mutual

theorem toNode_outcome : ∀ (room : ℕ) (f : Form),
    Outcome room f.depth f.compounds f.Means (f.toNode room)
  | room, .number value => by
    rw [toNode]
    exact .ok (Nat.zero_le _) (by simp [compounds]) .number
  | room, .string body => by
    rw [toNode]
    exact .ok (Nat.zero_le _) (by simp [compounds]) .string
  | room, .name text => by
    rw [toNode]
    exact .ok (Nat.zero_le _) (by simp [compounds]) (means_name_iff.2 rfl)
  | 0, .list head operands => by
    rw [toNode]
    exact .tooDeep (Nat.succ_pos _)
  | room + 1, .list head operands => by
    rw [toNode]
    exact (toNodes_outcome room operands).inner.bind fun ns hns => compose?_outcome (room + 1) hns

theorem toNodes_outcome : ∀ (room : ℕ) (fs : List Form),
    Outcome room (depths fs) (allCompounds fs) (List.Forall₂ Means fs) (toNodes room fs)
  | room, [] => by
    rw [toNodes]
    exact .ok (Nat.zero_le _) (by simp [allCompounds]) .nil
  | room, f :: fs => by
    rw [toNodes]
    exact (toNode_outcome room f).bind fun n hn => (toNodes_outcome room fs).map fun ns => .cons hn

end

section

variable {f : Form} {room : ℕ} {n : Node} {c : Compound}

theorem toNode_ok_iff : f.toNode room = .ok n ↔ f.depth ≤ room ∧ f.WellFormed ∧ f.Means n := by
  have h := toNode_outcome room f
  constructor
  · intro heq
    rw [heq] at h
    cases h with
    | ok hdepth hallowed hmeans => exact ⟨hdepth, hallowed, hmeans⟩
  · rintro ⟨hdepth, hallowed, hmeans⟩
    generalize f.toNode room = r at h
    cases h with
    | ok _ _ hmeans' => rw [hmeans.unique hmeans']
    | malformed hc => exact absurd hallowed hc.not_forall
    | tooDeep hdeep => omega

theorem toNode_malformed (hc : FirstFault f.compounds c) (hdepth : f.depth ≤ room) :
    f.toNode room = .error (.malformed c.head c.operands.length) := by
  have h := toNode_outcome room f
  generalize f.toNode room = r at h
  cases h with
  | ok _ hallowed => exact absurd hallowed hc.not_forall
  | malformed hc' => rw [hc.unique hc']
  | tooDeep hdeep => omega

/-- A form that nests no deeper than it may, and whose heads all take their operands, means some
expression. -/
theorem WellFormed.means (h : f.WellFormed) (hdepth : f.depth ≤ room) : ∃ n, f.toNode room = .ok n := by
  have hout := toNode_outcome room f
  generalize f.toNode room = r at hout
  cases hout with
  | ok => exact ⟨_, rfl⟩
  | malformed hc => exact absurd h hc.not_forall
  | tooDeep hdeep => omega

end

/-! ## No head goes without operands -/

mutual

theorem Derived.operands : ∀ {ts : List Terminal} {f : Form}, Derived ts f →
    ∀ c ∈ f.compounds, c.operands ≠ []
  | _, _, .number | _, _, .string | _, _, .name => by simp [compounds]
  | _, _, .list _ hoperands hne => by
    intro c hc
    rw [compounds] at hc
    rcases List.mem_append.1 hc with hc | hc
    · exact hoperands.operands c hc
    · obtain rfl := List.mem_singleton.1 hc
      exact hne

theorem DerivedAll.operands : ∀ {ts : List Terminal} {fs : List Form}, DerivedAll ts fs →
    ∀ c ∈ allCompounds fs, c.operands ≠ []
  | _, _, .nil => by simp [allCompounds]
  | _, _, .cons hf hfs => by
    intro c hc
    rw [allCompounds] at hc
    exact (List.mem_append.1 hc).elim (hf.operands c) (hfs.operands c)

end

end Form

/-! ## Texts -/

namespace Node

variable {text : String} {limit : ℕ}

/-- A text with an error in it spells no form, and an error in the text is all that is reported. -/
theorem ofText_inText_iff :
    (∃ e, ofText text limit = .error e ∧ e.InText) ↔ ∀ f : Form, ¬ f.SpelledBy text := by
  constructor
  · rintro ⟨e, he, hin⟩ f hf
    rw [ofText, Form.spelledBy_iff.1 hf] at he
    have hout := Form.toNode_outcome limit f
    change f.toNode limit = .error e at he
    rw [he] at hout
    cases hout <;> cases hin
  · intro h
    rcases Form.ofText_cases text with ⟨f, hf⟩ | ⟨e, he, hin⟩
    · exact absurd (Form.spelledBy_iff.2 hf) (h f)
    · exact ⟨e, by rw [ofText, he]; rfl, hin⟩

theorem ofText_spelled {f : Form} (h : f.SpelledBy text) : ofText text limit = f.toNode limit := by
  rw [ofText, Form.spelledBy_iff.1 h]
  rfl

theorem ofText_ok_iff {n : Node} : ofText text limit = .ok n ↔
    ∃ f : Form, f.SpelledBy text ∧ f.depth ≤ limit ∧ f.WellFormed ∧ f.Means n := by
  constructor
  · intro h
    obtain ⟨f, hf, hn⟩ := ok_of_bind h
    exact ⟨f, Form.spelledBy_iff.2 hf, Form.toNode_ok_iff.1 hn⟩
  · rintro ⟨f, hf, h⟩
    rw [ofText_spelled hf]
    exact Form.toNode_ok_iff.2 h

/-- However deep the reader may nest, a text is accepted exactly if it spells a form that does not
nest deeper and whose heads all take their operands, and then stands for what the form means. Errors
in the text come first, and after them the first head that does not take its operands, of which there
is at least one. -/
theorem accepts_prefix_form (text : String) (limit : ℕ) :
    ((∃ n, ofText text limit = .ok n) ↔
      ∃ f : Form, f.SpelledBy text ∧ f.depth ≤ limit ∧ f.WellFormed) ∧
    (∀ n, ofText text limit = .ok n ↔
      ∃ f : Form, f.SpelledBy text ∧ f.depth ≤ limit ∧ f.WellFormed ∧ f.Means n) ∧
    ((∃ e, ofText text limit = .error e ∧ e.InText) ↔ ∀ f : Form, ¬ f.SpelledBy text) ∧
    ∀ f : Form, f.SpelledBy text →
      (∀ c ∈ f.compounds, c.operands ≠ []) ∧
      (∀ c, f.depth ≤ limit → Form.FirstFault f.compounds c →
        ofText text limit = .error (.malformed c.head c.operands.length)) ∧
      (∀ head count, ofText text limit = .error (.malformed head count) →
        ∃ c, Form.FirstFault f.compounds c ∧ c.head = head ∧ c.operands.length = count) ∧
      (ofText text limit = .error .tooDeep → limit < f.depth) := by
  refine ⟨⟨?_, ?_⟩, fun n => ofText_ok_iff, ofText_inText_iff, fun f hf => ?_⟩
  · rintro ⟨n, hn⟩
    obtain ⟨f, hf, hdepth, hwell, -⟩ := ofText_ok_iff.1 hn
    exact ⟨f, hf, hdepth, hwell⟩
  · rintro ⟨f, hf, hdepth, hwell⟩
    rw [ofText_spelled hf]
    exact hwell.means hdepth
  · rw [ofText_spelled hf]
    obtain ⟨ts, -, hderived⟩ := hf
    have hout := Form.toNode_outcome limit f
    refine ⟨hderived.operands, fun c hdepth hc => Form.toNode_malformed hc hdepth, ?_, ?_⟩
    · intro head count heq
      rw [heq] at hout
      cases hout with
      | malformed hc => exact ⟨_, hc, rfl, rfl⟩
    · intro heq
      rw [heq] at hout
      cases hout with
      | tooDeep hdeep => exact hdeep

end Node

/-! ## Deep nesting -/

namespace Form

/-- A head that is not one, within groups. -/
def grouped : ℕ → Form
  | 0 => .list "foo" [.name "x"]
  | n + 1 => .list "group" [grouped n]

/-- A text of it. -/
def groupedText : ℕ → String
  | 0 => Node.form ["foo", "x"]
  | n + 1 => Node.form ["group", groupedText n]

theorem writes_grouped (n : ℕ) : Writes (groupedText n) (grouped n) := by
  induction n with
  | zero =>
    have hfoo : IsWord (String.ofList ['f', 'o', 'o']) := isWord_ofList rfl rfl
    have hx : IsWord (String.ofList ['x']) := isWord_ofList rfl rfl
    exact .list (isHead_word hfoo) (.cons (.atom (isTerminal_name hx) rfl) .nil) (List.cons_ne_nil _ _)
  | succ n ih =>
    have hgroup : IsWord (String.ofList ['g', 'r', 'o', 'u', 'p']) := isWord_ofList rfl rfl
    exact .list (isHead_word hgroup) (.cons ih .nil) (List.cons_ne_nil _ _)

theorem firstFault_grouped (n : ℕ) :
    FirstFault (grouped n).compounds ⟨"foo", [.name "x"]⟩ := by
  induction n with
  | zero =>
    refine .here fun h => ?_
    have hhead := h.single
    simp at hhead
  | succ n ih =>
    rw [grouped, compounds, allCompounds, allCompounds, List.append_nil]
    exact ih.append _

theorem toNode_grouped {room n : ℕ} (h : room ≤ n) : (grouped n).toNode room = .error .tooDeep := by
  induction room generalizing n with
  | zero => cases n <;> rw [grouped, toNode]
  | succ room ih =>
    obtain ⟨n, rfl⟩ := Nat.exists_eq_add_of_le' (Nat.one_le_of_lt h)
    rw [grouped, toNode, toNodes, ih (by omega)]
    rfl

end Form

/-- A form that nests too deeply is neither accepted nor are its heads looked at. -/
theorem Node.ofText_grouped :
    Form.FirstFault (Form.grouped 4000).compounds ⟨"foo", [.name "x"]⟩ ∧
      (Form.grouped 4000).SpelledBy (Form.groupedText 4000) ∧
      ofText (Form.groupedText 4000) = .error .tooDeep := by
  have hspelled := Form.spelledBy_iff.2 (Form.writes_grouped 4000).ofText
  refine ⟨Form.firstFault_grouped 4000, hspelled, ?_⟩
  rw [ofText_spelled hspelled]
  exact Form.toNode_grouped (by decide)

end LoxLang
