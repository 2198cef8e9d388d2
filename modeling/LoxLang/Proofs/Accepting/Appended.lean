import LoxLang.Proofs.Accepting.Program
import LoxLang.Proofs.Reading.Confined
import LoxLang.Proofs.Reading.Recovery
/-!
# Programs one behind the other

Declarations that keep to the grammar are read alike whatever follows them, as long as that is no
`else`. So what is behind a program is read as if it stood alone.
-/

namespace LoxLang

open Parse Rules

namespace Program

variable {origin : Token → Prop} {deep : ℕ} {rules : Rules} {ts P Q : List Token} {ns : List Node}
  {last t : Token} {rest : List Token}

/-- A declaration is read alike in front of all tokens that do not start with `else`, or it runs out of
layers in front of all of them. -/
theorem declaration_alike (ha : RulesAccepted rules) {n : Node} (hn : Derives .declaration ts [n])
    (hlength : ts.length < rules.rounds) (before : List Token) (xs : List Complaint) :
    (∀ us u rest, headKind us u.kind ≠ .keyword .elseWord →
      rules.declaration ⟨before, ts ++ (us ++ u :: rest), xs⟩ =
        .ok (some n) ⟨ts.reverse ++ before, us ++ u :: rest, xs⟩) ∨
    ∀ us u rest, headKind us u.kind ≠ .keyword .elseWord →
      ∃ c, rules.declaration ⟨before, ts ++ (us ++ u :: rest), xs⟩ = .error .tooDeep c := by
  refine Or.imp (fun h us u rest hu => ?_) (fun h us u rest hu => ?_)
    (ha.declaration before.length ts n [] (hn.loose (by simp) _) hlength)
  all_goals
    obtain ⟨w, ws, hw, hwk⟩ := head_append us u rest
    rw [hw]
  · rw [h _ w ws rfl rfl (hwk ▸ hu), List.append_nil]
    rfl
  · exact h _ w ws rfl rfl (hwk ▸ hu)

/-- Declarations that are read up to the end without nesting too deeply are read in front of any other
token but `else`. They run out of layers there only if they do before the end. -/
theorem passes_of_declarations (hr : RulesRead origin deep rules) (ha : RulesAccepted rules)
    (hd : Derives .declarations ts ns) (hl : last.kind = .eof) (ht : t.kind ≠ .keyword .elseWord) :
    ∀ rounds before xs ms c', Cursor.Ready origin rounds ⟨before, ts ++ last :: rest, xs⟩ →
      rounds ≤ rules.rounds →
      declarations rules rounds ⟨before, ts ++ last :: rest, xs⟩ = .ok ms c' →
      (∀ x ∈ c'.complaints, x.objection ≠ .tooDeep) →
      Passes rules ⟨before, ts ++ t :: rest, xs⟩ ns ⟨ts.reverse ++ before, t :: rest, xs⟩ := by
  refine Derives.declarations_induction ?nil ?cons hd
  case nil =>
    intro rounds before xs ms c' _ _ _ _
    exact .none
  case cons =>
    intro ts n us ns hn hns ih rounds before xs ms c' hc hrounds e hshallow
    have hloose := hn.loose (by simp) before.length
    obtain ⟨u, vs, rfl⟩ : ∃ u vs, ts = u :: vs :=
      List.exists_cons_of_ne_nil (hloose.ne_nil (by simp) (by simp))
    have hu : u.kind ≠ .eof := hloose.ne_eof u List.mem_cons_self
    obtain ⟨rounds, rfl⟩ : ∃ r, rounds = r + 1 := ⟨rounds - 1, by have := hc.short; omega⟩
    rw [List.append_assoc] at hc e ⊢
    have htaken : Cursor.Takes ⟨before, u :: vs ++ (us ++ last :: rest), xs⟩ (u :: vs)
        ⟨(u :: vs).reverse ++ before, us ++ last :: rest, xs⟩ :=
      ⟨rfl, rfl, hloose.ne_eof, List.prefix_refl _⟩
    have hlength : (u :: vs).length < rules.rounds := by
      have hleft := htaken.left
      have hshort := hc.short
      omega
    have hfollow : ∀ {v : Token}, v.kind ≠ .keyword .elseWord → headKind us v.kind ≠ .keyword .elseWord :=
      (hns.loose (by simp) 0).headKind_ne_elseWord
    have hlast : headKind us last.kind ≠ .keyword .elseWord := hfollow (by simp [hl])
    rcases declaration_alike ha hn hlength before xs with hgoes | hdeep
    · rw [declarations_cons rfl hu (hgoes us last rest hlast)] at e
      obtain ⟨ms, c₁, e, hms⟩ := Parse.ok_of_bind e
      cases hms
      have hrest := ih rounds _ xs ms c' (hc.takes htaken (by simp)) (by omega) e hshallow
      rw [← List.append_assoc, ← List.reverse_append] at hrest
      exact Passes.next rfl hu (hgoes us t rest (hfollow ht)) hrest
    · -- It would have been complained about in front of the end as well.
      have hinside : Cursor.Inside origin rules.rounds ⟨before, u :: vs ++ (us ++ last :: rest), xs⟩ :=
        ⟨⟨hc.ended, hc.known, Nat.lt_of_lt_of_le hc.short hrounds⟩, u, _, rfl, hu⟩
      obtain ⟨c₁, e₁⟩ := hdeep us last rest hlast
      obtain ⟨-, ns', c₂, e₂, x, hx, hobj⟩ := declarations_tooDeep hr rounds hinside e₁
      cases e.symm.trans e₂
      exact absurd hobj (hshallow x hx)

end Program

/-- Complaints are worded alike wherever their tokens stand. -/
theorem Diagnostics.addComplaints_later (d : Diagnostics) (k : ℕ) (xs : List Complaint) :
    d.addComplaints (xs.map (Complaint.later k)) = d.addComplaints xs := List.foldl_map

namespace Program

variable {P Q : List Token} {ns : List Node} {last last' : Token} {nesting : ℕ}

/-- If nothing is wrong with a program, it is read in the same way in front of any tokens that do not
start with `else`, with no more nesting than before. Those are read as if they stood alone: their
statements come behind those of the program, and what is reported is just what is wrong with them. -/
theorem within?_append (hP : ∀ t ∈ P, t.kind ≠ .eof) (hl : last.kind = .eof)
    (h : within? nesting (P ++ [last]) = some ⟨ns, []⟩)
    (hQ : ∀ t ∈ Q.head?, t.kind ≠ .keyword .elseWord) (hl' : last'.kind = .eof) :
    ∃ q xs, within? nesting (Q ++ [last']) = some q ∧
      within? nesting (P ++ (Q ++ [last'])) = some ⟨ns ++ q.statements, xs⟩ ∧
      xs = q.complaints.map (Complaint.later P.length) ∧
      ∀ d : Diagnostics, d.addComplaints xs = d.addComplaints q.complaints := by
  obtain ⟨t, rest, hnext, ht⟩ : ∃ t rest, Q ++ [last'] = t :: rest ∧ t.kind ≠ .keyword .elseWord := by
    cases Q with
    | nil => exact ⟨last', [], rfl, by simp [hl']⟩
    | cons t Q => exact ⟨t, Q ++ [last'], rfl, hQ t rfl⟩
  have hend : ∃ u ∈ t :: rest, u.kind = .eof := ⟨last', by simp [← hnext], hl'⟩
  rw [hnext]
  -- What stands behind the end does not matter, so both runs can be given the same number of tokens.
  rw [← within?_behind nesting P rest hl] at h
  have hknown : ∀ u ∈ P ++ last :: rest, (fun _ : Token => True) u := fun _ _ => trivial
  obtain ⟨p, hp, -, hderives⟩ := within?_reads nesting hP hl hknown
  cases hp.symm.trans h
  obtain ⟨c, e, hquiet⟩ := reading_of_within? h
  have hlength : (P ++ last :: rest).length = (P ++ t :: rest).length := by simp
  rw [reading, hlength] at e
  have hstart : Cursor.Ready (fun _ => True) ((P ++ last :: rest).length + 1)
      ⟨[], P ++ last :: rest, []⟩ :=
    Cursor.ready_start ⟨last, by simp, hl⟩
  rw [hlength] at hstart
  have hpasses := passes_of_declarations (t := t) (RulesRead.atop _ nesting) (RulesAccepted.atop _ _)
    (hderives rfl) hl ht _ [] [] ns c hstart (Nat.le_of_eq (Rules.rounds_atop _ _).symm) e
    (by simp [hquiet])
  have hplace : (⟨P.reverse ++ [], t :: rest, []⟩ : Cursor) = Cursor.at (P ++ t :: rest) P.length [] := by
    simp [Cursor.at]
  rw [hplace] at hpasses
  obtain ⟨u, hu, hue⟩ := hend
  obtain ⟨q, hq, hwhole⟩ := within?_of_passes ⟨u, List.mem_append_right _ hu, hue⟩ (by simp) hpasses
  rw [List.drop_left] at hq
  exact ⟨q, _, hq, hwhole, rfl, fun d => d.addComplaints_later _ _⟩

/-- The tokens of `if (true) print true;`. -/
def ifTrue : List Token :=
  [⟨.keyword .ifWord, "if", .string "if", 1⟩, ⟨.leftParen, "(", .nil, 1⟩,
   ⟨.keyword .trueWord, "true", .string "true", 1⟩, ⟨.rightParen, ")", .nil, 1⟩] ++ printTrue

/-- The tokens of `) print true;`. -/
def strayPrint : List Token := ⟨.rightParen, ")", .nil, 1⟩ :: printTrue

/-- An `if` statement without an `else` in front of a parenthesis that closes nothing. -/
theorem within?_append_strayPrint :
    let ifNode : Node := .ifStmt (.literal (.bool true)) (.printStmt (.literal (.bool true))) none
    (∀ t ∈ ifTrue, t.kind ≠ .eof) ∧ (Token.eof 1).kind = .eof ∧
      within? 3 (ifTrue ++ [Token.eof 1]) = some ⟨[ifNode], []⟩ ∧
      (∀ t ∈ strayPrint.head?, t.kind ≠ .keyword .elseWord) ∧
      within? 3 (ifTrue ++ (strayPrint ++ [Token.eof 1])) =
        some ⟨[ifNode, .printStmt (.literal (.bool true))],
          [⟨7, ⟨.rightParen, ")", .nil, 1⟩, .expected "expression"⟩]⟩ := by
  intro ifNode
  have hif : within? 3 (ifTrue ++ [Token.eof 1]) = some ⟨[ifNode], []⟩ := rfl
  have hstray : within? 3 (strayPrint ++ [Token.eof 1]) =
      some ⟨[.printStmt (.literal (.bool true))],
        [⟨0, ⟨.rightParen, ")", .nil, 1⟩, .expected "expression"⟩]⟩ := rfl
  refine ⟨by decide, rfl, hif, by decide, ?_⟩
  obtain ⟨q, xs, hq, hwhole, rfl, -⟩ := within?_append (Q := strayPrint) (by decide) rfl hif
    (by decide) (rfl : (Token.eof 1).kind = .eof)
  cases hstray.symm.trans hq
  exact hwhole

end Program

end LoxLang
