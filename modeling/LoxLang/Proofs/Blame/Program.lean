import LoxLang.Proofs.Accepting.Objections
import LoxLang.Proofs.Blame.Statement
import LoxLang.Proofs.Reading.Recovery
/-!
# The first syntax error

The first syntax error of a program is complained about at the earliest token at which that is possible:
the tokens before it are the first ones of some program, and with that token they are not. A run that
stops there has seen nothing of what follows, so whatever follows, the complaint would be made.
-/

namespace LoxLang

open Parse Rules

theorem Tracks.untilHalt {rules : Rules} (h : RulesTracked rules) : ∀ rounds,
    Tracks (Program.untilHalt rules rounds) (fun ts _ ns => Loosely .declarations ts ns) := by
  intro rounds
  induction rounds with
  | zero => exact .throw (by simp) noMore.fills
  | succ rounds ih =>
    rw [Program.untilHalt]
    refine (Tracks.atEnd.bind fun _ => noMore.ite (oneMore h ih)).imp ?_
    rintro ts rest ns ⟨_, us, _, rfl, rfl, hns⟩
    exact hns

namespace Program

variable {origin : Token → Prop} {deep rounds nesting : Nat} {rules : Rules} {tokens : List Token}

/-! ## Declarations up to a halt -/

theorem untilHalt_end {c : Cursor} {t : Token} {rest : List Token} (h : c.after = t :: rest)
    (he : t.kind = .eof) : untilHalt rules (rounds + 1) c = .ok [] c := by
  rw [untilHalt, bind_ok (atEnd_eq h)]
  simp [he, pure, EStateM.pure]

theorem untilHalt_next {c : Cursor} {t : Token} {rest : List Token} (h : c.after = t :: rest)
    (he : t.kind ≠ .eof) : untilHalt rules (rounds + 1) c =
      (rules.declaration >>= fun first => untilHalt rules rounds >>= fun ns =>
        pure (first.toList ++ ns)) c := by
  have hend : decide (t.kind = .eof) = false := by simp [he]
  rw [untilHalt, bind_ok (atEnd_eq h), hend]
  rfl

/-- What is read up to the end stops there. -/
theorem untilHalt_atEnd : ∀ {rounds} {c c' : Cursor} {ns : List Node},
    untilHalt rules rounds c = .ok ns c' → ∃ t rest, c'.after = t :: rest ∧ t.kind = .eof := by
  intro rounds
  induction rounds with
  | zero =>
    intro c c' ns e
    cases e
  | succ rounds ih =>
    intro c c' ns e
    cases h : c.after with
    | nil =>
      obtain ⟨before, after, complaints⟩ := c
      cases h
      cases e
    | cons t rest =>
      by_cases he : t.kind = .eof
      · rw [untilHalt_end h he] at e
        cases e
        exact ⟨t, rest, h, he⟩
      · rw [untilHalt_next h he] at e
        obtain ⟨first, c₁, -, e⟩ := Parse.ok_of_bind e
        obtain ⟨ns, c₂, e', e⟩ := Parse.ok_of_bind e
        cases e
        exact ih e'

/-- A program is read as its declarations up to a halt. Only layers can run out before the end, and
that is complained about. -/
theorem declarations_untilHalt (hr : RulesRead origin deep rules) :
    ∀ rounds c, c.Ready origin rounds → rounds ≤ rules.rounds →
      ∃ ns c', declarations rules rounds c = .ok ns c' ∧
        said (untilHalt rules rounds c) <+: c'.complaints ∧
        ∀ halt c₁, untilHalt rules rounds c = .error halt c₁ → halt = .tooDeep ∧ deep ≤ c.left ∧
          ∃ t rest, c₁.after = t :: rest ∧
            c'.complaints = c₁.complaints ++ [⟨c₁.before.length, t, .tooDeep⟩] := by
  intro rounds
  induction rounds with
  | zero =>
    intro c hc _
    exact absurd hc.short (Nat.not_lt_zero _)
  | succ rounds ih =>
    intro c hc hle
    obtain ⟨t, rest, ht, -⟩ := hc.next
    by_cases he : t.kind = .eof
    · refine ⟨[], c, declarations_end ht he, ?_⟩
      rw [untilHalt_end ht he]
      exact ⟨List.prefix_refl _, fun _ _ e => nomatch e⟩
    have hinside : c.Inside origin rules.rounds :=
      ⟨⟨hc.ended, hc.known, Nat.lt_of_lt_of_le hc.short hle⟩, t, rest, ht, he⟩
    rw [untilHalt_next ht he]
    rcases h₁ : rules.declaration c with ⟨first, c₁⟩ | ⟨halt, c₁⟩
    · rw [bind_ok h₁]
      obtain ⟨us, hus, hl, -⟩ := hr.declaration.ok hinside h₁
      obtain ⟨ns, c', e, hsaid, hhalt⟩ := ih c₁ (hc.takes hus (by omega)) (by omega)
      refine ⟨first.toList ++ ns, c', ?_, ?_⟩
      · rw [declarations_cons ht he h₁, bind_ok e]
        rfl
      · rcases h₂ : untilHalt rules rounds c₁ with ⟨ms, c₂⟩ | ⟨halt, c₂⟩
        · rw [h₂] at hsaid
          rw [bind_ok h₂]
          exact ⟨hsaid, fun _ _ e => nomatch e⟩
        · rw [h₂] at hsaid
          rw [bind_error h₂]
          obtain ⟨rfl, hdeep, hlast⟩ := hhalt _ _ h₂
          refine ⟨hsaid, fun halt' c₂' e => ?_⟩
          cases e
          exact ⟨rfl, by have := hus.left; omega, hlast⟩
    · rw [bind_error h₁]
      obtain ⟨us, hus, hexplained⟩ := hr.declaration.error hinside h₁
      cases halt with
      | syntaxError => exact absurd h₁ (hr.recovers c c₁ hinside)
      | offEnd => exact hexplained.elim
      | tooDeep =>
        obtain ⟨u, rest', hu, -⟩ := (hc.takes hus (Nat.le_add_right _ _)).next
        refine ⟨[], _, declarations_deep ht he h₁ hu, List.prefix_append _ _, fun halt' c₂ e => ?_⟩
        cases e
        exact ⟨rfl, hexplained, u, rest', hu, rfl⟩

/-! ## Programs and their first tokens -/

/-- The tokens before the end are declarations of the loosened grammar. -/
def Complete (tokens : List Token) : Prop :=
  ∃ ds e rest ns xs, tokens = ds ++ e :: rest ∧ e.kind = .eof ∧ Loose 0 .declarations ds ns xs

/-- The tokens are the first ones of a program. -/
def Viable (ts : List Token) : Prop := ∃ us, Complete (ts ++ us)

theorem Complete.append (h : Complete tokens) (more : List Token) : Complete (tokens ++ more) := by
  obtain ⟨ds, e, rest, ns, xs, rfl, he, hd⟩ := h
  exact ⟨ds, e, rest ++ more, ns, xs, by simp, he, hd⟩

theorem Complete.ended (h : Complete tokens) : ∃ t ∈ tokens, t.kind = .eof := by
  obtain ⟨ds, e, rest, -, -, rfl, he, -⟩ := h
  exact ⟨e, by simp, he⟩

/-- With as many layers as tokens a program is read, and no declaration of it is given up. -/
theorem Complete.reads (h : Complete tokens) (hn : tokens.length ≤ nesting) :
    ∃ ns c, reading nesting tokens = .ok ns c ∧ ∀ x ∈ c.complaints, x.objection.isFatal = false := by
  obtain ⟨ds, e, rest, ns, xs, rfl, he, hd⟩ := h
  rcases reading_accepts nesting rest hd.ne_eof he hd with e | ⟨hdeep, -⟩
  · exact ⟨ns, _, e, fun x hx => (hd.mild x hx).mild⟩
  · rw [List.length_append, List.length_cons] at hn
    omega

/-- Tokens that can be completed to declarations are the first ones of a program. -/
theorem viable_of_completable {ts : List Token}
    (h : Completable (fun ts _ ns => Loosely .declarations ts ns) ts) : Viable ts := by
  obtain ⟨us, ns, -, hall⟩ := h
  obtain ⟨xs, hxs⟩ := hall [] not_elseAhead_nil 0
  exact ⟨us ++ [Token.eof 1], ts ++ us, Token.eof 1, [], ns, xs, by simp, rfl, hxs⟩

/-! ## Stopping at the first syntax error -/

/-- Reading from the start, up to the first syntax error. -/
def untilError (rounds nesting : Nat) (tokens : List Token) : EStateM.Result Halt Cursor (List Node) :=
  untilHalt (Rules.strictAtop rounds nesting) rounds ⟨[], tokens, []⟩

theorem complete_of_untilError {ns : List Node} {c : Cursor}
    (h : untilError rounds nesting tokens = .ok ns c) : Complete tokens := by
  obtain ⟨ts, hts, hall⟩ := (Tracks.untilHalt (RulesTracked.strictAtop rounds nesting) rounds).ok h
  obtain ⟨t, rest, ht, he⟩ := untilHalt_atEnd h
  obtain ⟨xs, hxs⟩ := hall c.after id 0
  exact ⟨ts, t, rest, ns, xs, by rw [← ht]; exact hts.after, he, hxs⟩

/-- More rounds and layers than were needed change nothing. -/
theorem untilError_mono {rounds' nesting' : Nat} (hr : rounds ≤ rounds') (hn : nesting ≤ nesting')
    {c : Cursor} (h : untilError rounds nesting tokens = .error .syntaxError c) :
    untilError rounds' nesting' tokens = .error .syntaxError c := by
  let alone : Surroundings := ⟨[], [], [], (· ≠ .syntaxError), by simp, by simp⟩
  have same : ∀ c : Cursor, c.amid alone = c := by
    rintro ⟨before, after, complaints⟩
    have hlater : complaints.map (Complaint.later 0) = complaints :=
      List.map_id'' Complaint.later_zero _
    simp [Cursor.amid, alone, hlater]
  have follows := Follows.untilHalt (Rules.Follow.strictAtop (s := alone) hr (by simp [alone]) hn) hr
    ⟨[], tokens, []⟩
  rw [same] at follows
  unfold untilError at h
  rw [h] at follows
  have := follows.resolve_left (by simp [alone])
  rwa [same] at this

/-- Whatever follows the token of the syntax error, the parser complains about it. -/
theorem untilError_said {rounds' nesting' : Nat} (hr : rounds ≤ rounds') (hn : nesting ≤ nesting')
    {c : Cursor} {ts rest : List Token} {t : Token}
    (h : untilError rounds nesting (ts ++ t :: rest) = .error .syntaxError c)
    (hc : c.after = t :: rest) (us : List Token) :
    c.complaints <+:
      said (untilHalt (Rules.atop rounds' nesting') rounds' ⟨[], ts ++ t :: us, []⟩) := by
  obtain ⟨ts', t', rest', hts, hc', hsaid⟩ :=
    (Leads.untilHalt (Rules.Lead.atop rounds' nesting') rfl).stop (untilError_mono hr hn h)
  cases hc.symm.trans hc'
  obtain rfl := List.append_cancel_right hts
  exact hsaid us

/-- No program has these tokens up to that of the syntax error. -/
theorem not_viable_of_untilError {c : Cursor} {ts rest : List Token} {t : Token} {x : Complaint}
    (h : untilError rounds nesting (ts ++ t :: rest) = .error .syntaxError c)
    (hc : c.after = t :: rest) (hx : x ∈ c.complaints) (hfatal : x.objection.isFatal = true) :
    ¬ Viable (ts ++ [t]) := by
  rintro ⟨us, hus⟩
  -- More tokens after the end, so that there are rounds enough.
  let more := List.replicate rounds t
  have hcomplete : Complete (ts ++ t :: (us ++ more)) := by
    simpa using hus.append more
  have hlong : rounds ≤ (ts ++ t :: (us ++ more)).length := by
    simp [more]
    omega
  have hdeep : nesting ≤ nesting + (ts ++ t :: (us ++ more)).length := Nat.le_add_right _ _
  have hsaid := untilError_said (Nat.le_succ_of_le hlong) hdeep h hc (us ++ more)
  obtain ⟨ns, c', e, hmild⟩ := hcomplete.reads (Nat.le_add_left _ nesting)
  obtain ⟨ns', c₁, e', hkept, -⟩ := declarations_untilHalt (RulesRead.atop _ _) _ _
    (Cursor.ready_start hcomplete.ended) (Nat.le_of_eq (Rules.rounds_atop _ _).symm)
  cases e.symm.trans e'
  rw [hmild x ((hsaid.trans hkept).subset hx)] at hfatal
  cases hfatal

/-- The place where a parser stands after some of the tokens. -/
theorem advances_place {c : Cursor} {ts rest : List Token} {t : Token}
    (h : Cursor.Advances ⟨[], tokens, []⟩ ts c) (hc : c.after = t :: rest) :
    tokens = ts ++ t :: rest ∧ c.before.length = ts.length ∧ tokens[ts.length]? = some t ∧
      tokens.take ts.length = ts ∧ tokens.take (ts.length + 1) = ts ++ [t] := by
  have hafter : tokens = ts ++ t :: rest := hc ▸ h.after
  refine ⟨hafter, by simp [h.before], ?_, ?_, ?_⟩ <;> simp [hafter, List.take_length_add_append]

/-- The tokens before a syntax error are the first ones of a program, and with the next they are not. -/
theorem untilError_blames {c : Cursor} (h : untilError rounds nesting tokens = .error .syntaxError c) :
    ∃ quiet x, c.complaints = quiet ++ [x] ∧ (∀ y ∈ quiet, y.objection.isFatal = false) ∧
      x.objection.isFatal = true ∧ tokens[x.position]? = some x.token ∧
      Viable (tokens.take x.position) ∧ ¬ Viable (tokens.take (x.position + 1)) := by
  obtain ⟨ts, c₁, hts, ⟨t, rest, what, ht, rfl⟩, hfits⟩ :=
    (Tracks.untilHalt (RulesTracked.strictAtop rounds nesting) rounds).stop h
  obtain ⟨quiet, hquiet, hmild⟩ := hts.mild
  obtain ⟨hsplit, hplace, htoken, htake, htake'⟩ := advances_place hts ht
  refine ⟨quiet, ⟨c₁.before.length, t, .expected what⟩, by rw [hquiet]; rfl, hmild, rfl, ?_⟩
  rw [hplace, htake, htake']
  rw [hsplit] at h
  exact ⟨htoken, viable_of_completable hfits,
    not_viable_of_untilError h ht (List.mem_append_right _ (List.mem_singleton_self _)) rfl⟩

/-- The tokens before that are too deeply nested are the first ones of a program too. -/
theorem untilError_tooDeep {c : Cursor} {t : Token} {rest : List Token}
    (h : untilError rounds nesting tokens = .error .tooDeep c) (hc : c.after = t :: rest) :
    (∀ y ∈ c.complaints, y.objection.isFatal = false) ∧ tokens[c.before.length]? = some t ∧
      Viable (tokens.take c.before.length) := by
  obtain ⟨ts, c₁, hts, rfl, hfits⟩ :=
    (Tracks.untilHalt (RulesTracked.strictAtop rounds nesting) rounds).stop h
  obtain ⟨quiet, hquiet, hmild⟩ := hts.mild
  obtain ⟨-, hplace, htoken, htake, -⟩ := advances_place hts hc
  rw [hplace, htake, hquiet]
  exact ⟨hmild, htoken, viable_of_completable hfits⟩

/-- Where the tokens before the end are no program, the first complaint that ends a declaration is about
the earliest token at which that can be known: the tokens before it are the first ones of a program, and
with it they are not. Only nesting can stop the parser before that, and it takes as many tokens as
there are layers. -/
theorem within?_blames (hend : ∃ t ∈ tokens, t.kind = .eof) (hno : ¬ Complete tokens) (nesting : Nat) :
    ∃ p quiet x more, within? nesting tokens = some p ∧ p.complaints = quiet ++ x :: more ∧
      (∀ y ∈ quiet, y.objection.isFatal = false) ∧ tokens[x.position]? = some x.token ∧
      Viable (tokens.take x.position) ∧
      ((x.objection.isFatal = true ∧ ¬ Viable (tokens.take (x.position + 1))) ∨
        (x.objection = .tooDeep ∧ nesting ≤ tokens.length)) := by
  obtain ⟨ns, c, e, hsaid, hhalt⟩ := declarations_untilHalt
    (RulesRead.atop (tokens.length + 1) nesting) _ _ (Cursor.ready_start hend) (by simp)
  have leads := Leads.untilHalt (Rules.Lead.atop (tokens.length + 1) nesting) (Eq.refl (tokens.length + 1))
  rcases h : untilError (tokens.length + 1) nesting tokens with ⟨ns', c'⟩ | ⟨halt, c'⟩
  · exact absurd (complete_of_untilError h) hno
  cases halt with
  | syntaxError =>
    obtain ⟨quiet, x, hx, hmild, hfatal, htoken, hviable, hnot⟩ := untilError_blames h
    obtain ⟨ts, t, rest, hts, -, hmade⟩ := leads.stop h
    have hmade := hmade rest
    rw [← hts] at hmade
    obtain ⟨more, hmore⟩ := hmade.trans hsaid
    refine ⟨_, quiet, x, more, within?_of_reading e, ?_, hmild, htoken, hviable, .inl ⟨hfatal, hnot⟩⟩
    rw [← hmore, hx, List.append_assoc]
    rfl
  | tooDeep =>
    obtain ⟨-, hdeep, t, rest, ht, hlast⟩ := hhalt _ _ (leads.halt h (by simp))
    obtain ⟨hmild, htoken, hviable⟩ := untilError_tooDeep h ht
    have hleft : Cursor.left ⟨[], tokens, []⟩ ≤ tokens.length := (List.takeWhile_sublist _).length_le
    exact ⟨_, _, _, [], within?_of_reading e, hlast, hmild, htoken, hviable,
      .inr ⟨rfl, Nat.le_trans hdeep hleft⟩⟩
  | offEnd =>
    obtain ⟨hne, -⟩ := hhalt _ _ (leads.halt h (by simp))
    cases hne

/-- What is read of `print true; ) print true;`. -/
theorem reading_strayParen : reading 20 strayParen =
    .ok [.printStmt (.literal (.bool true)), .printStmt (.literal (.bool true))]
      (Cursor.at strayParen 7 [strayParenBlamed]) := rfl

/-- No program starts with `print true; )`, but one does with `print true;`, and the parenthesis is
complained about. -/
theorem within?_blames_strayParen :
    (∃ t ∈ strayParen, t.kind = .eof) ∧ ¬ Complete strayParen ∧
      (∃ ns, within? 20 strayParen = some ⟨ns, [strayParenBlamed]⟩) ∧ strayParenBlamed.position = 3 ∧
      Viable (strayParen.take 3) ∧ ¬ Viable (strayParen.take 4) := by
  have hend : ∃ t ∈ strayParen, t.kind = .eof := ⟨Token.eof 1, by decide, rfl⟩
  have hno : ¬ Complete strayParen := by
    intro h
    obtain ⟨ns, c, e, hmild⟩ := h.reads (show strayParen.length ≤ 20 by decide)
    cases reading_strayParen.symm.trans e
    exact absurd (hmild strayParenBlamed (List.mem_singleton_self _)) (by decide)
  obtain ⟨p, quiet, x, more, hp, hx, hmild, htoken, hviable, hlast⟩ := within?_blames hend hno 20
  cases hp.symm.trans (within?_of_reading reading_strayParen)
  obtain ⟨rfl, rfl, rfl⟩ : quiet = [] ∧ x = strayParenBlamed ∧ more = [] := by
    cases quiet with
    | nil => simpa using hx.symm
    | cons => simp at hx
  rcases hlast with ⟨-, hnot⟩ | ⟨hdeep, -⟩
  · exact ⟨hend, hno, ⟨_, hp⟩, rfl, hviable, hnot⟩
  · cases hdeep

end Program

end LoxLang
