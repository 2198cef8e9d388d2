import LoxLang.Grammar.Program
import LoxLang.Proofs.Reading.Statement
/-!
# Reading programs

Going on after an error keeps inside the tokens, so every layer of the rules reads what the grammar
says, and so does a whole program: there always is one, its trees are well formed, and if nothing
was wrong they are those of the grammar.
-/

namespace LoxLang

open Parse Rules

variable {origin : Token → Prop} {room deep : Nat} {below : Rules}

/-! ## Going on after an error -/

theorem skip_succ {c : Cursor} {t u : Token} {rest us : List Token} (h : c.after = t :: rest)
    (hb : c.before = u :: us) (rounds : Nat) :
    skip (rounds + 1) c =
      if t.kind = .eof ∨ u.kind = .semicolon ∨ t.kind ∈ resumptions then .ok () c
      else skip rounds ⟨t :: c.before, rest, c.complaints⟩ := by
  obtain ⟨before, after, complaints⟩ := c
  cases h
  cases hb
  by_cases he : t.kind = .eof
  · simp [skip, atEnd, ahead, bind, EStateM.bind, pure, EStateM.pure, he]
  by_cases hs : u.kind = .semicolon
  · simp [skip, atEnd, ahead, latest, bind, EStateM.bind, pure, EStateM.pure, he, hs]
  by_cases hr : t.kind ∈ resumptions
  · simp [skip, atEnd, ahead, latest, bind, EStateM.bind, pure, EStateM.pure, he, hs, hr]
  · simp [skip, atEnd, ahead, latest, take, step, bind, EStateM.bind, pure, EStateM.pure, he, hs, hr]

/-- Skipping takes some tokens and always ends. -/
theorem skip_takes : ∀ rounds (c : Cursor), c.Ready origin rounds → c.before ≠ [] →
    ∃ ts c', skip rounds c = .ok () c' ∧ c.Takes ts c' := by
  intro rounds
  induction rounds with
  | zero =>
    intro c hc
    exact absurd hc.short (Nat.not_lt_zero _)
  | succ rounds ih =>
    intro c hc hb
    obtain ⟨t, rest, h, -⟩ := hc.next
    obtain ⟨u, us, hu⟩ := List.exists_cons_of_ne_nil hb
    rw [skip_succ h hu]
    split
    · exact ⟨[], c, rfl, .refl c⟩
    · next hn =>
      have hone := Cursor.Takes.one h fun he => hn (.inl he)
      obtain ⟨ts, c', e, hts⟩ := ih _ (hc.takes hone (Nat.le_refl _)) (by simp)
      exact ⟨_, c', e, hone.trans hts⟩

/-- So does going on; at least one token has been taken when it ends. -/
theorem resume_takes {c₀ c : Cursor} {ts : List Token} (h₀ : c₀.Inside origin room)
    (h : c₀.Takes ts c) :
    ∃ us c', resume room c = .ok () c' ∧ c₀.Takes us c' ∧ c.complaints <+: c'.complaints ∧
      1 ≤ us.length := by
  have hc : c.Ready origin room := h₀.toReady.takes h (Nat.le_add_right _ _)
  obtain ⟨t, rest, ht, -⟩ := hc.next
  have resumed : ∀ u us c₁, take c = .ok u c₁ → c₀.Takes us c₁ → c.complaints = c₁.complaints →
      c₁.before ≠ [] → 1 ≤ us.length → ∃ us c', resume room c = .ok () c' ∧ c₀.Takes us c' ∧
        c.complaints <+: c'.complaints ∧ 1 ≤ us.length := by
    intro u us c₁ e hus hcomplaints hb hl
    obtain ⟨vs, c', e', hvs⟩ := skip_takes room c₁
      (h₀.toReady.takes hus (Nat.le_add_right _ _)) hb
    refine ⟨us ++ vs, c', ?_, hus.trans hvs, hcomplaints ▸ hvs.complaints, ?_⟩
    · exact (bind_ok e _).trans e'
    · rw [List.length_append]
      omega
  by_cases he : t.kind = .eof
  · -- The end was not next at the start, so some token lies behind.
    obtain ⟨t₀, rest₀, ht₀, he₀⟩ := h₀.next
    cases ts with
    | nil =>
      have := h.after
      rw [ht₀, ht] at this
      cases this
      exact absurd he he₀
    | cons t' ts =>
      have hb : c.before ≠ [] := by simp [h.before]
      obtain ⟨u, us, hu⟩ := List.exists_cons_of_ne_nil hb
      exact resumed u _ c (take_eof ht he hu) h rfl hb (by simp)
  · exact resumed t _ _ (take_eq ht he) (h.trans (.one ht he)) rfl (by simp) (by simp)

/-- A syntax error yields nothing and reading goes on; everything else stays as it is. -/
theorem declarationRule_eq (below : Rules) (c : Cursor) :
    declarationRule below c =
      match (some <$> soundDeclaration below) c with
      | .ok o c' => .ok o c'
      | .error .syntaxError c' => (resume below.rounds >>= fun _ => pure none) c'
      | .error halt c' => .error halt c' := by
  change EStateM.tryCatch (some <$> soundDeclaration below) _ c = _
  unfold EStateM.tryCatch
  dsimp only [EStateM.Backtrackable.save, EStateM.Backtrackable.restore]
  cases (some <$> soundDeclaration below) c with
  | ok => rfl
  | error halt c' => cases halt <;> rfl

theorem some_soundDeclaration_error {c c' : Cursor} {halt : Halt}
    (h : soundDeclaration below c = .error halt c') :
    (some <$> soundDeclaration below) c = .error halt c' := by
  change EStateM.map some _ _ = _
  rw [EStateM.map, h]

theorem declarationRule_tooDeep {c c' : Cursor} (h : soundDeclaration below c = .error .tooDeep c') :
    declarationRule below c = .error .tooDeep c' := by
  rw [declarationRule_eq, some_soundDeclaration_error h]

theorem declarationRule_syntaxError {c c' : Cursor}
    (h : soundDeclaration below c = .error .syntaxError c') :
    declarationRule below c = (resume below.rounds >>= fun _ => pure none) c' := by
  rw [declarationRule_eq, some_soundDeclaration_error h]

namespace Reads

theorem optionalDeclaration (h : RulesRead origin deep below) :
    Reads (Cursor.Ready origin below.rounds) (deep + 1) 1 (some <$> Rules.soundDeclaration below)
      (fun o => ∀ n ∈ o, Node.Proper origin (.statement true) n)
      (fun ts _ o => ∃ n, o = some n ∧ Derives .declaration ts [n]) :=
  Reads.map (Reads.soundDeclaration h) (by simp)

/-- A declaration with a syntax error is left behind, with a complaint. -/
theorem recovery (h : RulesRead origin deep below) {c c' : Cursor}
    (hc : c.Inside origin below.rounds)
    (e : (some <$> Rules.soundDeclaration below) c = .error .syntaxError c') :
    ∃ us c'', Rules.declarationRule below c = .ok none c'' ∧ c.Takes us c'' ∧ 1 ≤ us.length ∧
      c''.complaints ≠ c.complaints := by
  obtain ⟨ts, hts, hblamed⟩ := (Reads.optionalDeclaration h).error hc.toReady e
  obtain ⟨us, c'', e', hus, hkept, hl⟩ := resume_takes hc hts
  refine ⟨us, c'', ?_, hus, hl, ?_⟩
  · rw [declarationRule_eq, e]
    exact bind_ok e' _
  · intro heq
    rw [heq] at hkept
    exact hblamed.ne (hkept.eq_of_length_le hts.complaints.length_le)

theorem declarationRule (h : RulesRead origin deep below) :
    Reads (Cursor.Inside origin below.rounds) (deep + 1) 1 (declarationRule below)
      (fun o => ∀ n ∈ o, Node.Proper origin (.statement true) n)
      (fun ts _ o => ∃ n, o = some n ∧ Derives .declaration ts [n]) where
  ok {c o c'} hc e := by
    rcases h₁ : (some <$> Rules.soundDeclaration below) c with ⟨o', c₁⟩ | ⟨halt, c₁⟩
    · rw [declarationRule_eq, h₁] at e
      cases e
      exact (Reads.optionalDeclaration h).ok hc.toReady h₁
    · cases halt with
      | syntaxError =>
        obtain ⟨us, c'', e', hus, hl, hcomplained⟩ := recovery h hc h₁
        rw [e'] at e
        cases e
        exact ⟨us, hus, hl, by simp, fun e => absurd e hcomplained⟩
      | tooDeep | offEnd =>
        rw [declarationRule_eq, h₁] at e
        cases e
  error {c halt c'} hc e := by
    rcases h₁ : (some <$> Rules.soundDeclaration below) c with ⟨o', c₁⟩ | ⟨halt', c₁⟩
    · rw [declarationRule_eq, h₁] at e
      cases e
    · cases halt' with
      | syntaxError =>
        obtain ⟨us, c'', e', -⟩ := recovery h hc h₁
        rw [e'] at e
        cases e
      | tooDeep | offEnd =>
        rw [declarationRule_eq, h₁] at e
        cases e
        exact (Reads.optionalDeclaration h).error hc.toReady h₁

theorem recovers (h : RulesRead origin deep below) (c c' : Cursor)
    (hc : c.Inside origin below.rounds) :
    Rules.declarationRule below c ≠ .error .syntaxError c' := by
  intro e
  rcases h₁ : (some <$> Rules.soundDeclaration below) c with ⟨o, c₁⟩ | ⟨halt, c₁⟩
  · rw [declarationRule_eq, h₁] at e
    cases e
  · cases halt with
    | syntaxError =>
      obtain ⟨us, c'', e', -⟩ := recovery h hc h₁
      rw [e'] at e
      cases e
    | tooDeep | offEnd =>
      rw [declarationRule_eq, h₁] at e
      cases e

end Reads

/-! ## Layers and programs -/

/-- The rules of the lowest layer give up at once, which any number of tokens explains. -/
theorem RulesRead.floor (rounds : Nat) : RulesRead origin 0 (Rules.floor rounds) := by
  have thrown : ∀ {α : Type} {pre : Cursor → Prop} {whole : α → Prop}
      {clean : List Token → List Token → α → Prop},
      Reads pre 0 1 (throw .tooDeep : Parse α) whole clean := by
    intro α pre whole clean
    refine ⟨fun _ e => ?_, fun {c halt c'} _ e => ?_⟩
    · cases e
    · cases e
      exact ⟨[], .refl c, Nat.zero_le _⟩
  exact ⟨⟨thrown, thrown⟩, thrown, thrown, fun _ _ _ e => by cases e⟩

/-- Every layer takes one token more to exhaust. -/
theorem RulesRead.above (h : RulesRead origin deep below) :
    RulesRead origin (deep + 1) (Rules.above below) :=
  ⟨⟨Reads.expressionRule h.toExpressionsRead, Reads.unaryRule h.toExpressionsRead⟩,
    Reads.statementRule h, Reads.declarationRule h, Reads.recovers h⟩

theorem RulesRead.atop (rounds : Nat) :
    ∀ nesting, RulesRead origin nesting (Rules.atop rounds nesting)
  | 0 => .floor rounds
  | nesting + 1 => (RulesRead.atop rounds nesting).above

@[simp] theorem Rules.rounds_atop (rounds : Nat) :
    ∀ nesting, (Rules.atop rounds nesting).rounds = rounds
  | 0 => rfl
  | nesting + 1 => Rules.rounds_atop rounds nesting

namespace Program

theorem declarations_end {rules : Rules} {rounds : Nat} {c : Cursor} {t : Token}
    {rest : List Token} (h : c.after = t :: rest) (he : t.kind = .eof) :
    declarations rules (rounds + 1) c = .ok [] c := by
  rw [declarations, bind_ok (atEnd_eq h)]
  simp [he, pure, EStateM.pure]

section

variable {rules : Rules} {rounds : Nat} {c c' : Cursor} {t : Token} {rest : List Token}

/-- Where the end is not next, a declaration comes first. -/
theorem declarations_next (h : c.after = t :: rest) (he : t.kind ≠ .eof)
    {o : Option (Option Node)} (hnext : nextDeclaration rules c = .ok o c') :
    declarations rules (rounds + 1) c =
      o.elim (pure []) (fun first =>
        declarations rules rounds >>= fun ns => pure (first.toList ++ ns)) c' := by
  have hend : decide (t.kind = .eof) = false := by simp [he]
  rw [declarations, bind_ok (atEnd_eq h), hend]
  change (nextDeclaration rules >>= _) c = _
  rw [bind_ok hnext]
  cases o <;> rfl

theorem declarations_cons (h : c.after = t :: rest) (he : t.kind ≠ .eof) {first : Option Node}
    (hfirst : rules.declaration c = .ok first c') :
    declarations rules (rounds + 1) c =
      (declarations rules rounds >>= fun ns => pure (first.toList ++ ns)) c' := by
  refine declarations_next h he (o := some first) ?_
  change EStateM.tryCatch (EStateM.map some rules.declaration) _ c = _
  rw [EStateM.tryCatch, EStateM.map, hfirst]

/-- A declaration that nests too deeply is the last. -/
theorem declarations_deep (h : c.after = t :: rest) (he : t.kind ≠ .eof)
    (hfirst : rules.declaration c = .error .tooDeep c') {u : Token} {us : List Token}
    (hu : c'.after = u :: us) :
    declarations rules (rounds + 1) c =
      .ok [] { c' with complaints := c'.complaints ++ [⟨c'.before.length, u, .tooDeep⟩] } := by
  refine declarations_next h he (o := none) ?_
  change EStateM.tryCatch (EStateM.map some rules.declaration) _ c = _
  rw [EStateM.tryCatch, EStateM.map, hfirst]
  exact bind_ok (complainAhead_eq hu .tooDeep) _

end

/-- Reading declarations always ends, and without a complaint it ends at the end token. -/
theorem declarations_takes {rules : Rules} (h : RulesRead origin deep rules) :
    ∀ rounds (c : Cursor), c.Ready origin rounds → rounds ≤ rules.rounds →
      ∃ ns ts c', declarations rules rounds c = .ok ns c' ∧ c.Takes ts c' ∧
        (∀ n ∈ ns, n.Proper origin (.statement true)) ∧
        (c'.complaints = c.complaints → Derives .declarations ts ns ∧
          ∃ t rest, c'.after = t :: rest ∧ t.kind = .eof) := by
  intro rounds
  induction rounds with
  | zero =>
    intro c hc _
    exact absurd hc.short (Nat.not_lt_zero _)
  | succ rounds ih =>
    intro c hc hr
    obtain ⟨t, rest, ht, -⟩ := hc.next
    by_cases he : t.kind = .eof
    · exact ⟨[], [], c, declarations_end ht he, .refl c, by simp,
        fun _ => ⟨.noDeclarations, t, rest, ht, he⟩⟩
    have hinside : c.Inside origin rules.rounds :=
      ⟨⟨hc.ended, hc.known, Nat.lt_of_lt_of_le hc.short hr⟩, t, rest, ht, he⟩
    rcases h₁ : rules.declaration c with ⟨first, c₁⟩ | ⟨halt, c₁⟩
    · obtain ⟨us, hus, hl, hfirst, hclean⟩ := h.declaration.ok hinside h₁
      obtain ⟨ns, vs, c', e, hvs, hns, hclean'⟩ := ih c₁ (hc.takes hus (by omega)) (by omega)
      refine ⟨first.toList ++ ns, us ++ vs, c', ?_, hus.trans hvs, ?_, fun e => ?_⟩
      · rw [declarations_cons ht he h₁, bind_ok e]
        rfl
      · intro n hn
        rcases List.mem_append.1 hn with hn | hn
        · exact hfirst n (by simpa using hn)
        · exact hns n hn
      · obtain ⟨e₁, e₂⟩ := hus.clean hvs e
        obtain ⟨n, rfl, hn⟩ := hclean e₁
        obtain ⟨hms, hend⟩ := hclean' e₂
        exact ⟨.nextDeclaration hn hms, hend⟩
    · -- A declaration recovers from syntax errors, so it can only have nested too deeply.
      obtain ⟨us, hus, hexplained⟩ := h.declaration.error hinside h₁
      cases halt with
      | syntaxError => exact absurd h₁ (h.recovers c c₁ hinside)
      | offEnd => exact hexplained.elim
      | tooDeep =>
        obtain ⟨u, rest', hu, -⟩ := (hc.takes hus (Nat.le_add_right _ _)).next
        refine ⟨[], us,
          { c₁ with complaints := c₁.complaints ++ [⟨c₁.before.length, u, .tooDeep⟩] },
          declarations_deep ht he h₁ hu,
          ⟨hus.after, hus.before, hus.inside, hus.complaints.trans (List.prefix_append _ _)⟩,
          by simp, fun e => ?_⟩
        have := congrArg List.length e
        have := hus.complaints.length_le
        simp only [List.length_append, List.length_singleton] at *
        omega

/-- What is read from the start of a list of tokens, by rules with rounds enough for it. -/
def reading (nesting : Nat) (tokens : List Token) : EStateM.Result Halt Cursor (List Node) :=
  declarations (Rules.atop (tokens.length + 1) nesting) (tokens.length + 1) ⟨[], tokens, []⟩

theorem within?_of_reading {nesting : Nat} {tokens : List Token} {ns : List Node} {c : Cursor}
    (h : reading nesting tokens = .ok ns c) : within? nesting tokens = some ⟨ns, c.complaints⟩ := by
  unfold reading at h
  dsimp only [within?]
  rw [h]

theorem reading_of_within? {nesting : Nat} {tokens : List Token} {p : Program}
    (h : within? nesting tokens = some p) :
    ∃ c, reading nesting tokens = .ok p.statements c ∧ c.complaints = p.complaints := by
  cases e : reading nesting tokens with
  | ok ns c =>
    cases h.symm.trans (within?_of_reading e)
    exact ⟨c, rfl, rfl⟩
  | error halt c =>
    unfold reading at e
    dsimp only [within?] at h
    rw [e] at h
    cases h

/-- There always is a program, its trees are well formed, and if nothing was wrong with the tokens
they are those of the grammar. Tokens after the first end token do not matter for that. -/
theorem within?_reads (nesting : Nat) {before after : List Token} {last : Token}
    (hb : ∀ t ∈ before, t.kind ≠ .eof) (hl : last.kind = .eof)
    (ho : ∀ t ∈ before ++ last :: after, origin t) :
    ∃ p, within? nesting (before ++ last :: after) = some p ∧
      (∀ n ∈ p.statements, n.Proper origin (.statement true)) ∧
      (p.complaints = [] → Derives .declarations before p.statements) := by
  have hsplit : (before ++ last :: after).takeWhile (·.kind ≠ .eof) = before := by
    rw [List.takeWhile_append_of_pos (by simpa using hb)]
    simp [hl]
  have ready : Cursor.Ready origin ((before ++ last :: after).length + 1)
      ⟨[], before ++ last :: after, []⟩ := by
    refine ⟨⟨last, by simp, hl⟩, ho, ?_⟩
    rw [Cursor.left, hsplit, List.length_append]
    omega
  obtain ⟨ns, ts, c, e, hts, hns, hclean⟩ := declarations_takes
    (RulesRead.atop ((before ++ last :: after).length + 1) nesting) _ _ ready (by simp)
  refine ⟨⟨ns, c.complaints⟩, ?_, hns, fun hc => ?_⟩
  · dsimp only [within?]
    rw [e]
  · obtain ⟨hd, t, rest, ht, he⟩ := hclean hc
    -- Both lists end where the first end token is.
    have hafter : before ++ last :: after = ts ++ t :: rest := by rw [← ht]; exact hts.after
    have hsplit' : (ts ++ t :: rest).takeWhile (·.kind ≠ .eof) = ts := by
      rw [List.takeWhile_append_of_pos (by simpa using hts.inside)]
      simp [he]
    rw [← hsplit, hafter, hsplit']
    exact hd

end Program

end LoxLang
