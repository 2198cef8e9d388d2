import LoxLang.Proofs.Grammar.Loose
import LoxLang.Proofs.Grammar.Lookahead
/-!
# Tokens that can be completed

Wherever a parser gives up, the tokens that it has taken can be completed to what it reads: it never
takes a token that nothing could follow. Where it gets through, the tokens make up what it reads.
What that is may depend on the tokens ahead, though only on whether an `else` is next.
-/

namespace LoxLang

open Parse

/-- An `else` is next. -/
def ElseAhead (ts : List Token) : Prop := headKind ts .eof = .keyword .elseWord

theorem not_elseAhead_nil : ¬ ElseAhead [] := by simp [ElseAhead]

@[simp] theorem elseAhead_cons {t : Token} {ts : List Token} :
    ElseAhead (t :: ts) ↔ t.kind = .keyword .elseWord := Iff.rfl

/-- Behind the same tokens there is no difference. -/
theorem ElseAhead.append {ts rest rest' : List Token} (h : ElseAhead rest → ElseAhead rest') :
    ElseAhead (ts ++ rest) → ElseAhead (ts ++ rest') := by
  cases ts with
  | nil => exact h
  | cons => exact id

theorem not_elseAhead_append {ts rest : List Token} (h : ¬ ElseAhead ts) (h' : ¬ ElseAhead rest) :
    ¬ ElseAhead (ts ++ rest) := by
  cases ts with
  | nil => exact h'
  | cons => exact h

namespace Cursor

/-- Some tokens were taken, and no complaint ended a declaration. -/
structure Advances (c : Cursor) (ts : List Token) (c' : Cursor) : Prop where
  after : c.after = ts ++ c'.after
  before : c'.before = ts.reverse ++ c.before
  mild : ∃ xs, c'.complaints = c.complaints ++ xs ∧ ∀ x ∈ xs, x.objection.isFatal = false

variable {c c' c'' : Cursor} {ts us : List Token}

theorem Advances.refl (c : Cursor) : c.Advances [] c := ⟨rfl, rfl, [], by simp, by simp⟩

theorem Advances.trans (h : c.Advances ts c') (h' : c'.Advances us c'') :
    c.Advances (ts ++ us) c'' where
  after := by rw [h.after, h'.after, List.append_assoc]
  before := by rw [h'.before, h.before, List.reverse_append, List.append_assoc]
  mild := by
    obtain ⟨xs, hxs, hmild⟩ := h.mild
    obtain ⟨ys, hys, hmild'⟩ := h'.mild
    exact ⟨xs ++ ys, by rw [hys, hxs, List.append_assoc], List.forall_mem_append.2 ⟨hmild, hmild'⟩⟩

theorem Advances.one {t : Token} {rest : List Token} (h : c.after = t :: rest) :
    c.Advances [t] ⟨t :: c.before, rest, c.complaints⟩ :=
  ⟨h, rfl, [], by simp, by simp⟩

/-- A complaint that does not end a declaration. -/
theorem Advances.complain {x : Complaint} (hx : x.objection.isFatal = false) :
    c.Advances [] { c with complaints := c.complaints ++ [x] } :=
  ⟨rfl, rfl, [x], rfl, by simpa using hx⟩

end Cursor

/-- How a parser gives up: with a complaint about the next token if that is the reason. -/
def Halt.Refuses (c c' : Cursor) : Halt → Prop
  | .syntaxError => ∃ t rest what, c.after = t :: rest ∧
      c' = { c with complaints := c.complaints ++ [⟨c.before.length, t, .expected what⟩] }
  | .tooDeep | .offEnd => c' = c

/-- The tokens are the first ones of what fits, whatever follows it but an `else`. -/
def Completable {α : Type} (fits : List Token → List Token → α → Prop) (ts : List Token) : Prop :=
  ∃ us a, ¬ ElseAhead us ∧ ∀ rest, ¬ ElseAhead rest → fits (ts ++ us) rest a

/-- The tokens that a parser takes fit, before the tokens ahead. Where it gives up they can be
completed, and it can be handed tokens that fit in the first place. -/
structure Tracks {α : Type} (p : Parse α) (fits : List Token → List Token → α → Prop) : Prop where
  ok : ∀ {c a c'}, p c = .ok a c' → ∃ ts, c.Advances ts c' ∧
    ∀ rest, (ElseAhead rest → ElseAhead c'.after) → fits ts rest a
  stop : ∀ {c halt c'}, p c = .error halt c' →
    ∃ ts c₁, c.Advances ts c₁ ∧ halt.Refuses c₁ c' ∧ Completable fits ts
  fills : Completable fits []

/-- A choice by the next token: it is taken, or it is of none of the kinds, or there is none. -/
theorem accept?_bind {β : Type} (kinds : List Kind) (f : Option Token → Parse β) (c : Cursor) :
    (∃ t rest, c.after = t :: rest ∧ t.kind ∈ kinds ∧
      (accept? kinds >>= f) c = f (some t) ⟨t :: c.before, rest, c.complaints⟩) ∨
    (∃ t rest, c.after = t :: rest ∧ (t.kind ∈ kinds → t.kind = .eof) ∧
      (accept? kinds >>= f) c = f none c) ∨
    (accept? kinds >>= f) c = .error .offEnd c := by
  obtain ⟨before, _ | ⟨t, rest⟩, complaints⟩ := c
  · exact .inr (.inr rfl)
  · have h := accept?_eq (c := ⟨before, t :: rest, complaints⟩) rfl kinds
    by_cases hk : t.kind ≠ .eof ∧ t.kind ∈ kinds
    · rw [if_pos hk] at h
      exact .inl ⟨t, rest, rfl, hk.2, bind_ok h f⟩
    · rw [if_neg hk] at h
      have hkinds : t.kind ∈ kinds → t.kind = .eof :=
        fun hmem => Classical.byContradiction fun he => hk ⟨he, hmem⟩
      exact .inr (.inl ⟨t, rest, rfl, hkinds, bind_ok h f⟩)

namespace Completable

variable {α : Type} {fits fits' : List Token → List Token → α → Prop} {ts : List Token}

theorem imp (h : Completable fits ts) (hi : ∀ ts rest a, fits ts rest a → fits' ts rest a) :
    Completable fits' ts := by
  obtain ⟨us, a, hus, hall⟩ := h
  exact ⟨us, a, hus, fun rest hrest => hi _ _ _ (hall rest hrest)⟩

/-- The same behind one more token. -/
theorem cons {t : Token} (h : Completable fits ts)
    (hi : ∀ ts rest a, fits ts rest a → fits' (t :: ts) rest a) : Completable fits' (t :: ts) := by
  obtain ⟨us, a, hus, hall⟩ := h
  exact ⟨us, a, hus, fun rest hrest => hi _ _ _ (hall rest hrest)⟩

/-- What can be completed behind its first token can be started with that token. -/
theorem of_cons {t : Token} (ht : t.kind ≠ .keyword .elseWord) (h : Completable fits [t]) :
    Completable fits [] := by
  obtain ⟨us, a, -, hall⟩ := h
  exact ⟨t :: us, a, ht, hall⟩

end Completable

namespace Tracks

variable {α β : Type} {p : Parse α} {f : α → Parse β}
  {fits fits' : List Token → List Token → α → Prop}

/-- Less may be said. -/
theorem imp (h : Tracks p fits) (hi : ∀ ts rest a, fits ts rest a → fits' ts rest a) :
    Tracks p fits' where
  ok e := by
    obtain ⟨ts, hts, hall⟩ := h.ok e
    exact ⟨ts, hts, fun rest hrest => hi _ _ _ (hall rest hrest)⟩
  stop e := by
    obtain ⟨ts, c₁, hts, hc, hfits⟩ := h.stop e
    exact ⟨ts, c₁, hts, hc, hfits.imp hi⟩
  fills := h.fills.imp hi

/-- One parser after another. What completes the first is completed by what fills the second. -/
protected theorem bind {fits₂ : α → List Token → List Token → β → Prop} (hp : Tracks p fits)
    (hf : ∀ a, Tracks (f a) (fits₂ a)) : Tracks (p >>= f) (fun ts rest b =>
      ∃ us vs a, ts = us ++ vs ∧ fits us (vs ++ rest) a ∧ fits₂ a vs rest b) := by
  have filled : ∀ {ts}, Completable fits ts → Completable (fun ts rest b =>
      ∃ us vs a, ts = us ++ vs ∧ fits us (vs ++ rest) a ∧ fits₂ a vs rest b) ts := by
    rintro ts ⟨us, a, hus, hall⟩
    obtain ⟨vs, b, hvs, hall'⟩ := (hf a).fills
    refine ⟨us ++ vs, b, not_elseAhead_append hus hvs, fun rest hrest => ?_⟩
    exact ⟨ts ++ us, vs, a, (List.append_assoc ..).symm, hall _ (not_elseAhead_append hvs hrest),
      hall' rest hrest⟩
  refine ⟨fun {c b c''} e => ?_, fun {c halt c''} e => ?_, filled hp.fills⟩
  · obtain ⟨a, c', h, e⟩ := Parse.ok_of_bind e
    obtain ⟨us, hus, hall⟩ := hp.ok h
    obtain ⟨vs, hvs, hall'⟩ := (hf a).ok e
    refine ⟨us ++ vs, hus.trans hvs, fun rest hrest => ⟨us, vs, a, rfl, hall _ ?_, hall' rest hrest⟩⟩
    rw [hvs.after]
    exact ElseAhead.append hrest
  · obtain h | ⟨a, c', h, e⟩ := Parse.error_of_bind e
    · obtain ⟨ts, c₁, hts, hc, hfits⟩ := hp.stop h
      exact ⟨ts, c₁, hts, hc, filled hfits⟩
    · obtain ⟨us, hus, hall⟩ := hp.ok h
      obtain ⟨vs, c₁, hvs, hc, ws, b, hws, hall'⟩ := (hf a).stop e
      refine ⟨us ++ vs, c₁, hus.trans hvs, hc, ws, b, hws, fun rest hrest => ?_⟩
      refine ⟨us, vs ++ ws, a, List.append_assoc .., hall _ ?_, hall' rest hrest⟩
      -- Behind the tokens that the first has taken, the second has not left out an `else`.
      rw [hvs.after, List.append_assoc]
      exact ElseAhead.append fun h => absurd h (not_elseAhead_append hws hrest)

protected theorem pure (a : α) : Tracks (pure a) (fun ts _ b => ts = [] ∧ b = a) where
  ok {c b c'} e := by
    cases e
    exact ⟨[], .refl c, fun _ _ => ⟨rfl, rfl⟩⟩
  stop e := by cases e
  fills := ⟨[], a, not_elseAhead_nil, fun _ _ => ⟨rfl, rfl⟩⟩

/-- A parser that gives up for another reason than the tokens. -/
protected theorem throw {halt : Halt} (h : halt ≠ .syntaxError) (fills : Completable fits []) :
    Tracks (throw halt : Parse α) fits where
  ok e := by cases e
  stop {c _ c'} e := by
    cases e
    refine ⟨[], c, .refl c, ?_, fills⟩
    cases halt with
    | syntaxError => exact absurd rfl h
    | tooDeep | offEnd => rfl
  fills := fills

/-- A parser whose result is turned into another. -/
protected theorem map (h : Tracks p fits) (g : α → β) :
    Tracks (g <$> p) (fun ts rest b => ∃ a, b = g a ∧ fits ts rest a) := by
  rw [map_eq_pure_bind]
  refine (h.bind fun a => Tracks.pure (g a)).imp ?_
  rintro ts rest b ⟨us, _, a, rfl, ha, rfl, rfl⟩
  exact ⟨a, rfl, by simpa using ha⟩

protected theorem ite {b : Prop} [Decidable b] {p' : Parse α} (h : Tracks p fits)
    (h' : Tracks p' fits) : Tracks (if b then p else p') fits := by
  split
  · exact h
  · exact h'

/-! ## Single tokens -/

/-- A parser that takes nothing and does not give up where a token is next. -/
theorem still (a : α)
    (next : ∀ c t rest, c.after = t :: rest → ∃ b c', p c = .ok b c' ∧ c.Advances [] c')
    (nothing : ∀ c, c.after = [] → p c = .error .offEnd c) : Tracks p (fun ts _ _ => ts = []) where
  ok {c b c'} e := by
    cases h : c.after with
    | nil =>
      rw [nothing c h] at e
      cases e
    | cons t rest =>
      obtain ⟨b', c'', e', hc⟩ := next c t rest h
      rw [e'] at e
      cases e
      exact ⟨[], hc, fun _ _ => rfl⟩
  stop {c halt c'} e := by
    cases h : c.after with
    | nil =>
      rw [nothing c h] at e
      cases e
      exact ⟨[], c, .refl c, rfl, [], a, not_elseAhead_nil, fun _ _ => rfl⟩
    | cons t rest =>
      obtain ⟨b', c'', e', -⟩ := next c t rest h
      rw [e'] at e
      cases e
  fills := ⟨[], a, not_elseAhead_nil, fun _ _ => rfl⟩

protected theorem nextIs (kind : Kind) : Tracks (nextIs kind) (fun ts _ _ => ts = []) := by
  refine still true (fun c t rest h => ⟨_, c, nextIs_eq h kind, .refl c⟩) ?_
  rintro ⟨before, after, complaints⟩ h
  cases h
  rfl

protected theorem atEnd : Tracks atEnd (fun ts _ _ => ts = []) := by
  refine still true (fun c t rest h => ⟨_, c, atEnd_eq h, .refl c⟩) ?_
  rintro ⟨before, after, complaints⟩ h
  cases h
  rfl

protected theorem complainAhead {objection : Objection} (h : objection.isFatal = false) :
    Tracks (complainAhead objection) (fun ts _ _ => ts = []) := by
  refine still () (fun c t rest hc => ⟨(), _, complainAhead_eq hc objection, .complain h⟩) ?_
  rintro ⟨before, after, complaints⟩ h
  cases h
  rfl

protected theorem position : Tracks position (fun ts _ _ => ts = []) where
  ok {c a c'} e := by
    cases e
    exact ⟨[], .refl c, fun _ _ => rfl⟩
  stop e := by cases e
  fills := ⟨[], 0, not_elseAhead_nil, fun _ _ => rfl⟩

protected theorem complain (position : Nat) (t : Token) {objection : Objection}
    (h : objection.isFatal = false) :
    Tracks (complain position t objection) (fun ts _ _ => ts = []) where
  ok {c a c'} e := by
    cases e
    exact ⟨[], .complain h, fun _ _ => rfl⟩
  stop e := by cases e
  fills := ⟨[], (), not_elseAhead_nil, fun _ _ => rfl⟩

/-- Giving up, where something could have followed. -/
protected theorem reject (what : String) (fills : Completable fits []) :
    Tracks (reject (.expected what) : Parse α) fits where
  ok {c a c'} e := by
    obtain ⟨before, _ | ⟨t, rest⟩, complaints⟩ := c <;> cases e
  stop {c halt c'} e := by
    obtain ⟨before, _ | ⟨t, rest⟩, complaints⟩ := c <;> cases e
    · exact ⟨[], _, .refl _, rfl, fills⟩
    · exact ⟨[], _, .refl _, ⟨t, rest, what, rfl, rfl⟩, fills⟩
  fills := fills

/-- Whatever is done by whether there is a token of certain kinds. -/
protected theorem accept {kinds : List Kind} {f : Option Token → Parse β}
    {taken : Token → List Token → List Token → β → Prop} {left : List Token → List Token → β → Prop}
    (some : ∀ t, t.kind ∈ kinds → Tracks (f (some t)) (taken t)) (none : Tracks (f none) left) :
    Tracks (accept? kinds >>= f) (fun ts rest b =>
      (∃ t us, ts = t :: us ∧ t.kind ∈ kinds ∧ taken t us rest b) ∨ left ts rest b) := by
  have fills : Completable (fun ts rest b =>
      (∃ t us, ts = t :: us ∧ t.kind ∈ kinds ∧ taken t us rest b) ∨ left ts rest b) [] :=
    none.fills.imp fun _ _ _ h => .inr h
  refine ⟨fun {c b c'} e => ?_, fun {c halt c'} e => ?_, fills⟩
  · obtain ⟨t, rest, hc, hk, h⟩ | ⟨-, -, -, -, h⟩ | h := accept?_bind kinds f c <;> rw [h] at e
    · obtain ⟨us, hus, hall⟩ := (some t hk).ok e
      exact ⟨t :: us, (Cursor.Advances.one hc).trans hus,
        fun rest hrest => .inl ⟨t, us, rfl, hk, hall rest hrest⟩⟩
    · obtain ⟨us, hus, hall⟩ := none.ok e
      exact ⟨us, hus, fun rest hrest => .inr (hall rest hrest)⟩
    · cases e
  · obtain ⟨t, rest, hc, hk, h⟩ | ⟨-, -, -, -, h⟩ | h := accept?_bind kinds f c <;> rw [h] at e
    · obtain ⟨us, c₁, hus, hc₁, hfits⟩ := (some t hk).stop e
      refine ⟨t :: us, c₁, (Cursor.Advances.one hc).trans hus, hc₁, hfits.cons ?_⟩
      exact fun us rest b hb => .inl ⟨t, us, rfl, hk, hb⟩
    · obtain ⟨us, c₁, hus, hc₁, hfits⟩ := none.stop e
      exact ⟨us, c₁, hus, hc₁, hfits.imp fun _ _ _ h => .inr h⟩
    · cases e
      exact ⟨[], c, .refl c, rfl, fills⟩

/-- A token of certain kinds has to be there. -/
theorem oneOf {kinds : List Kind} {f : Option Token → Parse β} {what : String}
    {taken : Token → List Token → List Token → β → Prop} {t : Token} (ht : t.kind ∈ kinds)
    (hn : t.kind ≠ .keyword .elseWord) (some : ∀ t, t.kind ∈ kinds → Tracks (f (some t)) (taken t))
    (none : f none = reject (.expected what)) :
    Tracks (accept? kinds >>= f) (fun ts rest b =>
      ∃ t us, ts = t :: us ∧ t.kind ∈ kinds ∧ taken t us rest b) := by
  refine (Tracks.accept some (none ▸ Tracks.reject what ?_)).imp fun _ _ _ h => h.elim id id
  exact .of_cons hn ((some t ht).fills.cons fun us rest b hb => ⟨t, us, rfl, ht, hb⟩)

protected theorem expect {kind : Kind} (hn : kind ≠ .keyword .elseWord) (what : String) :
    Tracks (expect kind what) (fun ts _ t => ts = [t] ∧ t.kind = kind) := by
  refine (oneOf (t := ⟨kind, "", .nil, 1⟩) (List.mem_singleton_self kind) hn
    (fun t _ => Tracks.pure t) rfl).imp ?_
  rintro ts rest _ ⟨t, _, rfl, hk, rfl, rfl⟩
  exact ⟨rfl, List.mem_singleton.1 hk⟩

/-- An `else` and what belongs to it, unless no `else` is next. -/
theorem orElse {f : Option Token → Parse β} {taken : Token → List Token → List Token → β → Prop}
    {b : β} (some : ∀ t, t.kind = .keyword .elseWord → Tracks (f (some t)) (taken t))
    (none : f none = pure b) :
    Tracks (accept? [.keyword .elseWord] >>= f) (fun ts rest b' =>
      (∃ t us, ts = t :: us ∧ t.kind = .keyword .elseWord ∧ taken t us rest b') ∨
        ts = [] ∧ b' = b ∧ ¬ ElseAhead rest) := by
  have fills : Completable (fun ts rest b' => (∃ t us, ts = t :: us ∧ t.kind = .keyword .elseWord ∧
      taken t us rest b') ∨ ts = [] ∧ b' = b ∧ ¬ ElseAhead rest) [] :=
    ⟨[], b, not_elseAhead_nil, fun rest hrest => .inr ⟨rfl, rfl, hrest⟩⟩
  refine ⟨fun {c b' c'} e => ?_, fun {c halt c'} e => ?_, fills⟩
  · obtain ⟨t, rest, hc, hk, h⟩ | ⟨t, rest, hc, hk, h⟩ | h := accept?_bind _ f c <;> rw [h] at e
    · have ht := List.mem_singleton.1 hk
      obtain ⟨us, hus, hall⟩ := (some t ht).ok e
      exact ⟨t :: us, (Cursor.Advances.one hc).trans hus,
        fun rest hrest => .inl ⟨t, us, rfl, ht, hall rest hrest⟩⟩
    · rw [none] at e
      cases e
      refine ⟨[], .refl c, fun rest hrest => .inr ⟨rfl, rfl, fun helse => ?_⟩⟩
      have ht : t.kind = .keyword .elseWord := by
        have := hrest helse
        rwa [hc] at this
      rw [ht] at hk
      exact absurd (hk (List.mem_singleton_self _)) (by decide)
    · cases e
  · obtain ⟨t, rest, hc, hk, h⟩ | ⟨-, -, -, -, h⟩ | h := accept?_bind _ f c <;> rw [h] at e
    · have ht := List.mem_singleton.1 hk
      obtain ⟨us, c₁, hus, hc₁, hfits⟩ := (some t ht).stop e
      refine ⟨t :: us, c₁, (Cursor.Advances.one hc).trans hus, hc₁, hfits.cons ?_⟩
      exact fun us rest b' hb => .inl ⟨t, us, rfl, ht, hb⟩
    · rw [none] at e
      cases e
    · cases e
      exact ⟨[], c, .refl c, rfl, fills⟩

/-- Something that may be left out where a token of the given kind follows. -/
protected theorem option {fits₂ : α → List Token → List Token → β → Prop} {a : α} (kind : Kind)
    (hp : Tracks p fits) (hf : ∀ a, Tracks (f a) (fits₂ a)) :
    Tracks (nextIs kind >>= fun b => if b = true then pure a >>= f else p >>= f) (fun ts rest b =>
      ∃ us vs a', ts = us ++ vs ∧ ((us = [] ∧ a' = a) ∨ fits us (vs ++ rest) a') ∧
        fits₂ a' vs rest b) := by
  have branch : ∀ b : Bool, Tracks (if b = true then pure a >>= f else p >>= f) (fun ts rest b =>
      ∃ us vs a', ts = us ++ vs ∧ ((us = [] ∧ a' = a) ∨ fits us (vs ++ rest) a') ∧
        fits₂ a' vs rest b) := by
    intro b
    refine .ite (((Tracks.pure a).bind hf).imp ?_) ((hp.bind hf).imp ?_)
    · rintro ts rest b ⟨us, vs, a', rfl, ha, hb⟩
      exact ⟨us, vs, a', rfl, .inl ha, hb⟩
    · rintro ts rest b ⟨us, vs, a', rfl, ha, hb⟩
      exact ⟨us, vs, a', rfl, .inr ha, hb⟩
  refine ((Tracks.nextIs kind).bind branch).imp ?_
  rintro ts rest b ⟨_, vs, _, rfl, rfl, hb⟩
  exact hb

/-! ## Lists with commas -/

protected theorem separated {items : List Token → α → Prop} {what : String} {item : Parse α}
    (hitem : Tracks item (fun ts _ a => items ts a)) : ∀ rounds count,
      Tracks (separated what item rounds count) (fun ts _ as => Separated items ts as) := by
  intro rounds
  induction rounds with
  | zero =>
    intro _
    refine .throw (by simp) ?_
    obtain ⟨us, a, hus, hall⟩ := hitem.fills
    exact ⟨us, [a], hus, fun rest hrest => .last (hall rest hrest)⟩
  | succ rounds ih =>
    intro count
    -- Whether there is a complaint about the item makes no difference.
    have counted : ∀ {tail : Parse (List α)}, Tracks tail (fun ts _ as => Separated items ts as) →
        Tracks (if maxArity ≤ count then complainAhead (.tooMany what) >>= fun _ => tail else tail)
          (fun ts _ as => Separated items ts as) := by
      intro tail htail
      refine .ite (((Tracks.complainAhead rfl).bind fun _ => htail).imp ?_) htail
      rintro ts rest as ⟨_, us, _, rfl, rfl, has⟩
      exact has
    rw [Parse.separated]
    refine counted ((hitem.bind fun x => Tracks.accept
      (fun t _ => (ih (count + 1)).bind fun xs => .pure (x :: xs)) (.pure [x])).imp ?_)
    rintro ts rest as ⟨us, _, x, rfl, hx, ⟨t, _, rfl, hk, vs, _, xs, rfl, hxs, rfl, rfl⟩ | ⟨rfl, rfl⟩⟩
    · exact .next hx (List.mem_singleton.1 hk) (by simpa using hxs)
    · simpa using Separated.last hx

end Tracks

end LoxLang
