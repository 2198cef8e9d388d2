import LoxLang.Grammar.Statement
import LoxLang.Proofs.Grammar.Derivation
import LoxLang.Proofs.Node.Alike
/-!
# What reading comes to

Every way in which a rule can end, for tokens of any shape that hold an end token. A rule takes
tokens off the front, never the end token, and only adds complaints. It gives a well-formed tree;
if it did not complain, the tokens it took derive that tree. If it gives up, it complained or ran
out of layers; it never runs off the end.
-/

namespace LoxLang

/-- The kinds that the token in a role can have. -/
def Role.kinds : Role → List Kind
  | .used | .declared | .parameter => [.identifier]
  | .unary => [.bang, .minus]
  | .binary =>
    [.bangEqual, .equalEqual, .greater, .greaterEqual, .less, .lessEqual, .minus, .plus, .slash,
     .star]
  | .logical => [.keyword .orWord, .keyword .andWord]
  | .paren => [.rightParen]
  | .keyword => [.keyword .returnWord]

/-- A tree is well formed if it is like itself in this sense: every token is one of the given ones
and has a kind that fits its role, and every value is a word's or a token's. -/
def Likeness.proper (origin : Token → Prop) : Likeness where
  token role t t' := t = t' ∧ origin t ∧ t.kind ∈ role.kinds
  literal v := v = .nil ∨ (∃ b, v = .bool b) ∨
    ∃ t, origin t ∧ (t.kind = .number ∨ t.kind = .string) ∧ v = t.literal
  misplaced := False

/-- A node that is well formed and of the sort that belongs at a place. -/
abbrev Node.Proper (origin : Token → Prop) (s : Site) (n : Node) : Prop :=
  Node.Alike (.proper origin) s n n

/-- The same where the tokens may be any. -/
abbrev Node.WellFormed (s : Site) (n : Node) : Prop := n.Proper (fun _ => True) s

theorem Node.Proper.mono {origin origin' : Token → Prop} {s : Site} {n : Node}
    (h : ∀ t, origin t → origin' t) (hn : n.Proper origin s) : n.Proper origin' s := by
  refine Node.Alike.imp ?_ ?_ False.elim hn
  · rintro r t t' ⟨rfl, ho, hk⟩
    exact ⟨rfl, h t ho, hk⟩
  · rintro v (hv | hv | ⟨t, ho, hk, hv⟩)
    · exact .inl hv
    · exact .inr (.inl hv)
    · exact .inr (.inr ⟨t, h t ho, hk, hv⟩)

/-- How many tokens lie ahead before the end. -/
def Cursor.left (c : Cursor) : Nat := (c.after.takeWhile (·.kind ≠ .eof)).length

/-- Between two cursors some tokens were taken, none of them an end token. -/
structure Cursor.Takes (c : Cursor) (ts : List Token) (c' : Cursor) : Prop where
  after : c.after = ts ++ c'.after
  before : c'.before = ts.reverse ++ c.before
  inside : ∀ t ∈ ts, t.kind ≠ .eof
  complaints : c.complaints <+: c'.complaints

/-- The tokens ahead have an end, are all known, and are fewer than `room` before the end. -/
structure Cursor.Ready (origin : Token → Prop) (room : Nat) (c : Cursor) : Prop where
  ended : ∃ t ∈ c.after, t.kind = .eof
  known : ∀ t ∈ c.after, origin t
  short : c.left < room

/-- The end has not been reached. -/
structure Cursor.Inside (origin : Token → Prop) (room : Nat) (c : Cursor) : Prop extends
    c.Ready origin room where
  next : ∃ t rest, c.after = t :: rest ∧ t.kind ≠ .eof

namespace Cursor

variable {origin : Token → Prop} {room : Nat} {c c' c'' : Cursor} {ts us : List Token}

theorem Takes.refl (c : Cursor) : c.Takes [] c := ⟨rfl, rfl, by simp, List.prefix_refl _⟩

theorem Takes.trans (h : c.Takes ts c') (h' : c'.Takes us c'') : c.Takes (ts ++ us) c'' where
  after := by rw [h.after, h'.after, List.append_assoc]
  before := by rw [h'.before, h.before, List.reverse_append, List.append_assoc]
  inside := by
    intro t ht
    rcases List.mem_append.1 ht with ht | ht
    · exact h.inside t ht
    · exact h'.inside t ht
  complaints := h.complaints.trans h'.complaints

theorem Takes.one {t : Token} {rest : List Token} (h : c.after = t :: rest) (he : t.kind ≠ .eof) :
    c.Takes [t] ⟨t :: c.before, rest, c.complaints⟩ :=
  ⟨h, rfl, by simpa using he, List.prefix_refl _⟩

theorem Takes.left (h : c.Takes ts c') : c.left = ts.length + c'.left := by
  rw [Cursor.left, h.after, List.takeWhile_append_of_pos (by simpa using h.inside),
    List.length_append]
  rfl

/-- No complaint was made on the way if there are none more in the end. -/
theorem Takes.clean (h : c.Takes ts c') (h' : c'.Takes us c'') (e : c''.complaints = c.complaints) :
    c'.complaints = c.complaints ∧ c''.complaints = c'.complaints := by
  have hle := h.complaints.length_le
  have hle' := h'.complaints.length_le
  rw [e] at hle'
  have he : c.complaints = c'.complaints := h.complaints.eq_of_length (by omega)
  exact ⟨he.symm, by rw [e, he]⟩

/-- What lies ahead is as ready as before, with the room that is left. -/
theorem Ready.takes {r : Nat} (hc : c.Ready origin room) (h : c.Takes ts c')
    (hr : room ≤ r + ts.length) : c'.Ready origin r where
  ended := by
    obtain ⟨t, ht, he⟩ := hc.ended
    rw [h.after] at ht
    rcases List.mem_append.1 ht with ht | ht
    · exact absurd he (h.inside t ht)
    · exact ⟨t, ht, he⟩
  known t ht := hc.known t (by rw [h.after]; exact List.mem_append_right _ ht)
  short := by have := hc.short; have := h.left; omega

/-- There are rounds enough for all tokens if there is one more. -/
theorem ready_start {tokens : List Token} (h : ∃ t ∈ tokens, t.kind = .eof) :
    Cursor.Ready (fun _ => True) (tokens.length + 1) ⟨[], tokens, []⟩ :=
  ⟨h, fun _ _ => trivial, Nat.lt_succ_of_le (List.takeWhile_prefix _).length_le⟩

/-- There is always a next token. -/
theorem Ready.next (hc : c.Ready origin room) : ∃ t rest, c.after = t :: rest ∧ origin t := by
  obtain ⟨t, ht, -⟩ := hc.ended
  match h : c.after with
  | [] => rw [h] at ht; cases ht
  | u :: rest => exact ⟨u, rest, rfl, hc.known u (by rw [h]; exact List.mem_cons_self)⟩

end Cursor

/-- The complaint made last is about the token at which the second cursor stands, and it ended the
declaration. It was made after the first cursor. -/
def Cursor.Blames (c c' : Cursor) : Prop :=
  ∃ t rest what ys, c'.after = t :: rest ∧ c.complaints <+: ys ∧
    c'.complaints = ys ++ [⟨c'.before.length, t, .expected what⟩]

namespace Cursor.Blames

variable {c c₁ c' : Cursor}

theorem ne (h : c.Blames c') : c'.complaints ≠ c.complaints := by
  obtain ⟨t, rest, what, ys, -, hys, e⟩ := h
  intro he
  have hle := hys.length_le
  rw [← he, e, List.length_append, List.length_singleton] at hle
  omega

theorem after (hc : c.complaints <+: c₁.complaints) (h : c₁.Blames c') : c.Blames c' := by
  obtain ⟨t, rest, what, ys, ht, hys, e⟩ := h
  exact ⟨t, rest, what, ys, ht, hc.trans hys, e⟩

end Cursor.Blames

/-- What a parser that gave up can have met: a complaint about the next token, or fewer layers than
tokens. -/
def Halt.Explained (deep : Nat) (c c' : Cursor) : Halt → Prop
  | .syntaxError => c.Blames c'
  | .tooDeep => deep ≤ c.left
  | .offEnd => False

/-- What a parser comes to from every cursor that meets `pre`: it takes at least `least` tokens and
gives something `whole`, which is related by `clean` to the tokens taken and those ahead unless it
complained. `deep` is a number of tokens that do not nest too deeply. -/
structure Reads {α : Type} (pre : Cursor → Prop) (deep least : Nat) (p : Parse α)
    (whole : α → Prop) (clean : List Token → List Token → α → Prop) : Prop where
  ok : ∀ {c a c'}, pre c → p c = .ok a c' → ∃ ts, c.Takes ts c' ∧ least ≤ ts.length ∧ whole a ∧
    (c'.complaints = c.complaints → clean ts c'.after a)
  error : ∀ {c halt c'}, pre c → p c = .error halt c' →
    ∃ ts, c.Takes ts c' ∧ halt.Explained deep c c'

namespace Reads

variable {α β : Type} {origin : Token → Prop} {pre pre' : Cursor → Prop}
  {room r deep d least least' : Nat} {p : Parse α} {f : α → Parse β} {whole whole' : α → Prop}
  {clean clean' : List Token → List Token → α → Prop}

/-- Less may be said. -/
theorem imp (h : Reads pre deep least p whole clean) (hl : least' ≤ least)
    (hc : ∀ ts rest a, whole a → clean ts rest a → clean' ts rest a) :
    Reads pre deep least' p whole clean' where
  ok hp e := by
    obtain ⟨ts, ht, hlen, ha, hcl⟩ := h.ok hp e
    exact ⟨ts, ht, Nat.le_trans hl hlen, ha, fun e => hc _ _ _ ha (hcl e)⟩
  error := h.error

/-- Less may be said of what is given. -/
theorem weaken (h : Reads pre deep least p whole clean) (hw : ∀ a, whole a → whole' a) :
    Reads pre deep least p whole' clean where
  ok hp e := by
    obtain ⟨ts, ht, hlen, ha, hcl⟩ := h.ok hp e
    exact ⟨ts, ht, hlen, hw _ ha, hcl⟩
  error := h.error

/-- What holds with more room and more layers holds with less. -/
theorem mono (h : Reads (Cursor.Ready origin room) deep least p whole clean) (hr : r ≤ room)
    (hd : d ≤ deep) : Reads (Cursor.Ready origin r) d least p whole clean where
  ok hp e := h.ok ⟨hp.ended, hp.known, Nat.lt_of_lt_of_le hp.short hr⟩ e
  error {c halt c'} hp e := by
    obtain ⟨ts, ht, he⟩ := h.error ⟨hp.ended, hp.known, Nat.lt_of_lt_of_le hp.short hr⟩ e
    refine ⟨ts, ht, ?_⟩
    cases halt with
    | tooDeep => exact Nat.le_trans hd he
    | _ => exact he

/-- With a layer less. -/
theorem shallower (h : Reads (Cursor.Ready origin room) (deep + 1) least p whole clean) :
    Reads (Cursor.Ready origin room) deep least p whole clean :=
  h.mono (Nat.le_refl _) (Nat.le_add_right _ _)

/-- The same where the end has not been reached. -/
theorem mono_inside (h : Reads (Cursor.Inside origin room) deep least p whole clean) (hr : r ≤ room) :
    Reads (Cursor.Inside origin r) deep least p whole clean where
  ok hp e := h.ok ⟨⟨hp.ended, hp.known, Nat.lt_of_lt_of_le hp.short hr⟩, hp.next⟩ e
  error hp e := h.error ⟨⟨hp.ended, hp.known, Nat.lt_of_lt_of_le hp.short hr⟩, hp.next⟩ e

protected theorem pure {a : α} (h : whole a) :
    Reads pre deep 0 (pure a) whole (fun ts _ b => ts = [] ∧ b = a) where
  ok {c b c'} _ e := by
    cases e
    exact ⟨[], .refl c, Nat.le_refl _, h, fun _ => ⟨rfl, rfl⟩⟩
  error _ e := by cases e

/-- One parser after another. The second starts with what room and what layers the tokens taken by
the first leave. -/
theorem bindFrom {least₂ : Nat} {whole₂ : β → Prop}
    {clean₂ : α → List Token → List Token → β → Prop}
    (hpre : ∀ c, pre c → c.Ready origin room) (hp : Reads pre deep least p whole clean)
    (hf : ∀ a, whole a → Reads (Cursor.Ready origin r) d least₂ (f a) whole₂ (clean₂ a))
    (hr : room ≤ r + least) (hd : deep ≤ d + least) :
    Reads pre deep (least + least₂) (p >>= f) whole₂
      (fun ts rest b => ∃ us vs a, ts = us ++ vs ∧ clean us (vs ++ rest) a ∧ clean₂ a vs rest b) where
  ok {c b c''} hc e := by
    obtain ⟨a, c', h, e⟩ := Parse.ok_of_bind e
    obtain ⟨us, hus, hlu, ha, hcu⟩ := hp.ok hc h
    obtain ⟨vs, hvs, hlv, hb, hcv⟩ := (hf a ha).ok ((hpre c hc).takes hus (by omega)) e
    refine ⟨us ++ vs, hus.trans hvs, by rw [List.length_append]; omega, hb, fun e => ?_⟩
    obtain ⟨e₁, e₂⟩ := hus.clean hvs e
    exact ⟨us, vs, a, rfl, by rw [← hvs.after]; exact hcu e₁, hcv e₂⟩
  error {c halt c''} hc e := by
    obtain h | ⟨a, c', h, e⟩ := Parse.error_of_bind e
    · exact hp.error hc h
    · obtain ⟨us, hus, hlu, ha, -⟩ := hp.ok hc h
      obtain ⟨vs, hvs, he⟩ := (hf a ha).error ((hpre c hc).takes hus (by omega)) e
      refine ⟨us ++ vs, hus.trans hvs, ?_⟩
      cases halt with
      | syntaxError => exact Cursor.Blames.after hus.complaints he
      | tooDeep =>
        -- The layers that the second has less are made up for by the tokens taken by the first.
        have := hus.left
        change d ≤ c'.left at he
        change deep ≤ c.left
        omega
      | offEnd => exact he

/-- One parser after another, where the first may start anywhere. -/
protected theorem bind {least₂ : Nat} {whole₂ : β → Prop}
    {clean₂ : α → List Token → List Token → β → Prop}
    (hp : Reads (Cursor.Ready origin room) deep least p whole clean)
    (hf : ∀ a, whole a → Reads (Cursor.Ready origin r) d least₂ (f a) whole₂ (clean₂ a))
    (hr : room ≤ r + least) (hd : deep ≤ d + least) :
    Reads (Cursor.Ready origin room) deep (least + least₂) (p >>= f) whole₂
      (fun ts rest b => ∃ us vs a, ts = us ++ vs ∧ clean us (vs ++ rest) a ∧ clean₂ a vs rest b) :=
  bindFrom (fun _ h => h) hp hf hr hd

/-- The same where the second needs nothing of what the first leaves. -/
theorem andThen {least₂ : Nat} {whole₂ : β → Prop}
    {clean₂ : α → List Token → List Token → β → Prop}
    (hp : Reads (Cursor.Ready origin room) deep least p whole clean)
    (hf : ∀ a, whole a → Reads (Cursor.Ready origin room) deep least₂ (f a) whole₂ (clean₂ a)) :
    Reads (Cursor.Ready origin room) deep (least + least₂) (p >>= f) whole₂
      (fun ts rest b => ∃ us vs a, ts = us ++ vs ∧ clean us (vs ++ rest) a ∧ clean₂ a vs rest b) :=
  Reads.bind hp hf (Nat.le_add_right _ _) (Nat.le_add_right _ _)

/-- A parser whose result is turned into another. -/
protected theorem map {whole₂ : β → Prop} {g : α → β} (h : Reads pre deep least p whole clean)
    (hg : ∀ a, whole a → whole₂ (g a)) :
    Reads pre deep least (g <$> p) whole₂ (fun ts rest b => ∃ a, b = g a ∧ clean ts rest a) where
  ok {c b c'} hc e := by
    change EStateM.map g p c = _ at e
    unfold EStateM.map at e
    split at e
    · next a c₁ hp =>
      cases e
      obtain ⟨ts, hts, hl, ha, hcl⟩ := h.ok hc hp
      exact ⟨ts, hts, hl, hg a ha, fun e => ⟨a, rfl, hcl e⟩⟩
    · cases e
  error {c halt c'} hc e := by
    change EStateM.map g p c = _ at e
    unfold EStateM.map at e
    split at e
    · cases e
    · next hp =>
      cases e
      exact h.error hc hp

/-! ## Single tokens -/

open Parse

protected theorem nextIs (kind : Kind) : Reads (Cursor.Ready origin room) deep 0 (nextIs kind)
    (fun _ => True) (fun ts rest b => ts = [] ∧
      ∃ t, rest.head? = some t ∧ (b = true ↔ t.kind ≠ .eof ∧ t.kind = kind)) where
  ok {c b c'} hc e := by
    obtain ⟨t, rest, h, -⟩ := hc.next
    rw [nextIs_eq h] at e
    cases e
    exact ⟨[], .refl c, Nat.le_refl _, trivial, fun _ => ⟨rfl, t, by rw [h]; rfl, by simp⟩⟩
  error {c halt c'} hc e := by
    obtain ⟨t, rest, h, -⟩ := hc.next
    rw [nextIs_eq h] at e
    cases e

protected theorem expect (kind : Kind) (what : String) :
    Reads (Cursor.Ready origin room) deep 1 (expect kind what) (fun t => origin t ∧ t.kind = kind)
      (fun ts _ t => ts = [t] ∧ t.kind = kind) where
  ok {c t c'} hc e := by
    obtain ⟨u, rest, h, hu⟩ := hc.next
    rw [expect_eq h] at e
    split at e
    · next hk =>
      cases e
      exact ⟨[t], .one h hk.1, Nat.le_refl _, ⟨hu, hk.2⟩, fun _ => ⟨rfl, hk.2⟩⟩
    · cases e
  error {c halt c'} hc e := by
    obtain ⟨u, rest, h, -⟩ := hc.next
    rw [expect_eq h] at e
    split at e
    · cases e
    · cases e
      exact ⟨[], ⟨rfl, rfl, by simp, List.prefix_append _ _⟩, u, rest, what, c.complaints, h,
        List.prefix_refl _, rfl⟩

protected theorem position : Reads pre deep 0 position (fun _ => True) (fun ts _ _ => ts = []) where
  ok {c a c'} _ e := by
    cases e
    exact ⟨[], .refl c, Nat.le_refl _, trivial, fun _ => rfl⟩
  error _ e := by cases e

/-- Complaining about the next token and giving up: nothing is given. -/
protected theorem reject (what : String) : Reads (Cursor.Ready origin room) deep least
    (reject (.expected what) : Parse α) whole clean where
  ok {c a c'} hc e := by
    obtain ⟨t, rest, h, -⟩ := hc.next
    rw [reject_eq h] at e
    cases e
  error {c halt c'} hc e := by
    obtain ⟨t, rest, h, -⟩ := hc.next
    rw [reject_eq h] at e
    cases e
    exact ⟨[], ⟨rfl, rfl, by simp, List.prefix_append _ _⟩, t, rest, what, c.complaints, h,
      List.prefix_refl _, rfl⟩

/-- Complaining about any token and going on. -/
protected theorem complain (position : Nat) (token : Token) (objection : Objection) :
    Reads pre deep 0 (complain position token objection) (fun _ => True) (fun _ _ _ => False) where
  ok {c a c'} _ e := by
    cases e
    exact ⟨[], ⟨rfl, rfl, by simp, List.prefix_append _ _⟩, Nat.le_refl _, trivial, by simp⟩
  error _ e := by cases e

/-- Complaining about the next token and going on. -/
protected theorem complainAhead (objection : Objection) :
    Reads (Cursor.Ready origin room) deep 0 (complainAhead objection) (fun _ => True)
      (fun _ _ _ => False) where
  ok {c a c'} hc e := by
    obtain ⟨t, rest, h, -⟩ := hc.next
    rw [complainAhead_eq h] at e
    cases e
    exact ⟨[], ⟨rfl, rfl, by simp, List.prefix_append _ _⟩, Nat.le_refl _, trivial, by simp⟩
  error {c halt c'} hc e := by
    obtain ⟨t, rest, h, -⟩ := hc.next
    rw [complainAhead_eq h] at e
    cases e

/-- A choice by the next token. It is taken if it is of one of the kinds; else it is of none of
them or the end token. -/
protected theorem accept {kinds : List Kind} {f : Option Token → Parse β} {whole : β → Prop}
    {taken : Token → List Token → List Token → β → Prop}
    {left : List Token → List Token → β → Prop}
    (some : ∀ t, origin t → t.kind ∈ kinds →
      Reads (Cursor.Ready origin r) d least' (f (some t)) whole (taken t))
    (none : Reads (Cursor.Ready origin room) deep least (f none) whole left)
    (hr : room ≤ r + 1) (hd : deep ≤ d + 1) (hl : least ≤ least' + 1) :
    Reads (Cursor.Ready origin room) deep least (accept? kinds >>= f) whole
      (fun ts rest b => (∃ t us, ts = t :: us ∧ t.kind ∈ kinds ∧ taken t us rest b) ∨
        (left ts rest b ∧ ∃ t, (ts ++ rest).head? = .some t ∧ (t.kind ∈ kinds → t.kind = .eof))) where
  ok {c b c'} hc e := by
    obtain ⟨t, rest, h, ht⟩ := hc.next
    change EStateM.bind _ f c = _ at e
    rw [EStateM.bind, accept?_eq h] at e
    by_cases hk : t.kind ≠ .eof ∧ t.kind ∈ kinds
    · rw [if_pos hk] at e
      have hone := Cursor.Takes.one h hk.1
      obtain ⟨us, hus, hlu, hb, hcu⟩ := (some t ht hk.2).ok (hc.takes hone (by simpa using hr)) e
      refine ⟨t :: us, hone.trans hus, by simp only [List.length_cons]; omega, hb, fun e => ?_⟩
      exact .inl ⟨t, us, rfl, hk.2, hcu e⟩
    · rw [if_neg hk] at e
      obtain ⟨us, hus, hlu, hb, hcu⟩ := none.ok hc e
      refine ⟨us, hus, hlu, hb, fun e => .inr ⟨hcu e, t, by rw [← hus.after, h]; rfl, fun hm => ?_⟩⟩
      by_contra he
      exact hk ⟨he, hm⟩
  error {c halt c'} hc e := by
    obtain ⟨t, rest, h, ht⟩ := hc.next
    change EStateM.bind _ f c = _ at e
    rw [EStateM.bind, accept?_eq h] at e
    by_cases hk : t.kind ≠ .eof ∧ t.kind ∈ kinds
    · rw [if_pos hk] at e
      have hone := Cursor.Takes.one h hk.1
      obtain ⟨us, hus, he⟩ := (some t ht hk.2).error (hc.takes hone (by simpa using hr)) e
      refine ⟨t :: us, hone.trans hus, ?_⟩
      cases halt with
      | tooDeep =>
        have := hone.left
        simp only [Halt.Explained, List.length_singleton] at he this ⊢
        omega
      | _ => exact he
    · rw [if_neg hk] at e
      exact none.error hc e

/-- Whether to go on. Where the end is next, that is not possible. -/
protected theorem unlessEnd {q : Parse α} {stopped : List Token → List Token → α → Prop} (b : Bool)
    (stop : Reads (Cursor.Ready origin room) deep least p whole stopped)
    (more : Reads (Cursor.Inside origin room) deep least q whole clean) :
    Reads (Cursor.Ready origin room) deep least
      (atEnd >>= fun e => if (b || e) = true then p else q) whole
      (fun ts rest a => ((b = true ∨ ∃ t, (ts ++ rest).head? = some t ∧ t.kind = .eof) ∧
        stopped ts rest a) ∨ clean ts rest a) where
  ok {c a c'} hc e := by
    obtain ⟨t, rest, h, -⟩ := hc.next
    change EStateM.bind _ _ c = _ at e
    rw [EStateM.bind, atEnd_eq h] at e
    by_cases hb : (b || decide (t.kind = .eof)) = true
    · dsimp only at e
      rw [if_pos hb] at e
      obtain ⟨ts, hts, hl, ha, hcl⟩ := stop.ok hc e
      refine ⟨ts, hts, hl, ha, fun e => .inl ⟨?_, hcl e⟩⟩
      rw [← hts.after, h]
      simpa using hb
    · dsimp only at e
      rw [if_neg hb] at e
      obtain ⟨ts, hts, hl, ha, hcl⟩ := more.ok ⟨hc, t, rest, h, by simp at hb; exact hb.2⟩ e
      exact ⟨ts, hts, hl, ha, fun e => .inr (hcl e)⟩
  error {c halt c'} hc e := by
    obtain ⟨t, rest, h, -⟩ := hc.next
    change EStateM.bind _ _ c = _ at e
    rw [EStateM.bind, atEnd_eq h] at e
    by_cases hb : (b || decide (t.kind = .eof)) = true
    · dsimp only at e
      rw [if_pos hb] at e
      exact stop.error hc e
    · dsimp only at e
      rw [if_neg hb] at e
      exact more.error ⟨hc, t, rest, h, by simp at hb; exact hb.2⟩ e

/-- Something that may be left out where a token of the given kind follows. -/
protected theorem option {a : α} {whole₂ : β → Prop}
    {clean₂ : α → List Token → List Token → β → Prop} (kind : Kind) (whole : α → Prop)
    (ha : whole a)
    (hp : Reads (Cursor.Ready origin room) deep least' p whole clean)
    (hf : ∀ a, whole a → Reads (Cursor.Ready origin room) deep least (f a) whole₂ (clean₂ a)) :
    Reads (Cursor.Ready origin room) deep least
      (nextIs kind >>= fun b => if b = true then pure a >>= f else p >>= f) whole₂
      (fun ts rest b => ∃ us vs a', ts = us ++ vs ∧
        ((us = [] ∧ a' = a) ∨ clean us (vs ++ rest) a') ∧ clean₂ a' vs rest b) := by
  have branch : ∀ b : Bool, Reads (Cursor.Ready origin room) deep least
      (if b = true then pure a >>= f else p >>= f) whole₂ (fun ts rest b => ∃ us vs a',
        ts = us ++ vs ∧ ((us = [] ∧ a' = a) ∨ clean us (vs ++ rest) a') ∧ clean₂ a' vs rest b) := by
    intro b
    cases b with
    | true =>
      refine Reads.imp (Reads.andThen (Reads.pure ha) hf) (Nat.le_add_left _ _) ?_
      rintro ts rest b - ⟨us, vs, a', rfl, ha', hb⟩
      exact ⟨us, vs, a', rfl, .inl ha', hb⟩
    | false =>
      refine Reads.imp (Reads.andThen hp hf) (Nat.le_add_left _ _) ?_
      rintro ts rest b - ⟨us, vs, a', rfl, ha', hb⟩
      exact ⟨us, vs, a', rfl, .inr ha', hb⟩
  refine Reads.imp (Reads.andThen (Reads.nextIs kind) (fun b _ => branch b)) (Nat.le_add_left _ _) ?_
  rintro ts rest b - ⟨_, vs, _, rfl, ⟨rfl, -⟩, hb⟩
  exact hb

/-! ## Lists with commas -/

/-- Each round takes an item, so there are rounds enough if there are more than tokens. -/
protected theorem separated {items : List Token → α → Prop} {what : String} {item : Parse α}
    (hitem : ∀ room, room ≤ r →
      Reads (Cursor.Ready origin room) deep 1 item whole (fun ts _ a => items ts a)) :
    ∀ rounds count room, room ≤ rounds → room ≤ r →
      Reads (Cursor.Ready origin room) deep 1 (separated what item rounds count)
        (fun as => ∀ a ∈ as, whole a)
        (fun ts _ as => Separated items ts as ∧ count + as.length ≤ maxArity) := by
  intro rounds
  induction rounds with
  | zero =>
    intro count room hr _
    refine ⟨fun hc => ?_, fun hc => ?_⟩ <;> exact absurd hc.short (by omega)
  | succ rounds ih =>
    intro count room hr hr'
    -- A complaint leaves nothing to show; without one there is room for an item.
    have counted : ∀ {tail : Parse (List α)},
        Reads (Cursor.Ready origin room) deep 1 tail (fun as => ∀ a ∈ as, whole a)
          (fun ts _ as => Separated items ts as ∧
            (as.length = 1 ∨ count + as.length ≤ maxArity)) →
        Reads (Cursor.Ready origin room) deep 1
          (if maxArity ≤ count then complainAhead (.tooMany what) >>= fun _ => tail else tail)
          (fun as => ∀ a ∈ as, whole a)
          (fun ts _ as => Separated items ts as ∧ count + as.length ≤ maxArity) := by
      intro tail htail
      split
      · refine Reads.imp (Reads.andThen (Reads.complainAhead _) (fun _ _ => htail)) (by omega) ?_
        rintro ts rest as - ⟨_, _, -, rfl, h, -⟩
        exact h.elim
      · next hcount =>
        apply Reads.imp htail (Nat.le_refl _)
        rintro ts rest as - ⟨h, hlen | hlen⟩
        · exact ⟨h, by omega⟩
        · exact ⟨h, hlen⟩
    rw [separated]
    refine counted (Reads.imp (Reads.bind (r := room - 1) (hitem room hr') (fun x hx =>
      Reads.accept (r := room - 1 - 1)
        (fun _ _ _ => Reads.andThen (ih (count + 1) (room - 1 - 1) (by omega) (by omega))
          (fun xs hxs => Reads.pure (List.forall_mem_cons.2 ⟨hx, hxs⟩)))
        (Reads.pure (by simpa using hx)) (by omega) (Nat.le_add_right _ _) (by omega))
      (by omega) (Nat.le_add_right _ _))
      (Nat.le_refl _) ?_)
    rintro ts rest as - ⟨us, vs, x, rfl, hx, h⟩
    rcases h with ⟨t, ws, rfl, hk, _, _, xs, rfl, ⟨hxs, hlen⟩, rfl, rfl⟩ | ⟨⟨rfl, rfl⟩, -⟩
    · refine ⟨.next hx (by simpa using hk) (by simpa using hxs), .inr ?_⟩
      simp only [List.length_cons]
      omega
    · exact ⟨by simpa using Separated.last hx, .inl rfl⟩

end Reads

end LoxLang
