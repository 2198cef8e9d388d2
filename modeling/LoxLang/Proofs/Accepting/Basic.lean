import LoxLang.Grammar.Cursor
import LoxLang.Proofs.Grammar.Lookahead
/-!
# Tokens that a parser accepts

A parser accepts tokens if it takes just these, wherever the token that comes next lets it stop, and
makes just the complaints that belong to them. It may still run out of layers. How the tokens were
derived is left to the modules that follow; here a parser is put together from parts that accept
parts of the tokens.
-/

namespace LoxLang

/-- With `k` tokens taken before, the first parser takes just these tokens, with just these complaints,
where a token is next that is allowed to follow, and then goes on as the second. Or it runs out of
layers, and then it does so whatever follows. -/
def Comes {α : Type} (k : Nat) (p : Parse α) (ts : List Token) (xs : List Complaint)
    (follow : Kind → Prop) (q : Parse α) : Prop :=
  (∀ c t rest, c.before.length = k → c.after = ts ++ t :: rest → follow t.kind →
    p c = q ⟨ts.reverse ++ c.before, t :: rest, c.complaints ++ xs⟩) ∨
  ∀ c t rest, c.before.length = k → c.after = ts ++ t :: rest → follow t.kind →
    ∃ c', p c = .error .tooDeep c'

/-- The parser takes just these tokens if it gets through, and gives the result. -/
abbrev Accepts {α : Type} (k : Nat) (p : Parse α) (ts : List Token) (xs : List Complaint)
    (follow : Kind → Prop) (a : α) : Prop :=
  Comes k p ts xs follow (pure a)

/-- Looking ahead over some tokens and what follows them. -/
theorem head_append (ts : List Token) (t : Token) (rest : List Token) :
    ∃ u us, ts ++ t :: rest = u :: us ∧ u.kind = headKind ts t.kind := by
  cases ts with
  | nil => exact ⟨t, rest, rfl, rfl⟩
  | cons u us => exact ⟨u, us ++ t :: rest, rfl, rfl⟩

namespace Comes

variable {α β : Type} {k : Nat} {p q r : Parse α} {f : α → Parse β} {ts us : List Token}
  {xs ys : List Complaint} {follow follow' : Kind → Prop} {kind : Kind} {kinds : List Kind} {t : Token}

open Parse

/-- What becomes of the parser at one place. -/
theorem atCursor (h : Comes k p ts xs follow q) {c : Cursor} {rest : List Token}
    (hk : c.before.length = k) (hc : c.after = ts ++ t :: rest) (ht : follow t.kind) :
    p c = q ⟨ts.reverse ++ c.before, t :: rest, c.complaints ++ xs⟩ ∨ ∃ c', p c = .error .tooDeep c' :=
  h.imp (fun h => h c t rest hk hc ht) (fun h => h c t rest hk hc ht)

theorem refl : Comes k p [] [] follow p := by
  refine .inl fun c t rest _ hc _ => ?_
  obtain ⟨before, after, complaints⟩ := c
  cases hc
  simp

theorem imp (h : Comes k p ts xs follow q) (hf : ∀ k, follow' k → follow k) :
    Comes k p ts xs follow' q :=
  Or.imp (fun h c t rest hk hc ht => h c t rest hk hc (hf _ ht))
    (fun h c t rest hk hc ht => h c t rest hk hc (hf _ ht)) h

/-- One stretch after another, where what is taken in the second may follow the first. -/
theorem trans (h : Comes k p ts xs follow' q) (h' : Comes (k + ts.length) q us ys follow r)
    (hk : ∀ k, follow k → follow' (headKind us k)) : Comes k p (ts ++ us) (xs ++ ys) follow r := by
  -- The second parser starts where the first has come to.
  have places : ∀ {c : Cursor}, c.before.length = k →
      (ts.reverse ++ c.before).length = k + ts.length := fun hb => by
    rw [List.length_append, List.length_reverse, hb, Nat.add_comm]
  rcases h with h | h
  · have first : ∀ c t rest, c.before.length = k → c.after = ts ++ us ++ t :: rest → follow t.kind →
        p c = q ⟨ts.reverse ++ c.before, us ++ t :: rest, c.complaints ++ xs⟩ := by
      intro c t rest hb hc ht
      obtain ⟨u, us', hu, huk⟩ := head_append us t rest
      rw [hu]
      exact h c u us' hb (by rw [hc, List.append_assoc, hu]) (huk ▸ hk _ ht)
    refine Or.imp (fun h' c t rest hb hc ht => ?_) (fun h' c t rest hb hc ht => ?_) h'
    · rw [first c t rest hb hc ht]
      simpa using h' ⟨ts.reverse ++ c.before, us ++ t :: rest, c.complaints ++ xs⟩ t rest (places hb) rfl ht
    · rw [first c t rest hb hc ht]
      exact h' _ t rest (places hb) rfl ht
  · refine .inr fun c t rest hb hc ht => ?_
    obtain ⟨u, us', hu, huk⟩ := head_append us t rest
    exact h c u us' hb (by rw [hc, List.append_assoc, hu]) (huk ▸ hk _ ht)

/-- One token, whatever is next, and then the rest. -/
theorem cons (h : Comes k p [t] [] (fun _ => True) q) (h' : Comes (k + 1) q ts xs follow r) :
    Comes k p (t :: ts) xs follow r := trans h h' fun _ _ => trivial

/-- A look ahead, and then the rest. -/
theorem nil (h : Comes k p [] [] follow' q) (h' : Comes k q ts xs follow r)
    (hk : ∀ k, follow k → follow' (headKind ts k)) : Comes k p ts xs follow r := trans h h' hk

/-- A parser that gives up at once may come to anything. -/
theorem tooDeep : Comes k (throw .tooDeep) ts xs follow q :=
  .inr fun c _ _ _ _ _ => ⟨c, rfl⟩

protected theorem bind (h : Comes k p ts xs follow q) : Comes k (p >>= f) ts xs follow (q >>= f) := by
  refine Or.imp (fun h c t rest hk hc ht => ?_) (fun h c t rest hk hc ht => ?_) h
  · change EStateM.bind p f c = EStateM.bind q f _
    rw [EStateM.bind, h c t rest hk hc ht]
    rfl
  · obtain ⟨c', e⟩ := h c t rest hk hc ht
    exact ⟨c', bind_error e f⟩

/-! ## Single tokens -/

/-- The choice is taken. -/
theorem accept {f : Option Token → Parse β} (hk : t.kind ∈ kinds) (he : Kind.eof ∉ kinds) :
    Comes k (accept? kinds >>= f) [t] [] (fun _ => True) (f (some t)) := by
  refine .inl fun c u rest _ hc _ => ?_
  have ht : t.kind ≠ .eof := fun h => he (h ▸ hk)
  change EStateM.bind _ f c = _
  unfold EStateM.bind
  rw [accept?_eq hc, if_pos ⟨ht, hk⟩]
  simp

/-- The choice is left. -/
theorem pass {f : Option Token → Parse β} :
    Comes k (accept? kinds >>= f) [] [] (· ∉ kinds) (f none) := by
  refine .inl fun c t rest _ hc ht => ?_
  obtain ⟨before, after, complaints⟩ := c
  cases hc
  change EStateM.bind _ f _ = _
  unfold EStateM.bind
  rw [accept?_eq rfl, if_neg fun h => ht h.2]
  simp

theorem expect {what : String} {f : Token → Parse β} (hk : t.kind = kind) (he : kind ≠ .eof) :
    Comes k (expect kind what >>= f) [t] [] (fun _ => True) (f t) := by
  refine .inl fun c u rest _ hc _ => ?_
  change EStateM.bind _ f c = _
  unfold EStateM.bind
  rw [expect_eq hc, if_pos ⟨hk ▸ he, hk⟩]
  simp

/-- The number of tokens taken is known. -/
theorem position {f : Nat → Parse β} {q : Parse β} (h : Comes k (f k) ts xs follow q) :
    Comes k (position >>= f) ts xs follow q := by
  refine Or.imp (fun h c t rest hk hc ht => ?_) (fun h c t rest hk hc ht => ?_) h
  all_goals
    subst hk
    exact h c t rest rfl hc ht

theorem complain {f : Unit → Parse β} (position : Nat) (token : Token) (objection : Objection) :
    Comes k (complain position token objection >>= f) [] [⟨position, token, objection⟩]
      (fun _ => True) (f ()) := by
  refine .inl fun c u rest _ hc _ => ?_
  obtain ⟨before, after, complaints⟩ := c
  cases hc
  rfl

/-- A token of the kind is next. -/
theorem next {f : Bool → Parse β} (he : kind ≠ .eof) :
    Comes k (nextIs kind >>= f) [] [] (· = kind) (f true) := by
  refine .inl fun c t rest _ hc ht => ?_
  obtain ⟨before, after, complaints⟩ := c
  cases hc
  change EStateM.bind _ f _ = _
  unfold EStateM.bind
  rw [nextIs_eq rfl]
  simp [ht, he]

/-- A token of another kind is next. -/
theorem notNext {f : Bool → Parse β} :
    Comes k (nextIs kind >>= f) [] [] (· ≠ kind) (f false) := by
  refine .inl fun c t rest _ hc ht => ?_
  obtain ⟨before, after, complaints⟩ := c
  cases hc
  change EStateM.bind _ f _ = _
  unfold EStateM.bind
  rw [nextIs_eq rfl]
  simp [ht]

theorem notAtEnd {f : Bool → Parse β} :
    Comes k (Parse.atEnd >>= f) [] [] (· ≠ .eof) (f false) := by
  refine .inl fun c t rest _ hc ht => ?_
  obtain ⟨before, after, complaints⟩ := c
  cases hc
  change EStateM.bind _ f _ = _
  unfold EStateM.bind
  rw [atEnd_eq rfl]
  simp [ht]

end Comes

namespace Accepts

variable {α β : Type} {k : Nat} {p : Parse α} {f : α → Parse β} {ts us : List Token}
  {xs ys : List Complaint} {follow follow' : Kind → Prop} {a : α} {b : β}

open Parse

/-- One parser after another, where what the second takes lets the first stop. -/
protected theorem bind (hp : Accepts k p ts xs follow' a)
    (hf : Accepts (k + ts.length) (f a) us ys follow b) (hk : ∀ k, follow k → follow' (headKind us k)) :
    Accepts k (p >>= f) (ts ++ us) (xs ++ ys) follow b :=
  Comes.trans (Comes.bind hp) hf hk

/-- The same where the second does not complain. -/
theorem bindQuiet (hp : Accepts k p ts xs follow' a)
    (hf : Accepts (k + ts.length) (f a) us [] follow b) (hk : ∀ k, follow k → follow' (headKind us k)) :
    Accepts k (p >>= f) (ts ++ us) xs follow b := by
  have := Accepts.bind hp hf hk
  rwa [List.append_nil] at this

/-- The same where the second does not take anything either. -/
theorem bindNil (hp : Accepts k p ts xs follow' a) (hf : Accepts (k + ts.length) (f a) [] [] follow b)
    (hk : ∀ k, follow k → follow' k) : Accepts k (p >>= f) ts xs follow b := by
  have := Accepts.bindQuiet hp hf hk
  rwa [List.append_nil] at this

protected theorem map {g : α → β} (hp : Accepts k p ts xs follow a) :
    Accepts k (g <$> p) ts xs follow (g a) := by
  rw [map_eq_pure_bind]
  exact Comes.bind hp

/-- Something that may be left out is left out. -/
theorem leftOut {kind : Kind} (he : kind ≠ .eof) (hf : Accepts k (f a) us ys follow b)
    (hk : ∀ k, follow k → headKind us k = kind) :
    Accepts k (nextIs kind >>= fun x => if x = true then pure a >>= f else p >>= f) us ys follow b :=
  Comes.nil (Comes.next he) hf hk

/-- Something that may be left out is there. -/
theorem given {kind : Kind} {d : α} (hp : Accepts k p ts xs follow' a)
    (hne : ∀ k, headKind ts k ≠ kind) (hf : Accepts (k + ts.length) (f a) us ys follow b)
    (hk : ∀ k, follow k → follow' (headKind us k)) :
    Accepts k (nextIs kind >>= fun x => if x = true then pure d >>= f else p >>= f) (ts ++ us)
      (xs ++ ys) follow b := by
  refine Comes.nil Comes.notNext (Accepts.bind hp hf hk) fun k _ => ?_
  rw [headKind_append]
  exact hne _

/-! ## Lists with commas -/

/-- A complaint about the next token if as many items have come before as a list may have. -/
def counting (what : String) (count : Nat) (p : Parse α) : Parse α :=
  if maxArity ≤ count then complainAhead (.tooMany what) >>= fun _ => p else p

/-- What follows the items that have been read: more of them after a comma. -/
def moreItems (what : String) (item : Parse α) (rounds : Nat) (as : List α) : Parse (List α) := do
  match ← accept? [.comma] with
  | some _ => return as ++ (← separated what item rounds as.length)
  | none => return as

theorem counting_bind (what : String) (count : Nat) (p : Parse α) (f : α → Parse β) :
    (counting what count p >>= f) = counting what count (p >>= f) := by
  unfold counting
  split
  · exact bind_assoc _ _ _
  · rfl

/-- Behind some items, one more is read, and then what follows it. -/
theorem separated_behind (what : String) (item : Parse α) (rounds : Nat) (as : List α) :
    (separated what item (rounds + 1) as.length >>= fun bs => pure (as ++ bs)) =
      counting what as.length (item >>= fun a => moreItems what item rounds (as ++ [a])) := by
  change (counting what as.length (item >>= _) >>= _) = _
  simp only [counting_bind, bind_assoc, moreItems, List.length_append, List.length_singleton]
  refine congrArg _ (bind_congr fun a => bind_congr fun o => ?_)
  cases o <;> simp

/-- An item is accepted along with the complaint that it is one too many. -/
theorem counting_comes {what : String} {count : Nat} {q : Parse α} (hne : ts ≠ [])
    (h : Comes k p ts xs follow q) :
    Comes k (counting what count p) ts (surplus what count k ts ++ xs) follow q := by
  unfold counting surplus
  by_cases hcount : count < 255
  · rw [if_neg (by simpa [maxArity] using hcount), if_pos hcount]
    exact h
  · rw [if_pos (by simpa [maxArity] using hcount), if_neg hcount]
    obtain ⟨u, us, rfl⟩ := List.exists_cons_of_ne_nil hne
    have blamed : ∀ (c : Cursor) t rest, c.before.length = k → c.after = u :: us ++ t :: rest →
        (complainAhead (.tooMany what) >>= fun _ => p) c =
          p { c with complaints := c.complaints ++ [⟨k, u, .tooMany what⟩] } := by
      rintro c t rest rfl hc
      exact bind_ok (complainAhead_eq hc _) _
    refine Or.imp (fun h c t rest hk hc ht => ?_) (fun h c t rest hk hc ht => ?_) h
    · have hgoes := h { c with complaints := c.complaints ++ [⟨k, u, .tooMany what⟩] } t rest hk hc ht
      rw [blamed c t rest hk hc]
      simpa using hgoes
    · rw [blamed c t rest hk hc]
      exact h _ t rest hk hc ht

/-- Reading a list comes by each item of it, with the items before it in hand and a round left for
every token ahead. -/
theorem separated_comes {items : Nat → List Token → α → List Complaint → Prop} {what : String}
    {item : Parse α} {room : Nat} {as : List α}
    (hitem : ∀ k us a ys, items k us a ys → us.length < room → us ≠ [] ∧
      Accepts k item us ys (fun k => k = .comma ∨ k = .rightParen) a)
    (h : Enumerated what items k ts as xs) : ts.length < room → ∃ r, room ≤ r + ts.length ∧
      Comes k (separated what item room 0) ts xs (fun k => k = .comma ∨ k = .rightParen)
        (moreItems what item r as) := by
  induction h with
  | @first ts a xs ha =>
    intro hl
    obtain ⟨hne, hacc⟩ := hitem k ts a xs ha hl
    obtain ⟨r, rfl⟩ : ∃ r, room = r + 1 := ⟨room - 1, by omega⟩
    have hpos := List.length_pos_iff.2 hne
    refine ⟨r, by omega, ?_⟩
    have hread := separated_behind what item r ([] : List α)
    simp only [List.nil_append, bind_pure] at hread
    rw [List.length_nil] at hread
    rw [hread]
    exact counting_comes hne (Comes.bind hacc)
  | @next ts as xs comma us a ys _ hcomma ha ih =>
    intro hl
    rw [List.length_append, List.length_cons] at hl ⊢
    obtain ⟨r, hr, hcomes⟩ := ih (by omega)
    obtain ⟨hne, hacc⟩ := hitem _ us a ys ha (by omega)
    obtain ⟨r, rfl⟩ : ∃ r', r = r' + 1 := ⟨r - 1, by omega⟩
    refine ⟨r, by omega, hcomes.trans (?_ : Comes _ _ (comma :: us) _ _ _) fun _ _ => .inl hcomma⟩
    refine Comes.cons (Comes.accept (by simp [hcomma]) (by simp)) ?_
    dsimp only
    rw [separated_behind]
    exact counting_comes hne (Comes.bind hacc)

/-- The tokens of a list with commas, where a closing parenthesis is next. -/
protected theorem separated {items : Nat → List Token → α → List Complaint → Prop} {what : String}
    {item : Parse α} {room : Nat} {as : List α}
    (hitem : ∀ k us a ys, items k us a ys → us.length < room → us ≠ [] ∧
      Accepts k item us ys (fun k => k = .comma ∨ k = .rightParen) a)
    (h : Enumerated what items k ts as xs) (hl : ts.length < room) :
    Accepts k (separated what item room 0) ts xs (· = .rightParen) as := by
  obtain ⟨r, -, hcomes⟩ := separated_comes hitem h hl
  have stops : Accepts (k + ts.length) (moreItems what item r as) [] [] (· ∉ [.comma]) as :=
    Comes.pass
  rw [← List.append_nil ts, ← List.append_nil xs]
  exact hcomes.trans (stops.imp fun k hk => by simp [hk]) fun _ hk => .inr hk

end Accepts

end LoxLang
