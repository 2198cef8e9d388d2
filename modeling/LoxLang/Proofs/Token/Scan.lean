import LoxLang.Token.Scan
import Mathlib.Data.List.TakeWhile
/-!
# The tokens of a text

A scan is the tokens of the items of a text and an end token, which is the only one.
-/

namespace LoxLang

namespace Item

/-- The marks and their kinds. -/
def marks : List (String × Kind) :=
  [("(", .leftParen), (")", .rightParen), ("\x7b", .leftBrace), ("\x7d", .rightBrace), (",", .comma),
   (".", .dot), ("-", .minus), ("+", .plus), (";", .semicolon), ("*", .star), ("/", .slash),
   ("!", .bang), ("!=", .bangEqual), ("=", .equal), ("==", .equalEqual), ("<", .less),
   ("<=", .lessEqual), (">", .greater), (">=", .greaterEqual)]

/-- What the text of an item is like, as far as tokens show it. -/
def Proper : Item → Prop
  | mark kind text => (String.ofList text, kind) ∈ marks
  | word text => ∃ c cs, text = c :: cs ∧ isLetter c ∧ ∀ d ∈ cs, isWordRest d
  | string body => '"' ∉ body
  | _ => True

theorem proper_singleMark? {c : Char} {kind : Kind} (h : singleMark? c = some kind) :
    (mark kind [c]).Proper := by
  unfold singleMark? at h
  split at h <;> cases h <;> (dsimp only [Proper]; decide)

theorem proper_growing {c : Char} {long short : Kind} (h : growingMark? c = some (long, short))
    (cs : List Char) : (growing c long short cs).1.Proper := by
  unfold growingMark? at h
  unfold growing
  split at h <;> cases h <;> split <;> (dsimp only [Proper]; decide)

theorem proper_afterQuote (cs : List Char) : (afterQuote cs).1.Proper := by
  unfold afterQuote
  split
  · trivial
  · intro h
    simpa using List.mem_takeWhile_imp h

/-- Every item that is found is what it should be. -/
theorem proper_next (c : Char) (cs : List Char) : (next c cs).1.Proper := by
  unfold next
  split
  · trivial
  split
  · trivial
  split
  · trivial
  split
  · exact proper_afterQuote cs
  split
  · unfold number?
    split
    · split <;> trivial
    · trivial
  split
  · next h => exact ⟨c, _, rfl, h, fun d hd => List.mem_takeWhile_imp hd⟩
  split
  · next h => exact proper_singleMark? h
  · next h => exact proper_growing h cs
  · trivial

theorem proper_of_mem_items {cs : List Char} {i : Item} (h : i ∈ items cs) : i.Proper := by
  fun_induction items cs with
  | case1 => cases h
  | case2 c cs ih =>
    rcases List.mem_cons.1 h with rfl | h
    · exact proper_next c cs
    · exact ih h

theorem wordKind_ne_eof (text : String) : wordKind text ≠ .eof := by
  unfold wordKind
  split <;> simp

theorem token?_ne_eof {i : Item} {line : Nat} {t : Token} (hi : i.Proper)
    (h : i.token? line = some t) : t.kind ≠ .eof := by
  cases i with
  | mark kind text =>
    cases h
    rintro rfl
    exact absurd hi (by simp [Proper, marks])
  | number => cases h; simp
  | word => cases h; exact wordKind_ne_eof _
  | string => cases h; simp
  | _ => cases h

end Item

namespace Scan

/-- The tokens of items that start on the given line, without the end token. -/
def body (line : Nat) : List Item → List Token
  | [] => []
  | i :: rest => (i.token? (line + i.newlines)).toList ++ body (line + i.newlines) rest

/-- The line on which items end that start on the given one. -/
def lastLine (line : Nat) : List Item → Nat
  | [] => line
  | i :: rest => lastLine (line + i.newlines) rest

theorem tokens_ofItems (line : Nat) (is : List Item) :
    (ofItems line is).tokens = body line is ++ [Token.eof (lastLine line is)] := by
  induction is generalizing line with
  | nil => rfl
  | cons i rest ih => simp only [ofItems, body, lastLine, ih, List.append_assoc]

theorem body_ne_eof {is : List Item} (hi : ∀ i ∈ is, i.Proper) (line : Nat) :
    ∀ t ∈ body line is, t.kind ≠ .eof := by
  induction is generalizing line with
  | nil => simp [body]
  | cons i rest ih =>
    intro t ht
    rcases List.mem_append.1 ht with ht | ht
    · exact Item.token?_ne_eof (hi i (by simp)) (Option.mem_toList.1 ht)
    · exact ih (fun j hj => hi j (by simp [hj])) _ t ht

/-- The tokens of a text but the end token. -/
theorem tokens_ne_eof (source : String) :
    (ofText source).tokens.filter (·.kind ≠ .eof) = body 1 (items source.toList) := by
  have hbody : ∀ t ∈ body 1 (items source.toList), t.kind ≠ .eof :=
    body_ne_eof (fun _ hi => Item.proper_of_mem_items hi) 1
  rw [ofText, tokens_ofItems, List.filter_append, List.filter_eq_self.2 (by simpa using hbody)]
  simp [Token.eof]

theorem mem_body {is : List Item} {line : Nat} {t : Token} (h : t ∈ body line is) :
    ∃ i ∈ is, ∃ after, i.token? after = some t := by
  induction is generalizing line with
  | nil => simp [body] at h
  | cons i rest ih =>
    rcases List.mem_append.1 h with h | h
    · exact ⟨i, by simp, _, Option.mem_toList.1 h⟩
    · obtain ⟨j, hj, after, ht⟩ := ih h
      exact ⟨j, by simp [hj], after, ht⟩

/-- Every token of a text but the end token is that of an item that is what it should be. -/
theorem mem_tokens_ofText {source : String} {t : Token} (h : t ∈ (ofText source).tokens) :
    t.kind = .eof ∨ ∃ i : Item, i.Proper ∧ ∃ line, i.token? line = some t := by
  rw [ofText, tokens_ofItems] at h
  rcases List.mem_append.1 h with h | h
  · obtain ⟨i, hi, after, ht⟩ := mem_body h
    exact .inr ⟨i, Item.proper_of_mem_items hi, after, ht⟩
  · exact .inl (by rw [List.mem_singleton.1 h, Token.eof])

/-- No token of a text has a function for its literal. -/
theorem literal_plain {source : String} {t : Token} (h : t ∈ (ofText source).tokens)
    (hk : t.kind ≠ .eof) (f : Callable) : t.literal ≠ .function f := by
  rcases mem_tokens_ofText h with h | ⟨i, -, line, h⟩
  · exact absurd h hk
  · cases i <;> cases h <;> simp

end Scan

end LoxLang
