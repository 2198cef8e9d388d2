import LoxLang.Token
/-!
# Lexical items

A source text is a run of items, each the longest match at its place: blanks, line ends, comments,
marks, numbers, words, closed strings, a stray character that starts none of these, and a string
that is never closed, which takes the whole rest. The texts of the items join to the source
(`text_items`).
-/

namespace LoxLang

/-- A piece of a source text. -/
inductive Item where
  /-- A run of spaces, tabs and carriage returns. -/
  | blank (text : List Char)
  /-- The end of a line. -/
  | newline
  /-- A comment, with the text after its two slashes. -/
  | comment (body : List Char)
  /-- An operator or a bracket. -/
  | mark (kind : Kind) (text : List Char)
  /-- A number: its digits before the point and, with a point, those after it. -/
  | number (whole fraction : List Char)
  /-- A name or a reserved word. -/
  | word (text : List Char)
  /-- A closed string, with the text between its quotes. -/
  | string (body : List Char)
  /-- A quote that is never closed, with all that follows it. -/
  | openString (body : List Char)
  /-- A character that starts no other item. -/
  | stray (c : Char)
  deriving DecidableEq

namespace Item

/-! ## Classes of characters -/

/-- The blanks inside a line. -/
def isGap (c : Char) : Bool := c == ' ' || c == '\t' || c == '\r'

/-- The characters that a name starts with. -/
def isLetter (c : Char) : Bool := c.isAlpha || c == '_'

/-- The characters that a name goes on with. -/
def isWordRest (c : Char) : Bool := isLetter c || c.isDigit

/-- The marks of one character that never grow. -/
def singleMark? : Char → Option Kind
  | '(' => some .leftParen
  | ')' => some .rightParen
  | '{' => some .leftBrace
  | '}' => some .rightBrace
  | ',' => some .comma
  | '.' => some .dot
  | '-' => some .minus
  | '+' => some .plus
  | ';' => some .semicolon
  | '*' => some .star
  | '/' => some .slash
  | _ => none

/-- The marks that an equals sign may follow: the kind with it and the kind alone. -/
def growingMark? : Char → Option (Kind × Kind)
  | '!' => some (.bangEqual, .bang)
  | '=' => some (.equalEqual, .equal)
  | '<' => some (.lessEqual, .less)
  | '>' => some (.greaterEqual, .greater)
  | _ => none

/-! ## The next item -/

/-- A number whose first digit is `c`. A point belongs to it only if a digit follows. -/
def number? (c : Char) (cs : List Char) : Item × List Char :=
  let whole := c :: cs.takeWhile Char.isDigit
  match cs.dropWhile Char.isDigit with
  | '.' :: d :: rest =>
    if d.isDigit then
      (.number whole (d :: rest.takeWhile Char.isDigit), rest.dropWhile Char.isDigit)
    else (.number whole [], '.' :: d :: rest)
  | rest => (.number whole [], rest)

/-- What follows an opening quote. -/
def afterQuote (cs : List Char) : Item × List Char :=
  match cs.dropWhile (· != '"') with
  | [] => (.openString cs, [])
  | _ :: rest => (.string (cs.takeWhile (· != '"')), rest)

/-- A mark that takes an equals sign after it, if there is one. -/
def growing (c : Char) (long short : Kind) : List Char → Item × List Char
  | '=' :: cs => (.mark long [c, '='], cs)
  | cs => (.mark short [c], cs)

/-- The item that starts with `c`, and the rest of the text. -/
def next (c : Char) (cs : List Char) : Item × List Char :=
  if isGap c then (.blank (c :: cs.takeWhile isGap), cs.dropWhile isGap)
  else if c = '\n' then (.newline, cs)
  else if c = '/' ∧ cs.head? = some '/' then
    (.comment (cs.tail.takeWhile (· != '\n')), cs.tail.dropWhile (· != '\n'))
  else if c = '"' then afterQuote cs
  else if c.isDigit then number? c cs
  else if isLetter c then (.word (c :: cs.takeWhile isWordRest), cs.dropWhile isWordRest)
  else
    match singleMark? c, growingMark? c with
    | some kind, _ => (.mark kind [c], cs)
    | none, some (long, short) => growing c long short cs
    | none, none => (.stray c, cs)

/-- The text of an item. -/
def text : Item → List Char
  | blank text => text
  | newline => ['\n']
  | comment body => '/' :: '/' :: body
  | mark _ text => text
  | number whole fraction => if fraction = [] then whole else whole ++ '.' :: fraction
  | word text => text
  | string body => '"' :: body ++ ['"']
  | openString body => '"' :: body
  | stray c => [c]

theorem head_dropWhile {p : Char → Bool} {cs rest : List Char} {c : Char}
    (h : cs.dropWhile p = c :: rest) : p c = false := by
  induction cs with
  | nil => simp at h
  | cons a as ih =>
    rw [List.dropWhile_cons] at h
    split at h
    · exact ih h
    · next hp => cases h; simpa using hp

theorem text_number? (c : Char) (cs : List Char) :
    (number? c cs).1.text ++ (number? c cs).2 = c :: cs := by
  have join := List.takeWhile_append_dropWhile (p := Char.isDigit) (l := cs)
  unfold number?
  split
  · next d rest h =>
    rw [h] at join
    split
    · simp [text, join]
    · simp [text, join]
  · simp [text, join]

theorem text_afterQuote (cs : List Char) :
    (afterQuote cs).1.text ++ (afterQuote cs).2 = '"' :: cs := by
  have join := List.takeWhile_append_dropWhile (p := (· != '"')) (l := cs)
  unfold afterQuote
  split
  · simp [text]
  · next c rest h =>
    have hc : c = '"' := by simpa using head_dropWhile h
    rw [h, hc] at join
    simp [text, join]

theorem text_growing (c : Char) (long short : Kind) (cs : List Char) :
    (growing c long short cs).1.text ++ (growing c long short cs).2 = c :: cs := by
  unfold growing
  split <;> simp [text]

/-- An item and the rest after it make up the text. -/
theorem text_next (c : Char) (cs : List Char) : (next c cs).1.text ++ (next c cs).2 = c :: cs := by
  unfold next
  split
  · simp [text]
  split
  · next h => simp [text, h]
  split
  · next h =>
    cases cs with
    | nil => simp at h
    | cons a as => simp at h; simp [text, h]
  split
  · next h => rw [text_afterQuote, h]
  split
  · exact text_number? c cs
  split
  · simp [text]
  split
  · simp [text]
  · exact text_growing ..
  · simp [text]

/-- An item is never empty. -/
theorem text_next_ne_nil (c : Char) (cs : List Char) : (next c cs).1.text ≠ [] := by
  unfold next
  split
  · simp [text]
  split
  · simp [text]
  split
  · simp [text]
  split
  · unfold afterQuote; split <;> simp [text]
  split
  · unfold number?; split
    · split <;> simp [text]
    · simp [text]
  split
  · simp [text]
  split
  · simp [text]
  · unfold growing; split <;> simp [text]
  · simp [text]

theorem length_next (c : Char) (cs : List Char) : (next c cs).2.length < (c :: cs).length := by
  have join := congrArg List.length (text_next c cs)
  have := List.length_pos_iff.2 (text_next_ne_nil c cs)
  simp only [List.length_append] at join
  omega

end Item

/-- The items of a text. -/
def items : List Char → List Item
  | [] => []
  | c :: cs => (Item.next c cs).1 :: items (Item.next c cs).2
termination_by cs => cs.length
decreasing_by exact Item.length_next c cs

/-- Nothing of the text is lost. -/
theorem text_items (cs : List Char) : (items cs).flatMap Item.text = cs := by
  fun_induction items cs with
  | case1 => rfl
  | case2 c cs ih => rw [List.flatMap_cons, ih, Item.text_next]

end LoxLang
