import LoxLang.Proofs.Form.RoundTrip
import LoxLang.Proofs.InStep.Rules
import LoxLang.Proofs.Prompt.Joined
import LoxLang.Session
/-!
# What comes back means the same

An expression that was written in prefix form and read back is evaluated as it was before, but for
the lines on which its errors are found. Infinity is the exception: it comes back as a name, which
need not be bound.
-/

namespace LoxLang

/-- Faults that differ at most in the line of the token that is blamed. -/
inductive Fault.Relined : Fault → Fault → Prop
  | same (e : Fault) : Relined e e
  | moved {t t' : Token} {c : Cause} : t.Relined t' → Relined (.runtime t c) (.runtime t' c)

/-- Two runs ended with the same machine, and with the same value or the same fault but for lines. -/
inductive EndsRelined {α : Type} :
    EStateM.Result Fault Machine α → EStateM.Result Fault Machine α → Prop
  | ok (a : α) (m : Machine) : EndsRelined (.ok a m) (.ok a m)
  | error {e e' : Fault} (m : Machine) : e.Relined e' → EndsRelined (.error e m) (.error e' m)

/-- Two runs that end in this way wherever they start. -/
def Run.Relined {α : Type} (x y : Run α) : Prop := ∀ m, EndsRelined (x m) (y m)

theorem Fault.Relined.caught {e e' : Fault} {t t' : Token} (h : e.Relined e') (ht : t.Relined t') :
    (e.caught t).Relined (e'.caught t') := by
  cases h with
  | same =>
    cases e with
    | overflow => exact .moved ht
    | _ => exact .same _
  | moved h => exact .moved h

theorem OperationError.fault_relined {t t' : Token} (ht : t.Relined t') (e : OperationError) :
    (e.fault t).Relined (e.fault t') := by
  cases e with
  | wrong => exact .moved ht
  | broken => exact .same _

namespace Run.Relined

variable {α β : Type} {x y : Run α} {t t' : Token} {below : Layer Run}

protected theorem refl (x : Run α) : Run.Relined x x := by
  intro m
  cases x m with
  | ok a n => exact .ok a n
  | error e n => exact .error n (.same e)

protected theorem throw {e e' : Fault} (h : e.Relined e') :
    Run.Relined (throw e : Run α) (throw e') :=
  fun m => .error m h

protected theorem bind {f g : α → Run β} (h : Run.Relined x y)
    (hf : ∀ a, Run.Relined (f a) (g a)) : Run.Relined (x >>= f) (y >>= g) := by
  intro m
  change EndsRelined (EStateM.bind x f m) (EStateM.bind y g m)
  unfold EStateM.bind
  have hm := h m
  generalize x m = r, y m = r' at hm
  cases hm with
  | ok a n => exact hf a n
  | error n he => exact .error n he

theorem catchOverflow (ht : t.Relined t') (h : Run.Relined x y) :
    Run.Relined (Run.catchOverflow t x) (Run.catchOverflow t' y) := by
  intro m
  rw [Run.catchOverflow_eq, Run.catchOverflow_eq]
  have hm := h m
  generalize x m = r, y m = r' at hm
  cases hm with
  | ok a n => exact .ok a n
  | error n he => exact .error n (he.caught ht)

theorem lookup (ht : t.Relined t') : Run.Relined (Run.lookup t) (Run.lookup t') := by
  intro m
  rw [Run.lookup_eq, Run.lookup_eq, ← ht.2.1]
  cases m.store.resolve t.lexeme m.store.room m.scope with
  | found _ v => exact .ok v m
  | unbound => exact .error m (.moved ht)
  | tooDeep => exact .error m (.same _)

theorem assign (ht : t.Relined t') (v : Value) :
    Run.Relined (Run.assign t v) (Run.assign t' v) := by
  intro m
  rw [Run.assign_eq, Run.assign_eq, ← ht.2.1]
  cases m.store.resolve t.lexeme m.store.room m.scope with
  | found => exact .ok () _
  | unbound => exact .error m (.moved ht)
  | tooDeep => exact .error m (.same _)

/-! ## Calls and operations -/

theorem settle (ht : t.Relined t') (r : Except OperationError Value) :
    Run.Relined (Layer.settle t r) (Layer.settle t' r) := by
  cases r with
  | ok v => exact .refl _
  | error e => exact .throw (e.fault_relined ht)

theorem settleCall (ht : t.Relined t') (r : Except NativeError Value) :
    Run.Relined (Layer.settleCall t r) (Layer.settleCall t' r) := by
  cases r with
  | ok v => exact .refl _
  | error e =>
    cases e with
    | rejected => exact .throw (.moved ht)
    | broken => exact .refl _

theorem callNative (ht : t.Relined t') (n : Native) (vs : List Value) :
    Run.Relined (Layer.callNative n vs t) (Layer.callNative n vs t') := by
  unfold Layer.callNative
  split
  · exact .bind (.refl _) fun reading => settleCall ht _
  · exact settleCall ht _

/-- The function that is called is the same one, so all that its body does is the same. -/
theorem call (ht : t.Relined t') (callee : Value) (vs : List Value) :
    Run.Relined (below.call callee vs t) (below.call callee vs t') := by
  have entered : Run.Relined (below.enter callee vs t) (below.enter callee vs t') := by
    cases callee with
    | native n => exact callNative ht n vs
    | function f => exact .refl _
    | _ => exact .throw (.moved ht)
  unfold Layer.call
  split
  · exact .throw (.moved ht)
  · split
    · exact .throw (.moved ht)
    · exact .bind (.refl _) fun _ => .bind (catchOverflow ht entered) fun _ => .refl _

end Run.Relined

/-! ## Expressions -/

/-- A tree is like itself in this sense if its operators have no literals. -/
def Likeness.plain : Likeness where
  token role t t' := t = t' ∧ (role ∈ [.unary, .binary] → t.literal = .nil)
  literal _ := True
  misplaced := False

namespace Node

/-- No number literal in the tree is infinite. -/
def Finite (n : Node) : Prop := ∀ x, (literal (.number x)).Within n → ¬ x.isInf

theorem Finite.child {n k : Node} (h : n.Finite) (hk : k ∈ n.children) : k.Finite :=
  fun x hx => h x (.inside hk hx)

theorem Finite.of_children {n : Node} (h : ∀ x, n = literal (.number x) → ¬ x.isInf)
    (hk : ∀ k ∈ n.children, k.Finite) : n.Finite := by
  intro x hx
  cases hx with
  | top => exact h x rfl
  | inside hmem hx => exact hk _ hmem x hx

theorem reread_literal {v : Value} (h : (literal v).Finite) : (literal v).reread = literal v := by
  rw [reread]
  cases v with
  | number x => rw [Value.reread, if_neg (h x .top)]
  | _ => rfl

end Node

theorem Token.relined_bare {t : Token} (h : t.literal = .nil) : t.Relined t.bare := ⟨rfl, rfl, h⟩

theorem Token.relined_relined (t : Token) : t.Relined t.relined := ⟨rfl, rfl, rfl⟩

namespace Layer

variable {below : Layer Run}

theorem evaluateAll_reread {ns : List Node}
    (h : ∀ n ∈ ns, Run.Relined (below.evaluate n) (below.evaluate n.reread)) :
    Run.Relined (below.evaluateAll ns) (below.evaluateAll (Node.rereads ns)) := by
  induction ns with
  | nil =>
    rw [Node.rereads]
    exact .refl _
  | cons n ns ih =>
    rw [Node.rereads]
    refine .bind (h n (by simp)) fun v => .bind (ih fun k hk => h k (by simp [hk])) fun vs => ?_
    exact .refl _

/-- What is read back is evaluated as what was written if that holds of the parts. -/
theorem evaluateNode_reread {n : Node} (hplain : Node.Alike .plain .expression n n) (hn : n.Finite)
    (h : ∀ k ∈ n.children, Node.Alike .plain .expression k k → k.Finite →
      Run.Relined (below.evaluate k) (below.evaluate k.reread)) :
    Run.Relined (below.evaluateNode n) (below.evaluateNode n.reread) := by
  have part : ∀ k ∈ n.children, Node.Alike .plain .expression k k →
      Run.Relined (below.evaluate k) (below.evaluate k.reread) :=
    fun k hk hplain => h k hk hplain (hn.child hk)
  cases hplain with
  | literal =>
    rw [Node.reread_literal hn]
    exact .refl _
  | @ident t =>
    rw [Node.reread]
    exact .lookup t.relined_relined
  | @assign t _ e _ _ he =>
    rw [Node.reread]
    refine .bind (part e (by simp [Node.children]) he) fun v => ?_
    exact .bind (.assign t.relined_relined v) fun _ => .refl _
  | @unary t _ e _ ht he =>
    rw [Node.reread]
    refine .bind (part e (by simp [Node.children]) he) fun v => ?_
    exact .settle (Token.relined_bare (ht.2 (by simp))) _
  | @binary a _ t _ b _ ha ht hb =>
    rw [Node.reread]
    refine .bind (part a (by simp [Node.children]) ha) fun x => ?_
    refine .bind (part b (by simp [Node.children]) hb) fun y => ?_
    exact .settle (Token.relined_bare (ht.2 (by simp))) _
  | @logical a _ t _ b _ ha _ hb =>
    rw [Node.reread]
    refine .bind (part a (by simp [Node.children]) ha) fun v => ?_
    change Run.Relined _
      (if (if t.kind = .keyword .orWord then v.truthy else !v.truthy) then _ else _)
    dsimp only
    generalize (if t.kind = .keyword .orWord then v.truthy else !v.truthy) = decided
    cases decided with
    | true => exact .refl _
    | false => exact part b (by simp [Node.children]) hb
  | @grouping e _ he =>
    rw [Node.reread]
    exact part e (by simp [Node.children]) he
  | @call f _ t _ as _ hf _ has =>
    rw [Node.reread]
    refine .bind (part f (by simp [Node.children]) hf) fun callee => ?_
    refine .bind (evaluateAll_reread fun k hk => ?_) fun vs => .call t.relined_relined callee vs
    exact part k (by simp [Node.children, hk]) (List.forall₂_same.1 has k hk)
  | misplaced hm => exact hm.elim

/-- Wherever an expression is evaluated, what is read back of it is evaluated in the same way. -/
theorem evaluate_reread (turns : ℕ) : ∀ (nesting : ℕ) {e : Node},
    Node.Alike .plain .expression e e → e.Finite →
      Run.Relined ((atop turns nesting).evaluate e) ((atop turns nesting).evaluate e.reread)
  | 0, _, _, _ => .refl _
  | nesting + 1, _, hplain, he =>
    evaluateNode_reread hplain he fun _ _ hk hfinite => evaluate_reread turns nesting hk hfinite

end Layer

/-! ## Expressions of source texts -/

/-- The operators of a source text have no literals. -/
theorem Scan.literal_operator {source : String} {t : Token} (h : t ∈ (ofText source).tokens)
    {role : Role} (hrole : role ∈ [.unary, .binary]) (hk : t.kind ∈ role.kinds) :
    t.literal = .nil := by
  obtain ⟨heof, hnumber, hstring⟩ := role.kinds_plain
  have hword : ∀ k ∈ role.kinds, k ≠ .identifier ∧ ∀ word, k ≠ .keyword word := by
    rcases List.mem_pair.1 hrole with rfl | rfl <;> simp [Role.kinds]
  rcases mem_tokens_ofText h with he | ⟨i, hi, line, ht⟩
  · exact absurd (he ▸ hk) heof
  · cases i with
    | mark => cases ht; rfl
    | number => cases ht; exact absurd hk hnumber
    | string => cases ht; exact absurd hk hstring
    | word text =>
      cases ht
      obtain ⟨hidentifier, hkeyword⟩ := hword _ hk
      rcases Item.wordKind_cases (String.ofList text) with h | ⟨word, -, h⟩
      · exact absurd h hidentifier
      · exact absurd h (hkeyword word)
    | _ => cases ht

theorem Program.plain {source : String} {nesting : ℕ} {n e : Node}
    (hn : n ∈ (ofText source nesting).statements) (he : e.Within n) (hexpr : e.isExpression) :
    Node.Alike .plain .expression e e := by
  refine Node.Alike.imp ?_ (fun _ => trivial) False.elim (proper_expression hn he hexpr)
  rintro role t t' ⟨rfl, ht, hk⟩
  exact ⟨rfl, fun hrole => Scan.literal_operator ht hrole hk⟩

namespace Node

/-- An expression of a text, if the printer and the reader can follow it and it holds no infinite
literal, is written and read back as one that is evaluated in the same way on every machine: to the
same value or with the same fault but for its line, with the same printed, and with the same bound. -/
theorem reread_means_same {source : String} {parsing : ℕ} {n e : Node}
    (hn : n ∈ (Program.ofText source parsing).statements) (he : e.Within n) (hexpr : e.isExpression)
    (hfinite : e.Finite) {printing reading : ℕ} (hprints : e.height ≤ printing)
    (hreads : e.height ≤ reading) :
    ∃ text e', printWithin printing expressionText e = .ok text ∧ ofText text reading = .ok e' ∧
      ∀ (l : Limits) (m : Machine),
        EndsRelined (l.layer.evaluate e m) (l.layer.evaluate e' m) := by
  obtain ⟨text, htext, f, hf, hread⟩ := (Program.readable hn he hexpr).returns
  refine ⟨text, e.reread, ?_, ?_, fun l => ?_⟩
  · rw [printWithin, if_neg (Nat.not_lt.2 hprints), htext]
    rfl
  · rw [ofText, hf.ofText]
    exact hread reading (by omega)
  · exact Layer.evaluate_reread l.turns l.nesting (Program.plain hn he hexpr) hfinite

end Node

theorem Derives.of_unary {ts : List Token} {n : Node} (h : Derives .unary ts [n]) :
    Derives .expression ts [n] :=
  .operation (.operand (.operand (.operand (.operand (.operand (.operand h))))))

/-- A text that is too short to nest too deeply stands for what the grammar says. -/
theorem Program.statements_of_short {source : String} {ns : List Node}
    (hshort : (tokensOf source).length < nestingLimit)
    (hd : Derives .declarations (tokensOf source) ns) :
    (ofText source).complaints = [] ∧ (ofText source).statements = ns :=
  (ofText_accepts hd).resolve_right fun h => absurd h.1 (Nat.not_le.2 hshort)

namespace Node

/-- A name that is not bound, with a sign, for a printer and a reader that can just follow it. -/
theorem reread_means_same_negated :
    let x : Node := .ident ⟨.identifier, "x", .string "x", 1⟩
    let e : Node := .unary ⟨.minus, "-", .nil, 1⟩ x
    .exprStmt e ∈ (Program.ofText "-x;").statements ∧ e.Within (.exprStmt e) ∧ e.isExpression ∧
      e.Finite ∧ e.height ≤ 2 ∧
      ∃ text e', printWithin 2 expressionText e = .ok text ∧ ofText text 2 = .ok e' ∧
        ∀ (l : Limits) (m : Machine),
          EndsRelined (l.layer.evaluate e m) (l.layer.evaluate e' m) := by
  intro x e
  have htokens : Program.tokensOf "-x;" =
      [⟨.minus, "-", .nil, 1⟩, ⟨.identifier, "x", .string "x", 1⟩, ⟨.semicolon, ";", .nil, 1⟩] := by
    decide +kernel
  have hd : Derives .declarations (Program.tokensOf "-x;") [.exprStmt e] := by
    rw [htokens]
    have hx : Derives .unary [⟨.identifier, "x", .string "x", 1⟩] [x] :=
      .callee (.primary (.name rfl))
    exact .nextDeclaration (.statement (.evaluation
      (.expressionStatement (.of_unary (.unary (.inr rfl) hx)) rfl))) .noDeclarations
  have hmem : .exprStmt e ∈ (Program.ofText "-x;").statements := by
    rw [(Program.statements_of_short (by rw [htokens]; decide) hd).2]
    exact List.mem_singleton_self _
  have hwithin : e.Within (.exprStmt e) := .inside (List.mem_singleton_self _) .top
  have hfinite : e.Finite := by
    refine .of_children (by simp [e]) fun k hk => ?_
    obtain rfl := List.mem_singleton.1 hk
    exact .of_children (by simp [x]) (by simp [x, children])
  have hheight : e.height ≤ 2 := by decide
  exact ⟨hmem, hwithin, rfl, hfinite, hheight,
    reread_means_same hmem hwithin rfl hfinite hheight hheight⟩

end Node

/-! ## Infinity -/

namespace Overlong

/-- A numeral that is too long for a double. -/
def digits : List Char := List.replicate 310 '9'

/-- A statement that consists of it. -/
def text : String := String.ofList (digits ++ [';'])

theorem items_text : items text.toList = [.number digits [], .mark .semicolon [';']] := by
  have hnumber : Item.next '9' (List.replicate 309 '9' ++ [';']) = (.number digits [], [';']) := by
    decide +kernel
  have hmark : Item.next ';' [] = (.mark .semicolon [';'], []) := rfl
  have hcons : digits ++ [';'] = '9' :: (List.replicate 309 '9' ++ [';']) := rfl
  rw [text, String.toList_ofList, hcons, items, hnumber, items, hmark, items]

theorem tokensOf_text : Program.tokensOf text =
    [⟨.number, String.ofList digits, .number Float.inf, 1⟩, ⟨.semicolon, ";", .nil, 1⟩] := by
  have hvalue : (Decimal.ofDigits (Item.digitValues digits) [] 0).toFloat = Float.inf := by
    decide +kernel
  have hlines : (Item.number digits []).newlines = 0 := by decide +kernel
  rw [Program.tokensOf, items_text, Scan.body, hlines, ← hvalue]
  rfl

/-- The statement is read without a complaint. -/
theorem statements_text : isValid text ∧
    (Program.ofText text).statements = [.exprStmt (.literal (.number Float.inf))] := by
  have hd : Derives .declarations (Program.tokensOf text)
      [.exprStmt (.literal (.number Float.inf))] := by
    rw [tokensOf_text]
    exact .nextDeclaration (.statement (.evaluation (.expressionStatement
      (.of_unary (.callee (.primary (.literal (.inl rfl))))) rfl))) .noDeclarations
  obtain ⟨hcomplaints, hstatements⟩ :=
    Program.statements_of_short (by rw [tokensOf_text]; decide) hd
  have herrors : (Scan.ofText text).errors = [] := by rw [Scan.ofText, items_text]; rfl
  exact ⟨isValid_iff.2 ⟨herrors, hcomplaints⟩, hstatements⟩

end Overlong

/-- Infinity is written as a name, which a new session does not know: what is read back of a numeral
that is too long fails instead of giving its value. -/
theorem Node.infinity_lost :
    let e : Node := .literal (.number Float.inf)
    let inf : Token := ⟨.identifier, "inf", .string "inf", 1⟩
    let m := (Session.new .usual 0 fun _ => 0).machine
    isValid Overlong.text ∧ (Program.ofText Overlong.text).statements = [.exprStmt e] ∧
      printWithin nestingLimit expressionText e = .ok "inf" ∧ ofText "inf" = .ok (.ident inf) ∧
      Limits.usual.layer.evaluate e m = .ok (.number Float.inf) m ∧
      Limits.usual.layer.evaluate (.ident inf) m = .error (.runtime inf (.undefined "inf")) m := by
  intro e inf m
  have hprint : e.expressionText = .ok "inf" := by
    rw [expressionText, Value.literalText, numberLiteral_inf]
  refine ⟨Overlong.statements_text.1, Overlong.statements_text.2, ?_, by cbv, rfl, rfl⟩
  rw [printWithin, if_neg (by decide), hprint]
  rfl

end LoxLang
