import LoxLang.Proofs.Reading.Program
import LoxLang.Proofs.Scoping.WellScoped
/-!
# What a `for` loop means

A `for` statement is read as a block around a `while` loop whose body is another block. Run as the
loop that it is meant to be, without the inner block, it does the same: as its body is never a
declaration, nothing is ever bound in the scope that the inner block makes in each turn. All scopes of
a session are there, so this holds in whatever session the statement is executed
(`Session.for_sameOutcome`).
-/

namespace LoxLang

/-! ## The loop itself -/

namespace ForClauses

/-- The condition of a loop, which is true if there is none. -/
def directCondition (layer : Layer Run) (c : ForClauses) : Run Value :=
  match c.condition with
  | some condition => layer.evaluate condition
  | none => return .bool true

/-- One turn: the body and, unless it returned, the increment, in the same scope. -/
def directTurn (layer : Layer Run) (c : ForClauses) : Run Completion :=
  match c.increment with
  | none => layer.execute c.body
  | some increment => do
    match ← layer.execute c.body with
    | .normal =>
      let _ ← layer.evaluate increment
      return .normal
    | .returned value => return .returned value

/-- Turns for as long as the condition holds and the body does not return. -/
def directLoop (turns : Nat) (layer : Layer Run) (c : ForClauses) : Run Completion :=
  Layer.loop (c.directCondition layer) (c.directTurn layer) turns

/-- A `for` loop: in a fresh scope if there is an initializer, that is run and then the turns. -/
def direct (turns : Nat) (layer : Layer Run) (c : ForClauses) : Run Completion :=
  match c.start with
  | none => c.directLoop turns layer
  | some start => do
    let scope ← Run.openScope ⟨some (← get).scope, []⟩
    Run.within scope do
      match ← layer.execute start with
      | .normal => c.directLoop turns layer
      | .returned value => return .returned value

end ForClauses

/-! ## Layers that are left out -/

/-- One side may need up to `deeper` layers more than the other. -/
def Slack.Reaches : Slack → Nat → Nat → Nat → Prop
  | left, _, n, n' => n ≤ n'
  | right, deeper, n, n' => n' + deeper ≤ n
  | none, _, _, _ => False

namespace Slack.Reaches

variable {s : Slack} {d n n' : Nat}

theorem allows (h : s.Reaches d n n') : s.Allows n n' := by
  cases s with
  | left => exact h
  | right => exact Nat.le_trans (Nat.le_add_right n' d) h
  | none => exact h.elim

theorem less (h : s.Reaches (d + 1) n n') : s.Reaches d n n' := by
  cases s with
  | left => exact h
  | right => exact Nat.le_of_succ_le h
  | none => exact h.elim

theorem pred (h : s.Reaches (d + 1) (n + 1) n') : s.Reaches d n n' := by
  cases s with
  | left => exact Nat.le_of_succ_le h
  | right => exact Nat.le_of_succ_le_succ h
  | none => exact h.elim

theorem left_of_zero (h : s.Reaches (d + 1) 0 n') : s = .left := by
  cases s with
  | left => rfl
  | right => exact absurd h (by simp [Reaches])
  | none => exact h.elim

end Slack.Reaches

namespace Correspondence

variable {D : Correspondence} {w : D.World} {b : Bool} {α : Type} {d t n n' : Nat}

/-- The left may take a layer more to execute a node, or meets its limit there. -/
theorem Runs.executeLeft {y : Run Completion} {Q : D.World → Completion → Completion → Prop}
    {node : Node} (hn : D.slack.Reaches (d + 1) n n')
    (h : ∀ k, D.slack.Reaches d k n' → D.Runs w b ((Layer.atop t k).executeNode t node) y Q) :
    D.Runs w b ((Layer.atop t n).execute node) y Q := by
  cases n with
  | zero => exact Runs.excusedLeft hn.left_of_zero rfl
  | succ k => exact h k hn.pred

theorem Runs.evaluateLeft {y : Run Value} {Q : D.World → Value → Value → Prop} {node : Node}
    (hn : D.slack.Reaches (d + 1) n n')
    (h : ∀ k, D.slack.Reaches d k n' → D.Runs w b ((Layer.atop t k).evaluateNode node) y Q) :
    D.Runs w b ((Layer.atop t n).evaluate node) y Q := by
  cases n with
  | zero => exact Runs.excusedLeft hn.left_of_zero rfl
  | succ k => exact h k hn.pred

end Correspondence

namespace Linked

variable {l : Likeness} {slack : Slack} {w : Placing} {b : Bool} {m m' : Machine}

/-- Only the left enters and leaves a spare scope. -/
theorem insideSpare (hl : l.Faithful) {x y : Run Completion}
    {Q : Placing → Completion → Completion → Prop} (hy : Stays y)
    (hm : (linked l slack False).machines w b m m')
    (h : (linked l slack False).Runs (w ++ [(m'.scope, false)]) false x y Q) :
    (linked l slack False).Ends w b Q (Run.inside ⟨some m.scope, []⟩ x m) (y m') := by
  have hx := h _ _ (enterSpare hm)
  have hw : w <+: w ++ [(m'.scope, false)] := List.prefix_append _ _
  have back : ∀ {w' n n'}, w ++ [(m'.scope, false)] <+: w' → n'.scope = m'.scope →
      (linked l slack False).machines w' false n n' →
      (linked l slack False).machines w' b { n with scope := m.scope } n' := by
    intro w' n n' hle hs hn
    have hleft := (lawful hl).leave hm (hw.trans hle) hn
    rw [← hs] at hleft
    exact hleft
  -- The right has to end where it began, as it leaves no scope.
  have hstays := hy m'
  rw [Run.inside_eq]
  revert hstays
  refine Correspondence.Ends.elim hx ?left ?right ?ok ?error
  case left => exact fun e n r' hs he _ => Correspondence.Ends.excusedLeft hs he _
  case right => exact fun r e' n' hs he _ => Correspondence.Ends.excusedRight hs he _
  case ok => exact fun w' a a' n n' hle hn ha hs => ⟨w', hw.trans hle, back hle hs hn, ha⟩
  case error => exact fun w' e e' n n' hf hle hn hs => .inr ⟨hf, w', hw.trans hle, back hle hs hn⟩

end Linked

/-! ## In step -/

theorem Layer.executeAll_singleton (layer : Layer Run) (n : Node) :
    layer.executeAll [n] = layer.execute n := by
  funext m
  change EStateM.bind (layer.execute n) _ m = _
  unfold EStateM.bind
  cases layer.execute n m with
  | ok c m' => cases c <;> rfl
  | error => rfl

namespace ForClauses

open Correspondence

variable {slack : Slack} {w : Placing} {b : Bool} {c : ForClauses} {t t' n n' : Nat}

theorem stays_direct (c : ForClauses) (t n : Nat) :
    Stays (c.directTurn (Layer.atop t n)) ∧ Stays (c.direct t (Layer.atop t n)) := by
  obtain ⟨start, condition, increment, body⟩ := c
  obtain ⟨hevaluate, hexecute⟩ := Stays.atop t n
  have hturn : Stays (directTurn (Layer.atop t n) ⟨start, condition, increment, body⟩) := by
    cases increment with
    | none => exact hexecute body
    | some e =>
      refine Stays.bind (hexecute body) fun c => ?_
      cases c with
      | normal => exact Stays.bind (hevaluate e) fun _ => Stays.pure _
      | returned v => exact Stays.pure _
  have hcondition : Stays (directCondition (Layer.atop t n) ⟨start, condition, increment, body⟩) := by
    cases condition with
    | none => exact Stays.pure _
    | some e => exact hevaluate e
  refine ⟨hturn, ?_⟩
  cases start with
  | none => exact Stays.loop hcondition hturn t
  | some s => exact fun m => Stays.inside ⟨some m.scope, []⟩ _ m

theorem lawful_same : (linked .same slack False).Lawful := Linked.lawful Likeness.same_faithful

theorem inStep (ht : slack.Allows t t') {d : Nat} (hn : slack.Reaches d n n') :
    (linked .same slack False).LayersInStep (Layer.atop t n) (Layer.atop t' n') :=
  layersInStep lawful_same ht n n' hn.allows

/-- The scope of the inner block is a spare one, since the body binds nothing in it. -/
theorem turn_inStep (hbody : Node.Alike .same (.statement false) c.body c.body)
    (ht : slack.Allows t t') (hn : slack.Reaches 2 n n') :
    (linked .same slack False).Runs w b ((Layer.atop t n).execute c.turn)
      (c.directTurn (Layer.atop t' n')) (linked .same slack False).SameCompletion := by
  have stays := (c.stays_direct t' n').1
  obtain ⟨start, condition, increment, body⟩ := c
  cases increment with
  | none =>
    -- Without an increment there is no inner block.
    have hbody : Node.Alike .same (.statement b) body body := by
      cases b with
      | false => exact hbody
      | true => exact hbody.toBind
    exact (inStep ht hn).execute hbody
  | some e =>
    refine Runs.executeLeft hn fun k hk m m' hm => ?_
    apply Linked.insideSpare Likeness.same_faithful stays hm
    apply Runs.bind lawful_same ((inStep ht hk).execute hbody)
    rintro w₁ c _ - ⟨rfl, hc⟩
    cases c with
    | normal =>
      change (linked .same slack False).Runs w₁ false ((Layer.atop t k).executeAll [.exprStmt e]) _ _
      rw [Layer.executeAll_singleton]
      refine Runs.executeLeft hk fun j hj => ?_
      have he := (Node.alike_self Likeness.same_reflexive e).1
      apply Runs.bind lawful_same ((inStep ht hj).evaluate he)
      exact fun _ _ _ _ _ => Runs.pure lawful_same ⟨rfl, by simp⟩
    | returned v => exact Runs.pure lawful_same ⟨rfl, hc⟩

theorem loop_inStep (hbody : Node.Alike .same (.statement false) c.body c.body)
    (ht : slack.Allows t t') (hn : slack.Reaches 3 n n') :
    (linked .same slack False).Runs w b ((Layer.atop t n).execute c.loop)
      (c.directLoop t' (Layer.atop t' n')) (linked .same slack False).SameCompletion := by
  refine Runs.executeLeft hn fun k hk => ?_
  refine Runs.loop lawful_same (fun w₁ => ?_) (fun w₁ => turn_inStep hbody ht hk) t t' ht w
  obtain ⟨start, condition, increment, body⟩ := c
  cases condition with
  | none => exact Runs.evaluateLeft hk fun _ _ => Runs.pure lawful_same ⟨rfl, trivial⟩
  | some e => exact (inStep ht hk).evaluate (Node.alike_self Likeness.same_reflexive e).1

theorem direct_inStep (hbody : Node.Alike .same (.statement false) c.body c.body)
    (ht : slack.Allows t t') (hn : slack.Reaches 4 n n') :
    (linked .same slack False).Runs w true ((Layer.atop t n).execute c.desugared)
      (c.direct t' (Layer.atop t' n')) (linked .same slack False).SameCompletion := by
  obtain ⟨start, condition, increment, body⟩ := c
  cases start with
  | none => exact loop_inStep hbody ht hn.less
  | some s =>
    refine Runs.executeLeft hn fun k hk m m' hm => ?_
    obtain ⟨w', hle, hin⟩ := lawful_same.enterBlock hm
    apply Ends.inside lawful_same hm hle hin
    have hs := (Node.alike_self Likeness.same_reflexive s).2
    apply Runs.bind lawful_same ((inStep ht hk).execute hs)
    rintro w₁ c _ - ⟨rfl, hc⟩
    cases c with
    | normal =>
      change (linked .same slack False).Runs w₁ true ((Layer.atop t k).executeAll [loop _]) _ _
      rw [Layer.executeAll_singleton]
      exact loop_inStep hbody ht hk
    | returned v => exact Runs.pure lawful_same ⟨rfl, hc⟩

end ForClauses

/-! ## The same outcome -/

/-- Two machines that runs from `m` ended in: all scopes of `m` are the same in both, and whatever
else is in one corresponds to what is in the other. They have printed and traced the same, and
their functions have the same declarations in scopes that correspond. -/
structure Machine.SameSince (m n n' : Machine) : Prop where
  scope : n.scope = m.scope ∧ n'.scope = m.scope
  scopes : ∀ i < m.store.scopes.size, n.store.scopes[i]? = n'.store.scopes[i]?
  linked : ∃ w, Placing.identity m.store.scopes.size <+: w ∧ n.Linked .same w n'

/-- Two runs from `m` ended in the same way. -/
def SameOutcome (m : Machine) :
    EStateM.Result Fault Machine Completion → EStateM.Result Fault Machine Completion → Prop
  | .ok c n, .ok c' n' => c = c' ∧ m.SameSince n n'
  | .error e n, .error e' n' => e = e' ∧ m.SameSince n n'
  | _, _ => False

/-- A run that met a limit. -/
def AtLimit : EStateM.Result Fault Machine Completion → Prop
  | .ok _ _ => False
  | .error e _ => e.isLimit

instance : DecidablePred AtLimit
  | .ok _ _ => .isFalse id
  | .error e _ => inferInstanceAs (Decidable (e.isLimit = true))

theorem Fault.Linked.eq_of_same {e e' : Fault} (h : Fault.Linked .same e e') : e = e' := by
  cases h with
  | runtime ht c =>
    obtain rfl : _ = _ := ht
    rfl
  | _ => rfl

theorem SameOutcome.of_ends {slack : Slack} {m : Machine} {b : Bool} {x y : Run Completion}
    (hx : Stays x) (hy : Stays y)
    (h : (linked .same slack False).Ends (.identity m.store.scopes.size) b
      (linked .same slack False).SameCompletion (x m) (y m))
    (hlimit : slack = .left ∧ ¬ AtLimit (x m) ∨ slack = .right ∧ ¬ AtLimit (y m)) :
    SameOutcome m (x m) (y m) := by
  have since : ∀ {w n n'}, (linked .same slack False).machines w b n n' →
      Placing.identity m.store.scopes.size <+: w → n.scope = m.scope → n'.scope = m.scope →
      m.SameSince n n' := by
    intro w n n' hn hw hs hs'
    exact ⟨⟨hs, hs'⟩, fun i hi => hn.1.scopes_eq hw hi, w, hw, hn.1⟩
  have hstays := hx m
  have hstays' := hy m
  -- A side is excused only if it met a limit, which the side in question did not.
  revert hlimit hstays hstays'
  refine Correspondence.Ends.elim h ?left ?right ?ok ?error
  case left =>
    rintro e n r' hs he (⟨-, hl⟩ | ⟨hs', -⟩)
    · exact absurd he hl
    · exact absurd (hs.symm.trans hs') (by simp)
  case right =>
    rintro r e' n' hs he (⟨hs', -⟩ | ⟨-, hl⟩)
    · exact absurd (hs.symm.trans hs') (by simp)
    · exact absurd he hl
  case ok =>
    intro w c c' n n' hw hn hc _ hs hs'
    exact ⟨hc.1, since hn hw hs hs'⟩
  case error =>
    intro w e e' n n' hf hw hn _ hs hs'
    exact ⟨hf.eq_of_same, since hn hw hs hs'⟩

/-- A `for` loop whose body is no declaration and what is made of it do the same. The loop needs no
higher limits than what is made of it, and that needs only four layers more. -/
theorem ForClauses.sameOutcome {c : ForClauses}
    (hbody : Node.Alike .same (.statement false) c.body c.body) {m : Machine} (hm : m.WellScoped)
    {l l' : Limits} (ht : l.turns ≤ l'.turns) :
    (l.nesting ≤ l'.nesting → ¬ AtLimit (l.layer.execute c.desugared m) →
      SameOutcome m (l.layer.execute c.desugared m) (c.direct l'.turns l'.layer m)) ∧
    (l.nesting + 4 ≤ l'.nesting → ¬ AtLimit (c.direct l.turns l.layer m) →
      SameOutcome m (l'.layer.execute c.desugared m) (c.direct l.turns l.layer m)) := by
  refine ⟨fun hn hlimit => ?_, fun hn hlimit => ?_⟩
  · have ht : Slack.left.Allows l.turns l'.turns := ht
    have hn : Slack.left.Reaches 4 l.nesting l'.nesting := hn
    have hself := hm.machines_self Likeness.same_reflexive .left False true
    have hends := direct_inStep hbody ht hn m m hself
    exact .of_ends ((Stays.atop _ _).2 _) (c.stays_direct _ _).2 hends (.inl ⟨rfl, hlimit⟩)
  · have ht : Slack.right.Allows l'.turns l.turns := ht
    have hn : Slack.right.Reaches 4 l'.nesting l.nesting := hn
    have hself := hm.machines_self Likeness.same_reflexive .right False true
    have hends := direct_inStep hbody ht hn m m hself
    exact .of_ends ((Stays.atop _ _).2 _) (c.stays_direct _ _).2 hends (.inr ⟨rfl, hlimit⟩)

/-- A `for` statement that is read is made of the clauses that are read. -/
theorem Rules.forRule_ok_iff {below : Rules} {cursor cursor' : Cursor} {n : Node} :
    Rules.forRule below cursor = .ok n cursor' ↔
      ∃ c, Rules.forClauses below cursor = .ok c cursor' ∧ n = c.desugared := by
  change EStateM.map ForClauses.desugared (Rules.forClauses below) cursor = _ ↔ _
  unfold EStateM.map
  cases Rules.forClauses below cursor with
  | ok c cursor₁ =>
    constructor
    · rintro ⟨⟩
      exact ⟨c, rfl, rfl⟩
    · rintro ⟨_, ⟨⟩, rfl⟩
      rfl
  | error => exact ⟨nofun, by rintro ⟨_, ⟨⟩, -⟩⟩

/-- The body of a `for` statement that is read is no declaration. -/
theorem Rules.forClauses_body {rounds nesting : Nat} {cursor cursor' : Cursor} {c : ForClauses}
    (hcursor : cursor.Ready (fun _ => True) rounds)
    (h : Rules.forClauses (Rules.atop rounds nesting) cursor = .ok c cursor') :
    Node.Alike .same (.statement false) c.body c.body := by
  have hread : RulesRead (fun _ => True) nesting (Rules.atop rounds nesting) :=
    RulesRead.atop rounds nesting
  rw [← Rules.rounds_atop rounds nesting] at hcursor
  obtain ⟨ts, -, -, hproper, -⟩ := (Reads.forClauses hread).ok hcursor h
  exact hproper.body.imp (fun h => (h : _ ∧ _).1) (fun _ => trivial) (fun _ => trivial)

/-- What a `for` statement is read as does what the loop itself does, whatever the machine. The
loop needs no higher limits than what is read, and what is read needs only four layers more. -/
theorem Rules.forRule_direct {rounds nesting : Nat} {cursor cursor' : Cursor} {n : Node}
    (hcursor : cursor.Ready (fun _ => True) rounds)
    (h : Rules.forRule (Rules.atop rounds nesting) cursor = .ok n cursor') {m : Machine}
    (hm : m.WellScoped) :
    ∃ c, Rules.forClauses (Rules.atop rounds nesting) cursor = .ok c cursor' ∧ n = c.desugared ∧
      ∀ l l' : Limits, l.turns ≤ l'.turns →
        (l.nesting ≤ l'.nesting → ¬ AtLimit (l.layer.execute n m) →
          SameOutcome m (l.layer.execute n m) (c.direct l'.turns l'.layer m)) ∧
        (l.nesting + 4 ≤ l'.nesting → ¬ AtLimit (c.direct l.turns l.layer m) →
          SameOutcome m (l'.layer.execute n m) (c.direct l.turns l.layer m)) := by
  obtain ⟨c, hc, rfl⟩ := forRule_ok_iff.1 h
  exact ⟨c, hc, rfl, fun l l' ht => ForClauses.sameOutcome (forClauses_body hcursor hc) hm ht⟩

/-- What follows `for` in `for (var a = true; a; a = false) print a;`. -/
def Cursor.forTurns : Cursor :=
  ⟨[], [⟨.leftParen, "(", .nil, 1⟩, ⟨.keyword .varWord, "var", .string "var", 1⟩,
    ⟨.identifier, "a", .string "a", 1⟩, ⟨.equal, "=", .nil, 1⟩,
    ⟨.keyword .trueWord, "true", .bool true, 1⟩, ⟨.semicolon, ";", .nil, 1⟩,
    ⟨.identifier, "a", .string "a", 1⟩, ⟨.semicolon, ";", .nil, 1⟩,
    ⟨.identifier, "a", .string "a", 1⟩, ⟨.equal, "=", .nil, 1⟩,
    ⟨.keyword .falseWord, "false", .bool false, 1⟩, ⟨.rightParen, ")", .nil, 1⟩,
    ⟨.keyword .printWord, "print", .string "print", 1⟩, ⟨.identifier, "a", .string "a", 1⟩,
    ⟨.semicolon, ";", .nil, 1⟩, Token.eof 1], []⟩

/-- Behind that loop. -/
def Cursor.forTurnsOver : Cursor := ⟨forTurns.after.dropLast.reverse, [Token.eof 1], []⟩

/-- The clauses of that loop. -/
def ForClauses.forTurns : ForClauses :=
  let a : Token := ⟨.identifier, "a", .string "a", 1⟩
  ⟨some (.varDecl a (some (.literal (.bool true)))), some (.ident a),
    some (.assign a (.literal (.bool false))), .printStmt (.ident a)⟩

theorem Rules.forClauses_forTurns : Rules.forClauses (Rules.atop 17 2) Cursor.forTurns =
    .ok ForClauses.forTurns Cursor.forTurnsOver := rfl

/-- In a new session the loop that ends after its first turn does so as it is read, too. -/
theorem Rules.forRule_direct_forTurns :
    let m := (Session.new .usual 0 fun _ => 0).machine
    let c := ForClauses.forTurns
    let low : Limits := ⟨8, 2⟩
    let high : Limits := ⟨12, 2⟩
    Cursor.forTurns.Ready (fun _ => True) 17 ∧ m.WellScoped ∧
      Rules.forRule (Rules.atop 17 2) Cursor.forTurns = .ok c.desugared Cursor.forTurnsOver ∧
      ¬ AtLimit (high.layer.execute c.desugared m) ∧ ¬ AtLimit (c.direct low.turns low.layer m) ∧
      (machineOf (c.direct low.turns low.layer m)).output = "True\n" ∧
      SameOutcome m (high.layer.execute c.desugared m) (c.direct high.turns high.layer m) ∧
      SameOutcome m (high.layer.execute c.desugared m) (c.direct low.turns low.layer m) := by
  intro m c low high
  have hready : Cursor.forTurns.Ready (fun _ => True) 17 :=
    ⟨⟨Token.eof 1, by decide, rfl⟩, fun _ _ => trivial, by decide⟩
  have hm : m.WellScoped := Session.new_wellScoped _ _ _
  have hread : Rules.forRule (Rules.atop 17 2) Cursor.forTurns =
      .ok c.desugared Cursor.forTurnsOver :=
    Rules.forRule_ok_iff.2 ⟨c, Rules.forClauses_forTurns, rfl⟩
  have hhigh : ¬ AtLimit (high.layer.execute c.desugared m) := by decide +kernel
  have hlow : ¬ AtLimit (c.direct low.turns low.layer m) := by decide +kernel
  have hprinted : (machineOf (c.direct low.turns low.layer m)).output = "True\n" := by
    decide +kernel
  -- The limits stay variables here, so that nothing is run.
  have hsame : ∀ l l' : Limits, l.turns ≤ l'.turns → l.nesting + 4 ≤ l'.nesting →
      ¬ AtLimit (l'.layer.execute c.desugared m) → ¬ AtLimit (c.direct l.turns l.layer m) →
      SameOutcome m (l'.layer.execute c.desugared m) (c.direct l'.turns l'.layer m) ∧
        SameOutcome m (l'.layer.execute c.desugared m) (c.direct l.turns l.layer m) := by
    intro l l' ht hn hl' hl
    obtain ⟨c', hc', -, hsame⟩ := Rules.forRule_direct hready hread hm
    have hc : c = c' :=
      (EStateM.Result.ok.inj (Rules.forClauses_forTurns.symm.trans hc')).1
    rw [← hc] at hsame
    exact ⟨(hsame l' l' (Nat.le_refl _)).1 (Nat.le_refl _) hl', (hsame l l' ht).2 hn hl⟩
  exact ⟨hready, hm, hread, hhigh, hlow, hprinted,
    hsame low high (by decide) (by decide) hhigh hlow⟩

/-- In whatever session a `for` statement is executed, it does what the loop itself does. -/
theorem Session.for_sameOutcome (limits : Limits) (traceLevel : Nat) (clock : Nat → Float)
    (steps : List Step) {rounds nesting : Nat} {cursor cursor' : Cursor} {n : Node}
    (hcursor : cursor.Ready (fun _ => True) rounds)
    (h : Rules.forRule (Rules.atop rounds nesting) cursor = .ok n cursor') :
    let m := ((Session.new limits traceLevel clock).after steps).machine
    ∃ c, Rules.forClauses (Rules.atop rounds nesting) cursor = .ok c cursor' ∧ n = c.desugared ∧
      (¬ AtLimit (limits.layer.execute n m) →
        SameOutcome m (limits.layer.execute n m) (c.direct limits.turns limits.layer m)) ∧
      ∀ extra ≥ 4, ¬ AtLimit (c.direct limits.turns limits.layer m) →
        SameOutcome m ((⟨limits.nesting + extra, limits.turns⟩ : Limits).layer.execute n m)
          (c.direct limits.turns limits.layer m) := by
  obtain ⟨c, hc, rfl⟩ := Rules.forRule_ok_iff.1 h
  have hbody := Rules.forClauses_body hcursor hc
  have hm : ((Session.new limits traceLevel clock).after steps).machine.WellScoped :=
    after_wellScoped (new_wellScoped limits traceLevel clock) steps
  refine ⟨c, hc, rfl, fun hlimit => ?_, fun extra hextra hlimit => ?_⟩
  · exact (ForClauses.sameOutcome hbody hm (Nat.le_refl _)).1 (Nat.le_refl _) hlimit
  · have hturns : limits.turns ≤ (⟨limits.nesting + extra, limits.turns⟩ : Limits).turns :=
      Nat.le_refl _
    exact (ForClauses.sameOutcome hbody hm hturns).2 (Nat.add_le_add_left hextra _) hlimit

end LoxLang
