import LoxLang.Proofs.InStep.Rules
import LoxLang.Proofs.Natives.Arguments
import LoxLang.Proofs.Reading.Basic
import Mathlib.Tactic.Tauto
/-!
# The faults of well-formed programs

Operators of the kinds that a well-formed tree has are all supported, and division by zero is never
left to the machine. A native that is given all its arguments breaks off for one reason only: an
index that is infinite or not a number.
-/

namespace LoxLang

/-! ## Natives -/

/-- The arguments at these places are cut off to whole numbers. -/
def Native.indices : Native → List Nat
  | substring => [1, 2]
  | strat => [1]
  | _ => []

/-- A call of a native breaks off at an index that is infinite or not a number. -/
def Native.BreaksAtIndex (n : Native) (vs : List Value) (b : Breakdown) : Prop :=
  ∃ i ∈ n.indices, ∃ y, vs[i]? = some (.number y) ∧
    (y.isNaN ∧ b = .nanIndex ∨ y.isInf ∧ b = .infiniteIndex)

namespace Native

variable {n : Native} {ps : List Parameter} {vs : List Value} {b : Breakdown}

theorem exists_index_of_breaks (h : Breaks ps vs b) :
    ∃ (i : Nat) (y : Float), ps[i]? = some .index ∧ vs[i]? = some (.number y) ∧ Uncuttable y b := by
  induction h with
  | here hx => exact ⟨0, _, rfl, rfl, hx⟩
  | text _ ih | index _ _ ih =>
    obtain ⟨i, y, hp, hy, hb⟩ := ih
    exact ⟨i + 1, y, hp, hy, hb⟩

theorem mem_indices_of_parameter {i : Nat} (h : n.parameters[i]? = some .index) :
    i ∈ n.indices := by
  cases n with
  | clock => cases h
  | strlen => match i, h with | 0, h | _ + 1, h => cases h
  | substring =>
    match i with
    | 0 => cases h
    | 1 => exact List.mem_cons_self
    | 2 => exact List.mem_cons_of_mem _ List.mem_cons_self
    | _ + 3 => cases h
  | indexof => match i, h with | 0, h | 1, h | _ + 2, h => cases h
  | strat =>
    match i with
    | 0 => cases h
    | 1 => exact List.mem_cons_self
    | _ + 2 => cases h

/-- A native with all its arguments only ever breaks off at an index. -/
theorem apply_broken {x : Float} (hlen : vs.length = n.arity)
    (h : n.apply x vs = .error (.broken b)) : n.BreaksAtIndex vs b := by
  obtain ⟨i, y, hp, hy, hb⟩ := exists_index_of_breaks ((apply_broken_iff hlen).1 h)
  exact ⟨i, mem_indices_of_parameter hp, y, hy, hb⟩

end Native

/-! ## Faults -/

/-- What a well-formed program can do wrong: anything but the use of an unknown operator. -/
def Cause.Permitted : Cause → Prop
  | unsupportedUnary _ | unsupportedBinary _ => False
  | _ => True

/-- How the run of a well-formed program can fail: by an error of the program, at an index of a
native, or at a limit. No node is misplaced. -/
def Fault.Permitted : Fault → Prop
  | runtime _ cause => cause.Permitted
  | misplaced _ => False
  | broken b => ∃ (n : Native) (x : Float) (vs : List Value),
      n.apply x vs = .error (.broken b) ∧ n.BreaksAtIndex vs b
  | overflow | unfinished => True

theorem unaryOperation_permitted {t : Token} {v : Value} {e : OperationError}
    (ht : t.kind ∈ Role.unary.kinds) (h : unaryOperation t v = .error e) :
    (e.fault t).Permitted := by
  have hk : t.kind = .bang ∨ t.kind = .minus := by simpa [Role.kinds] using ht
  unfold unaryOperation at h
  rcases hk with hk | hk
  · rw [hk] at h
    cases h
  · rw [hk] at h
    cases v <;> cases h <;> exact trivial

theorem arithmetic_permitted {t : Token} {x y : Float} {e : OperationError}
    (ht : t.kind ∈ [.minus, .star, .slash, .greater, .greaterEqual, .less, .lessEqual]) :
    arithmetic t x y ≠ .error e := by
  intro h
  unfold arithmetic at h
  split at h <;> try cases h
  · split at h
    · cases h
    · next hy =>
      unfold quotient at h
      rw [if_neg hy] at h
      cases h
  · next hk => simp_all

theorem binaryOperation_permitted {t : Token} {x y : Value} {e : OperationError}
    (ht : t.kind ∈ Role.binary.kinds) (h : binaryOperation t x y = .error e) :
    (e.fault t).Permitted := by
  unfold binaryOperation at h
  split at h
  · cases h
  · cases h
  · unfold addition at h
    split at h <;> cases h
    exact trivial
  · next hk =>
    split at h
    · refine absurd h (arithmetic_permitted ?_)
      simp only [Role.kinds, List.mem_cons] at ht ⊢
      tauto
    · cases h
      exact trivial

end LoxLang
