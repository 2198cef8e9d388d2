import LoxLang.Native
import Mathlib.Data.List.Basic
/-!
# The arguments of natives

A native looks at its arguments from left to right, up to the first one that it cannot use. If that
is an index that is infinite or not a number, the call breaks off; any other one is rejected.
-/

namespace LoxLang

/-- What an argument has to be. -/
inductive Parameter where
  | text
  | index

/-- What the arguments of a native have to be. -/
def Native.parameters : Native → List Parameter
  | clock => []
  | strlen => [.text]
  | substring => [.text, .index, .index]
  | indexof => [.text, .text]
  | strat => [.text, .index]

/-- A number that cannot be cut off to a whole number, and what comes of trying. -/
def Uncuttable (x : Float) (b : Breakdown) : Prop :=
  x.isNaN ∧ b = .nanIndex ∨ x.isInf ∧ b = .infiniteIndex

/-- The first argument that is of no use is an index that is infinite or not a number. -/
inductive Breaks : List Parameter → List Value → Breakdown → Prop
  | here {ps vs x b} : Uncuttable x b → Breaks (.index :: ps) (.number x :: vs) b
  | text {ps vs s b} : Breaks ps vs b → Breaks (.text :: ps) (.string s :: vs) b
  | index {ps vs x e b} : Exact.ofFloat? x = some e → Breaks ps vs b →
      Breaks (.index :: ps) (.number x :: vs) b

variable {ps : List Parameter} {v : Value} {vs ws : List Value} {x : Float} {b : Breakdown}

/-- Finite numbers are the ones that can be cut off. -/
theorem uncuttable_iff : Uncuttable x b ↔ Exact.ofFloat? x = none ∧
    b = if x.isNaN then .nanIndex else .infiniteIndex := by
  have hnan : x.isNaN = x.toModel.unpack.isNaN := rfl
  have hinf : x.isInf = x.toModel.unpack.isInf := rfl
  rw [Uncuttable, Exact.ofFloat?, hnan, hinf]
  cases x.toModel.unpack with
  | notANumber =>
    constructor
    · rintro (⟨-, rfl⟩ | ⟨h, -⟩)
      · exact ⟨rfl, rfl⟩
      · cases h
    · rintro ⟨-, rfl⟩
      exact .inl ⟨rfl, rfl⟩
  | infinity =>
    constructor
    · rintro (⟨h, -⟩ | ⟨-, rfl⟩)
      · cases h
      · exact ⟨rfl, rfl⟩
    · rintro ⟨-, rfl⟩
      exact .inr ⟨rfl, rfl⟩
  | zero | finite =>
    constructor
    · rintro (⟨h, -⟩ | ⟨h, -⟩) <;> cases h
    · rintro ⟨h, -⟩
      cases h

namespace Native

variable {n : Native} {i : Nat} {r : Float}

/-! ## Reading one argument after the other -/

section Reading

variable {f : String → Except NativeError Value} {g : Int → Except NativeError Value}

theorem stringArgument_breaks (h : vs[i]? = some v)
    (hf : ∀ s, f s = .error (.broken b) ↔ Breaks ps ws b) :
    n.stringArgument vs i >>= f = .error (.broken b) ↔ Breaks (.text :: ps) (v :: ws) b := by
  rw [stringArgument, h]
  cases v with
  | string s =>
    refine (hf s).trans ⟨.text, fun h => ?_⟩
    cases h with
    | text h => exact h
  | _ => exact ⟨nofun, nofun⟩

theorem indexArgument_breaks (h : vs[i]? = some v)
    (hg : ∀ k, g k = .error (.broken b) ↔ Breaks ps ws b) :
    n.indexArgument vs i >>= g = .error (.broken b) ↔ Breaks (.index :: ps) (v :: ws) b := by
  rw [indexArgument, h]
  cases v with
  | number x =>
    dsimp only
    cases he : Exact.ofFloat? x with
    | some e =>
      refine (hg e.truncate).trans ⟨.index he, fun h => ?_⟩
      cases h with
      | here hx =>
        rw [(uncuttable_iff.1 hx).1] at he
        cases he
      | index _ h => exact h
    | none =>
      constructor
      · intro h
        cases h
        exact .here (uncuttable_iff.2 ⟨he, rfl⟩)
      · intro h
        cases h with
        | here hx =>
          rw [(uncuttable_iff.1 hx).2]
          rfl
        | index he' =>
          rw [he] at he'
          cases he'
  | _ => exact ⟨nofun, nofun⟩

theorem settled {r : Except NativeError Value} (h : r ≠ .error (.broken b)) :
    r = .error (.broken b) ↔ Breaks [] [] b :=
  ⟨fun hr => absurd hr h, nofun⟩

end Reading

/-- A native with all its arguments breaks off at the first one that is of no use, if that is an
index that cannot be cut off. -/
theorem apply_broken_iff (hlen : vs.length = n.arity) :
    n.apply r vs = .error (.broken b) ↔ Breaks n.parameters vs b := by
  cases n with
  | clock =>
    obtain rfl := List.length_eq_zero_iff.1 hlen
    exact settled nofun
  | strlen =>
    obtain ⟨v, rfl⟩ := List.length_eq_one_iff.1 hlen
    exact stringArgument_breaks rfl fun s => settled nofun
  | substring =>
    obtain ⟨v, v', v'', rfl⟩ := List.length_eq_three.1 hlen
    refine stringArgument_breaks rfl fun s => indexArgument_breaks rfl fun start =>
      indexArgument_breaks rfl fun length => settled ?_
    split <;> nofun
  | indexof =>
    obtain ⟨v, v', rfl⟩ := List.length_eq_two.1 hlen
    refine stringArgument_breaks rfl fun s => stringArgument_breaks rfl fun target => settled ?_
    split <;> nofun
  | strat =>
    obtain ⟨v, v', rfl⟩ := List.length_eq_two.1 hlen
    refine stringArgument_breaks rfl fun s => indexArgument_breaks rfl fun index => settled ?_
    by_cases hi : index < 0
    · simp only [hi, ↓reduceIte]
      nofun
    · simp only [hi, ↓reduceIte]
      split <;> nofun

end Native

end LoxLang
