import LoxLang.Machine.Basic
/-!
# Brackets in a trace

In a trace a call is an opening bracket, and its result a closing one that names the same callee.
Events are nested if these brackets match. Where a run is cut off, calls are left open.
-/

namespace LoxLang

/-- What is called, and with what. -/
structure Call where
  callee : Value
  arguments : List Value
  deriving DecidableEq

namespace TraceEvent

/-- The event that opens a call. -/
abbrev opening (c : Call) : TraceEvent := .call c.callee c.arguments

/-- An event that says nothing about calls. -/
def aside : TraceEvent → Bool
  | call .. | result .. => false
  | _ => true

/-- The calls that are open after an event, the innermost first. A result has to match the most
recent open call, and to name its callee. -/
def follow (calls : List Call) : TraceEvent → Option (List Call)
  | call callee arguments => some (⟨callee, arguments⟩ :: calls)
  | result _ callee =>
    match calls with
    | [] => none
    | c :: outer => if c.callee = callee then some outer else none
  | _ => some calls

/-- The unmatched calls of some events, the outermost first, if every result matches a call. -/
def unmatched? (events : List TraceEvent) : Option (List Call) :=
  (events.foldlM follow []).map List.reverse

theorem follow_aside {e : TraceEvent} (h : e.aside) (calls : List Call) :
    e.follow calls = some calls := by
  cases e with
  | call | result => cases h
  | _ => rfl

theorem follow_result (c : Call) (v : Value) (calls : List Call) :
    follow (c :: calls) (.result v c.callee) = some calls := if_pos rfl

end TraceEvent

open TraceEvent

/-- Events in which every call has a result, which comes after the events of the call. -/
inductive Nested : List TraceEvent → Prop
  | nil : Nested []
  | aside {e events} : e.aside → Nested events → Nested (e :: events)
  | call (c : Call) (v : Value) {inner events} : Nested inner → Nested events →
      Nested (opening c :: (inner ++ .result v c.callee :: events))

namespace Nested

variable {events events' : List TraceEvent}

theorem append (h : Nested events) (h' : Nested events') : Nested (events ++ events') := by
  induction h with
  | nil => exact h'
  | aside he _ ih => exact .aside he ih
  | call c v hinner _ _ ih =>
    rw [List.cons_append, List.append_assoc, List.cons_append]
    exact .call c v hinner ih

/-- The events of a call that gave a result. -/
theorem bracket (c : Call) (v : Value) (h : Nested events) :
    Nested (opening c :: (events ++ [.result v c.callee])) := .call c v h .nil

theorem single {e : TraceEvent} (h : e.aside) : Nested [e] := .aside h .nil

/-- Nested events leave the open calls as they were. -/
theorem follow (h : Nested events) (calls : List Call) :
    events.foldlM TraceEvent.follow calls = some calls := by
  induction h generalizing calls with
  | nil => rfl
  | aside he _ ih =>
    rw [List.foldlM_cons, follow_aside he]
    exact ih calls
  | call c v _ _ ihinner ih =>
    rw [List.foldlM_cons]
    change List.foldlM TraceEvent.follow (c :: calls) _ = _
    rw [List.foldlM_append, ihinner]
    change List.foldlM TraceEvent.follow (c :: calls) _ = _
    rw [List.foldlM_cons, follow_result]
    exact ih calls

end Nested

/-- Events that are nested up to certain calls, the outermost first, which are left open. -/
inductive LeavesOpen : List Call → List TraceEvent → Prop
  | nested {events} : Nested events → LeavesOpen [] events
  | call (c : Call) {calls before events} : Nested before → LeavesOpen calls events →
      LeavesOpen (c :: calls) (before ++ opening c :: events)

namespace LeavesOpen

variable {calls : List Call} {events before : List TraceEvent}

theorem append (h : Nested before) (h' : LeavesOpen calls events) :
    LeavesOpen calls (before ++ events) := by
  cases h' with
  | nested hevents => exact .nested (h.append hevents)
  | call c hbefore hevents =>
    rw [← List.append_assoc]
    exact .call c (h.append hbefore) hevents

/-- The events of a call that was cut off. -/
theorem bracket (c : Call) (h : LeavesOpen calls events) :
    LeavesOpen (c :: calls) (opening c :: events) := .call c .nil h

theorem follow (h : LeavesOpen calls events) (outer : List Call) :
    events.foldlM TraceEvent.follow outer = some (calls.reverse ++ outer) := by
  induction h generalizing outer with
  | nested h => exact h.follow outer
  | call c hbefore _ ih =>
    rw [List.foldlM_append, hbefore.follow]
    change List.foldlM TraceEvent.follow (c :: outer) _ = _
    rw [ih, List.reverse_cons, List.append_assoc]
    rfl

/-- The calls that are left open are those that are not matched. -/
theorem unmatched (h : LeavesOpen calls events) : unmatched? events = some calls := by
  rw [unmatched?, h.follow, List.append_nil, Option.map_some, List.reverse_reverse]

/-- Such events are the first ones of nested events. -/
theorem completed (h : LeavesOpen calls events) : ∃ more, Nested (events ++ more) := by
  induction h with
  | nested h => exact ⟨[], by rwa [List.append_nil]⟩
  | @call c calls before events hbefore _ ih =>
    obtain ⟨more, hmore⟩ := ih
    refine ⟨more ++ [.result .nil c.callee], ?_⟩
    have hcall := hbefore.append (.bracket c .nil hmore)
    rwa [List.append_assoc] at hcall ⊢

end LeavesOpen

end LoxLang
