import Mathlib.Logic.Basic

/-! # Components that answer calls

A component takes calls one after the other, and a call that it does not allow has no
answer. What a specification answers, each of its implementations answers too, so any two
of them are interchangeable.
-/

namespace YfsRpc

structure Component (State : Type u) (Call : Type v) (Answer : Type w) where
  initial : State
  call : State → Call → Option (State × Answer)

namespace Component

variable {State : Type u} {Spec : Type u'} {Call : Type v} {Answer : Type w}

/-- The answers to a list of calls, in order. -/
def run (component : Component State Call Answer) : State → List Call → Option (State × List Answer)
  | state, [] => some (state, [])
  | state, call :: calls =>
      (component.call state call).bind fun (next, answer) =>
        (component.run next calls).map fun (final, answers) => (final, answer :: answers)

/-- Each call that the specification answers is answered the same. -/
structure Implements (component : Component State Call Answer)
    (spec : Component Spec Call Answer) (represents : State → Spec → Prop) : Prop where
  initial : represents component.initial spec.initial
  call {state : State} {before after : Spec} {call : Call} {answer : Answer} :
    represents state before → spec.call before call = some (after, answer) →
    ∃ next, component.call state call = some (next, answer) ∧ represents next after

variable {component : Component State Call Answer} {spec : Component Spec Call Answer}
  {represents : State → Spec → Prop}

theorem Implements.run (implements : component.Implements spec represents) {calls : List Call}
    {state : State} {before after : Spec} {answers : List Answer}
    (related : represents state before)
    (answered : spec.run before calls = some (after, answers)) :
    ∃ final, component.run state calls = some (final, answers) ∧ represents final after := by
  induction calls generalizing state before answers with
  | nil =>
      cases answered
      exact ⟨state, rfl, related⟩
  | cons call calls induction =>
      rcases Option.bind_eq_some_iff.mp answered with ⟨⟨middle, answer⟩, first, rest⟩
      rcases Option.map_eq_some_iff.mp rest with ⟨⟨last, later⟩, continued, same⟩
      cases same
      rcases implements.call related first with ⟨next, called, related⟩
      rcases induction related continued with ⟨final, ran, related⟩
      refine ⟨final, ?_, related⟩
      simp only [Component.run, called, Option.bind_some, ran, Option.map_some]

end Component

end YfsRpc
