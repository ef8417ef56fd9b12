import Mathlib.Algebra.GroupWithZero.Nat
import Mathlib.Logic.Function.Basic

/-! # Executable transition systems

A machine has an initial state and a partial step function. Everything a run
may choose (which thread moves, what the network delivers, when a clock
expires) is part of the action, and an action the state does not enable has no
successor. The systems of this development are machines, and their properties are
invariants of reachable states.
-/

namespace YfsRpc

structure Machine (State : Type u) (Action : Type v) where
  initial : State
  step : State → Action → Option State

namespace Machine

variable {State : Type u} {Action : Type v}

/-- States reached by runs that only take steps satisfying `allowed`. -/
inductive ReachableUnder (machine : Machine State Action)
    (allowed : State → Action → Prop) : State → Prop
  | initial : ReachableUnder machine allowed machine.initial
  | step {state next : State} {action : Action} :
      ReachableUnder machine allowed state →
      allowed state action →
      machine.step state action = some next →
      ReachableUnder machine allowed next

def Reachable (machine : Machine State Action) : State → Prop :=
  machine.ReachableUnder fun _ _ => True

variable {machine : Machine State Action} {allowed : State → Action → Prop}

theorem Reachable.initial : machine.Reachable machine.initial :=
  ReachableUnder.initial

theorem Reachable.step {state next : State} {action : Action}
    (reachable : machine.Reachable state)
    (taken : machine.step state action = some next) : machine.Reachable next :=
  ReachableUnder.step reachable trivial taken

theorem ReachableUnder.reachable {state : State}
    (reachable : machine.ReachableUnder allowed state) :
    machine.Reachable state := by
  induction reachable with
  | initial => exact Reachable.initial
  | step _ _ taken induction => exact induction.step taken

theorem ReachableUnder.mono {more : State → Action → Prop} {state : State}
    (reachable : machine.ReachableUnder allowed state)
    (weaker : ∀ state action, allowed state action → more state action) :
    machine.ReachableUnder more state := by
  induction reachable with
  | initial => exact ReachableUnder.initial
  | step _ permitted taken induction => exact induction.step (weaker _ _ permitted) taken

/-- A property of the initial state that every allowed step preserves holds of
every state reached by allowed steps. The step may use that its source state is
reached, so invariants proved earlier can be assumed. -/
theorem ReachableUnder.invariant (Inv : State → Prop) (initial : Inv machine.initial)
    (preserved : ∀ state action next, machine.ReachableUnder allowed state →
      Inv state → allowed state action →
      machine.step state action = some next → Inv next)
    {state : State} (reachable : machine.ReachableUnder allowed state) :
    Inv state := by
  induction reachable with
  | initial => exact initial
  | step before permitted taken induction =>
      exact preserved _ _ _ before induction permitted taken

theorem Reachable.invariant (Inv : State → Prop) (initial : Inv machine.initial)
    (preserved : ∀ state action next, machine.Reachable state → Inv state →
      machine.step state action = some next → Inv next)
    {state : State} (reachable : machine.Reachable state) : Inv state :=
  ReachableUnder.invariant Inv initial
    (fun state action next before inv _ taken =>
      preserved state action next before inv taken) reachable

/-- Take a list of actions one after the other. -/
def run (machine : Machine State Action) : State → List Action → Option State
  | state, [] => some state
  | state, action :: rest => (machine.step state action).bind (machine.run · rest)

theorem ReachableUnder.run {state final : State} {actions : List Action}
    (reachable : machine.ReachableUnder allowed state)
    (permitted : ∀ action ∈ actions, ∀ state, allowed state action)
    (taken : machine.run state actions = some final) :
    machine.ReachableUnder allowed final := by
  induction actions generalizing state with
  | nil =>
      cases taken
      exact reachable
  | cons action rest induction =>
      rcases Option.bind_eq_some_iff.mp taken with ⟨next, stepped, continued⟩
      rcases List.forall_mem_cons.mp permitted with ⟨first, later⟩
      exact induction (reachable.step (first state) stepped) later continued

theorem Reachable.run {state final : State} {actions : List Action}
    (reachable : machine.Reachable state)
    (taken : machine.run state actions = some final) :
    machine.Reachable final :=
  ReachableUnder.run reachable (fun _ _ _ => trivial) taken

/-- A property that every step preserves holds of what a list of actions leads to. -/
theorem run_invariant (Inv : State → Prop)
    (preserved : ∀ state action next, Inv state → machine.step state action = some next →
      Inv next)
    {state final : State} {actions : List Action} (inv : Inv state)
    (taken : machine.run state actions = some final) : Inv final := by
  induction actions generalizing state with
  | nil =>
      cases taken
      exact inv
  | cons action rest induction =>
      rcases Option.bind_eq_some_iff.mp taken with ⟨next, stepped, continued⟩
      exact induction (preserved state action next inv stepped) continued

/-- Every state a list of actions leads to from the initial state is reachable. -/
theorem reachable_of_run {final : State} {actions : List Action}
    (taken : machine.run machine.initial actions = some final) :
    machine.Reachable final :=
  Reachable.initial.run taken

/-- The machine that takes allowed steps only. -/
def restrict (machine : Machine State Action) (allowed : State → Action → Prop)
    [∀ state action, Decidable (allowed state action)] : Machine State Action where
  initial := machine.initial
  step state action := if allowed state action then machine.step state action else none

theorem restrict_step [∀ state action, Decidable (allowed state action)] {state next : State}
    {action : Action} (taken : (machine.restrict allowed).step state action = some next) :
    allowed state action ∧ machine.step state action = some next := by
  change (if allowed state action then machine.step state action else none) = _ at taken
  split at taken
  · next permitted => exact ⟨permitted, taken⟩
  · contradiction

theorem reachableUnder_of_run [∀ state action, Decidable (allowed state action)]
    {final : State} {actions : List Action}
    (taken : (machine.restrict allowed).run machine.initial actions = some final) :
    machine.ReachableUnder allowed final := by
  apply (reachable_of_run taken).invariant (machine.ReachableUnder allowed)
  · exact ReachableUnder.initial
  · intro state action next _ reachable stepped
    rcases restrict_step stepped with ⟨permitted, stepped⟩
    exact reachable.step permitted stepped

/-! ## Amortised cost -/

/-- When each step is paid for by the potential or by what is lent, so is a run. -/
theorem run_cost (Inv : State → Prop) {potential lent : State → Nat} {cost : Action → Nat}
    (paid : ∀ state action next, Inv state → machine.step state action = some next →
      Inv next ∧ potential next + cost action + lent state ≤ potential state + lent next)
    {state final : State} {actions : List Action} (inv : Inv state)
    (taken : machine.run state actions = some final) :
    potential final + (actions.map cost).sum + lent state ≤ potential state + lent final := by
  induction actions generalizing state with
  | nil =>
      cases taken
      exact Nat.le_refl _
  | cons action rest induction =>
      rcases Option.bind_eq_some_iff.mp taken with ⟨next, stepped, continued⟩
      rcases paid state action next inv stepped with ⟨kept, first⟩
      have later := induction kept continued
      rw [List.map_cons, List.sum_cons]
      omega

/-! ## Refinement -/

/-- Each reachable step of the machine is matched, under the view, by a
(possibly empty) run of the abstract machine. -/
structure Refines {AbstractState : Type u'} {AbstractAction : Type v'}
    (machine : Machine State Action)
    (abstract : Machine AbstractState AbstractAction)
    (view : State → AbstractState) : Prop where
  initial : view machine.initial = abstract.initial
  step : ∀ state action next, machine.Reachable state →
    machine.step state action = some next →
    ∃ actions, abstract.run (view state) actions = some (view next)

theorem Refines.reachable {AbstractState : Type u'} {AbstractAction : Type v'}
    {abstract : Machine AbstractState AbstractAction}
    {view : State → AbstractState} (refines : machine.Refines abstract view)
    {state : State} (reachable : machine.Reachable state) :
    abstract.Reachable (view state) := by
  refine reachable.invariant (fun current => abstract.Reachable (view current)) ?_ ?_
  · rw [refines.initial]
    exact Reachable.initial
  · intro current action next before viewed taken
    rcases refines.step current action next before taken with ⟨actions, matched⟩
    exact viewed.run matched

/-- A run of allowed steps is, under the view, one of permitted steps of the abstract machine,
when that takes each of them from a state with the invariant. -/
theorem ReachableUnder.under_view {AbstractState : Type u'} {AbstractAction : Type v'}
    {abstract : Machine AbstractState AbstractAction}
    {permitted : AbstractState → AbstractAction → Prop} (Inv : State → Prop)
    (view : State → AbstractState) (act : Action → AbstractAction)
    (inv : Inv machine.initial) (initial : view machine.initial = abstract.initial)
    (matched : ∀ state action next, Inv state → allowed state action →
      machine.step state action = some next →
      Inv next ∧ permitted (view state) (act action) ∧
        abstract.step (view state) (act action) = some (view next))
    {state : State} (reachable : machine.ReachableUnder allowed state) :
    Inv state ∧ abstract.ReachableUnder permitted (view state) := by
  refine reachable.invariant (fun state => Inv state ∧
    abstract.ReachableUnder permitted (view state)) ?_ ?_
  · refine ⟨inv, ?_⟩
    rw [initial]
    exact ReachableUnder.initial
  · rintro current action next _ ⟨inv, viewed⟩ here taken
    rcases matched current action next inv here taken with ⟨kept, permits, stepped⟩
    exact ⟨kept, viewed.step permits stepped⟩

/-! ## Histories -/

/-- The machine that remembers what is seen of its steps. -/
def recording {Event : Type w} (machine : Machine State Action)
    (observe : State → Action → List Event) : Machine (State × List Event) Action where
  initial := (machine.initial, [])
  step recorded action :=
    (machine.step recorded.1 action).map fun next =>
      (next, recorded.2 ++ observe recorded.1 action)

theorem ReachableUnder.recorded {Event : Type w} {observe : State → Action → List Event}
    {recorded : State × List Event}
    (reachable : (machine.recording observe).ReachableUnder (fun r => allowed r.1) recorded) :
    machine.ReachableUnder allowed recorded.1 := by
  induction reachable with
  | initial => exact ReachableUnder.initial
  | step _ permitted taken induction =>
      rcases Option.map_eq_some_iff.mp taken with ⟨next, stepped, rfl⟩
      exact induction.step permitted stepped

/-- What is seen of a run is seen of the run under the view. -/
theorem ReachableUnder.recorded_view {AbstractState : Type u'} {AbstractAction : Type v'}
    {Event : Type w} {abstract : Machine AbstractState AbstractAction}
    {permitted : AbstractState → AbstractAction → Prop} (Inv : State → Prop)
    (view : State → AbstractState) (act : Action → AbstractAction)
    {observe : AbstractState → AbstractAction → List Event}
    (inv : Inv machine.initial) (initial : view machine.initial = abstract.initial)
    (matched : ∀ state action next, Inv state → allowed state action →
      machine.step state action = some next →
      Inv next ∧ permitted (view state) (act action) ∧
        abstract.step (view state) (act action) = some (view next))
    {recorded : State × List Event}
    (reachable : (machine.recording fun state action => observe (view state) (act action))
      |>.ReachableUnder (fun r => allowed r.1) recorded) :
    (abstract.recording observe).ReachableUnder (fun r => permitted r.1)
      (view recorded.1, recorded.2) := by
  have both : Inv recorded.1 ∧ (abstract.recording observe).ReachableUnder
      (fun r => permitted r.1) (view recorded.1, recorded.2) := by
    refine reachable.under_view (fun r => Inv r.1) (fun r => (view r.1, r.2)) act inv ?_ ?_
    · exact congrArg (·, []) initial
    · rintro ⟨state, history⟩ action next inv here taken
      rcases Option.map_eq_some_iff.mp taken with ⟨after, stepped, rfl⟩
      rcases matched state action after inv here stepped with ⟨kept, permits, viewed⟩
      exact ⟨kept, permits, Option.map_eq_some_iff.mpr ⟨_, viewed, rfl⟩⟩
  exact both.2

/-- Every run has a history. -/
theorem ReachableUnder.exists_recorded {Event : Type w}
    (observe : State → Action → List Event) {state : State}
    (reachable : machine.ReachableUnder allowed state) :
    ∃ history, (machine.recording observe).ReachableUnder (fun r => allowed r.1)
      (state, history) := by
  induction reachable with
  | initial => exact ⟨[], ReachableUnder.initial⟩
  | step _ permitted taken induction =>
      rcases induction with ⟨history, recorded⟩
      exact ⟨_, recorded.step permitted (Option.map_eq_some_iff.mpr ⟨_, taken, rfl⟩)⟩

end Machine

end YfsRpc
