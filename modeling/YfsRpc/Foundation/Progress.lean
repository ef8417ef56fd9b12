import YfsRpc.Foundation.Machine

/-! # Work that comes to an end

Some actions of a machine are its work and the others disturb it. When a potential pays for
each step of the work and every disturbance adds a bounded amount to it, the work ends after
as many steps. When besides no state that the work has left unfinished is without a next
step, it ends because it is done.

What some run can still reach is weaker: nothing makes the machine take that run, but no
state that it reaches has lost the way.
-/

namespace YfsRpc

namespace Machine

variable {State : Type u} {Action : Type v}

/-- From this state on, the work takes a bounded number of steps, and a run that cannot go on
with it is done. -/
structure Completes (machine : Machine State Action) (work : Action → Bool)
    (Done : State → Prop) (budget gain : Nat) (state : State) : Prop where
  bounded : ∀ actions final, machine.run state actions = some final →
    actions.countP work ≤ budget + gain * actions.countP fun action => !work action
  done : ∀ actions final, machine.run state actions = some final →
    (∀ action, work action = true → machine.step final action = none) → Done final

/-- The potential pays for the work. -/
structure Measured (machine : Machine State Action) (work : Action → Bool)
    (Inv : State → Prop) (potential : State → Nat) (gain : Nat) : Prop where
  kept : ∀ state action next, Inv state → machine.step state action = some next → Inv next
  lowers : ∀ state action next, Inv state → machine.step state action = some next →
    work action = true → potential next < potential state
  raises : ∀ state action next, Inv state → machine.step state action = some next →
    work action = false → potential next ≤ potential state + gain

variable {machine : Machine State Action} {work : Action → Bool} {Done Inv : State → Prop}
  {potential : State → Nat} {gain : Nat} {state final : State} {actions : List Action}

theorem Measured.run (measured : machine.Measured work Inv potential gain) (inv : Inv state)
    (taken : machine.run state actions = some final) :
    potential final + actions.countP work ≤
      potential state + gain * actions.countP fun action => !work action := by
  induction actions generalizing state with
  | nil =>
      cases taken
      exact Nat.le_refl _
  | cons action rest induction =>
      rcases Option.bind_eq_some_iff.mp taken with ⟨next, stepped, continued⟩
      have later := induction (measured.kept state action next inv stepped) continued
      cases worked : work action with
      | true =>
          have first := measured.lowers state action next inv stepped worked
          rw [List.countP_cons_of_pos worked, List.countP_cons_of_neg (by simp [worked])]
          omega
      | false =>
          have first := measured.raises state action next inv stepped worked
          have counted : gain * ((rest.countP fun action => !work action) + 1) =
              gain * (rest.countP fun action => !work action) + gain := Nat.mul_succ ..
          rw [List.countP_cons_of_neg (by simp [worked]),
            List.countP_cons_of_pos (by simp [worked]), counted]
          omega

theorem Measured.completes (measured : machine.Measured work Inv potential gain)
    (progress : ∀ state, Inv state →
      (∀ action, work action = true → machine.step state action = none) → Done state)
    (inv : Inv state) : machine.Completes work Done (potential state) gain state where
  bounded _ _ taken := Nat.le_of_add_left_le (measured.run inv taken)
  done _ final taken stuck :=
    progress final (machine.run_invariant Inv measured.kept inv taken) stuck

/-! ## What can still happen -/

/-- Some run of permitted actions leads from the one state to the other. -/
def Leads (machine : Machine State Action) (permitted : Action → Prop) (state final : State) :
    Prop :=
  ∃ actions, (∀ action ∈ actions, permitted action) ∧ machine.run state actions = some final

variable {permitted : Action → Prop} {next : State}

theorem Leads.refl : machine.Leads permitted state state :=
  ⟨[], List.forall_mem_nil _, rfl⟩

/-- Take a step first. -/
theorem Leads.head (action : Action) (allowed : permitted action)
    (taken : machine.step state action = some next)
    (leads : machine.Leads permitted next final) : machine.Leads permitted state final := by
  rcases leads with ⟨actions, others, ran⟩
  refine ⟨action :: actions, List.forall_mem_cons.mpr ⟨allowed, others⟩, ?_⟩
  rw [Machine.run, taken]
  exact ran

theorem Leads.trans (first : machine.Leads permitted state next)
    (second : machine.Leads permitted next final) : machine.Leads permitted state final := by
  rcases first with ⟨actions, allowed, ran⟩
  induction actions generalizing state with
  | nil =>
      cases ran
      exact second
  | cons action rest induction =>
      rcases List.forall_mem_cons.mp allowed with ⟨now, later⟩
      rcases Option.bind_eq_some_iff.mp ran with ⟨middle, taken, continued⟩
      exact Leads.head action now taken (induction later continued)

end Machine

end YfsRpc
