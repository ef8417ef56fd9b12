import YfsRpc.Rpc.PollMgr

/-! # Removed callbacks

Once `block_remove_fd` has returned, no callback of the descriptor runs until the next
`add_callback`. The broadcast that ends its wait says that a new iteration of the loop
has begun, which has not seen the descriptor. But the wait is not in a loop: a wakeup
without a broadcast ends it as well, in the middle of an iteration. That may also be
between the test of `callbacks_[fd]` and the call through it, which hold no lock.
-/

namespace YfsRpc.Rpc

structure Removal (τ κ : Type) where
  poll : PollMgr τ κ
  /-- history: `block_remove_fd` returned, and `add_callback` was not called since -/
  removed : Nat → Bool := fun _ => false
  /-- history: the thread was woken without a broadcast, or `add_callback` was called for
  its descriptor since it began to wait -/
  disturbed : τ → Bool := fun _ => false

namespace Removal

inductive Action (τ κ : Type)
  | addCallback (fd : Nat) (flag : PollFlag) (ch : κ)
  | delCallback (fd : Nat) (flag : PollFlag)
  | blockRemove (t : τ) (fd : Nat)
  | spurious (t : τ)
  | finishRemove (t : τ)
  | loop (step : PollMgr.LoopStep)

variable {τ κ : Type} [DecidableEq τ] [DecidableEq κ]

/-- An index outside `callbacks_` has no successor. -/
def step (s : Removal τ κ) : Action τ κ → Option (Removal τ κ)
  | .addCallback fd flag ch =>
      (s.poll.addCallback fd flag ch).map fun poll => { s with
        poll
        removed := Function.update s.removed fd false
        disturbed := fun t => s.disturbed t || s.poll.removers t == some fd }
  | .delCallback fd flag =>
      if fd < maxPollFds then some { s with poll := s.poll.delCallback fd flag } else none
  | .blockRemove t fd =>
      if fd < maxPollFds ∧ s.poll.removers t = none then
        some { s with
          poll := s.poll.blockRemove t fd
          disturbed := Function.update s.disturbed t false }
      else
        none
  | .spurious t =>
      (s.poll.spurious t).map fun poll =>
        { s with poll, disturbed := Function.update s.disturbed t true }
  | .finishRemove t =>
      match s.poll.removers t with
      | none => none
      | some fd =>
          (s.poll.finishRemove t fd).map fun poll =>
            { s with poll, removed := Function.update s.removed fd true }
  | .loop step => (s.poll.loopStep step).map fun poll => { s with poll }

/-- The loop at its start; nothing is registered. -/
def machine (τ κ : Type) [DecidableEq τ] [DecidableEq κ] (pipefd : Nat) :
    Machine (Removal τ κ) (Action τ κ) where
  initial := { poll := { aio := .init pipefd } }
  step := step

/-- No callback of a removed descriptor is running or about to start. -/
def Quiet (s : Removal τ κ) : Prop := ∀ fd, s.removed fd = true → ¬ s.poll.loop.Calling fd

/-- A disturbed `block_remove_fd` returns only while no callback of its descriptor is
running or about to start. -/
def Undisturbed (s : Removal τ κ) : Action τ κ → Prop
  | .finishRemove t =>
      ∀ fd, s.poll.removers t = some fd → s.disturbed t = true → ¬ s.poll.loop.Calling fd
  | _ => True

variable {s next : Removal τ κ}

/-! ## The invariant -/

structure Inv (s : Removal τ κ) : Prop where
  inside : ∀ t, s.poll.changedone.Inside t ↔ s.poll.removers t ≠ none
  /-- a change that waits to be announced -/
  pending : s.poll.changedone.waiting.Nonempty → s.poll.pendingChange = true
  unwatched : ∀ t fd, s.poll.removers t = some fd → s.disturbed t = false →
    ¬ s.poll.aio.Watched fd
  /-- the iteration in progress began after the removal -/
  announced : ∀ t fd, s.poll.removers t = some fd → s.disturbed t = false →
    t ∈ s.poll.changedone.woken → ¬ s.poll.loop.Holds fd
  unregistered : ∀ fd, s.removed fd = true → s.poll.callbacks fd = none
  quiet : s.Quiet

theorem inv_initial (pipefd : Nat) : Inv (machine τ κ pipefd).initial where
  inside t := by simp [machine]
  pending waits := by simp [machine, CondVar.init] at waits
  unwatched _ _ remover _ := nomatch remover
  announced _ _ remover _ _ := nomatch remover
  unregistered _ removed := nomatch removed
  quiet _ removed := nomatch removed

theorem Inv.addCallback (inv : Inv s) {fd : Nat} {flag : PollFlag} {ch : κ}
    (taken : s.step (.addCallback fd flag ch) = some next) : Inv next := by
  rcases Option.map_eq_some_iff.mp taken with ⟨poll, added, rfl⟩
  unfold PollMgr.addCallback at added
  split at added
  case isFalse => contradiction
  cases added
  constructor
  · exact inv.inside
  · exact inv.pending
  · intro t other remover calm watched
    simp only [Bool.or_eq_false_iff, beq_eq_false_iff_ne] at calm
    have differs : other ≠ fd := by
      rintro rfl
      exact calm.2 remover
    exact inv.unwatched t other remover calm.1 ((SelectAio.watched_watchFd differs).mp watched)
  · intro t other remover calm
    simp only [Bool.or_eq_false_iff] at calm
    exact inv.announced t other remover calm.1
  · intro other removed
    by_cases here : other = fd
    · subst here
      simp at removed
    · simp only [Function.update_of_ne here] at removed ⊢
      exact inv.unregistered other removed
  · intro other removed
    by_cases here : other = fd
    · subst here
      simp at removed
    · simp only [Function.update_of_ne here] at removed
      exact inv.quiet other removed

theorem Inv.delCallback (inv : Inv s) {fd : Nat} {flag : PollFlag}
    (taken : s.step (.delCallback fd flag) = some next) : Inv next := by
  simp only [step] at taken
  split at taken
  case isFalse => contradiction
  cases taken
  constructor
  · exact inv.inside
  · exact inv.pending
  · intro t other remover calm watched
    exact inv.unwatched t other remover calm (SelectAio.watched_of_unwatchFd watched)
  · exact inv.announced
  · intro other removed
    have unregistered := inv.unregistered other removed
    simp only [PollMgr.delCallback]
    split
    · by_cases here : other = fd <;> simp [here, unregistered]
    · exact unregistered
  · exact inv.quiet

theorem Inv.blockRemove (inv : Inv s) {t : τ} {fd : Nat}
    (taken : s.step (.blockRemove t fd) = some next) : Inv next := by
  simp only [step] at taken
  split at taken
  case isFalse => contradiction
  cases taken
  constructor
  · intro u
    by_cases self : u = t <;> simp [PollMgr.blockRemove, self, inv.inside]
  · exact fun _ => rfl
  · intro u other remover calm
    by_cases self : u = t
    · subst self
      simp only [PollMgr.blockRemove, Function.update_self, Option.some.injEq] at remover
      subst remover
      exact SelectAio.not_watched_unwatchFd
    · simp only [PollMgr.blockRemove, Function.update_of_ne self] at remover calm
      exact fun watched =>
        inv.unwatched u other remover calm (SelectAio.watched_of_unwatchFd watched)
  · intro u other remover calm woken
    rcases Finset.mem_erase.mp woken with ⟨differs, woken⟩
    simp only [PollMgr.blockRemove, Function.update_of_ne differs] at remover calm
    exact inv.announced u other remover calm woken
  · exact inv.unregistered
  · exact inv.quiet

theorem Inv.spurious (inv : Inv s) {t : τ} (taken : s.step (.spurious t) = some next) :
    Inv next := by
  rcases Option.map_eq_some_iff.mp taken with ⟨poll, polled, rfl⟩
  rcases Option.map_eq_some_iff.mp polled with ⟨changedone, woken, rfl⟩
  have inside := fun u => (CondVar.inside_spurious woken).trans (inv.inside u)
  rcases CondVar.spurious_some woken with ⟨waits, rfl⟩
  constructor
  · exact inside
  · exact fun _ => inv.pending ⟨t, waits⟩
  · intro u other remover calm
    by_cases self : u = t
    · subst self
      simp at calm
    · simp only [Function.update_of_ne self] at calm
      exact inv.unwatched u other remover calm
  · intro u other remover calm woken
    by_cases self : u = t
    · subst self
      simp at calm
    · simp only [Function.update_of_ne self] at calm
      rcases Finset.mem_insert.mp woken with same | before
      · contradiction
      · exact inv.announced u other remover calm before
  · exact inv.unregistered
  · exact inv.quiet

theorem Inv.finishRemove (inv : Inv s) {t : τ} (undisturbed : Undisturbed s (.finishRemove t))
    (taken : s.step (.finishRemove t) = some next) : Inv next := by
  simp only [step] at taken
  cases remover : s.poll.removers t with
  | none => simp [remover] at taken
  | some fd =>
      simp only [remover] at taken
      rcases Option.map_eq_some_iff.mp taken with ⟨poll, polled, rfl⟩
      rcases Option.map_eq_some_iff.mp polled with ⟨changedone, resumed, rfl⟩
      rcases CondVar.resume_some resumed with ⟨woken, waiting, rest⟩
      have stopped : ¬ s.poll.loop.Calling fd := by
        cases calm : s.disturbed t with
        | false => exact fun calling =>
            inv.announced t fd remover calm woken (Loop.holds_of_calling calling)
        | true => exact undisturbed fd remover calm
      constructor
      · intro u
        rw [CondVar.inside_resume resumed, inv.inside]
        by_cases self : u = t <;> simp [self]
      · intro waits
        exact inv.pending (waiting ▸ waits)
      · intro u other still calm
        by_cases self : u = t
        · subst self
          simp at still
        · simp only [Function.update_of_ne self] at still
          exact inv.unwatched u other still calm
      · intro u other still calm wokenAfter
        by_cases self : u = t
        · subst self
          simp at still
        · simp only [Function.update_of_ne self] at still
          rw [rest] at wokenAfter
          exact inv.announced u other still calm (Finset.mem_of_mem_erase wokenAfter)
      · intro other removed
        by_cases here : other = fd
        · simp [here]
        · simp only [Function.update_of_ne here] at removed ⊢
          exact inv.unregistered other removed
      · intro other removed
        by_cases here : other = fd
        · subst here
          exact stopped
        · simp only [Function.update_of_ne here] at removed
          exact inv.quiet other removed

omit [DecidableEq κ] in
theorem Inv.loop (inv : Inv s) {loopStep : PollMgr.LoopStep} {poll : PollMgr τ κ}
    (stepped : s.poll.loopStep loopStep = some poll) : Inv { s with poll } := by
  have same := PollMgr.loopStep_same stepped
  have conditions := PollMgr.loopStep_changedone stepped
  constructor
  · intro t
    rcases conditions with ⟨changedone, _⟩ | ⟨changedone, _⟩
    · simp only [changedone, same.removers, inv.inside]
    · simp only [changedone, same.removers, CondVar.inside_broadcast, inv.inside]
  · intro waits
    rcases conditions with ⟨changedone, pending⟩ | ⟨changedone, _⟩
    · simp only [changedone] at waits
      simp only [pending]
      exact inv.pending waits
    · simp [changedone, CondVar.broadcast] at waits
  · intro t fd remover calm
    simp only [same.removers] at remover
    simp only [same.aio]
    exact inv.unwatched t fd remover calm
  · intro t fd remover calm woken holds
    simp only [same.removers] at remover
    rcases conditions with ⟨changedone, _⟩ | ⟨_, polling⟩
    · simp only [changedone] at woken
      rcases PollMgr.holds_of_loopStep stepped holds with before | ⟨_, watched⟩
      · exact inv.announced t fd remover calm woken before
      · exact inv.unwatched t fd remover calm watched
    · simp [polling, Loop.Holds] at holds
  · intro fd removed
    simp only [same.callbacks]
    exact inv.unregistered fd removed
  · intro fd removed calling
    rcases PollMgr.calling_of_loopStep stepped calling with before | registered
    · exact inv.quiet fd removed before
    · -- a removed descriptor has no callback that the loop could find
      exact registered (inv.unregistered fd removed)

theorem Inv.step (inv : Inv s) {action : Action τ κ} (undisturbed : Undisturbed s action)
    (taken : s.step action = some next) : Inv next := by
  cases action with
  | addCallback fd flag ch => exact inv.addCallback taken
  | delCallback fd flag => exact inv.delCallback taken
  | blockRemove t fd => exact inv.blockRemove taken
  | spurious t => exact inv.spurious taken
  | finishRemove t => exact inv.finishRemove undisturbed taken
  | loop step =>
      rcases Option.map_eq_some_iff.mp taken with ⟨poll, stepped, rfl⟩
      exact inv.loop stepped

theorem reachable_inv {pipefd : Nat}
    (reachable : (machine τ κ pipefd).ReachableUnder Undisturbed s) : Inv s :=
  reachable.invariant Inv (inv_initial pipefd) fun _ _ _ _ inv undisturbed taken =>
    inv.step undisturbed taken

/-! ## The guarantee -/

/-- A disturbed return that finds a callback running, or about to start, leaves it so. -/
theorem not_quiet_of_disturbed {action : Action τ κ} (disturbed : ¬ Undisturbed s action)
    (taken : s.step action = some next) : ¬ next.Quiet := by
  cases action with
  | finishRemove t =>
      simp only [Undisturbed, not_forall, not_not] at disturbed
      rcases disturbed with ⟨fd, remover, _, calling⟩
      simp only [step, remover] at taken
      rcases Option.map_eq_some_iff.mp taken with ⟨poll, polled, rfl⟩
      rcases Option.map_eq_some_iff.mp polled with ⟨_, _, rfl⟩
      intro quiet
      have removed : Function.update s.removed fd true fd = true := Function.update_self ..
      exact quiet fd removed calling
  | addCallback | delCallback | blockRemove | spurious | loop =>
      exact absurd trivial disturbed

/-- No callback of a removed descriptor runs or is about to start as long as every disturbed
`block_remove_fd` finds none so when it returns, and no longer. -/
theorem quiet_of_undisturbed {pipefd : Nat}
    (reachable : (machine τ κ pipefd).ReachableUnder Undisturbed s) :
    s.Quiet ∧ ∀ action next, s.step action = some next →
      (next.Quiet ↔ Undisturbed s action) := by
  have inv := reachable_inv reachable
  refine ⟨inv.quiet, fun action next taken => ⟨?_, ?_⟩⟩
  · intro quiet
    by_contra disturbed
    exact not_quiet_of_disturbed disturbed taken quiet
  · intro undisturbed
    exact (inv.step undisturbed taken).quiet

instance (s : Removal τ κ) (fd : Nat) : Decidable (s.poll.loop.Calling fd) :=
  match s.poll.loop with
  | .toRead other _ _ _ | .reading other _ _ _ | .toWrite other _ _ | .writing other _ _ =>
      Nat.decEq other fd
  | .top | .polling | .selecting .. | .scanning .. => instDecidableFalse

instance (s : Removal τ κ) : ∀ action, Decidable (Undisturbed s action)
  | .finishRemove t =>
      match remover : s.poll.removers t with
      | none => .isTrue fun fd some => by rw [remover] at some; contradiction
      | some fd =>
          decidable_of_iff (s.disturbed t = true → ¬ s.poll.loop.Calling fd) (by
            simp only [Undisturbed, remover, Option.some.injEq, forall_eq'])
  | .addCallback .. | .delCallback .. | .blockRemove .. | .spurious _ | .loop _ =>
      instDecidableTrue

/-- The descriptor 5 is readable, and its callback is entered. -/
def readReady : List (Action Nat Nat) :=
  [.addCallback 5 .rdonly 1, .loop .announce, .loop .copy, .loop (.select {5} ∅), .loop .next,
    .loop (.call true)]

/-- A thread removes it meanwhile and returns in the next iteration. -/
def removeReading : List (Action Nat Nat) :=
  readReady ++ [.blockRemove 0 5, .loop .return, .loop .next, .loop .announce, .finishRemove 0]

theorem quiet_removeReading :
    ∃ s, (machine Nat Nat 3).ReachableUnder Undisturbed s ∧ s.removed 5 = true ∧ s.Quiet := by
  have run : (((machine Nat Nat 3).restrict Undisturbed).run (machine Nat Nat 3).initial
      removeReading).map (fun s => s.removed 5) = some true := by decide +kernel
  rcases Option.map_eq_some_iff.mp run with ⟨s, taken, removed⟩
  have reachable := Machine.reachableUnder_of_run taken
  exact ⟨s, reachable, removed, (quiet_of_undisturbed reachable).1⟩

/-- The thread is woken without a broadcast and returns while the callback still runs. -/
def removeSpurious : List (Action Nat Nat) :=
  readReady ++ [.blockRemove 0 5, .spurious 0, .finishRemove 0]

theorem removeSpurious_not_quiet :
    ¬ ∀ s, (machine Nat Nat 3).Reachable s → s.Quiet := by
  intro always
  have run : ((machine Nat Nat 3).run (machine Nat Nat 3).initial removeSpurious).map
      (fun s => (s.removed 5, decide (s.poll.loop.Calling 5))) = some (true, true) := by
    decide +kernel
  rcases Option.map_eq_some_iff.mp run with ⟨s, taken, result⟩
  simp only [Prod.mk.injEq, decide_eq_true_eq] at result
  exact always s (Machine.reachable_of_run taken) 5 result.1 result.2

end Removal

end YfsRpc.Rpc
