import YfsRpc.Foundation.CondVar
import YfsRpc.Foundation.Machine

/-! # The poll manager

One thread runs `wait_loop`: it waits in `select` and runs the callbacks of the ready
descriptors. Any number of other threads register and remove callbacks under `m_`. The
loop holds `m_` only where it looks at `pending_change_`; it copies the watched sets
under the mutex of `SelectAIO`, and tests and runs callbacks without a lock. `select` may
return at any moment, so the bytes in the pipe that makes it return have no state.
-/

namespace YfsRpc.Rpc

inductive PollFlag
  | rdonly
  | wronly
  | rdwr
  deriving DecidableEq

namespace PollFlag

def reads : PollFlag → Bool
  | rdonly | rdwr => true
  | wronly => false

def writes : PollFlag → Bool
  | wronly | rdwr => true
  | rdonly => false

end PollFlag

/-! ## Watched descriptors -/

structure SelectAio where
  rfds : Finset Nat
  wfds : Finset Nat
  highfds : Nat
  /-- `pipefd_[0]` -/
  pipefd : Nat

namespace SelectAio

/-- The constructor. -/
def init (pipefd : Nat) : SelectAio where
  rfds := {pipefd}
  wfds := ∅
  highfds := pipefd
  pipefd := pipefd

def watchFd (aio : SelectAio) (fd : Nat) (flag : PollFlag) : SelectAio :=
  { aio with
    highfds := if aio.highfds ≤ fd then fd else aio.highfds
    rfds := if flag.reads then insert fd aio.rfds else aio.rfds
    wfds := if flag.writes then insert fd aio.wfds else aio.wfds }

/-- `FD_CLR` in the sets that the flag names. -/
def clear (aio : SelectAio) (fd : Nat) (flag : PollFlag) : SelectAio :=
  { aio with
    rfds := if flag.reads then aio.rfds.erase fd else aio.rfds
    wfds := if flag.writes then aio.wfds.erase fd else aio.wfds }

/-- The largest watched descriptor, or the pipe. -/
def newHigh (aio : SelectAio) : Nat :=
  (List.range (aio.highfds + 1)).foldl
    (fun newh i => if i ∈ aio.rfds ∨ i ∈ aio.wfds then i else newh) aio.pipefd

/-- The answer tells that the descriptor is watched no more. -/
def unwatchFd (aio : SelectAio) (fd : Nat) (flag : PollFlag) : SelectAio × Bool :=
  let aio := aio.clear fd flag
  let gone : Bool := fd ∉ aio.rfds ∧ fd ∉ aio.wfds
  (if gone ∧ fd = aio.highfds then { aio with highfds := aio.newHigh } else aio, gone)

/-- The readable descriptors that `wait_ready` finds in what `select` left of the sets.
The pipe is read there and reported to nobody. -/
def readable (aio : SelectAio) (high : Nat) (trfds : Finset Nat) : List Nat :=
  (List.range (high + 1)).filter fun fd => fd ∈ trfds ∧ fd ≠ aio.pipefd

def writable (aio : SelectAio) (high : Nat) (trfds twfds : Finset Nat) : List Nat :=
  (List.range (high + 1)).filter fun fd => fd ∈ twfds ∧ ¬ (fd = aio.pipefd ∧ fd ∈ trfds)

def Watched (aio : SelectAio) (fd : Nat) : Prop := fd ∈ aio.rfds ∨ fd ∈ aio.wfds

variable {aio : SelectAio} {fd other : Nat} {flag : PollFlag}

@[simp] theorem rfds_unwatchFd : (aio.unwatchFd fd flag).1.rfds = (aio.clear fd flag).rfds := by
  unfold unwatchFd
  dsimp only
  split <;> rfl

@[simp] theorem wfds_unwatchFd : (aio.unwatchFd fd flag).1.wfds = (aio.clear fd flag).wfds := by
  unfold unwatchFd
  dsimp only
  split <;> rfl

theorem watched_unwatchFd :
    (aio.unwatchFd fd flag).1.Watched other ↔ (aio.clear fd flag).Watched other := by
  unfold Watched
  rw [rfds_unwatchFd, wfds_unwatchFd]

theorem unwatchFd_gone : (aio.unwatchFd fd flag).2 = true ↔
    ¬ (aio.unwatchFd fd flag).1.Watched fd := by
  rw [watched_unwatchFd]
  simp [unwatchFd, Watched]

/-- Watching a descriptor leaves the other ones as they are. -/
theorem watched_watchFd (differs : other ≠ fd) :
    (aio.watchFd fd flag).Watched other ↔ aio.Watched other := by
  cases flag <;> simp [Watched, watchFd, PollFlag.reads, PollFlag.writes, differs]

theorem watched_of_unwatchFd (watched : (aio.unwatchFd fd flag).1.Watched other) :
    aio.Watched other := by
  rw [watched_unwatchFd] at watched
  have read : (aio.clear fd flag).rfds ⊆ aio.rfds := by
    unfold clear
    dsimp only
    split
    · exact Finset.erase_subset fd aio.rfds
    · exact Finset.Subset.refl aio.rfds
  have write : (aio.clear fd flag).wfds ⊆ aio.wfds := by
    unfold clear
    dsimp only
    split
    · exact Finset.erase_subset fd aio.wfds
    · exact Finset.Subset.refl aio.wfds
  exact watched.imp (@read other) (@write other)

theorem not_watched_unwatchFd : ¬ (aio.unwatchFd fd .rdwr).1.Watched fd := by
  rw [watched_unwatchFd]
  simp [Watched, clear, PollFlag.reads, PollFlag.writes]

end SelectAio

/-! ## Callbacks -/

/-- Where `wait_loop` is. -/
inductive Loop (κ : Type)
  | top
  /-- before `wait_ready` copies the sets -/
  | polling
  /-- in `select` -/
  | selecting (trfds twfds : Finset Nat) (high : Nat)
  /-- with what is left of the two ready lists -/
  | scanning (readable writable : List Nat)
  /-- before the call of `read_cb`, with the callback that was found -/
  | toRead (fd : Nat) (found : κ) (readable writable : List Nat)
  /-- in `read_cb` -/
  | reading (fd : Nat) (callback : κ) (readable writable : List Nat)
  /-- before the call of `write_cb`, with the callback that was found -/
  | toWrite (fd : Nat) (found : κ) (writable : List Nat)
  /-- in `write_cb` -/
  | writing (fd : Nat) (callback : κ) (writable : List Nat)

namespace Loop

variable {κ : Type}

/-- A callback of the descriptor is running or about to start. -/
def Calling (fd : Nat) : Loop κ → Prop
  | toRead other _ _ _ | reading other _ _ _ | toWrite other _ _ | writing other _ _ => other = fd
  | top | polling | selecting .. | scanning .. => False

/-- The iteration in progress found the descriptor watched and may run a callback for it. -/
def Holds (fd : Nat) : Loop κ → Prop
  | top | polling => False
  | selecting trfds twfds _ => fd ∈ trfds ∨ fd ∈ twfds
  | scanning readable writable => fd ∈ readable ∨ fd ∈ writable
  | toRead other _ readable writable | reading other _ readable writable =>
      other = fd ∨ fd ∈ readable ∨ fd ∈ writable
  | toWrite other _ writable | writing other _ writable => other = fd ∨ fd ∈ writable

theorem holds_of_calling {fd : Nat} {loop : Loop κ} (calling : loop.Calling fd) :
    loop.Holds fd := by
  cases loop with
  | toRead | reading | toWrite | writing => exact Or.inl calling
  | top | polling | selecting | scanning => contradiction

end Loop

def maxPollFds : Nat := 128

/-- `τ` are the threads that call `block_remove_fd`, `κ` the callback objects. -/
structure PollMgr (τ κ : Type) where
  aio : SelectAio
  callbacks : Nat → Option κ := fun _ => none
  pendingChange : Bool := false
  changedone : CondVar τ := .init
  /-- the descriptor of each thread that waits in `block_remove_fd` -/
  removers : τ → Option Nat := fun _ => none
  loop : Loop κ := .top

namespace PollMgr

variable {τ κ : Type} [DecidableEq τ]

def addCallback [DecidableEq κ] (p : PollMgr τ κ) (fd : Nat) (flag : PollFlag) (ch : κ) :
    Option (PollMgr τ κ) :=
  if fd < maxPollFds ∧ (p.callbacks fd = none ∨ p.callbacks fd = some ch) then
    some { p with
      aio := p.aio.watchFd fd flag
      callbacks := Function.update p.callbacks fd (some ch) }
  else
    none

def delCallback (p : PollMgr τ κ) (fd : Nat) (flag : PollFlag) : PollMgr τ κ :=
  let (aio, gone) := p.aio.unwatchFd fd flag
  { p with aio, callbacks := if gone then Function.update p.callbacks fd none else p.callbacks }

/-- `block_remove_fd` up to where it waits. -/
def blockRemove (p : PollMgr τ κ) (t : τ) (fd : Nat) : PollMgr τ κ :=
  { p with
    aio := (p.aio.unwatchFd fd .rdwr).1
    pendingChange := true
    changedone := p.changedone.wait t
    removers := Function.update p.removers t (some fd) }

/-- `block_remove_fd` from its wakeup to its end. -/
def finishRemove (p : PollMgr τ κ) (t : τ) (fd : Nat) : Option (PollMgr τ κ) :=
  (p.changedone.resume t).map fun changedone =>
    { p with
      changedone
      callbacks := Function.update p.callbacks fd none
      removers := Function.update p.removers t none }

/-- A wakeup of `block_remove_fd` without a broadcast. -/
def spurious (p : PollMgr τ κ) (t : τ) : Option (PollMgr τ κ) :=
  (p.changedone.spurious t).map fun changedone => { p with changedone }

/-- The loop tells the waiting threads that an iteration has begun. -/
def announce (p : PollMgr τ κ) : PollMgr τ κ :=
  if p.pendingChange then
    { p with pendingChange := false, changedone := p.changedone.broadcast, loop := .polling }
  else
    { p with loop := .polling }

/-- The loop goes to the next descriptor of the ready lists and tests its callback, which it
skips when there is none any more. -/
def nextReady (p : PollMgr τ κ) : List Nat → List Nat → PollMgr τ κ
  | fd :: readable, writable =>
      match p.callbacks fd with
      | some ch => { p with loop := .toRead fd ch readable writable }
      | none => { p with loop := .scanning readable writable }
  | [], fd :: writable =>
      match p.callbacks fd with
      | some ch => { p with loop := .toWrite fd ch writable }
      | none => { p with loop := .scanning [] writable }
  | [], [] => { p with loop := .top }

/-- What the thread of the loop does next. -/
inductive LoopStep
  | announce
  /-- `wait_ready` copies the sets -/
  | copy
  /-- `select` returns with the ready descriptors, none at all when it was interrupted -/
  | select (trfds twfds : Finset Nat)
  | next
  /-- the loop calls what it has found, or, when it reads `callbacks_` again, what is there
  by then -/
  | call (again : Bool)
  /-- a callback returns -/
  | return

/-- A call through a null pointer has no successor. -/
def loopStep (p : PollMgr τ κ) (step : LoopStep) : Option (PollMgr τ κ) :=
  match step, p.loop with
  | .announce, .top => some p.announce
  | .copy, .polling => some { p with loop := .selecting p.aio.rfds p.aio.wfds p.aio.highfds }
  | .select trfds twfds, .selecting rfds wfds high =>
      if trfds ⊆ rfds ∧ twfds ⊆ wfds then
        some { p with
          loop := .scanning (p.aio.readable high trfds) (p.aio.writable high trfds twfds) }
      else
        none
  | .next, .scanning readable writable => some (p.nextReady readable writable)
  | .call again, .toRead fd found readable writable =>
      (if again then p.callbacks fd else some found).map fun ch =>
        { p with loop := .reading fd ch readable writable }
  | .call again, .toWrite fd found writable =>
      (if again then p.callbacks fd else some found).map fun ch =>
        { p with loop := .writing fd ch writable }
  | .return, .reading _ _ readable writable => some { p with loop := .scanning readable writable }
  | .return, .writing _ _ writable => some { p with loop := .scanning [] writable }
  | _, _ => none

/-! ## One step of the loop -/

variable {p q : PollMgr τ κ}

/-- What the loop leaves alone. -/
structure SameRegistry (p q : PollMgr τ κ) : Prop where
  aio : q.aio = p.aio
  callbacks : q.callbacks = p.callbacks
  removers : q.removers = p.removers

theorem loopStep_same {step : LoopStep} (taken : p.loopStep step = some q) :
    SameRegistry p q := by
  unfold loopStep at taken
  split at taken
  · cases taken
    unfold announce
    split <;> exact ⟨rfl, rfl, rfl⟩
  · cases taken
    exact ⟨rfl, rfl, rfl⟩
  · split at taken
    · cases taken
      exact ⟨rfl, rfl, rfl⟩
    · contradiction
  · cases taken
    unfold nextReady
    split
    · split <;> exact ⟨rfl, rfl, rfl⟩
    · split <;> exact ⟨rfl, rfl, rfl⟩
    · exact ⟨rfl, rfl, rfl⟩
  · rcases Option.map_eq_some_iff.mp taken with ⟨_, _, rfl⟩
    exact ⟨rfl, rfl, rfl⟩
  · rcases Option.map_eq_some_iff.mp taken with ⟨_, _, rfl⟩
    exact ⟨rfl, rfl, rfl⟩
  · cases taken
    exact ⟨rfl, rfl, rfl⟩
  · cases taken
    exact ⟨rfl, rfl, rfl⟩
  · contradiction

/-- Only the announcement wakes anybody, and it wakes all before anything is copied. -/
theorem loopStep_changedone {step : LoopStep} (taken : p.loopStep step = some q) :
    q.changedone = p.changedone ∧ q.pendingChange = p.pendingChange ∨
      q.changedone = p.changedone.broadcast ∧ q.loop = .polling := by
  unfold loopStep at taken
  split at taken
  · cases taken
    unfold announce
    split
    · exact Or.inr ⟨rfl, rfl⟩
    · exact Or.inl ⟨rfl, rfl⟩
  · cases taken
    exact Or.inl ⟨rfl, rfl⟩
  · split at taken
    · cases taken
      exact Or.inl ⟨rfl, rfl⟩
    · contradiction
  · cases taken
    unfold nextReady
    split
    · split <;> exact Or.inl ⟨rfl, rfl⟩
    · split <;> exact Or.inl ⟨rfl, rfl⟩
    · exact Or.inl ⟨rfl, rfl⟩
  · rcases Option.map_eq_some_iff.mp taken with ⟨_, _, rfl⟩
    exact Or.inl ⟨rfl, rfl⟩
  · rcases Option.map_eq_some_iff.mp taken with ⟨_, _, rfl⟩
    exact Or.inl ⟨rfl, rfl⟩
  · cases taken
    exact Or.inl ⟨rfl, rfl⟩
  · cases taken
    exact Or.inl ⟨rfl, rfl⟩
  · contradiction

omit [DecidableEq τ] in
/-- A ready list holds the descriptors that are left after the one it begins with. -/
theorem holds_of_nextReady {readable writable : List Nat} {fd : Nat}
    (holds : (p.nextReady readable writable).loop.Holds fd) : fd ∈ readable ∨ fd ∈ writable := by
  unfold nextReady at holds
  split at holds
  · split at holds <;> simp only [Loop.Holds] at holds <;> grind
  · split at holds <;> simp only [Loop.Holds] at holds <;> grind
  · contradiction

/-- Only a copy of the watched sets makes the loop hold a descriptor. -/
theorem holds_of_loopStep {step : LoopStep} (taken : p.loopStep step = some q) {fd : Nat}
    (holds : q.loop.Holds fd) : p.loop.Holds fd ∨ p.loop = .polling ∧ p.aio.Watched fd := by
  unfold loopStep at taken
  split at taken
  · cases taken
    unfold announce at holds
    split at holds <;> contradiction
  · next polling =>
      cases taken
      exact Or.inr ⟨polling, holds⟩
  · next selecting =>
      split at taken
      · next inside =>
          cases taken
          left
          rw [selecting]
          rcases holds with read | write
          · have reported := (List.mem_filter.mp read).2
            simp only [decide_eq_true_eq] at reported
            exact Or.inl (inside.1 reported.1)
          · have reported := (List.mem_filter.mp write).2
            simp only [decide_eq_true_eq] at reported
            exact Or.inr (inside.2 reported.1)
      · contradiction
  · next scanning =>
      cases taken
      left
      rw [scanning]
      exact holds_of_nextReady holds
  · next toRead =>
      rcases Option.map_eq_some_iff.mp taken with ⟨_, _, rfl⟩
      left
      rw [toRead]
      exact holds
  · next toWrite =>
      rcases Option.map_eq_some_iff.mp taken with ⟨_, _, rfl⟩
      left
      rw [toWrite]
      exact holds
  · next reading =>
      cases taken
      left
      rw [reading]
      exact Or.inr holds
  · next writing =>
      cases taken
      left
      rw [writing]
      right
      simpa [Loop.Holds] using holds
  · contradiction

/-- A callback that is about to start was found registered. -/
theorem calling_of_loopStep {step : LoopStep} (taken : p.loopStep step = some q) {fd : Nat}
    (calling : q.loop.Calling fd) : p.loop.Calling fd ∨ p.callbacks fd ≠ none := by
  unfold loopStep at taken
  split at taken
  · cases taken
    unfold announce at calling
    split at calling <;> contradiction
  · cases taken
    contradiction
  · split at taken
    · cases taken
      contradiction
    · contradiction
  · cases taken
    right
    unfold nextReady at calling
    split at calling
    · split at calling
      · next registered =>
          cases calling
          simp [registered]
      · contradiction
    · split at calling
      · next registered =>
          cases calling
          simp [registered]
      · contradiction
    · contradiction
  · next toRead =>
      rcases Option.map_eq_some_iff.mp taken with ⟨_, _, rfl⟩
      left
      rw [toRead]
      exact calling
  · next toWrite =>
      rcases Option.map_eq_some_iff.mp taken with ⟨_, _, rfl⟩
      left
      rw [toWrite]
      exact calling
  · cases taken
    contradiction
  · cases taken
    contradiction
  · contradiction

end PollMgr

end YfsRpc.Rpc
