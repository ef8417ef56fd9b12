import YfsRpc.Rpc.SelectScan

/-! # The pipe of `SelectAIO`

A thread that changes what is watched writes a byte to a pipe that the loop waits for in
`select`, so that the loop does not sleep on old sets. The byte is written under both
mutexes, and `write` blocks while the pipe is full.
-/

namespace YfsRpc.Rpc

namespace SelectAio

/-- A copy of the sets has everything that is watched. -/
structure Within (aio : SelectAio) (rfds wfds : Finset Nat) (high : Nat) : Prop where
  rfds : aio.rfds ⊆ rfds
  wfds : aio.wfds ⊆ wfds
  high : ∀ fd, aio.Watched fd → fd ≤ high

variable {aio : SelectAio} {fd : Nat} {flag : PollFlag}

theorem rfds_clear_subset : (aio.clear fd flag).rfds ⊆ aio.rfds := by
  change (if flag.reads then aio.rfds.erase fd else aio.rfds) ⊆ aio.rfds
  split
  · exact Finset.erase_subset fd aio.rfds
  · exact Finset.Subset.refl aio.rfds

theorem wfds_clear_subset : (aio.clear fd flag).wfds ⊆ aio.wfds := by
  change (if flag.writes then aio.wfds.erase fd else aio.wfds) ⊆ aio.wfds
  split
  · exact Finset.erase_subset fd aio.wfds
  · exact Finset.Subset.refl aio.wfds

theorem Within.unwatchFd {rfds wfds : Finset Nat} {high : Nat}
    (within : aio.Within rfds wfds high) : (aio.unwatchFd fd flag).1.Within rfds wfds high where
  rfds := by
    rw [rfds_unwatchFd]
    exact rfds_clear_subset.trans within.rfds
  wfds := by
    rw [wfds_unwatchFd]
    exact wfds_clear_subset.trans within.wfds
  high other watched := within.high other (watched_of_unwatchFd watched)

@[simp] theorem pipefd_unwatchFd : (aio.unwatchFd fd flag).1.pipefd = aio.pipefd := by
  dsimp only [SelectAio.unwatchFd]
  split <;> rfl

end SelectAio

/-! ## Changes -/

/-- What the threads change under `m_`. -/
inductive PollChange (τ κ : Type)
  | add (fd : Nat) (flag : PollFlag) (ch : κ)
  | del (fd : Nat) (flag : PollFlag)
  /-- `block_remove_fd` up to where it waits -/
  | remove (t : τ) (fd : Nat)

namespace PollChange

variable {τ κ : Type} [DecidableEq τ] [DecidableEq κ]

def fd : PollChange τ κ → Nat
  | add fd _ _ | del fd _ | remove _ fd => fd

/-- A byte is written to the pipe. -/
def notifies : PollChange τ κ → Bool
  | add .. | remove .. => true
  | del _ flag => flag = .rdwr

def apply (p : PollMgr τ κ) : PollChange τ κ → Option (PollMgr τ κ)
  | add fd flag ch => p.addCallback fd flag ch
  | del fd flag => some (p.delCallback fd flag)
  | remove t fd => some (p.blockRemove t fd)

/-- What a change does to the poll manager. -/
structure Applied (change : PollChange τ κ) (p q : PollMgr τ κ) : Prop where
  loop : q.loop = p.loop
  pipefd : q.aio.pipefd = p.aio.pipefd
  exactly : change.fd ≠ p.aio.pipefd → p.aio.Exact → q.aio.Exact
  waiting : q.changedone.waiting = p.changedone.waiting ∨ q.pendingChange = true
  pending : q.pendingChange = p.pendingChange ∨ change.notifies = true ∧ q.pendingChange = true
  within : change.notifies = false → ∀ rfds wfds high,
    p.aio.Within rfds wfds high → q.aio.Within rfds wfds high

theorem applied {change : PollChange τ κ} {p q : PollMgr τ κ}
    (taken : change.apply p = some q) : change.Applied p q := by
  cases change with
  | add fd flag ch =>
      dsimp only [apply, PollMgr.addCallback] at taken
      split at taken
      · cases taken
        exact {
          loop := rfl
          pipefd := rfl
          exactly := fun _ exactly => exactly.watchFd fd flag
          waiting := Or.inl rfl
          pending := Or.inl rfl
          within := fun quiet => nomatch quiet }
      · contradiction
  | del fd flag =>
      cases taken
      exact {
        loop := rfl
        pipefd := SelectAio.pipefd_unwatchFd
        exactly := fun foreign exactly => exactly.unwatchFd foreign flag
        waiting := Or.inl rfl
        pending := Or.inl rfl
        within := fun _ _ _ _ within => within.unwatchFd }
  | remove t fd =>
      cases taken
      exact {
        loop := rfl
        pipefd := SelectAio.pipefd_unwatchFd
        exactly := fun foreign exactly => exactly.unwatchFd foreign .rdwr
        waiting := Or.inr rfl
        pending := Or.inr ⟨rfl, rfl⟩
        within := fun quiet => nomatch quiet }

end PollChange

namespace Loop

variable {κ : Type}

def InCallback : Loop κ → Bool
  | reading .. | writing .. => true
  | top | polling | selecting .. | scanning .. | toRead .. | toWrite .. => false

end Loop

/-! ## The machine -/

structure WakePipe (τ κ : Type) where
  poll : PollMgr τ κ
  /-- bytes in the pipe -/
  pipe : Nat := 0
  /-- `select` found the pipe readable, and it was not read yet -/
  reported : Bool := false
  /-- the change whose byte does not fit, and whether the loop itself makes it, in a
  callback; its thread has both mutexes -/
  writer : Option (PollChange τ κ × Bool) := none

namespace WakePipe

inductive Action (τ κ : Type)
  | change (change : PollChange τ κ) (own : Bool)
  /-- `write` returns -/
  | written
  | spurious (t : τ)
  | finishRemove (t : τ)
  /-- the byte is read in `wait_ready` -/
  | readPipe
  | loop (step : PollMgr.LoopStep)

variable {τ κ : Type} [DecidableEq τ] [DecidableEq κ]

/-- The calls that are made: for descriptors of `callbacks_` other than the pipe, by the
loop only from a callback, and never a `block_remove_fd` there. -/
def Called (p : PollMgr τ κ) (change : PollChange τ κ) (own : Bool) : Prop :=
  change.fd < maxPollFds ∧ change.fd ≠ p.aio.pipefd ∧ (own = true → p.loop.InCallback = true) ∧
    match change with
    | .add .. | .del .. => True
    | .remove t _ => own = false ∧ p.removers t = none

instance (p : PollMgr τ κ) (own : Bool) : (change : PollChange τ κ) →
    Decidable (Called p change own)
  | .add .. | .del .. | .remove .. => inferInstanceAs (Decidable (_ ∧ _ ∧ _ ∧ _))

/-- What the loop needs for its next step: `m_` at the top, the mutex of `SelectAIO` for the
copy, and afterwards the pipe is read before anything is called. -/
def Ready (s : WakePipe τ κ) : PollMgr.LoopStep → Prop
  | .announce | .copy => s.writer = none
  | .select trfds twfds =>
      trfds = ∅ ∧ twfds = ∅ ∨ (s.poll.aio.pipefd ∈ trfds ↔ 0 < s.pipe)
  | .next | .call _ | .return => s.reported = false ∧ ∀ change, s.writer ≠ some (change, true)

instance (writer : Option (PollChange τ κ × Bool)) :
    Decidable (∀ change, writer ≠ some (change, true)) :=
  match writer with
  | none | some (_, false) => .isTrue fun _ same => nomatch same
  | some (change, true) => .isFalse fun never => never change rfl

instance (s : WakePipe τ κ) : (step : PollMgr.LoopStep) → Decidable (s.Ready step)
  | .announce | .copy =>
      match writer : s.writer with
      | none => .isTrue writer
      | some _ => .isFalse fun free => nomatch writer.symm.trans free
  | .select .. => inferInstanceAs (Decidable (_ ∧ _ ∨ (_ ↔ _)))
  | .next | .call _ | .return => inferInstanceAs (Decidable (_ ∧ _))

def pollStep (s : WakePipe τ κ) (step : PollMgr.LoopStep) : Option (WakePipe τ κ) :=
  if s.Ready step then
    (s.poll.loopStep step).map fun poll =>
      match step with
      | .select trfds _ => { s with poll, reported := s.poll.aio.pipefd ∈ trfds }
      | .announce | .copy | .next | .call _ | .return => { s with poll }
  else
    none

/-- `capacity` is how many bytes fit into the pipe. -/
def step (capacity : Nat) (s : WakePipe τ κ) : Action τ κ → Option (WakePipe τ κ)
  | .change change own =>
      if s.writer.isNone ∧ Called s.poll change own then
        if change.notifies then
          if s.pipe < capacity then
            (change.apply s.poll).map fun poll => { s with poll, pipe := s.pipe + 1 }
          else
            some { s with writer := some (change, own) }
        else
          (change.apply s.poll).map fun poll => { s with poll }
      else
        none
  | .written =>
      match s.writer with
      | none => none
      | some (change, _) =>
          if s.pipe < capacity then
            (change.apply s.poll).map fun poll =>
              { s with poll, pipe := s.pipe + 1, writer := none }
          else
            none
  | .spurious t => (s.poll.spurious t).map fun poll => { s with poll }
  | .finishRemove t =>
      if s.writer.isNone then
        (s.poll.removers t).bind fun fd =>
          (s.poll.finishRemove t fd).map fun poll => { s with poll }
      else
        none
  | .readPipe =>
      if s.reported ∧ 0 < s.pipe then
        some { s with pipe := s.pipe - 1, reported := false }
      else
        none
  | .loop step => s.pollStep step

def machine (τ κ : Type) [DecidableEq τ] [DecidableEq κ] (capacity pipefd : Nat) :
    Machine (WakePipe τ κ) (Action τ κ) where
  initial := { poll := { aio := .init pipefd } }
  step := step capacity

/-! ## No wakeup is lost -/

/-- What is watched reaches `select`, and who waits for the loop is not forgotten. -/
structure Attentive (s : WakePipe τ κ) : Prop where
  /-- a sleep that nothing in the pipe ends has all that is watched, and nobody waits for
  the loop to begin again -/
  asleep : ∀ rfds wfds high, s.poll.loop = .selecting rfds wfds high → s.pipe = 0 →
    s.poll.aio.Within rfds wfds high ∧ s.poll.changedone.waiting = ∅
  /-- `select` was asked for the pipe -/
  awake : ∀ rfds wfds high, s.poll.loop = .selecting rfds wfds high →
    s.poll.aio.pipefd ∈ rfds ∧ s.poll.aio.pipefd ≤ high
  /-- the read that is asserted to find a byte does -/
  readable : s.reported = true → 0 < s.pipe

structure Inv (s : WakePipe τ κ) : Prop where
  exactly : s.poll.aio.Exact
  pending : s.poll.changedone.waiting.Nonempty → s.poll.pendingChange = true
  /-- a change that the iteration in progress does not announce -/
  alarmed : s.poll.pendingChange = true →
    (s.poll.loop = .polling ∨ ∃ rfds wfds high, s.poll.loop = .selecting rfds wfds high) →
    0 < s.pipe
  copied : ∀ rfds wfds high, s.poll.loop = .selecting rfds wfds high →
    (s.pipe = 0 → s.poll.aio.Within rfds wfds high) ∧
      s.poll.aio.pipefd ∈ rfds ∧ s.poll.aio.pipefd ≤ high
  reported : s.reported = true →
    0 < s.pipe ∧ ∃ readable writable, s.poll.loop = .scanning readable writable
  foreign : ∀ change own, s.writer = some (change, own) → change.fd ≠ s.poll.aio.pipefd

variable {capacity pipefd : Nat} {s next : WakePipe τ κ}

omit [DecidableEq κ] in
theorem Inv.attentive (inv : Inv s) : s.Attentive where
  asleep rfds wfds high selecting empty := by
    constructor
    · exact (inv.copied rfds wfds high selecting).1 empty
    · by_contra waits
      have pending := inv.pending (Finset.nonempty_iff_ne_empty.mpr waits)
      have positive := inv.alarmed pending (Or.inr ⟨rfds, wfds, high, selecting⟩)
      omega
  awake rfds wfds high selecting := (inv.copied rfds wfds high selecting).2
  readable reported := (inv.reported reported).1

theorem inv_initial : Inv (machine τ κ capacity pipefd).initial where
  exactly := SelectAio.init_exact pipefd
  pending waits := absurd waits Finset.not_nonempty_empty
  alarmed pending _ := nomatch pending
  copied _ _ _ selecting := nomatch selecting
  reported reported := nomatch reported
  foreign _ _ writer := nomatch writer

/-- A change is in order when its byte, if it writes one, is in the pipe. -/
theorem Inv.apply (inv : Inv s) {change : PollChange τ κ} {poll : PollMgr τ κ} {pipe : Nat}
    (foreign : change.fd ≠ s.poll.aio.pipefd) (taken : change.apply s.poll = some poll)
    (grows : s.pipe ≤ pipe) (byte : change.notifies = true → 0 < pipe) :
    Inv { s with poll, pipe, writer := none } := by
  have applied := PollChange.applied taken
  constructor
  · exact applied.exactly foreign inv.exactly
  · intro waits
    rcases applied.waiting with same | pending
    · have before := inv.pending (same ▸ waits)
      rcases applied.pending with kept | ⟨-, raised⟩
      · exact kept.trans before
      · exact raised
    · exact pending
  · intro pending asleep
    rcases applied.pending with kept | ⟨notifies, -⟩
    · have before := inv.alarmed (kept.symm.trans pending) (applied.loop ▸ asleep)
      exact before.trans_le grows
    · exact byte notifies
  · intro rfds wfds high selecting
    have copied := inv.copied rfds wfds high (applied.loop.symm.trans selecting)
    change (pipe = 0 → _) ∧ _
    rw [applied.pipefd]
    refine ⟨fun empty => ?_, copied.2⟩
    have quiet : change.notifies = false := by
      by_contra notifies
      have positive := byte (Bool.not_eq_false _ ▸ notifies)
      omega
    exact applied.within quiet rfds wfds high (copied.1 (by omega))
  · intro reported
    rcases inv.reported reported with ⟨positive, scanning⟩
    exact ⟨positive.trans_le grows, applied.loop ▸ scanning⟩
  · intro _ _ none
    contradiction

omit [DecidableEq τ] [DecidableEq κ] in
/-- A step that leaves what is watched, the loop and the pipe alone. -/
theorem Inv.unrelated (inv : Inv s) {poll : PollMgr τ κ} (aio : poll.aio = s.poll.aio)
    (loop : poll.loop = s.poll.loop) (pending : poll.pendingChange = s.poll.pendingChange)
    (waiting : poll.changedone.waiting ⊆ s.poll.changedone.waiting) :
    Inv { s with poll } := by
  constructor
  · exact aio ▸ inv.exactly
  · exact fun waits => pending.trans (inv.pending (waits.mono waiting))
  · exact fun raised asleep => inv.alarmed (pending.symm.trans raised) (loop ▸ asleep)
  · intro rfds wfds high selecting
    change (s.pipe = 0 → poll.aio.Within rfds wfds high) ∧ poll.aio.pipefd ∈ rfds ∧ _
    rw [aio]
    exact inv.copied rfds wfds high (loop.symm.trans selecting)
  · exact fun reported => loop ▸ inv.reported reported
  · exact fun change own writer => aio ▸ inv.foreign change own writer

omit [DecidableEq κ] in
theorem Inv.announce (inv : Inv s) (top : s.poll.loop = .top) :
    Inv { s with poll := s.poll.announce } := by
  have same : PollMgr.SameRegistry s.poll s.poll.announce := by
    have stepped : s.poll.loopStep .announce = some s.poll.announce := by
      simp only [PollMgr.loopStep, top]
    exact PollMgr.loopStep_same stepped
  have polling : s.poll.announce.loop = .polling := by
    dsimp only [PollMgr.announce]
    split <;> rfl
  have announced : s.poll.announce.pendingChange = false := by
    dsimp only [PollMgr.announce]
    split
    · rfl
    · next calm => exact Bool.not_eq_true _ ▸ calm
  constructor
  · exact same.aio ▸ inv.exactly
  · intro waits
    exfalso
    revert waits
    dsimp only [PollMgr.announce]
    split
    · exact Finset.not_nonempty_empty
    · next calm => exact fun waits => calm (inv.pending waits)
  · intro raised
    rw [announced] at raised
    contradiction
  · intro rfds wfds high selecting
    rw [polling] at selecting
    contradiction
  · intro reported
    rcases inv.reported reported with ⟨_, readable, writable, scanning⟩
    rw [top] at scanning
    contradiction
  · exact fun change own writer => same.aio ▸ inv.foreign change own writer

omit [DecidableEq τ] [DecidableEq κ] in
/-- The sets are copied while the pipe tells of all changes that are not announced. -/
theorem Inv.copy (inv : Inv s) (polling : s.poll.loop = .polling) :
    Inv { s with poll := { s.poll with
      loop := .selecting s.poll.aio.rfds s.poll.aio.wfds s.poll.aio.highfds } } where
  exactly := inv.exactly
  pending := inv.pending
  alarmed raised _ := inv.alarmed raised (Or.inl polling)
  copied rfds wfds high selecting := by
    cases selecting
    have greatest := inv.exactly.greatest.2
    refine ⟨fun _ => ?_, inv.exactly.pipe, greatest (Or.inl inv.exactly.pipe)⟩
    exact ⟨Finset.Subset.refl _, Finset.Subset.refl _, fun _ watched => greatest watched⟩
  reported reported := by
    rcases inv.reported reported with ⟨_, readable, writable, scanning⟩
    rw [polling] at scanning
    contradiction
  foreign := inv.foreign

omit [DecidableEq τ] [DecidableEq κ] in
/-- The loop goes on with its lists. -/
theorem Inv.scan (inv : Inv s) {poll : PollMgr τ κ} {pipe : Nat} {reported : Bool}
    (same : PollMgr.SameRegistry s.poll poll)
    (conditions : poll.changedone = s.poll.changedone ∧
      poll.pendingChange = s.poll.pendingChange)
    (begun : poll.loop ≠ .polling ∧ ∀ rfds wfds high, poll.loop ≠ .selecting rfds wfds high)
    (found : reported = true →
      0 < pipe ∧ ∃ readable writable, poll.loop = .scanning readable writable) :
    Inv { s with poll, pipe, reported } where
  exactly := same.aio ▸ inv.exactly
  pending waits := conditions.2.trans (inv.pending (conditions.1 ▸ waits))
  alarmed _ asleep := by
    rcases asleep with polling | ⟨rfds, wfds, high, selecting⟩
    · exact absurd polling begun.1
    · exact absurd selecting (begun.2 rfds wfds high)
  copied rfds wfds high selecting := absurd selecting (begun.2 rfds wfds high)
  reported := found
  foreign change own writer := same.aio ▸ inv.foreign change own writer

omit [DecidableEq τ] [DecidableEq κ] in
theorem inCallback_begun {loop : Loop κ} (inside : loop.InCallback = true) :
    loop ≠ .polling ∧ ∀ rfds wfds high, loop ≠ .selecting rfds wfds high := by
  cases loop with
  | reading | writing => exact ⟨nofun, nofun⟩
  | top | polling | selecting | scanning | toRead | toWrite => contradiction

omit [DecidableEq τ] [DecidableEq κ] in
theorem nextReady_begun (p : PollMgr τ κ) (readable writable : List Nat) :
    (p.nextReady readable writable).loop ≠ .polling ∧
      ∀ rfds wfds high, (p.nextReady readable writable).loop ≠ .selecting rfds wfds high := by
  unfold PollMgr.nextReady
  split
  · split <;> exact ⟨nofun, nofun⟩
  · split <;> exact ⟨nofun, nofun⟩
  · exact ⟨nofun, nofun⟩

omit [DecidableEq κ] in
/-- All that the loop can do. -/
theorem loopStep_cases {p q : PollMgr τ κ} {step : PollMgr.LoopStep}
    (taken : p.loopStep step = some q) :
    (step = .announce ∧ p.loop = .top ∧ q = p.announce) ∨
    (step = .copy ∧ p.loop = .polling ∧
      q = { p with loop := .selecting p.aio.rfds p.aio.wfds p.aio.highfds }) ∨
    (∃ trfds twfds readable writable, step = .select trfds twfds ∧
      q = { p with loop := .scanning readable writable }) ∨
    (∃ readable writable, step = .next ∧ p.loop = .scanning readable writable ∧
      q = p.nextReady readable writable) ∨
    (∃ again loop, step = .call again ∧ loop.InCallback = true ∧ q = { p with loop }) ∨
    (∃ readable writable, step = .return ∧
      q = { p with loop := .scanning readable writable }) := by
  unfold PollMgr.loopStep at taken
  split at taken
  · next top => exact Or.inl ⟨rfl, top, (Option.some.inj taken).symm⟩
  · next polling => exact Or.inr (Or.inl ⟨rfl, polling, (Option.some.inj taken).symm⟩)
  · split at taken
    · exact Or.inr (Or.inr (Or.inl ⟨_, _, _, _, rfl, (Option.some.inj taken).symm⟩))
    · contradiction
  · next scanning =>
      exact Or.inr (Or.inr (Or.inr (Or.inl ⟨_, _, rfl, scanning, (Option.some.inj taken).symm⟩)))
  · rcases Option.map_eq_some_iff.mp taken with ⟨ch, _, rfl⟩
    exact Or.inr (Or.inr (Or.inr (Or.inr (Or.inl ⟨_, _, rfl, rfl, rfl⟩))))
  · rcases Option.map_eq_some_iff.mp taken with ⟨ch, _, rfl⟩
    exact Or.inr (Or.inr (Or.inr (Or.inr (Or.inl ⟨_, _, rfl, rfl, rfl⟩))))
  · exact Or.inr (Or.inr (Or.inr (Or.inr (Or.inr ⟨_, _, rfl, (Option.some.inj taken).symm⟩))))
  · exact Or.inr (Or.inr (Or.inr (Or.inr (Or.inr ⟨_, _, rfl, (Option.some.inj taken).symm⟩))))
  · contradiction

omit [DecidableEq κ] in
theorem Inv.loop (inv : Inv s) {step : PollMgr.LoopStep}
    (taken : s.pollStep step = some next) : Inv next := by
  dsimp only [pollStep] at taken
  split at taken
  case isFalse => contradiction
  next ready =>
    rcases Option.map_eq_some_iff.mp taken with ⟨poll, stepped, rfl⟩
    have same := PollMgr.loopStep_same stepped
    rcases loopStep_cases stepped with ⟨rfl, top, rfl⟩ | ⟨rfl, polling, rfl⟩ |
      ⟨trfds, twfds, readable, writable, rfl, rfl⟩ | ⟨readable, writable, rfl, -, rfl⟩ |
      ⟨again, loop, rfl, inside, rfl⟩ | ⟨readable, writable, rfl, rfl⟩
    · exact inv.announce top
    · exact inv.copy polling
    · apply inv.scan same ⟨rfl, rfl⟩ ⟨nofun, nofun⟩
      intro found
      have member := of_decide_eq_true found
      refine ⟨?_, _, _, rfl⟩
      rcases ready with ⟨empty, -⟩ | pipeReady
      · rw [empty] at member
        exact absurd member (Finset.notMem_empty _)
      · exact pipeReady.mp member
    · have conditions : (s.poll.nextReady readable writable).changedone = s.poll.changedone ∧
          (s.poll.nextReady readable writable).pendingChange = s.poll.pendingChange := by
        unfold PollMgr.nextReady
        split
        · split <;> exact ⟨rfl, rfl⟩
        · split <;> exact ⟨rfl, rfl⟩
        · exact ⟨rfl, rfl⟩
      apply inv.scan same conditions (nextReady_begun ..)
      intro reported
      rw [ready.1] at reported
      contradiction
    · apply inv.scan same ⟨rfl, rfl⟩ (inCallback_begun inside)
      intro reported
      rw [ready.1] at reported
      contradiction
    · apply inv.scan same ⟨rfl, rfl⟩ ⟨nofun, nofun⟩
      intro reported
      rw [ready.1] at reported
      contradiction

theorem Inv.step (inv : Inv s) {action : Action τ κ} (taken : step capacity s action = some next) :
    Inv next := by
  cases action with
  | change change own =>
      dsimp only [WakePipe.step] at taken
      split at taken
      case isFalse => contradiction
      next called =>
        rcases called with ⟨free, -, foreign, -⟩
        have free := Option.isNone_iff_eq_none.mp free
        split at taken
        · next notifies =>
            split at taken
            · rcases Option.map_eq_some_iff.mp taken with ⟨poll, applied, rfl⟩
              rw [free]
              exact inv.apply foreign applied (Nat.le_succ _) fun _ => Nat.succ_pos _
            · cases taken
              refine { inv with foreign := ?_ }
              rintro _ _ ⟨⟩
              exact foreign
        · next quiet =>
            rcases Option.map_eq_some_iff.mp taken with ⟨poll, applied, rfl⟩
            rw [free]
            exact inv.apply foreign applied (Nat.le_refl _) fun notifies => absurd notifies quiet
  | written =>
      dsimp only [WakePipe.step] at taken
      split at taken
      case h_1 => contradiction
      next change own writer =>
        split at taken
        · rcases Option.map_eq_some_iff.mp taken with ⟨poll, applied, rfl⟩
          exact inv.apply (inv.foreign change own writer) applied (Nat.le_succ _)
            fun _ => Nat.succ_pos _
        · contradiction
  | spurious t =>
      rcases Option.map_eq_some_iff.mp taken with ⟨poll, polled, rfl⟩
      rcases Option.map_eq_some_iff.mp polled with ⟨changedone, woken, rfl⟩
      rcases CondVar.spurious_some woken with ⟨-, rfl⟩
      exact inv.unrelated rfl rfl rfl (Finset.erase_subset _ _)
  | finishRemove t =>
      dsimp only [WakePipe.step] at taken
      split at taken
      · rcases Option.bind_eq_some_iff.mp taken with ⟨fd, -, mapped⟩
        rcases Option.map_eq_some_iff.mp mapped with ⟨poll, polled, rfl⟩
        rcases Option.map_eq_some_iff.mp polled with ⟨changedone, resumed, rfl⟩
        have waiting := (CondVar.resume_some resumed).2.1
        exact inv.unrelated rfl rfl rfl waiting.subset
      · contradiction
  | readPipe =>
      dsimp only [WakePipe.step] at taken
      split at taken
      · next found =>
          cases taken
          rcases (inv.reported found.1).2 with ⟨readable, writable, scanning⟩
          apply inv.scan ⟨rfl, rfl, rfl⟩ ⟨rfl, rfl⟩
          · rw [scanning]
            exact ⟨nofun, nofun⟩
          · exact nofun
      · contradiction
  | loop step => exact inv.loop taken

/-- The loop never sleeps on sets that have changed, nor past a thread that waits for it. -/
theorem sleeps_attentive (reachable : (machine τ κ capacity pipefd).Reachable s) :
    s.Attentive :=
  (reachable.invariant Inv inv_initial fun _ _ _ _ inv taken => inv.step taken).attentive

/-- A descriptor is added, the loop reads the byte and sleeps again. -/
def readByte : List (Action Nat Nat) :=
  [.change (.add 5 .rdonly 1) false, .loop .announce, .loop .copy, .loop (.select {3} ∅),
    .readPipe, .loop .next, .loop .announce, .loop .copy]

theorem sleeps_attentive_readByte :
    ∃ s, (machine Nat Nat 4 3).Reachable s ∧ s.pipe = 0 ∧ s.poll.aio.highfds = 5 ∧
      s.Attentive := by
  have run : ((machine Nat Nat 4 3).run (machine Nat Nat 4 3).initial readByte).map
      (fun s => (s.pipe, s.poll.aio.highfds)) = some (0, 5) := by decide +kernel
  rcases Option.map_eq_some_iff.mp run with ⟨s, taken, values⟩
  rcases Prod.mk.inj values with ⟨empty, high⟩
  have reachable := Machine.reachable_of_run taken
  exact ⟨s, reachable, empty, high, sleeps_attentive reachable⟩

/-! ## The full pipe -/

/-- A thread waits for room in the pipe, with both mutexes, and the loop is where it needs
one of them before it reads the pipe. -/
structure Jammed (capacity : Nat) (s : WakePipe τ κ) : Prop where
  blocked : s.writer ≠ none
  full : capacity ≤ s.pipe
  unread : s.reported = false
  elsewhere : ∀ rfds wfds high, s.poll.loop ≠ .selecting rfds wfds high

omit [DecidableEq κ] in
theorem Jammed.loop (jammed : s.Jammed capacity) {step : PollMgr.LoopStep}
    (taken : s.pollStep step = some next) :
    next.Jammed capacity ∧ next.writer = s.writer := by
  dsimp only [pollStep] at taken
  split at taken
  case isFalse => contradiction
  next ready =>
    rcases Option.map_eq_some_iff.mp taken with ⟨poll, stepped, rfl⟩
    cases step with
    | announce | copy => exact absurd ready jammed.blocked
    | select trfds twfds =>
        dsimp only [PollMgr.loopStep] at stepped
        split at stepped <;> try contradiction
        next selecting => exact absurd selecting (jammed.elsewhere _ _ _)
    | next | call | «return» =>
        refine ⟨{ jammed with elsewhere := ?_ }, rfl⟩
        rcases loopStep_cases stepped with ⟨same, -⟩ | ⟨same, -⟩ | ⟨_, _, _, _, same, -⟩ |
          ⟨_, _, same, -, rfl⟩ | ⟨_, _, same, inside, rfl⟩ | ⟨_, _, same, rfl⟩ <;> cases same
        all_goals
          first
          | exact (nextReady_begun ..).2
          | exact (inCallback_begun inside).2
          | exact nofun

theorem Jammed.step (jammed : s.Jammed capacity) {action : Action τ κ}
    (taken : step capacity s action = some next) :
    next.Jammed capacity ∧ next.writer = s.writer := by
  have held : s.writer.isNone = false :=
    Option.isNone_eq_false_iff.mpr (Option.isSome_iff_ne_none.mpr jammed.blocked)
  cases action with
  | change change own => simp [WakePipe.step, held] at taken
  | written =>
      dsimp only [WakePipe.step] at taken
      split at taken
      case h_1 => contradiction
      split at taken
      · next room => exact absurd room (Nat.not_lt.mpr jammed.full)
      · contradiction
  | spurious t =>
      rcases Option.map_eq_some_iff.mp taken with ⟨poll, polled, rfl⟩
      rcases Option.map_eq_some_iff.mp polled with ⟨changedone, -, rfl⟩
      exact ⟨{ jammed with }, rfl⟩
  | finishRemove t => simp [WakePipe.step, held] at taken
  | readPipe => simp [WakePipe.step, jammed.unread] at taken
  | loop step => exact jammed.loop taken

/-- Some descriptor that is not the pipe. -/
def anotherFd (pipefd : Nat) : Nat := if pipefd = 0 then 1 else 0

theorem step_addCallback {fd : Nat} {flag : PollFlag} {ch : κ} (free : s.writer = none)
    (inside : fd < maxPollFds) (foreign : fd ≠ s.poll.aio.pipefd)
    (registered : s.poll.callbacks fd = none ∨ s.poll.callbacks fd = some ch) :
    step capacity s (.change (.add fd flag ch) false) =
      if s.pipe < capacity then
        some { s with
          pipe := s.pipe + 1
          poll := { s.poll with
            aio := s.poll.aio.watchFd fd flag
            callbacks := Function.update s.poll.callbacks fd (some ch) } }
      else
        some { s with writer := some (.add fd flag ch, false) } := by
  have called : Called s.poll (.add fd flag ch) false := ⟨inside, foreign, nofun, trivial⟩
  simp [WakePipe.step, free, called, PollChange.notifies, PollChange.apply, PollMgr.addCallback,
    inside, registered]

/-- The loop has not begun, and the other threads add one descriptor again and again. -/
structure Filled (pipefd : Nat) (ch : κ) (count : Nat) (s : WakePipe τ κ) : Prop where
  pipe : s.pipe = count
  free : s.writer = none
  unread : s.reported = false
  top : s.poll.loop = .top
  same : s.poll.aio.pipefd = pipefd
  registered : ∀ fd, s.poll.callbacks fd = none ∨ s.poll.callbacks fd = some ch

theorem Filled.step {ch : κ} {count : Nat} (filled : Filled pipefd ch count s)
    (capacity : Nat) :
    (machine τ κ capacity pipefd).step s (.change (.add (anotherFd pipefd) .rdonly ch) false) =
      if count < capacity then
        some { s with
          pipe := count + 1
          poll := { s.poll with
            aio := s.poll.aio.watchFd (anotherFd pipefd) .rdonly
            callbacks := Function.update s.poll.callbacks (anotherFd pipefd) (some ch) } }
      else
        some { s with writer := some (.add (anotherFd pipefd) .rdonly ch, false) } := by
  have inside : anotherFd pipefd < maxPollFds := by
    unfold anotherFd
    split <;> decide
  have foreign : anotherFd pipefd ≠ s.poll.aio.pipefd := by
    rw [filled.same]
    unfold anotherFd
    split <;> omega
  cases filled.pipe
  exact step_addCallback filled.free inside foreign (filled.registered _)

theorem exists_filled (capacity pipefd : Nat) (ch : κ) {count : Nat} (fits : count ≤ capacity) :
    ∃ s : WakePipe τ κ, (machine τ κ capacity pipefd).Reachable s ∧ Filled pipefd ch count s := by
  induction count with
  | zero =>
      exact ⟨_, Machine.Reachable.initial, rfl, rfl, rfl, rfl, rfl, fun _ => Or.inl rfl⟩
  | succ count induction =>
      rcases induction (Nat.le_of_succ_le fits) with ⟨s, reachable, filled⟩
      have taken := filled.step capacity
      rw [if_pos (Nat.lt_of_succ_le fits)] at taken
      refine ⟨_, reachable.step taken, rfl, filled.free, filled.unread, filled.top,
        filled.same, fun fd => ?_⟩
      by_cases here : fd = anotherFd pipefd
      · exact Or.inr (here ▸ Function.update_self ..)
      · simpa only [Function.update_of_ne here] using filled.registered fd

/-- However much the pipe holds, it can be full when a thread changes what is watched while
the loop is away from `select`. The thread keeps both mutexes, the loop stops where it needs
one of them, and no step of anybody ends this. -/
theorem exists_jam (capacity pipefd : Nat) (ch : κ) :
    ∃ s : WakePipe τ κ, (machine τ κ capacity pipefd).Reachable s ∧ capacity ≤ s.pipe ∧
      s.writer ≠ none ∧ ∀ actions later, (machine τ κ capacity pipefd).run s actions = some later →
        later.writer = s.writer ∧ ∀ rfds wfds high, later.poll.loop ≠ .selecting rfds wfds high := by
  rcases exists_filled (τ := τ) capacity pipefd ch (Nat.le_refl capacity) with
    ⟨s, reachable, filled⟩
  have taken := filled.step capacity
  rw [if_neg (Nat.lt_irrefl capacity)] at taken
  have jammed : Jammed capacity { s with
      writer := some (.add (anotherFd pipefd) .rdonly ch, false) } := {
    blocked := nofun
    full := filled.pipe.ge
    unread := filled.unread
    elsewhere := fun _ _ _ selecting => nomatch filled.top.symm.trans selecting }
  refine ⟨_, reachable.step taken, jammed.full, nofun, fun actions later run => ?_⟩
  have kept := (machine τ κ capacity pipefd).run_invariant
    (fun later => later.Jammed capacity ∧
      later.writer = some (.add (anotherFd pipefd) .rdonly ch, false))
    (fun _ _ _ before stepped => (before.1.step stepped).imp_right (·.trans before.2))
    ⟨jammed, rfl⟩ run
  exact ⟨kept.2, kept.1.elsewhere⟩

end WakePipe

end YfsRpc.Rpc
