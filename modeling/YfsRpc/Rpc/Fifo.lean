import YfsRpc.Foundation.Machine
import YfsRpc.Foundation.SignalVar
import Mathlib.Logic.Function.Basic

/-! # The bounded queue

`enq` and `deq` of any number of threads, each with one call at a time. A step is what a
thread does under the mutex: from its entry or a wakeup to the next wait or the return.
A return signals at most one thread, and a thread that comes by may be faster than the
signalled one.
-/

namespace YfsRpc.Rpc

structure Fifo (ι : Type u) (α : Type v) where
  /-- the capacity, where 0 stands for none -/
  max : Nat
  q : List α := []
  nonEmptyC : SignalVar ι := .init
  hasSpaceC : SignalVar ι := .init
  /-- history: the values whose `enq` succeeded -/
  enqueued : List α := []
  /-- history: the values that `deq` returned -/
  dequeued : List α := []
  /-- history: the values whose `enq` failed, and how many were in the queue then -/
  refused : List (α × Nat) := []

namespace Fifo

variable {ι : Type u} {α : Type v}

section Operations

variable [DecidableEq ι]

/-- One turn of the loop in `enq`, which returns or waits; `pick` is the thread that a
signal reaches. -/
def enq (s : Fifo ι α) (i : ι) (e : α) (blocking : Bool) (pick : ι) :
    Option (Fifo ι α × Option Bool) :=
  if s.max = 0 ∨ s.q.length < s.max then
    (s.nonEmptyC.signal pick).map fun nonEmptyC =>
      ({ s with nonEmptyC, q := s.q ++ [e], enqueued := s.enqueued ++ [e] }, some true)
  else if blocking then
    some ({ s with hasSpaceC := s.hasSpaceC.wait i }, none)
  else
    some ({ s with refused := s.refused ++ [(e, s.q.length)] }, some false)

/-- One turn of the loop in `deq`. -/
def deq (s : Fifo ι α) (i : ι) (pick : ι) : Option (Fifo ι α × Option α) :=
  match s.q with
  | [] => some ({ s with nonEmptyC := s.nonEmptyC.wait i }, none)
  | e :: q =>
      let s := { s with q, dequeued := s.dequeued ++ [e] }
      if s.max ≠ 0 ∧ q.length < s.max then
        (s.hasSpaceC.signal pick).map fun hasSpaceC => ({ s with hasSpaceC }, some e)
      else
        some (s, some e)

/-- A woken call of `enq` goes on. -/
def resumeEnq (s : Fifo ι α) (i : ι) (e : α) (pick : ι) : Option (Fifo ι α × Option Bool) :=
  (s.hasSpaceC.resume i).bind fun hasSpaceC => { s with hasSpaceC }.enq i e true pick

/-- A woken call of `deq` goes on. -/
def resumeDeq (s : Fifo ι α) (i : ι) (pick : ι) : Option (Fifo ι α × Option α) :=
  (s.nonEmptyC.resume i).bind fun nonEmptyC => { s with nonEmptyC }.deq i pick

/-- A waiting call wakes without a signal. -/
def spuriousEnq (s : Fifo ι α) (i : ι) : Option (Fifo ι α) :=
  (s.hasSpaceC.spurious i).map fun hasSpaceC => { s with hasSpaceC }

def spuriousDeq (s : Fifo ι α) (i : ι) : Option (Fifo ι α) :=
  (s.nonEmptyC.spurious i).map fun nonEmptyC => { s with nonEmptyC }

end Operations

/-! ## The invariant -/

/-- Nothing is lost, and the capacity is respected. -/
structure Ordered (s : Fifo ι α) : Prop where
  whole : s.dequeued ++ s.q = s.enqueued
  room : s.max ≠ 0 → s.q.length ≤ s.max
  full : ∀ entry ∈ s.refused, s.max ≠ 0 ∧ entry.2 = s.max
  unbounded : s.max = 0 → s.hasSpaceC.waiting = ∅

/-- For each value in the queue, and for each place, a thread was signalled while others
wait. -/
structure Inv (s : Fifo ι α) : Prop extends Ordered s where
  values : s.nonEmptyC.Served s.q.length
  places : s.hasSpaceC.Served (s.max - s.q.length)

/-- The queue is first in, first out within its capacity, and strands nobody. -/
structure Sound (s : Fifo ι α) : Prop where
  inOrder : s.dequeued <+: s.enqueued
  kept : s.dequeued ++ s.q = s.enqueued
  capacity : s.max ≠ 0 → s.q.length ≤ s.max
  /-- an `enq` fails when the queue is full -/
  refused : ∀ entry ∈ s.refused, s.max ≠ 0 ∧ entry.2 = s.max
  consumers : s.q ≠ [] → s.nonEmptyC.waiting.Nonempty → s.nonEmptyC.signalled.Nonempty
  producers : s.max = 0 ∨ s.q.length < s.max →
    s.hasSpaceC.waiting.Nonempty → s.hasSpaceC.signalled.Nonempty

theorem Inv.sound {s : Fifo ι α} (inv : s.Inv) : s.Sound where
  inOrder := ⟨s.q, inv.whole⟩
  kept := inv.whole
  capacity := inv.room
  refused := inv.full
  consumers filled := inv.values.nonempty (List.length_pos_iff.mpr filled)
  producers space waits := by
    rcases space with none | space
    · rw [inv.unbounded none] at waits
      exact absurd waits Finset.not_nonempty_empty
    · exact inv.places.nonempty (Nat.sub_pos_of_lt space) waits

theorem inv_init (max : Nat) : Inv ({ max } : Fifo ι α) where
  whole := rfl
  room _ := Nat.zero_le max
  full := nofun
  unbounded _ := rfl
  values := SignalVar.served_init _
  places := SignalVar.served_init _

variable [DecidableEq ι] {s next : Fifo ι α} {i pick : ι} {e : α} {blocking : Bool}

/-- The caller takes the place that it may have been signalled for. -/
theorem Ordered.enq {result : Option Bool} (ordered : s.Ordered)
    (values : s.nonEmptyC.Served s.q.length) (places : s.hasSpaceC.Served (s.max - s.q.length - 1))
    (taken : s.enq i e blocking pick = some (next, result)) : next.Inv := by
  unfold Fifo.enq at taken
  split at taken
  · next space =>
      rcases Option.map_eq_some_iff.mp taken with ⟨nonEmptyC, signalled, same⟩
      cases same
      constructor
      · constructor
        · rw [← List.append_assoc, ordered.whole]
        · intro bounded
          rw [List.length_append, List.length_singleton]
          exact space.resolve_left bounded
        · exact ordered.full
        · exact ordered.unbounded
      · rw [List.length_append, List.length_singleton]
        exact values.signal signalled
      · rw [List.length_append, List.length_singleton]
        exact places.mono (by dsimp only; omega)
  · next noSpace =>
      rcases not_or.mp noSpace with ⟨bounded, filled⟩
      split at taken
      · cases taken
        constructor
        · exact ⟨ordered.whole, ordered.room, ordered.full, fun none => absurd none bounded⟩
        · exact values
        · exact SignalVar.served_wait.mono (by dsimp only; omega)
      · cases taken
        constructor
        · refine ⟨ordered.whole, ordered.room, ?_, ordered.unbounded⟩
          intro entry member
          rcases List.mem_append.mp member with old | new
          · exact ordered.full entry old
          · rw [List.mem_singleton.mp new]
            have most := ordered.room bounded
            exact ⟨bounded, Nat.le_antisymm most (Nat.le_of_not_lt filled)⟩
        · exact values
        · exact places.mono (by dsimp only; omega)

/-- The caller takes the value that it may have been signalled for. -/
theorem Ordered.deq {result : Option α} (ordered : s.Ordered)
    (values : s.nonEmptyC.Served (s.q.length - 1))
    (places : s.hasSpaceC.Served (s.max - s.q.length))
    (taken : s.deq i pick = some (next, result)) : next.Inv := by
  unfold Fifo.deq at taken
  split at taken
  · next empty =>
      cases taken
      constructor
      · exact ⟨ordered.whole, ordered.room, ordered.full, ordered.unbounded⟩
      · dsimp only
        rw [empty]
        exact SignalVar.served_wait
      · exact places
  · next e q content =>
      have whole := ordered.whole
      have room := ordered.room
      rw [content] at whole room values places
      rw [List.length_cons] at room values places
      have rest : s.dequeued ++ [e] ++ q = s.enqueued := by
        rw [List.append_assoc]
        exact whole
      dsimp only at taken
      split at taken
      · next space =>
          rcases Option.map_eq_some_iff.mp taken with ⟨hasSpaceC, signalled, same⟩
          cases same
          constructor
          · exact ⟨rest, fun bounded => Nat.le_of_succ_le (room bounded), ordered.full,
              fun none => absurd none space.1⟩
          · exact values
          · exact (places.signal signalled).mono (by dsimp only; omega)
      · next same =>
          cases taken
          have none : s.max = 0 := by
            by_contra bounded
            exact same ⟨bounded, room bounded⟩
          constructor
          · exact ⟨rest, fun bounded => absurd none bounded, ordered.full, ordered.unbounded⟩
          · exact values
          · exact places.mono (by dsimp only; omega)

theorem Inv.enq {result : Option Bool} (inv : s.Inv)
    (taken : s.enq i e blocking pick = some (next, result)) : next.Inv :=
  inv.toOrdered.enq inv.values (inv.places.mono (Nat.sub_le _ 1)) taken

theorem Inv.deq {result : Option α} (inv : s.Inv)
    (taken : s.deq i pick = some (next, result)) : next.Inv :=
  inv.toOrdered.deq (inv.values.mono (Nat.sub_le _ 1)) inv.places taken

theorem Inv.resumeEnq {result : Option Bool} (inv : s.Inv)
    (taken : s.resumeEnq i e pick = some (next, result)) : next.Inv := by
  rcases Option.bind_eq_some_iff.mp taken with ⟨hasSpaceC, resumed, taken⟩
  rcases SignalVar.resume_some resumed with ⟨-, waiting, -, -⟩
  have ordered : ({ s with hasSpaceC } : Fifo ι α).Ordered :=
    ⟨inv.whole, inv.room, inv.full, fun none => waiting.trans (inv.unbounded none)⟩
  exact ordered.enq inv.values (inv.places.resume resumed) taken

theorem Inv.resumeDeq {result : Option α} (inv : s.Inv)
    (taken : s.resumeDeq i pick = some (next, result)) : next.Inv := by
  rcases Option.bind_eq_some_iff.mp taken with ⟨nonEmptyC, resumed, taken⟩
  have ordered : ({ s with nonEmptyC } : Fifo ι α).Ordered :=
    ⟨inv.whole, inv.room, inv.full, inv.unbounded⟩
  exact ordered.deq (inv.values.resume resumed) inv.places taken

theorem Inv.spuriousEnq (inv : s.Inv) (taken : s.spuriousEnq i = some next) : next.Inv := by
  rcases Option.map_eq_some_iff.mp taken with ⟨hasSpaceC, woken, rfl⟩
  rcases SignalVar.spurious_some woken with ⟨-, waiting, -, -⟩
  have none (unbounded : s.max = 0) : hasSpaceC.waiting = ∅ := by
    rw [waiting, inv.unbounded unbounded, Finset.erase_empty]
  exact ⟨⟨inv.whole, inv.room, inv.full, none⟩, inv.values, inv.places.spurious woken⟩

theorem Inv.spuriousDeq (inv : s.Inv) (taken : s.spuriousDeq i = some next) : next.Inv := by
  rcases Option.map_eq_some_iff.mp taken with ⟨nonEmptyC, woken, rfl⟩
  exact ⟨⟨inv.whole, inv.room, inv.full, inv.unbounded⟩, inv.values.spurious woken, inv.places⟩

/-! ## What the calls do -/

theorem enq_history {result : Option Bool} (taken : s.enq i e blocking pick = some (next, result)) :
    next.dequeued = s.dequeued ∧
      ((result = some true ∧ next.enqueued = s.enqueued ++ [e]) ∨
        (result = some false ∧ blocking = false ∧ next.enqueued = s.enqueued) ∨
        (result = none ∧ next.enqueued = s.enqueued)) := by
  unfold Fifo.enq at taken
  split at taken
  · rcases Option.map_eq_some_iff.mp taken with ⟨nonEmptyC, -, same⟩
    cases same
    exact ⟨rfl, Or.inl ⟨rfl, rfl⟩⟩
  · split at taken
    · cases taken
      exact ⟨rfl, Or.inr (Or.inr ⟨rfl, rfl⟩)⟩
    · next never =>
        cases taken
        exact ⟨rfl, Or.inr (Or.inl ⟨rfl, by simpa using never, rfl⟩)⟩

theorem deq_history {result : Option α} (taken : s.deq i pick = some (next, result)) :
    next.enqueued = s.enqueued ∧
      ((result = none ∧ next.dequeued = s.dequeued) ∨
        ∃ e, result = some e ∧ next.dequeued = s.dequeued ++ [e]) := by
  unfold Fifo.deq at taken
  split at taken
  · cases taken
    exact ⟨rfl, Or.inl ⟨rfl, rfl⟩⟩
  · next e q content =>
      dsimp only at taken
      split at taken
      · rcases Option.map_eq_some_iff.mp taken with ⟨hasSpaceC, -, same⟩
        cases same
        exact ⟨rfl, Or.inr ⟨e, rfl, rfl⟩⟩
      · cases taken
        exact ⟨rfl, Or.inr ⟨e, rfl, rfl⟩⟩

theorem resumeEnq_history {result : Option Bool}
    (taken : s.resumeEnq i e pick = some (next, result)) :
    next.dequeued = s.dequeued ∧
      ((result = some true ∧ next.enqueued = s.enqueued ++ [e]) ∨
        (result = none ∧ next.enqueued = s.enqueued)) := by
  rcases Option.bind_eq_some_iff.mp taken with ⟨hasSpaceC, -, taken⟩
  rcases enq_history taken with ⟨dequeued, enqueued | ⟨-, never, -⟩ | waits⟩
  · exact ⟨dequeued, Or.inl enqueued⟩
  · contradiction
  · exact ⟨dequeued, Or.inr waits⟩

theorem resumeDeq_history {result : Option α} (taken : s.resumeDeq i pick = some (next, result)) :
    next.enqueued = s.enqueued ∧
      ((result = none ∧ next.dequeued = s.dequeued) ∨
        ∃ e, result = some e ∧ next.dequeued = s.dequeued ++ [e]) := by
  rcases Option.bind_eq_some_iff.mp taken with ⟨nonEmptyC, -, taken⟩
  have history := deq_history taken
  exact history

theorem spuriousEnq_history (taken : s.spuriousEnq i = some next) :
    next.enqueued = s.enqueued ∧ next.dequeued = s.dequeued := by
  rcases Option.map_eq_some_iff.mp taken with ⟨hasSpaceC, -, rfl⟩
  exact ⟨rfl, rfl⟩

theorem spuriousDeq_history (taken : s.spuriousDeq i = some next) :
    next.enqueued = s.enqueued ∧ next.dequeued = s.dequeued := by
  rcases Option.map_eq_some_iff.mp taken with ⟨nonEmptyC, -, rfl⟩
  exact ⟨rfl, rfl⟩

end Fifo

/-! ## The machine -/

/-- A call that waits in the queue. -/
inductive FifoCall (α : Type v)
  | enq (e : α)
  | deq

structure FifoThreads (ι : Type u) (α : Type v) where
  fifo : Fifo ι α
  /-- the calls that wait -/
  calls : ι → Option (FifoCall α) := fun _ => none

namespace FifoThreads

variable {ι : Type u} {α : Type v} [DecidableEq ι]

inductive Action (ι : Type u) (α : Type v)
  | enq (i : ι) (e : α) (blocking : Bool) (pick : ι)
  | deq (i : ι) (pick : ι)
  /-- a woken call holds the mutex again -/
  | resume (i : ι) (pick : ι)
  | spurious (i : ι)

/-- The call waits if it has not returned. -/
def settle {ρ : Type w} (s : FifoThreads ι α) (i : ι) (call : FifoCall α) (fifo : Fifo ι α)
    (result : Option ρ) : FifoThreads ι α where
  fifo := fifo
  calls := Function.update s.calls i (if result.isSome then none else some call)

def step (s : FifoThreads ι α) : Action ι α → Option (FifoThreads ι α)
  | .enq i e blocking pick =>
      match s.calls i with
      | none => (s.fifo.enq i e blocking pick).map fun (fifo, result) =>
          s.settle i (.enq e) fifo result
      | some _ => none
  | .deq i pick =>
      match s.calls i with
      | none => (s.fifo.deq i pick).map fun (fifo, result) => s.settle i .deq fifo result
      | some _ => none
  | .resume i pick =>
      match s.calls i with
      | none => none
      | some (.enq e) => (s.fifo.resumeEnq i e pick).map fun (fifo, result) =>
          s.settle i (.enq e) fifo result
      | some .deq => (s.fifo.resumeDeq i pick).map fun (fifo, result) =>
          s.settle i .deq fifo result
  | .spurious i =>
      match s.calls i with
      | none => none
      | some (.enq _) => (s.fifo.spuriousEnq i).map fun fifo => { s with fifo }
      | some .deq => (s.fifo.spuriousDeq i).map fun fifo => { s with fifo }

def machine (ι : Type u) (α : Type v) [DecidableEq ι] (max : Nat) :
    Machine (FifoThreads ι α) (Action ι α) where
  initial := { fifo := { max } }
  step := step

variable {s next : FifoThreads ι α}

theorem inv_step {action : Action ι α} (inv : s.fifo.Inv) (taken : s.step action = some next) :
    next.fifo.Inv := by
  cases action with
  | enq i e blocking pick =>
      simp only [step] at taken
      split at taken
      · rcases Option.map_eq_some_iff.mp taken with ⟨⟨fifo, result⟩, called, rfl⟩
        exact inv.enq called
      · contradiction
  | deq i pick =>
      simp only [step] at taken
      split at taken
      · rcases Option.map_eq_some_iff.mp taken with ⟨⟨fifo, result⟩, called, rfl⟩
        exact inv.deq called
      · contradiction
  | resume i pick =>
      simp only [step] at taken
      split at taken
      · contradiction
      · rcases Option.map_eq_some_iff.mp taken with ⟨⟨fifo, result⟩, called, rfl⟩
        exact inv.resumeEnq called
      · rcases Option.map_eq_some_iff.mp taken with ⟨⟨fifo, result⟩, called, rfl⟩
        exact inv.resumeDeq called
  | spurious i =>
      simp only [step] at taken
      split at taken
      · contradiction
      · rcases Option.map_eq_some_iff.mp taken with ⟨fifo, called, rfl⟩
        exact inv.spuriousEnq called
      · rcases Option.map_eq_some_iff.mp taken with ⟨fifo, called, rfl⟩
        exact inv.spuriousDeq called

theorem reachable_inv {max : Nat} (reachable : (machine ι α max).Reachable s) : s.fifo.Inv :=
  reachable.invariant (fun s => s.fifo.Inv) (Fifo.inv_init max)
    fun _ _ _ _ inv taken => inv_step inv taken

/-- However the calls interleave, nothing is lost and nobody is stranded. -/
theorem queue_sound {max : Nat} (reachable : (machine ι α max).Reachable s) : s.fifo.Sound :=
  (reachable_inv reachable).sound

/-- A consumer is overtaken by another one, and a producer waits for the only place. -/
def overtaken : List (Action Nat Nat) :=
  [.deq 0 0, .enq 1 7 true 0, .deq 2 2, .resume 0 0, .enq 1 8 true 0, .enq 3 9 true 3,
    .enq 4 10 false 4]

theorem queue_sound_overtaken :
    ∃ s, (machine Nat Nat 1).Reachable s ∧ s.fifo.dequeued = [7] ∧ s.fifo.refused = [(10, 1)] ∧
      s.fifo.nonEmptyC.signalled = {0} ∧ s.fifo.Sound := by
  have run : (((machine Nat Nat 1).run (machine Nat Nat 1).initial overtaken).map fun s =>
      (s.fifo.dequeued, s.fifo.refused, s.fifo.nonEmptyC.signalled)) =
      some ([7], [(10, 1)], {0}) := by decide +kernel
  rcases Option.map_eq_some_iff.mp run with ⟨s, taken, values⟩
  have reachable := Machine.reachable_of_run taken
  rcases Prod.mk.inj values with ⟨dequeued, values⟩
  rcases Prod.mk.inj values with ⟨refused, signalled⟩
  exact ⟨s, reachable, dequeued, refused, signalled, queue_sound reachable⟩

end FifoThreads

end YfsRpc.Rpc
