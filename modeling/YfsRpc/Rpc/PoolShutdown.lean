import Mathlib.Algebra.BigOperators.Group.Finset.Basic
import YfsRpc.Foundation.Progress
import YfsRpc.Rpc.ThrPool

/-! # The shutdown comes to an end

Once the destructor of the thread pool has started, it returns, if the functions of the jobs
do: no worker and not the destructor itself can be left waiting in the queue, and each step
uses up a job, a pill or a wakeup.
-/

namespace YfsRpc.Rpc

namespace Fifo

variable {ι : Type u} {α : Type v} {s next : Fifo ι α} {i pick : ι} {e : α} {blocking : Bool}

/-- How many threads were woken and have yet to resume. -/
def awake (s : Fifo ι α) : Nat := s.nonEmptyC.woken.card + s.hasSpaceC.woken.card

variable [DecidableEq ι]

/-- What a call of `deq` that was not inside has done. -/
structure Deqed (i : ι) (s next : Fifo ι α) (result : Option α) : Prop where
  takers : ∀ t, next.nonEmptyC.toCondVar.Inside t ↔
    t ≠ i ∧ s.nonEmptyC.toCondVar.Inside t ∨ t = i ∧ result = none
  givers : ∀ t, next.hasSpaceC.toCondVar.Inside t ↔ s.hasSpaceC.toCondVar.Inside t
  cost : result = none ∧ next.q = s.q ∧ next.awake ≤ s.awake ∨
    result ≠ none ∧ s.q.length = next.q.length + 1 ∧ next.awake ≤ s.awake + 1

/-- What a call of `enq` that was not inside has done. -/
structure Enqed (i : ι) (s next : Fifo ι α) (result : Option Bool) : Prop where
  takers : ∀ t, next.nonEmptyC.toCondVar.Inside t ↔ s.nonEmptyC.toCondVar.Inside t
  givers : ∀ t, next.hasSpaceC.toCondVar.Inside t ↔
    t ≠ i ∧ s.hasSpaceC.toCondVar.Inside t ∨ t = i ∧ result = none
  cost : result ≠ some true ∧ next.q = s.q ∧ next.awake ≤ s.awake ∨
    result = some true ∧ next.q.length = s.q.length + 1 ∧ next.awake ≤ s.awake + 1

theorem inside_waits (c : CondVar ι) {β : Type w} (t : ι) :
    (c.wait i).Inside t ↔ t ≠ i ∧ c.Inside t ∨ t = i ∧ (none : Option β) = none := by
  rw [CondVar.inside_wait]
  by_cases here : t = i
  · simp [here]
  · simp [here]

theorem inside_returns {c : CondVar ι} (outside : ¬ c.Inside i) {β : Type w} {result : Option β}
    (returned : result ≠ none) (t : ι) :
    c.Inside t ↔ t ≠ i ∧ c.Inside t ∨ t = i ∧ result = none := by
  by_cases here : t = i
  · simp [here, outside, returned]
  · simp [here]

theorem deqed {result : Option α} (outside : ¬ s.nonEmptyC.toCondVar.Inside i)
    (taken : s.deq i pick = some (next, result)) : Deqed i s next result := by
  unfold Fifo.deq at taken
  split at taken
  · cases taken
    constructor
    · intro t
      exact inside_waits _ t
    · exact fun _ => Iff.rfl
    · exact Or.inl ⟨rfl, rfl, Nat.add_le_add_right SignalVar.card_wait _⟩
  · next e q content =>
      dsimp only at taken
      split at taken
      · rcases Option.map_eq_some_iff.mp taken with ⟨hasSpaceC, signalled, same⟩
        cases same
        constructor
        · intro t
          exact inside_returns outside (Option.some_ne_none _) t
        · exact fun t => SignalVar.inside_signal signalled
        · refine Or.inr ⟨nofun, by rw [content, List.length_cons], ?_⟩
          exact Nat.add_le_add_left (SignalVar.card_signal signalled) _
      · cases taken
        constructor
        · intro t
          exact inside_returns outside (Option.some_ne_none _) t
        · exact fun _ => Iff.rfl
        · exact Or.inr ⟨nofun, by rw [content, List.length_cons], Nat.le_succ _⟩

theorem enqed {result : Option Bool} (outside : ¬ s.hasSpaceC.toCondVar.Inside i)
    (taken : s.enq i e blocking pick = some (next, result)) : Enqed i s next result := by
  unfold Fifo.enq at taken
  split at taken
  · rcases Option.map_eq_some_iff.mp taken with ⟨nonEmptyC, signalled, same⟩
    cases same
    constructor
    · exact fun t => SignalVar.inside_signal signalled
    · intro t
      exact inside_returns outside (Option.some_ne_none _) t
    · refine Or.inr ⟨rfl, List.length_append, ?_⟩
      change nonEmptyC.woken.card + s.hasSpaceC.woken.card ≤ s.awake + 1
      have more := SignalVar.card_signal signalled
      unfold awake
      omega
  · split at taken
    · cases taken
      constructor
      · exact fun _ => Iff.rfl
      · intro t
        exact inside_waits _ t
      · exact Or.inl ⟨nofun, rfl, Nat.add_le_add_left SignalVar.card_wait _⟩
    · cases taken
      constructor
      · exact fun _ => Iff.rfl
      · intro t
        exact inside_returns outside (Option.some_ne_none _) t
      · exact Or.inl ⟨nofun, rfl, Nat.le_refl _⟩

/-- A call that goes on uses up its wakeup. -/
theorem resumeDeqed {result : Option α} (taken : s.resumeDeq i pick = some (next, result)) :
    ∃ nonEmptyC : SignalVar ι, nonEmptyC.woken.card + 1 = s.nonEmptyC.woken.card ∧
      (∀ t, nonEmptyC.toCondVar.Inside t ↔ t ≠ i ∧ s.nonEmptyC.toCondVar.Inside t) ∧
      Deqed i { s with nonEmptyC } next result := by
  rcases Option.bind_eq_some_iff.mp taken with ⟨nonEmptyC, resumed, called⟩
  have inside (t : ι) := SignalVar.inside_resume (j := t) resumed
  have outside : ¬ nonEmptyC.toCondVar.Inside i := fun still => ((inside i).mp still).1 rfl
  exact ⟨nonEmptyC, SignalVar.card_resume resumed, inside, deqed outside called⟩

theorem resumeEnqed {result : Option Bool} (taken : s.resumeEnq i e pick = some (next, result)) :
    ∃ hasSpaceC : SignalVar ι, hasSpaceC.woken.card + 1 = s.hasSpaceC.woken.card ∧
      (∀ t, hasSpaceC.toCondVar.Inside t ↔ t ≠ i ∧ s.hasSpaceC.toCondVar.Inside t) ∧
      Enqed i { s with hasSpaceC } next result := by
  rcases Option.bind_eq_some_iff.mp taken with ⟨hasSpaceC, resumed, called⟩
  have inside (t : ι) := SignalVar.inside_resume (j := t) resumed
  have outside : ¬ hasSpaceC.toCondVar.Inside i := fun still => ((inside i).mp still).1 rfl
  exact ⟨hasSpaceC, SignalVar.card_resume resumed, inside, enqed outside called⟩

/-! ## A call can always go on -/

theorem exists_deq (s : Fifo ι α) (i : ι) : ∃ pick outcome, s.deq i pick = some outcome := by
  unfold Fifo.deq
  split
  · exact ⟨i, _, rfl⟩
  · dsimp only
    rcases s.hasSpaceC.exists_signal i with ⟨pick, hasSpaceC, signalled⟩
    refine ⟨pick, ?_⟩
    split
    · rw [signalled]
      exact ⟨_, rfl⟩
    · exact ⟨_, rfl⟩

theorem exists_enq (s : Fifo ι α) (i : ι) (e : α) (blocking : Bool) :
    ∃ pick outcome, s.enq i e blocking pick = some outcome := by
  unfold Fifo.enq
  rcases s.nonEmptyC.exists_signal i with ⟨pick, nonEmptyC, signalled⟩
  refine ⟨pick, ?_⟩
  split
  · rw [signalled]
    exact ⟨_, rfl⟩
  · split <;> exact ⟨_, rfl⟩

end Fifo

namespace ThrPool

variable {s next : ThrPool} {sz i k left : Nat} {blocking : Bool}
  {jobq : Fifo PoolThread PoolJob}

/-! ## Who waits in the queue -/

/-- The threads that wait in the queue are those that their phases say. -/
structure Seated (s : ThrPool) : Prop where
  takers : ∀ t, s.jobq.nonEmptyC.toCondVar.Inside t ↔
    ∃ i, t = .worker i ∧ s.workers i = .waiting
  givers : ∀ t, s.jobq.hasSpaceC.toCondVar.Inside t ↔
    (∃ k ∈ s.blocked, t = .adder k) ∨ t = .destructor ∧ ∃ left, s.destructor = .blocked left

theorem seated_init : Seated (init sz blocking) where
  takers t := by
    constructor
    · exact fun inside => absurd inside (CondVar.inside_init t)
    · intro ⟨i, _, waiting⟩
      contradiction
  givers t := by
    constructor
    · exact fun inside => absurd inside (CondVar.inside_init t)
    · intro waits
      rcases waits with ⟨k, member, -⟩ | ⟨-, left, blocked⟩
      · exact absurd member (Finset.notMem_empty k)
      · contradiction

theorem waiting_update {worker : Worker} (t : PoolThread) :
    (∃ j, t = .worker j ∧ (s.setWorker i worker).workers j = .waiting) ↔
      t ≠ .worker i ∧ (∃ j, t = .worker j ∧ s.workers j = .waiting) ∨
        t = .worker i ∧ worker = .waiting := by
  constructor
  · intro ⟨j, same, waits⟩
    by_cases here : j = i
    · subst here
      rw [setWorker_here] at waits
      exact Or.inr ⟨same, waits⟩
    · rw [setWorker_other here] at waits
      refine Or.inl ⟨fun also => ?_, j, same, waits⟩
      rw [same] at also
      exact here (PoolThread.worker.inj also)
  · intro waits
    rcases waits with ⟨differs, j, same, waits⟩ | ⟨same, waits⟩
    · have elsewhere : j ≠ i := fun here => differs (here ▸ same)
      exact ⟨j, same, (setWorker_other elsewhere).trans waits⟩
    · exact ⟨i, same, setWorker_here.trans waits⟩

/-- The phase of a worker after `takeJob`. -/
def Worker.after : Option PoolJob → Worker
  | none => .waiting
  | some none => .exited
  | some (some k) => .running k

theorem Worker.after_waiting {result : Option PoolJob} :
    Worker.after result = .waiting ↔ result = none := by
  rcases result with _ | _ | _ <;> simp [Worker.after]

theorem took_fields (s : ThrPool) (i : Nat) (jobq : Fifo PoolThread PoolJob)
    (result : Option PoolJob) :
    (s.took i (jobq, result)).jobq = jobq ∧
      (s.took i (jobq, result)).workers = (s.setWorker i (Worker.after result)).workers ∧
      (s.took i (jobq, result)).blocked = s.blocked ∧
      (s.took i (jobq, result)).destructor = s.destructor ∧
      (s.took i (jobq, result)).nthreads = s.nthreads := by
  rcases result with _ | _ | _ <;> exact ⟨rfl, rfl, rfl, rfl, rfl⟩

theorem Seated.took (seated : Seated s) {result : Option PoolJob}
    (takers : ∀ t, jobq.nonEmptyC.toCondVar.Inside t ↔
      t ≠ .worker i ∧ s.jobq.nonEmptyC.toCondVar.Inside t ∨ t = .worker i ∧ result = none)
    (givers : ∀ t, jobq.hasSpaceC.toCondVar.Inside t ↔ s.jobq.hasSpaceC.toCondVar.Inside t) :
    Seated (s.took i (jobq, result)) := by
  rcases took_fields s i jobq result with
    ⟨queue, workers, blocked, destructor, -⟩
  constructor
  · intro t
    rw [queue, workers, takers, seated.takers, waiting_update, Worker.after_waiting]
  · intro t
    rw [queue, blocked, destructor, givers, seated.givers]

theorem added_fields (s : ThrPool) (k : Nat) (jobq : Fifo PoolThread PoolJob)
    (result : Option Bool) :
    (s.added k (jobq, result)).jobq = jobq ∧
      (s.added k (jobq, result)).workers = s.workers ∧
      (∀ j, j ∈ (s.added k (jobq, result)).blocked ↔
        j ≠ k ∧ j ∈ s.blocked ∨ j = k ∧ result = none) ∧
      (s.added k (jobq, result)).destructor = s.destructor := by
  rcases result with _ | _ | _
  · refine ⟨rfl, rfl, fun j => ?_, rfl⟩
    change j ∈ insert k s.blocked ↔ _
    by_cases here : j = k <;> simp [here]
  · exact ⟨rfl, rfl, fun j => by simp [ThrPool.added], rfl⟩
  · exact ⟨rfl, rfl, fun j => by simp [ThrPool.added], rfl⟩

theorem Seated.added (seated : Seated s) {result : Option Bool}
    (takers : ∀ t, jobq.nonEmptyC.toCondVar.Inside t ↔ s.jobq.nonEmptyC.toCondVar.Inside t)
    (givers : ∀ t, jobq.hasSpaceC.toCondVar.Inside t ↔
      t ≠ .adder k ∧ s.jobq.hasSpaceC.toCondVar.Inside t ∨ t = .adder k ∧ result = none) :
    Seated (s.added k (jobq, result)) := by
  rcases added_fields s k jobq result with
    ⟨queue, workers, blocked, destructor⟩
  constructor
  · intro t
    rw [queue, workers, takers, seated.takers]
  · intro t
    rw [queue, destructor, givers, seated.givers]
    constructor
    · intro inside
      rcases inside with ⟨differs, ⟨j, member, rfl⟩ | pill⟩ | ⟨rfl, waits⟩
      · have other : j ≠ k := fun here => differs (here ▸ rfl)
        exact Or.inl ⟨j, (blocked j).mpr (Or.inl ⟨other, member⟩), rfl⟩
      · exact Or.inr pill
      · exact Or.inl ⟨k, (blocked k).mpr (Or.inr ⟨rfl, waits⟩), rfl⟩
    · intro inside
      rcases inside with ⟨j, member, rfl⟩ | ⟨rfl, pill⟩
      · rcases (blocked j).mp member with ⟨other, before⟩ | ⟨rfl, waits⟩
        · exact Or.inl ⟨fun same => other (PoolThread.adder.inj same), Or.inl ⟨j, before, rfl⟩⟩
        · exact Or.inr ⟨rfl, waits⟩
      · exact Or.inl ⟨nofun, Or.inr ⟨rfl, pill⟩⟩

theorem Seated.gavePill (seated : Seated s) {result : Option Bool}
    (takers : ∀ t, jobq.nonEmptyC.toCondVar.Inside t ↔ s.jobq.nonEmptyC.toCondVar.Inside t)
    (givers : ∀ t, jobq.hasSpaceC.toCondVar.Inside t ↔
      t ≠ .destructor ∧ s.jobq.hasSpaceC.toCondVar.Inside t ∨
        t = .destructor ∧ result = none) :
    Seated (s.gavePill left (jobq, result)) := by
  have blocked : (∃ left', (s.gavePill left (jobq, result)).destructor = .blocked left') ↔
      result = none := by
    cases result with
    | none => exact ⟨fun _ => rfl, fun _ => ⟨left, rfl⟩⟩
    | some gave => exact ⟨nofun, nofun⟩
  have fields : (s.gavePill left (jobq, result)).jobq = jobq ∧
      (s.gavePill left (jobq, result)).workers = s.workers ∧
      (s.gavePill left (jobq, result)).blocked = s.blocked := by
    cases result <;> exact ⟨rfl, rfl, rfl⟩
  rcases fields with ⟨queue, workers, adders⟩
  constructor
  · intro t
    rw [queue, workers, takers, seated.takers]
  · intro t
    rw [queue, adders, givers, seated.givers, blocked]
    by_cases here : t = .destructor
    · simp [here]
    · simp [here]

theorem Seated.outside_worker (seated : Seated s) (away : s.workers i ≠ .waiting) :
    ¬ s.jobq.nonEmptyC.toCondVar.Inside (.worker i) := by
  intro inside
  rcases (seated.takers _).mp inside with ⟨j, same, waits⟩
  cases same
  exact away waits

theorem Seated.takeJob {pick : PoolThread} (seated : Seated s)
    (taken : s.step (.takeJob i pick) = some next) : Seated next := by
  simp only [step] at taken
  split at taken
  · next taking =>
      split at taken
      · rcases Option.map_eq_some_iff.mp taken with ⟨⟨jobq, result⟩, called, rfl⟩
        have away : s.workers i ≠ .waiting := by rw [taking]; simp
        have deqed := Fifo.deqed (seated.outside_worker away) called
        exact seated.took deqed.takers deqed.givers
      · contradiction
  · rcases Option.map_eq_some_iff.mp taken with ⟨⟨jobq, result⟩, called, rfl⟩
    rcases Fifo.resumeDeqed called with ⟨nonEmptyC, -, inside, deqed⟩
    apply seated.took
    · intro t
      rw [deqed.takers, inside]
      tauto
    · exact deqed.givers
  · contradiction
  · contradiction

/-- A step that moves nobody into the queue or out of it. -/
theorem Seated.same (seated : Seated s)
    (takers : ∀ t, next.jobq.nonEmptyC.toCondVar.Inside t ↔ s.jobq.nonEmptyC.toCondVar.Inside t)
    (givers : ∀ t, next.jobq.hasSpaceC.toCondVar.Inside t ↔ s.jobq.hasSpaceC.toCondVar.Inside t)
    (workers : ∀ i, next.workers i = .waiting ↔ s.workers i = .waiting)
    (blocked : next.blocked = s.blocked)
    (destructor : ∀ left, next.destructor = .blocked left ↔ s.destructor = .blocked left) :
    Seated next where
  takers t := by
    rw [takers, seated.takers]
    simp only [workers]
  givers t := by
    rw [givers, seated.givers, blocked]
    simp only [destructor]

theorem Seated.finish (seated : Seated s) (taken : s.step (.finish i) = some next) :
    Seated next := by
  simp only [step] at taken
  split at taken
  · next k running =>
      cases taken
      have workers (j : Nat) :
          (s.setWorker i .taking).workers j = .waiting ↔ s.workers j = .waiting := by
        by_cases here : j = i
        · rw [here, setWorker_here, running]
          simp
        · rw [setWorker_other here]
      exact seated.same (fun _ => Iff.rfl) (fun _ => Iff.rfl) workers rfl fun _ => Iff.rfl
  · contradiction

theorem Seated.outside_adder (seated : Seated s) (absent : k ∉ s.blocked) :
    ¬ s.jobq.hasSpaceC.toCondVar.Inside (.adder k) := by
  intro inside
  rcases (seated.givers _).mp inside with ⟨j, member, same⟩ | ⟨same, -⟩
  · cases same
    exact absent member
  · contradiction

theorem Seated.addJob {pick : PoolThread} (seated : Seated s) (numbered : Numbered s)
    (taken : s.step (.addJob pick) = some next) : Seated next := by
  simp only [step] at taken
  split at taken
  · rcases Option.map_eq_some_iff.mp taken with ⟨⟨jobq, result⟩, called, rfl⟩
    have absent : s.calls ∉ s.blocked := fun waits => (numbered.waiting _ waits).1.false
    have enqed := Fifo.enqed (seated.outside_adder absent) called
    have counted : Seated { s with calls := s.calls + 1 } := ⟨seated.takers, seated.givers⟩
    exact counted.added enqed.takers enqed.givers
  · contradiction

theorem Seated.addAgain {pick : PoolThread} (seated : Seated s)
    (taken : s.step (.addAgain k pick) = some next) : Seated next := by
  simp only [step] at taken
  split at taken
  · rcases Option.map_eq_some_iff.mp taken with ⟨⟨jobq, result⟩, called, rfl⟩
    rcases Fifo.resumeEnqed called with ⟨hasSpaceC, -, inside, enqed⟩
    apply seated.added enqed.takers
    intro t
    rw [enqed.givers, inside]
    tauto
  · contradiction

theorem Seated.outside_destructor (seated : Seated s)
    (away : ∀ left, s.destructor ≠ .blocked left) :
    ¬ s.jobq.hasSpaceC.toCondVar.Inside .destructor := by
  intro inside
  rcases (seated.givers _).mp inside with ⟨j, -, same⟩ | ⟨-, left, blocked⟩
  · contradiction
  · exact away left blocked

/-- The destructor goes on without the queue. -/
theorem Seated.goOn (seated : Seated s) {destructor : Destructor}
    (was : ∀ left, s.destructor ≠ .blocked left) (is : ∀ left, destructor ≠ .blocked left) :
    Seated { s with destructor } :=
  seated.same (fun _ => Iff.rfl) (fun _ => Iff.rfl) (fun _ => Iff.rfl) rfl
    fun left => iff_of_false (is left) (was left)

theorem Seated.poison {pick : PoolThread} (seated : Seated s)
    (taken : s.step (.poison pick) = some next) : Seated next := by
  simp only [step] at taken
  split at taken
  · next poisoning =>
      cases taken
      exact seated.goOn (by rw [poisoning]; simp) (by simp)
  · next left poisoning =>
      rcases Option.map_eq_some_iff.mp taken with ⟨⟨jobq, result⟩, called, rfl⟩
      have outside := seated.outside_destructor (by rw [poisoning]; simp)
      have enqed := Fifo.enqed outside called
      exact seated.gavePill enqed.takers enqed.givers
  · rcases Option.map_eq_some_iff.mp taken with ⟨⟨jobq, result⟩, called, rfl⟩
    rcases Fifo.resumeEnqed called with ⟨hasSpaceC, -, inside, enqed⟩
    apply seated.gavePill enqed.takers
    intro t
    rw [enqed.givers, inside]
    tauto
  · contradiction

theorem Seated.step {action : Action} (seated : Seated s) (numbered : Numbered s)
    (taken : s.step action = some next) : Seated next := by
  cases action with
  | takeJob i pick => exact seated.takeJob taken
  | finish i => exact seated.finish taken
  | addJob pick => exact seated.addJob numbered taken
  | addAgain k pick => exact seated.addAgain taken
  | destroy =>
      simp only [ThrPool.step] at taken
      split at taken
      · next early =>
          cases taken
          exact seated.goOn (by rw [early.1]; simp) (by simp)
      · contradiction
  | poison pick => exact seated.poison taken
  | join =>
      simp only [ThrPool.step] at taken
      split at taken
      · next i joining =>
          have was (left : Nat) : s.destructor ≠ .blocked left := by rw [joining]; simp
          split at taken
          · split at taken
            · cases taken
              exact seated.goOn was (by simp)
            · contradiction
          · cases taken
            exact seated.goOn was (by simp)
      · contradiction
  | spurious thread =>
      cases thread with
      | worker i =>
          rcases Option.map_eq_some_iff.mp taken with ⟨jobq, woken, rfl⟩
          rcases Option.map_eq_some_iff.mp woken with ⟨nonEmptyC, moved, rfl⟩
          exact seated.same (fun _ => SignalVar.inside_spurious moved) (fun _ => Iff.rfl)
            (fun _ => Iff.rfl) rfl fun _ => Iff.rfl
      | adder k =>
          rcases Option.map_eq_some_iff.mp taken with ⟨jobq, woken, rfl⟩
          rcases Option.map_eq_some_iff.mp woken with ⟨hasSpaceC, moved, rfl⟩
          exact seated.same (fun _ => Iff.rfl) (fun _ => SignalVar.inside_spurious moved)
            (fun _ => Iff.rfl) rfl fun _ => Iff.rfl
      | destructor =>
          rcases Option.map_eq_some_iff.mp taken with ⟨jobq, woken, rfl⟩
          rcases Option.map_eq_some_iff.mp woken with ⟨hasSpaceC, moved, rfl⟩
          exact seated.same (fun _ => Iff.rfl) (fun _ => SignalVar.inside_spurious moved)
            (fun _ => Iff.rfl) rfl fun _ => Iff.rfl

/-! ## What is left to do -/

/-- What the phase of a worker is worth. -/
def Worker.cost : Worker → Nat
  | running _ => 2
  | taking => 1
  | waiting | exited => 0

/-- How many pills are left to give. -/
def pillsLeft (s : ThrPool) : Nat :=
  match s.destructor with
  | .poisoning left => left
  | .blocked left => left + 1
  | .notStarted | .joining _ | .returned => 0

/-- What the phase of the destructor is worth. -/
def Destructor.cost (nthreads : Nat) : Destructor → Nat
  | notStarted | returned => 0
  | poisoning _ => nthreads + 3
  | blocked _ => nthreads + 2
  | joining i => nthreads - i + 1

/-- No more steps than this are left once the destructor has started. -/
def remaining (s : ThrPool) : Nat :=
  3 * s.jobq.q.length + 5 * s.pillsLeft + (Finset.range s.nthreads).sum (fun i => (s.workers i).cost)
    + s.jobq.awake + s.destructor.cost s.nthreads

theorem sum_setWorker (inside : i < s.nthreads) (worker : Worker) :
    (Finset.range s.nthreads).sum (fun j => ((s.setWorker i worker).workers j).cost) +
        (s.workers i).cost =
      (Finset.range s.nthreads).sum (fun j => (s.workers j).cost) + worker.cost := by
  have member := Finset.mem_range.mpr inside
  rw [← Finset.add_sum_erase _ _ member, ← Finset.add_sum_erase _ _ member, setWorker_here]
  have others : ((Finset.range s.nthreads).erase i).sum
        (fun j => ((s.setWorker i worker).workers j).cost) =
      ((Finset.range s.nthreads).erase i).sum fun j => (s.workers j).cost := by
    apply Finset.sum_congr rfl
    intro j others
    rw [setWorker_other (Finset.ne_of_mem_erase others)]
  rw [others]
  omega

/-- Each step but a wakeup without a signal is work. -/
def Action.isWork : Action → Bool
  | spurious _ => false
  | _ => true

/-- What holds from the start of the destructor on. -/
structure Closing (sz : Nat) (s : ThrPool) : Prop where
  inv : Inv sz s
  seated : Seated s
  started : s.destructor ≠ .notStarted

theorem remaining_took (inside : i < s.nthreads) {result : Option PoolJob} {before : Nat}
    (idle : s.workers i = .taking ∧ before = s.jobq.awake ∨
      s.workers i = .waiting ∧ before + 1 = s.jobq.awake)
    (cost : result = none ∧ jobq.q = s.jobq.q ∧ jobq.awake ≤ before ∨
      result ≠ none ∧ s.jobq.q.length = jobq.q.length + 1 ∧ jobq.awake ≤ before + 1) :
    (s.took i (jobq, result)).remaining < s.remaining := by
  rcases took_fields s i jobq result with
    ⟨queue, workers, -, destructor, nthreads⟩
  have sum := sum_setWorker inside (Worker.after result)
  have pills : (s.took i (jobq, result)).pillsLeft = s.pillsLeft := by
    simp only [pillsLeft, destructor]
  simp only [remaining, queue, workers, destructor, nthreads, pills]
  have now : (s.workers i).cost = if s.workers i = .taking then 1 else 0 := by
    rcases idle with ⟨taking, -⟩ | ⟨waiting, -⟩
    · rw [taking]
      rfl
    · rw [waiting]
      rfl
  have after : (Worker.after result).cost ≤ if result = none then 0 else 2 := by
    rcases result with _ | _ | _ <;> simp [Worker.after, Worker.cost]
  rcases cost with ⟨none, same, awake⟩ | ⟨some, shorter, awake⟩
  · rw [if_pos none] at after
    rw [same]
    rcases idle with ⟨taking, counted⟩ | ⟨waiting, counted⟩
    · rw [if_pos taking] at now
      omega
    · omega
  · rw [if_neg some] at after
    rcases idle with ⟨taking, counted⟩ | ⟨waiting, counted⟩
    · rw [if_pos taking] at now
      omega
    · omega

theorem remaining_gavePill {result : Option Bool} {before : Nat}
    (giving : s.destructor = .poisoning (left + 1) ∧ before = s.jobq.awake ∨
      s.destructor = .blocked left ∧ before + 1 = s.jobq.awake)
    (cost : result ≠ some true ∧ jobq.q = s.jobq.q ∧ jobq.awake ≤ before ∨
      result = some true ∧ jobq.q.length = s.jobq.q.length + 1 ∧ jobq.awake ≤ before + 1) :
    (s.gavePill left (jobq, result)).remaining < s.remaining := by
  have now : s.pillsLeft = left + 1 := by
    rcases giving with ⟨phase, -⟩ | ⟨phase, -⟩ <;> simp only [pillsLeft, phase]
  have worth : s.jobq.awake + s.destructor.cost s.nthreads = before + (s.nthreads + 3) := by
    rcases giving with ⟨phase, counted⟩ | ⟨phase, counted⟩
    · simp only [phase, Destructor.cost]
      omega
    · simp only [phase, Destructor.cost]
      omega
  have total : s.remaining = 3 * s.jobq.q.length + 5 * (left + 1) +
      (Finset.range s.nthreads).sum (fun i => (s.workers i).cost) + before + (s.nthreads + 3) := by
    unfold remaining
    rw [now]
    omega
  cases result with
  | none =>
      change 3 * jobq.q.length + 5 * (left + 1) +
        (Finset.range s.nthreads).sum (fun i => (s.workers i).cost) + jobq.awake +
        (s.nthreads + 2) < s.remaining
      rcases cost with ⟨-, same, awake⟩ | ⟨gave, -⟩
      · rw [same]
        omega
      · contradiction
  | some gave =>
      change 3 * jobq.q.length + 5 * left +
        (Finset.range s.nthreads).sum (fun i => (s.workers i).cost) + jobq.awake +
        (s.nthreads + 3) < s.remaining
      rcases cost with ⟨-, same, awake⟩ | ⟨-, longer, awake⟩
      · rw [same]
        omega
      · omega

theorem Closing.lowers {action : Action} (closing : Closing sz s)
    (taken : s.step action = some next) (worked : action.isWork = true) :
    next.remaining < s.remaining := by
  cases action with
  | takeJob i pick =>
      simp only [step] at taken
      split at taken
      · next taking =>
          split at taken
          · next inside =>
              rcases Option.map_eq_some_iff.mp taken with ⟨⟨jobq, result⟩, called, rfl⟩
              have away : s.workers i ≠ .waiting := by rw [taking]; simp
              have deqed := Fifo.deqed (closing.seated.outside_worker away) called
              exact remaining_took inside (Or.inl ⟨taking, rfl⟩) deqed.cost
          · contradiction
      · next waiting =>
          rcases Option.map_eq_some_iff.mp taken with ⟨⟨jobq, result⟩, called, rfl⟩
          rcases Fifo.resumeDeqed called with ⟨nonEmptyC, woken, -, deqed⟩
          have inside := closing.inv.working.inside i (by rw [waiting]; simp)
          have counted : { s.jobq with nonEmptyC }.awake + 1 = s.jobq.awake := by
            simp only [Fifo.awake]
            omega
          exact remaining_took inside (Or.inr ⟨waiting, counted⟩) deqed.cost
      · contradiction
      · contradiction
  | finish i =>
      simp only [step] at taken
      split at taken
      · next k running =>
          cases taken
          have inside := closing.inv.working.inside i (by rw [running]; simp)
          have sum := sum_setWorker inside .taking
          have before : (s.workers i).cost = 2 := by rw [running]; rfl
          have after : Worker.taking.cost = 1 := rfl
          change 3 * s.jobq.q.length + 5 * s.pillsLeft +
            (Finset.range s.nthreads).sum (fun j => ((s.setWorker i .taking).workers j).cost) +
            s.jobq.awake + s.destructor.cost s.nthreads < s.remaining
          unfold remaining
          omega
      · contradiction
  | addJob pick =>
      simp only [step, closing.started, if_false] at taken
      contradiction
  | addAgain k pick =>
      have nobody : k ∉ s.blocked := by
        rw [closing.inv.queued.quiet closing.started]
        exact Finset.notMem_empty k
      simp only [step, nobody, if_false] at taken
      contradiction
  | destroy =>
      simp only [step, closing.started, false_and, if_false] at taken
      contradiction
  | poison pick =>
      simp only [step] at taken
      split at taken
      · next poisoning =>
          cases taken
          simp only [remaining, pillsLeft, poisoning, Destructor.cost]
          omega
      · next left poisoning =>
          rcases Option.map_eq_some_iff.mp taken with ⟨⟨jobq, result⟩, called, rfl⟩
          have outside := closing.seated.outside_destructor (by rw [poisoning]; simp)
          have enqed := Fifo.enqed outside called
          exact remaining_gavePill (Or.inl ⟨poisoning, rfl⟩) enqed.cost
      · next left blocked =>
          rcases Option.map_eq_some_iff.mp taken with ⟨⟨jobq, result⟩, called, rfl⟩
          rcases Fifo.resumeEnqed called with ⟨hasSpaceC, woken, -, enqed⟩
          have counted : { s.jobq with hasSpaceC }.awake + 1 = s.jobq.awake := by
            simp only [Fifo.awake]
            omega
          exact remaining_gavePill (Or.inr ⟨blocked, counted⟩) enqed.cost
      · contradiction
  | join =>
      simp only [step] at taken
      split at taken
      · next i joining =>
          split at taken
          · next inside =>
              split at taken
              · cases taken
                simp only [remaining, pillsLeft, joining, Destructor.cost]
                omega
              · contradiction
          · cases taken
            simp only [remaining, pillsLeft, joining, Destructor.cost]
            omega
      · contradiction
  | spurious thread => contradiction

/-- A wakeup without a signal costs one more step. -/
theorem remaining_spurious {thread : PoolThread} (taken : s.step (.spurious thread) = some next) :
    next.remaining ≤ s.remaining + 1 := by
  have awake : ∀ jobq, next = { s with jobq } → jobq.q = s.jobq.q →
      jobq.awake ≤ s.jobq.awake + 1 → next.remaining ≤ s.remaining + 1 := by
    intro jobq same q more
    subst same
    change 3 * jobq.q.length + 5 * s.pillsLeft +
      (Finset.range s.nthreads).sum (fun j => (s.workers j).cost) + jobq.awake +
      s.destructor.cost s.nthreads ≤ s.remaining + 1
    unfold remaining
    rw [q]
    omega
  cases thread with
  | worker i =>
      rcases Option.map_eq_some_iff.mp taken with ⟨jobq, woken, same⟩
      rcases Option.map_eq_some_iff.mp woken with ⟨nonEmptyC, moved, rfl⟩
      have more := SignalVar.card_spurious moved
      exact awake _ same.symm rfl (by simp only [Fifo.awake]; omega)
  | adder k | destructor =>
      rcases Option.map_eq_some_iff.mp taken with ⟨jobq, woken, same⟩
      rcases Option.map_eq_some_iff.mp woken with ⟨hasSpaceC, moved, rfl⟩
      have more := SignalVar.card_spurious moved
      exact awake _ same.symm rfl (by simp only [Fifo.awake]; omega)

/-! ## Somebody can always go on -/

/-- A worker that has not exited, while there is something to take or the worker is not
waiting, means that some worker can go on. -/
theorem Closing.worker_goes_on (closing : Closing sz s) (inside : i < s.nthreads)
    (alive : s.workers i ≠ .exited) (some : s.workers i = .waiting → s.jobq.q ≠ []) :
    ∃ action, action.isWork = true ∧ s.step action ≠ none := by
  cases phase : s.workers i with
  | taking =>
      rcases s.jobq.exists_deq (.worker i) with ⟨pick, outcome, called⟩
      refine ⟨.takeJob i pick, rfl, ?_⟩
      simp [step, phase, inside, called]
  | running k => exact ⟨.finish i, rfl, by simp [step, phase]⟩
  | exited => contradiction
  | waiting =>
      have seat : s.jobq.nonEmptyC.toCondVar.Inside (.worker i) :=
        (closing.seated.takers _).mpr ⟨i, rfl, phase⟩
      -- whoever was signalled for the value in the queue can take it
      have woken : ∃ t, t ∈ s.jobq.nonEmptyC.woken := by
        rcases seat with waits | woken
        · rcases closing.inv.queued.fifo.sound.consumers (some phase) ⟨_, waits⟩ with ⟨t, signalled⟩
          exact ⟨t, s.jobq.nonEmptyC.awake signalled⟩
        · exact ⟨_, woken⟩
      rcases woken with ⟨t, woken⟩
      rcases (closing.seated.takers t).mp (Or.inr woken) with ⟨j, rfl, waits⟩
      rcases SignalVar.exists_resume woken with ⟨nonEmptyC, resumed⟩
      rcases ({ s.jobq with nonEmptyC }).exists_deq (.worker j) with ⟨pick, outcome, called⟩
      refine ⟨.takeJob j pick, rfl, ?_⟩
      simp [step, waits, Fifo.resumeDeq, resumed, called]

theorem count_exited (working : Working s) (fewer : s.poisoned.length < s.nthreads) :
    ∃ i < s.nthreads, s.workers i ≠ .exited := by
  by_contra none
  have all : Finset.range s.nthreads ⊆ s.poisoned.toFinset := by
    intro i member
    rw [List.mem_toFinset, working.exits]
    by_contra alive
    exact none ⟨i, Finset.mem_range.mp member, alive⟩
  have count := Finset.card_le_card all
  rw [Finset.card_range, List.toFinset_card_of_nodup working.once] at count
  omega

theorem count_pills (jobs : List Nat) (pills : Nat) :
    (jobsThenPills jobs pills).count none = pills := by
  rw [jobsThenPills, List.count_append, List.count_replicate_self]
  have absent : (jobs.map some).count none = 0 := List.count_eq_zero.mpr (by simp)
  omega

/-- The pills that were taken are among those that were given. -/
theorem Inv.poisoned_le (inv : Inv sz s) : s.poisoned.length ≤ s.pills := by
  have taken := inv.queued.dequeued.sublist.count_le none
  rwa [inv.working.pills, count_pills] at taken

/-- When the queue is empty all pills were taken. -/
theorem Inv.poisoned_all (inv : Inv sz s) (empty : s.jobq.q = []) :
    s.poisoned.length = s.pills := by
  have whole := inv.queued.fifo.whole
  rw [empty, List.append_nil, inv.queued.enqueued] at whole
  rw [← inv.working.pills, whole, count_pills]

/-- The destructor waits for a place in the queue. -/
theorem Closing.blocked_goes_on (closing : Closing sz s) (blocked : s.destructor = .blocked left) :
    ∃ action, action.isWork = true ∧ s.step action ≠ none := by
  have seat : s.jobq.hasSpaceC.toCondVar.Inside .destructor :=
    (closing.seated.givers _).mpr (Or.inr ⟨rfl, left, blocked⟩)
  have alone (t : PoolThread) (inside : s.jobq.hasSpaceC.toCondVar.Inside t) :
      t = .destructor := by
    rcases (closing.seated.givers t).mp inside with ⟨k, member, -⟩ | ⟨same, -⟩
    · rw [closing.inv.queued.quiet closing.started] at member
      exact absurd member (Finset.notMem_empty k)
    · exact same
  by_cases woken : .destructor ∈ s.jobq.hasSpaceC.woken
  · rcases SignalVar.exists_resume woken with ⟨hasSpaceC, resumed⟩
    rcases ({ s.jobq with hasSpaceC }).exists_enq .destructor none true with
      ⟨pick, outcome, called⟩
    refine ⟨.poison pick, rfl, ?_⟩
    simp [step, blocked, Fifo.resumeEnq, resumed, called]
  · -- nobody was signalled, so the queue is full
    have waits : s.jobq.hasSpaceC.waiting.Nonempty := ⟨_, seat.resolve_right woken⟩
    have full : s.jobq.q ≠ [] := by
      intro empty
      have space : s.jobq.max = 0 ∨ s.jobq.q.length < s.jobq.max := by
        rw [empty, List.length_nil]
        exact Nat.eq_zero_or_pos _
      rcases closing.inv.queued.fifo.sound.producers space waits with ⟨t, signalled⟩
      have awake := s.jobq.hasSpaceC.awake signalled
      rw [alone t (Or.inr awake)] at awake
      exact woken awake
    have fewer : s.poisoned.length < s.nthreads := by
      have given := closing.inv.poisoned_le
      have more := closing.inv.queued.more left blocked
      simp only [pills, blocked] at given
      omega
    rcases count_exited closing.inv.working fewer with ⟨i, inside, alive⟩
    exact closing.worker_goes_on inside alive fun _ => full

theorem Closing.goes_on (closing : Closing sz s) (unfinished : s.destructor ≠ .returned) :
    ∃ action, action.isWork = true ∧ s.step action ≠ none := by
  cases phase : s.destructor with
  | notStarted => exact absurd phase closing.started
  | returned => exact absurd phase unfinished
  | blocked left => exact closing.blocked_goes_on phase
  | poisoning left =>
      cases left with
      | zero => exact ⟨.poison .destructor, rfl, by simp [step, phase]⟩
      | succ left =>
          rcases s.jobq.exists_enq .destructor none true with ⟨pick, outcome, called⟩
          exact ⟨.poison pick, rfl, by simp [step, phase, called]⟩
  | joining i =>
      by_cases inside : i < s.nthreads
      · by_cases exited : s.workers i = .exited
        · exact ⟨.join, rfl, by simp [step, phase, inside, exited]⟩
        · apply closing.worker_goes_on inside exited
          intro _ empty
          -- then all pills were taken, and each worker has exited
          have all := closing.inv.poisoned_all empty
          simp only [pills, phase] at all
          have member : i ∈ s.poisoned := by
            have within : s.poisoned.toFinset ⊆ Finset.range s.nthreads := by
              intro j poisoned
              rw [List.mem_toFinset, closing.inv.working.exits] at poisoned
              exact Finset.mem_range.mpr (closing.inv.working.inside j (by rw [poisoned]; simp))
            have same : s.poisoned.toFinset = Finset.range s.nthreads := by
              apply Finset.eq_of_subset_of_card_le within
              rw [Finset.card_range, List.toFinset_card_of_nodup closing.inv.working.once, all]
            rw [← List.mem_toFinset, same]
            exact Finset.mem_range.mpr inside
          exact exited ((closing.inv.working.exits i).mp member)
      · exact ⟨.join, rfl, by simp [step, phase, inside]⟩

/-! ## The shutdown -/

theorem started_step {action : Action} (started : s.destructor ≠ .notStarted)
    (taken : s.step action = some next) : next.destructor ≠ .notStarted := by
  cases action with
  | takeJob i pick =>
      simp only [step] at taken
      split at taken
      · split at taken
        · rcases Option.map_eq_some_iff.mp taken with ⟨⟨jobq, result⟩, -, rfl⟩
          rw [(took_fields _ _ jobq result).2.2.2.1]
          exact started
        · contradiction
      · rcases Option.map_eq_some_iff.mp taken with ⟨⟨jobq, result⟩, -, rfl⟩
        rw [(took_fields _ _ jobq result).2.2.2.1]
        exact started
      · contradiction
      · contradiction
  | finish i =>
      simp only [step] at taken
      split at taken
      · cases taken
        exact started
      · contradiction
  | addJob pick =>
      simp only [step, started, if_false] at taken
      contradiction
  | addAgain k pick =>
      simp only [step] at taken
      split at taken
      · rcases Option.map_eq_some_iff.mp taken with ⟨⟨jobq, result⟩, -, rfl⟩
        rw [(added_fields _ _ jobq result).2.2.2]
        exact started
      · contradiction
  | destroy =>
      simp only [step, started, false_and, if_false] at taken
      contradiction
  | poison pick =>
      simp only [step] at taken
      split at taken
      · cases taken
        simp
      · rcases Option.map_eq_some_iff.mp taken with ⟨⟨jobq, result⟩, -, rfl⟩
        cases result <;> simp [gavePill]
      · rcases Option.map_eq_some_iff.mp taken with ⟨⟨jobq, result⟩, -, rfl⟩
        cases result <;> simp [gavePill]
      · contradiction
  | join =>
      simp only [step] at taken
      split at taken
      · split at taken
        · split at taken
          · cases taken
            simp
          · contradiction
        · cases taken
          simp
      · contradiction
  | spurious thread =>
      cases thread with
      | worker | adder | destructor =>
          rcases Option.map_eq_some_iff.mp taken with ⟨jobq, -, rfl⟩
          exact started

theorem closing_measured :
    (machine sz blocking).Measured Action.isWork (Closing sz) remaining 1 where
  kept _ _ _ closing taken :=
    ⟨inv_step closing.inv taken, closing.seated.step closing.inv.numbered taken,
      started_step closing.started taken⟩
  lowers _ _ _ closing taken worked := closing.lowers taken worked
  raises _ action _ _ taken idle := by
    cases action with
    | spurious thread => exact remaining_spurious taken
    | takeJob | finish | addJob | addAgain | destroy | poison | join => contradiction

theorem reachable_seated (reachable : (machine sz blocking).Reachable s) : Seated s :=
  reachable.invariant Seated seated_init fun _ _ _ before seated taken =>
    seated.step (reachable_inv before).numbered taken

/-- Once the destructor has started it returns: what is left takes at most `remaining` steps
and one more for each wakeup without a signal, and nothing stops it before. -/
theorem shutdown_completes (reachable : (machine sz blocking).Reachable s)
    (started : s.destructor ≠ .notStarted) :
    (machine sz blocking).Completes Action.isWork (fun s => s.destructor = .returned)
      s.remaining 1 s := by
  apply closing_measured.completes
  · intro state closing stuck
    by_contra unfinished
    rcases closing.goes_on unfinished with ⟨action, worked, goes⟩
    exact goes (stuck action worked)
  · exact ⟨reachable_inv reachable, reachable_seated reachable, started⟩

/-- The destructor starts while both workers run jobs. -/
def closeBusy : List Action :=
  [.addJob (.worker 0), .addJob (.worker 0), .takeJob 0 (.worker 0), .takeJob 1 (.worker 0),
    .destroy]

theorem shutdown_completes_closeBusy :
    ∃ s, (machine 2 true).Reachable s ∧ s.remaining = 19 ∧
      (machine 2 true).Completes Action.isWork (fun s => s.destructor = .returned) 19 1 s := by
  have run : ((machine 2 true).run (machine 2 true).initial closeBusy).map
      (fun s => (s.destructor, s.remaining)) = some (.poisoning 2, 19) := by decide +kernel
  rcases Option.map_eq_some_iff.mp run with ⟨s, taken, values⟩
  rcases Prod.mk.inj values with ⟨poisoning, remaining⟩
  have reachable := Machine.reachable_of_run taken
  have completes := shutdown_completes reachable (by rw [poisoning]; nofun)
  rw [remaining] at completes
  exact ⟨s, reachable, remaining, completes⟩

end ThrPool

end YfsRpc.Rpc
