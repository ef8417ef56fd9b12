import YfsRpc.Foundation.Assignment
import YfsRpc.Rpc.Fifo

/-! # The thread pool and its shutdown

The workers take jobs off the queue and run them without a lock. The destructor puts one
pill for each worker behind the jobs and joins the workers; a worker that takes a pill
exits. The calls of `addJob` are numbered, and their numbers stand for the jobs.
-/

namespace YfsRpc.Rpc

inductive PoolThread
  | worker (i : Nat)
  /-- the thread that makes a call of `addJob` -/
  | adder (k : Nat)
  | destructor
  deriving DecidableEq

/-- `job_t`, where a pill has no function. -/
abbrev PoolJob := Option Nat

namespace ThrPool

inductive Worker
  /-- before `takeJob` -/
  | taking
  /-- waiting in `takeJob` -/
  | waiting
  | running (k : Nat)
  | exited
  deriving DecidableEq

inductive Destructor
  | notStarted
  /-- so many pills are left -/
  | poisoning (left : Nat)
  /-- waiting in `enq`, with so many pills left afterwards -/
  | blocked (left : Nat)
  /-- before the join of a worker -/
  | joining (i : Nat)
  | returned
  deriving DecidableEq

/-- The job that the worker runs. -/
def Worker.job : Worker → Option Nat
  | running k => some k
  | taking | waiting | exited => none

end ThrPool

structure ThrPool where
  nthreads : Nat
  blockadd : Bool
  jobq : Fifo PoolThread PoolJob
  workers : Nat → ThrPool.Worker := fun _ => .taking
  /-- how often `addJob` was called -/
  calls : Nat := 0
  /-- the calls of `addJob` that wait -/
  blocked : Finset Nat := ∅
  destructor : ThrPool.Destructor := .notStarted
  /-- history: the jobs for which `addJob` returned true -/
  accepted : List Nat := []
  /-- history: the jobs for which `addJob` returned false -/
  refused : List Nat := []
  /-- history: the jobs that were run -/
  started : List Nat := []
  /-- history: the jobs whose function returned -/
  completed : List Nat := []
  /-- history: the workers that took a pill -/
  poisoned : List Nat := []

namespace ThrPool

/-- The constructor. The capacity is an `unsigned int`. -/
def init (sz : Nat) (blocking : Bool) : ThrPool where
  nthreads := sz
  blockadd := blocking
  jobq := { max := 100 * sz % 2 ^ 32 }

def setWorker (s : ThrPool) (i : Nat) (worker : Worker) : ThrPool :=
  { s with workers := Function.update s.workers i worker }

/-- `takeJob` waits, or the worker runs a job or exits. -/
def took (s : ThrPool) (i : Nat) : Fifo PoolThread PoolJob × Option PoolJob → ThrPool
  | (jobq, none) => { s.setWorker i .waiting with jobq }
  | (jobq, some none) => { s.setWorker i .exited with jobq, poisoned := s.poisoned ++ [i] }
  | (jobq, some (some k)) =>
      { s.setWorker i (.running k) with jobq, started := s.started ++ [k] }

/-- `addJob` waits or returns. -/
def added (s : ThrPool) (k : Nat) : Fifo PoolThread PoolJob × Option Bool → ThrPool
  | (jobq, none) => { s with jobq, blocked := insert k s.blocked }
  | (jobq, some true) =>
      { s with jobq, blocked := s.blocked.erase k, accepted := s.accepted ++ [k] }
  | (jobq, some false) =>
      { s with jobq, blocked := s.blocked.erase k, refused := s.refused ++ [k] }

/-- The destructor waits, or goes on with the next pill. -/
def gavePill (s : ThrPool) (left : Nat) : Fifo PoolThread PoolJob × Option Bool → ThrPool
  | (jobq, none) => { s with jobq, destructor := .blocked left }
  | (jobq, some _) => { s with jobq, destructor := .poisoning left }

inductive Action
  /-- a worker calls `takeJob`, or goes on in it after a wakeup -/
  | takeJob (i : Nat) (pick : PoolThread)
  /-- the function of a job returns -/
  | finish (i : Nat)
  | addJob (pick : PoolThread)
  /-- a call of `addJob` goes on after a wakeup -/
  | addAgain (k : Nat) (pick : PoolThread)
  | destroy
  /-- the destructor gives a pill, or goes on after a wakeup -/
  | poison (pick : PoolThread)
  | join
  | spurious (thread : PoolThread)

def step (s : ThrPool) : Action → Option ThrPool
  | .takeJob i pick =>
      match s.workers i with
      | .taking =>
          if i < s.nthreads then (s.jobq.deq (.worker i) pick).map (s.took i) else none
      | .waiting => (s.jobq.resumeDeq (.worker i) pick).map (s.took i)
      | .running _ | .exited => none
  | .finish i =>
      match s.workers i with
      | .running k => some { s.setWorker i .taking with completed := s.completed ++ [k] }
      | _ => none
  | .addJob pick =>
      if s.destructor = .notStarted then
        (s.jobq.enq (.adder s.calls) (some s.calls) s.blockadd pick).map
          ({ s with calls := s.calls + 1 }.added s.calls)
      else
        none
  | .addAgain k pick =>
      if k ∈ s.blocked then (s.jobq.resumeEnq (.adder k) (some k) pick).map (s.added k) else none
  | .destroy =>
      -- no call of `addJob` is left or will come
      if s.destructor = .notStarted ∧ s.blocked = ∅ then
        some { s with destructor := .poisoning s.nthreads }
      else
        none
  | .poison pick =>
      match s.destructor with
      | .poisoning 0 => some { s with destructor := .joining 0 }
      | .poisoning (left + 1) =>
          (s.jobq.enq .destructor none true pick).map (s.gavePill left)
      | .blocked left => (s.jobq.resumeEnq .destructor none pick).map (s.gavePill left)
      | _ => none
  | .join =>
      match s.destructor with
      | .joining i =>
          if i < s.nthreads then
            if s.workers i = .exited then some { s with destructor := .joining (i + 1) } else none
          else
            some { s with destructor := .returned }
      | _ => none
  | .spurious thread =>
      match thread with
      | .worker _ => (s.jobq.spuriousDeq thread).map fun jobq => { s with jobq }
      | .adder _ | .destructor => (s.jobq.spuriousEnq thread).map fun jobq => { s with jobq }

def machine (sz : Nat) (blocking : Bool) : Machine ThrPool Action where
  initial := init sz blocking
  step := step

/-- Each accepted job was run once, to its end, no refused one was, and each worker took
one pill and exited. -/
structure Finished (s : ThrPool) : Prop where
  accepted : ∀ k ∈ s.accepted, s.started.count k = 1 ∧ s.completed.count k = 1
  refused : ∀ k ∈ s.refused, k ∉ s.started
  workers : ∀ i < s.nthreads, s.workers i = .exited ∧ s.poisoned.count i = 1

/-! ## Jobs and pills in the queue -/

/-- What was put into the queue: all jobs, and then pills. -/
def jobsThenPills (jobs : List Nat) (pills : Nat) : List PoolJob :=
  jobs.map some ++ List.replicate pills none

theorem jobsThenPills_job (jobs : List Nat) (k : Nat) :
    jobsThenPills jobs 0 ++ [some k] = jobsThenPills (jobs ++ [k]) 0 := by
  simp [jobsThenPills]

theorem jobsThenPills_pill (jobs : List Nat) (pills : Nat) :
    jobsThenPills jobs pills ++ [none] = jobsThenPills jobs (pills + 1) := by
  simp [jobsThenPills, List.replicate_succ']

theorem filterMap_jobsThenPills (jobs : List Nat) (pills : Nat) :
    (jobsThenPills jobs pills).filterMap id = jobs := by
  simp [jobsThenPills, List.filterMap_append, List.filterMap_map]

/-- Behind the first pill that is taken, no job is left. -/
theorem jobs_of_pill {jobs : List Nat} {pills : Nat} {taken : List PoolJob}
    (first : taken <+: jobsThenPills jobs pills) (pill : none ∈ taken) :
    taken.filterMap id = jobs := by
  induction jobs generalizing taken with
  | nil =>
      have none (job : PoolJob) (member : job ∈ taken) : job = none :=
        List.eq_of_mem_replicate (first.subset member)
      refine List.filterMap_eq_nil_iff.mpr fun job member => ?_
      rw [none job member]
      rfl
  | cons k jobs induction =>
      cases taken with
      | nil => contradiction
      | cons job taken =>
          rcases List.cons_prefix_cons.mp first with ⟨rfl, rest⟩
          have later : none ∈ taken := by simpa using pill
          exact congrArg (k :: ·) (induction rest later)

/-! ## The invariant -/

/-- How many pills the destructor has given. -/
def pills (s : ThrPool) : Nat :=
  match s.destructor with
  | .notStarted => 0
  | .poisoning left => s.nthreads - left
  | .blocked left => s.nthreads - (left + 1)
  | .joining _ | .returned => s.nthreads

/-- The calls of `addJob` have numbers of their own. -/
structure Numbered (s : ThrPool) : Prop where
  waiting : ∀ k ∈ s.blocked, k < s.calls ∧ k ∉ s.accepted ∧ k ∉ s.refused
  accepted : ∀ k ∈ s.accepted, k < s.calls ∧ k ∉ s.refused
  refused : ∀ k ∈ s.refused, k < s.calls
  once : s.accepted.Nodup

/-- The jobs were put into the queue before the pills. -/
structure Queued (s : ThrPool) : Prop where
  fifo : s.jobq.Inv
  enqueued : s.jobq.enqueued = jobsThenPills s.accepted s.pills
  quiet : s.destructor ≠ .notStarted → s.blocked = ∅
  left : ∀ left, s.destructor = .poisoning left → left ≤ s.nthreads
  more : ∀ left, s.destructor = .blocked left → left < s.nthreads

/-- What was taken out of the queue was run, or ended a worker. -/
structure Working (s : ThrPool) : Prop where
  assigned : Assigned (fun i => (s.workers i).job) s.started s.completed
  started : s.jobq.dequeued.filterMap id = s.started
  pills : s.jobq.dequeued.count none = s.poisoned.length
  exits : ∀ i, i ∈ s.poisoned ↔ s.workers i = .exited
  once : s.poisoned.Nodup
  inside : ∀ i, s.workers i ≠ .taking → i < s.nthreads

/-- The destructor has joined the workers before this one. -/
structure Joined (s : ThrPool) : Prop where
  some : ∀ i, s.destructor = .joining i → ∀ j < i, s.workers j = .exited
  all : s.destructor = .returned → ∀ j < s.nthreads, s.workers j = .exited

structure Inv (sz : Nat) (s : ThrPool) : Prop where
  size : s.nthreads = sz
  numbered : Numbered s
  queued : Queued s
  working : Working s
  joined : Joined s

variable {s next : ThrPool} {sz i j k left : Nat} {blocking : Bool} {worker : Worker}
  {jobq : Fifo PoolThread PoolJob}

theorem init_inv : Inv sz (init sz blocking) where
  size := rfl
  numbered := ⟨nofun, nofun, nofun, List.nodup_nil⟩
  queued := ⟨Fifo.inv_init _, rfl, fun started => absurd rfl started, nofun, nofun⟩
  working := ⟨Assigned.nobody fun _ => rfl, rfl, rfl, fun _ => ⟨nofun, nofun⟩, List.nodup_nil,
    fun _ other => absurd rfl other⟩
  joined := ⟨nofun, nofun⟩

theorem Queued.dequeued (queued : Queued s) :
    s.jobq.dequeued <+: jobsThenPills s.accepted s.pills :=
  ⟨s.jobq.q, queued.fifo.whole.trans queued.enqueued⟩

/-! ## What a step leaves as it was -/

theorem Numbered.same (numbered : Numbered s) (calls : s.calls ≤ next.calls)
    (blocked : next.blocked = s.blocked) (accepted : next.accepted = s.accepted)
    (refused : next.refused = s.refused) : Numbered next where
  waiting := by
    rw [blocked, accepted, refused]
    exact fun k waits => (numbered.waiting k waits).imp_left fun lt => lt.trans_le calls
  accepted := by
    rw [accepted, refused]
    exact fun k took => (numbered.accepted k took).imp_left fun lt => lt.trans_le calls
  refused := by
    rw [refused]
    exact fun k failed => (numbered.refused k failed).trans_le calls
  once := by
    rw [accepted]
    exact numbered.once

theorem Queued.same (queued : Queued s) (fifo : next.jobq.Inv)
    (enqueued : next.jobq.enqueued = s.jobq.enqueued) (nthreads : next.nthreads = s.nthreads)
    (destructor : next.destructor = s.destructor) (blocked : next.blocked = s.blocked)
    (accepted : next.accepted = s.accepted) : Queued next where
  fifo := fifo
  enqueued := by
    have pills : next.pills = s.pills := by
      unfold ThrPool.pills
      rw [destructor, nthreads]
    rw [enqueued, queued.enqueued, accepted, pills]
  quiet := by
    rw [destructor, blocked]
    exact queued.quiet
  left := by
    rw [destructor, nthreads]
    exact queued.left
  more := by
    rw [destructor, nthreads]
    exact queued.more

/-- The values that were taken are the same. -/
theorem Working.same (working : Working s) (nthreads : next.nthreads = s.nthreads)
    (workers : next.workers = s.workers) (dequeued : next.jobq.dequeued = s.jobq.dequeued)
    (started : next.started = s.started) (completed : next.completed = s.completed)
    (poisoned : next.poisoned = s.poisoned) : Working next where
  assigned := by
    rw [workers, started, completed]
    exact working.assigned
  started := by rw [dequeued, started, working.started]
  pills := by rw [dequeued, poisoned, working.pills]
  exits := by
    rw [poisoned, workers]
    exact working.exits
  once := by
    rw [poisoned]
    exact working.once
  inside := by
    rw [workers, nthreads]
    exact working.inside

/-- The workers that have exited stay so. -/
theorem Joined.same (joined : Joined s) (destructor : next.destructor = s.destructor)
    (nthreads : next.nthreads = s.nthreads)
    (exited : ∀ j, s.workers j = .exited → next.workers j = .exited) : Joined next where
  some := by
    rw [destructor]
    exact fun i joining j before => exited j (joined.some i joining j before)
  all := by
    rw [destructor, nthreads]
    exact fun returned j inside => exited j (joined.all returned j inside)

/-! ## What a worker does -/

@[simp]
theorem setWorker_here : (s.setWorker i worker).workers i = worker :=
  Function.update_self ..

@[simp]
theorem setWorker_other (differs : j ≠ i) : (s.setWorker i worker).workers j = s.workers j :=
  Function.update_of_ne differs ..

/-- The worker is in `takeJob` or before it. -/
def Worker.Idle (worker : Worker) : Prop := worker = .taking ∨ worker = .waiting

theorem Worker.Idle.job (idle : worker.Idle) : worker.job = none := by
  rcases idle with rfl | rfl <;> rfl

theorem Worker.Idle.alive (idle : worker.Idle) : worker ≠ .exited := by
  rcases idle with rfl | rfl <;> nofun

/-- A worker that lives on does not take a pill. -/
theorem Working.exits_update (working : Working s) (was : s.workers i ≠ .exited)
    (is : worker ≠ .exited) (j : Nat) :
    j ∈ s.poisoned ↔ (s.setWorker i worker).workers j = .exited := by
  rw [working.exits j]
  by_cases same : j = i
  · rw [same, setWorker_here]
    exact iff_of_false was is
  · rw [setWorker_other same]

theorem Working.inside_update (working : Working s) (inside : i < s.nthreads) (j : Nat)
    (other : (s.setWorker i worker).workers j ≠ .taking) : j < s.nthreads := by
  by_cases same : j = i
  · rwa [same]
  · rw [setWorker_other same] at other
    exact working.inside j other

theorem Working.holds_update (was : (s.workers i).job = worker.job) (j : Nat) :
    ((s.setWorker i worker).workers j).job = (s.workers j).job := by
  by_cases same : j = i
  · rw [same, setWorker_here, was]
  · rw [setWorker_other same]

theorem exited_update (was : s.workers i ≠ .exited) (j : Nat) (exited : s.workers j = .exited) :
    (s.setWorker i worker).workers j = .exited := by
  have differs : j ≠ i := by
    rintro rfl
    exact was exited
  rw [setWorker_other differs, exited]

/-- The job that comes next was not started before. -/
theorem Inv.fresh (inv : Inv sz s) (fifo : jobq.Inv)
    (enqueued : jobq.enqueued = s.jobq.enqueued)
    (dequeued : jobq.dequeued = s.jobq.dequeued ++ [some k]) : k ∉ s.started := by
  have queued : Queued { s with jobq } := inv.queued.same fifo enqueued rfl rfl rfl rfl
  have first := queued.dequeued.filterMap id
  rw [dequeued, List.filterMap_append, inv.working.started, filterMap_jobsThenPills] at first
  have once : (s.started ++ [k]).Nodup := inv.numbered.once.sublist first.sublist
  exact fun old => (List.nodup_append.mp once).2.2 k old k (List.mem_singleton_self k) rfl

theorem Working.took (working : Working s) (inside : i < s.nthreads)
    (idle : (s.workers i).Idle) {result : Option PoolJob}
    (fresh : ∀ k, result = some (some k) → k ∉ s.started)
    (dequeued : (result = none ∧ jobq.dequeued = s.jobq.dequeued) ∨
      ∃ job, result = some job ∧ jobq.dequeued = s.jobq.dequeued ++ [job]) :
    Working (s.took i (jobq, result)) := by
  rcases dequeued with ⟨rfl, dequeued⟩ | ⟨job, rfl, dequeued⟩
  · exact {
      assigned := working.assigned.same (Working.holds_update idle.job)
      started := by
        change jobq.dequeued.filterMap id = s.started
        rw [dequeued, working.started]
      pills := by
        change jobq.dequeued.count none = s.poisoned.length
        rw [dequeued, working.pills]
      exits := working.exits_update idle.alive nofun
      once := working.once
      inside := working.inside_update inside }
  · cases job with
    | none =>
        have new : i ∉ s.poisoned := fun old => idle.alive ((working.exits i).mp old)
        exact {
          assigned := working.assigned.same (Working.holds_update idle.job)
          started := by
            change jobq.dequeued.filterMap id = s.started
            rw [dequeued, List.filterMap_append, working.started]
            exact List.append_nil _
          pills := by
            change jobq.dequeued.count none = (s.poisoned ++ [i]).length
            rw [dequeued, List.count_append, working.pills, List.length_append]
            rfl
          exits := by
            intro j
            change j ∈ s.poisoned ++ [i] ↔ (s.setWorker i .exited).workers j = .exited
            rw [List.mem_append, List.mem_singleton, working.exits j]
            by_cases same : j = i
            · rw [same, setWorker_here]
              exact iff_of_true (Or.inr rfl) rfl
            · rw [setWorker_other same, or_iff_left same]
          once := List.nodup_append.mpr ⟨working.once, List.nodup_singleton i, by
            intro old member j same
            rw [List.mem_singleton.mp same]
            rintro rfl
            exact new member⟩
          inside := working.inside_update inside }
    | some k =>
        exact {
          assigned := working.assigned.take idle.job (fresh k rfl)
            (congrArg Worker.job setWorker_here)
            fun j differs => congrArg Worker.job (setWorker_other differs)
          started := by
            change jobq.dequeued.filterMap id = s.started ++ [k]
            rw [dequeued, List.filterMap_append, working.started]
            rfl
          pills := by
            change jobq.dequeued.count none = s.poisoned.length
            rw [dequeued, List.count_append, working.pills]
            rfl
          exits := working.exits_update idle.alive nofun
          once := working.once
          inside := working.inside_update inside }

theorem Inv.took (inv : Inv sz s) (inside : i < s.nthreads) (idle : (s.workers i).Idle)
    {result : Option PoolJob} (fifo : jobq.Inv) (enqueued : jobq.enqueued = s.jobq.enqueued)
    (dequeued : (result = none ∧ jobq.dequeued = s.jobq.dequeued) ∨
      ∃ job, result = some job ∧ jobq.dequeued = s.jobq.dequeued ++ [job]) :
    Inv sz (s.took i (jobq, result)) := by
  have working : Working (s.took i (jobq, result)) := by
    refine inv.working.took inside idle ?_ dequeued
    rintro k rfl
    rcases dequeued with ⟨none, -⟩ | ⟨job, same, dequeued⟩
    · contradiction
    · cases same
      exact inv.fresh fifo enqueued dequeued
  rcases result with _ | _ | k
  all_goals
    exact ⟨inv.size, inv.numbered.same (Nat.le_refl _) rfl rfl rfl,
      inv.queued.same fifo enqueued rfl rfl rfl rfl, working,
      inv.joined.same rfl rfl (exited_update idle.alive)⟩

theorem Inv.finish (inv : Inv sz s) (running : s.workers i = .running k) :
    Inv sz { s.setWorker i .taking with completed := s.completed ++ [k] } := by
  have alive : s.workers i ≠ .exited := by
    rw [running]
    nofun
  have inside : i < s.nthreads := inv.working.inside i (by rw [running]; nofun)
  have working : Working { s.setWorker i .taking with completed := s.completed ++ [k] } := {
    assigned := inv.working.assigned.finish (congrArg Worker.job running)
      (congrArg Worker.job setWorker_here)
      fun j differs => congrArg Worker.job (setWorker_other differs)
    started := inv.working.started
    pills := inv.working.pills
    exits := inv.working.exits_update alive nofun
    once := inv.working.once
    inside := inv.working.inside_update inside }
  exact ⟨inv.size, inv.numbered.same (Nat.le_refl _) rfl rfl rfl,
    inv.queued.same inv.queued.fifo rfl rfl rfl rfl rfl, working,
    inv.joined.same rfl rfl (exited_update alive)⟩

/-! ## What `addJob` and the destructor do -/

/-- The calls of `addJob` are counted. -/
theorem Inv.called (inv : Inv sz s) : Inv sz { s with calls := s.calls + 1 } where
  size := inv.size
  numbered := inv.numbered.same (Nat.le_succ _) rfl rfl rfl
  queued := inv.queued.same inv.queued.fifo rfl rfl rfl rfl rfl
  working := inv.working.same rfl rfl rfl rfl rfl rfl
  joined := inv.joined.same rfl rfl fun _ => id

/-- A call of `addJob` that has not returned. -/
structure Numbered.Pending (s : ThrPool) (k : Nat) : Prop where
  lt : k < s.calls
  accepted : k ∉ s.accepted
  refused : k ∉ s.refused

theorem Numbered.added (numbered : Numbered s) (pending : Numbered.Pending s k)
    (result : Option Bool) : Numbered (s.added k (jobq, result)) := by
  have others {j : Nat} (member : j ∈ s.blocked.erase k) := Finset.mem_erase.mp member
  rcases result with _ | _ | _
  · refine ⟨fun j waits => ?_, numbered.accepted, numbered.refused, numbered.once⟩
    rcases Finset.mem_insert.mp waits with rfl | old
    · exact ⟨pending.lt, pending.accepted, pending.refused⟩
    · exact numbered.waiting j old
  · constructor
    · intro j waits
      rcases numbered.waiting j (others waits).2 with ⟨lt, accepted, refused⟩
      refine ⟨lt, accepted, fun failed => ?_⟩
      rcases List.mem_append.mp failed with old | new
      · exact refused old
      · exact (others waits).1 (List.mem_singleton.mp new)
    · intro j took
      rcases numbered.accepted j took with ⟨lt, refused⟩
      refine ⟨lt, fun failed => ?_⟩
      rcases List.mem_append.mp failed with old | new
      · exact refused old
      · rw [List.mem_singleton.mp new] at took
        exact pending.accepted took
    · intro j failed
      rcases List.mem_append.mp failed with old | new
      · exact numbered.refused j old
      · rw [List.mem_singleton.mp new]
        exact pending.lt
    · exact numbered.once
  · constructor
    · intro j waits
      rcases numbered.waiting j (others waits).2 with ⟨lt, accepted, refused⟩
      refine ⟨lt, fun took => ?_, refused⟩
      rcases List.mem_append.mp took with old | new
      · exact accepted old
      · exact (others waits).1 (List.mem_singleton.mp new)
    · intro j took
      rcases List.mem_append.mp took with old | new
      · exact numbered.accepted j old
      · rw [List.mem_singleton.mp new]
        exact ⟨pending.lt, pending.refused⟩
    · exact numbered.refused
    · refine List.nodup_append.mpr ⟨numbered.once, List.nodup_singleton k, ?_⟩
      intro old member j same
      rw [List.mem_singleton.mp same]
      rintro rfl
      exact pending.accepted member

theorem Inv.added (inv : Inv sz s) (early : s.destructor = .notStarted)
    (pending : Numbered.Pending s k) {result : Option Bool} (fifo : jobq.Inv)
    (dequeued : jobq.dequeued = s.jobq.dequeued)
    (enqueued : (result = some true ∧ jobq.enqueued = s.jobq.enqueued ++ [some k]) ∨
      (result ≠ some true ∧ jobq.enqueued = s.jobq.enqueued)) :
    Inv sz (s.added k (jobq, result)) := by
  have numbered : Numbered (s.added k (jobq, result)) := inv.numbered.added pending result
  have none : s.pills = 0 := by simp only [ThrPool.pills, early]
  have after : jobq.enqueued = jobsThenPills (s.added k (jobq, result)).accepted s.pills := by
    rcases enqueued with ⟨rfl, enqueued⟩ | ⟨never, enqueued⟩
    · rw [enqueued, inv.queued.enqueued, none]
      exact jobsThenPills_job s.accepted k
    · rw [enqueued, inv.queued.enqueued]
      rcases result with _ | _ | _
      · rfl
      · rfl
      · exact absurd rfl never
  rcases result with _ | _ | _
  all_goals
    exact ⟨inv.size, numbered, ⟨fifo, after, fun later => absurd early later, inv.queued.left,
      inv.queued.more⟩, inv.working.same rfl rfl dequeued rfl rfl rfl,
      inv.joined.same rfl rfl fun _ => id⟩

/-- The destructor gives one of the pills that are left. -/
theorem Inv.gavePill (inv : Inv sz s) (pills : s.pills = s.nthreads - (left + 1))
    (inside : left < s.nthreads) (late : s.destructor ≠ .notStarted) {result : Option Bool}
    (fifo : jobq.Inv) (dequeued : jobq.dequeued = s.jobq.dequeued)
    (enqueued : (result = some true ∧ jobq.enqueued = s.jobq.enqueued ++ [none]) ∨
      (result = none ∧ jobq.enqueued = s.jobq.enqueued)) :
    Inv sz (s.gavePill left (jobq, result)) := by
  have numbered : Numbered (s.gavePill left (jobq, result)) := by
    rcases result with _ | _
    all_goals exact inv.numbered.same (Nat.le_refl _) rfl rfl rfl
  have before := inv.queued.enqueued
  rw [pills] at before
  rcases enqueued with ⟨rfl, enqueued⟩ | ⟨rfl, enqueued⟩
  · refine ⟨inv.size, numbered, ⟨fifo, ?_, fun _ => inv.queued.quiet late, ?_, nofun⟩,
      inv.working.same rfl rfl dequeued rfl rfl rfl, ⟨nofun, nofun⟩⟩
    · change jobq.enqueued = jobsThenPills s.accepted (s.nthreads - left)
      rw [enqueued, before, jobsThenPills_pill]
      congr 1
      omega
    · intro others same
      cases same
      exact inside.le
  · refine ⟨inv.size, numbered, ⟨fifo, ?_, fun _ => inv.queued.quiet late, nofun, ?_⟩,
      inv.working.same rfl rfl dequeued rfl rfl rfl, ⟨nofun, nofun⟩⟩
    · change jobq.enqueued = jobsThenPills s.accepted (s.nthreads - (left + 1))
      rw [enqueued, before]
    · intro others same
      cases same
      exact inside

/-- The destructor goes on without the queue. -/
theorem Inv.goOn {destructor : Destructor} (inv : Inv sz s)
    (pills : { s with destructor }.pills = s.pills)
    (quiet : s.blocked = ∅) (left : ∀ left, destructor = .poisoning left → left ≤ s.nthreads)
    (more : ∀ left, destructor ≠ .blocked left) (joined : Joined { s with destructor }) :
    Inv sz { s with destructor } where
  size := inv.size
  numbered := inv.numbered.same (Nat.le_refl _) rfl rfl rfl
  queued := ⟨inv.queued.fifo, by rw [pills]; exact inv.queued.enqueued, fun _ => quiet, left,
    fun left same => absurd same (more left)⟩
  working := inv.working.same rfl rfl rfl rfl rfl rfl
  joined := joined

/-- A thread wakes without a signal. -/
theorem Inv.woken (inv : Inv sz s) (fifo : jobq.Inv)
    (history : jobq.enqueued = s.jobq.enqueued ∧ jobq.dequeued = s.jobq.dequeued) :
    Inv sz { s with jobq } where
  size := inv.size
  numbered := inv.numbered.same (Nat.le_refl _) rfl rfl rfl
  queued := inv.queued.same fifo history.1 rfl rfl rfl rfl
  working := inv.working.same rfl rfl history.2 rfl rfl rfl
  joined := inv.joined.same rfl rfl fun _ => id

/-! ## Runs -/

theorem inv_takeJob {pick : PoolThread} (inv : Inv sz s)
    (taken : s.step (.takeJob i pick) = some next) : Inv sz next := by
  simp only [step] at taken
  split at taken
  · next taking =>
      split at taken
      · next inside =>
          rcases Option.map_eq_some_iff.mp taken with ⟨⟨jobq, result⟩, called, rfl⟩
          rcases Fifo.deq_history called with ⟨enqueued, dequeued⟩
          exact inv.took inside (Or.inl taking) (inv.queued.fifo.deq called) enqueued dequeued
      · contradiction
  · next waiting =>
      have inside : i < s.nthreads := inv.working.inside i (by rw [waiting]; nofun)
      rcases Option.map_eq_some_iff.mp taken with ⟨⟨jobq, result⟩, called, rfl⟩
      rcases Fifo.resumeDeq_history called with ⟨enqueued, dequeued⟩
      exact inv.took inside (Or.inr waiting) (inv.queued.fifo.resumeDeq called) enqueued dequeued
  · contradiction
  · contradiction

theorem inv_addJob {pick : PoolThread} (inv : Inv sz s)
    (taken : s.step (.addJob pick) = some next) : Inv sz next := by
  simp only [step] at taken
  split at taken
  · next early =>
      have pending : Numbered.Pending { s with calls := s.calls + 1 } s.calls :=
        ⟨Nat.lt_succ_self s.calls, fun old => (inv.numbered.accepted _ old).1.false,
          fun old => (inv.numbered.refused _ old).false⟩
      rcases Option.map_eq_some_iff.mp taken with ⟨⟨jobq, result⟩, called, rfl⟩
      rcases Fifo.enq_history called with ⟨dequeued, enqueued⟩
      refine inv.called.added early pending (inv.queued.fifo.enq called) dequeued ?_
      rcases enqueued with accepted | ⟨rfl, -, same⟩ | ⟨rfl, same⟩
      · exact Or.inl accepted
      · exact Or.inr ⟨nofun, same⟩
      · exact Or.inr ⟨nofun, same⟩
  · contradiction

theorem inv_addAgain {pick : PoolThread} (inv : Inv sz s)
    (taken : s.step (.addAgain k pick) = some next) : Inv sz next := by
  simp only [step] at taken
  split at taken
  · next waits =>
      have early : s.destructor = .notStarted := by
        by_contra late
        rw [inv.queued.quiet late] at waits
        exact Finset.notMem_empty k waits
      rcases inv.numbered.waiting k waits with ⟨lt, accepted, refused⟩
      rcases Option.map_eq_some_iff.mp taken with ⟨⟨jobq, result⟩, called, rfl⟩
      rcases Fifo.resumeEnq_history called with ⟨dequeued, enqueued⟩
      refine inv.added early ⟨lt, accepted, refused⟩ (inv.queued.fifo.resumeEnq called) dequeued ?_
      rcases enqueued with accepted | ⟨rfl, same⟩
      · exact Or.inl accepted
      · exact Or.inr ⟨nofun, same⟩
  · contradiction

theorem inv_destroy (inv : Inv sz s) (taken : s.step .destroy = some next) : Inv sz next := by
  simp only [step] at taken
  split at taken
  · next quiet =>
      cases taken
      have pills : ({ s with destructor := .poisoning s.nthreads } : ThrPool).pills = s.pills := by
        simp only [ThrPool.pills, quiet.1, Nat.sub_self]
      refine inv.goOn pills quiet.2 ?_ nofun ⟨nofun, nofun⟩
      intro left same
      cases same
      exact Nat.le_refl _
  · contradiction

theorem inv_poison {pick : PoolThread} (inv : Inv sz s)
    (taken : s.step (.poison pick) = some next) : Inv sz next := by
  simp only [step] at taken
  split at taken
  · next poisoning =>
      cases taken
      have pills : ({ s with destructor := .joining 0 } : ThrPool).pills = s.pills := by
        simp only [ThrPool.pills, poisoning, Nat.sub_zero]
      refine inv.goOn pills (inv.queued.quiet (by rw [poisoning]; nofun)) nofun nofun ⟨?_, nofun⟩
      intro i same j before
      cases same
      exact absurd before (Nat.not_lt_zero j)
  · next left poisoning =>
      have pills : s.pills = s.nthreads - (left + 1) := by simp only [ThrPool.pills, poisoning]
      rcases Option.map_eq_some_iff.mp taken with ⟨⟨jobq, result⟩, called, rfl⟩
      rcases Fifo.enq_history called with ⟨dequeued, enqueued⟩
      refine inv.gavePill pills (inv.queued.left _ poisoning) (by rw [poisoning]; nofun)
        (inv.queued.fifo.enq called) dequeued ?_
      rcases enqueued with gave | ⟨-, never, -⟩ | waits
      · exact Or.inl gave
      · contradiction
      · exact Or.inr waits
  · next left blocked =>
      have pills : s.pills = s.nthreads - (left + 1) := by simp only [ThrPool.pills, blocked]
      rcases Option.map_eq_some_iff.mp taken with ⟨⟨jobq, result⟩, called, rfl⟩
      rcases Fifo.resumeEnq_history called with ⟨dequeued, enqueued⟩
      exact inv.gavePill pills (inv.queued.more _ blocked) (by rw [blocked]; nofun)
        (inv.queued.fifo.resumeEnq called) dequeued enqueued
  · contradiction

theorem inv_join (inv : Inv sz s) (taken : s.step .join = some next) : Inv sz next := by
  simp only [step] at taken
  split at taken
  · next i joining =>
      have nobody := inv.queued.quiet (by rw [joining]; nofun)
      split at taken
      · split at taken
        · next exited =>
            cases taken
            have pills : ({ s with destructor := .joining (i + 1) } : ThrPool).pills = s.pills := by
              simp only [ThrPool.pills, joining]
            refine inv.goOn pills nobody nofun nofun ⟨?_, nofun⟩
            intro last same j before
            cases same
            rcases Nat.lt_succ_iff_lt_or_eq.mp before with earlier | rfl
            · exact inv.joined.some i joining j earlier
            · exact exited
        · contradiction
      · next outside =>
          cases taken
          have pills : ({ s with destructor := .returned } : ThrPool).pills = s.pills := by
            simp only [ThrPool.pills, joining]
          refine inv.goOn pills nobody nofun nofun ⟨nofun, ?_⟩
          intro _ j inside
          exact inv.joined.some i joining j (Nat.lt_of_lt_of_le inside (Nat.le_of_not_lt outside))
  · contradiction

theorem inv_spurious {thread : PoolThread} (inv : Inv sz s)
    (taken : s.step (.spurious thread) = some next) : Inv sz next := by
  cases thread with
  | worker i =>
      rcases Option.map_eq_some_iff.mp taken with ⟨jobq, woken, rfl⟩
      exact inv.woken (inv.queued.fifo.spuriousDeq woken) (Fifo.spuriousDeq_history woken)
  | adder k =>
      rcases Option.map_eq_some_iff.mp taken with ⟨jobq, woken, rfl⟩
      exact inv.woken (inv.queued.fifo.spuriousEnq woken) (Fifo.spuriousEnq_history woken)
  | destructor =>
      rcases Option.map_eq_some_iff.mp taken with ⟨jobq, woken, rfl⟩
      exact inv.woken (inv.queued.fifo.spuriousEnq woken) (Fifo.spuriousEnq_history woken)

theorem inv_step {action : Action} (inv : Inv sz s) (taken : s.step action = some next) :
    Inv sz next := by
  cases action with
  | takeJob i pick => exact inv_takeJob inv taken
  | finish i =>
      simp only [step] at taken
      split at taken
      · next running =>
          cases taken
          exact inv.finish running
      · contradiction
  | addJob pick => exact inv_addJob inv taken
  | addAgain k pick => exact inv_addAgain inv taken
  | destroy => exact inv_destroy inv taken
  | poison pick => exact inv_poison inv taken
  | join => exact inv_join inv taken
  | spurious thread => exact inv_spurious inv taken

theorem reachable_inv (reachable : (machine sz blocking).Reachable s) : Inv sz s :=
  reachable.invariant (Inv sz) init_inv fun _ _ _ _ inv taken => inv_step inv taken

/-! ## After the shutdown -/

/-- When a worker has taken a pill, the jobs were all taken before. -/
theorem Inv.started_of_pill (inv : Inv sz s) (poisoned : i ∈ s.poisoned) :
    s.started = s.accepted := by
  have pill : none ∈ s.jobq.dequeued := by
    apply List.count_pos_iff.mp
    rw [inv.working.pills]
    exact List.length_pos_of_mem poisoned
  rw [← inv.working.started]
  exact jobs_of_pill inv.queued.dequeued pill

theorem Inv.finished (inv : Inv sz s) (positive : 0 < sz) (returned : s.destructor = .returned) :
    s.Finished := by
  have exited := inv.joined.all returned
  have poisoned (i : Nat) (inside : i < s.nthreads) : i ∈ s.poisoned :=
    (inv.working.exits i).mpr (exited i inside)
  have all : s.started = s.accepted := by
    rw [← inv.size] at positive
    exact inv.started_of_pill (poisoned 0 positive)
  have idle (i : Nat) : (s.workers i).job = none := by
    by_cases taking : s.workers i = .taking
    · rw [taking]
      rfl
    · rw [exited i (inv.working.inside i taking)]
      rfl
  constructor
  · intro k accepted
    have member : k ∈ s.started := by rwa [all]
    refine ⟨?_, inv.working.assigned.count_finished idle member⟩
    rw [all]
    exact List.count_eq_one_of_mem inv.numbered.once accepted
  · intro k failed
    rw [all]
    exact fun accepted => (inv.numbered.accepted k accepted).2 failed
  · intro i inside
    exact ⟨exited i inside, List.count_eq_one_of_mem inv.working.once (poisoned i inside)⟩

/-- A pool that has workers runs every accepted job once before its destructor returns. -/
theorem shutdown_finished (positive : 0 < sz) (reachable : (machine sz blocking).Reachable s)
    (returned : s.destructor = .returned) : s.nthreads = sz ∧ s.Finished :=
  ⟨(reachable_inv reachable).size, (reachable_inv reachable).finished positive returned⟩

/-- The second job is put behind a running one, and two pills end the workers. -/
def twoJobs : List Action :=
  [.takeJob 1 (.worker 1), .addJob (.worker 1), .takeJob 1 (.worker 1), .addJob (.worker 0),
    .destroy, .poison (.worker 0), .takeJob 0 (.worker 0), .poison (.worker 0),
    .poison (.worker 0), .finish 0, .takeJob 0 (.worker 0), .finish 1, .takeJob 1 (.worker 1),
    .join, .join, .join]

theorem shutdown_finished_twoJobs :
    ∃ s, (machine 2 true).Reachable s ∧ s.accepted = [0, 1] ∧ s.completed = [1, 0] ∧
      s.nthreads = 2 ∧ s.Finished := by
  have run : (((machine 2 true).run (machine 2 true).initial twoJobs).map fun s =>
      (s.destructor, s.accepted, s.completed)) = some (.returned, [0, 1], [1, 0]) := by
    decide +kernel
  rcases Option.map_eq_some_iff.mp run with ⟨s, taken, values⟩
  have reachable := Machine.reachable_of_run taken
  rcases Prod.mk.inj values with ⟨returned, values⟩
  rcases Prod.mk.inj values with ⟨accepted, completed⟩
  exact ⟨s, reachable, accepted, completed, shutdown_finished (by decide) reachable returned⟩

/-- A pool of size 0 accepts a job that nobody runs. -/
theorem noWorkers_unfinished :
    ∃ s, (machine 0 true).Reachable s ∧ s.destructor = .returned ∧ s.accepted = [0] ∧
      ¬s.Finished := by
  have run : (((machine 0 true).run (machine 0 true).initial
      [.addJob (.worker 0), .destroy, .poison (.worker 0), .join]).map fun s =>
      (s.destructor, s.accepted, s.started)) = some (.returned, [0], []) := by
    decide +kernel
  rcases Option.map_eq_some_iff.mp run with ⟨s, taken, values⟩
  rcases Prod.mk.inj values with ⟨returned, values⟩
  rcases Prod.mk.inj values with ⟨accepted, started⟩
  refine ⟨s, Machine.reachable_of_run taken, returned, accepted, fun finished => ?_⟩
  have once := (finished.accepted 0 (by rw [accepted]; exact List.mem_singleton_self 0)).1
  rw [started] at once
  contradiction

end ThrPool

end YfsRpc.Rpc
