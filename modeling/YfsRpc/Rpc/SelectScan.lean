import Mathlib.Order.Bounds.Defs
import YfsRpc.Rpc.PollMgr

/-! # What `select` is asked for

`highfds_` limits what `select` looks at and what `wait_ready` scans afterwards. It is
raised by `watch_fd`, and `unwatch_fd` looks for it again when the highest descriptor is
watched no more.
-/

namespace YfsRpc.Rpc

/-- Every value of `poll_flag`. -/
inductive AnyFlag
  | none
  | rdonly
  | wronly
  | rdwr
  | mask
  deriving DecidableEq

namespace AnyFlag

/-- `watch_fd` takes any other value for both directions. -/
def watches : AnyFlag → PollFlag
  | rdonly => .rdonly
  | wronly => .wronly
  | none | rdwr | mask => .rdwr

/-- `unwatch_fd` asserts that it is one of three values. -/
def unwatches : AnyFlag → Option PollFlag
  | rdonly => some .rdonly
  | wronly => some .wronly
  | rdwr => some .rdwr
  | none | mask => .none

end AnyFlag

/-- `FD_SETSIZE`: the descriptors that fit into a set. -/
def fdSetsize : Nat := 1024

inductive AioCall
  | watch (fd : Nat) (flag : AnyFlag)
  | unwatch (fd : Nat) (flag : AnyFlag)

namespace SelectAio

def call (aio : SelectAio) : AioCall → Option SelectAio
  | .watch fd flag => if fd < fdSetsize then some (aio.watchFd fd flag.watches) else none
  | .unwatch fd flag =>
      if fd < fdSetsize then flag.unwatches.map fun flag => (aio.unwatchFd fd flag).1 else none

def machine (pipefd : Nat) : Machine SelectAio AioCall where
  initial := init pipefd
  step := call

/-- The call does not unwatch the pipe. -/
def Foreign (aio : SelectAio) : AioCall → Prop
  | .watch .. => True
  | .unwatch fd _ => fd ≠ aio.pipefd

instance (aio : SelectAio) : (call : AioCall) → Decidable (aio.Foreign call)
  | .watch .. => .isTrue trivial
  | .unwatch .. => inferInstanceAs (Decidable (_ ≠ _))

/-- What `select` leaves of the sets, when the descriptors in `rd` and `wr` are ready. -/
def select (aio : SelectAio) (rd wr : Finset Nat) : Finset Nat × Finset Nat :=
  (aio.rfds.filter fun fd => fd ≤ aio.highfds ∧ fd ∈ rd,
    aio.wfds.filter fun fd => fd ≤ aio.highfds ∧ fd ∈ wr)

/-- The descriptors that `wait_ready` reports. -/
def waitReady (aio : SelectAio) (rd wr : Finset Nat) : List Nat × List Nat :=
  let (trfds, twfds) := aio.select rd wr
  (aio.readable aio.highfds trfds, aio.writable aio.highfds trfds twfds)

/-- The high mark is exact, and each descriptor other than the pipe is reported once in
each direction in which it is ready and watched. The pipe is never reported as readable. -/
structure Covers (aio : SelectAio) : Prop where
  greatest : IsGreatest {fd | aio.Watched fd} aio.highfds
  pipe : aio.pipefd ≤ aio.highfds
  readable : ∀ rd wr fd, fd ≠ aio.pipefd →
    (aio.waitReady rd wr).1.count fd = if fd ∈ rd ∧ fd ∈ aio.rfds then 1 else 0
  writable : ∀ rd wr fd, fd ≠ aio.pipefd →
    (aio.waitReady rd wr).2.count fd = if fd ∈ wr ∧ fd ∈ aio.wfds then 1 else 0
  own : ∀ rd wr, aio.pipefd ∉ (aio.waitReady rd wr).1 ∧
    (aio.pipefd ∈ (aio.waitReady rd wr).2 → aio.pipefd ∈ aio.wfds)

/-! ## The high mark -/

/-- The scan for the last index with a property. -/
theorem foldl_last (p : Nat → Prop) [DecidablePred p] (start n : Nat) :
    let last := (List.range n).foldl (fun last i => if p i then i else last) start
    (∀ i < n, p i → i ≤ last) ∧ (p last ∧ last < n ∨ last = start ∧ ∀ i < n, ¬ p i) := by
  induction n with
  | zero => exact ⟨fun i less => absurd less (Nat.not_lt_zero i),
      Or.inr ⟨rfl, fun i less => absurd less (Nat.not_lt_zero i)⟩⟩
  | succ n induction =>
      dsimp only at induction ⊢
      rw [List.range_succ, List.foldl_append, List.foldl_cons, List.foldl_nil]
      rcases induction with ⟨bound, found⟩
      split
      · next here =>
          exact ⟨fun i less _ => Nat.le_of_lt_succ less, Or.inl ⟨here, Nat.lt_succ_self n⟩⟩
      · next missing =>
          have before {i : Nat} (less : i < n + 1) (has : p i) : i < n :=
            Nat.lt_of_le_of_ne (Nat.le_of_lt_succ less) fun same => missing (same ▸ has)
          refine ⟨fun i less has => bound i (before less has) has, ?_⟩
          rcases found with ⟨has, less⟩ | ⟨same, none⟩
          · exact Or.inl ⟨has, Nat.lt_succ_of_lt less⟩
          · exact Or.inr ⟨same, fun i less has => none i (before less has) has⟩

/-- The high mark is the largest descriptor in the sets, and the pipe is in them. -/
structure Exact (aio : SelectAio) : Prop where
  greatest : IsGreatest {fd | aio.Watched fd} aio.highfds
  pipe : aio.pipefd ∈ aio.rfds

variable {aio next : SelectAio} {fd other : Nat} {flag : PollFlag}

theorem init_exact (pipefd : Nat) : (init pipefd).Exact where
  greatest := by
    refine ⟨Or.inl (Finset.mem_singleton_self pipefd), ?_⟩
    rintro fd (read | write)
    · exact (Finset.mem_singleton.mp read).le
    · exact absurd write (Finset.notMem_empty fd)
  pipe := Finset.mem_singleton_self pipefd

theorem watched_watchFd_self : (aio.watchFd fd flag).Watched fd := by
  cases flag <;> simp [Watched, watchFd, PollFlag.reads, PollFlag.writes]

theorem Exact.watchFd (exactly : aio.Exact) (fd : Nat) (flag : PollFlag) :
    (aio.watchFd fd flag).Exact where
  greatest := by
    rcases exactly.greatest with ⟨attained, bound⟩
    have high : (aio.watchFd fd flag).highfds = if aio.highfds ≤ fd then fd else aio.highfds := rfl
    have others {other : Nat} (watched : (aio.watchFd fd flag).Watched other) :
        other = fd ∨ other ≤ aio.highfds := by
      by_cases same : other = fd
      · exact Or.inl same
      · exact Or.inr (bound ((watched_watchFd same).mp watched))
    rw [high]
    split
    · next raised =>
        refine ⟨watched_watchFd_self, fun other watched => ?_⟩
        rcases others watched with rfl | below
        · exact Nat.le_refl _
        · exact below.trans raised
    · next kept =>
        refine ⟨(watched_watchFd (by omega)).mpr attained, fun other watched => ?_⟩
        rcases others watched with rfl | below
        · exact Nat.le_of_not_le kept
        · exact below
  pipe := by
    unfold SelectAio.watchFd
    dsimp only
    split
    · exact Finset.mem_insert_of_mem exactly.pipe
    · exact exactly.pipe

/-- The pipe stays in the set when another descriptor leaves it. -/
theorem mem_rfds_clear (member : other ∈ aio.rfds) (differs : other ≠ fd) :
    other ∈ (aio.clear fd flag).rfds := by
  unfold clear
  dsimp only
  split
  · exact Finset.mem_erase.mpr ⟨differs, member⟩
  · exact member

theorem watched_clear (differs : other ≠ fd) :
    (aio.clear fd flag).Watched other ↔ aio.Watched other := by
  cases flag <;> simp [Watched, clear, PollFlag.reads, PollFlag.writes, differs]

/-- The descriptors that are left are among those that were watched. -/
theorem watched_of_clear (watched : (aio.clear fd flag).Watched other) : aio.Watched other :=
  watched_of_unwatchFd (watched_unwatchFd.mpr watched)

/-- The mark is looked for again when the highest descriptor is lost. -/
theorem highfds_unwatchFd :
    (¬ (aio.clear fd flag).Watched fd ∧ fd = aio.highfds ∧
      (aio.unwatchFd fd flag).1.highfds = (aio.clear fd flag).newHigh) ∨
    (((aio.clear fd flag).Watched fd ∨ fd ≠ aio.highfds) ∧
      (aio.unwatchFd fd flag).1.highfds = aio.highfds) := by
  unfold SelectAio.unwatchFd Watched
  dsimp only
  split
  · next lost =>
      rw [decide_eq_true_eq, ← not_or] at lost
      exact Or.inl ⟨lost.1, lost.2, rfl⟩
  · next kept =>
      rw [decide_eq_true_eq, ← not_or, not_and_or, not_not] at kept
      exact Or.inr ⟨kept, rfl⟩

theorem Exact.unwatchFd (exactly : aio.Exact) (foreign : fd ≠ aio.pipefd) (flag : PollFlag) :
    (aio.unwatchFd fd flag).1.Exact where
  greatest := by
    rcases exactly.greatest with ⟨attained, bound⟩
    have pipe : aio.pipefd ∈ (aio.clear fd flag).rfds :=
      mem_rfds_clear exactly.pipe foreign.symm
    have same : {other | (aio.unwatchFd fd flag).1.Watched other} =
        {other | (aio.clear fd flag).Watched other} := Set.ext fun other => watched_unwatchFd
    rw [same]
    rcases @highfds_unwatchFd aio fd flag with ⟨-, -, high⟩ | ⟨kept, high⟩
    · rw [high]
      -- the scan goes up to the old mark, below which all descriptors are
      rcases foldl_last (fun i => i ∈ (aio.clear fd flag).rfds ∨ i ∈ (aio.clear fd flag).wfds)
        aio.pipefd (aio.highfds + 1) with ⟨largest, found⟩
      refine ⟨?_, fun other watched => ?_⟩
      · rcases found with ⟨watched, -⟩ | ⟨-, none⟩
        · exact watched
        · exact absurd (Or.inl pipe)
            (none aio.pipefd (Nat.lt_succ_of_le (bound (Or.inl exactly.pipe))))
      · exact largest other (Nat.lt_succ_of_le (bound (watched_of_clear watched))) watched
    · rw [high]
      refine ⟨?_, fun other watched => bound (watched_of_clear watched)⟩
      by_cases here : aio.highfds = fd
      · rcases kept with watched | differs
        · exact here ▸ watched
        · exact absurd here.symm differs
      · exact (watched_clear here).mpr attained
  pipe := by
    have kept : aio.pipefd ∈ (aio.clear fd flag).rfds :=
      mem_rfds_clear exactly.pipe foreign.symm
    have same : (aio.unwatchFd fd flag).1.pipefd = aio.pipefd := by
      unfold SelectAio.unwatchFd
      dsimp only
      split <;> rfl
    rw [rfds_unwatchFd, same]
    exact kept

theorem Exact.call {call : AioCall} (exactly : aio.Exact) (foreign : aio.Foreign call)
    (taken : aio.call call = some next) : next.Exact := by
  cases call with
  | watch fd flag =>
      simp only [SelectAio.call] at taken
      split at taken
      · cases taken
        exact exactly.watchFd fd flag.watches
      · contradiction
  | unwatch fd flag =>
      simp only [SelectAio.call] at taken
      split at taken
      · rcases Option.map_eq_some_iff.mp taken with ⟨flag, -, rfl⟩
        exact exactly.unwatchFd foreign flag
      · contradiction

theorem reachable_exact {pipefd : Nat} (reachable : (machine pipefd).ReachableUnder Foreign aio) :
    aio.Exact :=
  reachable.invariant Exact (init_exact pipefd) fun _ _ _ _ exactly foreign taken =>
    exactly.call foreign taken

/-! ## The scan -/

/-- A scan reports a descriptor once if at all. -/
theorem count_scan (p : Nat → Prop) [DecidablePred p] (n fd : Nat) :
    ((List.range n).filter fun i => p i).count fd = if fd < n ∧ p fd then 1 else 0 := by
  rw [(List.nodup_range.filter _).count]
  simp

theorem Exact.covers (exactly : aio.Exact) : aio.Covers where
  greatest := exactly.greatest
  pipe := exactly.greatest.2 (Or.inl exactly.pipe)
  readable rd wr fd differs := by
    have below (member : fd ∈ aio.rfds) : fd ≤ aio.highfds := exactly.greatest.2 (Or.inl member)
    unfold waitReady SelectAio.readable SelectAio.select
    rw [count_scan]
    refine if_congr ?_ rfl rfl
    simp only [Finset.mem_filter, Nat.lt_succ_iff]
    tauto
  writable rd wr fd differs := by
    have below (member : fd ∈ aio.wfds) : fd ≤ aio.highfds := exactly.greatest.2 (Or.inr member)
    unfold waitReady SelectAio.writable SelectAio.select
    rw [count_scan]
    refine if_congr ?_ rfl rfl
    simp only [Finset.mem_filter, Nat.lt_succ_iff]
    tauto
  own rd wr := by
    unfold waitReady SelectAio.readable SelectAio.writable SelectAio.select
    constructor
    · simp
    · intro reported
      simp only [List.mem_filter, decide_eq_true_eq, Finset.mem_filter] at reported
      exact reported.2.1.1

/-- After every sequence of calls that leaves its own pipe watched, `select` is asked for
every watched descriptor, and each one that is ready is reported once. -/
theorem wait_covers {pipefd : Nat} (reachable : (machine pipefd).ReachableUnder Foreign aio) :
    aio.Covers :=
  (reachable_exact reachable).covers

/-- The highest descriptor loses one direction, and then the other. -/
def highestLeaves : List AioCall :=
  [.watch 7 .rdonly, .watch 9 .rdwr, .watch 5 .wronly, .unwatch 9 .rdonly, .unwatch 9 .wronly]

theorem wait_covers_highestLeaves :
    ∃ aio, (machine 3).ReachableUnder Foreign aio ∧ aio.highfds = 7 ∧ aio.Covers := by
  have run : (((machine 3).restrict Foreign).run (machine 3).initial highestLeaves).map
      (fun aio => aio.highfds) = some 7 := by decide +kernel
  rcases Option.map_eq_some_iff.mp run with ⟨aio, taken, high⟩
  have reachable := Machine.reachableUnder_of_run taken
  exact ⟨aio, reachable, high, wait_covers reachable⟩

/-- The pipe is read by `wait_ready` itself, also when it was given to `watch_fd`. -/
theorem watchedPipe_unreported :
    ¬ ∀ aio, (machine 3).ReachableUnder Foreign aio →
      ∀ rd wr fd, fd ∈ rd → fd ∈ aio.rfds → (aio.waitReady rd wr).1.count fd = 1 := by
  intro always
  have run : (((machine 3).restrict Foreign).run (machine 3).initial [.watch 3 .rdonly]).map
      (fun aio => (decide (3 ∈ aio.rfds), (aio.waitReady {3} ∅).1)) = some (true, []) := by
    decide +kernel
  rcases Option.map_eq_some_iff.mp run with ⟨aio, taken, values⟩
  rcases Prod.mk.inj values with ⟨watched, reported⟩
  have once := always aio (Machine.reachableUnder_of_run taken) {3} ∅ 3
    (Finset.mem_singleton_self 3) (of_decide_eq_true watched)
  rw [reported] at once
  contradiction

end SelectAio

end YfsRpc.Rpc
