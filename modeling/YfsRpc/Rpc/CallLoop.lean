import Mathlib.Algebra.Order.Ring.Int
import YfsRpc.Foundation.Machine
import YfsRpc.Rpc.Timespec

/-! # The loop of `call1`

A call waits for its reply, for twice as long each time and up to its final deadline.
That the last wait has begun is remembered by setting the seconds of the final deadline
to zero. `send` returns, and how long it took is seen when the clock is read next.
Times are compared in nanoseconds.
-/

namespace YfsRpc.Rpc

/-- `to_min` -/
def toMin : Int32 := 1000

/-- `curr_to` and `nextdeadline` at a call of `pthread_cond_timedwait`. -/
structure TimedWait where
  currTo : Int32
  nextdeadline : Timespec
  deriving DecidableEq

inductive CallLoop.Phase
  | top
  | waiting (nextdeadline : Timespec)
  /-- behind the loop, with `ca.done` as it was found last -/
  | left (done : Bool)
  deriving DecidableEq

structure CallLoop where
  finaldeadline : Timespec
  currTo : Int32 := toMin
  phase : CallLoop.Phase := .top
  /-- the latest reading of the clock -/
  clock : Timespec
  /-- history: the timed waits -/
  waits : List TimedWait := []

namespace CallLoop

/-- What the clock may read next. -/
structure Reading (s : CallLoop) (now : Timespec) : Prop where
  range : now.InRange
  normal : now.Normalised
  later : s.clock.instant ≤ now.instant

instance (s : CallLoop) (now : Timespec) : Decidable (s.Reading now) :=
  decidable_of_iff (now.InRange ∧ now.Normalised ∧ s.clock.instant ≤ now.instant)
    ⟨fun ⟨range, normal, later⟩ => ⟨range, normal, later⟩,
      fun reading => ⟨reading.range, reading.normal, reading.later⟩⟩

/-- Begin to wait, until the final deadline if the next one is later. -/
def wait (s : CallLoop) (now nextdeadline : Timespec) : CallLoop :=
  if cmpTimespec nextdeadline s.finaldeadline > 0 then
    { s with
      clock := now
      phase := .waiting s.finaldeadline
      waits := s.waits ++ [⟨s.currTo, s.finaldeadline⟩]
      finaldeadline := { s.finaldeadline with tvSec := 0 } }
  else
    { s with
      clock := now
      phase := .waiting nextdeadline
      waits := s.waits ++ [⟨s.currTo, nextdeadline⟩] }

/-- From the top of the loop to its exit or to the wait; `now` is read in between. -/
def turn (s : CallLoop) (now : Timespec) : Option CallLoop :=
  if s.finaldeadline.tvSec = 0 then
    some { s with phase := .left false }
  else if s.Reading now then
    (addTimespec now s.currTo).map (s.wait now)
  else
    none

inductive Action
  | turn (now : Timespec)
  /-- the wait ends, and `ca.done` is set -/
  | reply
  /-- the wait ends with `ETIMEDOUT`, when the clock reads `now` -/
  | timeout (now : Timespec)

def step (s : CallLoop) : Action → Option CallLoop
  | .turn now =>
      match s.phase with
      | .top => s.turn now
      | _ => none
  | .reply =>
      match s.phase with
      | .waiting _ => some { s with phase := .left true }
      | _ => none
  | .timeout now =>
      match s.phase with
      | .waiting nextdeadline =>
          if s.Reading now ∧ nextdeadline.instant ≤ now.instant then
            some { s with phase := .top, currTo := s.currTo <<< 1, clock := now }
          else
            none
      | _ => none

/-- The loop when the clock has read `start`. -/
def machine (start finaldeadline : Timespec) : Machine CallLoop Action where
  initial := { finaldeadline, clock := start }
  step := step

/-- The deadline behind the reading is still a `time_t`. -/
def Room (s : CallLoop) : Action → Prop
  | .turn now => now.instant + s.currTo.toInt * 1000000 < 2 ^ 63 * 1000000000
  | .reply | .timeout _ => True

instance (s : CallLoop) : (action : Action) → Decidable (s.Room action)
  | .turn _ => inferInstanceAs (Decidable (_ < _))
  | .reply | .timeout _ => .isTrue trivial

/-- `floor(log2(to / 1000 + 1)) + 1` -/
def waitsAllowed (timeout : Int32) : Nat := Nat.log2 (timeout.toInt.toNat / 1000 + 1) + 1

/-- `start + to` -/
def endInstant (start : Timespec) (timeout : Int32) : Int := start.instant + timeout.toInt * 1000000

structure Timely (start : Timespec) (timeout : Int32) (s : CallLoop) : Prop where
  waits : s.waits.length ≤ waitsAllowed timeout
  deadlines : ∀ wait ∈ s.waits, wait.nextdeadline.instant ≤ endInstant start timeout
  timeouts : ∀ i wait, s.waits[i]? = some wait → wait.currTo.toInt = 1000 * (2 : Int) ^ i
  unanswered : s.phase = .left false → endInstant start timeout ≤ s.clock.instant
  /-- the loop goes on from its top -/
  progress : s.phase = .top → ∀ now, s.Reading now → s.Room (.turn now) →
    ∃ next, s.step (.turn now) = some next

/-- The final deadline can be computed, every run is timely, and it has at most two steps
for each wait and one to leave. -/
def InTime (start : Timespec) (timeout : Int32) : Prop :=
  ∃ finaldeadline, addTimespec start timeout = some finaldeadline ∧
    ∀ actions s, ((machine start finaldeadline).restrict Room).run
        (machine start finaldeadline).initial actions = some s →
      Timely start timeout s ∧ actions.length ≤ 2 * waitsAllowed timeout + 1

/-! ## Arithmetic -/

/-- Comparing by fields is right for times that are normalised up to the boundary. -/
theorem cmpTimespec_pos {a b : Timespec} (left : 0 ≤ a.tvNsec ∧ a.tvNsec ≤ 1000000000)
    (right : 0 ≤ b.tvNsec ∧ b.tvNsec ≤ 1000000000) :
    (cmpTimespec a b > 0 → b.instant ≤ a.instant) ∧
      (¬ cmpTimespec a b > 0 → a.instant ≤ b.instant) := by
  unfold cmpTimespec Timespec.instant
  constructor
  · intro after
    split at after
    · omega
    · split at after
      · omega
      · split at after
        · omega
        · split at after <;> omega
  · intro before
    split at before
    · omega
    · split at before
      · omega
      · split at before
        · omega
        · split at before <;> omega

/-- A power of two below the largest timeout in seconds is at most `2 ^ 21`. -/
theorem pow_le_of_timeout {k : Nat} {timeout : Int32}
    (bound : (2 : Int) ^ k ≤ timeout.toInt / 1000 + 1) : (2 : Int) ^ k ≤ 2 ^ 21 := by
  have large := timeout.toInt_lt
  by_contra beyond
  have exponent : 22 ≤ k := by
    by_contra small
    exact beyond (pow_le_pow_right₀ (by decide) (by omega))
  have power : (2 : Int) ^ 22 ≤ 2 ^ k := pow_le_pow_right₀ (by decide) exponent
  omega

theorem toInt_shiftLeft_one {x : Int32} (low : 0 ≤ x.toInt) (high : 2 * x.toInt < 2 ^ 31) :
    (x <<< 1).toInt = 2 * x.toInt := by
  have value : x.toBitVec.toInt = x.toInt := rfl
  have bits : (x <<< 1).toInt = (x.toBitVec <<< 1).toInt := rfl
  have same : x.toInt = x.toBitVec.toNat := by
    rw [← value, BitVec.toInt_eq_toNat_cond] at low
    split at low
    · next small => rw [← value, BitVec.toInt_eq_toNat_of_lt small]
    · have bound := x.toBitVec.isLt
      omega
  rw [bits, BitVec.toInt_shiftLeft, same, Nat.shiftLeft_eq]
  rw [same] at high
  rw [Int.bmod_eq_of_le] <;> push_cast <;> omega

theorem le_waitsAllowed {n : Nat} {timeout : Int32} (nonneg : 0 ≤ timeout.toInt)
    (bound : (2 : Int) ^ n ≤ timeout.toInt / 1000 + 1) : n + 1 ≤ waitsAllowed timeout := by
  have power : 2 ^ n ≤ timeout.toInt.toNat / 1000 + 1 := by
    have cast : ((2 ^ n : Nat) : Int) = 2 ^ n := by push_cast; rfl
    omega
  exact Nat.succ_le_succ ((Nat.le_log2 (Nat.succ_ne_zero _)).mpr power)

/-! ## The invariant -/

variable {start finaldeadline now : Timespec} {timeout : Int32} {s next : CallLoop}

/-- What is known when the loop is entered. -/
structure Entered (start : Timespec) (timeout : Int32) (finaldeadline : Timespec) : Prop where
  range : start.InRange
  normal : start.Normalised
  nonneg : 0 ≤ timeout.toInt
  added : addTimespec start timeout = some finaldeadline
  flag : timeout = 0 ∨ finaldeadline.tvSec ≠ 0

/-- `n` waits, each with its own time, are over at this instant. -/
structure Lapsed (start : Timespec) (timeout : Int32) (n : Nat) (instant : Int) : Prop where
  few : (2 : Int) ^ n ≤ timeout.toInt / 1000 + 1
  late : start.instant + (2 ^ n - 1) * 1000000000 ≤ instant

/-- The final deadline has not been used, and `n` waits have begun with their own time. -/
structure Open (finaldeadline : Timespec) (s : CallLoop) (n : Nat) : Prop where
  final : s.finaldeadline = finaldeadline
  unused : finaldeadline.tvSec ≠ 0
  waits : s.waits.length = n

def Stage (start : Timespec) (timeout : Int32) (finaldeadline : Timespec) (s : CallLoop) : Prop :=
  match s.phase with
  | .top =>
      (∃ n, Open finaldeadline s n ∧ s.currTo.toInt = 1000 * 2 ^ n ∧
        Lapsed start timeout n s.clock.instant) ∨
      s.finaldeadline.tvSec = 0 ∧ endInstant start timeout ≤ s.clock.instant
  | .waiting nextdeadline =>
      (∃ n, Open finaldeadline s (n + 1) ∧ s.currTo.toInt = 1000 * 2 ^ n ∧
        Lapsed start timeout (n + 1) nextdeadline.instant) ∨
      s.finaldeadline.tvSec = 0 ∧ endInstant start timeout ≤ nextdeadline.instant
  | .left done => done = false → endInstant start timeout ≤ s.clock.instant

structure Inv (start : Timespec) (timeout : Int32) (finaldeadline : Timespec) (s : CallLoop) :
    Prop where
  waits : s.waits.length ≤ waitsAllowed timeout
  deadlines : ∀ wait ∈ s.waits, wait.nextdeadline.instant ≤ endInstant start timeout
  timeouts : ∀ i wait, s.waits[i]? = some wait → wait.currTo.toInt = 1000 * (2 : Int) ^ i
  stage : Stage start timeout finaldeadline s

/-- A deadline as `add_timespec` computes it, up to the missed carry. -/
theorem addTimespec_deadline {a result : Timespec} {b : Int32} (range : a.InRange)
    (normal : a.Normalised) (nonneg : 0 ≤ b.toInt) (added : addTimespec a b = some result) :
    result.instant = a.instant + b.toInt * 1000000 ∧
      0 ≤ result.tvNsec ∧ result.tvNsec ≤ 1000000000 := by
  have carried := addTimespec_carried range normal nonneg added
  exact ⟨carried.instant.trans (instant_add a b), carried.low, carried.high⟩

theorem Entered.deadline (entered : Entered start timeout finaldeadline) :
    finaldeadline.instant = endInstant start timeout ∧
      0 ≤ finaldeadline.tvNsec ∧ finaldeadline.tvNsec ≤ 1000000000 :=
  addTimespec_deadline entered.range entered.normal entered.nonneg entered.added

theorem initial_inv (entered : Entered start timeout finaldeadline) :
    Inv start timeout finaldeadline (machine start finaldeadline).initial where
  waits := Nat.zero_le _
  deadlines := nofun
  timeouts := nofun
  stage := by
    have nonneg := entered.nonneg
    by_cases flagged : finaldeadline.tvSec = 0
    · refine Or.inr ⟨flagged, ?_⟩
      rcases entered.flag with none | unused
      · rw [none]
        exact le_of_eq (Int.add_zero _)
      · exact absurd flagged unused
    · refine Or.inl ⟨0, ⟨rfl, flagged, rfl⟩, rfl, ?_, ?_⟩
      · rw [pow_zero]
        omega
      · exact le_of_eq (Int.add_zero _)

/-- A new wait is the next one in the history. -/
theorem Inv.extend {wait : TimedWait} {n : Nat} (inv : Inv start timeout finaldeadline s)
    (length : s.waits.length = n) (allowed : n + 1 ≤ waitsAllowed timeout)
    (deadline : wait.nextdeadline.instant ≤ endInstant start timeout)
    (doubled : wait.currTo.toInt = 1000 * (2 : Int) ^ n) (waits : next.waits = s.waits ++ [wait])
    (stage : Stage start timeout finaldeadline next) : Inv start timeout finaldeadline next where
  waits := by
    rw [waits, List.length_append, List.length_singleton, length]
    exact allowed
  deadlines := by
    intro other member
    rw [waits] at member
    rcases List.mem_append.mp member with old | new
    · exact inv.deadlines other old
    · rw [List.mem_singleton.mp new]
      exact deadline
  timeouts := by
    intro i other found
    rw [waits] at found
    rcases Nat.lt_trichotomy i n with before | rfl | behind
    · rw [List.getElem?_append_left (by omega)] at found
      exact inv.timeouts i other found
    · rw [List.getElem?_append_right (by omega), length, Nat.sub_self] at found
      cases found
      exact doubled
    · rw [List.getElem?_eq_none (by simp; omega)] at found
      contradiction
  stage := stage

/-- The wait that begins is the last one, or there was time for it. -/
theorem Inv.turn {nextdeadline : Timespec} {n : Nat} (inv : Inv start timeout finaldeadline s)
    (entered : Entered start timeout finaldeadline) (opened : Open finaldeadline s n)
    (doubled : s.currTo.toInt = 1000 * (2 : Int) ^ n)
    (lapsed : Lapsed start timeout n s.clock.instant) (reading : s.Reading now)
    (added : addTimespec now s.currTo = some nextdeadline) :
    Inv start timeout finaldeadline (s.wait now nextdeadline) := by
  have allowed := le_waitsAllowed entered.nonneg lapsed.few
  rcases entered.deadline with ⟨ends, final⟩
  have positive : (0 : Int) < 2 ^ n := pow_pos (by decide) n
  rcases addTimespec_deadline reading.range reading.normal (by omega) added with
    ⟨same, fields⟩
  rcases cmpTimespec_pos fields final with ⟨later, sooner⟩
  unfold CallLoop.wait
  rw [opened.final]
  split
  · next last =>
      refine inv.extend opened.waits allowed (le_of_eq ends) doubled rfl ?_
      exact Or.inr ⟨rfl, le_of_eq ends.symm⟩
  · next early =>
      have before := sooner early
      have clock := reading.later
      have late := lapsed.late
      have few := lapsed.few
      rw [ends] at before
      refine inv.extend opened.waits allowed before doubled rfl
        (Or.inl ⟨n, ⟨rfl, opened.unused, ?_⟩, doubled, ?_, ?_⟩)
      · exact (List.length_append ..).trans (congrArg (· + 1) opened.waits)
      · rw [endInstant] at before
        rw [pow_succ]
        omega
      · rw [pow_succ]
        omega

theorem Inv.step {action : Action} (inv : Inv start timeout finaldeadline s)
    (entered : Entered start timeout finaldeadline) (taken : s.step action = some next) :
    Inv start timeout finaldeadline next := by
  have stage := inv.stage
  unfold Stage at stage
  cases action with
  | turn now =>
      simp only [CallLoop.step] at taken
      split at taken
      · next top =>
          rw [top] at stage
          simp only [CallLoop.turn] at taken
          split at taken
          · next flagged =>
              cases taken
              refine ⟨inv.waits, inv.deadlines, inv.timeouts, fun _ => ?_⟩
              rcases stage with ⟨n, opened, -⟩ | ⟨-, passed⟩
              · exact absurd (opened.final ▸ flagged) opened.unused
              · exact passed
          · next unflagged =>
              split at taken
              · next reading =>
                  rcases Option.map_eq_some_iff.mp taken with ⟨nextdeadline, added, rfl⟩
                  rcases stage with ⟨n, opened, doubled, lapsed⟩ | ⟨flagged, -⟩
                  · exact inv.turn entered opened doubled lapsed reading added
                  · exact absurd flagged unflagged
              · contradiction
      · contradiction
  | reply =>
      simp only [CallLoop.step] at taken
      split at taken
      · cases taken
        exact ⟨inv.waits, inv.deadlines, inv.timeouts, nofun⟩
      · contradiction
  | timeout now =>
      simp only [CallLoop.step] at taken
      split at taken
      · next nextdeadline waiting =>
          rw [waiting] at stage
          split at taken
          · next enough =>
              cases taken
              refine ⟨inv.waits, inv.deadlines, inv.timeouts, ?_⟩
              rcases stage with ⟨n, opened, doubled, lapsed⟩ | ⟨flagged, passed⟩
              · have few := lapsed.few
                have small := pow_le_of_timeout few
                have positive : (0 : Int) < 2 ^ n := pow_pos (by decide) n
                rw [pow_succ] at small
                refine Or.inl ⟨n + 1, ⟨opened.final, opened.unused, opened.waits⟩, ?_, few,
                  lapsed.late.trans enough.2⟩
                dsimp only
                rw [toInt_shiftLeft_one (by omega) (by omega), doubled, pow_succ]
                omega
              · exact Or.inr ⟨flagged, passed.trans enough.2⟩
          · contradiction
      · contradiction

/-- The loop is not stuck at its top. -/
theorem Inv.progress (inv : Inv start timeout finaldeadline s) (top : s.phase = .top)
    (reading : s.Reading now) (room : s.Room (.turn now)) :
    ∃ next, s.step (.turn now) = some next := by
  have stage := inv.stage
  simp only [Stage, top] at stage
  simp only [CallLoop.step, top, CallLoop.turn]
  rcases stage with ⟨n, opened, doubled, -⟩ | ⟨flagged, -⟩
  · have nonneg : 0 ≤ s.currTo.toInt := by
      have positive : (0 : Int) < 2 ^ n := pow_pos (by decide) n
      omega
    rcases addTimespec_total reading.range reading.normal nonneg room with ⟨deadline, added⟩
    rw [if_neg (opened.final ▸ opened.unused), if_pos reading, added]
    exact ⟨_, rfl⟩
  · rw [if_pos flagged]
    exact ⟨_, rfl⟩

theorem Inv.timely (inv : Inv start timeout finaldeadline s) : Timely start timeout s where
  waits := inv.waits
  deadlines := inv.deadlines
  timeouts := inv.timeouts
  unanswered left := by
    have stage := inv.stage
    rw [Stage, left] at stage
    exact stage rfl
  progress top _ reading room := inv.progress top reading room

/-! ## The number of steps -/

/-- A bound on the steps so far, which each step raises. -/
def reached (s : CallLoop) : Nat :=
  match s.phase with
  | .top => 2 * s.waits.length + 1
  | .waiting _ => 2 * s.waits.length
  | .left _ => 2 * s.waits.length + 2

theorem reached_step {action : Action} (taken : s.step action = some next) :
    s.reached + 1 ≤ next.reached := by
  cases action with
  | turn now =>
      simp only [CallLoop.step] at taken
      split at taken
      · next top =>
          simp only [CallLoop.turn] at taken
          split at taken
          · cases taken
            simp [reached, top]
          · split at taken
            · rcases Option.map_eq_some_iff.mp taken with ⟨nextdeadline, -, rfl⟩
              unfold CallLoop.wait
              split <;> simp [reached, top] <;> omega
            · contradiction
      · contradiction
  | reply =>
      simp only [CallLoop.step] at taken
      split at taken
      · next waiting =>
          cases taken
          simp [reached, waiting]
      · contradiction
  | timeout now =>
      simp only [CallLoop.step] at taken
      split at taken
      · next waiting =>
          split at taken
          · cases taken
            simp [reached, waiting]
          · contradiction
      · contradiction

theorem length_run {actions : List Action} {final : CallLoop}
    (taken : ((machine start finaldeadline).restrict Room).run s actions = some final) :
    s.reached + actions.length ≤ final.reached := by
  have paid (s : CallLoop) (action : Action) (next : CallLoop) (_ : True)
      (stepped : ((machine start finaldeadline).restrict Room).step s action = some next) :
      True ∧ 0 + 1 + s.reached ≤ 0 + next.reached := by
    have more := reached_step (Machine.restrict_step stepped).2
    exact ⟨trivial, by omega⟩
  have whole := Machine.run_cost (fun _ => True) paid trivial taken
  rw [List.map_const', List.sum_replicate_nat] at whole
  omega

theorem Inv.reached_le (inv : Inv start timeout finaldeadline s) :
    s.reached ≤ 2 * waitsAllowed timeout + 2 := by
  have bound := inv.waits
  unfold reached
  split <;> omega

/-! ## The loop is in time -/

theorem Entered.inTime (entered : Entered start timeout finaldeadline) : InTime start timeout := by
  refine ⟨finaldeadline, entered.added, fun actions s taken => ?_⟩
  have inv : Inv start timeout finaldeadline s :=
    (Machine.reachableUnder_of_run taken).invariant _ (initial_inv entered)
      fun _ _ _ _ inv _ stepped => inv.step entered stepped
  refine ⟨inv.timely, ?_⟩
  have length := length_run taken
  have most := inv.reached_le
  change 1 + _ ≤ _ at length
  omega

/-- With a final deadline in the first second of the epoch the loop is left at once. -/
theorem not_inTime_of_flagged (normal : start.Normalised) (range : start.InRange)
    (positive : 0 < timeout.toInt) (added : addTimespec start timeout = some finaldeadline)
    (flagged : finaldeadline.tvSec = 0) : ¬ InTime start timeout := by
  rintro ⟨other, same, timely⟩
  cases added.symm.trans same
  rcases addTimespec_deadline range normal positive.le added with ⟨same, -, high⟩
  have room : (machine start finaldeadline).initial.Room (.turn start) := by
    have first : toMin.toInt = 1000 := by decide
    change start.instant + toMin.toInt * 1000000 < _
    rw [Timespec.instant, flagged] at same
    omega
  have left : ((machine start finaldeadline).restrict Room).run
      (machine start finaldeadline).initial [.turn start] =
        some { finaldeadline, clock := start, phase := .left false } := by
    simp only [Machine.run, Machine.restrict, if_pos room]
    simp [machine, CallLoop.step, CallLoop.turn, flagged]
  have passed := (timely _ _ left).1.unanswered rfl
  rw [endInstant] at passed
  dsimp only at passed
  omega

/-- The loop is in time exactly if the final deadline can be computed and is not taken for
the flag, or there is no time to wait. -/
theorem inTime_iff (start : Timespec) (timeout : Int32) (range : start.InRange)
    (normal : start.Normalised) (nonneg : 0 ≤ timeout.toInt) :
    InTime start timeout ↔ ∃ finaldeadline, addTimespec start timeout = some finaldeadline ∧
      (timeout = 0 ∨ finaldeadline.tvSec ≠ 0) := by
  constructor
  · rintro inTime
    rcases inTime with ⟨finaldeadline, added, timely⟩
    refine ⟨finaldeadline, added, ?_⟩
    by_contra neither
    rcases not_or.mp neither with ⟨some, flagged⟩
    have positive : 0 < timeout.toInt := by
      refine lt_of_le_of_ne nonneg fun zero => some (Int32.toInt_inj.mp ?_)
      rw [← zero]
      rfl
    exact not_inTime_of_flagged normal range positive added (not_not.mp flagged)
      ⟨finaldeadline, added, timely⟩
  · rintro ⟨finaldeadline, added, flag⟩
    exact Entered.inTime ⟨range, normal, nonneg, added, flag⟩

theorem inTime_iff_today : InTime ⟨1334000000, 5⟩ 120000 := by
  refine (inTime_iff _ _ (by decide) (by decide) (by decide)).mpr ⟨⟨1334000120, 5⟩, ?_, ?_⟩
  · rw [addTimespec_eq (by decide) (by decide) (by decide) (by decide)]
    unfold carryNsec
    rfl
  · exact Or.inr (by decide)

/-- A machine whose clock starts with the epoch gives up at once. -/
theorem firstSecond_gives_up : ¬ InTime ⟨0, 0⟩ 500 := by
  have added : addTimespec ⟨0, 0⟩ 500 = some ⟨0, 500000000⟩ := by
    rw [addTimespec_eq (by decide) (by decide) (by decide) (by decide)]
    unfold carryNsec
    rfl
  exact not_inTime_of_flagged (by decide) (by decide) (by decide) added rfl

end CallLoop

end YfsRpc.Rpc
