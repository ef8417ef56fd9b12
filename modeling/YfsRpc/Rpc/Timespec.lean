import Mathlib.Tactic.Linarith

/-! # Deadline arithmetic

`add_timespec` and `cmp_timespec` of rpc.cc, with `time_t` and `long` of 64
bits. A signed overflow and a failed assertion have no result.
-/

namespace YfsRpc.Rpc

/-- The value of a signed 64-bit operation, which overflows outside the range. -/
def int64 (value : Int) : Option Int :=
  if -2 ^ 63 ≤ value ∧ value < 2 ^ 63 then some value else none

theorem int64_of_range {value : Int} (low : -2 ^ 63 ≤ value) (high : value < 2 ^ 63) :
    int64 value = some value :=
  if_pos ⟨low, high⟩

theorem int64_eq_some {value result : Int} :
    int64 value = some result ↔ -2 ^ 63 ≤ value ∧ value < 2 ^ 63 ∧ result = value := by
  simp only [int64, Option.ite_none_right_eq_some, Option.some.injEq, and_assoc]
  constructor
  · rintro ⟨low, high, rfl⟩
    exact ⟨low, high, rfl⟩
  · rintro ⟨low, high, rfl⟩
    exact ⟨low, high, rfl⟩

structure Timespec where
  tvSec : Int
  tvNsec : Int
deriving DecidableEq, Repr

namespace Timespec

/-- What `pthread_cond_timedwait` accepts as a time. -/
def Normalised (time : Timespec) : Prop := 0 ≤ time.tvNsec ∧ time.tvNsec < 1000000000

/-- The seconds are a `time_t`. -/
def InRange (time : Timespec) : Prop := -2 ^ 63 ≤ time.tvSec ∧ time.tvSec < 2 ^ 63

/-- Nanoseconds since the epoch. -/
def instant (time : Timespec) : Int := time.tvSec * 1000000000 + time.tvNsec

instance (time : Timespec) : Decidable time.Normalised :=
  inferInstanceAs (Decidable (_ ∧ _))

instance (time : Timespec) : Decidable time.InRange :=
  inferInstanceAs (Decidable (_ ∧ _))

/-- The seconds of a normalised time are the whole seconds of its instant. -/
theorem instant_div {time : Timespec} (normal : time.Normalised) :
    time.instant / 1000000000 = time.tvSec := by
  rcases normal with ⟨low, high⟩
  simp only [instant]
  omega

end Timespec

/-! ## Comparing -/

def cmpTimespec (a b : Timespec) : Int :=
  if a.tvSec > b.tvSec then 1
  else if a.tvSec < b.tvSec then -1
  else
    if a.tvNsec > b.tvNsec then 1
    else if a.tvNsec < b.tvNsec then -1
    else 0

/-- On normalised times the comparison by fields is the comparison of instants. -/
theorem cmpTimespec_eq_sign {a b : Timespec} (left : a.Normalised) (right : b.Normalised) :
    cmpTimespec a b = (a.instant - b.instant).sign := by
  rcases left with ⟨leftLow, leftHigh⟩
  rcases right with ⟨rightLow, rightHigh⟩
  unfold cmpTimespec Timespec.instant
  rcases lt_trichotomy a.tvSec b.tvSec with earlier | same | later
  · rw [if_neg (by omega), if_pos earlier, Int.sign_eq_neg_one_of_neg (by omega)]
  · rw [if_neg (by omega), if_neg (by omega)]
    rcases lt_trichotomy a.tvNsec b.tvNsec with lower | equal | higher
    · rw [if_neg (by omega), if_pos lower, Int.sign_eq_neg_one_of_neg (by omega)]
    · rw [if_neg (by omega), if_neg (by omega), same, equal, sub_self, Int.sign_zero]
    · rw [if_pos higher, Int.sign_eq_one_of_pos (by omega)]
  · rw [if_pos later, Int.sign_eq_one_of_pos (by omega)]

/-! ## The carry loop -/

/-- The carry loop of `add_timespec`. -/
def carryNsec (tvSec tvNsec : Int) : Option Timespec :=
  -- The source compares with `>`, so a whole second stays in `tv_nsec`.
  if tvNsec > 1000000000 then do
    let tvSec ← int64 (tvSec + 1)
    carryNsec tvSec (tvNsec - 1000000000)
  else
    some { tvSec, tvNsec }
termination_by tvNsec.toNat

/-- What the loop leaves of `tvSec` seconds and `tvNsec` nanoseconds. -/
structure Carried (tvSec tvNsec : Int) (result : Timespec) : Prop where
  instant : result.instant = tvSec * 1000000000 + tvNsec
  range : result.InRange
  low : 0 ≤ result.tvNsec
  high : result.tvNsec ≤ 1000000000
  boundary : result.tvNsec = 1000000000 ↔ 0 < tvNsec ∧ tvNsec % 1000000000 = 0

/-- A turn of the loop moves one second over. -/
theorem Carried.turn {tvSec tvNsec : Int} {result : Timespec} (more : tvNsec > 1000000000)
    (carried : Carried (tvSec + 1) (tvNsec - 1000000000) result) :
    Carried tvSec tvNsec result := by
  refine ⟨?_, carried.range, carried.low, carried.high, ?_⟩
  · have same := carried.instant
    omega
  · rw [carried.boundary]
    omega

theorem carryNsec_carried (tvSec tvNsec : Int) (result : Timespec)
    (range : -2 ^ 63 ≤ tvSec ∧ tvSec < 2 ^ 63) (nonneg : 0 ≤ tvNsec)
    (done : carryNsec tvSec tvNsec = some result) : Carried tvSec tvNsec result := by
  induction tvSec, tvNsec using carryNsec.induct with
  | case1 tvSec tvNsec more hyp =>
    unfold carryNsec at done
    rw [if_pos more] at done
    rcases Option.bind_eq_some_iff.mp done with ⟨next, moved, rest⟩
    rcases int64_eq_some.mp moved with ⟨low, high, rfl⟩
    exact (hyp _ ⟨low, high⟩ (by omega) rest).turn more
  | case2 tvSec tvNsec stop =>
    unfold carryNsec at done
    rw [if_neg stop] at done
    rcases Option.some.inj done with rfl
    have high : tvNsec ≤ 1000000000 := by omega
    refine ⟨rfl, range, nonneg, high, ?_⟩
    show tvNsec = 1000000000 ↔ _
    omega

/-- The loop ends without an overflow when the instant fits. -/
theorem carryNsec_total (tvSec tvNsec : Int) (low : -2 ^ 63 ≤ tvSec)
    (fits : tvSec * 1000000000 + tvNsec ≤ 2 ^ 63 * 1000000000) :
    ∃ result, carryNsec tvSec tvNsec = some result := by
  induction tvSec, tvNsec using carryNsec.induct with
  | case1 tvSec tvNsec more hyp =>
    unfold carryNsec
    rw [if_pos more, int64_of_range (by omega) (by omega)]
    exact hyp (tvSec + 1) (by omega) (by omega)
  | case2 tvSec tvNsec stop =>
    unfold carryNsec
    rw [if_neg stop]
    exact ⟨_, rfl⟩

/-! ## Adding -/

/-- `result` after the call; the `int` product cannot overflow. -/
def addTimespec (a : Timespec) (b : Int32) : Option Timespec := do
  let tvSec ← int64 (a.tvSec + b.toInt.tdiv 1000)
  let tvNsec ← int64 (a.tvNsec + b.toInt.tmod 1000 * 1000000)
  if tvNsec ≥ 0 then carryNsec tvSec tvNsec else none

/-- A deadline to hand to `pthread_cond_timedwait`: normalised, and `b`
milliseconds after `a`. -/
def DeadlineExact (a : Timespec) (b : Int32) : Prop :=
  ∃ result, addTimespec a b = some result ∧ result.Normalised ∧
    result.instant = a.instant + b.toInt * 1000000

/-- The nanoseconds do not add up to exactly one second, and the deadline is
still a `time_t`. -/
def DeadlineCond (a : Timespec) (b : Int32) : Prop :=
  a.tvNsec + b.toInt % 1000 * 1000000 ≠ 1000000000 ∧
    (a.instant + b.toInt * 1000000) / 1000000000 < 2 ^ 63

section Adding

variable {a : Timespec} {b : Int32}

/-- The sum of the fields goes into the loop. -/
theorem addTimespec_eq (range : a.InRange) (normal : a.Normalised) (timeout : 0 ≤ b.toInt)
    (fits : a.tvSec + b.toInt / 1000 < 2 ^ 63) :
    addTimespec a b =
      carryNsec (a.tvSec + b.toInt / 1000) (a.tvNsec + b.toInt % 1000 * 1000000) := by
  rcases normal with ⟨low, high⟩
  have start := range.1
  unfold addTimespec
  rw [Int.tdiv_eq_ediv_of_nonneg timeout, Int.tmod_eq_emod_of_nonneg timeout,
    int64_of_range (by omega) fits, Option.bind_eq_bind, Option.bind_some,
    int64_of_range (by omega) (by omega), Option.bind_some, if_pos (by omega)]

/-- Without room for the whole seconds the call has no result. -/
theorem addTimespec_overflow (timeout : 0 ≤ b.toInt)
    (beyond : ¬ a.tvSec + b.toInt / 1000 < 2 ^ 63) : addTimespec a b = none := by
  unfold addTimespec
  rw [Int.tdiv_eq_ediv_of_nonneg timeout, int64, if_neg (by omega)]
  rfl

theorem addTimespec_carried {result : Timespec} (range : a.InRange) (normal : a.Normalised)
    (timeout : 0 ≤ b.toInt) (done : addTimespec a b = some result) :
    Carried (a.tvSec + b.toInt / 1000) (a.tvNsec + b.toInt % 1000 * 1000000) result := by
  have start := range.1
  have low := normal.1
  by_cases fits : a.tvSec + b.toInt / 1000 < 2 ^ 63
  · rw [addTimespec_eq range normal timeout fits] at done
    exact carryNsec_carried _ _ _ ⟨by omega, fits⟩ (by omega) done
  · rw [addTimespec_overflow timeout fits] at done
    cases done

/-- The fields that go into the loop denote the deadline. -/
theorem instant_add (a : Timespec) (b : Int32) :
    (a.tvSec + b.toInt / 1000) * 1000000000 + (a.tvNsec + b.toInt % 1000 * 1000000) =
      a.instant + b.toInt * 1000000 := by
  simp only [Timespec.instant]
  omega

theorem addTimespec_total (range : a.InRange) (normal : a.Normalised) (timeout : 0 ≤ b.toInt)
    (room : a.instant + b.toInt * 1000000 < 2 ^ 63 * 1000000000) :
    ∃ result, addTimespec a b = some result := by
  have start := range.1
  have low := normal.1
  have sum := instant_add a b
  rw [addTimespec_eq range normal timeout (by omega)]
  exact carryNsec_total _ _ (by omega) (by omega)

theorem deadlineExact_iff (range : a.InRange) (normal : a.Normalised)
    (timeout : 0 ≤ b.toInt) : DeadlineExact a b ↔ DeadlineCond a b := by
  have start := range.1
  rcases normal with ⟨low, high⟩
  have sum := instant_add a b
  constructor
  · rintro ⟨result, done, exactly, same⟩
    have carried := addTimespec_carried range ⟨low, high⟩ timeout done
    refine ⟨?_, ?_⟩
    · intro whole
      have stuck := carried.boundary.mpr (by omega)
      have bound := exactly.2
      omega
    · rw [← same, Timespec.instant_div exactly]
      exact carried.range.2
  · rintro ⟨boundary, room⟩
    rcases addTimespec_total range ⟨low, high⟩ timeout (by omega) with ⟨result, done⟩
    have carried := addTimespec_carried range ⟨low, high⟩ timeout done
    refine ⟨result, done, ⟨carried.low, ?_⟩, carried.instant.trans sum⟩
    have bound := carried.high
    have whole := carried.boundary
    omega

/-- A deadline is exact unless the nanoseconds add up to one second, and exact
deadlines are compared as the instants they denote. -/
theorem addTimespec_exact_iff (a a' : Timespec) (b b' : Int32)
    (range : a.InRange) (normal : a.Normalised) (timeout : 0 ≤ b.toInt) :
    (DeadlineExact a b ↔ DeadlineCond a b) ∧
      (DeadlineExact a b → DeadlineExact a' b' →
        ∀ result result', addTimespec a b = some result → addTimespec a' b' = some result' →
          cmpTimespec result result' =
            (a.instant + b.toInt * 1000000 - (a'.instant + b'.toInt * 1000000)).sign) := by
  refine ⟨deadlineExact_iff range normal timeout, ?_⟩
  rintro ⟨result, done, exactly, same⟩ ⟨result', done', exactly', same'⟩
  intro given given' isGiven isGiven'
  rcases Option.some.inj (done.symm.trans isGiven) with rfl
  rcases Option.some.inj (done'.symm.trans isGiven') with rfl
  rw [cmpTimespec_eq_sign exactly exactly', same, same']

theorem addTimespec_exact_iff_carry :
    DeadlineExact ⟨5, 999000001⟩ 1 ↔ DeadlineCond ⟨5, 999000001⟩ 1 :=
  (addTimespec_exact_iff ⟨5, 999000001⟩ ⟨5, 0⟩ 1 0 (by decide) (by decide) (by decide)).1

/-- One millisecond before the full second the carry is missed. -/
theorem wholeSecond_unnormalised :
    Timespec.InRange ⟨5, 999000000⟩ ∧ Timespec.Normalised ⟨5, 999000000⟩ ∧
      addTimespec ⟨5, 999000000⟩ 1 = some ⟨5, 1000000000⟩ ∧
      ¬ DeadlineExact ⟨5, 999000000⟩ 1 := by
  have result : addTimespec ⟨5, 999000000⟩ 1 = some ⟨5, 1000000000⟩ := by
    rw [addTimespec_eq (by decide) (by decide) (by decide) (by decide)]
    unfold carryNsec
    rfl
  refine ⟨by decide, by decide, result, ?_⟩
  rintro ⟨other, done, normal, same⟩
  rcases Option.some.inj (result.symm.trans done) with rfl
  exact absurd normal (by decide)

end Adding

end YfsRpc.Rpc
