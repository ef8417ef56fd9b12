import Mathlib.Data.Finset.Insert
import YfsRpc.LockService.RawGrants

/-! # The lock tester

Each thread of a test acquires a lock and releases it, again and again, and between the two
it goes through `check_grant` and `check_release`. These count in `ct` who has the lock, by
the first byte of its name, and end the tester when a lock was granted twice or is released
without being held.
-/

namespace YfsRpc.LockService

open YfsRpc.Rpc
open LockProtocol (LockId)

/-! ## The rounds of a test -/

inductive TesterError
  | grantedTwice (lid : LockId)
  | releasedUnheld (lid : LockId)
  deriving DecidableEq

/-- Where a thread is in the body of the loop of `test3`, which all tests share. -/
inductive Round
  | between
  | acquiring (lid : LockId)
  /-- before `check_grant` -/
  | acquired (lid : LockId)
  /-- before `check_release` -/
  | granted (lid : LockId)
  /-- before `release` -/
  | checked (lid : LockId)
  | releasing (lid : LockId)
  deriving DecidableEq

namespace Round

/-- What a thread may call. Between the rounds it may also construct a `lock_client`. -/
def admits : Round → Op → Bool
  | between, .acquire _ | between, .bind => true
  | checked lid, .release lid' => lid' = lid
  | _, _ => false

def enter (round : Round) : Op → Round
  | .acquire lid => acquiring lid
  | .release lid => releasing lid
  | .bind | .stat _ => round

/-- The call has returned `OK`. -/
def leave : Round → Round
  | acquiring lid => acquired lid
  | releasing _ => between
  | round => round

/-- The lock that is held in a part of a round. -/
def holds? : Round → Option LockId
  | acquired lid | granted lid | checked lid => some lid
  | between | acquiring _ | releasing _ => none

end Round

structure LockTester (ι : Type) where
  locks : RawLocks ι
  rounds : ι → Nat → Round := fun _ _ => .between
  /-- indexed by `lid & 0xff` -/
  ct : UInt8 → Int := fun _ => 0
  error : Option TesterError := none

namespace LockTester

variable {ι : Type}

inductive Action (ι : Type)
  | locks (action : RawLocks.Action ι)
  | checkGrant (c : ι) (id : Nat)
  | checkRelease (c : ι) (id : Nat)

/-- A step before the end of the xids that acquires none but these locks, and frees no reply
that is being sent. -/
def Uses (names : Finset LockId) (t : LockTester ι) : Action ι → Prop
  | .locks action => RawLocks.Careful t.locks action ∧
      match action with
      | .enter _ _ (.acquire lid) => lid ∈ names
      | _ => True
  | .checkGrant .. | .checkRelease .. => True

def checkGrant (t : LockTester ι) (lid : LockId) : LockTester ι :=
  let x := lid.toUInt8
  if t.ct x ≠ 0 then
    { t with error := some (.grantedTwice lid) }
  else
    { t with ct := Function.update t.ct x (t.ct x + 1) }

def checkRelease (t : LockTester ι) (lid : LockId) : LockTester ι :=
  let x := lid.toUInt8
  if t.ct x ≠ 1 then
    { t with error := some (.releasedUnheld lid) }
  else
    { t with ct := Function.update t.ct x (t.ct x - 1) }

section Step

variable [DecidableEq ι]

def goto (t : LockTester ι) (c : ι) (id : Nat) (round : Round) : LockTester ι :=
  { t with rounds := Function.update t.rounds c (Function.update (t.rounds c) id round) }

/-- The tester may take the step of a client thread. -/
def admits (t : LockTester ι) : RawLocks.Action ι → Bool
  | .enter c id op => (t.rounds c id).admits op
  | .leave .. | .rpc .. => true

/-- The rounds after a step of the lock system. -/
def follow (t : LockTester ι) : RawLocks.Action ι → LockTester ι
  | .enter c id op => t.goto c id ((t.rounds c id).enter op)
  | .leave c id =>
      -- the thread of a call that failed does not go on
      if (t.locks.threads c id).status = .idle then t.goto c id (t.rounds c id).leave else t
  | .rpc .. => t

def step (nonce : ι → UInt32) (t : LockTester ι) : Action ι → Option (LockTester ι)
  | .locks action =>
      if t.error = none ∧ t.admits action = true then
        (RawLocks.step nonce t.locks action).map fun locks => { t with locks }.follow action
      else
        none
  | .checkGrant c id =>
      match t.error, t.rounds c id with
      | none, .acquired lid => some ((t.checkGrant lid).goto c id (.granted lid))
      | _, _ => none
  | .checkRelease c id =>
      match t.error, t.rounds c id with
      | none, .granted lid => some ((t.checkRelease lid).goto c id (.checked lid))
      | _, _ => none

def machine (nonce : ι → UInt32) (srvNonce : Nat) : Machine (LockTester ι) (Action ι) where
  initial := { locks := (RawLocks.machine nonce srvNonce).initial }
  step := step nonce

end Step

/-! ## What is counted -/

variable {nonce : ι → UInt32} {names : Finset LockId} {t next : LockTester ι}

/-- A thread is in its round where its calls are, and its lock is one of those in use. -/
def Follows (names : Finset LockId) (thread : ClientThread) : Round → Prop
  | .between | .releasing _ => True
  | .acquiring lid => lid ∈ names ∧ ∃ number, thread.status.call? = some (.acquire lid, number)
  | .acquired lid | .granted lid | .checked lid =>
      lid ∈ names ∧ lid ∈ thread.holds ∧ thread.status = .idle

/-- A thread whose lock has this first byte is between the checks. -/
def Between (t : LockTester ι) (x : UInt8) : Prop :=
  ∃ c id lid, t.rounds c id = .granted lid ∧ lid.toUInt8 = x

structure Counts (t : LockTester ι) (x : UInt8) : Prop where
  zero_or_one : t.ct x = 0 ∨ t.ct x = 1
  one : t.ct x = 1 ↔ t.Between x

structure Inv (names : Finset LockId) (t : LockTester ι) : Prop where
  follows : ∀ c id, Follows names (t.locks.threads c id) (t.rounds c id)
  counts : ∀ x, Counts t x
  error : t.error = none

theorem Follows.of_holds {round : Round} {thread : ClientThread} {lid : LockId}
    (follows : Follows names thread round) (held : round.holds? = some lid) :
    lid ∈ names ∧ lid ∈ thread.holds ∧ thread.status = .idle := by
  cases round with
  | between | acquiring | releasing => contradiction
  | acquired | granted | checked =>
      cases held
      exact follows

theorem Follows.enter {round : Round} {op : Op} (admitted : round.admits op = true)
    (used : ∀ lid, op = .acquire lid → lid ∈ names) (thread : ClientThread) (number : Nat) :
    Follows names (thread.enter op number) (round.enter op) := by
  cases op with
  | bind =>
      cases round with
      | between => trivial
      | acquiring | acquired | granted | checked | releasing => contradiction
  | stat => cases round <;> contradiction
  | acquire lid => exact ⟨used lid rfl, number, rfl⟩
  | release => trivial

/-- A thread goes on in its round unless its call failed. -/
theorem Follows.leave {round : Round} {thread : ClientThread} {op : Op} {number : Nat}
    (follows : Follows names thread round) (calling : thread.status = .calling op number)
    (result : Int) :
    Follows names (thread.leave op number result)
      (if (thread.leave op number result).status = .idle then round.leave else round) := by
  cases round with
  | between => split <;> trivial
  | releasing => split <;> trivial
  | acquired | granted | checked =>
      rw [follows.2.2] at calling
      contradiction
  | acquiring lid =>
      rcases follows with ⟨used, number', called⟩
      rw [calling] at called
      cases called
      by_cases ok : result = LockProtocol.ok
      · simp only [ClientThread.leave, ok, if_true, Round.leave]
        exact ⟨used, List.mem_cons_self, rfl⟩
      · simp only [ClientThread.leave, ok, if_false, reduceCtorEq]
        exact ⟨used, number, rfl⟩

/-- Threads with locks of the same first byte are the same. -/
theorem Inv.alone (inv : Inv names t) (exclusive : t.locks.MutuallyExclusive)
    (bytes : ∀ a ∈ names, ∀ b ∈ names, a.toUInt8 = b.toUInt8 → a = b)
    {c c' : ι} {id id' : Nat} {lid lid' : LockId} (first : (t.rounds c id).holds? = some lid)
    (second : (t.rounds c' id').holds? = some lid') (same : lid.toUInt8 = lid'.toUInt8) :
    c = c' ∧ id = id' := by
  rcases (inv.follows c id).of_holds first with ⟨used, holds, _⟩
  rcases (inv.follows c' id').of_holds second with ⟨used', holds', _⟩
  cases bytes lid used lid' used' same
  exact exclusive lid c id c' id' holds holds'

variable [DecidableEq ι]

@[simp] theorem rounds_goto_self (c : ι) (id : Nat) (round : Round) :
    (t.goto c id round).rounds c id = round := by
  simp [goto]

theorem rounds_goto_other {c c' : ι} {id id' : Nat} (round : Round)
    (other : ¬ (c' = c ∧ id' = id)) : (t.goto c id round).rounds c' id' = t.rounds c' id' := by
  by_cases client : c' = c
  · subst client
    have differs : id' ≠ id := fun same => other ⟨rfl, same⟩
    simp [goto, differs]
  · simp [goto, client]

/-- A thread whose lock has another first byte, or that is not between the checks, moves. -/
theorem between_goto {x : UInt8} {c : ι} {id : Nat} {round : Round}
    (before : ∀ lid, t.rounds c id = .granted lid → lid.toUInt8 ≠ x)
    (after : ∀ lid, round = .granted lid → lid.toUInt8 ≠ x) :
    (t.goto c id round).Between x ↔ t.Between x := by
  constructor
  · intro between
    rcases between with ⟨c', id', lid, granted, byte⟩
    have other : ¬ (c' = c ∧ id' = id) := by
      intro here
      rw [here.1, here.2, rounds_goto_self] at granted
      exact after lid granted byte
    exact ⟨c', id', lid, (rounds_goto_other round other).symm.trans granted, byte⟩
  · intro between
    rcases between with ⟨c', id', lid, granted, byte⟩
    have other : ¬ (c' = c ∧ id' = id) := by
      intro here
      rw [here.1, here.2] at granted
      exact before lid granted byte
    exact ⟨c', id', lid, (rounds_goto_other round other).trans granted, byte⟩

/-! ## A step -/

/-- The thread that takes the step follows its calls, and so do the others. -/
theorem Inv.goto (inv : Inv names t) {locks : RawLocks ι} {c : ι} {id : Nat} {round : Round}
    {thread : ClientThread} (threads : locks.threads = t.locks.setThread c id thread)
    (follows : Follows names thread round) (before : ∀ lid, t.rounds c id ≠ .granted lid)
    (after : ∀ lid, round ≠ .granted lid) :
    Inv names ({ t with locks }.goto c id round) where
  follows c' id' := by
    by_cases here : c' = c ∧ id' = id
    · rcases here with ⟨rfl, rfl⟩
      rw [rounds_goto_self]
      change Follows names (locks.threads c' id') round
      rw [threads]
      simpa [RawLocks.setThread] using follows
    · rw [rounds_goto_other round here]
      change Follows names (locks.threads c' id') (t.rounds c' id')
      have same : locks.threads c' id' = t.locks.threads c' id' := by
        rw [threads]
        by_cases client : c' = c
        · subst client
          have differs : id' ≠ id := fun same => here ⟨rfl, same⟩
          simp [RawLocks.setThread, differs]
        · simp [RawLocks.setThread, client]
      rw [same]
      exact inv.follows c' id'
  counts x := by
    have counts := inv.counts x
    constructor
    · exact counts.zero_or_one
    · refine counts.one.trans (Iff.symm ?_)
      apply between_goto (t := { t with locks })
      · exact fun lid granted => absurd granted (before lid)
      · exact fun lid granted => absurd granted (after lid)
  error := inv.error

/-- Where a thread is after its call, and where nobody moves, is one case. -/
theorem follow_leave (t : LockTester ι) (c : ι) (id : Nat) :
    t.follow (.leave c id) = t.goto c id
      (if (t.locks.threads c id).status = .idle then (t.rounds c id).leave
        else t.rounds c id) := by
  simp only [follow]
  split
  · rfl
  · simp [goto]

theorem Inv.locks (inv : Inv names t) {action : RawLocks.Action ι} {locks : RawLocks ι}
    (admitted : t.admits action = true) (uses : Uses names t (.locks action))
    (threaded : RawLocks.Threaded t.locks action locks.threads) :
    Inv names ({ t with locks }.follow action) := by
  generalize after : locks.threads = threads at threaded
  cases threaded with
  | enter c id op number idle =>
      have used (lid : LockId) (acquires : op = .acquire lid) : lid ∈ names := by
        subst acquires
        exact uses.2
      have admits : (t.rounds c id).admits op = true := admitted
      refine inv.goto after (Follows.enter admits used _ _) ?_ ?_
      · intro lid granted
        rw [granted] at admits
        contradiction
      · intro lid granted
        cases op with
        | acquire | release => contradiction
        | stat => cases round : t.rounds c id <;> rw [round] at admits <;> contradiction
        | bind =>
            have same : t.rounds c id = .granted lid := granted
            rw [same] at admits
            contradiction
  | leave c id op number result calling =>
      have follows := inv.follows c id
      have apart (lid : LockId) : t.rounds c id ≠ .granted lid := by
        intro granted
        rw [granted] at follows
        have busy := calling.symm.trans follows.2.2
        contradiction
      have left := follows.leave calling result
      rw [follow_leave]
      apply inv.goto after
      · simpa [after, RawLocks.setThread] using left
      · exact apart
      · intro lid
        split
        · cases round : t.rounds c id <;> simp [Round.leave]
          exact fun same => apart lid (same ▸ round)
        · exact apart lid
  | rpc =>
      refine ⟨fun c id => ?_, fun x => ?_, inv.error⟩
      · change Follows names (locks.threads c id) (t.rounds c id)
        rw [after]
        exact inv.follows c id
      · exact ⟨(inv.counts x).zero_or_one, (inv.counts x).one⟩

theorem Inv.follows_goto (inv : Inv names t) {c : ι} {id : Nat} (round : Round)
    (follows : Follows names (t.locks.threads c id) round) (c' : ι) (id' : Nat) :
    Follows names (t.locks.threads c' id') ((t.goto c id round).rounds c' id') := by
  by_cases here : c' = c ∧ id' = id
  · rcases here with ⟨rfl, rfl⟩
    rw [rounds_goto_self]
    exact follows
  · rw [rounds_goto_other round here]
    exact inv.follows c' id'

/-- What the checks do to the counters of other first bytes. -/
theorem Inv.counts_other (inv : Inv names t) {lid : LockId} {c : ι} {id : Nat} {round : Round}
    {n : Int} {x : UInt8} (other : x ≠ lid.toUInt8)
    (before : ∀ lid', t.rounds c id = .granted lid' → lid' = lid)
    (after : ∀ lid', round = .granted lid' → lid' = lid) :
    Counts ({ t with ct := Function.update t.ct lid.toUInt8 n }.goto c id round) x := by
  have counts := inv.counts x
  have same : Function.update t.ct lid.toUInt8 n x = t.ct x := Function.update_of_ne other _ _
  constructor
  · change Function.update t.ct lid.toUInt8 n x = 0 ∨ Function.update t.ct lid.toUInt8 n x = 1
    rw [same]
    exact counts.zero_or_one
  · change Function.update t.ct lid.toUInt8 n x = 1 ↔ _
    rw [same, counts.one]
    symm
    apply between_goto
    · intro lid' granted
      rw [before lid' granted]
      exact other.symm
    · intro lid' granted
      rw [after lid' granted]
      exact other.symm

/-- The lock was not counted, since nobody else holds it. -/
theorem Inv.checkGrant (inv : Inv names t) (exclusive : t.locks.MutuallyExclusive)
    (bytes : ∀ a ∈ names, ∀ b ∈ names, a.toUInt8 = b.toUInt8 → a = b) {c : ι} {id : Nat}
    {lid : LockId} (acquired : t.rounds c id = .acquired lid) :
    Inv names ((t.checkGrant lid).goto c id (.granted lid)) := by
  have here : (t.rounds c id).holds? = some lid := by rw [acquired]; rfl
  have zero : t.ct lid.toUInt8 = 0 := by
    rcases (inv.counts lid.toUInt8).zero_or_one with zero | one
    · exact zero
    · rcases (inv.counts lid.toUInt8).one.mp one with ⟨c', id', lid', granted, same⟩
      have there : (t.rounds c' id').holds? = some lid' := by rw [granted]; rfl
      have alone := inv.alone exclusive bytes here there same.symm
      rw [← alone.1, ← alone.2, acquired] at granted
      contradiction
  have passed : t.checkGrant lid = { t with ct := Function.update t.ct lid.toUInt8 1 } := by
    simp [LockTester.checkGrant, zero]
  have follows := inv.follows c id
  rw [acquired] at follows
  rw [passed]
  constructor
  · exact inv.follows_goto (.granted lid) follows
  · intro x
    by_cases same : x = lid.toUInt8
    · subst same
      have one : Function.update t.ct lid.toUInt8 1 lid.toUInt8 = 1 := Function.update_self ..
      exact ⟨Or.inr one, iff_of_true one ⟨c, id, lid, rounds_goto_self c id _, rfl⟩⟩
    · apply inv.counts_other same
      · intro lid' granted
        rw [acquired] at granted
        contradiction
      · intro lid' granted
        exact (Round.granted.inj granted).symm
  · exact inv.error

/-- The lock was counted, and nobody else holds it. -/
theorem Inv.checkRelease (inv : Inv names t) (exclusive : t.locks.MutuallyExclusive)
    (bytes : ∀ a ∈ names, ∀ b ∈ names, a.toUInt8 = b.toUInt8 → a = b) {c : ι} {id : Nat}
    {lid : LockId} (granted : t.rounds c id = .granted lid) :
    Inv names ((t.checkRelease lid).goto c id (.checked lid)) := by
  have here : (t.rounds c id).holds? = some lid := by rw [granted]; rfl
  have one : t.ct lid.toUInt8 = 1 := (inv.counts lid.toUInt8).one.mpr ⟨c, id, lid, granted, rfl⟩
  have passed : t.checkRelease lid = { t with ct := Function.update t.ct lid.toUInt8 0 } := by
    simp [LockTester.checkRelease, one]
  have follows := inv.follows c id
  rw [granted] at follows
  rw [passed]
  constructor
  · exact inv.follows_goto (.checked lid) follows
  · intro x
    by_cases same : x = lid.toUInt8
    · subst same
      have zero : Function.update t.ct lid.toUInt8 0 lid.toUInt8 = 0 := Function.update_self ..
      constructor
      · exact Or.inl zero
      · apply iff_of_false
        · intro one
          exact absurd (zero.symm.trans one) (by decide)
        · intro between
          rcases between with ⟨c', id', lid', granted', byte⟩
          by_cases self : c' = c ∧ id' = id
          · rw [self.1, self.2, rounds_goto_self] at granted'
            contradiction
          · rw [rounds_goto_other _ self] at granted'
            have there : (t.rounds c' id').holds? = some lid' := by
              change t.rounds c' id' = _ at granted'
              rw [granted']
              rfl
            have alone := inv.alone exclusive bytes here there byte.symm
            exact self ⟨alone.1.symm, alone.2.symm⟩
    · apply inv.counts_other same
      · intro lid' same
        exact (Round.granted.inj (granted.symm.trans same)).symm
      · intro lid' same
        contradiction
  · exact inv.error

/-! ## Runs -/

theorem step_cases {action : Action ι} (taken : t.step nonce action = some next) :
    (∃ inner locks, action = .locks inner ∧ t.admits inner = true ∧
      RawLocks.step nonce t.locks inner = some locks ∧ next = { t with locks }.follow inner) ∨
    (∃ c id lid, t.rounds c id = .acquired lid ∧
      next = (t.checkGrant lid).goto c id (.granted lid)) ∨
    (∃ c id lid, t.rounds c id = .granted lid ∧
      next = (t.checkRelease lid).goto c id (.checked lid)) := by
  cases action with
  | locks inner =>
      simp only [step] at taken
      split at taken
      · next admitted =>
          rcases Option.map_eq_some_iff.mp taken with ⟨locks, stepped, rfl⟩
          exact Or.inl ⟨inner, locks, rfl, admitted.2, stepped, rfl⟩
      · contradiction
  | checkGrant c id =>
      simp only [step] at taken
      split at taken
      · next lid _ acquired =>
          cases taken
          exact Or.inr (Or.inl ⟨c, id, lid, acquired, rfl⟩)
      · contradiction
  | checkRelease c id =>
      simp only [step] at taken
      split at taken
      · next lid _ granted =>
          cases taken
          exact Or.inr (Or.inr ⟨c, id, lid, granted, rfl⟩)
      · contradiction

theorem follow_locks (t : LockTester ι) (action : RawLocks.Action ι) :
    (t.follow action).locks = t.locks := by
  cases action with
  | enter | rpc => rfl
  | leave c id =>
      rw [follow_leave]
      rfl

omit [DecidableEq ι] in
theorem checkGrant_locks (t : LockTester ι) (lid : LockId) :
    (t.checkGrant lid).locks = t.locks := by
  unfold checkGrant
  dsimp only
  split <;> rfl

omit [DecidableEq ι] in
theorem checkRelease_locks (t : LockTester ι) (lid : LockId) :
    (t.checkRelease lid).locks = t.locks := by
  unfold checkRelease
  dsimp only
  split <;> rfl

variable {srvNonce : Nat}

/-- The locks under test are those of a lock service. -/
theorem locks_reachable (reachable : (machine nonce srvNonce).ReachableUnder (Uses names) t) :
    (RawLocks.machine nonce srvNonce).ReachableUnder RawLocks.Careful t.locks := by
  induction reachable with
  | initial => exact .initial
  | step before uses taken induction =>
      rcases step_cases taken with ⟨inner, locks, rfl, _, stepped, rfl⟩ | checked | checked
      · rw [follow_locks]
        exact induction.step uses.1 stepped
      · rcases checked with ⟨c, id, lid, _, rfl⟩
        change (RawLocks.machine nonce srvNonce).ReachableUnder _ (checkGrant _ lid).locks
        rw [checkGrant_locks]
        exact induction
      · rcases checked with ⟨c, id, lid, _, rfl⟩
        change (RawLocks.machine nonce srvNonce).ReachableUnder _ (checkRelease _ lid).locks
        rw [checkRelease_locks]
        exact induction

theorem inv_initial (srvNonce : Nat) : Inv names (machine nonce srvNonce).initial where
  follows _ _ := trivial
  counts x := by
    constructor
    · exact Or.inl rfl
    · apply iff_of_false
      · exact Int.zero_ne_one
      · intro between
        rcases between with ⟨c, id, lid, granted, _⟩
        contradiction
  error := rfl

theorem reachable_inv (distinct : Function.Injective nonce) (nonzero : ∀ c, nonce c ≠ 0)
    (bytes : ∀ a ∈ names, ∀ b ∈ names, a.toUInt8 = b.toUInt8 → a = b)
    (reachable : (machine nonce srvNonce).ReachableUnder (Uses names) t) : Inv names t := by
  apply reachable.invariant (Inv names) (inv_initial srvNonce)
  intro t action next before inv uses taken
  have exclusive : t.locks.MutuallyExclusive :=
    LockSystem.mutually_exclusive distinct nonzero (RawLocks.careful_view (locks_reachable before))
  rcases step_cases taken with ⟨inner, locks, rfl, admitted, stepped, rfl⟩ | checked | checked
  · exact inv.locks admitted uses (RawLocks.threaded stepped)
  · rcases checked with ⟨c, id, lid, acquired, rfl⟩
    exact inv.checkGrant exclusive bytes acquired
  · rcases checked with ⟨c, id, lid, granted, rfl⟩
    exact inv.checkRelease exclusive bytes granted

/-- Whatever the network does, no check ends the tester with an error when the names of its
locks differ in the first byte, and it counts exactly the locks that are held between the
checks. -/
theorem never_fails (distinct : Function.Injective nonce) (nonzero : ∀ c, nonce c ≠ 0)
    (bytes : ∀ a ∈ names, ∀ b ∈ names, a.toUInt8 = b.toUInt8 → a = b)
    (reachable : (machine nonce srvNonce).ReachableUnder (Uses names) t) :
    t.error = none ∧ ∀ x, (t.ct x = 0 ∨ t.ct x = 1) ∧ (t.ct x = 1 ↔ t.Between x) := by
  have inv := reachable_inv distinct nonzero bytes reachable
  constructor
  · exact inv.error
  · intro x
    exact ⟨(inv.counts x).zero_or_one, (inv.counts x).one⟩

instance (names : Finset LockId) (t : LockTester ι) : ∀ action, Decidable (Uses names t action)
  | .locks (.enter c id op) =>
      match op with
      | .acquire lid =>
          inferInstanceAs (Decidable (RawLocks.Careful t.locks (.enter c id (.acquire lid)) ∧
            lid ∈ names))
      | .bind | .stat _ | .release _ => inferInstanceAs (Decidable (_ ∧ True))
  | .locks (.leave ..) | .locks (.rpc ..) => inferInstanceAs (Decidable (_ ∧ True))
  | .checkGrant .. | .checkRelease .. => instDecidableTrue

/-- A round of one thread, and the first half of one of another thread. -/
def twoRounds : List (Action Unit) :=
  RawLocks.acquireFirst.map .locks ++ [.checkGrant () 1, .checkRelease () 1] ++
    (RawLocks.callOnce 1 3 (.release 7) 0 0 ++
      RawLocks.callOnce 2 4 (.acquire 7) 0 1).map .locks ++
    [.checkGrant () 2]

theorem never_fails_twoRounds :
    ∃ t : LockTester Unit, t.rounds () 2 = .granted 7 ∧ t.error = none ∧
      ∀ x, (t.ct x = 0 ∨ t.ct x = 1) ∧ (t.ct x = 1 ↔ t.Between x) := by
  have run : (((machine (fun _ => 5) 9).restrict (Uses {7})).run
      (machine (fun _ => 5) 9).initial twoRounds).map (fun t => t.rounds () 2) =
      some (.granted 7) := by decide +kernel
  rcases Option.map_eq_some_iff.mp run with ⟨t, taken, granted⟩
  have reachable := Machine.reachableUnder_of_run taken
  have bytes : ∀ a ∈ ({7} : Finset LockId), ∀ b ∈ ({7} : Finset LockId),
      a.toUInt8 = b.toUInt8 → a = b := by
    intro a first b second _
    exact (Finset.mem_singleton.mp first).trans (Finset.mem_singleton.mp second).symm
  exact ⟨t, granted, never_fails (Function.injective_of_subsingleton _) (fun _ => by decide) bytes
    reachable⟩

end LockTester

end YfsRpc.LockService
