import YfsRpc.Rpc.Endpoint

/-! # Stranded senders

The sender whose PDU is being written waits on `send_complete_`, all others on
`send_wait_`. Whoever finds the connection dead wakes the first one, and that one wakes
the rest when it returns. Only `closeconn` wakes nobody.
-/

namespace YfsRpc.Rpc

open Connection (SendPhase WriteResult writepdu)

/-- The sender owns `wpdu_`. -/
def Connection.SendPhase.owns : SendPhase → Bool
  | .waitComplete _ | .removing _ => true
  | .idle | .waitTurn _ | .returned .. => false

/-- `writepdu` keeps the buffer. -/
theorem Connection.writepdu_buf {wpdu after : Connection.Charbuf} {stream stream' : List UInt8}
    {result : WriteResult} {succ : Bool}
    (done : writepdu wpdu stream result = some (succ, after, stream')) :
    after.buf.isSome = wpdu.buf.isSome := by
  unfold writepdu at done
  split at done
  · contradiction
  · split at done
    · cases done
      rfl
    · split at done
      · contradiction
      · next b full =>
          rw [full]
          cases result with
          | wrote n =>
              dsimp only at done
              generalize (if wpdu.solong = 0 then Connection.stamp wpdu.sz b else b) = c at done
              split at done
              · cases done
                rfl
              · contradiction
          | again | error =>
              cases done
              rfl

namespace Endpoint

variable {ι : Type}

/-- A sender that is going to wake others: it was woken itself, or its write failed. -/
def WakeupDue (e : Endpoint ι) : Prop :=
  ∃ i, i ∈ e.sendComplete.woken ∨ ∃ b, e.senders i = .removing b

/-- Nobody waits on a dead connection unless a wakeup is due. -/
def NoneStranded (e : Endpoint ι) : Prop :=
  e.dead = true → ¬ e.WakeupDue → e.sendComplete.waiting = ∅ ∧ e.sendWait.waiting = ∅

/-- `closeconn` finds the connection dead, or nobody waiting for the rest of a write. -/
def ClosedIdle (e : Endpoint ι) : Action ι → Prop
  | .closeconn => e.dead = false → e.sendComplete.waiting = ∅
  | _ => True

/-! ## The invariant -/

/-- What holds of all senders but the one that has `m_`. -/
structure Transit (e : Endpoint ι) (i : ι) : Prop where
  turn : ∀ j, e.sendWait.Inside j ↔ j ≠ i ∧ ∃ b, e.senders j = .waitTurn b
  complete : ∀ j, e.sendComplete.Inside j ↔ j ≠ i ∧ ∃ b, e.senders j = .waitComplete b
  queued : e.sendWait.waiting.Nonempty → e.wpdu.buf.isSome = true
  awake : e.dead = true → e.sendComplete.waiting = ∅

/-- The sender that has `m_` does not own `wpdu_` and is counted in `waiters_`. -/
structure Entering (e : Endpoint ι) (i : ι) : Prop extends Transit e i where
  outside : (e.senders i).owns = false
  owned : ∀ j, (e.senders j).owns = true → e.wpdu.buf.isSome = true
  owner : e.wpdu.buf.isSome = true → ∃ j, (e.senders j).owns = true
  unique : ∀ j k, (e.senders j).owns = true → (e.senders k).owns = true → j = k
  waiters : e.waiters = e.sendWait.count + 1

/-- The sender that has `m_` owns `wpdu_`. -/
structure Owning (e : Endpoint ι) (i : ι) : Prop extends Transit e i where
  others : ∀ j, j ≠ i → (e.senders j).owns = false
  full : e.wpdu.buf.isSome = true
  waiters : e.waiters = e.sendWait.count

structure Inv (e : Endpoint ι) : Prop where
  turn : ∀ j, e.sendWait.Inside j ↔ ∃ b, e.senders j = .waitTurn b
  complete : ∀ j, e.sendComplete.Inside j ↔ ∃ b, e.senders j = .waitComplete b
  queued : e.sendWait.waiting.Nonempty → e.wpdu.buf.isSome = true
  awake : e.dead = true → e.sendComplete.waiting = ∅
  owned : ∀ j, (e.senders j).owns = true → e.wpdu.buf.isSome = true
  owner : e.wpdu.buf.isSome = true → ∃ j, (e.senders j).owns = true
  unique : ∀ j k, (e.senders j).owns = true → (e.senders k).owns = true → j = k
  waiters : e.waiters = e.sendWait.count

variable {e next : Endpoint ι} {i : ι} {b : List UInt8} {call : Option PollCall}

theorem inv_initial : Inv ({} : Endpoint ι) where
  turn j := by simp
  complete j := by simp
  queued waits := absurd waits Finset.not_nonempty_empty
  awake dead := nomatch dead
  owned _ owns := nomatch owns
  owner full := nomatch full
  unique _ _ owns := nomatch owns
  waiters := rfl

/-- Without an owner nobody waits on `send_complete_`. -/
theorem Entering.nobody (entering : Entering e i) (empty : e.wpdu.buf.isSome = false) :
    ∀ j, (e.senders j).owns = false := by
  intro j
  cases owns : (e.senders j).owns with
  | false => rfl
  | true =>
      have full := entering.owned j owns
      rw [empty] at full
      contradiction

theorem Transit.waiting_empty (transit : Transit e i)
    (others : ∀ j, j ≠ i → (e.senders j).owns = false) : e.sendComplete.waiting = ∅ := by
  apply Finset.eq_empty_of_forall_notMem
  intro j waits
  rcases (transit.complete j).mp (Or.inl waits) with ⟨differs, b, phase⟩
  have owns := others j differs
  rw [phase] at owns
  contradiction

theorem Inv.owns_of_inside (inv : Inv e) {j : ι} (inside : e.sendComplete.Inside j) :
    (e.senders j).owns = true := by
  rcases (inv.complete j).mp inside with ⟨b, phase⟩
  rw [phase]
  rfl

/-- When the sender `i` waits elsewhere, those who wait at `place` are others. -/
theorem waits_others {place : List UInt8 → SendPhase} {inside : ι → Prop}
    {senders : ι → SendPhase} (waits : ∀ j, inside j ↔ ∃ b, senders j = place b)
    (away : ∀ b, senders i ≠ place b) (j : ι) :
    inside j ↔ j ≠ i ∧ ∃ b, senders j = place b := by
  rw [waits]
  constructor
  · rintro ⟨b, phase⟩
    exact ⟨fun self => away b (self ▸ phase), b, phase⟩
  · exact And.right

/-- A sender that has woken up to take `m_` is the one in transit. -/
theorem Inv.transit (inv : Inv e) (noTurn : ∀ b, e.senders i ≠ .waitTurn b)
    (noComplete : ∀ b, e.senders i ≠ .waitComplete b) : Transit e i where
  turn := waits_others inv.turn noTurn
  complete := waits_others inv.complete noComplete
  queued := inv.queued
  awake := inv.awake

theorem Inv.enter (inv : Inv e) (idle : e.senders i = .idle) :
    Entering { e with waiters := e.waiters + 1 } i := by
  have transit := inv.transit (i := i) (by simp [idle]) (by simp [idle])
  exact {
    turn := transit.turn
    complete := transit.complete
    queued := transit.queued
    awake := transit.awake
    outside := by simp [idle, SendPhase.owns]
    owned := inv.owned
    owner := inv.owner
    unique := inv.unique
    waiters := congrArg (· + 1) inv.waiters }

theorem Inv.others (inv : Inv e) (owns : (e.senders i).owns = true) :
    ∀ j, j ≠ i → (e.senders j).owns = false := by
  intro j differs
  cases also : (e.senders j).owns with
  | false => rfl
  | true => exact absurd (inv.unique j i also owns) differs

theorem Inv.removing (inv : Inv e) (phase : e.senders i = .removing b) : Owning e i := by
  have owns : (e.senders i).owns = true := by simp [phase, SendPhase.owns]
  exact {
    toTransit := inv.transit (by simp [phase]) (by simp [phase])
    others := inv.others owns
    full := inv.owned i owns
    waiters := inv.waiters }

variable [DecidableEq ι]

/-- Who waits at `place` after the sender `i` has moved to `phase`. -/
theorem waits_update {place : List UInt8 → SendPhase} {inside now : ι → Prop}
    {senders : ι → SendPhase} {phase : SendPhase}
    (others : ∀ j, inside j ↔ j ≠ i ∧ ∃ b, senders j = place b)
    (moved : ∀ j, now j ↔ inside j ∨ j = i ∧ ∃ b, phase = place b) (j : ι) :
    now j ↔ ∃ b, Function.update senders i phase j = place b := by
  rw [moved, others]
  by_cases self : j = i
  · subst self
    simp
  · simp [self]

theorem Owning.finish (owning : Owning e i) (b : List UInt8) : Inv (e.finish i b) := by
  have waiting : (e.finish i b).sendWait.waiting = ∅ := by
    simp only [Endpoint.finish, goto]
    split
    · rfl
    · next none =>
        by_contra some
        have positive := e.sendWait.count_pos (Finset.nonempty_iff_ne_empty.mpr some)
        rw [owning.waiters] at none
        exact none positive
  have free : ∀ j, ((e.finish i b).senders j).owns = false := by
    intro j
    by_cases self : j = i
    · subst self
      simp [Endpoint.finish, goto, SendPhase.owns]
    · simpa [Endpoint.finish, goto, self] using owning.others j self
  constructor
  · intro j
    have inside : (e.finish i b).sendWait.Inside j ↔ e.sendWait.Inside j := by
      simp only [Endpoint.finish, goto]
      split
      · exact CondVar.inside_broadcast
      · rfl
    rw [inside, owning.turn]
    by_cases self : j = i <;> simp [Endpoint.finish, goto, self]
  · intro j
    have same : (e.finish i b).sendComplete = e.sendComplete := rfl
    rw [same, owning.complete]
    by_cases self : j = i <;> simp [Endpoint.finish, goto, self]
  · intro waits
    rw [waiting] at waits
    exact absurd waits Finset.not_nonempty_empty
  · exact owning.awake
  · intro j owns
    rw [free j] at owns
    contradiction
  · intro full
    contradiction
  · intro j k owns
    rw [free j] at owns
    contradiction
  · simp only [Endpoint.finish, goto]
    split
    · exact owning.waiters.trans CondVar.count_broadcast.symm
    · exact owning.waiters

theorem Owning.awaitComplete (owning : Owning e i) (b : List UInt8) :
    Inv (e.awaitComplete i b) := by
  unfold Endpoint.awaitComplete
  split
  · next partly =>
      have owns : ∀ j, ((e.goto i (.waitComplete b)).senders j).owns = true ↔ j = i := by
        intro j
        by_cases self : j = i
        · subst self
          simp [goto, SendPhase.owns]
        · simp [goto, self, owning.others j self]
      constructor
      · exact waits_update owning.turn fun j => by simp [goto]
      · exact waits_update owning.complete fun j => by simp [goto, or_comm]
      · exact owning.queued
      · intro dead
        simp only [goto] at dead
        simp [dead] at partly
      · exact fun _ _ => owning.full
      · exact fun _ => ⟨i, (owns i).mpr rfl⟩
      · exact fun j k first second => ((owns j).mp first).trans ((owns k).mp second).symm
      · exact owning.waiters
  · exact owning.finish b

theorem Entering.obtain (entering : Entering e i) (empty : e.wpdu.buf.isSome = false)
    {waiters : Nat} (counted : waiters = e.sendWait.count) {result : WriteResult}
    (taken : { e with waiters }.obtain i b result = some (next, call)) : Inv next := by
  have free := entering.nobody empty
  have noTurn : ¬ e.sendWait.waiting.Nonempty := by
    intro waits
    have full := entering.queued waits
    rw [empty] at full
    contradiction
  unfold Endpoint.obtain at taken
  dsimp only at taken
  split at taken
  · contradiction
  · next wpdu stream failed =>
      have full : wpdu.buf.isSome = true := Connection.writepdu_buf failed
      cases taken
      have owns : ∀ j, (Function.update e.senders i (.removing b) j).owns = true ↔ j = i := by
        intro j
        by_cases self : j = i
        · subst self
          simp [SendPhase.owns]
        · simp [self, free j]
      constructor
      · exact waits_update entering.turn fun j => by simp [goto, or_comm]
      · exact waits_update entering.complete fun j => by simp [goto]
      · exact fun waits => absurd waits noTurn
      · exact fun _ => entering.waiting_empty fun j _ => free j
      · exact fun _ _ => full
      · exact fun _ => ⟨i, (owns i).mpr rfl⟩
      · exact fun j k first second => ((owns j).mp first).trans ((owns k).mp second).symm
      · exact counted
  · next wpdu stream written =>
      have full : wpdu.buf.isSome = true := Connection.writepdu_buf written
      have owning : Owning { e with
          waiters
          wpdu
          stream
          obtained := e.obtained ++ [(i, b)] } i :=
        { turn := entering.turn
          complete := entering.complete
          queued := fun waits => absurd waits noTurn
          awake := fun _ => entering.waiting_empty fun j _ => free j
          others := fun j _ => free j
          full := full
          waiters := counted }
      split at taken
      · cases taken
        exact owning.finish b
      · cases taken
        exact owning.awaitComplete b

theorem Entering.awaitTurn (entering : Entering e i) {result : WriteResult}
    (taken : e.awaitTurn i b result = some (next, call)) : Inv next := by
  have outside : ∀ phase : SendPhase, phase.owns = false → ∀ j,
      (Function.update e.senders i phase j).owns = (e.senders j).owns := by
    intro phase free j
    by_cases self : j = i
    · subst self
      simp [free, entering.outside]
    · simp [self]
  unfold Endpoint.awaitTurn at taken
  split at taken
  · next full =>
      have same := outside (.waitTurn b) rfl
      simp only [Bool.and_eq_true, Bool.not_eq_true'] at full
      cases taken
      constructor
      · exact waits_update entering.turn fun j => by simp [goto, or_comm]
      · exact waits_update entering.complete fun j => by simp [goto]
      · exact fun _ => full.2
      · exact entering.awake
      · exact fun _ _ => full.2
      · intro _
        rcases entering.owner full.2 with ⟨j, owns⟩
        exact ⟨j, (same j).trans owns⟩
      · intro j k first second
        exact entering.unique j k ((same j).symm.trans first) ((same k).symm.trans second)
      · have outsideWait : ¬ e.sendWait.Inside i := fun inside =>
          ((entering.turn i).mp inside).1 rfl
        exact entering.waiters.trans (CondVar.count_wait outsideWait).symm
  · next turn =>
      have counted : e.waiters - 1 = e.sendWait.count := by
        rw [entering.waiters]
        rfl
      dsimp only at taken
      split at taken
      · next dead =>
          have same := outside (.returned b false) rfl
          cases taken
          constructor
          · exact waits_update entering.turn fun j => by simp [goto, or_comm]
          · exact waits_update entering.complete fun j => by simp [goto]
          · exact entering.queued
          · exact entering.awake
          · exact fun j owns => entering.owned j ((same j).symm.trans owns)
          · intro full
            rcases entering.owner full with ⟨j, owns⟩
            exact ⟨j, (same j).trans owns⟩
          · intro j k first second
            exact entering.unique j k ((same j).symm.trans first) ((same k).symm.trans second)
          · exact counted
      · next alive =>
          have empty : e.wpdu.buf.isSome = false := by
            cases full : e.wpdu.buf.isSome with
            | false => rfl
            | true => exact absurd (by simp [alive, full]) turn
          exact entering.obtain empty counted taken

/-! ## Steps -/

theorem Inv.wakeTurn (inv : Inv e) (phase : e.senders i = .waitTurn b) {sendWait : CondVar ι}
    (resumed : e.sendWait.resume i = some sendWait) : Entering { e with sendWait } i where
  turn j := by
    rw [CondVar.inside_resume resumed, inv.turn]
  complete := waits_others inv.complete fun c other => by
    rw [phase] at other
    contradiction
  queued waits := by
    rw [(CondVar.resume_some resumed).2.1] at waits
    exact inv.queued waits
  awake := inv.awake
  outside := by simp [phase, SendPhase.owns]
  owned := inv.owned
  owner := inv.owner
  unique := inv.unique
  waiters := inv.waiters.trans (CondVar.count_resume resumed).symm

theorem Inv.wakeComplete (inv : Inv e) (phase : e.senders i = .waitComplete b)
    {sendComplete : CondVar ι} (resumed : e.sendComplete.resume i = some sendComplete) :
    Owning { e with sendComplete } i := by
  have owns : (e.senders i).owns = true := by simp [phase, SendPhase.owns]
  constructor
  · constructor
    · exact waits_others inv.turn fun c other => by
        rw [phase] at other
        contradiction
    · intro j
      rw [CondVar.inside_resume resumed, inv.complete]
    · exact inv.queued
    · exact fun dead => (CondVar.resume_some resumed).2.1.trans (inv.awake dead)
  · exact inv.others owns
  · exact inv.owned i owns
  · exact inv.waiters

/-- A signal on `send_complete_` reaches the one sender that may wait there. -/
theorem Inv.signal (inv : Inv e) {pick : ι} {sendComplete : CondVar ι}
    (signalled : e.sendComplete.signal pick = some sendComplete) {wpdu : Connection.Charbuf}
    (same : wpdu.buf.isSome = e.wpdu.buf.isSome) (stream : List UInt8) (dead : Bool) :
    Inv { e with wpdu, stream, dead, sendComplete } where
  turn := inv.turn
  complete j := (CondVar.inside_signal signalled).trans (inv.complete j)
  queued waits := same.trans (inv.queued waits)
  awake _ := by
    apply CondVar.signal_waiting signalled
    intro j k first second
    exact inv.unique j k (inv.owns_of_inside (Or.inl first)) (inv.owns_of_inside (Or.inl second))
  owned j owns := same.trans (inv.owned j owns)
  owner full := inv.owner (same.symm.trans full)
  unique := inv.unique
  waiters := inv.waiters

theorem Inv.writeCb (inv : Inv e) {pick : ι} {result : WriteResult}
    (taken : e.writeCb pick result = some (next, call)) : Inv next := by
  unfold Endpoint.writeCb at taken
  split at taken
  · contradiction
  · split at taken
    · cases taken
      exact inv
    · split at taken
      · contradiction
      · next failed =>
          rcases Option.map_eq_some_iff.mp taken with ⟨c, signalled, same⟩
          cases same
          exact inv.signal signalled (Connection.writepdu_buf failed) _ true
      · next alive _ _ wpdu stream written =>
          have buf := Connection.writepdu_buf written
          split at taken
          · contradiction
          · split at taken
            · cases taken
              exact {
                turn := inv.turn
                complete := inv.complete
                queued := fun waits => buf.trans (inv.queued waits)
                awake := inv.awake
                owned := fun j owns => buf.trans (inv.owned j owns)
                owner := fun full => inv.owner (buf.symm.trans full)
                unique := inv.unique
                waiters := inv.waiters }
            · rcases Option.map_eq_some_iff.mp taken with ⟨c, signalled, same⟩
              cases same
              exact inv.signal signalled buf _ _

theorem Inv.readCb (inv : Inv e) {pick : ι} {succ : Bool}
    (taken : e.readCb pick succ = some (next, call)) : Inv next := by
  unfold Endpoint.readCb at taken
  split at taken
  · cases taken
    exact inv
  · split at taken
    · cases taken
      exact inv
    · rcases Option.map_eq_some_iff.mp taken with ⟨c, signalled, same⟩
      cases same
      exact inv.signal signalled rfl _ true

theorem Inv.step (inv : Inv e) {action : Action ι} (closed : ClosedIdle e action)
    (taken : e.step action = some (next, call)) : Inv next := by
  cases action with
  | send i b result =>
      simp only [Endpoint.step] at taken
      split at taken
      · next idle => exact (inv.enter idle).awaitTurn taken
      · contradiction
  | wakeTurn i result =>
      simp only [Endpoint.step] at taken
      split at taken
      · next b phase =>
          rcases Option.bind_eq_some_iff.mp taken with ⟨sendWait, resumed, turn⟩
          exact (inv.wakeTurn phase resumed).awaitTurn turn
      · contradiction
  | wakeComplete i =>
      simp only [Endpoint.step] at taken
      split at taken
      · next b phase =>
          rcases Option.map_eq_some_iff.mp taken with ⟨sendComplete, resumed, same⟩
          cases same
          exact (inv.wakeComplete phase resumed).awaitComplete b
      · contradiction
  | removed i =>
      simp only [Endpoint.step] at taken
      split at taken
      · next b phase =>
          cases taken
          exact (inv.removing phase).finish b
      · contradiction
  | writeCb pick result => exact inv.writeCb taken
  | readCb pick succ => exact inv.readCb taken
  | closeconn =>
      simp only [Endpoint.step, closeconn] at taken
      split at taken
      · next alive =>
          simp only [Bool.not_eq_true'] at alive
          cases taken
          exact { inv with awake := fun _ => closed alive }
      · cases taken
        exact inv
  | spuriousTurn i =>
      rcases Option.map_eq_some_iff.mp taken with ⟨sendWait, woken, same⟩
      cases same
      exact { inv with
        turn := fun j => (CondVar.inside_spurious woken).trans (inv.turn j)
        queued := fun _ => inv.queued ⟨i, (CondVar.spurious_some woken).1⟩
        waiters := inv.waiters.trans (CondVar.count_spurious woken).symm }
  | spuriousComplete i =>
      rcases Option.map_eq_some_iff.mp taken with ⟨sendComplete, woken, same⟩
      cases same
      refine { inv with
        complete := fun j => (CondVar.inside_spurious woken).trans (inv.complete j)
        awake := ?_ }
      intro dead
      have waits := (CondVar.spurious_some woken).1
      rw [inv.awake dead] at waits
      exact absurd waits (Finset.notMem_empty i)

theorem reachable_inv (reachable : (machine ι).ReachableUnder ClosedIdle e) : Inv e := by
  apply reachable.invariant Inv inv_initial
  intro state action next _ inv closed taken
  rcases Option.map_eq_some_iff.mp taken with ⟨⟨_, _⟩, stepped, rfl⟩
  exact inv.step closed stepped

/-! ## Nobody is stranded -/

theorem Inv.noneStranded (inv : Inv e) : e.NoneStranded := by
  intro dead settled
  have complete := inv.awake dead
  refine ⟨complete, ?_⟩
  by_contra some
  rcases inv.owner (inv.queued (Finset.nonempty_iff_ne_empty.mpr some)) with ⟨j, owns⟩
  apply settled
  refine ⟨j, ?_⟩
  cases phase : e.senders j with
  | waitComplete b =>
      rcases (inv.complete j).mpr ⟨b, phase⟩ with waits | woken
      · rw [complete] at waits
        exact absurd waits (Finset.notMem_empty j)
      · exact Or.inl woken
  | removing b => exact Or.inr ⟨b, rfl⟩
  | idle | waitTurn | returned =>
      rw [phase] at owns
      contradiction

omit [DecidableEq ι] in
/-- A live connection that is closed under a waiting sender strands it. -/
theorem Inv.closeconn_strands (inv : Inv e) (alive : e.dead = false)
    (waits : e.sendComplete.waiting ≠ ∅) : ¬ e.closeconn.1.NoneStranded := by
  intro noneStranded
  simp only [closeconn, alive, Bool.not_false, if_true] at noneStranded
  rcases Finset.nonempty_iff_ne_empty.mpr waits with ⟨i, waiting⟩
  have owns := inv.owns_of_inside (Or.inl waiting)
  apply waits
  refine (noneStranded rfl ?_).1
  rintro ⟨j, woken | ⟨b, removing⟩⟩
  · have same := inv.unique j i (inv.owns_of_inside (Or.inr woken)) owns
    exact e.sendComplete.apart i waiting (same ▸ woken)
  · have removing : e.senders j = .removing b := removing
    have same := inv.unique j i (by simp [removing, SendPhase.owns]) owns
    rcases (inv.complete i).mp (Or.inl waiting) with ⟨c, phase⟩
    rw [same, phase] at removing
    contradiction

/-- Nobody is stranded as long as every `closeconn` finds the connection dead or nobody
waiting for the rest of a write, and no longer. -/
theorem none_stranded (reachable : (machine ι).ReachableUnder ClosedIdle e) :
    e.NoneStranded ∧ ∀ action next, (machine ι).step e action = some next →
      (next.NoneStranded ↔ ClosedIdle e action) := by
  have inv := reachable_inv reachable
  refine ⟨inv.noneStranded, fun action next taken => ⟨?_, ?_⟩⟩
  · intro noneStranded
    cases action with
    | closeconn =>
        cases taken
        intro alive
        by_contra waits
        exact inv.closeconn_strands alive waits noneStranded
    | send | wakeTurn | wakeComplete | removed | writeCb | readCb | spuriousTurn
    | spuriousComplete => trivial
  · intro closed
    exact (reachable_inv (reachable.step closed taken)).noneStranded

instance (e : Endpoint ι) : ∀ action, Decidable (ClosedIdle e action)
  | .closeconn =>
      decidable_of_iff (e.dead = false → e.sendComplete.waiting = ∅) (by simp only [ClosedIdle])
  | .send .. | .wakeTurn .. | .wakeComplete _ | .removed _ | .writeCb .. | .readCb ..
  | .spuriousTurn _ | .spuriousComplete _ => instDecidableTrue

/-- One sender waits for the rest of its write and another one for its turn. -/
def twoSenders : List (Action Bool) :=
  [.send false [0, 0, 0, 0, 0, 0, 0, 0] (.wrote 3), .send true [0, 0, 0, 0] .again]

/-- The write of the rest fails; both return, and then the connection is closed. -/
def failLater : List (Action Bool) :=
  twoSenders ++ [.writeCb false .error, .wakeComplete false, .wakeTurn true .again, .closeconn]

theorem none_stranded_failLater :
    ∃ e, (machine Bool).ReachableUnder ClosedIdle e ∧
      e.senders true = .returned [0, 0, 0, 0] false ∧ e.NoneStranded := by
  have run : (((machine Bool).restrict ClosedIdle).run (machine Bool).initial failLater).map
      (fun e => e.senders true) = some (.returned [0, 0, 0, 0] false) := by decide +kernel
  rcases Option.map_eq_some_iff.mp run with ⟨e, taken, returned⟩
  have reachable := Machine.reachableUnder_of_run taken
  exact ⟨e, reachable, returned, (none_stranded reachable).1⟩

/-- The connection is closed while the rest of the write is due. -/
theorem closeconn_not_noneStranded :
    ¬ ∀ e, (machine Bool).Reachable e → e.NoneStranded := by
  intro always
  have run : (((machine Bool).restrict ClosedIdle).run (machine Bool).initial twoSenders).map
      (fun e => (e.dead, e.sendComplete.waiting)) = some (false, {false}) := by decide +kernel
  rcases Option.map_eq_some_iff.mp run with ⟨e, taken, result⟩
  simp only [Prod.mk.injEq] at result
  have calm := Machine.reachableUnder_of_run taken
  have closed : (machine Bool).step e .closeconn = some e.closeconn.1 := rfl
  apply (reachable_inv calm).closeconn_strands result.1
  · rw [result.2]
    exact Finset.singleton_ne_empty false
  · exact always _ (calm.reachable.step closed)

end Endpoint

end YfsRpc.Rpc
