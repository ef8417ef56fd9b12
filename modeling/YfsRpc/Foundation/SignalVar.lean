import YfsRpc.Foundation.CondVar

/-! # Condition variables that count signals

A signalled thread may find that another one was faster, and a thread may wake without a
signal. What can be promised is a number: while threads wait, at least as many signalled
ones have yet to resume as there are units of what they wait for.
-/

namespace YfsRpc

/-- A condition variable that remembers which of the woken threads were signalled. -/
structure SignalVar (ι : Type u) extends CondVar ι where
  signalled : Finset ι
  awake : signalled ⊆ woken

namespace SignalVar

variable {ι : Type u}

def init : SignalVar ι := { CondVar.init with signalled := ∅, awake := Finset.empty_subset _ }

/-- While threads wait, `n` signalled ones have yet to resume. -/
def Served (c : SignalVar ι) (n : Nat) : Prop := c.waiting.Nonempty → n ≤ c.signalled.card

variable {c next : SignalVar ι} {i pick : ι} {n fewer : Nat}

theorem served_init (n : Nat) : (init : SignalVar ι).Served n :=
  fun waits => absurd waits Finset.not_nonempty_empty

theorem Served.mono (served : c.Served n) (le : fewer ≤ n) : c.Served fewer :=
  fun waits => le.trans (served waits)

theorem Served.nonempty (served : c.Served n) (positive : 0 < n) (waits : c.waiting.Nonempty) :
    c.signalled.Nonempty :=
  Finset.card_pos.mp (Nat.lt_of_lt_of_le positive (served waits))

variable [DecidableEq ι]

def wait (c : SignalVar ι) (i : ι) : SignalVar ι where
  toCondVar := c.toCondVar.wait i
  signalled := c.signalled.erase i
  awake := Finset.erase_subset_erase i c.awake

/-- One waiting thread is signalled, whichever the scheduler picks, unless nobody waits. -/
def signal (c : SignalVar ι) (pick : ι) : Option (SignalVar ι) :=
  if c.waiting = ∅ then
    some c
  else if pick ∈ c.waiting then
    some {
      toCondVar := c.toCondVar.wake pick
      signalled := insert pick c.signalled
      awake := Finset.insert_subset_insert pick c.awake }
  else
    none

/-- A wakeup without a signal. -/
def spurious (c : SignalVar ι) (i : ι) : Option (SignalVar ι) :=
  if i ∈ c.waiting then
    some {
      toCondVar := c.toCondVar.wake i
      signalled := c.signalled
      awake := c.awake.trans (Finset.subset_insert i c.woken) }
  else
    none

/-- A woken thread returns from `pthread_cond_wait` with the mutex. -/
def resume (c : SignalVar ι) (i : ι) : Option (SignalVar ι) :=
  if i ∈ c.woken then
    some {
      waiting := c.waiting
      woken := c.woken.erase i
      apart := fun j waits woken => c.apart j waits (Finset.mem_of_mem_erase woken)
      signalled := c.signalled.erase i
      awake := Finset.erase_subset_erase i c.awake }
  else
    none

theorem signal_some (taken : c.signal pick = some next) :
    (c.waiting = ∅ ∧ next = c) ∨
      (pick ∈ c.waiting ∧ next.waiting = c.waiting.erase pick ∧
        next.woken = insert pick c.woken ∧ next.signalled = insert pick c.signalled) := by
  unfold signal at taken
  split at taken
  · next nobody =>
      cases taken
      exact Or.inl ⟨nobody, rfl⟩
  · split at taken
    · next waits =>
        cases taken
        exact Or.inr ⟨waits, rfl, rfl, rfl⟩
    · contradiction

theorem spurious_some (taken : c.spurious i = some next) :
    i ∈ c.waiting ∧ next.waiting = c.waiting.erase i ∧ next.woken = insert i c.woken ∧
      next.signalled = c.signalled := by
  unfold spurious at taken
  split at taken
  · next waits =>
      cases taken
      exact ⟨waits, rfl, rfl, rfl⟩
  · contradiction

theorem resume_some (taken : c.resume i = some next) :
    i ∈ c.woken ∧ next.waiting = c.waiting ∧ next.woken = c.woken.erase i ∧
      next.signalled = c.signalled.erase i := by
  unfold resume at taken
  split at taken
  · next woken =>
      cases taken
      exact ⟨woken, rfl, rfl, rfl⟩
  · contradiction

/-! ## The promise -/

/-- A thread waits when there is nothing for it. -/
theorem served_wait : (c.wait i).Served 0 := fun _ => Nat.zero_le _

/-- A signal is sent for one more unit. -/
theorem Served.signal (served : c.Served n) (taken : c.signal pick = some next) :
    next.Served (n + 1) := by
  rcases signal_some taken with ⟨nobody, rfl⟩ | ⟨waits, waiting, -, signalled⟩
  · intro waits
    exact absurd nobody waits.ne_empty
  · intro _
    have fresh : pick ∉ c.signalled := fun old => c.apart pick waits (c.awake old)
    rw [signalled, Finset.card_insert_of_notMem fresh]
    exact Nat.succ_le_succ (served ⟨pick, waits⟩)

theorem Served.spurious (served : c.Served n) (taken : c.spurious i = some next) :
    next.Served n := by
  rcases spurious_some taken with ⟨waits, -, -, signalled⟩
  intro _
  rw [signalled]
  exact served ⟨i, waits⟩

/-- A thread that resumes may take one unit. -/
theorem Served.resume (served : c.Served n) (taken : c.resume i = some next) :
    next.Served (n - 1) := by
  rcases resume_some taken with ⟨-, waiting, -, signalled⟩
  intro waits
  rw [waiting] at waits
  rw [signalled]
  exact (Nat.sub_le_sub_right (served waits) 1).trans Finset.pred_card_le_card_erase

/-! ## Who is inside, and how many are woken -/

variable {j : ι}

theorem inside_signal (taken : c.signal pick = some next) :
    next.toCondVar.Inside j ↔ c.toCondVar.Inside j := by
  rcases signal_some taken with ⟨-, rfl⟩ | ⟨waits, waiting, woken, -⟩
  · rfl
  · rw [CondVar.Inside, CondVar.Inside, waiting, woken]
    by_cases here : j = pick
    · simp [here, waits]
    · simp [here]

theorem inside_spurious (taken : c.spurious i = some next) :
    next.toCondVar.Inside j ↔ c.toCondVar.Inside j := by
  rcases spurious_some taken with ⟨waits, waiting, woken, -⟩
  rw [CondVar.Inside, CondVar.Inside, waiting, woken]
  by_cases here : j = i
  · simp [here, waits]
  · simp [here]

theorem inside_resume (taken : c.resume i = some next) :
    next.toCondVar.Inside j ↔ j ≠ i ∧ c.toCondVar.Inside j := by
  rcases resume_some taken with ⟨awake, waiting, woken, -⟩
  rw [CondVar.Inside, CondVar.Inside, waiting, woken]
  by_cases here : j = i
  · have absent : i ∉ c.waiting := fun waits => c.apart i waits awake
    simp [here, absent]
  · simp [here]

theorem card_signal (taken : c.signal pick = some next) :
    next.woken.card ≤ c.woken.card + 1 := by
  rcases signal_some taken with ⟨-, rfl⟩ | ⟨-, -, woken, -⟩
  · exact Nat.le_succ _
  · rw [woken]
    exact Finset.card_insert_le pick c.woken

theorem card_spurious (taken : c.spurious i = some next) :
    next.woken.card ≤ c.woken.card + 1 := by
  rcases spurious_some taken with ⟨-, -, woken, -⟩
  rw [woken]
  exact Finset.card_insert_le i c.woken

theorem card_resume (taken : c.resume i = some next) :
    next.woken.card + 1 = c.woken.card := by
  rcases resume_some taken with ⟨awake, -, woken, -⟩
  rw [woken]
  exact Finset.card_erase_add_one awake

theorem card_wait : (c.wait i).woken.card ≤ c.woken.card :=
  Finset.card_erase_le

/-- A thread can always signal. -/
theorem exists_signal (c : SignalVar ι) (i : ι) : ∃ pick next, c.signal pick = some next := by
  unfold signal
  by_cases nobody : c.waiting = ∅
  · exact ⟨i, c, if_pos nobody⟩
  · rcases Finset.nonempty_iff_ne_empty.mpr nobody with ⟨pick, waits⟩
    exact ⟨pick, _, (if_neg nobody).trans (if_pos waits)⟩

theorem exists_resume (woken : i ∈ c.woken) : ∃ next, c.resume i = some next :=
  ⟨_, if_pos woken⟩

end SignalVar

end YfsRpc
