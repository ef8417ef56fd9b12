import Mathlib.Data.Finset.Card

/-! # Condition variables

A thread that calls `pthread_cond_wait` waits until it is woken, by a signal, by a
broadcast or for no reason, and is then woken until it holds its mutex again. Signals
are not stored: a signal that finds nobody waiting has no effect.
-/

namespace YfsRpc

structure CondVar (ι : Type u) where
  /-- threads that wait and were not woken -/
  waiting : Finset ι
  /-- threads that were woken and do not hold the mutex yet -/
  woken : Finset ι
  apart : ∀ i ∈ waiting, i ∉ woken

namespace CondVar

variable {ι : Type u}

def init : CondVar ι := ⟨∅, ∅, fun _ waits => absurd waits (Finset.notMem_empty _)⟩

/-- The threads in `pthread_cond_wait`. -/
def Inside (c : CondVar ι) (i : ι) : Prop := i ∈ c.waiting ∨ i ∈ c.woken

/-- Nobody waits, or somebody was woken and will look at the condition. -/
def Covered (c : CondVar ι) : Prop := c.waiting.Nonempty → c.woken.Nonempty

/-- How many threads are inside. -/
def count (c : CondVar ι) : Nat := c.waiting.card + c.woken.card

theorem count_pos (c : CondVar ι) (waits : c.waiting.Nonempty) : 0 < c.count :=
  Nat.add_pos_left (Finset.card_pos.mpr waits) _

@[simp] theorem inside_init (i : ι) : ¬ (init : CondVar ι).Inside i := by
  simp [Inside, init]

theorem covered_init : (init : CondVar ι).Covered := fun waits => waits

variable [DecidableEq ι]

def wait (c : CondVar ι) (i : ι) : CondVar ι where
  waiting := insert i c.waiting
  woken := c.woken.erase i
  apart := by
    intro j waits woken
    rcases Finset.mem_erase.mp woken with ⟨other, woken⟩
    rcases Finset.mem_insert.mp waits with same | waits
    · exact other same
    · exact c.apart j waits woken

def wake (c : CondVar ι) (i : ι) : CondVar ι where
  waiting := c.waiting.erase i
  woken := insert i c.woken
  apart := by
    intro j waits woken
    rcases Finset.mem_erase.mp waits with ⟨other, waits⟩
    rcases Finset.mem_insert.mp woken with same | woken
    · exact other same
    · exact c.apart j waits woken

/-- A wakeup without a signal. -/
def spurious (c : CondVar ι) (i : ι) : Option (CondVar ι) :=
  if i ∈ c.waiting then some (c.wake i) else none

/-- One thread is woken, whichever the scheduler picks, unless nobody waits. -/
def signal (c : CondVar ι) (pick : ι) : Option (CondVar ι) :=
  if c.waiting = ∅ then some c else c.spurious pick

def broadcast (c : CondVar ι) : CondVar ι where
  waiting := ∅
  woken := c.woken ∪ c.waiting
  apart := fun i waits => absurd waits (Finset.notMem_empty i)

/-- A woken thread returns from `pthread_cond_wait` with the mutex. -/
def resume (c : CondVar ι) (i : ι) : Option (CondVar ι) :=
  if i ∈ c.woken then
    some { c with
      woken := c.woken.erase i
      apart := fun j waits woken => c.apart j waits (Finset.mem_of_mem_erase woken) }
  else
    none

variable {c next : CondVar ι} {i j pick : ι}

/-! ## Who is inside -/

@[simp] theorem inside_wait : (c.wait i).Inside j ↔ j = i ∨ c.Inside j := by
  simp only [Inside, wait, Finset.mem_insert, Finset.mem_erase]
  tauto

@[simp] theorem inside_broadcast : c.broadcast.Inside j ↔ c.Inside j := by
  simp only [Inside, broadcast, Finset.mem_union, Finset.notMem_empty, false_or]
  tauto

theorem spurious_some (taken : c.spurious i = some next) : i ∈ c.waiting ∧ next = c.wake i := by
  unfold spurious at taken
  split at taken
  · next waits =>
      cases taken
      exact ⟨waits, rfl⟩
  · contradiction

theorem inside_spurious (taken : c.spurious i = some next) : next.Inside j ↔ c.Inside j := by
  rcases spurious_some taken with ⟨waits, rfl⟩
  by_cases here : j = i
  · subst here
    simp [Inside, wake, waits]
  · simp [Inside, wake, here]

theorem inside_signal (taken : c.signal pick = some next) : next.Inside j ↔ c.Inside j := by
  unfold signal at taken
  split at taken
  · cases taken
    rfl
  · exact inside_spurious taken

theorem resume_some (taken : c.resume i = some next) :
    i ∈ c.woken ∧ next.waiting = c.waiting ∧ next.woken = c.woken.erase i := by
  unfold resume at taken
  split at taken
  · next woken =>
      cases taken
      exact ⟨woken, rfl, rfl⟩
  · contradiction

theorem inside_resume (taken : c.resume i = some next) :
    next.Inside j ↔ j ≠ i ∧ c.Inside j := by
  rcases resume_some taken with ⟨woken, waiting, rest⟩
  unfold Inside
  rw [waiting, rest, Finset.mem_erase]
  constructor
  · rintro (waits | ⟨other, woken⟩)
    · exact ⟨fun same => c.apart j waits (same ▸ woken), Or.inl waits⟩
    · exact ⟨other, Or.inr woken⟩
  · rintro ⟨other, waits | woken⟩
    · exact Or.inl waits
    · exact Or.inr ⟨other, woken⟩

/-! ## How many are inside -/

theorem count_wait (outside : ¬ c.Inside i) : (c.wait i).count = c.count + 1 := by
  unfold Inside at outside
  rw [not_or] at outside
  simp only [count, wait, Finset.card_insert_of_notMem outside.1,
    Finset.erase_eq_of_notMem outside.2]
  omega

theorem count_broadcast : c.broadcast.count = c.count := by
  have apart : Disjoint c.woken c.waiting :=
    Finset.disjoint_left.mpr fun i woken waits => c.apart i waits woken
  simp only [count, broadcast, Finset.card_empty, Finset.card_union_of_disjoint apart]
  omega

theorem count_spurious (taken : c.spurious i = some next) : next.count = c.count := by
  rcases spurious_some taken with ⟨waits, rfl⟩
  have positive := Finset.card_pos.mpr ⟨i, waits⟩
  simp only [count, wake, Finset.card_erase_of_mem waits,
    Finset.card_insert_of_notMem (c.apart i waits)]
  omega

theorem count_resume (taken : c.resume i = some next) : next.count + 1 = c.count := by
  rcases resume_some taken with ⟨woken, waiting, rest⟩
  have positive := Finset.card_pos.mpr ⟨i, woken⟩
  simp only [count, waiting, rest, Finset.card_erase_of_mem woken]
  omega

/-! ## Who is woken -/

/-- A wakeup leaves its thread woken. -/
theorem covered_spurious (taken : c.spurious i = some next) : next.Covered := by
  rcases spurious_some taken with ⟨_, rfl⟩
  exact fun _ => Finset.insert_nonempty i c.woken

theorem covered_signal (taken : c.signal pick = some next) : next.Covered := by
  unfold signal at taken
  split at taken
  · next nobody =>
      cases taken
      intro waits
      exact absurd nobody waits.ne_empty
  · exact covered_spurious taken

/-- A signal leaves nobody waiting where at most one thread waits. -/
theorem signal_waiting (taken : c.signal pick = some next)
    (unique : ∀ i j, i ∈ c.waiting → j ∈ c.waiting → i = j) : next.waiting = ∅ := by
  unfold signal at taken
  split at taken
  · next nobody =>
      cases taken
      exact nobody
  · rcases spurious_some taken with ⟨waits, rfl⟩
    apply Finset.eq_empty_of_forall_notMem
    intro i left
    rcases Finset.mem_erase.mp left with ⟨other, alsoWaits⟩
    exact other (unique i pick alsoWaits waits)

end CondVar

end YfsRpc
