import Mathlib.Algebra.BigOperators.Group.Finset.Basic
import Mathlib.Algebra.Order.BigOperators.Group.Finset
import Mathlib.Data.Finset.Card
import YfsRpc.Foundation.Slots

/-! # Finite maps that are counted

A map with finitely many keys, such as `std::map` or the local variables of the threads
that are running, and how many of its values have a property.
-/

namespace YfsRpc

structure Holders (κ : Type u) (α : Type v) where
  held : κ → Option α
  keys : Finset κ
  mem_keys : ∀ k, k ∈ keys ↔ held k ≠ none

namespace Holders

variable {κ : Type u} {α : Type v}

def empty : Holders κ α := ⟨fun _ => none, ∅, by simp⟩

def set [DecidableEq κ] (h : Holders κ α) (k : κ) (v : Option α) : Holders κ α where
  held := Function.update h.held k v
  keys := if v.isSome then insert k h.keys else h.keys.erase k
  mem_keys := by
    intro j
    cases v <;> by_cases here : j = k <;> simp [here, h.mem_keys]

/-- How many keys have a value with the property. -/
def tally (h : Holders κ α) (p : α → Bool) : Nat :=
  (h.keys.filter fun k => (h.held k).any p).card

/-- The sum of an amount over all values. -/
def total (h : Holders κ α) (f : α → Nat) : Nat :=
  h.keys.sum fun k => (h.held k).elim 0 f

variable {h : Holders κ α} {k : κ} {p : α → Bool} {f : α → Nat}

theorem tally_pos {v : α} (held : h.held k = some v) (has : p v = true) : h.tally p ≠ 0 := by
  have member : k ∈ h.keys.filter fun k => (h.held k).any p := by
    simp [h.mem_keys, held, has]
  exact Finset.card_ne_zero_of_mem member

theorem tally_ne_zero : h.tally p ≠ 0 ↔ ∃ k v, h.held k = some v ∧ p v = true := by
  constructor
  · intro positive
    rcases Finset.card_ne_zero.mp positive with ⟨k, member⟩
    rcases Option.any_eq_true .. |>.mp (Finset.mem_filter.mp member).2 with ⟨v, held, has⟩
    exact ⟨k, v, held, has⟩
  · rintro ⟨k, v, held, has⟩
    exact tally_pos held has

theorem tally_le_one (unique : ∀ j k v w, h.held j = some v → p v = true →
    h.held k = some w → p w = true → j = k) : h.tally p ≤ 1 := by
  refine Finset.card_le_one.mpr fun j first k second => ?_
  rcases Option.any_eq_true .. |>.mp (Finset.mem_filter.mp first).2 with ⟨v, held, has⟩
  rcases Option.any_eq_true .. |>.mp (Finset.mem_filter.mp second).2 with ⟨w, held', has'⟩
  exact unique j k v w held has held' has'

theorem keys_eq_empty : h.keys = ∅ ↔ ∀ k, h.held k = none := by
  rw [Finset.eq_empty_iff_forall_notMem]
  simp only [h.mem_keys, not_not]

theorem le_total {v : α} (held : h.held k = some v) : f v ≤ h.total f := by
  have member : k ∈ h.keys := (h.mem_keys k).mpr (by simp [held])
  have part := Finset.single_le_sum (f := fun k => (h.held k).elim 0 f)
    (fun _ _ => Nat.zero_le _) member
  simpa [total, held] using part

variable [DecidableEq κ]

theorem add_le_total {j : κ} {v w : α} (first : h.held j = some v) (second : h.held k = some w)
    (differs : j ≠ k) : f v + f w ≤ h.total f := by
  have keys : {j, k} ⊆ h.keys := by
    intro i member
    rcases Finset.mem_insert.mp member with rfl | member
    · simp [h.mem_keys, first]
    · cases Finset.mem_singleton.mp member
      simp [h.mem_keys, second]
  have parts := Finset.sum_le_sum_of_subset (f := fun k => (h.held k).elim 0 f) keys
  rw [Finset.sum_pair differs] at parts
  simpa [total, first, second] using parts

@[simp] theorem held_set_self (v : Option α) : (h.set k v).held k = v :=
  Function.update_self ..

@[simp] theorem held_set_of_ne {j : κ} (differs : j ≠ k) (v : Option α) :
    (h.set k v).held j = h.held j :=
  Function.update_of_ne differs ..

theorem held_set {j : κ} {v : Option α} {a : α} (found : (h.set k v).held j = some a) :
    (j = k ∧ v = some a) ∨ (j ≠ k ∧ h.held j = some a) :=
  slot_changed found

theorem held_set_some {j : κ} {a b : α} (found : (h.set k (some b)).held j = some a) :
    (j = k ∧ a = b) ∨ (j ≠ k ∧ h.held j = some a) :=
  slot_filled found

theorem held_set_none {j : κ} {a : α} (found : (h.set k none).held j = some a) :
    j ≠ k ∧ h.held j = some a :=
  slot_emptied found

/-- Replacing one value exchanges its part of the tally. -/
theorem tally_set (h : Holders κ α) (k : κ) (v : Option α) (p : α → Bool) :
    (h.set k v).tally p + ((h.held k).any p).toNat = h.tally p + (v.any p).toNat := by
  have without : ∀ g : Holders κ α, g.tally p =
      ((g.keys.filter fun j => (g.held j).any p).erase k).card + ((g.held k).any p).toNat := by
    intro g
    unfold tally
    cases has : (g.held k).any p with
    | false =>
        have outside : k ∉ g.keys.filter fun j => (g.held j).any p := by simp [has]
        rw [Finset.erase_eq_of_notMem outside]
        rfl
    | true =>
        have inside : k ∈ g.keys.filter fun j => (g.held j).any p := by
          have some : g.held k ≠ none := by
            intro none
            rw [none] at has
            contradiction
          exact Finset.mem_filter.mpr ⟨(g.mem_keys k).mpr some, has⟩
        exact (Finset.card_erase_add_one inside).symm
  have others : ((h.set k v).keys.filter fun j => ((h.set k v).held j).any p).erase k =
      (h.keys.filter fun j => (h.held j).any p).erase k := by
    ext j
    by_cases here : j = k
    · simp [here]
    · simp [here, mem_keys]
  rw [without (h.set k v), without h, others, held_set_self]
  omega

/-- Replacing one value exchanges its part of the total. -/
theorem total_set (h : Holders κ α) (k : κ) (v : Option α) (f : α → Nat) :
    (h.set k v).total f + (h.held k).elim 0 f = h.total f + v.elim 0 f := by
  have without : ∀ g : Holders κ α, g.total f =
      ((g.keys.erase k).sum fun j => (g.held j).elim 0 f) + (g.held k).elim 0 f := by
    intro g
    unfold total
    by_cases inside : k ∈ g.keys
    · exact (Finset.sum_erase_add _ _ inside).symm
    · have none : g.held k = none := by
        by_contra some
        exact inside ((g.mem_keys k).mpr some)
      simp [Finset.erase_eq_of_notMem inside, none]
  have keys : (h.set k v).keys.erase k = h.keys.erase k := by
    ext j
    by_cases here : j = k
    · simp [here]
    · simp [here, mem_keys]
  have others : ((h.set k v).keys.erase k).sum (fun j => ((h.set k v).held j).elim 0 f) =
      (h.keys.erase k).sum fun j => (h.held j).elim 0 f := by
    rw [keys]
    refine Finset.sum_congr rfl fun j member => ?_
    rw [held_set_of_ne (Finset.mem_erase.mp member).1]
  rw [without (h.set k v), without h, others, held_set_self]
  omega

end Holders

end YfsRpc
