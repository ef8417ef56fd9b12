import Mathlib.Logic.Function.Basic

/-! # Partial functions with one slot changed

Threads, calls and connections are kept in partial functions of their numbers, and a
step changes one slot. What is found afterwards is what was put there, or it was found
before.
-/

namespace YfsRpc

variable {κ : Type u} {α : Type v} [DecidableEq κ] {slots : κ → Option α} {k other : κ} {content : Option α}
  {a found : α}

theorem slot_changed (taken : Function.update slots k content other = some found) :
    (other = k ∧ content = some found) ∨ (other ≠ k ∧ slots other = some found) := by
  by_cases here : other = k
  · subst here
    exact Or.inl ⟨rfl, (Function.update_self _ _ slots).symm.trans taken⟩
  · exact Or.inr ⟨here, (Function.update_of_ne here _ slots).symm.trans taken⟩

theorem slot_filled (taken : Function.update slots k (some a) other = some found) :
    (other = k ∧ found = a) ∨ (other ≠ k ∧ slots other = some found) := by
  rcases slot_changed taken with ⟨here, same⟩ | before
  · exact Or.inl ⟨here, (Option.some.inj same).symm⟩
  · exact Or.inr before

theorem slot_emptied (taken : Function.update slots k none other = some found) :
    other ≠ k ∧ slots other = some found := by
  rcases slot_changed taken with ⟨_, same⟩ | before
  · contradiction
  · exact before

end YfsRpc
