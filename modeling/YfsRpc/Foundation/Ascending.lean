import Mathlib.Data.List.Basic

/-! # Lists ordered by a key

Lists whose keys ascend, weakly or strictly, and insertion before the first
element with a larger key.
-/

namespace YfsRpc

variable {α : Type u}

/-- Keys do not descend. -/
def Ascending (key : α → Nat) (list : List α) : Prop :=
  list.Pairwise fun left right => key left ≤ key right

/-- Keys ascend, so no two elements have the same one. -/
def StrictlyAscending (key : α → Nat) (list : List α) : Prop :=
  list.Pairwise fun left right => key left < key right

/-- Insert before the first element with a larger key, or else at the end. -/
def insertAscending (key : α → Nat) (x : α) : List α → List α
  | [] => [x]
  | y :: rest => if key y > key x then x :: y :: rest else y :: insertAscending key x rest

@[simp] theorem mem_insertAscending (key : α → Nat) (x z : α) (list : List α) :
    z ∈ insertAscending key x list ↔ z = x ∨ z ∈ list := by
  induction list with
  | nil => simp [insertAscending]
  | cons y rest induction =>
      unfold insertAscending
      split
      · simp
      · simp only [List.mem_cons, induction]
        tauto

theorem insertAscending_perm (key : α → Nat) (x : α) (list : List α) :
    (insertAscending key x list).Perm (x :: list) := by
  induction list with
  | nil => exact List.Perm.refl _
  | cons y rest induction =>
      unfold insertAscending
      split
      · exact List.Perm.refl _
      · exact (induction.cons y).trans (List.Perm.swap x y rest)

theorem insertAscending_ne_nil (key : α → Nat) (x : α) (list : List α) :
    insertAscending key x list ≠ [] := by
  intro empty
  have member := (mem_insertAscending key x x list).mpr (Or.inl rfl)
  rw [empty] at member
  contradiction

theorem Ascending.insertAscending {key : α → Nat} {list : List α} (x : α)
    (ascending : Ascending key list) : Ascending key (insertAscending key x list) := by
  induction list with
  | nil => exact List.pairwise_singleton _ x
  | cons y rest induction =>
      rcases List.pairwise_cons.mp ascending with ⟨first, restAscending⟩
      unfold YfsRpc.insertAscending
      split
      · next larger =>
          apply List.pairwise_cons.mpr
          refine ⟨?_, ascending⟩
          intro z member
          rcases List.mem_cons.mp member with rfl | later
          · exact Nat.le_of_lt larger
          · exact Nat.le_trans (Nat.le_of_lt larger) (first z later)
      · next smaller =>
          apply List.pairwise_cons.mpr
          refine ⟨?_, induction restAscending⟩
          intro z member
          rcases (mem_insertAscending key x z rest).mp member with rfl | later
          · exact Nat.le_of_not_lt smaller
          · exact first z later

theorem StrictlyAscending.insertAscending {key : α → Nat} {list : List α} {x : α}
    (ascending : StrictlyAscending key list) (fresh : ∀ y ∈ list, key y ≠ key x) :
    StrictlyAscending key (insertAscending key x list) := by
  induction list with
  | nil => exact List.pairwise_singleton _ x
  | cons y rest induction =>
      rcases List.pairwise_cons.mp ascending with ⟨first, restAscending⟩
      unfold YfsRpc.insertAscending
      split
      · next larger =>
          apply List.pairwise_cons.mpr
          refine ⟨?_, ascending⟩
          intro z member
          rcases List.mem_cons.mp member with rfl | later
          · exact larger
          · exact Nat.lt_trans larger (first z later)
      · next smaller =>
          apply List.pairwise_cons.mpr
          refine ⟨?_, induction restAscending fun z later =>
            fresh z (List.mem_cons_of_mem y later)⟩
          intro z member
          rcases (mem_insertAscending key x z rest).mp member with rfl | later
          · have differs := fresh y List.mem_cons_self
            omega
          · exact first z later

/-- In a strictly ascending list the key determines the element. -/
theorem StrictlyAscending.eq_of_key {key : α → Nat} {list : List α} {x y : α}
    (ascending : StrictlyAscending key list) (left : x ∈ list) (right : y ∈ list)
    (same : key x = key y) : x = y := by
  induction list with
  | nil => contradiction
  | cons z rest induction =>
      rcases List.pairwise_cons.mp ascending with ⟨first, restAscending⟩
      rcases List.mem_cons.mp left with rfl | leftLater
      · rcases List.mem_cons.mp right with rfl | rightLater
        · rfl
        · have less := first y rightLater
          omega
      · rcases List.mem_cons.mp right with rfl | rightLater
        · have less := first x leftLater
          omega
        · exact induction restAscending leftLater rightLater

end YfsRpc
