import Mathlib.Algebra.Group.Nat.Defs
import Mathlib.Data.List.Induction
import Mathlib.Order.Bounds.Defs
import YfsRpc.Foundation.Ascending

/-! # The acknowledgement window of a client

`xid_rep_window_` collects the xids of completed calls. Its front is the xid a
request acknowledges: every call up to it has completed.
-/

namespace YfsRpc.Rpc

/-- `while (front + 1 == *it) pop_front()`, where `front` is the part of the
list before the iterator; the list never loses the element `x` at it. -/
def popWhile (x : Nat) : List Nat → List Nat
  | [] => []
  | y :: rest => if (y + 1) % 2 ^ 32 = x then popWhile x rest else y :: rest

/-- The loop after `compress`, with the iterator between the two lists. -/
def compressFrom : List Nat → List Nat → List Nat
  | front, [] => front
  | front, x :: rest => compressFrom (popWhile x front ++ [x]) rest

/-- The part of `update_xid_rep` from the label `compress` on. -/
def compress : List Nat → List Nat
  | [] => []
  | x :: rest => compressFrom [x] rest

def updateXidRep (window : List Nat) (xid : Nat) : List Nat :=
  if xid ≤ window.headD 0 then
    window
  else
    compress (insertAscending id xid window)

theorem insertAscending_behind {x y : Nat} (rest : List Nat) (larger : y < x) :
    insertAscending id x (y :: rest) = y :: insertAscending id x rest := by
  simp [insertAscending, show ¬ y > x by omega]

/-- An xid above the front goes behind it. -/
theorem updateXidRep_cons {x y : Nat} (rest : List Nat) (larger : y < x) :
    updateXidRep (y :: rest) x = compressFrom [y] (insertAscending id x rest) := by
  unfold updateXidRep
  rw [List.headD_cons, if_neg (Nat.not_le.mpr larger), insertAscending_behind rest larger]
  rfl

/-- The window acknowledges completed calls only: those in it, apart from the 0
it starts with, and all up to its front. -/
structure Acknowledges (completed : Nat → Prop) (window : List Nat) : Prop where
  ne_nil : window ≠ []
  ascending : Ascending id window
  members : ∀ xid ∈ window, xid ≠ 0 → completed xid
  below : ∀ xid, xid ≠ 0 → xid ≤ window.headD 0 → completed xid

theorem initial_acknowledges (completed : Nat → Prop) : Acknowledges completed [0] where
  ne_nil := nofun
  ascending := List.pairwise_singleton _ 0
  members := by simp
  below := by
    intro xid positive below
    exact absurd (Nat.le_zero.mp below) positive

theorem Acknowledges.mono {completed now : Nat → Prop} {window : List Nat}
    (acknowledges : Acknowledges completed window) (more : ∀ xid, completed xid → now xid) :
    Acknowledges now window where
  ne_nil := acknowledges.ne_nil
  ascending := acknowledges.ascending
  members := fun xid member positive => more xid (acknowledges.members xid member positive)
  below := fun xid positive below => more xid (acknowledges.below xid positive below)

/-- Popping an element whose successor is at the iterator loses no acknowledgement. -/
theorem Acknowledges.popWhile {completed : Nat → Prop} {x : Nat} {rest : List Nat} :
    ∀ {front : List Nat}, Acknowledges completed (front ++ x :: rest) →
      Acknowledges completed (popWhile x front ++ x :: rest)
  | [], acknowledges => acknowledges
  | y :: front, acknowledges => by
      unfold Rpc.popWhile
      split
      · next successor =>
          rcases List.pairwise_cons.mp acknowledges.ascending with ⟨first, tail⟩
          have small : y ≤ x := first x (by simp)
          have next : x = y + 1 := by omega
          apply Acknowledges.popWhile
          refine ⟨by simp, tail, ?_, ?_⟩
          · intro xid member positive
            exact acknowledges.members xid (List.mem_cons_of_mem y member) positive
          · intro xid positive below
            by_cases old : xid ≤ y
            · exact acknowledges.below xid positive old
            · have head : (front ++ x :: rest).headD 0 ≤ x := by
                cases front with
                | nil => exact Nat.le_refl x
                | cons z front =>
                    rcases List.pairwise_cons.mp tail with ⟨second, _⟩
                    exact second x (by simp)
              have same : xid = x := by omega
              subst same
              exact acknowledges.members xid (by simp) positive
      · exact acknowledges

theorem Acknowledges.compressFrom {completed : Nat → Prop} :
    ∀ {rest front : List Nat}, Acknowledges completed (front ++ rest) →
      Acknowledges completed (compressFrom front rest)
  | [], front, acknowledges => by
      rw [List.append_nil] at acknowledges
      exact acknowledges
  | x :: rest, front, acknowledges => by
      have popped := acknowledges.popWhile
      rw [List.append_cons] at popped
      have compressed := Acknowledges.compressFrom popped
      exact compressed

/-- Reporting a completed call keeps the window sound. -/
theorem Acknowledges.updateXidRep {completed : Nat → Prop} {window : List Nat}
    (acknowledges : Acknowledges completed window) {xid : Nat} (reported : completed xid) :
    Acknowledges completed (updateXidRep window xid) := by
  rcases window with _ | ⟨y, rest⟩
  · exact absurd rfl acknowledges.ne_nil
  · by_cases known : xid ≤ y
    · unfold Rpc.updateXidRep
      rwa [List.headD_cons, if_pos known]
    · have larger := Nat.lt_of_not_le known
      rw [updateXidRep_cons rest larger]
      apply Acknowledges.compressFrom
      rw [List.singleton_append, ← insertAscending_behind rest larger]
      refine ⟨insertAscending_ne_nil id xid _, acknowledges.ascending.insertAscending xid,
        ?_, ?_⟩
      · intro z member positive
        rcases (mem_insertAscending id xid z _).mp member with rfl | old
        · exact reported
        · exact acknowledges.members z old positive
      · rw [insertAscending_behind rest larger]
        exact acknowledges.below

/-! ## The front only moves forward -/

theorem mem_of_mem_popWhile {x y : Nat} : ∀ {front : List Nat}, y ∈ popWhile x front → y ∈ front
  | [], member => member
  | z :: front, member => by
      unfold popWhile at member
      split at member
      · exact List.mem_cons_of_mem z (mem_of_mem_popWhile member)
      · exact member

theorem headD_popWhile (x : Nat) (rest : List Nat) :
    ∀ front : List Nat, Ascending id (front ++ x :: rest) →
      (front ++ x :: rest).headD 0 ≤ (popWhile x front ++ x :: rest).headD 0
  | [], _ => Nat.le_refl _
  | y :: front, ascending => by
      unfold popWhile
      split
      · rcases List.pairwise_cons.mp ascending with ⟨first, tail⟩
        have moved := headD_popWhile x rest front tail
        apply Nat.le_trans _ moved
        cases front with
        | nil => exact first x (by simp)
        | cons z front => exact first z (by simp)
      · exact Nat.le_refl _

theorem ascending_popWhile (x : Nat) (rest : List Nat) :
    ∀ front : List Nat, Ascending id (front ++ x :: rest) →
      Ascending id (popWhile x front ++ x :: rest)
  | [], ascending => ascending
  | y :: front, ascending => by
      unfold popWhile
      split
      · exact ascending_popWhile x rest front (List.pairwise_cons.mp ascending).2
      · exact ascending

theorem headD_compressFrom :
    ∀ rest front : List Nat, Ascending id (front ++ rest) →
      (front ++ rest).headD 0 ≤ (compressFrom front rest).headD 0
  | [], front, _ => by
      rw [List.append_nil]
      exact Nat.le_refl _
  | x :: rest, front, ascending => by
      have popped := ascending_popWhile x rest front ascending
      have moved := headD_popWhile x rest front ascending
      rw [List.append_cons] at popped
      have compressed := headD_compressFrom rest (popWhile x front ++ [x]) popped
      rw [← List.append_cons] at compressed
      exact Nat.le_trans moved compressed

theorem headD_updateXidRep {window : List Nat} (ascending : Ascending id window) (xid : Nat) :
    window.headD 0 ≤ (updateXidRep window xid).headD 0 := by
  by_cases known : xid ≤ window.headD 0
  · have same : updateXidRep window xid = window := if_pos known
    exact Nat.le_of_eq (congrArg (·.headD 0) same).symm
  · cases window with
    | nil => exact Nat.zero_le _
    | cons y rest =>
        have larger : y < xid := Nat.lt_of_not_le known
        have inserted := ascending.insertAscending xid
        rw [insertAscending_behind rest larger] at inserted
        rw [updateXidRep_cons rest larger]
        exact headD_compressFrom (insertAscending id xid rest) [y] inserted

/-! ## The front is as far as it can be -/

/-- No element is the successor of the first one. -/
def Compressed (window : List Nat) : Prop := ∀ y ∈ window.head?, y + 1 ∉ window

theorem Compressed.popWhile {x : Nat} : ∀ {front : List Nat}, Ascending id (front ++ [x]) →
    (∀ y ∈ front, y + 1 < 2 ^ 32) → Compressed front → Compressed (popWhile x front ++ [x])
  | [], _, _, _ => by simp [Compressed, Rpc.popWhile]
  | y :: front, ascending, small, compressed => by
      rcases List.pairwise_cons.mp ascending with ⟨first, tail⟩
      have fits := small y List.mem_cons_self
      have next := compressed y rfl
      unfold Rpc.popWhile
      rw [Nat.mod_eq_of_lt fits]
      split
      · next successor =>
          apply Compressed.popWhile tail fun z member => small z (List.mem_cons_of_mem y member)
          -- all elements before the iterator are equal to the popped one
          intro z head member
          have inside := List.mem_of_mem_head? head
          have lower : y ≤ z := first z (List.mem_append_left _ inside)
          have upper : z + 1 ≤ x := (List.pairwise_append.mp tail).2.2 _ member x (by simp)
          have same : z = y := by omega
          rw [same] at member
          exact next (List.mem_cons_of_mem y member)
      · next other =>
          intro z head member
          cases Option.mem_some_iff.mp head
          rcases List.mem_append.mp member with before | last
          · exact next before
          · exact other (List.mem_singleton.mp last)

theorem Compressed.compressFrom : ∀ {rest front : List Nat}, Ascending id (front ++ rest) →
    (∀ y ∈ front ++ rest, y + 1 < 2 ^ 32) → Compressed front → Compressed (compressFrom front rest)
  | [], _, _, _, compressed => compressed
  | x :: rest, front, ascending, small, compressed => by
      have popped := ascending_popWhile x rest front ascending
      rw [List.append_cons] at popped ascending
      apply Compressed.compressFrom popped
      · intro y member
        rcases List.mem_append.mp member with kept | later
        · apply small y
          rcases List.mem_append.mp kept with before | last
          · exact List.mem_append_left _ (mem_of_mem_popWhile before)
          · rw [List.mem_singleton.mp last]
            simp
        · exact small y (List.mem_append_right _ (List.mem_cons_of_mem x later))
      · apply Compressed.popWhile (List.pairwise_append.mp ascending).1 _ compressed
        exact fun y before => small y (List.mem_append_left _ before)

/-- What is popped is not above the new front. -/
theorem mem_popWhile {x z : Nat} {rest : List Nat} : ∀ {front : List Nat},
    Ascending id (front ++ x :: rest) → z ∈ front ++ x :: rest →
      (popWhile x front ++ x :: rest).headD 0 < z → z ∈ popWhile x front ++ x :: rest
  | [], _, member, _ => member
  | y :: front, ascending, member, above => by
      have moved := headD_popWhile x rest (y :: front) ascending
      unfold popWhile at above moved ⊢
      split
      · next successor =>
          rw [if_pos successor] at above moved
          apply mem_popWhile (List.pairwise_cons.mp ascending).2 _ above
          rcases List.mem_cons.mp member with rfl | later
          · exact absurd above (Nat.not_lt.mpr moved)
          · exact later
      · exact member

theorem mem_compressFrom {z : Nat} : ∀ {rest front : List Nat},
    Ascending id (front ++ rest) → z ∈ front ++ rest →
      (compressFrom front rest).headD 0 < z → z ∈ compressFrom front rest
  | [], front, _, member, _ => by
      rw [List.append_nil] at member
      exact member
  | x :: rest, front, ascending, member, above => by
      have popped := ascending_popWhile x rest front ascending
      have kept : z ∈ popWhile x front ++ x :: rest := by
        apply mem_popWhile ascending member
        have moved := headD_compressFrom rest (popWhile x front ++ [x])
          (by rw [← List.append_cons]; exact popped)
        rw [← List.append_cons] at moved
        exact Nat.lt_of_le_of_lt moved above
      rw [List.append_cons] at popped kept
      have compressed := mem_compressFrom popped kept above
      exact compressed

/-- The window holds every reported xid above its front, and not the next one. -/
structure Tight (reports window : List Nat) : Prop where
  acknowledges : Acknowledges (· ∈ reports) window
  above : ∀ x ∈ reports, window.headD 0 < x → x ∈ window
  compressed : Compressed window

theorem initial_tight : Tight [] [0] where
  acknowledges := initial_acknowledges _
  above := nofun
  compressed := by simp [Compressed]

theorem Tight.updateXidRep {reports window : List Nat} {x : Nat} (tight : Tight reports window)
    (range : ∀ y ∈ reports ++ [x], y < 2 ^ 32 - 1) :
    Tight (reports ++ [x]) (updateXidRep window x) := by
  have old : Acknowledges (· ∈ reports ++ [x]) window :=
    tight.acknowledges.mono fun y member => List.mem_append_left _ member
  have reported : x ∈ reports ++ [x] := List.mem_append_right _ (List.mem_singleton_self x)
  have acknowledges := old.updateXidRep reported
  rcases window with _ | ⟨front, rest⟩
  · exact absurd rfl tight.acknowledges.ne_nil
  · by_cases known : x ≤ front
    · unfold Rpc.updateXidRep at acknowledges ⊢
      rw [List.headD_cons, if_pos known] at acknowledges ⊢
      refine ⟨acknowledges, ?_, tight.compressed⟩
      intro y member above
      rcases List.mem_append.mp member with before | last
      · exact tight.above y before above
      · cases List.mem_singleton.mp last
        exact absurd above (Nat.not_lt.mpr known)
    · have larger := Nat.lt_of_not_le known
      have moved := headD_updateXidRep tight.acknowledges.ascending x
      have inserted := tight.acknowledges.ascending.insertAscending x
      rw [insertAscending_behind rest larger] at inserted
      rw [updateXidRep_cons rest larger] at acknowledges moved ⊢
      have members : ∀ y, y ∈ front :: insertAscending id x rest ↔ y = x ∨ y ∈ front :: rest := by
        intro y
        rw [← insertAscending_behind rest larger, mem_insertAscending]
      refine ⟨acknowledges, ?_, ?_⟩
      · intro y member above
        apply mem_compressFrom inserted _ above
        apply (members y).mpr
        rcases List.mem_append.mp member with before | last
        · exact Or.inr (tight.above y before (Nat.lt_of_le_of_lt moved above))
        · exact Or.inl (List.mem_singleton.mp last)
      · apply Compressed.compressFrom inserted
        · intro y member
          rcases (members y).mp member with rfl | before
          · have bound := range y reported
            omega
          · rcases Nat.eq_zero_or_pos y with rfl | positive
            · decide
            · have bound := range y (old.members y before (by omega))
              omega
        · simp [Compressed]

/-- The window after calls were reported as completed in this order. -/
def reportAll (reports : List Nat) : List Nat := reports.foldl updateXidRep [0]

theorem reportAll_tight (reports : List Nat) (range : ∀ x ∈ reports, x < 2 ^ 32 - 1) :
    Tight reports (reportAll reports) := by
  induction reports using List.reverseRecOn with
  | nil => exact initial_tight
  | append_singleton reports x induction =>
      have before := induction fun y member => range y (List.mem_append_left _ member)
      unfold reportAll at before ⊢
      rw [List.foldl_append]
      exact before.updateXidRep range

/-- The window of a client acknowledges the longest run of reported xids from 1 on. -/
theorem reportAll_exact (reports : List Nat) (range : ∀ x ∈ reports, x < 2 ^ 32 - 1) :
    Ascending id (reportAll reports) ∧ ∃ front, (reportAll reports).head? = some front ∧
      IsGreatest {m | ∀ x, 1 ≤ x → x ≤ m → x ∈ reports} front := by
  have tight := reportAll_tight reports range
  refine ⟨tight.acknowledges.ascending, ?_⟩
  cases window : reportAll reports with
  | nil => exact absurd window tight.acknowledges.ne_nil
  | cons front rest =>
      rw [window] at tight
      refine ⟨front, rfl, ?_, ?_⟩
      · exact fun x positive below => tight.acknowledges.below x (by omega) below
      · intro m reported
        by_contra beyond
        have next := reported (front + 1) (by omega) (by omega)
        exact tight.compressed front rfl (tight.above (front + 1) next (Nat.lt_succ_self front))

theorem reportAll_exact_repeated :
    reportAll [2, 2, 5, 1, 3, 5] = [3, 5, 5] ∧
      IsGreatest {m | ∀ x, 1 ≤ x → x ≤ m → x ∈ [2, 2, 5, 1, 3, 5]} 3 := by
  have window : reportAll [2, 2, 5, 1, 3, 5] = [3, 5, 5] := by decide
  rcases reportAll_exact [2, 2, 5, 1, 3, 5] (by decide) with ⟨_, front, head, greatest⟩
  rw [window] at head
  cases head
  exact ⟨window, greatest⟩

end YfsRpc.Rpc
