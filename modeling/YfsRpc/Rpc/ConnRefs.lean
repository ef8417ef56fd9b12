import Mathlib.Logic.Function.Basic

/-! # References to connections

Connections are numbered in the order of their creation. `decref` deletes a connection
whose last reference is gone, but only if it is dead. A connection that is used after it
was deleted leaves a mark.
-/

namespace YfsRpc.Rpc

structure ConnTable where
  created : Nat := 0
  refno : Nat → Nat := fun _ => 0
  dead : Nat → Bool := fun _ => false
  /-- how often the connection was deleted -/
  deleted : Nat → Nat := fun _ => 0
  /-- history: a connection was used after it was deleted -/
  misused : Bool := false

namespace ConnTable

/-- The constructor sets `refno_` to one. -/
def create (t : ConnTable) : ConnTable :=
  { t with created := t.created + 1, refno := Function.update t.refno t.created 1 }

/-- Call any function of the connection. -/
def use (t : ConnTable) (c : Nat) : ConnTable :=
  { t with misused := t.misused || t.deleted c != 0 }

def incref (t : ConnTable) (c : Nat) : ConnTable :=
  let t := t.use c
  { t with refno := Function.update t.refno c (t.refno c + 1) }

/-- There is no successor when the assertion on `refno_` fails. -/
def decref (t : ConnTable) (c : Nat) : Option ConnTable :=
  let t := t.use c
  if t.refno c = 0 then
    none
  else
    let t := { t with refno := Function.update t.refno c (t.refno c - 1) }
    if t.refno c = 0 ∧ t.dead c = true then
      some { t with deleted := Function.update t.deleted c (t.deleted c + 1) }
    else
      some t

def die (t : ConnTable) (c : Nat) : ConnTable :=
  { t with dead := Function.update t.dead c true }

theorem refno_decref {t next : ConnTable} {c : Nat} (taken : t.decref c = some next) :
    t.refno c ≠ 0 ∧ next.refno = Function.update t.refno c (t.refno c - 1) := by
  unfold decref at taken
  simp only [use, Function.update_self] at taken
  split at taken
  · contradiction
  · next some =>
      split at taken <;> cases taken <;> exact ⟨some, rfl⟩

theorem dead_decref {t next : ConnTable} {c : Nat} (taken : t.decref c = some next) :
    next.dead = t.dead := by
  unfold decref at taken
  dsimp only at taken
  split at taken
  · contradiction
  · split at taken <;> cases taken <;> rfl

/-! ## Counted references -/

/-- The references to a connection are those in its `refno_`; the connections without
references are dead and were deleted once. -/
structure Counted (t : ConnTable) (refs : Nat → Nat) : Prop where
  refno : ∀ c, t.refno c = refs c
  fresh : ∀ c, t.created ≤ c → refs c = 0 ∧ t.dead c = false ∧ t.deleted c = 0
  dead : ∀ c, c < t.created → refs c = 0 → t.dead c = true
  deleted : ∀ c, c < t.created → t.deleted c = if refs c = 0 then 1 else 0
  unmarked : t.misused = false

/-- One reference to `c` more. -/
def Gains (refs refs' : Nat → Nat) (c : Nat) : Prop :=
  ∀ d, refs' d = refs d + if d = c then 1 else 0

variable {t next : ConnTable} {refs refs' : Nat → Nat} {c : Nat}

theorem Gains.add (gains : Gains refs refs' c) (more : Nat → Nat) :
    Gains (fun d => refs d + more d) (fun d => refs' d + more d) c := by
  intro d
  dsimp only
  rw [gains d, Nat.add_right_comm]

theorem Counted.initial : Counted {} fun _ => 0 where
  refno _ := rfl
  fresh _ _ := ⟨rfl, rfl, rfl⟩
  dead _ bound := absurd bound (Nat.not_lt_zero _)
  deleted _ bound := absurd bound (Nat.not_lt_zero _)
  unmarked := rfl

theorem Counted.lt_created (counted : Counted t refs) (held : refs c ≠ 0) : c < t.created := by
  by_contra fresh
  exact held (counted.fresh c (Nat.le_of_not_lt fresh)).1

theorem Counted.deleted_held (counted : Counted t refs) (held : refs c ≠ 0) :
    t.deleted c = 0 := by
  rw [counted.deleted c (counted.lt_created held), if_neg held]

/-- Whoever has a reference may use the connection. -/
theorem Counted.use_eq (counted : Counted t refs) (held : refs c ≠ 0) : t.use c = t := by
  simp [use, counted.deleted_held held]

theorem Counted.congr (counted : Counted t refs) (same : ∀ d, refs' d = refs d) :
    Counted t refs' := by
  rw [funext same]
  exact counted

theorem Counted.create (counted : Counted t refs) (gains : Gains refs refs' t.created) :
    Counted t.create refs' := by
  have none := counted.fresh t.created (Nat.le_refl _)
  constructor
  · intro d
    by_cases here : d = t.created
    · subst here
      simp [ConnTable.create, gains t.created, none.1]
    · simp [ConnTable.create, gains d, here, counted.refno]
  · intro d bound
    have later : t.created + 1 ≤ d := bound
    have before := counted.fresh d (by omega)
    refine ⟨?_, before.2⟩
    rw [gains d, if_neg (by omega), before.1]
  · intro d bound empty
    have before : d < t.created + 1 := bound
    have differs : d ≠ t.created := by
      rintro rfl
      simp [gains t.created] at empty
    rw [gains d, if_neg differs] at empty
    exact counted.dead d (by omega) empty
  · intro d bound
    have before : d < t.created + 1 := bound
    by_cases here : d = t.created
    · subst here
      simp [ConnTable.create, gains t.created, none.2.2]
    · rw [gains d, if_neg here]
      exact counted.deleted d (by omega)
  · exact counted.unmarked

theorem Counted.incref (counted : Counted t refs) (held : refs c ≠ 0)
    (gains : Gains refs refs' c) : Counted (t.incref c) refs' := by
  have zero : ∀ d, refs' d = 0 ↔ refs d = 0 := by
    intro d
    rw [gains d]
    by_cases here : d = c
    · subst here
      simp [held]
    · simp [here]
  unfold ConnTable.incref
  rw [counted.use_eq held]
  constructor
  · intro d
    by_cases here : d = c
    · subst here
      simp [gains d, counted.refno]
    · simp [gains d, here, counted.refno]
  · intro d bound
    have before := counted.fresh d bound
    exact ⟨(zero d).mpr before.1, before.2⟩
  · exact fun d bound empty => counted.dead d bound ((zero d).mp empty)
  · intro d bound
    simp only [zero]
    exact counted.deleted d bound
  · exact counted.unmarked

/-- Whoever has the last reference may give it up once the connection is dead. -/
theorem Counted.decref (counted : Counted t refs) (gains : Gains refs' refs c)
    (last : refs' c = 0 → t.dead c = true) (taken : t.decref c = some next) :
    Counted next refs' ∧ next.created = t.created ∧ next.dead = t.dead := by
  have held : refs c ≠ 0 := by simp [gains c]
  have bound := counted.lt_created held
  unfold ConnTable.decref at taken
  rw [counted.use_eq held] at taken
  have left : t.refno c - 1 = refs' c := by
    rw [counted.refno, gains c]
    simp
  have others : ∀ d, d ≠ c → refs' d = refs d := by
    intro d differs
    rw [gains d, if_neg differs]
    rfl
  have refno : ∀ d, Function.update t.refno c (refs' c) d = refs' d := by
    intro d
    by_cases here : d = c
    · subst here
      simp
    · simp [here, others d here, counted.refno]
  have fresh : ∀ d, t.created ≤ d → refs' d = 0 ∧ t.dead d = false ∧ t.deleted d = 0 := by
    intro d later
    have before := counted.fresh d later
    exact ⟨(others d (by omega)).trans before.1, before.2⟩
  have dead : ∀ d, d < t.created → refs' d = 0 → t.dead d = true := by
    intro d before empty
    by_cases here : d = c
    · subst here
      exact last empty
    · exact counted.dead d before ((others d here).symm.trans empty)
  simp only [Function.update_self, left] at taken
  split at taken
  · contradiction
  · split at taken
    · next gone =>
        cases taken
        refine ⟨⟨refno, ?_, dead, ?_, counted.unmarked⟩, rfl, rfl⟩
        · intro d later
          have before := fresh d later
          have differs : d ≠ c := by
            rintro rfl
            exact absurd bound (Nat.not_lt.mpr later)
          simpa [differs] using before
        · intro d before
          by_cases here : d = c
          · subst here
            simp [gone.1, counted.deleted_held held]
          · simp [here, others d here, counted.deleted d before]
    · next kept =>
        cases taken
        refine ⟨⟨refno, fresh, dead, ?_, counted.unmarked⟩, rfl, rfl⟩
        intro d before
        by_cases here : d = c
        · subst here
          have some : refs' d ≠ 0 := fun empty => kept ⟨empty, last empty⟩
          simp [some, counted.deleted_held held]
        · simp [others d here, counted.deleted d before]

theorem Counted.die (counted : Counted t refs) (bound : c < t.created) :
    Counted (t.die c) refs where
  refno := counted.refno
  fresh d later := by
    have differs : d ≠ c := by
      rintro rfl
      exact absurd bound (Nat.not_lt.mpr later)
    simpa [ConnTable.die, differs] using counted.fresh d later
  dead d before empty := by
    by_cases here : d = c
    · subst here
      simp [ConnTable.die]
    · simpa [ConnTable.die, here] using counted.dead d before empty
  deleted := counted.deleted
  unmarked := counted.unmarked

theorem dead_die_of_dead {d : Nat} (dead : t.dead d = true) : (t.die c).dead d = true := by
  by_cases here : d = c
  · subst here
    simp [die]
  · simpa [die, here] using dead

end ConnTable

end YfsRpc.Rpc
