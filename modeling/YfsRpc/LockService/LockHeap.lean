import YfsRpc.Foundation.Machine
import YfsRpc.LockService.Waiters

/-! # The locks in memory

`mapLocks` maps lock ids to pointers. Reading it with `operator[]` enters a null pointer
for an id it does not have. `grant` looks the id up first, `release` does not.
-/

namespace YfsRpc.LockService

open LockProtocol (LockId)

structure LockHeap where
  nacquire : Int32 := 0
  /-- the locks made so far; a pointer is a place in this list -/
  locks : List Lock := []
  /-- an entry with a null pointer is `some none` -/
  mapLocks : LockId → Option (Option Nat) := fun _ => none

namespace LockHeap

/-- How a call that holds the mutex goes on. -/
inductive Outcome
  | returned (s : LockHeap)
  /-- on the condition of the lock -/
  | waits
  /-- a null pointer was dereferenced -/
  | crashed

/-- `mapLocks[lid]` -/
def index (s : LockHeap) (lid : LockId) : Option Nat × LockHeap :=
  match s.mapLocks lid with
  | some pointer => (pointer, s)
  | none => (none, { s with mapLocks := Function.update s.mapLocks lid (some none) })

/-- What the pointer points to. -/
def deref (s : LockHeap) (pointer : Option Nat) : Option Lock :=
  pointer.bind fun i => s.locks[i]?

def store (s : LockHeap) (pointer : Option Nat) (l : Lock) : LockHeap :=
  match pointer with
  | none => s
  | some i => { s with locks := s.locks.set i l }

/-- `mapLocks.insert(std::make_pair(lid, new lock(lid)))`, with the lock as it is left. -/
def insertNew (s : LockHeap) (lid : LockId) (l : Lock) : LockHeap :=
  { s with
    locks := s.locks ++ [l]
    mapLocks := Function.update s.mapLocks lid (some (some s.locks.length)) }

def grant (clt : Int32) (lid : LockId) (s : LockHeap) : Outcome :=
  if (s.mapLocks lid).isSome then
    let (pointer, s) := s.index lid
    match s.deref pointer with
    | none => .crashed
    | some l => if l.isLocked then .waits else .returned (s.store pointer (l.setLocked clt))
  else
    .returned (s.insertNew lid (({ lid } : Lock).setLocked clt))

def release (clt : Int32) (lid : LockId) (s : LockHeap) : Outcome :=
  let (pointer, s) := s.index lid
  match s.deref pointer with
  | none => .crashed
  | some l =>
      if l.isLocked then
        if clt = l.getOwner then .returned (s.store pointer l.setFree) else .returned s
      else
        .returned s

inductive Action
  | stat (clt : Int32) (lid : LockId)
  | grant (clt : Int32) (lid : LockId)
  | release (clt : Int32) (lid : LockId)

/-- A call that waits changes nothing, and a server that crashed does nothing more. -/
def Outcome.next : Outcome → Option LockHeap
  | .returned s => some s
  | .waits | .crashed => none

def step (s : LockHeap) : Action → Option LockHeap
  | .stat _ _ => some s
  | .grant clt lid => (s.grant clt lid).next
  | .release clt lid => (s.release clt lid).next

def machine : Machine LockHeap Action where
  initial := {}
  step := step

/-! ## The locks it stands for -/

def lockOf (s : LockHeap) (lid : LockId) : Option Lock := (s.mapLocks lid).bind s.deref

def view (s : LockHeap) : LockServer where
  nacquire := s.nacquire
  mapLocks := s.lockOf

/-- Every entry refers to a lock. -/
def EntriesExist (s : LockHeap) : Prop :=
  ∀ lid pointer, s.mapLocks lid = some pointer → ∃ l, s.deref pointer = some l

/-- The lock an entry refers to is that of its id, so no two entries share one. -/
def Inv (s : LockHeap) : Prop :=
  ∀ lid pointer, s.mapLocks lid = some pointer → ∃ l, s.deref pointer = some l ∧ l.lid = lid

variable {s next : LockHeap} {clt : Int32} {lid : LockId} {pointer : Option Nat} {l : Lock}

theorem Inv.entriesExist (inv : Inv s) : s.EntriesExist := by
  intro lid pointer entry
  rcases inv lid pointer entry with ⟨l, exists_, _⟩
  exact ⟨l, exists_⟩

theorem index_of_entry (entry : s.mapLocks lid = some pointer) : s.index lid = (pointer, s) := by
  unfold index
  rw [entry]

theorem lockOf_of_entry (entry : s.mapLocks lid = some pointer) : s.lockOf lid = s.deref pointer := by
  unfold lockOf
  rw [entry]
  rfl

theorem deref_store (exists_ : s.deref pointer = some l) (l' : Lock) (other : Option Nat) :
    (s.store pointer l').deref other = if other = pointer then some l' else s.deref other := by
  rcases pointer with _ | i
  · contradiction
  · rcases other with _ | j
    · rfl
    · have bound : i < s.locks.length := (List.getElem?_eq_some_iff.mp exists_).1
      by_cases same : j = i
      · subst same
        simp [store, deref, bound]
      · simp [store, deref, same, List.getElem?_set_ne (Ne.symm same)]

@[simp] theorem mapLocks_store (pointer : Option Nat) (l : Lock) :
    (s.store pointer l).mapLocks = s.mapLocks := by
  cases pointer <;> rfl

/-- Storing to the lock of an entry changes no other lock. -/
theorem Inv.view_store (inv : Inv s) (entry : s.mapLocks lid = some pointer)
    (exists_ : s.deref pointer = some l) (l' : Lock) :
    (s.store pointer l').view = s.view.setLock lid l' := by
  have locks : (s.store pointer l').lockOf = Function.update s.lockOf lid (some l') := by
    funext other
    unfold lockOf
    rw [mapLocks_store]
    by_cases here : other = lid
    · subst here
      rw [Function.update_self, entry]
      simp [deref_store exists_]
    · rw [Function.update_of_ne here]
      cases entry' : s.mapLocks other with
      | none => rfl
      | some pointer' =>
          have apart : pointer' ≠ pointer := by
            rintro rfl
            rcases inv lid _ entry with ⟨l₁, found₁, rfl⟩
            rcases inv other _ entry' with ⟨l₂, found₂, rfl⟩
            rw [found₁] at found₂
            cases found₂
            exact here rfl
          simp [deref_store exists_, apart]
  have same : (s.store pointer l').nacquire = s.nacquire := by
    cases pointer <;> rfl
  unfold view LockServer.setLock
  rw [locks, same]

theorem Inv.store (inv : Inv s) (exists_ : s.deref pointer = some l) {l' : Lock}
    (same : l'.lid = l.lid) : Inv (s.store pointer l') := by
  intro other pointer' entry
  rw [mapLocks_store] at entry
  rcases inv other pointer' entry with ⟨l₂, found, lid⟩
  rw [deref_store exists_]
  split
  · next here =>
      subst here
      rw [exists_] at found
      cases found
      exact ⟨l', rfl, same.trans lid⟩
  · exact ⟨l₂, found, lid⟩

theorem Inv.insertNew (inv : Inv s) (unknown : s.mapLocks lid = none) (own : l.lid = lid) :
    Inv (s.insertNew lid l) := by
  intro other pointer' entry
  rcases slot_filled entry with ⟨rfl, rfl⟩ | ⟨_, before⟩
  · exact ⟨l, by simp [LockHeap.insertNew, deref], own⟩
  · rcases inv other pointer' before with ⟨l₂, found, lid'⟩
    rcases pointer' with _ | i
    · contradiction
    · refine ⟨l₂, ?_, lid'⟩
      have bound : i < s.locks.length := (List.getElem?_eq_some_iff.mp found).1
      exact (List.getElem?_append_left bound).trans found

/-- A new lock is at a place of its own. -/
theorem Inv.view_insertNew (inv : Inv s) (l : Lock) :
    (s.insertNew lid l).view = s.view.setLock lid l := by
  have locks : (s.insertNew lid l).lockOf = Function.update s.lockOf lid (some l) := by
    funext other
    unfold lockOf
    by_cases here : other = lid
    · subst here
      rw [Function.update_self]
      simp [LockHeap.insertNew, deref]
    · rw [Function.update_of_ne here]
      simp only [LockHeap.insertNew, Function.update_of_ne here]
      cases entry : s.mapLocks other with
      | none => rfl
      | some pointer =>
          rcases inv other pointer entry with ⟨l', exists_, _⟩
          rcases pointer with _ | i
          · contradiction
          · have bound : i < s.locks.length := (List.getElem?_eq_some_iff.mp exists_).1
            exact List.getElem?_append_left bound
  unfold view LockServer.setLock
  rw [locks]
  rfl

/-! ## The procedures -/

theorem setLocked_lid (clt : Int32) (l : Lock) : (l.setLocked clt).lid = l.lid := by
  unfold Lock.setLocked
  split <;> rfl

/-- `grant` does what it does on the locks the server stands for. -/
theorem Inv.grant (inv : Inv s) (clt : Int32) (lid : LockId) :
    (s.grant clt lid = .waits ∧ s.view.grant clt lid = none) ∨
      ∃ next, s.grant clt lid = .returned next ∧ Inv next ∧
        s.view.grant clt lid = some next.view := by
  cases entry : s.mapLocks lid with
  | none =>
      right
      have none : s.view.mapLocks lid = none := by simp [view, lockOf, entry]
      refine ⟨s.insertNew lid (({ lid } : Lock).setLocked clt), by simp [LockHeap.grant, entry],
        inv.insertNew entry (setLocked_lid clt _), ?_⟩
      rw [inv.view_insertNew]
      simp [LockServer.grant, none]
  | some pointer =>
      rcases inv lid pointer entry with ⟨l, exists_, _⟩
      have found : s.view.mapLocks lid = some l := (lockOf_of_entry entry).trans exists_
      simp only [LockHeap.grant, entry, Option.isSome_some, if_true, index_of_entry entry, exists_,
        LockServer.grant, found]
      split
      · exact Or.inl ⟨rfl, rfl⟩
      · right
        refine ⟨_, rfl, inv.store exists_ (setLocked_lid clt l), ?_⟩
        rw [inv.view_store entry exists_]

/-- With an entry `release` does what it does on the locks the server stands for. -/
theorem Inv.release (inv : Inv s) (clt : Int32) (entry : s.mapLocks lid = some pointer) :
    ∃ next, s.release clt lid = .returned next ∧ Inv next ∧ next.mapLocks = s.mapLocks ∧
      s.view.release clt lid = some next.view ∧
      (s.view.lockedBy lid ≠ some clt → next = s) := by
  rcases inv lid pointer entry with ⟨l, exists_, _⟩
  have found : s.view.mapLocks lid = some l := (lockOf_of_entry entry).trans exists_
  simp only [LockHeap.release, index_of_entry entry, exists_, LockServer.release, found]
  split
  · next locked =>
      split
      · next owner =>
          refine ⟨_, rfl, inv.store exists_ rfl, mapLocks_store .., ?_, ?_⟩
          · rw [inv.view_store entry exists_]
          · intro other
            refine absurd ?_ other
            simp [LockServer.lockedBy, found, locked, owner, Lock.getOwner]
      · exact ⟨s, rfl, inv, rfl, rfl, fun _ => rfl⟩
  · exact ⟨s, rfl, inv, rfl, rfl, fun _ => rfl⟩

theorem release_unknown (unknown : s.mapLocks lid = none) : s.release clt lid = .crashed := by
  unfold LockHeap.release index
  rw [unknown]
  rfl

/-- The same calls on the locks themselves. -/
def serverMachine : Machine LockServer Action where
  initial := {}
  step s
    | .stat _ _ => some s
    | .grant clt lid => s.grant clt lid
    | .release clt lid => s.release clt lid

theorem Inv.step (inv : Inv s) {action : Action} (taken : s.step action = some next) :
    Inv next ∧ serverMachine.step s.view action = some next.view := by
  cases action with
  | stat clt lid =>
      cases taken
      exact ⟨inv, rfl⟩
  | grant clt lid =>
      simp only [LockHeap.step] at taken
      rcases inv.grant clt lid with ⟨waits, _⟩ | ⟨after, done, kept, granted⟩
      · rw [waits] at taken
        contradiction
      · rw [done] at taken
        cases taken
        exact ⟨kept, granted⟩
  | release clt lid =>
      simp only [LockHeap.step] at taken
      cases entry : s.mapLocks lid with
      | none =>
          rw [release_unknown entry] at taken
          contradiction
      | some pointer =>
          rcases inv.release clt entry with ⟨after, done, kept, _, released, _⟩
          rw [done] at taken
          cases taken
          exact ⟨kept, released⟩

theorem reachable_inv (reachable : machine.Reachable s) : Inv s := by
  apply reachable.invariant Inv
  · intro lid pointer entry
    contradiction
  · exact fun _ _ _ _ inv taken => (inv.step taken).1

theorem refines : machine.Refines serverMachine view where
  initial := rfl
  step s action next reachable taken := by
    refine ⟨[action], ?_⟩
    simp [Machine.run, ((reachable_inv reachable).step taken).2]

/-- What the pointers show is a state of the server without them. -/
theorem reachable_view (reachable : machine.Reachable s) : serverMachine.Reachable s.view :=
  refines.reachable reachable

/-! ## What a release is for -/

/-- The owner frees the lock and no other one; anybody else changes nothing. -/
structure Released (s next : LockHeap) (clt : Int32) (lid : LockId) : Prop where
  frees : (s.view.lockedBy lid ≠ none ∧ next.view.lockedBy lid = none) ↔
    s.view.lockedBy lid = some clt
  others : ∀ other, other ≠ lid → next.view.lockedBy other = s.view.lockedBy other
  mapLocks : next.mapLocks = s.mapLocks
  unchanged : s.view.lockedBy lid ≠ some clt → next.locks = s.locks

def Exact (s : LockHeap) (clt : Int32) (lid : LockId) : Prop :=
  ∃ next, s.release clt lid = .returned next ∧ Released s next clt lid

theorem Inv.exact (inv : Inv s) (entry : s.mapLocks lid = some pointer) : s.Exact clt lid := by
  rcases inv.release clt entry with ⟨next, done, _, mapLocks, released, other⟩
  refine ⟨next, done, ?_, ?_, mapLocks, fun differs => congrArg locks (other differs)⟩
  · constructor
    · rintro ⟨locked, free⟩
      by_contra differs
      rw [other differs] at free
      exact locked free
    · intro owner
      exact ⟨by simp [owner], (LockServer.release_owner released owner).1⟩
  · intro id differs
    by_cases owner : s.view.lockedBy lid = some clt
    · exact (LockServer.release_owner released owner).2 id differs
    · rw [other owner]

/-- In every reachable state all entries refer to locks, and a release is exact if and only
if there is an entry for its lock. -/
theorem release_exact_iff (reachable : machine.Reachable s) :
    s.EntriesExist ∧ ∀ clt lid, s.Exact clt lid ↔ s.mapLocks lid ≠ none := by
  have inv := reachable_inv reachable
  refine ⟨inv.entriesExist, fun clt lid => ?_⟩
  cases entry : s.mapLocks lid with
  | some pointer => exact iff_of_true (inv.exact entry) (Option.some_ne_none pointer)
  | none =>
      refine iff_of_false ?_ fun known => known rfl
      rintro ⟨next, done, _⟩
      rw [release_unknown entry] at done
      contradiction

/-- Client 1 has the lock 7, which client 2 tries to release. -/
def granted : LockHeap := ({} : LockHeap).insertNew 7 { lid := 7, clt := 1, state := .locked }

theorem release_exact_iff_granted : machine.Reachable granted ∧ granted.Exact 2 7 := by
  have run : machine.run machine.initial [.grant 1 7] = some granted := rfl
  have reachable := Machine.reachable_of_run run
  exact ⟨reachable, ((release_exact_iff reachable).2 2 7).mpr (by decide)⟩

/-- Nobody has acquired a lock so far. -/
theorem neverAcquired_not_exact :
    ¬ ∀ s, machine.Reachable s → ∀ clt lid, s.Exact clt lid := by
  intro always
  rcases always {} Machine.Reachable.initial 1 7 with ⟨next, done, _⟩
  cases done

end LockHeap

end YfsRpc.LockService
