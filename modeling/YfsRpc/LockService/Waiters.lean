import YfsRpc.Foundation.CondVar
import YfsRpc.Foundation.Machine
import YfsRpc.LockService.LockServer

/-! # Waiting for a lock

Any number of calls of `grant` and `release` run on one lock server. A step is one
stretch of code under its mutex: `grant` up to where it waits on the condition of the
lock or returns, the same from a wakeup on, and all of `release`, which signals one of
the waiting calls when it frees the lock.
-/

namespace YfsRpc.LockService

open LockProtocol (LockId)

namespace LockServer

/-- A grant waits only for a lock that is taken. -/
theorem lockedBy_of_grant_none {clt : Int32} {lid : LockId} {s : LockServer}
    (waits : s.grant clt lid = none) : s.lockedBy lid ≠ none := by
  unfold grant at waits
  cases found : s.mapLocks lid with
  | none =>
      simp only [found] at waits
      contradiction
  | some l =>
      simp only [found] at waits
      split at waits
      · next locked => simp [lockedBy, found, locked]
      · contradiction

/-- A release by anybody but the owner changes nothing. -/
theorem release_other {clt : Int32} {lid : LockId} {s next : LockServer}
    (done : s.release clt lid = some next) (other : s.lockedBy lid ≠ some clt) : next = s := by
  unfold release at done
  cases found : s.mapLocks lid with
  | none =>
      simp only [found] at done
      contradiction
  | some l =>
      simp only [found] at done
      split at done
      · next locked =>
          have differs : clt ≠ l.getOwner := by
            intro same
            apply other
            simp [lockedBy, found, locked, same, Lock.getOwner]
          rw [if_neg differs] at done
          cases done
          rfl
      · cases done
        rfl

end LockServer

/-! ## The machine -/

structure Grants where
  server : LockServer := {}
  /-- `cond_lock` of each lock -/
  condLock : LockId → CondVar Nat := fun _ => .init
  /-- the arguments of the calls of `grant` that wait -/
  waits : Nat → Option (Int32 × LockId) := fun _ => none

namespace Grants

inductive Action
  /-- a call of `grant` obtains the mutex -/
  | grant (call : Nat) (clt : Int32) (lid : LockId)
  /-- a woken call holds the mutex again and looks at the lock -/
  | recheck (call : Nat)
  | release (clt : Int32) (lid : LockId) (pick : Nat)
  | spurious (call : Nat)

def setCondLock (s : Grants) (lid : LockId) (c : CondVar Nat) : Grants :=
  { s with condLock := Function.update s.condLock lid c }

/-- Take the lock and return, or wait for it. -/
def tryGrant (s : Grants) (call : Nat) (clt : Int32) (lid : LockId) : Grants :=
  match s.server.grant clt lid with
  | some server => { s with server, waits := Function.update s.waits call none }
  | none =>
      { s.setCondLock lid ((s.condLock lid).wait call) with
        waits := Function.update s.waits call (some (clt, lid)) }

def step (s : Grants) : Action → Option Grants
  | .grant call clt lid =>
      if s.waits call = none then some (s.tryGrant call clt lid) else none
  | .recheck call =>
      match s.waits call with
      | none => none
      | some (clt, lid) =>
          ((s.condLock lid).resume call).map fun c => (s.setCondLock lid c).tryGrant call clt lid
  | .release clt lid pick =>
      match s.server.release clt lid with
      | none => none
      | some server =>
          if s.server.lockedBy lid = some clt then
            ((s.condLock lid).signal pick).map fun c => { s.setCondLock lid c with server }
          else
            some { s with server }
  | .spurious call =>
      match s.waits call with
      | none => none
      | some (_, lid) => ((s.condLock lid).spurious call).map (s.setCondLock lid)

def machine : Machine Grants Action where
  initial := {}
  step := step

/-! ## The invariant -/

/-- A call that waits for the lock and was not woken. -/
def Asleep (s : Grants) (lid : LockId) (call : Nat) : Prop :=
  (∃ clt, s.waits call = some (clt, lid)) ∧ call ∈ (s.condLock lid).waiting

/-- A call that waits for the lock, was woken and has not looked at it again. -/
def Woken (s : Grants) (lid : LockId) (call : Nat) : Prop :=
  (∃ clt, s.waits call = some (clt, lid)) ∧ call ∈ (s.condLock lid).woken

structure Inv (s : Grants) : Prop where
  /-- the calls inside a condition variable are those that wait for its lock -/
  inside : ∀ lid call, (s.condLock lid).Inside call ↔ ∃ clt, s.waits call = some (clt, lid)
  covered : ∀ lid, s.server.lockedBy lid = none → (s.condLock lid).Covered

variable {s : Grants}

theorem inv_initial : Inv {} where
  inside lid call := by simp
  covered _ _ := CondVar.covered_init

/-- A condition variable may change as long as the same calls are inside. -/
theorem Inv.setCondLock (inv : Inv s) {lid : LockId} {c : CondVar Nat} {server : LockServer}
    (same : ∀ call, c.Inside call ↔ (s.condLock lid).Inside call) (covered : c.Covered)
    (others : ∀ other, other ≠ lid → server.lockedBy other = s.server.lockedBy other) :
    Inv { s.setCondLock lid c with server } where
  inside other call := by
    by_cases here : other = lid
    · subst here
      simpa [Grants.setCondLock, same] using inv.inside other call
    · simpa [Grants.setCondLock, here] using inv.inside other call
  covered other free := by
    by_cases here : other = lid
    · subst here
      simpa [Grants.setCondLock] using covered
    · simp only [Grants.setCondLock, Function.update_of_ne here]
      exact inv.covered other ((others other here).symm.trans free)

/-- The call itself is inside no condition variable when it looks at the lock, and a
wakeup it consumed leaves only its own lock without one. -/
theorem inv_tryGrant {call : Nat} {clt : Int32} {lid : LockId}
    (inside : ∀ other id,
      (s.condLock other).Inside id ↔ id ≠ call ∧ ∃ clt, s.waits id = some (clt, other))
    (covered : ∀ other, other ≠ lid → s.server.lockedBy other = none →
      (s.condLock other).Covered) : Inv (s.tryGrant call clt lid) := by
  unfold tryGrant
  cases granted : s.server.grant clt lid with
  | some server =>
      rcases LockServer.grant_some granted with ⟨_, taken, others⟩
      constructor
      · intro other id
        by_cases here : id = call <;> simp [inside, here]
      · intro other free
        have differs : other ≠ lid := by
          rintro rfl
          rw [taken] at free
          contradiction
        exact covered other differs ((others other differs).symm.trans free)
  | none =>
      have taken := LockServer.lockedBy_of_grant_none granted
      constructor
      · intro other id
        by_cases here : other = lid
        · subst here
          by_cases self : id = call <;> simp [setCondLock, inside, self]
        · by_cases self : id = call
          · simp [setCondLock, inside, here, self, Ne.symm here]
          · simp [setCondLock, inside, here, self]
      · intro other free
        have differs : other ≠ lid := by
          rintro rfl
          exact taken free
        simp only [setCondLock, Function.update_of_ne differs]
        exact covered other differs free

theorem Inv.step (inv : Inv s) {action : Action} {next : Grants}
    (taken : s.step action = some next) : Inv next := by
  cases action with
  | grant call clt lid =>
      simp only [Grants.step] at taken
      split at taken
      · next outside =>
          cases taken
          apply inv_tryGrant
          · intro other id
            rw [inv.inside]
            constructor
            · rintro ⟨clt', waits⟩
              refine ⟨?_, clt', waits⟩
              rintro rfl
              rw [outside] at waits
              contradiction
            · exact And.right
          · exact fun other _ => inv.covered other
      · contradiction
  | recheck call =>
      simp only [Grants.step] at taken
      cases waits : s.waits call with
      | none => simp [waits] at taken
      | some args =>
          rcases args with ⟨clt, lid⟩
          simp only [waits] at taken
          rcases Option.map_eq_some_iff.mp taken with ⟨c, resumed, rfl⟩
          apply inv_tryGrant
          · intro other id
            by_cases here : other = lid
            · subst here
              simp [Grants.setCondLock, CondVar.inside_resume resumed, inv.inside]
            · simp only [Grants.setCondLock, Function.update_of_ne here, inv.inside]
              constructor
              · rintro ⟨clt', waits'⟩
                refine ⟨?_, clt', waits'⟩
                rintro rfl
                rw [waits] at waits'
                cases waits'
                exact here rfl
              · exact And.right
          · intro other differs free
            simp only [Grants.setCondLock, Function.update_of_ne differs]
            exact inv.covered other free
  | release clt lid pick =>
      simp only [Grants.step] at taken
      cases released : s.server.release clt lid with
      | none => simp [released] at taken
      | some server =>
          simp only [released] at taken
          split at taken
          · next owner =>
              rcases Option.map_eq_some_iff.mp taken with ⟨c, signalled, rfl⟩
              exact inv.setCondLock (fun _ => CondVar.inside_signal signalled)
                (CondVar.covered_signal signalled) (LockServer.release_owner released owner).2
          · next other =>
              cases taken
              cases LockServer.release_other released other
              exact inv
  | spurious call =>
      simp only [Grants.step] at taken
      cases waits : s.waits call with
      | none => simp [waits] at taken
      | some args =>
          rcases args with ⟨clt, lid⟩
          simp only [waits] at taken
          rcases Option.map_eq_some_iff.mp taken with ⟨c, woken, rfl⟩
          exact inv.setCondLock (fun _ => CondVar.inside_spurious woken)
            (CondVar.covered_spurious woken) fun _ _ => rfl

theorem reachable_inv (reachable : machine.Reachable s) : Inv s :=
  reachable.invariant Inv inv_initial fun _ _ _ _ inv taken => inv.step taken

/-! ## Wakeups -/

/-- While a call sleeps although its lock is free, another one was woken for it. -/
theorem no_lost_wakeup (reachable : machine.Reachable s) (lid : LockId)
    (free : s.server.lockedBy lid = none) (asleep : ∃ call, s.Asleep lid call) :
    ∃ call, s.Woken lid call := by
  have inv := reachable_inv reachable
  rcases asleep with ⟨call, _, waits⟩
  rcases inv.covered lid free ⟨call, waits⟩ with ⟨other, woken⟩
  exact ⟨other, (inv.inside lid other).mp (Or.inr woken), woken⟩

/-- A woken call takes a lock that is still free. -/
theorem recheck_takes {lid : LockId} {call : Nat} (woken : s.Woken lid call)
    (free : s.server.lockedBy lid = none) :
    ∃ clt next, s.step (.recheck call) = some next ∧ next.server.lockedBy lid = some clt := by
  rcases woken with ⟨⟨clt, waits⟩, woken⟩
  cases granted : s.server.grant clt lid with
  | none => exact absurd free (LockServer.lockedBy_of_grant_none granted)
  | some server =>
      have locked : server.lockedBy lid = some clt := (LockServer.grant_some granted).2.1
      simp [Grants.step, waits, CondVar.resume, woken, tryGrant, setCondLock, granted, locked]

/-- The first call has the lock, the second and the third one wait; a release wakes the
second one, but a fourth one barges in and releases again. -/
def barging : List Action :=
  [.grant 1 1 7, .grant 2 2 7, .grant 3 3 7, .release 1 7 2, .grant 4 4 7, .recheck 2,
    .release 4 7 3]

theorem no_lost_wakeup_barging :
    ∃ s, machine.Reachable s ∧ s.Asleep 7 2 ∧ ∃ call, s.Woken 7 call := by
  have run : (machine.run machine.initial barging).map
      (fun s => (s.server.lockedBy 7, s.waits 2, (s.condLock 7).waiting)) =
        some (none, some (2, 7), {2}) := by decide +kernel
  rcases Option.map_eq_some_iff.mp run with ⟨s, taken, result⟩
  simp only [Prod.mk.injEq] at result
  rcases result with ⟨free, waits, waiting⟩
  have reachable := Machine.reachable_of_run taken
  have asleep : s.Asleep 7 2 := ⟨⟨2, waits⟩, by simp [waiting]⟩
  exact ⟨s, reachable, asleep, no_lost_wakeup reachable 7 free ⟨2, asleep⟩⟩

end Grants

end YfsRpc.LockService
