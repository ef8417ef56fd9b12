import YfsRpc.LockService.Acquisitions
import YfsRpc.Rpc.RawSystem

/-! # The lock service with the reply buffers in memory

The threads of the lock clients call over the system whose server keeps its replies in heap
blocks. As long as no check frees a reply that is being sent, every run is one of the lock
service whose replies are values.
-/

namespace YfsRpc.LockService

open YfsRpc.Rpc
open LockProtocol (LockId)

structure RawLocks (ι : Type) where
  rpc : RawSystem ι LockServer Handler
  threads : ι → Nat → ClientThread := fun _ _ => {}

namespace RawLocks

variable {ι : Type}

/-- What one sees through the pointers of the server. -/
def view (s : RawLocks ι) : LockSystem ι where
  rpc := s.rpc.view
  threads := s.threads

inductive Action (ι : Type)
  | enter (c : ι) (id : Nat) (op : Op)
  | leave (c : ι) (id : Nat)
  /-- a step of the RPC layer in which no thread enters or leaves a call, and the block that
  a handler which returns gets for its reply -/
  | rpc (action : System.Action ι) (block : Nat)

def Action.view : Action ι → LockSystem.Action ι
  | .enter c id op => .enter c id op
  | .leave c id => .leave c id
  | .rpc action _ => .rpc action

/-- The client of a call issues fewer than 2^32 - 1 calls, this one included. -/
def FewCalls (s : RawLocks ι) (action : Action ι) : Prop := s.view.FewCalls action.view

/-- A call returns with a reply, and not after its last timeout. -/
def NoTimeout (s : RawLocks ι) (action : Action ι) : Prop := s.view.NoTimeout action.view

/-- A check frees no buffer that is being sent. -/
def Delivered (s : RawLocks ι) : Action ι → Prop
  | .rpc action block => s.rpc.Delivered (action, block)
  | .enter .. | .leave .. => True

/-- Few calls, and no reply that is freed while it is being sent. -/
def Careful (s : RawLocks ι) (action : Action ι) : Prop :=
  s.FewCalls action ∧ s.Delivered action

/-- No timeout, and no reply that is freed while it is being sent. -/
def Undisturbed (s : RawLocks ι) (action : Action ι) : Prop :=
  s.NoTimeout action ∧ s.Delivered action

def Settled (s : RawLocks ι) (action : Action ι) : Prop :=
  s.FewCalls action ∧ s.Undisturbed action

instance (s : RawLocks ι) (action : Action ι) : Decidable (FewCalls s action) :=
  inferInstanceAs (Decidable (s.view.FewCalls action.view))

instance (s : RawLocks ι) (action : Action ι) : Decidable (NoTimeout s action) :=
  inferInstanceAs (Decidable (s.view.NoTimeout action.view))

instance (s : RawLocks ι) : ∀ action, Decidable (Delivered s action)
  | .rpc action block => inferInstanceAs (Decidable (s.rpc.Delivered (action, block)))
  | .enter .. | .leave .. => instDecidableTrue

instance (s : RawLocks ι) (action : Action ι) : Decidable (Careful s action) :=
  inferInstanceAs (Decidable (_ ∧ _))

instance (s : RawLocks ι) (action : Action ι) : Decidable (Undisturbed s action) :=
  inferInstanceAs (Decidable (_ ∧ _))

instance (s : RawLocks ι) (action : Action ι) : Decidable (Settled s action) :=
  inferInstanceAs (Decidable (_ ∧ _))

section Step

variable [DecidableEq ι]

def rpcStep (nonce : ι → UInt32) (s : RawLocks ι) (action : System.Action ι) (block : Nat) :
    Option (RawSystem ι LockServer Handler) :=
  s.rpc.step (fun c => (nonce c).toNat) lockService (action, block)

def setThread (s : RawLocks ι) (c : ι) (id : Nat) (t : ClientThread) : ι → Nat → ClientThread :=
  Function.update s.threads c (Function.update (s.threads c) id t)

def step (nonce : ι → UInt32) (s : RawLocks ι) : Action ι → Option (RawLocks ι)
  | .enter c id op =>
      let t := s.threads c id
      let issued := (s.rpc.clients c).issued
      if t.status = .idle ∧ t.admits issued op then
        (s.rpcStep nonce (.call c op.proc (op.payload (nonce c))) 0).map fun rpc =>
          { rpc, threads := s.setThread c id (t.enter op (issued.length + 1)) }
      else
        none
  | .leave c id =>
      let t := s.threads c id
      match t.status with
      | .calling op number =>
          (s.rpcStep nonce (.finish c number) 0).bind fun rpc =>
            (rpc.clients c).returned.getLast?.map fun ret =>
              { rpc, threads := s.setThread c id (t.leave op number (callM ret)) }
      | _ => none
  | .rpc action block =>
      match action with
      | .transmit .. | .gotReply .. | .bind .. | .gotRequest .. | .dispatch .. =>
          (s.rpcStep nonce action block).map fun rpc => { s with rpc }
      | .call .. | .finish .. | .cancel .. => none

def machine (nonce : ι → UInt32) (srvNonce : Nat) : Machine (RawLocks ι) (Action ι) where
  initial := {
    rpc := (RawSystem.machine (fun c => (nonce c).toNat) lockService srvNonce).initial }
  step := step nonce

variable {nonce : ι → UInt32} {srvNonce : Nat} {s next : RawLocks ι} {action : Action ι}

/-- What a step does to the threads of the clients. -/
inductive Threaded (s : RawLocks ι) : Action ι → (ι → Nat → ClientThread) → Prop
  | enter (c : ι) (id : Nat) (op : Op) (number : Nat) (idle : (s.threads c id).status = .idle) :
      Threaded s (.enter c id op) (s.setThread c id ((s.threads c id).enter op number))
  | leave (c : ι) (id : Nat) (op : Op) (number : Nat) (result : Int)
      (calling : (s.threads c id).status = .calling op number) :
      Threaded s (.leave c id) (s.setThread c id ((s.threads c id).leave op number result))
  | rpc (action : System.Action ι) (block : Nat) : Threaded s (.rpc action block) s.threads

theorem threaded (taken : step nonce s action = some next) : Threaded s action next.threads := by
  cases action with
  | enter c id op =>
      simp only [step] at taken
      split at taken
      · next admitted =>
          rcases Option.map_eq_some_iff.mp taken with ⟨_, _, rfl⟩
          exact .enter c id op _ admitted.1
      · contradiction
  | leave c id =>
      simp only [step] at taken
      split at taken
      · next op number calling =>
          rcases Option.bind_eq_some_iff.mp taken with ⟨_, _, later⟩
          rcases Option.map_eq_some_iff.mp later with ⟨_, _, rfl⟩
          exact .leave c id op number _ calling
      · contradiction
  | rpc a block =>
      cases a with
      | transmit | gotReply | bind | gotRequest | dispatch =>
          rcases Option.map_eq_some_iff.mp taken with ⟨_, _, rfl⟩
          exact .rpc _ block
      | call | finish | cancel => contradiction

/-! ## Under the view -/

/-- A step is one step of the RPC layer, and it delivers what that does. -/
theorem rpc_step (taken : step nonce s action = some next) :
    ∃ a block, s.rpcStep nonce a block = some next.rpc ∧
      (s.Delivered action → s.rpc.Delivered (a, block)) := by
  cases action with
  | enter c id op =>
      simp only [step] at taken
      split at taken
      · rcases Option.map_eq_some_iff.mp taken with ⟨rpc, called, rfl⟩
        exact ⟨_, _, called, fun _ => trivial⟩
      · contradiction
  | leave c id =>
      simp only [step] at taken
      split at taken
      · rcases Option.bind_eq_some_iff.mp taken with ⟨rpc, finished, later⟩
        rcases Option.map_eq_some_iff.mp later with ⟨ret, _, rfl⟩
        exact ⟨_, _, finished, fun _ => trivial⟩
      · contradiction
  | rpc a block =>
      cases a with
      | transmit | gotReply | bind | gotRequest | dispatch =>
          rcases Option.map_eq_some_iff.mp taken with ⟨rpc, stepped, rfl⟩
          exact ⟨_, block, stepped, fun delivered => delivered⟩
      | call | finish | cancel => contradiction

theorem kept_step (kept : s.rpc.server.Kept) (delivered : s.Delivered action)
    (taken : step nonce s action = some next) : next.rpc.server.Kept := by
  rcases rpc_step taken with ⟨a, block, stepped, delivers⟩
  exact RawSystem.kept_step kept (delivers delivered) stepped

theorem step_view (kept : s.rpc.server.Kept) (delivered : s.Delivered action)
    (taken : step nonce s action = some next) :
    s.view.step nonce action.view = some next.view := by
  have after := kept_step kept delivered taken
  cases action with
  | enter c id op =>
      simp only [step] at taken
      split at taken
      · next admitted =>
          rcases Option.map_eq_some_iff.mp taken with ⟨rpc, called, rfl⟩
          have viewed := RawSystem.step_view kept after called
          have admitted' : (s.view.threads c id).status = .idle ∧
              (s.view.threads c id).admits (s.view.rpc.clients c).issued op := admitted
          simp only [Action.view, LockSystem.step, if_pos admitted']
          exact Option.map_eq_some_iff.mpr ⟨_, viewed, rfl⟩
      · contradiction
  | leave c id =>
      simp only [step] at taken
      split at taken
      · next op number calling =>
          rcases Option.bind_eq_some_iff.mp taken with ⟨rpc, finished, later⟩
          rcases Option.map_eq_some_iff.mp later with ⟨ret, returned, rfl⟩
          have viewed := RawSystem.step_view kept after finished
          have calling' : (s.view.threads c id).status = .calling op number := calling
          simp only [Action.view, LockSystem.step, calling']
          exact Option.bind_eq_some_iff.mpr ⟨_, viewed, Option.map_eq_some_iff.mpr
            ⟨ret, returned, rfl⟩⟩
      · contradiction
  | rpc a block =>
      cases a with
      | transmit | gotReply | bind | gotRequest | dispatch =>
          rcases Option.map_eq_some_iff.mp taken with ⟨rpc, stepped, rfl⟩
          exact Option.map_eq_some_iff.mpr ⟨_, RawSystem.step_view kept after stepped, rfl⟩
      | call | finish | cancel => contradiction

/-- A run in which no reply is freed while it is being sent is, with the same threads, one of
the lock service whose replies are values. -/
theorem reachable_view {allowed : RawLocks ι → Action ι → Prop}
    (permitted : LockSystem ι → LockSystem.Action ι → Prop)
    (delivers : ∀ s action, allowed s action → s.Delivered action)
    (permits : ∀ s action, allowed s action → permitted s.view action.view)
    (reachable : (machine nonce srvNonce).ReachableUnder allowed s) :
    s.rpc.server.Kept ∧
      (LockSystem.machine nonce srvNonce).ReachableUnder permitted s.view := by
  refine reachable.under_view (fun s => s.rpc.server.Kept) view Action.view ?_ ?_ ?_
  · exact RawServer.kept_initial srvNonce lockService.initial
  · rfl
  · intro s action next kept here taken
    have delivered := delivers s action here
    exact ⟨kept_step kept delivered taken, permits s action here, step_view kept delivered taken⟩

theorem careful_view (reachable : (machine nonce srvNonce).ReachableUnder Careful s) :
    (LockSystem.machine nonce srvNonce).ReachableUnder LockSystem.FewCalls s.view :=
  (reachable_view LockSystem.FewCalls (fun _ _ careful => careful.2)
    (fun _ _ careful => careful.1) reachable).2

theorem settled_view (reachable : (machine nonce srvNonce).ReachableUnder Settled s) :
    (LockSystem.machine nonce srvNonce).ReachableUnder LockSystem.Settled s.view :=
  (reachable_view LockSystem.Settled (fun _ _ settled => settled.2.2)
    (fun _ _ settled => ⟨settled.1, settled.2.1⟩) reachable).2

end Step

end RawLocks

end YfsRpc.LockService
