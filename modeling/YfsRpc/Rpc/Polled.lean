import YfsRpc.Rpc.Endpoint

/-! # A connection under the poll manager

Application threads call `send` and `closeconn` on one connection while the poll manager
runs its callbacks. A thread that finds or makes the connection dead calls
`block_remove_fd` after it has released `m_`. The other descriptors are registered and
removed in any way.
-/

namespace YfsRpc.Rpc

open Connection (WriteResult)

/-- Where a thread is that has to remove the descriptor. -/
inductive RemovalPhase
  | none
  /-- before `block_remove_fd` -/
  | due
  /-- in `block_remove_fd` -/
  | inside
  | done
  deriving DecidableEq

/-- `ι` are the application threads, of which each makes one call, and `κ` the callback
objects. -/
structure Polled (ι κ : Type) where
  /-- `fd_` -/
  fd : Nat
  conn : Endpoint ι := {}
  poll : PollMgr ι κ
  removal : ι → RemovalPhase := fun _ => .none

namespace Polled

inductive Action (ι κ : Type)
  | send (i : ι) (b : List UInt8) (result : WriteResult)
  | wakeTurn (i : ι) (result : WriteResult)
  | wakeComplete (i : ι)
  | removed (i : ι)
  | closeconn (i : ι)
  | spuriousTurn (i : ι)
  | spuriousComplete (i : ι)
  | blockRemove (i : ι)
  | finishRemove (i : ι)
  /-- a wakeup of a `block_remove_fd`, also of another descriptor -/
  | spuriousRemove (i : ι)
  | loop (step : PollMgr.LoopStep)
  | readCb (pick : ι) (succ : Bool)
  | writeCb (pick : ι) (result : WriteResult)
  /-- the same for another descriptor -/
  | otherAdd (fd : Nat) (flag : PollFlag) (ch : κ)
  | otherDel (fd : Nat) (flag : PollFlag)
  | otherRemove (i : ι) (fd : Nat)
  | otherFinish (i : ι)

variable {ι κ : Type} [DecidableEq ι] [DecidableEq κ]

/-- One step of the connection, with what it asks of the poll manager while it has `m_`. -/
def connStep (this : κ) (s : Polled ι κ) (a : Endpoint.Action ι) :
    Option (Polled ι κ × Option PollCall) :=
  match s.conn.step a with
  | none => none
  | some (conn, call) =>
      match call with
      | some (.addCallback flag) =>
          (s.poll.addCallback s.fd flag this).map fun poll => ({ s with conn, poll }, call)
      | some (.delCallback flag) =>
          some ({ s with conn, poll := s.poll.delCallback s.fd flag }, call)
      | some .blockRemove | none => some ({ s with conn }, call)

/-- A step of an application thread. -/
def threadStep (this : κ) (s : Polled ι κ) (i : ι) (a : Endpoint.Action ι) : Option (Polled ι κ) :=
  (s.connStep this a).map fun (after, call) =>
    if call = some .blockRemove then
      { after with removal := Function.update after.removal i .due }
    else
      after

/-- A callback of the connection runs in the thread of the poll manager and returns. -/
def callback (this : κ) (s : Polled ι κ) (a : Endpoint.Action ι) : Option (Polled ι κ) :=
  (s.connStep this a).bind fun (after, _) =>
    (after.poll.loopStep .return).map fun poll => { after with poll }

def step (this : κ) (s : Polled ι κ) : Action ι κ → Option (Polled ι κ)
  | .send i b result =>
      if s.removal i = .none then s.threadStep this i (.send i b result) else none
  | .wakeTurn i result => s.threadStep this i (.wakeTurn i result)
  | .wakeComplete i => s.threadStep this i (.wakeComplete i)
  | .removed i => if s.removal i = .done then s.threadStep this i (.removed i) else none
  | .closeconn i =>
      if s.removal i = .none ∧ s.conn.senders i = .idle then
        s.threadStep this i .closeconn
      else
        none
  | .spuriousTurn i => s.threadStep this i (.spuriousTurn i)
  | .spuriousComplete i => s.threadStep this i (.spuriousComplete i)
  | .blockRemove i =>
      if s.removal i = .due ∧ s.poll.removers i = none then
        some { s with
          poll := s.poll.blockRemove i s.fd
          removal := Function.update s.removal i .inside }
      else
        none
  | .finishRemove i =>
      if s.removal i = .inside then
        (s.poll.finishRemove i s.fd).map fun poll =>
          { s with poll, removal := Function.update s.removal i .done }
      else
        none
  | .spuriousRemove i => (s.poll.spurious i).map fun poll => { s with poll }
  | .loop step =>
      match step, s.poll.loop with
      | .return, .reading fd _ _ _ | .return, .writing fd _ _ =>
          if fd = s.fd then none
          else (s.poll.loopStep .return).map fun poll => { s with poll }
      | _, _ => (s.poll.loopStep step).map fun poll => { s with poll }
  | .readCb pick succ =>
      match s.poll.loop with
      | .reading fd _ _ _ => if fd = s.fd then s.callback this (.readCb pick succ) else none
      | _ => none
  | .writeCb pick result =>
      match s.poll.loop with
      | .writing fd _ _ => if fd = s.fd then s.callback this (.writeCb pick result) else none
      | _ => none
  | .otherAdd fd flag ch =>
      if fd = s.fd then none
      else (s.poll.addCallback fd flag ch).map fun poll => { s with poll }
  | .otherDel fd flag =>
      if fd = s.fd then none else some { s with poll := s.poll.delCallback fd flag }
  | .otherRemove i fd =>
      if fd ≠ s.fd ∧ s.removal i = .none ∧ s.poll.removers i = none then
        some { s with poll := s.poll.blockRemove i fd }
      else
        none
  | .otherFinish i =>
      match s.poll.removers i with
      | none => none
      | some fd =>
          if fd = s.fd then none
          else (s.poll.finishRemove i fd).map fun poll => { s with poll }

/-- The constructor of the connection registers it for reading. -/
def machine (ι : Type) {κ : Type} [DecidableEq ι] [DecidableEq κ] (this : κ) (pipefd fd : Nat) :
    Machine (Polled ι κ) (Action ι κ) where
  initial := {
    fd
    poll := {
      aio := (SelectAio.init pipefd).watchFd fd .rdonly
      callbacks := Function.update (fun _ => none) fd (some this) } }
  step := step this

end Polled

end YfsRpc.Rpc
