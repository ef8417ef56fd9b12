import YfsRpc.LockService.LockServer
import YfsRpc.Rpc.Overwrite
import YfsRpc.Rpc.System

/-! # Lock clients, the lock server and the network

A `lock_client` binds in its constructor, and then any number of threads call its
procedures. A thread releases a lock only between the return of its acquire and
its next call of release. A call that does not return `OK` fails an assertion,
and its thread does not go on.
-/

namespace YfsRpc.LockService

open YfsRpc.Rpc
open LockProtocol (LockId)

/-! ## Threads of the clients -/

/-- What a thread calls: `bind` in the constructor, or a procedure of `lock_client`. -/
inductive Op
  | bind
  | stat (lid : LockId)
  | acquire (lid : LockId)
  | release (lid : LockId)
  deriving DecidableEq

def Op.proc : Op → Nat
  | .bind => RpcConst.bind
  | .stat _ => LockProtocol.stat
  | .acquire _ => LockProtocol.acquire
  | .release _ => LockProtocol.release

/-- The arguments; `clt` is `cl->id()`. -/
def Op.payload (clt : UInt32) : Op → List UInt8
  | .bind => Server.encodeInt 0
  | .stat lid | .acquire lid | .release lid => encodeArgs clt lid

/-- The handler that the server calls for a procedure of `lock_client`. -/
def Op.handler (clt : UInt32) : Op → Handler
  | .bind => .unmarshalArgsFailure
  | .stat lid => .stat clt.toInt32 lid
  | .acquire lid => .grant clt.toInt32 lid
  | .release lid => .release clt.toInt32 lid

theorem handler_payload (clt : UInt32) {op : Op} (other : op ≠ .bind) :
    LockService.handler op.proc (op.payload clt) = op.handler clt := by
  cases op with
  | bind => contradiction
  | stat lid => exact handler_encodeArgs LockProtocol.stat clt lid
  | acquire lid => exact handler_encodeArgs LockProtocol.acquire clt lid
  | release lid => exact handler_encodeArgs LockProtocol.release clt lid

theorem Op.handler_unmarshalled (clt : UInt32) {op : Op} (other : op ≠ .bind) :
    op.handler clt ≠ .unmarshalArgsFailure := by
  cases op with
  | bind => contradiction
  | stat | acquire | release => exact nofun

theorem Op.proc_eq_bind {op : Op} : op.proc = RpcConst.bind ↔ op = .bind := by
  cases op <;> simp [Op.proc, LockProtocol.stat, LockProtocol.acquire, LockProtocol.release,
    RpcConst.bind]

/-- The number in a status is the one of the call at the `rpcc`. -/
inductive Status
  | idle
  | calling (op : Op) (number : Nat)
  /-- the assertion on the result of the call failed -/
  | aborted (op : Op) (number : Nat)
  deriving DecidableEq

/-- `holds` has the locks between the return of `acquire` and the call of `release`. -/
structure ClientThread where
  status : Status := .idle
  holds : List LockId := []

/-- `call_m`: what `call` returns for what `call1` returned. -/
def callM (ret : Return) : Int :=
  if ret.ret < 0 then
    ret.ret
  else
    match Client.decodeInt ret.payload with
    | none => RpcConst.unmarshalReplyFailure
    | some _ => ret.ret

/-- It is the integer of `call_m` for an `int` result. -/
theorem callM_eq (ret : Return) (r : Int32) :
    callM ret = (Rpc.callM .int ret.ret (.takeContent (fun _ => 0) ret.payload) r).1 := by
  have decoded : (Ty.int.get r (.takeContent (fun _ => 0) ret.payload)) =
      Unmarshall.getInt (.takeContent (fun _ => 0) ret.payload) := rfl
  unfold callM Rpc.callM Client.decodeInt
  rw [decoded]
  by_cases failed : ret.ret < 0
  · rw [if_pos failed, if_pos failed]
  · rw [if_neg failed, if_neg failed]
    rcases Unmarshall.getInt (.takeContent (fun _ => 0) ret.payload) with ⟨x, after⟩
    cases done : after.okdone with
    | true => simp [done]
    | false => simp [done]

namespace ClientThread

/-- The constructor is the first to call, and what is released is held. -/
def admits (t : ClientThread) (issued : List Request) : Op → Prop
  | .bind => issued = []
  | .release lid => lid ∈ t.holds
  | .stat _ | .acquire _ => True

instance (t : ClientThread) (issued : List Request) : ∀ op, Decidable (t.admits issued op)
  | .bind => inferInstanceAs (Decidable (issued = []))
  | .release lid => inferInstanceAs (Decidable (lid ∈ t.holds))
  | .stat _ | .acquire _ => instDecidableTrue

def enter (t : ClientThread) (op : Op) (number : Nat) : ClientThread where
  status := .calling op number
  holds :=
    match op with
    | .release lid => t.holds.erase lid
    | _ => t.holds

/-- `bind` may fail in the constructor; the others assert that the result is `OK`. -/
def leave (t : ClientThread) (op : Op) (number : Nat) (result : Int) : ClientThread :=
  match op with
  | .bind => { t with status := .idle }
  | .acquire lid =>
      if result = LockProtocol.ok then { status := .idle, holds := lid :: t.holds }
      else { t with status := .aborted op number }
  | .stat _ | .release _ =>
      if result = LockProtocol.ok then { t with status := .idle }
      else { t with status := .aborted op number }

end ClientThread

/-! ## The system -/

structure LockSystem (ι : Type) where
  rpc : System ι LockServer Handler
  threads : ι → Nat → ClientThread := fun _ _ => {}

namespace LockSystem

variable {ι : Type}

inductive Action (ι : Type)
  | enter (c : ι) (id : Nat) (op : Op)
  | leave (c : ι) (id : Nat)
  /-- a step of the RPC layer in which no thread enters or leaves a call -/
  | rpc (action : System.Action ι)

/-- The client of a call issues fewer than 2^32 - 1 calls, this one included. -/
def FewCalls (s : LockSystem ι) : Action ι → Prop
  | .enter c _ _ => (s.rpc.clients c).issued.length + 1 < 2 ^ 32 - 1
  | _ => True

/-- A call returns with a reply, and not after its last timeout. -/
def NoTimeout (s : LockSystem ι) : Action ι → Prop
  | .leave c id =>
      match (s.threads c id).status with
      | .calling _ number => ¬ (s.rpc.clients c).Waiting number
      | _ => True
  | _ => True

section Step

variable [DecidableEq ι]

def rpcStep (nonce : ι → UInt32) (s : LockSystem ι) (action : System.Action ι) :
    Option (System ι LockServer Handler) :=
  s.rpc.step (fun c => (nonce c).toNat) lockService action

def setThread (s : LockSystem ι) (c : ι) (id : Nat) (t : ClientThread) :
    ι → Nat → ClientThread :=
  Function.update s.threads c (Function.update (s.threads c) id t)

def step (nonce : ι → UInt32) (s : LockSystem ι) : Action ι → Option (LockSystem ι)
  | .enter c id op =>
      let t := s.threads c id
      let issued := (s.rpc.clients c).issued
      if t.status = .idle ∧ t.admits issued op then
        (s.rpcStep nonce (.call c op.proc (op.payload (nonce c)))).map fun rpc =>
          { rpc, threads := s.setThread c id (t.enter op (issued.length + 1)) }
      else
        none
  | .leave c id =>
      let t := s.threads c id
      match t.status with
      | .calling op number =>
          (s.rpcStep nonce (.finish c number)).bind fun rpc =>
            (rpc.clients c).returned.getLast?.map fun ret =>
              { rpc, threads := s.setThread c id (t.leave op number (callM ret)) }
      | _ => none
  | .rpc action =>
      match action with
      | .transmit .. | .gotReply .. | .bind .. | .gotRequest .. | .dispatch .. =>
          (s.rpcStep nonce action).map fun rpc => { s with rpc }
      | .call .. | .finish .. | .cancel .. => none

def machine (nonce : ι → UInt32) (srvNonce : Nat) : Machine (LockSystem ι) (Action ι) where
  initial := { rpc := (System.machine (fun c => (nonce c).toNat) lockService srvNonce).initial }
  step := step nonce

/-! ## What a step can do -/

/-- No thread enters or leaves a call, and none is cancelled. -/
def Quiet : System.Action ι → Prop
  | .transmit .. | .gotReply .. | .bind .. | .gotRequest .. | .dispatch .. => True
  | .call .. | .finish .. | .cancel .. => False

inductive Stepped (nonce : ι → UInt32) (s : LockSystem ι) : Action ι → LockSystem ι → Prop
  | enter (c : ι) (id : Nat) (op : Op) (idle : (s.threads c id).status = .idle)
      (admitted : (s.threads c id).admits (s.rpc.clients c).issued op)
      (rpc : System ι LockServer Handler)
      (called : s.rpcStep nonce (.call c op.proc (op.payload (nonce c))) = some rpc) :
      Stepped nonce s (.enter c id op) {
        rpc
        threads := s.setThread c id
          ((s.threads c id).enter op ((s.rpc.clients c).issued.length + 1)) }
  | leave (c : ι) (id : Nat) (op : Op) (number : Nat)
      (calling : (s.threads c id).status = .calling op number)
      (rpc : System ι LockServer Handler)
      (finished : s.rpcStep nonce (.finish c number) = some rpc) (ret : Return)
      (returned : (rpc.clients c).returned.getLast? = some ret) :
      Stepped nonce s (.leave c id) {
        rpc
        threads := s.setThread c id ((s.threads c id).leave op number (callM ret)) }
  | rpc (action : System.Action ι) (quiet : Quiet action) (rpc : System ι LockServer Handler)
      (stepped : s.rpcStep nonce action = some rpc) :
      Stepped nonce s (.rpc action) { s with rpc }

theorem step_cases {nonce : ι → UInt32} {s next : LockSystem ι} {action : Action ι}
    (taken : step nonce s action = some next) : Stepped nonce s action next := by
  cases action with
  | enter c id op =>
      simp only [step] at taken
      split at taken
      · next admitted =>
          rcases Option.map_eq_some_iff.mp taken with ⟨rpc, called, rfl⟩
          exact .enter c id op admitted.1 admitted.2 rpc called
      · contradiction
  | leave c id =>
      simp only [step] at taken
      split at taken
      · next op number calling =>
          rcases Option.bind_eq_some_iff.mp taken with ⟨rpc, finished, later⟩
          rcases Option.map_eq_some_iff.mp later with ⟨ret, returned, rfl⟩
          exact .leave c id op number calling rpc finished ret returned
      · contradiction
  | rpc action =>
      cases action with
      | transmit | gotReply | bind | gotRequest | dispatch =>
          rcases Option.map_eq_some_iff.mp taken with ⟨rpc, stepped, rfl⟩
          refine .rpc _ ?_ rpc stepped
          trivial
      | call | finish | cancel => contradiction

/-- A step is one step of the RPC layer, and it issues a call if that does. -/
theorem Stepped.rpc_step {nonce : ι → UInt32} {s next : LockSystem ι} {action : Action ι}
    (stepped : Stepped nonce s action next) :
    ∃ action', s.rpcStep nonce action' = some next.rpc ∧
      (FewCalls s action → System.FewCalls s.rpc action') := by
  cases stepped with
  | enter c id op _ _ rpc called => exact ⟨_, called, fun few => few⟩
  | leave c id op number _ rpc finished => exact ⟨_, finished, fun _ => trivial⟩
  | rpc action quiet rpc stepped =>
      refine ⟨action, stepped, fun _ => ?_⟩
      cases action with
      | call => contradiction
      | _ => trivial

/-- The RPC layer of the lock system is one of the systems of its own. -/
theorem rpc_reachable {nonce : ι → UInt32} {srvNonce : Nat} {s : LockSystem ι}
    (reachable : (machine nonce srvNonce).ReachableUnder FewCalls s) :
    (System.machine (fun c => (nonce c).toNat) lockService srvNonce).ReachableUnder
      System.FewCalls s.rpc := by
  induction reachable with
  | initial => exact .initial
  | step _ few taken induction =>
      rcases (step_cases taken).rpc_step with ⟨action, stepped, calls⟩
      exact induction.step (calls few) stepped

end Step

end LockSystem

end YfsRpc.LockService
