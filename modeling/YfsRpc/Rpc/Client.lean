import YfsRpc.Rpc.XidRep
import YfsRpc.Rpc.Types

/-! # The client endpoint

`rpcc` numbers its calls, remembers the ones that wait for a reply, and
acknowledges completed ones. A function of this module is the code one thread
runs under `m_`. A message is its header fields and its payload; what turns it
into bytes and back is the subject of the marshalling modules.
-/

namespace YfsRpc.Rpc

/-! ## Messages and return codes -/

structure Request where
  xid : Nat
  proc : Nat
  cltNonce : Nat
  srvNonce : Nat
  xidRep : Nat
  payload : List UInt8
  deriving DecidableEq, Repr

structure Reply where
  xid : Nat
  ret : Int
  payload : List UInt8
  deriving DecidableEq, Repr

namespace RpcConst

/-- The procedure number reserved for `bind`. -/
def bind : Nat := 1
def timeoutFailure : Int := -1
def unmarshalArgsFailure : Int := -2
def unmarshalReplyFailure : Int := -3
def atmostonceFailure : Int := -4
def oldsrvFailure : Int := -5
def cancelFailure : Int := -7

end RpcConst

/-! ## The state of a client -/

/-- A call that has not returned from `call1`; `intret` has a value once it is done. -/
structure Caller where
  xid : Nat
  req : Request
  done : Bool := false
  intret : Int := 0
  un : List UInt8 := []

/-- History: what a call of `call1` returned. -/
structure Return where
  req : Request
  ret : Int
  payload : List UInt8
  deriving DecidableEq, Repr

structure Client where
  srvNonce : Nat := 0
  bindDone : Bool := false
  xid : Nat := 1
  destroyWait : Bool := false
  /-- the caller objects of running calls, by the number of the call -/
  callers : Nat → Option Caller := fun _ => none
  /-- xid to the number of the call -/
  calls : Std.ExtTreeMap Nat Nat compare := .empty
  xidRepWindow : List Nat := [0]
  /-- history: the requests that were packed, in order -/
  issued : List Request := []
  /-- history: the results of the calls that returned -/
  returned : List Return := []

namespace Client

/-- `xid_rep_window_.front()`. -/
def front (cl : Client) : Nat := cl.xidRepWindow.headD 0

/-- The request that `call1` packs under the next xid. -/
def pack (cltNonce proc : Nat) (payload : List UInt8) (cl : Client) : Request where
  xid := cl.xid
  proc := proc
  cltNonce := cltNonce
  srvNonce := cl.srvNonce
  xidRep := cl.front
  payload := payload

/-- Register a call under the next xid. -/
def register (h : Request) (cl : Client) : Client :=
  let number := cl.issued.length + 1
  { cl with
    xid := (cl.xid + 1) % 2 ^ 32
    calls := cl.calls.insert h.xid number
    callers := Function.update cl.callers number (some { xid := h.xid, req := h })
    issued := cl.issued ++ [h] }

/-- The first section of `call1`. There is no result where it returns
`bind_failure` or `cancel_failure` at once. -/
def call1 (cltNonce proc : Nat) (payload : List UInt8) (cl : Client) : Option Client :=
  if (proc ≠ RpcConst.bind ∧ ¬ cl.bindDone) ∨ (proc = RpcConst.bind ∧ cl.bindDone) then
    none
  else if cl.destroyWait then
    none
  else
    some (cl.register (cl.pack cltNonce proc payload))

/-- `got_pdu`: acknowledge the reply, and hand it to the call that waits for it. -/
def gotPdu (reply : Reply) (cl : Client) : Client :=
  let cl := { cl with xidRepWindow := updateXidRep cl.xidRepWindow reply.xid }
  match cl.calls[reply.xid]? with
  | none => cl
  | some number =>
      match cl.callers number with
      | none => cl
      | some ca =>
          if ca.done then
            cl
          else
            let ca := { ca with un := reply.payload, intret := reply.ret, done := true }
            { cl with callers := Function.update cl.callers number (some ca) }

/-- The end of `call1`, after a reply or after the last timeout. -/
def finish (number : Nat) (cl : Client) : Option Client :=
  match cl.callers number with
  | none => none
  | some ca =>
      let ret := if ca.done then ca.intret else RpcConst.timeoutFailure
      some { cl with
        callers := Function.update cl.callers number none
        calls := cl.calls.erase ca.xid
        xidRepWindow := updateXidRep cl.xidRepWindow ca.xid
        returned := cl.returned ++ [{ req := ca.req, ret, payload := ca.un }] }

/-- `u >> r` in `call_m` with an `int` result. -/
def decodeInt (payload : List UInt8) : Option Int32 :=
  let (r, u) := Unmarshall.getInt (.takeContent (fun _ => 0) payload)
  if u.okdone then some r else none

/-- The end of `bind`, when its call returned 0. -/
def bind (ret : Return) (cl : Client) : Option Client :=
  if ret ∈ cl.returned ∧ ret.req.proc = RpcConst.bind ∧ ret.ret = 0 then
    (decodeInt ret.payload).map fun r =>
      { cl with bindDone := true, srvNonce := r.toUInt32.toNat }
  else
    none

/-- `cancel`: every registered caller is done, and no new call is admitted
while it waits for them. -/
def cancel (cl : Client) : Client :=
  { cl with
    callers := fun number =>
      (cl.callers number).map fun ca =>
        if cl.calls.toList.any fun entry => entry.2 = number then
          { ca with done := true, intret := RpcConst.cancelFailure }
        else
          ca
    destroyWait := cl.destroyWait || !cl.calls.isEmpty }

/-! ## Waiting and completed calls -/

/-- The call is registered and has no result. -/
def Waiting (cl : Client) (number : Nat) : Prop :=
  ∃ ca, cl.callers number = some ca ∧ ca.done = false

instance (cl : Client) (number : Nat) : Decidable (cl.Waiting number) :=
  decidable_of_iff ((cl.callers number).any fun ca => !ca.done) (by
    simp [Waiting, Option.any_eq_true])

/-- The call was made and waits no more. -/
def Completed (cl : Client) (number : Nat) : Prop :=
  0 < number ∧ number ≤ cl.issued.length ∧ ¬ cl.Waiting number

end Client

end YfsRpc.Rpc
