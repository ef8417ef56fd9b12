import YfsRpc.Foundation.Machine
import YfsRpc.Rpc.Marshall

/-! # One direction of a connection

Any number of threads call `send` on one end; `read_cb` cuts PDUs off the byte
stream on the other end. An action is one stretch of code under `m_`: from the
entry into a function, or from a wakeup, to the next wait or to the return.
Wakeups may be spurious, so the condition variables and `waiters_`, which only
decides about a broadcast, have no state of their own. What the transport does
with each `read` and `write` is part of the action.
-/

namespace YfsRpc.Rpc.Connection

open YfsRpc.Words

/-- `charbuf`: the bytes, and the amount of bytes written or read so far. -/
structure Charbuf where
  buf : Option (List UInt8) := none
  sz : Nat := 0
  solong : Int := 0
  deriving DecidableEq, Repr

/-- Where a call of `send` with the given PDU is. -/
inductive SendPhase
  | idle
  /-- waiting on `send_wait_` -/
  | waitTurn (b : List UInt8)
  /-- waiting on `send_complete_` -/
  | waitComplete (b : List UInt8)
  /-- in `block_remove_fd`, without `m_`, after a failed write -/
  | removing (b : List UInt8)
  | returned (b : List UInt8) (ret : Bool)
  deriving DecidableEq, Repr

/-- The PDU a call of `send` was given. -/
def SendPhase.pdu : SendPhase → Option (List UInt8)
  | .idle => none
  | .waitTurn b | .waitComplete b | .removing b | .returned b _ => some b

inductive WriteResult
  | wrote (n : Nat)
  | again
  | error
  deriving DecidableEq, Repr

/-- Where the call fails, `again` tells whether `errno` is `EAGAIN`; at the end
of the stream `errno` is left over from an earlier call. -/
inductive ReadResult
  | got (n : Nat)
  | eof (again : Bool)
  | error (again : Bool)
  deriving DecidableEq, Repr

/-- The end `send` is called on. -/
structure Sending (ι : Type) where
  dead : Bool := false
  wpdu : Charbuf := {}
  senders : ι → SendPhase := fun _ => .idle
  /-- history: all bytes the transport took -/
  stream : List UInt8 := []
  /-- history: the calls of `send` in the order they obtained `wpdu_` -/
  obtained : List (ι × List UInt8) := []

/-- The end `read_cb` is called on. -/
structure Receiving where
  dead : Bool := false
  rpdu : Charbuf := {}
  /-- how many bytes of the stream were read -/
  delivered : Nat := 0
  /-- history: the buffers `got_pdu` accepted -/
  accepted : List (List UInt8) := []

structure State (ι : Type) where
  sending : Sending ι := {}
  receiving : Receiving := {}

/-- The PDU on the wire: `bcopy` puts its big-endian size into its first bytes. -/
def stamp (sz : Nat) (b : List UInt8) : List UInt8 :=
  bytes32 (UInt32.ofNat sz) ++ b.drop rpcSzT

/-! ## The sending end -/

/-- The result of `writepdu`, and `wpdu_` and the stream after it. There is no
successor when the assertion on `solong` fails or the buffer is null. -/
def writepdu (wpdu : Charbuf) (stream : List UInt8) (result : WriteResult) :
    Option (Bool × Charbuf × List UInt8) :=
  if wpdu.solong < 0 then
    none
  else if wpdu.solong = wpdu.sz then
    some (true, wpdu, stream)
  else
    match wpdu.buf with
    | none => none
    | some b =>
        let b := if wpdu.solong = 0 then stamp wpdu.sz b else b
        let wpdu := { wpdu with buf := some b }
        match result with
        | .error => some (false, { wpdu with solong := -1, sz := 0 }, stream)
        | .again => some (true, wpdu, stream)
        | .wrote n =>
            if n ≤ wpdu.sz - wpdu.solong.toNat then
              some (true, { wpdu with solong := wpdu.solong + n },
                stream ++ (b.drop wpdu.solong.toNat).take n)
            else
              none

section Send

variable {ι : Type} [DecidableEq ι]

def Sending.goto (s : Sending ι) (i : ι) (phase : SendPhase) : Sending ι :=
  { s with senders := Function.update s.senders i phase }

/-- The end of `send`: compute the result and give up `wpdu_`. -/
def finish (s : Sending ι) (i : ι) (b : List UInt8) : Sending ι :=
  { s with wpdu := {} }.goto i (.returned b (!s.dead && s.wpdu.solong == s.wpdu.sz))

/-- The loop on `send_complete_`. -/
def awaitComplete (s : Sending ι) (i : ι) (b : List UInt8) : Sending ι :=
  if !s.dead && 0 ≤ s.wpdu.solong && s.wpdu.solong < s.wpdu.sz then
    s.goto i (.waitComplete b)
  else
    finish s i b

/-- The part of `send` that owns `wpdu_`. -/
def obtain (s : Sending ι) (i : ι) (b : List UInt8) (result : WriteResult) : Option (Sending ι) :=
  let s := { s with
    wpdu := { buf := some b, sz := b.length, solong := 0 }
    obtained := s.obtained ++ [(i, b)] }
  match writepdu s.wpdu s.stream result with
  | none => none
  | some (false, wpdu, stream) =>
      some ({ s with wpdu, stream, dead := true }.goto i (.removing b))
  | some (true, wpdu, stream) => some (awaitComplete { s with wpdu, stream } i b)

/-- The loop on `send_wait_`. -/
def awaitTurn (s : Sending ι) (i : ι) (b : List UInt8) (result : WriteResult) :
    Option (Sending ι) :=
  if !s.dead && s.wpdu.buf.isSome then
    some (s.goto i (.waitTurn b))
  else if s.dead then
    some (s.goto i (.returned b false))
  else
    obtain s i b result

def writeCb (s : Sending ι) (result : WriteResult) : Option (Sending ι) :=
  if s.dead then
    none
  else if s.wpdu.sz = 0 then
    some s
  else
    match writepdu s.wpdu s.stream result with
    | none => none
    | some (false, wpdu, stream) => some { s with wpdu, stream, dead := true }
    | some (true, wpdu, stream) =>
        if wpdu.solong < 0 then none else some { s with wpdu, stream }

end Send

/-! ## The receiving end -/

/-- Read what is left of the body. `rpdu_.buf` holds the bytes read so far. -/
def readBody (rpdu : Charbuf) (stream : List UInt8) (delivered : Nat) (result : ReadResult) :
    Option (Bool × Charbuf × Nat) :=
  match result with
  | .got n =>
      if 0 < n ∧ n ≤ rpdu.sz - rpdu.solong.toNat ∧ delivered + n ≤ stream.length then
        some (true,
          { rpdu with
            buf := some (rpdu.buf.getD [] ++ (stream.drop delivered).take n)
            solong := rpdu.solong + n },
          delivered + n)
      else
        none
  | .eof again | .error again =>
      if again then some (true, rpdu, delivered) else some (false, {}, delivered)

/-- A negative size fails in `malloc`, and one below four makes the length of
the second read wrap around: neither has a successor. -/
def readpdu (rpdu : Charbuf) (stream : List UInt8) (delivered : Nat)
    (header body : ReadResult) : Option (Bool × Charbuf × Nat) :=
  if rpdu.sz = 0 then
    match header with
    | .eof _ => some (false, rpdu, delivered)
    | .error again => if again then none else some (false, rpdu, delivered)
    | .got n =>
        if 0 < n ∧ n ≤ rpcSzT ∧ delivered + n ≤ stream.length then
          -- short read of sz
          if n ≠ rpcSzT then
            some (false, rpdu, delivered + n)
          else
            let sz1 := (stream.drop delivered).take rpcSzT
            let sz := (word32 sz1).toInt32.toInt
            if sz > maxPdu then
              some (false, rpdu, delivered + rpcSzT)
            else if sz < rpcSzT ∨ rpdu.buf.isSome then
              none
            else
              readBody { buf := some sz1, sz := sz.toNat, solong := rpcSzT } stream
                (delivered + rpcSzT) body
        else
          none
  else
    readBody rpdu stream delivered body

/-- `accept` is what `got_pdu` answers when it is called. -/
def readCb (r : Receiving) (stream : List UInt8) (header body : ReadResult) (accept : Bool) :
    Option Receiving :=
  if r.dead then
    some r
  else
    let attempt :=
      if r.rpdu.buf.isNone || r.rpdu.solong < r.rpdu.sz then
        readpdu r.rpdu stream r.delivered header body
      else
        some (true, r.rpdu, r.delivered)
    match attempt with
    | none => none
    | some (succ, rpdu, delivered) =>
        let r := { r with rpdu, delivered, dead := !succ }
        match rpdu.buf with
        | none => some r
        | some b =>
            if rpdu.solong = rpdu.sz ∧ accept then
              some { r with rpdu := {}, accepted := r.accepted ++ [b] }
            else
              some r

/-! ## The machine -/

inductive Action (ι : Type)
  /-- call `send` -/
  | send (i : ι) (b : List UInt8) (result : WriteResult)
  | wakeTurn (i : ι) (result : WriteResult)
  | wakeComplete (i : ι)
  /-- return from `block_remove_fd` -/
  | removed (i : ι)
  | writeCb (result : WriteResult)
  | readCb (header body : ReadResult) (accept : Bool)
  /-- `closeconn`, or a failed read, sets `dead_` on the sending end -/
  | die
  /-- the same on the receiving end -/
  | peerDie

section Run

variable {ι : Type} [DecidableEq ι]

def sendStep (s : Sending ι) : Action ι → Option (Sending ι)
  | .send i b result =>
      if s.senders i = .idle ∧ rpcHeaderSz ≤ b.length ∧ b.length ≤ maxPdu then
        awaitTurn s i b result
      else
        none
  | .wakeTurn i result =>
      match s.senders i with
      | .waitTurn b => awaitTurn s i b result
      | _ => none
  | .wakeComplete i =>
      match s.senders i with
      | .waitComplete b => some (awaitComplete s i b)
      | _ => none
  | .removed i =>
      match s.senders i with
      | .removing b => some (finish s i b)
      | _ => none
  | .writeCb result => writeCb s result
  | .die => some { s with dead := true }
  | .readCb .. | .peerDie => some s

def readStep (r : Receiving) (stream : List UInt8) : Action ι → Option Receiving
  | .readCb header body accept => readCb r stream header body accept
  | .peerDie => some { r with dead := true }
  | _ => some r

/-- A fresh connection. Which thread makes which call of `send` is left open:
every call is a sender of its own. -/
def machine (ι : Type) [DecidableEq ι] : Machine (State ι) (Action ι) where
  initial := {}
  step := fun s action => do
    let sending ← sendStep s.sending action
    let receiving ← readStep s.receiving s.sending.stream action
    return { sending, receiving }

end Run

end YfsRpc.Rpc.Connection
