import YfsRpc.Rpc.Connection

/-! # The receiving end in detail

`read_cb` for any peer, with the memory `readpdu` writes to and with `errno`. The size
prefix is a signed number the peer chooses. What each `read` does is part of the action;
a successful one leaves `errno` as it was.
-/

namespace YfsRpc.Rpc

open YfsRpc.Words

/-- The value of `EAGAIN`. -/
def eagain : Int := 11

/-- The conversion of an `int` to `size_t`. -/
def sizeT (x : Int) : Nat := (x % 2 ^ 64).toNat

/-- `malloc` refuses more than `PTRDIFF_MAX` bytes. -/
def mallocLimit : Nat := 2 ^ 63 - 1

/-- The bytes `[start, start + count)` of an allocation of `cap` bytes. -/
structure Range where
  start : Int
  count : Nat
  cap : Nat
  deriving DecidableEq, Repr

def Range.Inside (r : Range) : Prop := 0 ≤ r.start ∧ r.start + r.count ≤ r.cap

instance Range.decidableInside (r : Range) : Decidable r.Inside :=
  inferInstanceAs (Decidable (_ ∧ _))

inductive ReadOutcome
  | bytes (n : Nat)
  /-- `read` returns 0 -/
  | eof
  | fail (errno : Int)
  deriving DecidableEq, Repr

/-- What the machine of connections knows of a call of `read`. -/
def ReadOutcome.view (errno : Int) : ReadOutcome → Connection.ReadResult
  | .bytes n => .got n
  | .eof => .eof (errno = eagain)
  | .fail e => .error (e = eagain)

/-- A call of `read`: for the body of a PDU or for its size, how many bytes were asked
for, whether it returned 0, and `errno` before it. -/
structure ReadCall where
  body : Bool
  count : Nat
  zero : Bool
  errno : Int
  deriving DecidableEq, Repr

/-- `rpdu_` with the bytes read so far and the size of their allocation. -/
structure Rpdu where
  buf : Option (List UInt8) := none
  cap : Nat := 0
  sz : Int := 0
  solong : Int := 0
  deriving DecidableEq, Repr

structure ReadEnd where
  dead : Bool := false
  /-- `read_cb` is registered with `PollMgr` -/
  registered : Bool := true
  rpdu : Rpdu := {}
  /-- all bytes that have arrived from the peer -/
  stream : List UInt8 := []
  delivered : Nat := 0
  /-- the peer has closed, and no more bytes will arrive -/
  closed : Bool := false
  errno : Int := 0
  /-- history: the buffers `got_pdu` accepted -/
  accepted : List (List UInt8) := []
  /-- history: how often `got_pdu` refused -/
  refused : Nat := 0
  /-- history: the ranges of `rpdu_.buf` that were written or handed to `read` -/
  writes : List Range := []
  /-- history: the calls of `read` -/
  reads : List ReadCall := []

namespace ReadEnd

/-- `read` returns 0 at the end of the stream, or when no byte is asked for, and
`EAGAIN` while it waits for bytes. -/
def read (s : ReadEnd) (body : Bool) (count : Nat) (outcome : ReadOutcome) :
    Option (Int × List UInt8 × ReadEnd) :=
  let call (zero : Bool) : List ReadCall := s.reads ++ [⟨body, count, zero, s.errno⟩]
  match outcome with
  | .bytes n =>
      if 0 < n ∧ n ≤ count ∧ s.delivered + n ≤ s.stream.length then
        some (n, (s.stream.drop s.delivered).take n,
          { s with delivered := s.delivered + n, reads := call false })
      else
        none
  | .eof =>
      if count = 0 ∨ s.closed = true ∧ s.delivered = s.stream.length then
        some (0, [], { s with reads := call true })
      else
        none
  | .fail errno =>
      if errno = eagain → s.closed = false ∧ s.delivered = s.stream.length then
        some (-1, [], { s with errno, reads := call false })
      else
        none

/-- The second half of `readpdu`: read what is left of the PDU. -/
def readBody (s : ReadEnd) (outcome : ReadOutcome) : Option (Bool × ReadEnd) :=
  -- the difference is an `int`, and `read` receives it as a `size_t`
  let count := sizeT (s.rpdu.sz - s.rpdu.solong)
  let left : Range := { start := s.rpdu.solong, count, cap := s.rpdu.cap }
  let s := { s with writes := s.writes ++ [left] }
  match s.read true count outcome with
  | none => none
  | some (n, data, s) =>
      if n ≤ 0 then
        if s.errno = eagain then some (true, s) else some (false, { s with rpdu := {} })
      else
        some (true, { s with rpdu := { s.rpdu with
          buf := some (s.rpdu.buf.getD [] ++ data)
          solong := s.rpdu.solong + n } })

/-- The buffer of a new PDU, with its size prefix. -/
def newPdu (s : ReadEnd) (sz1 : List UInt8) (sz : Int) : ReadEnd :=
  let cap := sizeT (sz + rpcSzT)
  { s with
    rpdu := { buf := some sz1, cap, sz, solong := rpcSzT }
    writes := s.writes ++ [⟨0, rpcSzT, cap⟩] }

/-- There is no successor when an assertion fails: on `EAGAIN` before the size, or when
`malloc` has no memory. -/
def readpdu (s : ReadEnd) (header body : ReadOutcome) (memory : Bool) :
    Option (Bool × ReadEnd) :=
  if s.rpdu.sz = 0 then
    match s.read false rpcSzT header with
    | none => none
    | some (n, sz1, s) =>
        if n = 0 then some (false, s)
        else if n < 0 then
          if s.errno = eagain then none else some (false, s)
        else if n ≠ rpcSzT then some (false, s)
        else
          let sz := (word32 sz1).toInt32.toInt
          if sz > maxPdu then some (false, s)
          else if s.rpdu.buf.isSome ∨ memory = false ∨ sizeT (sz + rpcSzT) > mallocLimit then none
          else (s.newPdu sz1 sz).readBody body
  else
    s.readBody body

/-- The part of `read_cb` that reads: a failure unregisters the descriptor. -/
def attempt (s : ReadEnd) (header body : ReadOutcome) (memory : Bool) : Option ReadEnd :=
  if s.rpdu.buf.isNone ∨ s.rpdu.solong < s.rpdu.sz then
    match s.readpdu header body memory with
    | none => none
    | some (succ, s) => some (if succ then s else { s with registered := false, dead := true })
  else
    some s

/-- A whole PDU is in the buffer. -/
def Complete (s : ReadEnd) : Prop := s.rpdu.buf.isSome ∧ s.rpdu.sz = s.rpdu.solong

instance (s : ReadEnd) : Decidable s.Complete :=
  inferInstanceAs (Decidable (_ ∧ _))

/-- Offer a whole PDU to `got_pdu`, which answers `accept`. -/
def offer (s : ReadEnd) (accept : Bool) : ReadEnd :=
  if s.Complete then
    if accept then
      { s with rpdu := {}, accepted := s.accepted ++ s.rpdu.buf.toList }
    else
      { s with refused := s.refused + 1 }
  else
    s

def readCb (s : ReadEnd) (header body : ReadOutcome) (memory accept : Bool) : Option ReadEnd :=
  if s.dead then some s else (s.attempt header body memory).map fun s => s.offer accept

inductive Action
  /-- bytes of the peer arrive -/
  | arrive (bytes : List UInt8)
  | close
  /-- other calls of the poll thread leave a value in `errno` -/
  | errno (e : Int)
  | readCb (header body : ReadOutcome) (memory accept : Bool)
  deriving DecidableEq, Repr

def step (s : ReadEnd) : Action → Option ReadEnd
  | .arrive bytes => if s.closed then none else some { s with stream := s.stream ++ bytes }
  | .close => some { s with closed := true }
  | .errno e => some { s with errno := e }
  | .readCb header body memory accept =>
      if s.registered then s.readCb header body memory accept else none

def machine : Machine ReadEnd Action where
  initial := {}
  step := step

/-- What the machine of connections knows of the receiving end. -/
def view (s : ReadEnd) : Connection.Receiving where
  dead := s.dead
  rpdu := { buf := s.rpdu.buf, sz := s.rpdu.sz.toNat, solong := s.rpdu.solong }
  delivered := s.delivered
  accepted := s.accepted

/-- The size prefix at the front of the unread bytes. -/
def nextSz (s : ReadEnd) : Int :=
  (word32 ((s.stream.drop s.delivered).take rpcSzT)).toInt32.toInt

/-- The call does not read a size from -4 to 3. -/
def Sized (s : ReadEnd) : Action → Prop
  | .readCb header _ _ _ => s.rpdu.buf = none → header = .bytes rpcSzT →
      ¬ (-4 ≤ s.nextSz ∧ s.nextSz ≤ 3)
  | _ => True

instance (s : ReadEnd) : (action : Action) → Decidable (Sized s action)
  | .readCb .. => by
      unfold Sized
      infer_instance
  | .arrive _ | .close | .errno _ => .isTrue trivial

end ReadEnd

end YfsRpc.Rpc
