import YfsRpc.Rpc.Marshall

/-! # The unmarshall buffer

`unmarshall` reads values out of a received PDU. A failed read sets the sticky
flag `ok` to false and decoding goes on. Besides the fields of the source the
state keeps a log of the primitive reads, so that statements about which bytes
of the buffer were touched can be made.
-/

namespace YfsRpc.Rpc

open YfsRpc.Words

/-- One primitive read: the position before it, the number of bytes it needs,
the number of bytes it took from there, those of them the buffer holds, and the
flag after it. -/
structure Access where
  ind : Nat
  wanted : Nat
  taken : Nat
  data : List UInt8
  ok : Bool
  deriving DecidableEq, Repr

structure Unmarshall where
  buf : List UInt8
  ind : Nat
  ok : Bool
  log : List Access
  deriving DecidableEq, Repr

namespace Unmarshall

/-- `unmarshall(char *b, int sz)`. -/
def new (b : List UInt8) : Unmarshall := ⟨b, 0, true, []⟩

/-- The default constructor: no buffer, and not ok. -/
def empty : Unmarshall := ⟨[], 0, false, []⟩

def sz (u : Unmarshall) : Nat := u.buf.length

/-- Take the contents of another object, whose header was already unpacked. The
log goes with the buffer. -/
def takeIn (_u another : Unmarshall) : Unmarshall where
  buf := another.buf
  ind := rpcHeaderSz
  ok := decide (another.sz ≥ rpcHeaderSz)
  log := another.log

/-- Take a content that excludes the header; the header bytes are unspecified. -/
def takeContent (junk : Nat → UInt8) (s : List UInt8) : Unmarshall where
  buf := (List.range rpcHeaderSz).map junk ++ s
  ind := rpcHeaderSz
  ok := true
  log := []

def okdone (u : Unmarshall) : Bool := u.ok && u.ind == u.sz

/-- The byte passes through a signed `char`. -/
def rawbyte : StateM Unmarshall UInt32 := fun u =>
  if u.ind ≥ u.sz then
    (0, { u with ok := false, log := u.log ++ [⟨u.ind, 1, 0, [], false⟩] })
  else
    let c := u.buf.getD u.ind 0
    (signExtend c,
      { u with ind := u.ind + 1, log := u.log ++ [⟨u.ind, 1, 1, [c], u.ok⟩] })

/-- The bounds test is made in `unsigned int`: `_ind + n` wraps around. A string
longer than what the buffer holds continues with whatever memory follows it,
which is left out of the result. -/
def rawbytes (ss : List UInt8) (n : UInt32) : StateM Unmarshall (List UInt8) := fun u =>
  if (u.ind + n.toNat) % 2 ^ 32 > u.sz then
    (ss, { u with ok := false, log := u.log ++ [⟨u.ind, n.toNat, 0, [], false⟩] })
  else
    let tmps := (u.buf.drop u.ind).take n.toNat
    (tmps, { u with
      ind := (u.ind + n.toNat) % 2 ^ 32
      log := u.log ++ [⟨u.ind, n.toNat, n.toNat, tmps, u.ok⟩] })

/-- `unpack(int *x)`. -/
def unpack : StateM Unmarshall Int32 := do
  let x := (((← rawbyte) &&& 0xff) <<< 24).toInt32
  let x := (x.toUInt32 ||| ((← rawbyte) &&& 0xff) <<< 16).toInt32
  let x := (x.toUInt32 ||| ((← rawbyte) &&& 0xff) <<< 8).toInt32
  return (x.toUInt32 ||| ((← rawbyte) &&& 0xff)).toInt32

def seek (ind : Nat) : StateM Unmarshall Unit :=
  modify fun u => { u with ind }

def unpackReqHeader : StateM Unmarshall ReqHeader := do
  -- the first 4-byte is for channel to fill size of pdu
  seek rpcSzT
  let xid ← unpack
  let proc ← unpack
  let cltNonce ← unpack
  let srvNonce ← unpack
  let xidRep ← unpack
  seek rpcHeaderSz
  return { xid, proc, cltNonce := cltNonce.toUInt32, srvNonce := srvNonce.toUInt32, xidRep }

def unpackReplyHeader : StateM Unmarshall ReplyHeader := do
  seek rpcSzT
  let xid ← unpack
  let ret ← unpack
  seek rpcHeaderSz
  return { xid, ret }

/-! ## `operator>>` for scalars and strings

The scalar operators assign their target whether or not the reads succeed. A
string keeps its old value when its length or its bytes cannot be read. -/

def getBool : StateM Unmarshall Bool := do
  return (← rawbyte) != 0

def getUChar : StateM Unmarshall UInt8 := do
  return (← rawbyte).toUInt8

def getChar : StateM Unmarshall Int8 := do
  return (← rawbyte).toUInt8.toInt8

def getUShort : StateM Unmarshall UInt16 := do
  let x := (((← rawbyte) &&& 0xff) <<< 8).toUInt16
  return (x.toUInt32 ||| ((← rawbyte) &&& 0xff)).toUInt16

def getShort : StateM Unmarshall Int16 := do
  let x := (((← rawbyte) &&& 0xff) <<< 8).toUInt16.toInt16
  return (x.toInt32.toUInt32 ||| ((← rawbyte) &&& 0xff)).toUInt16.toInt16

def getUInt : StateM Unmarshall UInt32 := do
  let x := ((← rawbyte) &&& 0xff) <<< 24
  let x := x ||| ((← rawbyte) &&& 0xff) <<< 16
  let x := x ||| ((← rawbyte) &&& 0xff) <<< 8
  return x ||| ((← rawbyte) &&& 0xff)

def getInt : StateM Unmarshall Int32 := do
  let x := (((← rawbyte) &&& 0xff) <<< 24).toInt32
  let x := (x.toUInt32 ||| ((← rawbyte) &&& 0xff) <<< 16).toInt32
  let x := (x.toUInt32 ||| ((← rawbyte) &&& 0xff) <<< 8).toInt32
  return (x.toUInt32 ||| ((← rawbyte) &&& 0xff)).toInt32

def getULongLong : StateM Unmarshall UInt64 := do
  let h ← getUInt
  let l ← getUInt
  return l.toUInt64 ||| h.toUInt64 <<< 32

def getString (s : List UInt8) : StateM Unmarshall (List UInt8) := do
  let sz ← getUInt
  if (← get).ok then
    rawbytes s sz
  else
    return s

end Unmarshall

end YfsRpc.Rpc
