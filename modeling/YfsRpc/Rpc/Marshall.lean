import YfsRpc.Foundation.Block
import YfsRpc.Foundation.Words

/-! # The marshall buffer

`marshall` writes into a heap buffer that grows on demand. Its `int` fields are
natural numbers below `2 ^ 31`: an addition or a doubling that leaves the range
is undefined in the source, as is a write outside the buffer, and an operation
that would do either has no result here.
-/

namespace YfsRpc.Rpc

/-- A value computed in `int`; there is no result when it does not fit. -/
def int? (value : Nat) : Option Nat :=
  if value < 2 ^ 31 then some value else none

theorem int?_eq_some {value : Nat} (fits : value < 2 ^ 31) :
    int? value = some value := if_pos fits

theorem int?_eq_none {value : Nat} (large : ¬ value < 2 ^ 31) :
    int? value = none := if_neg large

/-! ## Headers -/

structure ReqHeader where
  xid : Int32 := 0
  proc : Int32 := 0
  cltNonce : UInt32 := 0
  srvNonce : UInt32 := 0
  xidRep : Int32 := 0
  deriving DecidableEq, Repr

structure ReplyHeader where
  xid : Int32 := 0
  ret : Int32 := 0
  deriving DecidableEq, Repr

/-- Size of the initial buffer. -/
def defaultRpcSz : Nat := 1024

/-- `sizeof(rpc_sz_t)`: the bytes the channel fills with the PDU's size. -/
def rpcSzT : Nat := 4

/-- `max(sizeof(req_header), sizeof(reply_header)) + sizeof(rpc_sz_t)`, without checksumming. -/
def rpcHeaderSz : Nat := max 20 8 + rpcSzT

/-- `MAX_PDU`: the largest PDU a connection accepts, ten megabytes. -/
def maxPdu : Nat := 10 <<< 20

/-! ## The buffer -/

structure Marshall where
  buf : Block
  capa : Nat
  ind : Nat

namespace Marshall

/-- A fresh object; `junk` is what the allocated memory held before. -/
def new (junk : Nat → UInt8) : Marshall where
  buf := Block.malloc defaultRpcSz junk
  capa := defaultRpcSz
  ind := rpcHeaderSz

def size (m : Marshall) : Nat := m.ind

def grow (m : Marshall) (capa : Nat) : Marshall :=
  { m with capa, buf := m.buf.realloc capa }

def rawbyte (x : UInt8) (m : Marshall) : Option Marshall := do
  let m ← if m.ind ≥ m.capa then m.grow <$> int? (2 * m.capa) else some m
  let buf ← m.buf.store m.ind x
  let ind ← int? (m.ind + 1)
  return { m with buf, ind }

/-- The count `n` is an `int` that is not negative: a negative one reaches
`memcpy` as a huge size, which `rawbytesOfSize` rules out. -/
def rawbytes (p : List UInt8) (n : Nat) (m : Marshall) : Option Marshall := do
  let wanted ← int? (m.ind + n)
  let m ←
    if wanted > m.capa then
      m.grow <$> int? (if m.capa > n then 2 * m.capa else m.capa + n)
    else
      some m
  let buf ← m.buf.write m.ind (p.take n)
  return { m with buf, ind := wanted }

/-- `rawbytes(s.data(), s.size())`, where the size is converted to `int`. -/
def rawbytesOfSize (s : List UInt8) (m : Marshall) : Option Marshall := do
  let n ← int? (s.length % 2 ^ 32)
  m.rawbytes s n

/-- `pack(int x)`. -/
def pack (x : Int32) (m : Marshall) : Option Marshall := do
  let m ← m.rawbyte ((x >>> 24) &&& 0xff).toUInt32.toUInt8
  let m ← m.rawbyte ((x >>> 16) &&& 0xff).toUInt32.toUInt8
  let m ← m.rawbyte ((x >>> 8) &&& 0xff).toUInt32.toUInt8
  m.rawbyte (x &&& 0xff).toUInt32.toUInt8

def packReqHeader (h : ReqHeader) (m : Marshall) : Option Marshall := do
  let savedSz := m.ind
  -- leave the first 4-byte empty for channel to fill size of pdu
  let m := { m with ind := rpcSzT }
  let m ← m.pack h.xid
  let m ← m.pack h.proc
  let m ← m.pack h.cltNonce.toInt32
  let m ← m.pack h.srvNonce.toInt32
  let m ← m.pack h.xidRep
  return { m with ind := savedSz }

def packReplyHeader (h : ReplyHeader) (m : Marshall) : Option Marshall := do
  let savedSz := m.ind
  let m := { m with ind := rpcSzT }
  let m ← m.pack h.xid
  let m ← m.pack h.ret
  return { m with ind := savedSz }

/-- Hand over the buffer: its first `ind` bytes are the PDU. -/
def takeBuf (m : Marshall) : List UInt8 × Marshall :=
  (m.buf.read 0 m.ind, { m with buf := ⟨0, m.buf.byte⟩, ind := 0 })

/-! ## `operator<<` for scalars and strings -/

def putBool (x : Bool) (m : Marshall) : Option Marshall :=
  m.rawbyte x.toUInt8

def putUChar (x : UInt8) (m : Marshall) : Option Marshall :=
  m.rawbyte x

def putChar (x : Int8) (m : Marshall) : Option Marshall :=
  m.putUChar x.toUInt8

def putUShort (x : UInt16) (m : Marshall) : Option Marshall := do
  let m ← m.rawbyte ((x.toUInt32 >>> 8) &&& 0xff).toUInt8
  m.rawbyte (x.toUInt32 &&& 0xff).toUInt8

def putShort (x : Int16) (m : Marshall) : Option Marshall :=
  m.putUShort x.toUInt16

/-- Network order is big-endian. -/
def putUInt (x : UInt32) (m : Marshall) : Option Marshall := do
  let m ← m.rawbyte ((x >>> 24) &&& 0xff).toUInt8
  let m ← m.rawbyte ((x >>> 16) &&& 0xff).toUInt8
  let m ← m.rawbyte ((x >>> 8) &&& 0xff).toUInt8
  m.rawbyte (x &&& 0xff).toUInt8

def putInt (x : Int32) (m : Marshall) : Option Marshall :=
  m.putUInt x.toUInt32

def putString (s : List UInt8) (m : Marshall) : Option Marshall := do
  let m ← m.putUInt (UInt32.ofNat s.length)
  m.rawbytesOfSize s

def putULongLong (x : UInt64) (m : Marshall) : Option Marshall := do
  let m ← m.putUInt (x >>> 32).toUInt32
  m.putUInt x.toUInt32

end Marshall

end YfsRpc.Rpc
