import YfsRpc.Rpc.Marshall

/-! # What the marshall operations write

Two specifications compose the operations. `Overwrites` is a write inside the
allocated buffer, which changes nothing outside the bytes it covers. `Writes`
is an append that may grow the buffer; below the limit it keeps the buffer
valid and every byte written before.
-/

namespace YfsRpc.Rpc.Marshall

open YfsRpc.Words

/-! ## Writing inside the buffer -/

/-- `after` is `before` with the bytes written at its position. -/
structure Overwrote (before : Marshall) (bytes : List UInt8) (after : Marshall) : Prop where
  capa : after.capa = before.capa
  allocated : after.buf.size = before.buf.size
  ind : after.ind = before.ind + bytes.length
  outside : ∀ i, i < before.ind ∨ before.ind + bytes.length ≤ i →
    after.buf.byte i = before.buf.byte i
  content : after.buf.read before.ind bytes.length = bytes

/-- The operation writes exactly these bytes when the buffer has room for them. -/
def Overwrites (operation : Marshall → Option Marshall) (bytes : List UInt8) : Prop :=
  ∀ m : Marshall, m.capa = m.buf.size → m.capa < 2 ^ 31 →
    m.ind + bytes.length ≤ m.capa →
    ∃ after, operation m = some after ∧ Overwrote m bytes after

theorem Overwrote.trans {first second third : Marshall} {left right : List UInt8}
    (one : Overwrote first left second) (two : Overwrote second right third) :
    Overwrote first (left ++ right) third where
  capa := two.capa.trans one.capa
  allocated := two.allocated.trans one.allocated
  ind := by
    rw [two.ind, one.ind, List.length_append]
    omega
  outside := by
    intro i away
    rw [List.length_append] at away
    rw [two.outside i (by rw [one.ind]; omega)]
    exact one.outside i (by omega)
  content := by
    have keptLeft : third.buf.read first.ind left.length =
        second.buf.read first.ind left.length :=
      Block.read_congr fun i _ _ => two.outside i (by rw [one.ind]; omega)
    rw [List.length_append, Block.read_add, keptLeft, one.content, ← one.ind, two.content]

theorem Overwrites.bind {first second : Marshall → Option Marshall}
    {left right : List UInt8} (one : Overwrites first left)
    (two : Overwrites second right) :
    Overwrites (fun m => (first m).bind second) (left ++ right) := by
  intro m allocated bounded room
  rw [List.length_append] at room
  rcases one m allocated bounded (by omega) with ⟨middle, firstDone, wroteLeft⟩
  rcases two middle (by rw [wroteLeft.capa, wroteLeft.allocated, allocated])
      (by rw [wroteLeft.capa]; exact bounded)
      (by rw [wroteLeft.ind, wroteLeft.capa]; omega) with
    ⟨after, secondDone, wroteRight⟩
  exact ⟨after, by simp [firstDone, secondDone], wroteLeft.trans wroteRight⟩

theorem rawbyte_overwrites (x : UInt8) : Overwrites (rawbyte x) [x] := by
  intro m allocated bounded room
  simp only [List.length_singleton] at room
  have noGrowth : ¬ m.ind ≥ m.capa := by omega
  refine ⟨{ m with
    buf := { m.buf with byte := fun i => if i = m.ind then x else m.buf.byte i }
    ind := m.ind + 1 }, ?_, rfl, rfl, rfl, ?_, ?_⟩
  · simp [rawbyte, noGrowth, Block.store_eq_some x (show m.ind < m.buf.size by omega),
      int?_eq_some (show m.ind + 1 < 2 ^ 31 by omega)]
  · intro i away
    simp only [List.length_singleton] at away
    simp [show i ≠ m.ind by omega]
  · simp [Block.read]

theorem pack_overwrites (x : Int32) : Overwrites (pack x) (bytes32 x.toUInt32) := by
  have low : (x &&& 0xff).toUInt32.toUInt8 = byteAt x.toUInt32 0 := by
    simpa using byteAt_of_int x 0 0 0 (by decide) (by decide) (by decide)
  unfold pack
  rw [low, byteAt_of_int x 24 24 24 (by decide) (by decide) (by decide),
    byteAt_of_int x 16 16 16 (by decide) (by decide) (by decide),
    byteAt_of_int x 8 8 8 (by decide) (by decide) (by decide)]
  exact (rawbyte_overwrites _).bind ((rawbyte_overwrites _).bind
    ((rawbyte_overwrites _).bind (rawbyte_overwrites _)))

theorem rawbytes_overwrites (p : List UInt8) : Overwrites (rawbytes p p.length) p := by
  intro m allocated bounded room
  have noGrowth : ¬ m.ind + p.length > m.capa := by omega
  refine ⟨{ m with
    buf := { m.buf with
      byte := fun i =>
        if m.ind ≤ i ∧ i < m.ind + p.length then p.getD (i - m.ind) 0
        else m.buf.byte i }
    ind := m.ind + p.length }, ?_, rfl, rfl, rfl, ?_, ?_⟩
  · simp [rawbytes, noGrowth, int?_eq_some (show m.ind + p.length < 2 ^ 31 by omega),
      Block.write_eq_some (show m.ind + p.length ≤ m.buf.size by omega)]
  · intro i away
    simp only [if_neg (show ¬ (m.ind ≤ i ∧ i < m.ind + p.length) by omega)]
  · apply Block.read_of_copied
    intro i inside
    simp [inside]

/-! ## Packing a header -/

def reqHeaderBytes (h : ReqHeader) : List UInt8 :=
  bytes32 h.xid.toUInt32 ++ (bytes32 h.proc.toUInt32 ++ (bytes32 h.cltNonce ++
    (bytes32 h.srvNonce ++ bytes32 h.xidRep.toUInt32)))

def replyHeaderBytes (h : ReplyHeader) : List UInt8 :=
  bytes32 h.xid.toUInt32 ++ bytes32 h.ret.toUInt32

/-- Packing a header replaces the bytes from offset 4 on and nothing else: the
position, the capacity and every other byte stay as they were. -/
structure HeaderPacked (before : Marshall) (bytes : List UInt8) (after : Marshall) : Prop where
  capa : after.capa = before.capa
  allocated : after.buf.size = before.buf.size
  ind : after.ind = before.ind
  outside : ∀ i, i < rpcSzT ∨ rpcSzT + bytes.length ≤ i →
    after.buf.byte i = before.buf.byte i
  content : after.buf.read rpcSzT bytes.length = bytes

theorem Overwrites.headerPacked {operation : Marshall → Option Marshall}
    {bytes : List UInt8} (overwrites : Overwrites operation bytes) (m : Marshall)
    (allocated : m.capa = m.buf.size) (bounded : m.capa < 2 ^ 31)
    (room : rpcSzT + bytes.length ≤ m.capa) :
    ∃ after, ((operation { m with ind := rpcSzT }).bind fun packed =>
        some { packed with ind := m.ind }) = some after ∧
      HeaderPacked m bytes after := by
  rcases overwrites { m with ind := rpcSzT } allocated bounded room with
    ⟨packed, done, wrote⟩
  exact ⟨{ packed with ind := m.ind }, by simp [done], wrote.capa, wrote.allocated,
    rfl, wrote.outside, wrote.content⟩

theorem packReqHeader_headerPacked (h : ReqHeader) (m : Marshall)
    (allocated : m.capa = m.buf.size) (bounded : m.capa < 2 ^ 31)
    (room : rpcHeaderSz ≤ m.capa) :
    ∃ after, m.packReqHeader h = some after ∧
      HeaderPacked m (reqHeaderBytes h) after := by
  have fields : Overwrites (fun m => (pack h.xid m).bind fun m => (pack h.proc m).bind
      fun m => (pack h.cltNonce.toInt32 m).bind fun m =>
        (pack h.srvNonce.toInt32 m).bind (pack h.xidRep)) (reqHeaderBytes h) := by
    have nonces := ((pack_overwrites h.cltNonce.toInt32).bind
      ((pack_overwrites h.srvNonce.toInt32).bind (pack_overwrites h.xidRep)))
    rw [UInt32.toUInt32_toInt32, UInt32.toUInt32_toInt32] at nonces
    exact (pack_overwrites h.xid).bind ((pack_overwrites h.proc).bind nonces)
  rcases fields.headerPacked m allocated bounded room with ⟨after, done, packed⟩
  refine ⟨after, ?_, packed⟩
  rw [← done]
  simp [packReqHeader, Option.bind_assoc]

theorem packReplyHeader_headerPacked (h : ReplyHeader) (m : Marshall)
    (allocated : m.capa = m.buf.size) (bounded : m.capa < 2 ^ 31)
    (room : rpcHeaderSz ≤ m.capa) :
    ∃ after, m.packReplyHeader h = some after ∧
      HeaderPacked m (replyHeaderBytes h) after := by
  have fields : Overwrites (fun m => (pack h.xid m).bind (pack h.ret))
      (replyHeaderBytes h) :=
    (pack_overwrites h.xid).bind (pack_overwrites h.ret)
  rcases fields.headerPacked m allocated bounded
      (Nat.le_trans (show rpcSzT + 8 ≤ rpcHeaderSz by decide) room) with
    ⟨after, done, packed⟩
  refine ⟨after, ?_, packed⟩
  rw [← done]
  simp [packReplyHeader, Option.bind_assoc]

/-! ## Appending with growth -/

/-- The buffer is allocated as `capa` says, the position is inside it, and it
is at most twice what the contents need. -/
structure Valid (m : Marshall) : Prop where
  allocated : m.capa = m.buf.size
  inside : m.ind ≤ m.capa
  header : rpcHeaderSz ≤ m.ind
  bounded : m.capa ≤ max defaultRpcSz (2 * m.ind)

theorem new_valid (junk : Nat → UInt8) : (new junk).Valid where
  allocated := rfl
  inside := show rpcHeaderSz ≤ defaultRpcSz by decide
  header := Nat.le_refl rpcHeaderSz
  bounded := Nat.le_max_left _ _

/-- `after` is `before` with the bytes appended; earlier bytes are unchanged. -/
structure Appended (before : Marshall) (bytes : List UInt8) (after : Marshall) : Prop where
  valid : after.Valid
  ind : after.ind = before.ind + bytes.length
  kept : ∀ i, i < before.ind → after.buf.byte i = before.buf.byte i
  content : after.buf.read before.ind bytes.length = bytes

/-- Sizes below this limit keep every doubling of the buffer inside `int`. -/
def growthLimit : Nat := 2 ^ 30

/-- The operation appends exactly these bytes to any valid buffer below the limit. -/
def Writes (operation : Marshall → Option Marshall) (bytes : List UInt8) : Prop :=
  ∀ m : Marshall, m.Valid → m.ind + bytes.length < growthLimit →
    ∃ after, operation m = some after ∧ Appended m bytes after

theorem Appended.refl {m : Marshall} (valid : m.Valid) : Appended m [] m :=
  ⟨valid, rfl, fun _ _ => rfl, rfl⟩

theorem Appended.trans {first second third : Marshall} {left right : List UInt8}
    (one : Appended first left second) (two : Appended second right third) :
    Appended first (left ++ right) third where
  valid := two.valid
  ind := by
    rw [two.ind, one.ind, List.length_append]
    omega
  kept := by
    intro i below
    rw [two.kept i (by rw [one.ind]; omega), one.kept i below]
  content := by
    have keptLeft : third.buf.read first.ind left.length =
        second.buf.read first.ind left.length :=
      Block.read_congr fun i _ _ => two.kept i (by rw [one.ind]; omega)
    rw [List.length_append, Block.read_add, keptLeft, one.content, ← one.ind, two.content]

/-- Growing and then writing inside the grown buffer is an append. -/
theorem Overwrote.appended {m after : Marshall} {bytes : List UInt8} {capa : Nat}
    (valid : m.Valid) (wrote : Overwrote (m.grow capa) bytes after)
    (room : m.ind + bytes.length ≤ capa)
    (bounded : capa ≤ max defaultRpcSz (2 * (m.ind + bytes.length))) :
    Appended m bytes after where
  valid := {
    allocated := by rw [wrote.capa, wrote.allocated]; rfl
    inside := by rw [wrote.ind, wrote.capa]; exact room
    header := by
      rw [wrote.ind]
      exact Nat.le_trans valid.header (Nat.le_add_right _ _)
    bounded := by rw [wrote.ind, wrote.capa]; exact bounded }
  ind := wrote.ind
  kept := fun i below => wrote.outside i (Or.inl below)
  content := wrote.content

theorem grow_capa {m : Marshall} (valid : m.Valid) : m.grow m.capa = m := by
  rcases m with ⟨⟨size, byte⟩, capa, ind⟩
  have allocated : capa = size := valid.allocated
  simp [grow, Block.realloc, allocated]

/-- A packed header keeps a valid buffer valid. -/
theorem HeaderPacked.valid {before after : Marshall} {bytes : List UInt8}
    (packed : HeaderPacked before bytes after) (valid : before.Valid) : after.Valid where
  allocated := by rw [packed.capa, packed.allocated, valid.allocated]
  inside := by rw [packed.capa, packed.ind]; exact valid.inside
  header := by rw [packed.ind]; exact valid.header
  bounded := by rw [packed.capa, packed.ind]; exact valid.bounded

end YfsRpc.Rpc.Marshall
