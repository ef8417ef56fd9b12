import YfsRpc.Rpc.Client
import YfsRpc.Rpc.PduSize

/-! # Messages on a connection

A request or a reply goes over a connection as a PDU, whose size `writepdu` puts over
its first bytes. What the other end unpacks are the messages that were sent, in their
order and each one once.
-/

namespace YfsRpc.Rpc

open YfsRpc.Words

/-! ## A PDU on the wire -/

/-- The parts of a PDU: room for the size, the header, the unused part of the header
area, and the values. -/
theorem Header.pdu_layout {header : Header} {values : List Datum} {junk : Nat → UInt8}
    {b : List UInt8} (built : header.pdu values junk = some b) (fits : pduSize values < 2 ^ 31) :
    ∃ size unused, b = size ++ (header.bytes ++ (unused ++ encodeAll values)) ∧
      size.length = rpcSzT ∧ rpcSzT + header.bytes.length + unused.length = rpcHeaderSz := by
  rcases Option.bind_eq_some_iff.mp built with ⟨m, done, rest⟩
  rcases putAll_appended done (Marshall.new_valid junk) (show defaultRpcSz < 2 ^ 31 by decide)
    fits with ⟨appended, bounded⟩
  rcases header.pack_headerPacked m appended.valid bounded with ⟨packed, packDone, wrote⟩
  rw [packDone] at rest
  cases rest
  have payload : packed.buf.read rpcHeaderSz (encodeAll values).length = encodeAll values := by
    refine (Block.read_congr fun i above _ => ?_).trans appended.content
    exact wrote.outside i (Or.inr (Nat.le_trans header.bytes_fit above))
  have ind : packed.ind = rpcHeaderSz + (encodeAll values).length :=
    wrote.ind.trans appended.ind
  rcases packedPdu_eq wrote.content payload ind with ⟨unused, layout, area⟩
  exact ⟨_, unused, layout, Block.length_read _ _ _, area⟩

/-- Behind its size a PDU comes as it was built: the other end unpacks the header, and
the values are what is left. -/
theorem Header.unpack_wire {header : Header} {values : List Datum} {junk : Nat → UInt8}
    {b : List UInt8} (built : header.pdu values junk = some b) (fits : pduSize values < 2 ^ 31) :
    ∃ after, header.unpackLike (.new (Connection.wire b)) = (header, after) ∧
      after.ok = true ∧ (Connection.wire b).drop rpcHeaderSz = encodeAll values := by
  have length := Header.length_pdu fits built
  rcases Header.pdu_layout built fits with ⟨size, unused, rfl, room, area⟩
  have image : Connection.wire (size ++ (header.bytes ++ (unused ++ encodeAll values))) =
      bytes32 (UInt32.ofNat (pduSize values)) ++
        (header.bytes ++ (unused ++ encodeAll values)) := by
    rw [Connection.wire, length, Connection.stamp, List.drop_left' room]
  have sizes : (bytes32 (UInt32.ofNat (pduSize values))).length = rpcSzT := length_bytes32 _
  rw [image]
  have small : (Unmarshall.new (bytes32 (UInt32.ofNat (pduSize values)) ++
      (header.bytes ++ (unused ++ encodeAll values)))).sz < 2 ^ 31 := by
    rw [List.length_append, room] at length
    change (bytes32 _ ++ _).length < 2 ^ 31
    rw [List.length_append, sizes, length]
    exact fits
  rcases header.unpackLike_spec (u := .new _) rfl rfl sizes small with ⟨after, done, _, _, ok⟩
  refine ⟨after, done, ok, ?_⟩
  rw [← List.append_assoc, ← List.append_assoc]
  apply List.drop_left'
  rw [List.length_append, List.length_append, sizes, area]

theorem Header.unpackLike_req {kind h : ReqHeader} {u after : Unmarshall}
    (done : (Header.req kind).unpackLike u = (.req h, after)) :
    Unmarshall.unpackReqHeader u = (h, after) := by
  have parsed : Unmarshall.unpackReqHeader u =
      ((Unmarshall.unpackReqHeader u).1, (Unmarshall.unpackReqHeader u).2) := Prod.mk.eta.symm
  have computed := Unmarshall.map_eq parsed Header.req
  rw [Header.unpackLike, computed, Prod.mk.injEq, Header.req.injEq] at done
  exact Prod.ext done.1 done.2

theorem Header.unpackLike_reply {kind h : ReplyHeader} {u after : Unmarshall}
    (done : (Header.reply kind).unpackLike u = (.reply h, after)) :
    Unmarshall.unpackReplyHeader u = (h, after) := by
  have parsed : Unmarshall.unpackReplyHeader u =
      ((Unmarshall.unpackReplyHeader u).1, (Unmarshall.unpackReplyHeader u).2) := Prod.mk.eta.symm
  have computed := Unmarshall.map_eq parsed Header.reply
  rw [Header.unpackLike, computed, Prod.mk.injEq, Header.reply.injEq] at done
  exact Prod.ext done.1 done.2

/-! ## Requests -/

/-- An `unsigned int` as the `int` that `pack` takes. -/
def word (n : Nat) : Int32 := (UInt32.ofNat n).toInt32

theorem toNat_word {n : Nat} (small : n < 2 ^ 32) : (word n).toUInt32.toNat = n := by
  rw [word, UInt32.toUInt32_toInt32]
  exact UInt32.toNat_ofNat_of_lt' small

/-- The header of a request. -/
def Request.header (r : Request) : ReqHeader where
  xid := word r.xid
  proc := word r.proc
  cltNonce := UInt32.ofNat r.cltNonce
  srvNonce := UInt32.ofNat r.srvNonce
  xidRep := word r.xidRep

/-- The fields of the header are words. -/
structure Request.Fits (r : Request) : Prop where
  xid : r.xid < 2 ^ 32
  proc : r.proc < 2 ^ 32
  cltNonce : r.cltNonce < 2 ^ 32
  srvNonce : r.srvNonce < 2 ^ 32
  xidRep : r.xidRep < 2 ^ 32

/-- `call1` sends this PDU, with the marshalled arguments of its caller. -/
def Request.SentAs (r : Request) (b : List UInt8) : Prop :=
  ∃ values junk, (Header.req r.header).pdu values junk = some b ∧
    pduSize values < 2 ^ 31 ∧ r.payload = encodeAll values

/-- The request that `dispatch` unpacks. -/
def Request.parse (frame : List UInt8) : Option Request :=
  let (h, req) := Unmarshall.unpackReqHeader (.new frame)
  if req.ok then
    some {
      xid := h.xid.toUInt32.toNat
      proc := h.proc.toUInt32.toNat
      cltNonce := h.cltNonce.toNat
      srvNonce := h.srvNonce.toNat
      xidRep := h.xidRep.toUInt32.toNat
      payload := frame.drop rpcHeaderSz }
  else
    none

theorem Request.parse_wire {r : Request} {b : List UInt8} (fits : r.Fits) (sent : r.SentAs b) :
    Request.parse (Connection.wire b) = some r := by
  rcases sent with ⟨values, junk, built, small, payload⟩
  rcases Header.unpack_wire built small with ⟨after, done, ok, rest⟩
  have unpacked := Header.unpackLike_req done
  simp only [Request.parse, unpacked, ok, if_true, rest, ← payload]
  simp only [Request.header, toNat_word fits.xid, toNat_word fits.proc, toNat_word fits.xidRep,
    UInt32.toNat_ofNat_of_lt' fits.cltNonce, UInt32.toNat_ofNat_of_lt' fits.srvNonce]

/-! ## Replies -/

/-- The header of a reply. -/
def Reply.header (r : Reply) : ReplyHeader where
  xid := word r.xid
  ret := Int32.ofInt r.ret

structure Reply.Fits (r : Reply) : Prop where
  xid : r.xid < 2 ^ 32
  retLow : -2 ^ 31 ≤ r.ret
  retHigh : r.ret < 2 ^ 31

/-- `dispatch` sends this PDU, with the marshalled result of the handler. -/
def Reply.SentAs (r : Reply) (b : List UInt8) : Prop :=
  ∃ values junk, (Header.reply r.header).pdu values junk = some b ∧
    pduSize values < 2 ^ 31 ∧ r.payload = encodeAll values

/-- The reply that `got_pdu` of the client unpacks. -/
def Reply.parse (frame : List UInt8) : Option Reply :=
  let (h, rep) := Unmarshall.unpackReplyHeader (.new frame)
  if rep.ok then
    some { xid := h.xid.toUInt32.toNat, ret := h.ret.toInt, payload := frame.drop rpcHeaderSz }
  else
    none

theorem Reply.parse_wire {r : Reply} {b : List UInt8} (fits : r.Fits) (sent : r.SentAs b) :
    Reply.parse (Connection.wire b) = some r := by
  rcases sent with ⟨values, junk, built, small, payload⟩
  rcases Header.unpack_wire built small with ⟨after, done, ok, rest⟩
  have unpacked := Header.unpackLike_reply done
  have ret : (Int32.ofInt r.ret).toInt = r.ret :=
    Int32.toInt_ofInt_of_le fits.retLow fits.retHigh
  simp only [Reply.parse, unpacked, ok, if_true, rest, ← payload]
  simp only [Reply.header, toNat_word fits.xid, ret]

/-! ## The connection as a queue of messages -/

namespace Connection

variable {ι Message : Type}

/-- Nothing is under way: every PDU that obtained `wpdu_` was written completely, and all
that was written was read and accepted. -/
structure Drained (s : State ι) : Prop where
  sending : s.sending.dead = false
  written : s.sending.wpdu.buf = none
  receiving : s.receiving.dead = false
  accepted : s.receiving.rpdu.buf = none
  read : s.receiving.delivered = s.sending.stream.length

instance (s : State ι) : Decidable (Drained s) :=
  decidable_of_iff (s.sending.dead = false ∧ s.sending.wpdu.buf = none ∧
      s.receiving.dead = false ∧ s.receiving.rpdu.buf = none ∧
      s.receiving.delivered = s.sending.stream.length)
    ⟨fun ⟨a, b, c, d, e⟩ => ⟨a, b, c, d, e⟩, fun ⟨a, b, c, d, e⟩ => ⟨a, b, c, d, e⟩⟩

/-- Once a connection is drained, it has delivered every PDU. -/
theorem Inv.accepted_all {s : State ι} (inv : Inv s) (drained : Drained s) :
    s.receiving.accepted = s.sending.obtained.map fun entry => wire entry.2 := by
  have whole : s.sending.stream = wires s.sending.obtained := by
    rcases inv.sending.progress drained.sending with quiet | ⟨before, i, b, solong, writing⟩
    · exact quiet.stream
    · have held := drained.written
      rw [writing.wpdu] at held
      contradiction
  have flat : s.receiving.accepted.flatten = wires s.sending.obtained := by
    rcases inv.receiving.reading drained.receiving with ⟨_, read⟩ | ⟨b, reading⟩
    · rw [drained.read, List.take_length] at read
      exact read.symm.trans whole
    · have held := drained.accepted
      rw [reading.buf] at held
      contradiction
  rcases inv.accepted_prefix with ⟨rest, all⟩
  have same : s.receiving.accepted.flatten ++ rest.flatten = s.receiving.accepted.flatten := by
    rw [← List.flatten_append, all, flat]
    rfl
  have empty : rest.flatten = [] := List.append_right_eq_self.mp same
  cases rest with
  | nil => rw [← all, List.append_nil]
  | cons frame rest =>
      have member : frame ∈ s.sending.obtained.map fun entry => wire entry.2 := by
        rw [← all]
        exact List.mem_append_right _ List.mem_cons_self
      rcases List.mem_map.mp member with ⟨⟨i, b⟩, sent, rfl⟩
      have sizes := inv.sending.sizes i b (SendPhase.pdu_of_started (inv.sending.started i b sent))
      have framed := wire_framed sizes.1 sizes.2
      have nothing := List.flatten_eq_nil_iff.mp empty _ List.mem_cons_self
      exact absurd nothing (framed_prefixFree.ne_nil _ framed)

/-- The messages that come out are the first of those that were put in. -/
theorem Inv.messages_prefix {s : State ι} (inv : Inv s) {parse : List UInt8 → Option Message}
    {message : ι → Message}
    (sent : ∀ i b, (i, b) ∈ s.sending.obtained → parse (wire b) = some (message i)) :
    s.receiving.accepted.map parse <+:
        (s.sending.obtained.map fun entry => some (message entry.1)) ∧
      (Drained s → s.receiving.accepted.map parse =
        s.sending.obtained.map fun entry => some (message entry.1)) := by
  have parsed : (s.sending.obtained.map fun entry => wire entry.2).map parse =
      s.sending.obtained.map fun entry => some (message entry.1) := by
    rw [List.map_map]
    apply List.map_congr_left
    intro entry member
    exact sent entry.1 entry.2 member
  constructor
  · rw [← parsed]
    exact inv.accepted_prefix.map parse
  · intro drained
    rw [inv.accepted_all drained, parsed]

variable [DecidableEq ι] {s : State ι}

/-- Of the requests that the client of a connection sent, the server unpacks a first part,
each one once, in order and unchanged, and all of them when the connection is drained. The
same holds of the replies on the way back. -/
theorem messages_delivered (reachable : (machine ι).Reachable s) :
    (∀ request : ι → Request,
      (∀ i b, (i, b) ∈ s.sending.obtained → (request i).Fits ∧ (request i).SentAs b) →
        s.receiving.accepted.map Request.parse <+:
            (s.sending.obtained.map fun entry => some (request entry.1)) ∧
          (Drained s → s.receiving.accepted.map Request.parse =
            s.sending.obtained.map fun entry => some (request entry.1))) ∧
    (∀ reply : ι → Reply,
      (∀ i b, (i, b) ∈ s.sending.obtained → (reply i).Fits ∧ (reply i).SentAs b) →
        s.receiving.accepted.map Reply.parse <+:
            (s.sending.obtained.map fun entry => some (reply entry.1)) ∧
          (Drained s → s.receiving.accepted.map Reply.parse =
            s.sending.obtained.map fun entry => some (reply entry.1))) := by
  have inv := inv_of_reachable reachable
  constructor
  · intro request sent
    exact inv.messages_prefix fun i b member =>
      Request.parse_wire (sent i b member).1 (sent i b member).2
  · intro reply sent
    exact inv.messages_prefix fun i b member =>
      Reply.parse_wire (sent i b member).1 (sent i b member).2

/-- The two calls of a client. -/
def twoRequests (i : Nat) : Request where
  xid := i + 1
  proc := 23
  cltNonce := 2 ^ 32 - 1
  srvNonce := 9
  xidRep := 0
  payload := [0, 0, 0, 77]

/-- What `call1` passes to `send`. -/
def requestPdu (i : Nat) : List UInt8 :=
  [0, 0, 0, 0] ++ (Header.req (twoRequests i).header).bytes ++ [0, 0, 0, 77]

theorem twoRequests_sentAs (i : Nat) (small : i < 2) :
    (twoRequests i).Fits ∧ (twoRequests i).SentAs (requestPdu i) := by
  match i, small with
  | 0, _ | 1, _ =>
      exact ⟨⟨by decide, by decide, by decide, by decide, by decide⟩,
        [⟨.int, (77 : Int32)⟩], fun _ => 0, by decide, by decide, by decide⟩

/-- The second request is read in pieces. -/
def twoSent : List (Action Nat) :=
  [.send 0 (requestPdu 0) (.wrote 28), .send 1 (requestPdu 1) (.wrote 20),
    .readCb (.got 4) (.got 24) true, .readCb (.got 4) (.got 16) true, .writeCb (.wrote 8),
    .wakeComplete 1, .readCb (.got 4) (.got 8) true]

theorem messages_delivered_twoSent :
    ∃ s, (machine Nat).run {} twoSent = some s ∧ Drained s ∧
      s.receiving.accepted.map Request.parse = [some (twoRequests 0), some (twoRequests 1)] := by
  have run : ((machine Nat).run {} twoSent).map
      (fun s => (s.sending.obtained, decide (Drained s))) =
        some ([(0, requestPdu 0), (1, requestPdu 1)], true) := by
    decide
  rcases Option.map_eq_some_iff.mp run with ⟨s, taken, same⟩
  rcases Prod.mk.inj same with ⟨obtained, empty⟩
  have drained : Drained s := of_decide_eq_true empty
  refine ⟨s, taken, drained, ?_⟩
  have messages := (messages_delivered (Machine.reachable_of_run taken)).1 twoRequests
  rw [obtained] at messages
  apply (messages _).2 drained
  intro i b member
  rcases List.mem_cons.mp member with first | second
  · cases first
    exact twoRequests_sentAs 0 (by decide)
  · cases List.mem_singleton.mp second
    exact twoRequests_sentAs 1 (by decide)

end Connection

end YfsRpc.Rpc
