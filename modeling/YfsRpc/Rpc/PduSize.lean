import YfsRpc.Rpc.Framing
import YfsRpc.Rpc.RoundTrip

/-! # The size of PDUs

`marshall` builds a PDU of any size that its buffer can grow to, and `send` writes it;
`readpdu` on the other end refuses what is larger than `MAX_PDU`. The connection is
taken with calls of `send` for every size, and a PDU is delivered exactly if it is not
larger than that.
-/

namespace YfsRpc.Rpc

/-! ## Building a PDU -/

/-- The values are marshalled and the header is packed, by the caller of `call1` and
`call1` for a request, and by the handler and `dispatch` for a reply. -/
def Header.pdu (header : Header) (values : List Datum) (junk : Nat → UInt8) :
    Option (List UInt8) := do
  let m ← putAll values (Marshall.new junk)
  let m ← header.pack m
  return m.takeBuf.1

/-- The size of the PDU with these values. -/
def pduSize (values : List Datum) : Nat := rpcHeaderSz + (encodeAll values).length

theorem pduSize_string (s : List UInt8) :
    pduSize [⟨.string, s⟩] = rpcHeaderSz + 4 + s.length := by
  change rpcHeaderSz + (Words.bytes32 _ ++ s ++ []).length = _
  rw [List.append_nil, List.length_append, Words.length_bytes32, Nat.add_assoc]

section

variable {header : Header} {values : List Datum} {junk : Nat → UInt8} {b : List UInt8}

/-- What was marshalled into a fresh buffer makes a PDU of its size. -/
theorem Header.pdu_of_putAll {m : Marshall} (done : putAll values (Marshall.new junk) = some m)
    (appended : (Marshall.new junk).Appended (encodeAll values) m) (bounded : m.capa < 2 ^ 31) :
    ∃ b, header.pdu values junk = some b ∧ b.length = pduSize values := by
  rcases header.pack_headerPacked m appended.valid bounded with ⟨packed, packDone, wrote⟩
  refine ⟨packed.takeBuf.1, ?_, ?_⟩
  · simp [Header.pdu, done, packDone]
  · rw [Marshall.takeBuf, Block.length_read, wrote.ind, appended.ind]
    rfl

theorem Header.pdu_of_small (small : pduSize values ≤ maxPdu) :
    ∃ b, header.pdu values junk = some b ∧ b.length = pduSize values := by
  have limit : pduSize values < Marshall.growthLimit := small.trans_lt maxPdu_lt
  rcases putAll_writes values (Marshall.new junk) (Marshall.new_valid junk) limit with
    ⟨m, done, appended⟩
  have tight := appended.valid.bounded
  have ind : m.ind = pduSize values := appended.ind
  rw [Marshall.growthLimit] at limit
  simp only [defaultRpcSz] at tight
  exact header.pdu_of_putAll done appended (by omega)

/-- No other bytes than those of the values come behind the header. -/
theorem Header.length_pdu (fits : pduSize values < 2 ^ 31)
    (built : header.pdu values junk = some b) :
    b.length = pduSize values := by
  rcases Option.bind_eq_some_iff.mp built with ⟨m, done, -⟩
  rcases putAll_appended done (Marshall.new_valid junk) (show defaultRpcSz < 2 ^ 31 by decide)
    fits with ⟨appended, bounded⟩
  rcases header.pdu_of_putAll done appended bounded with ⟨c, again, length⟩
  cases built.symm.trans again
  exact length

end

/-! ## The connection for every size -/

namespace Connection

open YfsRpc.Words

/-- The read neither reaches the end of the stream nor fails. -/
def ReadResult.Succeeds : ReadResult → Prop
  | .got _ => True
  | .eof again | .error again => again = true

section Machine

variable {ι : Type} [DecidableEq ι]

/-- The steps of the sending end, with PDUs of any size that is an `int`. -/
def wideStep (s : Sending ι) : Action ι → Option (Sending ι)
  | .send i b result =>
      if s.senders i = .idle ∧ rpcHeaderSz ≤ b.length ∧ b.length < 2 ^ 31 then
        awaitTurn s i b result
      else
        none
  | action => sendStep s action

def wide (ι : Type) [DecidableEq ι] : Machine (State ι) (Action ι) where
  initial := {}
  step := fun s action => do
    let sending ← wideStep s.sending action
    let receiving ← readStep s.receiving s.sending.stream action
    return { sending, receiving }

theorem wideStep_inv {s next : Sending ι} {action : Action ι} (inv : SendingInv s)
    (done : wideStep s action = some next) : SendingInv next ∧ s.stream <+: next.stream := by
  cases action with
  | send i b result =>
      simp only [wideStep] at done
      split at done
      · next enabled =>
          rcases enabled with ⟨idle, sizes⟩
          exact ⟨inv.awaitTurn (by rw [idle]; rfl) sizes done, awaitTurn_grows done⟩
      · contradiction
  | wakeTurn | wakeComplete | removed | writeCb | readCb | die | peerDie =>
      simp only [wideStep] at done
      exact ⟨sendStep_inv inv done, sendStep_grows done⟩

theorem wide_inv {s : State ι} (reachable : (wide ι).Reachable s) : Inv s := by
  refine reachable.invariant Inv ⟨initial_sendingInv, initial_receivingInv⟩ ?_
  intro state action next _ before done
  rcases Option.bind_eq_some_iff.mp done with ⟨sending, sent, rest⟩
  rcases Option.bind_eq_some_iff.mp rest with ⟨receiving, received, final⟩
  cases final
  rcases wideStep_inv before.sending sent with ⟨inv, grown⟩
  exact ⟨inv, (readStep_inv before.receiving received).grow grown⟩

end Machine

/-! ## Reading the PDU that comes next -/

section Read

variable {stream b : List UInt8} {delivered : Nat} {body : ReadResult}

/-- The unread bytes begin with the PDU. -/
def Ahead (stream : List UInt8) (delivered : Nat) (b : List UInt8) : Prop :=
  delivered ≤ stream.length ∧ wire b <+: stream.drop delivered

/-- `readpdu` finds the size of the PDU in its first four bytes. -/
theorem readpdu_ahead (ahead : Ahead stream delivered b) (long : rpcHeaderSz ≤ b.length)
    (fits : b.length < 2 ^ 31) :
    readpdu {} stream delivered (.got rpcSzT) body =
      if b.length ≤ maxPdu then
        readBody { buf := some ((wire b).take rpcSzT), sz := b.length, solong := rpcSzT } stream
          (delivered + rpcSzT) body
      else
        some (false, {}, delivered + rpcSzT) := by
  have framed := wire_framed long fits
  have length := length_wire long
  rcases ahead with ⟨inside, rest, split⟩
  have room : rpcSzT ≤ (wire b).length := framed.1
  have available : delivered + rpcSzT ≤ stream.length := by
    have whole := congrArg List.length split
    rw [List.length_append, List.length_drop] at whole
    omega
  have front : (stream.drop delivered).take rpcSzT = (wire b).take rpcSzT := by
    rw [← split, List.take_append_of_le_length room]
  have size : (word32 ((wire b).take rpcSzT)).toInt32.toInt = b.length := by
    have enough : 4 ≤ ((wire b).take rpcSzT).length := by rw [List.length_take_of_le room, rpcSzT]
    rw [← word32_append enough ((wire b).drop rpcSzT), List.take_append_drop, framed.2, length]
  have positive : ¬ ((b.length : Int) < rpcSzT ∨ (none : Option (List UInt8)).isSome = true) := by
    simp only [rpcHeaderSz, rpcSzT] at long ⊢
    simp
    omega
  have read : 0 < rpcSzT ∧ rpcSzT ≤ rpcSzT ∧ delivered + rpcSzT ≤ stream.length :=
    ⟨by decide, Nat.le_refl _, available⟩
  simp only [readpdu, if_pos, if_pos read, front, size, ne_eq, not_true_eq_false, if_false]
  by_cases small : b.length ≤ maxPdu
  · have notLarge : ¬ (b.length : Int) > maxPdu := by omega
    rw [if_pos small, if_neg notLarge, if_neg positive, Int.toNat_natCast]
  · have large : (b.length : Int) > maxPdu := by omega
    rw [if_neg small, if_pos large]

theorem readBody_succeeds {rpdu after : Charbuf} {now : Nat} {succ : Bool}
    (succeeds : body.Succeeds)
    (done : readBody rpdu stream delivered body = some (succ, after, now)) :
    succ = true := by
  cases body with
  | got n =>
      simp only [readBody] at done
      split at done
      · cases done
        rfl
      · contradiction
  | eof again | error again =>
      cases succeeds
      cases done
      rfl

/-- Read the rest of the PDU at once. -/
theorem readBody_whole (ahead : Ahead stream delivered b) (long : rpcHeaderSz ≤ b.length) :
    readBody { buf := some ((wire b).take rpcSzT), sz := b.length, solong := rpcSzT } stream
        (delivered + rpcSzT) (.got (b.length - rpcSzT)) =
      some (true, { buf := some (wire b), sz := b.length, solong := b.length },
        delivered + b.length) := by
  have length := length_wire long
  rcases ahead with ⟨inside, rest, split⟩
  have short : rpcSzT < b.length := Nat.lt_of_lt_of_le (by decide) long
  have available : delivered + b.length ≤ stream.length := by
    have whole := congrArg List.length split
    rw [List.length_append, List.length_drop] at whole
    omega
  have behind : (stream.drop (delivered + rpcSzT)).take (b.length - rpcSzT) =
      (wire b).drop rpcSzT := by
    rw [← List.drop_drop, ← split, List.drop_append_of_le_length (by omega)]
    exact List.take_left' (by rw [List.length_drop, length])
  have last : delivered + rpcSzT + (b.length - rpcSzT) = delivered + b.length := by omega
  have solong : (rpcSzT : Int) + (b.length - rpcSzT : Nat) = b.length := by omega
  have enabled : 0 < b.length - rpcSzT ∧ b.length - rpcSzT ≤ b.length - rpcSzT ∧
      delivered + b.length ≤ stream.length := by omega
  simp only [readBody, Int.toNat_natCast, last, if_pos enabled, Option.getD_some, behind,
    List.take_append_drop, solong]

end Read

/-! ## Delivery -/

/-- A `read_cb` that reads the size does not end the connection, and one that also
reads the rest delivers the PDU. -/
structure Passes (r : Receiving) (stream b : List UInt8) : Prop where
  kept : ∀ body accept next, body.Succeeds →
    readCb r stream (.got rpcSzT) body accept = some next → next.dead = false
  delivered : ∃ next, readCb r stream (.got rpcSzT) (.got (b.length - rpcSzT)) true = some next ∧
    next.dead = false ∧ next.accepted = r.accepted ++ [wire b]

/-- The receiving end has accepted this many PDUs and is about to read the next one. -/
structure Between (r : Receiving) (count : Nat) : Prop where
  alive : r.dead = false
  empty : r.rpdu = {}
  accepted : r.accepted.length = count

/-- Once `send` has reported the PDU as sent, it passes when its turn comes, and in its
turn nothing else is accepted. -/
def Delivered (b : List UInt8) : Prop :=
  ∀ s : State Nat, (wide Nat).Reachable s → ∀ i, s.sending.senders i = .returned b true →
    ∃ before after, s.sending.obtained = before ++ (i, b) :: after ∧
      (Between s.receiving before.length → Passes s.receiving s.sending.stream b) ∧
      ∀ frame, s.receiving.accepted[before.length]? = some frame → frame = wire b

variable {b : List UInt8}

theorem passes_of_small {r : Receiving} {stream : List UInt8} (alive : r.dead = false)
    (empty : r.rpdu = {}) (ahead : Ahead stream r.delivered b) (long : rpcHeaderSz ≤ b.length)
    (small : b.length ≤ maxPdu) : Passes r stream b := by
  have fits : b.length < 2 ^ 31 := small.trans_lt (by decide)
  constructor
  · intro body accept next succeeds done
    simp only [readCb, alive, empty, Bool.false_eq_true, if_false, Option.isNone_none,
      Bool.true_or, if_true, readpdu_ahead ahead long fits, if_pos small] at done
    split at done
    · contradiction
    · next succ rpdu now attempt =>
        have succeeded : succ = true := readBody_succeeds succeeds attempt
        subst succeeded
        split at done
        · cases done
          rfl
        · split at done
          · cases done
            rfl
          · cases done
            rfl
  · refine ⟨{ r with
      rpdu := {}
      delivered := r.delivered + b.length
      accepted := r.accepted ++ [wire b] }, ?_, alive, rfl⟩
    simp [readCb, alive, empty, readpdu_ahead ahead long fits, small, readBody_whole ahead long]

/-- Behind the accepted PDUs the stream goes on with the next one. -/
theorem Inv.ahead {ι : Type} {s : State ι} (inv : Inv s) {i : ι}
    {before after : List (ι × List UInt8)}
    (obtained : s.sending.obtained = before ++ (i, b) :: after)
    (written : wires before ++ wire b <+: s.sending.stream)
    (between : Between s.receiving before.length) :
    Ahead s.sending.stream s.receiving.delivered b := by
  have accepted : s.receiving.accepted = before.map fun entry => wire entry.2 := by
    have cut := List.prefix_iff_eq_take.mp inv.accepted_prefix
    rwa [between.accepted, obtained, List.map_append, List.take_left' (List.length_map _)] at cut
  rcases inv.receiving.reading between.alive with ⟨-, read⟩ | ⟨c, reading⟩
  · have inside := inv.receiving.inside
    rw [accepted] at read
    rcases written with ⟨rest, split⟩
    have place : s.receiving.delivered = (wires before).length := by
      have length := congrArg List.length read
      rwa [List.length_take_of_le inside] at length
    refine ⟨inside, rest, ?_⟩
    rw [← split, List.append_assoc, place, List.drop_left]
  · have held := reading.buf
    rw [between.empty] at held
    contradiction

theorem delivered_of_small (small : b.length ≤ maxPdu) : Delivered b := by
  intro s reachable i returned
  have inv := wide_inv reachable
  rcases inv.sending.written i b returned with ⟨before, after, obtained, written⟩
  have long : rpcHeaderSz ≤ b.length := (inv.sending.sizes i b (by rw [returned]; rfl)).1
  refine ⟨before, after, obtained, fun between => ?_, fun frame found => ?_⟩
  · have ahead := inv.ahead obtained written between
    exact passes_of_small between.alive between.empty ahead long small
  · rcases inv.accepted_prefix with ⟨rest, all⟩
    have same : (s.receiving.accepted ++ rest)[before.length]? =
        (s.sending.obtained.map fun entry => wire entry.2)[before.length]? := by rw [all]
    rw [List.getElem?_append_left (List.getElem?_eq_some_iff.mp found).1, found, obtained,
      List.map_append, List.getElem?_append_right (by rw [List.length_map]), List.length_map,
      Nat.sub_self] at same
    exact Option.some.inj same

theorem writepdu_whole (long : rpcHeaderSz ≤ b.length) (stream : List UInt8) :
    writepdu { buf := some b, sz := b.length, solong := 0 } stream (.wrote b.length) =
      some (true, { buf := some (wire b), sz := b.length, solong := b.length },
        stream ++ wire b) := by
  have positive : 0 < b.length := Nat.lt_of_lt_of_le (by decide) long
  have begun : ¬ (0 : Int) = b.length := by omega
  have whole : (wire b).take b.length = wire b :=
    List.take_of_length_le (Nat.le_of_eq (length_wire long))
  have stamped : stamp b.length b = wire b := rfl
  simp [writepdu, begun, stamped, whole]

/-- The transport takes the whole PDU at once, whatever its size. -/
theorem sent_whole (long : rpcHeaderSz ≤ b.length) (fits : b.length < 2 ^ 31) :
    ∃ s, (wide Nat).Reachable s ∧ s.sending.senders 0 = .returned b true ∧
      s.sending.obtained = [(0, b)] ∧ s.sending.stream = wire b ∧ s.receiving = {} := by
  let sent : Sending Nat :=
    { senders := Function.update (fun _ => .idle) 0 (.returned b true)
      obtained := [(0, b)]
      stream := wire b }
  have stepped : wideStep ({} : Sending Nat) (.send 0 b (.wrote b.length)) = some sent := by
    have enabled : rpcHeaderSz ≤ b.length ∧ b.length < 2 ^ 31 := ⟨long, fits⟩
    simp only [wideStep, true_and, if_pos enabled, awaitTurn, obtain, Option.isSome_none,
      Bool.and_false, Bool.false_eq_true, if_false, writepdu_whole long]
    simp [awaitComplete, finish, Sending.goto, sent]
  have taken : (wide Nat).step {} (.send 0 b (.wrote b.length)) = some ⟨sent, {}⟩ := by
    simp only [wide, stepped]
    rfl
  exact ⟨_, Machine.Reachable.initial.step taken, rfl, rfl, rfl, rfl⟩

theorem not_delivered_of_large (fits : b.length < 2 ^ 31) (large : maxPdu < b.length) :
    ¬ Delivered b := by
  intro delivers
  have long : rpcHeaderSz ≤ b.length := (show rpcHeaderSz ≤ maxPdu by decide).trans large.le
  rcases sent_whole long fits with ⟨s, reachable, returned, obtained, stream, received⟩
  rcases delivers s reachable 0 returned with ⟨before, after, order, passes, -⟩
  have first : before = [] := by
    rw [obtained] at order
    cases before with
    | nil => rfl
    | cons entry before => simp at order
  have ahead : Ahead (wire b) 0 b := ⟨Nat.zero_le _, List.prefix_refl _⟩
  rw [first, received, stream] at passes
  rcases (passes ⟨rfl, rfl, rfl⟩).delivered with ⟨next, done, alive, -⟩
  simp only [readCb, Bool.false_eq_true, if_false, Option.isNone_none, Bool.true_or, if_true,
    readpdu_ahead ahead long fits, if_neg (Nat.not_le_of_lt large)] at done
  cases done
  contradiction

end Connection

/-! ## Both ends -/

/-- The PDU is built, and delivered once `send` has reported it as sent. -/
def SizesAgree (junk : Nat → UInt8) (header : Header) (values : List Datum) : Prop :=
  ∃ b, header.pdu values junk = some b ∧ Connection.Delivered b

/-- Both ends agree on a PDU that is not larger than the receiving end allows. -/
theorem sizesAgree_iff (junk : Nat → UInt8) (header : Header) (values : List Datum)
    (fits : pduSize values < 2 ^ 31) :
    SizesAgree junk header values ↔ pduSize values ≤ maxPdu := by
  constructor
  · rintro ⟨b, built, delivered⟩
    have length := Header.length_pdu fits built
    by_contra large
    exact Connection.not_delivered_of_large (by omega) (by omega) delivered
  · intro small
    have possible : ∃ b, header.pdu values junk = some b ∧ b.length = pduSize values :=
      Header.pdu_of_small small
    rcases possible with ⟨b, built, length⟩
    exact ⟨b, built, Connection.delivered_of_small (by omega)⟩

theorem sizesAgree_iff_reply :
    SizesAgree (fun _ => 0) (.reply ⟨7, -1⟩) [⟨.vector .string, [[104, 105], []]⟩] :=
  (sizesAgree_iff _ _ _ (by decide)).mpr (by decide)

/-- A string of ten megabytes is sent, and the receiving end drops the connection. -/
theorem tenMegabytes_disagree :
    pduSize [⟨.string, List.replicate maxPdu (0 : UInt8)⟩] < 2 ^ 31 ∧
      ¬ SizesAgree (fun _ => 0) (.req {}) [⟨.string, List.replicate maxPdu (0 : UInt8)⟩] := by
  have size := pduSize_string (List.replicate maxPdu 0)
  rw [List.length_replicate] at size
  have fits : pduSize [⟨.string, List.replicate maxPdu (0 : UInt8)⟩] < 2 ^ 31 := by
    rw [size]
    decide
  refine ⟨fits, ?_⟩
  rintro ⟨b, built, delivered⟩
  have length := Header.length_pdu fits built
  exact Connection.not_delivered_of_large (by omega) (by omega) delivered

end YfsRpc.Rpc
