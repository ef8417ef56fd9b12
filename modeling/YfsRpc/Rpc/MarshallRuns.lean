import YfsRpc.Rpc.RoundTrip

/-! # Runs of marshall operations

What a `marshall` guarantees after each operation of a run: the position is inside the
buffer, the buffer is as large as `_capa` says, and bytes written earlier stay.
-/

namespace YfsRpc.Rpc

inductive MarshallOp
  | rawbyte (x : UInt8)
  /-- `rawbytes(p, n)`, where `p` holds `n` bytes -/
  | rawbytes (p : List UInt8)
  /-- `operator<<` -/
  | put (value : Datum)
  | packHeader (header : Header)

namespace MarshallOp

def run : MarshallOp → Marshall → Option Marshall
  | rawbyte x => Marshall.rawbyte x
  | rawbytes p => Marshall.rawbytes p p.length
  | put value => value.1.put value.2
  | packHeader header => header.pack

/-- What is appended, and in which chunks. -/
def chunks : MarshallOp → List (List UInt8)
  | rawbyte x => [[x]]
  | rawbytes p => [p]
  | put value => value.1.chunks value.2
  | packHeader _ => []

/-- Where the operation writes. -/
def start (m : Marshall) : MarshallOp → Nat
  | rawbyte _ | rawbytes _ | put _ => m.ind
  | packHeader _ => rpcSzT

/-- What the operation writes. -/
def bytes : MarshallOp → List UInt8
  | rawbyte x => [x]
  | rawbytes p => p
  | put value => value.1.encode value.2
  | packHeader header => header.bytes

end MarshallOp

namespace Marshall

/-- The position is inside the buffer, whose size is an `int`. -/
structure Intact (m : Marshall) : Prop where
  allocated : m.buf.size = m.capa
  inside : m.ind ≤ m.capa
  bounded : m.capa < 2 ^ 31

/-- The operation has written its bytes inside the buffer and kept the others. -/
structure Wrote (before : Marshall) (op : MarshallOp) (after : Marshall) : Prop where
  ind : after.ind = before.ind + op.chunks.flatten.length
  room : op.start before + op.bytes.length ≤ after.capa
  written : after.buf.read (op.start before) op.bytes.length = op.bytes
  kept : ∀ i < before.ind, i < op.start before ∨ op.start before + op.bytes.length ≤ i →
    after.buf.byte i = before.buf.byte i

/-- The operations succeed one after the other, and each of them keeps the buffer. -/
def Keeps : Marshall → List MarshallOp → Prop
  | m, [] => m.Intact
  | m, op :: ops => m.Intact ∧ ∃ after, op.run m = some after ∧ Wrote m op after ∧ Keeps after ops

/-- The sizes of the chunks that the operations append. -/
def chunkSizes (ops : List MarshallOp) : List Nat :=
  ops.flatMap fun op => op.chunks.map List.length

theorem chunkSizes_rawbytes (p : List UInt8) (ops : List MarshallOp) :
    chunkSizes (.rawbytes p :: ops) = p.length :: chunkSizes ops := rfl

variable {m after : Marshall} {op : MarshallOp}

theorem Valid.intact_of_small (valid : m.Valid) (bounded : m.capa < 2 ^ 31) : m.Intact :=
  ⟨valid.allocated.symm, valid.inside, bounded⟩

theorem Appended.wrote (appended : Appended m op.bytes after) (start : op.start m = m.ind)
    (whole : op.chunks.flatten = op.bytes) : Wrote m op after where
  ind := by
    rw [whole]
    exact appended.ind
  room := by
    rw [start, ← appended.ind]
    exact appended.valid.inside
  written := by
    rw [start]
    exact appended.content
  kept i below _ := appended.kept i below

/-- The operation does its part if the chunks have room, and has no result otherwise. -/
structure Follows (op : MarshallOp) : Prop where
  done (m : Marshall) : m.Valid → m.capa < 2 ^ 31 → m.ind + op.chunks.flatten.length < 2 ^ 31 →
    Roomy m.capa m.ind (op.chunks.map List.length) →
    ∃ after, op.run m = some after ∧ after.Valid ∧ Wrote m op after ∧
      after.capa = lastCapa m.capa m.ind (op.chunks.map List.length)
  stuck (m : Marshall) : m.Valid → m.capa < 2 ^ 31 → m.ind + op.chunks.flatten.length < 2 ^ 31 →
    ¬ Roomy m.capa m.ind (op.chunks.map List.length) → op.run m = none

theorem Appends.follows (appends : Appends op.run op.chunks) (whole : op.chunks.flatten = op.bytes)
    (start : ∀ m, op.start m = m.ind) : Follows op where
  done m valid bounded fits roomy := by
    rcases appends.done m valid bounded fits roomy with ⟨after, done, appended, capa⟩
    rw [whole] at appended
    exact ⟨after, done, appended.valid, appended.wrote (start m) whole, capa⟩
  stuck := appends.stuck

theorem follows_op (op : MarshallOp) : Follows op := by
  cases op with
  | rawbyte x =>
      have appends : Appends (MarshallOp.run (.rawbyte x)) _ := rawbyte_appends x
      exact appends.follows rfl fun _ => rfl
  | rawbytes p =>
      have appends : Appends (MarshallOp.run (.rawbytes p)) _ := rawbytes_appends p
      exact appends.follows List.flatten_singleton fun _ => rfl
  | put value =>
      have appends : Appends (MarshallOp.run (.put value)) _ := value.1.put_appends value.2
      exact appends.follows (value.1.flatten_chunks value.2) fun _ => rfl
  | packHeader header =>
      constructor
      · intro m valid bounded _ _
        rcases header.pack_headerPacked m valid bounded with ⟨after, done, packed⟩
        refine ⟨after, done, packed.valid valid, ?_, packed.capa⟩
        exact {
          ind := packed.ind
          room := by
            rw [packed.capa]
            exact header.bytes_fit.trans (valid.header.trans valid.inside)
          written := packed.content
          kept := fun i _ away => packed.outside i away }
      · intro m _ _ _ full
        exact absurd trivial full

theorem keeps_iff_of_valid {ops : List MarshallOp} (valid : m.Valid) (bounded : m.capa < 2 ^ 31)
    (fits : m.ind + (chunkSizes ops).sum < 2 ^ 31) :
    Keeps m ops ↔ Roomy m.capa m.ind (chunkSizes ops) := by
  induction ops generalizing m with
  | nil => exact iff_of_true (valid.intact_of_small bounded) trivial
  | cons op ops induction =>
      have sizes : chunkSizes (op :: ops) = op.chunks.map List.length ++ chunkSizes ops :=
        List.flatMap_cons
      rw [sizes, List.sum_append, sum_map_length] at fits
      rw [sizes, roomy_append, sum_map_length, Keeps]
      by_cases roomy : Roomy m.capa m.ind (op.chunks.map List.length)
      · rcases (follows_op op).done m valid bounded (by omega) roomy with
          ⟨after, done, afterValid, wrote, capa⟩
        have small : after.capa < 2 ^ 31 := capa ▸ lastCapa_lt bounded roomy
        have rest := induction afterValid small (by rw [wrote.ind]; omega)
        rw [capa, wrote.ind] at rest
        rw [← rest]
        constructor
        · rintro ⟨-, next, taken, -, keeps⟩
          cases done.symm.trans taken
          exact ⟨roomy, keeps⟩
        · rintro ⟨-, keeps⟩
          exact ⟨valid.intact_of_small bounded, after, done, wrote, keeps⟩
      · have nothing := (follows_op op).stuck m valid bounded (by omega) roomy
        constructor
        · rintro ⟨-, next, taken, -⟩
          cases nothing.symm.trans taken
        · exact fun both => absurd both.1 roomy

theorem new_capa_lt (junk : Nat → UInt8) : (new junk).capa < 2 ^ 31 :=
  show defaultRpcSz < 2 ^ 31 by decide

/-- A fresh `marshall` keeps its buffer through all operations exactly if each chunk that
does not fit finds a capacity that can grow inside `int`. -/
theorem keeps_iff_roomy (junk : Nat → UInt8) (ops : List MarshallOp)
    (total : rpcHeaderSz + (chunkSizes ops).sum < 2 ^ 31) :
    Keeps (new junk) ops ↔ Roomy defaultRpcSz rpcHeaderSz (chunkSizes ops) :=
  keeps_iff_of_valid (new_valid junk) (new_capa_lt junk) total

/-- Both rules of `rawbytes`, then a header and a value. -/
def grownTwice : List MarshallOp :=
  [.rawbytes (List.replicate 3000 1), .rawbytes (List.replicate 2000 2),
    .packHeader (.reply ⟨7, -1⟩), .put ⟨.int, (7 : Int32)⟩]

theorem keeps_iff_roomy_grownTwice : Keeps (new fun _ => 0) grownTwice := by
  have sizes : chunkSizes grownTwice = [3000, 2000, 1, 1, 1, 1] := by
    rw [grownTwice, chunkSizes_rawbytes, chunkSizes_rawbytes, List.length_replicate,
      List.length_replicate]
    rfl
  refine (keeps_iff_roomy _ _ ?_).mpr ?_
  · rw [sizes]
    decide
  · rw [sizes]
    decide

/-- Up to a total of one gigabyte nothing overflows. -/
theorem keeps_of_total (junk : Nat → UInt8) {ops : List MarshallOp}
    (total : rpcHeaderSz + (chunkSizes ops).sum ≤ growthLimit) : Keeps (new junk) ops := by
  have small : growthLimit < 2 ^ 31 := by decide
  have filled : 0 < rpcHeaderSz := by decide
  exact (keeps_iff_of_valid (new_valid junk) (new_capa_lt junk) (total.trans_lt small)).mpr
    (roomy_of_total total filled)

/-- The sum of capacity and chunk is no `int`, although the contents would fit. -/
theorem longChunk_not_kept :
    rpcHeaderSz + (2 ^ 31 - 1024) < 2 ^ 31 ∧
      ¬ Keeps (new fun _ => 0) [.rawbytes (List.replicate (2 ^ 31 - 1024) 0)] := by
  have total : rpcHeaderSz + (2 ^ 31 - 1024) < 2 ^ 31 := by decide
  have sizes : chunkSizes [.rawbytes (List.replicate (2 ^ 31 - 1024) 0)] = [2 ^ 31 - 1024] := by
    rw [chunkSizes_rawbytes, List.length_replicate]
    exact congrArg _ List.flatMap_nil
  refine ⟨total, ?_⟩
  rw [keeps_iff_of_valid (new_valid _) (new_capa_lt _) (by rw [sizes]; exact total), sizes]
  change ¬ Roomy defaultRpcSz rpcHeaderSz _
  decide

end Marshall

end YfsRpc.Rpc
