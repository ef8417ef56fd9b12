import YfsRpc.Rpc.MarshallBuffer
import YfsRpc.Rpc.Types

/-! # How the marshall buffer grows

Every operation appends chunks: one byte in `rawbyte`, a string in `rawbytes`. A chunk
that does not fit behind the position makes the buffer grow once, and the sizes of the
chunks tell which capacities come up. As long as these stay inside `int`, the chunks are
appended; the first one that needs a larger capacity has no result.
-/

namespace YfsRpc.Rpc

open YfsRpc.Words

namespace Marshall

/-! ## Capacities -/

/-- The capacity after a chunk of `n` bytes. -/
def newCapa (capa ind n : Nat) : Nat :=
  if capa < ind + n then (if n < capa then 2 * capa else capa + n) else capa

/-- If the chunk does not fit, the new capacity is an `int`. -/
def HasRoom (capa ind n : Nat) : Prop :=
  capa < ind + n → if n < capa then capa < 2 ^ 30 else capa + n < 2 ^ 31

instance (capa ind n : Nat) : Decidable (HasRoom capa ind n) :=
  inferInstanceAs (Decidable (_ → _))

/-- The chunks of the given sizes have room, one after the other. -/
def Roomy : (capa ind : Nat) → (sizes : List Nat) → Prop
  | _, _, [] => True
  | capa, ind, n :: sizes => HasRoom capa ind n ∧ Roomy (newCapa capa ind n) (ind + n) sizes

instance decidableRoomy : (capa ind : Nat) → (sizes : List Nat) → Decidable (Roomy capa ind sizes)
  | _, _, [] => .isTrue trivial
  | capa, ind, n :: sizes =>
      have := decidableRoomy (newCapa capa ind n) (ind + n) sizes
      inferInstanceAs (Decidable (_ ∧ _))

/-- The capacity after chunks of the given sizes. -/
def lastCapa : (capa ind : Nat) → (sizes : List Nat) → Nat
  | capa, _, [] => capa
  | capa, ind, n :: sizes => lastCapa (newCapa capa ind n) (ind + n) sizes

section

variable {capa ind n : Nat} {sizes left right : List Nat}

theorem newCapa_of_fits (fits : ind + n ≤ capa) : newCapa capa ind n = capa :=
  if_neg (Nat.not_lt_of_le fits)

theorem hasRoom_of_fits (fits : ind + n ≤ capa) : HasRoom capa ind n :=
  fun full => absurd full (Nat.not_lt_of_le fits)

/-- One step is always enough. -/
theorem le_newCapa (inside : ind ≤ capa) : ind + n ≤ newCapa capa ind n := by
  unfold newCapa
  split
  · split <;> omega
  · omega

theorem newCapa_lt (bounded : capa < 2 ^ 31) (room : HasRoom capa ind n) :
    newCapa capa ind n < 2 ^ 31 := by
  unfold newCapa
  split
  · next full =>
      have fits := room full
      split
      · next doubles =>
          rw [if_pos doubles] at fits
          omega
      · next adds =>
          rw [if_neg adds] at fits
          exact fits
  · exact bounded

theorem newCapa_le (tight : capa ≤ max defaultRpcSz (2 * ind)) :
    newCapa capa ind n ≤ max defaultRpcSz (2 * (ind + n)) := by
  unfold newCapa
  split
  · split <;> omega
  · omega

theorem roomy_append : Roomy capa ind (left ++ right) ↔
    Roomy capa ind left ∧ Roomy (lastCapa capa ind left) (ind + left.sum) right := by
  induction left generalizing capa ind with
  | nil => simp [Roomy, lastCapa]
  | cons n left induction =>
      rw [List.cons_append, Roomy, Roomy, induction, lastCapa, List.sum_cons, and_assoc,
        Nat.add_assoc]

theorem lastCapa_append : lastCapa capa ind (left ++ right) =
    lastCapa (lastCapa capa ind left) (ind + left.sum) right := by
  induction left generalizing capa ind with
  | nil => rfl
  | cons n left induction =>
      rw [List.cons_append, lastCapa, induction, lastCapa, List.sum_cons, Nat.add_assoc]

theorem lastCapa_lt (bounded : capa < 2 ^ 31) (roomy : Roomy capa ind sizes) :
    lastCapa capa ind sizes < 2 ^ 31 := by
  induction sizes generalizing capa ind with
  | nil => exact bounded
  | cons n sizes induction => exact induction (newCapa_lt bounded roomy.1) roomy.2

/-- Up to `growthLimit` every growth has room: before a doubling the capacity is smaller
than the contents, and before an addition it is not larger than the chunk. -/
theorem roomy_of_total (small : ind + sizes.sum ≤ growthLimit) (filled : 0 < ind) :
    Roomy capa ind sizes := by
  induction sizes generalizing capa ind with
  | nil => trivial
  | cons n sizes induction =>
      rw [List.sum_cons, ← Nat.add_assoc] at small
      refine ⟨fun full => ?_, induction small (Nat.add_pos_left filled n)⟩
      rw [growthLimit] at small
      split <;> omega

end

/-! ## Appending chunks -/

/-- The operation appends the chunks exactly if the growth has room. -/
structure Appends (operation : Marshall → Option Marshall) (chunks : List (List UInt8)) : Prop where
  done (m : Marshall) : m.Valid → m.capa < 2 ^ 31 → m.ind + chunks.flatten.length < 2 ^ 31 →
    Roomy m.capa m.ind (chunks.map List.length) →
    ∃ after, operation m = some after ∧ Appended m chunks.flatten after ∧
      after.capa = lastCapa m.capa m.ind (chunks.map List.length)
  stuck (m : Marshall) : m.Valid → m.capa < 2 ^ 31 → m.ind + chunks.flatten.length < 2 ^ 31 →
    ¬ Roomy m.capa m.ind (chunks.map List.length) → operation m = none

variable {operation first second : Marshall → Option Marshall}
  {chunks left right : List (List UInt8)}
  {bytes : List UInt8}

theorem Appends.pure : Appends some [] where
  done m valid _ _ _ := ⟨m, rfl, .refl valid, rfl⟩
  stuck _ _ _ _ full := absurd trivial full

theorem sum_map_length (chunks : List (List UInt8)) :
    (chunks.map List.length).sum = chunks.flatten.length :=
  List.length_flatten.symm

theorem Appends.bind (one : Appends first left) (two : Appends second right) :
    Appends (fun m => (first m).bind second) (left ++ right) where
  done m valid bounded fits roomy := by
    rw [List.flatten_append, List.length_append] at fits
    rw [List.map_append, roomy_append, sum_map_length] at roomy
    rcases one.done m valid bounded (by omega) roomy.1 with ⟨middle, firstDone, wroteLeft, capa⟩
    have small : middle.capa < 2 ^ 31 := capa ▸ lastCapa_lt bounded roomy.1
    rcases two.done middle wroteLeft.valid small (by rw [wroteLeft.ind]; omega)
        (by rw [capa, wroteLeft.ind]; exact roomy.2) with
      ⟨after, secondDone, wroteRight, last⟩
    refine ⟨after, by simp [firstDone, secondDone], ?_, ?_⟩
    · rw [List.flatten_append]
      exact wroteLeft.trans wroteRight
    · rw [List.map_append, lastCapa_append, sum_map_length, last, capa, wroteLeft.ind]
  stuck m valid bounded fits full := by
    rw [List.flatten_append, List.length_append] at fits
    rw [List.map_append, roomy_append, sum_map_length] at full
    by_cases roomy : Roomy m.capa m.ind (left.map List.length)
    · rcases one.done m valid bounded (by omega) roomy with ⟨middle, firstDone, wroteLeft, capa⟩
      have small : middle.capa < 2 ^ 31 := capa ▸ lastCapa_lt bounded roomy
      have nothing := two.stuck middle wroteLeft.valid small (by rw [wroteLeft.ind]; omega)
        (by rw [capa, wroteLeft.ind]; exact fun later => full ⟨roomy, later⟩)
      simp [firstDone, nothing]
    · simp [one.stuck m valid bounded (by omega) roomy]

/-- An operation that has a result has appended its chunks. -/
theorem Appends.of_done {m after : Marshall} (appends : Appends operation chunks)
    (done : operation m = some after) (valid : m.Valid) (bounded : m.capa < 2 ^ 31)
    (fits : m.ind + chunks.flatten.length < 2 ^ 31) :
    Appended m chunks.flatten after ∧ after.capa < 2 ^ 31 := by
  by_cases roomy : Roomy m.capa m.ind (chunks.map List.length)
  · rcases appends.done m valid bounded fits roomy with ⟨found, same, appended, capa⟩
    cases done.symm.trans same
    exact ⟨appended, capa ▸ lastCapa_lt bounded roomy⟩
  · have nothing := appends.stuck m valid bounded fits roomy
    cases done.symm.trans nothing

/-- One chunk: the buffer grows once if there is room, and the chunk is then written
inside of it. -/
theorem Overwrites.appends (overwrites : Overwrites operation bytes)
    (grown : ∀ m : Marshall, m.Valid → m.ind + bytes.length < 2 ^ 31 →
      operation m = if HasRoom m.capa m.ind bytes.length then
        operation (m.grow (newCapa m.capa m.ind bytes.length)) else none) :
    Appends operation [bytes] where
  done m valid bounded fits roomy := by
    rw [List.flatten_singleton] at fits ⊢
    have enough := le_newCapa (n := bytes.length) valid.inside
    rcases overwrites (m.grow (newCapa m.capa m.ind bytes.length)) rfl
        (newCapa_lt bounded roomy.1) enough with
      ⟨after, done, wrote⟩
    refine ⟨after, ?_, wrote.appended valid enough (newCapa_le valid.bounded), wrote.capa⟩
    rw [grown m valid fits, if_pos roomy.1]
    exact done
  stuck m valid bounded fits full := by
    rw [List.flatten_singleton] at fits
    rw [grown m valid fits, if_neg fun room => full ⟨room, trivial⟩]

theorem rawbyte_appends (x : UInt8) : Appends (rawbyte x) [[x]] := by
  apply (rawbyte_overwrites x).appends
  intro m valid fits
  have inside := valid.inside
  have header := valid.header
  rw [List.length_singleton] at fits ⊢
  simp only [rpcHeaderSz, rpcSzT] at header
  by_cases full : m.ind ≥ m.capa
  · have rule : newCapa m.capa m.ind 1 = 2 * m.capa := by
      rw [newCapa, if_pos (by omega), if_pos (by omega)]
    have room : HasRoom m.capa m.ind 1 ↔ 2 * m.capa < 2 ^ 31 := by
      rw [HasRoom, if_pos (by omega)]
      exact ⟨fun grows => by have := grows (by omega); omega, fun small _ => by omega⟩
    simp only [room, rule]
    split
    · next small =>
        have behind : ¬ m.ind ≥ 2 * m.capa := by omega
        simp [rawbyte, full, behind, grow, int?_eq_some small]
    · next large => simp [rawbyte, full, int?_eq_none large]
  · have fits : m.ind + 1 ≤ m.capa := Nat.lt_of_not_le full
    rw [if_pos (hasRoom_of_fits fits), newCapa_of_fits fits, grow_capa valid]

theorem rawbytes_appends (p : List UInt8) : Appends (rawbytes p p.length) [p] := by
  apply (rawbytes_overwrites p).appends
  intro m valid fits
  by_cases full : m.ind + p.length > m.capa
  · have rule : newCapa m.capa m.ind p.length =
        if m.capa > p.length then 2 * m.capa else m.capa + p.length := if_pos full
    have room : HasRoom m.capa m.ind p.length ↔ newCapa m.capa m.ind p.length < 2 ^ 31 := by
      rw [rule, HasRoom]
      simp only [full, forall_const]
      split
      · omega
      · exact Iff.rfl
    simp only [room]
    split
    · next small =>
        have behind : ¬ m.ind + p.length > newCapa m.capa m.ind p.length :=
          Nat.not_lt_of_le (le_newCapa valid.inside)
        simp [rawbytes, full, behind, grow, ← rule, int?_eq_some small, int?_eq_some fits]
    · next large => simp [rawbytes, full, ← rule, int?_eq_some fits, int?_eq_none large]
  · have fits : m.ind + p.length ≤ m.capa := Nat.le_of_not_lt full
    rw [if_pos (hasRoom_of_fits fits), newCapa_of_fits fits, grow_capa valid]

/-! ## The operators -/

/-- The chunks of bytes that are appended one by one. -/
def singles (bytes : List UInt8) : List (List UInt8) := bytes.map fun x => [x]

@[simp] theorem flatten_singles (bytes : List UInt8) : (singles bytes).flatten = bytes := by
  induction bytes with
  | nil => rfl
  | cons x bytes induction => exact congrArg (x :: ·) induction

theorem putUInt_appends (x : UInt32) : Appends (putUInt x) (singles (bytes32 x)) := by
  have low : (x &&& 0xff).toUInt8 = byteAt x 0 := by simp [byteAt]
  unfold putUInt
  rw [low]
  exact (rawbyte_appends _).bind ((rawbyte_appends _).bind
    ((rawbyte_appends _).bind (rawbyte_appends _)))

theorem putUShort_appends (x : UInt16) : Appends (putUShort x) (singles (bytes16 x)) := by
  have low : (x.toUInt32 &&& 0xff).toUInt8 = byteAt x.toUInt32 0 := by simp [byteAt]
  unfold putUShort
  rw [low]
  exact (rawbyte_appends _).bind (rawbyte_appends _)

/-- The size of a string survives the conversion to `int`, since the string fits. -/
theorem rawbytesOfSize_appends (s : List UInt8) : Appends (rawbytesOfSize s) [s] := by
  have same (m : Marshall) (fits : m.ind + s.length < 2 ^ 31) :
      rawbytesOfSize s m = rawbytes s s.length m := by
    have small : s.length % 2 ^ 32 = s.length := Nat.mod_eq_of_lt (by omega)
    change (int? (s.length % 2 ^ 32)).bind (fun n => rawbytes s n m) = _
    rw [small, int?_eq_some (by omega)]
    rfl
  constructor
  · intro m valid bounded fits roomy
    rw [same m (by simpa using fits)]
    exact (rawbytes_appends s).done m valid bounded fits roomy
  · intro m valid bounded fits full
    rw [same m (by simpa using fits)]
    exact (rawbytes_appends s).stuck m valid bounded fits full

theorem putString_appends (s : List UInt8) :
    Appends (putString s) (singles (bytes32 (UInt32.ofNat s.length)) ++ [s]) :=
  (putUInt_appends _).bind (rawbytesOfSize_appends s)

theorem putEach_appends {α : Type} {put : α → Marshall → Option Marshall}
    {chunks : α → List (List UInt8)} (appends : ∀ x, Appends (put x) (chunks x)) (values : List α) :
    Appends (putEach put values) (values.flatMap chunks) := by
  induction values with
  | nil => exact Appends.pure
  | cons x rest induction =>
      rw [List.flatMap_cons]
      exact (appends x).bind induction

/-- Below the limit, where the growth has room, the bytes are appended. -/
theorem Appends.writes (appends : Appends operation chunks) : Writes operation chunks.flatten := by
  intro m valid fits
  have header := valid.header
  have bounded := valid.bounded
  simp only [growthLimit, rpcHeaderSz, rpcSzT, defaultRpcSz] at fits header bounded
  rcases appends.done m valid (by omega) (by omega) (roomy_of_total
      (by rw [sum_map_length, growthLimit]; omega) (by omega)) with ⟨after, done, wrote, -⟩
  exact ⟨after, done, wrote⟩

end Marshall

/-- The chunks that `operator<<` appends for a value. -/
def Ty.chunks : (t : Ty) → t.Val → List (List UInt8)
  | .bool, x => [[Bool.toUInt8 x]]
  | .char, x => [[Int8.toUInt8 x]]
  | .uchar, x => [[x]]
  | .short, x => Marshall.singles (bytes16 (Int16.toUInt16 x))
  | .ushort, x => Marshall.singles (bytes16 x)
  | .int, x => Marshall.singles (bytes32 (Int32.toUInt32 x))
  | .uint, x => Marshall.singles (bytes32 x)
  | .ulonglong, x =>
      Marshall.singles (bytes32 (UInt64.toUInt32 (x >>> (32 : UInt64)))) ++
        Marshall.singles (bytes32 (UInt64.toUInt32 x))
  | .string, s => Marshall.singles (bytes32 (UInt32.ofNat (List.length s))) ++ [s]
  | .vector element, v =>
      Marshall.singles (bytes32 (UInt32.ofNat (List.length v))) ++ List.flatMap element.chunks v
  | .map key value, d =>
      Marshall.singles (bytes32 (UInt32.ofNat (Std.ExtTreeMap.size d))) ++
        (Std.ExtTreeMap.toList d).flatMap fun entry =>
          key.chunks entry.1 ++ value.chunks entry.2

theorem flatten_flatMap {α : Type} {chunks : α → List (List UInt8)} {encode : α → List UInt8}
    (same : ∀ x, (chunks x).flatten = encode x) (values : List α) :
    (values.flatMap chunks).flatten = values.flatMap encode := by
  induction values with
  | nil => rfl
  | cons x rest induction =>
      rw [List.flatMap_cons, List.flatten_append, same, induction, List.flatMap_cons]

/-- The chunks make up the wire format. -/
theorem Ty.flatten_chunks : ∀ (t : Ty) (v : t.Val), (t.chunks v).flatten = t.encode v
  | .bool, _ => rfl
  | .char, _ => rfl
  | .uchar, _ => rfl
  | .short, _ => Marshall.flatten_singles _
  | .ushort, _ => Marshall.flatten_singles _
  | .int, _ => Marshall.flatten_singles _
  | .uint, _ => Marshall.flatten_singles _
  | .ulonglong, _ => by simp [chunks, encode]
  | .string, s => by
      rw [chunks, List.flatten_append, Marshall.flatten_singles, List.flatten_singleton, encode]
  | .vector element, v => by
      rw [chunks, List.flatten_append, Marshall.flatten_singles,
        flatten_flatMap element.flatten_chunks v, encode]
  | .map key value, d => by
      rw [chunks, List.flatten_append, Marshall.flatten_singles, flatten_flatMap, encode]
      intro entry
      rw [List.flatten_append, key.flatten_chunks, value.flatten_chunks]

theorem Ty.put_appends : ∀ (t : Ty) (v : t.Val), Marshall.Appends (t.put v) (t.chunks v)
  | .bool, _ => Marshall.rawbyte_appends _
  | .char, _ => Marshall.rawbyte_appends _
  | .uchar, _ => Marshall.rawbyte_appends _
  | .short, _ => Marshall.putUShort_appends _
  | .ushort, _ => Marshall.putUShort_appends _
  | .int, _ => Marshall.putUInt_appends _
  | .uint, _ => Marshall.putUInt_appends _
  | .ulonglong, _ => (Marshall.putUInt_appends _).bind (Marshall.putUInt_appends _)
  | .string, s => Marshall.putString_appends s
  | .vector element, v =>
      (Marshall.putUInt_appends _).bind (Marshall.putEach_appends element.put_appends v)
  | .map key value, _ =>
      (Marshall.putUInt_appends _).bind (Marshall.putEach_appends
        (fun entry : key.Val × value.Val =>
          (key.put_appends entry.1).bind (value.put_appends entry.2)) _)

theorem putAll_appends (values : List Datum) :
    Marshall.Appends (putAll values) (values.flatMap fun value => value.1.chunks value.2) :=
  Marshall.putEach_appends (fun value => value.1.put_appends value.2) values

theorem flatten_chunksAll (values : List Datum) :
    (values.flatMap fun value => value.1.chunks value.2).flatten = encodeAll values :=
  flatten_flatMap (fun value => value.1.flatten_chunks value.2) values

theorem putAll_writes (values : List Datum) :
    Marshall.Writes (putAll values) (encodeAll values) := by
  rw [← flatten_chunksAll]
  exact (putAll_appends values).writes

/-- Whatever values could be marshalled are in the buffer. -/
theorem putAll_appended {values : List Datum} {m after : Marshall}
    (done : putAll values m = some after) (valid : m.Valid) (bounded : m.capa < 2 ^ 31)
    (fits : m.ind + (encodeAll values).length < 2 ^ 31) :
    m.Appended (encodeAll values) after ∧ after.capa < 2 ^ 31 := by
  rw [← flatten_chunksAll] at fits ⊢
  exact (putAll_appends values).of_done done valid bounded fits

end YfsRpc.Rpc
