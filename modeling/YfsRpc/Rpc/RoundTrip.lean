import YfsRpc.Foundation.Formats
import YfsRpc.Rpc.MarshallGrowth

/-! # Marshalling and unmarshalling are inverse

`Writes` lemmas say that `<<` appends the wire format of a value; `Reads`
lemmas say that `>>` consumes exactly those bytes and returns the value. Both
are proved per operator and combined by induction on the type.
-/

namespace YfsRpc.Rpc

open YfsRpc.Words

/-! ## Decoding -/

/-- Insert the entries one after the other into an empty map. -/
def mapOf {α β : Type} {cmp : α → α → Ordering} [Std.TransCmp cmp] (entries : List (α × β)) :
    Std.ExtTreeMap α β cmp :=
  entries.foldl (fun d entry => d.insert entry.1 entry.2) .empty

/-- A four-byte count followed by that many elements. -/
def Repeated {α : Type} (element : Format UInt8 α) : Format UInt8 (List α) :=
  fun bytes values => ∃ rest, bytes = bytes32 (UInt32.ofNat values.length) ++ rest ∧
    values.length < 2 ^ 32 ∧ Format.Each element rest values

namespace Unmarshall

/-- The object has moved over `count` bytes and is still ok. -/
structure Consumed (before : Unmarshall) (count : Nat) (after : Unmarshall) : Prop where
  buf : after.buf = before.buf
  ind : after.ind = before.ind + count
  ok : after.ok = true

/-- At these bytes the operation returns the value and consumes exactly them. -/
def Reads {α : Type} (operation : StateM Unmarshall α) (bytes : List UInt8) (value : α) : Prop :=
  ∀ (u : Unmarshall) (before rest : List UInt8), u.ok = true →
    u.buf = before ++ (bytes ++ rest) → u.ind = before.length → u.sz < 2 ^ 31 →
    ∃ after, operation u = (value, after) ∧ Consumed u bytes.length after

theorem Reads.pure {α : Type} (value : α) : Reads (Pure.pure value) [] value :=
  fun u _ _ ok _ _ _ => ⟨u, rfl, rfl, rfl, ok⟩

theorem Reads.bind {α β : Type} {first : StateM Unmarshall α} {second : α → StateM Unmarshall β}
    {left right : List UInt8} {x : α} {y : β} (one : Reads first left x)
    (two : Reads (second x) right y) : Reads (first >>= second) (left ++ right) y := by
  intro u before rest ok buf ind small
  rw [List.append_assoc] at buf
  rcases one u before (right ++ rest) ok buf ind small with ⟨middle, firstDone, firstMoved⟩
  rcases two middle (before ++ left) rest firstMoved.ok
      (by rw [firstMoved.buf, buf, List.append_assoc])
      (by rw [firstMoved.ind, ind, List.length_append])
      (by rw [sz, firstMoved.buf]; exact small) with ⟨after, secondDone, secondMoved⟩
  refine ⟨after, ?_, secondMoved.buf.trans firstMoved.buf, ?_, secondMoved.ok⟩
  · change second (first u).1 (first u).2 = _
    rw [firstDone]
    exact secondDone
  · rw [secondMoved.ind, firstMoved.ind, List.length_append]
    omega

/-- The last operation of a sequence consumes what is left of the bytes. -/
theorem Reads.bind_pure {α β : Type} {first : StateM Unmarshall α} {result : α → β}
    {bytes : List UInt8} {x : α} {y : β} (one : Reads first bytes x) (value : result x = y) :
    Reads (first >>= fun value => Pure.pure (result value)) bytes y := by
  subst value
  have both := @Reads.bind α β first (fun value => Pure.pure (result value)) bytes [] x
    (result x) one (Reads.pure (result x))
  rwa [List.append_nil] at both

theorem rawbyte_reads (c : UInt8) : Reads rawbyte [c] (signExtend c) := by
  intro u before rest ok buf ind small
  have inside : ¬ u.ind ≥ u.sz := by
    simp [sz, buf, ind]
  have found : u.buf.getD u.ind 0 = c := by
    simp [buf, ind]
  refine ⟨{ u with
    ind := u.ind + 1
    log := u.log ++ [⟨u.ind, 1, 1, [c], u.ok⟩] }, ?_, rfl, rfl, ok⟩
  simp only [rawbyte, if_neg inside, found]

/-- An operation that reads a whole content leaves it done. -/
theorem Reads.takeContent {α : Type} {operation : StateM Unmarshall α} {bytes : List UInt8}
    {value : α} (reads : Reads operation bytes value) (junk : Nat → UInt8)
    (small : rpcHeaderSz + bytes.length < 2 ^ 31) :
    ∃ after, operation (.takeContent junk bytes) = (value, after) ∧ after.okdone = true := by
  let u := Unmarshall.takeContent junk bytes
  have size : u.sz = rpcHeaderSz + bytes.length := by
    simp [u, sz, Unmarshall.takeContent]
  rcases reads u ((List.range rpcHeaderSz).map junk) [] rfl
      (by rw [List.append_nil]; rfl) (by simp [u, Unmarshall.takeContent])
      (by rw [size]; exact small) with ⟨after, done, consumed⟩
  have same : after.sz = u.sz := congrArg List.length consumed.buf
  have moved : after.ind = rpcHeaderSz + bytes.length := consumed.ind
  refine ⟨after, done, ?_⟩
  simp [okdone, consumed.ok, same, moved, size]

/-- A leading `rawbyte` consumes one byte. -/
theorem Reads.rawbyte_bind {α : Type} {second : UInt32 → StateM Unmarshall α} {c : UInt8}
    {rest : List UInt8} {y : α} (tail : Reads (second (signExtend c)) rest y) :
    Reads (rawbyte >>= second) (c :: rest) y :=
  (rawbyte_reads c).bind tail

/-- A final `rawbyte`, whose byte completes the value. -/
theorem Reads.rawbyte_pure {α : Type} {result : UInt32 → α} {c : UInt8} {y : α}
    (value : result (signExtend c) = y) :
    Reads (rawbyte >>= fun byte => Pure.pure (result byte)) [c] y :=
  (rawbyte_reads c).bind_pure value

theorem getUInt_reads (x : UInt32) : Reads getUInt (bytes32 x) x := by
  refine .rawbyte_bind (.rawbyte_bind (.rawbyte_bind (.rawbyte_pure ?_)))
  simp only [signExtend_and_255]
  exact join32_byteAt x

theorem getInt_reads (x : Int32) : Reads getInt (bytes32 x.toUInt32) x := by
  refine .rawbyte_bind (.rawbyte_bind (.rawbyte_bind (.rawbyte_pure ?_)))
  simp only [signExtend_and_255, UInt32.toUInt32_toInt32]
  exact (congrArg UInt32.toInt32 (join32_byteAt x.toUInt32)).trans (Int32.toInt32_toUInt32 x)

theorem unpack_reads (x : Int32) : Reads unpack (bytes32 x.toUInt32) x :=
  getInt_reads x

theorem getUShort_reads (x : UInt16) : Reads getUShort (bytes16 x) x := by
  refine .rawbyte_bind (.rawbyte_pure ?_)
  simp only [signExtend_and_255]
  exact (join16_of_unsigned _ _).trans (join16_byteAt x)

theorem getShort_reads (x : Int16) : Reads getShort (bytes16 x.toUInt16) x := by
  refine .rawbyte_bind (.rawbyte_pure ?_)
  simp only [signExtend_and_255]
  exact (congrArg UInt16.toInt16 ((join16_of_signed _ _).trans
    (join16_byteAt x.toUInt16))).trans (Int16.toInt16_toUInt16 x)

theorem getULongLong_reads (x : UInt64) :
    Reads getULongLong (bytes32 (x >>> 32).toUInt32 ++ bytes32 x.toUInt32) x :=
  (getUInt_reads _).bind ((getUInt_reads _).bind_pure (join64_halves x))

theorem getUChar_reads (x : UInt8) : Reads getUChar [x] x :=
  .rawbyte_pure (toUInt8_signExtend x)

theorem getChar_reads (x : Int8) : Reads getChar [x.toUInt8] x :=
  .rawbyte_pure ((congrArg UInt8.toInt8 (toUInt8_signExtend x.toUInt8)).trans
    (Int8.toInt8_toUInt8 x))

theorem getBool_reads (x : Bool) : Reads getBool [x.toUInt8] x := by
  refine .rawbyte_pure ?_
  cases x <;> rfl

/-- The bounds test passes when the string is inside the buffer. -/
theorem rawbytes_reads (old s : List UInt8) (n : UInt32) (length : n.toNat = s.length) :
    Reads (rawbytes old n) s s := by
  intro u before rest ok buf ind small
  have size : u.sz = before.length + (s.length + rest.length) := by simp [sz, buf]
  have noWrap : (u.ind + n.toNat) % 2 ^ 32 = u.ind + s.length := by
    rw [length]
    exact Nat.mod_eq_of_lt (by omega)
  have inside : ¬ u.ind + s.length > u.sz := by omega
  have found : (u.buf.drop u.ind).take n.toNat = s := by
    simp [buf, ind, length]
  refine ⟨{ u with
    ind := u.ind + s.length
    log := u.log ++ [⟨u.ind, n.toNat, n.toNat, s, u.ok⟩] }, ?_, rfl, rfl, ok⟩
  simp only [rawbytes, noWrap, if_neg inside, found]

theorem getString_reads (old s : List UInt8) (small : s.length < 2 ^ 32) :
    Reads (getString old) (bytes32 (UInt32.ofNat s.length) ++ s) s := by
  refine (getUInt_reads _).bind ?_
  intro u before rest ok buf ind fits
  have length : (UInt32.ofNat s.length).toNat = s.length := by
    rw [UInt32.toNat_ofNat']
    exact Nat.mod_eq_of_lt small
  rcases rawbytes_reads old s _ length u before rest ok buf ind fits with ⟨after, done, moved⟩
  refine ⟨after, ?_, moved⟩
  change (if u.ok then rawbytes old (UInt32.ofNat s.length) else Pure.pure old) u = _
  rw [if_pos ok]
  exact done

/-- Only bytes that fit in the buffer have to be read back. -/
theorem Reads.of_small {α : Type} {operation : StateM Unmarshall α} {bytes : List UInt8}
    {value : α} (reads : bytes.length < 2 ^ 31 → Reads operation bytes value) :
    Reads operation bytes value := by
  intro u before rest ok buf ind small
  have inside : bytes.length ≤ u.sz := by
    rw [sz, buf, List.length_append, List.length_append]
    omega
  exact reads (Nat.lt_of_le_of_lt inside small) u before rest ok buf ind small

/-! ### Containers -/

theorem map_apply {α β : Type} (f : α → β) (operation : StateM Unmarshall α) (u : Unmarshall) :
    (f <$> operation) u = (f (operation u).1, (operation u).2) :=
  rfl

theorem bind_apply {α β : Type} (first : StateM Unmarshall α) (second : α → StateM Unmarshall β)
    (u : Unmarshall) : (first >>= second) u = second (first u).1 (first u).2 :=
  rfl

/-- One entry of a map. -/
def getEntry {α β : Type} (getKey : α → StateM Unmarshall α) (getValue : β → StateM Unmarshall β)
    (z : α × β) : StateM Unmarshall (α × β) := do
  let key ← getKey z.1
  let value ← getValue z.2
  return (key, value)

theorem pushEach_eq_map {α : Type} (get : α → StateM Unmarshall α) (z : α) (n : Nat) (v : List α) :
    pushEach get z n v = (v ++ ·) <$> pushEach get z n [] := by
  induction n generalizing v with
  | zero =>
      funext u
      change (v, u) = (v ++ [], u)
      rw [List.append_nil]
  | succ n induction =>
      funext u
      change pushEach get z n (v ++ [(get z u).1]) (get z u).2 =
        ((v ++ ·) <$> pushEach get z n ([] ++ [(get z u).1])) (get z u).2
      rw [induction (v ++ _), induction ([] ++ _)]
      simp only [Functor.map_map, List.append_assoc, List.nil_append]

/-- The map operator decodes its entries like a vector and inserts them. -/
theorem insertEach_eq_map {α β : Type} {cmp : α → α → Ordering} [Std.TransCmp cmp]
    (getKey : α → StateM Unmarshall α) (a : α) (getValue : β → StateM Unmarshall β) (b : β)
    (n : Nat) (d : Std.ExtTreeMap α β cmp) :
    insertEach getKey a getValue b n d =
      (fun entries => entries.foldl (fun d entry => d.insert entry.1 entry.2) d) <$>
        pushEach (getEntry getKey getValue) (a, b) n [] := by
  induction n generalizing d with
  | zero => rfl
  | succ n induction =>
      funext u
      let entry := getEntry getKey getValue (a, b) u
      change insertEach getKey a getValue b n (d.insert entry.1.1 entry.1.2) entry.2 =
        ((fun entries => entries.foldl (fun d entry => d.insert entry.1 entry.2) d) <$>
          pushEach (getEntry getKey getValue) (a, b) n ([] ++ [entry.1])) entry.2
      rw [induction, pushEach_eq_map _ _ n ([] ++ _), Functor.map_map]
      rfl

/-- The decoded elements come behind the old ones. -/
theorem getVector_eq_map {α : Type} (get : α → StateM Unmarshall α) (z : α) (v : List α) :
    getVector get z v = (v ++ ·) <$> getVector get z [] := by
  unfold getVector
  rw [map_bind]
  congr
  funext n
  exact pushEach_eq_map get z n.toNat v

theorem getMap_eq_map {α β : Type} {cmp : α → α → Ordering} [Std.TransCmp cmp]
    (getKey : α → StateM Unmarshall α) (a : α) (getValue : β → StateM Unmarshall β) (b : β)
    (d : Std.ExtTreeMap α β cmp) :
    getMap getKey a getValue b d =
      mapOf <$> getVector (getEntry getKey getValue) (a, b) [] := by
  unfold getMap getVector
  rw [map_bind]
  congr
  funext n
  exact insertEach_eq_map getKey a getValue b n.toNat .empty

theorem Reads.map {α β : Type} {operation : StateM Unmarshall α} {bytes : List UInt8} {x : α}
    (reads : Reads operation bytes x) (f : α → β) : Reads (f <$> operation) bytes (f x) := by
  intro u before rest ok buf ind small
  obtain ⟨after, done, moved⟩ := reads u before rest ok buf ind small
  refine ⟨after, ?_, moved⟩
  change (f (operation u).1, (operation u).2) = _
  rw [done]

theorem pushEach_reads {α : Type} {get : α → StateM Unmarshall α} {z : α}
    {format : Format UInt8 α} (reads : ∀ bytes x, format bytes x → Reads (get z) bytes x)
    {bytes : List UInt8} {values : List α} (each : Format.Each format bytes values) :
    Reads (pushEach get z values.length []) bytes values := by
  induction each with
  | nil => exact Reads.pure []
  | @cons front back x rest head tail induction =>
      have loop := induction.map ([x] ++ ·)
      rw [← pushEach_eq_map] at loop
      exact (reads front x head).bind loop

/-- Decoding a count and the elements it announces. -/
theorem getVector_reads {α : Type} {get : α → StateM Unmarshall α} {z : α}
    (format : Format UInt8 α) (reads : ∀ bytes x, format bytes x → Reads (get z) bytes x)
    {bytes : List UInt8} {values : List α} (counted : Repeated format bytes values) :
    Reads (getVector get z []) bytes values := by
  obtain ⟨rest, rfl, fits, each⟩ := counted
  refine (getUInt_reads _).bind ?_
  rw [UInt32.toNat_ofNat', Nat.mod_eq_of_lt fits]
  exact pushEach_reads reads each

end Unmarshall

/-! ## Rebuilding a map from its entries -/

/-- Inserting entries with distinct keys one by one adds exactly those entries. -/
theorem getElem?_foldl_insert {α β : Type} {cmp : α → α → Ordering} [Std.TransCmp cmp]
    [Std.LawfulEqCmp cmp] (k : α) (v : β) :
    ∀ (entries : List (α × β)) (d : Std.ExtTreeMap α β cmp),
      entries.Pairwise (fun left right => ¬ cmp left.1 right.1 = .eq) →
      ((entries.foldl (fun d entry => d.insert entry.1 entry.2) d)[k]? = some v ↔
        (k, v) ∈ entries ∨ (d[k]? = some v ∧ ∀ entry ∈ entries, entry.1 ≠ k))
  | [], d, _ => by simp
  | (key, value) :: rest, d, distinct => by
      rcases List.pairwise_cons.mp distinct with ⟨fresh, distinctRest⟩
      rw [List.foldl_cons,
        getElem?_foldl_insert k v rest (d.insert key value) distinctRest,
        Std.ExtTreeMap.getElem?_insert]
      by_cases same : key = k
      · subst same
        have absent : ∀ w, (key, w) ∉ rest := by
          intro w found
          exact fresh _ found (Std.ReflCmp.compare_self)
        have away : ∀ entry ∈ rest, entry.1 ≠ key := by
          rintro ⟨other, w⟩ found rfl
          exact absent w found
        simp [Std.ReflCmp.compare_self, absent, eq_comm]
        exact fun _ other w found => Ne.symm (away (other, w) found)
      · have differs : ¬ cmp key k = .eq := fun equal =>
          same (Std.LawfulEqCmp.eq_of_compare equal)
        simp [differs, same, Ne.symm same]

theorem foldl_insert_toList {α β : Type} {cmp : α → α → Ordering} [Std.TransCmp cmp]
    [Std.LawfulEqCmp cmp] (d : Std.ExtTreeMap α β cmp) :
    d.toList.foldl (fun d entry => d.insert entry.1 entry.2)
      (Std.ExtTreeMap.empty : Std.ExtTreeMap α β cmp) = d := by
  apply Std.ExtTreeMap.ext_getElem?
  intro k
  apply Option.ext
  intro v
  rw [getElem?_foldl_insert k v d.toList _ Std.ExtTreeMap.distinct_keys_toList,
    Std.ExtTreeMap.mem_toList_iff_getElem?_eq_some]
  simp

/-! ## The wire format of every type -/

theorem length_bytes32_append (x : UInt32) (bytes : List UInt8) :
    (bytes32 x ++ bytes).length = 4 + bytes.length := by
  rw [List.length_append]
  rfl

theorem Ty.encode_pos (t : Ty) (v : t.Val) : 0 < (t.encode v).length := by
  cases t with
  | bool | char | uchar => exact Nat.zero_lt_one
  | short | ushort => exact Nat.zero_lt_two
  | int | uint => exact Nat.zero_lt_of_lt (show 3 < 4 by decide)
  | ulonglong | string | vector | map =>
      unfold Ty.encode
      rw [length_bytes32_append]
      omega

/-- A list is no longer than the encoding of its elements. -/
theorem length_le_flatMap {α : Type} {encode : α → List UInt8}
    (positive : ∀ x, 0 < (encode x).length) (values : List α) :
    values.length ≤ (values.flatMap encode).length := by
  induction values with
  | nil => simp
  | cons x rest induction =>
      have head := positive x
      simp only [List.flatMap_cons, List.length_cons, List.length_append]
      omega

/-- A counted encoding that fits in a buffer has a count that fits in its prefix. -/
theorem count_fits {count : Nat} {x : UInt32} {bytes : List UInt8}
    (small : (bytes32 x ++ bytes).length < 2 ^ 31) (bound : count ≤ bytes.length) :
    count < 2 ^ 32 := by
  rw [length_bytes32_append] at small
  omega

/-- Decoding into a default-constructed target gives back the encoded value. -/
theorem Ty.get_reads : ∀ (t : Ty) (v : t.Val),
    Unmarshall.Reads (t.get t.default) (t.encode v) v
  | .bool, x => Unmarshall.getBool_reads x
  | .char, x => Unmarshall.getChar_reads x
  | .uchar, x => Unmarshall.getUChar_reads x
  | .short, x => Unmarshall.getShort_reads x
  | .ushort, x => Unmarshall.getUShort_reads x
  | .int, x => Unmarshall.getInt_reads x
  | .uint, x => Unmarshall.getUInt_reads x
  | .ulonglong, x => Unmarshall.getULongLong_reads x
  | .string, s => Unmarshall.Reads.of_small fun small =>
      Unmarshall.getString_reads _ s (count_fits small (Nat.le_refl _))
  | .vector element, v => Unmarshall.Reads.of_small fun small =>
      Unmarshall.getVector_reads (.encoded element.encode)
        (fun _ x same => same ▸ element.get_reads x)
        ⟨_, rfl, count_fits small (length_le_flatMap element.encode_pos v),
          Format.Each.encoded_iff.mpr rfl⟩
  | .map key value, d => by
      refine Unmarshall.Reads.of_small fun small => ?_
      let encode (entry : key.Val × value.Val) := key.encode entry.1 ++ value.encode entry.2
      have positive (entry : key.Val × value.Val) : 0 < (encode entry).length := by
        rw [List.length_append]
        exact Nat.add_pos_left (key.encode_pos entry.1) _
      have fits := count_fits small (length_le_flatMap positive (Std.ExtTreeMap.toList d))
      have reads (bytes : List UInt8) (entry : key.Val × value.Val)
          (same : Format.encoded encode bytes entry) :
          Unmarshall.Reads (Unmarshall.getEntry key.get value.get (key.default, value.default))
            bytes entry :=
        same ▸ (key.get_reads entry.1).bind ((value.get_reads entry.2).bind_pure rfl)
      have entries := Unmarshall.getVector_reads _ reads
        ⟨_, rfl, fits, Format.Each.encoded_iff.mpr rfl⟩
      have all := entries.map (@mapOf _ _ key.denote.cmp _)
      rw [← Unmarshall.getMap_eq_map _ _ _ _ .empty, Std.ExtTreeMap.length_toList, mapOf,
        foldl_insert_toList] at all
      exact all

/-- The default-constructed targets for a list of values. -/
def defaultTargets (values : List Datum) : List Datum :=
  values.map fun value => ⟨value.1, value.1.default⟩

theorem getAll_reads : ∀ values : List Datum,
    Unmarshall.Reads (getAll (defaultTargets values)) (encodeAll values) values
  | [] => Unmarshall.Reads.pure []
  | ⟨t, v⟩ :: rest => (t.get_reads v).bind ((getAll_reads rest).bind_pure rfl)

/-! ## Headers -/

/-- A request header or a reply header. -/
inductive Header
  | req (h : ReqHeader)
  | reply (h : ReplyHeader)
  deriving DecidableEq, Repr

namespace Header

def pack : Header → Marshall → Option Marshall
  | .req h => Marshall.packReqHeader h
  | .reply h => Marshall.packReplyHeader h

/-- Unpack a header of the same kind. -/
def unpackLike : Header → StateM Unmarshall Header
  | .req _ => do return .req (← Unmarshall.unpackReqHeader)
  | .reply _ => do return .reply (← Unmarshall.unpackReplyHeader)

def bytes : Header → List UInt8
  | .req h => Marshall.reqHeaderBytes h
  | .reply h => Marshall.replyHeaderBytes h

theorem bytes_fit (header : Header) : rpcSzT + header.bytes.length ≤ rpcHeaderSz := by
  cases header with
  | req | reply => exact Nat.le_of_ble_eq_true rfl

theorem pack_headerPacked (header : Header) (m : Marshall) (valid : m.Valid)
    (small : m.capa < 2 ^ 31) :
    ∃ after, header.pack m = some after ∧ m.HeaderPacked header.bytes after := by
  have room : rpcHeaderSz ≤ m.capa := Nat.le_trans valid.header valid.inside
  cases header with
  | req h => exact Marshall.packReqHeader_headerPacked h m valid.allocated small room
  | reply h => exact Marshall.packReplyHeader_headerPacked h m valid.allocated small room

end Header

namespace Unmarshall

/-- Reading header fields between the two moves of the index. -/
theorem Reads.between_seeks {α : Type} {fields : StateM Unmarshall α} {bytes : List UInt8}
    {value : α} (reads : Reads fields bytes value) {u : Unmarshall} {size rest : List UInt8}
    (ok : u.ok = true) (buf : u.buf = size ++ (bytes ++ rest)) (channel : size.length = rpcSzT)
    (small : u.sz < 2 ^ 31) :
    ∃ after, (do seek rpcSzT; let h ← fields; seek rpcHeaderSz; return h) u = (value, after) ∧
      after.buf = u.buf ∧ after.ind = rpcHeaderSz ∧ after.ok = true := by
  rcases reads { u with ind := rpcSzT } size rest ok buf channel.symm small with
    ⟨moved, done, consumed⟩
  refine ⟨{ moved with ind := rpcHeaderSz }, ?_, consumed.buf, rfl, consumed.ok⟩
  change (fun pair : α × Unmarshall => (pair.1, { pair.2 with ind := rpcHeaderSz }))
    (fields { u with ind := rpcSzT }) = _
  rw [done]

theorem unpackNonce_reads (x : UInt32) : Reads unpack (bytes32 x) x.toInt32 := by
  simpa using unpack_reads x.toInt32

/-- The reads of the request header between the two moves of the index. -/
def reqFields : StateM Unmarshall ReqHeader := do
  let xid ← unpack
  let proc ← unpack
  let cltNonce ← unpack
  let srvNonce ← unpack
  let xidRep ← unpack
  return { xid, proc, cltNonce := cltNonce.toUInt32, srvNonce := srvNonce.toUInt32, xidRep }

def replyFields : StateM Unmarshall ReplyHeader := do
  let xid ← unpack
  let ret ← unpack
  return { xid, ret }

theorem unpackReqHeader_eq :
    unpackReqHeader = (do seek rpcSzT; let h ← reqFields; seek rpcHeaderSz; return h) := by
  simp only [unpackReqHeader, reqFields, bind_assoc, pure_bind]

theorem unpackReplyHeader_eq :
    unpackReplyHeader = (do seek rpcSzT; let h ← replyFields; seek rpcHeaderSz; return h) := by
  simp only [unpackReplyHeader, replyFields, bind_assoc, pure_bind]

theorem map_eq {α β : Type} {operation : StateM Unmarshall α} {u after : Unmarshall} {x : α}
    (done : operation u = (x, after)) (f : α → β) :
    (do return f (← operation)) u = (f x, after) := by
  change (f (operation u).1, (operation u).2) = _
  rw [done]

theorem reqFields_reads (h : ReqHeader) : Reads reqFields (Marshall.reqHeaderBytes h) h := by
  refine (unpack_reads h.xid).bind ((unpack_reads h.proc).bind ?_)
  refine (unpackNonce_reads h.cltNonce).bind ((unpackNonce_reads h.srvNonce).bind ?_)
  refine (unpack_reads h.xidRep).bind_pure ?_
  rw [UInt32.toUInt32_toInt32, UInt32.toUInt32_toInt32]

theorem replyFields_reads (h : ReplyHeader) :
    Reads replyFields (Marshall.replyHeaderBytes h) h :=
  (unpack_reads h.xid).bind ((unpack_reads h.ret).bind_pure rfl)

end Unmarshall

/-- Unpacking returns the header packed in the buffer and moves behind it. -/
theorem Header.unpackLike_spec (header : Header) {u : Unmarshall} {size rest : List UInt8}
    (ok : u.ok = true) (buf : u.buf = size ++ (header.bytes ++ rest))
    (channel : size.length = rpcSzT) (small : u.sz < 2 ^ 31) :
    ∃ after, header.unpackLike u = (header, after) ∧
      after.buf = u.buf ∧ after.ind = rpcHeaderSz ∧ after.ok = true := by
  cases header with
  | req h =>
      rcases (Unmarshall.reqFields_reads h).between_seeks ok buf channel small with
        ⟨after, done, moved⟩
      rw [← Unmarshall.unpackReqHeader_eq] at done
      exact ⟨after, Unmarshall.map_eq done Header.req, moved⟩
  | reply h =>
      rcases (Unmarshall.replyFields_reads h).between_seeks ok buf channel small with
        ⟨after, done, moved⟩
      rw [← Unmarshall.unpackReplyHeader_eq] at done
      exact ⟨after, Unmarshall.map_eq done Header.reply, moved⟩

/-! ## The round trip -/

theorem maxPdu_lt : maxPdu < Marshall.growthLimit := by decide

/-- What a finished PDU looks like: four bytes for the channel, the header, the
unused part of the header area and the encoded values. -/
theorem packedPdu_eq {header : Header} {m : Marshall} {values : List Datum}
    (content : m.buf.read rpcSzT header.bytes.length = header.bytes)
    (payload : m.buf.read rpcHeaderSz (encodeAll values).length = encodeAll values)
    (ind : m.ind = rpcHeaderSz + (encodeAll values).length) :
    ∃ unused, m.takeBuf.1 = m.buf.read 0 rpcSzT ++ (header.bytes ++ (unused ++ encodeAll values)) ∧
      rpcSzT + header.bytes.length + unused.length = rpcHeaderSz := by
  have fit := header.bytes_fit
  let free := rpcHeaderSz - (rpcSzT + header.bytes.length)
  have split : rpcHeaderSz = rpcSzT + (header.bytes.length + free) := by omega
  refine ⟨m.buf.read (rpcSzT + header.bytes.length) free, ?_, ?_⟩
  · calc
      m.takeBuf.1 = m.buf.read 0 (rpcHeaderSz + (encodeAll values).length) := by
        rw [Marshall.takeBuf, ind]
      _ = m.buf.read 0 rpcHeaderSz ++ encodeAll values := by
        rw [Block.read_add, Nat.zero_add, payload]
      _ = _ := by
        rw [split, Block.read_add, Block.read_add, Nat.zero_add, content]
        simp only [List.append_assoc]
  · rw [Block.length_read]
    omega

/-- Values marshalled in two groups around the packing of a header, and then
unmarshalled behind the unpacked header into default-constructed targets, come
back unchanged and leave nothing over. -/
theorem marshall_roundTrip (junk : Nat → UInt8) (header : Header) (front back : List Datum)
    (small : rpcHeaderSz + (encodeAll (front ++ back)).length ≤ maxPdu) :
    ∃ before packed full,
      putAll front (Marshall.new junk) = some before ∧
      header.pack before = some packed ∧
      packed.size = before.size ∧
      (∀ i, rpcHeaderSz ≤ i → packed.buf.byte i = before.buf.byte i) ∧
      putAll back packed = some full ∧
      full.size = rpcHeaderSz + (encodeAll (front ++ back)).length ∧
      ∃ u after,
        header.unpackLike (Unmarshall.new full.takeBuf.1) = (header, u) ∧
        getAll (defaultTargets (front ++ back)) u = (front ++ back, after) ∧
        after.okdone = true := by
  have limit := maxPdu_lt
  have encodeAll_append : encodeAll (front ++ back) = encodeAll front ++ encodeAll back :=
    List.flatMap_append
  rw [encodeAll_append, List.length_append] at small
  rcases putAll_writes front (Marshall.new junk) (Marshall.new_valid junk)
      (show rpcHeaderSz + _ < Marshall.growthLimit by omega) with
    ⟨before, frontDone, frontWrote⟩
  have beforeInd : before.ind = rpcHeaderSz + (encodeAll front).length := frontWrote.ind
  have bounded : before.capa < 2 ^ 31 := by
    have tight := frontWrote.valid.bounded
    rw [beforeInd] at tight
    rw [Marshall.growthLimit] at limit
    simp only [defaultRpcSz] at tight
    omega
  rcases header.pack_headerPacked before frontWrote.valid bounded with ⟨packed, packDone, wrote⟩
  rcases putAll_writes back packed (wrote.valid frontWrote.valid)
      (by rw [wrote.ind, beforeInd]; omega) with
    ⟨full, backDone, backWrote⟩
  have keptFront : full.buf.read rpcHeaderSz (encodeAll front).length = encodeAll front := by
    refine (Block.read_congr fun i above below => ?_).trans frontWrote.content
    rw [backWrote.kept i (by rw [wrote.ind, beforeInd]; exact below)]
    exact wrote.outside i (Or.inr (Nat.le_trans header.bytes_fit above))
  have wroteBack : full.buf.read (rpcHeaderSz + (encodeAll front).length)
      (encodeAll back).length = encodeAll back := by
    rw [← beforeInd, ← wrote.ind]
    exact backWrote.content
  have payload : full.buf.read rpcHeaderSz (encodeAll (front ++ back)).length =
      encodeAll (front ++ back) := by
    rw [encodeAll_append, List.length_append, Block.read_add, keptFront, wroteBack]
  have content : full.buf.read rpcSzT header.bytes.length = header.bytes := by
    refine (Block.read_congr fun i above below => backWrote.kept i ?_).trans wrote.content
    have fit := header.bytes_fit
    rw [wrote.ind, beforeInd]
    omega
  have ind : full.ind = rpcHeaderSz + (encodeAll (front ++ back)).length := by
    rw [backWrote.ind, wrote.ind, beforeInd, encodeAll_append, List.length_append,
      Nat.add_assoc]
  refine ⟨before, packed, full, frontDone, packDone, wrote.ind, ?_, backDone, ind, ?_⟩
  · exact fun i above => wrote.outside i (Or.inr (Nat.le_trans header.bytes_fit above))
  · rcases packedPdu_eq content payload ind with ⟨unused, pdu, area⟩
    have sz : full.takeBuf.1.length < 2 ^ 31 := by
      rw [Marshall.growthLimit] at limit
      rw [Marshall.takeBuf, Block.length_read, ind, encodeAll_append, List.length_append]
      omega
    rcases header.unpackLike_spec (u := Unmarshall.new full.takeBuf.1) rfl pdu
        (Block.length_read _ _ _) sz with
      ⟨u, unpacked, sameBuf, behind, ok⟩
    rcases getAll_reads (front ++ back) u
        (full.buf.read 0 rpcSzT ++ (header.bytes ++ unused)) [] ok
        (by rw [sameBuf, List.append_nil, List.append_assoc, List.append_assoc]; exact pdu)
        (by rw [behind, List.length_append, List.length_append, Block.length_read]; omega)
        (by rw [Unmarshall.sz, sameBuf]; exact sz) with
      ⟨after, decoded, consumed⟩
    refine ⟨u, after, unpacked, decoded, ?_⟩
    have finished : after.ind = after.sz := by
      rw [consumed.ind, behind, Unmarshall.sz, consumed.buf, sameBuf]
      change _ = full.takeBuf.1.length
      rw [Marshall.takeBuf, Block.length_read, ind]
    simp [Unmarshall.okdone, consumed.ok, finished]

theorem marshall_roundTrip_words :
    ∃ full u after,
      (Header.reply ⟨7, -1⟩).unpackLike (Unmarshall.new (Marshall.takeBuf full).1) =
        (.reply ⟨7, -1⟩, u) ∧
      getAll (defaultTargets [⟨.char, (-3 : Int8)⟩, ⟨.vector .string, [[104, 105], []]⟩]) u =
        ([⟨.char, (-3 : Int8)⟩, ⟨.vector .string, [[104, 105], []]⟩], after) ∧
      after.okdone = true := by
  rcases marshall_roundTrip (fun _ => 0) (.reply ⟨7, -1⟩) [⟨.char, (-3 : Int8)⟩]
      [⟨.vector .string, [[104, 105], []]⟩] (by decide) with
    ⟨_, _, full, _, _, _, _, _, _, u, after, decoded⟩
  exact ⟨full, u, after, decoded⟩

end YfsRpc.Rpc
