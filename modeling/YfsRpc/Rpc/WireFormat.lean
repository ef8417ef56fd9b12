import YfsRpc.Rpc.DecodeBounds
import YfsRpc.Rpc.RoundTrip

/-! # What decoding accepts

`Ty.Wire` says which bytes denote a value of a type. It is wider than the
encoding: any byte denotes a `bool`, and the entries of a map may come in any
order. A decoding that ends with the flag true consumed bytes of that format,
and bytes of that format are decoded with the flag true.
-/

namespace YfsRpc.Rpc

open YfsRpc.Words

def Ty.Wire : (t : Ty) → Format UInt8 t.Val
  | .bool => fun bytes x => ∃ c, bytes = [c] ∧ x = (signExtend c != 0)
  | .char => .encoded (Ty.encode .char)
  | .uchar => .encoded (Ty.encode .uchar)
  | .short => .encoded (Ty.encode .short)
  | .ushort => .encoded (Ty.encode .ushort)
  | .int => .encoded (Ty.encode .int)
  | .uint => .encoded (Ty.encode .uint)
  | .ulonglong => .encoded (Ty.encode .ulonglong)
  | .string => fun bytes s => bytes = Ty.encode .string s ∧ List.length s < 2 ^ 32
  | .vector element => Repeated element.Wire
  | .map key value => fun bytes d =>
      ∃ entries, Repeated (Format.pair key.Wire value.Wire) bytes entries ∧ d = mapOf entries

theorem Ty.wire_pos (t : Ty) (bytes : List UInt8) (v : t.Val) (wire : t.Wire bytes v) :
    0 < bytes.length := by
  cases t with
  | bool =>
      rcases wire with ⟨c, rfl, -⟩
      exact Nat.zero_lt_one
  | char | uchar | short | ushort | int | uint | ulonglong =>
      rw [show bytes = Ty.encode _ v from wire]
      exact Ty.encode_pos _ v
  | string =>
      rw [wire.1]
      exact Ty.encode_pos .string v
  | vector =>
      rcases wire with ⟨rest, rfl, -, -⟩
      rw [length_bytes32_append]
      omega
  | map =>
      rcases wire with ⟨entries, ⟨rest, rfl, -, -⟩, -⟩
      rw [length_bytes32_append]
      omega

theorem Ty.wire_pair_pos (key value : Ty) (bytes : List UInt8) (entry : key.Val × value.Val)
    (wire : Format.pair key.Wire value.Wire bytes entry) : 0 < bytes.length := by
  rcases wire with ⟨front, back, rfl, first, -⟩
  have taken := key.wire_pos front entry.1 first
  rw [List.length_append]
  omega

/-! ## Decoded bytes are well formed -/

namespace Unmarshall

/-- The object was ok and moved over these bytes. -/
structure Took (before : Unmarshall) (bytes : List UInt8) (after : Unmarshall) : Prop
    extends Consumed before bytes.length after where
  wasOk : before.ok = true
  bytes : before.buf.drop before.ind = bytes ++ before.buf.drop after.ind

theorem Took.nil {u : Unmarshall} (ok : u.ok = true) : Took u [] u :=
  ⟨⟨rfl, rfl, ok⟩, ok, rfl⟩

theorem Took.append {before middle after : Unmarshall} {left right : List UInt8}
    (one : Took before left middle) (two : Took middle right after) :
    Took before (left ++ right) after := by
  refine ⟨⟨two.buf.trans one.buf, ?_, two.ok⟩, one.wasOk, ?_⟩
  · rw [two.ind, one.ind, List.length_append, Nat.add_assoc]
  · rw [one.bytes, ← one.buf, two.bytes, List.append_assoc]

/-- If the flag is true at the end, the operation took bytes of the format of
what it returned. -/
def Parses {α : Type} (operation : StateM Unmarshall α) (format : Format UInt8 α) : Prop :=
  ∀ u : Unmarshall, (operation u).2.ok = true →
    ∃ bytes, Took u bytes (operation u).2 ∧ format bytes (operation u).1

theorem Parses.pure {α : Type} {value : α} {format : Format UInt8 α}
    (empty : format [] value) : Parses (Pure.pure value) format :=
  fun _ ok => ⟨[], Took.nil ok, empty⟩

theorem Parses.mono {α : Type} {operation : StateM Unmarshall α} {format wider : Format UInt8 α}
    (parses : Parses operation format) (implies : ∀ bytes x, format bytes x → wider bytes x) :
    Parses operation wider := by
  intro u ok
  rcases parses u ok with ⟨bytes, took, denotes⟩
  exact ⟨bytes, took, implies _ _ denotes⟩

/-- The flag is sticky, so it was true between the two operations as well. -/
theorem Parses.bind {α β : Type} {first : StateM Unmarshall α}
    {second : α → StateM Unmarshall β} {front : Format UInt8 α} {format : Format UInt8 β}
    (one : Parses first front)
    (two : ∀ x, Parses (second x) fun right y => ∀ left, front left x → format (left ++ right) y) :
    Parses (first >>= second) format := by
  intro u ok
  rcases two (first u).1 (first u).2 ok with ⟨right, took', denotes'⟩
  rcases one u took'.wasOk with ⟨left, took, denotes⟩
  exact ⟨left ++ right, took.append took', denotes' left denotes⟩

theorem Parses.map {α β : Type} {operation : StateM Unmarshall α} {format : Format UInt8 α}
    (parses : Parses operation format) (f : α → β) :
    Parses (f <$> operation) fun bytes y => ∃ x, format bytes x ∧ y = f x := by
  intro u ok
  rcases parses u ok with ⟨bytes, took, denotes⟩
  exact ⟨bytes, took, _, denotes, rfl⟩

/-- `rawbyte` returns a sign extended byte even when it fails. -/
theorem Parses.byte_bind {α : Type} {second : UInt32 → StateM Unmarshall α}
    {format : Format UInt8 α}
    (tail : ∀ c, Parses (second (signExtend c)) fun bytes y => format (c :: bytes) y) :
    Parses (rawbyte >>= second) format := by
  intro u ok
  by_cases outside : u.ind ≥ u.sz
  · have failed : rawbyte u =
        (signExtend 0, { u with ok := false, log := u.log ++ [⟨u.ind, 1, 0, [], false⟩] }) := by
      unfold rawbyte
      rw [if_pos outside]
      rfl
    change (second (rawbyte u).1 (rawbyte u).2).2.ok = true at ok
    rw [failed] at ok
    rcases tail 0 _ ok with ⟨bytes, took, -⟩
    exact absurd took.wasOk Bool.false_ne_true
  · let c := u.buf.getD u.ind 0
    have read : rawbyte u = (signExtend c,
        { u with ind := u.ind + 1, log := u.log ++ [⟨u.ind, 1, 1, [c], u.ok⟩] }) := by
      unfold rawbyte
      rw [if_neg outside]
    change (second (rawbyte u).1 (rawbyte u).2).2.ok = true at ok
    change ∃ bytes, Took u bytes (second (rawbyte u).1 (rawbyte u).2).2 ∧
      format bytes (second (rawbyte u).1 (rawbyte u).2).1
    rw [read] at ok ⊢
    rcases tail c _ ok with ⟨bytes, took, denotes⟩
    have inside : u.ind < u.buf.length := Nat.lt_of_not_le outside
    have one : Took u [c]
        { u with ind := u.ind + 1, log := u.log ++ [⟨u.ind, 1, 1, [c], u.ok⟩] } := by
      refine ⟨⟨rfl, rfl, took.wasOk⟩, took.wasOk, ?_⟩
      rw [List.drop_eq_getElem_cons inside]
      simp [c, List.getD_eq_getElem?_getD, List.getElem?_eq_getElem inside]
    exact ⟨c :: bytes, one.append took, denotes⟩

/-! ### The operators -/

theorem getUInt_parses : Parses getUInt fun bytes x => bytes = bytes32 x := by
  refine .byte_bind fun c3 => .byte_bind fun c2 => .byte_bind fun c1 => .byte_bind fun c0 =>
    .pure ?_
  simp only [signExtend_and_255]
  exact (bytes32_join32 c3 c2 c1 c0).symm

theorem getInt_parses : Parses getInt fun bytes x => bytes = bytes32 x.toUInt32 := by
  refine .byte_bind fun c3 => .byte_bind fun c2 => .byte_bind fun c1 => .byte_bind fun c0 =>
    .pure ?_
  simp only [signExtend_and_255, UInt32.toUInt32_toInt32]
  exact (bytes32_join32 c3 c2 c1 c0).symm

theorem getUShort_parses : Parses getUShort fun bytes x => bytes = bytes16 x := by
  refine .byte_bind fun c1 => .byte_bind fun c0 => .pure ?_
  simp only [signExtend_and_255, join16_of_unsigned]
  exact (bytes16_join16 c1 c0).symm

theorem getShort_parses : Parses getShort fun bytes x => bytes = bytes16 x.toUInt16 := by
  refine .byte_bind fun c1 => .byte_bind fun c0 => .pure ?_
  simp only [signExtend_and_255, join16_of_signed, UInt16.toUInt16_toInt16]
  exact (bytes16_join16 c1 c0).symm

theorem getULongLong_parses : Parses getULongLong fun bytes x =>
    bytes = bytes32 (x >>> 32).toUInt32 ++ bytes32 x.toUInt32 := by
  refine getUInt_parses.bind fun high => getUInt_parses.bind fun low => .pure ?_
  rintro _ rfl _ rfl
  change bytes32 high ++ (bytes32 low ++ []) =
    bytes32 (join64 high low >>> 32).toUInt32 ++ bytes32 (join64 high low).toUInt32
  rw [high_join64, low_join64, List.append_nil]

theorem getUChar_parses : Parses getUChar fun bytes x => bytes = [x] := by
  refine .byte_bind fun c => .pure ?_
  rw [toUInt8_signExtend]

theorem getChar_parses : Parses getChar fun bytes x => bytes = [x.toUInt8] := by
  refine .byte_bind fun c => .pure ?_
  rw [toUInt8_signExtend, UInt8.toUInt8_toInt8]

theorem getBool_parses : Parses getBool fun bytes x => ∃ c, bytes = [c] ∧ x = (signExtend c != 0) :=
  .byte_bind fun c => .pure ⟨c, rfl, rfl⟩

/-- The string itself, behind its length. -/
theorem rawbytesExact_parses (s : List UInt8) (n : UInt32) :
    Parses (whenOk s (rawbytesExact s n)) fun bytes x => bytes = x ∧ x.length = n.toNat := by
  intro u ok
  unfold whenOk rawbytesExact at ok ⊢
  split at ok
  · next wasOk =>
      rw [if_pos wasOk]
      split at ok
      · cases ok
      · next within =>
          rw [if_neg within]
          have room : u.ind + n.toNat ≤ u.buf.length := Nat.le_of_not_lt within
          have length : ((u.buf.drop u.ind).take n.toNat).length = n.toNat := by
            rw [List.length_take, List.length_drop]
            omega
          refine ⟨_, ⟨⟨rfl, ?_, wasOk⟩, wasOk, ?_⟩, rfl, length⟩
          · rw [length]
          · rw [← List.drop_drop, List.take_append_drop]
  · next failed => exact absurd ok failed

theorem getStringExact_parses (s : List UInt8) : Parses (getStringExact s) fun bytes x =>
    bytes = bytes32 (UInt32.ofNat x.length) ++ x ∧ x.length < 2 ^ 32 := by
  unfold getStringExact
  simp only [ite_ok_eq]
  refine getUInt_parses.bind fun n => (rawbytesExact_parses s n).mono ?_
  rintro _ x ⟨rfl, length⟩ _ rfl
  rw [length, UInt32.ofNat_toNat]
  exact ⟨rfl, n.toNat_lt⟩

theorem getEntry_parses {α β : Type} {getKey : α → StateM Unmarshall α}
    {getValue : β → StateM Unmarshall β} {key : Format UInt8 α} {value : Format UInt8 β} {a : α}
    {b : β} (parsesKey : Parses (getKey a) key) (parsesValue : Parses (getValue b) value) :
    Parses (getEntry getKey getValue (a, b)) (Format.pair key value) := by
  refine parsesKey.bind fun x => parsesValue.bind fun y => .pure ?_
  intro back second front first
  rw [List.append_nil]
  exact ⟨front, back, rfl, first, second⟩

theorem pushEach_parses {α : Type} {get : α → StateM Unmarshall α} {z : α}
    {format : Format UInt8 α} (parses : Parses (get z) format) (n : Nat) :
    Parses (pushEach get z n []) fun bytes values =>
      values.length = n ∧ Format.Each format bytes values := by
  induction n with
  | zero => exact .pure ⟨rfl, .nil⟩
  | succ n induction =>
      refine parses.bind fun x => ?_
      rw [List.nil_append, pushEach_eq_map]
      refine (induction.map _).mono ?_
      rintro back _ ⟨values, ⟨rfl, rest⟩, rfl⟩ front first
      refine ⟨?_, .cons first rest⟩
      rw [List.length_append, List.length_singleton, Nat.add_comm]

/-- A count and the elements it announces. -/
theorem getVector_parses {α : Type} {get : α → StateM Unmarshall α} {z : α}
    {format : Format UInt8 α} (parses : Parses (get z) format) :
    Parses (getVector get z []) (Repeated format) := by
  refine getUInt_parses.bind fun n => (pushEach_parses parses n.toNat).mono ?_
  rintro rest values ⟨length, each⟩ _ rfl
  refine ⟨rest, ?_, ?_, each⟩
  · rw [length, UInt32.ofNat_toNat]
  · rw [length]
    exact n.toNat_lt

end Unmarshall

open Unmarshall in
/-- A default-constructed target that is decoded with the flag true at the end
received a value the bytes denote. -/
theorem Ty.getExact_parses : ∀ t : Ty, Parses (t.getExact t.default) t.Wire
  | .bool => getBool_parses
  | .char => getChar_parses
  | .uchar => getUChar_parses
  | .short => getShort_parses
  | .ushort => getUShort_parses
  | .int => getInt_parses
  | .uint => getUInt_parses
  | .ulonglong => getULongLong_parses
  | .string => getStringExact_parses _
  | .vector element => getVector_parses element.getExact_parses
  | .map key value => by
      unfold Ty.getExact
      rw [getMap_eq_map]
      exact (getVector_parses (getEntry_parses key.getExact_parses value.getExact_parses)).map _

/-! ## Well formed bytes are decoded -/

namespace Unmarshall

/-- At these bytes the operation returns the value, and all its reads stay inside
the buffer. -/
structure ReadsInside {α : Type} (operation : StateM Unmarshall α) (bytes : List UInt8)
    (value : α) : Prop where
  reads : Reads operation bytes value
  sound : ∀ (u : Unmarshall) (before rest : List UInt8), u.ok = true →
    u.buf = before ++ (bytes ++ rest) → u.ind = before.length → u.sz < 2 ^ 31 →
    Sound u.buf u → Sound u.buf (operation u).2

theorem ReadsInside.pure {α : Type} (value : α) : ReadsInside (Pure.pure value) [] value :=
  ⟨Reads.pure value, fun _ _ _ _ _ _ _ sound => sound⟩

theorem ReadsInside.bind {α β : Type} {first : StateM Unmarshall α}
    {second : α → StateM Unmarshall β} {left right : List UInt8} {x : α} {y : β}
    (one : ReadsInside first left x) (two : ReadsInside (second x) right y) :
    ReadsInside (first >>= second) (left ++ right) y where
  reads := one.reads.bind two.reads
  sound := by
    intro u before rest ok buf ind small sound
    rw [List.append_assoc] at buf
    have kept := one.sound u before (right ++ rest) ok buf ind small sound
    rcases one.reads u before (right ++ rest) ok buf ind small with ⟨middle, done, moved⟩
    change Sound u.buf (second (first u).1 (first u).2).2
    rw [done] at kept ⊢
    rw [Unmarshall.sz, ← moved.buf] at small
    rw [← moved.buf] at kept ⊢
    exact two.sound middle (before ++ left) rest moved.ok
      (by rw [moved.buf, buf, List.append_assoc])
      (by rw [moved.ind, ind, List.length_append]) small kept

theorem ReadsInside.map {α β : Type} {operation : StateM Unmarshall α} {bytes : List UInt8}
    {x : α} (inside : ReadsInside operation bytes x) (f : α → β) :
    ReadsInside (f <$> operation) bytes (f x) :=
  ⟨inside.reads.map f, inside.sound⟩

/-- An operation without string reads stays inside the buffer anyway. -/
theorem Reads.inside {α : Type} {operation : StateM Unmarshall α} {bytes : List UInt8} {x : α}
    (reads : Reads operation bytes x)
    (steady : ∀ buf : List UInt8, buf.length < 2 ^ 31 → Steady buf operation) :
    ReadsInside operation bytes x :=
  ⟨reads, fun u _ _ _ _ _ small sound => (steady u.buf small).sound u sound⟩

theorem getString_inside (old s : List UInt8) (small : s.length < 2 ^ 32) :
    ReadsInside (getString old) (bytes32 (UInt32.ofNat s.length) ++ s) s := by
  have length : (UInt32.ofNat s.length).toNat = s.length := by
    rw [UInt32.toNat_ofNat', Nat.mod_eq_of_lt small]
  refine ⟨getString_reads old s small, ?_⟩
  unfold getString
  simp only [ite_ok_eq]
  refine (((getUInt_reads _).inside fun buf => getUInt_steady).bind
    (y := s) ⟨?_, ?_⟩).sound
  · intro u before rest ok buf ind fits
    rw [whenOk, if_pos ok]
    exact rawbytes_reads old s _ length u before rest ok buf ind fits
  · intro u before rest ok buf ind fits sound
    rw [whenOk, if_pos ok]
    refine (rawbytes_sound old _ sound ?_).2
    have size := congrArg List.length buf
    simp only [List.length_append] at size
    rw [Unmarshall.sz] at fits
    omega

theorem getEntry_inside {α β : Type} {getKey : α → StateM Unmarshall α}
    {getValue : β → StateM Unmarshall β} {a : α} {b : β} {key : Format UInt8 α}
    {value : Format UInt8 β} (insideKey : ∀ bytes x, key bytes x → ReadsInside (getKey a) bytes x)
    (insideValue : ∀ bytes x, value bytes x → ReadsInside (getValue b) bytes x)
    (bytes : List UInt8) (entry : α × β) (both : Format.pair key value bytes entry) :
    ReadsInside (getEntry getKey getValue (a, b)) bytes entry := by
  rcases both with ⟨front, back, rfl, first, second⟩
  refine (insideKey front entry.1 first).bind ?_
  rw [← List.append_nil back]
  exact (insideValue back entry.2 second).bind (.pure entry)

theorem pushEach_inside {α : Type} {get : α → StateM Unmarshall α} {z : α}
    {format : Format UInt8 α} (inside : ∀ bytes x, format bytes x → ReadsInside (get z) bytes x)
    {bytes : List UInt8} {values : List α} (each : Format.Each format bytes values) :
    ReadsInside (pushEach get z values.length []) bytes values := by
  induction each with
  | nil => exact .pure []
  | @cons front back x rest head tail induction =>
      have loop := induction.map ([x] ++ ·)
      rw [← pushEach_eq_map] at loop
      exact (inside front x head).bind loop

theorem getVector_inside {α : Type} {get : α → StateM Unmarshall α} {z : α}
    {format : Format UInt8 α} (inside : ∀ bytes x, format bytes x → ReadsInside (get z) bytes x)
    {bytes : List UInt8} {values : List α} (counted : Repeated format bytes values) :
    ReadsInside (getVector get z []) bytes values := by
  rcases counted with ⟨rest, rfl, fits, each⟩
  refine ((getUInt_reads _).inside fun buf => getUInt_steady).bind ?_
  rw [UInt32.toNat_ofNat', Nat.mod_eq_of_lt fits]
  exact pushEach_inside inside each

end Unmarshall

open Unmarshall in
/-- Bytes of the format of a type are decoded with the flag true. -/
theorem Ty.readsInside_of_wire : ∀ (t : Ty) (bytes : List UInt8) (v : t.Val), t.Wire bytes v →
    ReadsInside (t.get t.default) bytes v
  | .bool, _, _, wire => by
      rcases wire with ⟨c, rfl, rfl⟩
      exact (Reads.rawbyte_pure rfl).inside fun _ small => rawbyte_pure_steady small _
  | .char, _, v, wire => by
      rw [show _ = Ty.encode .char v from wire]
      exact (getChar_reads v).inside fun _ small => rawbyte_pure_steady small _
  | .uchar, _, v, wire => by
      rw [show _ = Ty.encode .uchar v from wire]
      exact (getUChar_reads v).inside fun _ small => rawbyte_pure_steady small _
  | .short, _, v, wire => by
      rw [show _ = Ty.encode .short v from wire]
      exact (getShort_reads v).inside fun _ small =>
        (rawbyte_steady small).bind fun _ => rawbyte_pure_steady small _
  | .ushort, _, v, wire => by
      rw [show _ = Ty.encode .ushort v from wire]
      exact (getUShort_reads v).inside fun _ small =>
        (rawbyte_steady small).bind fun _ => rawbyte_pure_steady small _
  | .int, _, v, wire => by
      rw [show _ = Ty.encode .int v from wire]
      exact (getInt_reads v).inside fun _ => getInt_steady
  | .uint, _, v, wire => by
      rw [show _ = Ty.encode .uint v from wire]
      exact (getUInt_reads v).inside fun _ => getUInt_steady
  | .ulonglong, _, v, wire => by
      rw [show _ = Ty.encode .ulonglong v from wire]
      exact (getULongLong_reads v).inside fun _ => getULongLong_steady
  | .string, _, v, wire => by
      rw [wire.1]
      exact getString_inside _ v wire.2
  | .vector element, _, _, wire => getVector_inside element.readsInside_of_wire wire
  | .map key value, _, _, wire => by
      rcases wire with ⟨entries, counted, rfl⟩
      have all := (getVector_inside
        (getEntry_inside key.readsInside_of_wire value.readsInside_of_wire) counted).map
        (@mapOf _ _ key.denote.cmp _)
      rw [← getMap_eq_map _ _ _ _ .empty] at all
      exact all

/-! ## The types whose values have one encoding -/

/-- Types built without `bool` and maps. -/
def Ty.Plain : Ty → Prop
  | .bool | .map _ _ => False
  | .vector element => element.Plain
  | _ => True

instance Ty.decidablePlain : (t : Ty) → Decidable t.Plain
  | .bool | .map _ _ => isFalse id
  | .vector element => element.decidablePlain
  | .char | .uchar | .short | .ushort | .int | .uint | .ulonglong | .string => isTrue trivial

/-- A value of a plain type is denoted by its encoding only. -/
theorem Ty.encode_of_wire : ∀ (t : Ty) (bytes : List UInt8) (v : t.Val), t.Plain →
    t.Wire bytes v → bytes = t.encode v
  | .bool, _, _, plain, _ | .map _ _, _, _, plain, _ => plain.elim
  | .char, _, _, _, wire | .uchar, _, _, _, wire | .short, _, _, _, wire
  | .ushort, _, _, _, wire | .int, _, _, _, wire | .uint, _, _, _, wire
  | .ulonglong, _, _, _, wire => wire
  | .string, _, _, _, wire => wire.1
  | .vector element, _, v, plain, wire => by
      rcases wire with ⟨rest, rfl, -, each⟩
      have encoded := each.mono fun bytes x => element.encode_of_wire bytes x plain
      rw [Format.Each.encoded_iff.mp encoded]
      rfl

end YfsRpc.Rpc
