import Mathlib.Tactic.Linarith

/-! # Machine words and their bytes

Splitting words into bytes, most significant first, and joining them again.
-/

namespace YfsRpc.Words

/-- A byte read through a signed `char` and converted to `unsigned int`. -/
def signExtend (byte : UInt8) : UInt32 := byte.toInt8.toInt32.toUInt32

theorem setWidth_and_255 (word : BitVec 32) :
    word &&& 255#32 = (word.setWidth 8).setWidth 32 := by
  apply BitVec.eq_of_toNat_eq
  simp only [BitVec.toNat_and, BitVec.toNat_ofNat, BitVec.toNat_setWidth]
  rw [show 255 % 2 ^ 32 = 2 ^ 8 - 1 from rfl, Nat.and_two_pow_sub_one_eq_mod]
  omega

/-- Masking undoes the sign extension. -/
@[simp] theorem signExtend_and_255 (byte : UInt8) :
    signExtend byte &&& 0xff = byte.toUInt32 := by
  apply UInt32.toBitVec_inj.mp
  simp only [signExtend, UInt32.toBitVec_and, Int32.toBitVec_toUInt32,
    Int8.toBitVec_toInt32, UInt8.toBitVec_toInt8, UInt32.toBitVec_ofNat,
    UInt8.toBitVec_toUInt32, setWidth_and_255]
  apply BitVec.eq_of_getLsbD_eq
  intro i inside
  simp only [BitVec.getLsbD_setWidth, BitVec.getLsbD_signExtend]
  by_cases low : i < 8
  · simp [low, inside]
  · simp [low, BitVec.getLsbD_of_ge byte.toBitVec i (by omega)]

/-- Truncating undoes the sign extension. -/
@[simp] theorem toUInt8_signExtend (byte : UInt8) :
    (signExtend byte).toUInt8 = byte := by
  apply UInt8.toBitVec_inj.mp
  simp only [signExtend, UInt32.toBitVec_toUInt8, Int32.toBitVec_toUInt32,
    Int8.toBitVec_toInt32, UInt8.toBitVec_toInt8]
  apply BitVec.eq_of_getLsbD_eq
  intro i inside
  rw [BitVec.getLsbD_setWidth, BitVec.getLsbD_signExtend]
  simp [inside, show i < 32 by omega]

/-- Bytes shifted into disjoint positions add up. -/
theorem shiftLeft_or_eq_add {high low shift : Nat} (bound : low < 2 ^ shift) :
    high <<< shift ||| low = high * 2 ^ shift + low := by
  rw [← Nat.shiftLeft_add_eq_or_of_lt bound, Nat.shiftLeft_eq]

/-! ## Four-byte words -/

def join32 (b3 b2 b1 b0 : UInt8) : UInt32 :=
  b3.toUInt32 <<< 24 ||| b2.toUInt32 <<< 16 ||| b1.toUInt32 <<< 8 ||| b0.toUInt32

theorem toNat_join32 (b3 b2 b1 b0 : UInt8) :
    (join32 b3 b2 b1 b0).toNat =
      b3.toNat * 2 ^ 24 + b2.toNat * 2 ^ 16 + b1.toNat * 2 ^ 8 + b0.toNat := by
  have bound3 := b3.toNat_lt
  have bound2 := b2.toNat_lt
  have bound1 := b1.toNat_lt
  have bound0 := b0.toNat_lt
  simp only [join32, UInt32.toNat_or, UInt32.toNat_shiftLeft, UInt8.toNat_toUInt32]
  rw [show UInt32.toNat 24 % 32 = 24 from rfl, show UInt32.toNat 16 % 32 = 16 from rfl,
    show UInt32.toNat 8 % 32 = 8 from rfl]
  have high : b3.toNat <<< 24 % 2 ^ 32 = b3.toNat <<< 24 :=
    Nat.mod_eq_of_lt (by rw [Nat.shiftLeft_eq]; omega)
  have middle : b2.toNat <<< 16 % 2 ^ 32 = b2.toNat <<< 16 :=
    Nat.mod_eq_of_lt (by rw [Nat.shiftLeft_eq]; omega)
  have low : b1.toNat <<< 8 % 2 ^ 32 = b1.toNat <<< 8 :=
    Nat.mod_eq_of_lt (by rw [Nat.shiftLeft_eq]; omega)
  rw [high, middle, low, Nat.or_assoc, Nat.or_assoc,
    shiftLeft_or_eq_add (show b0.toNat < 2 ^ 8 by omega),
    shiftLeft_or_eq_add (show b1.toNat * 2 ^ 8 + b0.toNat < 2 ^ 16 by omega),
    shiftLeft_or_eq_add
      (show b2.toNat * 2 ^ 16 + (b1.toNat * 2 ^ 8 + b0.toNat) < 2 ^ 24 by omega)]
  omega

/-- The byte of a word that starts at bit `shift`. -/
def byteAt (word shift : UInt32) : UInt8 := ((word >>> shift) &&& 0xff).toUInt8

theorem toNat_byteAt (word shift : UInt32) :
    (byteAt word shift).toNat = word.toNat / 2 ^ (shift.toNat % 32) % 256 := by
  simp only [byteAt, UInt32.toNat_toUInt8, UInt32.toNat_and, UInt32.toNat_shiftRight]
  rw [show UInt32.toNat 0xff = 2 ^ 8 - 1 from rfl, Nat.and_two_pow_sub_one_eq_mod,
    Nat.shiftRight_eq_div_pow]
  omega

/-- The four bytes of a word, most significant first. -/
def bytes32 (word : UInt32) : List UInt8 :=
  [byteAt word 24, byteAt word 16, byteAt word 8, byteAt word 0]

@[simp] theorem length_bytes32 (word : UInt32) : (bytes32 word).length = 4 := rfl

theorem join32_byteAt (word : UInt32) :
    join32 (byteAt word 24) (byteAt word 16) (byteAt word 8) (byteAt word 0) = word := by
  apply UInt32.toNat_inj.mp
  rw [toNat_join32]
  simp only [toNat_byteAt]
  rw [show UInt32.toNat 24 % 32 = 24 from rfl, show UInt32.toNat 16 % 32 = 16 from rfl,
    show UInt32.toNat 8 % 32 = 8 from rfl, show UInt32.toNat 0 % 32 = 0 from rfl]
  have bound := word.toNat_lt
  omega

theorem bytes32_join32 (b3 b2 b1 b0 : UInt8) :
    bytes32 (join32 b3 b2 b1 b0) = [b3, b2, b1, b0] := by
  have bound2 := b2.toNat_lt
  have bound1 := b1.toNat_lt
  have bound0 := b0.toNat_lt
  have bound3 := b3.toNat_lt
  unfold bytes32
  congr
  all_goals
    apply UInt8.toNat_inj.mp
    rw [toNat_byteAt, toNat_join32]
  · rw [show UInt32.toNat 24 % 32 = 24 from rfl]
    omega
  · rw [show UInt32.toNat 16 % 32 = 16 from rfl]
    omega
  · rw [show UInt32.toNat 8 % 32 = 8 from rfl]
    omega
  · rw [show UInt32.toNat 0 % 32 = 0 from rfl]
    omega

/-- The word in the first four bytes. -/
def word32 (bytes : List UInt8) : UInt32 :=
  join32 (bytes.getD 0 0) (bytes.getD 1 0) (bytes.getD 2 0) (bytes.getD 3 0)

theorem word32_bytes32_append (word : UInt32) (rest : List UInt8) :
    word32 (bytes32 word ++ rest) = word :=
  join32_byteAt word

theorem word32_append {bytes : List UInt8} (enough : 4 ≤ bytes.length) (rest : List UInt8) :
    word32 (bytes ++ rest) = word32 bytes := by
  match bytes, enough with
  | _ :: _ :: _ :: _ :: _, _ => rfl

theorem setWidth_sshiftRight (word : BitVec 32) {shift : Nat} (inside : shift + 8 ≤ 32) :
    (word.sshiftRight shift).setWidth 8 = (word >>> shift).setWidth 8 := by
  apply BitVec.eq_of_getLsbD_eq
  intro i small
  simp [BitVec.getLsbD_sshiftRight, small, show ¬ 32 ≤ i by omega,
    show shift + i < 32 by omega]

theorem setWidth_mask (word : BitVec 32) :
    (word &&& 255#32).setWidth 8 = word.setWidth 8 := by
  rw [setWidth_and_255]
  simp

/-- A byte taken out of an `int` with the arithmetic shift is the byte of the
same bits: the copies of the sign are masked away. -/
theorem byteAt_of_int (word signedShift : Int32) (shift : UInt32) (amount : Nat)
    (signed : (signedShift.toBitVec.smod 32).toNat = amount)
    (unsigned : (shift.toBitVec % 32).toNat = amount) (inside : amount + 8 ≤ 32) :
    ((word >>> signedShift) &&& 0xff).toUInt32.toUInt8 = byteAt word.toUInt32 shift := by
  apply UInt8.toBitVec_inj.mp
  simp only [byteAt, UInt32.toBitVec_toUInt8, Int32.toBitVec_toUInt32, Int32.toBitVec_and,
    UInt32.toBitVec_and, UInt32.toBitVec_shiftRight, Int32.toBitVec_shiftRight,
    BitVec.sshiftRight', BitVec.ushiftRight_eq', signed, unsigned]
  exact (setWidth_mask _).trans
    ((setWidth_sshiftRight _ inside).trans (setWidth_mask _).symm)

/-! ## Two-byte words -/

def join16 (b1 b0 : UInt8) : UInt16 := (b1.toUInt32 <<< 8 ||| b0.toUInt32).toUInt16

/-- The two bytes of a half word, most significant first. -/
def bytes16 (word : UInt16) : List UInt8 :=
  [byteAt word.toUInt32 8, byteAt word.toUInt32 0]

theorem toNat_join16 (b1 b0 : UInt8) :
    (join16 b1 b0).toNat = b1.toNat * 2 ^ 8 + b0.toNat := by
  have bound1 := b1.toNat_lt
  have bound0 := b0.toNat_lt
  simp only [join16, UInt32.toNat_toUInt16, UInt32.toNat_or, UInt32.toNat_shiftLeft,
    UInt8.toNat_toUInt32]
  rw [show UInt32.toNat 8 % 32 = 8 from rfl,
    Nat.mod_eq_of_lt (show b1.toNat <<< 8 < 2 ^ 32 by rw [Nat.shiftLeft_eq]; omega),
    shiftLeft_or_eq_add (show b0.toNat < 2 ^ 8 by omega)]
  omega

theorem join16_byteAt (word : UInt16) :
    join16 (byteAt word.toUInt32 8) (byteAt word.toUInt32 0) = word := by
  apply UInt16.toNat_inj.mp
  rw [toNat_join16]
  simp only [toNat_byteAt, UInt16.toNat_toUInt32]
  rw [show UInt32.toNat 8 % 32 = 8 from rfl, show UInt32.toNat 0 % 32 = 0 from rfl]
  have bound := word.toNat_lt
  omega

theorem bytes16_join16 (b1 b0 : UInt8) : bytes16 (join16 b1 b0) = [b1, b0] := by
  have bound1 := b1.toNat_lt
  have bound0 := b0.toNat_lt
  unfold bytes16
  congr
  all_goals
    apply UInt8.toNat_inj.mp
    rw [toNat_byteAt, UInt16.toNat_toUInt32, toNat_join16]
  · rw [show UInt32.toNat 8 % 32 = 8 from rfl]
    omega
  · rw [show UInt32.toNat 0 % 32 = 0 from rfl]
    omega

/-- The first byte may be truncated to a half word before the second is added. -/
theorem join16_of_unsigned (b1 b0 : UInt8) :
    ((b1.toUInt32 <<< 8).toUInt16.toUInt32 ||| b0.toUInt32).toUInt16 = join16 b1 b0 := by
  rw [join16, UInt32.toUInt16_or, UInt32.toUInt16_or, UInt16.toUInt16_toUInt32]

theorem toUInt16_signExtend (word : UInt16) :
    word.toInt16.toInt32.toUInt32.toUInt16 = word := by
  apply UInt16.toBitVec_inj.mp
  simp only [UInt32.toBitVec_toUInt16, Int32.toBitVec_toUInt32, Int16.toBitVec_toInt32,
    UInt16.toBitVec_toInt16]
  apply BitVec.eq_of_getLsbD_eq
  intro i inside
  rw [BitVec.getLsbD_setWidth, BitVec.getLsbD_signExtend]
  simp [inside, show i < 32 by omega]

/-- It may also be sign extended in between. -/
theorem join16_of_signed (b1 b0 : UInt8) :
    ((b1.toUInt32 <<< 8).toUInt16.toInt16.toInt32.toUInt32 ||| b0.toUInt32).toUInt16 =
      join16 b1 b0 := by
  rw [join16, UInt32.toUInt16_or, UInt32.toUInt16_or, toUInt16_signExtend]

/-! ## Eight-byte words -/

def join64 (high low : UInt32) : UInt64 := low.toUInt64 ||| high.toUInt64 <<< 32

theorem toNat_join64 (high low : UInt32) :
    (join64 high low).toNat = high.toNat * 2 ^ 32 + low.toNat := by
  have boundHigh := high.toNat_lt
  have boundLow := low.toNat_lt
  simp only [join64, UInt64.toNat_or, UInt64.toNat_shiftLeft, UInt32.toNat_toUInt64]
  rw [show UInt64.toNat 32 % 64 = 32 from rfl,
    Nat.mod_eq_of_lt (show high.toNat <<< 32 < 2 ^ 64 by rw [Nat.shiftLeft_eq]; omega),
    Nat.or_comm, shiftLeft_or_eq_add boundLow]

theorem high_join64 (high low : UInt32) : (join64 high low >>> 32).toUInt32 = high := by
  have boundHigh := high.toNat_lt
  have boundLow := low.toNat_lt
  apply UInt32.toNat_inj.mp
  rw [UInt64.toNat_toUInt32, UInt64.toNat_shiftRight, toNat_join64,
    show UInt64.toNat 32 % 64 = 32 from rfl, Nat.shiftRight_eq_div_pow]
  omega

theorem low_join64 (high low : UInt32) : (join64 high low).toUInt32 = low := by
  have boundLow := low.toNat_lt
  apply UInt32.toNat_inj.mp
  rw [UInt64.toNat_toUInt32, toNat_join64]
  omega

/-- A long word is its two halves. -/
theorem join64_halves (word : UInt64) :
    join64 (word >>> 32).toUInt32 word.toUInt32 = word := by
  have bound := word.toNat_lt
  apply UInt64.toNat_inj.mp
  rw [toNat_join64, UInt64.toNat_toUInt32, UInt64.toNat_toUInt32, UInt64.toNat_shiftRight,
    show UInt64.toNat 32 % 64 = 32 from rfl, Nat.shiftRight_eq_div_pow]
  omega

end YfsRpc.Words
