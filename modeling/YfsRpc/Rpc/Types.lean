import YfsRpc.Rpc.Unmarshall

/-! # The marshallable types

The types that `operator<<` and `operator>>` support form a universe: scalars,
strings, and vectors and maps built from them to any depth. A type denotes its
values together with the order `std::map` uses on keys of that type. The
universe also has vectors of `bool`, for whose packed elements the source
provides no operator.
-/

namespace YfsRpc.Rpc

/-- A type with a total order, as `std::map` needs of its keys. -/
structure OrderedType where
  Carrier : Type
  cmp : Carrier → Carrier → Ordering
  trans : Std.TransCmp cmp
  lawful : Std.LawfulEqCmp cmp

attribute [instance] OrderedType.trans OrderedType.lawful

namespace OrderedType

@[reducible] def of (α : Type) [Ord α] [Std.TransOrd α] [Std.LawfulEqOrd α] : OrderedType where
  Carrier := α
  cmp := compare
  trans := inferInstance
  lawful := inferInstance

/-- Lexicographic order, as `std::vector` and `std::string` compare. -/
@[reducible] def vector (element : OrderedType) : OrderedType where
  Carrier := List element.Carrier
  cmp := List.compareLex element.cmp
  trans := inferInstance
  lawful := inferInstance

/-- Compare two values by what `view` shows of them. -/
def comapCmp {α β : Type} (view : α → β) (cmp : β → β → Ordering) (left right : α) : Ordering :=
  cmp (view left) (view right)

instance {α β : Type} (view : α → β) (cmp : β → β → Ordering) [Std.TransCmp cmp] :
    Std.TransCmp (comapCmp view cmp) where
  eq_swap := by
    intro left right
    exact @Std.OrientedCmp.eq_swap β cmp _ (view left) (view right)
  isLE_trans := by
    intro first second third
    exact @Std.TransCmp.isLE_trans β cmp _ (view first) (view second) (view third)

/-- `std::pair` compares the first components and then the second ones. -/
def pairCmp (key value : OrderedType) :
    key.Carrier × value.Carrier → key.Carrier × value.Carrier → Ordering :=
  compareLex (comapCmp Prod.fst key.cmp) (comapCmp Prod.snd value.cmp)

instance (key value : OrderedType) : Std.TransCmp (pairCmp key value) :=
  inferInstanceAs (Std.TransCmp (compareLex _ _))

instance (key value : OrderedType) : Std.LawfulEqCmp (pairCmp key value) where
  compare_self := Std.ReflCmp.compare_self
  eq_of_compare := by
    intro left right equal
    have parts := compareLex_eq_eq.mp equal
    exact Prod.ext (Std.LawfulEqCmp.eq_of_compare parts.1)
      (Std.LawfulEqCmp.eq_of_compare parts.2)

/-- A map from keys to values; maps compare as their ordered entry lists. -/
@[reducible] def map (key value : OrderedType) : OrderedType where
  Carrier := Std.ExtTreeMap key.Carrier value.Carrier key.cmp
  cmp := comapCmp Std.ExtTreeMap.toList (List.compareLex (pairCmp key value))
  trans := inferInstance
  lawful := {
    compare_self := Std.ReflCmp.compare_self
    eq_of_compare := fun equal =>
      Std.ExtTreeMap.toList_inj.mp (Std.LawfulEqCmp.eq_of_compare equal) }

end OrderedType

inductive Ty
  | bool
  | char
  | uchar
  | short
  | ushort
  | int
  | uint
  | ulonglong
  | string
  | vector (element : Ty)
  | map (key value : Ty)
  deriving DecidableEq, Repr

@[reducible] def Ty.denote : Ty → OrderedType
  | .bool => .of Bool
  | .char => .of Int8
  | .uchar => .of UInt8
  | .short => .of Int16
  | .ushort => .of UInt16
  | .int => .of Int32
  | .uint => .of UInt32
  | .ulonglong => .of UInt64
  | .string => .vector (.of UInt8)
  | .vector element => .vector element.denote
  | .map key value => .map key.denote value.denote

instance Ty.transCmp_denote (t : Ty) : Std.TransCmp t.denote.cmp := t.denote.trans

/-- The values of a type. -/
abbrev Ty.Val (t : Ty) : Type := t.denote.Carrier

/-- The value of a default-constructed target. A scalar declared without an
initialiser is indeterminate, but decoding assigns it in every case. -/
def Ty.default : (t : Ty) → t.Val
  | .bool => false
  | .char => (0 : Int8)
  | .uchar => (0 : UInt8)
  | .short => (0 : Int16)
  | .ushort => (0 : UInt16)
  | .int => (0 : Int32)
  | .uint => (0 : UInt32)
  | .ulonglong => (0 : UInt64)
  | .string => []
  | .vector _ => []
  | .map _ _ => Std.ExtTreeMap.empty

/-! ## `operator<<` -/

namespace Marshall

/-- Marshall the elements of a container one after the other. -/
def putEach {α : Type} (put : α → Marshall → Option Marshall) :
    List α → Marshall → Option Marshall
  | [], m => some m
  | x :: rest, m => do
      let m ← put x m
      putEach put rest m

def putVector {α : Type} (put : α → Marshall → Option Marshall) (v : List α)
    (m : Marshall) : Option Marshall := do
  let m ← m.putUInt (UInt32.ofNat v.length)
  putEach put v m

/-- The entries are visited in key order. -/
def putMap {α β : Type} {cmp : α → α → Ordering} [Std.TransCmp cmp]
    (putKey : α → Marshall → Option Marshall) (putValue : β → Marshall → Option Marshall)
    (d : Std.ExtTreeMap α β cmp) (m : Marshall) : Option Marshall := do
  let m ← m.putUInt (UInt32.ofNat d.size)
  putEach (fun entry m => do putValue entry.2 (← putKey entry.1 m)) d.toList m

end Marshall

def Ty.put : (t : Ty) → t.Val → Marshall → Option Marshall
  | .bool, x => Marshall.putBool x
  | .char, x => Marshall.putChar x
  | .uchar, x => Marshall.putUChar x
  | .short, x => Marshall.putShort x
  | .ushort, x => Marshall.putUShort x
  | .int, x => Marshall.putInt x
  | .uint, x => Marshall.putUInt x
  | .ulonglong, x => Marshall.putULongLong x
  | .string, s => Marshall.putString s
  | .vector element, v => Marshall.putVector element.put v
  | .map key value, d => Marshall.putMap key.put value.put d

/-! ## `operator>>` -/

namespace Unmarshall

/-- The loop of the vector operator: `C z; u >> z; v.push_back(z)`. -/
def pushEach {α : Type} (get : α → StateM Unmarshall α) (z : α) :
    Nat → List α → StateM Unmarshall (List α)
  | 0, v => return v
  | n + 1, v => do
      let x ← get z
      pushEach get z n (v ++ [x])

/-- The elements are appended to what the target held. -/
def getVector {α : Type} (get : α → StateM Unmarshall α) (z : α) (v : List α) :
    StateM Unmarshall (List α) := do
  let n ← getUInt
  pushEach get z n.toNat v

/-- The loop of the map operator: `A a; B b; u >> a >> b; d[a] = b`. -/
def insertEach {α β : Type} {cmp : α → α → Ordering} [Std.TransCmp cmp]
    (getKey : α → StateM Unmarshall α) (a : α) (getValue : β → StateM Unmarshall β) (b : β) :
    Nat → Std.ExtTreeMap α β cmp → StateM Unmarshall (Std.ExtTreeMap α β cmp)
  | 0, d => return d
  | n + 1, d => do
      let key ← getKey a
      let value ← getValue b
      insertEach getKey a getValue b n (d.insert key value)

/-- The target is cleared before the entries are inserted. -/
def getMap {α β : Type} {cmp : α → α → Ordering} [Std.TransCmp cmp]
    (getKey : α → StateM Unmarshall α) (a : α) (getValue : β → StateM Unmarshall β) (b : β)
    (_d : Std.ExtTreeMap α β cmp) : StateM Unmarshall (Std.ExtTreeMap α β cmp) := do
  let n ← getUInt
  insertEach getKey a getValue b n.toNat Std.ExtTreeMap.empty

end Unmarshall

/-- Decode into a target, given the value the target had before. -/
def Ty.get : (t : Ty) → t.Val → StateM Unmarshall t.Val
  | .bool, _ => Unmarshall.getBool
  | .char, _ => Unmarshall.getChar
  | .uchar, _ => Unmarshall.getUChar
  | .short, _ => Unmarshall.getShort
  | .ushort, _ => Unmarshall.getUShort
  | .int, _ => Unmarshall.getInt
  | .uint, _ => Unmarshall.getUInt
  | .ulonglong, _ => Unmarshall.getULongLong
  | .string, s => Unmarshall.getString s
  | .vector element, v => Unmarshall.getVector element.get element.default v
  | .map key value, d =>
      Unmarshall.getMap key.get key.default value.get value.default d

/-! ## Sequences of values -/

/-- A value with its type. -/
abbrev Datum := (t : Ty) × t.Val

/-- `m << v1 << v2 << ...` -/
def putAll (values : List Datum) : Marshall → Option Marshall :=
  Marshall.putEach (fun value => value.1.put value.2) values

/-- `u >> x1 >> x2 >> ...` for targets with the given old values. -/
def getAll : List Datum → StateM Unmarshall (List Datum)
  | [] => return []
  | target :: rest => do
      let value ← target.1.get target.2
      let values ← getAll rest
      return ⟨target.1, value⟩ :: values

/-! ## The wire format -/

/-- The bytes of a value on the wire: big-endian words, and containers as a
four-byte count followed by their elements. -/
def Ty.encode : (t : Ty) → t.Val → List UInt8
  | .bool, x => [Bool.toUInt8 x]
  | .char, x => [Int8.toUInt8 x]
  | .uchar, x => [x]
  | .short, x => Words.bytes16 (Int16.toUInt16 x)
  | .ushort, x => Words.bytes16 x
  | .int, x => Words.bytes32 (Int32.toUInt32 x)
  | .uint, x => Words.bytes32 x
  | .ulonglong, x =>
      Words.bytes32 (UInt64.toUInt32 (x >>> (32 : UInt64))) ++ Words.bytes32 (UInt64.toUInt32 x)
  | .string, s => Words.bytes32 (UInt32.ofNat (List.length s)) ++ s
  | .vector element, v =>
      Words.bytes32 (UInt32.ofNat (List.length v)) ++ List.flatMap element.encode v
  | .map key value, d =>
      Words.bytes32 (UInt32.ofNat (Std.ExtTreeMap.size d)) ++
        (Std.ExtTreeMap.toList d).flatMap fun entry =>
          key.encode entry.1 ++ value.encode entry.2

def encodeAll (values : List Datum) : List UInt8 :=
  values.flatMap fun value => value.1.encode value.2

end YfsRpc.Rpc
