import YfsRpc.Rpc.Types

/-! # Which bytes decoding reads

Every primitive read of `unmarshall` is logged. The decoder is compared with a
second one whose bounds test is made in unbounded arithmetic: both run in
lockstep, and every read stays inside the buffer, until a string length makes
the test of the source wrap around.
-/

namespace YfsRpc.Rpc

/-- The read touches bytes of the buffer only: it is either served completely
from its position, or refused without touching anything. -/
def Access.Inside (buf : List UInt8) (access : Access) : Prop :=
  if access.ind + access.wanted ≤ buf.length then
    access.taken = access.wanted ∧ access.data = (buf.drop access.ind).take access.wanted
  else
    access.taken = 0 ∧ access.data = [] ∧ access.ok = false

instance (buf : List UInt8) (access : Access) : Decidable (access.Inside buf) := by
  unfold Access.Inside
  infer_instance

/-- The end of the read is representable in `unsigned int`. -/
def Access.Representable (access : Access) : Prop :=
  access.ind + access.wanted < 2 ^ 32

/-! ## Decoding a received PDU -/

/-- How a received buffer reaches the `>>` operators: as a request, as a reply,
or as a reply taken over by the caller's object. -/
inductive Entry
  | request
  | reply
  | takenReply
  deriving DecidableEq, Repr

/-- Wrap the buffer and unpack its header. -/
def Entry.enter (buf : List UInt8) : Entry → Unmarshall
  | .request => (Unmarshall.unpackReqHeader (.new buf)).2
  | .reply => (Unmarshall.unpackReplyHeader (.new buf)).2
  | .takenReply => Unmarshall.empty.takeIn (Unmarshall.unpackReplyHeader (.new buf)).2

/-- The object after decoding into the targets one after the other. -/
def decode (entry : Entry) (targets : List Datum) (buf : List UInt8) : Unmarshall :=
  (getAll targets (entry.enter buf)).2

/-! ## The decoder with an exact bounds test -/

namespace Unmarshall

/-- What `rawbytes` is meant to do: its bounds test cannot wrap around. -/
def rawbytesExact (ss : List UInt8) (n : UInt32) : StateM Unmarshall (List UInt8) := fun u =>
  if u.ind + n.toNat > u.sz then
    (ss, { u with ok := false, log := u.log ++ [⟨u.ind, n.toNat, 0, [], false⟩] })
  else
    let tmps := (u.buf.drop u.ind).take n.toNat
    (tmps, { u with
      ind := u.ind + n.toNat
      log := u.log ++ [⟨u.ind, n.toNat, n.toNat, tmps, u.ok⟩] })

def getStringExact (s : List UInt8) : StateM Unmarshall (List UInt8) := do
  let sz ← getUInt
  if (← get).ok then
    rawbytesExact s sz
  else
    return s

end Unmarshall

def Ty.getExact : (t : Ty) → t.Val → StateM Unmarshall t.Val
  | .bool, _ => Unmarshall.getBool
  | .char, _ => Unmarshall.getChar
  | .uchar, _ => Unmarshall.getUChar
  | .short, _ => Unmarshall.getShort
  | .ushort, _ => Unmarshall.getUShort
  | .int, _ => Unmarshall.getInt
  | .uint, _ => Unmarshall.getUInt
  | .ulonglong, _ => Unmarshall.getULongLong
  | .string, s => Unmarshall.getStringExact s
  | .vector element, v => Unmarshall.getVector element.getExact element.default v
  | .map key value, d =>
      Unmarshall.getMap key.getExact key.default value.getExact value.default d

def getAllExact : List Datum → StateM Unmarshall (List Datum)
  | [] => return []
  | target :: rest => do
      let value ← target.1.getExact target.2
      let values ← getAllExact rest
      return ⟨target.1, value⟩ :: values

def decodeExact (entry : Entry) (targets : List Datum) (buf : List UInt8) : Unmarshall :=
  (getAllExact targets (entry.enter buf)).2

/-! ## Lockstep -/

namespace Unmarshall

/-- Some read left the buffer. -/
def Overran (buf : List UInt8) (u : Unmarshall) : Prop :=
  ∃ access ∈ u.log, ¬ access.Inside buf

/-- Some read had an end that is not representable. -/
def Wrapped (u : Unmarshall) : Prop :=
  ∃ access ∈ u.log, ¬ access.Representable

/-- No read has gone wrong so far, and the next one starts inside the buffer or
right behind a header that the buffer is too short for. -/
structure Sound (buf : List UInt8) (u : Unmarshall) : Prop where
  whole : u.buf = buf
  ind : u.ind ≤ max buf.length rpcHeaderSz
  log : ∀ access ∈ u.log, access.Inside buf ∧ access.Representable

/-- Reads are never removed from the log. -/
def Keeps {α : Type} (operation : StateM Unmarshall α) : Prop :=
  ∀ u : Unmarshall, ∀ access ∈ u.log, access ∈ (operation u).2.log

/-- An operation without string reads, which keeps the state sound. -/
structure Steady {α : Type} (buf : List UInt8) (operation : StateM Unmarshall α) : Prop where
  keeps : Keeps operation
  sound : ∀ u, Sound buf u → Sound buf (operation u).2

/-- From a sound state both operations do the same and stay sound, unless the
first one overruns the buffer where the second one meets a wrapped end. -/
structure Lockstep {α : Type} (buf : List UInt8) (code exact : StateM Unmarshall α) :
    Prop where
  keepsCode : Keeps code
  keepsExact : Keeps exact
  agree : ∀ u, Sound buf u →
    (code u = exact u ∧ Sound buf (code u).2) ∨
      (Overran buf (code u).2 ∧ Wrapped (exact u).2)

theorem Keeps.pure {α : Type} (value : α) : Keeps (Pure.pure value) :=
  fun _ _ member => member

theorem Keeps.bind {α β : Type} {first : StateM Unmarshall α} {second : α → StateM Unmarshall β}
    (one : Keeps first) (two : ∀ x, Keeps (second x)) : Keeps (first >>= second) := by
  intro u access member
  change access ∈ (second (first u).1 (first u).2).2.log
  exact two _ _ _ (one u access member)

theorem Overran.keep {α : Type} {operation : StateM Unmarshall α} {buf : List UInt8}
    {u : Unmarshall} (overran : Overran buf u) (keeps : Keeps operation) :
    Overran buf (operation u).2 := by
  rcases overran with ⟨access, member, outside⟩
  exact ⟨access, keeps u access member, outside⟩

theorem Wrapped.keep {α : Type} {operation : StateM Unmarshall α} {u : Unmarshall}
    (wrapped : Wrapped u) (keeps : Keeps operation) : Wrapped (operation u).2 := by
  rcases wrapped with ⟨access, member, wraps⟩
  exact ⟨access, keeps u access member, wraps⟩

section

variable {buf : List UInt8}

theorem Lockstep.pure {α : Type} (value : α) :
    Lockstep buf (Pure.pure value) (Pure.pure value) where
  keepsCode := Keeps.pure value
  keepsExact := Keeps.pure value
  agree := fun _ sound => Or.inl ⟨rfl, sound⟩

theorem Lockstep.bind {α β : Type} {first first' : StateM Unmarshall α}
    {second second' : α → StateM Unmarshall β} (one : Lockstep buf first first')
    (two : ∀ x, Lockstep buf (second x) (second' x)) :
    Lockstep buf (first >>= second) (first' >>= second') where
  keepsCode := one.keepsCode.bind fun x => (two x).keepsCode
  keepsExact := one.keepsExact.bind fun x => (two x).keepsExact
  agree := by
    intro u sound
    change (second (first u).1 (first u).2 = second' (first' u).1 (first' u).2 ∧
        Sound buf (second (first u).1 (first u).2).2) ∨
      (Overran buf (second (first u).1 (first u).2).2 ∧
        Wrapped (second' (first' u).1 (first' u).2).2)
    rcases one.agree u sound with ⟨same, after⟩ | ⟨overran, wrapped⟩
    · rw [← same]
      exact (two _).agree _ after
    · exact Or.inr ⟨overran.keep (two _).keepsCode, wrapped.keep (two _).keepsExact⟩

theorem Steady.pure {α : Type} (value : α) : Steady buf (Pure.pure value) :=
  ⟨Keeps.pure value, fun _ sound => sound⟩

theorem Steady.bind {α β : Type} {first : StateM Unmarshall α}
    {second : α → StateM Unmarshall β} (one : Steady buf first)
    (two : ∀ x, Steady buf (second x)) : Steady buf (first >>= second) where
  keeps := one.keeps.bind fun x => (two x).keeps
  sound := fun u sound => (two (first u).1).sound _ (one.sound u sound)

theorem Steady.lockstep {α : Type} {operation : StateM Unmarshall α}
    (steady : Steady buf operation) : Lockstep buf operation operation where
  keepsCode := steady.keeps
  keepsExact := steady.keeps
  agree := fun u sound => Or.inl ⟨rfl, steady.sound u sound⟩

theorem Sound.logged {u : Unmarshall} (sound : Sound buf u) (access : Access)
    (inside : access.Inside buf) (representable : access.Representable) :
    ∀ a ∈ u.log ++ [access], a.Inside buf ∧ a.Representable := by
  intro a member
  rcases List.mem_append.mp member with old | new
  · exact sound.log a old
  · cases List.mem_singleton.mp new
    exact ⟨inside, representable⟩

theorem keeps_append {log : List Access} {access a : Access} (member : a ∈ log) :
    a ∈ log ++ [access] :=
  List.mem_append_left _ member

theorem rawbyte_keeps : Keeps rawbyte := by
  intro u access member
  unfold rawbyte
  split <;> exact keeps_append member

theorem rawbyte_steady (small : buf.length < 2 ^ 31) : Steady buf rawbyte where
  keeps := rawbyte_keeps
  sound := by
    intro u sound
    have size : u.sz = buf.length := congrArg List.length sound.whole
    have ind := sound.ind
    have representable : u.ind + 1 < 2 ^ 32 := by
      simp only [rpcHeaderSz, rpcSzT] at ind
      omega
    unfold rawbyte
    split
    · next outside =>
        refine ⟨sound.whole, sound.ind, sound.logged _ ?_ representable⟩
        rw [Access.Inside, if_neg (show ¬ u.ind + 1 ≤ buf.length by omega)]
        exact ⟨rfl, rfl, rfl⟩
    · next within =>
        have bound : u.ind < buf.length := by omega
        refine ⟨sound.whole, show u.ind + 1 ≤ _ by omega, sound.logged _ ?_ representable⟩
        rw [Access.Inside, if_pos (show u.ind + 1 ≤ buf.length by omega)]
        refine ⟨rfl, ?_⟩
        simp [sound.whole, List.take_one, List.getElem?_eq_getElem bound,
          List.getD_eq_getElem?_getD]

/-- After the operation, if nothing failed, the position is inside the buffer. -/
def Settles {α : Type} (operation : StateM Unmarshall α) : Prop :=
  ∀ u : Unmarshall, (operation u).2.ok = true → (operation u).2.ind ≤ (operation u).2.sz

theorem Settles.bind {α β : Type} {first : StateM Unmarshall α}
    {second : α → StateM Unmarshall β} (two : ∀ x, Settles (second x)) :
    Settles (first >>= second) :=
  fun u => two (first u).1 (first u).2

theorem Settles.bind_pure {α β : Type} {first : StateM Unmarshall α} {result : α → β}
    (one : Settles first) : Settles (first >>= fun x => Pure.pure (result x)) :=
  fun u => one u

theorem rawbyte_settles : Settles rawbyte := by
  intro u ok
  unfold rawbyte at ok ⊢
  split at ok
  · contradiction
  · next within =>
      rw [if_neg within]
      exact Nat.lt_of_not_le within

theorem getUInt_settles : Settles getUInt :=
  .bind fun _ => .bind fun _ => .bind fun _ => rawbyte_settles.bind_pure

theorem rawbytes_keeps (ss : List UInt8) (n : UInt32) : Keeps (rawbytes ss n) := by
  intro u access member
  unfold rawbytes
  split <;> exact keeps_append member

theorem rawbytesExact_keeps (ss : List UInt8) (n : UInt32) : Keeps (rawbytesExact ss n) := by
  intro u access member
  unfold rawbytesExact
  split <;> exact keeps_append member

/-- With a representable end both bounds tests decide the same. -/
theorem rawbytes_sound (ss : List UInt8) (n : UInt32) {u : Unmarshall} (sound : Sound buf u)
    (representable : u.ind + n.toNat < 2 ^ 32) :
    rawbytes ss n u = rawbytesExact ss n u ∧ Sound buf (rawbytes ss n u).2 := by
  have size : u.sz = buf.length := congrArg List.length sound.whole
  have same : rawbytes ss n u = rawbytesExact ss n u := by
    simp only [rawbytes, rawbytesExact, Nat.mod_eq_of_lt representable]
  refine ⟨same, ?_⟩
  rw [same]
  unfold rawbytesExact
  split
  · next outside =>
      refine ⟨sound.whole, sound.ind, sound.logged _ ?_ representable⟩
      rw [Access.Inside, if_neg (show ¬ u.ind + n.toNat ≤ buf.length by omega)]
      exact ⟨rfl, rfl, rfl⟩
  · next within =>
      refine ⟨sound.whole, show u.ind + n.toNat ≤ _ by omega, sound.logged _ ?_ representable⟩
      rw [Access.Inside, if_pos (show u.ind + n.toNat ≤ buf.length by omega)]
      exact ⟨rfl, by rw [sound.whole]⟩

/-- From a position inside the buffer a wrapped bounds test always passes, so
the two versions differ exactly on the unrepresentable ends. -/
theorem rawbytes_agree (ss : List UInt8) (n : UInt32) {u : Unmarshall} (sound : Sound buf u)
    (small : buf.length < 2 ^ 31) (settled : u.ind ≤ u.sz) :
    (rawbytes ss n u = rawbytesExact ss n u ∧ Sound buf (rawbytes ss n u).2) ∨
      (Overran buf (rawbytes ss n u).2 ∧ Wrapped (rawbytesExact ss n u).2) := by
  have size : u.sz = buf.length := congrArg List.length sound.whole
  have word := n.toNat_lt
  by_cases representable : u.ind + n.toNat < 2 ^ 32
  · exact Or.inl (rawbytes_sound ss n sound representable)
  · right
    have wrapped : (u.ind + n.toNat) % 2 ^ 32 = u.ind + n.toNat - 2 ^ 32 := by omega
    have passes : ¬ (u.ind + n.toNat) % 2 ^ 32 > u.sz := by omega
    have fails : u.ind + n.toNat > u.sz := by omega
    constructor
    · refine ⟨⟨u.ind, n.toNat, n.toNat, (u.buf.drop u.ind).take n.toNat, u.ok⟩, ?_, ?_⟩
      · simp only [rawbytes, if_neg passes]
        exact List.mem_append_right _ (List.mem_singleton_self _)
      · rw [Access.Inside, if_neg (show ¬ u.ind + n.toNat ≤ buf.length by omega)]
        intro refused
        have none : n.toNat = 0 := refused.1
        omega
    · refine ⟨⟨u.ind, n.toNat, 0, [], false⟩, ?_, representable⟩
      simp only [rawbytesExact, if_pos fails]
      exact List.mem_append_right _ (List.mem_singleton_self _)

/-! ## Lockstep of the operators -/

theorem seek_steady {ind : Nat} (inside : ind ≤ rpcHeaderSz) : Steady buf (seek ind) where
  keeps := fun _ _ member => member
  sound := fun _ sound => ⟨sound.whole, Nat.le_trans inside (Nat.le_max_right _ _), sound.log⟩

theorem getUInt_steady (small : buf.length < 2 ^ 31) : Steady buf getUInt :=
  have byte := rawbyte_steady small
  byte.bind fun _ => byte.bind fun _ => byte.bind fun _ => byte.bind fun _ => .pure _

theorem getInt_steady (small : buf.length < 2 ^ 31) : Steady buf getInt :=
  have byte := rawbyte_steady small
  byte.bind fun _ => byte.bind fun _ => byte.bind fun _ => byte.bind fun _ => .pure _

theorem unpack_steady (small : buf.length < 2 ^ 31) : Steady buf unpack :=
  getInt_steady small

theorem getULongLong_steady (small : buf.length < 2 ^ 31) : Steady buf getULongLong :=
  (getUInt_steady small).bind fun _ => (getUInt_steady small).bind fun _ => .pure _

theorem unpackReqHeader_steady (small : buf.length < 2 ^ 31) : Steady buf unpackReqHeader :=
  have field := unpack_steady small
  (seek_steady (by decide)).bind fun _ =>
    field.bind fun _ => field.bind fun _ => field.bind fun _ => field.bind fun _ =>
      field.bind fun _ => (seek_steady (Nat.le_refl _)).bind fun _ => .pure _

theorem unpackReplyHeader_steady (small : buf.length < 2 ^ 31) :
    Steady buf unpackReplyHeader :=
  have field := unpack_steady small
  (seek_steady (by decide)).bind fun _ =>
    field.bind fun _ => field.bind fun _ => (seek_steady (Nat.le_refl _)).bind fun _ => .pure _

/-- A value made of one raw byte. -/
theorem rawbyte_pure_steady (small : buf.length < 2 ^ 31) {α : Type} (result : UInt32 → α) :
    Steady buf (rawbyte >>= fun byte => Pure.pure (result byte)) :=
  (rawbyte_steady small).bind fun _ => .pure _

/-- The second operations only have to agree where the first one settles. -/
theorem Steady.bind_settled {α β : Type} {first : StateM Unmarshall α}
    {second second' : α → StateM Unmarshall β} (one : Steady buf first)
    (settles : Settles first) (keeps : ∀ x, Keeps (second x)) (keeps' : ∀ x, Keeps (second' x))
    (two : ∀ x u, Sound buf u → (u.ok = true → u.ind ≤ u.sz) →
      (second x u = second' x u ∧ Sound buf (second x u).2) ∨
        (Overran buf (second x u).2 ∧ Wrapped (second' x u).2)) :
    Lockstep buf (first >>= second) (first >>= second') where
  keepsCode := one.keeps.bind keeps
  keepsExact := one.keeps.bind keeps'
  agree := fun u sound => two _ _ (one.sound u sound) (settles u)

/-- An operation that is skipped when decoding already failed. -/
def whenOk {α : Type} (old : α) (operation : StateM Unmarshall α) : StateM Unmarshall α :=
  fun u => if u.ok then operation u else (old, u)

theorem Keeps.whenOk {α : Type} {old : α} {operation : StateM Unmarshall α}
    (keeps : Keeps operation) : Keeps (whenOk old operation) := by
  intro u access member
  unfold Unmarshall.whenOk
  split
  · exact keeps u access member
  · exact member

theorem ite_ok_eq {α : Type} (old : α) (operation : StateM Unmarshall α) :
    (do if (← get).ok then operation else return old) = whenOk old operation := by
  funext u
  unfold whenOk
  change (if u.ok then operation else Pure.pure old) u = _
  split <;> rfl

/-- The bytes of a string are read right behind its length, so from inside the buffer. -/
theorem getString_lockstep (small : buf.length < 2 ^ 31) (s : List UInt8) :
    Lockstep buf (getString s) (getStringExact s) := by
  unfold getString getStringExact
  simp only [ite_ok_eq]
  refine (getUInt_steady small).bind_settled getUInt_settles
    (fun n => (rawbytes_keeps s n).whenOk) (fun n => (rawbytesExact_keeps s n).whenOk) ?_
  intro n u sound settled
  unfold whenOk
  cases ok : u.ok with
  | false => exact Or.inl ⟨rfl, sound⟩
  | true => exact rawbytes_agree s n sound small (settled ok)

theorem pushEach_lockstep {α : Type} {get get' : α → StateM Unmarshall α} {z : α}
    (same : Lockstep buf (get z) (get' z)) :
    ∀ (n : Nat) (v : List α), Lockstep buf (pushEach get z n v) (pushEach get' z n v)
  | 0, v => .pure v
  | n + 1, v => same.bind fun x => pushEach_lockstep same n (v ++ [x])

theorem insertEach_lockstep {α β : Type} {cmp : α → α → Ordering} [Std.TransCmp cmp]
    {getKey getKey' : α → StateM Unmarshall α} {a : α}
    {getValue getValue' : β → StateM Unmarshall β} {b : β}
    (sameKey : Lockstep buf (getKey a) (getKey' a))
    (sameValue : Lockstep buf (getValue b) (getValue' b)) :
    ∀ (n : Nat) (d : Std.ExtTreeMap α β cmp),
      Lockstep buf (insertEach getKey a getValue b n d) (insertEach getKey' a getValue' b n d)
  | 0, d => .pure d
  | n + 1, d => sameKey.bind fun key => sameValue.bind fun value =>
      insertEach_lockstep sameKey sameValue n (d.insert key value)

end

end Unmarshall

open Unmarshall in
/-- Whatever the target held before, decoding it keeps the two decoders in lockstep. -/
theorem Ty.get_lockstep {buf : List UInt8} (small : buf.length < 2 ^ 31) :
    ∀ (t : Ty) (v : t.Val), Lockstep buf (t.get v) (t.getExact v)
  | .bool, _ => (rawbyte_pure_steady small _).lockstep
  | .char, _ => (rawbyte_pure_steady small _).lockstep
  | .uchar, _ => (rawbyte_pure_steady small _).lockstep
  | .short, _ => ((rawbyte_steady small).bind fun _ => rawbyte_pure_steady small _).lockstep
  | .ushort, _ => ((rawbyte_steady small).bind fun _ => rawbyte_pure_steady small _).lockstep
  | .int, _ => (getInt_steady small).lockstep
  | .uint, _ => (getUInt_steady small).lockstep
  | .ulonglong, _ => (getULongLong_steady small).lockstep
  | .string, s => getString_lockstep small s
  | .vector element, v => (getUInt_steady small).lockstep.bind fun n =>
      pushEach_lockstep (element.get_lockstep small element.default) n.toNat v
  | .map key value, _ => (getUInt_steady small).lockstep.bind fun n =>
      insertEach_lockstep (key.get_lockstep small key.default)
        (value.get_lockstep small value.default) n.toNat .empty

theorem getAll_lockstep {buf : List UInt8} (small : buf.length < 2 ^ 31) :
    ∀ targets : List Datum, Unmarshall.Lockstep buf (getAll targets) (getAllExact targets)
  | [] => .pure []
  | target :: rest => (target.1.get_lockstep small target.2).bind fun _ =>
      (getAll_lockstep small rest).bind fun _ => .pure _

/-! ## The reads of a whole decoding -/

theorem Unmarshall.Sound.takeIn {buf : List UInt8} {another : Unmarshall}
    (sound : another.Sound buf) (u : Unmarshall) : (u.takeIn another).Sound buf :=
  ⟨sound.whole, Nat.le_max_right _ _, sound.log⟩

theorem enter_sound {buf : List UInt8} (small : buf.length < 2 ^ 31) (entry : Entry) :
    (entry.enter buf).Sound buf := by
  have fresh : (Unmarshall.new buf).Sound buf := by
    refine ⟨rfl, Nat.zero_le _, ?_⟩
    intro access member
    cases member
  have reply := (Unmarshall.unpackReplyHeader_steady small).sound _ fresh
  cases entry with
  | request => exact (Unmarshall.unpackReqHeader_steady small).sound _ fresh
  | reply => exact reply
  | takenReply => exact reply.takeIn Unmarshall.empty

/-- Every read of a decoding stays inside the buffer if and only if no string
length `n` that the exact decoder meets at a position `ind` has
`ind + n ≥ 2 ^ 32`. -/
theorem decode_inside_iff (entry : Entry) (targets : List Datum) (buf : List UInt8)
    (small : buf.length < 2 ^ 31) :
    (∀ access ∈ (decode entry targets buf).log, access.Inside buf) ↔
      ∀ access ∈ (decodeExact entry targets buf).log, access.Representable := by
  have sound := enter_sound small entry
  rcases (getAll_lockstep small targets).agree _ sound with ⟨same, after⟩ | ⟨overran, wrapped⟩
  · have equal : decode entry targets buf = decodeExact entry targets buf :=
      congrArg Prod.snd same
    rw [← equal]
    exact iff_of_true (fun access member => (after.log access member).1)
      fun access member => (after.log access member).2
  · rcases overran with ⟨access, member, outside⟩
    rcases wrapped with ⟨other, found, wraps⟩
    exact iff_of_false (fun all => outside (all access member)) fun all => wraps (all other found)

/-- A request of 28 bytes whose payload announces a string of 2^32 - 28 bytes. -/
def overlongString : List UInt8 :=
  List.replicate 24 0 ++ [255, 255, 255, 228]

theorem decode_overlongString_overruns :
    ¬ ∀ access ∈ (decode .request [⟨.string, []⟩] overlongString).log,
      access.Inside overlongString := by
  decide

theorem decode_inside_iff_word :
    (decode .request [⟨.string, []⟩] (List.replicate 24 0 ++ [0, 0, 0, 1, 65])).log ≠ [] ∧
      ∀ access ∈ (decode .request [⟨.string, []⟩] (List.replicate 24 0 ++ [0, 0, 0, 1, 65])).log,
        access.Inside (List.replicate 24 0 ++ [0, 0, 0, 1, 65]) := by
  constructor
  · decide
  · apply (decode_inside_iff .request [⟨.string, []⟩] (List.replicate 24 0 ++ [0, 0, 0, 1, 65])
      (by decide)).mpr
    unfold Access.Representable
    decide

end YfsRpc.Rpc
