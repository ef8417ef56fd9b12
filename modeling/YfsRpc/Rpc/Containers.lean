import YfsRpc.Rpc.WireFormat

/-! # Decoding truncated containers

The operators of vectors and maps read a count and then decode that many
elements, also when the buffer has run out: the flag is not tested in between.
A buffer with all elements but the last one is the exact case in which no
element is begun after a failure.
-/

namespace YfsRpc.Rpc

open YfsRpc.Words Unmarshall

/-- The types that are decoded as a count and elements. -/
inductive Container
  | vector (element : Ty)
  | map (key value : Ty)
  deriving DecidableEq, Repr

namespace Container

def ty : Container → Ty
  | vector element => .vector element
  | map key value => .map key value

/-- An element of a vector, or an entry of a map. -/
abbrev Elem : Container → Type
  | vector element => element.Val
  | map key value => key.Val × value.Val

def default : (c : Container) → c.Elem
  | vector element => element.default
  | map key value => (key.default, value.default)

/-- The wire format of an element. -/
def wire : (c : Container) → Format UInt8 c.Elem
  | vector element => element.Wire
  | map key value => Format.pair key.Wire value.Wire

/-- Decode one element. -/
def get : (c : Container) → c.Elem → StateM Unmarshall c.Elem
  | vector element => element.get
  | map key value => getEntry key.get value.get

/-- Decode one element with exact bounds tests. -/
def getExact : (c : Container) → c.Elem → StateM Unmarshall c.Elem
  | vector element => element.getExact
  | map key value => getEntry key.getExact value.getExact

/-- Append or insert the elements. -/
def fill : (c : Container) → c.ty.Val → List c.Elem → c.ty.Val
  | vector element, v, values => @List.append element.Val v values
  | map _ _, _, entries => mapOf entries

variable (c : Container)

/-- The elements that are appended or inserted, in order. -/
def elements (u : Unmarshall) : List c.Elem := (getVector c.get c.default [] u).1

/-- The object when the count and `i` elements have been decoded. -/
def after (u : Unmarshall) : Nat → Unmarshall
  | 0 => (getUInt u).2
  | i + 1 => (c.get c.default (after u i)).2

/-- Decoding is over once it has failed: no element is begun unless the object is
still `alive`. Only the last one may run out of bytes, so the elements are at
most one more than the bytes behind the count. -/
structure Bounded (alive : Unmarshall → Prop) (u : Unmarshall) : Prop where
  count : (c.elements u).length ≤ (getUInt u).2.sz - (getUInt u).2.ind + 1
  stops : ∀ i < (c.elements u).length, alive (c.after u i)

/-- The unread bytes have all elements but the last one. -/
def AllButLast (n : UInt32) (rest : List UInt8) : Prop :=
  n = 0 ∨ ∃ bytes values, values.length + 1 = n.toNat ∧ Format.Each c.wire bytes values ∧
    bytes <+: rest

/-! ## The loop -/

theorem get_eq_map (target : c.ty.Val) :
    c.ty.get target = c.fill target <$> getVector c.get c.default [] := by
  cases c with
  | vector element => exact getVector_eq_map element.get element.default target
  | map key value => exact getMap_eq_map key.get key.default value.get value.default target

theorem getVector_apply {α : Type} (get : α → StateM Unmarshall α) (z : α) (v : List α)
    (u : Unmarshall) :
    getVector get z v u = pushEach get z (getUInt u).1.toNat v (getUInt u).2 := by
  rw [getVector, bind_apply]

theorem length_pushEach {α : Type} (get : α → StateM Unmarshall α) (z : α) (n : Nat) (v : List α)
    (u : Unmarshall) : (pushEach get z n v u).1.length = v.length + n := by
  induction n generalizing v u with
  | zero => rfl
  | succ n induction =>
      change (pushEach get z n (v ++ [(get z u).1]) (get z u).2).1.length = _
      rw [induction, List.length_append, List.length_singleton]
      omega

theorem pushEach_state {α : Type} (get : α → StateM Unmarshall α) (z : α) (n : Nat) (v : List α)
    (u : Unmarshall) : (pushEach get z n v u).2 = (fun u => (get z u).2)^[n] u := by
  induction n generalizing v u with
  | zero => rfl
  | succ n induction => exact induction (v ++ [(get z u).1]) (get z u).2

theorem after_eq (u : Unmarshall) (i : Nat) :
    c.after u i = (pushEach c.get c.default i [] (getUInt u).2).2 := by
  rw [pushEach_state]
  induction i with
  | zero => rfl
  | succ i induction =>
      rw [Function.iterate_succ_apply', ← induction]
      rfl

/-- As many elements are decoded as the count says. -/
theorem length_elements (u : Unmarshall) : (c.elements u).length = (getUInt u).1.toNat := by
  rw [elements, getVector_apply, length_pushEach, List.length_nil, Nat.zero_add]

/-- Decoding ends when the last element has been decoded. -/
theorem get_state (target : c.ty.Val) (u : Unmarshall) :
    (c.ty.get target u).2 = c.after u (c.elements u).length := by
  rw [c.get_eq_map, map_apply, c.length_elements, c.after_eq, getVector_apply]

/-! ## The elements -/

theorem get_lockstep {buf : List UInt8} (small : buf.length < 2 ^ 31) :
    Lockstep buf (c.get c.default) (c.getExact c.default) := by
  cases c with
  | vector element => exact element.get_lockstep small element.default
  | map key value =>
      exact (key.get_lockstep small key.default).bind fun _ =>
        (value.get_lockstep small value.default).bind fun _ => .pure _

theorem getExact_parses : Parses (c.getExact c.default) c.wire := by
  cases c with
  | vector element => exact element.getExact_parses
  | map key value => exact getEntry_parses key.getExact_parses value.getExact_parses

theorem get_inside : ∀ bytes x, c.wire bytes x → ReadsInside (c.get c.default) bytes x := by
  cases c with
  | vector element => exact element.readsInside_of_wire
  | map key value => exact getEntry_inside key.readsInside_of_wire value.readsInside_of_wire

theorem wire_pos : ∀ bytes x, c.wire bytes x → 0 < bytes.length := by
  cases c with
  | vector element => exact element.wire_pos
  | map key value => exact Ty.wire_pair_pos key value

theorem after_log {u : Unmarshall} {i j : Nat} (order : i ≤ j) :
    ∀ access ∈ (c.after u i).log, access ∈ (c.after u j).log := by
  induction order with
  | refl => exact fun _ member => member
  | @step j order induction =>
      intro access member
      -- Any bound will do: that reads stay in the log does not depend on it.
      have keeps := (c.get_lockstep (show ([] : List UInt8).length < 2 ^ 31 by decide)).keepsCode
      exact keeps _ _ (induction access member)

/-! ## A count and the unread bytes behind it -/

/-- An object at a count, with `rest` behind it. -/
def atCount (before : List UInt8) (n : UInt32) (rest : List UInt8) : Unmarshall where
  buf := before ++ (bytes32 n ++ rest)
  ind := before.length
  ok := true
  log := []

/-- No read has failed, and none has left the buffer. -/
def Defined (buf : List UInt8) (u : Unmarshall) : Prop :=
  u.ok = true ∧ ∀ access ∈ u.log, access.Inside buf

section

variable {before rest : List UInt8} {n : UInt32}

theorem atCount_sound : Sound (atCount before n rest).buf (atCount before n rest) where
  whole := rfl
  ind := by
    refine Nat.le_trans ?_ (Nat.le_max_left _ _)
    rw [atCount, List.length_append]
    exact Nat.le_add_right _ _
  log := fun _ member => nomatch member

/-- The count has been read, and the unread bytes are the rest. -/
theorem atCount_read (small : (atCount before n rest).sz < 2 ^ 31) :
    ∃ u, getUInt (atCount before n rest) = (n, u) ∧ u.ok = true ∧
      u.buf = (before ++ bytes32 n) ++ rest ∧ u.ind = (before ++ bytes32 n).length ∧
      Sound (atCount before n rest).buf u := by
  rcases getUInt_reads n (atCount before n rest) before rest rfl rfl rfl small with ⟨u, done, moved⟩
  have sound := (getUInt_steady small).sound _ (@atCount_sound before rest n)
  rw [done] at sound
  refine ⟨u, done, moved.ok, ?_, ?_, sound⟩
  · rw [moved.buf, atCount, List.append_assoc]
  · rw [moved.ind, atCount, List.length_append]

theorem unread_atCount (small : (atCount before n rest).sz < 2 ^ 31) :
    (getUInt (atCount before n rest)).2.sz - (getUInt (atCount before n rest)).2.ind =
      rest.length := by
  rcases @atCount_read before rest n small with ⟨u, done, -, buf, ind, -⟩
  rw [done]
  change u.sz - u.ind = rest.length
  rw [Unmarshall.sz, buf, ind, List.length_append, Nat.add_sub_cancel_left]

theorem length_elements_atCount (small : (atCount before n rest).sz < 2 ^ 31) :
    (c.elements (atCount before n rest)).length = n.toNat := by
  rcases @atCount_read before rest n small with ⟨u, done, -⟩
  rw [c.length_elements, done]

/-- Elements behind the count that were decoded without a failure are in the
unread bytes. -/
theorem wire_of_defined (small : (atCount before n rest).sz < 2 ^ 31) (i : Nat)
    (defined : Defined (atCount before n rest).buf (c.after (atCount before n rest) i)) :
    ∃ bytes values, values.length = i ∧ Format.Each c.wire bytes values ∧ bytes <+: rest := by
  rcases @atCount_read before rest n small with ⟨u, done, -, buf, ind, sound⟩
  rw [c.after_eq, done] at defined
  rcases defined with ⟨ok, inside⟩
  rcases (pushEach_lockstep (c.get_lockstep small) i []).agree u sound with
    ⟨same, -⟩ | ⟨⟨access, member, outside⟩, -⟩
  · rw [same] at ok
    rcases pushEach_parses c.getExact_parses i u ok with ⟨bytes, took, length, each⟩
    refine ⟨bytes, _, length, each, ?_⟩
    have unread := took.bytes
    rw [buf, ind, List.drop_left] at unread
    exact ⟨_, unread.symm⟩
  · exact absurd (inside access member) outside

/-- Elements that are in the unread bytes are decoded without a failure. -/
theorem defined_of_wire (small : (atCount before n rest).sz < 2 ^ 31) {bytes : List UInt8}
    {values : List c.Elem} (each : Format.Each c.wire bytes values) (within : bytes <+: rest)
    {i : Nat} (bound : i ≤ values.length) :
    Defined (atCount before n rest).buf (c.after (atCount before n rest) i) := by
  rcases @atCount_read before rest n small with ⟨u, done, wasOk, buf, ind, sound⟩
  rcases each.take i with ⟨front, back, rfl, taken⟩
  rcases within with ⟨behind, rfl⟩
  have inside := pushEach_inside c.get_inside taken
  rw [List.length_take, Nat.min_eq_left bound] at inside
  rw [List.append_assoc front] at buf
  have fits : u.sz < 2 ^ 31 := by
    rw [Unmarshall.sz, sound.whole]
    exact small
  rcases inside.reads u _ _ wasOk buf ind fits with ⟨last, ended, moved⟩
  have kept := inside.sound u _ _ wasOk buf ind fits (by rw [sound.whole]; exact sound)
  rw [c.after_eq, done]
  change Defined _ (pushEach c.get c.default i [] u).2
  refine ⟨?_, ?_⟩
  · rw [ended]
    exact moved.ok
  · rw [← sound.whole]
    exact fun access member => (kept.log access member).1

/-- Decoding is bounded exactly when at most the last element is missing. -/
theorem bounded_iff (small : (atCount before n rest).sz < 2 ^ 31) :
    c.Bounded (Defined (atCount before n rest).buf) (atCount before n rest) ↔
      c.AllButLast n rest := by
  have length := c.length_elements_atCount small
  constructor
  · rintro ⟨-, stops⟩
    by_cases none : n = 0
    · exact Or.inl none
    · have positive : 0 < n.toNat :=
        Nat.pos_of_ne_zero fun zero => none (UInt32.toNat_inj.mp zero)
      have last := stops (n.toNat - 1) (by omega)
      rcases c.wire_of_defined small _ last with ⟨bytes, values, count, each, within⟩
      exact Or.inr ⟨bytes, values, by omega, each, within⟩
  · intro complete
    rcases complete with rfl | ⟨bytes, values, count, each, within⟩
    · refine ⟨by rw [length]; exact Nat.zero_le _, ?_⟩
      intro i bound
      rw [length] at bound
      exact absurd bound (Nat.not_lt_zero i)
    · constructor
      · rw [length, unread_atCount small]
        have some := each.length_le c.wire_pos
        have room := within.length_le
        omega
      · intro i bound
        rw [length] at bound
        exact c.defined_of_wire small each within (by omega)

end

/-- A container is decoded into its elements, as many as the count says. Decoding
stops at the first failure, with at most one element more than unread bytes,
exactly when the unread bytes have all elements but the last one. -/
theorem decode_bounded_iff (target : c.ty.Val) (before rest : List UInt8) (n : UInt32)
    (small : (atCount before n rest).sz < 2 ^ 31) :
    (c.ty.get target (atCount before n rest)).1 =
        c.fill target (c.elements (atCount before n rest)) ∧
      (c.elements (atCount before n rest)).length = n.toNat ∧
      (c.Bounded (Defined (atCount before n rest).buf) (atCount before n rest) ↔
        c.AllButLast n rest) ∧
      ((∀ access ∈ (c.ty.get target (atCount before n rest)).2.log,
          access.Inside (atCount before n rest).buf) →
        (c.Bounded (·.ok = true) (atCount before n rest) ↔ c.AllButLast n rest)) := by
  refine ⟨?_, c.length_elements_atCount small, c.bounded_iff small, ?_⟩
  · rw [c.get_eq_map, map_apply]
    rfl
  · intro inside
    rw [← c.bounded_iff small]
    constructor
    · rintro ⟨count, stops⟩
      refine ⟨count, fun i bound => ⟨stops i bound, ?_⟩⟩
      intro access member
      rw [c.get_state] at inside
      exact inside access (c.after_log bound.le access member)
    · rintro ⟨count, stops⟩
      exact ⟨count, fun i bound => (stops i bound).1⟩

theorem decode_bounded_iff_short :
    (vector .uchar).Bounded (Defined [0, 0, 0, 2, 9]) (atCount [] 2 [9]) :=
  ((vector .uchar).decode_bounded_iff [] [] [9] 2 (by decide)).2.2.1.mpr
    (Or.inr ⟨[9], [9], rfl, @Format.Each.encoded_iff _ _ (Ty.encode .uchar) _ _ |>.mpr rfl,
      List.prefix_rfl⟩)

/-- Three elements are announced and none is there: the second one is begun after
the first one failed, and all three are appended. -/
theorem missingElements_invented :
    ((Ty.vector .uchar).get [] (atCount [] 3 [])).1 = [0, 0, 0] ∧
      ¬ (vector .uchar).Bounded (·.ok = true) (atCount [] 3 []) := by
  refine ⟨by decide, ?_⟩
  rintro ⟨count, -⟩
  exact absurd count (by decide)

end Container

end YfsRpc.Rpc
