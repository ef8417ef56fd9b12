import YfsRpc.Rpc.Client
import YfsRpc.Rpc.DecodeBounds
import YfsRpc.Rpc.RoundTrip

/-! # What decoding leaves of the old value

A successful `>>` overwrites its target, unless the target is a vector: the
vector operator appends the decoded elements to what the target held. The map
operator clears its target first.
-/

namespace YfsRpc.Rpc

open Unmarshall

/-- The types whose operator keeps the elements of its target. -/
def Ty.Appends : Ty → Prop
  | .vector _ => True
  | _ => False

/-! ## The operators that look at their target -/

namespace Unmarshall

/-- Of two operations the second one moves like the first, and returns the same
if no read fails. -/
def Alike {α : Type} (one other : StateM Unmarshall α) : Prop :=
  ∀ u, (one u).2 = (other u).2 ∧ ((one u).2.ok = true → (one u).1 = (other u).1)

theorem Alike.bind {α β : Type} {first : StateM Unmarshall α}
    {second second' : α → StateM Unmarshall β} (alike : ∀ x, Alike (second x) (second' x)) :
    Alike (first >>= second) (first >>= second') :=
  fun u => alike (first u).1 (first u).2

theorem rawbytes_alike (s s' : List UInt8) (n : UInt32) :
    Alike (whenOk s (rawbytes s n)) (whenOk s' (rawbytes s' n)) := by
  intro u
  unfold whenOk rawbytes
  split
  · split
    · exact ⟨rfl, fun ok => absurd ok Bool.false_ne_true⟩
    · exact ⟨rfl, fun _ => rfl⟩
  · next failed => exact ⟨rfl, fun ok => absurd ok failed⟩

/-- A string is replaced as a whole. -/
theorem getString_alike (s s' : List UInt8) : Alike (getString s) (getString s') := by
  unfold getString
  simp only [ite_ok_eq]
  exact .bind fun n => rawbytes_alike s s' n

end Unmarshall

/-! ## All types -/

/-- What is read does not depend on the old value. -/
theorem Ty.get_state (t : Ty) (v v' : t.Val) (u : Unmarshall) :
    (t.get v u).2 = (t.get v' u).2 := by
  cases t with
  | bool | char | uchar | short | ushort | int | uint | ulonglong | map => rfl
  | string => exact (getString_alike v v' u).1
  | vector element =>
      unfold Ty.get
      rw [getVector_eq_map _ _ v, getVector_eq_map _ _ v', map_apply, map_apply]

/-- Two old values give the same result exactly when the operator overwrites its
target or the old values are the same. -/
theorem Ty.get_value_iff (t : Ty) (v v' : t.Val) (u : Unmarshall)
    (ok : (t.get v u).2.ok = true) :
    (t.get v u).1 = (t.get v' u).1 ↔ (t.Appends → v = v') := by
  cases t with
  | bool | char | uchar | short | ushort | int | uint | ulonglong | map =>
      exact iff_of_true rfl False.elim
  | string => exact iff_of_true ((getString_alike v v' u).2 ok) False.elim
  | vector element =>
      unfold Ty.get
      rw [getVector_eq_map _ _ v, getVector_eq_map _ _ v', map_apply, map_apply]
      constructor
      · intro same _
        exact List.append_cancel_right same
      · intro same
        rw [same trivial]

/-- What a target holds after a successful decoding: a vector keeps its elements. -/
def Ty.keep : (t : Ty) → t.Val → t.Val → t.Val
  | .vector _, old, v => List.append old v
  | .bool, _, v | .char, _, v | .uchar, _, v | .short, _, v | .ushort, _, v | .int, _, v
  | .uint, _, v | .ulonglong, _, v | .string, _, v | .map _ _, _, v => v

/-- The target keeps what it holds in front of what a fresh one would get. -/
theorem Ty.get_keep (t : Ty) (old : t.Val) (u : Unmarshall) (ok : (t.get old u).2.ok = true) :
    (t.get old u).1 = t.keep old (t.get t.default u).1 := by
  cases t with
  | bool | char | uchar | short | ushort | int | uint | ulonglong | map => rfl
  | string => exact (getString_alike old [] u).2 ok
  | vector element =>
      unfold Ty.get
      rw [getVector_eq_map _ _ old, map_apply]
      rfl

/-! ## Results of calls -/

/-- `rpcc::call_m` after `call1` returned `intret` and left the reply in `u`: the
return value, and what the caller's `r` holds. -/
def callM (t : Ty) (intret : Int) (u : Unmarshall) (r : t.Val) : Int × t.Val :=
  if intret < 0 then (intret, r)
  else if (t.get r u).2.okdone ≠ true then (RpcConst.unmarshalReplyFailure, (t.get r u).1)
  else (intret, (t.get r u).1)

/-- A call that succeeds stored what it decoded. -/
theorem callM_stored {t : Ty} {intret : Int} {u : Unmarshall} {r : t.Val}
    (success : 0 ≤ (callM t intret u r).1) :
    0 ≤ intret ∧ (t.get r u).2.okdone = true ∧ callM t intret u r = (intret, (t.get r u).1) := by
  unfold callM at success ⊢
  by_cases failed : intret < 0
  · rw [if_pos failed] at success
    exact absurd success (not_le.mpr failed)
  · rw [if_neg failed] at success ⊢
    by_cases done : (t.get r u).2.okdone = true
    · exact ⟨not_lt.mp failed, done, if_neg (not_not.mpr done)⟩
    · rw [if_pos done] at success
      exact absurd success (show ¬ 0 ≤ RpcConst.unmarshalReplyFailure by decide)

/-- Decoding with the flag true at the end gives the same value for two old ones
exactly when the target is not a vector or the old values are the same; so does
a call that succeeds. -/
theorem get_overwrites_iff (t : Ty) (u : Unmarshall) (v v' : t.Val)
    (ok : (t.get v u).2.ok = true) :
    ((t.get v u).1 = (t.get v' u).1 ↔ (t.Appends → v = v')) ∧
      ∀ intret, 0 ≤ (callM t intret u v).1 →
        (callM t intret u v').1 = (callM t intret u v).1 ∧
          ((callM t intret u v).2 = (callM t intret u v').2 ↔ (t.Appends → v = v')) := by
  refine ⟨t.get_value_iff v v' u ok, ?_⟩
  intro intret success
  rcases callM_stored success with ⟨nonneg, done, stored⟩
  have stored' : callM t intret u v' = (intret, (t.get v' u).1) := by
    unfold callM
    rw [if_neg (not_lt.mpr nonneg), ← t.get_state v v' u, if_neg (not_not.mpr done)]
  rw [stored, stored']
  exact ⟨rfl, t.get_value_iff v v' u ok⟩

theorem get_overwrites_iff_map :
    ((Ty.map .char .bool).get .empty (.takeContent (fun _ => 0) [0, 0, 0, 0])).1 =
        ((Ty.map .char .bool).get (Std.ExtTreeMap.empty.insert (0 : Int8) true)
          (.takeContent (fun _ => 0) [0, 0, 0, 0])).1 :=
  (get_overwrites_iff (.map .char .bool) (.takeContent (fun _ => 0) [0, 0, 0, 0]) .empty
    (Std.ExtTreeMap.empty.insert (0 : Int8) true) (by decide)).1.mpr False.elim

/-- The reply holds the vector `[7]`. Decoded into a variable that holds `[1]` it
leaves `[1, 7]`. -/
theorem reusedVector_keeps :
    let u := Unmarshall.takeContent (fun _ => 0) [0, 0, 0, 1, 7]
    ((Ty.vector .uchar).get [] u).2.ok = true ∧
      ((Ty.vector .uchar).get [] u).1 = [7] ∧
      ((Ty.vector .uchar).get [1] u).1 = [1, 7] ∧
      callM (.vector .uchar) 0 u [1] = (0, [1, 7]) := by
  decide

end YfsRpc.Rpc
