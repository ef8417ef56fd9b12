import Mathlib.Data.List.Infix

/-! # Self-delimiting frames

A set of frames is prefix free when no frame is a proper prefix of another one.
A concatenation of such frames can be cut in one way only, so a receiver that
cuts frames off a stream recovers them in order.
-/

namespace YfsRpc

/-- Frames that are not empty and none of which is a proper prefix of another. -/
structure PrefixFree {α : Type u} (framed : List α → Prop) : Prop where
  ne_nil : ∀ frame, framed frame → frame ≠ []
  eq_of_prefix : ∀ left right, framed left → framed right → left <+: right → left = right

namespace PrefixFree

variable {α : Type u} {framed : List α → Prop}

/-- Two frames at the start of the same stream are the same frame. -/
theorem eq_of_common (free : PrefixFree framed) {left right stream : List α}
    (leftFramed : framed left) (rightFramed : framed right)
    (leftPrefix : left <+: stream) (rightPrefix : right <+: stream) : left = right := by
  rcases List.prefix_or_prefix_of_prefix leftPrefix rightPrefix with shorter | longer
  · exact free.eq_of_prefix left right leftFramed rightFramed shorter
  · exact (free.eq_of_prefix right left rightFramed leftFramed longer).symm

/-- Frames cut off a prefix of a stream of frames are the first frames of it. -/
theorem prefix_of_flatten_prefix (free : PrefixFree framed) :
    ∀ received sent : List (List α),
      (∀ frame ∈ received, framed frame) → (∀ frame ∈ sent, framed frame) →
      received.flatten <+: sent.flatten → received <+: sent
  | [], sent, _, _, _ => List.nil_prefix
  | first :: rest, [], receivedFramed, _, inside => by
      have empty : first = [] := by
        have all := List.prefix_nil.mp inside
        exact (List.append_eq_nil_iff.mp all).1
      exact absurd empty (free.ne_nil first (receivedFramed first List.mem_cons_self))
  | first :: rest, head :: tail, receivedFramed, sentFramed, inside => by
      rw [List.flatten_cons, List.flatten_cons] at inside
      have same : first = head :=
        free.eq_of_common (receivedFramed first List.mem_cons_self)
          (sentFramed head List.mem_cons_self)
          ((List.prefix_append _ _).trans inside) (List.prefix_append _ _)
      subst same
      have tails := free.prefix_of_flatten_prefix rest tail
        (fun frame member => receivedFramed frame (List.mem_cons_of_mem _ member))
        (fun frame member => sentFramed frame (List.mem_cons_of_mem _ member))
        ((List.prefix_append_right_inj first).mp inside)
      exact List.cons_prefix_cons.mpr ⟨rfl, tails⟩

end PrefixFree

end YfsRpc
