import Mathlib.Data.List.Basic

/-! # Formats

A format relates token sequences to the values they denote. Formats of one
element are repeated and paired to formats of sequences.
-/

namespace YfsRpc

universe u v w

/-- The tokens that denote a value. -/
abbrev Format (τ : Type u) (α : Type v) := List τ → α → Prop

namespace Format

variable {τ : Type u} {α : Type v} {β : Type w}

/-- The format of the values that `encode` produces. -/
def encoded (encode : α → List τ) : Format τ α := fun tokens x => tokens = encode x

/-- A value of one format behind a value of another one. -/
def pair (left : Format τ α) (right : Format τ β) : Format τ (α × β) :=
  fun tokens both => ∃ front back, tokens = front ++ back ∧ left front both.1 ∧ right back both.2

/-- Elements of one format, one after the other. -/
inductive Each (format : Format τ α) : Format τ (List α)
  | nil : Each format [] []
  | cons {front back : List τ} {x : α} {rest : List α} (head : format front x)
      (tail : Each format back rest) : Each format (front ++ back) (x :: rest)

variable {format : Format τ α}

theorem Each.cons_iff {tokens : List τ} {x : α} {rest : List α} :
    Each format tokens (x :: rest) ↔
      ∃ front back, tokens = front ++ back ∧ format front x ∧ Each format back rest := by
  constructor
  · intro each
    cases each with
    | cons head tail => exact ⟨_, _, rfl, head, tail⟩
  · rintro ⟨front, back, rfl, head, tail⟩
    exact .cons head tail

/-- Repeating an encoding gives the concatenation of the encodings. -/
theorem Each.encoded_iff {encode : α → List τ} {tokens : List τ} {values : List α} :
    Each (encoded encode) tokens values ↔ tokens = values.flatMap encode := by
  induction values generalizing tokens with
  | nil =>
      constructor
      · rintro ⟨⟩
        rfl
      · rintro rfl
        exact .nil
  | cons x rest induction =>
      rw [Each.cons_iff, List.flatMap_cons]
      constructor
      · rintro ⟨front, back, rfl, rfl, tail⟩
        rw [induction.mp tail]
      · rintro rfl
        exact ⟨_, _, rfl, rfl, induction.mpr rfl⟩

theorem Each.mono {wider : Format τ α} (implies : ∀ tokens x, format tokens x → wider tokens x)
    {tokens : List τ} {values : List α} (each : Each format tokens values) :
    Each wider tokens values := by
  induction each with
  | nil => exact .nil
  | cons head tail induction => exact .cons (implies _ _ head) induction

/-- The first elements take a prefix of the tokens. -/
theorem Each.take {tokens : List τ} {values : List α} (each : Each format tokens values)
    (i : Nat) : ∃ front back, tokens = front ++ back ∧ Each format front (values.take i) := by
  induction each generalizing i with
  | nil => exact ⟨[], [], rfl, by rw [List.take_nil]; exact .nil⟩
  | @cons front back x rest head tail induction =>
      cases i with
      | zero => exact ⟨[], front ++ back, rfl, .nil⟩
      | succ i =>
          rcases induction i with ⟨taken, left, rfl, each⟩
          exact ⟨front ++ taken, left, (List.append_assoc ..).symm, .cons head each⟩

/-- Elements that take at least one token are no more than the tokens. -/
theorem Each.length_le (positive : ∀ tokens x, format tokens x → 0 < tokens.length)
    {tokens : List τ} {values : List α} (each : Each format tokens values) :
    values.length ≤ tokens.length := by
  induction each with
  | nil => exact Nat.le_refl 0
  | cons head tail induction =>
      have taken := positive _ _ head
      rw [List.length_cons, List.length_append]
      omega

end Format

end YfsRpc
