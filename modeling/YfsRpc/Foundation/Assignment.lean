import Mathlib.Data.List.Nodup

/-! # Items that are taken and finished

Workers take items off a list, one at a time, and finish them. Each item that was taken
is finished or held by exactly one worker.
-/

namespace YfsRpc

variable {ω : Type u} {κ : Type v}

structure Assigned (holds : ω → Option κ) (taken finished : List κ) : Prop where
  once : finished.Nodup
  busy : ∀ i k, holds i = some k → k ∈ taken ∧ k ∉ finished
  apart : ∀ i j k, holds i = some k → holds j = some k → i = j
  covered : ∀ k ∈ taken, k ∈ finished ∨ ∃ i, holds i = some k
  known : ∀ k ∈ finished, k ∈ taken

namespace Assigned

variable {holds after : ω → Option κ} {taken finished : List κ} {i : ω} {k : κ}

theorem nobody (idle : ∀ i, holds i = none) : Assigned holds [] [] where
  once := List.nodup_nil
  busy i k held := by
    rw [idle i] at held
    contradiction
  apart i j k held _ := by
    rw [idle i] at held
    contradiction
  covered := nofun
  known := nofun

/-- An idle worker takes an item that nobody took before. -/
theorem take (assigned : Assigned holds taken finished) (idle : holds i = none)
    (fresh : k ∉ taken) (here : after i = some k) (others : ∀ j, j ≠ i → after j = holds j) :
    Assigned after (taken ++ [k]) finished where
  once := assigned.once
  busy j item held := by
    by_cases same : j = i
    · rw [same, here] at held
      cases held
      exact ⟨List.mem_append_right _ (List.mem_singleton_self k),
        fun done => fresh (assigned.known k done)⟩
    · rw [others j same] at held
      rcases assigned.busy j item held with ⟨member, unfinished⟩
      exact ⟨List.mem_append_left _ member, unfinished⟩
  apart j l item first second := by
    have unheld {l : ω} (differs : l ≠ i) (held : after l = some item) : item ∈ taken := by
      rw [others l differs] at held
      exact (assigned.busy l item held).1
    by_cases left : j = i
    · by_cases right : l = i
      · exact left.trans right.symm
      · rw [left, here] at first
        cases first
        exact absurd (unheld right second) fresh
    · by_cases right : l = i
      · rw [right, here] at second
        cases second
        exact absurd (unheld left first) fresh
      · rw [others j left] at first
        rw [others l right] at second
        exact assigned.apart j l item first second
  covered item member := by
    rcases List.mem_append.mp member with old | new
    · rcases assigned.covered item old with done | ⟨j, held⟩
      · exact Or.inl done
      · refine Or.inr ⟨j, (others j fun same => ?_).trans held⟩
        rw [same, idle] at held
        contradiction
    · rw [List.mem_singleton.mp new]
      exact Or.inr ⟨i, here⟩
  known item done := List.mem_append_left _ (assigned.known item done)

/-- A worker finishes the item that it holds. -/
theorem finish (assigned : Assigned holds taken finished) (held : holds i = some k)
    (here : after i = none) (others : ∀ j, j ≠ i → after j = holds j) :
    Assigned after taken (finished ++ [k]) where
  once := by
    refine List.nodup_append.mpr ⟨assigned.once, List.nodup_singleton k, ?_⟩
    intro done member other same
    rw [List.mem_singleton.mp same]
    exact fun equal => (assigned.busy i k held).2 (equal ▸ member)
  busy j item holding := by
    have differs : j ≠ i := by
      rintro rfl
      rw [here] at holding
      contradiction
    rw [others j differs] at holding
    rcases assigned.busy j item holding with ⟨member, unfinished⟩
    refine ⟨member, fun done => ?_⟩
    rcases List.mem_append.mp done with old | new
    · exact unfinished old
    · rw [List.mem_singleton.mp new] at holding
      exact differs (assigned.apart j i k holding held)
  apart j l item first second := by
    have still {l : ω} (holding : after l = some item) : holds l = some item := by
      by_cases same : l = i
      · rw [same, here] at holding
        contradiction
      · rwa [others l same] at holding
    exact assigned.apart j l item (still first) (still second)
  covered item member := by
    rcases assigned.covered item member with done | ⟨j, holding⟩
    · exact Or.inl (List.mem_append_left _ done)
    · by_cases same : j = i
      · rw [same, held] at holding
        cases holding
        exact Or.inl (List.mem_append_right _ (List.mem_singleton_self k))
      · exact Or.inr ⟨j, (others j same).trans holding⟩
  known item done := by
    rcases List.mem_append.mp done with old | new
    · exact assigned.known item old
    · rw [List.mem_singleton.mp new]
      exact (assigned.busy i k held).1

/-- Workers may move as long as they hold the same items. -/
theorem same (assigned : Assigned holds taken finished) (equal : ∀ j, after j = holds j) :
    Assigned after taken finished := by
  rw [funext equal]
  exact assigned

/-- When all workers are idle, what was taken is finished. -/
theorem count_finished [DecidableEq κ] (assigned : Assigned holds taken finished)
    (idle : ∀ i, holds i = none) (member : k ∈ taken) : finished.count k = 1 := by
  rcases assigned.covered k member with done | ⟨i, held⟩
  · exact List.count_eq_one_of_mem assigned.once done
  · rw [idle i] at held
    contradiction

end Assigned

end YfsRpc
