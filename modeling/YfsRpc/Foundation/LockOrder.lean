import Mathlib.Logic.Relation

/-! # Threads that wait for mutexes

A thread may have mutexes and wait for one more. When the mutexes have a rank, and each
thread waits for one of a higher rank than those it has, then no threads wait for each
other: whoever waits, waits in the end for a thread that can go on.
-/

namespace YfsRpc

structure Mutexes (τ : Type u) (μ : Type v) where
  holds : τ → μ → Prop
  wants : τ → Option μ

namespace Mutexes

variable {τ : Type u} {μ : Type v}

def WaitsFor (m : Mutexes τ μ) (t u : τ) : Prop :=
  ∃ l, m.wants t = some l ∧ m.holds u l

def Blocked (m : Mutexes τ μ) (t : τ) : Prop :=
  ∃ u, m.WaitsFor t u

/-- Each thread waits for a mutex of a higher rank than those it has. -/
def Ordered (m : Mutexes τ μ) (rank : μ → Nat) : Prop :=
  ∀ t l l', m.holds t l → m.wants t = some l' → rank l < rank l'

variable {m : Mutexes τ μ} {rank : μ → Nat} {t u : τ} {l l' : μ}

/-- The rank of what is waited for rises along the threads that wait. -/
theorem Ordered.rises (ordered : m.Ordered rank) (waits : Relation.TransGen m.WaitsFor t u)
    (first : m.wants t = some l) (last : m.wants u = some l') : rank l < rank l' := by
  induction waits generalizing l' with
  | single waits =>
      rcases waits with ⟨k, wanted, held⟩
      cases first.symm.trans wanted
      exact ordered _ _ _ held last
  | tail _ waits induction =>
      rcases waits with ⟨k, wanted, held⟩
      exact Nat.lt_trans (induction wanted) (ordered _ _ _ held last)

theorem Ordered.acyclic (ordered : m.Ordered rank) (t : τ) :
    ¬ Relation.TransGen m.WaitsFor t t := by
  intro cycle
  rcases Relation.TransGen.head'_iff.mp cycle with ⟨u, ⟨l, wanted, _⟩, _⟩
  exact Nat.lt_irrefl _ (ordered.rises cycle wanted wanted)

/-- Whoever waits, waits in the end for a thread that waits for nobody. -/
theorem Ordered.goes_on (ordered : m.Ordered rank) {bound : Nat} (below : ∀ l, rank l ≤ bound)
    (t : τ) : ∃ u, Relation.ReflTransGen m.WaitsFor t u ∧ ¬ m.Blocked u := by
  -- by induction on how far the rank of what the thread waits for is below the bound
  have from_rank : ∀ left t, (∀ l, m.wants t = some l → bound - rank l < left) →
      ∃ u, Relation.ReflTransGen m.WaitsFor t u ∧ ¬ m.Blocked u := by
    intro left
    induction left with
    | zero =>
        intro t early
        refine ⟨t, .refl, ?_⟩
        intro blocked
        rcases blocked with ⟨u, l, wanted, _⟩
        exact absurd (early l wanted) (Nat.not_lt_zero _)
    | succ left induction =>
        intro t early
        by_cases blocked : m.Blocked t
        · rcases blocked with ⟨u, l, wanted, held⟩
          have later : ∀ l', m.wants u = some l' → bound - rank l' < left := by
            intro l' wanted'
            have rises := ordered u l l' held wanted'
            have low := below l'
            have soon := early l wanted
            omega
          rcases induction u later with ⟨v, path, free⟩
          exact ⟨v, path.head ⟨l, wanted, held⟩, free⟩
        · exact ⟨t, .refl, blocked⟩
  apply from_rank (bound + 1)
  intro l _
  omega

end Mutexes

end YfsRpc
