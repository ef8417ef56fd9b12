import YfsRpc.Foundation.Ascending

/-! # Maps in key order and their iterators

A map whose elements are visited in the order of their keys, such as `std::map`. An
iterator denotes an element, by its key, or the end of the map. An iterator whose element
was erased cannot be used any more: to read or to advance it has no result.
-/

namespace YfsRpc

structure OrderedMap (α : Type u) where
  entries : List (Nat × α)
  ascending : StrictlyAscending Prod.fst entries

namespace OrderedMap

variable {α : Type u}

def keys (m : OrderedMap α) : List Nat := m.entries.map Prod.fst

/-- The first element, or the end. -/
def begin (m : OrderedMap α) : Option Nat := m.keys.head?

def deref (m : OrderedMap α) (k : Nat) : Option α :=
  (m.entries.find? fun e => e.1 == k).map Prod.snd

/-- `++`, on an iterator that is not the end. -/
def next (m : OrderedMap α) (k : Nat) : Option (Option Nat) :=
  if k ∈ m.keys then some (m.keys.find? fun j => k < j) else none

def erase (m : OrderedMap α) (k : Nat) : OrderedMap α where
  entries := m.entries.filter fun e => e.1 != k
  ascending := m.ascending.filter _

/-- `operator[]` and an assignment. -/
def set (m : OrderedMap α) (k : Nat) (v : α) : OrderedMap α where
  entries := insertAscending Prod.fst (k, v) (m.erase k).entries
  ascending := (m.erase k).ascending.insertAscending fun e member => by
    simpa [erase] using (List.mem_filter.mp member).2

variable {m : OrderedMap α} {front rest : List (Nat × α)} {k : Nat} {v : α}

theorem not_mem_keys_erase (m : OrderedMap α) (k : Nat) : k ∉ (m.erase k).keys := by
  simp [keys, erase]

/-- An erased element has no next one. -/
theorem next_erase (m : OrderedMap α) (k : Nat) : (m.erase k).next k = none :=
  if_neg (m.not_mem_keys_erase k)

/-- The keys around an element. -/
theorem around (split : m.entries = front ++ (k, v) :: rest) :
    (∀ e ∈ front, e.1 < k) ∧ ∀ e ∈ rest, k < e.1 := by
  have ascending := m.ascending
  rw [split] at ascending
  rcases List.pairwise_append.mp ascending with ⟨-, behind, before⟩
  exact ⟨fun e member => before e member (k, v) List.mem_cons_self,
    fun e member => (List.pairwise_cons.mp behind).1 e member⟩

theorem deref_split (split : m.entries = front ++ (k, v) :: rest) : m.deref k = some v := by
  have missed : front.find? (fun e => e.1 == k) = none := by
    rw [List.find?_eq_none]
    intro e member same
    exact absurd (beq_iff_eq.mp same) (Nat.ne_of_lt ((around split).1 e member))
  unfold deref
  rw [split, List.find?_append, missed, Option.none_or,
    List.find?_cons_of_pos (by exact beq_self_eq_true k)]
  rfl

/-- The next element is the first one behind. -/
theorem next_split (split : m.entries = front ++ (k, v) :: rest) :
    m.next k = some (rest.map Prod.fst).head? := by
  rcases around split with ⟨smaller, larger⟩
  have keys : m.keys = front.map Prod.fst ++ k :: rest.map Prod.fst := by
    unfold OrderedMap.keys
    rw [split, List.map_append, List.map_cons]
  have missed : (front.map Prod.fst).find? (fun j => decide (k < j)) = none := by
    rw [List.find?_eq_none]
    intro j member later
    rcases List.mem_map.mp member with ⟨e, inside, rfl⟩
    have earlier := smaller e inside
    have later := of_decide_eq_true later
    omega
  unfold next
  rw [if_pos (by rw [keys]; simp), keys, List.find?_append, missed, Option.none_or,
    List.find?_cons_of_neg (by simp)]
  cases rest with
  | nil => rfl
  | cons e rest =>
      have later := larger e List.mem_cons_self
      rw [List.map_cons, List.find?_cons_of_pos (by simpa using later)]
      rfl

end OrderedMap

end YfsRpc
