import Mathlib.Tactic.Linarith

/-! # Heap blocks

A block of bytes as `malloc` and `realloc` hand it out: the allocated size and
the contents, where bytes that were never written are arbitrary. A store
outside the block is undefined behaviour and has no result.
-/

namespace YfsRpc

structure Block where
  size : Nat
  byte : Nat → UInt8

namespace Block

/-- Allocate a block whose contents are whatever the memory held before. -/
def malloc (size : Nat) (junk : Nat → UInt8) : Block := ⟨size, junk⟩

/-- Growing keeps the old bytes; the new ones are arbitrary. -/
def realloc (block : Block) (size : Nat) : Block := { block with size }

def store (block : Block) (index : Nat) (value : UInt8) : Option Block :=
  if index < block.size then
    some { block with byte := fun i => if i = index then value else block.byte i }
  else
    none

/-- `memcpy` of a list of bytes to the given offset. -/
def write (block : Block) (start : Nat) (bytes : List UInt8) : Option Block :=
  if start + bytes.length ≤ block.size then
    some { block with
      byte := fun i =>
        if start ≤ i ∧ i < start + bytes.length then bytes.getD (i - start) 0
        else block.byte i }
  else
    none

/-- The `count` bytes from offset `start` on. -/
def read (block : Block) (start count : Nat) : List UInt8 :=
  (List.range count).map fun i => block.byte (start + i)

@[simp] theorem length_read (block : Block) (start count : Nat) :
    (block.read start count).length = count := by
  simp [read]

theorem read_add (block : Block) (start left right : Nat) :
    block.read start (left + right) =
      block.read start left ++ block.read (start + left) right := by
  simp [read, List.range_add, Function.comp_def, Nat.add_assoc]

theorem read_congr {left right : Block} {start count : Nat}
    (equal : ∀ i, start ≤ i → i < start + count → left.byte i = right.byte i) :
    left.read start count = right.read start count := by
  apply List.map_congr_left
  intro i member
  have bound := List.mem_range.mp member
  exact equal (start + i) (by omega) (by omega)

theorem store_eq_some {block : Block} {index : Nat} (value : UInt8)
    (bound : index < block.size) :
    block.store index value =
      some { block with byte := fun i => if i = index then value else block.byte i } := by
  simp [store, bound]

theorem write_eq_some {block : Block} {start : Nat} {bytes : List UInt8}
    (bound : start + bytes.length ≤ block.size) :
    block.write start bytes =
      some { block with
        byte := fun i =>
          if start ≤ i ∧ i < start + bytes.length then bytes.getD (i - start) 0
          else block.byte i } := by
  simp [write, bound]

/-- Reading back a copied range gives the bytes that were copied. -/
theorem read_of_copied {block : Block} {start : Nat} {bytes : List UInt8}
    (copied : ∀ i, (inside : i < bytes.length) → block.byte (start + i) = bytes[i]) :
    block.read start bytes.length = bytes := by
  apply List.ext_getElem (by simp)
  intro i leftBound rightBound
  simp only [read, List.getElem_map, List.getElem_range]
  exact copied i rightBound

end Block

end YfsRpc
