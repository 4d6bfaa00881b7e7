import Mathlib.Data.List.Basic
import Mathlib.Logic.Function.Basic

/-!
# Vectors, and pointers into them

A vector has its elements in a block of memory.  While there is room in the block, a new element
is put behind the others, and they stay where they are.  When there is none, all elements move to
a block that is larger, and the old block is freed.

So a pointer to an element is good as long as the vector does not move (`read_push`), and the one
to the last element is good to begin with (`read_back`).  A vector that has reserved room for
what will be pushed does not move.
-/

namespace Vectors

variable {α : Type}

/-- A place in memory: an index in a block. -/
structure Place where
  block : ℕ
  index : ℕ

/-- A vector, with the blocks of memory it has had and has. -/
structure Vec (α : Type) where
  blocks : ℕ → Option (List α)
  block : ℕ
  capacity : ℕ

namespace Vec

/-- A vector without elements that has reserved room. -/
def reserve (n : ℕ) : Vec α := ⟨Function.update (fun _ => none) 0 (some []), 0, n⟩

/-- The elements of a vector, which are in its block. -/
def elems (v : Vec α) : List α := (v.blocks v.block).getD []

/-- `push_back`.  How much room there is after a move is up to the implementation. -/
def push (grow : ℕ → ℕ) (v : Vec α) (x : α) : Vec α :=
  if v.elems.length < v.capacity then
    { v with blocks := Function.update v.blocks v.block (some (v.elems ++ [x])) }
  else
    ⟨Function.update (Function.update v.blocks v.block none) (v.block + 1) (some (v.elems ++ [x])),
      v.block + 1, grow v.capacity⟩

/-- A pointer to `back()`. -/
def back (v : Vec α) : Place := ⟨v.block, v.elems.length - 1⟩

/-- What is read through a pointer.  One into a block that is gone reads nothing. -/
def read (v : Vec α) (p : Place) : Option α := (v.blocks p.block).bind fun l => l[p.index]?

variable {grow : ℕ → ℕ} {v : Vec α} {x y : α} {p : Place}

@[simp] theorem elems_reserve (n : ℕ) : (reserve n : Vec α).elems = [] := rfl

/-- The block a vector is in after `push_back` is there. -/
theorem blocks_push : (v.push grow x).blocks (v.push grow x).block = some (v.elems ++ [x]) := by
  unfold push
  split
  · exact Function.update_self ..
  · exact Function.update_self ..

@[simp] theorem elems_push : (v.push grow x).elems = v.elems ++ [x] := by
  rw [elems, blocks_push, Option.getD_some]

/-- A vector with room does not move. -/
theorem capacity_push (h : v.elems.length < v.capacity) : (v.push grow x).capacity = v.capacity := by
  rw [push, if_pos h]

/-- **The last element** is where the pointer to it says. -/
theorem read_back : (v.push grow x).read (v.push grow x).back = some x := by
  rw [read, back, blocks_push, elems_push, Option.bind_some, List.length_append,
    List.length_singleton, Nat.add_sub_cancel, List.getElem?_concat_length]

/-- **Pointers stay good** while there is room. -/
theorem read_push (h : v.elems.length < v.capacity) (hp : v.read p = some y) :
    (v.push grow x).read p = some y := by
  obtain ⟨l, hl, hy⟩ := Option.bind_eq_some_iff.mp hp
  rw [push, if_pos h]
  show (Function.update v.blocks v.block (some (v.elems ++ [x])) p.block).bind _ = some y
  by_cases hblock : p.block = v.block
  · obtain ⟨hlt, -⟩ := List.getElem?_eq_some_iff.mp hy
    have helems : v.elems = l := by rw [elems, ← hblock, hl, Option.getD_some]
    rw [hblock, Function.update_self, Option.bind_some, helems, List.getElem?_append_left hlt]
    exact hy
  · rw [Function.update_of_ne hblock, hl]
    exact hy

end Vec

end Vectors
