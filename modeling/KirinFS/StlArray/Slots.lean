import Mathlib.Data.Int.Notation
import Mathlib.Data.Nat.Notation

/-! # The array `stl_array`

An array of slots for pointers, each to an element of its own. The buffer for
the slots has as many bytes as the elements have. Only the slots are modelled
that the array counts and the buffer holds, so `none` is an access elsewhere.

The file does not compile as it stands. It is read with `data` as a `void **`,
with `free_cb` as a field, and with the two `stl_array_remove` as two functions.
-/

namespace KirinFS

/-- A slot is null or holds a pointer to an element. -/
structure StlArray (α : Type*) where
  memSize : ℕ
  maxCount : ℕ
  curCount : ℕ
  data : List (Option α)

namespace StlArray

variable {α : Type*}

/-- What an operation returns, and the element that goes to `free_cb`. -/
structure Outcome (α : Type*) where
  ret : ℤ
  freed : Option α
deriving DecidableEq

def ptrSize : ℕ := 8

/-- The slots that are there in a buffer of `count * memSize` bytes. -/
def slotCount (memSize count : ℕ) : ℕ := min count (count * memSize / ptrSize)

/-- `stl_array_init`, with a buffer set to zero. -/
def stlArrayInit (memSize count : ℕ) : StlArray α :=
  ⟨memSize, count, 0, List.replicate (slotCount memSize count) none⟩

section Operations

variable (arr : StlArray α)

def store (i : ℕ) (ptr : Option α) : Option (StlArray α) :=
  if i < arr.data.length then some { arr with data := arr.data.set i ptr } else none

def memmove (dst src n : ℕ) : Option (StlArray α) :=
  if dst + n ≤ arr.data.length ∧ src + n ≤ arr.data.length then
    some { arr with
      data := arr.data.take dst ++ (arr.data.drop src).take n ++ arr.data.drop (dst + n) }
  else none

def stlArrayAdd (data : α) : Option (StlArray α × Outcome α) :=
  if arr.curCount < arr.maxCount then do
    let arr' ← arr.store arr.curCount (some data)
    return ({ arr' with curCount := arr.curCount + 1 }, ⟨0, none⟩)
  else some (arr, ⟨-1, none⟩)

/-- From an index behind the elements the number of bytes to move is negative, which is a huge
`size_t`. -/
def stlArrayAddAt (data : α) (index : ℕ) : Option (StlArray α × Outcome α) :=
  if index < arr.maxCount ∧ arr.curCount + 1 < arr.maxCount then
    if index ≤ arr.curCount then do
      let arr' ← arr.memmove (index + 1) index (arr.curCount - index)
      let arr' ← arr'.store index (some data)
      return ({ arr' with curCount := arr.curCount + 1 }, ⟨0, none⟩)
    else none
  else some (arr, ⟨-1, none⟩)

/-- The `stl_array_remove` that takes the last element. -/
def stlArrayRemove : Option (StlArray α × Outcome α) :=
  if 0 < arr.curCount then do
    let data ← arr.data[arr.curCount - 1]?
    let arr' ← arr.store (arr.curCount - 1) none
    return ({ arr' with curCount := arr.curCount - 1 }, ⟨0, data⟩)
  else some (arr, ⟨-1, none⟩)

/-- The `stl_array_remove` with an index. It moves one slot more than there are elements behind the
index, and clears the slot at the old count. -/
def stlArrayRemoveAt (index : ℕ) : Option (StlArray α × Outcome α) :=
  if index < arr.maxCount then
    if index < arr.curCount then do
      let ptr ← arr.data[index]?
      let arr' ← arr.memmove index (index + 1) (arr.curCount - index)
      let arr' ← arr'.store arr.curCount none
      return ({ arr' with curCount := arr.curCount - 1 }, ⟨0, ptr⟩)
    else some (arr, ⟨0, none⟩)
  else some (arr, ⟨-1, none⟩)

end Operations

inductive ArrayOp (α : Type*)
  | add (data : α)
  | addAt (data : α) (index : ℕ)
  | remove
  | removeAt (index : ℕ)

def step (arr : StlArray α) : ArrayOp α → Option (StlArray α × Outcome α)
  | .add data => arr.stlArrayAdd data
  | .addAt data index => arr.stlArrayAddAt data index
  | .remove => arr.stlArrayRemove
  | .removeAt index => arr.stlArrayRemoveAt index

def run (arr : StlArray α) : List (ArrayOp α) → Option (StlArray α × List (Outcome α))
  | [] => some (arr, [])
  | op :: ops => do
    let (arr, out) ← arr.step op
    let (arr, outs) ← arr.run ops
    return (arr, out :: outs)

end StlArray

end KirinFS
