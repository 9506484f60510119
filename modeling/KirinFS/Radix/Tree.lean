import Mathlib.Algebra.Group.Nat.Defs
import Mathlib.Data.Int.Notation
import Mathlib.Data.Nat.Notation
import Mathlib.Logic.Function.Basic

/-! # The radix tree over 32-bit keys

Nodes are addresses in a table that only grows; `none` is a null pointer. Every
loop carries the number `d` of shifts that its `bit` has seen, and a fuel bound;
running out of fuel and dereferencing null are both undefined.
-/

namespace KirinFS.Radix
open Function

abbrev Word := BitVec 64

def noValue : Word := BitVec.allOnes 64

structure StlRadixNode where
  right : Option ℕ
  left : Option ℕ
  parent : Option ℕ
  value : Word
  deriving DecidableEq, Repr

/-- The tree with the memory of its nodes. `carved` nodes exist; where the next one comes from
(`start` and `size`) is the business of `stl_radix_alloc`. -/
structure StlRadixTree where
  root : Option ℕ
  free : Option ℕ
  carved : ℕ
  node : ℕ → StlRadixNode

/-- `stl_radix_alloc`, which is declared but not defined; `none` is a null result. -/
abbrev RadixAlloc := StlRadixTree → Option (ℕ × StlRadixTree)

/-- `bit` after `d` shifts. -/
def bitAt (d : ℕ) : BitVec 32 := 0x80000000#32 >>> d

def keyBit (key : BitVec 32) (d : ℕ) : Bool := key &&& bitAt d != 0

namespace StlRadixNode

def toward (x : StlRadixNode) (b : Bool) : Option ℕ := if b then x.right else x.left

def setToward (x : StlRadixNode) (b : Bool) (p : Option ℕ) : StlRadixNode :=
  if b then { x with right := p } else { x with left := p }

/-- `node->parent->right == node` decides which link of the parent is cleared. -/
def dropChild (x : StlRadixNode) (n : ℕ) : StlRadixNode :=
  if x.right = some n then { x with right := none } else { x with left := none }

end StlRadixNode

namespace StlRadixTree
variable (t : StlRadixTree)

def load (p : Option ℕ) : Option StlRadixNode :=
  p.bind fun n => if n < t.carved then some (t.node n) else none

def store (p : Option ℕ) (f : StlRadixNode → StlRadixNode) : Option StlRadixTree :=
  p.bind fun n =>
    if n < t.carved then some { t with node := update t.node n (f (t.node n)) } else none

/-- The first loop of `stl_radix32tree_insert`: shifts, `node` and `next` when it stops. -/
def descend (key mask : BitVec 32) : (fuel d node : ℕ) → Option (ℕ × ℕ × Option ℕ)
  | 0, _, _ => none
  | fuel + 1, d, node =>
    if keyBit mask d then
      (t.load (some node)).bind fun x =>
        match x.toward (keyBit key d) with
        | none => some (d, node, none)
        | some next => descend key mask fuel (d + 1) next
    else some (d, node, some node)

/-- The second loop of `stl_radix32tree_insert`; a null node is a failed allocation. -/
def extend (alloc : RadixAlloc) (key mask : BitVec 32) :
    (fuel : ℕ) → StlRadixTree → (d node : ℕ) → Option (StlRadixTree × Option ℕ)
  | 0, _, _, _ => none
  | fuel + 1, t, d, node =>
    if keyBit mask d then
      match alloc t with
      | none => some (t, none)
      | some (next, t) =>
        (t.store (some next) fun _ => ⟨none, none, some node, noValue⟩).bind fun t =>
          (t.store (some node) fun x => x.setToward (keyBit key d) (some next)).bind fun t =>
            extend alloc key mask fuel t (d + 1) next
    else some (t, some node)

def stlRadix32treeInsert (alloc : RadixAlloc) (key mask : BitVec 32) (value : Word) :
    Option (StlRadixTree × ℤ) := do
  let root ← t.root
  let (d, node, next) ← t.descend key mask 33 0 root
  if next.isSome then
    let x ← t.load (some node)
    if x.value ≠ noValue then some (t, -3)
    else
      let t ← t.store (some node) fun x => { x with value := value }
      some (t, 0)
  else
    let (t, last) ← extend alloc key mask 33 t d node
    if last.isNone then some (t, -1)
    else
      let t ← t.store last fun x => { x with value := value }
      some (t, 0)

/-- The first loop of `stl_radix32tree_delete`. -/
def seek (key mask : BitVec 32) : (fuel d : ℕ) → Option ℕ → Option (Option ℕ)
  | 0, _, _ => none
  | fuel + 1, d, node =>
    if node.isSome ∧ keyBit mask d then
      (t.load node).bind fun x => seek key mask fuel (d + 1) (x.toward (keyBit key d))
    else some node

/-- The `for ( ;; )` loop of `stl_radix32tree_delete`. -/
def prune : (fuel : ℕ) → StlRadixTree → (node : ℕ) → Option StlRadixTree
  | 0, _, _ => none
  | fuel + 1, t, node =>
    (t.load (some node)).bind fun x =>
      (t.store x.parent fun y => y.dropChild node).bind fun t =>
        (t.store (some node) fun y => { y with right := t.free }).bind fun t =>
          let t := { t with free := some node }
          x.parent.bind fun up =>
            (t.load (some up)).bind fun y =>
              if y.right.isSome ∨ y.left.isSome then some t
              else if y.value ≠ noValue then some t
              else if y.parent = none then some t
              else prune fuel t up

def stlRadix32treeDelete (key mask : BitVec 32) : Option (StlRadixTree × ℤ) := do
  let found ← t.seek key mask 33 0 t.root
  match found with
  | none => some (t, -1)
  | some node =>
    let x ← t.load (some node)
    if x.right.isSome ∨ x.left.isSome then
      if x.value ≠ noValue then
        let t ← t.store (some node) fun x => { x with value := noValue }
        some (t, 0)
      else some (t, -1)
    else
      let t ← prune 33 t node
      some (t, 0)

/-- The loop of `stl_radix32tree_find`. -/
def findFrom (key : BitVec 32) : (fuel d : ℕ) → Option ℕ → Word → Option Word
  | 0, _, _, _ => none
  | fuel + 1, d, node, value =>
    if node.isSome then
      (t.load node).bind fun x =>
        findFrom key fuel (d + 1) (x.toward (keyBit key d))
          (if x.value ≠ noValue then x.value else value)
    else some value

def stlRadix32treeFind (key : BitVec 32) : Option Word :=
  t.findFrom key 34 0 t.root noValue

end StlRadixTree

/-- The `do … while (key)` loop of `stl_radix_tree_alloc`; the inner `none` is its null result. -/
def fillLevel (alloc : RadixAlloc) (mask inc : BitVec 32) :
    (fuel : ℕ) → BitVec 32 → StlRadixTree → Option (Option StlRadixTree)
  | 0, _, _ => none
  | fuel + 1, key, t =>
    (t.stlRadix32treeInsert alloc key mask noValue).bind fun r =>
      if r.2 ≠ 0 then some none
      else if key + inc ≠ 0 then fillLevel alloc mask inc fuel (key + inc) r.1
      else some (some r.1)

/-- The `while (preallocate--)` loop. -/
def fillLevels (alloc : RadixAlloc) :
    (preallocate : ℕ) → (mask inc : BitVec 32) → StlRadixTree → Option (Option StlRadixTree)
  | 0, _, _, t => some (some t)
  | n + 1, mask, inc, t =>
    (fillLevel alloc (mask >>> 1 ||| 0x80000000#32) inc (2 ^ 32) 0 t).bind fun r =>
      match r with
      | none => some none
      | some t => fillLevels alloc n (mask >>> 1 ||| 0x80000000#32) (inc >>> 1) t

/-- The levels that `preallocate == -1` stands for; a node has 32 bytes. -/
def defaultLevels (pagesize : ℕ) : ℕ :=
  match pagesize / 32 with
  | 128 => 6
  | 256 => 7
  | _ => 8

def bareTree : StlRadixTree := ⟨none, none, 0, fun _ => ⟨none, none, none, 0⟩⟩

/-- `stl_radix_tree_alloc` with `calloc` succeeding. Counts below `-1` would run the counter out
of its range. -/
def stlRadixTreeAlloc (alloc : RadixAlloc) (pagesize : ℕ) (preallocate : ℤ) :
    Option (Option StlRadixTree) :=
  match alloc bareTree with
  | none => some none
  | some (root, t) =>
    ({ t with root := some root }.store (some root) fun _ => ⟨none, none, none, noValue⟩).bind
      fun t =>
        if preallocate = 0 then some (some t)
        else if preallocate = -1 then
          fillLevels alloc (defaultLevels pagesize) 0 0x80000000#32 t
        else if preallocate < 0 then none
        else fillLevels alloc preallocate.toNat 0 0x80000000#32 t

end KirinFS.Radix
