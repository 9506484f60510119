import Mathlib.Data.Int.Notation
import Mathlib.Data.Nat.Notation
import Mathlib.Logic.Function.Basic

/-! # The red-black tree

Nodes are addresses, `none` is a null pointer, and dereferencing it is a fault.
The mirror images of the rotations and of the fix-up steps are one definition
each, over the side they work on. Loops that follow links take a fuel bound.
-/

namespace KirinFS.Rbtree
open Function

/-- Why a call does not return. -/
inductive Fault where
  | null
  | fuel
  deriving DecidableEq, Repr

inductive Color where
  | black
  | red
  deriving DecidableEq, Repr

inductive Side where
  | left
  | right
  deriving DecidableEq, Repr

def Side.other : Side → Side
  | left => right
  | right => left

structure StlRbtreeNode (K D : Type) where
  key : Option K
  left : Option ℕ
  right : Option ℕ
  parent : Option ℕ
  color : Color
  data : Option D

namespace StlRbtreeNode
variable {K D : Type} (x : StlRbtreeNode K D)

def child : Side → Option ℕ
  | .left => x.left
  | .right => x.right

def setChild (d : Side) (p : Option ℕ) : StlRbtreeNode K D :=
  match d with
  | .left => { x with left := p }
  | .right => { x with right := p }

def zero : StlRbtreeNode K D := ⟨none, none, none, none, .black, none⟩

end StlRbtreeNode

/-- The tree with the memory of the nodes. Comparisons may fault on keys they cannot read. -/
structure StlRbtree (K D : Type) where
  root : Option ℕ
  sentinel : Option ℕ
  cmp : Option K → Option K → Except Fault ℤ
  mem : ℕ → StlRbtreeNode K D

/-- `stl_rbtree_min`, which is called but not defined. -/
abbrev RbtreeMin (K D : Type) :=
  StlRbtree K D → (node sentinel : Option ℕ) → Except Fault (Option ℕ)

/-- `stl_rbtree_init` on a tree; `sentinel` is the result of its `calloc`. -/
def stlRbtreeInit {K D : Type} (mem : ℕ → StlRbtreeNode K D) (sentinel : Option ℕ)
    (cmp : Option K → Option K → Except Fault ℤ) : Except Fault (StlRbtree K D) :=
  match sentinel with
  | none => .error .null
  | some s => .ok ⟨none, sentinel, cmp, update mem s .zero⟩

namespace StlRbtree
variable {K D : Type} (t : StlRbtree K D)

def load : Option ℕ → Except Fault (StlRbtreeNode K D)
  | none => .error .null
  | some n => .ok (t.mem n)

def modify (p : Option ℕ) (f : StlRbtreeNode K D → StlRbtreeNode K D) :
    Except Fault (StlRbtree K D) :=
  match p with
  | none => .error .null
  | some n => .ok { t with mem := update t.mem n (f (t.mem n)) }

def paint (p : Option ℕ) (c : Color) : Except Fault (StlRbtree K D) :=
  t.modify p fun x => { x with color := c }

def setChild (p : Option ℕ) (d : Side) (q : Option ℕ) : Except Fault (StlRbtree K D) :=
  t.modify p fun x => x.setChild d q

def setParent (p q : Option ℕ) : Except Fault (StlRbtree K D) :=
  t.modify p fun x => { x with parent := q }

/-- Turn the links that lead to `node` from above over to `temp`. -/
def relinkParent (node temp : Option ℕ) (d : Side) : Except Fault (StlRbtree K D) := do
  if node = t.root then return { t with root := temp }
  let x ← t.load node
  let up ← t.load x.parent
  if node = up.child d then t.setChild x.parent d temp
  else t.setChild x.parent d.other temp

def rotate (d : Side) (node : Option ℕ) : Except Fault (StlRbtree K D) := do
  let x ← t.load node
  let temp := x.child d.other
  let y ← t.load temp
  let t ← t.setChild node d.other (y.child d)
  let y ← t.load temp
  let t ← if y.child d ≠ t.sentinel then t.setParent (y.child d) node else pure t
  let x ← t.load node
  let t ← t.setParent temp x.parent
  let t ← t.relinkParent node temp d
  let t ← t.setChild temp d node
  t.setParent node temp

def stlRbtreeLeftRotate (node : Option ℕ) : Except Fault (StlRbtree K D) := t.rotate .left node

def stlRbtreeRightRotate (node : Option ℕ) : Except Fault (StlRbtree K D) := t.rotate .right node

/-- The descent of `stl_rbtree_insert_value`: the last node and the side of its free link. -/
def findSlot (node : Option ℕ) : (fuel : ℕ) → (temp : Option ℕ) →
    Except Fault (Option ℕ × Side)
  | 0, _ => .error .fuel
  | fuel + 1, temp => do
    let x ← t.load node
    let y ← t.load temp
    let c ← t.cmp x.key y.key
    let d := if c < 0 then Side.left else Side.right
    if y.child d = t.sentinel then return (temp, d)
    findSlot node fuel (y.child d)

def stlRbtreeInsertValue (fuel : ℕ) (temp node : Option ℕ) : Except Fault (StlRbtree K D) := do
  let (temp, d) ← t.findSlot node fuel temp
  let t ← t.setChild temp d node
  t.modify node fun x =>
    { x with parent := temp, left := t.sentinel, right := t.sentinel, color := .red }

/-- One turn of the loop of `stl_rbtree_insert` for a parent on side `d`. -/
def insertFixStep (d : Side) (node : Option ℕ) : Except Fault (StlRbtree K D × Option ℕ) := do
  let x ← t.load node
  let p ← t.load x.parent
  let g ← t.load p.parent
  let temp := g.child d.other
  let u ← t.load temp
  if u.color = .red then
    let t ← t.paint x.parent .black
    let t ← t.paint temp .black
    let t ← t.paint p.parent .red
    return (t, p.parent)
  let (t, node) ←
    if node = p.child d.other then do
      let t ← t.rotate d x.parent
      pure (t, x.parent)
    else pure (t, node)
  let x ← t.load node
  let p ← t.load x.parent
  let t ← t.paint x.parent .black
  let t ← t.paint p.parent .red
  let t ← t.rotate d.other p.parent
  return (t, node)

/-- The loop of `stl_rbtree_insert`. -/
def insertFix : (fuel : ℕ) → StlRbtree K D → (node : Option ℕ) → Except Fault (StlRbtree K D)
  | 0, _, _ => .error .fuel
  | fuel + 1, t, node => do
    if node = t.root then return t
    let x ← t.load node
    let p ← t.load x.parent
    if p.color = .black then return t
    let g ← t.load p.parent
    let (t, node) ← t.insertFixStep (if x.parent = g.left then .left else .right) node
    insertFix fuel t node

/-- `stl_rbtree_insert`; its result is always 0. -/
def stlRbtreeInsert (fuel : ℕ) (node : Option ℕ) : Except Fault (StlRbtree K D) := do
  if t.root = t.sentinel then
    let t ← t.modify node fun x =>
      { x with parent := none, left := t.sentinel, right := t.sentinel, color := .black }
    return { t with root := node }
  let t ← t.stlRbtreeInsertValue fuel t.root node
  let t ← insertFix fuel t node
  t.paint t.root .black

/-- One turn of the fix-up loop of `stl_rbtree_delete` for `temp` on side `d`. -/
def deleteFixStep (d : Side) (temp : Option ℕ) : Except Fault (StlRbtree K D × Option ℕ) := do
  let x ← t.load temp
  let p ← t.load x.parent
  let w := p.child d.other
  let y ← t.load w
  let (t, w) ←
    if y.color = .red then do
      let t ← t.paint w .black
      let t ← t.paint x.parent .red
      let t ← t.rotate d x.parent
      let x ← t.load temp
      let p ← t.load x.parent
      pure (t, p.child d.other)
    else pure (t, w)
  let y ← t.load w
  let l ← t.load y.left
  let both ← if l.color = .black then do
      let r ← t.load y.right
      pure (decide (r.color = .black))
    else pure false
  let x ← t.load temp
  if both then
    let t ← t.paint w .red
    return (t, x.parent)
  let far ← t.load (y.child d.other)
  let (t, w) ←
    if far.color = .black then do
      let t ← t.paint (y.child d) .black
      let t ← t.paint w .red
      let t ← t.rotate d.other w
      let x ← t.load temp
      let p ← t.load x.parent
      pure (t, p.child d.other)
    else pure (t, w)
  let x ← t.load temp
  let p ← t.load x.parent
  let t ← t.paint w p.color
  let t ← t.paint x.parent .black
  let y ← t.load w
  let t ← t.paint (y.child d.other) .black
  let t ← t.rotate d x.parent
  return (t, t.root)

/-- The fix-up loop of `stl_rbtree_delete`. -/
def deleteFix : (fuel : ℕ) → StlRbtree K D → (temp : Option ℕ) →
    Except Fault (StlRbtree K D × Option ℕ)
  | 0, _, _ => .error .fuel
  | fuel + 1, t, temp => do
    if temp = t.root then return (t, temp)
    let x ← t.load temp
    if x.color = .red then return (t, temp)
    let p ← t.load x.parent
    let (t, temp) ← t.deleteFixStep (if temp = p.left then .left else .right) temp
    deleteFix fuel t temp

/-- The stores marked as debugging aid. -/
def forget (node : Option ℕ) : Except Fault (StlRbtree K D) :=
  t.modify node fun x => { x with left := none, right := none, parent := none, key := none }

/-- Putting `subst`, taken from its old place, where `node` is. -/
def substitute (node subst temp : Option ℕ) : Except Fault (StlRbtree K D) := do
  let s ← t.load subst
  let t ← if s.parent = node then t.setParent temp subst else t.setParent temp s.parent
  let x ← t.load node
  let t ← t.modify subst fun s =>
    { s with left := x.left, right := x.right, parent := x.parent, color := x.color }
  let t ← t.relinkParent node subst .left
  let s ← t.load subst
  let t ← if s.left ≠ t.sentinel then t.setParent s.left subst else pure t
  let s ← t.load subst
  if s.right ≠ t.sentinel then t.setParent s.right subst else pure t

/-- `stl_rbtree_delete` up to the fix-up. `none` stands for the missing value of its bare
`return`. -/
def stlRbtreeDelete (min : RbtreeMin K D) (fuel : ℕ) (node : Option ℕ) :
    Except Fault (StlRbtree K D × Option ℤ) := do
  let x ← t.load node
  let (subst, temp) ←
    if x.left = t.sentinel then pure (node, x.right)
    else if x.right = t.sentinel then pure (node, x.left)
    else do
      let subst ← min t x.right t.sentinel
      let s ← t.load subst
      pure (subst, s.right)
  if subst = t.root then
    let t ← { t with root := temp }.paint temp .black
    let t ← t.forget node
    return (t, some 0)
  let s ← t.load subst
  let up ← t.load s.parent
  let t ← t.setChild s.parent (if subst = up.left then .left else .right) temp
  let t ← if subst = node then t.setParent temp s.parent else t.substitute node subst temp
  let t ← t.forget node
  if s.color = .red then return (t, none)
  let (t, temp) ← deleteFix fuel t temp
  let t ← t.paint temp .black
  return (t, some 0)

/-- The loop of `stl_btree_search`. -/
def searchFrom (key : Option K) : (fuel : ℕ) → (tmp : Option ℕ) → Except Fault (Option ℕ)
  | 0, _ => .error .fuel
  | _ + 1, none => .ok none
  | fuel + 1, some n => do
    let c ← t.cmp (t.mem n).key key
    if c = 0 then return some n
    let c ← t.cmp key (t.mem n).key
    searchFrom key fuel ((t.mem n).child (if 0 < c then .right else .left))

def stlBtreeSearch (fuel : ℕ) (key : Option K) : Except Fault (Option ℕ) :=
  t.searchFrom key fuel t.root

end StlRbtree

end KirinFS.Rbtree
