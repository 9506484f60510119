import KirinFS.Foundation.LinkedChain
import Mathlib.Algebra.BigOperators.Group.Finset.Basic
import Mathlib.Data.Int.Notation

/-! # The hash table with chained buckets

Pairs are nodes in a heap; a null link is `none`. Reading a freed or missing
node, and a bucket outside of the array, is undefined. What a pair stores for a
key and a value is left to `copy`.
-/

namespace KirinFS.Dict
open Foundation.LinkedChain Function

variable {P : Type}

def dictInitSize : ℕ := 64

/-- `DICT_ITEM_TYPE_PTR`, the last of the item types. -/
def dictItemTypePtr : ℕ := 4

structure StlDictItem (P : Type) where
  data : P
  dataType : BitVec 32
  len : BitVec 32

structure StlDictItemPair (P : Type) where
  key : StlDictItem P
  value : StlDictItem P
  next : Option ℕ

/-- What `stl_dict_item_pair_alloc` stores for a key and a value. -/
abbrev PairCopy (P : Type) := StlDictItem P → StlDictItem P → StlDictItem P × StlDictItem P

/-- The table with its memory: `capacity` buckets and the live pairs; `fresh` is the next address
that `calloc` returns. -/
structure StlDict (P : Type) where
  maxCount : ℕ
  count : BitVec 32
  capacity : ℕ
  buckets : ℕ → Option ℕ
  heap : ℕ → Option (StlDictItemPair P)
  fresh : ℕ
  cmp : StlDictItem P → StlDictItem P → ℤ
  hash : StlDictItem P → BitVec 32 → BitVec 32

def stlDictItemCheckType (item : StlDictItem P) : Bool :=
  decide (item.dataType.toNat ≤ dictItemTypePtr)

/-- `stl_dict_init` with `calloc` succeeding; `none` is the error return. -/
def stlDictInit (size : BitVec 32) (cmp : StlDictItem P → StlDictItem P → ℤ)
    (hash : StlDictItem P → BitVec 32 → BitVec 32) : Option (StlDict P) :=
  if size = 0 then none
  else some {
    maxCount := dictInitSize
    count := 0
    capacity := if size.toNat < dictInitSize then dictInitSize else size.toNat
    buckets := fun _ => none
    heap := fun _ => none
    fresh := 0
    cmp := cmp
    hash := hash }

namespace StlDict
variable (d : StlDict P)

/-- `dict->hash(key, key->len) % dict->max_count`. -/
def index (key : StlDictItem P) : Option ℕ :=
  if d.maxCount = 0 then none else some ((d.hash key key.len).toNat % d.maxCount)

def bucket (i : ℕ) : Option (Option ℕ) := if i < d.capacity then some (d.buckets i) else none

def setBucket (i : ℕ) (p : Option ℕ) : Option (StlDict P) :=
  if i < d.capacity then some { d with buckets := update d.buckets i p } else none

def stlDictItemPairInsert (copy : PairCopy P) (i : ℕ) (key value : StlDictItem P) :
    Option (StlDict P × ℤ) := do
  let head ← d.bucket i
  let pair := ⟨(copy key value).1, (copy key value).2, head⟩
  let d ← { d with heap := update d.heap d.fresh (some pair), fresh := d.fresh + 1 }.setBucket i
    (some d.fresh)
  return ({ d with count := d.count + 1 }, 0)

/-- The loop of `stl_dict_item_pair_delete`: `prev` and `pair` when it stops. -/
def findFrom (key : StlDictItem P) : (fuel : ℕ) → (prev pair : Option ℕ) →
    Option (Option ℕ × Option ℕ)
  | 0, _, _ => none
  | _ + 1, prev, none => some (prev, none)
  | fuel + 1, prev, some n =>
    (d.heap n).bind fun x =>
      if d.cmp x.key key = 0 then some (prev, some n) else findFrom key fuel (some n) x.next

/-- Taking `pair` out of its chain. Without a predecessor the bucket is cleared. -/
def unlinkPair (i : ℕ) (prev : Option ℕ) (pair : StlDictItemPair P) : Option (StlDict P) :=
  match prev with
  | none => d.setBucket i none
  | some m =>
    (d.heap m).map fun x => { d with heap := update d.heap m (some { x with next := pair.next }) }

def stlDictItemPairDelete (i : ℕ) (key : StlDictItem P) : Option (StlDict P × ℤ) := do
  let head ← d.bucket i
  let (prev, pair) ← d.findFrom key (d.fresh + 1) none head
  match pair with
  | none => return (d, 0)
  | some n =>
    let x ← d.heap n
    let d ← d.unlinkPair i prev x
    return ({ d with count := d.count - 1, heap := update d.heap n none }, 0)

def stlDictInsert (copy : PairCopy P) (key value : StlDictItem P) : Option (StlDict P × ℤ) :=
  if stlDictItemCheckType key && stlDictItemCheckType value then
    (d.index key).bind fun i => d.stlDictItemPairInsert copy i key value
  else some (d, -1)

def stlDictDelete (key : StlDictItem P) : Option (StlDict P × ℤ) :=
  if stlDictItemCheckType key then
    (d.index key).bind fun i => d.stlDictItemPairDelete i key
  else some (d, -1)

/-- The loop of `stl_dict_lookup`; the result points to the value of a pair. -/
def lookupFrom (key : StlDictItem P) : (fuel : ℕ) → (head : Option ℕ) →
    Option (Option (ℕ × StlDictItem P))
  | 0, _ => none
  | _ + 1, none => some none
  | fuel + 1, some n =>
    (d.heap n).bind fun x =>
      if d.cmp x.key key = 0 then some (some (n, x.value)) else lookupFrom key fuel x.next

def stlDictLookup (key : StlDictItem P) : Option (Option (ℕ × StlDictItem P)) :=
  if stlDictItemCheckType key then
    (d.index key).bind fun i =>
      (d.bucket i).bind fun head => d.lookupFrom key (d.fresh + 1) head
  else some none

/-- The inner loop of `stl_dict_dump`: what `cb` is called with. -/
def dumpFrom : (fuel : ℕ) → (head : Option ℕ) → Option (List (StlDictItem P × StlDictItem P))
  | 0, _ => none
  | _ + 1, none => some []
  | fuel + 1, some n =>
    (d.heap n).bind fun x => (dumpFrom fuel x.next).map fun calls => (x.key, x.value) :: calls

/-- The calls that `stl_dict_dump` makes to `cb`, in their order. -/
def stlDictDump : Option (List (StlDictItem P × StlDictItem P)) :=
  (List.range d.maxCount).foldlM (fun calls i =>
    (d.bucket i).bind fun head => (d.dumpFrom (d.fresh + 1) head).map (calls ++ ·)) []

/-- A pair as a client sees it. -/
def pairView (x : StlDictItemPair P) : (StlDictItem P × StlDictItem P) × Option ℕ :=
  ((x.key, x.value), x.next)

def chain (i : ℕ) : List (ℕ × StlDictItem P × StlDictItem P) :=
  collect pairView d.heap (d.fresh + 1) (d.buckets i)

def storedPairs : ℕ := ∑ i ∈ Finset.range d.maxCount, (d.chain i).length

end StlDict

end KirinFS.Dict
