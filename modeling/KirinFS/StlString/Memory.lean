import KirinFS.Foundation.Bytes
import KirinFS.Foundation.CString
import Mathlib.Logic.Function.Basic

/-! # Strings with a short form

The union `data` is kept as its eight bytes, which are either the text or the
pointer to it. Blocks of the heap are kept by their first address. Reading or
writing outside of an object is undefined (`none`).
-/

namespace KirinFS.StlString
open Foundation.Bytes Foundation.CString Function

set_option linter.dupNamespace false

def stlStringInlineLen : ℕ := 8

/-- The bytes of `data` and the length. -/
structure StlString where
  data : List UInt8
  len : ℕ
deriving DecidableEq

def StlString.ptr (c : StlString) : ℕ := ofBytes c.data

def StlString.setPtr (c : StlString) (p : ℕ) : StlString := { c with data := toBytes 8 p }

def StlString.setLen (c : StlString) (len : ℕ) : StlString := { c with len := len }

/-- Where a pointer leads to: `data.in_data` of a string, or a block of the heap. -/
inductive Place
  | inData (k : ℕ)
  | block (p : ℕ)
deriving DecidableEq

def stlStringData (k : ℕ) (c : StlString) : Place :=
  if c.len < stlStringInlineLen then .inData k else .block c.ptr

/-- The live blocks, and the strings that have been allocated. -/
structure Memory where
  heap : ℕ → Option (List UInt8)
  strs : List StlString

namespace Memory
variable (m : Memory)

def object : Place → Option (List UInt8)
  | .inData k => (m.strs[k]?).map StlString.data
  | .block p => m.heap p

def setObject : Place → List UInt8 → Memory
  | .inData k, obj => { m with strs := m.strs.modify k fun c => { c with data := obj } }
  | .block p, obj => { m with heap := update m.heap p (some obj) }

def modifyStr (k : ℕ) (f : StlString → StlString) : Memory := { m with strs := m.strs.modify k f }

/-- The first `n` bytes. -/
def load (place : Place) (n : ℕ) : Option (List UInt8) :=
  if n = 0 then some []
  else (m.object place).bind fun obj => if n ≤ obj.length then some (obj.take n) else none

/-- What `strncpy` with length `n` takes from there: the bytes up to a zero, then zeros. -/
def loadStr (place : Place) (n : ℕ) : Option (List UInt8) :=
  if n = 0 then some []
  else (m.object place).bind fun obj =>
    let s := (obj.take n).takeWhile (· ≠ 0)
    if n ≤ obj.length ∨ s.length < obj.length then some (s ++ List.replicate (n - s.length) 0)
    else none

def store (place : Place) (off : ℕ) (bs : List UInt8) : Option Memory :=
  if bs = [] then some m
  else (m.object place).bind fun obj =>
    if off + bs.length ≤ obj.length then
      some (m.setObject place (obj.take off ++ bs ++ obj.drop (off + bs.length)))
    else none

/-- `calloc(n, 1)` with the result `p`. -/
def calloc (p n : ℕ) : Memory := { m with heap := update m.heap p (some (List.replicate n 0)) }

def free : Place → Option Memory
  | .inData _ => none
  | .block p =>
    if p = 0 then some m else (m.heap p).map fun _ => { m with heap := update m.heap p none }

/-- `realloc(p, n)` with the result `q`; `junk` is what new bytes hold. -/
def realloc (p n q : ℕ) (junk : ℕ → UInt8) : Option Memory :=
  if q = 0 then some m
  else if p = 0 then some { m with heap := update m.heap q (some ((List.range n).map junk)) }
  else (m.heap p).map fun old =>
    { m with
      heap := update (update m.heap p none) q
        (some ((List.range n).map fun i => old.getD i (junk i))) }

/-- `stl_string_init`. The assertion does not look at the result `base` of `calloc`. -/
def stlStringInit (k : ℕ) (s : Str) (base : Option ℕ) : Option Memory :=
  if stlStringInlineLen ≤ s.length then do
    let p ← base
    let m ← ((m.calloc p (s.length + 1)).modifyStr k (·.setPtr p)).store (.block p) 0 s
    (m.modifyStr k (·.setLen s.length)).store (.block p) s.length [0]
  else do
    let m ← m.store (.inData k) 0 s
    (m.modifyStr k (·.setLen s.length)).store (.inData k) s.length [0]

/-- `stl_string_alloc`; the string itself is allocated. -/
def stlStringAlloc (s : Str) (base : Option ℕ) : Option Memory :=
  stlStringInit { m with strs := m.strs ++ [⟨List.replicate 8 0, 0⟩] } m.strs.length s base

def stlStringReset (k : ℕ) : Option Memory := do
  let c ← m.strs[k]?
  if stlStringInlineLen ≤ c.len then
    let m ← m.free (.block c.ptr)
    return (m.modifyStr k (·.setPtr 0)).modifyStr k (·.setLen 0)
  else
    return m.modifyStr k (·.setLen 0)

/-- `stl_string_append` with the result `base` of `calloc` or `realloc`. The pointer to the text is
taken after the length has changed. `strncpy` between overlapping objects is undefined. -/
def stlStringAppend (k : ℕ) (s : Str) (base : ℕ) (junk : ℕ → UInt8) : Option (Memory × ℤ) := do
  let c ← m.strs[k]?
  let len := c.len
  let m := m.modifyStr k (·.setLen (len + s.length))
  let dataPtr := stlStringData k (c.setLen (len + s.length))
  if len + s.length < stlStringInlineLen then
    let m ← m.store dataPtr len s
    return (m, 0)
  else
    let m ← if len < stlStringInlineLen then some (m.calloc base (len + s.length + 1))
      else m.realloc c.ptr (len + s.length + 1) base junk
    let old ← m.loadStr dataPtr len
    if 0 < len ∧ dataPtr = .block base then none
    else
      let m ← m.store (.block base) 0 old
      let m ← m.store (.block base) len s
      return (m.modifyStr k (·.setPtr base), 0)

/-- The loop of `stl_string_trim` over `data[i]` for the `i` listed: the object and `j`. -/
def trimLoop : List ℕ → List UInt8 → (j : ℕ) → Option (List UInt8 × ℕ)
  | [], data, j => some (data, j)
  | i :: is, data, j =>
    (data[i]?).bind fun b =>
      if b = chr ' ' then trimLoop is data j else trimLoop is (data.set j b) (j + 1)

/-- `stl_string_trim`. Its `int` counter overflows for a length from 2^31 on. -/
def stlStringTrim (k : ℕ) : Option Memory := do
  let c ← m.strs[k]?
  let data := stlStringData k c
  if 2 ^ 31 ≤ c.len then none
  else
    let obj ← m.object data
    let (obj, j) ← trimLoop (List.range c.len) obj 0
    let m := m.setObject data obj
    if j = 0 then return m
    else if j < stlStringInlineLen then
      let m := m.modifyStr k (·.setPtr 0)
      let moved ← m.load data j
      let m ← m.store (.inData k) 0 moved
      let m ← m.store (.inData k) j [0]
      let m ← m.free data
      return m.modifyStr k (·.setLen j)
    else return m.modifyStr k (·.setLen j)

/-- `strncmp(data, old, strlen(old)) == 0`, where `data` is the rest of an object. -/
def matchesAt : List UInt8 → Str → Option Bool
  | _, [] => some true
  | [], _ :: _ => none
  | b :: data, d :: old => if b = d then matchesAt data old else some false

/-- The loop of `stl_string_replace` over the `i` listed. -/
def findLoop (data : List UInt8) (old : Str) : List ℕ → Option (Option ℕ)
  | [] => some none
  | i :: is =>
    (data[i]?).bind fun b =>
      if b = old.headD 0 then
        (matchesAt (data.drop i) old).bind fun found =>
          if found then some (some i) else findLoop data old is
      else findLoop data old is

/-- `stl_string_replace` with the result `base` of `realloc`. -/
def stlStringReplace (k : ℕ) (old new : Str) (base : ℕ) (junk : ℕ → UInt8) :
    Option (Memory × ℤ) := do
  let c ← m.strs[k]?
  if c.len < old.length then return (m, -1)
  else
    let data := stlStringData k c
    let obj ← m.object data
    match ← findLoop obj old (List.range c.len) with
    | none => return (m, -1)
    | some i =>
      if i + new.length < stlStringInlineLen then
        let m ← if stlStringInlineLen ≤ c.len then
            (m.free (.block c.ptr)).map (·.modifyStr k (·.setPtr 0))
          else some m
        let m ← m.store data i new
        let m ← m.store (.inData k) (i + new.length) [0]
        return (m, 0)
      else
        let m ← m.realloc c.ptr (i + new.length + 1) base junk
        let m ← (m.modifyStr k (·.setPtr base)).store data i new
        -- `data.ptr` is read again
        let c ← m.strs[k]?
        let m ← m.store (.block c.ptr) (i + new.length) [0]
        return (m, 0)

/-- `stl_string_dup` with the result `base` of `calloc`, which is not used further. -/
def stlStringDup (src dst : ℕ) (base : ℕ) : Option (Memory × ℤ) := do
  let c ← m.strs[src]?
  let srcData := stlStringData src c
  let m := if c.len < stlStringInlineLen then m else m.calloc base (c.len + 1)
  let text ← m.loadStr srcData c.len
  if 0 < c.len ∧ srcData = .inData dst then none
  else
    let m ← m.store (.inData dst) 0 text
    return (m, -1)

/-- `stl_string_create_fmt` for the output of `vsnprintf`, and the result `base` of `calloc`. -/
def stlStringSprintf (k : ℕ) (out : Option (List UInt8)) (base : ℕ) : Option (Memory × ℤ) :=
  match out with
  | none => some (m, -1)
  | some out => do
    let c ← m.strs[k]?
    if out.length < stlStringInlineLen then
      let m ← m.store (stlStringData k c) 0 out
      return (m, 0)
    else
      return ((m.calloc base (out.length + 1)).modifyStr k (·.setPtr base), 0)

def shiftCase (flag : Bool) (b : UInt8) : UInt8 :=
  if (chr 'A' ≤ b ∧ b ≤ chr 'Z' ∧ flag = false) ∨ (chr 'a' ≤ b ∧ b ≤ chr 'z' ∧ flag = true) then
    if flag then b - 32 else b + 32
  else b

def stlStringoXxx (k : ℕ) (flag : Bool) : Option (Memory × ℤ) := do
  let c ← m.strs[k]?
  let text ← m.load (stlStringData k c) c.len
  let m ← m.store (stlStringData k c) 0 (text.map (shiftCase flag))
  return (m, 0)

end Memory

end KirinFS.StlString
