import KirinFS.Foundation.Bytes
import KirinFS.Foundation.Exchange
import KirinFS.StlArray.Refinement

/-! # The buffer of an array byte by byte

A slot takes eight bytes, but `memcpy` is called with the size of an element.
The bytes show the slots that `StlArray` has.
-/

namespace KirinFS.StlArray
open Foundation.Bytes Foundation.Exchange

/-- A pointer as a number. -/
abbrev Pointer := BitVec 64

/-- `data` are the bytes from the start of the buffer on, and `maxCount * memSize` are there. -/
structure ArrayBytes where
  memSize : ℕ
  maxCount : ℕ
  curCount : ℕ
  data : ℕ → UInt8

namespace ArrayBytes

section Slots
variable (arr : ArrayBytes)

/-- The bytes of the slot `k`. -/
def slotBytes (k : ℕ) : List UInt8 := (List.range ptrSize).map fun o => arr.data (ptrSize * k + o)

/-- The pointer in the slot `k`, on a little-endian machine. -/
def ptr (k : ℕ) : Pointer := BitVec.ofNat 64 (ofBytes (arr.slotBytes k))

def slot (k : ℕ) : Option Pointer := if arr.ptr k = 0 then none else some (arr.ptr k)

def slots : StlArray Pointer :=
  ⟨arr.memSize, arr.maxCount, arr.curCount,
    (List.range (slotCount arr.memSize arr.maxCount)).map arr.slot⟩

end Slots

section Operations

def stlArrayInit (memSize count : ℕ) : ArrayBytes := ⟨memSize, count, 0, fun _ => 0⟩

variable (arr : ArrayBytes)

def storePtr (k : ℕ) (p : Pointer) : Option ArrayBytes :=
  if k < slotCount arr.memSize arr.maxCount then
    some { arr with
      data := write arr.data (ptrSize * k) ptrSize fun o => (toBytes ptrSize p.toNat).getD o 0 }
  else none

/-- `stl_array_add`, with the block that `calloc` returns for the element. -/
def stlArrayAdd (p : Pointer) : Option (ArrayBytes × ℤ) :=
  if arr.curCount < arr.maxCount then do
    let arr' ← arr.storePtr arr.curCount p
    return ({ arr' with curCount := arr.curCount + 1 }, 0)
  else some (arr, -1)

/-- One `stl_array_add` after the other, all of them successful. -/
def addAll (arr : ArrayBytes) : List Pointer → Option ArrayBytes
  | [] => some arr
  | p :: ps => do
    let (arr, ret) ← arr.stlArrayAdd p
    if ret = 0 then arr.addAll ps else none

/-- From the slot `k` on there are `mem_size` bytes in the buffer. -/
def InBuffer (k : ℕ) : Prop := ptrSize * k + arr.memSize ≤ arr.maxCount * arr.memSize

instance : DecidablePred arr.InBuffer := fun _ => inferInstanceAs (Decidable (_ ≤ _))

def copyOut (k : ℕ) : Option (ℕ → UInt8) :=
  if arr.InBuffer k then some fun o => arr.data (ptrSize * k + o) else none

def copyIn (k : ℕ) (origin : ℕ → UInt8) : Option ArrayBytes :=
  if arr.InBuffer k then
    some { arr with data := write arr.data (ptrSize * k) arr.memSize origin }
  else none

/-- `memcpy(&arr->data[dst], &arr->data[src], arr->mem_size)`, undefined for an overlap. -/
def copyWithin (dst src : ℕ) : Option ArrayBytes :=
  if Apart (ptrSize * dst) (ptrSize * src) arr.memSize then do
    let bytes ← arr.copyOut src
    arr.copyIn dst bytes
  else none

def stlArraySwap (index1 index2 : ℕ) : Option (ArrayBytes × ℤ) :=
  if index1 ≠ index2 ∧ index1 < arr.curCount ∧ index2 < arr.curCount then do
    let origin ← arr.copyOut index2
    let arr ← arr.copyWithin index2 index1
    let arr ← arr.copyIn index1 origin
    return (arr, 0)
  else some (arr, -1)

end Operations

section Views
variable {arr arr' : ArrayBytes} {p : Pointer} {k m : ℕ}

/-- Two slots hold the same pointer if their bytes are the same. -/
theorem ptr_eq_iff : arr.ptr k = arr'.ptr m ↔
    ∀ o < ptrSize, arr.data (ptrSize * k + o) = arr'.data (ptrSize * m + o) := by
  have hlt : ∀ (arr : ArrayBytes) k, ofBytes (arr.slotBytes k) < 2 ^ 64 := by
    intro arr k
    have hbytes := ofBytes_lt (arr.slotBytes k)
    rwa [slotBytes, List.length_map, List.length_range] at hbytes
  have hbytes : arr.slotBytes k = arr'.slotBytes m ↔
      ∀ o < ptrSize, arr.data (ptrSize * k + o) = arr'.data (ptrSize * m + o) := by
    rw [slotBytes, slotBytes, List.map_inj_left]
    simp only [List.mem_range]
  rw [← hbytes]
  constructor
  · intro h
    have hnat := congrArg BitVec.toNat h
    rw [ptr, ptr, BitVec.toNat_ofNat, BitVec.toNat_ofNat, Nat.mod_eq_of_lt (hlt arr k),
      Nat.mod_eq_of_lt (hlt arr' m)] at hnat
    exact ofBytes_inj (by rw [slotBytes, slotBytes, List.length_map, List.length_map]) hnat
  · intro h
    rw [ptr, ptr, h]

theorem slot_eq_iff : arr.slot k = arr'.slot m ↔ arr.ptr k = arr'.ptr m := by
  constructor
  · intro h
    rw [slot, slot] at h
    split at h
    · next hk =>
      split at h
      · next hm => rw [hk, hm]
      · cases h
    · split at h
      · cases h
      · exact Option.some.inj h
  · intro h
    rw [slot, slot, h]

theorem slot_init (memSize count k : ℕ) : (stlArrayInit memSize count).slot k = none := by
  have hbytes : (stlArrayInit memSize count).slotBytes k = List.replicate ptrSize 0 := by
    rw [slotBytes, ← List.length_range (n := ptrSize), ← List.map_const', List.length_range]
    rfl
  have hnull : (stlArrayInit memSize count).ptr k = 0 := by
    rw [ptr, hbytes, ofBytes_zeros]
    rfl
  rw [slot, if_pos hnull]

theorem slots_init (memSize count : ℕ) :
    (stlArrayInit memSize count).slots = StlArray.stlArrayInit memSize count := by
  rw [slots, List.map_congr_left fun k _ => slot_init memSize count k, List.map_const',
    List.length_range]
  rfl

theorem data_storePtr (h : arr.storePtr k p = some arr') : arr'.data =
    write arr.data (ptrSize * k) ptrSize fun o => (toBytes ptrSize p.toNat).getD o 0 := by
  rw [storePtr] at h
  split at h
  · cases h
    rfl
  · cases h

theorem ptr_storePtr (h : arr.storePtr k p = some arr') : arr'.ptr k = p := by
  have hbytes : arr'.slotBytes k = toBytes ptrSize p.toNat := by
    apply List.ext_getElem
    · rw [slotBytes, List.length_map, List.length_range, toBytes_length]
    · intro o _ ho
      have hlt : o < ptrSize := by rwa [toBytes_length] at ho
      simp only [slotBytes, List.getElem_map, List.getElem_range]
      rw [data_storePtr h, write_inside hlt, List.getD_eq_getElem _ _ ho]
  have hwidth : 2 ^ 64 = 256 ^ ptrSize := by
    rw [ptrSize]
    norm_num
  rw [ptr, hbytes, ofBytes_word p hwidth]

theorem ptr_storePtr_of_ne (h : arr.storePtr k p = some arr') (hm : m ≠ k) :
    arr'.ptr m = arr.ptr m := by
  rw [ptr_eq_iff]
  intro o ho
  rw [data_storePtr h]
  apply write_outside
  simp only [ptrSize] at ho ⊢
  omega

theorem slots_storePtr (arr : ArrayBytes) (k : ℕ) (hp : p ≠ 0) :
    (arr.storePtr k p).map slots = arr.slots.store k (some p) := by
  have hlen : arr.slots.data.length = slotCount arr.memSize arr.maxCount := by
    rw [slots, List.length_map, List.length_range]
  rw [store, hlen]
  by_cases hk : k < slotCount arr.memSize arr.maxCount
  · cases hstore : arr.storePtr k p with
    | none =>
      rw [storePtr, if_pos hk] at hstore
      cases hstore
    | some arr' =>
      have hsame : arr'.memSize = arr.memSize ∧ arr'.maxCount = arr.maxCount ∧
          arr'.curCount = arr.curCount := by
        rw [storePtr, if_pos hk] at hstore
        cases hstore
        exact ⟨rfl, rfl, rfl⟩
      obtain ⟨hmem, hmax, hcur⟩ := hsame
      have hslots : (List.range (slotCount arr.memSize arr.maxCount)).map arr'.slot =
          arr.slots.data.set k (some p) := by
        apply List.ext_getElem
        · rw [List.length_set, hlen, List.length_map, List.length_range]
        · intro m _ _
          rw [List.getElem_set, List.getElem_map, List.getElem_range]
          split
          · next hm => rw [← hm, slot, ptr_storePtr hstore, if_neg hp]
          · next hm =>
            have hptr := ptr_storePtr_of_ne hstore (m := m) (Ne.symm hm)
            simp only [slots, List.getElem_map, List.getElem_range]
            exact slot_eq_iff.mpr hptr
      rw [if_pos hk, Option.map_some, slots, hmem, hmax, hcur, hslots]
      rfl
  · rw [storePtr, if_neg hk, if_neg hk]
    rfl

theorem slots_add (arr : ArrayBytes) (hp : p ≠ 0) :
    (arr.stlArrayAdd p).map (fun r => (r.1.slots, ⟨r.2, none⟩)) = arr.slots.stlArrayAdd p := by
  have hstore := slots_storePtr arr arr.curCount hp
  rw [stlArrayAdd, StlArray.stlArrayAdd]
  by_cases hfree : arr.curCount < arr.maxCount
  · rw [if_pos hfree, if_pos (show arr.slots.curCount < arr.slots.maxCount from hfree)]
    cases hbytes : arr.storePtr arr.curCount p with
    | none =>
      rw [hbytes] at hstore
      rw [show arr.slots.store arr.slots.curCount (some p) = none from hstore.symm]
      rfl
    | some arr' =>
      rw [hbytes] at hstore
      rw [show arr.slots.store arr.slots.curCount (some p) = some arr'.slots from hstore.symm]
      rfl
  · rw [if_neg hfree, if_neg (show ¬arr.slots.curCount < arr.slots.maxCount from hfree)]
    rfl

end Views

section Adds
variable {arr : ArrayBytes} {l : List Pointer} {p : Pointer}

theorem add_sizes {r : ArrayBytes × ℤ} (h : arr.stlArrayAdd p = some r) :
    r.1.memSize = arr.memSize ∧ r.1.maxCount = arr.maxCount := by
  rw [stlArrayAdd] at h
  split at h
  · obtain ⟨arr', hstore, h⟩ := Option.bind_eq_some_iff.mp h
    cases h
    rw [storePtr] at hstore
    split at hstore
    · cases hstore
      exact ⟨rfl, rfl⟩
    · cases hstore
  · cases h
    exact ⟨rfl, rfl⟩

/-- With a slot left the pointer comes behind the others. -/
theorem holds_add (h : Holds arr.memSize arr.maxCount arr.slots l) (hp : p ≠ 0)
    (hroom : l.length < slotCount arr.memSize arr.maxCount) :
    ∃ arr', arr.stlArrayAdd p = some (arr', 0) ∧ arr'.memSize = arr.memSize ∧
      arr'.maxCount = arr.maxCount ∧ Holds arr.memSize arr.maxCount arr'.slots (l ++ [p]) := by
  have hfree : l.length < arr.maxCount := Nat.lt_of_lt_of_le hroom (slotCount_le _ _)
  obtain ⟨s, hstep, hholds⟩ := add_refines h (fun _ => hroom) p
  rw [listStep, if_pos hfree] at hstep hholds
  have hslots := slots_add arr hp
  rw [show arr.slots.stlArrayAdd p = _ from hstep] at hslots
  obtain ⟨⟨arr', ret⟩, hadd, hr⟩ := Option.map_eq_some_iff.mp hslots
  obtain ⟨hs, hret⟩ := Prod.mk.inj hr
  have hzero : ret = 0 := congrArg Outcome.ret hret
  have hview : arr'.slots = s := hs
  obtain ⟨hmem, hmax⟩ := add_sizes hadd
  rw [hzero] at hadd
  rw [← hview] at hholds
  exact ⟨arr', hadd, hmem, hmax, hholds⟩

/-- The induction is on the pointers that are still to be added. -/
theorem holds_addAll (h : Holds arr.memSize arr.maxCount arr.slots l) {ps : List Pointer}
    (hps : ∀ p ∈ ps, p ≠ 0)
    (hroom : l.length + ps.length ≤ slotCount arr.memSize arr.maxCount) :
    ∃ arr', arr.addAll ps = some arr' ∧ arr'.memSize = arr.memSize ∧
      arr'.maxCount = arr.maxCount ∧ Holds arr'.memSize arr'.maxCount arr'.slots (l ++ ps) := by
  induction ps generalizing arr l with
  | nil =>
    rw [List.append_nil]
    exact ⟨arr, rfl, rfl, rfl, h⟩
  | cons p ps ih =>
    rw [List.length_cons] at hroom
    obtain ⟨next, hadd, hmem, hmax, hholds⟩ :=
      holds_add h (hps p List.mem_cons_self) (by omega)
    rw [← hmem, ← hmax] at hholds hroom
    have hrest : (l ++ [p]).length + ps.length ≤ slotCount next.memSize next.maxCount := by
      rw [List.length_append, List.length_singleton]
      omega
    obtain ⟨arr', hall, hmem', hmax', hlast⟩ :=
      ih hholds (fun q hq => hps q (List.mem_cons_of_mem p hq)) hrest
    rw [List.append_assoc, List.singleton_append] at hlast
    refine ⟨arr', ?_, hmem'.trans hmem, hmax'.trans hmax, hlast⟩
    rw [addAll, hadd]
    exact hall

/-- Any pointers for which there are slots get into an array by adding them. -/
theorem holds_added (ps : List Pointer) {memSize maxCount : ℕ} (hps : ∀ p ∈ ps, p ≠ 0)
    (hroom : ps.length ≤ slotCount memSize maxCount) :
    ∃ arr, (stlArrayInit memSize maxCount).addAll ps = some arr ∧ arr.memSize = memSize ∧
      Holds arr.memSize arr.maxCount arr.slots ps := by
  have hinit : Holds (stlArrayInit memSize maxCount).memSize
      (stlArrayInit memSize maxCount).maxCount (stlArrayInit memSize maxCount).slots [] := by
    rw [slots_init]
    exact holds_init memSize maxCount
  have hfits : ([] : List Pointer).length + ps.length ≤ slotCount memSize maxCount := by
    rwa [List.length_nil, Nat.zero_add]
  obtain ⟨arr, hall, hmem, -, hholds⟩ := holds_addAll hinit hps hfits
  exact ⟨arr, hall, hmem, hholds⟩

end Adds

end ArrayBytes

end KirinFS.StlArray
