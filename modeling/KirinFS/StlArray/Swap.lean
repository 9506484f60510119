import KirinFS.StlArray.Bytes
import Mathlib.Logic.Equiv.Basic

/-! # Swapping two elements

`stl_array_swap` copies the size of an element, but from the slots, where the
pointers are.
-/

namespace KirinFS.StlArray
open Foundation.Exchange

section Specification

def swapped {α : Type*} (i j : ℕ) (l : List α) : List α :=
  match l[i]?, l[j]? with
  | some x, some y => (l.set i y).set j x
  | _, _ => l

/-- A call for two different elements of an array that holds the list. -/
structure SwapCall (arr : ArrayBytes) (l : List Pointer) (i j : ℕ) : Prop where
  holds : Holds arr.memSize arr.maxCount arr.slots l
  left : i < l.length
  right : j < l.length
  ne : i ≠ j

/-- The swap exchanges two elements of the list, and done twice it restores the array. -/
def Swaps (arr : ArrayBytes) (l : List Pointer) (i j : ℕ) : Prop :=
  ∃ arr', arr.stlArraySwap i j = some (arr', 0) ∧
    Holds arr.memSize arr.maxCount arr'.slots (swapped i j l) ∧
    arr'.stlArraySwap i j = some (arr, 0)

/-- What is copied does not overlap, and the bytes between the size of an element and the size of a
pointer are the same from both slots on. -/
def Harmless (arr : ArrayBytes) (i j : ℕ) : Prop :=
  Apart (ptrSize * i) (ptrSize * j) arr.memSize ∧
    ∀ o, min arr.memSize ptrSize ≤ o → o < max arr.memSize ptrSize →
      arr.data (ptrSize * i + o) = arr.data (ptrSize * j + o)

theorem getElem?_swapped {α : Type*} {l : List α} {i j : ℕ} (hi : i < l.length)
    (hj : j < l.length) (k : ℕ) : (swapped i j l)[k]? = l[Equiv.swap i j k]? := by
  rw [swapped, List.getElem?_eq_getElem hi, List.getElem?_eq_getElem hj, Equiv.swap_apply_def]
  simp only [List.getElem?_set, List.length_set]
  by_cases hkj : j = k
  · subst hkj
    rw [if_pos rfl, if_pos hj]
    split
    · next hji =>
      subst hji
      rw [List.getElem?_eq_getElem hi]
    · rw [if_pos rfl, List.getElem?_eq_getElem hi]
  · rw [if_neg hkj]
    by_cases hki : i = k
    · rw [if_pos hki, if_pos hi, if_pos hki.symm, List.getElem?_eq_getElem hj]
    · rw [if_neg hki, if_neg (Ne.symm hki), if_neg (Ne.symm hkj)]

theorem length_swapped {α : Type*} (i j : ℕ) (l : List α) :
    (swapped i j l).length = l.length := by
  rw [swapped]
  split
  · rw [List.length_set, List.length_set]
  · rfl

theorem swap_lt {i j k n : ℕ} (hi : i < n) (hj : j < n) (hk : k < n) : Equiv.swap i j k < n := by
  rw [Equiv.swap_apply_def]
  split
  · exact hj
  · split
    · exact hi
    · exact hk

end Specification

variable {arr : ArrayBytes} {l : List Pointer} {i j : ℕ}

section Slots

theorem holds_slot {memSize maxCount : ℕ} (h : Holds memSize maxCount arr.slots l) {k : ℕ}
    (hk : k < l.length) : arr.slot k = l[k]? := by
  obtain ⟨rest, hrest⟩ := h.data
  have hget : arr.slots.data[k]? = some l[k]? := by
    rw [hrest, List.getElem?_append_left (by rwa [List.length_map]), List.getElem?_map,
      List.getElem?_eq_getElem hk]
    rfl
  rw [ArrayBytes.slots, List.getElem?_map] at hget
  obtain ⟨m, hm, hslot⟩ := Option.map_eq_some_iff.mp hget
  obtain ⟨hlt, hval⟩ := List.getElem?_eq_some_iff.mp hm
  rw [List.getElem_range] at hval
  rw [← hval] at hslot
  exact hslot

/-- The bytes hold a list if their slots do, one by one. -/
theorem holds_slots_iff (arr : ArrayBytes) (l : List Pointer) :
    Holds arr.memSize arr.maxCount arr.slots l ↔
      arr.curCount = l.length ∧ l.length ≤ slotCount arr.memSize arr.maxCount ∧
        ∀ k < l.length, arr.slot k = l[k]? := by
  constructor
  · intro h
    exact ⟨h.count, h.length_le, fun k hk => holds_slot h hk⟩
  · rintro ⟨hcount, hle, hslots⟩
    have hlen : arr.slots.data.length = slotCount arr.memSize arr.maxCount := by
      rw [ArrayBytes.slots, List.length_map, List.length_range]
    have htake : arr.slots.data.take l.length = l.map some := by
      apply List.ext_getElem?
      intro k
      by_cases hk : k < l.length
      · rw [List.getElem?_take_of_lt hk, ArrayBytes.slots, List.getElem?_map,
          List.getElem?_range (Nat.lt_of_lt_of_le hk hle), Option.map_some, hslots k hk,
          List.getElem?_map, List.getElem?_eq_getElem hk]
        rfl
      · rw [List.getElem?_eq_none (by rw [List.length_take]; omega),
          List.getElem?_eq_none (by rw [List.length_map]; omega)]
    refine ⟨rfl, hcount, hlen, arr.slots.data.drop l.length, ?_⟩
    rw [← htake, List.take_append_drop]

/-- A slot that is there leaves room for an element from its start on. -/
theorem inBuffer_of_lt {k : ℕ} (h : k < slotCount arr.memSize arr.maxCount) : arr.InBuffer k := by
  have hmax : k + 1 ≤ arr.maxCount := Nat.le_trans h (Nat.min_le_left _ _)
  have hbytes : (k + 1) * ptrSize ≤ arr.maxCount * arr.memSize :=
    (Nat.le_div_iff_mul_le (by decide)).mp (Nat.le_trans h (Nat.min_le_right _ _))
  rw [ArrayBytes.InBuffer]
  rcases Nat.le_total arr.memSize ptrSize with hsmall | hlarge
  · rw [Nat.add_mul, Nat.mul_comm k] at hbytes
    omega
  · have hstart := Nat.mul_le_mul_right k hlarge
    have hall := Nat.mul_le_mul_right arr.memSize hmax
    rw [Nat.add_mul, Nat.mul_comm k] at hall
    omega

/-- The first slots hold the same pointers if the bytes up to there are the same. -/
theorem ptrs_eq_iff {arr' : ArrayBytes} {n : ℕ} : (∀ k < n, arr.ptr k = arr'.ptr k) ↔
    ∀ b < ptrSize * n, arr.data b = arr'.data b := by
  constructor
  · intro h b hb
    have hk : b / ptrSize < n := Nat.div_lt_of_lt_mul hb
    have ho : b % ptrSize < ptrSize := Nat.mod_lt _ (by decide)
    have hbyte := ArrayBytes.ptr_eq_iff.mp (h _ hk) _ ho
    rwa [Nat.div_add_mod] at hbyte
  · intro h k hk
    rw [ArrayBytes.ptr_eq_iff]
    intro o ho
    have hend := Nat.mul_le_mul_left ptrSize (Nat.succ_le_of_lt hk)
    rw [Nat.mul_succ] at hend
    exact h _ (by omega)

/-- The array with `n` bytes exchanged between two slots. -/
def exchanged (arr : ArrayBytes) (i j n : ℕ) : ArrayBytes :=
  { arr with data := exchange arr.data (ptrSize * i) (ptrSize * j) n }

theorem apart_slots (hne : i ≠ j) : Apart (ptrSize * i) (ptrSize * j) ptrSize := by
  rcases Nat.lt_or_gt_of_ne hne with h | h
  · have hend := Nat.mul_le_mul_left ptrSize (Nat.succ_le_of_lt h)
    exact Or.inl hend
  · have hend := Nat.mul_le_mul_left ptrSize (Nat.succ_le_of_lt h)
    exact Or.inr hend

/-- Exchanging the bytes of two slots exchanges the pointers. -/
theorem ptr_exchanged (hne : i ≠ j) (k : ℕ) :
    (exchanged arr i j ptrSize).ptr k = arr.ptr (Equiv.swap i j k) := by
  have hapart := apart_slots hne
  rw [ArrayBytes.ptr_eq_iff]
  intro o ho
  rw [exchanged, Equiv.swap_apply_def]
  split
  · next hk =>
    rw [hk]
    exact exchange_left ho
  · next hki =>
    split
    · next hk =>
      rw [hk]
      exact exchange_right hapart ho
    · next hkj =>
      have hi := apart_slots hki
      have hj := apart_slots hkj
      unfold Apart at hi hj
      exact exchange_outside (by omega) (by omega)

/-- Where as many bytes are exchanged as an element has, the elements are exchanged exactly if the
bytes between the two sizes are the same. -/
theorem holds_exchanged_iff (h : SwapCall arr l i j)
    (hapart : Apart (ptrSize * i) (ptrSize * j) arr.memSize) :
    Holds arr.memSize arr.maxCount (exchanged arr i j arr.memSize).slots (swapped i j l) ↔
      ∀ o, min arr.memSize ptrSize ≤ o → o < max arr.memSize ptrSize →
        arr.data (ptrSize * i + o) = arr.data (ptrSize * j + o) := by
  obtain ⟨hholds, hi, hj, hne⟩ := h
  obtain ⟨hcount, hle, hslots⟩ := (holds_slots_iff arr l).mp hholds
  have hlist : Holds arr.memSize arr.maxCount (exchanged arr i j arr.memSize).slots
      (swapped i j l) ↔ ∀ k < l.length,
        (exchanged arr i j arr.memSize).ptr k = (exchanged arr i j ptrSize).ptr k := by
    refine (holds_slots_iff (exchanged arr i j arr.memSize) _).trans ?_
    rw [length_swapped]
    refine (and_iff_right hcount).trans ((and_iff_right hle).trans ?_)
    apply forall₂_congr
    intro k hk
    rw [getElem?_swapped hi hj, ← hslots _ (swap_lt hi hj hk), ArrayBytes.slot_eq_iff,
      ptr_exchanged hne]
  rw [hlist, ptrs_eq_iff]
  exact exchange_agree_iff hapart (apart_slots hne)
    (Nat.mul_le_mul_left _ (Nat.le_of_lt hi)) (Nat.mul_le_mul_left _ (Nat.le_of_lt hj))

end Slots

section Swaps

/-- The three copies exchange the bytes, unless they overlap. -/
theorem swap_eq (hne : i ≠ j) (hi : i < arr.curCount) (hj : j < arr.curCount)
    (hbi : arr.InBuffer i) (hbj : arr.InBuffer j) : arr.stlArraySwap i j =
      if Apart (ptrSize * j) (ptrSize * i) arr.memSize then
        some (exchanged arr i j arr.memSize, 0)
      else none := by
  have hout : ∀ k, arr.InBuffer k →
      arr.copyOut k = some fun o => arr.data (ptrSize * k + o) := fun k hk => if_pos hk
  have hin : ∀ data origin k, arr.InBuffer k →
      ({ arr with data := data } : ArrayBytes).copyIn k origin =
        some { arr with data := write data (ptrSize * k) arr.memSize origin } :=
    fun _ _ _ hk => if_pos hk
  rw [ArrayBytes.stlArraySwap, if_pos ⟨hne, hi, hj⟩, hout j hbj, ArrayBytes.copyWithin, hout i hbi]
  split
  · simp only [Option.bind_eq_bind, Option.bind_some]
    rw [hin arr.data _ j hbj, Option.bind_some, hin _ _ i hbi, exchanged, ← write_write]
    rfl
  · rfl

theorem swaps_iff (h : SwapCall arr l i j) : Swaps arr l i j ↔ Harmless arr i j := by
  obtain ⟨hholds, hi, hj, hne⟩ := h
  obtain ⟨hcount, hle, -⟩ := (holds_slots_iff arr l).mp hholds
  have hbi := inBuffer_of_lt (Nat.lt_of_lt_of_le hi hle)
  have hbj := inBuffer_of_lt (Nat.lt_of_lt_of_le hj hle)
  have hci : i < arr.curCount := by rwa [hcount]
  have hcj : j < arr.curCount := by rwa [hcount]
  have hrun := swap_eq hne hci hcj hbi hbj
  have hback : (exchanged arr i j arr.memSize).stlArraySwap i j =
      if Apart (ptrSize * j) (ptrSize * i) arr.memSize then
        some (exchanged (exchanged arr i j arr.memSize) i j arr.memSize, 0)
      else none :=
    swap_eq hne hci hcj hbi hbj
  rw [Harmless, Swaps, hrun]
  by_cases hapart : Apart (ptrSize * i) (ptrSize * j) arr.memSize
  · have hagain : exchanged (exchanged arr i j arr.memSize) i j arr.memSize = arr := by
      rw [exchanged, exchanged, exchange_exchange hapart]
    rw [if_pos hapart.symm, and_iff_right hapart,
      ← holds_exchanged_iff ⟨hholds, hi, hj, hne⟩ hapart]
    constructor
    · rintro ⟨arr', hrun, hswapped, -⟩
      cases hrun
      exact hswapped
    · intro hswapped
      refine ⟨_, rfl, hswapped, ?_⟩
      rw [hback, if_pos hapart.symm, hagain]
  · rw [if_neg fun hsym => hapart hsym.symm]
    constructor
    · rintro ⟨_, hrun, -⟩
      cases hrun
    · rintro ⟨hgood, -⟩
      exact absurd hgood hapart

theorem harmless_of_pointer_size (hsize : arr.memSize = ptrSize) (hne : i ≠ j) :
    Harmless arr i j := by
  rw [Harmless, hsize, Nat.min_self, Nat.max_self]
  exact ⟨apart_slots hne, fun o hlow hhigh => absurd hhigh (Nat.not_lt.mpr hlow)⟩

def lastByteDiffers (memSize : ℕ) : ArrayBytes :=
  ⟨memSize, 16, 2, fun b => if b = 15 then 2 else 1⟩

theorem holds_lastByteDiffers {memSize : ℕ} (hpos : 1 ≤ memSize) :
    Holds memSize 16 (lastByteDiffers memSize).slots
      [0x0101010101010101, 0x0201010101010101] := by
  have hptr : ∀ k < 2, (lastByteDiffers memSize).slot k =
      ([0x0101010101010101, 0x0201010101010101] : List Pointer)[k]? := by
    have hzero : ∀ k < 2, (lastByteDiffers 0).slot k =
        ([0x0101010101010101, 0x0201010101010101] : List Pointer)[k]? := by
      decide +kernel
    exact hzero
  have hslots : 2 ≤ slotCount memSize 16 := by
    rw [slotCount, ptrSize]
    omega
  exact (holds_slots_iff (lastByteDiffers memSize) _).mpr ⟨rfl, hslots, hptr⟩

/-- A smaller size mixes two pointers, and a larger one overlaps in slots side by side. -/
theorem swaps_all_iff {memSize : ℕ} (hpos : 1 ≤ memSize) :
    (∀ arr l i j, arr.memSize = memSize → SwapCall arr l i j → Swaps arr l i j) ↔
      memSize = ptrSize := by
  constructor
  · intro h
    have hcall : SwapCall (lastByteDiffers memSize) _ 0 1 :=
      ⟨holds_lastByteDiffers hpos, Nat.two_pos, Nat.one_lt_two, Nat.zero_ne_one⟩
    obtain ⟨hapart, hsame⟩ := (swaps_iff hcall).mp (h _ _ 0 1 rfl hcall)
    have hlarge : (lastByteDiffers memSize).memSize ≤ ptrSize := by
      change 8 * 0 + memSize ≤ 8 * 1 ∨ 8 * 1 + memSize ≤ 8 * 0 at hapart
      change memSize ≤ 8
      omega
    by_contra hne
    have hsmall : memSize < ptrSize := Nat.lt_of_le_of_ne hlarge hne
    rw [Nat.min_eq_left hlarge, Nat.max_eq_right hlarge] at hsame
    have hbyte := hsame 7 (Nat.le_of_lt_succ hsmall) (by decide)
    exact absurd (show (1 : UInt8) = 2 from hbyte) (by decide)
  · rintro rfl arr l i j hmem hcall
    exact (swaps_iff hcall).mpr (harmless_of_pointer_size hmem hcall.ne)

/-- Whatever the element size is, a swap is right exactly where its copies are harmless, and all
swaps are only if the size is that of a pointer. -/
theorem stl_array_swap_exact {memSize : ℕ} (hpos : 1 ≤ memSize) :
    (∀ arr l i j, arr.memSize = memSize → SwapCall arr l i j →
      (Swaps arr l i j ↔ Harmless arr i j)) ∧
      ((∀ arr l i j, arr.memSize = memSize → SwapCall arr l i j → Swaps arr l i j) ↔
        memSize = ptrSize) :=
  ⟨fun _ _ _ _ _ hcall => swaps_iff hcall, swaps_all_iff hpos⟩

/-- Two elements of the size of a pointer change places. -/
theorem stl_array_swap_pointers : ∃ arr, (ArrayBytes.stlArrayInit 8 2).addAll [0x10, 0x20] =
    some arr ∧ Swaps arr [0x10, 0x20] 0 1 := by
  obtain ⟨arr, hall, hmem, hholds⟩ :=
    ArrayBytes.holds_added [0x10, 0x20] (by simp) (show 2 ≤ slotCount 8 2 by decide)
  have hall_right := (stl_array_swap_exact (show 1 ≤ 8 by decide)).2.mpr rfl
  exact ⟨arr, hall, hall_right arr _ 0 1 hmem ⟨hholds, by decide, by decide, by decide⟩⟩

/-- With elements of 16 bytes a swap takes an element that it should leave, and in slots side by
side the copies overlap. -/
theorem stl_array_swap_wrong :
    (((ArrayBytes.stlArrayInit 16 3).addAll [0x10, 0x20, 0x30]).bind fun arr =>
      (arr.stlArraySwap 0 2).map fun r => (r.2, r.1.slot 1)) = some (0, none) ∧
      (((ArrayBytes.stlArrayInit 16 3).addAll [0x10, 0x20, 0x30]).bind fun arr =>
        (arr.stlArraySwap 0 1).map fun r => r.2) = none ∧
      ¬∀ arr l i j, 1 ≤ arr.memSize → SwapCall arr l i j → Swaps arr l i j := by
  have hlost : (((ArrayBytes.stlArrayInit 16 3).addAll [0x10, 0x20, 0x30]).bind fun arr =>
      (arr.stlArraySwap 0 2).map fun r => (r.2, r.1.slot 1)) = some (0, none) := by
    decide +kernel
  refine ⟨hlost, by decide +kernel, fun h => ?_⟩
  obtain ⟨arr, hall, hmem, hholds⟩ :=
    ArrayBytes.holds_added [0x10, 0x20, 0x30] (by simp) (show 3 ≤ slotCount 16 3 by decide)
  obtain ⟨arr', hrun, hswapped, -⟩ := h arr [0x10, 0x20, 0x30] 0 2 (by omega)
    ⟨hholds, by decide, by decide, by decide⟩
  rw [hall, Option.bind_some, hrun, Option.map_some] at hlost
  have hslot : arr'.slot 1 = none := (Prod.mk.inj (Option.some.inj hlost)).2
  rw [holds_slot hswapped (show 1 < 3 by decide)] at hslot
  cases hslot

end Swaps

end KirinFS.StlArray
