import KirinFS.StlArray.Slots
import Mathlib.Data.List.InsertIdx

/-! # The array as a bounded list -/

namespace KirinFS.StlArray

variable {α : Type*}

section Specification

/-- What an operation is for, on the list of the elements. -/
def listStep (maxCount : ℕ) (l : List α) : ArrayOp α → List α × Outcome α
  | .add data => if l.length < maxCount then (l ++ [data], ⟨0, none⟩) else (l, ⟨-1, none⟩)
  | .addAt data index =>
    if l.length < maxCount then (l.insertIdx index data, ⟨0, none⟩) else (l, ⟨-1, none⟩)
  | .remove => if 0 < l.length then (l.dropLast, ⟨0, l.getLast?⟩) else (l, ⟨-1, none⟩)
  | .removeAt index => (l.eraseIdx index, ⟨if index < maxCount then 0 else -1, l[index]?⟩)

def listRun (maxCount : ℕ) (l : List α) : List (ArrayOp α) → List α × List (Outcome α)
  | [] => (l, [])
  | op :: ops =>
    ((listRun maxCount (listStep maxCount l op).1 ops).1,
      (listStep maxCount l op).2 :: (listRun maxCount (listStep maxCount l op).1 ops).2)

structure Holds (memSize maxCount : ℕ) (arr : StlArray α) (l : List α) : Prop where
  capacity : arr.maxCount = maxCount
  count : arr.curCount = l.length
  slots : arr.data.length = slotCount memSize maxCount
  data : ∃ rest, arr.data = l.map some ++ rest

def Refines (memSize maxCount : ℕ) (arr : StlArray α) (l : List α) (op : ArrayOp α) : Prop :=
  ∃ arr', arr.step op = some (arr', (listStep maxCount l op).2) ∧
    Holds memSize maxCount arr' (listStep maxCount l op).1

/-- An index to insert at is at most the number of elements. -/
def Called (l : List α) : ArrayOp α → Prop
  | .addAt _ index => index ≤ l.length
  | _ => True

/-- An insertion has a slot, and one at an index leaves another slot free. Nothing is removed at an
index when all slots are taken. -/
def Avoids (memSize maxCount : ℕ) (l : List α) : ArrayOp α → Prop
  | .add _ => l.length < maxCount → l.length < slotCount memSize maxCount
  | .addAt _ _ => l.length + 1 ≠ maxCount ∧
    (l.length < maxCount → l.length < slotCount memSize maxCount)
  | .removeAt index => index < l.length → l.length < slotCount memSize maxCount
  | .remove => True

def Throughout (ok : List α → ArrayOp α → Prop) (maxCount : ℕ) (l : List α) :
    List (ArrayOp α) → Prop
  | [] => True
  | op :: ops => ok l op ∧ Throughout ok maxCount (listStep maxCount l op).1 ops

end Specification

variable {memSize maxCount : ℕ} {arr : StlArray α} {l : List α}

section Slots

theorem slotCount_le (memSize maxCount : ℕ) : slotCount memSize maxCount ≤ maxCount :=
  Nat.min_le_left _ _

theorem slotCount_eq (h : ptrSize ≤ memSize) : slotCount memSize maxCount = maxCount := by
  rw [slotCount, Nat.min_eq_left]
  exact (Nat.le_div_iff_mul_le (by decide)).mpr (Nat.mul_le_mul_left _ h)

theorem Holds.length_le (h : Holds memSize maxCount arr l) :
    l.length ≤ slotCount memSize maxCount := by
  obtain ⟨rest, hrest⟩ := h.data
  have hlen := congrArg List.length hrest
  rw [h.slots, List.length_append, List.length_map] at hlen
  omega

theorem Holds.next_slot (h : Holds memSize maxCount arr l)
    (hroom : l.length < slotCount memSize maxCount) :
    ∃ next rest, arr.data = l.map some ++ next :: rest := by
  obtain ⟨rest, hrest⟩ := h.data
  cases rest with
  | nil =>
    have hlen := congrArg List.length hrest
    rw [h.slots, List.length_append, List.length_map, List.length_nil] at hlen
    omega
  | cons next rest => exact ⟨next, rest, hrest⟩

theorem holds_init (memSize maxCount : ℕ) :
    Holds memSize maxCount (stlArrayInit (α := α) memSize maxCount) [] :=
  ⟨rfl, rfl, List.length_replicate, _, rfl⟩

theorem Holds.change (h : Holds memSize maxCount arr l) {arr' : StlArray α} {l' : List α}
    (rest : List (Option α)) (hmax : arr'.maxCount = arr.maxCount)
    (hcount : arr'.curCount = l'.length) (hdata : arr'.data = l'.map some ++ rest)
    (hlen : arr'.data.length = arr.data.length) : Holds memSize maxCount arr' l' :=
  ⟨hmax.trans h.capacity, hcount, hlen.trans h.slots, rest, hdata⟩

theorem store_eq {front rest : List (Option α)} {x : Option α} (h : arr.data = front ++ x :: rest)
    (ptr : Option α) :
    arr.store front.length ptr = some { arr with data := front ++ ptr :: rest } := by
  have hlt : front.length < arr.data.length := by
    rw [h, List.length_append, List.length_cons]
    omega
  rw [store, if_pos hlt, h, List.set_append_right _ _ (Nat.le_refl _), Nat.sub_self]
  rfl

theorem add_refines (h : Holds memSize maxCount arr l)
    (hroom : l.length < maxCount → l.length < slotCount memSize maxCount) (data : α) :
    Refines memSize maxCount arr l (.add data) := by
  rw [Refines, step, stlArrayAdd, listStep, h.capacity, h.count]
  by_cases hfree : l.length < maxCount
  · obtain ⟨next, rest, hrest⟩ := h.next_slot (hroom hfree)
    have hstore := store_eq hrest (some data)
    rw [List.length_map] at hstore
    rw [if_pos hfree, if_pos hfree, hstore]
    refine ⟨_, rfl, h.change rest rfl ?_ ?_ ?_⟩
    · simp
    · simp
    · simp [hrest]
  · rw [if_neg hfree, if_neg hfree]
    exact ⟨arr, rfl, h⟩

theorem remove_refines (h : Holds memSize maxCount arr l) :
    Refines memSize maxCount arr l .remove := by
  rw [Refines, step, stlArrayRemove, listStep, h.count]
  by_cases hpos : 0 < l.length
  · obtain ⟨rest, hrest⟩ := h.data
    obtain ⟨l, x, rfl⟩ : ∃ l' x, l = l' ++ [x] :=
      ⟨_, _, (List.dropLast_concat_getLast (List.length_pos_iff.mp hpos)).symm⟩
    have hlen : (l ++ [x]).length - 1 = (l.map some).length := by simp
    have hsplit : arr.data = l.map some ++ some x :: rest := by
      rw [hrest, List.map_append, List.append_assoc]
      rfl
    have hread : arr.data[(l.map some).length]? = some (some x) := by
      rw [hsplit, List.getElem?_append_right (Nat.le_refl _), Nat.sub_self]
      rfl
    rw [if_pos hpos, if_pos hpos, hlen, hread, store_eq hsplit none, List.dropLast_concat,
      List.getLast?_concat]
    refine ⟨_, rfl, h.change (none :: rest) rfl ?_ ?_ ?_⟩
    · simp
    · simp
    · simp [hsplit]
  · rw [if_neg hpos, if_neg hpos]
    exact ⟨arr, rfl, h⟩

/-- The slots behind the front part move up by one, over the next slot, and the slot that gets free
is set. -/
theorem shift_up {front back rest : List (Option α)} {next : Option α}
    (h : arr.data = front ++ (back ++ next :: rest)) (ptr : Option α) :
    ∃ arr', arr.memmove (front.length + 1) front.length back.length = some arr' ∧
      arr'.store front.length ptr = some { arr with data := front ++ ptr :: (back ++ rest) } := by
  have hbound : front.length + 1 + back.length ≤ arr.data.length ∧
      front.length + back.length ≤ arr.data.length := by
    rw [h]
    simp only [List.length_append, List.length_cons]
    omega
  obtain ⟨y, hy⟩ : ∃ y, (back ++ next :: rest).take 1 = [y] := by
    cases back with
    | nil => exact ⟨next, rfl⟩
    | cons y back => exact ⟨y, rfl⟩
  have hhead : arr.data.take (front.length + 1) = front ++ [y] := by
    rw [h, List.take_length_add_append, hy]
  have hmoved : (arr.data.drop front.length).take back.length = back := by
    rw [h, List.drop_left, List.take_left]
  have htail : arr.data.drop (front.length + 1 + back.length) = rest := by
    have hswap : front.length + 1 + back.length = front.length + (back.length + 1) := by omega
    rw [h, hswap, List.drop_length_add_append, List.drop_length_add_append]
    rfl
  refine ⟨{ arr with data := front ++ y :: (back ++ rest) }, ?_, store_eq rfl ptr⟩
  rw [memmove, if_pos hbound, hhead, hmoved, htail]
  simp

/-- The slots behind a slot move down by one, the next slot with them, and that one is cleared. -/
theorem shift_down {front back rest : List (Option α)} {x next : Option α}
    (h : arr.data = front ++ x :: (back ++ next :: rest)) :
    ∃ arr', arr.memmove front.length (front.length + 1) (back.length + 1) = some arr' ∧
      arr'.store (front.length + (back.length + 1)) none =
        some { arr with data := front ++ (back ++ next :: none :: rest) } := by
  have hbound : front.length + (back.length + 1) ≤ arr.data.length ∧
      front.length + 1 + (back.length + 1) ≤ arr.data.length := by
    rw [h]
    simp only [List.length_append, List.length_cons]
    omega
  have hhead : arr.data.take front.length = front := by
    rw [h, List.take_left]
  have hmoved : (arr.data.drop (front.length + 1)).take (back.length + 1) = back ++ [next] := by
    rw [h, List.drop_length_add_append, List.drop_succ_cons, List.drop_zero,
      List.take_length_add_append]
    rfl
  have htail : arr.data.drop (front.length + (back.length + 1)) = next :: rest := by
    rw [h, List.drop_length_add_append, List.drop_succ_cons, List.drop_left]
  refine ⟨{ arr with data := front ++ (back ++ [next]) ++ next :: rest }, ?_, ?_⟩
  · rw [memmove, if_pos hbound, hhead, hmoved, htail]
  · have hlen : (front ++ (back ++ [next])).length = front.length + (back.length + 1) := by simp
    rw [← hlen, store_eq rfl none]
    simp

end Slots

section Indexed

theorem insertIdx_front (front back : List α) (data : α) :
    (front ++ back).insertIdx front.length data = front ++ data :: back := by
  induction front with
  | nil => rfl
  | cons x front ih =>
    rw [List.cons_append, List.length_cons, List.insertIdx_succ_cons, ih]
    rfl

theorem addAt_full (h : Holds memSize maxCount arr l) (hfull : l.length = maxCount) (data : α)
    (index : ℕ) : Refines memSize maxCount arr l (.addAt data index) := by
  have hguard : ¬(index < maxCount ∧ l.length + 1 < maxCount) := by omega
  rw [Refines, step, stlArrayAddAt, listStep, h.capacity, h.count, if_neg hguard,
    if_neg (by omega)]
  exact ⟨arr, rfl, h⟩

theorem addAt_free (h : Holds memSize maxCount arr l) (hfree : l.length + 1 < maxCount)
    (hroom : l.length < slotCount memSize maxCount) (data : α) {index : ℕ}
    (hindex : index ≤ l.length) : Refines memSize maxCount arr l (.addAt data index) := by
  obtain ⟨next, rest, hrest⟩ := h.next_slot hroom
  obtain ⟨front, back, rfl, rfl⟩ : ∃ front back, l = front ++ back ∧ index = front.length :=
    ⟨l.take index, l.drop index, (List.take_append_drop index l).symm,
      (List.length_take_of_le hindex).symm⟩
  have hsplit : arr.data = front.map some ++ (back.map some ++ next :: rest) := by
    rw [hrest, List.map_append, List.append_assoc]
  obtain ⟨arr', hmove, hstore⟩ := shift_up hsplit (some data)
  rw [List.length_map, List.length_map] at hmove
  rw [List.length_map] at hstore
  have hcount : (front ++ back).length - front.length = back.length := by simp
  rw [Refines, step, stlArrayAddAt, listStep, h.capacity, h.count,
    if_pos ⟨by simp only [List.length_append] at hfree; omega, hfree⟩, if_pos hindex,
    if_pos (by omega), hcount, hmove, Option.bind_eq_bind, Option.bind_some, hstore]
  refine ⟨_, rfl, h.change rest rfl ?_ ?_ ?_⟩
  · rw [List.length_insertIdx_of_le_length hindex]
  · rw [insertIdx_front]
    simp
  · rw [hsplit]
    simp only [List.length_append, List.length_cons]
    omega

theorem removeAt_held (h : Holds memSize maxCount arr l)
    (hroom : l.length < slotCount memSize maxCount) {index : ℕ} (hindex : index < l.length) :
    Refines memSize maxCount arr l (.removeAt index) := by
  obtain ⟨next, rest, hrest⟩ := h.next_slot hroom
  have hcapacity := slotCount_le memSize maxCount
  obtain ⟨front, x, back, rfl, rfl⟩ : ∃ front x back, l = front ++ x :: back ∧
      index = front.length :=
    ⟨l.take index, l[index], l.drop (index + 1), by simp,
      (List.length_take_of_le (Nat.le_of_lt hindex)).symm⟩
  have hsplit : arr.data = front.map some ++ some x :: (back.map some ++ next :: rest) := by
    rw [hrest, List.map_append, List.append_assoc]
    rfl
  have hread : arr.data[front.length]? = some (some x) := by
    rw [hsplit, List.getElem?_append_right (by simp)]
    simp
  obtain ⟨arr', hmove, hstore⟩ := shift_down hsplit
  rw [List.length_map, List.length_map] at hmove hstore
  have hcount : (front ++ x :: back).length - front.length = back.length + 1 := by simp
  have hlast : (front ++ x :: back).length = front.length + (back.length + 1) := by simp
  rw [Refines, step, stlArrayRemoveAt, listStep, h.capacity, h.count, if_pos (by omega),
    if_pos hindex, hread, hcount, hlast, hmove, Option.bind_eq_bind, Option.bind_some,
    Option.bind_eq_bind, Option.bind_some, hstore]
  have herase : (front ++ x :: back).eraseIdx front.length = front ++ back := by
    rw [List.eraseIdx_append_of_length_le (Nat.le_refl _), Nat.sub_self]
    rfl
  have hfreed : (front ++ x :: back)[front.length]? = some x := by
    rw [List.getElem?_append_right (Nat.le_refl _), Nat.sub_self]
    rfl
  rw [herase, hfreed, if_pos (show front.length < maxCount by omega)]
  refine ⟨_, rfl, h.change (next :: none :: rest) rfl ?_ ?_ ?_⟩
  · simp
  · simp
  · rw [hsplit]
    simp only [List.length_append, List.length_cons]
    omega

theorem removeAt_missing (h : Holds memSize maxCount arr l) {index : ℕ}
    (hindex : l.length ≤ index) : Refines memSize maxCount arr l (.removeAt index) := by
  have hnone : l[index]? = none := List.getElem?_eq_none hindex
  rw [Refines, step, stlArrayRemoveAt, listStep, h.capacity, h.count,
    if_neg (Nat.not_lt.mpr hindex), List.eraseIdx_of_length_le hindex, hnone]
  split
  · exact ⟨arr, rfl, h⟩
  · exact ⟨arr, rfl, h⟩

end Indexed

section Failures

/-- The guard leaves the last slot free. -/
theorem addAt_last_slot (h : Holds memSize maxCount arr l) (hlast : l.length + 1 = maxCount)
    (data : α) (index : ℕ) : arr.step (.addAt data index) = some (arr, ⟨-1, none⟩) := by
  have hguard : ¬(index < maxCount ∧ l.length + 1 < maxCount) := by omega
  rw [step, stlArrayAddAt, h.capacity, h.count, if_neg hguard]

theorem add_no_room (h : Holds memSize maxCount arr l) (hfree : l.length < maxCount)
    (hroom : ¬l.length < slotCount memSize maxCount) (data : α) :
    arr.step (.add data) = none := by
  have hbound : ¬l.length < arr.data.length := by rwa [h.slots]
  rw [step, stlArrayAdd, h.capacity, h.count, if_pos hfree, store, if_neg hbound]
  rfl

theorem addAt_no_room (h : Holds memSize maxCount arr l) (hfree : l.length + 1 < maxCount)
    (hroom : ¬l.length < slotCount memSize maxCount) (data : α) {index : ℕ}
    (hindex : index ≤ l.length) : arr.step (.addAt data index) = none := by
  have hbound : ¬(index + 1 + (l.length - index) ≤ arr.data.length ∧
      index + (l.length - index) ≤ arr.data.length) := by
    rw [h.slots]
    omega
  rw [step, stlArrayAddAt, h.capacity, h.count, if_pos ⟨by omega, hfree⟩, if_pos hindex, memmove,
    if_neg hbound]
  rfl

theorem removeAt_no_room (h : Holds memSize maxCount arr l)
    (hroom : ¬l.length < slotCount memSize maxCount) {index : ℕ} (hindex : index < l.length) :
    arr.step (.removeAt index) = none := by
  have hle := h.length_le
  have hcapacity := slotCount_le memSize maxCount
  have hbound : ¬(index + (l.length - index) ≤ arr.data.length ∧
      index + 1 + (l.length - index) ≤ arr.data.length) := by
    rw [h.slots]
    omega
  rw [step, stlArrayRemoveAt, h.capacity, h.count, if_pos (by omega), if_pos hindex, memmove,
    if_neg hbound]
  cases arr.data[index]? <;> rfl

end Failures

section Runs

theorem refines_of_avoids (h : Holds memSize maxCount arr l) {op : ArrayOp α} (hcall : Called l op)
    (havoid : Avoids memSize maxCount l op) : Refines memSize maxCount arr l op := by
  have hle := h.length_le
  have hcapacity := slotCount_le memSize maxCount
  cases op with
  | add data => exact add_refines h havoid data
  | remove => exact remove_refines h
  | addAt data index =>
    obtain ⟨hne, hroom⟩ := havoid
    rcases Nat.lt_or_ge (l.length + 1) maxCount with hfree | hfull
    · exact addAt_free h hfree (hroom (by omega)) data hcall
    · exact addAt_full h (by omega) data index
  | removeAt index =>
    rcases Nat.lt_or_ge index l.length with hindex | hindex
    · exact removeAt_held h (havoid hindex) hindex
    · exact removeAt_missing h hindex

theorem avoids_of_step (h : Holds memSize maxCount arr l) {op : ArrayOp α} (hcall : Called l op)
    {arr' : StlArray α} (hstep : arr.step op = some (arr', (listStep maxCount l op).2)) :
    Avoids memSize maxCount l op := by
  cases op with
  | add data =>
    intro hfree
    by_contra hroom
    rw [add_no_room h hfree hroom] at hstep
    cases hstep
  | remove => trivial
  | addAt data index =>
    have hne : l.length + 1 ≠ maxCount := by
      intro hlast
      rw [addAt_last_slot h hlast, listStep, if_pos (by omega)] at hstep
      cases hstep
    refine ⟨hne, fun hfree => ?_⟩
    by_contra hroom
    rw [addAt_no_room h (by omega) hroom data hcall] at hstep
    cases hstep
  | removeAt index =>
    intro hindex
    by_contra hroom
    rw [removeAt_no_room h hroom hindex] at hstep
    cases hstep

/-- A run does on the array what it is for, and the array stays within its slots. -/
def RunRefines (memSize maxCount : ℕ) (arr : StlArray α) (l : List α)
    (ops : List (ArrayOp α)) : Prop :=
  ∃ arr', arr.run ops = some (arr', (listRun maxCount l ops).2) ∧
    Holds memSize maxCount arr' (listRun maxCount l ops).1

theorem run_cons {op : ArrayOp α} {ops : List (ArrayOp α)} {arr' : StlArray α}
    {outs : List (Outcome α)} {out : Outcome α}
    (hrun : arr.run (op :: ops) = some (arr', out :: outs)) :
    ∃ next, arr.step op = some (next, out) ∧ next.run ops = some (arr', outs) := by
  rw [run] at hrun
  obtain ⟨⟨next, out'⟩, hstep, hrest⟩ := Option.bind_eq_some_iff.mp hrun
  obtain ⟨⟨last, outs'⟩, hrest, hret⟩ := Option.bind_eq_some_iff.mp hrest
  cases hret
  exact ⟨next, hstep, hrest⟩

/-- The induction is on the operations; the list goes along with the array. -/
theorem runRefines_iff (h : Holds memSize maxCount arr l) {ops : List (ArrayOp α)}
    (hcall : Throughout Called maxCount l ops) :
    RunRefines memSize maxCount arr l ops ↔
      Throughout (Avoids memSize maxCount) maxCount l ops := by
  induction ops generalizing arr l with
  | nil => exact ⟨fun _ => trivial, fun _ => ⟨arr, rfl, h⟩⟩
  | cons op ops ih =>
    obtain ⟨hcall, hcalls⟩ := hcall
    constructor
    · rintro ⟨arr', hrun, hlast⟩
      obtain ⟨next, hstep, hrest⟩ := run_cons hrun
      have havoid := avoids_of_step h hcall hstep
      obtain ⟨next', hstep', hnext⟩ := refines_of_avoids h hcall havoid
      rw [hstep] at hstep'
      cases hstep'
      exact ⟨havoid, (ih hnext hcalls).mp ⟨arr', hrest, hlast⟩⟩
    · rintro ⟨havoid, havoids⟩
      obtain ⟨next, hstep, hnext⟩ := refines_of_avoids h hcall havoid
      obtain ⟨arr', hrun, hlast⟩ := (ih hnext hcalls).mpr havoids
      refine ⟨arr', ?_, hlast⟩
      simp only [run, hstep, Option.bind_eq_bind, Option.bind_some, hrun]
      rfl

/-- From the start a run refines the bounded list exactly if it avoids those cases throughout. -/
theorem stl_array_refines_iff (memSize maxCount : ℕ) {ops : List (ArrayOp α)}
    (hcall : Throughout Called maxCount [] ops) :
    RunRefines memSize maxCount (stlArrayInit memSize maxCount) [] ops ↔
      Throughout (Avoids memSize maxCount) maxCount [] ops :=
  runRefines_iff (holds_init memSize maxCount) hcall

/-- The operations of the test, on nine slots. -/
theorem stl_array_test_refines : RunRefines 8 9 (stlArrayInit 8 9) []
    [.add 'a', .add 'b', .add 'c', .add 'd', .add 'e', .addAt '9' 0, .removeAt 2, .remove] := by
  have hslots : slotCount 8 9 = 9 := slotCount_eq (Nat.le_refl 8)
  exact (stl_array_refines_iff 8 9 (by simp [Throughout, Called, listStep])).mpr
    (by simp [Throughout, Avoids, listStep, hslots])

/-- One slot is left and is not used, a full array reads and writes the slot behind, and a buffer
for small elements does not hold the slots. -/
theorem stl_array_ends_wrong :
    ((stlArrayInit 8 1).run [.addAt 'a' 0]).map (·.2) = some [⟨-1, none⟩] ∧
      (stlArrayInit 8 1).run [.add 'a', .removeAt 0] = none ∧
      (stlArrayInit 4 1).run [.add 'a'] = none ∧
      ¬RunRefines 8 1 (stlArrayInit 8 1) [] [.addAt 'a' 0] ∧
      ¬RunRefines 8 1 (stlArrayInit 8 1) [] [.add 'a', .removeAt 0] := by
  have hadd : ((stlArrayInit 8 1).run [.addAt 'a' 0]).map (·.2) = some [⟨-1, none⟩] := by decide
  have hremove : (stlArrayInit 8 1).run [.add 'a', .removeAt 0] = none := by rfl
  refine ⟨hadd, hremove, rfl, ?_, ?_⟩
  · rintro ⟨arr', hrun, -⟩
    have houts : some [⟨-1, none⟩] = some [(⟨0, none⟩ : Outcome Char)] :=
      hadd.symm.trans (congrArg (Option.map (·.2)) hrun)
    exact absurd houts (by decide)
  · rintro ⟨arr', hrun, -⟩
    rw [hremove] at hrun
    cases hrun

end Runs

end KirinFS.StlArray
