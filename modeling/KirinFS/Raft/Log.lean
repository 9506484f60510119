import KirinFS.Foundation.Simulation
import KirinFS.Raft.Server

/-! # The array of the log

The entries of the log lie in an array, that is replaced by one of twice its size
when all of its slots are in use. Entries are polled at the front, but their
slots are not used again. The server never polls. The `int` fields are naturals:
`size`, `count` and the base are not negative, and no doubling of `size` overflows.
-/

namespace KirinFS.Raft
open Foundation.Simulation Foundation.Histories

/-- `entries` is the array, and `base` the number of entries that were polled. -/
structure RaftLog (ι : Type) where
  size : ℕ
  count : ℕ
  front : ℕ
  back : ℕ
  base : ℕ
  entries : List RaftEntry
  calls : List (RaftCall ι)
  deriving DecidableEq

/-- What `calloc` leaves in a slot. -/
def clearedEntry : RaftEntry := ⟨0, 0, .normal, []⟩

def initialCapacity : ℕ := 10

namespace RaftLog
variable {ι : Type}

def logNew : RaftLog ι :=
  ⟨initialCapacity, 0, 0, 0, 0, List.replicate initialCapacity clearedEntry, []⟩

variable (me : RaftLog ι)

/-- The loop of `__ensurecapacity`: so many entries from a slot on, around the end of the array. -/
def copyFrom : (n j : ℕ) → Option (List RaftEntry)
  | 0, _ => some []
  | n + 1, j => do
    let j := if j = me.size then 0 else j
    let e ← me.entries[j]?
    let rest ← copyFrom n (j + 1)
    some (e :: rest)

def ensurecapacity : Option (RaftLog ι) :=
  if me.count < me.size then some me
  else do
    let temp ← me.copyFrom me.count me.front
    some { me with
      entries := temp ++ List.replicate (me.size * 2 - me.count) clearedEntry
      size := me.size * 2
      front := 0
      back := me.count }

/-- It is undefined to write behind the array. -/
def logAppendEntry (c : RaftEntry) : Option (RaftLog ι × ℤ) :=
  if c.id = 0 then some (me, -1)
  else do
    let me ← me.ensurecapacity
    if me.back < me.entries.length then
      some ({ me with
        entries := me.entries.set me.back c
        count := me.count + 1
        back := me.back + 1
        calls := me.calls ++ [.logOffer c me.back] }, 0)
    else none

/-- The slot of an index, if there is one; it is undefined where the assertion fails and where the
slot would be before the first. -/
def slotOf (idx : ℕ) : Option (Option ℕ) :=
  if idx = 0 then none
  else if me.base + me.count < idx ∨ idx < me.base then some none
  else if me.front + (idx - 1) < me.base then none
  else some (some ((me.front + (idx - 1) - me.base) % me.size))

def logGetAtIdx (idx : ℕ) : Option (Option RaftEntry) :=
  (me.slotOf idx).map fun slot => slot.bind fun i => me.entries[i]?

/-- The entries from the index on up to the end of the log or of the array. -/
def logGetFromIdx (idx : ℕ) : Option (List RaftEntry) :=
  (me.slotOf idx).map fun slot => match slot with
    | none => []
    | some i => (me.entries.drop i).take (if i < me.back then me.back - i else me.size - i)

/-- The loop of `log_delete`. -/
def popLast (me : RaftLog ι) : ℕ → Option (RaftLog ι)
  | 0 => some me
  | n + 1 =>
    if me.back = 0 then none
    else do
      let e ← me.entries[me.back - 1]?
      popLast { me with
        back := me.back - 1
        count := me.count - 1
        calls := me.calls ++ [.logPop e me.back] } n

/-- Below the first entry there is nothing to delete. -/
def logDelete (idx : ℕ) : Option (RaftLog ι) :=
  if idx = 0 ∨ idx - 1 < me.base then none else me.popLast (me.count - (idx - 1 - me.base))

def logPeektail : Option (Option RaftEntry) :=
  if me.count = 0 then some none
  else if me.back = 0 then (me.entries[me.size - 1]?).map some
  else (me.entries[me.back - 1]?).map some

/-- Its callback is not listed. -/
def logPoll : Option (RaftLog ι × Option RaftEntry) :=
  if me.count = 0 then some (me, none)
  else (me.entries[me.front]?).map fun e =>
    ({ me with front := me.front + 1, count := me.count - 1, base := me.base + 1 }, some e)

/-- The number of polled entries stays. -/
def logEmpty : RaftLog ι := { me with front := 0, back := 0, count := 0 }

def logGetCurrentIdx : ℕ := me.count + me.base

end RaftLog

inductive LogOp where
  | append (c : RaftEntry)
  | getAt (idx : ℕ)
  | getFrom (idx : ℕ)
  | delete (idx : ℕ)
  | poll
  | peektail
  | empty
  | currentIdx
  deriving DecidableEq

inductive LogAnswer where
  | done
  | result (e : ℤ)
  | entry (e : Option RaftEntry)
  | entries (l : List RaftEntry)
  | index (idx : ℕ)
  deriving DecidableEq

variable {ι : Type}

def RaftLog.step (me : RaftLog ι) : LogOp → Option (RaftLog ι × LogAnswer)
  | .append c => (me.logAppendEntry c).map fun r => (r.1, .result r.2)
  | .getAt idx => (me.logGetAtIdx idx).map fun e => (me, .entry e)
  | .getFrom idx => (me.logGetFromIdx idx).map fun l => (me, .entries l)
  | .delete idx => (me.logDelete idx).map fun me => (me, .done)
  | .poll => me.logPoll.map fun r => (r.1, .entry r.2)
  | .peektail => me.logPeektail.map fun e => (me, .entry e)
  | .empty => some (me.logEmpty, .done)
  | .currentIdx => some (me, .index me.logGetCurrentIdx)

/-- The entries, with the slot of the first one and the number of those before it. -/
structure LogView (ι : Type) where
  front : ℕ
  base : ℕ
  log : List RaftEntry
  calls : List (RaftCall ι)

namespace LogView

def append (v : LogView ι) (c : RaftEntry) : LogView ι × ℤ :=
  if c.id = 0 then (v, -1)
  else ({ v with
    log := v.log ++ [c]
    calls := v.calls ++ [.logOffer c (v.front + v.log.length)] }, 0)

/-- All but the first `k` entries are popped, the last one first. -/
def cut (v : LogView ι) (k : ℕ) : LogView ι :=
  { v with
    log := v.log.take k
    calls := v.calls ++
      (v.log.zipIdx.drop k).reverse.map fun e => .logPop e.1 (v.front + e.2 + 1) }

def poll (v : LogView ι) : LogView ι × Option RaftEntry :=
  match v.log with
  | [] => (v, none)
  | e :: l => ({ v with front := v.front + 1, base := v.base + 1, log := l }, some e)

def step (v : LogView ι) : LogOp → LogView ι × LogAnswer
  | .append c => ((v.append c).1, .result (v.append c).2)
  | .getAt idx => (v, .entry v.log[idx - 1 - v.base]?)
  | .getFrom idx => (v, .entries (v.log.drop (idx - 1 - v.base)))
  | .delete idx => (v.cut (idx - 1 - v.base), .done)
  | .poll => (v.poll.1, .entry v.poll.2)
  | .peektail => (v, .entry v.log.getLast?)
  | .empty => ({ v with front := 0, log := [] }, .done)
  | .currentIdx => (v, .index (v.log.length + v.base))

/-- The indexes are behind what was polled. -/
def Valid (v : LogView ι) : LogOp → Prop
  | .getAt idx => v.base < idx
  | .getFrom idx => v.base < idx
  | .delete idx => v.base < idx
  | _ => True

/-- To pop down to a length and then to a smaller one is to pop down to the smaller one. -/
theorem cut_cut {v : LogView ι} {j k : ℕ} (hjk : j ≤ k) : (v.cut k).cut j = v.cut j := by
  have hzip : (v.log.take k).zipIdx = v.log.zipIdx.take k := by
    ext i
    rw [List.getElem?_zipIdx, List.getElem?_take, List.getElem?_take, List.getElem?_zipIdx]
    split <;> rfl
  have hdrop : v.log.zipIdx.drop j =
      (v.log.zipIdx.take k).drop j ++ v.log.zipIdx.drop k := by
    rw [List.drop_take]
    conv_lhs => rw [← List.take_append_drop (k - j) (v.log.zipIdx.drop j)]
    rw [List.drop_drop, Nat.add_sub_cancel' hjk]
  rw [cut, cut, cut]
  simp only [hzip, hdrop, List.take_take, min_eq_left hjk, List.reverse_append, List.map_append,
    List.append_assoc]

theorem cut_behind {v : LogView ι} {k : ℕ} (hk : v.log.length ≤ k) : v.cut k = v := by
  rw [cut, List.take_of_length_le hk, List.drop_of_length_le (by rwa [List.length_zipIdx]),
    List.reverse_nil, List.map_nil, List.append_nil]

end LogView

/-- The entries lie in the array one behind the other. -/
structure RaftLog.Covers (me : RaftLog ι) (v : LogView ι) : Prop where
  size_pos : 0 < me.size
  length_entries : me.entries.length = me.size
  front_eq : me.front = v.front
  base_eq : me.base = v.base
  count_eq : me.count = v.log.length
  back_eq : me.back = v.front + v.log.length
  back_le : v.front + v.log.length ≤ me.size
  log_eq : (me.entries.drop v.front).take v.log.length = v.log
  calls_eq : me.calls = v.calls

/-- An append finds free slots, but none at the end of the array. -/
def RaftLog.Overflows (me : RaftLog ι) : LogOp → Prop
  | .append c => c.id ≠ 0 ∧ me.count < me.size ∧ me.back = me.size
  | _ => False

namespace RaftLog.Covers
variable {me : RaftLog ι} {v : LogView ι}

theorem new : (logNew : RaftLog ι).Covers ⟨0, 0, [], []⟩ where
  size_pos := Nat.succ_pos 9
  length_entries := List.length_replicate
  front_eq := rfl
  base_eq := rfl
  count_eq := rfl
  back_eq := rfl
  back_le := Nat.zero_le _
  log_eq := rfl
  calls_eq := rfl

variable (h : me.Covers v)
include h

theorem getElem? {i : ℕ} (hi : i < v.log.length) : me.entries[v.front + i]? = v.log[i]? := by
  rw [← List.getElem?_drop, ← List.getElem?_take_of_lt hi, h.log_eq]

theorem copyFrom {n j : ℕ} (hn : j + n = v.log.length) :
    me.copyFrom n (v.front + j) = some (v.log.drop j) := by
  induction n generalizing j with
  | zero => rw [RaftLog.copyFrom, List.drop_of_length_le (by omega)]
  | succ n ih =>
    have hj : j < v.log.length := by omega
    have hsize := h.back_le
    rw [RaftLog.copyFrom, if_neg (by omega), h.getElem? hj, List.getElem?_eq_getElem hj,
      Nat.add_assoc, ih (by omega), List.drop_eq_getElem_cons hj]
    rfl

/-- A full array is replaced, and then there is a slot at the end. -/
theorem ensurecapacity (hroom : me.count < me.size → me.back ≠ me.size) :
    ∃ me', me.ensurecapacity = some me' ∧ me'.Covers v ∧ v.front + v.log.length < me'.size := by
  have hcount := h.count_eq
  have hback := h.back_eq
  have hle := h.back_le
  rw [RaftLog.ensurecapacity]
  split
  · next hlt =>
    have hne := hroom hlt
    exact ⟨me, rfl, h, by omega⟩
  · next hge =>
    have hfront : v.front = 0 := by omega
    have hpos := h.size_pos
    have hcopy := h.copyFrom (Nat.zero_add _)
    rw [Nat.add_zero] at hcopy
    rw [hcount, h.front_eq, hcopy]
    refine ⟨_, rfl, ?_, ?_⟩
    · exact {
        size_pos := by
          show 0 < me.size * 2
          omega
        length_entries := by simp; omega
        front_eq := hfront.symm
        base_eq := h.base_eq
        count_eq := rfl
        back_eq := by
          show v.log.length = v.front + v.log.length
          omega
        back_le := by
          show v.front + v.log.length ≤ me.size * 2
          omega
        log_eq := by simp [hfront]
        calls_eq := h.calls_eq }
    · show v.front + v.log.length < me.size * 2
      omega

theorem append (c : RaftEntry) (hroom : ¬ me.Overflows (.append c)) :
    ∃ me', me.logAppendEntry c = some (me', (v.append c).2) ∧ me'.Covers (v.append c).1 := by
  rw [RaftLog.logAppendEntry, LogView.append]
  split
  · exact ⟨me, rfl, h⟩
  · next hid =>
    obtain ⟨me', hme', h', hlt⟩ := h.ensurecapacity fun hlt hfull => hroom ⟨hid, hlt, hfull⟩
    have hback : me'.back < me'.entries.length := by
      rwa [h'.back_eq, h'.length_entries]
    simp only [hme', Option.bind_eq_bind, Option.bind_some, if_pos hback]
    refine ⟨_, rfl, ?_⟩
    exact {
      size_pos := h'.size_pos
      length_entries := by simpa using h'.length_entries
      front_eq := h'.front_eq
      base_eq := h'.base_eq
      count_eq := by simp [h'.count_eq]
      back_eq := by simp [h'.back_eq, Nat.add_assoc]
      back_le := by
        show v.front + (v.log ++ [c]).length ≤ me'.size
        rw [List.length_append, ← Nat.add_assoc]
        exact hlt
      log_eq := by
        show ((me'.entries.set me'.back c).drop v.front).take (v.log ++ [c]).length = v.log ++ [c]
        rw [List.length_append, List.length_singleton, List.take_add_one, h'.back_eq,
          List.drop_set, if_neg (by omega), Nat.add_sub_cancel_left,
          List.take_set_of_le le_rfl, h'.log_eq, List.getElem?_set_self]
        · rfl
        · rw [List.length_drop, h'.length_entries]
          omega
      calls_eq := by
        show me'.calls ++ [.logOffer c me'.back] = v.calls ++ [.logOffer c (v.front + v.log.length)]
        rw [h'.calls_eq, h'.back_eq] }

/-- Otherwise it writes behind the array. -/
theorem overflow {c : RaftEntry} (hover : me.Overflows (.append c)) :
    me.logAppendEntry c = none := by
  obtain ⟨hid, hlt, hfull⟩ := hover
  rw [RaftLog.logAppendEntry, if_neg hid, RaftLog.ensurecapacity, if_pos hlt]
  exact if_neg (by rw [h.length_entries, hfull]; exact lt_irrefl _)

theorem slotOf {idx : ℕ} (hidx : v.base < idx) : me.slotOf idx = some
    (if idx - 1 - v.base < v.log.length then some (v.front + (idx - 1 - v.base)) else none) := by
  have hcount := h.count_eq
  have hbase := h.base_eq
  have hle := h.back_le
  rw [RaftLog.slotOf, if_neg (by omega), h.front_eq]
  split
  · rw [if_neg (by omega)]
  · rw [if_neg (by omega), if_pos (by omega), Nat.mod_eq_of_lt (by omega), hbase,
      Nat.add_sub_assoc (by omega)]

theorem getAt {idx : ℕ} (hidx : v.base < idx) :
    me.logGetAtIdx idx = some v.log[idx - 1 - v.base]? := by
  rw [RaftLog.logGetAtIdx, h.slotOf hidx, Option.map_some]
  split
  · next hlt => rw [Option.bind_some, h.getElem? hlt]
  · next hge =>
    rw [List.getElem?_eq_none (by omega)]
    rfl

theorem getFrom {idx : ℕ} (hidx : v.base < idx) :
    me.logGetFromIdx idx = some (v.log.drop (idx - 1 - v.base)) := by
  rw [RaftLog.logGetFromIdx, h.slotOf hidx, Option.map_some]
  by_cases hlt : idx - 1 - v.base < v.log.length
  · have hback := h.back_eq
    simp only [if_pos hlt]
    rw [if_pos (by omega), hback, Nat.add_sub_add_left, ← List.drop_drop, ← List.drop_take,
      h.log_eq]
  · simp only [if_neg hlt]
    rw [List.drop_of_length_le (by omega)]

theorem popOne {X : List RaftEntry} {e : RaftEntry} (hlog : v.log = X ++ [e]) :
    me.entries[me.back - 1]? = some e ∧ RaftLog.Covers { me with
      back := me.back - 1
      count := me.count - 1
      calls := me.calls ++ [.logPop e me.back] } (v.cut X.length) := by
  have hlen : v.log.length = X.length + 1 := by simp [hlog]
  have hback := h.back_eq
  have hle := h.back_le
  have htake : v.log.take X.length = X := by simp [hlog]
  have hcalls : (v.log.zipIdx.drop X.length).reverse.map
      (fun e => (RaftCall.logPop e.1 (v.front + e.2 + 1) : RaftCall ι)) =
        [.logPop e (v.front + v.log.length)] := by
    rw [hlen, hlog, List.zipIdx_append, List.drop_append_of_le_length (by simp),
      List.drop_of_length_le (by simp)]
    simp [Nat.add_assoc]
  constructor
  · rw [show me.back - 1 = v.front + X.length by omega, h.getElem? (by omega), hlog]
    simp
  · rw [LogView.cut, htake, hcalls]
    exact {
      size_pos := h.size_pos
      length_entries := h.length_entries
      front_eq := h.front_eq
      base_eq := h.base_eq
      count_eq := by
        show me.count - 1 = X.length
        rw [h.count_eq, hlen, Nat.add_sub_cancel]
      back_eq := by
        show me.back - 1 = v.front + X.length
        omega
      back_le := by
        show v.front + X.length ≤ me.size
        omega
      log_eq := by
        have htaken := congrArg (List.take X.length) h.log_eq
        rwa [List.take_take, hlen, min_eq_left (Nat.le_succ _), hlog, List.take_left'] at htaken
        rfl
      calls_eq := by
        show me.calls ++ [.logPop e me.back] = v.calls ++ [.logPop e (v.front + v.log.length)]
        rw [h.calls_eq, hback] }

theorem popLast {n : ℕ} (hn : n ≤ v.log.length) :
    ∃ me', me.popLast n = some me' ∧ me'.Covers (v.cut (v.log.length - n)) := by
  induction n generalizing me v with
  | zero => exact ⟨me, rfl, by rwa [LogView.cut_behind (by omega)]⟩
  | succ n ih =>
    obtain ⟨X, e, hlog⟩ : ∃ X e, v.log = X ++ [e] := by
      rcases List.eq_nil_or_concat v.log with hnil | ⟨X, e, hlog⟩
      · rw [hnil] at hn
        exact absurd hn (Nat.not_succ_le_zero n)
      · exact ⟨X, e, hlog.trans (List.concat_eq_append ..)⟩
    have hlen : v.log.length = X.length + 1 := by simp [hlog]
    have hleft : (v.cut X.length).log.length = X.length := by
      simp [LogView.cut, hlog]
    have hback := h.back_eq
    obtain ⟨hslot, hone⟩ := h.popOne hlog
    obtain ⟨me', hme', h'⟩ := ih hone (by omega)
    refine ⟨me', ?_, ?_⟩
    · rw [RaftLog.popLast, if_neg (by omega), hslot]
      exact hme'
    · rw [hleft, LogView.cut_cut (Nat.sub_le ..)] at h'
      rwa [hlen, Nat.add_sub_add_right]

theorem delete {idx : ℕ} (hidx : v.base < idx) :
    ∃ me', me.logDelete idx = some me' ∧ me'.Covers (v.cut (idx - 1 - v.base)) := by
  have hbase := h.base_eq
  obtain ⟨me', hme', h'⟩ := h.popLast (Nat.sub_le v.log.length (idx - 1 - v.base))
  refine ⟨me', ?_, ?_⟩
  · rw [RaftLog.logDelete, if_neg (by omega), h.count_eq, hbase, hme']
  · rcases Nat.lt_or_ge v.log.length (idx - 1 - v.base) with hlt | hge
    · rw [LogView.cut_behind (by omega)] at h'
      rwa [LogView.cut_behind hlt.le]
    · rwa [Nat.sub_sub_self hge] at h'

theorem poll : ∃ me', me.logPoll = some (me', v.poll.2) ∧ me'.Covers v.poll.1 := by
  have hcount := h.count_eq
  have hback := h.back_eq
  have hle := h.back_le
  rw [RaftLog.logPoll, LogView.poll]
  rcases hlog : v.log with _ | ⟨e, l⟩
  · rw [hlog] at hcount
    exact ⟨me, if_pos hcount, h⟩
  · have hlen : v.log.length = l.length + 1 := by simp [hlog]
    have hfirst := h.getElem? (show 0 < v.log.length by omega)
    rw [Nat.add_zero, hlog, List.getElem?_cons_zero] at hfirst
    rw [if_neg (by omega), h.front_eq, hfirst]
    refine ⟨_, rfl, ?_⟩
    exact {
      size_pos := h.size_pos
      length_entries := h.length_entries
      front_eq := rfl
      base_eq := congrArg (· + 1) h.base_eq
      count_eq := by
        show me.count - 1 = l.length
        omega
      back_eq := by
        show me.back = v.front + 1 + l.length
        omega
      back_le := by
        show v.front + 1 + l.length ≤ me.size
        omega
      log_eq := by
        have htail := congrArg (List.drop 1) h.log_eq
        rwa [List.drop_take, List.drop_drop, hlen, Nat.add_sub_cancel, hlog] at htail
      calls_eq := h.calls_eq }

theorem peektail : me.logPeektail = some v.log.getLast? := by
  have hback := h.back_eq
  rw [RaftLog.logPeektail, h.count_eq, List.getLast?_eq_getElem?]
  split
  · next hnil => rw [List.getElem?_eq_none (by omega)]
  · next hlen =>
    rw [if_neg (by omega), hback, Nat.add_sub_assoc (by omega), h.getElem? (by omega),
      List.getElem?_eq_getElem (by omega)]
    rfl

theorem empty : me.logEmpty.Covers { v with front := 0, log := [] } where
  size_pos := h.size_pos
  length_entries := h.length_entries
  front_eq := rfl
  base_eq := h.base_eq
  count_eq := rfl
  back_eq := rfl
  back_le := Nat.zero_le _
  log_eq := rfl
  calls_eq := h.calls_eq

/-- Every operation answers as on the list, unless it writes behind the array. -/
theorem step {o : LogOp} (ho : v.Valid o) (hroom : ¬ me.Overflows o) :
    ∃ me', me.step o = some (me', (v.step o).2) ∧ me'.Covers (v.step o).1 := by
  cases o with
  | append c =>
    obtain ⟨me', hme', h'⟩ := h.append c hroom
    exact ⟨me', by rw [RaftLog.step, hme']; rfl, h'⟩
  | getAt idx => exact ⟨me, by rw [RaftLog.step, h.getAt ho]; rfl, h⟩
  | getFrom idx => exact ⟨me, by rw [RaftLog.step, h.getFrom ho]; rfl, h⟩
  | delete idx =>
    obtain ⟨me', hme', h'⟩ := h.delete ho
    exact ⟨me', by rw [RaftLog.step, hme']; rfl, h'⟩
  | poll =>
    obtain ⟨me', hme', h'⟩ := h.poll
    exact ⟨me', by rw [RaftLog.step, hme']; rfl, h'⟩
  | peektail => exact ⟨me, by rw [RaftLog.step, h.peektail]; rfl, h⟩
  | empty => exact ⟨_, rfl, h.empty⟩
  | currentIdx =>
    refine ⟨me, ?_, h⟩
    rw [RaftLog.step, RaftLog.logGetCurrentIdx, h.count_eq, h.base_eq]
    rfl

end RaftLog.Covers

abbrev RaftLog.next (me : RaftLog ι) (o : LogOp) : Option (RaftLog ι) := (me.step o).map Prod.fst

/-- The operations are valid where they come in the run of the list. -/
def LogView.ValidRun (v : LogView ι) (os : List LogOp) : Prop :=
  Along (fun v o => some (v.step o).1) LogView.Valid v os

/-- A run answers as the list exactly as long as no append overflows. -/
theorem RaftLog.Covers.runs_iff {me : RaftLog ι} {v : LogView ι} {os : List LogOp}
    (h : me.Covers v) (hos : v.ValidRun os) :
    Along RaftLog.next (fun me o => ¬ me.Overflows o) me os ↔
      ∃ me', runs RaftLog.step me os = some (me', (specRuns LogView.step v os).2) ∧
        me'.Covers (specRuns LogView.step v os).1 := by
  induction os generalizing me v with
  | nil => exact iff_of_true trivial ⟨me, rfl, h⟩
  | cons o os ih =>
    obtain ⟨ho, hrest⟩ := hos
    by_cases hover : me.Overflows o
    · have hnone : me.step o = none := by
        cases o with
        | append c => rw [RaftLog.step, h.overflow hover]; rfl
        | _ => exact hover.elim
      refine iff_of_false (fun hall => hall.1 hover) ?_
      rintro ⟨me', hrun, -⟩
      rw [runs, hnone, Option.bind_none] at hrun
      cases hrun
    · obtain ⟨me₁, hstep, h₁⟩ := h.step ho hover
      have hiff := ih h₁ (hrest _ rfl)
      rw [Along, and_iff_right hover, runs, hstep, Option.bind_some, specRuns]
      constructor
      · intro hall
        obtain ⟨me', hrun, h'⟩ := hiff.mp (hall me₁ (by rw [RaftLog.next, hstep]; rfl))
        exact ⟨me', by rw [hrun]; rfl, h'⟩
      · rintro ⟨me', hrun, h'⟩ me₂ hme₂
        rw [RaftLog.next, hstep] at hme₂
        cases hme₂
        obtain ⟨r, hr, heq⟩ := Option.map_eq_some_iff.mp hrun
        obtain rfl : r.1 = me' := congrArg Prod.fst heq
        refine hiff.mpr ⟨r.1, ?_, h'⟩
        rw [hr, ← (List.cons.inj (congrArg Prod.snd heq)).2]

/-- On a new log all answers and callbacks are those of the list if and only if no append finds the
last slot of the array in use while one before the front is free. -/
theorem log_runs {os : List LogOp} (hos : (⟨0, 0, [], []⟩ : LogView ι).ValidRun os) :
    Along RaftLog.next (fun me o => ¬ me.Overflows o) (RaftLog.logNew : RaftLog ι) os ↔
      ∃ me', runs RaftLog.step (RaftLog.logNew : RaftLog ι) os =
        some (me', (specRuns LogView.step (⟨0, 0, [], []⟩ : LogView ι) os).2) ∧
          me'.Covers (specRuns LogView.step ⟨0, 0, [], []⟩ os).1 :=
  RaftLog.Covers.new.runs_iff hos

/-- The eleventh entry has no slot, although the first has been polled. -/
def overflowing : List LogOp :=
  List.replicate 10 (.append ⟨1, 7, .normal, []⟩) ++ [.poll, .append ⟨1, 7, .normal, []⟩]

theorem log_runs_overflowing : ¬ Along RaftLog.next (fun me o => ¬ me.Overflows o)
    (RaftLog.logNew : RaftLog ℕ) overflowing := by
  have hos : (⟨0, 0, [], []⟩ : LogView ℕ).ValidRun overflowing := by
    simp [LogView.ValidRun, overflowing, List.replicate, Along, LogView.Valid]
  have hnone : runs RaftLog.step (RaftLog.logNew : RaftLog ℕ) overflowing = none := by decide
  rw [log_runs hos, hnone]
  rintro ⟨me', hrun, -⟩
  cases hrun

/-- Where no slot before the first entry is free, an append does not overflow. -/
theorem RaftLog.Covers.room {me : RaftLog ι} {v : LogView ι} (h : me.Covers v)
    (hfront : v.front = 0) (o : LogOp) : ¬ me.Overflows o := by
  cases o with
  | append c =>
    rintro ⟨-, hlt, hfull⟩
    have hcount := h.count_eq
    have hback := h.back_eq
    omega
  | _ => exact id

theorem LogView.step_front {v : LogView ι} {o : LogOp} (hfront : v.front = 0) (ho : o ≠ .poll) :
    (v.step o).1.front = 0 := by
  cases o with
  | append c =>
    rw [LogView.step, LogView.append]
    split <;> exact hfront
  | poll => exact absurd rfl ho
  | empty => rfl
  | _ => exact hfront

/-- From an array that nothing is polled from, nothing is ever written behind it. -/
theorem RaftLog.Covers.never_overflows {me : RaftLog ι} {v : LogView ι} {os : List LogOp}
    (h : me.Covers v) (hfront : v.front = 0) (hos : v.ValidRun os) (hpoll : .poll ∉ os) :
    Along RaftLog.next (fun me o => ¬ me.Overflows o) me os := by
  induction os generalizing me v with
  | nil => trivial
  | cons o os ih =>
    obtain ⟨ho, hrest⟩ := hos
    rw [List.mem_cons, not_or] at hpoll
    refine ⟨h.room hfront o, fun me₁ hme₁ => ?_⟩
    obtain ⟨me', hstep, h'⟩ := h.step ho (h.room hfront o)
    rw [RaftLog.next, hstep] at hme₁
    cases hme₁
    exact ih h' (LogView.step_front hfront (Ne.symm hpoll.1)) (hrest _ rfl) hpoll.2

/-- Without polls every run of valid operations answers as the list. -/
theorem unpolled_runs {os : List LogOp} (hos : (⟨0, 0, [], []⟩ : LogView ι).ValidRun os)
    (hpoll : .poll ∉ os) : ∃ me', runs RaftLog.step (RaftLog.logNew : RaftLog ι) os =
      some (me', (specRuns LogView.step (⟨0, 0, [], []⟩ : LogView ι) os).2) ∧
        me'.Covers (specRuns LogView.step ⟨0, 0, [], []⟩ os).1 :=
  (RaftLog.Covers.new.runs_iff hos).mp (RaftLog.Covers.new.never_overflows rfl hos hpoll)

end KirinFS.Raft
