import Mathlib.Algebra.Group.Nat.Defs
import Mathlib.Data.Int.Notation
import Mathlib.Data.List.Basic
import Mathlib.Data.Nat.ModEq
import Mathlib.Tactic.NormNum

/-! # The ring buffer

Head and tail are byte offsets into the buffer. Words have 64 bits, but the
element size is stored in a field of 32 bits.
-/

namespace KirinFS.RingBuffer

/-- `size` bytes are allocated for `buf`. -/
structure StlRingBuffer where
  capacity : ℕ
  head : ℕ
  tail : ℕ
  dSize : ℕ
  size : ℕ
  buf : ℕ → UInt8

/-- `calloc` only succeeds if the product does not overflow. -/
def stlRingBufferInit (capacity dSize : ℕ) : Option StlRingBuffer :=
  if capacity * dSize < 2 ^ 64 then
    some ⟨capacity, 0, 0, dSize % 2 ^ 32, capacity * dSize, fun _ => 0⟩
  else none

namespace StlRingBuffer
variable (rb : StlRingBuffer)

/-- `(off + d_size) % (capacity * d_size)`, undefined for a zero divisor. -/
def advance (off : ℕ) : Option ℕ :=
  if rb.capacity * rb.dSize % 2 ^ 64 = 0 then none
  else some ((off + rb.dSize) % 2 ^ 64 % (rb.capacity * rb.dSize % 2 ^ 64))

def stlRingBufferIsEmpty : Bool := rb.head = rb.tail

def stlRingBufferIsFull : Option Bool := (rb.advance rb.tail).map fun t => t = rb.head

def copied (data : List UInt8) : StlRingBuffer :=
  { rb with buf := fun i =>
      if rb.tail ≤ i ∧ i < rb.tail + rb.dSize then data.getD (i - rb.tail) 0 else rb.buf i }

/-- The `memcpy` to the tail, undefined outside of the two memory blocks. -/
def copyIn (data : List UInt8) : Option StlRingBuffer :=
  if rb.tail + rb.dSize ≤ rb.size ∧ rb.dSize ≤ data.length then some (rb.copied data) else none

/-- `stl_ring_buffer_queue`; the null pointer is `none`. -/
def stlRingBufferQueue : Option (List UInt8) → Option (StlRingBuffer × ℤ)
  | none => some (rb, -1)
  | some data =>
    rb.stlRingBufferIsFull.bind fun full =>
      if full then some (rb, -1)
      else (rb.copyIn data).bind fun rb =>
        (rb.advance rb.tail).map fun t => ({ rb with tail := t }, 0)

/-- `stl_ring_buffer_dequeue` with the offset it returns a pointer to. -/
def stlRingBufferDequeue : Option (StlRingBuffer × Option ℕ) :=
  if rb.stlRingBufferIsEmpty then some (rb, none)
  else (rb.advance rb.head).map fun h => ({ rb with head := h }, some rb.head)

def bytesAt (off : ℕ) : List UInt8 := (List.range rb.dSize).map fun k => rb.buf (off + k)

end StlRingBuffer

section Slots
variable {c d i j k : ℕ}

/-- Going around from a slot by at most the whole ring. -/
theorem wrap_eq_iff (hi : i < c) (hk : k ≤ c) : (i + k) % c = i ↔ k = 0 ∨ k = c := by
  by_cases h : i + k < c
  · rw [Nat.mod_eq_of_lt h]
    omega
  · have hlt : i + k - c < c := by omega
    rw [Nat.mod_eq_sub_mod (by omega), Nat.mod_eq_of_lt hlt]
    omega

theorem wrap_inj (hj : j < c) (hk : k < c) (h : (i + j) % c = (i + k) % c) : j = k := by
  have hm : j % c = k % c := Nat.ModEq.add_left_cancel' i h
  rwa [Nat.mod_eq_of_lt hj, Nat.mod_eq_of_lt hk] at hm

theorem slot_eq {a b : ℕ} (hk : k < d) (hlo : a * d ≤ b * d + k) (hhi : b * d + k < a * d + d) :
    b = a := by
  have hd : 0 < d := Nat.zero_lt_of_lt hk
  have h₁ : b < a + 1 := by
    apply Nat.lt_of_mul_lt_mul_right (a := d)
    rw [Nat.add_mul, Nat.one_mul]
    omega
  have h₂ : a < b + 1 := by
    apply Nat.lt_of_mul_lt_mul_right (a := d)
    rw [Nat.add_mul, Nat.one_mul]
    omega
  omega

end Slots

/-- `m` of the `c` slots of `d` bytes are in use, from slot `i` on. -/
structure Ring (rb : StlRingBuffer) (c d i m : ℕ) : Prop where
  capacity : rb.capacity = c
  dSize : rb.dSize = d
  size : c * d ≤ rb.size
  fits : c * d < 2 ^ 64
  pos : 0 < d
  head : rb.head = i * d
  tail : rb.tail = (i + m) % c * d
  lt : i < c
  room : m < c

namespace Ring
variable {rb : StlRingBuffer} {c d i m : ℕ}

theorem advance_eq (h : Ring rb c d i m) {j : ℕ} (hj : j < c) :
    rb.advance (j * d) = some ((j + 1) % c * d) := by
  have hle : j * d + d ≤ c * d := by
    calc j * d + d = (j + 1) * d := by rw [Nat.add_mul, Nat.one_mul]
      _ ≤ c * d := Nat.mul_le_mul_right d hj
  have hfits := h.fits
  have hpos : 0 < c * d := Nat.mul_pos (Nat.zero_lt_of_lt hj) h.pos
  have hsum : (j * d + d) % 2 ^ 64 = j * d + d := Nat.mod_eq_of_lt (by omega)
  rw [StlRingBuffer.advance, h.capacity, h.dSize, Nat.mod_eq_of_lt hfits,
    if_neg (Nat.ne_of_gt hpos), hsum]
  congr 1
  rw [← Nat.mul_mod_mul_right, Nat.add_mul, Nat.one_mul]

theorem tail_lt (h : Ring rb c d i m) : (i + m) % c < c := Nat.mod_lt _ (Nat.zero_lt_of_lt h.lt)

theorem advance_head (h : Ring rb c d i m) : rb.advance rb.head = some ((i + 1) % c * d) := by
  rw [h.head]
  exact h.advance_eq h.lt

theorem advance_tail (h : Ring rb c d i m) : rb.advance rb.tail = some ((i + (m + 1)) % c * d) := by
  rw [h.tail, h.advance_eq h.tail_lt, Nat.mod_add_mod, Nat.add_assoc]

theorem isEmpty_iff (h : Ring rb c d i m) : rb.stlRingBufferIsEmpty = true ↔ m = 0 := by
  have hm := h.room
  rw [StlRingBuffer.stlRingBufferIsEmpty, decide_eq_true_iff, h.head, h.tail, eq_comm,
    Nat.mul_left_inj (Nat.ne_of_gt h.pos), wrap_eq_iff h.lt (Nat.le_of_lt hm)]
  omega

theorem isFull_eq (h : Ring rb c d i m) :
    rb.stlRingBufferIsFull = some (decide (m + 1 = c)) := by
  rw [StlRingBuffer.stlRingBufferIsFull, h.advance_tail, Option.map_some, h.head]
  congr 1
  rw [decide_eq_decide, Nat.mul_left_inj (Nat.ne_of_gt h.pos), wrap_eq_iff h.lt h.room]
  omega

theorem copyIn_eq (h : Ring rb c d i m) {x : List UInt8} (hx : d ≤ x.length) :
    rb.copyIn x = some (rb.copied x) := by
  have hlt : (i + m) % c * d + d ≤ c * d := by
    calc (i + m) % c * d + d = ((i + m) % c + 1) * d := by rw [Nat.add_mul, Nat.one_mul]
      _ ≤ c * d := Nat.mul_le_mul_right d h.tail_lt
  have hsize := h.size
  rw [StlRingBuffer.copyIn, if_pos]
  rw [h.dSize, h.tail]
  exact ⟨by omega, hx⟩

/-- The copy changes the slot at the tail and no other. -/
theorem bytesAt_copied (h : Ring rb c d i m) {x : List UInt8} (hx : d ≤ x.length) (j : ℕ) :
    (rb.copied x).bytesAt (j * d) = if j = (i + m) % c then x.take d else rb.bytesAt (j * d) := by
  simp only [StlRingBuffer.bytesAt, StlRingBuffer.copied, h.dSize, h.tail]
  by_cases hjt : j = (i + m) % c
  · rw [if_pos hjt, hjt]
    apply List.ext_getElem
    · simp [hx]
    · intro k hk hk'
      simp only [List.length_map, List.length_range] at hk
      have hin : k < x.length := by omega
      simp [hk, List.getElem?_eq_getElem hin]
  · rw [if_neg hjt]
    apply List.map_congr_left
    intro k hk
    rw [List.mem_range] at hk
    rw [if_neg]
    rintro ⟨hlo, hhi⟩
    exact hjt (slot_eq hk hlo hhi)

theorem copied (h : Ring rb c d i m) (x : List UInt8) : Ring (rb.copied x) c d i m :=
  ⟨h.capacity, h.dSize, h.size, h.fits, h.pos, h.head, h.tail, h.lt, h.room⟩

theorem withTail (h : Ring rb c d i m) (hm : m + 1 < c) :
    Ring { rb with tail := (i + (m + 1)) % c * d } c d i (m + 1) :=
  ⟨h.capacity, h.dSize, h.size, h.fits, h.pos, h.head, rfl, h.lt, hm⟩

theorem withHead (h : Ring rb c d i (m + 1)) :
    Ring { rb with head := (i + 1) % c * d } c d ((i + 1) % c) m := by
  refine ⟨h.capacity, h.dSize, h.size, h.fits, h.pos, rfl, ?_,
    Nat.mod_lt _ (Nat.zero_lt_of_lt h.lt), Nat.lt_of_succ_lt h.room⟩
  change rb.tail = _
  rw [h.tail, Nat.mod_add_mod, Nat.add_assoc, Nat.add_comm 1 m]

end Ring

theorem ring_init {c d : ℕ} {rb : StlRingBuffer} (hc : 1 ≤ c) (hd : d % 2 ^ 32 ≠ 0)
    (h : stlRingBufferInit c d = some rb) : Ring rb c (d % 2 ^ 32) 0 0 := by
  rw [stlRingBufferInit] at h
  split at h
  · next hfits =>
    cases h
    have hle : c * (d % 2 ^ 32) ≤ c * d := Nat.mul_le_mul_left c (Nat.mod_le _ _)
    exact ⟨rfl, rfl, hle, Nat.lt_of_le_of_lt hle hfits, Nat.pos_of_ne_zero hd,
      (Nat.zero_mul _).symm, by rw [Nat.add_zero, Nat.zero_mod, Nat.zero_mul], hc, hc⟩
  · cases h

end KirinFS.RingBuffer
