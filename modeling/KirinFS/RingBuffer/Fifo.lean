import KirinFS.Foundation.Simulation
import KirinFS.RingBuffer.Ring

/-! # The ring refines a bounded queue -/

namespace KirinFS.RingBuffer
open Foundation.Simulation

/-- The memory behind a data pointer is the list of its bytes. -/
inductive RingOp where
  | queue (data : Option (List UInt8))
  | dequeue

inductive RingAnswer where
  | code (r : ℤ)
  | element (x : Option (List UInt8))
  deriving DecidableEq

namespace RingOp

/-- The answer to a dequeue is the element that its pointer leads to. -/
def step (rb : StlRingBuffer) : RingOp → Option (StlRingBuffer × RingAnswer)
  | .queue data => (rb.stlRingBufferQueue data).map fun r => (r.1, .code r.2)
  | .dequeue =>
    rb.stlRingBufferDequeue.map fun r => (r.1, .element (r.2.map r.1.bytesAt))

/-- A queue of at most `c - 1` elements of `d` bytes. -/
def spec (c d : ℕ) (q : List (List UInt8)) : RingOp → List (List UInt8) × RingAnswer
  | .queue none => (q, .code (-1))
  | .queue (some x) => if q.length < c - 1 then (q ++ [x.take d], .code 0) else (q, .code (-1))
  | .dequeue => (q.tail, .element q.head?)

def Valid (d : ℕ) : RingOp → Prop
  | .queue (some x) => d ≤ x.length
  | _ => True

instance (d : ℕ) : (op : RingOp) → Decidable (op.Valid d)
  | .queue (some x) => inferInstanceAs (Decidable (d ≤ x.length))
  | .queue none => inferInstanceAs (Decidable True)
  | .dequeue => inferInstanceAs (Decidable True)

end RingOp

/-- The used slots hold the elements of the queue. -/
def Represents (c d : ℕ) (rb : StlRingBuffer) (q : List (List UInt8)) : Prop :=
  ∃ i, Ring rb c d i q.length ∧
    ∀ j (hj : j < q.length), rb.bytesAt ((i + j) % c * d) = q[j]

variable {c d : ℕ} {rb : StlRingBuffer} {q : List (List UInt8)}

theorem queue_full (h : Represents c d rb q) (hfull : ¬ q.length < c - 1) (x : List UInt8) :
    rb.stlRingBufferQueue (some x) = some (rb, -1) := by
  obtain ⟨i, hr, -⟩ := h
  have hm := hr.room
  rw [StlRingBuffer.stlRingBufferQueue, hr.isFull_eq, Option.bind_some, if_pos]
  rw [decide_eq_true_iff]
  omega

theorem queue_room (h : Represents c d rb q) (hroom : q.length < c - 1) {x : List UInt8}
    (hx : d ≤ x.length) :
    ∃ rb', rb.stlRingBufferQueue (some x) = some (rb', 0) ∧ Represents c d rb' (q ++ [x.take d]) := by
  obtain ⟨i, hr, hq⟩ := h
  have hnew := (hr.copied x).withTail (by omega : q.length + 1 < c)
  refine ⟨{ rb.copied x with tail := (i + (q.length + 1)) % c * d }, ?_, i, ?_, ?_⟩
  · rw [StlRingBuffer.stlRingBufferQueue, hr.isFull_eq, Option.bind_some,
      if_neg (by rw [decide_eq_true_iff]; omega), hr.copyIn_eq hx, Option.bind_some,
      (hr.copied x).advance_tail]
    rfl
  · rw [List.length_append, List.length_singleton]
    exact hnew
  · intro j hj
    rw [List.length_append, List.length_singleton] at hj
    refine Eq.trans (hr.bytesAt_copied hx ((i + j) % c)) ?_
    by_cases hlast : j = q.length
    · subst hlast
      rw [if_pos rfl]
      simp
    · have hlt : j < q.length := by omega
      have hne : (i + j) % c ≠ (i + q.length) % c := fun h =>
        hlast (wrap_inj (Nat.lt_trans hlt hr.room) hr.room h)
      rw [if_neg hne, hq j hlt, List.getElem_append_left hlt]

theorem dequeue_empty (h : Represents c d rb []) : rb.stlRingBufferDequeue = some (rb, none) := by
  obtain ⟨i, hr, -⟩ := h
  rw [StlRingBuffer.stlRingBufferDequeue, if_pos (hr.isEmpty_iff.mpr rfl)]

theorem dequeue_oldest {x : List UInt8} (h : Represents c d rb (x :: q)) :
    ∃ rb' off, rb.stlRingBufferDequeue = some (rb', some off) ∧ rb'.bytesAt off = x ∧
      Represents c d rb' q := by
  obtain ⟨i, hr, hq⟩ := h
  have hne : ¬ rb.stlRingBufferIsEmpty = true := by
    rw [hr.isEmpty_iff]
    simp
  refine ⟨_, rb.head, ?_, ?_, (i + 1) % c, hr.withHead, ?_⟩
  · rw [StlRingBuffer.stlRingBufferDequeue, if_neg hne, hr.advance_head]
    rfl
  · have hfirst := hq 0 (by simp)
    rw [Nat.add_zero, Nat.mod_eq_of_lt hr.lt, ← hr.head] at hfirst
    exact hfirst
  · intro j hj
    have hnext := hq (j + 1) (by simpa using hj)
    rw [Nat.mod_add_mod, Nat.add_assoc, Nat.add_comm 1 j]
    exact hnext

theorem step_simulates (c d : ℕ) :
    Simulates RingOp.step (RingOp.spec c d) (Represents c d) (RingOp.Valid d) := by
  intro rb q op h hv
  cases op with
  | queue data =>
    cases data with
    | none => exact ⟨rb, rfl, h⟩
    | some x =>
      by_cases hroom : q.length < c - 1
      · obtain ⟨rb', heq, hrep⟩ := queue_room h hroom hv
        refine ⟨rb', ?_, ?_⟩
        · rw [RingOp.step, heq, RingOp.spec, if_pos hroom]
          rfl
        · rw [RingOp.spec, if_pos hroom]
          exact hrep
      · refine ⟨rb, ?_, ?_⟩
        · rw [RingOp.step, queue_full h hroom, RingOp.spec, if_neg hroom]
          rfl
        · rw [RingOp.spec, if_neg hroom]
          exact h
  | dequeue =>
    cases q with
    | nil => exact ⟨rb, by rw [RingOp.step, dequeue_empty h]; rfl, h⟩
    | cons x q =>
      obtain ⟨rb', off, heq, hx, hrep⟩ := dequeue_oldest h
      refine ⟨rb', ?_, hrep⟩
      rw [RingOp.step, heq, ← hx]
      rfl

/-- Every sequence of operations gives the answers of a queue with room for one element less than
the ring has slots. -/
theorem ring_fifo (hc : 1 ≤ c) (hd : 1 ≤ d) (hlt : d < 2 ^ 32) (hfits : c * d < 2 ^ 64)
    {ops : List RingOp} (hops : ∀ op ∈ ops, op.Valid d) :
    ∃ rb₀ rb q, stlRingBufferInit c d = some rb₀ ∧ (specRuns (RingOp.spec c d) [] ops).1 = q ∧
      runs RingOp.step rb₀ ops = some (rb, (specRuns (RingOp.spec c d) [] ops).2) ∧
      (rb.stlRingBufferIsEmpty = true ↔ q = []) ∧
      rb.stlRingBufferIsFull = some (decide (q.length = c - 1)) ∧
      d ∣ rb.head ∧ rb.head < c * d ∧ d ∣ rb.tail ∧ rb.tail < c * d := by
  have hmod : d % 2 ^ 32 = d := Nat.mod_eq_of_lt hlt
  have hinit : stlRingBufferInit c d = some ⟨c, 0, 0, d % 2 ^ 32, c * d, fun _ => 0⟩ :=
    if_pos hfits
  rw [hmod] at hinit
  have hring := ring_init hc (by omega) hinit
  rw [hmod] at hring
  have hrep : Represents c d ⟨c, 0, 0, d, c * d, fun _ => 0⟩ [] :=
    ⟨0, hring, fun j hj => absurd hj (Nat.not_lt_zero j)⟩
  obtain ⟨rb, hruns, i, hr, -⟩ := (step_simulates c d).runs hrep hops
  have hroom := hr.room
  refine ⟨_, rb, _, hinit, rfl, hruns, ?_, ?_, ?_, ?_, ?_, ?_⟩
  · rw [hr.isEmpty_iff, List.length_eq_zero_iff]
  · rw [hr.isFull_eq, Option.some.injEq, decide_eq_decide]
    omega
  · rw [hr.head]
    exact Nat.dvd_mul_left d i
  · rw [hr.head]
    exact Nat.mul_lt_mul_of_pos_right hr.lt hr.pos
  · rw [hr.tail]
    exact Nat.dvd_mul_left d _
  · rw [hr.tail]
    exact Nat.mul_lt_mul_of_pos_right hr.tail_lt hr.pos

theorem ring_fifo_wrapped :
    ∃ rb₀ rb q, stlRingBufferInit 3 2 = some rb₀ ∧ (specRuns (RingOp.spec 3 2) []
        [.queue (some [1, 2]), .queue (some [3, 4]), .queue (some [5, 6]), .dequeue,
          .queue (some [7, 8]), .dequeue, .dequeue, .dequeue]).1 = q ∧
      runs RingOp.step rb₀ [.queue (some [1, 2]), .queue (some [3, 4]), .queue (some [5, 6]),
          .dequeue, .queue (some [7, 8]), .dequeue, .dequeue, .dequeue] =
        some (rb, [.code 0, .code 0, .code (-1), .element (some [1, 2]), .code 0,
          .element (some [3, 4]), .element (some [7, 8]), .element none]) ∧
      (rb.stlRingBufferIsEmpty = true ↔ q = []) := by
  obtain ⟨rb₀, rb, q, hinit, hq, hruns, hempty, -⟩ :=
    ring_fifo (by decide : 1 ≤ 3) (by decide : 1 ≤ 2) (by decide) (by decide)
      (by decide : ∀ op ∈ [RingOp.queue (some [1, 2]), .queue (some [3, 4]), .queue (some [5, 6]),
        .dequeue, .queue (some [7, 8]), .dequeue, .dequeue, .dequeue], op.Valid 2)
  exact ⟨rb₀, rb, q, hinit, hq, hruns, hempty⟩

/-- An element size that does not fit its field leaves a ring whose first queue divides by zero. -/
theorem queue_undefined_wide : ∃ rb, stlRingBufferInit 2 (2 ^ 32) = some rb ∧
    rb.stlRingBufferIsEmpty = true ∧ ∀ x, rb.stlRingBufferQueue (some x) = none :=
  ⟨⟨2, 0, 0, 0, 2 ^ 33, fun _ => 0⟩, rfl, rfl, fun _ => rfl⟩

end KirinFS.RingBuffer
