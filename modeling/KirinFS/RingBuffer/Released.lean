import KirinFS.Foundation.Histories
import KirinFS.RingBuffer.Ring

/-! # The slot behind the head

The producer and the consumer take turns in any order. A dequeue gives its slot
free before the caller has read it.
-/

namespace KirinFS.RingBuffer
open Foundation.Histories

inductive Producer where
  | idle
  | copy (data : List UInt8)
  | store
  deriving DecidableEq, Repr

/-- A ring with both threads; `released` is what the last successful dequeue returned, with the
element that was there. -/
structure SharedRing where
  rb : StlRingBuffer
  producer : Producer
  popping : Bool
  released : Option (ℕ × List UInt8)

inductive SharedAction where
  | testFull (data : List UInt8)
  | copy
  | storeTail
  | testEmpty
  | storeHead

namespace SharedRing

def step (s : SharedRing) : SharedAction → Option (SharedRing × Unit)
  | .testFull data =>
    if s.producer = .idle then
      s.rb.stlRingBufferIsFull.map fun full =>
        ({ s with producer := if full then .idle else .copy data }, ())
    else none
  | .copy =>
    match s.producer with
    | .copy data => (s.rb.copyIn data).map fun rb => ({ s with rb := rb, producer := .store }, ())
    | _ => none
  | .storeTail =>
    if s.producer = .store then
      (s.rb.advance s.rb.tail).map fun t =>
        ({ s with rb := { s.rb with tail := t }, producer := .idle }, ())
    else none
  | .testEmpty =>
    if s.popping then none else some ({ s with popping := !s.rb.stlRingBufferIsEmpty }, ())
  | .storeHead =>
    if s.popping then
      (s.rb.advance s.rb.head).map fun h =>
        ({ s with rb := { s.rb with head := h }
                  popping := false
                  released := some (s.rb.head, s.rb.bytesAt s.rb.head) }, ())
    else none

end SharedRing

/-- The released slot is the one before the head, and the producer has room for its element. -/
structure SharedInv (s : SharedRing) (c d i m : ℕ) : Prop where
  ring : Ring s.rb c d i m
  producer : s.producer ≠ .idle → m + 1 < c
  popping : s.popping = true → 0 < m
  released : ∀ p bs, s.released = some (p, bs) →
    p = (i + (c - 1)) % c * d ∧ s.rb.bytesAt p = bs

section Steps
variable {s s' : SharedRing} {c d i m : ℕ} {u : Unit}

theorem SharedInv.testFull (h : SharedInv s c d i m) {data : List UInt8}
    (hstep : s.step (.testFull data) = some (s', u)) : SharedInv s' c d i m := by
  rw [SharedRing.step, h.ring.isFull_eq] at hstep
  split at hstep
  · cases hstep
    refine ⟨h.ring, ?_, h.popping, h.released⟩
    intro hne
    by_cases hfull : m + 1 = c
    · rw [if_pos (decide_eq_true hfull)] at hne
      exact absurd rfl hne
    · have hroom := h.ring.room
      omega
  · cases hstep

theorem SharedInv.copy (h : SharedInv s c d i m) (hstep : s.step .copy = some (s', u)) :
    SharedInv s' c d i m := by
  cases hp : s.producer with
  | idle => simp [SharedRing.step, hp] at hstep
  | store => simp [SharedRing.step, hp] at hstep
  | copy data =>
    have hroom := h.producer (by rw [hp]; simp)
    by_cases hx : d ≤ data.length
    · rw [SharedRing.step, hp] at hstep
      simp only [h.ring.copyIn_eq hx, Option.map_some] at hstep
      cases hstep
      refine ⟨h.ring.copied data, fun _ => hroom, h.popping, ?_⟩
      intro p bs hrel
      obtain ⟨rfl, hbs⟩ := h.released p bs hrel
      refine ⟨rfl, ?_⟩
      have hne : (i + (c - 1)) % c ≠ (i + m) % c := by
        intro heq
        have hcm := wrap_inj (by omega) h.ring.room heq
        omega
      rw [← hbs]
      exact (h.ring.bytesAt_copied hx _).trans (if_neg hne)
    · have hnone : s.rb.copyIn data = none := by
        rw [StlRingBuffer.copyIn, if_neg]
        rw [h.ring.dSize]
        exact fun hand => hx hand.2
      simp [SharedRing.step, hp, hnone] at hstep

theorem SharedInv.storeTail (h : SharedInv s c d i m) (hstep : s.step .storeTail = some (s', u)) :
    SharedInv s' c d i (m + 1) := by
  rw [SharedRing.step, h.ring.advance_tail] at hstep
  split at hstep
  · next hp =>
    cases hstep
    have hroom := h.producer (by rw [hp]; simp)
    exact ⟨h.ring.withTail hroom, fun hne => absurd rfl hne, fun _ => Nat.succ_pos m, h.released⟩
  · cases hstep

theorem SharedInv.testEmpty (h : SharedInv s c d i m) (hstep : s.step .testEmpty = some (s', u)) :
    SharedInv s' c d i m := by
  rw [SharedRing.step] at hstep
  split at hstep
  · cases hstep
  · cases hstep
    refine ⟨h.ring, h.producer, ?_, h.released⟩
    intro hpop
    have hne : ¬ s.rb.stlRingBufferIsEmpty = true := by simpa using hpop
    rw [h.ring.isEmpty_iff] at hne
    exact Nat.pos_of_ne_zero hne

theorem SharedInv.storeHead (h : SharedInv s c d i m) (hstep : s.step .storeHead = some (s', u)) :
    SharedInv s' c d ((i + 1) % c) (m - 1) := by
  rw [SharedRing.step, h.ring.advance_head] at hstep
  split at hstep
  · next hpop =>
    cases hstep
    obtain ⟨k, rfl⟩ := Nat.exists_eq_succ_of_ne_zero (Nat.ne_of_gt (h.popping hpop))
    refine ⟨h.ring.withHead, ?_, by simp, ?_⟩
    · intro hne
      have hroom := h.producer hne
      omega
    · intro p bs hrel
      cases hrel
      refine ⟨?_, rfl⟩
      have hlt := h.ring.lt
      rw [h.ring.head, Nat.mod_add_mod, show i + 1 + (c - 1) = i + c by omega, Nat.add_mod_right,
        Nat.mod_eq_of_lt hlt]
  · cases hstep

theorem SharedInv.step (h : SharedInv s c d i m) {a : SharedAction}
    (hstep : s.step a = some (s', u)) : ∃ i' m', SharedInv s' c d i' m' := by
  cases a with
  | testFull data => exact ⟨i, m, h.testFull hstep⟩
  | copy => exact ⟨i, m, h.copy hstep⟩
  | storeTail => exact ⟨i, m + 1, h.storeTail hstep⟩
  | testEmpty => exact ⟨i, m, h.testEmpty hstep⟩
  | storeHead => exact ⟨_, m - 1, h.storeHead hstep⟩

end Steps

/-- A ring whose offsets cannot advance stays as it is. -/
def Degenerate (s : SharedRing) : Prop :=
  s.rb.capacity * s.rb.dSize % 2 ^ 64 = 0 ∧ s.rb.head = s.rb.tail ∧ s.producer = .idle ∧
    s.popping = false ∧ s.released = none

theorem Degenerate.step {s s' : SharedRing} {a : SharedAction} {u : Unit} (h : Degenerate s)
    (hstep : s.step a = some (s', u)) : Degenerate s' := by
  obtain ⟨hzero, hends, hp, hpop, hrel⟩ := h
  have hadv : ∀ off, s.rb.advance off = none := fun off => if_pos hzero
  cases a with
  | testFull data => simp [SharedRing.step, hp, StlRingBuffer.stlRingBufferIsFull, hadv] at hstep
  | copy => simp [SharedRing.step, hp] at hstep
  | storeTail => simp [SharedRing.step, hp] at hstep
  | testEmpty =>
    simp only [SharedRing.step, hpop, StlRingBuffer.stlRingBufferIsEmpty, hends, decide_true,
      Bool.not_true, Bool.false_eq_true, if_false] at hstep
    cases hstep
    exact ⟨hzero, hends, hp, rfl, hrel⟩
  | storeHead => simp [SharedRing.step, hpop] at hstep

def SharedRing.new (rb : StlRingBuffer) : SharedRing := ⟨rb, .idle, false, none⟩

theorem shared_inv {c d : ℕ} {rb : StlRingBuffer} {s : SharedRing} {es : List Unit}
    (hinit : stlRingBufferInit c d = some rb)
    (h : Reaches SharedRing.step (fun _ _ => True) (.new rb) es s) :
    (∃ i m, SharedInv s c (d % 2 ^ 32) i m) ∨ Degenerate s := by
  apply h.invariant (I := fun _ s => (∃ i m, SharedInv s c (d % 2 ^ 32) i m) ∨ Degenerate s)
  · by_cases hz : c = 0 ∨ d % 2 ^ 32 = 0
    · right
      rw [stlRingBufferInit] at hinit
      split at hinit
      · cases hinit
        refine ⟨?_, rfl, rfl, rfl, rfl⟩
        change c * (d % 2 ^ 32) % 2 ^ 64 = 0
        rw [Nat.mul_eq_zero.mpr hz, Nat.zero_mod]
      · cases hinit
    · left
      refine ⟨0, 0, ring_init (by omega) (by omega) hinit, ?_, ?_, ?_⟩
      · exact fun hne => absurd rfl hne
      · exact fun hpop => absurd hpop Bool.false_ne_true
      · intro p bs hrel
        cases hrel
  · intro _ s a s' u hs _ hstep
    rcases hs with ⟨i, m, hs⟩ | hs
    · exact Or.inl (hs.step hstep)
    · exact Or.inr (hs.step hstep)

/-- In every interleaving the element that the last dequeue returned is still where its pointer
leads to. -/
theorem released_intact {c d : ℕ} {rb : StlRingBuffer} {s : SharedRing} {es : List Unit}
    (hinit : stlRingBufferInit c d = some rb)
    (h : Reaches SharedRing.step (fun _ _ => True) (.new rb) es s) {p : ℕ} {bs : List UInt8}
    (hrel : s.released = some (p, bs)) : s.rb.bytesAt p = bs := by
  rcases shared_inv hinit h with ⟨i, m, hs⟩ | hs
  · exact (hs.released p bs hrel).2
  · rw [hs.2.2.2.2] at hrel
    cases hrel

/-- In a ring of three slots a queue call has begun before the dequeue, and two follow. -/
def sharedRun : List SharedAction :=
  [.testFull [1], .copy, .storeTail, .testFull [2], .testEmpty, .copy, .storeHead, .storeTail,
    .testFull [3], .copy, .storeTail, .testFull [4]]

theorem released_intact_three : ∃ es s,
    Reaches SharedRing.step (fun _ _ => True) (.new ⟨3, 0, 0, 1, 3, fun _ => 0⟩) es s ∧
      s.released = some (0, [1]) ∧ s.rb.stlRingBufferIsFull = some true ∧ s.rb.bytesAt 0 = [1] := by
  cases hf : Reaches.follow SharedRing.step (fun _ _ => True)
      (.new ⟨3, 0, 0, 1, 3, fun _ => 0⟩) sharedRun with
  | none => exact absurd (congrArg Option.isSome hf) (by decide)
  | some r =>
    have hrel : r.1.released = some (0, [1]) := by
      have h := congrArg (Option.map fun r => r.1.released) hf
      exact (Option.some.inj h).symm
    have hfull : r.1.rb.stlRingBufferIsFull = some true := by
      have h := congrArg (Option.map fun r => r.1.rb.stlRingBufferIsFull) hf
      exact (Option.some.inj h).symm
    have hreach := Reaches.of_follow hf
    have hinit : stlRingBufferInit 3 1 = some ⟨3, 0, 0, 1, 3, fun _ => 0⟩ := rfl
    exact ⟨r.2, r.1, hreach, hrel, hfull, released_intact hinit hreach hrel⟩

end KirinFS.RingBuffer
