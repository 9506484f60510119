import KirinFS.Foundation.Histories
import Mathlib.Algebra.Group.Nat.Defs
import Mathlib.Algebra.BigOperators.Fin
import Mathlib.Algebra.Order.BigOperators.Group.Finset

/-! # The reader and writer lock

Each load, compare-and-set, fetch-add and store of a thread is one step. The
retry loops with their pauses all come back to the same load.
-/

namespace KirinFS.Rwlock
open Function Foundation.Histories

def wlockMode : BitVec 64 := -1

inductive Kind where
  | reader
  | writer
  deriving DecidableEq, Repr

/-- The next atomic step of a thread. -/
inductive Pc where
  | idle
  | wlockLoad
  | wlockSet
  | rlockLoad
  | rlockSet (readers : BitVec 64)
  | unlockLoad (k : Kind)
  | unlockSet (k : Kind)
  | unlockAdd (k : Kind)
  | downgradeLoad
  | downgradeStore
  deriving DecidableEq, Repr

/-- A thread with the number of times it holds the lock for reading and for writing. -/
structure Thread where
  pc : Pc
  reads : ℕ
  writes : ℕ
  deriving DecidableEq, Repr

namespace Thread

def holds (t : Thread) : Kind → ℕ
  | .reader => t.reads
  | .writer => t.writes

def release (t : Thread) : Kind → Thread
  | .reader => { t with pc := .idle, reads := t.reads - 1 }
  | .writer => { t with pc := .idle, writes := t.writes - 1 }

/-- One atomic step inside a call, with the lock word before and after. -/
def step (t : Thread) (lock : BitVec 64) : Option (Thread × BitVec 64) :=
  match t.pc with
  | .idle => none
  | .wlockLoad => some ({ t with pc := if lock = 0 then .wlockSet else .wlockLoad }, lock)
  | .wlockSet =>
    if lock = 0 then some ({ t with pc := .idle, writes := t.writes + 1 }, wlockMode)
    else some ({ t with pc := .wlockLoad }, lock)
  | .rlockLoad =>
    some ({ t with pc := if lock ≠ wlockMode then .rlockSet lock else .rlockLoad }, lock)
  | .rlockSet readers =>
    if lock = readers then some ({ t with pc := .idle, reads := t.reads + 1 }, readers + 1)
    else some ({ t with pc := .rlockLoad }, lock)
  | .unlockLoad k =>
    some ({ t with pc := if lock = wlockMode then .unlockSet k else .unlockAdd k }, lock)
  | .unlockSet k => some (t.release k, if lock = wlockMode then 0 else lock)
  | .unlockAdd k => some (t.release k, lock + -1)
  | .downgradeLoad =>
    some ({ t with pc := if lock = wlockMode then .downgradeStore else .idle }, lock)
  | .downgradeStore =>
    some ({ pc := .idle, reads := t.reads + 1, writes := t.writes - 1 }, 1)

end Thread

/-- The calls; a thread unlocks what it holds, and only a writer downgrades. -/
inductive LockAction (n : ℕ) where
  | wlock (i : Fin n)
  | rlock (i : Fin n)
  | unlock (i : Fin n) (k : Kind)
  | downgrade (i : Fin n)
  | proceed (i : Fin n)

structure LockState (n : ℕ) where
  lock : BitVec 64
  thread : Fin n → Thread

namespace LockState
variable {n : ℕ}

def new : LockState n := ⟨0, fun _ => ⟨.idle, 0, 0⟩⟩

def call (s : LockState n) (i : Fin n) (pc : Pc) : Option (LockState n × Unit) :=
  if (s.thread i).pc = .idle then
    some ({ s with thread := update s.thread i { s.thread i with pc := pc } }, ())
  else none

def step (s : LockState n) : LockAction n → Option (LockState n × Unit)
  | .wlock i => s.call i .wlockLoad
  | .rlock i => s.call i .rlockLoad
  | .unlock i k => if 0 < (s.thread i).holds k then s.call i (.unlockLoad k) else none
  | .downgrade i => if 0 < (s.thread i).writes then s.call i .downgradeLoad else none
  | .proceed i =>
    ((s.thread i).step s.lock).map fun r => (⟨r.2, update s.thread i r.1⟩, ())

def readers (s : LockState n) : ℕ := ∑ i, (s.thread i).reads

def writers (s : LockState n) : ℕ := ∑ i, (s.thread i).writes

/-- There never are `2 ^ 64 - 1` readers at once. -/
def Few (s : LockState n) (a : LockAction n) : Prop :=
  ∀ r ∈ s.step a, r.1.readers < 2 ^ 64 - 1

instance (s : LockState n) (a : LockAction n) : Decidable (s.Few a) :=
  inferInstanceAs (Decidable (∀ r ∈ s.step a, r.1.readers < 2 ^ 64 - 1))

end LockState

/-- What is known of a thread about to take this step. -/
def Pc.Fits (t : Thread) : Pc → Prop
  | .rlockSet readers => readers ≠ wlockMode
  | .unlockLoad k => 0 < t.holds k
  | .unlockSet k => k = .writer ∧ 0 < t.writes
  | .unlockAdd k => k = .reader ∧ 0 < t.reads
  | .downgradeLoad => 0 < t.writes
  | .downgradeStore => 0 < t.writes
  | _ => True

def Thread.Fits (t : Thread) : Prop := t.pc.Fits t

/-- Either one writer alone, or the word counts the readers. -/
def Counts (lock : BitVec 64) (readers writers : ℕ) : Prop :=
  (writers = 1 ∧ readers = 0 ∧ lock = wlockMode) ∨
    (writers = 0 ∧ readers < 2 ^ 64 - 1 ∧ lock = BitVec.ofNat 64 readers)

structure LockInv {n : ℕ} (s : LockState n) : Prop where
  counts : Counts s.lock s.readers s.writers
  fits : ∀ i, (s.thread i).Fits

section Steps
variable {n : ℕ} {s s' : LockState n} {i : Fin n} {t : Thread} {lock lock' : BitVec 64}

theorem ofNat_succ (k : ℕ) : BitVec.ofNat 64 (k + 1) = BitVec.ofNat 64 k + 1 := BitVec.ofNat_add k 1

theorem ofNat_pred (k : ℕ) : BitVec.ofNat 64 (k + 1) + -1 = BitVec.ofNat 64 k := by
  have hone : (1 : BitVec 64) + -1 = 0 := by decide
  rw [ofNat_succ, BitVec.add_assoc, hone]
  exact BitVec.add_zero _

theorem ofNat_ne_mode {k : ℕ} (hk : k < 2 ^ 64 - 1) : BitVec.ofNat 64 k ≠ wlockMode := by
  intro h
  have hn := congrArg BitVec.toNat h
  rw [BitVec.toNat_ofNat, Nat.mod_eq_of_lt (by omega)] at hn
  rw [hn] at hk
  exact absurd hk (by decide)

theorem Counts.ne_mode {r w : ℕ} (h : Counts lock r w) (hr : 0 < r ∨ w = 0) : lock ≠ wlockMode := by
  rcases h with ⟨h₁, h₂, -⟩ | ⟨-, hlt, rfl⟩
  · omega
  · exact ofNat_ne_mode hlt

theorem Counts.eq_mode {r w : ℕ} (h : Counts lock r w) (hw : 0 < w) :
    lock = wlockMode ∧ w = 1 ∧ r = 0 := by
  rcases h with ⟨h₁, h₂, h₃⟩ | ⟨h₁, -, -⟩
  · exact ⟨h₃, h₁, h₂⟩
  · omega

theorem Counts.zero {r w : ℕ} (h : Counts lock r w) (hl : lock = 0) : r = 0 ∧ w = 0 := by
  rcases h with ⟨-, -, h₃⟩ | ⟨h₁, hlt, h₃⟩
  · rw [hl] at h₃
    exact absurd h₃ (by decide)
  · have hn := congrArg BitVec.toNat (hl.symm.trans h₃)
    rw [BitVec.toNat_ofNat, Nat.mod_eq_of_lt (by omega)] at hn
    exact ⟨hn.symm, h₁⟩

/-- A step of one thread among others that hold `r` reads and `w` writes. -/
theorem Thread.step_counts {t' : Thread} {r w : ℕ} (h : Counts lock (t.reads + r) (t.writes + w))
    (hf : t.Fits) (hstep : t.step lock = some (t', lock')) (hfew : t'.reads + r < 2 ^ 64 - 1) :
    Counts lock' (t'.reads + r) (t'.writes + w) ∧ t'.Fits := by
  obtain ⟨pc, reads, writes⟩ := t
  cases pc with
  | idle => cases hstep
  | wlockLoad =>
    cases hstep
    refine ⟨h, ?_⟩
    by_cases hl : lock = 0
    · rw [if_pos hl]
      trivial
    · rw [if_neg hl]
      trivial
  | wlockSet =>
    simp only [step] at hstep
    split_ifs at hstep with hl
    · cases hstep
      obtain ⟨hr, hw⟩ := h.zero hl
      refine ⟨Or.inl ⟨?_, hr, rfl⟩, trivial⟩
      simp only at hw ⊢
      omega
    · cases hstep
      exact ⟨h, trivial⟩
  | rlockLoad =>
    cases hstep
    refine ⟨h, ?_⟩
    by_cases hl : lock ≠ wlockMode
    · rw [if_pos hl]
      exact hl
    · rw [if_neg hl]
      trivial
  | rlockSet readers =>
    simp only [step] at hstep
    split_ifs at hstep with hl
    · cases hstep
      subst hl
      refine ⟨Or.inr ?_, trivial⟩
      rcases h with ⟨-, -, hmode⟩ | ⟨hw, -, heq⟩
      · exact absurd hmode hf
      · refine ⟨hw, hfew, ?_⟩
        change lock = BitVec.ofNat 64 (reads + r) at heq
        rw [heq, Nat.add_right_comm, ofNat_succ]
    · cases hstep
      exact ⟨h, trivial⟩
  | unlockLoad k =>
    cases hstep
    refine ⟨h, ?_⟩
    cases k with
    | reader =>
      rw [if_neg (h.ne_mode (Or.inl (Nat.add_pos_left hf r)))]
      exact ⟨rfl, hf⟩
    | writer =>
      rw [if_pos (h.eq_mode (Nat.add_pos_left hf w)).1]
      exact ⟨rfl, hf⟩
  | unlockSet k =>
    obtain ⟨rfl, hpos⟩ := hf
    cases hstep
    obtain ⟨hl, hw, hr⟩ := h.eq_mode (Nat.add_pos_left hpos w)
    rw [if_pos hl]
    refine ⟨Or.inr ⟨?_, hfew, ?_⟩, trivial⟩
    · simp only [release] at hw hpos ⊢
      omega
    · simp only [release] at hr ⊢
      rw [hr]
      rfl
  | unlockAdd k =>
    obtain ⟨rfl, hpos⟩ := hf
    cases hstep
    refine ⟨Or.inr ?_, trivial⟩
    rcases h with ⟨-, hr, -⟩ | ⟨hw, -, heq⟩
    · exact absurd hr (Nat.ne_of_gt (Nat.add_pos_left hpos r))
    · refine ⟨hw, hfew, ?_⟩
      simp only [release] at hpos ⊢
      rw [heq, show reads + r = reads - 1 + r + 1 by omega]
      exact ofNat_pred _
  | downgradeLoad =>
    cases hstep
    refine ⟨h, ?_⟩
    rw [if_pos (h.eq_mode (Nat.add_pos_left hf w)).1]
    exact hf
  | downgradeStore =>
    cases hstep
    obtain ⟨-, hw, hr⟩ := h.eq_mode (Nat.add_pos_left hf w)
    change 0 < writes at hf
    simp only at hw hr hfew ⊢
    refine ⟨Or.inr ⟨by omega, hfew, ?_⟩, trivial⟩
    rw [show reads + 1 + r = 1 by omega]
    rfl

/-- The sum over all threads after one of them has changed. -/
theorem sum_update (f : Fin n → Thread) (i : Fin n) (t : Thread) (g : Thread → ℕ) :
    ∑ j, g (update f i t j) = g t + ∑ j ∈ Finset.univ.erase i, g (f j) := by
  rw [← Finset.add_sum_erase _ _ (Finset.mem_univ i), update_self]
  congr 1
  apply Finset.sum_congr rfl
  intro j hj
  rw [update_of_ne (Finset.ne_of_mem_erase hj)]

/-- Replacing a thread keeps the invariant if it does so for the word and what this thread holds. -/
theorem LockInv.replace (h : LockInv s)
    (hc : ∀ r w, Counts s.lock ((s.thread i).reads + r) ((s.thread i).writes + w) →
      t.reads + r = LockState.readers ⟨lock, update s.thread i t⟩ →
      Counts lock (t.reads + r) (t.writes + w) ∧ t.Fits) :
    LockInv ⟨lock, update s.thread i t⟩ := by
  have hr := sum_update s.thread i t Thread.reads
  have hw := sum_update s.thread i t Thread.writes
  have hnew := hc (∑ j ∈ Finset.univ.erase i, (s.thread j).reads)
    (∑ j ∈ Finset.univ.erase i, (s.thread j).writes) ?_ hr.symm
  · constructor
    · rw [LockState.readers, LockState.writers, hr, hw]
      exact hnew.1
    · intro j
      change (update s.thread i t j).Fits
      by_cases hj : j = i
      · rw [hj, update_self]
        exact hnew.2
      · rw [update_of_ne hj]
        exact h.fits j
  · rw [Finset.add_sum_erase _ (fun j => (s.thread j).reads) (Finset.mem_univ i),
      Finset.add_sum_erase _ (fun j => (s.thread j).writes) (Finset.mem_univ i)]
    exact h.counts

theorem LockInv.call (h : LockInv s) (pc : Pc) {u : Unit} (hf : pc.Fits { s.thread i with pc := pc })
    (hstep : s.call i pc = some (s', u)) : LockInv s' := by
  rw [LockState.call] at hstep
  split at hstep
  · cases hstep
    exact h.replace fun _ _ hc _ => ⟨hc, hf⟩
  · cases hstep

theorem LockInv.step (h : LockInv s) {a : LockAction n} {u : Unit} (hfew : s.Few a)
    (hstep : s.step a = some (s', u)) : LockInv s' := by
  cases a with
  | wlock i => exact h.call .wlockLoad trivial hstep
  | rlock i => exact h.call .rlockLoad trivial hstep
  | unlock i k =>
    simp only [LockState.step] at hstep
    split at hstep
    · next hpos =>
      refine h.call (.unlockLoad k) ?_ hstep
      cases k <;> exact hpos
    · cases hstep
  | downgrade i =>
    simp only [LockState.step] at hstep
    split at hstep
    · next hpos => exact h.call .downgradeLoad hpos hstep
    · cases hstep
  | proceed i =>
    have hlt := hfew _ hstep
    obtain ⟨⟨t, lock⟩, ht, heq⟩ := Option.map_eq_some_iff.mp hstep
    cases heq
    apply h.replace
    intro r w hc hr
    rw [← hr] at hlt
    exact Thread.step_counts hc (h.fits i) ht hlt

end Steps

variable {n : ℕ} {es : List Unit} {s : LockState n}

theorem lockInv_new : LockInv (LockState.new : LockState n) := by
  constructor
  · refine Or.inr ⟨?_, ?_, ?_⟩ <;> simp [LockState.new, LockState.readers, LockState.writers]
  · intro i
    trivial

theorem lock_inv (h : Reaches LockState.step LockState.Few .new es s) : LockInv s :=
  h.invariant (I := fun _ s => LockInv s) lockInv_new
    fun _ _ _ _ _ hs hfew hstep => hs.step hfew hstep

/-- In every interleaving the word tells who holds the lock, and a writer holds it alone. -/
theorem lock_word (h : Reaches LockState.step LockState.Few .new es s) :
    (s.lock = wlockMode ↔ s.writers = 1 ∧ s.readers = 0) ∧
      (s.lock ≠ wlockMode → s.writers = 0 ∧ s.lock.toNat = s.readers) ∧
      ∀ i, 0 < (s.thread i).writes → (s.thread i).writes = 1 ∧
        ∀ j, (s.thread j).reads = 0 ∧ (j ≠ i → (s.thread j).writes = 0) := by
  have hc := (lock_inv h).counts
  refine ⟨⟨?_, ?_⟩, ?_, ?_⟩
  · intro hl
    rcases hc with ⟨hw, hr, -⟩ | ⟨-, hlt, heq⟩
    · exact ⟨hw, hr⟩
    · exact absurd (heq.symm.trans hl) (ofNat_ne_mode hlt)
  · rintro ⟨hw, -⟩
    exact (hc.eq_mode (by omega)).1
  · intro hl
    rcases hc with ⟨-, -, heq⟩ | ⟨hw, hlt, heq⟩
    · exact absurd heq hl
    · refine ⟨hw, ?_⟩
      rw [heq, BitVec.toNat_ofNat]
      exact Nat.mod_eq_of_lt (by omega)
  · intro i hi
    have hle : (s.thread i).writes ≤ s.writers :=
      Finset.single_le_sum (f := fun j => (s.thread j).writes) (fun _ _ => Nat.zero_le _)
        (Finset.mem_univ i)
    obtain ⟨-, hw, hr⟩ := hc.eq_mode (Nat.lt_of_lt_of_le hi hle)
    have hone : (s.thread i).writes = 1 := by omega
    refine ⟨hone, fun j => ⟨Finset.sum_eq_zero_iff.mp hr j (Finset.mem_univ j), ?_⟩⟩
    intro hj
    have hsum := Finset.add_sum_erase Finset.univ (fun j => (s.thread j).writes) (Finset.mem_univ i)
    have hrest : ∑ j ∈ Finset.univ.erase i, (s.thread j).writes = 0 := by
      simp only [LockState.writers] at hw
      omega
    exact Finset.sum_eq_zero_iff.mp hrest j (Finset.mem_erase.mpr ⟨hj, Finset.mem_univ j⟩)

/-- A reader enters and leaves around a waiting writer, which then downgrades. -/
def lockRun : List (LockAction 2) :=
  [.rlock 0, .proceed 0, .proceed 0, .wlock 1, .proceed 1, .unlock 0 .reader, .proceed 0,
    .proceed 0, .proceed 1, .proceed 1, .downgrade 1, .proceed 1]

theorem lock_word_two : ∃ es s, Reaches LockState.step LockState.Few (.new : LockState 2) es s ∧
    s.lock.toNat = 2 ^ 64 - 1 ∧ (s.writers = 1 ∧ s.readers = 0) ∧ (s.thread 1).writes = 1 ∧
      (s.thread 1).pc = .downgradeStore := by
  cases hf : Reaches.follow LockState.step LockState.Few .new lockRun with
  | none => exact absurd (congrArg Option.isSome hf) (by decide)
  | some r =>
    have hpc : (r.1.thread 1).pc = .downgradeStore := by
      have h := congrArg (Option.map fun r => (r.1.thread 1).pc) hf
      exact (Option.some.inj h).symm
    have hwrites : (r.1.thread 1).writes = 1 := by
      have h := congrArg (Option.map fun r => (r.1.thread 1).writes) hf
      exact (Option.some.inj h).symm
    have hlock : r.1.lock = wlockMode := by
      have h := congrArg (Option.map fun r => r.1.lock) hf
      exact (Option.some.inj h).symm
    have hr := Reaches.of_follow hf
    exact ⟨r.2, r.1, hr, congrArg BitVec.toNat hlock, (lock_word hr).1.mp hlock, hwrites, hpc⟩

end KirinFS.Rwlock
