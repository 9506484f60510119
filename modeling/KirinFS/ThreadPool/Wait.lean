import KirinFS.ThreadPool.PoolSteps

/-! # What a return of `stl_thread_pool_wait` means

A worker enters the counter before it pulls. So a task that is in no queue any
more when its length is read as 0 has been run to its end when the counter is
read as 0 after that.
-/

namespace KirinFS.ThreadPool
open Function Foundation.LinkedChain Foundation.Histories Foundation.Tally

section Wait
variable {n : ℕ} {count : BitVec 64} {done : Fin n → BitVec 64} {es es' : List (PoolEvent n)} {s s' : Pool n}
  {l hand hand' : Fin n → List (ℕ × Call)} {e : PoolEvent n} {w : Fin n → List (ℕ × Call)}

/-- What the waiting caller knows about the tasks `w` of each queue: they are done in the queues
he has passed, and started in the one whose length he has read. -/
def Passed (es : List (PoolEvent n)) (s : Pool n) (hand w : Fin n → List (ℕ × Call)) : Prop :=
  match s.waiter with
  | .out => True
  | .check i => ∀ j : Fin n, j.val < i → w j <+: Pool.ranBy j es
  | .asleep i => ∀ j : Fin n, j.val < i → w j <+: Pool.ranBy j es
  | .checked i => (∀ j : Fin n, j.val < i → w j <+: Pool.ranBy j es) ∧
      ∀ j : Fin n, j.val = i → w j <+: Pool.ranBy j es ++ hand j

theorem ranBy_grows (i : Fin n) (es : List (PoolEvent n)) (e : PoolEvent n) :
    Pool.ranBy i es <+: Pool.ranBy i (es ++ [e]) := by
  rw [ranBy_concat]
  exact List.prefix_append _ _

theorem pushedTo_grows (i : Fin n) (h : es <+: es') : Pool.pushedTo i es <+: Pool.pushedTo i es' := by
  obtain ⟨r, rfl⟩ := h
  rw [Pool.pushedTo, Pool.pushedTo, List.filterMap_append]
  exact List.prefix_append _ _

theorem Passed.stays (h : Passed es s hand w) (hw : s'.waiter = s.waiter)
    (hstart : ∀ i, Pool.ranBy i es ++ hand i <+: Pool.ranBy i (es ++ [e]) ++ hand' i) :
    Passed (es ++ [e]) s' hand' w := by
  rw [Passed] at h ⊢
  rw [hw]
  cases hs : s.waiter with
  | out => trivial
  | check i =>
    rw [hs] at h
    exact fun j hj => (h j hj).trans (ranBy_grows j es e)
  | asleep i =>
    rw [hs] at h
    exact fun j hj => (h j hj).trans (ranBy_grows j es e)
  | checked i =>
    rw [hs] at h
    exact ⟨fun j hj => (h.1 j hj).trans (ranBy_grows j es e),
      fun j hj => (h.2 j hj).trans (hstart j)⟩

/-- With the counter at 0 nobody has a task in his hands. -/
theorem PoolInv.hand_nil (h : PoolInv es s l hand) (hcount : s.numThreadsWorking = 0) (i : Fin n) :
    hand i = [] := by
  have hzero : tally PoolWorker.working s.worker = 0 := by
    rw [← h.working, hcount]
    rfl
  have hidle := tally_eq_zero.mp hzero i
  refine (PoolWorker.hand_free fun a ha => ?_).mp (h.hands i)
  rw [ha] at hidle
  cases hidle

theorem Passed.moves (h : Passed es s hand w) {v : Waiter} (hm : WaiterMove s e v)
    (hi : PoolInv (es ++ [e]) { s with waiter := v } l hand')
    (hw : ∀ i, w i <+: Pool.pushedTo i (es ++ [e]))
    (hstart : ∀ i, Pool.ranBy i es ++ hand i <+: Pool.ranBy i (es ++ [e]) ++ hand' i) :
    Passed (es ++ [e]) { s with waiter := v } hand' w := by
  rw [Passed] at h
  cases hm with
  | begins hs => exact fun j hj => absurd hj (Nat.not_lt_zero _)
  | filled hs =>
    rw [hs] at h
    exact fun j hj => (h j hj).trans (ranBy_grows j es _)
  | @empty i hs hin hlen =>
    rw [hs] at h
    refine ⟨fun j hj => (h j hj).trans (ranBy_grows j es _), ?_⟩
    rintro j rfl
    have hbound := hi.bound j
    have hnil : l j = [] := ((hi.linked j).len_eq_zero (by omega)).mp hlen
    have hist := hi.history j
    rw [hnil, List.append_nil] at hist
    rw [hist]
    exact hw j
  | working hs =>
    rw [hs] at h
    exact fun j hj => (h.1 j hj).trans (ranBy_grows j es _)
  | @idle i hs hcount =>
    rw [hs] at h
    intro j hj
    rcases Nat.lt_or_eq_of_le (Nat.le_of_lt_succ hj) with hlt | heq
    · exact (h.1 j hlt).trans (ranBy_grows j es _)
    · have hstarted := (h.2 j heq).trans (hstart j)
      rw [hi.hand_nil hcount j, List.append_nil] at hstarted
      exact hstarted
  | wakes hs =>
    rw [hs] at h
    exact fun j hj => (h j hj).trans (ranBy_grows j es _)
  | returns hs hin => trivial

/-- The run lemma: what holds of the pool, and what is known since each begin of a wait. -/
theorem pool_inv (hn : n < 2 ^ 31)
    (h : Reaches Pool.step Pool.Fits (Pool.started n count done) es s) :
    ∃ l hand, PoolInv es s l hand ∧
      ∀ es₁, es₁ ++ [.waitBegins] <+: es → Passed es s hand fun i => Pool.pushedTo i es₁ := by
  apply h.invariant ⟨_, _, poolInv_started n count done, fun es₁ hes₁ => absurd hes₁ (by simp)⟩
  rintro es s a s' e ⟨l, hand, hi, hp⟩ hok hstep
  obtain ⟨l', hand', hi', hstart⟩ := hi.step hn hok hstep
  refine ⟨l', hand', hi', ?_⟩
  intro es₁ hes₁
  cases ha : a.waits with
  | false =>
    obtain ⟨hw, hbegins, -⟩ := Pool.step_stays ha hstep
    rcases List.prefix_concat_iff.mp hes₁ with heq | hes₁
    · exact absurd (List.append_inj' heq rfl).2 (by simpa using hbegins.symm)
    · exact (hp es₁ hes₁).stays hw hstart
  | true =>
    obtain ⟨v, rfl, hm⟩ := Pool.step_waits ha hstep
    have hpushed : ∀ i, Pool.pushedTo i es₁ <+: Pool.pushedTo i (es ++ [e]) := fun i =>
      pushedTo_grows i ((List.prefix_append _ _).trans hes₁)
    rcases List.prefix_concat_iff.mp hes₁ with heq | hes₁
    · obtain ⟨-, he⟩ := List.append_inj' heq rfl
      cases he
      cases hm
      exact fun j hj => absurd hj (Nat.not_lt_zero _)
    · exact (hp es₁ hes₁).moves hm hi' hpushed hstart

/-- When a wait returns, every task that was pushed before it began has run to its end. -/
theorem wait_finishes (hn : n < 2 ^ 31) {es₁ es₂ : List (PoolEvent n)} {s : Pool n}
    (h : Reaches Pool.step Pool.Fits (Pool.started n count done)
      (es₁ ++ .waitBegins :: es₂ ++ [.waitReturns]) s)
    (i : Fin n) : Pool.pushedTo i es₁ <+: Pool.ranBy i (es₁ ++ .waitBegins :: es₂) := by
  obtain ⟨s₁, a, h₁, -, hstep⟩ := h.last
  obtain ⟨l, hand, -, hp⟩ := pool_inv hn h₁
  have hpassed := hp es₁ ⟨es₂, by simp⟩
  cases ha : a.waits with
  | false => exact absurd rfl (Pool.step_stays ha hstep).2.2
  | true =>
    obtain ⟨v, -, hm⟩ := Pool.step_waits ha hstep
    cases hm with
    | returns hs hin =>
      rw [Passed, hs] at hpassed
      exact hpassed i (lt_of_lt_of_le i.isLt hin)

end Wait

def second : Fin 2 := ⟨1, Nat.lt_succ_self 1⟩

/-- He runs the task of his queue while the caller waits for it. -/
def waitRun : List (PoolAction 2) :=
  [.alloc 0 16 (some 1) (some 2), .count 0, .index 0, .push 0, .begin, .readLen, .readWorking,
    .readLen, .wait second, .enter second, .pull second, .run second, .wake, .readLen,
    .readWorking, .leave second, .wake, .readLen, .readWorking, .ret]

/-- What is seen of it before the wait begins and until it returns. -/
def waitRunEvents : List (PoolEvent 2) × List (PoolEvent 2) :=
  ([.silent, .silent, .silent, .pushed second (16, some 1, some 2)],
    [.silent, .silent, .silent, .silent, .silent, .silent, .ran second (16, some 1, some 2),
      .silent, .silent, .silent, .silent, .silent, .silent, .silent])

theorem wait_finishes_two : ∃ es₁ es₂ s,
    Reaches Pool.step Pool.Fits (Pool.started 2 40 fun _ => 0)
      (es₁ ++ PoolEvent.waitBegins :: es₂ ++ [PoolEvent.waitReturns]) s ∧
      [(16, some 1, some 2)] <+: Pool.ranBy second (es₁ ++ PoolEvent.waitBegins :: es₂) := by
  have hevents : (Reaches.follow Pool.step Pool.Fits (Pool.started 2 40 fun _ => 0)
      waitRun).map Prod.snd =
      some (waitRunEvents.1 ++ PoolEvent.waitBegins :: waitRunEvents.2 ++ [PoolEvent.waitReturns]) := by
    decide +kernel
  obtain ⟨r, hf, hr⟩ := Option.map_eq_some_iff.mp hevents
  have hreach := Reaches.of_follow hf
  rw [hr] at hreach
  exact ⟨_, _, _, hreach, wait_finishes (by decide) hreach second⟩

/-- One caller has pushed `k` tasks to the only queue, and nobody else has done anything. -/
structure OnlyPushed (k : ℕ) (es : List (PoolEvent 1)) (s : Pool 1) (l : List (ℕ × Call)) :
    Prop where
  reaches : Reaches Pool.step (fun _ _ => True) (Pool.started 1 0 fun _ => 0) es s
  linked : Linked (s.queue 0) s.heap l
  length : l.length = k
  below : ∀ x ∈ l, x.1 < k
  fresh : ∀ a, k ≤ a → s.heap a = none
  idle : s.producer 0 = .idle
  count : s.numThreadsWorking = 0
  waiter : s.waiter = .out
  pushed : (Pool.pushedTo 0 es).length = k
  ran : Pool.ranBy 0 es = []

/-- Without the guard one caller can push any number of tasks. -/
theorem pool_fill {k : ℕ} (hk : k ≤ 2 ^ 32) : ∃ es s l, OnlyPushed k es s l := by
  induction k with
  | zero =>
    exact ⟨[], .started 1 0 0, [], .start, linked_empty _, rfl, by simp, fun _ _ => rfl, rfl, rfl, rfl, rfl,
      rfl⟩
  | succ k ih =>
    obtain ⟨es, s, l, h⟩ := ih (by omega)
    let s₁ : Pool 1 := { s with
      heap := update s.heap k (some (taskAlloc (some 1) (some 1)))
      producer := update s.producer 0 (.allocated k) }
    let s₂ : Pool 1 := { s₁ with
      hisTaskNum := s.hisTaskNum + 1
      producer := update s₁.producer 0 (.counted k) }
    let s₃ : Pool 1 := { s₂ with producer := update s₂.producer 0 (.indexed k 0) }
    have h₁ : s.step (.alloc 0 k (some 1) (some 1)) = some (s₁, .silent) :=
      if_pos ⟨h.idle, h.fresh k (Nat.le_refl k)⟩
    have h₂ : s₁.step (.count 0) = some (s₂, .silent) := by
      have hp : s₁.producer 0 = .allocated k := by simp only [s₁, update_self]
      simp only [Pool.step, hp]
      rfl
    have h₃ : s₂.step (.index 0) = some (s₃, .silent) := by
      have hp : s₂.producer 0 = .counted k := by simp only [s₂, update_self]
      have hindex : s₂.hisTaskNum.toNat % 1 < 1 := Nat.mod_lt _ Nat.one_pos
      simp only [Pool.step, hp, dif_pos hindex]
      congr 3
      exact congrArg _ (congrArg _ (Subsingleton.elim _ _))
    have hk₃ : s₃.heap k = some (taskAlloc (some 1) (some 1)) := update_self _ _ _
    have hne : ∀ x ∈ l, x.1 ≠ k := fun x hx => Nat.ne_of_lt (h.below x hx)
    have hlinked₃ : Linked (s₃.queue 0) s₃.heap l :=
      h.linked.frame fun x hx => update_of_ne (hne x hx) _ _
    have hlen := h.length
    obtain ⟨q, heap, heq, hlinked, -, hframe, -⟩ := hlinked₃.push (by omega) hk₃ hne
    let s₄ : Pool 1 := { s₃ with
      heap := heap
      queue := update s₃.queue 0 q
      producer := update s₃.producer 0 .idle }
    have h₄ : s₃.step (.push 0) =
        some (s₄, .pushed 0 (k, (taskAlloc (some 1) (some 1)).call)) := by
      have hp : s₃.producer 0 = .indexed k 0 := by simp only [s₃, update_self]
      simp only [Pool.step, hp, hk₃, heq, Option.bind_eq_bind, Option.bind_some]
      rfl
    have hreach := (((h.reaches.next trivial h₁).next trivial h₂).next trivial h₃).next trivial h₄
    have hcount : s₄.numThreadsWorking = 0 := h.count
    have hwaiter : s₄.waiter = .out := h.waiter
    refine ⟨_, s₄, l ++ [(k, (taskAlloc (some 1) (some 1)).call)],
      ⟨hreach, ?_, ?_, ?_, ?_, ?_, hcount, hwaiter, ?_, ?_⟩⟩
    · change Linked (update s₃.queue 0 q 0) heap _
      rw [update_self]
      exact hlinked
    · rw [List.length_append, List.length_singleton, hlen]
    · intro x hx
      rcases List.mem_append.mp hx with hx | hx
      · exact Nat.lt_succ_of_lt (h.below x hx)
      · rw [List.mem_singleton.mp hx]
        exact Nat.lt_succ_self k
    · intro a ha
      have hold : ∀ x ∈ l, x.1 ≠ a := fun x hx =>
        Nat.ne_of_lt (Nat.lt_of_lt_of_le (h.below x hx) (Nat.le_of_succ_le ha))
      refine (hframe a (by omega) hold).trans ?_
      change update s.heap k _ a = none
      rw [update_of_ne (by omega)]
      exact h.fresh a (by omega)
    · simp only [s₄, update_self]
    · rw [pushedTo_concat, pushedTo_concat, pushedTo_concat, pushedTo_concat]
      simp [Pool.pushedTo, ← h.pushed]
    · rw [ranBy_concat, ranBy_concat, ranBy_concat, ranBy_concat, h.ran]
      rfl

/-- With `2 ^ 32` tasks linked the length reads 0, and a wait returns at once. -/
theorem wait_returns_early : ∃ es₁ s,
    Reaches Pool.step (fun _ _ => True) (Pool.started 1 0 fun _ => 0)
      (es₁ ++ PoolEvent.waitBegins :: [PoolEvent.silent, PoolEvent.silent] ++
        [PoolEvent.waitReturns]) s ∧
    (Pool.pushedTo 0 es₁).length = 2 ^ 32 ∧
    Pool.ranBy 0 (es₁ ++ PoolEvent.waitBegins :: [PoolEvent.silent, PoolEvent.silent]) = [] := by
  obtain ⟨es, s, l, h⟩ := @pool_fill (2 ^ 32) (by decide)
  have hlen : (s.queue 0).len = 0 := by
    rw [h.linked.len, h.length]
    decide
  have h₁ : s.step .begin = some ({ s with waiter := .check 0 }, .waitBegins) := if_pos h.waiter
  have h₂ : Pool.step { s with waiter := .check 0 } .readLen =
      some ({ s with waiter := .checked 0 }, .silent) := by
    simp [Pool.step, hlen]
  have h₃ : Pool.step { s with waiter := .checked 0 } .readWorking =
      some ({ s with waiter := .check 1 }, .silent) := by
    simp [Pool.step, h.count]
  have h₄ : Pool.step { s with waiter := .check 1 } .ret =
      some ({ s with waiter := .out }, .waitReturns) := by
    simp [Pool.step]
  have hreach := (((h.reaches.next trivial h₁).next trivial h₂).next trivial h₃).next trivial h₄
  refine ⟨es, { s with waiter := .out }, ?_, h.pushed, ?_⟩
  · simpa using hreach
  · rw [Pool.ranBy, List.filterMap_append]
    exact List.append_eq_nil_iff.mpr ⟨h.ran, rfl⟩

end KirinFS.ThreadPool
