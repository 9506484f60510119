import KirinFS.Foundation.Histories
import KirinFS.Foundation.Holders
import KirinFS.ThreadPool.Linked

/-! # Producers and the worker of one queue

Any producer may take a step at any time, and so may the worker. A producer
owns the task it has allocated until it pushes it, the worker the one it pulled.
-/

namespace KirinFS.ThreadPool
open Function Foundation.LinkedChain Foundation.Histories Foundation.Holders

inductive LaneWorker where
  | atWait
  | between
  | busy (task : Option ℕ)
  deriving DecidableEq, Repr

structure Lane where
  heap : Tasks
  queue : TaskQueue
  held : ℕ → Option ℕ
  worker : LaneWorker

inductive LaneAction where
  | alloc (p a : ℕ) (func argP : Option ℕ)
  | push (p : ℕ)
  | wait
  | pull
  | release

inductive LaneEvent where
  | silent
  | pushed (x : ℕ × Call)
  | pulled (x : Option (ℕ × Call))

namespace Lane

/-- An empty queue, before anybody has taken a step. -/
def new : Lane := ⟨fun _ => none, taskQueueAlloc, fun _ => none, .atWait⟩

/-- One step; `none` where the action is not possible. -/
def step (s : Lane) : LaneAction → Option (Lane × LaneEvent)
  | .alloc p a func argP =>
    if s.held p = none ∧ s.heap a = none then
      some ({ s with heap := update s.heap a (some (taskAlloc func argP))
                     held := update s.held p (some a) }, .silent)
    else none
  | .push p => do
    let a ← s.held p
    let t ← s.heap a
    let (queue, heap) ← s.queue.taskQueuePush s.heap a
    some ({ s with heap := heap, queue := queue, held := update s.held p none },
      .pushed (a, t.call))
  | .wait =>
    if s.worker = .atWait then
      s.queue.hasJobs.bsemWait.map fun b =>
        ({ s with queue := { s.queue with hasJobs := b }, worker := .between }, .silent)
    else none
  | .pull =>
    if s.worker = .between then
      (s.queue.taskQueuePull s.heap).map fun r =>
        ({ s with queue := r.1, worker := .busy r.2 },
          .pulled (r.2.bind fun a => (s.heap a).map fun t => (a, t.call)))
    else none
  | .release =>
    match s.worker with
    | .busy (some a) => some ({ s with heap := update s.heap a none, worker := .atWait }, .silent)
    | .busy none => some ({ s with worker := .atWait }, .silent)
    | _ => none

/-- No push starts with the counter at its maximum. -/
def Fits (s : Lane) : LaneAction → Prop
  | .push _ => s.queue.len ≠ intMax
  | _ => True

instance (s : Lane) : (a : LaneAction) → Decidable (s.Fits a)
  | .push _ => inferInstanceAs (Decidable (s.queue.len ≠ intMax))
  | .alloc .. => inferInstanceAs (Decidable True)
  | .wait => inferInstanceAs (Decidable True)
  | .pull => inferInstanceAs (Decidable True)
  | .release => inferInstanceAs (Decidable True)

end Lane

def pushedOf (es : List LaneEvent) : List (ℕ × Call) :=
  es.filterMap fun e => match e with
    | .pushed x => some x
    | _ => none

def pulledOf (es : List LaneEvent) : List (Option (ℕ × Call)) :=
  es.filterMap fun e => match e with
    | .pulled x => some x
    | _ => none

inductive LaneOwner where
  | producer (p : ℕ)
  | queue
  | worker
  deriving DecidableEq

def Lane.Holds (s : Lane) (l : List (ℕ × Call)) : LaneOwner → ℕ → Prop
  | .producer p, a => s.held p = some a
  | .queue, a => ∃ x ∈ l, x.1 = a
  | .worker, a => s.worker = .busy (some a)

/-- What holds after the events `es`, with the linked tasks `l`. -/
structure LaneInv (es : List LaneEvent) (s : Lane) (l : List (ℕ × Call)) : Prop where
  linked : Linked s.queue s.heap l
  bound : l.length < 2 ^ 31
  exclusive : Exclusive s.heap (s.Holds l)
  woken : s.worker = .between → l ≠ [] ∧ (s.queue.hasJobs.v = 1 → 1 < l.length)
  ready : s.worker ≠ .between → (s.queue.hasJobs.v = 1 ↔ l ≠ [])
  history : pulledOf es ++ l.map some = (pushedOf es).map some

section Steps
variable {es : List LaneEvent} {s s' : Lane} {l : List (ℕ × Call)} {e : LaneEvent}

theorem laneInv_new : LaneInv [] Lane.new [] where
  linked := linked_empty _
  bound := by decide
  exclusive := by
    constructor
    · intro o a h
      cases o <;> simp [Lane.Holds, Lane.new] at h
    · intro o o' a h
      cases o <;> simp [Lane.Holds, Lane.new] at h
  woken := by simp [Lane.new]
  ready := by simp [Lane.new, taskQueueAlloc]
  history := rfl

theorem history_silent (h : pulledOf es ++ l.map some = (pushedOf es).map some) :
    pulledOf (es ++ [.silent]) ++ l.map some = (pushedOf (es ++ [.silent])).map some := by
  rw [pulledOf, pushedOf, List.filterMap_append, List.filterMap_append]
  simpa [pulledOf, pushedOf] using h

theorem LaneInv.alloc (h : LaneInv es s l) {p a : ℕ} {func argP : Option ℕ}
    (hstep : s.step (.alloc p a func argP) = some (s', e)) : ∃ l', LaneInv (es ++ [e]) s' l' := by
  rw [Lane.step] at hstep
  split at hstep
  · next hfree =>
    obtain ⟨hp, ha⟩ := hfree
    cases hstep
    have hne := fun o b => h.exclusive.ne_of_none (o := o) (b := b) ha
    refine ⟨l,
      { linked := h.linked.frame fun x hx => update_of_ne (hne .queue _ ⟨x, hx, rfl⟩) _ _
        bound := h.bound
        exclusive := ?_
        woken := h.woken
        ready := h.ready
        history := history_silent h.history }⟩
    apply h.exclusive.alloc (o := .producer p) ha
    intro o b hb
    cases o with
    | producer r =>
      change update s.held p (some a) r = some b at hb
      by_cases hr : r = p
      · rw [hr, update_self] at hb
        exact Or.inl ⟨congrArg _ hr, (Option.some.inj hb).symm⟩
      · rw [update_of_ne hr] at hb
        exact Or.inr hb
    | queue => exact Or.inr hb
    | worker => exact Or.inr hb
  · cases hstep

theorem LaneInv.push_defined (h : LaneInv es s l) {p a : ℕ} (hp : s.held p = some a) :
    ∃ (t : Task) (queue : TaskQueue) (heap : Tasks), s.step (.push p) =
        some ({ s with heap := heap, queue := queue, held := update s.held p none },
          .pushed (a, t.call)) ∧
      Linked queue heap (l ++ [(a, t.call)]) ∧ queue.hasJobs.v = 1 ∧
      ∀ b, (heap b).isSome = (s.heap b).isSome := by
  obtain ⟨t, ht⟩ := Option.isSome_iff_exists.mp (h.exclusive.alive (.producer p) a hp)
  have hnew : ∀ x ∈ l, x.1 ≠ a := fun x hx =>
    h.exclusive.ne_of_ne .queue (.producer p) (by simp) ⟨x, hx, rfl⟩ hp
  have hb := h.bound
  obtain ⟨queue, heap, heq, hlinked, hv, -, hkeep⟩ := h.linked.push (by omega) ht hnew
  refine ⟨t, queue, heap, ?_, hlinked, hv, hkeep⟩
  simp only [Lane.step, hp, ht, heq, Option.bind_eq_bind, Option.bind_some]

theorem LaneInv.push (h : LaneInv es s l) {p : ℕ} (hok : s.Fits (.push p))
    (hstep : s.step (.push p) = some (s', e)) : ∃ l', LaneInv (es ++ [e]) s' l' := by
  cases hp : s.held p with
  | none => simp [Lane.step, hp] at hstep
  | some a =>
    obtain ⟨t, queue, heap, heq, hlinked, hv, hkeep⟩ := h.push_defined hp
    rw [heq] at hstep
    cases hstep
    have hheld : s.Holds l (.producer p) a := hp
    have hlen : l.length + 1 < 2 ^ 31 := by
      have hfull : s.queue.len.toNat ≠ 2 ^ 31 - 1 := fun heq => hok (BitVec.toNat_inj.mp heq)
      have hb := h.bound
      rw [h.linked.len_toNat (by omega)] at hfull
      omega
    refine ⟨l ++ [(a, t.call)],
      { linked := hlinked
        bound := by rw [List.length_append]; exact hlen
        exclusive := ?_
        woken := ?_
        ready := fun _ => by simp [hv]
        history := ?_ }⟩
    · apply h.exclusive.hand_over (o := .queue) hheld hkeep
      intro o b hb
      cases o with
      | producer r =>
        change update s.held p none r = some b at hb
        have hr : r ≠ p := by
          rintro rfl
          rw [update_self] at hb
          cases hb
        rw [update_of_ne hr] at hb
        exact Or.inr ⟨hb, by simp [hr]⟩
      | queue =>
        obtain ⟨x, hx, rfl⟩ := hb
        rcases List.mem_append.mp hx with hx | hx
        · exact Or.inr ⟨⟨x, hx, rfl⟩, by simp⟩
        · exact Or.inl ⟨rfl, by rw [List.mem_singleton.mp hx]⟩
      | worker => exact Or.inr ⟨hb, by simp⟩
    · intro hw
      have hpos := List.length_pos_iff.mpr (h.woken hw).1
      refine ⟨by simp, fun _ => ?_⟩
      rw [List.length_append, List.length_singleton]
      omega
    · have hist := h.history
      simp only [pulledOf, pushedOf, List.filterMap_append, List.map_append] at hist ⊢
      simp only [List.filterMap_cons, List.filterMap_nil, List.append_nil, List.map_cons,
        List.map_nil, ← hist, List.append_assoc]

theorem LaneInv.wait (h : LaneInv es s l) (hstep : s.step .wait = some (s', e)) :
    ∃ l', LaneInv (es ++ [e]) s' l' := by
  rw [Lane.step] at hstep
  split at hstep
  · next hat =>
    by_cases hv : s.queue.hasJobs.v = 1
    · simp only [Bsem.bsemWait, hv, ne_eq, not_true_eq_false, if_false, Option.map_some] at hstep
      cases hstep
      have hne : l ≠ [] := (h.ready (by rw [hat]; simp)).mp hv
      refine ⟨l,
        { linked := h.linked.withJobs _
          bound := h.bound
          exclusive := ?_
          woken := fun _ => ⟨hne, by simp⟩
          ready := by simp
          history := history_silent h.history }⟩
      apply h.exclusive.mono
      intro o b hb
      cases o with
      | producer r => exact hb
      | queue => exact hb
      | worker => cases hb
    · simp [Bsem.bsemWait, hv] at hstep
  · cases hstep

/-- After a completed wait the pull returns the task in front. -/
theorem LaneInv.pull_defined (h : LaneInv es s l) (hw : s.worker = .between) :
    ∃ x k queue, l = x :: k ∧ Linked queue s.heap k ∧
      queue.hasJobs.v = (if 1 < l.length then 1 else s.queue.hasJobs.v) ∧
      s.step .pull =
        some ({ s with queue := queue, worker := .busy (some x.1) }, .pulled (some x)) := by
  have hb := h.bound
  obtain ⟨queue, heq, hlinked, hv⟩ := h.linked.pull (by omega)
  cases l with
  | nil => exact absurd rfl (h.woken hw).1
  | cons x k =>
    obtain ⟨t, ht, hcall⟩ := h.linked.chain.node (e := x) (by simp)
    refine ⟨x, k, queue, rfl, hlinked, hv, ?_⟩
    simp only [Lane.step, hw, heq, List.head?_cons, Option.map_some, if_true, Option.bind_some, ht]
    rw [show t.call = x.2 from hcall]

theorem LaneInv.pull (h : LaneInv es s l) (hstep : s.step .pull = some (s', e)) :
    ∃ l', LaneInv (es ++ [e]) s' l' := by
  by_cases hw : s.worker = .between
  · obtain ⟨x, k, queue, rfl, hlinked, hv, heq⟩ := h.pull_defined hw
    rw [heq] at hstep
    cases hstep
    have hnodup := h.linked.nodup
    rw [List.map_cons, List.nodup_cons] at hnodup
    have hx : s.Holds (x :: k) .queue x.1 := ⟨x, by simp, rfl⟩
    have hb := h.bound
    rw [List.length_cons] at hb
    refine ⟨k,
      { linked := hlinked
        bound := by omega
        exclusive := ?_
        woken := by simp
        ready := ?_
        history := ?_ }⟩
    · apply h.exclusive.hand_over (o := .worker) hx fun _ => rfl
      intro o b hb
      cases o with
      | producer r => exact Or.inr ⟨hb, by simp⟩
      | queue =>
        obtain ⟨y, hy, rfl⟩ := hb
        have hyx : y.1 ≠ x.1 := fun heq => hnodup.1 (List.mem_map.mpr ⟨y, hy, heq⟩)
        exact Or.inr ⟨⟨y, List.mem_cons_of_mem x hy, rfl⟩, fun _ => hyx⟩
      | worker =>
        cases hb
        exact Or.inl ⟨rfl, rfl⟩
    · intro _
      have hold := (h.woken hw).2
      rw [List.length_cons] at hold hv
      cases k with
      | nil =>
        have hzero : s.queue.hasJobs.v ≠ 1 := fun h1 => absurd (hold h1) (by simp)
        simpa [hv] using hzero
      | cons y k => simp [hv]
    · have hist := h.history
      simp only [pulledOf, pushedOf, List.filterMap_append] at hist ⊢
      simp only [List.filterMap_cons, List.filterMap_nil, List.append_nil, ← hist, List.map_cons,
        List.append_assoc, List.singleton_append]
  · simp [Lane.step, hw] at hstep

theorem LaneInv.release (h : LaneInv es s l) (hstep : s.step .release = some (s', e)) :
    ∃ l', LaneInv (es ++ [e]) s' l' := by
  cases hw : s.worker with
  | atWait => simp [Lane.step, hw] at hstep
  | between => simp [Lane.step, hw] at hstep
  | busy r =>
    have hready := h.ready (by rw [hw]; simp)
    cases r with
    | none =>
      simp only [Lane.step, hw] at hstep
      cases hstep
      refine ⟨l,
        { linked := h.linked
          bound := h.bound
          exclusive := ?_
          woken := by simp
          ready := fun _ => hready
          history := history_silent h.history }⟩
      apply h.exclusive.mono
      intro o b hb
      cases o with
      | producer r => exact hb
      | queue => exact hb
      | worker => cases hb
    | some a =>
      simp only [Lane.step, hw] at hstep
      cases hstep
      have hne := fun o b (ho : o ≠ .worker) (hb : s.Holds l o b) =>
        h.exclusive.ne_of_ne o .worker (c := a) ho hb hw
      refine ⟨l,
        { linked := h.linked.frame fun x hx =>
            update_of_ne (hne .queue x.1 (by simp) ⟨x, hx, rfl⟩) _ _
          bound := h.bound
          exclusive := ?_
          woken := by simp
          ready := fun _ => hready
          history := history_silent h.history }⟩
      have hheld : s.Holds l .worker a := hw
      apply h.exclusive.free hheld
      intro o b hb
      cases o with
      | producer r => exact ⟨hb, by simp⟩
      | queue => exact ⟨hb, by simp⟩
      | worker => cases hb

theorem LaneInv.step {a : LaneAction} (h : LaneInv es s l) (hok : s.Fits a)
    (hstep : s.step a = some (s', e)) : ∃ l', LaneInv (es ++ [e]) s' l' := by
  cases a with
  | alloc p a func argP => exact h.alloc hstep
  | push p => exact h.push hok hstep
  | wait => exact h.wait hstep
  | pull => exact h.pull hstep
  | release => exact h.release hstep

end Steps

theorem lane_inv {es : List LaneEvent} {s : Lane} (h : Reaches Lane.step Lane.Fits .new es s) :
    ∃ l, LaneInv es s l := by
  apply h.invariant ⟨[], laneInv_new⟩
  rintro es s a s' e ⟨l, hl⟩ hok hstep
  exact hl.step hok hstep

/-- In every interleaving the tasks come out in the order they went in, each once, no pull comes
back empty, and the semaphore is up whenever a task waits for a worker that is not on its way. -/
theorem lane_fifo {es : List LaneEvent} {s : Lane} (h : Reaches Lane.step Lane.Fits .new es s) :
    ∃ l, Chain Task.view s.heap s.queue.front l ∧
      pulledOf es ++ l.map some = (pushedOf es).map some ∧
      s.queue.len.toInt = l.length ∧
      (l ≠ [] → s.worker ≠ .between → s.queue.hasJobs.v = 1) ∧
      (s.worker = .between → ∃ x s', s.step .pull = some (s', .pulled (some x))) ∧
      ∀ p, (s.held p).isSome → (s.step (.push p)).isSome := by
  obtain ⟨l, hl⟩ := lane_inv h
  refine ⟨l, hl.linked.chain, hl.history, hl.linked.len_toInt hl.bound, ?_, ?_, ?_⟩
  · intro hne hw
    exact (hl.ready hw).mpr hne
  · intro hw
    obtain ⟨x, _, _, _, _, _, heq⟩ := hl.pull_defined hw
    exact ⟨x, _, heq⟩
  · intro p hp
    obtain ⟨a, ha⟩ := Option.isSome_iff_exists.mp hp
    obtain ⟨_, _, _, heq, _⟩ := hl.push_defined ha
    rw [heq]
    rfl

/-- Two producers push, the worker pulls, and a third push lands before its next wait. -/
def laneRun : List LaneAction :=
  [.alloc 0 16 (some 1) (some 2), .alloc 1 32 (some 1) (some 3), .push 1, .push 0, .wait, .pull,
    .alloc 1 48 (some 1) (some 4), .push 1, .release, .wait]

theorem lane_fifo_two_producers : ∃ es s l, Reaches Lane.step Lane.Fits .new es s ∧
    Chain Task.view s.heap s.queue.front l ∧
    pulledOf es = [some (32, some 1, some 3)] ∧
    l.map some = [some (16, some 1, some 2), some (48, some 1, some 4)] ∧
    ∃ x s', s.step .pull = some (s', .pulled (some x)) := by
  cases hf : Reaches.follow Lane.step Lane.Fits .new laneRun with
  | none => exact absurd (congrArg Option.isSome hf) (by decide)
  | some r =>
    have hpulled : pulledOf r.2 = [some (32, some 1, some 3)] := by
      have h := congrArg (Option.map fun r => pulledOf r.2) hf
      exact (Option.some.inj h).symm
    have hpushed : (pushedOf r.2).map some = [some (32, some 1, some 3), some (16, some 1, some 2),
        some (48, some 1, some 4)] := by
      have h := congrArg (Option.map fun r => (pushedOf r.2).map some) hf
      exact (Option.some.inj h).symm
    have hworker : r.1.worker = .between := by
      have h := congrArg (Option.map fun r => r.1.worker) hf
      exact (Option.some.inj h).symm
    obtain ⟨l, hl, hist, -, -, hpull, -⟩ := lane_fifo (Reaches.of_follow hf)
    rw [hpulled, hpushed] at hist
    exact ⟨r.2, r.1, l, Reaches.of_follow hf, hl, hpulled, List.cons.inj hist |>.2, hpull hworker⟩

/-- Without the guard one producer can link any number of tasks. -/
theorem lane_fill {k : ℕ} (hk : k ≤ 2 ^ 32) : ∃ es s l,
    Reaches Lane.step (fun _ _ => True) .new es s ∧ Linked s.queue s.heap l ∧ l.length = k ∧
      s.held 0 = none ∧ (∀ a, k ≤ a → s.heap a = none) ∧ ∀ x ∈ l, x.1 < k := by
  induction k with
  | zero => exact ⟨[], .new, [], .start, linked_empty _, rfl, rfl, fun _ _ => rfl, by simp⟩
  | succ k ih =>
    obtain ⟨es, s, l, hreach, hlinked, hlen, hheld, hfree, hlt⟩ := ih (by omega)
    let s₁ : Lane := { s with
      heap := update s.heap k (some (taskAlloc (some 1) (some 1)))
      held := update s.held 0 (some k) }
    have hne : ∀ x ∈ l, x.1 ≠ k := fun x hx => Nat.ne_of_lt (hlt x hx)
    have halloc : s.step (.alloc 0 k (some 1) (some 1)) = some (s₁, .silent) :=
      if_pos ⟨hheld, hfree k (Nat.le_refl k)⟩
    have hk₁ : s₁.heap k = some (taskAlloc (some 1) (some 1)) := update_self _ _ _
    have hlinked₁ : Linked s₁.queue s₁.heap l :=
      hlinked.frame fun x hx => update_of_ne (hne x hx) _ _
    obtain ⟨queue, heap, heq, hlinked₂, -, hframe, -⟩ := hlinked₁.push (by omega) hk₁ hne
    have hpush : s₁.step (.push 0) = some ({ s₁ with
        heap := heap, queue := queue, held := update s₁.held 0 none },
        .pushed (k, (taskAlloc (some 1) (some 1)).call)) := by
      have hh : s₁.held 0 = some k := by
        change update s.held 0 (some k) 0 = some k
        rw [update_self]
      simp only [Lane.step, hh, hk₁, heq, Option.bind_eq_bind, Option.bind_some]
    refine ⟨_, _, _, (hreach.next trivial halloc).next trivial hpush, hlinked₂, ?_,
      ?_, ?_, ?_⟩
    · rw [List.length_append, List.length_singleton, hlen]
    · change update s₁.held 0 none 0 = none
      rw [update_self]
    · intro a ha
      change heap a = none
      have hold : ∀ x ∈ l, x.1 ≠ a := fun x hx => Nat.ne_of_lt (Nat.lt_of_lt_of_le (hlt x hx) (by omega))
      rw [hframe a (by omega) hold]
      change update s.heap k _ a = none
      rw [update_of_ne (by omega)]
      exact hfree a (by omega)
    · intro x hx
      rcases List.mem_append.mp hx with hx | hx
      · exact Nat.lt_succ_of_lt (hlt x hx)
      · rw [List.mem_singleton.mp hx]
        omega

/-- With `2 ^ 31` tasks linked the counter is negative. -/
theorem lane_overflow : ∃ es s l, Reaches Lane.step (fun _ _ => True) .new es s ∧
    Chain Task.view s.heap s.queue.front l ∧ l.length = 2 ^ 31 ∧ s.queue.len.toInt = -2147483648 := by
  obtain ⟨es, s, l, hreach, hlinked, hlen, -⟩ := @lane_fill (2 ^ 31) (by decide)
  refine ⟨es, s, l, hreach, hlinked.chain, hlen, ?_⟩
  rw [hlinked.len, hlen]
  decide

end KirinFS.ThreadPool
