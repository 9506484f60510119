import KirinFS.Foundation.Histories
import KirinFS.Foundation.Holders
import KirinFS.Foundation.Tally
import KirinFS.ThreadPool.Linked

/-! # The pool: callers, workers and one caller that waits

Worker `i` serves queue `i`. Every step is one atomic operation or one critical
section, and any party may take the next one. The caller of
`stl_thread_pool_wait` reads a queue's length and the working counter in two
steps; a condition variable may wake it at any time.
-/

namespace KirinFS.ThreadPool
open Function Foundation.LinkedChain Foundation.Histories Foundation.Holders Foundation.Tally

/-- Where a worker stands in the loop of `stl_thread_do`. -/
inductive PoolWorker where
  | atWait
  | woken
  | counted
  | busy (task : ℕ)
  | leaving
  deriving DecidableEq

/-- Where a caller of `stl_thread_pool_add_task` stands. -/
inductive Producer (n : ℕ) where
  | idle
  | allocated (task : ℕ)
  | counted (task : ℕ)
  | indexed (task : ℕ) (index : Fin n)
  deriving DecidableEq

/-- The queue that the caller pushes to is not full. -/
def Producer.Room {n : ℕ} (queue : Fin n → TaskQueue) : Producer n → Prop
  | .indexed _ i => (queue i).len ≠ intMax
  | _ => True

instance {n : ℕ} (queue : Fin n → TaskQueue) : (c : Producer n) → Decidable (c.Room queue)
  | .indexed _ i => inferInstanceAs (Decidable ((queue i).len ≠ intMax))
  | .idle => inferInstanceAs (Decidable True)
  | .allocated _ => inferInstanceAs (Decidable True)
  | .counted _ => inferInstanceAs (Decidable True)

/-- Where the caller of `stl_thread_pool_wait` stands, with its loop variable. -/
inductive Waiter where
  | out
  | check (i : ℕ)
  | checked (i : ℕ)
  | asleep (i : ℕ)
  deriving DecidableEq

structure Pool (n : ℕ) where
  heap : Tasks
  queue : Fin n → TaskQueue
  hisTaskNum : BitVec 64
  numThreadsWorking : BitVec 64
  doneTaskNum : Fin n → BitVec 64
  worker : Fin n → PoolWorker
  producer : ℕ → Producer n
  waiter : Waiter

inductive PoolAction (n : ℕ) where
  | alloc (p a : ℕ) (func argP : Option ℕ)
  | count (p : ℕ)
  | index (p : ℕ)
  | push (p : ℕ)
  | wait (i : Fin n)
  | enter (i : Fin n)
  | pull (i : Fin n)
  | run (i : Fin n)
  | leave (i : Fin n)
  | begin
  | readLen
  | readWorking
  | wake
  | ret

inductive PoolEvent (n : ℕ) where
  | silent
  | pushed (i : Fin n) (x : ℕ × Call)
  | ran (i : Fin n) (x : ℕ × Call)
  | waitBegins
  | waitReturns
  deriving DecidableEq

namespace Pool
variable {n : ℕ}

/-- `stl_thread_pool_init`, with every thread before its first wait. It does not set the counters
`his_task_num` and `done_task_num`, so they may be anything. -/
def started (n : ℕ) (count : BitVec 64) (done : Fin n → BitVec 64) : Pool n where
  heap := fun _ => none
  queue := fun _ => taskQueueAlloc
  hisTaskNum := count
  numThreadsWorking := 0
  doneTaskNum := done
  worker := fun _ => .atWait
  producer := fun _ => .idle
  waiter := .out

/-- One step; `none` where the action is not possible or undefined. -/
def step (s : Pool n) : PoolAction n → Option (Pool n × PoolEvent n)
  | .alloc p a func argP =>
    if s.producer p = .idle ∧ s.heap a = none then
      some ({ s with heap := update s.heap a (some (taskAlloc func argP))
                     producer := update s.producer p (.allocated a) }, .silent)
    else none
  | .count p =>
    match s.producer p with
    | .allocated a =>
      some ({ s with hisTaskNum := s.hisTaskNum + 1
                     producer := update s.producer p (.counted a) }, .silent)
    | _ => none
  | .index p =>
    match s.producer p with
    | .counted a =>
      if h : s.hisTaskNum.toNat % n < n then
        some ({ s with producer := update s.producer p (.indexed a ⟨_, h⟩) }, .silent)
      else none
    | _ => none
  | .push p =>
    match s.producer p with
    | .indexed a i => do
      let t ← s.heap a
      let (q, heap) ← (s.queue i).taskQueuePush s.heap a
      some ({ s with heap := heap, queue := update s.queue i q
                     producer := update s.producer p .idle }, .pushed i (a, t.call))
    | _ => none
  | .wait i =>
    if s.worker i = .atWait then
      (s.queue i).hasJobs.bsemWait.map fun b =>
        ({ s with queue := update s.queue i { s.queue i with hasJobs := b }
                  worker := update s.worker i .woken }, .silent)
    else none
  | .enter i =>
    if s.worker i = .woken then
      some ({ s with numThreadsWorking := s.numThreadsWorking + 1
                     worker := update s.worker i .counted }, .silent)
    else none
  | .pull i =>
    if s.worker i = .counted then
      ((s.queue i).taskQueuePull s.heap).map fun r =>
        ({ s with queue := update s.queue i r.1
                  worker := update s.worker i (match r.2 with
                    | some a => .busy a
                    | none => .leaving) }, .silent)
    else none
  | .run i =>
    match s.worker i with
    | .busy a => do
      let t ← s.heap a
      -- a call of the null function is undefined
      let _ ← t.doTaskFunc
      some ({ s with heap := update s.heap a none
                     doneTaskNum := update s.doneTaskNum i (s.doneTaskNum i + 1)
                     worker := update s.worker i .leaving }, .ran i (a, t.call))
    | _ => none
  | .leave i =>
    if s.worker i = .leaving then
      some ({ s with numThreadsWorking := s.numThreadsWorking - 1
                     worker := update s.worker i .atWait }, .silent)
    else none
  | .begin =>
    if s.waiter = .out then some ({ s with waiter := .check 0 }, .waitBegins) else none
  | .readLen =>
    match s.waiter with
    | .check i =>
      if h : i < n then
        if (s.queue ⟨i, h⟩).len ≠ 0 then some ({ s with waiter := .asleep i }, .silent)
        else some ({ s with waiter := .checked i }, .silent)
      else none
    | _ => none
  | .readWorking =>
    match s.waiter with
    | .checked i =>
      if s.numThreadsWorking ≠ 0 then some ({ s with waiter := .asleep i }, .silent)
      else some ({ s with waiter := .check (i + 1) }, .silent)
    | _ => none
  | .wake =>
    match s.waiter with
    | .asleep i => some ({ s with waiter := .check i }, .silent)
    | _ => none
  | .ret =>
    match s.waiter with
    | .check i => if n ≤ i then some ({ s with waiter := .out }, .waitReturns) else none
    | _ => none

/-- No push starts with the counter of its queue at its maximum. -/
def Fits (s : Pool n) : PoolAction n → Prop
  | .push p => (s.producer p).Room s.queue
  | _ => True

instance (s : Pool n) : (a : PoolAction n) → Decidable (s.Fits a)
  | .push p => inferInstanceAs (Decidable ((s.producer p).Room s.queue))
  | .alloc .. => inferInstanceAs (Decidable True)
  | .count _ => inferInstanceAs (Decidable True)
  | .index _ => inferInstanceAs (Decidable True)
  | .wait _ => inferInstanceAs (Decidable True)
  | .enter _ => inferInstanceAs (Decidable True)
  | .pull _ => inferInstanceAs (Decidable True)
  | .run _ => inferInstanceAs (Decidable True)
  | .leave _ => inferInstanceAs (Decidable True)
  | .begin => inferInstanceAs (Decidable True)
  | .readLen => inferInstanceAs (Decidable True)
  | .readWorking => inferInstanceAs (Decidable True)
  | .wake => inferInstanceAs (Decidable True)
  | .ret => inferInstanceAs (Decidable True)

def pushedTo (i : Fin n) (es : List (PoolEvent n)) : List (ℕ × Call) :=
  es.filterMap fun e => match e with
    | .pushed j x => if j = i then some x else none
    | _ => none

/-- The tasks that worker `i` has run to their end, in order. -/
def ranBy (i : Fin n) (es : List (PoolEvent n)) : List (ℕ × Call) :=
  es.filterMap fun e => match e with
    | .ran j x => if j = i then some x else none
    | _ => none

end Pool

def Producer.task {n : ℕ} : Producer n → Option ℕ
  | .idle => none
  | .allocated a => some a
  | .counted a => some a
  | .indexed a _ => some a

def PoolWorker.working : PoolWorker → Bool
  | .atWait => false
  | .woken => false
  | .counted => true
  | .busy _ => true
  | .leaving => true

def PoolWorker.Hand (heap : Tasks) : PoolWorker → List (ℕ × Call) → Prop
  | .busy a, h => ∃ t, heap a = some t ∧ h = [(a, t.call)]
  | _, h => h = []

/-- Who may touch a task. -/
inductive PoolOwner (n : ℕ) where
  | producer (p : ℕ)
  | queue (i : Fin n)
  | worker (i : Fin n)
  deriving DecidableEq

def Pool.Holds {n : ℕ} (s : Pool n) (l : Fin n → List (ℕ × Call)) : PoolOwner n → ℕ → Prop
  | .producer p, a => (s.producer p).task = some a
  | .queue i, a => ∃ x ∈ l i, x.1 = a
  | .worker i, a => s.worker i = .busy a

/-- What holds after the events `es`, with the linked tasks `l` and the tasks in the hands of the
workers. -/
structure PoolInv {n : ℕ} (es : List (PoolEvent n)) (s : Pool n)
    (l hand : Fin n → List (ℕ × Call)) : Prop where
  linked : ∀ i, Linked (s.queue i) s.heap (l i)
  bound : ∀ i, (l i).length < 2 ^ 31
  exclusive : Exclusive s.heap (s.Holds l)
  hands : ∀ i, (s.worker i).Hand s.heap (hand i)
  history : ∀ i, Pool.ranBy i es ++ hand i ++ l i = Pool.pushedTo i es
  working : s.numThreadsWorking.toNat = tally PoolWorker.working s.worker

/-- What the caller of `stl_thread_pool_wait` can do next. -/
inductive WaiterMove {n : ℕ} (s : Pool n) : PoolEvent n → Waiter → Prop where
  | begins (h : s.waiter = .out) : WaiterMove s .waitBegins (.check 0)
  | filled {i : ℕ} (h : s.waiter = .check i) : WaiterMove s .silent (.asleep i)
  | empty {i : ℕ} (h : s.waiter = .check i) (hi : i < n) (hlen : (s.queue ⟨i, hi⟩).len = 0) :
    WaiterMove s .silent (.checked i)
  | working {i : ℕ} (h : s.waiter = .checked i) : WaiterMove s .silent (.asleep i)
  | idle {i : ℕ} (h : s.waiter = .checked i) (hcount : s.numThreadsWorking = 0) :
    WaiterMove s .silent (.check (i + 1))
  | wakes {i : ℕ} (h : s.waiter = .asleep i) : WaiterMove s .silent (.check i)
  | returns {i : ℕ} (h : s.waiter = .check i) (hi : n ≤ i) : WaiterMove s .waitReturns .out

def PoolAction.waits {n : ℕ} : PoolAction n → Bool
  | .begin => true
  | .readLen => true
  | .readWorking => true
  | .wake => true
  | .ret => true
  | _ => false

theorem Pool.step_waits {n : ℕ} {s s' : Pool n} {a : PoolAction n} {e : PoolEvent n}
    (ha : a.waits = true) (hstep : s.step a = some (s', e)) :
    ∃ w, s' = { s with waiter := w } ∧ WaiterMove s e w := by
  cases a with
  | begin =>
    simp only [Pool.step] at hstep
    split at hstep
    · next hw =>
      cases hstep
      exact ⟨_, rfl, .begins hw⟩
    · cases hstep
  | readLen =>
    cases hw : s.waiter with
    | check i =>
      simp only [Pool.step, hw] at hstep
      split at hstep
      · next hi =>
        split at hstep
        · cases hstep
          exact ⟨_, rfl, .filled hw⟩
        · next hlen =>
          cases hstep
          exact ⟨_, rfl, .empty hw hi (not_not.mp hlen)⟩
      · cases hstep
    | out => simp [Pool.step, hw] at hstep
    | checked i => simp [Pool.step, hw] at hstep
    | asleep i => simp [Pool.step, hw] at hstep
  | readWorking =>
    cases hw : s.waiter with
    | checked i =>
      simp only [Pool.step, hw] at hstep
      split at hstep
      · cases hstep
        exact ⟨_, rfl, .working hw⟩
      · next hcount =>
        cases hstep
        exact ⟨_, rfl, .idle hw (not_not.mp hcount)⟩
    | out => simp [Pool.step, hw] at hstep
    | check i => simp [Pool.step, hw] at hstep
    | asleep i => simp [Pool.step, hw] at hstep
  | wake =>
    cases hw : s.waiter with
    | asleep i =>
      simp only [Pool.step, hw] at hstep
      cases hstep
      exact ⟨_, rfl, .wakes hw⟩
    | out => simp [Pool.step, hw] at hstep
    | check i => simp [Pool.step, hw] at hstep
    | checked i => simp [Pool.step, hw] at hstep
  | ret =>
    cases hw : s.waiter with
    | check i =>
      simp only [Pool.step, hw] at hstep
      split at hstep
      · next hi =>
        cases hstep
        exact ⟨_, rfl, .returns hw hi⟩
      · cases hstep
    | out => simp [Pool.step, hw] at hstep
    | checked i => simp [Pool.step, hw] at hstep
    | asleep i => simp [Pool.step, hw] at hstep
  | alloc p a func argP => cases ha
  | count p => cases ha
  | index p => cases ha
  | push p => cases ha
  | wait i => cases ha
  | enter i => cases ha
  | pull i => cases ha
  | run i => cases ha
  | leave i => cases ha

theorem Pool.step_stays {n : ℕ} {s s' : Pool n} {a : PoolAction n} {e : PoolEvent n}
    (ha : a.waits = false) (hstep : s.step a = some (s', e)) :
    s'.waiter = s.waiter ∧ e ≠ .waitBegins ∧ e ≠ .waitReturns := by
  cases a with
  | begin => cases ha
  | readLen => cases ha
  | readWorking => cases ha
  | wake => cases ha
  | ret => cases ha
  | alloc p a func argP =>
    simp only [Pool.step] at hstep
    split at hstep <;> cases hstep
    exact ⟨rfl, by simp, by simp⟩
  | count p =>
    simp only [Pool.step] at hstep
    split at hstep <;> cases hstep
    exact ⟨rfl, by simp, by simp⟩
  | index p =>
    simp only [Pool.step] at hstep
    split at hstep
    · split at hstep <;> cases hstep
      exact ⟨rfl, by simp, by simp⟩
    · cases hstep
  | push p =>
    simp only [Pool.step] at hstep
    split at hstep
    · obtain ⟨t, -, hstep⟩ := Option.bind_eq_some_iff.mp hstep
      obtain ⟨r, -, hstep⟩ := Option.bind_eq_some_iff.mp hstep
      cases hstep
      exact ⟨rfl, by simp, by simp⟩
    · cases hstep
  | wait i =>
    simp only [Pool.step] at hstep
    split at hstep
    · obtain ⟨b, -, heq⟩ := Option.map_eq_some_iff.mp hstep
      cases heq
      exact ⟨rfl, by simp, by simp⟩
    · cases hstep
  | enter i =>
    simp only [Pool.step] at hstep
    split at hstep <;> cases hstep
    exact ⟨rfl, by simp, by simp⟩
  | pull i =>
    simp only [Pool.step] at hstep
    split at hstep
    · obtain ⟨r, -, heq⟩ := Option.map_eq_some_iff.mp hstep
      cases heq
      exact ⟨rfl, by simp, by simp⟩
    · cases hstep
  | run i =>
    simp only [Pool.step] at hstep
    split at hstep
    · obtain ⟨t, -, hstep⟩ := Option.bind_eq_some_iff.mp hstep
      obtain ⟨f, -, hstep⟩ := Option.bind_eq_some_iff.mp hstep
      cases hstep
      exact ⟨rfl, by simp, by simp⟩
    · cases hstep
  | leave i =>
    simp only [Pool.step] at hstep
    split at hstep <;> cases hstep
    exact ⟨rfl, by simp, by simp⟩

end KirinFS.ThreadPool
