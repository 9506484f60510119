import KirinFS.Foundation.LinkedChain
import Mathlib.Algebra.Group.Nat.Defs
import Mathlib.Data.Int.Notation

/-! # The task queue and its binary semaphore

A task is linked to the one pushed after it. Every critical section is one
function; a bad pointer makes it undefined.
-/

namespace KirinFS.ThreadPool
open Function

structure Task where
  prev : Option ℕ
  doTaskFunc : Option ℕ
  arg : Option ℕ
  deriving DecidableEq, Repr

/-- A function with its argument, where null pointers are `none`. -/
abbrev Call := Option ℕ × Option ℕ

def Task.call (t : Task) : Call := (t.doTaskFunc, t.arg)

def Task.view (t : Task) : Call × Option ℕ := (t.call, t.prev)

/-- The tasks by their addresses. -/
abbrev Tasks := ℕ → Option Task

/-- `task_alloc`, which keeps function and argument only if both are there. -/
def taskAlloc (func argP : Option ℕ) : Task :=
  if func.isSome && argP.isSome then ⟨none, func, argP⟩ else ⟨none, none, none⟩

structure Bsem where
  v : ℤ
  deriving DecidableEq, Repr

def Bsem.bsemPost (b : Bsem) : Bsem := { b with v := 1 }

/-- `bsem_wait`, which blocks until the value is 1. -/
def Bsem.bsemWait (b : Bsem) : Option Bsem := if b.v ≠ 1 then none else some { b with v := 0 }

/-- `len` is an `int`; its addition wraps around as the machine's does. -/
structure TaskQueue where
  front : Option ℕ
  rear : Option ℕ
  hasJobs : Bsem
  len : BitVec 32
  deriving DecidableEq, Repr

def intMax : BitVec 32 := 0x7fffffff

def taskQueueAlloc : TaskQueue := ⟨none, none, ⟨0⟩, 0⟩

namespace TaskQueue

def taskQueuePush (q : TaskQueue) (heap : Tasks) (newTask : ℕ) : Option (TaskQueue × Tasks) := do
  let t ← heap newTask
  let heap := update heap newTask (some { t with prev := none })
  let (q, heap) ←
    if q.len = 0 then
      some ({ q with front := some newTask, rear := some newTask }, heap)
    else do
      let rear ← q.rear
      let t ← heap rear
      some ({ q with rear := some newTask }, update heap rear (some { t with prev := some newTask }))
  some ({ q with len := q.len + 1, hasJobs := q.hasJobs.bsemPost }, heap)

def taskQueuePull (q : TaskQueue) (heap : Tasks) : Option (TaskQueue × Option ℕ) :=
  if q.len = 0 then some (q, q.front)
  else if q.len = 1 then some ({ q with front := none, rear := none, len := 0 }, q.front)
  else do
    let task ← q.front
    let t ← heap task
    some ({ q with front := t.prev, len := q.len - 1, hasJobs := q.hasJobs.bsemPost }, q.front)

end TaskQueue

end KirinFS.ThreadPool
