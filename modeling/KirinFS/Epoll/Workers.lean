import Mathlib.Algebra.Group.Int.Defs
import Mathlib.Data.Int.Notation
import Mathlib.Data.List.Basic
import Mathlib.Data.Nat.Notation

/-! # The worker slots of `stl_epoll.c`

Every worker holds a pointer to its slot. The array of the slots may move when
it grows, and then the pointers of the older workers lead to freed memory.
-/

namespace KirinFS.Epoll

def intMax : ℤ := 2 ^ 31 - 1

structure StlEpollThread where
  id : ℤ
  sfd : ℤ
  efd : ℤ
  stop : Bool
deriving DecidableEq

/-- `block` tells which allocation `threads` is. -/
structure StlEpoll where
  sfd : ℤ
  efd : ℤ
  numThreads : ℤ
  numActiveThreads : ℤ
  threads : List StlEpollThread
  block : ℕ
deriving DecidableEq

inductive Realloc
  | null
  | inPlace
  | moved
deriving DecidableEq

/-- The record that `stl_epoll_alloc` gets from `calloc`. -/
def emptyEpoll : StlEpoll := ⟨0, 0, 0, 0, [], 0⟩

namespace StlEpoll
variable (sep : StlEpoll)

/-- `stl_epoll_thread_init` for slot `k`, with the descriptors it gets. It asserts that `efd` is
one. -/
def threadInit (k : ℕ) (i : ℤ) (sfd : ℤ) (efd : ℕ) : StlEpoll :=
  { sep with
    threads := sep.threads.set k ⟨i, sfd, efd, false⟩
    numActiveThreads := sep.numActiveThreads + 1 }

/-- `stl_epoll_thread_deinit` for slot `k`. -/
def threadDeinit (k : ℕ) : Option StlEpoll :=
  (sep.threads[k]?).map fun spt =>
    if spt.sfd ≠ -1 then
      { sep with
        threads := sep.threads.set k { spt with sfd := -1, efd := -1, stop := true }
        numActiveThreads := sep.numActiveThreads - 1 }
    else sep

/-- The loop of `stl_epoll_init` over the slots from `i` on, with their descriptors. -/
def initLoop : (i : ℕ) → List (ℤ × ℕ) → StlEpoll → StlEpoll
  | _, [], sep => sep
  | i, c :: cs, sep => initLoop (i + 1) cs (sep.threadInit i i c.1 c.2)

/-- `stl_epoll_init` with a well-formed address; `created` has the descriptors of the slots, one
entry for each of the `num_threads`. -/
def stlEpollInit (sfd efd : ℤ) (created : List (ℤ × ℕ)) : StlEpoll :=
  if sfd ≠ -1 ∧ efd ≠ -1 then
    let sep := { sep with sfd := sfd, efd := efd }
    if 0 < created.length then
      initLoop 0 created { sep with
        threads := List.replicate created.length ⟨0, 0, 0, false⟩
        numThreads := created.length }
    else sep
  else sep

/-- The search of `stl_epoll_incr_thread` for a slot to use again. -/
def findSlot : Option ℕ :=
  (List.range sep.numThreads.toNat).find? fun i =>
    (sep.threads[i]?).any StlEpollThread.stop && sep.efd = -1 && sep.sfd = -1

/-- One more slot at the end; its fields other than `id` are still unset. -/
def growThreads (mem : Realloc) : Option (StlEpoll × ℕ) :=
  -- `num_threads + 1` overflows
  if sep.numThreads = intMax then none
  else
    let grown := { sep with threads := sep.threads ++ [⟨sep.numThreads, 0, 0, false⟩] }
    match mem with
    | .null => none
    | .inPlace => some (grown, sep.numThreads.toNat)
    | .moved => some ({ grown with block := sep.block + 1 }, sep.numThreads.toNat)

/-- `stl_epoll_incr_thread`: the record, and the slot of the worker that it starts. -/
def stlEpollIncrThread (sfd : ℤ) (efd : ℕ) (mem : Realloc) : Option (StlEpoll × Option ℕ) :=
  if sep.numActiveThreads < sep.numThreads then do
    let (sep, target) ← match sep.findSlot with
      | some i => some (sep, i)
      | none => sep.growThreads mem
    let spt ← sep.threads[target]?
    let sep := sep.threadInit target spt.id sfd efd
    return ({ sep with numThreads := sep.numThreads + 1 }, some target)
  else some (sep, none)

/-- The test of `stl_epoll_deincr_thread`. -/
def stoppable (spt : StlEpollThread) : Bool := !spt.stop && spt.efd ≠ -1 && spt.sfd ≠ -1

/-- The loop of `stl_epoll_deincr_thread` over the first slots, from the last one down. The index
is unsigned: below 0 it leaves the array. -/
def deincrLoop : (slots : ℕ) → Option (StlEpoll × ℕ)
  | 0 => none
  | i + 1 =>
    (sep.threads[i]?).bind fun spt =>
      if stoppable spt then
        some ({ sep with threads := sep.threads.set i { spt with stop := true } }, i)
      else deincrLoop i

/-- `stl_epoll_deincr_thread`: the record, and the slot that it stops. -/
def stlEpollDeincrThread : Option (StlEpoll × Option ℕ) :=
  if 0 < sep.numActiveThreads then
    (sep.deincrLoop sep.numThreads.toNat).map fun r => (r.1, some r.2)
  else some (sep, none)

/-- `stl_epoll_handle_accept` for the new socket `sock`: the slot it is registered with. -/
def stlEpollHandleAccept (sock : ℕ) : Option StlEpollThread :=
  if sep.numThreads = 0 then none
  else sep.threads[sock % sep.numThreads.toNat]?

end StlEpoll

/-- The running program. A worker is the allocation and the index that its pointer leads to. The
slots that have been stopped are kept in the order of the calls. -/
structure Server where
  sep : StlEpoll
  workers : List (ℕ × ℕ)
  stopped : List ℕ

inductive Action
  | accept (sock : ℕ)
  | incr (sfd : ℤ) (efd : ℕ) (mem : Realloc)
  | deincr
  /-- `epoll_wait` returns to a worker, with an error if `broken`. It looks at `stop` before the
  next call. -/
  | turn (worker : ℕ × ℕ) (broken : Bool)

/-- The server after `stl_epoll_init` and the start of the workers by `stl_epoll_run`. -/
def Server.start (sfd efd : ℤ) (created : List (ℤ × ℕ)) : Server where
  sep := emptyEpoll.stlEpollInit sfd efd created
  workers := (List.range created.length).map fun i => (0, i)
  stopped := []

/-- Only a live worker takes turns. -/
def Server.can (s : Server) : Action → Prop
  | .turn worker _ => worker ∈ s.workers
  | _ => True

/-- The next state; `none` is undefined. -/
def Server.step (s : Server) : Action → Option Server
  | .accept sock => (s.sep.stlEpollHandleAccept sock).map fun _ => s
  | .incr sfd efd mem =>
    (s.sep.stlEpollIncrThread sfd efd mem).map fun r =>
      { s with sep := r.1, workers := s.workers ++ (r.2.map fun i => (r.1.block, i)).toList }
  | .deincr =>
    s.sep.stlEpollDeincrThread.map fun r =>
      { s with sep := r.1, stopped := s.stopped ++ r.2.toList }
  | .turn worker broken =>
    if worker.1 = s.sep.block then
      (s.sep.threads[worker.2]?).bind fun spt =>
        if spt.stop then
          (s.sep.threadDeinit worker.2).map fun sep =>
            { s with sep := sep, workers := s.workers.erase worker }
        else if broken then some { s with workers := s.workers.erase worker }
        else some s
    else none

end KirinFS.Epoll
