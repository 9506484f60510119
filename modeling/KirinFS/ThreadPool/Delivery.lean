import KirinFS.ThreadPool.PoolSteps

/-! # Every task of every caller is run once

Callers may interleave in any way. A task goes from its caller to one queue and
from there to the worker of that queue. `task_alloc` keeps the function only if
the argument is there too.
-/

namespace KirinFS.ThreadPool
open Function Foundation.Histories Foundation.Tally

/-- What was done, with what was seen of it. -/
abbrev Trace (n : ℕ) := List (PoolAction n × PoolEvent n)

namespace Trace
variable {n : ℕ}

/-- The arguments of the calls of `stl_thread_pool_add_task` by their callers. -/
def requested (tr : Trace n) : List (ℕ × Call) :=
  tr.filterMap fun x => match x.1 with
    | .alloc p _ func argP => some (p, func, argP)
    | _ => none

def placed (tr : Trace n) : List (ℕ × Fin n × Call) :=
  tr.filterMap fun x => match x with
    | (.push p, .pushed i t) => some (p, i, t.2)
    | _ => none

def made (tr : Trace n) : List (Fin n × Call) :=
  tr.filterMap fun x => match x.2 with
    | .ran i t => some (i, t.2)
    | _ => none

theorem requested_concat (tr : Trace n) (x : PoolAction n × PoolEvent n) :
    requested (tr ++ [x]) = requested tr ++ requested [x] :=
  List.filterMap_append

theorem placed_concat (tr : Trace n) (x : PoolAction n × PoolEvent n) :
    placed (tr ++ [x]) = placed tr ++ placed [x] :=
  List.filterMap_append

/-- The calls of one worker are those of the tasks it has run. -/
theorem entries_made (tr : Trace n) (i : Fin n) :
    entries i (made tr) = (Pool.ranBy i (tr.map Prod.snd)).map Prod.snd := by
  induction tr with
  | nil => rfl
  | cons x tr ih =>
    obtain ⟨a, e⟩ := x
    have hcons : made ((a, e) :: tr) = made [(a, e)] ++ made tr :=
      List.filterMap_append (l := [(a, e)])
    have hran : Pool.ranBy i (e :: tr.map Prod.snd) =
        Pool.ranBy i [e] ++ Pool.ranBy i (tr.map Prod.snd) :=
      List.filterMap_append (l := [e])
    rw [hcons, entries_append, ih, List.map_cons, hran, List.map_append]
    congr 1
    cases e with
    | ran j t =>
      by_cases hj : j = i
      · simp [made, Pool.ranBy, entries, hj]
      · simp [made, Pool.ranBy, entries, hj]
    | silent => rfl
    | pushed j t => rfl
    | waitBegins => rfl
    | waitReturns => rfl

end Trace

namespace Pool
variable {n : ℕ}

def traced (s : Pool n) (a : PoolAction n) : Option (Pool n × (PoolAction n × PoolEvent n)) :=
  (s.step a).map fun r => (r.1, (a, r.2))

/-- Function and argument are there, and the queue that a caller pushes to is not full. -/
def Given (s : Pool n) : PoolAction n → Prop
  | .alloc _ _ func argP => func.isSome ∧ argP.isSome
  | a => s.Fits a

instance (s : Pool n) : (a : PoolAction n) → Decidable (s.Given a)
  | .alloc _ _ func argP => inferInstanceAs (Decidable (func.isSome ∧ argP.isSome))
  | .push p => inferInstanceAs (Decidable (s.Fits (.push p)))
  | .count p => inferInstanceAs (Decidable (s.Fits (.count p)))
  | .index p => inferInstanceAs (Decidable (s.Fits (.index p)))
  | .wait i => inferInstanceAs (Decidable (s.Fits (.wait i)))
  | .enter i => inferInstanceAs (Decidable (s.Fits (.enter i)))
  | .pull i => inferInstanceAs (Decidable (s.Fits (.pull i)))
  | .run i => inferInstanceAs (Decidable (s.Fits (.run i)))
  | .leave i => inferInstanceAs (Decidable (s.Fits (.leave i)))
  | .begin => inferInstanceAs (Decidable (s.Fits .begin))
  | .readLen => inferInstanceAs (Decidable (s.Fits .readLen))
  | .readWorking => inferInstanceAs (Decidable (s.Fits .readWorking))
  | .wake => inferInstanceAs (Decidable (s.Fits .wake))
  | .ret => inferInstanceAs (Decidable (s.Fits .ret))

theorem Given.fits {s : Pool n} {a : PoolAction n} (h : s.Given a) : s.Fits a := by
  cases a with
  | alloc p a func argP => trivial
  | _ => exact h

/-- All calls have returned, all queues are empty and no worker has a task left. -/
def Drained (s : Pool n) : Prop :=
  (∀ p, s.producer p = .idle) ∧ ∀ i, (s.queue i).len = 0 ∧ ∀ a, s.worker i ≠ .busy a

/-- Callers go on and put what they were given on one queue each, in their order; the workers can
call what they have; in the end the calls made are those that were asked for. -/
structure Delivers (s : Pool n) (tr : Trace n) : Prop where
  goesOn : ∀ p, s.producer p ≠ .idle →
    ∃ a, (a = .count p ∨ a = .index p ∨ a = .push p) ∧ (s.step a).isSome
  placedOnce : ∀ p, s.producer p = .idle →
    entries p tr.requested = (entries p tr.placed).map Prod.snd
  callable : ∀ i a, s.worker i = .busy a → (s.step (.run i)).isSome
  same : s.Drained → (tr.made.map Prod.snd).Perm (tr.requested.map Prod.snd)

/-- The call that a caller has not put on a queue yet. -/
def pending (s : Pool n) (p : ℕ) : List Call :=
  ((s.producer p).task.bind fun a => (s.heap a).map Task.call).toList

end Pool

section Effects
variable {n : ℕ} {s s' : Pool n} {a : PoolAction n} {e : PoolEvent n}

theorem taskQueuePush_calls {q q' : TaskQueue} {heap heap' : Tasks} {new : ℕ}
    (h : q.taskQueuePush heap new = some (q', heap')) (b : ℕ) :
    (heap' b).map Task.call = (heap b).map Task.call := by
  have hwrite : ∀ {heap : Tasks} {c : ℕ} {t : Task} (p : Option ℕ), heap c = some t →
      (update heap c (some { t with prev := p }) b).map Task.call = (heap b).map Task.call := by
    intro heap c t p ht
    by_cases hb : b = c
    · rw [hb, update_self, ht]
      rfl
    · rw [update_of_ne hb]
  rw [TaskQueue.taskQueuePush] at h
  obtain ⟨t, ht, h⟩ := Option.bind_eq_some_iff.mp h
  dsimp only at h
  split at h
  · cases h
    exact hwrite none ht
  · obtain ⟨c, -, h⟩ := Option.bind_eq_some_iff.mp h
    obtain ⟨u, hu, h⟩ := Option.bind_eq_some_iff.mp h
    cases h
    exact (hwrite (some new) hu).trans (hwrite none ht)

/-- What a step does to the tasks and to the callers. -/
inductive Effect (s s' : Pool n) : PoolAction n → PoolEvent n → Prop where
  | alloc {p a : ℕ} {func argP : Option ℕ} (hp : s.producer p = .idle) (ha : s.heap a = none)
    (hheap : s'.heap = update s.heap a (some (taskAlloc func argP)))
    (hprod : s'.producer = update s.producer p (.allocated a)) :
    Effect s s' (.alloc p a func argP) .silent
  | push {p a : ℕ} {i : Fin n} {t : Task} (hp : (s.producer p).task = some a)
    (ht : s.heap a = some t) (hheap : ∀ b, (s'.heap b).map Task.call = (s.heap b).map Task.call)
    (hprod : s'.producer = update s.producer p .idle) :
    Effect s s' (.push p) (.pushed i (a, t.call))
  | run {i : Fin n} {a : ℕ} {t : Task} (hw : s.worker i = .busy a) (ht : s.heap a = some t)
    (hheap : s'.heap = update s.heap a none) (hprod : s'.producer = s.producer) :
    Effect s s' (.run i) (.ran i (a, t.call))
  | other {x : PoolAction n} {e : PoolEvent n} (hheap : s'.heap = s.heap)
    (htask : ∀ p, (s'.producer p).task = (s.producer p).task)
    (hreq : Trace.requested [(x, e)] = []) (hplaced : Trace.placed [(x, e)] = [])
    (hquiet : e.Quiet) : Effect s s' x e

theorem Pool.step_effect (h : s.step a = some (s', e)) : Effect s s' a e := by
  have hwaiter : a.waits = true → Trace.requested [(a, e)] = [] → Trace.placed [(a, e)] = [] →
      Effect s s' a e := by
    intro ha hreq hplaced
    obtain ⟨w, rfl, hm⟩ := Pool.step_waits ha h
    exact .other rfl (fun _ => rfl) hreq hplaced hm.quiet
  cases a with
  | alloc p a func argP =>
    rw [Pool.step] at h
    split at h
    · next hfree =>
      cases h
      exact .alloc hfree.1 hfree.2 rfl rfl
    · cases h
  | count p =>
    cases hp : s.producer p with
    | allocated a =>
      simp only [Pool.step, hp] at h
      cases h
      exact .other rfl (task_update (by rw [hp]; rfl)) rfl rfl quiet_silent
    | idle => simp [Pool.step, hp] at h
    | counted a => simp [Pool.step, hp] at h
    | indexed a i => simp [Pool.step, hp] at h
  | index p =>
    cases hp : s.producer p with
    | counted a =>
      simp only [Pool.step, hp] at h
      split at h
      · cases h
        exact .other rfl (task_update (by rw [hp]; rfl)) rfl rfl quiet_silent
      · cases h
    | idle => simp [Pool.step, hp] at h
    | allocated a => simp [Pool.step, hp] at h
    | indexed a i => simp [Pool.step, hp] at h
  | push p =>
    cases hp : s.producer p with
    | indexed a i =>
      simp only [Pool.step, hp] at h
      obtain ⟨t, ht, h⟩ := Option.bind_eq_some_iff.mp h
      obtain ⟨⟨q, heap⟩, hpush, h⟩ := Option.bind_eq_some_iff.mp h
      cases h
      exact .push (by rw [hp]; rfl) ht (taskQueuePush_calls hpush) rfl
    | idle => simp [Pool.step, hp] at h
    | allocated a => simp [Pool.step, hp] at h
    | counted a => simp [Pool.step, hp] at h
  | wait i =>
    rw [Pool.step] at h
    split at h
    · obtain ⟨b, -, heq⟩ := Option.map_eq_some_iff.mp h
      cases heq
      exact .other rfl (fun _ => rfl) rfl rfl quiet_silent
    · cases h
  | enter i =>
    rw [Pool.step] at h
    split at h
    · cases h
      exact .other rfl (fun _ => rfl) rfl rfl quiet_silent
    · cases h
  | pull i =>
    rw [Pool.step] at h
    split at h
    · obtain ⟨r, -, heq⟩ := Option.map_eq_some_iff.mp h
      cases heq
      exact .other rfl (fun _ => rfl) rfl rfl quiet_silent
    · cases h
  | run i =>
    cases hw : s.worker i with
    | busy a =>
      simp only [Pool.step, hw] at h
      obtain ⟨t, ht, h⟩ := Option.bind_eq_some_iff.mp h
      obtain ⟨f, -, h⟩ := Option.bind_eq_some_iff.mp h
      cases h
      exact .run hw ht rfl rfl
    | atWait => simp [Pool.step, hw] at h
    | woken => simp [Pool.step, hw] at h
    | counted => simp [Pool.step, hw] at h
    | leaving => simp [Pool.step, hw] at h
  | leave i =>
    rw [Pool.step] at h
    split at h
    · cases h
      exact .other rfl (fun _ => rfl) rfl rfl quiet_silent
    · cases h
  | begin => exact hwaiter rfl rfl rfl
  | readLen => exact hwaiter rfl rfl rfl
  | readWorking => exact hwaiter rfl rfl rfl
  | wake => exact hwaiter rfl rfl rfl
  | ret => exact hwaiter rfl rfl rfl

end Effects

section Steps
variable {n : ℕ} {tr : Trace n} {s s' : Pool n} {a : PoolAction n} {e : PoolEvent n}
  {l hand : Fin n → List (ℕ × Call)}

/-- What holds after every history beside `PoolInv`. -/
structure DeliveryInv (tr : Trace n) (s : Pool n) : Prop where
  callers : ∀ p, entries p tr.requested = (entries p tr.placed).map Prod.snd ++ s.pending p
  queues : ∀ i, entries i (tr.placed.map Prod.snd) =
    (Pool.pushedTo i (tr.map Prod.snd)).map Prod.snd
  whole : ∀ a t, s.heap a = some t → t.doTaskFunc.isSome

theorem pending_congr {q : ℕ} (htask : (s'.producer q).task = (s.producer q).task)
    (hheap : ∀ a, (s.producer q).task = some a →
      (s'.heap a).map Task.call = (s.heap a).map Task.call) : s'.pending q = s.pending q := by
  rw [Pool.pending, Pool.pending, htask]
  cases hq : (s.producer q).task with
  | none => rfl
  | some a => rw [Option.bind_some, Option.bind_some, hheap a hq]

theorem pending_idle {p : ℕ} (hp : s.producer p = .idle) : s.pending p = [] := by
  rw [Pool.pending, hp]
  rfl

theorem DeliveryInv.callers_idle (h : DeliveryInv tr s) {p : ℕ} (hp : s.producer p = .idle) :
    entries p tr.requested = (entries p tr.placed).map Prod.snd := by
  rw [h.callers p, pending_idle hp, List.append_nil]

theorem pushedTo_quiet (he : e.Quiet) (i : Fin n) (es : List (PoolEvent n)) :
    Pool.pushedTo i (es ++ [e]) = Pool.pushedTo i es := by
  rw [pushedTo_concat, (he i).2, List.append_nil]

theorem DeliveryInv.alloc (h : DeliveryInv tr s) (hi : PoolInv (tr.map Prod.snd) s l hand)
    {p b : ℕ} {func argP : Option ℕ} (hok : func.isSome ∧ argP.isSome)
    (hp : s.producer p = .idle) (hb : s.heap b = none)
    (hheap : s'.heap = update s.heap b (some (taskAlloc func argP)))
    (hprod : s'.producer = update s.producer p (.allocated b)) :
    DeliveryInv (tr ++ [(.alloc p b func argP, .silent)]) s' := by
  have htask : taskAlloc func argP = ⟨none, func, argP⟩ := by
    rw [taskAlloc, if_pos (by rw [hok.1, hok.2]; rfl)]
  have hplaced : Trace.placed (tr ++ [(.alloc p b func argP, .silent)]) = tr.placed := by
    rw [Trace.placed_concat]
    exact List.append_nil _
  refine ⟨?_, ?_, ?_⟩
  · intro q
    have hq := h.callers q
    have hreq : entries q (Trace.requested [((.alloc p b func argP : PoolAction n),
        (.silent : PoolEvent n))]) = if p = q then [(func, argP)] else [] :=
      entries_cons (p, func, argP) []
    rw [Trace.requested_concat, entries_append, hplaced, hreq, hq]
    by_cases hpq : p = q
    · subst hpq
      have hold : s.pending p = [] := pending_idle hp
      have hnew : s'.pending p = [(func, argP)] := by
        rw [Pool.pending, hprod, update_self, hheap, Producer.task, Option.bind_some, update_self,
          htask]
        rfl
      rw [if_pos rfl, hold, hnew, List.append_nil]
    · have hsame : s'.pending q = s.pending q := by
        refine pending_congr (by rw [hprod, update_of_ne (Ne.symm hpq)]) ?_
        intro c hc
        have hheld : s.Holds l (.producer q) c := hc
        rw [hheap, update_of_ne (hi.exclusive.ne_of_none hb hheld)]
      rw [if_neg hpq, hsame, List.append_nil]
  · intro i
    rw [hplaced, List.map_append, List.map_singleton, pushedTo_quiet quiet_silent]
    exact h.queues i
  · intro c t ht
    rw [hheap] at ht
    by_cases hc : c = b
    · rw [hc, update_self, htask] at ht
      cases ht
      exact hok.1
    · rw [update_of_ne hc] at ht
      exact h.whole c t ht

theorem DeliveryInv.push (h : DeliveryInv tr s) {p b : ℕ} {i : Fin n} {t : Task}
    (hp : (s.producer p).task = some b) (ht : s.heap b = some t)
    (hheap : ∀ c, (s'.heap c).map Task.call = (s.heap c).map Task.call)
    (hprod : s'.producer = update s.producer p .idle) :
    DeliveryInv (tr ++ [(.push p, .pushed i (b, t.call))]) s' := by
  have hreq : Trace.requested (tr ++ [(.push p, .pushed i (b, t.call))]) = tr.requested := by
    rw [Trace.requested_concat]
    exact List.append_nil _
  have hplaced : Trace.placed (tr ++ [(.push p, .pushed i (b, t.call))]) =
      tr.placed ++ [(p, i, t.call)] := Trace.placed_concat _ _
  refine ⟨?_, ?_, ?_⟩
  · intro q
    rw [hreq, hplaced, entries_append, entries_cons, h.callers q]
    by_cases hpq : p = q
    · subst hpq
      have hold : s.pending p = [t.call] := by
        rw [Pool.pending, hp, Option.bind_some, ht]
        rfl
      have hnew : s'.pending p = [] := pending_idle (by rw [hprod, update_self])
      rw [if_pos rfl, hold, hnew, List.map_append, List.append_nil]
      rfl
    · have hsame : s'.pending q = s.pending q :=
        pending_congr (by rw [hprod, update_of_ne (Ne.symm hpq)]) fun c _ => hheap c
      rw [if_neg hpq, hsame, entries_nil, List.append_nil]
  · intro j
    rw [hplaced, List.map_append, List.map_singleton, entries_append, h.queues j, List.map_append,
      List.map_singleton, pushedTo_concat, List.map_append]
    congr 1
    by_cases hj : i = j
    · simp [entries, Pool.pushedTo, hj]
    · simp [entries, Pool.pushedTo, hj]
  · intro c u hu
    have hc := hheap c
    rw [hu, Option.map_some] at hc
    obtain ⟨v, hv, hcall⟩ := Option.map_eq_some_iff.mp hc.symm
    have hfunc : v.doTaskFunc = u.doTaskFunc := congrArg Prod.fst hcall
    rw [← hfunc]
    exact h.whole c v hv

theorem DeliveryInv.step (h : DeliveryInv tr s) (hi : PoolInv (tr.map Prod.snd) s l hand)
    (hok : s.Given a) (heff : Effect s s' a e) : DeliveryInv (tr ++ [(a, e)]) s' := by
  cases heff with
  | alloc hp ha hheap hprod => exact h.alloc hi hok hp ha hheap hprod
  | push hp ht hheap hprod => exact h.push hp ht hheap hprod
  | @run i b t hw ht hheap hprod =>
    have hquiet : ∀ j, Pool.pushedTo j [.ran i (b, t.call)] = [] := fun _ => rfl
    have hreq : Trace.requested (tr ++ [(.run i, .ran i (b, t.call))]) = tr.requested := by
      rw [Trace.requested_concat]
      exact List.append_nil _
    have hplaced : Trace.placed (tr ++ [(.run i, .ran i (b, t.call))]) = tr.placed := by
      rw [Trace.placed_concat]
      exact List.append_nil _
    refine ⟨?_, ?_, ?_⟩
    · intro q
      have hsame : s'.pending q = s.pending q := by
        refine pending_congr (by rw [hprod]) ?_
        intro c hc
        have hne := hi.exclusive.ne_of_ne (.producer q) (.worker i) (c := b) (by simp) hc hw
        rw [hheap, update_of_ne hne]
      rw [hreq, hplaced, hsame]
      exact h.callers q
    · intro j
      rw [hplaced, List.map_append, List.map_singleton, pushedTo_concat, hquiet, List.append_nil]
      exact h.queues j
    · intro c u hu
      rw [hheap] at hu
      by_cases hc : c = b
      · rw [hc, update_self] at hu
        cases hu
      · rw [update_of_ne hc] at hu
        exact h.whole c u hu
  | other hheap htask hreq hplaced hquiet =>
    refine ⟨?_, ?_, ?_⟩
    · intro q
      have hsame : s'.pending q = s.pending q :=
        pending_congr (htask q) fun c _ => by rw [hheap]
      rw [Trace.requested_concat, Trace.placed_concat, hreq, hplaced, hsame, List.append_nil,
        List.append_nil]
      exact h.callers q
    · intro j
      rw [Trace.placed_concat, hplaced, List.append_nil, List.map_append, List.map_singleton,
        pushedTo_quiet hquiet]
      exact h.queues j
    · intro c u hu
      rw [hheap] at hu
      exact h.whole c u hu

theorem PoolInv.goesOn {es : List (PoolEvent n)} (h : PoolInv es s l hand) (hn : 0 < n) {p : ℕ}
    (hp : s.producer p ≠ .idle) :
    ∃ a, (a = .count p ∨ a = .index p ∨ a = .push p) ∧ (s.step a).isSome := by
  cases hc : s.producer p with
  | idle => exact absurd hc hp
  | allocated b => exact ⟨.count p, Or.inl rfl, by simp [Pool.step, hc]⟩
  | counted b =>
    have hlt := Nat.mod_lt s.hisTaskNum.toNat hn
    exact ⟨.index p, Or.inr (Or.inl rfl), by simp [Pool.step, hc, hlt]⟩
  | indexed b i =>
    have hheld : s.Holds l (.producer p) b := by
      change (s.producer p).task = some b
      rw [hc]
      rfl
    obtain ⟨t, ht⟩ := Option.isSome_iff_exists.mp (h.exclusive.alive (.producer p) b hheld)
    have hnew : ∀ x ∈ l i, x.1 ≠ b := fun x hx =>
      h.exclusive.ne_of_ne (.queue i) (.producer p) (by simp) ⟨x, hx, rfl⟩ hheld
    have hb := h.bound i
    obtain ⟨q, heap, heq, -⟩ := (h.linked i).push (by omega) ht hnew
    exact ⟨.push p, Or.inr (Or.inr rfl), by simp [Pool.step, hc, ht, heq]⟩

theorem PoolInv.callable {es : List (PoolEvent n)} (h : PoolInv es s l hand)
    (hwhole : ∀ a t, s.heap a = some t → t.doTaskFunc.isSome) {i : Fin n} {b : ℕ}
    (hw : s.worker i = .busy b) : (s.step (.run i)).isSome := by
  have hi := h.hands i
  rw [hw] at hi
  obtain ⟨t, ht, -⟩ := hi
  obtain ⟨f, hf⟩ := Option.isSome_iff_exists.mp (hwhole b t ht)
  simp [Pool.step, hw, ht, hf]

/-- In a drained pool the calls made are those asked for. -/
theorem DeliveryInv.same (h : DeliveryInv tr s) (hi : PoolInv (tr.map Prod.snd) s l hand)
    (hd : s.Drained) : (tr.made.map Prod.snd).Perm (tr.requested.map Prod.snd) := by
  have hmade : tr.made.Perm (tr.placed.map Prod.snd) := by
    refine perm_of_entries fun i => ?_
    obtain ⟨hlen, hfree⟩ := hd.2 i
    have hb := hi.bound i
    have hnil : l i = [] := ((hi.linked i).len_eq_zero (by omega)).mp hlen
    have hhand : hand i = [] := (PoolWorker.hand_free hfree).mp (hi.hands i)
    have hhist := hi.history i
    rw [hnil, hhand, List.append_nil, List.append_nil] at hhist
    rw [Trace.entries_made, h.queues, hhist]
  have hrequested : tr.requested.Perm (tr.placed.map (Prod.map id Prod.snd)) := by
    refine perm_of_entries fun p => ?_
    rw [h.callers_idle (hd.1 p), map_entries]
  have hsnd : (tr.placed.map (Prod.map id Prod.snd)).map Prod.snd =
      (tr.placed.map Prod.snd).map Prod.snd := by
    rw [List.map_map, List.map_map]
    rfl
  have hcalls := (hrequested.map Prod.snd).symm
  rw [hsnd] at hcalls
  exact (hmade.map Prod.snd).trans hcalls

/-- If every call comes with a function and an argument, and no queue is full when a caller pushes
to it, every task is delivered. -/
theorem tasks_delivered (hpos : 0 < n) (hn : n < 2 ^ 31) (count : BitVec 64)
    (done : Fin n → BitVec 64) (h : Reaches Pool.traced Pool.Given (Pool.started n count done) tr s) :
    s.Delivers tr := by
  have hinv : (∃ l hand, PoolInv (tr.map Prod.snd) s l hand) ∧ DeliveryInv tr s := by
    apply h.invariant (I := fun tr s => (∃ l hand, PoolInv (tr.map Prod.snd) s l hand) ∧
      DeliveryInv tr s) ⟨?_, ?_⟩ ?_
    · exact ⟨_, _, poolInv_started n count done⟩
    · exact ⟨fun _ => rfl, fun _ => rfl, fun a t ht => by cases ht⟩
    · rintro tr s a s' x ⟨⟨l, hand, hi⟩, hd⟩ hok htraced
      obtain ⟨⟨s₁, e⟩, hstep, heq⟩ := Option.map_eq_some_iff.mp htraced
      cases heq
      obtain ⟨l', hand', hi', -⟩ := hi.step hn hok.fits hstep
      refine ⟨⟨l', hand', ?_⟩, hd.step hi hok (Pool.step_effect hstep)⟩
      rw [List.map_append, List.map_singleton]
      exact hi'
  obtain ⟨⟨l, hand, hi⟩, hd⟩ := hinv
  exact ⟨fun p hp => hi.goesOn hpos hp, fun p hp => hd.callers_idle hp,
    fun i b hw => hi.callable hd.whole hw, hd.same hi⟩

end Steps

/-- Two callers at the same time. Both read the counter at 2 and push to one queue, which worker `i`
empties. -/
def deliveryRun (i : Fin 2) : List (PoolAction 2) :=
  [.alloc 0 16 (some 1) (some 2), .alloc 1 17 (some 3) (some 4), .count 0, .count 1, .index 0,
    .push 0, .wait i, .index 1, .enter i, .push 1, .pull i, .run i, .leave i, .wait i, .enter i,
    .pull i, .run i, .leave i]

theorem tasks_delivered_two : ∃ tr s,
    Reaches Pool.traced Pool.Given (Pool.started 2 0 fun _ => 0) tr s ∧
      ((Trace.made tr).map Prod.snd).Perm [(some 1, some 2), (some 3, some 4)] := by
  obtain ⟨r, hf⟩ : ∃ r, Reaches.follow Pool.traced Pool.Given (Pool.started 2 0 fun _ => 0)
      (deliveryRun 0) =
    some r := ⟨_, rfl⟩
  have hreach := Reaches.of_follow (show _ = some (r.1, r.2) from hf)
  refine ⟨r.2, r.1, hreach, ?_⟩
  cases hf
  refine (tasks_delivered (by decide) (by decide) 0 0 hreach).same ⟨?_, ?_⟩
  · rintro (_ | _ | p) <;> rfl
  · intro i
    rcases i with ⟨_ | _ | i, hi⟩
    · exact ⟨rfl, by rintro a ⟨⟩⟩
    · exact ⟨rfl, by rintro a ⟨⟩⟩
    · omega

/-- A task without argument ends in a call of the null function. -/
theorem not_delivered : ∃ tr s, Reaches Pool.traced Pool.Fits (Pool.started 1 0 fun _ => 0) tr s ∧
    Trace.requested tr = [(0, some 1, none)] ∧ (∀ p, s.producer p = .idle) ∧ (s.queue 0).len = 0 ∧
      s.step (.run 0) = none ∧ Trace.made tr = [] ∧ ¬ s.Delivers tr := by
  obtain ⟨r, hf⟩ : ∃ r, Reaches.follow Pool.traced Pool.Fits (Pool.started 1 0 fun _ => 0)
    [.alloc 0 16 (some 1) none, .count 0, .index 0, .push 0, .wait 0, .enter 0, .pull 0] = some r :=
    ⟨_, rfl⟩
  have hreach := Reaches.of_follow (show _ = some (r.1, r.2) from hf)
  cases hf
  refine ⟨_, _, hreach, rfl, ?_, rfl, rfl, rfl, ?_⟩
  · rintro (_ | p) <;> rfl
  · intro h
    have hcall := h.callable 0 16 rfl
    cases hcall

end KirinFS.ThreadPool
