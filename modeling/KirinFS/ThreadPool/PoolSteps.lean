import KirinFS.ThreadPool.Pool

/-! # What the steps of the pool keep

The tasks of a queue are run in the order they were pushed: first come those
that were run, then the one in its worker's hands, then those that are linked.
-/

namespace KirinFS.ThreadPool
open Function Foundation.LinkedChain Foundation.Holders Foundation.Tally

section Steps
variable {n : ℕ} {es : List (PoolEvent n)} {s s' : Pool n} {l hand : Fin n → List (ℕ × Call)}
  {e : PoolEvent n}

theorem ranBy_concat (i : Fin n) (es : List (PoolEvent n)) (e : PoolEvent n) :
    Pool.ranBy i (es ++ [e]) = Pool.ranBy i es ++ Pool.ranBy i [e] :=
  List.filterMap_append

theorem pushedTo_concat (i : Fin n) (es : List (PoolEvent n)) (e : PoolEvent n) :
    Pool.pushedTo i (es ++ [e]) = Pool.pushedTo i es ++ Pool.pushedTo i [e] :=
  List.filterMap_append

/-- After the event `e` the invariant holds again, and every worker has started at least what it
had started before. -/
def PoolKept (es : List (PoolEvent n)) (hand : Fin n → List (ℕ × Call)) (e : PoolEvent n)
    (s' : Pool n) : Prop :=
  ∃ l' hand', PoolInv (es ++ [e]) s' l' hand' ∧
    ∀ i, Pool.ranBy i es ++ hand i <+: Pool.ranBy i (es ++ [e]) ++ hand' i

theorem poolInv_started (n : ℕ) (count : BitVec 64) (done : Fin n → BitVec 64) :
    PoolInv [] (Pool.started n count done) (fun _ => []) fun _ => [] where
  linked := fun _ => linked_empty _
  bound := fun _ => by decide
  exclusive := by
    constructor
    · intro o a h
      cases o <;> simp [Pool.Holds, Pool.started, Producer.task] at h
    · intro o o' a h
      cases o <;> simp [Pool.Holds, Pool.started, Producer.task] at h
  hands := fun _ => rfl
  history := fun _ => rfl
  working := by
    rw [tally_eq_zero.mpr fun _ => rfl]
    rfl

def PoolEvent.Quiet (e : PoolEvent n) : Prop :=
  ∀ i, Pool.ranBy i [e] = [] ∧ Pool.pushedTo i [e] = []

theorem quiet_silent : (.silent : PoolEvent n).Quiet := fun _ => ⟨rfl, rfl⟩

theorem quiet_begins : (.waitBegins : PoolEvent n).Quiet := fun _ => ⟨rfl, rfl⟩

theorem quiet_returns : (.waitReturns : PoolEvent n).Quiet := fun _ => ⟨rfl, rfl⟩

theorem PoolInv.history_quiet (h : PoolInv es s l hand) (he : e.Quiet) (i : Fin n) :
    Pool.ranBy i (es ++ [e]) ++ hand i ++ l i = Pool.pushedTo i (es ++ [e]) := by
  rw [ranBy_concat, pushedTo_concat, (he i).1, (he i).2, List.append_nil, List.append_nil,
    h.history i]

theorem started_quiet (es : List (PoolEvent n)) (hand : Fin n → List (ℕ × Call)) (he : e.Quiet)
    (i : Fin n) :
    Pool.ranBy i es ++ hand i <+: Pool.ranBy i (es ++ [e]) ++ hand i := by
  rw [ranBy_concat, (he i).1, List.append_nil]

theorem PoolInv.quiet (h : PoolInv es s l hand) (he : e.Quiet) (hheap : s'.heap = s.heap)
    (hqueue : s'.queue = s.queue) (hcount : s'.numThreadsWorking = s.numThreadsWorking)
    (hworker : s'.worker = s.worker) (htask : ∀ p, (s'.producer p).task = (s.producer p).task) :
    PoolKept es hand e s' := by
  refine ⟨l, hand,
    { linked := fun i => by rw [hqueue, hheap]; exact h.linked i
      bound := h.bound
      exclusive := ?_
      hands := fun i => by rw [hworker, hheap]; exact h.hands i
      history := h.history_quiet he
      working := by rw [hcount, hworker]; exact h.working }, started_quiet es hand he⟩
  rw [hheap]
  apply h.exclusive.mono
  intro o b hb
  cases o with
  | producer p => exact (htask p).symm.trans hb
  | queue i => exact hb
  | worker i => exact (congrFun hworker i).symm.trans hb

theorem PoolWorker.hand_free {w : PoolWorker} {heap : Tasks} {k : List (ℕ × Call)}
    (hw : ∀ a, w ≠ .busy a) : w.Hand heap k ↔ k = [] := by
  cases w with
  | busy a => exact absurd rfl (hw a)
  | atWait => rfl
  | woken => rfl
  | counted => rfl
  | leaving => rfl

theorem PoolWorker.Hand.frame {w : PoolWorker} {heap heap' : Tasks} {k : List (ℕ × Call)}
    (h : w.Hand heap k) (hh : ∀ a, w = .busy a → heap' a = heap a) : w.Hand heap' k := by
  cases w with
  | busy a =>
    obtain ⟨t, ht, hk⟩ := h
    exact ⟨t, (hh a rfl).trans ht, hk⟩
  | atWait => exact h
  | woken => exact h
  | counted => exact h
  | leaving => exact h

/-- A step of a worker without a task in its hands before or after it. -/
theorem PoolInv.free (h : PoolInv es s l hand) {i : Fin n} {w : PoolWorker} {q : TaskQueue}
    {c : BitVec 64} (hold : ∀ a, s.worker i ≠ .busy a) (hnew : ∀ a, w ≠ .busy a)
    (hq : Linked q s.heap (l i)) (hc : c.toNat = tally PoolWorker.working (update s.worker i w)) :
    PoolKept es hand .silent { s with
      queue := update s.queue i q, numThreadsWorking := c, worker := update s.worker i w } := by
  refine ⟨l, hand,
    { linked := (forall_update_iff s.queue fun j q => Linked q s.heap (l j)).mpr
        ⟨hq, fun j _ => h.linked j⟩
      bound := h.bound
      exclusive := ?_
      hands := (forall_update_iff s.worker fun j w => w.Hand s.heap (hand j)).mpr
        ⟨(PoolWorker.hand_free hnew).mpr ((PoolWorker.hand_free hold).mp (h.hands i)),
          fun j _ => h.hands j⟩
      history := h.history_quiet quiet_silent
      working := hc }, started_quiet es hand quiet_silent⟩
  apply h.exclusive.mono
  intro o b hb
  cases o with
  | producer p => exact hb
  | queue j => exact hb
  | worker j =>
    change update s.worker i w j = .busy b at hb
    by_cases hj : j = i
    · rw [hj, update_self] at hb
      exact absurd hb (hnew b)
    · rwa [update_of_ne hj] at hb

theorem PoolInv.alloc (h : PoolInv es s l hand) {p a : ℕ} {func argP : Option ℕ}
    (hstep : s.step (.alloc p a func argP) = some (s', e)) : PoolKept es hand e s' := by
  rw [Pool.step] at hstep
  split at hstep
  · next hfree =>
    obtain ⟨hp, ha⟩ := hfree
    cases hstep
    have hne := fun o b => h.exclusive.ne_of_none (o := o) (b := b) ha
    refine ⟨l, hand,
      { linked := fun i => (h.linked i).frame fun x hx =>
          update_of_ne (hne (.queue i) _ ⟨x, hx, rfl⟩) _ _
        bound := h.bound
        exclusive := ?_
        hands := ?_
        history := h.history_quiet quiet_silent
        working := h.working }, started_quiet es hand quiet_silent⟩
    · apply h.exclusive.alloc (o := .producer p) ha
      intro o b hb
      cases o with
      | producer r =>
        change (update s.producer p (.allocated a) r).task = some b at hb
        by_cases hr : r = p
        · rw [hr, update_self] at hb
          exact Or.inl ⟨congrArg _ hr, (Option.some.inj hb).symm⟩
        · rw [update_of_ne hr] at hb
          exact Or.inr hb
      | queue i => exact Or.inr hb
      | worker i => exact Or.inr hb
    · exact fun i => (h.hands i).frame fun b hb => update_of_ne (hne (.worker i) b hb) _ _
  · cases hstep

theorem task_update {p : ℕ} {c : Producer n} (hc : c.task = (s.producer p).task) (r : ℕ) :
    (update s.producer p c r).task = (s.producer r).task := by
  by_cases hr : r = p
  · rw [hr, update_self, hc]
  · rw [update_of_ne hr]

theorem PoolInv.count (h : PoolInv es s l hand) {p : ℕ}
    (hstep : s.step (.count p) = some (s', e)) : PoolKept es hand e s' := by
  cases hp : s.producer p with
  | allocated a =>
    simp only [Pool.step, hp] at hstep
    cases hstep
    exact h.quiet quiet_silent rfl rfl rfl rfl (task_update (by rw [hp]; rfl))
  | idle => simp [Pool.step, hp] at hstep
  | counted a => simp [Pool.step, hp] at hstep
  | indexed a i => simp [Pool.step, hp] at hstep

theorem PoolInv.index (h : PoolInv es s l hand) {p : ℕ}
    (hstep : s.step (.index p) = some (s', e)) : PoolKept es hand e s' := by
  cases hp : s.producer p with
  | counted a =>
    simp only [Pool.step, hp] at hstep
    split at hstep
    · cases hstep
      exact h.quiet quiet_silent rfl rfl rfl rfl (task_update (by rw [hp]; rfl))
    · cases hstep
  | idle => simp [Pool.step, hp] at hstep
  | allocated a => simp [Pool.step, hp] at hstep
  | indexed a i => simp [Pool.step, hp] at hstep

theorem PoolInv.exclusive_push (h : PoolInv es s l hand) {p : ℕ} {i : Fin n} {x : ℕ × Call}
    (hheld : (s.producer p).task = some x.1) {heap : Tasks} {queue : Fin n → TaskQueue}
    (hkeep : ∀ b, (heap b).isSome = (s.heap b).isSome) :
    Exclusive heap (Pool.Holds
      { s with heap := heap, queue := queue, producer := update s.producer p .idle }
      (update l i (l i ++ [x]))) := by
  have hheld' : s.Holds l (.producer p) x.1 := hheld
  apply h.exclusive.hand_over (o := .queue i) hheld' hkeep
  intro o b hb
  cases o with
  | producer r =>
    change (update s.producer p .idle r).task = some b at hb
    have hr : r ≠ p := by
      rintro rfl
      rw [update_self] at hb
      cases hb
    rw [update_of_ne hr] at hb
    exact Or.inr ⟨hb, by simp [hr]⟩
  | queue j =>
    obtain ⟨y, hy, rfl⟩ := hb
    by_cases hj : j = i
    · rw [hj, update_self, List.mem_append] at hy
      rw [hj]
      rcases hy with hy | hy
      · exact Or.inr ⟨⟨y, hy, rfl⟩, by simp⟩
      · rw [List.mem_singleton.mp hy]
        exact Or.inl ⟨rfl, rfl⟩
    · rw [update_of_ne hj] at hy
      exact Or.inr ⟨⟨y, hy, rfl⟩, by simp⟩
  | worker j => exact Or.inr ⟨hb, by simp⟩

theorem PoolInv.push (h : PoolInv es s l hand) {p : ℕ} (hok : s.Fits (.push p))
    (hstep : s.step (.push p) = some (s', e)) : PoolKept es hand e s' := by
  cases hp : s.producer p with
  | idle => simp [Pool.step, hp] at hstep
  | allocated a => simp [Pool.step, hp] at hstep
  | counted a => simp [Pool.step, hp] at hstep
  | indexed a i =>
    have hheld : s.Holds l (.producer p) a := by
      change (s.producer p).task = some a
      rw [hp]
      rfl
    obtain ⟨t, ht⟩ := Option.isSome_iff_exists.mp (h.exclusive.alive (.producer p) a hheld)
    have hne := fun o b (ho : o ≠ .producer p) (hb : s.Holds l o b) =>
      h.exclusive.ne_of_ne o (.producer p) (c := a) ho hb hheld
    have hnew : ∀ x ∈ l i, x.1 ≠ a := fun x hx => hne (.queue i) x.1 (by simp) ⟨x, hx, rfl⟩
    have hb := h.bound i
    obtain ⟨q, heap, heq, hlinked, -, hframe, hkeep⟩ := (h.linked i).push (by omega) ht hnew
    simp only [Pool.step, hp, ht, heq, Option.bind_eq_bind, Option.bind_some] at hstep
    cases hstep
    have hsame : ∀ o b, o ≠ .producer p → o ≠ .queue i → s.Holds l o b → heap b = s.heap b := by
      intro o b hop hoq hob
      refine hframe b (hne o b hop hob) fun x hx => ?_
      exact h.exclusive.ne_of_ne (.queue i) o hoq.symm ⟨x, hx, rfl⟩ hob
    have hlen : (l i ++ [(a, t.call)]).length < 2 ^ 31 := by
      have hroom : (s.queue i).len ≠ intMax := by
        rw [Pool.Fits, hp] at hok
        exact hok
      have hfull : (s.queue i).len.toNat ≠ 2 ^ 31 - 1 := fun heq =>
        hroom (BitVec.toNat_inj.mp heq)
      rw [(h.linked i).len_toNat (by omega)] at hfull
      rw [List.length_append, List.length_singleton]
      omega
    have hran : ∀ j, Pool.ranBy j [PoolEvent.pushed i (a, t.call)] = [] := fun _ => rfl
    refine ⟨update l i (l i ++ [(a, t.call)]), hand,
      { linked := (forall_update₂ fun j q k => Linked q heap k).mpr ⟨hlinked, ?_⟩
        bound := (forall_update_iff l fun _ k => k.length < 2 ^ 31).mpr
          ⟨hlen, fun j _ => h.bound j⟩
        exclusive := h.exclusive_push (x := (a, t.call)) hheld hkeep
        hands := fun j => (h.hands j).frame fun b hb =>
          hsame (.worker j) b (by simp) (by simp) hb
        history := (forall_update_iff l fun j k => Pool.ranBy j _ ++ hand j ++ k =
          Pool.pushedTo j _).mpr ⟨?_, ?_⟩
        working := h.working }, ?_⟩
    · intro j hj
      refine (h.linked j).frame fun x hx => ?_
      exact hsame (.queue j) x.1 (by simp) (by simpa using hj) ⟨x, hx, rfl⟩
    · have hpush : Pool.pushedTo i [.pushed i (a, t.call)] = [(a, t.call)] := by
        simp [Pool.pushedTo]
      rw [ranBy_concat, pushedTo_concat, hran, hpush, ← h.history i, List.append_nil,
        List.append_assoc _ (l i)]
    · intro j hj
      have hpush : Pool.pushedTo j [.pushed i (a, t.call)] = [] := by
        simp [Pool.pushedTo, Ne.symm hj]
      rw [ranBy_concat, pushedTo_concat, hran, hpush, ← h.history j, List.append_nil,
        List.append_nil]
    · intro j
      rw [ranBy_concat, hran, List.append_nil]

theorem PoolInv.wait (h : PoolInv es s l hand) {i : Fin n}
    (hstep : s.step (.wait i) = some (s', e)) : PoolKept es hand e s' := by
  rw [Pool.step] at hstep
  split at hstep
  · next hw =>
    obtain ⟨b, -, heq⟩ := Option.map_eq_some_iff.mp hstep
    cases heq
    refine h.free (w := .woken) (by simp [hw]) (by simp) ((h.linked i).withJobs b) ?_
    rw [tally_update (by rw [hw]; rfl)]
    exact h.working
  · cases hstep

theorem PoolInv.enter (h : PoolInv es s l hand) (hn : n < 2 ^ 31) {i : Fin n}
    (hstep : s.step (.enter i) = some (s', e)) : PoolKept es hand e s' := by
  rw [Pool.step] at hstep
  split at hstep
  · next hw =>
    cases hstep
    have hle := tally_le PoolWorker.working s.worker
    rw [Fintype.card_fin] at hle
    have hfree := h.free (i := i) (w := .counted) (q := s.queue i) (c := s.numThreadsWorking + 1)
      (by simp [hw]) (by simp) (h.linked i) (by
        have hone : (1 : BitVec 64).toNat = 1 := rfl
        rw [tally_enter (by rw [hw]; rfl) rfl, ← h.working, BitVec.toNat_add_of_lt, hone]
        rw [h.working, hone]
        omega)
    rw [update_eq_self] at hfree
    exact hfree
  · cases hstep

theorem PoolInv.leave (h : PoolInv es s l hand) {i : Fin n}
    (hstep : s.step (.leave i) = some (s', e)) : PoolKept es hand e s' := by
  rw [Pool.step] at hstep
  split at hstep
  · next hw =>
    cases hstep
    have hone := tally_leave (p := PoolWorker.working) (f := s.worker) (i := i) (a := .atWait)
      (by rw [hw]; rfl) rfl
    rw [← h.working] at hone
    have hfree := h.free (i := i) (w := .atWait) (q := s.queue i) (c := s.numThreadsWorking - 1)
      (by simp [hw]) (by simp) (h.linked i) (by
        have hle : (1 : BitVec 64) ≤ s.numThreadsWorking := by
          rw [BitVec.le_def]
          change 1 ≤ _
          omega
        rw [BitVec.toNat_sub_of_le hle, hone]
        exact Nat.add_sub_cancel _ _)
    rw [update_eq_self] at hfree
    exact hfree
  · cases hstep

theorem PoolInv.exclusive_pull (h : PoolInv es s l hand) {i : Fin n} {x : ℕ × Call}
    {k : List (ℕ × Call)} (hl : l i = x :: k) {queue : Fin n → TaskQueue} :
    Exclusive s.heap (Pool.Holds
      { s with queue := queue, worker := update s.worker i (.busy x.1) } (update l i k)) := by
  have hx : s.Holds l (.queue i) x.1 := ⟨x, by rw [hl]; simp, rfl⟩
  have hnodup := (h.linked i).nodup
  rw [hl, List.map_cons, List.nodup_cons] at hnodup
  apply h.exclusive.hand_over (o := .worker i) hx fun _ => rfl
  intro o b hob
  cases o with
  | producer r => exact Or.inr ⟨hob, by simp⟩
  | queue j =>
    obtain ⟨y, hy, rfl⟩ := hob
    by_cases hj : j = i
    · rw [hj, update_self] at hy
      have hyx : y.1 ≠ x.1 := fun heq => hnodup.1 (List.mem_map.mpr ⟨y, hy, heq⟩)
      rw [hj]
      exact Or.inr ⟨⟨y, by rw [hl]; exact List.mem_cons_of_mem x hy, rfl⟩, fun _ => hyx⟩
    · rw [update_of_ne hj] at hy
      exact Or.inr ⟨⟨y, hy, rfl⟩, by simp [hj]⟩
  | worker j =>
    change update s.worker i (.busy x.1) j = .busy b at hob
    by_cases hj : j = i
    · rw [hj, update_self] at hob
      cases hob
      exact Or.inl ⟨by rw [hj], rfl⟩
    · rw [update_of_ne hj] at hob
      exact Or.inr ⟨hob, by simp⟩

/-- The worker takes the oldest task of its queue into its hands. -/
theorem PoolInv.take (h : PoolInv es s l hand) {i : Fin n} {x : ℕ × Call} {k : List (ℕ × Call)}
    {q : TaskQueue} (hw : s.worker i = .counted) (hl : l i = x :: k) (hq : Linked q s.heap k) :
    PoolKept es hand .silent
      { s with queue := update s.queue i q, worker := update s.worker i (.busy x.1) } := by
  have hempty : hand i = [] := by
    have hi := h.hands i
    rwa [hw] at hi
  have hchain := (h.linked i).chain
  rw [hl] at hchain
  obtain ⟨t, ht, hcall⟩ := hchain.node (e := x) (by simp)
  have hb := h.bound i
  rw [hl, List.length_cons] at hb
  refine ⟨update l i k, update hand i [x],
    { linked := (forall_update₂ fun j q k => Linked q s.heap k).mpr ⟨hq, fun j _ => h.linked j⟩
      bound := (forall_update_iff l fun _ k => k.length < 2 ^ 31).mpr
        ⟨by omega, fun j _ => h.bound j⟩
      exclusive := h.exclusive_pull hl
      hands := (forall_update₂ fun j (w : PoolWorker) g => w.Hand s.heap g).mpr
        ⟨⟨t, ht, by rw [show t.call = x.2 from hcall]⟩, fun j _ => h.hands j⟩
      history := (forall_update₂ fun j g k => Pool.ranBy j _ ++ g ++ k =
        Pool.pushedTo j _).mpr ⟨?_, fun j _ => h.history_quiet quiet_silent j⟩
      working := ?_ }, (forall_update_iff hand fun j g => Pool.ranBy j es ++ hand j <+:
        Pool.ranBy j _ ++ g).mpr ⟨?_, fun j _ => started_quiet es hand quiet_silent j⟩⟩
  · have hist := h.history_quiet quiet_silent i
    rw [hl, hempty, List.append_nil] at hist
    rw [List.append_assoc]
    exact hist
  · change _ = tally _ (update s.worker i (.busy x.1))
    rw [tally_update (by rw [hw]; rfl)]
    exact h.working
  · have hstart := started_quiet es hand quiet_silent i
    rw [hempty, List.append_nil, List.append_nil] at hstart
    rw [hempty, List.append_nil]
    exact hstart.trans (List.prefix_append _ _)

theorem PoolInv.pull (h : PoolInv es s l hand) {i : Fin n}
    (hstep : s.step (.pull i) = some (s', e)) : PoolKept es hand e s' := by
  rw [Pool.step] at hstep
  split at hstep
  · next hw =>
    have hb := h.bound i
    obtain ⟨q, heq, hlinked, -⟩ := (h.linked i).pull (by omega)
    rw [heq, Option.map_some] at hstep
    cases hl : l i with
    | nil =>
      rw [hl] at hstep hlinked
      cases hstep
      refine h.free (w := .leaving) (by simp [hw]) (by simp) (by rw [hl]; exact hlinked) ?_
      rw [tally_update (by rw [hw]; rfl)]
      exact h.working
    | cons x k =>
      rw [hl] at hstep hlinked
      cases hstep
      exact h.take hw hl hlinked
  · cases hstep

theorem PoolInv.exclusive_run (h : PoolInv es s l hand) {i : Fin n} {a : ℕ}
    (hw : s.worker i = .busy a) {done : Fin n → BitVec 64} :
    Exclusive (update s.heap a none) (Pool.Holds
      { s with
        heap := update s.heap a none, doneTaskNum := done
        worker := update s.worker i .leaving } l) := by
  have hheld : s.Holds l (.worker i) a := hw
  apply h.exclusive.free hheld
  intro o b hb
  cases o with
  | producer r => exact ⟨hb, by simp⟩
  | queue j => exact ⟨hb, by simp⟩
  | worker j =>
    change update s.worker i .leaving j = .busy b at hb
    by_cases hj : j = i
    · rw [hj, update_self] at hb
      cases hb
    · rw [update_of_ne hj] at hb
      exact ⟨hb, by simp [hj]⟩

theorem PoolInv.run (h : PoolInv es s l hand) {i : Fin n}
    (hstep : s.step (.run i) = some (s', e)) : PoolKept es hand e s' := by
  cases hw : s.worker i with
  | atWait => simp [Pool.step, hw] at hstep
  | woken => simp [Pool.step, hw] at hstep
  | counted => simp [Pool.step, hw] at hstep
  | leaving => simp [Pool.step, hw] at hstep
  | busy a =>
    have hi := h.hands i
    rw [hw] at hi
    obtain ⟨t, ht, hhand⟩ := hi
    simp only [Pool.step, hw, ht, Option.bind_eq_bind, Option.bind_some] at hstep
    obtain ⟨func, -, heq⟩ := Option.bind_eq_some_iff.mp hstep
    cases heq
    have hheld : s.Holds l (.worker i) a := hw
    have hne := fun o b (ho : o ≠ .worker i) (hb : s.Holds l o b) =>
      h.exclusive.ne_of_ne o (.worker i) (c := a) ho hb hheld
    have hran : ∀ j, Pool.ranBy j (es ++ [.ran i (a, t.call)]) ++ update hand i [] j =
        Pool.ranBy j es ++ hand j := by
      refine (forall_update_iff hand fun j g => Pool.ranBy j _ ++ g = _).mpr ⟨?_, ?_⟩
      · have hone : Pool.ranBy i [.ran i (a, t.call)] = [(a, t.call)] := by simp [Pool.ranBy]
        rw [ranBy_concat, hone, hhand, List.append_nil]
      · intro j hj
        have hno : Pool.ranBy j [.ran i (a, t.call)] = [] := by simp [Pool.ranBy, Ne.symm hj]
        rw [ranBy_concat, hno, List.append_nil]
    refine ⟨l, update hand i [],
      { linked := fun j => (h.linked j).frame fun x hx =>
          update_of_ne (hne (.queue j) x.1 (by simp) ⟨x, hx, rfl⟩) _ _
        bound := h.bound
        exclusive := h.exclusive_run hw
        hands := (forall_update₂ fun j (w : PoolWorker) g => w.Hand (update s.heap a none) g).mpr ⟨rfl, ?_⟩
        history := ?_
        working := ?_ }, fun j => by rw [hran j]⟩
    · intro j hj
      exact (h.hands j).frame fun b hb =>
        update_of_ne (hne (.worker j) b (by simpa using hj) hb) _ _
    · intro j
      have hpush : Pool.pushedTo j [PoolEvent.ran i (a, t.call)] = [] := rfl
      rw [hran j, pushedTo_concat, hpush, List.append_nil]
      exact h.history j
    · change _ = tally _ (update s.worker i .leaving)
      rw [tally_update (by rw [hw]; rfl)]
      exact h.working

theorem WaiterMove.quiet {w : Waiter} (h : WaiterMove s e w) : e.Quiet := by
  cases h with
  | begins _ => exact quiet_begins
  | filled _ => exact quiet_silent
  | empty _ _ _ => exact quiet_silent
  | working _ => exact quiet_silent
  | idle _ _ => exact quiet_silent
  | wakes _ => exact quiet_silent
  | returns _ _ => exact quiet_returns

theorem PoolInv.step {a : PoolAction n} (h : PoolInv es s l hand) (hn : n < 2 ^ 31)
    (hok : s.Fits a) (hstep : s.step a = some (s', e)) : PoolKept es hand e s' := by
  have hwaiter : (∃ w, s' = { s with waiter := w } ∧ WaiterMove s e w) → PoolKept es hand e s' := by
    rintro ⟨w, rfl, hw⟩
    exact h.quiet hw.quiet rfl rfl rfl rfl fun _ => rfl
  cases a with
  | alloc p a func argP => exact h.alloc hstep
  | count p => exact h.count hstep
  | index p => exact h.index hstep
  | push p => exact h.push hok hstep
  | wait i => exact h.wait hstep
  | enter i => exact h.enter hn hstep
  | pull i => exact h.pull hstep
  | run i => exact h.run hstep
  | leave i => exact h.leave hstep
  | begin => exact hwaiter (Pool.step_waits rfl hstep)
  | readLen => exact hwaiter (Pool.step_waits rfl hstep)
  | readWorking => exact hwaiter (Pool.step_waits rfl hstep)
  | wake => exact hwaiter (Pool.step_waits rfl hstep)
  | ret => exact hwaiter (Pool.step_waits rfl hstep)

end Steps

end KirinFS.ThreadPool
