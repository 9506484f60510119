import KirinFS.Epoll.Counters

/-! # Which worker gets a new socket

The socket number modulo the number of slots picks the slot. Nothing asks
whether its worker still runs.
-/

namespace KirinFS.Epoll
open Foundation.Histories StlEpoll

def Running (spt : StlEpollThread) : Prop := spt.stop = false ∧ spt.efd ≠ -1

instance (spt : StlEpollThread) : Decidable (Running spt) :=
  inferInstanceAs (Decidable (spt.stop = false ∧ spt.efd ≠ -1))

/-- The step is defined, and a new socket is registered with a running worker. -/
def Dispatches (s : Server) (a : Action) : Prop :=
  (s.step a).isSome = true ∧ ∀ sock, a = .accept sock →
    ∃ spt, s.sep.stlEpollHandleAccept sock = some spt ∧ Running spt

/-- A new socket picks a slot that has never been stopped. The other steps are defined: a stop
finds a slot, the array can grow, and no worker looks at an array that has been moved. -/
def PicksUnstopped (s : Server) : Action → Prop
  | .accept sock => sock % s.sep.numThreads.toNat ∉ s.stopped
  | .incr _ _ mem =>
    s.sep.numActiveThreads < s.sep.numThreads → s.sep.numThreads ≠ intMax ∧ mem ≠ .null
  | .deincr => 0 < s.sep.numActiveThreads → ∃ spt ∈ s.sep.threads, stoppable spt = true
  | .turn w _ => w.1 = s.sep.block

/-- The slots that have been stopped are the ones without a running worker. -/
structure Listed (s : Server) : Prop where
  sound : Sound s
  stopped : ∀ i spt, s.sep.threads[i]? = some spt → (i ∈ s.stopped ↔ spt.stop = true)
  bound : ∀ i ∈ s.stopped, i < s.sep.threads.length
  slots : ∀ spt ∈ s.sep.threads, spt.stop = false → spt.isOpen = true

namespace Listed
variable {s s' : Server} {a : Action}

/-- A slot that has not been stopped runs, and no other. -/
theorem running_iff (h : Listed s) {i : ℕ} {spt : StlEpollThread}
    (hspt : s.sep.threads[i]? = some spt) : Running spt ↔ i ∉ s.stopped := by
  rw [h.stopped i spt hspt, Bool.not_eq_true]
  constructor
  · intro hrun
    exact hrun.1
  · intro hrun
    exact ⟨hrun, of_decide_eq_true (h.slots spt (List.mem_of_getElem? hspt) hrun)⟩

theorem accept_eq (h : Listed s) (sock : ℕ) : ∃ spt,
    s.sep.stlEpollHandleAccept sock = some spt ∧
      s.sep.threads[sock % s.sep.numThreads.toNat]? = some spt := by
  have hsome := congrArg Option.isSome (h.sound.step_accept sock)
  rw [Server.step, Option.isSome_map, Option.isSome_some, Option.isSome_iff_exists] at hsome
  obtain ⟨spt, heq⟩ := hsome
  refine ⟨spt, heq, ?_⟩
  rw [stlEpollHandleAccept] at heq
  split at heq
  · cases heq
  · exact heq

/-- The next step dispatches well just when it meets the condition. -/
theorem dispatches_iff (h : Listed s) (hcan : s.can a) : Dispatches s a ↔ PicksUnstopped s a := by
  cases a with
  | accept sock =>
    obtain ⟨spt, heq, hspt⟩ := h.accept_eq sock
    rw [PicksUnstopped, ← h.running_iff hspt]
    constructor
    · rintro ⟨-, hrun⟩
      obtain ⟨spt', heq', hrun⟩ := hrun sock rfl
      obtain rfl := Option.some.inj (heq.symm.trans heq')
      exact hrun
    · intro hrun
      refine ⟨by rw [h.sound.step_accept sock]; rfl, ?_⟩
      rintro _ ⟨⟩
      exact ⟨spt, heq, hrun⟩
  | incr sfd efd mem =>
    rw [Dispatches, h.sound.step_incr, PicksUnstopped]
    by_cases hfew : s.sep.numActiveThreads < s.sep.numThreads
    · by_cases hno : s.sep.numThreads = intMax ∨ mem = .null
      · have hnot : ¬ (s.sep.numThreads ≠ intMax ∧ mem ≠ .null) := by
          rwa [← not_or, not_not]
        simp [hfew, hno, hnot]
      · have hyes : s.sep.numThreads ≠ intMax ∧ mem ≠ .null := not_or.mp hno
        simp [hfew, hyes]
    · simp [hfew]
  | deincr =>
    rcases h.sound.step_deincr with ⟨hidle, heq⟩ | ⟨hactive, ⟨i, spt, hspt, hstop, heq⟩ | ⟨hnone, heq⟩⟩
    · simp [Dispatches, PicksUnstopped, heq, hidle]
    · have hex : ∃ q ∈ s.sep.threads, stoppable q = true :=
        ⟨spt, List.mem_of_getElem? hspt, hstop⟩
      simp only [Dispatches, heq, PicksUnstopped]
      exact iff_of_true ⟨rfl, by simp⟩ fun _ => hex
    · simp only [Dispatches, heq, PicksUnstopped]
      refine iff_of_false (by simp) ?_
      intro hsome
      obtain ⟨spt, hspt, hstop⟩ := hsome hactive
      rw [hnone spt hspt] at hstop
      cases hstop
  | turn w broken =>
    rcases h.sound.step_turn hcan broken with
      ⟨hblock, heq⟩ | ⟨hblock, spt, -, ⟨-, ws, -, heq⟩ | ⟨-, heq⟩⟩
    · simp [Dispatches, PicksUnstopped, heq, hblock]
    · simp [Dispatches, PicksUnstopped, heq, hblock]
    · simp [Dispatches, PicksUnstopped, heq, hblock]

/-- A slot that keeps or gets its stop mark may change otherwise. -/
theorem set (h : Listed s) {i : ℕ} {spt q : StlEpollThread} (hspt : s.sep.threads[i]? = some spt)
    {st : List ℕ} (hst : ∀ j, j ∈ st ↔ j ∈ s.stopped ∨ j = i) (hq : q.stop = true)
    (hs : Sound s') (hthreads : s'.sep.threads = s.sep.threads.set i q) (hstopped : s'.stopped = st) :
    Listed s' where
  sound := hs
  stopped := by
    obtain ⟨hi, -⟩ := List.getElem?_eq_some_iff.mp hspt
    intro j p hp
    rw [hstopped, hst]
    by_cases hij : i = j
    · subst hij
      rw [hthreads, List.getElem?_set_self hi] at hp
      obtain rfl := Option.some.inj hp
      exact iff_of_true (Or.inr rfl) hq
    · rw [hthreads, List.getElem?_set_ne hij] at hp
      rw [← h.stopped j p hp]
      simp [Ne.symm hij]
  bound := by
    obtain ⟨hi, -⟩ := List.getElem?_eq_some_iff.mp hspt
    intro j hj
    rw [hthreads, List.length_set]
    rcases (hst j).mp (hstopped ▸ hj) with hj | rfl
    · exact h.bound j hj
    · exact hi
  slots := by
    intro p hp hrun
    rw [hthreads] at hp
    rcases List.mem_or_eq_of_mem_set hp with hp | rfl
    · exact h.slots p hp hrun
    · rw [hq] at hrun
      cases hrun

theorem step (h : Listed s) (hcan : s.can a) (hs : s.step a = some s') : Listed s' := by
  have hsound := h.sound.step hcan hs
  cases a with
  | accept sock =>
    rw [h.sound.step_accept sock] at hs
    cases hs
    exact h
  | incr sfd efd mem =>
    rw [h.sound.step_incr sfd efd mem] at hs
    split at hs
    · split at hs
      · cases hs
      · cases hs
        refine ⟨hsound, ?_, ?_, ?_⟩
        · intro i spt hspt
          simp only [grown] at hspt
          rcases Nat.lt_or_ge i s.sep.threads.length with hi | hi
          · rw [List.getElem?_append_left hi] at hspt
            exact h.stopped i spt hspt
          · rw [List.getElem?_append_right hi, List.getElem?_singleton] at hspt
            split at hspt
            · cases hspt
              refine iff_of_false ?_ (by simp)
              intro hmem
              exact absurd (h.bound i hmem) (Nat.not_lt.mpr hi)
            · cases hspt
        · intro i hi
          simp only [grown, List.length_append]
          exact Nat.lt_add_right _ (h.bound i hi)
        · intro spt hspt hrun
          rcases List.mem_append.mp hspt with hspt | hspt
          · exact h.slots spt hspt hrun
          · obtain rfl := List.mem_singleton.mp hspt
            exact isOpen_natCast _ _ _ _
    · cases hs
      exact h
  | deincr =>
    rcases h.sound.step_deincr with ⟨-, heq⟩ | ⟨-, ⟨i, spt, hspt, -, heq⟩ | ⟨-, heq⟩⟩
    · rw [heq] at hs
      cases hs
      exact h
    · rw [heq] at hs
      cases hs
      exact h.set hspt (fun j => by simp) rfl hsound rfl rfl
    · rw [heq] at hs
      cases hs
  | turn w broken =>
    rcases h.sound.step_turn hcan broken with
      ⟨-, heq⟩ | ⟨-, spt, hspt, ⟨-, ws, -, heq⟩ | ⟨hstop, heq⟩⟩
    · rw [heq] at hs
      cases hs
    · rw [heq] at hs
      cases hs
      exact ⟨hsound, h.stopped, h.bound, h.slots⟩
    · rw [heq] at hs
      cases hs
      have hmem := (h.stopped w.2 spt hspt).mpr hstop
      have hst : ∀ j, j ∈ s.stopped ↔ j ∈ s.stopped ∨ j = w.2 := by
        intro j
        constructor
        · exact Or.inl
        · rintro (hj | rfl)
          · exact hj
          · exact hmem
      by_cases hsfd : spt.sfd = -1
      · simp only [hsfd] at hsound ⊢
        exact ⟨hsound, h.stopped, h.bound, h.slots⟩
      · have hdown : ({ spt with sfd := -1, efd := -1, stop := true } : StlEpollThread).stop =
            true := rfl
        exact h.set hspt hst hdown hsound (by simp [hsfd, tornDown]) rfl

end Listed

/-- Every accepted socket of a run goes to a running worker just when the slot it picks has not
been stopped before. -/
theorem dispatched_throughout_iff {sfd efd : ℤ} {created : List (ℤ × ℕ)} (hsfd : sfd ≠ -1)
    (hefd : efd ≠ -1) (hpos : created ≠ []) {as : List Action}
    (hcan : Along Server.step Server.can (Server.start sfd efd created) as) :
    Along Server.step Dispatches (Server.start sfd efd created) as ↔
      Along Server.step PicksUnstopped (Server.start sfd efd created) as := by
  have hstart : Listed (Server.start sfd efd created) := by
    have hslot := start_slot hsfd hefd hpos
    refine ⟨start_sound hsfd hefd hpos, ?_, ?_, fun spt hspt _ => (hslot spt hspt).2⟩
    · intro i spt hspt
      refine iff_of_false (by simp [Server.start]) ?_
      rw [(hslot spt (List.mem_of_getElem? hspt)).1]
      simp
    · intro i hi
      cases hi
  exact along_iff (I := Listed) (fun s a h hc => h.dispatches_iff hc)
    (fun s a s' h hc _ hs => h.step hc hs) hstart hcan

section Examples

/-- Two workers, of which the second one is stopped: even sockets are still served. -/
theorem dispatched_even : Along Server.step Dispatches (Server.start 3 4 [(5, 6), (7, 8)])
    [.accept 11, .deincr, .accept 12] := by
  refine (dispatched_throughout_iff (by decide) (by decide) (by decide) ?_).mpr ?_
  · simp [Along, Server.can]
  · refine ⟨(by decide : 11 % 2 ∉ ([] : List ℕ)), fun s hs => ?_⟩
    cases hs
    refine ⟨fun _ => ⟨⟨1, 7, 8, false⟩, by decide, by decide⟩, fun s hs => ?_⟩
    cases hs
    exact ⟨(by decide : 12 % 2 ∉ [1]), fun _ _ => trivial⟩

/-- The next socket with an odd number goes to the stopped worker. -/
theorem not_dispatched_odd :
    Along Server.step Server.can (Server.start 3 4 [(5, 6), (7, 8)]) [.deincr, .accept 11] ∧
      ¬ Along Server.step Dispatches (Server.start 3 4 [(5, 6), (7, 8)]) [.deincr, .accept 11] := by
  constructor
  · simp [Along, Server.can]
  · rintro ⟨-, hrest⟩
    obtain ⟨⟨-, hrun⟩, -⟩ := hrest _ rfl
    obtain ⟨spt, heq, hrun⟩ := hrun 11 rfl
    cases heq
    exact absurd hrun.1 (by decide)

end Examples

end KirinFS.Epoll
