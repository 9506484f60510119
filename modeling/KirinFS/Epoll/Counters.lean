import KirinFS.Epoll.Workers
import KirinFS.Foundation.Histories

/-! # The counters of the worker slots

Both counters follow the slots through every step. A slot that has been torn
down is never used again, because the search looks at the wrong descriptors.
-/

namespace KirinFS.Epoll
open Foundation.Histories

def StlEpollThread.isOpen (spt : StlEpollThread) : Bool := spt.efd ≠ -1

structure Shaped (sep : StlEpoll) : Prop where
  listening : sep.efd ≠ -1
  slots : sep.numThreads = sep.threads.length
  active : sep.numActiveThreads = sep.threads.countP StlEpollThread.isOpen
  paired : ∀ spt ∈ sep.threads, spt.sfd ≠ -1 → spt.isOpen = true

namespace StlEpoll
variable {sep sep' : StlEpoll} {spt : StlEpollThread} {i k : ℕ}

def grown (sep : StlEpoll) (sfd : ℤ) (efd : ℕ) (mem : Realloc) : StlEpoll :=
  { sep with
    threads := sep.threads ++ [⟨sep.numThreads, sfd, efd, false⟩]
    numThreads := sep.numThreads + 1
    numActiveThreads := sep.numActiveThreads + 1
    block := if mem = .moved then sep.block + 1 else sep.block }

def stopped (sep : StlEpoll) (i : ℕ) (spt : StlEpollThread) : StlEpoll :=
  { sep with threads := sep.threads.set i { spt with stop := true } }

def tornDown (sep : StlEpoll) (i : ℕ) (spt : StlEpollThread) : StlEpoll :=
  { sep with
    threads := sep.threads.set i { spt with sfd := -1, efd := -1, stop := true }
    numActiveThreads := sep.numActiveThreads - 1 }

theorem isOpen_natCast (i sfd : ℤ) (efd : ℕ) (stop : Bool) :
    (⟨i, sfd, efd, stop⟩ : StlEpollThread).isOpen = true := by
  have hne : (efd : ℤ) ≠ -1 := by omega
  exact decide_eq_true hne

/-- The search tests the descriptors of the server and so never finds a slot. -/
theorem findSlot_eq_none (h : sep.efd ≠ -1) : sep.findSlot = none := by
  rw [findSlot, List.find?_eq_none]
  intro i _
  simp [h]

theorem incr_eq (h : Shaped sep) (sfd : ℤ) (efd : ℕ) (mem : Realloc) :
    sep.stlEpollIncrThread sfd efd mem =
      if sep.numActiveThreads < sep.numThreads then
        if sep.numThreads = intMax ∨ mem = .null then none
        else some (sep.grown sfd efd mem, some sep.threads.length)
      else some (sep, none) := by
  have hlen : sep.numThreads.toNat = sep.threads.length := by
    rw [h.slots, Int.toNat_natCast]
  rw [stlEpollIncrThread]
  split
  · rw [findSlot_eq_none h.listening, growThreads]
    by_cases hmax : sep.numThreads = intMax
    · simp [hmax]
    · cases mem <;> simp [hmax, hlen, threadInit, grown]
  · rfl

/-- The loop stops the last stoppable slot below the bound, if there is one. -/
theorem deincrLoop_spec {n : ℕ} (hn : n ≤ sep.threads.length) :
    (∃ i spt, i < n ∧ sep.threads[i]? = some spt ∧ stoppable spt = true ∧
        sep.deincrLoop n = some (sep.stopped i spt, i)) ∨
      ((∀ i < n, ∀ spt, sep.threads[i]? = some spt → stoppable spt = false) ∧
        sep.deincrLoop n = none) := by
  induction n with
  | zero => exact Or.inr ⟨fun i hi => absurd hi (Nat.not_lt_zero i), rfl⟩
  | succ n ih =>
    have hget : sep.threads[n]? = some (sep.threads[n]) := List.getElem?_eq_getElem hn
    by_cases hstop : stoppable (sep.threads[n]) = true
    · refine Or.inl ⟨n, _, Nat.lt_succ_self n, hget, hstop, ?_⟩
      rw [deincrLoop, hget, Option.bind_some, if_pos hstop, stopped]
    · have hloop : sep.deincrLoop (n + 1) = sep.deincrLoop n := by
        rw [deincrLoop, hget, Option.bind_some, if_neg hstop]
      rw [hloop]
      rcases ih (Nat.le_of_succ_le hn) with ⟨i, spt, hi, hspt, hs, heq⟩ | ⟨hnone, heq⟩
      · exact Or.inl ⟨i, spt, Nat.lt_succ_of_lt hi, hspt, hs, heq⟩
      · refine Or.inr ⟨?_, heq⟩
        intro i hi spt hspt
        rcases Nat.lt_succ_iff_lt_or_eq.mp hi with hi | rfl
        · exact hnone i hi spt hspt
        · rw [hget] at hspt
          obtain rfl := Option.some.inj hspt
          simpa using hstop

end StlEpoll

/-- Storing into one slot changes the number of open slots by the change of that slot. -/
theorem countP_set_add {l : List StlEpollThread} {i : ℕ} {spt : StlEpollThread}
    (hspt : l[i]? = some spt) (q : StlEpollThread) :
    (l.set i q).countP StlEpollThread.isOpen + (if spt.isOpen = true then 1 else 0) =
      l.countP StlEpollThread.isOpen + (if q.isOpen = true then 1 else 0) := by
  obtain ⟨hi, rfl⟩ := List.getElem?_eq_some_iff.mp hspt
  rw [List.countP_set hi]
  by_cases hopen : l[i].isOpen = true
  · have hpos := List.countP_pos_iff.mpr ⟨l[i], List.getElem_mem hi, hopen⟩
    rw [if_pos hopen]
    omega
  · rw [if_neg hopen]
    omega

namespace Shaped
variable {sep : StlEpoll} {spt : StlEpollThread} {i : ℕ}
open StlEpoll

theorem grown (h : Shaped sep) (sfd : ℤ) (efd : ℕ) (mem : Realloc) :
    Shaped (sep.grown sfd efd mem) where
  listening := h.listening
  slots := by simp [StlEpoll.grown, h.slots]
  active := by
    rw [StlEpoll.grown, List.countP_append, List.countP_singleton, isOpen_natCast, h.active]
    simp
  paired := by
    intro spt hspt
    rcases List.mem_append.mp hspt with hspt | hspt
    · exact h.paired spt hspt
    · obtain rfl := List.mem_singleton.mp hspt
      intro _
      exact isOpen_natCast _ _ _ _

theorem stopped (h : Shaped sep) (hspt : sep.threads[i]? = some spt) :
    Shaped (sep.stopped i spt) where
  listening := h.listening
  slots := by simp [StlEpoll.stopped, h.slots]
  active := by
    have hcount := countP_set_add hspt { spt with stop := true }
    have hsame : ({ spt with stop := true } : StlEpollThread).isOpen = spt.isOpen := rfl
    rw [hsame, Nat.add_right_cancel_iff] at hcount
    rw [StlEpoll.stopped, hcount]
    exact h.active
  paired := by
    intro q hq
    rcases List.mem_or_eq_of_mem_set hq with hq | rfl
    · exact h.paired q hq
    · exact h.paired spt (List.mem_of_getElem? hspt)

theorem tornDown (h : Shaped sep) (hspt : sep.threads[i]? = some spt) (hsfd : spt.sfd ≠ -1) :
    Shaped (sep.tornDown i spt) where
  listening := h.listening
  slots := by simp [StlEpoll.tornDown, h.slots]
  active := by
    have hcount := countP_set_add hspt { spt with sfd := -1, efd := -1, stop := true }
    have hopen := h.paired spt (List.mem_of_getElem? hspt) hsfd
    have hclosed : ({ spt with sfd := -1, efd := -1, stop := true } : StlEpollThread).isOpen =
        false := rfl
    rw [if_pos hopen, hclosed, if_neg (by simp)] at hcount
    have hactive := h.active
    rw [StlEpoll.tornDown]
    simp only
    omega
  paired := by
    intro q hq hne
    rcases List.mem_or_eq_of_mem_set hq with hq | rfl
    · exact h.paired q hq hne
    · exact absurd rfl hne

end Shaped

structure Sound (s : Server) : Prop where
  shaped : Shaped s.sep
  nonempty : 0 < s.sep.threads.length
  workers : ∀ w ∈ s.workers, w.2 < s.sep.threads.length

namespace Sound
variable {s s' : Server}
open StlEpoll

theorem numThreads_toNat (h : Sound s) : s.sep.numThreads.toNat = s.sep.threads.length := by
  rw [h.shaped.slots, Int.toNat_natCast]

theorem step_accept (h : Sound s) (sock : ℕ) : s.step (.accept sock) = some s := by
  have hlt : sock % s.sep.threads.length < s.sep.threads.length := Nat.mod_lt _ h.nonempty
  have hne : s.sep.numThreads ≠ 0 := by
    have hslots := h.shaped.slots
    have hpos := h.nonempty
    omega
  rw [Server.step, stlEpollHandleAccept, if_neg hne, h.numThreads_toNat,
    List.getElem?_eq_getElem hlt]
  rfl

theorem step_incr (h : Sound s) (sfd : ℤ) (efd : ℕ) (mem : Realloc) :
    s.step (.incr sfd efd mem) =
      if s.sep.numActiveThreads < s.sep.numThreads then
        if s.sep.numThreads = intMax ∨ mem = .null then none
        else some { s with
          sep := s.sep.grown sfd efd mem
          workers := s.workers ++ [((s.sep.grown sfd efd mem).block, s.sep.threads.length)] }
      else some s := by
  rw [Server.step, incr_eq h.shaped]
  split
  · split
    · rfl
    · rfl
  · simp

theorem step_deincr (h : Sound s) :
    (¬ 0 < s.sep.numActiveThreads ∧ s.step .deincr = some s) ∨
      (0 < s.sep.numActiveThreads ∧
        ((∃ i spt, s.sep.threads[i]? = some spt ∧ stoppable spt = true ∧ s.step .deincr =
            some { s with sep := s.sep.stopped i spt, stopped := s.stopped ++ [i] }) ∨
          ((∀ spt ∈ s.sep.threads, stoppable spt = false) ∧ s.step .deincr = none))) := by
  rw [Server.step, stlEpollDeincrThread, h.numThreads_toNat]
  by_cases hactive : 0 < s.sep.numActiveThreads
  · refine Or.inr ⟨hactive, ?_⟩
    rw [if_pos hactive]
    rcases deincrLoop_spec (Nat.le_refl s.sep.threads.length) with
      ⟨i, spt, -, hspt, hstop, heq⟩ | ⟨hnone, heq⟩
    · exact Or.inl ⟨i, spt, hspt, hstop, by rw [heq]; rfl⟩
    · refine Or.inr ⟨?_, by rw [heq]; rfl⟩
      intro spt hspt
      obtain ⟨i, hi, rfl⟩ := List.mem_iff_getElem.mp hspt
      exact hnone i hi _ (List.getElem?_eq_getElem hi)
  · exact Or.inl ⟨hactive, by rw [if_neg hactive]; simp⟩

theorem step_turn {w : ℕ × ℕ} (h : Sound s) (hw : w ∈ s.workers) (broken : Bool) :
    (w.1 ≠ s.sep.block ∧ s.step (.turn w broken) = none) ∨
      (w.1 = s.sep.block ∧ ∃ spt, s.sep.threads[w.2]? = some spt ∧
        ((spt.stop = false ∧ ∃ ws, ws ⊆ s.workers ∧
            s.step (.turn w broken) = some { s with workers := ws }) ∨
          (spt.stop = true ∧ s.step (.turn w broken) = some { s with
            sep := if spt.sfd ≠ -1 then s.sep.tornDown w.2 spt else s.sep
            workers := s.workers.erase w }))) := by
  have hlt := h.workers w hw
  have hspt := List.getElem?_eq_getElem hlt
  rw [Server.step]
  by_cases hblock : w.1 = s.sep.block
  · refine Or.inr ⟨hblock, _, hspt, ?_⟩
    rw [if_pos hblock, hspt, Option.bind_some]
    cases hstop : s.sep.threads[w.2].stop with
    | false =>
      refine Or.inl ⟨rfl, ?_⟩
      rw [if_neg (by simp)]
      cases broken with
      | false => exact ⟨s.workers, fun _ hv => hv, rfl⟩
      | true => exact ⟨s.workers.erase w, List.erase_subset, rfl⟩
    | true =>
      refine Or.inr ⟨rfl, ?_⟩
      rw [if_pos rfl, threadDeinit, hspt]
      rfl
  · exact Or.inl ⟨hblock, if_neg hblock⟩

theorem step {a : Action} (h : Sound s) (hcan : s.can a) (hs : s.step a = some s') : Sound s' := by
  cases a with
  | accept sock =>
    rw [h.step_accept sock] at hs
    cases hs
    exact h
  | incr sfd efd mem =>
    rw [h.step_incr sfd efd mem] at hs
    split at hs
    · split at hs
      · cases hs
      · cases hs
        refine ⟨h.shaped.grown sfd efd mem, by simp [grown], ?_⟩
        intro w hw
        simp only [grown, List.length_append, List.length_singleton]
        rcases List.mem_append.mp hw with hw | hw
        · exact Nat.lt_succ_of_lt (h.workers w hw)
        · obtain rfl := List.mem_singleton.mp hw
          exact Nat.lt_succ_self _
    · cases hs
      exact h
  | deincr =>
    rcases h.step_deincr with ⟨-, heq⟩ | ⟨-, ⟨i, spt, hspt, -, heq⟩ | ⟨-, heq⟩⟩
    · rw [heq] at hs
      cases hs
      exact h
    · rw [heq] at hs
      cases hs
      exact ⟨h.shaped.stopped hspt, by simpa [stopped] using h.nonempty,
        by simpa [stopped] using h.workers⟩
    · rw [heq] at hs
      cases hs
  | turn w broken =>
    rcases h.step_turn hcan broken with
      ⟨-, heq⟩ | ⟨-, spt, hspt, ⟨-, ws, hws, heq⟩ | ⟨-, heq⟩⟩
    · rw [heq] at hs
      cases hs
    · rw [heq] at hs
      cases hs
      exact ⟨h.shaped, h.nonempty, fun v hv => h.workers v (hws hv)⟩
    · rw [heq] at hs
      cases hs
      split
      · next hsfd =>
        refine ⟨h.shaped.tornDown hspt hsfd, by simpa [tornDown] using h.nonempty, ?_⟩
        intro v hv
        simpa [tornDown] using h.workers v (List.mem_of_mem_erase hv)
      · exact ⟨h.shaped, h.nonempty, fun v hv => h.workers v (List.mem_of_mem_erase hv)⟩

end Sound

section Start
open StlEpoll

/-- A slot as `stl_epoll_thread_init` leaves it. -/
def newSlot (c : (ℤ × ℕ) × ℕ) : StlEpollThread := ⟨c.2, c.1.1, c.1.2, false⟩

theorem initLoop_eq (created : List (ℤ × ℕ)) (done : List StlEpollThread) {sep : StlEpoll}
    {rest : List StlEpollThread} (hthreads : sep.threads = done ++ rest)
    (hrest : rest.length = created.length) :
    initLoop done.length created sep = { sep with
      threads := done ++ (created.zipIdx done.length).map newSlot
      numActiveThreads := sep.numActiveThreads + created.length } := by
  induction created generalizing sep done rest with
  | nil =>
    obtain rfl := List.length_eq_zero_iff.mp hrest
    rw [List.append_nil] at hthreads
    rw [initLoop, List.zipIdx_nil, List.map_nil, List.append_nil, ← hthreads, List.length_nil,
      Int.natCast_zero, Int.add_zero]
  | cons c created ih =>
    cases rest with
    | nil => cases hrest
    | cons q rest =>
      have hset : (sep.threadInit done.length done.length c.1 c.2).threads =
          (done ++ [newSlot (c, done.length)]) ++ rest := by
        rw [threadInit, hthreads]
        simp [newSlot]
      have hloop := ih _ hset (Nat.succ.inj hrest)
      rw [List.length_append, List.length_singleton] at hloop
      rw [initLoop, hloop, List.zipIdx_cons, List.map_cons, List.append_assoc]
      simp only [threadInit, List.singleton_append, List.length_cons]
      congr 1
      push_cast
      omega

variable {sfd efd : ℤ} {created : List (ℤ × ℕ)}

/-- With its two descriptors the server starts with a running slot for each worker. -/
theorem start_sep (hsfd : sfd ≠ -1) (hefd : efd ≠ -1) (hpos : created ≠ []) :
    (Server.start sfd efd created).sep =
      ⟨sfd, efd, created.length, created.length, created.zipIdx.map newSlot, 0⟩ := by
  rw [Server.start, stlEpollInit, if_pos ⟨hsfd, hefd⟩, if_pos (List.length_pos_iff.mpr hpos)]
  refine (initLoop_eq created [] rfl (by simp)).trans ?_
  simp [emptyEpoll]

theorem start_slot (hsfd : sfd ≠ -1) (hefd : efd ≠ -1) (hpos : created ≠ []) :
    ∀ spt ∈ (Server.start sfd efd created).sep.threads, spt.stop = false ∧ spt.isOpen = true := by
  intro spt hspt
  rw [start_sep hsfd hefd hpos] at hspt
  obtain ⟨c, -, rfl⟩ := List.mem_map.mp hspt
  exact ⟨rfl, isOpen_natCast _ _ _ _⟩

theorem start_sound (hsfd : sfd ≠ -1) (hefd : efd ≠ -1) (hpos : created ≠ []) :
    Sound (Server.start sfd efd created) := by
  have hsep := start_sep hsfd hefd hpos
  have hlen := List.length_pos_iff.mpr hpos
  have hslot := start_slot hsfd hefd hpos
  have hopen : (Server.start sfd efd created).sep.threads.countP StlEpollThread.isOpen =
      (Server.start sfd efd created).sep.threads.length :=
    List.countP_eq_length.mpr fun spt hspt => (hslot spt hspt).2
  refine ⟨⟨?_, ?_, ?_, fun spt hspt _ => (hslot spt hspt).2⟩, ?_, ?_⟩
  · rw [hsep]
    exact hefd
  · rw [hsep]
    simp
  · rw [hopen, hsep]
    simp
  · rw [hsep]
    simpa using hlen
  · intro w hw
    obtain ⟨i, hi, rfl⟩ := List.mem_map.mp hw
    rw [hsep]
    simpa using hi

theorem start_workers (w : ℕ × ℕ) (hw : w ∈ (Server.start sfd efd created).workers) : w.1 = 0 := by
  obtain ⟨i, -, rfl⟩ := List.mem_map.mp hw
  rfl

end Start

def Torn (spt : StlEpollThread) : Prop := spt.stop = true ∧ spt.efd = -1 ∧ spt.sfd = -1

/-- The counters are right, and one more worker gets a slot that has been torn down, if there is
one, whatever descriptors and memory it gets. -/
structure Managed (sep : StlEpoll) : Prop where
  active : sep.numActiveThreads = sep.threads.countP StlEpollThread.isOpen
  slots : sep.numThreads = sep.threads.length
  reuse : (∃ spt ∈ sep.threads, Torn spt) → ∀ sfd efd mem, ∃ sep' i spt,
    sep.stlEpollIncrThread sfd efd mem = some (sep', some i) ∧ sep.threads[i]? = some spt ∧
      Torn spt ∧ sep'.threads = sep.threads.set i ⟨spt.id, sfd, (efd : ℕ), false⟩ ∧
      sep'.numThreads = sep.numThreads

/-- The counters are always right; a slot that has been torn down is never used again. -/
theorem managed_iff {sep : StlEpoll} (h : Shaped sep) :
    Managed sep ↔ ∀ spt ∈ sep.threads, ¬ Torn spt := by
  constructor
  · intro hm spt hspt htorn
    have hfew : sep.numActiveThreads < sep.numThreads := by
      have hlt : sep.threads.countP StlEpollThread.isOpen < sep.threads.length := by
        refine Nat.lt_of_le_of_ne List.countP_le_length ?_
        intro hall
        have hopen := List.countP_eq_length.mp hall spt hspt
        simp [StlEpollThread.isOpen, htorn.2.1] at hopen
      rw [h.active, h.slots]
      exact Int.ofNat_lt.mpr hlt
    obtain ⟨sep', i, spt', heq, -, -, -, hsame⟩ := hm.reuse ⟨spt, hspt, htorn⟩ 0 0 .inPlace
    rw [StlEpoll.incr_eq h, if_pos hfew] at heq
    split at heq
    · cases heq
    · cases heq
      simp only [StlEpoll.grown] at hsame
      omega
  · intro hno
    exact ⟨h.active, h.slots, fun ⟨spt, hspt, htorn⟩ => absurd htorn (hno spt hspt)⟩

/-- The step is defined and leaves the slots managed. -/
def KeepsManaged (s : Server) (a : Action) : Prop := ∃ s', s.step a = some s' ∧ Managed s'.sep

/-- No worker tears its slot down, and one is only stopped while one can be stopped. -/
def NoTearDown (s : Server) : Action → Prop
  | .turn w _ => ∀ spt, s.sep.threads[w.2]? = some spt → spt.stop = true → spt.sfd = -1
  | .deincr => 0 < s.sep.numActiveThreads → ∃ spt ∈ s.sep.threads, StlEpoll.stoppable spt = true
  | _ => True

structure AllOpen (s : Server) : Prop where
  sound : Sound s
  slots : ∀ spt ∈ s.sep.threads, spt.isOpen = true
  workers : ∀ w ∈ s.workers, w.1 = s.sep.block

namespace AllOpen
variable {s s' : Server} {a : Action}

theorem managed (h : AllOpen s) : Managed s.sep := by
  rw [managed_iff h.sound.shaped]
  intro spt hspt htorn
  have hopen := h.slots spt hspt
  simp [StlEpollThread.isOpen, htorn.2.1] at hopen

theorem step_incr (h : AllOpen s) (sfd : ℤ) (efd : ℕ) (mem : Realloc) :
    s.step (.incr sfd efd mem) = some s := by
  have hall := List.countP_eq_length.mpr h.slots
  rw [h.sound.step_incr, if_neg]
  rw [h.sound.shaped.active, h.sound.shaped.slots, hall]
  exact Int.lt_irrefl _

theorem step (h : AllOpen s) (hcan : s.can a) (hok : NoTearDown s a) :
    ∃ s', s.step a = some s' ∧ AllOpen s' := by
  cases a with
  | accept sock => exact ⟨s, h.sound.step_accept sock, h⟩
  | incr sfd efd mem => exact ⟨s, h.step_incr sfd efd mem, h⟩
  | deincr =>
    rcases h.sound.step_deincr with ⟨-, heq⟩ | ⟨hactive, ⟨i, spt, hspt, -, heq⟩ | ⟨hnone, heq⟩⟩
    · exact ⟨s, heq, h⟩
    · refine ⟨_, heq, h.sound.step hcan heq, ?_, h.workers⟩
      intro q hq
      rcases List.mem_or_eq_of_mem_set hq with hq | rfl
      · exact h.slots q hq
      · exact h.slots spt (List.mem_of_getElem? hspt)
    · obtain ⟨spt, hspt, hstop⟩ := hok hactive
      rw [hnone spt hspt] at hstop
      cases hstop
  | turn w broken =>
    rcases h.sound.step_turn hcan broken with
      ⟨hblock, -⟩ | ⟨-, spt, hspt, ⟨-, ws, hws, heq⟩ | ⟨hstop, heq⟩⟩
    · exact absurd (h.workers w hcan) hblock
    · exact ⟨_, heq, h.sound.step hcan heq, h.slots, fun v hv => h.workers v (hws hv)⟩
    · have hsfd := hok spt hspt hstop
      rw [if_neg (by simp [hsfd])] at heq
      exact ⟨_, heq, h.sound.step hcan heq, h.slots,
        fun v hv => h.workers v (List.mem_of_mem_erase hv)⟩

/-- The next step keeps the slots managed just when it tears none down. -/
theorem keepsManaged_iff (h : AllOpen s) (hcan : s.can a) :
    KeepsManaged s a ↔ NoTearDown s a := by
  constructor
  · rintro ⟨s', hs, hm⟩
    cases a with
    | accept => trivial
    | incr => trivial
    | deincr =>
      intro _
      rcases h.sound.step_deincr with ⟨hidle, -⟩ | ⟨-, ⟨i, spt, hspt, hstop, -⟩ | ⟨-, heq⟩⟩
      · contradiction
      · exact ⟨spt, List.mem_of_getElem? hspt, hstop⟩
      · rw [heq] at hs
        cases hs
    | turn w broken =>
      intro spt hspt hstop
      by_contra hsfd
      have hsound := h.sound.step hcan hs
      rcases h.sound.step_turn hcan broken with
        ⟨-, heq⟩ | ⟨-, spt', hspt', ⟨hrun, -⟩ | ⟨-, heq⟩⟩
      · rw [heq] at hs
        cases hs
      · obtain rfl := Option.some.inj (hspt.symm.trans hspt')
        rw [hstop] at hrun
        cases hrun
      · obtain rfl := Option.some.inj (hspt.symm.trans hspt')
        rw [if_pos hsfd] at heq
        rw [heq] at hs
        cases hs
        obtain ⟨hlt, -⟩ := List.getElem?_eq_some_iff.mp hspt
        refine (managed_iff hsound.shaped).mp hm { spt with sfd := -1, efd := -1, stop := true } ?_
          ⟨rfl, rfl, rfl⟩
        exact List.mem_set hlt _
  · intro hok
    obtain ⟨s', hs, h'⟩ := h.step hcan hok
    exact ⟨s', hs, h'.managed⟩

end AllOpen

/-- The slots are managed in every state of a run just when none of its steps tears a slot down. -/
theorem managed_throughout_iff {sfd efd : ℤ} {created : List (ℤ × ℕ)} (hsfd : sfd ≠ -1)
    (hefd : efd ≠ -1) (hpos : created ≠ []) {as : List Action}
    (hcan : Along Server.step Server.can (Server.start sfd efd created) as) :
    (Managed (Server.start sfd efd created).sep ∧
        Along Server.step KeepsManaged (Server.start sfd efd created) as) ↔
      Along Server.step NoTearDown (Server.start sfd efd created) as := by
  have hstart : AllOpen (Server.start sfd efd created) := by
    refine ⟨start_sound hsfd hefd hpos, fun spt hspt => (start_slot hsfd hefd hpos spt hspt).2, ?_⟩
    intro w hw
    rw [start_workers w hw, start_sep hsfd hefd hpos]
  have hrun : Along Server.step KeepsManaged (Server.start sfd efd created) as ↔
      Along Server.step NoTearDown (Server.start sfd efd created) as := by
    refine along_iff (I := AllOpen) (fun s a h hc => h.keepsManaged_iff hc) ?_ hstart hcan
    intro s a s' h hc hok hs
    obtain ⟨s'', hs'', h''⟩ := h.step hc hok
    obtain rfl := Option.some.inj (hs.symm.trans hs'')
    exact h''
  exact ⟨fun h => hrun.mp h.2, fun h => ⟨hstart.managed, hrun.mpr h⟩⟩

section Examples

def oneWorker : Server := Server.start 3 4 [(5, 6)]

/-- A stopped worker that has not left its loop yet. -/
theorem managed_throughout_stop : Along Server.step KeepsManaged oneWorker
    [.accept 9, .deincr, .incr 7 8 .inPlace] := by
  refine ((managed_throughout_iff (by decide) (by decide) (by decide) ?_).mpr ?_).2
  · simp [Along, Server.can]
  · refine ⟨trivial, fun s hs => ⟨?_, fun _ _ => ⟨trivial, fun _ _ => trivial⟩⟩⟩
    obtain rfl : oneWorker = s := Option.some.inj hs
    intro _
    exact ⟨⟨0, 5, 6, false⟩, by decide, by decide⟩

/-- The worker leaves its loop. Then its slot is not used again, and the array grows. -/
theorem not_managed_exit :
    Along Server.step Server.can oneWorker [.deincr, .turn (0, 0) false] ∧
      ¬ Along Server.step KeepsManaged oneWorker [.deincr, .turn (0, 0) false] := by
  constructor
  · refine ⟨trivial, fun s hs => ⟨?_, fun _ _ => trivial⟩⟩
    cases hs
    exact List.mem_singleton.mpr rfl
  · rintro ⟨-, hrest⟩
    obtain ⟨⟨s, hs, hm⟩, -⟩ := hrest _ rfl
    cases hs
    obtain ⟨sep', i, spt, heq, -, -, -, hsame⟩ :=
      hm.reuse ⟨⟨0, -1, -1, true⟩, by decide, rfl, rfl, rfl⟩ 7 8 .inPlace
    cases heq
    exact absurd hsame (by decide)

end Examples

end KirinFS.Epoll
