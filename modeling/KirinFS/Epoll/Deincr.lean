import KirinFS.Epoll.Counters

/-! # Stopping a worker

The search for a running slot goes down with an unsigned index, which is never
below 0. It ends in the array only if there is a slot to stop.
-/

namespace KirinFS.Epoll
open Foundation.Histories StlEpoll

def Server.recorded (s : Server) (a : Action) : Option (Server × Action) :=
  (s.step a).map fun s' => (s', a)

/-- `stl_epoll_deincr_thread` ends with `stop` set on one running slot, if there is one, and
without any change if there is none. -/
def DeincrsWell (sep : StlEpoll) : Prop :=
  ∃ r, sep.stlEpollDeincrThread = some r ∧
    ((∃ (i : ℕ) (spt : StlEpollThread), i < sep.numThreads ∧ sep.threads[i]? = some spt ∧
        stoppable spt = true ∧ r.1 = sep.stopped i spt) ∨
      ((∀ spt ∈ sep.threads, stoppable spt = false) ∧ r.1 = sep))

variable {s s' : Server} {a : Action} {sfd efd : ℤ} {created : List (ℤ × ℕ)}

/-- Without a running slot the index leaves the array. -/
theorem deincr_leaves (h : Sound s) (hactive : 0 < s.sep.numActiveThreads)
    (hnone : ∀ spt ∈ s.sep.threads, stoppable spt = false) :
    s.sep.stlEpollDeincrThread = none := by
  rw [stlEpollDeincrThread, if_pos hactive, h.numThreads_toNat]
  rcases deincrLoop_spec (Nat.le_refl s.sep.threads.length) with
    ⟨i, spt, -, hspt, hstop, -⟩ | ⟨-, heq⟩
  · rw [hnone spt (List.mem_of_getElem? hspt)] at hstop
    cases hstop
  · rw [heq]
    rfl

theorem Sound.deincr_iff (h : Sound s) (hactive : 0 < s.sep.numActiveThreads) :
    DeincrsWell s.sep ↔ ∃ spt ∈ s.sep.threads, stoppable spt = true := by
  constructor
  · rintro ⟨r, hr, -⟩
    by_contra hno
    rw [deincr_leaves h hactive fun spt hspt => by simpa using fun hstop => hno ⟨spt, hspt, hstop⟩]
      at hr
    cases hr
  · rintro ⟨q, hq, hqstop⟩
    rcases deincrLoop_spec (Nat.le_refl s.sep.threads.length) with
      ⟨i, spt, hi, hspt, hstop, heq⟩ | ⟨hnone, -⟩
    · have hlt : (i : ℤ) < s.sep.numThreads := by
        rw [h.shaped.slots]
        exact Int.ofNat_lt.mpr hi
      refine ⟨(s.sep.stopped i spt, some i), ?_, Or.inl ⟨i, spt, hlt, hspt, hstop, rfl⟩⟩
      rw [stlEpollDeincrThread, if_pos hactive, h.numThreads_toNat, heq]
      rfl
    · obtain ⟨i, hi, rfl⟩ := List.mem_iff_getElem.mp hq
      rw [hnone i hi _ (List.getElem?_eq_getElem hi)] at hqstop
      cases hqstop

/-- A server without workers, since it has no descriptors or none were asked for. -/
structure Idle (s : Server) : Prop where
  slots : s.sep.numThreads = 0
  active : s.sep.numActiveThreads = 0
  threads : s.sep.threads = []

theorem start_idle (h : ¬ (sfd ≠ -1 ∧ efd ≠ -1 ∧ created ≠ [])) :
    Idle (Server.start sfd efd created) := by
  rw [Server.start, stlEpollInit]
  split
  · next hfds =>
    have hnil : created = [] := by
      by_contra hne
      exact h ⟨hfds.1, hfds.2, hne⟩
    subst hnil
    exact ⟨rfl, rfl, rfl⟩
  · exact ⟨rfl, rfl, rfl⟩

theorem Idle.step (h : Idle s) (hs : s.step a = some s') : Idle s' := by
  cases a with
  | accept sock =>
    rw [Server.step, stlEpollHandleAccept, if_pos h.slots] at hs
    cases hs
  | incr sfd efd mem =>
    rw [Server.step, stlEpollIncrThread, if_neg (by rw [h.slots, h.active]; decide)] at hs
    cases hs
    exact ⟨h.slots, h.active, h.threads⟩
  | deincr =>
    rw [Server.step, stlEpollDeincrThread, if_neg (by rw [h.active]; decide)] at hs
    cases hs
    exact ⟨h.slots, h.active, h.threads⟩
  | turn w broken =>
    rw [Server.step, h.threads] at hs
    split at hs
    · cases hs
    · cases hs

/-- Every state that is reached has the invariant, or no workers. -/
theorem reached_sound {as : List Action}
    (h : Reaches Server.recorded Server.can (Server.start sfd efd created) as s) :
    Sound s ∨ Idle s := by
  refine h.invariant (I := fun _ s => Sound s ∨ Idle s) ?_ ?_
  · by_cases hfds : sfd ≠ -1 ∧ efd ≠ -1 ∧ created ≠ []
    · exact Or.inl (start_sound hfds.1 hfds.2.1 hfds.2.2)
    · exact Or.inr (start_idle hfds)
  · intro _ s a s' e hI hcan hrec
    obtain ⟨s'', hs, heq⟩ := Option.map_eq_some_iff.mp hrec
    cases heq
    exact hI.imp (fun hsound => hsound.step hcan hs) fun hidle => hidle.step hs

/-- In every state that is reached the call does what it should just if there is a running slot. -/
theorem deincrsWell_iff {as : List Action}
    (h : Reaches Server.recorded Server.can (Server.start sfd efd created) as s)
    (hthreads : 1 ≤ s.sep.numThreads) (hactive : 0 < s.sep.numActiveThreads) :
    DeincrsWell s.sep ↔ ∃ spt ∈ s.sep.threads, stoppable spt = true := by
  rcases reached_sound h with hsound | hidle
  · exact hsound.deincr_iff hactive
  · rw [hidle.slots] at hthreads
    exact absurd hthreads (by decide)

section Examples

/-- Two workers, one of which has been stopped. -/
theorem deincrsWell_second : ∃ s, Reaches Server.recorded Server.can
    (Server.start 3 4 [(5, 6), (7, 8)]) [.deincr] s ∧ 1 ≤ s.sep.numThreads ∧
      0 < s.sep.numActiveThreads ∧ DeincrsWell s.sep := by
  have hstart : Reaches Server.recorded Server.can (Server.start 3 4 [(5, 6), (7, 8)]) []
    (Server.start 3 4 [(5, 6), (7, 8)]) := Reaches.start
  have hcan : (Server.start 3 4 [(5, 6), (7, 8)]).can .deincr := trivial
  have hreach := hstart.next hcan rfl
  refine ⟨_, hreach, by decide, by decide, ?_⟩
  exact (deincrsWell_iff hreach (by decide) (by decide)).mpr
    ⟨⟨0, 5, 6, false⟩, by decide, by decide⟩

/-- The only worker has been stopped and has not left its loop yet. -/
theorem not_deincrsWell_only : ∃ s, Reaches Server.recorded Server.can
    (Server.start 3 4 [(5, 6)]) [.deincr] s ∧ 1 ≤ s.sep.numThreads ∧
      0 < s.sep.numActiveThreads ∧ ¬ DeincrsWell s.sep := by
  have hstart : Reaches Server.recorded Server.can (Server.start 3 4 [(5, 6)]) []
    (Server.start 3 4 [(5, 6)]) := Reaches.start
  have hcan : (Server.start 3 4 [(5, 6)]).can .deincr := trivial
  have hreach := hstart.next hcan rfl
  refine ⟨_, hreach, by decide, by decide, ?_⟩
  rintro ⟨r, hr, -⟩
  cases hr

end Examples

end KirinFS.Epoll
