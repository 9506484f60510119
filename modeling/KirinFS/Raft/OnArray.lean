import KirinFS.Raft.Durable
import KirinFS.Raft.Log

/-! # The log of a server lies in the array

What a server does to its list of entries may be done to the array. The server
never polls, so no slot before the first entry is free.
-/

namespace KirinFS.Raft
open Foundation.Simulation

variable {ι : Type} {may : Kind → Prop} {s s' : RaftServer ι}

def RaftCall.ofLog : RaftCall ι → Bool
  | .logOffer .. => true
  | .logPop .. => true
  | _ => false

def RaftServer.view (s : RaftServer ι) : LogView ι := ⟨0, 0, s.log, s.calls.filter (·.ofLog)⟩

theorem RaftServer.view_append (s : RaftServer ι) (c : RaftEntry) :
    ((s.logAppendEntry c).1.view, (s.logAppendEntry c).2) = s.view.append c := by
  rw [logAppendEntry, LogView.append]
  split
  · rfl
  · simp [view, RaftCall.ofLog]

theorem RaftServer.view_delete (s : RaftServer ι) (idx : ℕ) :
    (s.logDelete idx).view = s.view.cut (idx - 1) := by
  have hpops : ∀ l : List (RaftEntry × ℕ),
      (l.map fun e => (RaftCall.logPop e.1 (e.2 + 1) : RaftCall ι)).filter (·.ofLog) =
        l.map fun e => .logPop e.1 (e.2 + 1) := by
    intro l
    rw [List.filter_eq_self]
    intro c hc
    obtain ⟨e, -, rfl⟩ := List.mem_map.mp hc
    rfl
  rw [view, logDelete, List.filter_append, hpops]
  simp [view, LogView.cut]

theorem RaftServer.view_get (s : RaftServer ι) {idx : ℕ} (hidx : 0 < idx) :
    s.raftGetEntryFromIdx idx = some s.view.log[idx - 1 - s.view.base]? ∧
      s.raftGetEntriesFromIdx idx = some (s.view.log.drop (idx - 1 - s.view.base)) :=
  ⟨if_neg hidx.ne', if_neg hidx.ne'⟩

/-- A write of a server does nothing to its log, or it is one operation on the list. -/
theorem Write.on_list (hw : Write may s s') : s'.view = s.view ∨
    ∃ o, s.view.Valid o ∧ o ≠ .poll ∧ (s.view.step o).1 = s'.view := by
  cases hw with
  | offer _ ety hid =>
    refine .inr ⟨.append ety, trivial, by simp, ?_⟩
    have happend := congrArg Prod.fst (s.view_append ety)
    rw [RaftServer.logAppendEntry, if_neg hid] at happend
    exact happend.symm
  | pop _ idx hidx =>
    exact .inr ⟨.delete idx, Nat.zero_lt_of_lt hidx, by simp, (s.view_delete idx).symm⟩
  | term | vote | apply | post | ask | tell =>
    exact .inl (by simp [RaftServer.view, RaftServer.call, RaftCall.ofLog])
  | _ => exact .inl rfl

theorem Writes.on_list (h : Writes may s s') : ∃ os, .poll ∉ os ∧ s.view.ValidRun os ∧
    (specRuns LogView.step s.view os).1 = s'.view := by
  induction h using Relation.ReflTransGen.head_induction_on with
  | refl => exact ⟨[], List.not_mem_nil, trivial, rfl⟩
  | head hw _ ih =>
    obtain ⟨os, hpoll, hos, hend⟩ := ih
    rcases hw.on_list with hsame | ⟨o, ho, hne, hstep⟩
    · exact ⟨os, hpoll, hsame ▸ hos, hsame ▸ hend⟩
    · refine ⟨o :: os, ?_, ⟨ho, fun v hv => ?_⟩, ?_⟩
      · simp [hne.symm, hpoll]
      · obtain rfl := Option.some.inj hv
        exact hstep ▸ hos
      · rw [specRuns, hstep, hend]

/-- The array has the entries of the server, and whatever the server does to its log next has the
same result on the array. -/
structure RaftLog.StandsFor (me : RaftLog ι) (s : RaftServer ι) : Prop where
  covers : me.Covers s.view
  append : ∀ c, ∃ me', me.logAppendEntry c = some (me', (s.logAppendEntry c).2) ∧
    me'.Covers (s.logAppendEntry c).1.view
  delete : ∀ idx, 0 < idx → ∃ me', me.logDelete idx = some me' ∧ me'.Covers (s.logDelete idx).view
  getAt : ∀ idx, me.logGetAtIdx idx = s.raftGetEntryFromIdx idx
  getFrom : ∀ idx, me.logGetFromIdx idx = s.raftGetEntriesFromIdx idx
  currentIdx : me.logGetCurrentIdx = s.raftGetCurrentIdx

theorem RaftLog.Covers.standsFor {me : RaftLog ι} (h : me.Covers s.view) : me.StandsFor s where
  covers := h
  append c := by
    obtain ⟨me', hme', h'⟩ := h.append c (h.room rfl _)
    rw [← s.view_append c] at hme' h'
    exact ⟨me', hme', h'⟩
  delete idx hidx := by
    obtain ⟨me', hme', h'⟩ := h.delete hidx
    exact ⟨me', hme', s.view_delete idx ▸ h'⟩
  getAt idx := by
    rcases Nat.eq_zero_or_pos idx with rfl | hidx
    · rfl
    · rw [h.getAt hidx, (s.view_get hidx).1]
  getFrom idx := by
    rcases Nat.eq_zero_or_pos idx with rfl | hidx
    · rfl
    · rw [h.getFrom hidx, (s.view_get hidx).2]
  currentIdx := by
    rw [RaftLog.logGetCurrentIdx, h.count_eq, h.base_eq]
    rfl

section Sessions
variable [DecidableEq ι] {inputs : List (Input ι)}

/-- Whatever a server has been called with, a new array takes what it did to its log, without a
poll, and stands for the log then. -/
theorem server_log_runs (h : RaftServer.raftNew.session inputs = some s) :
    ∃ os answers, ∃ me : RaftLog ι, .poll ∉ os ∧
      runs RaftLog.step RaftLog.logNew os = some (me, answers) ∧ me.StandsFor s := by
  obtain ⟨os, hpoll, hos, hend⟩ := (RaftServer.session_writes h).on_list
  obtain ⟨me, hme, hcovers⟩ := unpolled_runs hos hpoll
  exact ⟨os, _, me, hpoll, hme, RaftLog.Covers.standsFor (hend ▸ hcovers)⟩

/-- Eleven entries do not fit into the first array. The last four are then replaced. -/
def growing : List (Input ℕ) :=
  [.addNode 0 true, .addNode 1 false,
    .appendentries (some 1) ⟨1, 0, 0, 0, List.replicate 11 ⟨1, 7, .normal, []⟩⟩,
    .appendentries (some 1) ⟨2, 7, 1, 0, [⟨2, 20, .normal, []⟩]⟩]

omit [DecidableEq ι] in
theorem server_log_runs_growing : ∃ s : RaftServer ℕ, s.log.length = 8 ∧
    s.view.calls.length = 16 ∧ ∃ os answers, ∃ me : RaftLog ℕ, .poll ∉ os ∧
      runs RaftLog.step RaftLog.logNew os = some (me, answers) ∧ me.StandsFor s := by
  obtain ⟨s, hs, hlen, hcalls⟩ : ∃ s ∈ RaftServer.raftNew.session growing,
      s.log.length = 8 ∧ s.view.calls.length = 16 := by decide +kernel
  exact ⟨s, hlen, hcalls, server_log_runs hs⟩

end Sessions

end KirinFS.Raft
