import KirinFS.Raft.Evidence

/-! # Moves of one server

For each thing that a server does to its own state: the step of the protocol
that it is.
-/

namespace KirinFS.Raft
open Foundation.Consensus Foundation.Shadows Function

variable {ι : Type} [Fintype ι] [DecidableEq ι] {careful : Prop} {pl : Place ι}
  {w w' : World ι RaftEntry} {me me' : RaftServer ι}

namespace RaftServer

omit [Fintype ι] [DecidableEq ι] in
@[simp] theorem becomeFollower_eq : me.raftBecomeFollower = { me with state := .follower } := rfl

omit [Fintype ι] [DecidableEq ι] in
theorem setCurrentTerm_of_lt {T : ℕ} (hT : me.currentTerm < T) : me.raftSetCurrentTerm T =
    { me with currentTerm := T, votedFor := none, calls := me.calls ++ [.persistTerm T] } :=
  if_pos hT

omit [Fintype ι] [DecidableEq ι] in
theorem appendEntry_eq (me : RaftServer ι) (ety : RaftEntry) : ∃ v, me.raftAppendEntry ety =
    if ety.id = 0 then ({ me with votingCfgChangeLogIdx := v }, -1)
    else ({ me with
      votingCfgChangeLogIdx := v, log := me.log ++ [ety]
      calls := me.calls ++ [.logOffer ety me.log.length] }, 0) := by
  by_cases hcfg : raftEntryIsVotingCfgChange ety = true
  · exact ⟨some me.raftGetCurrentIdx, by simp [raftAppendEntry, logAppendEntry, hcfg]⟩
  · exact ⟨me.votingCfgChangeLogIdx, by simp [raftAppendEntry, logAppendEntry, hcfg]⟩

omit [Fintype ι] [DecidableEq ι] in
theorem appendEntry_cases (me : RaftServer ι) (ety : RaftEntry) (P : RaftServer ι → Prop)
    (hrefused : ∀ v, ety.id = 0 → P { me with votingCfgChangeLogIdx := v })
    (htaken : ∀ v, P { me with
      votingCfgChangeLogIdx := v, log := me.log ++ [ety]
      calls := me.calls ++ [.logOffer ety me.log.length] }) : P (me.raftAppendEntry ety).1 := by
  obtain ⟨v, hv⟩ := me.appendEntry_eq ety
  rw [hv]
  split
  · next hid => exact hrefused v hid
  · exact htaken v

end RaftServer

def RaftCall.Silent (c : RaftCall ι) : Prop := c.message = none ∧ c.applied = none

namespace Serves
variable (h : Serves careful pl w me)
include h

omit [DecidableEq ι] in
theorem term_eq : (w.peer pl.self).term = me.currentTerm := by
  rw [h.peer]
  rfl

omit [DecidableEq ι] in
theorem vote_eq : (w.peer pl.self).vote = me.votedFor := by
  rw [h.peer]
  rfl

omit [DecidableEq ι] in
theorem role_eq : (w.peer pl.self).role = me.state.role := by
  rw [h.peer]
  rfl

omit [DecidableEq ι] in
theorem log_eq : (w.peer pl.self).log = me.log := by
  rw [h.peer]
  rfl

omit [DecidableEq ι] in
theorem commit_le (hc : careful) : me.commitIdx ≤ me.log.length := by
  have hle := (h.sound.safe hc).commit_le pl.self
  rwa [h.peer] at hle

omit [DecidableEq ι] in
theorem of_step {T k : ℕ} {v : Option ι} {s : RaftState} {X : List RaftEntry}
    {l : List (RaftCall ι)} (hsound : Sound RaftEntry.term careful w') (hgrows : Grows w w')
    (hpeer : w'.peer pl.self = ⟨T, v, s.role, X, k⟩) (hsilent : ∀ c ∈ l, c.Silent)
    (hcommit : careful → me.commitIdx ≤ k) (hlog : careful → me.log.take me.lastAppliedIdx <+: X)
    (hvotes : s = .candidate → me.state = .candidate ∧ T = me.currentTerm ∨
      ∀ n ∈ me.nodes, ¬ n.raftNodeHasVoteForMe)
    (halone : s = .candidate ∨ s = .leader → 1 < pl.ids.length) :
    Serves careful pl w' { me with
      currentTerm := T, votedFor := v, state := s, log := X, commitIdx := k
      calls := me.calls ++ l } where
  sound := hsound
  peer := hpeer
  node := h.node
  ids := h.ids
  voting := h.voting
  next := h.next
  timeout := h.timeout
  votes hcand n hn hv hne := by
    rcases hvotes hcand with ⟨hcand', rfl⟩ | hnone
    · obtain ⟨X, hX⟩ := h.votes hcand' n hn hv hne
      exact ⟨X, hgrows.granted _ _ _ _ hX⟩
    · exact absurd hv (hnone n hn)
  alone := halone
  sent c hc m hm := by
    rcases List.mem_append.mp hc with hc | hc
    · obtain ⟨hne, hgen⟩ := h.sent c hc m hm
      exact ⟨hne, hgen.grows hgrows⟩
    · rw [(hsilent c hc).1] at hm
      cases hm
  applied hc := by
    obtain ⟨hle, hpast⟩ := h.applied hc
    have hnone : l.filterMap (·.applied) = [] :=
      List.filterMap_eq_nil_iff.mpr fun c hc => (hsilent c hc).2
    refine ⟨hle.trans (hcommit hc), ?_⟩
    have heq := List.prefix_iff_eq_take.mp (hlog hc)
    rw [List.length_take_of_le (hle.trans (h.commit_le hc))] at heq
    rw [List.filterMap_append, hnone, List.append_nil, hpast, heq]

section Move
variable {T k : ℕ} {v : Option ι} {s : RaftState} {X : List RaftEntry} {l : List (RaftCall ι)}

/-- The step that is taken changes only the peer of the server. -/
theorem move (hs : Step RaftEntry.term careful w w')
    (hpeers : w'.peer = update w.peer pl.self ⟨T, v, s.role, X, k⟩) (hsilent : ∀ c ∈ l, c.Silent)
    (hcommit : careful → me.commitIdx ≤ k) (hlog : careful → me.log.take me.lastAppliedIdx <+: X)
    (hvotes : s = .candidate → me.state = .candidate ∧ T = me.currentTerm ∨
      ∀ n ∈ me.nodes, ¬ n.raftNodeHasVoteForMe)
    (halone : s = .candidate ∨ s = .leader → 1 < pl.ids.length) :
    Follows careful pl.self w w' ∧ Serves careful pl w' { me with
      currentTerm := T, votedFor := v, state := s, log := X, commitIdx := k
      calls := me.calls ++ l } := by
  have hf : Follows careful pl.self w w' := .step h.sound hs fun j hj => by
    rw [hpeers, update_of_ne hj]
  refine ⟨hf, h.of_step (h.sound.step hs) hf.grows ?_ hsilent hcommit hlog hvotes halone⟩
  rw [hpeers, update_self]

end Move

theorem observe {T : ℕ} (hT : me.currentTerm < T) : ∃ w', Follows careful pl.self w w' ∧
    Serves careful pl w' (me.raftSetCurrentTerm T).raftBecomeFollower := by
  rw [RaftServer.setCurrentTerm_of_lt hT, RaftServer.becomeFollower_eq]
  refine ⟨_, h.move (.learn pl.self T (h.term_eq ▸ hT)) ?_ ?_ (fun _ => le_rfl)
    (fun _ => List.take_prefix ..) ?_ ?_⟩
  · rw [h.peer]
    rfl
  · simp [RaftCall.Silent, RaftCall.message, RaftCall.applied]
  · simp
  · simp

theorem giveUp {R : Reign ι RaftEntry} (hstate : me.state = .candidate)
    (hR : w.reign me.currentTerm = some R) : ∃ w', Follows careful pl.self w w' ∧
      Serves careful pl w' ({ me with votedFor := none } : RaftServer ι).raftBecomeFollower := by
  have hrole : (w.peer pl.self).role = .candidate := by
    rw [h.role_eq, hstate]
    rfl
  rw [RaftServer.becomeFollower_eq, ← List.append_nil me.calls]
  refine ⟨_, h.move (.yield pl.self R hrole (h.term_eq ▸ hR)) ?_ ?_ (fun _ => le_rfl)
    (fun _ => List.take_prefix ..) ?_ ?_⟩
  · rw [h.peer]
    rfl
  · simp
  · simp
  · simp

theorem voteFor {c : ι} {Y : List RaftEntry} (hrole : me.state.role = .follower)
    (hvote : me.votedFor = none) (hY : w.stood c me.currentTerm Y)
    (hup : UpToDate RaftEntry.term me.log Y) : ∃ w', Follows careful pl.self w w' ∧
      Serves careful pl w' (me.raftVoteForNodeid (some c)) ∧
      ∃ X, w'.granted pl.self c me.currentTerm X := by
  have hmove := h.move (v := some c) (s := me.state) (X := me.log) (k := me.commitIdx)
    (l := [.persistVote (some c)])
    (.grant pl.self c Y (h.role_eq.trans hrole) (h.vote_eq.trans hvote) (h.term_eq ▸ hY)
      (h.log_eq ▸ hup)) (by rw [h.peer]; rfl) ?_ (fun _ => le_rfl) (fun _ => List.take_prefix ..) ?_ ?_
  · exact ⟨_, hmove.1, hmove.2, _, .inr ⟨rfl, rfl, h.term_eq.symm, rfl⟩⟩
  · simp [RaftCall.Silent, RaftCall.message, RaftCall.applied]
  · exact fun hs => .inl ⟨hs, rfl⟩
  · exact h.alone

omit [DecidableEq ι] in
/-- The clock, the leader that is known and the pending change are not part of the protocol. -/
theorem aside (timeoutElapsed : ℕ) (currentLeader : Option ι)
    (votingCfgChangeLogIdx : Option ℕ) : Serves careful pl w { me with
      timeoutElapsed := timeoutElapsed, currentLeader := currentLeader
      votingCfgChangeLogIdx := votingCfgChangeLogIdx } := { h with }

/-- The votes of a majority make a candidate the leader. -/
theorem lead {Q : Finset ι} (hstate : me.state = .candidate) (hQ : Majority Q)
    (hvotes : ∀ u ∈ Q, u = pl.self ∨ ∃ X, w.granted u pl.self me.currentTerm X) :
    ∃ w', Follows careful pl.self w w' ∧ Serves careful pl w' (me.raftSetState .leader) := by
  have hrole : (w.peer pl.self).role = .candidate := by
    rw [h.role_eq, hstate]
    rfl
  obtain ⟨hf, hw'⟩ := h.move (s := .leader) (k := me.commitIdx) (l := [])
    (.win pl.self Q hrole hQ (h.term_eq ▸ hvotes)) (by rw [h.peer]; rfl) (by simp)
    (fun _ => le_rfl) (fun _ => List.take_prefix ..) (by simp) (fun _ => h.alone (.inl hstate))
  rw [List.append_nil] at hw'
  exact ⟨_, hf, hw'.aside me.timeoutElapsed me.node me.votingCfgChangeLogIdx⟩

/-- What is committed is in the log of the leader of the term. -/
theorem committed_begins {R : Reign ι RaftEntry} (hc : careful)
    (hR : w.reign me.currentTerm = some R) : me.log.take me.commitIdx <+: R.log := by
  have hpre := (h.sound.safe hc).committed_begins (i := pl.self) (h.term_eq ▸ hR)
  rwa [h.peer] at hpre

/-- The leader writes an entry of its term, unless the log refuses it. -/
theorem write {ety : RaftEntry} (hstate : me.state = .leader) (hterm : ety.term = me.currentTerm) :
    ∃ w', Follows careful pl.self w w' ∧ Serves careful pl w' (me.raftAppendEntry ety).1 := by
  have hrole : (w.peer pl.self).role = .leader := by
    rw [h.role_eq, hstate]
    rfl
  obtain ⟨R, hR, -, -⟩ := h.sound.elections.leads pl.self hrole
  refine me.appendEntry_cases ety (fun me' => ∃ w', Follows careful pl.self w w' ∧
    Serves careful pl w' me') ?_ ?_
  · exact fun v _ => ⟨w, .refl, h.aside me.timeoutElapsed me.currentLeader v⟩
  · intro v
    obtain ⟨hf, hw'⟩ := h.move (X := me.log ++ [ety]) (k := me.commitIdx)
      (l := [.logOffer ety me.log.length])
      (.write pl.self R ety hrole hR (hterm.trans h.term_eq.symm)) (by rw [h.peer]; rfl)
      (by simp [RaftCall.Silent, RaftCall.message, RaftCall.applied]) (fun _ => le_rfl)
      (fun _ => (List.take_prefix ..).trans (List.prefix_append ..)) (fun hs => .inl ⟨hs, rfl⟩) h.alone
    exact ⟨_, hf, hw'.aside me.timeoutElapsed me.currentLeader v⟩

/-- A follower whose log begins the leader's takes the next entry over, unless the log refuses. -/
theorem adopt {R : Reign ι RaftEntry} {ety : RaftEntry} (hrole : me.state.role = .follower)
    (hR : w.reign me.currentTerm = some R) (hety : me.log ++ [ety] <+: R.log) :
    ∃ w', Follows careful pl.self w w' ∧ Serves careful pl w' (me.raftAppendEntry ety).1 := by
  refine me.appendEntry_cases ety (fun me' => ∃ w', Follows careful pl.self w w' ∧
    Serves careful pl w' me') ?_ ?_
  · exact fun v _ => ⟨w, .refl, h.aside me.timeoutElapsed me.currentLeader v⟩
  · intro v
    obtain ⟨hf, hw'⟩ := h.move (X := me.log ++ [ety]) (k := me.commitIdx)
      (l := [.logOffer ety me.log.length])
      (.adopt pl.self R ety (h.role_eq.trans hrole) (h.term_eq ▸ hR) (h.log_eq ▸ hety))
      (by rw [h.peer]; rfl) (by simp [RaftCall.Silent, RaftCall.message, RaftCall.applied])
      (fun _ => le_rfl) (fun _ => (List.take_prefix ..).trans (List.prefix_append ..))
      (fun hs => .inl ⟨hs, rfl⟩) h.alone
    exact ⟨_, hf, hw'.aside me.timeoutElapsed me.currentLeader v⟩

/-- A cut that follows the leader leaves what is committed. -/
theorem commit_le_of_cut {R : Reign ι RaftEntry} {j : ℕ} (hc : careful)
    (hR : w.reign me.currentTerm = some R) (hcut : Cut RaftEntry.term me.log R me.currentTerm j) :
    me.commitIdx ≤ j := by
  have hkept := hcut.keeps h.sound.logs hR (List.take_prefix ..) (h.committed_begins hc hR)
  have hle := hkept.length_le
  have hlen := h.commit_le hc
  rw [List.length_take, List.length_take] at hle
  omega

theorem cut {R : Reign ι RaftEntry} {idx : ℕ} (hrole : me.state.role = .follower)
    (hR : w.reign me.currentTerm = some R)
    (hcut : careful → Cut RaftEntry.term me.log R me.currentTerm (idx - 1)) :
    ∃ w', Follows careful pl.self w w' ∧ Serves careful pl w' (me.logDelete idx) := by
  have hcut' : careful → Cut RaftEntry.term (w.peer pl.self).log R (w.peer pl.self).term
      (idx - 1) := by
    rw [h.peer]
    exact hcut
  refine ⟨_, h.move (.cut pl.self R (idx - 1) (h.role_eq.trans hrole) (h.term_eq ▸ hR) hcut')
    (by rw [h.peer]; rfl) ?_ (fun _ => le_rfl) ?_ (fun hs => .inl ⟨hs, rfl⟩) h.alone⟩
  · intro c hc
    obtain ⟨e, -, rfl⟩ := List.mem_map.mp hc
    exact ⟨rfl, rfl⟩
  · intro hc
    have hle := (h.applied hc).1.trans (h.commit_le_of_cut hc hR (hcut hc))
    exact (List.take_prefix_take_left hle)

/-- A follower has the first `m` entries of the leader. -/
theorem ack {R : Reign ι RaftEntry} {m : ℕ} (hrole : me.state.role = .follower)
    (hR : w.reign me.currentTerm = some R) (hm : R.log.take m <+: me.log)
    (hlen : m ≤ R.log.length) : ∃ w', Follows careful pl.self w w' ∧ Serves careful pl w' me ∧
      w'.acked pl.self me.currentTerm m := by
  have hself := update_eq_self pl.self w.peer
  rw [h.peer] at hself
  have hmove := h.move (v := me.votedFor) (X := me.log) (k := me.commitIdx) (l := [])
    (.ack pl.self R m (h.role_eq.trans hrole) (h.term_eq ▸ hR) (h.log_eq ▸ hm) hlen)
    hself.symm (by simp) (fun _ => le_rfl)
    (fun _ => List.take_prefix ..) (fun hs => .inl ⟨hs, rfl⟩) h.alone
  rw [List.append_nil] at hmove
  exact ⟨_, hmove.1, hmove.2, .inr ⟨rfl, h.term_eq.symm, le_rfl⟩⟩

theorem settle {k : ℕ} (hk : careful → me.commitIdx ≤ k ∧ ∃ T R, T ≤ me.currentTerm ∧
    w.reign T = some R ∧ Chosen w T k ∧ R.log.take k <+: me.log) :
    ∃ w', Follows careful pl.self w w' ∧ Serves careful pl w' { me with commitIdx := k } := by
  have hchosen : careful → ∃ T R, T ≤ (w.peer pl.self).term ∧ w.reign T = some R ∧
      Chosen w T k ∧ R.log.take k <+: (w.peer pl.self).log := by
    rw [h.peer]
    exact fun hc => (hk hc).2
  have hmove := h.move (l := []) (.settle pl.self k hchosen) (by rw [h.peer]; rfl) (by simp)
    (fun hc => (hk hc).1) (fun _ => List.take_prefix ..) (fun hs => .inl ⟨hs, rfl⟩) h.alone
  rw [List.append_nil] at hmove
  exact ⟨_, hmove⟩

end Serves

end KirinFS.Raft
