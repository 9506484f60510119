import KirinFS.Raft.Moves

/-! # What a server sends and what it knows of its peers

The loops over the nodes: requests for votes, entries for the peers.
-/

namespace KirinFS.Raft
open Foundation.Consensus Foundation.Shadows Function

variable {ι : Type} [Fintype ι] [DecidableEq ι] {careful : Prop} {pl : Place ι}
  {w w' : World ι RaftEntry} {me me' : RaftServer ι}

namespace RaftServer

omit [Fintype ι] [DecidableEq ι] in
theorem getLastLogTerm_eq (me : RaftServer ι) :
    me.raftGetLastLogTerm = lastStamp RaftEntry.term me.log := by
  rw [raftGetLastLogTerm, lastStamp, List.getLast?_eq_getElem?, raftGetCurrentIdx]
  split
  · rfl
  · next hzero =>
    rw [List.length_eq_zero_iff.mp (by omega : me.log.length = 0)]
    rfl

omit [Fintype ι] [DecidableEq ι] in
theorem newCandidate_eq (me : RaftServer ι) : me.newCandidate =
    { me with
      currentTerm := me.currentTerm + 1, votedFor := me.node, state := .candidate
      nodes := me.nodes.map (·.raftNodeVoteForMe false), currentLeader := none
      calls := me.calls ++ [.persistTerm (me.currentTerm + 1), .persistVote me.node] } := by
  simp [newCandidate, raftSetCurrentTerm, raftVote, raftVoteForNodeid, raftSetState, call]

omit [Fintype ι] [DecidableEq ι] in
theorem getEntryFromIdx_of_pos {idx : ℕ} (hidx : 0 < idx) :
    me.raftGetEntryFromIdx idx = some me.log[idx - 1]? := if_neg (by omega)

omit [Fintype ι] [DecidableEq ι] in
theorem getEntriesFromIdx_of_pos {idx : ℕ} (hidx : 0 < idx) :
    me.raftGetEntriesFromIdx idx = some (me.log.drop (idx - 1)) := if_neg (by omega)

omit [Fintype ι] in
theorem mem_setNode {id : ι} {f : RaftNode ι → RaftNode ι} {m : RaftNode ι}
    (hm : m ∈ (me.setNode id f).nodes) :
    (∃ n ∈ me.nodes, n.id = id ∧ m = f n) ∨ m ∈ me.nodes ∧ m.id ≠ id := by
  obtain ⟨n, hn, heq⟩ := List.mem_map.mp hm
  split at heq
  · next hid => exact .inl ⟨n, hn, hid, heq.symm⟩
  · next hid => exact .inr (heq ▸ ⟨hn, hid⟩)

end RaftServer

namespace Serves
variable (h : Serves careful pl w me)
include h

omit [DecidableEq ι] in
/-- The nodes change, but neither their ids nor their votes without evidence. -/
theorem mapNodes {f : RaftNode ι → RaftNode ι} (hid : ∀ n, (f n).id = n.id)
    (hvoting : ∀ n, (f n).raftNodeIsVoting = n.raftNodeIsVoting)
    (hnext : ∀ n, 1 ≤ n.nextIdx → 1 ≤ (f n).nextIdx)
    (hvotes : me.state = .candidate → ∀ n ∈ me.nodes, (f n).raftNodeHasVoteForMe →
      n.id ≠ pl.self → n.raftNodeHasVoteForMe ∨ ∃ X, w.granted n.id pl.self me.currentTerm X) :
    Serves careful pl w { me with nodes := me.nodes.map f } where
  sound := h.sound
  peer := h.peer
  node := h.node
  ids := by
    rw [List.map_map, ← h.ids]
    exact List.map_congr_left fun n _ => hid n
  voting n' hn' := by
    obtain ⟨n, hn, rfl⟩ := List.mem_map.mp hn'
    exact (hvoting n).trans (h.voting n hn)
  next n' hn' := by
    obtain ⟨n, hn, rfl⟩ := List.mem_map.mp hn'
    exact hnext n (h.next n hn)
  timeout := h.timeout
  votes hcand n' hn' hv hne := by
    obtain ⟨n, hn, rfl⟩ := List.mem_map.mp hn'
    rw [hid] at hne ⊢
    rcases hvotes hcand n hn hv hne with hold | hX
    · exact h.votes hcand n hn hold hne
    · exact hX
  alone := h.alone
  sent := h.sent
  applied := h.applied

theorem setNode {id : ι} {f : RaftNode ι → RaftNode ι} (hid : ∀ n, (f n).id = n.id)
    (hvoting : ∀ n, (f n).raftNodeIsVoting = n.raftNodeIsVoting)
    (hnext : ∀ n, 1 ≤ n.nextIdx → 1 ≤ (f n).nextIdx)
    (hvotes : me.state = .candidate → ∀ n ∈ me.nodes, n.id = id → (f n).raftNodeHasVoteForMe →
      n.id ≠ pl.self → n.raftNodeHasVoteForMe ∨ ∃ X, w.granted n.id pl.self me.currentTerm X) :
    Serves careful pl w (me.setNode id f) := by
  refine h.mapNodes ?_ ?_ ?_ ?_
  · intro n
    split
    · exact hid n
    · rfl
  · intro n
    split
    · exact hvoting n
    · rfl
  · intro n hn
    split
    · exact hnext n hn
    · exact hn
  · intro hcand n hn hv hne
    split at hv
    · next heq => exact hvotes hcand n hn heq hv hne
    · exact .inl hv

omit [DecidableEq ι] in
theorem send {c : RaftCall ι} {m : ι × Message ι} (hm : c.message = some m)
    (happlied : c.applied = none) (hne : pl.self ≠ m.1)
    (hgen : m.2.Genuine careful w pl.self m.1) : Serves careful pl w (me.call c) :=
  { h with
    sent := fun c' hc m' hm' => by
      rcases List.mem_append.mp hc with hc | hc
      · exact h.sent c' hc m' hm'
      · obtain rfl := List.mem_singleton.mp hc
        obtain rfl : m = m' := by simpa [hm] using hm'
        exact ⟨hne, hgen⟩
    applied := fun hc => by
      obtain ⟨hle, hpast⟩ := h.applied hc
      refine ⟨hle, ?_⟩
      rw [RaftServer.call, List.filterMap_append, List.filterMap_cons, happlied]
      simpa using hpast }

theorem exists_node (id : ι) :
    ∃ n ∈ me.nodes, n.id = id ∧ me.raftGetNode id = some n := by
  have hfind : (me.raftGetNode id).isSome := by
    rw [RaftServer.raftGetNode, List.find?_isSome]
    have hid := pl.all id
    rw [← h.ids] at hid
    obtain ⟨n, hn, heq⟩ := List.mem_map.mp hid
    exact ⟨n, hn, by simp [heq]⟩
  obtain ⟨n, hn⟩ := Option.isSome_iff_exists.mp hfind
  have heq := List.find?_some hn
  exact ⟨n, List.mem_of_find?_eq_some hn, (of_decide_eq_true heq).symm, hn⟩

/-- The ids are different, so an id gives the node it is the id of. -/
theorem getNode_of_mem {n : RaftNode ι} (hn : n ∈ me.nodes) :
    me.raftGetNode n.id = some n := by
  obtain ⟨n', hn', heq, hget⟩ := h.exists_node n.id
  have hnodup := pl.nodup
  rw [← h.ids] at hnodup
  rw [hget, List.inj_on_of_nodup_map hnodup hn' hn heq]

theorem ne_of_votingPeer {n : RaftNode ι} (hn : me.isVotingPeer n) : pl.self ≠ n.id := by
  intro heq
  simp [RaftServer.isVotingPeer, h.node, heq] at hn

theorem sendRequestvote {id : ι} (hstate : me.state = .candidate) (hne : pl.self ≠ id) :
    ∃ c, me.raftSendRequestvote id = some (me.call c) ∧ Serves careful pl w (me.call c) := by
  have hrole : (w.peer pl.self).role = .candidate := by
    rw [h.role_eq, hstate]
    rfl
  have hstood := (h.sound.elections.runs pl.self hrole).2
  rw [h.term_eq, h.log_eq] at hstood
  refine ⟨.sendRequestvote id ⟨me.currentTerm, pl.self, me.raftGetCurrentIdx,
    me.raftGetLastLogTerm⟩, ?_, h.send rfl rfl hne ⟨rfl, me.log, hstood, rfl, ?_⟩⟩
  · simp [RaftServer.raftSendRequestvote, h.node, hne]
  · exact me.getLastLogTerm_eq

omit [DecidableEq ι] in
/-- What is committed is chosen, in a term that the server has seen. -/
theorem commit_chosen (hc : careful) :
    me.commitIdx = 0 ∨ ∃ T ≤ me.currentTerm, Chosen w T me.commitIdx := by
  have hcommit := (h.sound.safe hc).commits pl.self
  rw [h.peer] at hcommit
  refine hcommit.imp_right ?_
  rintro ⟨T, R, hT, -, hk, -⟩
  exact ⟨T, hT, hk⟩

/-- A leader sends a peer what it has from the next index of the peer on. -/
theorem sendAppendentries {id : ι} {n : RaftNode ι} (hstate : me.state = .leader)
    (hget : me.raftGetNode id = some n) (hne : pl.self ≠ id) (hpos : 1 ≤ n.nextIdx)
    (hnext : n.nextIdx ≤ me.log.length + 1) :
    ∃ c, me.raftSendAppendentries id = some (me.call c) ∧ Serves careful pl w (me.call c) := by
  have hrole : (w.peer pl.self).role = .leader := by
    rw [h.role_eq, hstate]
    rfl
  obtain ⟨R, hR, hlead, hlog⟩ := h.sound.elections.leads pl.self hrole
  rw [h.term_eq] at hR
  rw [h.log_eq] at hlog
  obtain ⟨prevLogTerm, hprev, hsent⟩ : ∃ t, (∀ e, 0 < n.nextIdx - 1 →
      me.log[n.nextIdx - 1 - 1]? = some e → t = e.term) ∧
      me.raftSendAppendentries id = some (me.call (.sendAppendentries id
        ⟨me.currentTerm, n.nextIdx - 1, t, me.commitIdx, me.log.drop (n.nextIdx - 1)⟩)) := by
    rcases Nat.lt_or_ge 1 n.nextIdx with hlt | hge
    · refine ⟨((me.log[n.nextIdx - 1 - 1]?).map (·.term)).getD 0, fun e _ he => by simp [he], ?_⟩
      simp [RaftServer.raftSendAppendentries, RaftServer.getEntriesFromIdx_of_pos hpos,
        RaftServer.getEntryFromIdx_of_pos (Nat.sub_pos_of_lt hlt), h.node, hne, hget, hlt]
    · obtain hone : n.nextIdx = 1 := by omega
      refine ⟨0, fun e hlt => absurd hlt (by omega), ?_⟩
      simp [RaftServer.raftSendAppendentries, RaftServer.getEntriesFromIdx_of_pos Nat.one_pos,
        h.node, hne, hget, hone]
  refine ⟨_, hsent, h.send rfl rfl hne ⟨R, ?_, hlead⟩⟩
  obtain ⟨l, hfirst, -⟩ := h.sound.logs.reign_own _ R hR
  have hlen := congrArg List.length hfirst
  rw [List.length_append, hlog] at hlen
  exact {
    reign := hR
    prev := by
      rw [hlog]
      show n.nextIdx - 1 ≤ _
      omega
    stretch := by rw [hlog, List.take_append_drop]
    first := by
      rw [List.length_drop]
      show _ ≤ n.nextIdx - 1 + _
      omega
    prevTerm := by
      rw [hlog]
      exact hprev
    commit := fun hc => by
      refine ⟨?_, h.commit_chosen hc⟩
      have hle := h.commit_le hc
      rw [List.length_drop]
      show me.commitIdx ≤ n.nextIdx - 1 + _
      omega }

end Serves

/-- A server between two calls: as the leader it knows what its peers have. -/
structure Rests (careful : Prop) (pl : Place ι) (w : World ι RaftEntry) (me : RaftServer ι) : Prop
    extends Serves careful pl w me where
  tracked : me.state = .leader → ∀ n ∈ me.nodes, n.id ≠ pl.self → Tracked w me n

section Loops

theorem Serves.forNodes_sends {p : RaftServer ι → RaftNode ι → Bool}
    {b : RaftServer ι → ι → Option (RaftServer ι)} (h : Serves careful pl w me)
    (hbody : ∀ cs, Serves careful pl w { me with calls := cs } → ∀ n ∈ me.nodes,
      p { me with calls := cs } n → ∃ c, b { me with calls := cs } n.id =
        some (({ me with calls := cs } : RaftServer ι).call c) ∧
        Serves careful pl w (({ me with calls := cs } : RaftServer ι).call c)) :
    ∃ cs, me.forNodes p b = some { me with calls := cs } ∧
      Serves careful pl w { me with calls := cs } := by
  have hloop : ∀ l : List (RaftNode ι), (∀ n ∈ l, n ∈ me.nodes) → ∀ cs,
      Serves careful pl w { me with calls := cs } →
      ∃ cs', (l.map (·.id)).foldlM (fun me id => (me.raftGetNode id).bind fun n =>
          if p me n then b me id else some me) { me with calls := cs } =
        some { me with calls := cs' } ∧ Serves careful pl w { me with calls := cs' } := by
    intro l
    induction l with
    | nil => exact fun _ cs hcs => ⟨cs, rfl, hcs⟩
    | cons n l ih =>
      intro hl cs hcs
      have hn := hl n List.mem_cons_self
      have hget : (({ me with calls := cs } : RaftServer ι)).raftGetNode n.id = some n :=
        h.getNode_of_mem hn
      rw [List.map_cons, List.foldlM_cons, hget, Option.bind_some]
      split
      · next hp =>
        obtain ⟨c, hc, hserve⟩ := hbody cs hcs n hn hp
        rw [hc]
        exact ih (fun m hm => hl m (List.mem_cons_of_mem _ hm)) _ hserve
      · exact ih (fun m hm => hl m (List.mem_cons_of_mem _ hm)) cs hcs
  exact hloop me.nodes (fun _ => id) me.calls h

theorem Rests.sendAppendentriesAll (h : Rests careful pl w me) (hstate : me.state = .leader) :
    ∃ me', me.raftSendAppendentriesAll = some me' ∧ Rests careful pl w me' := by
  have haside := h.toServes.aside 0 me.currentLeader me.votingCfgChangeLogIdx
  obtain ⟨cs, hcs, hserve⟩ := haside.forNodes_sends
    (p := fun me n => me.node ≠ some n.id) (b := RaftServer.raftSendAppendentries)
    fun cs hcs n hn hp => by
      have hne : pl.self ≠ n.id := by
        intro heq
        have hself : me.node ≠ some n.id := of_decide_eq_true hp
        exact hself (heq ▸ h.node)
      exact hcs.sendAppendentries hstate (h.getNode_of_mem hn) hne (h.next n hn)
        (h.tracked hstate n hn hne.symm).1
  exact ⟨_, hcs, { toServes := hserve, tracked := h.tracked }⟩

/-- The new term, the vote for itself, and nobody's vote yet. -/
theorem Serves.newCandidate (h : Serves careful pl w me) (hmany : 1 < pl.ids.length) :
    ∃ w', Follows careful pl.self w w' ∧ Serves careful pl w' me.newCandidate ∧
      me.newCandidate.state = .candidate := by
  have hclear : Serves careful pl w
      { me with nodes := me.nodes.map (·.raftNodeVoteForMe false) } :=
    h.mapNodes (fun n => by simp [RaftNode.raftNodeVoteForMe]) (fun n => by simp)
      (fun n hn => by simpa [RaftNode.raftNodeVoteForMe] using hn) (fun _ n _ hv => by simp at hv)
  obtain ⟨hf, hw'⟩ := hclear.move (T := me.currentTerm + 1) (v := me.node) (s := .candidate)
    (k := me.commitIdx) (l := [.persistTerm (me.currentTerm + 1), .persistVote me.node])
    (.stand pl.self (me.currentTerm + 1) (by rw [h.term_eq]; omega))
    (by rw [h.peer, h.node]; rfl)
    (by simp [RaftCall.Silent, RaftCall.message, RaftCall.applied]) (fun _ => le_rfl)
    (fun _ => List.take_prefix ..) (fun _ => .inr (by simp)) (fun _ => hmany)
  rw [me.newCandidate_eq]
  exact ⟨_, hf, hw'.aside me.timeoutElapsed none me.votingCfgChangeLogIdx, rfl⟩

/-- The candidate has a new term and its own vote, and asks the others for theirs. -/
theorem Serves.becomeCandidate (h : Serves careful pl w me) (hmany : 1 < pl.ids.length) (rand : ℕ) :
    ∃ me' w', me.raftBecomeCandidate rand = some me' ∧
      Follows careful pl.self w w' ∧ Rests careful pl w' me' := by
  obtain ⟨w', hf, hnew, hstate⟩ := h.newCandidate hmany
  have htimeout : me.electionTimeout ≠ 0 := h.timeout
  have haside := hnew.aside (rand % me.electionTimeout) me.newCandidate.currentLeader
    me.newCandidate.votingCfgChangeLogIdx
  obtain ⟨cs, hcs, hserve⟩ := haside.forNodes_sends
    (p := RaftServer.isVotingPeer) (b := RaftServer.raftSendRequestvote) fun cs hcs n hn hp => by
      exact hcs.sendRequestvote hstate (hcs.ne_of_votingPeer hp)
  refine ⟨_, w', ?_, hf, { toServes := hserve, tracked := ?_ }⟩
  · rw [RaftServer.raftBecomeCandidate, if_neg h.timeout]
    exact hcs
  · intro hlead
    cases hstate.symm.trans hlead

/-- A pointer to a node goes on to the node as it has been changed. -/
theorem Serves.getNode_setNode {id : ι} {f : RaftNode ι → RaftNode ι} {n : RaftNode ι}
    (hserve : Serves careful pl w (me.setNode id f))
    (hid : ∀ n, (f n).id = n.id) (hget : me.raftGetNode id = some n) :
    (me.setNode id f).raftGetNode id = some (f n) := by
  have hn := List.mem_of_find?_eq_some hget
  have hfound := List.find?_some hget
  have heq : n.id = id := (of_decide_eq_true hfound).symm
  have hmem : f n ∈ (me.setNode id f).nodes := List.mem_map.mpr ⟨n, hn, if_pos heq⟩
  have hfind := hserve.getNode_of_mem hmem
  rwa [hid, heq] at hfind

/-- The body of the loop of a new leader: the peer starts behind the log. -/
theorem Serves.startPeer {id : ι} {n : RaftNode ι} (h : Serves careful pl w me)
    (hstate : me.state = .leader) (hget : me.raftGetNode id = some n) (hne : pl.self ≠ id) :
    ∃ c, (me.setNode id fun n =>
        (n.raftNodeSetNextIdx (me.raftGetCurrentIdx + 1)).raftNodeSetMatchIdx 0).raftSendAppendentries
          id = some ((me.setNode id fun n =>
            (n.raftNodeSetNextIdx (me.raftGetCurrentIdx + 1)).raftNodeSetMatchIdx 0).call c) ∧
      Serves careful pl w ((me.setNode id fun n =>
        (n.raftNodeSetNextIdx (me.raftGetCurrentIdx + 1)).raftNodeSetMatchIdx 0).call c) := by
  have hserve : Serves careful pl w (me.setNode id fun n =>
      (n.raftNodeSetNextIdx (me.raftGetCurrentIdx + 1)).raftNodeSetMatchIdx 0) :=
    h.setNode (fun _ => rfl) (fun _ => rfl)
      (fun n _ => by simp [RaftNode.raftNodeSetNextIdx, RaftNode.raftNodeSetMatchIdx])
      (fun hcand => by cases hstate.symm.trans hcand)
  have hget' := hserve.getNode_setNode (fun _ => rfl) hget
  refine hserve.sendAppendentries hstate hget' hne ?_ ?_ <;>
    simp [RaftNode.raftNodeSetNextIdx, RaftNode.raftNodeSetMatchIdx, RaftServer.raftGetCurrentIdx,
      RaftServer.setNode]

/-- A candidate with a majority leads, and sends what its peers may miss. -/
theorem Serves.becomeLeader {Q : Finset ι} (h : Serves careful pl w me)
    (hstate : me.state = .candidate) (hQ : Majority Q)
    (hvotes : ∀ u ∈ Q, u = pl.self ∨ ∃ X, w.granted u pl.self me.currentTerm X) :
    ∃ me' w', me.raftBecomeLeader = some me' ∧ Follows careful pl.self w w' ∧
      Rests careful pl w' me' := by
  obtain ⟨w', hf, hlead⟩ := h.lead hstate hQ hvotes
  have hloop : ∀ (l : List ι) (me' : RaftServer ι), Serves careful pl w' me' → me'.state = .leader →
      (∀ n ∈ me'.nodes, n.id ≠ pl.self → n.id ∉ l → Tracked w' me' n) →
      ∃ me'', l.foldlM (fun me id => (me.raftGetNode id).bind fun n =>
        if me.isVotingPeer n then (me.setNode id fun n =>
          (n.raftNodeSetNextIdx (me.raftGetCurrentIdx + 1)).raftNodeSetMatchIdx
            0).raftSendAppendentries id else some me) me' = some me'' ∧ Rests careful pl w' me'' := by
    intro l
    induction l with
    | nil =>
      intro me' hserve _ htracked
      exact ⟨me', rfl, { toServes := hserve
                         tracked := fun _ n hn hne => htracked n hn hne List.not_mem_nil }⟩
    | cons id l ih =>
      intro me' hserve hlead htracked
      obtain ⟨n, hn, rfl, hget⟩ := hserve.exists_node id
      rw [List.foldlM_cons, hget, Option.bind_some]
      split
      · next hp =>
        obtain ⟨c, hc, hsent⟩ := hserve.startPeer hlead hget (hserve.ne_of_votingPeer hp)
        rw [hc]
        refine ih _ hsent hlead ?_
        intro m hm hne hnot
        rcases RaftServer.mem_setNode hm with ⟨n', -, -, rfl⟩ | ⟨hm, hid⟩
        · refine ⟨?_, fun hpos => absurd hpos (lt_irrefl _)⟩
          simp [RaftNode.raftNodeSetNextIdx, RaftNode.raftNodeSetMatchIdx,
            RaftServer.raftGetCurrentIdx, RaftServer.setNode, RaftServer.call]
        · exact htracked m hm hne (by simp [hid, hnot])
      · next hp =>
        refine ih me' hserve hlead ?_
        intro m hm hne hnot
        have hself : pl.self = n.id := by
          simpa [RaftServer.isVotingPeer, hserve.node, hserve.voting n hn] using hp
        exact htracked m hm hne (by simp [← hself, hne, hnot])
  obtain ⟨me', hme', hrests⟩ := hloop pl.ids _ hlead rfl fun n hn _ hnot =>
    absurd (hlead.ids ▸ List.mem_map_of_mem hn) hnot
  rw [← hlead.ids] at hme'
  exact ⟨me', w', hme', hf, hrests⟩

end Loops

end KirinFS.Raft
