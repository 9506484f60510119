import Mathlib.Data.Finset.Max
import KirinFS.Raft.Follow

/-! # Requests and answers

What the answers of the others are worth: votes make a leader, and entries that
are held make a commit.
-/

namespace KirinFS.Raft
open Foundation.Consensus Foundation.Shadows

variable {ι : Type} [Fintype ι] [DecidableEq ι] {careful stuck : Prop} {pl : Place ι}
  {w w' : World ι RaftEntry} {me me' : RaftServer ι} {src : ι}

section Votes

omit [Fintype ι] [DecidableEq ι] in
/-- A vote that is granted goes to a log that is as up to date. -/
theorem RaftServer.shouldGrantVote_spec {vr : MsgRequestvote ι} {Y : List RaftEntry}
    (hgrant : me.shouldGrantVote vr) (hidx : vr.lastLogIdx = Y.length)
    (hterm : vr.lastLogTerm = lastStamp RaftEntry.term Y) :
    me.currentTerm ≤ vr.term ∧ me.votedFor = none ∧ UpToDate RaftEntry.term me.log Y := by
  rw [RaftServer.shouldGrantVote, RaftServer.raftGetCurrentIdx] at hgrant
  split_ifs at hgrant with hlt hvoted
  refine ⟨not_lt.mp hlt, not_not.mp hvoted, ?_⟩
  rcases hlast : me.log[me.log.length - 1]? with _ | e
  · have hnil : me.log = [] := by
      by_contra hne
      obtain ⟨x, hx⟩ := exists_last (List.length_pos_iff.mpr hne)
      cases hlast.symm.trans hx
    rw [hnil]
    rcases Nat.eq_zero_or_pos (lastStamp RaftEntry.term Y) with hzero | hpos
    · exact .inr ⟨hzero.symm, Nat.zero_le _⟩
    · exact .inl hpos
  · rw [hlast] at hgrant
    rw [UpToDate, lastStamp_eq hlast, ← hterm, ← hidx]
    simp only [Bool.or_eq_true, Bool.and_eq_true, decide_eq_true_eq] at hgrant
    exact hgrant.imp_right (And.imp_left Eq.symm)

omit [DecidableEq ι] in
/-- Leaders and candidates have voted for themselves. -/
theorem Serves.role_of_vote (h : Serves careful pl w me) (hvote : me.votedFor = none) :
    me.state.role = .follower := by
  have hrole := h.role_eq
  have hnone := h.vote_eq.trans hvote
  rcases hstate : me.state with _ | _ | _ | _
  · rfl
  · rfl
  · rw [hstate] at hrole
    rw [(h.sound.elections.runs pl.self hrole).1] at hnone
    cases hnone
  · rw [hstate] at hrole
    rw [h.sound.elections.voted pl.self hrole] at hnone
    cases hnone

/-- A request for a vote: the assertion of the handler never fails. -/
theorem Rests.recvRequestvote {vr : MsgRequestvote ι} (h : Rests careful pl w me)
    (hgen : (Message.requestvote vr).Genuine careful w src pl.self) :
    Yields (Follows careful pl.self) stuck w
      (fun r w' => Rests careful pl w' r.1 ∧
        (Message.requestvoteResponse r.2).Genuine careful w' pl.self src)
      (me.raftRecvRequestvote vr) := by
  obtain ⟨rfl, Y, hY, hidx, hterm⟩ := hgen
  obtain ⟨me₁, w₁, hme₁, hle, hf₁, h₁⟩ : ∃ me₁ w₁, (if me.currentTerm < vr.term then
      (me.raftSetCurrentTerm vr.term).raftBecomeFollower else me) = me₁ ∧
        vr.term ≤ me₁.currentTerm ∧ Follows careful pl.self w w₁ ∧ Rests careful pl w₁ me₁ := by
    split
    · next hlt =>
      obtain ⟨w', hf, hserve⟩ := h.observe hlt
      refine ⟨_, w', rfl, ?_, hf, hserve.rests rfl⟩
      rw [RaftServer.setCurrentTerm_of_lt hlt]
      exact le_rfl
    · next hge => exact ⟨me, w, rfl, not_lt.mp hge, .refl, h⟩
  rw [RaftServer.raftRecvRequestvote, hme₁]
  refine .after Follows.trans hf₁ ?_
  split
  · next hgrant =>
    obtain ⟨hge, hvote, hup⟩ := RaftServer.shouldGrantVote_spec hgrant hidx hterm
    have hrole := h₁.role_of_vote hvote
    rw [le_antisymm hle hge] at hY
    obtain ⟨w₂, hf₂, h₂, X, hX⟩ := h₁.voteFor hrole hvote (hf₁.grows.stood _ _ _ hY) hup
    rw [if_neg]
    · exact ⟨w₂, hf₂, (h₂.aside 0 none me₁.votingCfgChangeLogIdx).rests hrole, fun _ => ⟨X, hX⟩⟩
    · rintro (hstate | hstate) <;> rw [hstate] at hrole <;> cases hrole
  · exact ⟨w₁, .refl, h₁, fun hgranted => by cases hgranted⟩

theorem Serves.card_eq (h : Serves careful pl w me) : Fintype.card ι = me.nodes.length := by
  have hnodup : (me.nodes.map (·.id)).Nodup := h.ids ▸ pl.nodup
  rw [← List.length_map (·.id), ← List.toFinset_card_of_nodup hnodup, h.ids]
  exact (Finset.card_eq_of_equiv_fintype (Equiv.subtypeUnivEquiv (by simpa using pl.all))).symm

theorem Serves.majority_of_peers {l : List (RaftNode ι)} (h : Serves careful pl w me)
    (hsub : l.Sublist (me.nodes.filter me.isVotingPeer))
    (hlen : me.nodes.length < 2 * (l.length + 1)) :
    Majority (insert pl.self (l.map (·.id)).toFinset) := by
  have hnodup : (me.nodes.map (·.id)).Nodup := h.ids ▸ pl.nodup
  have hids : (l.map (·.id)).Nodup := hnodup.sublist ((hsub.trans List.filter_sublist).map _)
  have hself : pl.self ∉ (l.map (·.id)).toFinset := by
    rw [List.mem_toFinset]
    intro hmem
    obtain ⟨n, hn, heq⟩ := List.mem_map.mp hmem
    exact h.ne_of_votingPeer (List.mem_filter.mp (hsub.subset hn)).2 heq.symm
  rw [Majority, Finset.card_insert_of_notMem hself, List.toFinset_card_of_nodup hids,
    List.length_map, h.card_eq]
  exact hlen

/-- The votes that are counted are those of a majority. -/
theorem Serves.majority {votes : ℕ} (h : Serves careful pl w me) (hstate : me.state = .candidate)
    (hvotes : me.raftGetNvotesForMe = some votes)
    (hmaj : raftVotesIsMajority me.nodes.length votes) :
    ∃ Q : Finset ι, Majority Q ∧
      ∀ u ∈ Q, u = pl.self ∨ ∃ X, w.granted u pl.self me.currentTerm X := by
  let voters := me.nodes.filter fun n => me.isVotingPeer n && n.raftNodeHasVoteForMe
  have hsub : voters.Sublist (me.nodes.filter me.isVotingPeer) :=
    List.monotone_filter_right _ fun n => by simp +contextual
  refine ⟨_, h.majority_of_peers hsub ?_, ?_⟩
  · rw [RaftServer.raftGetNvotesForMe, h.node, Option.map_some, Option.some.injEq] at hvotes
    rw [raftVotesIsMajority] at hmaj
    split_ifs at hmaj
    have hhalf := of_decide_eq_true hmaj
    have hle : votes ≤ voters.length + 1 := by
      rw [← hvotes]
      split <;> simp [voters]
    omega
  · intro u hu
    rcases Finset.mem_insert.mp hu with rfl | hu
    · exact .inl rfl
    · obtain ⟨n, hn, rfl⟩ := List.mem_map.mp (List.mem_toFinset.mp hu)
      obtain ⟨hmem, hboth⟩ := List.mem_filter.mp hn
      rw [Bool.and_eq_true] at hboth
      exact .inr (h.votes hstate n hmem hboth.2 (h.ne_of_votingPeer hboth.1).symm)

theorem Rests.recvRequestvoteResponse {r : MsgRequestvoteResponse} (h : Rests careful pl w me)
    (hgen : (Message.requestvoteResponse (ι := ι) r).Genuine careful w src pl.self) :
    Yields (Follows careful pl.self) stuck w (fun me' w' => Rests careful pl w' me')
      (me.raftRecvRequestvoteResponse (some src) r) := by
  rw [RaftServer.raftRecvRequestvoteResponse]
  split_ifs with hstate hlt hne hgranted
  · exact .pure .refl h
  · obtain ⟨w', hf, hserve⟩ := h.observe hlt
    exact ⟨w', hf, hserve.rests rfl⟩
  · exact .pure .refl h
  · have hterm : me.currentTerm = r.term := not_not.mp hne
    have hflag : Serves careful pl w (me.setNode src (·.raftNodeVoteForMe true)) :=
      h.setNode (fun n => by simp [RaftNode.raftNodeVoteForMe]) (fun n => by simp)
        (fun n hn => by simpa [RaftNode.raftNodeVoteForMe] using hn)
        (fun _ n _ heq _ _ => .inr (hterm ▸ heq ▸ hgen hgranted))
    have hcand : me.state = .candidate := not_not.mp hstate
    have hvotes : ∃ v, (me.setNode src (·.raftNodeVoteForMe true)).raftGetNvotesForMe = some v := by
      rw [RaftServer.raftGetNvotesForMe, hflag.node]
      exact ⟨_, rfl⟩
    obtain ⟨votes, hvotes⟩ := hvotes
    simp only [hvotes, Option.bind_eq_bind, Option.bind_some]
    split
    · next hmaj =>
      obtain ⟨Q, hQ, hall⟩ := hflag.majority hcand hvotes hmaj
      obtain ⟨me', w', hlead, hf, hrests⟩ := hflag.becomeLeader hcand hQ hall
      rw [hlead]
      exact ⟨w', hf, hrests⟩
    · refine .pure .refl { toServes := hflag, tracked := fun hlead => ?_ }
      cases hcand.symm.trans hlead
  · exact .pure .refl h

end Votes

section Matches

/-- A node that counts for committing up to the point. -/
structure RaftServer.Counts (me : RaftServer ι) (point : ℕ) (n : RaftNode ι) : Prop where
  pos : 0 < n.matchIdx
  point_le : point ≤ n.matchIdx
  own : ∃ e, me.log[n.matchIdx - 1]? = some e ∧ e.term = me.currentTerm

namespace Rests
variable (h : Rests careful pl w me) (hstate : me.state = .leader)
include h hstate

omit [DecidableEq ι] in
theorem leads : ∃ R, w.reign me.currentTerm = some R ∧ R.leader = pl.self ∧ R.log = me.log := by
  have hleads := h.sound.elections.leads pl.self (by rw [h.role_eq, hstate]; rfl)
  rwa [h.term_eq, h.log_eq] at hleads

omit [DecidableEq ι] in
theorem acked_le (hc : careful) {u : ι} {k : ℕ} (hk : w.acked u me.currentTerm k) :
    k ≤ me.log.length := by
  obtain ⟨R, hR, -, hlog⟩ := h.leads hstate
  obtain ⟨-, R', hR', hle⟩ := (h.sound.safe hc).acks.reigned _ _ _ hk
  rw [hR, Option.some.injEq] at hR'
  rwa [← hR', hlog] at hle

/-- The count of the votes finds the entry of every peer. -/
theorem commitVotes (point : ℕ) :
    Yields (Follows careful pl.self) (¬ careful) w (fun votes w' => Rests careful pl w' me ∧
      ∃ l : List (RaftNode ι), l.Sublist (me.nodes.filter me.isVotingPeer) ∧
        votes = 1 + l.length ∧ ∀ n ∈ l, me.Counts point n) (me.commitVotes point) := by
  rw [RaftServer.commitVotes]
  refine (Yields.foldlM (I := fun left votes w' => Rests careful pl w' me ∧
    ∃ l : List (RaftNode ι), (l ++ left).Sublist (me.nodes.filter me.isVotingPeer) ∧
      votes = 1 + l.length ∧ ∀ n ∈ l, me.Counts point n) .refl Follows.trans ?_ _ 1
    ⟨h, [], .refl _, rfl, by simp⟩).mono ?_
  · rintro n left votes w' ⟨hw', l, hsub, rfl, hcounts⟩
    have hskip : (l ++ left).Sublist (me.nodes.filter me.isVotingPeer) :=
      ((List.sublist_cons_self n left).append_left l).trans hsub
    have hmem := hsub.subset (List.mem_append_right l List.mem_cons_self)
    rw [List.mem_filter] at hmem
    split
    · next hpos =>
      have htracked := hw'.tracked hstate n hmem.1 (hw'.ne_of_votingPeer hmem.2).symm
      rw [RaftServer.getEntryFromIdx_of_pos hpos]
      rcases hety : me.log[n.matchIdx - 1]? with _ | ety
      · intro hc
        have hle := hw'.acked_le hstate hc (htracked.2 hpos)
        have hend := List.getElem?_eq_none_iff.mp hety
        omega
      · simp only [Option.bind_eq_bind, Option.bind_some]
        split
        · next hcond =>
          obtain ⟨hterm, hpoint⟩ := hcond
          refine .pure .refl ⟨hw', l ++ [n], by simpa using hsub, by simp [Nat.add_assoc], ?_⟩
          intro m hm
          rcases List.mem_append.mp hm with hm | hm
          · exact hcounts m hm
          · rw [List.mem_singleton] at hm
            exact hm ▸ ⟨hpos, hpoint, ety, hety, hterm⟩
        · exact .pure .refl ⟨hw', l, hskip, rfl, hcounts⟩
    · exact .pure .refl ⟨hw', l, hskip, rfl, hcounts⟩
  · rintro votes w' - ⟨hw', l, hsub, hvotes⟩
    rw [List.append_nil] at hsub
    exact ⟨hw', l, hsub, hvotes⟩

/-- What a majority holds, with an entry of the term of the leader, is chosen. -/
theorem chosen (hc : careful) {l : List (RaftNode ι)} {point : ℕ}
    (hsub : l.Sublist (me.nodes.filter me.isVotingPeer)) (hlen : me.nodes.length / 2 < 1 + l.length)
    (hcounts : ∀ n ∈ l, me.Counts point n) : Chosen w me.currentTerm point := by
  obtain ⟨R, hR, hlead, hlog⟩ := h.leads hstate
  have hacks := (h.sound.safe hc).acks
  have hlogs := h.sound.logs
  have hpeer : ∀ n ∈ l, n ∈ me.nodes ∧ me.isVotingPeer n := fun n hn =>
    List.mem_filter.mp (hsub.subset hn)
  -- the leader is not alone, so there is a peer that counts; take the one that holds least
  have hmany := h.alone (.inr hstate)
  rw [← h.ids, List.length_map] at hmany
  have hne : l.toFinset.Nonempty := by
    rw [List.toFinset_nonempty_iff, ← List.length_pos_iff]
    omega
  obtain ⟨n, hn, hmin⟩ := l.toFinset.exists_min_image (·.matchIdx) hne
  rw [List.mem_toFinset] at hn
  obtain ⟨hpos, hpoint, e, he, hterm⟩ := hcounts n hn
  have hacked : ∀ m ∈ l, w.acked m.id me.currentTerm n.matchIdx := by
    intro m hm
    obtain ⟨hmem, hp⟩ := hpeer m hm
    have htracked := h.tracked hstate m hmem (h.ne_of_votingPeer hp).symm
    exact hacks.down _ _ _ _ (htracked.2 (hcounts m hm).pos) (hmin m (List.mem_toFinset.mpr hm))
  have hle : n.matchIdx ≤ R.log.length := hlog ▸ h.acked_le hstate hc (hacked n hn)
  have hfirst : R.first.length < n.matchIdx := by
    by_contra hge
    obtain ⟨l', hown, -⟩ := hlogs.reign_own _ R hR
    rw [← hlog, hown, List.getElem?_append_left (by omega)] at he
    have hlt := (hlogs.stood_bound _ _ _ (hlogs.reign_stood _ R hR)).2 e (List.mem_of_getElem? he)
    omega
  have hself : w.acked pl.self me.currentTerm n.matchIdx := by
    rw [← hlead]
    exact hacks.down _ _ _ _ (hacks.own _ R hR (hfirst.trans_le hle)) hle
  refine ⟨R, hR, n.matchIdx, hpoint, hfirst, hle, _, h.majority_of_peers hsub (by omega), ?_⟩
  intro u hu
  rcases Finset.mem_insert.mp hu with rfl | hu
  · exact hself
  · obtain ⟨m, hm, rfl⟩ := List.mem_map.mp (List.mem_toFinset.mp hu)
    exact hacked m hm

/-- What the leader writes down about a peer is true of it. -/
theorem note {id : ι} {f : RaftNode ι → RaftNode ι} (hid : ∀ n, (f n).id = n.id)
    (hvoting : ∀ n, (f n).raftNodeIsVoting = n.raftNodeIsVoting)
    (hnext : ∀ n, 1 ≤ n.nextIdx → 1 ≤ (f n).nextIdx)
    (htracked : ∀ n ∈ me.nodes, n.id = id → n.id ≠ pl.self → Tracked w me n → Tracked w me (f n)) :
    Rests careful pl w (me.setNode id f) where
  toServes := h.setNode hid hvoting hnext fun hcand => by cases hcand.symm.trans hstate
  tracked _ m hm hne := by
    rcases RaftServer.mem_setNode hm with ⟨n, hn, heq, rfl⟩ | ⟨hm, -⟩
    · rw [hid] at hne
      exact htracked n hn heq hne (h.tracked hstate n hn hne)
    · exact h.tracked hstate m hm hne

theorem sendAppendentries {id : ι} (hne : pl.self ≠ id) :
    ∃ c, me.raftSendAppendentries id = some (me.call c) ∧ Rests careful pl w (me.call c) := by
  obtain ⟨n, hn, rfl, hget⟩ := h.exists_node id
  obtain ⟨c, hc, hserve⟩ := h.toServes.sendAppendentries hstate hget hne (h.next n hn)
    (h.tracked hstate n hn hne.symm).1
  exact ⟨c, hc, { toServes := hserve, tracked := h.tracked }⟩

theorem sendRemaining (hne : src ≠ pl.self) :
    Yields (Follows careful pl.self) (¬ careful) w (fun me' w' => Rests careful pl w' me')
      (me.sendRemaining src) := by
  obtain ⟨n, hn, hid, hget⟩ := h.exists_node src
  simp only [RaftServer.sendRemaining, hget, RaftServer.getEntryFromIdx_of_pos (h.next n hn),
    Option.bind_eq_bind, Option.bind_some]
  split
  · obtain ⟨c, hc, h'⟩ := h.sendAppendentries hstate hne.symm
    rw [hc]
    exact ⟨w, .refl, h'⟩
  · exact .pure .refl h

/-- The commit index moves only to what is chosen. -/
theorem countVotes {ci : ℕ} (hle : ci ≤ me.log.length) :
    Yields (Follows careful pl.self) (¬ careful) w
      (fun me' w' => Rests careful pl w' me' ∧ me'.state = .leader) (me.countVotes ci) := by
  refine (h.commitVotes hstate ci).bind Follows.trans ?_
  rintro votes w₂ - ⟨h₂, l, hsub, rfl, hcounts⟩
  split
  · next hcond =>
    obtain ⟨hmaj, hlt⟩ := hcond
    rw [RaftServer.raftSetCommitIdx, if_pos ⟨hlt.le, hle⟩]
    obtain ⟨R, hR, -, hlog⟩ := h₂.leads hstate
    obtain ⟨w₃, hf₃, h₃⟩ := h₂.settle (k := ci) fun hc => ⟨hlt.le, _, R, le_rfl, hR,
      h₂.chosen hstate hc hsub hmaj hcounts, hlog ▸ List.take_prefix ..⟩
    refine ⟨w₃, hf₃, ⟨h₃, fun _ m hm hm' => ?_⟩, hstate⟩
    exact (h₂.tracked hstate m hm hm').grows hf₃.grows
  · exact .pure .refl ⟨h₂, hstate⟩

/-- A peer holds the entries up to an index, and with it perhaps a majority. -/
theorem recordMatch {ci : ℕ} (hne : src ≠ pl.self) (hacked : w.acked src me.currentTerm ci) :
    Yields (Follows careful pl.self) (¬ careful) w (fun me' w' => Rests careful pl w' me')
      (me.recordMatch src ci) := by
  rw [RaftServer.recordMatch]
  split
  · next hle =>
    obtain ⟨n, hn, hid, hget⟩ := h.exists_node src
    let f : RaftNode ι → RaftNode ι := fun n =>
      (n.raftNodeSetNextIdx (ci + 1)).raftNodeSetMatchIdx ci
    have h₁ : Rests careful pl w (me.setNode src f) := by
      refine h.note hstate (fun _ => rfl) (fun _ => rfl) (fun m _ => ?_) ?_
      · simp [f, RaftNode.raftNodeSetNextIdx, RaftNode.raftNodeSetMatchIdx]
      · rintro m - rfl - -
        refine ⟨?_, fun _ => hacked⟩
        simpa [f, RaftNode.raftNodeSetNextIdx, RaftNode.raftNodeSetMatchIdx,
          RaftServer.raftGetCurrentIdx] using hle
    have hget₁ := h₁.getNode_setNode (fun _ => rfl) hget
    have hvoting : (f n).raftNodeIsVoting := h.voting n hn
    simp only [Option.bind_eq_bind]
    rw [hget₁, Option.bind_some, if_neg (fun hcond => hcond.1 hvoting)]
    refine (h₁.countVotes hstate hle).bind Follows.trans ?_
    rintro me₂ w₂ - ⟨h₂, hstate₂⟩
    exact h₂.sendRemaining hstate₂ hne
  · next hlt => exact fun hc => hlt (h.acked_le hstate hc hacked)

/-- A peer has not taken the entries: it is tried with earlier ones. -/
theorem stepBack {n : RaftNode ι} {ci : ℕ} (hne : src ≠ pl.self)
    (hget : me.raftGetNode src = some n) :
    ∃ me', me.stepBack src n.nextIdx ci = some me' ∧ Rests careful pl w me' := by
  have hid : n.id = src := by
    have heq := List.find?_some hget
    exact (of_decide_eq_true heq).symm
  have htracked := h.tracked hstate n (List.mem_of_find?_eq_some hget) (hid ▸ hne)
  have hback : ∀ k ≤ me.log.length, ∃ me',
      (me.setNode src (·.raftNodeSetNextIdx k)).raftSendAppendentries src = some me' ∧
        Rests careful pl w me' := by
    intro k hk
    have h₁ : Rests careful pl w (me.setNode src (·.raftNodeSetNextIdx k)) := by
      refine h.note hstate (fun _ => rfl) (fun _ => rfl) (fun m _ => ?_)
        fun m _ _ _ hm => ⟨?_, hm.2⟩
      · simp only [RaftNode.raftNodeSetNextIdx]
        split <;> omega
      · simp only [RaftNode.raftNodeSetNextIdx]
        split <;> omega
    obtain ⟨c, hc, h₂⟩ := h₁.sendAppendentries hstate hne.symm
    exact ⟨_, hc, h₂⟩
  rw [RaftServer.stepBack]
  have hbound := htracked.1
  split
  · exact hback _ (min_le_right ..)
  · exact hback _ (by omega)

end Rests

theorem Rests.heedResponse {r : MsgAppendentriesResponse} (h : Rests careful pl w me)
    (hne : src ≠ pl.self)
    (hgen : (Message.appendentriesResponse (ι := ι) r).Genuine careful w src pl.self) :
    Yields (Follows careful pl.self) (¬ careful) w (fun r w' => Rests careful pl w' r.1)
      (me.heedResponse (some src) r) := by
  obtain ⟨n, hn, hid, hget⟩ := h.exists_node src
  rw [RaftServer.heedResponse]
  split_ifs with hstate hlt hother hsuccess
  · exact .pure .refl h
  · obtain ⟨w', hf, hserve⟩ := h.observe hlt
    exact ⟨w', hf, hserve.rests rfl⟩
  · exact .pure .refl h
  · have hterm : me.currentTerm = r.term := not_not.mp hother
    refine (h.recordMatch (not_not.mp hstate) hne (hterm ▸ hgen hsuccess)).map ?_
    exact fun _ _ _ => id
  · obtain ⟨me', hback, hrests⟩ := h.stepBack (not_not.mp hstate) hne hget
    simp only [Option.bind_eq_bind, hget, Option.bind_some]
    rw [hback]
    exact ⟨w, .refl, hrests⟩

theorem Rests.recvAppendentriesResponse {r : MsgAppendentriesResponse} (h : Rests careful pl w me)
    (hne : src ≠ pl.self)
    (hgen : (Message.appendentriesResponse (ι := ι) r).Genuine careful w src pl.self) :
    Yields (Follows careful pl.self) (¬ careful) w (fun r w' => Rests careful pl w' r.1)
      (me.raftRecvAppendentriesResponse (some src) r) := by
  obtain ⟨n, -, -, hget⟩ := h.exists_node src
  rw [RaftServer.raftRecvAppendentriesResponse]
  split
  · simp only [Option.bind_eq_bind, Option.bind_some, hget]
    split
    · exact .pure .refl h
    · exact h.heedResponse hne hgen
  · exact h.heedResponse hne hgen

end Matches

end KirinFS.Raft
