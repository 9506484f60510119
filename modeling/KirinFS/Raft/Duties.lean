import KirinFS.Foundation.Loops
import KirinFS.Raft.Answers

/-! # What a server does unasked and for its clients

Elections and heartbeats by the clock, the application of committed entries, and
entries of clients.
-/

namespace KirinFS.Raft
open Foundation.Consensus Foundation.Shadows

/-- `raft_apply_all`, with at most `fuel` tests of its loop. -/
def RaftServer.raftApplyAll {ι : Type} (fuel : ℕ) (me : RaftServer ι) : Option (RaftServer ι) :=
  Foundation.Loops.loop (fun me => if me.lastAppliedIdx < me.commitIdx then
    me.raftApplyEntry.map fun r => .inl r.1 else some (.inr me)) fuel me

variable {ι : Type} [Fintype ι] [DecidableEq ι] {careful stuck : Prop} {pl : Place ι}
  {w w' : World ι RaftEntry} {me me' : RaftServer ι}

omit [DecidableEq ι] in
/-- The next committed entry is applied; a careful server has it. -/
theorem Rests.applyEntry (h : Rests careful pl w me) (hlt : me.lastAppliedIdx < me.commitIdx) :
    ∃ r, me.raftApplyEntry = some r ∧ Rests careful pl w r.1 ∧ r.1.log = me.log ∧ (careful →
      r.2 = 0 ∧ r.1.lastAppliedIdx = me.lastAppliedIdx + 1 ∧ r.1.commitIdx = me.commitIdx) := by
  have hget : me.raftGetEntryFromIdx (me.lastAppliedIdx + 1) = some me.log[me.lastAppliedIdx]? :=
    RaftServer.getEntryFromIdx_of_pos (Nat.add_one_pos _)
  rw [RaftServer.raftApplyEntry, if_neg hlt.ne]
  simp only [hget, Option.bind_eq_bind, Option.bind_some]
  rcases hety : me.log[me.lastAppliedIdx]? with _ | e
  · refine ⟨_, rfl, h, rfl, fun hc => ?_⟩
    have hend := List.getElem?_eq_none_iff.mp hety
    have hle := h.commit_le hc
    omega
  · have happly : ∀ v, Rests careful pl w { me with
        lastAppliedIdx := me.lastAppliedIdx + 1, votingCfgChangeLogIdx := v
        calls := me.calls ++ [.applylog e] } := fun v =>
      { h with
        sent := fun c hmem m hm => by
          rcases List.mem_append.mp hmem with hmem | hmem
          · exact h.sent c hmem m hm
          · obtain rfl := List.mem_singleton.mp hmem
            cases hm
        applied := fun hc => by
          refine ⟨hlt, ?_⟩
          have hpast := (h.applied hc).2
          rw [List.take_add_one, hety, ← hpast, List.filterMap_append, ← List.append_assoc]
          rfl }
    dsimp only
    split
    · exact ⟨_, rfl, happly none, rfl, fun _ => ⟨rfl, rfl, rfl⟩⟩
    · exact ⟨_, rfl, happly me.votingCfgChangeLogIdx, rfl, fun _ => ⟨rfl, rfl, rfl⟩⟩

omit [DecidableEq ι] in
theorem Rests.applyAll (h : Rests careful pl w me) (hc : careful) :
    ∃ me', (Rests careful pl w me' ∧ me'.log = me.log ∧ me'.lastAppliedIdx = me.commitIdx) ∧
      ∀ fuel, me.commitIdx - me.lastAppliedIdx < fuel → me.raftApplyAll fuel = some me' := by
  refine Foundation.Loops.loop_of_variant
    (I := fun s => Rests careful pl w s ∧ s.log = me.log ∧ s.commitIdx = me.commitIdx)
    (fun s => me.commitIdx - s.lastAppliedIdx) ?_ ⟨h, rfl, rfl⟩
  rintro s ⟨hs, hlog, hcommit⟩
  by_cases hlt : s.lastAppliedIdx < s.commitIdx
  · obtain ⟨r, happly, hs', hlog', hr⟩ := hs.applyEntry hlt
    obtain ⟨-, hnext, hsame⟩ := hr hc
    refine ⟨.inl r.1, by rw [if_pos hlt, happly]; rfl,
      ⟨hs', hlog'.trans hlog, hsame.trans hcommit⟩, ?_⟩
    show me.commitIdx - r.1.lastAppliedIdx < me.commitIdx - s.lastAppliedIdx
    omega
  · have hle := (hs.applied hc).1
    exact ⟨.inr s, if_neg hlt, hs, hlog, by omega⟩

/-- The clock: a leader sends heartbeats, another server may stand for the next term, and one
committed entry is applied. -/
theorem Rests.periodic (h : Rests careful pl w me) (msec rand : ℕ) :
    Yields (Follows careful pl.self) stuck w (fun r w' => Rests careful pl w' r.1)
      (me.raftPeriodic msec rand) := by
  have h₁ : Rests careful pl w { me with timeoutElapsed := me.timeoutElapsed + msec } :=
    { toServes := h.aside (me.timeoutElapsed + msec) me.currentLeader me.votingCfgChangeLogIdx
      tracked := h.tracked }
  have hlast : ∀ {me' w'}, Rests careful pl w' me' → Yields (Follows careful pl.self) stuck w'
      (fun r w' => Rests careful pl w' r.1)
      (if me'.lastAppliedIdx < me'.commitIdx then
        me'.raftApplyEntry.bind fun r => some (r.1, if r.2 = -1 then (-1 : ℤ) else 0)
      else some (me', 0)) := by
    intro me' w' h'
    split
    · next hlt =>
      obtain ⟨r, happly, hr, -⟩ := h'.applyEntry hlt
      rw [happly]
      exact ⟨w', .refl, hr⟩
    · exact .pure .refl h'
  rw [RaftServer.raftPeriodic]
  simp only [Option.bind_eq_bind]
  split_ifs with hstate htime htime hmany
  · obtain ⟨me', hme', h'⟩ := h₁.sendAppendentriesAll hstate
    rw [hme']
    exact hlast h'
  · exact hlast h₁
  · rw [← List.length_map (·.id), h.ids] at hmany
    obtain ⟨me', w', hme', hf, h'⟩ := h₁.becomeCandidate hmany rand
    rw [RaftServer.raftElectionStart, hme']
    exact (hlast h').after Follows.trans hf
  · exact hlast h₁
  · exact hlast h₁

/-- The entry of a client is where the answer says, in the log of the leader that took it. -/
def Receipt (w : World ι RaftEntry) (ety : RaftEntry) (r : MsgEntryResponse) : Prop :=
  ety.id ≠ 0 → r.id = ety.id ∧ 0 < r.idx ∧ ∃ R, w.reign r.term = some R ∧
    R.log[r.idx - 1]? = some { ety with term := r.term }

/-- An entry of a client, which a leader adds to its log. -/
theorem Rests.recvEntry (h : Rests careful pl w me) (ety : RaftEntry) :
    Yields (Follows careful pl.self) stuck w
      (fun r w' => Rests careful pl w' r.1 ∧ ∀ resp ∈ r.2.2, Receipt w' ety resp)
      (me.raftRecvEntry ety) := by
  rw [RaftServer.raftRecvEntry]
  by_cases hbusy : raftEntryIsVotingCfgChange ety ∧ me.votingCfgChangeLogIdx ≠ none
  · rw [if_pos hbusy]
    exact .pure .refl ⟨h, by simp⟩
  rw [if_neg hbusy]
  split
  · exact .pure .refl ⟨h, by simp⟩
  · next hstate =>
    have hlead : me.state = .leader := not_not.mp hstate
    let ety' : RaftEntry := { ety with term := me.currentTerm }
    obtain ⟨w₁, hf₁, h₁⟩ := h.write hlead (show ety'.term = me.currentTerm from rfl)
    obtain ⟨hstate₁, hnodes₁, htracked₁⟩ : (me.raftAppendEntry ety').1.state = .leader ∧
        (me.raftAppendEntry ety').1.nodes = me.nodes ∧
          ∀ n, Tracked w₁ me n → Tracked w₁ (me.raftAppendEntry ety').1 n := by
      refine me.appendEntry_cases ety' (fun me' => me'.state = .leader ∧ me'.nodes = me.nodes ∧
        ∀ n, Tracked w₁ me n → Tracked w₁ me' n) (fun _ _ => ⟨hlead, rfl, fun _ => id⟩) fun _ => ?_
      refine ⟨hlead, rfl, fun n hn => ⟨?_, hn.2⟩⟩
      simp only [List.length_append, List.length_singleton]
      exact hn.1.trans (Nat.le_succ _)
    have hrests₁ : Rests careful pl w₁ (me.raftAppendEntry ety').1 := by
      refine { toServes := h₁, tracked := fun _ n hn hne => htracked₁ n ?_ }
      exact (h.tracked hlead n (hnodes₁ ▸ hn) hne).grows hf₁.grows
    obtain ⟨cs, hcs, h₂⟩ := h₁.forNodes_sends
      (p := fun me n => me.isVotingPeer n && n.nextIdx = me.raftGetCurrentIdx)
      (b := RaftServer.raftSendAppendentries) fun cs hcs n hn hp => by
        rw [Bool.and_eq_true] at hp
        have hne := hcs.ne_of_votingPeer hp.1
        exact hcs.sendAppendentries hstate₁ (hcs.getNode_of_mem hn) hne (hcs.next n hn)
          (hrests₁.tracked hstate₁ n hn hne.symm).1
    have hmany : (me.raftAppendEntry ety').1.nodes.length ≠ 1 := by
      have hlen := h.alone (.inr hlead)
      rw [← h.ids, List.length_map] at hlen
      rw [hnodes₁]
      omega
    have hreceipt : Receipt w₁ ety ⟨ety.id, (me.raftAppendEntry ety').1.currentTerm,
        (me.raftAppendEntry ety').1.raftGetCurrentIdx⟩ := by
      obtain ⟨R, hR, -, hlog⟩ := hrests₁.leads hstate₁
      intro hid
      obtain ⟨v, hv⟩ := me.appendEntry_eq ety'
      have htaken : me.raftAppendEntry ety' = ({ me with
          votingCfgChangeLogIdx := v, log := me.log ++ [ety']
          calls := me.calls ++ [.logOffer ety' me.log.length] }, 0) := hv.trans (if_neg hid)
      rw [htaken] at hR hlog ⊢
      refine ⟨rfl, ?_, R, hR, ?_⟩
      · simp [RaftServer.raftGetCurrentIdx]
      · simp [hlog, RaftServer.raftGetCurrentIdx, ety']
    simp only [Option.bind_eq_bind]
    rw [hcs, Option.bind_some, if_neg hmany]
    refine ⟨w₁, hf₁, ?_⟩
    split
    · exact ⟨{ toServes := h₂.aside _ _ _, tracked := hrests₁.tracked },
        fun _ hresp => Option.some.inj hresp ▸ hreceipt⟩
    · exact ⟨{ toServes := h₂, tracked := hrests₁.tracked },
        fun _ hresp => Option.some.inj hresp ▸ hreceipt⟩

end KirinFS.Raft
