import Mathlib.Logic.Relation
import KirinFS.Foundation.Loops
import KirinFS.Foundation.Shadows
import KirinFS.Raft.Receive

/-! # What a server may write

Every function of a server, whatever it is called with, changes the state by a
few kinds of writes. The conditions are the checks and the assertions that
guard them.
-/

namespace KirinFS.Raft
open Foundation.Shadows Relation

variable {ι : Type}

inductive Kind where
  | term
  | log
  | post

/-- A write to the state of a server, of a kind that may be. -/
inductive Write (may : Kind → Prop) (me : RaftServer ι) : RaftServer ι → Prop
  /-- A later term, in which there is no vote yet. -/
  | term (hmay : may .term) (T : ℕ) (hT : me.currentTerm < T) : Write may me
      { me with currentTerm := T, votedFor := none, calls := me.calls ++ [.persistTerm T] }
  | state (hmay : may .term) (s : RaftState) : Write may me { me with state := s }
  | vote (node : Option ι) (hvote : me.votedFor = none) : Write may me
      { me with votedFor := node, calls := me.calls ++ [.persistVote node] }
  /-- A vote is forgotten, and nobody is told. -/
  | forget : Write may me { me with votedFor := none }
  | aside (t : ℕ) (l : Option ι) (v : Option ℕ) : Write may me
      { me with timeoutElapsed := t, currentLeader := l, votingCfgChangeLogIdx := v }
  | nodes (l : List (RaftNode ι)) (node : Option ι) : Write may me
      { me with nodes := l, node := node }
  | offer (hmay : may .log) (ety : RaftEntry) (hid : ety.id ≠ 0) : Write may me
      { me with log := me.log ++ [ety], calls := me.calls ++ [.logOffer ety me.log.length] }
  /-- Only behind what is committed. -/
  | pop (hmay : may .log) (idx : ℕ) (hidx : me.commitIdx < idx) : Write may me (me.logDelete idx)
  | commit (idx : ℕ) (hidx : idx ≤ me.log.length)
    (hle : me.commitIdx ≤ me.log.length → me.commitIdx ≤ idx) :
    Write may me { me with commitIdx := idx }
  | apply (ety : RaftEntry) (hety : me.log[me.lastAppliedIdx]? = some ety)
    (hne : me.lastAppliedIdx ≠ me.commitIdx) : Write may me
      { me with
        lastAppliedIdx := me.lastAppliedIdx + 1, calls := me.calls ++ [.applylog ety] }
  /-- What is sent reaches at least to the end of the log. -/
  | post (hmay : may .post) (node : ι) (ae : MsgAppendentries) (hterm : ae.term = me.currentTerm)
    (hend : me.log.length ≤ ae.prevLogIdx + ae.entries.length) :
    Write may me (me.call (.sendAppendentries node ae))
  | ask (node : ι) (vr : MsgRequestvote ι) : Write may me (me.call (.sendRequestvote node vr))
  | tell (node : ι) : Write may me (me.call (.nodeHasSufficientLogs node))

theorem Write.mono {may may' : Kind → Prop} {me me' : RaftServer ι} (h : Write may me me')
    (hmay : ∀ k, may k → may' k) : Write may' me me' := by
  cases h with
  | term h => exact .term (hmay _ h) _ ‹_›
  | state h => exact .state (hmay _ h) _
  | vote => exact .vote _ ‹_›
  | forget => exact .forget
  | aside => exact .aside ..
  | nodes => exact .nodes ..
  | offer h => exact .offer (hmay _ h) _ ‹_›
  | pop h => exact .pop (hmay _ h) _ ‹_›
  | commit => exact .commit _ ‹_› ‹_›
  | apply => exact .apply _ ‹_› ‹_›
  | post h => exact .post (hmay _ h) _ _ ‹_› ‹_›
  | ask => exact .ask ..
  | tell => exact .tell _

abbrev Writes (may : Kind → Prop) : RaftServer ι → RaftServer ι → Prop := ReflTransGen (Write may)

abbrev Posts : RaftServer ι → RaftServer ι → Prop := Writes (· = .post)

def Turns (may : Kind → Prop) (me me' : RaftServer ι) : Prop :=
  ∃ mid, Writes may me mid ∧ Posts mid me'

theorem Writes.mono {may may' : Kind → Prop} {me me' : RaftServer ι} (h : Writes may me me')
    (hmay : ∀ k, may k → may' k) : Writes may' me me' :=
  h.lift id fun _ _ hw => hw.mono hmay

theorem Turns.writes {me me' : RaftServer ι} (h : Turns (fun _ => True) me me') :
    Writes (fun _ => True) me me' := by
  obtain ⟨mid, hmid, hposts⟩ := h
  exact hmid.trans (hposts.mono fun _ _ => trivial)

theorem Turns.mono {may may' : Kind → Prop} {me me' : RaftServer ι} (h : Turns may me me')
    (hmay : ∀ k, may k → may' k) : Turns may' me me' :=
  h.imp fun _ => And.imp_left fun hw => hw.mono hmay

/-- The computation, if it ends, has led to its server as `Rel` says. -/
def Does {α : Type} (Rel : RaftServer ι → RaftServer ι → Prop) (server : α → RaftServer ι)
    (me : RaftServer ι) (x : Option α) : Prop :=
  Yields Rel True me (fun r me' => me' = server r) x

namespace Does
variable {α β : Type} {Rel : RaftServer ι → RaftServer ι → Prop} {may : Kind → Prop}
  {p : α → RaftServer ι} {q : β → RaftServer ι} {me me₁ : RaftServer ι} {x : Option α}
  {f : α → Option β}

theorem pure {a : α} (h : Rel me (p a)) : Does Rel p me (some a) := ⟨p a, h, rfl⟩

theorem fails : Does Rel p me none := trivial

theorem read {y : Option α} {g : α → Option β} (hg : ∀ a, Does Rel q me (g a)) :
    Does Rel q me (y.bind g) := by
  cases y with
  | none => exact fails
  | some a => exact hg a

theorem map {g : α → β} (hx : Does Rel p me x) (hg : ∀ a, q (g a) = p a) :
    Does Rel q me (x.map g) :=
  Yields.map hx fun a _ _ hme' => hme'.trans (hg a).symm

theorem bind (hx : Does (Writes may) p me x) (hf : ∀ a, Does (Writes may) q (p a) (f a)) :
    Does (Writes may) q me (x.bind f) :=
  Yields.bind ReflTransGen.trans hx fun a _ _ hme' => hme' ▸ hf a

theorem after (h : Writes may me me₁) (hx : Does (Writes may) p me₁ x) :
    Does (Writes may) p me x :=
  Yields.after ReflTransGen.trans h hx

theorem foldlM {γ : Type} {b : RaftServer ι → γ → Option (RaftServer ι)}
    (hbody : ∀ me c, Does (Writes may) id me (b me c)) (l : List γ) (me : RaftServer ι) :
    Does (Writes may) id me (l.foldlM b me) := by
  induction l generalizing me with
  | nil => exact pure .refl
  | cons c l ih =>
    rw [List.foldlM_cons]
    exact (hbody me c).bind ih

theorem still (hx : Does (Writes may) p me x) : Does (Turns may) p me x :=
  Yields.imp hx fun me' hme' => ⟨me', hme', .refl⟩

theorem thenPosts (h : Writes may me me₁) (hx : Does Posts p me₁ x) : Does (Turns may) p me x := by
  cases x with
  | none => trivial
  | some a =>
    obtain ⟨me', hme', heq⟩ := hx
    exact ⟨me', ⟨me₁, h, hme'⟩, heq⟩

theorem mono {Rel' : RaftServer ι → RaftServer ι → Prop} (hx : Does Rel p me x)
    (hRel : ∀ me', Rel me me' → Rel' me me') : Does Rel' p me x :=
  Yields.imp hx hRel

theorem result {r : α} (h : Does Rel p me x) (hr : x = some r) : Rel me (p r) := by
  rw [hr] at h
  obtain ⟨me', hme', rfl⟩ := h
  exact hme'

end Does

namespace RaftServer
variable {may : Kind → Prop} (me : RaftServer ι)

theorem setCurrentTerm_does (hmay : may .term) (T : ℕ) :
    Writes may me (me.raftSetCurrentTerm T) := by
  rw [raftSetCurrentTerm]
  split
  · next hT => exact .single (.term hmay T hT)
  · exact .refl

theorem setState_does (hmay : may .term) (s : RaftState) : Writes may me (me.raftSetState s) := by
  rw [raftSetState]
  split
  · exact .trans (.single (.aside me.timeoutElapsed me.node me.votingCfgChangeLogIdx))
      (.single (.state hmay s))
  · exact .single (.state hmay s)

theorem follow_does (hmay : may .term) (T : ℕ) :
    Writes may me (me.raftSetCurrentTerm T).raftBecomeFollower :=
  (me.setCurrentTerm_does hmay T).trans (setState_does _ hmay .follower)

theorem appendEntry_does (hmay : may .log) (ety : RaftEntry) :
    Writes may me (me.raftAppendEntry ety).1 := by
  have hlog : ∀ me : RaftServer ι, Writes may me (me.logAppendEntry ety).1 := by
    intro me
    rw [logAppendEntry]
    split
    · exact .refl
    · next hid => exact .single (.offer hmay ety hid)
  rw [raftAppendEntry]
  split
  · exact .trans (.single (.aside me.timeoutElapsed me.currentLeader (some me.raftGetCurrentIdx)))
      (hlog _)
  · exact hlog me

theorem setCommitIdx_does (idx : ℕ) : Does (Writes may) id me (me.raftSetCommitIdx idx) := by
  rw [raftSetCommitIdx]
  split
  · next h => exact .pure (.single (.commit idx h.2 fun _ => h.1))
  · exact .fails

theorem setTimeout_does (t : ℕ) : Writes may me { me with timeoutElapsed := t } :=
  .single (.aside t me.currentLeader me.votingCfgChangeLogIdx)

variable [DecidableEq ι]

theorem setNode_does (id : ι) (f : RaftNode ι → RaftNode ι) : Writes may me (me.setNode id f) :=
  .single (.nodes _ me.node)

theorem forNodes_does {p : RaftServer ι → RaftNode ι → Bool}
    {b : RaftServer ι → ι → Option (RaftServer ι)}
    (hbody : ∀ me i, Does (Writes may) id me (b me i)) :
    Does (Writes may) id me (me.forNodes p b) := by
  refine Does.foldlM (fun me i => ?_) _ me
  refine Does.read fun n => ?_
  split
  · exact hbody me i
  · exact .pure .refl

/-- What is sent begins behind an entry and goes to the end of the log. -/
theorem sendAppendentries_does (node : ι) : Does Posts id me (me.raftSendAppendentries node) := by
  rw [raftSendAppendentries]
  split
  · exact .fails
  · refine .read fun n => ?_
    rcases Nat.eq_zero_or_pos n.nextIdx with hzero | hpos
    · rw [raftGetEntriesFromIdx, if_pos hzero]
      exact .fails
    · rw [raftGetEntriesFromIdx, if_neg hpos.ne']
      have hsend : ∀ prev t k, n.nextIdx - 1 ≤ prev → Does Posts id me
          (some (me.call (.sendAppendentries node
            ⟨me.currentTerm, prev, t, k, me.log.drop (n.nextIdx - 1)⟩))) := by
        refine fun prev t k hprev => .pure (.single ?_)
        refine .post (by rfl) node _ rfl ?_
        rw [List.length_drop]
        show _ ≤ prev + _
        omega
      simp only [Option.bind_eq_bind, Option.bind_some]
      split
      · exact .read fun prev => hsend _ _ _ le_rfl
      · exact hsend _ _ _ (by omega)

theorem sendRequestvote_does (node : ι) :
    Does (Writes may) id me (me.raftSendRequestvote node) := by
  rw [raftSendRequestvote]
  split
  · exact .fails
  · cases me.node with
    | none => exact .fails
    | some self => exact .pure (.single (.ask ..))

theorem sendAppendentriesAll_does : Does Posts id me me.raftSendAppendentriesAll :=
  .after (me.setTimeout_does 0) (forNodes_does _ fun me i => me.sendAppendentries_does i)

theorem becomeLeader_does {me₁ : RaftServer ι} (h : Writes may me me₁) (hmay : may .term) :
    Does (Turns may) id me me₁.raftBecomeLeader := by
  refine .thenPosts (h.trans (me₁.setState_does hmay .leader)) (forNodes_does _ fun me i => ?_)
  exact .after (me.setNode_does i _) (sendAppendentries_does _ i)

omit [DecidableEq ι] in
theorem newCandidate_does (hmay : may .term) : Writes may me me.newCandidate := by
  have hterm : me.raftSetCurrentTerm (me.currentTerm + 1) =
      { me with
        currentTerm := me.currentTerm + 1, votedFor := none
        calls := me.calls ++ [.persistTerm (me.currentTerm + 1)] } :=
    if_pos (Nat.lt_succ_self _)
  rw [newCandidate, hterm]
  refine .trans (.single (.term hmay _ (Nat.lt_succ_self _))) ?_
  refine .trans (.single (.nodes (me.nodes.map (·.raftNodeVoteForMe false)) me.node)) ?_
  refine .trans (.single (.vote me.node rfl)) ?_
  exact .trans (.single (.aside me.timeoutElapsed none me.votingCfgChangeLogIdx))
    (setState_does _ hmay .candidate)

theorem becomeCandidate_does (hmay : may .term) (rand : ℕ) :
    Does (Writes may) id me (me.raftBecomeCandidate rand) := by
  rw [raftBecomeCandidate]
  split
  · exact .fails
  · refine .after (me.newCandidate_does hmay) ?_
    refine .after (setTimeout_does _ (rand % me.electionTimeout)) ?_
    exact forNodes_does _ fun me i => me.sendRequestvote_does i

omit [DecidableEq ι] in
theorem applyEntry_does : Does (Writes may) Prod.fst me me.raftApplyEntry := by
  rw [raftApplyEntry]
  split
  · exact .pure .refl
  · next hne =>
    simp only [raftGetEntryFromIdx, Nat.add_one_ne_zero, if_false, Nat.add_sub_cancel,
      Option.bind_eq_bind, Option.bind_some]
    split
    · exact .pure .refl
    · next e hety =>
      refine .pure (.trans (.single (.apply e hety hne)) ?_)
      dsimp only
      split
      · exact .single (.aside me.timeoutElapsed me.currentLeader none)
      · exact .refl

theorem periodic_does (hmay : may .term) (msec rand : ℕ) :
    Does (Turns may) Prod.fst me (me.raftPeriodic msec rand) := by
  have hlast : ∀ {may : Kind → Prop} (me : RaftServer ι), Does (Writes may) Prod.fst me
      (if me.lastAppliedIdx < me.commitIdx then
        me.raftApplyEntry.bind fun r => some (r.1, if r.2 = -1 then (-1 : ℤ) else 0)
      else some (me, 0)) := by
    intro may me
    split
    · exact me.applyEntry_does.bind fun r => .pure .refl
    · exact .pure .refl
  have htime : Writes may me { me with timeoutElapsed := me.timeoutElapsed + msec } :=
    me.setTimeout_does _
  rw [raftPeriodic]
  simp only [Option.bind_eq_bind]
  split_ifs
  · exact .thenPosts htime ((sendAppendentriesAll_does _).bind hlast)
  · exact .thenPosts htime (hlast _)
  · exact .still (.after htime ((becomeCandidate_does _ hmay rand).bind hlast))
  · exact .thenPosts htime (hlast _)
  · exact .thenPosts htime (hlast _)

section Follower
variable (hmay : may .log)
include hmay

omit [DecidableEq ι] in
theorem skipExisting_does (etyIndex currentIdx : ℕ) (l : List RaftEntry) :
    Does (Writes may) Prod.fst me (me.skipExisting etyIndex currentIdx l) := by
  induction l generalizing etyIndex currentIdx with
  | nil => exact .pure .refl
  | cons ety rest ih =>
    rw [skipExisting]
    refine .read fun existing => ?_
    split
    · exact .pure .refl
    · split
      · split
        · next hlt => exact .pure (.single (.pop hmay _ hlt))
        · exact .fails
      · exact ih _ _

omit [DecidableEq ι] in
theorem pickUpRemainder_does (etyIndex currentIdx : ℕ) (l : List RaftEntry) :
    Writes may me (me.pickUpRemainder etyIndex currentIdx l).1 := by
  induction l generalizing me etyIndex currentIdx with
  | nil => exact .refl
  | cons ety rest ih =>
    rw [pickUpRemainder]
    have happend : Writes may me _ := me.appendEntry_does hmay ety
    split
    next me' e heq =>
      rw [heq] at happend
      split
      · exact happend
      · exact happend.trans (ih me' _ _)

omit [DecidableEq ι] in
theorem cutBehindPrev_does (ae : MsgAppendentries) :
    Does (Writes may) id me (me.cutBehindPrev ae) := by
  rw [cutBehindPrev]
  split
  · split
    · next hlt => exact .pure (.single (.pop hmay _ hlt))
    · exact .fails
  · exact .pure .refl

omit [DecidableEq ι] hmay in
theorem followCommit_does (leaderCommit : ℕ) :
    Does (Writes may) id me (me.followCommit leaderCommit) := by
  rw [followCommit]
  split
  · exact me.setCommitIdx_does _
  · exact .pure .refl

omit [DecidableEq ι] in
theorem takeEntries_does (node : Option ι) (ae : MsgAppendentries) (term : ℕ) :
    Does (Writes may) Prod.fst me (me.takeEntries node ae term) := by
  refine (me.cutBehindPrev_does hmay ae).bind fun me => ?_
  refine (skipExisting_does me hmay (ae.prevLogIdx + 1) ae.prevLogIdx ae.entries).bind fun r => ?_
  have hpick : Writes may r.1 _ := r.1.pickUpRemainder_does hmay
    (ae.prevLogIdx + 1 + (ae.entries.length - r.2.1.length)) r.2.2 r.2.1
  dsimp only
  split
  · next heq =>
    rw [heq] at hpick
    exact .pure hpick
  · next me' currentIdx heq =>
    rw [heq] at hpick
    refine .after hpick ((me'.followCommit_does ae.leaderCommit).bind fun me => ?_)
    exact .pure (.single (.aside me.timeoutElapsed node me.votingCfgChangeLogIdx))

omit [DecidableEq ι] in
theorem checkPrev_does (node : Option ι) (ae : MsgAppendentries) (term : ℕ) :
    Does (Writes may) Prod.fst me (me.checkPrev node ae term) := by
  rw [checkPrev]
  split
  · refine .read fun e => ?_
    split
    · exact .pure .refl
    · split_ifs with hshort hterm hlt
      · exact .pure .refl
      · exact .pure (.single (.pop hmay _ hlt))
      · exact .fails
      · exact me.takeEntries_does hmay node ae term
  · exact me.takeEntries_does hmay node ae term

omit [DecidableEq ι] in
theorem recvAppendentries_does (hterm : may .term) (node : Option ι) (ae : MsgAppendentries) :
    Does (Writes may) Prod.fst me (me.raftRecvAppendentries node ae) := by
  rw [raftRecvAppendentries]
  refine .after (me.setTimeout_does 0) ?_
  dsimp only
  split_ifs
  · exact .after (.trans (.single .forget) (setState_does _ hterm .follower))
      (checkPrev_does _ hmay node ae _)
  · exact .after (follow_does _ hterm ae.term) (checkPrev_does _ hmay node ae _)
  · exact .pure .refl
  · exact checkPrev_does _ hmay node ae _

end Follower

theorem sendRemaining_does (node : ι) : Does Posts id me (me.sendRemaining node) := by
  refine .read fun n => .read fun ety => ?_
  split
  · exact me.sendAppendentries_does node
  · exact .pure .refl

omit [DecidableEq ι] in
theorem setCommit_does (hmay : Prop) [Decidable hmay] (point : ℕ) :
    Does (Writes may) id me (if hmay then me.raftSetCommitIdx point else some me) := by
  split
  · exact me.setCommitIdx_does point
  · exact .pure .refl

theorem countVotes_does (point : ℕ) : Does (Writes may) id me (me.countVotes point) :=
  .read fun _ => me.setCommit_does _ point

theorem recordMatch_does (node : ι) (currentIdx : ℕ) :
    Does Posts id me (me.recordMatch node currentIdx) := by
  rw [recordMatch]
  split
  · refine .after (me.setNode_does node fun n =>
      (n.raftNodeSetNextIdx (currentIdx + 1)).raftNodeSetMatchIdx currentIdx) (.read fun n => ?_)
    have hrest : ∀ me : RaftServer ι, Does Posts id me
        ((me.countVotes currentIdx).bind fun me => me.sendRemaining node) := fun me =>
      (me.countVotes_does currentIdx).bind fun me => me.sendRemaining_does node
    dsimp only
    split
    · refine .after ((setNode_does _ node fun n => n.raftNodeSetHasSufficientLogs).trans
        (.single (.tell node))) (hrest _)
    · exact hrest _
  · exact .fails

theorem stepBack_does (node : ι) (nextIdx currentIdx : ℕ) :
    Does Posts id me (me.stepBack node nextIdx currentIdx) := by
  rw [stepBack]
  split <;> exact .after (me.setNode_does node _) (sendAppendentries_does _ node)

theorem heedResponse_does (hmay : may .term) (node : Option ι) (r : MsgAppendentriesResponse) :
    Does (Turns may) Prod.fst me (me.heedResponse node r) := by
  rw [heedResponse.eq_def]
  split_ifs
  · exact .still (.pure .refl)
  · exact .still (.pure (me.follow_does hmay r.term))
  · exact .still (.pure .refl)
  · cases node with
    | none => exact .still (.pure .refl)
    | some node => exact .thenPosts .refl ((me.recordMatch_does node r.currentIdx).map fun _ => rfl)
  · cases node with
    | none => exact .still (.pure .refl)
    | some node =>
      refine .read fun n => .thenPosts .refl ?_
      exact (me.stepBack_does node n.nextIdx r.currentIdx).map fun _ => rfl

theorem recvAppendentriesResponse_does (hmay : may .term) (node : Option ι)
    (r : MsgAppendentriesResponse) :
    Does (Turns may) Prod.fst me (me.raftRecvAppendentriesResponse node r) := by
  rw [raftRecvAppendentriesResponse]
  split
  · refine .read fun i => .read fun n => ?_
    split
    · exact .still (.pure .refl)
    · exact me.heedResponse_does hmay node r
  · exact me.heedResponse_does hmay node r

omit [DecidableEq ι] in
theorem recvRequestvote_does (hmay : may .term) (vr : MsgRequestvote ι) :
    Does (Writes may) Prod.fst me (me.raftRecvRequestvote vr) := by
  have hgrant : ∀ me : RaftServer ι, Does (Writes may) Prod.fst me
      (if me.shouldGrantVote vr then
        if me.state = .leader ∨ me.state = .candidate then none
        else
          let me := me.raftVoteForNodeid (some vr.candidateId)
          some ({ me with currentLeader := none, timeoutElapsed := 0 },
            (⟨me.currentTerm, true⟩ : MsgRequestvoteResponse))
      else some (me, ⟨me.currentTerm, false⟩)) := by
    intro me
    split_ifs with hshould hstate
    · exact .fails
    · have hvote : me.votedFor = none := by
        rw [shouldGrantVote] at hshould
        split_ifs at hshould with hlt hvoted
        exact not_not.mp hvoted
      exact .pure (.trans (.single (.vote (some vr.candidateId) hvote))
        (.single (.aside 0 none me.votingCfgChangeLogIdx)))
    · exact .pure .refl
  rw [raftRecvRequestvote]
  refine .after ?_ (hgrant _)
  split
  · exact me.follow_does hmay vr.term
  · exact .refl

theorem recvRequestvoteResponse_does (hmay : may .term) (node : Option ι)
    (r : MsgRequestvoteResponse) :
    Does (Turns may) id me (me.raftRecvRequestvoteResponse node r) := by
  rw [raftRecvRequestvoteResponse.eq_def]
  split_ifs
  · exact .still (.pure .refl)
  · exact .still (.pure (me.follow_does hmay r.term))
  · exact .still (.pure .refl)
  · have hcount : ∀ me₁ : RaftServer ι, Writes may me me₁ → Does (Turns may) id me
        (me₁.raftGetNvotesForMe.bind fun votes =>
          if raftVotesIsMajority me₁.nodes.length votes then me₁.raftBecomeLeader
          else some me₁) := by
      intro me₁ h₁
      refine .read fun votes => ?_
      split
      · exact me.becomeLeader_does h₁ hmay
      · exact .still (.pure h₁)
    cases node with
    | none => exact hcount me .refl
    | some node => exact hcount _ (me.setNode_does node _)
  · exact .still (.pure .refl)

theorem recvEntry_does (hmay : may .log) (e : RaftEntry) :
    Does (Turns may) Prod.fst me (me.raftRecvEntry e) := by
  have hresult : ∀ (me : RaftServer ι) (v : Option ℕ) (r : MsgEntryResponse),
      Does Posts Prod.fst me (some ((if raftEntryIsVotingCfgChange e then
        { me with votingCfgChangeLogIdx := v } else me), (0 : ℤ), some r)) := by
    intro me v r
    split
    · exact .pure (.single (.aside me.timeoutElapsed me.currentLeader v))
    · exact .pure .refl
  rw [raftRecvEntry]
  by_cases hbusy : raftEntryIsVotingCfgChange e ∧ me.votingCfgChangeLogIdx ≠ none
  · rw [if_pos hbusy]
    exact .still (.pure .refl)
  rw [if_neg hbusy]
  split
  · exact .still (.pure .refl)
  · refine .thenPosts (me.appendEntry_does hmay { e with term := me.currentTerm }) ?_
    refine (forNodes_does _ fun me i => me.sendAppendentries_does i).bind fun me => ?_
    dsimp only
    by_cases hone : me.nodes.length = 1
    · have hcommit : Posts me { me with commitIdx := me.raftGetCurrentIdx } :=
        .single (.commit me.log.length le_rfl id)
      rw [id_eq, if_pos hone]
      exact .after hcommit (hresult _ _ _)
    · rw [id_eq, if_neg hone]
      exact hresult _ _ _

end RaftServer

end KirinFS.Raft
