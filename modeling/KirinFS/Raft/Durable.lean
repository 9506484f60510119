import KirinFS.Raft.Writes

/-! # What a server may be called with, and what it leaves behind

A server may be called with anything, also with what no other server would send.
Its callbacks tell a disk what to keep; after a crash this is what there is.
-/

namespace KirinFS.Raft
open Foundation.Shadows Relation

/-- A call of a server, with the node that a message comes from, if it is known. -/
inductive Input (ι : Type) where
  | addNode (id : ι) (isSelf : Bool)
  | addNonVotingNode (id : ι) (isSelf : Bool)
  | removeNode (id : ι)
  | periodic (msecSinceLastPeriod rand : ℕ)
  | electionStart (rand : ℕ)
  | entry (e : RaftEntry)
  | appendentries (node : Option ι) (ae : MsgAppendentries)
  | appendentriesResponse (node : Option ι) (r : MsgAppendentriesResponse)
  | requestvote (vr : MsgRequestvote ι)
  | requestvoteResponse (node : Option ι) (r : MsgRequestvoteResponse)

namespace RaftServer
variable {ι : Type} [DecidableEq ι]

/-- Only another node that is known can be removed: the pointer to a node would be left. -/
def handle (me : RaftServer ι) : Input ι → Option (RaftServer ι)
  | .addNode id isSelf => some (me.raftAddNode id isSelf)
  | .addNonVotingNode id isSelf => some (me.raftAddNonVotingNode id isSelf)
  | .removeNode id =>
    if me.node = some id then none else (me.raftGetNode id).map fun _ => me.raftRemoveNode id
  | .periodic msec rand => (me.raftPeriodic msec rand).map (·.1)
  | .electionStart rand => me.raftElectionStart rand
  | .entry e => (me.raftRecvEntry e).map (·.1)
  | .appendentries node ae => (me.raftRecvAppendentries node ae).map (·.1)
  | .appendentriesResponse node r => (me.raftRecvAppendentriesResponse node r).map (·.1)
  | .requestvote vr => (me.raftRecvRequestvote vr).map (·.1)
  | .requestvoteResponse node r => me.raftRecvRequestvoteResponse node r

/-- A list of calls; it is undefined from a call on that aborts. -/
def session (me : RaftServer ι) (inputs : List (Input ι)) : Option (RaftServer ι) :=
  inputs.foldlM handle me

theorem addNode_does {may : Kind → Prop} (me : RaftServer ι) (id : ι) (isSelf : Bool) :
    Writes may me (me.raftAddNode id isSelf) := by
  rw [raftAddNode]
  split
  · exact me.setNode_does id _
  · split
    · exact .single (.nodes (me.nodes ++ [RaftNode.raftNodeNew id]) (some id))
    · exact .single (.nodes (me.nodes ++ [RaftNode.raftNodeNew id]) me.node)

theorem handle_does (me : RaftServer ι) (input : Input ι) :
    Does (Turns fun _ => True) id me (me.handle input) := by
  cases input with
  | addNode id isSelf => exact .still (.pure (me.addNode_does id isSelf))
  | addNonVotingNode id isSelf =>
    exact .still (.pure ((me.addNode_does id isSelf).trans (setNode_does _ id _)))
  | removeNode id =>
    rw [handle]
    split
    · exact .fails
    · cases me.raftGetNode id with
      | none => exact .fails
      | some n => exact .still (.pure (.single (.nodes _ me.node)))
  | periodic msec rand => exact (me.periodic_does trivial msec rand).map fun _ => rfl
  | electionStart rand => exact .still (me.becomeCandidate_does trivial rand)
  | entry e => exact (me.recvEntry_does trivial e).map fun _ => rfl
  | appendentries node ae =>
    exact .still ((me.recvAppendentries_does trivial trivial node ae).map fun _ => rfl)
  | appendentriesResponse node r =>
    exact (me.recvAppendentriesResponse_does trivial node r).map fun _ => rfl
  | requestvote vr => exact .still ((me.recvRequestvote_does trivial vr).map fun _ => rfl)
  | requestvoteResponse node r => exact me.recvRequestvoteResponse_does trivial node r

theorem session_writes {me me' : RaftServer ι} {inputs : List (Input ι)}
    (h : me.session inputs = some me') : Writes (fun _ => True) me me' := by
  refine (Does.foldlM (fun me input => ?_) inputs me).result h
  exact (me.handle_does input).mono fun me' hturns => hturns.writes

end RaftServer

variable {ι : Type} {may : Kind → Prop} {me me' : RaftServer ι}

/-- What is applied is committed, and what is committed is in the log. -/
structure Ordered (me : RaftServer ι) : Prop where
  applied_le : me.lastAppliedIdx ≤ me.commitIdx
  commit_le : me.commitIdx ≤ me.log.length

theorem Ordered.write (h : Ordered me) (hw : Write may me me') : Ordered me' := by
  have happlied := h.applied_le
  have hcommit := h.commit_le
  cases hw with
  | offer _ ety _ => exact ⟨happlied, hcommit.trans (by simp)⟩
  | pop _ idx hidx =>
    refine ⟨happlied, ?_⟩
    show me.commitIdx ≤ (me.log.take (idx - 1)).length
    rw [List.length_take]
    omega
  | commit idx hidx hle => exact ⟨happlied.trans (hle hcommit), hidx⟩
  | apply ety hety hne => exact ⟨Nat.lt_of_le_of_ne happlied hne, hcommit⟩
  | _ => exact ⟨happlied, hcommit⟩

/-- From one state of a server to a later one, whatever it has been called with: nothing goes back,
and the committed entries stay as they are. -/
structure Onward (me me' : RaftServer ι) : Prop where
  term : me.currentTerm ≤ me'.currentTerm
  commit : me.commitIdx ≤ me'.commitIdx
  applied : me.lastAppliedIdx ≤ me'.lastAppliedIdx
  kept : me'.log.take me.commitIdx = me.log.take me.commitIdx

theorem Onward.write (h : Ordered me) (hw : Write may me me') : Onward me me' := by
  have hcommit := h.commit_le
  cases hw with
  | term _ T hT => exact ⟨hT.le, le_rfl, le_rfl, rfl⟩
  | offer _ ety _ => exact ⟨le_rfl, le_rfl, le_rfl, List.take_append_of_le_length hcommit⟩
  | pop _ idx hidx =>
    refine ⟨le_rfl, le_rfl, le_rfl, ?_⟩
    show (me.log.take (idx - 1)).take me.commitIdx = _
    rw [List.take_take, min_eq_left (by omega)]
  | commit idx hidx hle => exact ⟨le_rfl, hle hcommit, le_rfl, rfl⟩
  | apply ety hety hne => exact ⟨le_rfl, le_rfl, Nat.le_succ _, rfl⟩
  | _ => exact ⟨le_rfl, le_rfl, le_rfl, rfl⟩

theorem Onward.trans {me'' : RaftServer ι} (h : Onward me me') (h' : Onward me' me'') :
    Onward me me'' where
  term := h.term.trans h'.term
  commit := h.commit.trans h'.commit
  applied := h.applied.trans h'.applied
  kept := by
    have hkept := congrArg (List.take me.commitIdx) h'.kept
    rw [List.take_take, List.take_take, min_eq_left h.commit] at hkept
    exact hkept.trans h.kept

theorem Ordered.writes (h : Ordered me) (hw : Writes may me me') :
    Ordered me' ∧ Onward me me' := by
  induction hw with
  | refl => exact ⟨h, le_rfl, le_rfl, le_rfl, rfl⟩
  | tail _ hlast ih => exact ⟨ih.1.write hlast, ih.2.trans (.write ih.1 hlast)⟩

/-- What a disk holds that follows the callbacks. -/
structure Disk (ι : Type) where
  term : ℕ
  vote : Option ι
  log : List RaftEntry

namespace Disk

def new : Disk ι := ⟨0, none, []⟩

/-- Entries are offered and popped at the end only. -/
def write (d : Disk ι) : RaftCall ι → Option (Disk ι)
  | .persistTerm term => some { d with term := term }
  | .persistVote node => some { d with vote := node }
  | .logOffer ety idx => if idx = d.log.length then some { d with log := d.log ++ [ety] } else none
  | .logPop ety idx =>
    if idx = d.log.length ∧ d.log.getLast? = some ety then some { d with log := d.log.dropLast }
    else none
  | _ => some d

def replay (d : Disk ι) (calls : List (RaftCall ι)) : Option (Disk ι) := calls.foldlM write d

theorem replay_append {d d' : Disk ι} {l : List (RaftCall ι)} (h : d.replay l = some d')
    (l' : List (RaftCall ι)) : d.replay (l ++ l') = d'.replay l' := by
  rw [replay, List.foldlM_append]
  show (d.replay l).bind _ = _
  rw [h]
  rfl

/-- The entries behind an index, popped from the last one on. -/
theorem replay_pops (d : Disk ι) (X : List RaftEntry) (j : ℕ) :
    ({ d with log := X } : Disk ι).replay
      ((X.zipIdx.drop j).reverse.map fun e => .logPop e.1 (e.2 + 1)) =
        some { d with log := X.take j } := by
  induction X using List.reverseRecOn with
  | nil => simp [replay]
  | append_singleton X e ih =>
    rw [List.zipIdx_append]
    rcases Nat.lt_or_ge X.length j with hj | hj
    · rw [List.drop_of_length_le (by simpa using Nat.succ_le_of_lt hj),
        List.take_of_length_le (by simpa using Nat.succ_le_of_lt hj)]
      rfl
    · rw [List.drop_append_of_le_length (by simpa using hj), List.take_append_of_le_length hj]
      simpa [replay, write] using ih

end Disk

/-- The disk has the term, the log, and the vote that the server knows of. -/
def Mirrored (me : RaftServer ι) : Prop :=
  ∃ d : Disk ι, Disk.new.replay me.calls = some d ∧ d.term = me.currentTerm ∧ d.log = me.log ∧
    ∀ node, me.votedFor = some node → d.vote = some node

theorem Mirrored.write (h : Mirrored me) (hw : Write may me me') : Mirrored me' := by
  obtain ⟨d, hd, hterm, hlog, hvote⟩ := h
  cases hw with
  | term _ T hT =>
    exact ⟨{ d with term := T }, (Disk.replay_append hd _).trans rfl, rfl, hlog, by simp⟩
  | vote node hnone =>
    exact ⟨{ d with vote := node }, (Disk.replay_append hd _).trans rfl, hterm, hlog, fun _ => id⟩
  | forget => exact ⟨d, hd, hterm, hlog, by simp⟩
  | offer _ ety _ =>
    refine ⟨{ d with log := d.log ++ [ety] }, (Disk.replay_append hd _).trans ?_, hterm, ?_, hvote⟩
    · simp [Disk.replay, Disk.write, hlog]
    · simp [hlog]
  | pop _ idx hidx =>
    refine ⟨{ d with log := me.log.take (idx - 1) }, ?_, hterm, rfl, hvote⟩
    refine (Disk.replay_append hd _).trans ?_
    have hpops := Disk.replay_pops d me.log (idx - 1)
    rwa [← hlog] at hpops ⊢
  | apply | post | ask | tell =>
    exact ⟨d, (Disk.replay_append hd _).trans rfl, hterm, hlog, hvote⟩
  | _ => exact ⟨d, hd, hterm, hlog, hvote⟩

/-- The entries that have been applied are the first of the log. -/
def Applies (me : RaftServer ι) : Prop :=
  me.calls.filterMap (·.applied) = me.log.take me.lastAppliedIdx

theorem Applies.write (h : Applies me) (hord : Ordered me) (hw : Write may me me') :
    Applies me' := by
  have hlast : me.lastAppliedIdx ≤ me.log.length := hord.applied_le.trans hord.commit_le
  unfold Applies at h ⊢
  cases hw with
  | offer _ ety _ =>
    rw [List.take_append_of_le_length hlast, ← h]
    simp [RaftCall.applied]
  | pop _ idx hidx =>
    have hpops : ((me.log.zipIdx.drop (idx - 1)).reverse.map fun e =>
        (RaftCall.logPop e.1 (e.2 + 1) : RaftCall ι)).filterMap (·.applied) = [] := by
      rw [List.filterMap_eq_nil_iff]
      intro c hc
      obtain ⟨e, -, rfl⟩ := List.mem_map.mp hc
      rfl
    have happlied := hord.applied_le
    show (me.calls ++ _).filterMap (·.applied) = (me.log.take (idx - 1)).take me.lastAppliedIdx
    rw [List.filterMap_append, hpops, List.append_nil, h, List.take_take, min_eq_left (by omega)]
  | apply ety hety hne =>
    rw [List.take_add_one, hety, List.filterMap_append, h]
    rfl
  | term | vote | post | ask | tell =>
    refine (List.filterMap_append ..).trans ?_
    rw [h]
    exact List.append_nil _
  | _ => exact h

section Sessions
variable [DecidableEq ι] {inputs inputs' : List (Input ι)}

/-- Terms and indexes only grow, and a committed entry is never replaced or deleted: a server that
is told to aborts. -/
theorem session_onward (h : RaftServer.raftNew.session inputs = some me)
    (h' : me.session inputs' = some me') : Ordered me ∧ Onward me me' := by
  have hnew : Ordered (RaftServer.raftNew : RaftServer ι) := ⟨le_rfl, le_rfl⟩
  have hord := (hnew.writes (RaftServer.session_writes h)).1
  exact ⟨hord, (hord.writes (RaftServer.session_writes h')).2⟩

/-- Server 0 of three becomes the leader, and server 1 takes its first entry. -/
def leaderSession : List (Input ℕ) :=
  [.addNode 0 true, .addNode 1 false, .addNode 2 false, .periodic 1000 0,
    .requestvoteResponse (some 1) ⟨1, true⟩, .entry ⟨0, 7, .normal, []⟩,
    .appendentriesResponse (some 1) ⟨1, true, 1, 1⟩, .entry ⟨0, 8, .normal, []⟩]

/-- Then another leader comes, that does not have the second entry. -/
def followerSession : List (Input ℕ) :=
  [.periodic 200 0, .appendentries (some 2) ⟨2, 1, 1, 1, [⟨2, 9, .normal, []⟩]⟩]

omit [DecidableEq ι] in
theorem exists_sessions : ∃ me me' : RaftServer ℕ,
    RaftServer.raftNew.session leaderSession = some me ∧ me.session followerSession = some me' ∧
      me.commitIdx = 1 ∧ me.log ≠ me'.log.take 2 := by
  obtain ⟨me, h, me', h', hrest⟩ : ∃ me ∈ RaftServer.raftNew.session leaderSession,
      ∃ me' ∈ me.session followerSession, me.commitIdx = 1 ∧ me.log ≠ me'.log.take 2 := by
    decide +kernel
  exact ⟨me, me', h, h', hrest⟩

omit [DecidableEq ι] in
theorem session_onward_three : ∃ me me' : RaftServer ℕ,
    me.commitIdx = 1 ∧ me.log ≠ me'.log.take 2 ∧ Ordered me ∧ Onward me me' := by
  obtain ⟨me, me', h, h', hcommit, hlog⟩ := exists_sessions
  exact ⟨me, me', hcommit, hlog, session_onward h h'⟩

/-- A disk that follows the callbacks has the term, the log and the vote of the server, unless the
server has forgotten its vote; and every committed entry is applied once, in the order of the
log. -/
theorem session_mirrored (h : RaftServer.raftNew.session inputs = some me) :
    Mirrored me ∧ Applies me := by
  have hw := RaftServer.session_writes h
  suffices hall : Ordered me ∧ Mirrored me ∧ Applies me from hall.2
  clear h
  induction hw with
  | refl =>
    exact ⟨⟨le_rfl, le_rfl⟩, ⟨Disk.new, rfl, rfl, rfl, by simp [RaftServer.raftNew]⟩, rfl⟩
  | tail _ hlast ih => exact ⟨ih.1.write hlast, ih.2.1.write hlast, ih.2.2.write ih.1 hlast⟩

omit [DecidableEq ι] in
theorem session_mirrored_three : ∃ me : RaftServer ℕ,
    me.commitIdx = 1 ∧ Mirrored me ∧ Applies me := by
  obtain ⟨me, -, h, -, hcommit, -⟩ := exists_sessions
  exact ⟨me, hcommit, session_mirrored h⟩

end Sessions

end KirinFS.Raft
