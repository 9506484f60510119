import KirinFS.Foundation.Consensus.Completeness
import KirinFS.Foundation.Shadows
import KirinFS.Raft.Receive

/-! # A server as a peer of the protocol

What a server holds, and what it has sent, is evidence of what has happened in
the world of the protocol. While it works the world moves by steps of its peer.
-/

namespace KirinFS.Raft
open Foundation.Consensus Foundation.Shadows

variable {ι : Type}

def RaftState.role : RaftState → Role
  | .leader => .leader
  | .candidate => .candidate
  | .follower | .none => .follower

def RaftServer.peer (me : RaftServer ι) : Peer ι RaftEntry :=
  ⟨me.currentTerm, me.votedFor, me.state.role, me.log, me.commitIdx⟩

/-- A stretch of the log of the leader of the term, up to its end when it was sent. -/
structure MsgAppendentries.Genuine [Fintype ι] (ae : MsgAppendentries) (careful : Prop)
    (w : World ι RaftEntry) (R : Reign ι RaftEntry) : Prop where
  reign : w.reign ae.term = some R
  prev : ae.prevLogIdx ≤ R.log.length
  stretch : R.log.take ae.prevLogIdx ++ ae.entries <+: R.log
  first : R.first.length ≤ ae.prevLogIdx + ae.entries.length
  prevTerm : ∀ e, 0 < ae.prevLogIdx → R.log[ae.prevLogIdx - 1]? = some e → ae.prevLogTerm = e.term
  commit : careful → ae.leaderCommit ≤ ae.prevLogIdx + ae.entries.length ∧
    (ae.leaderCommit = 0 ∨ ∃ T ≤ ae.term, Chosen w T ae.leaderCommit)

inductive Message (ι : Type) where
  | requestvote (vr : MsgRequestvote ι)
  | requestvoteResponse (r : MsgRequestvoteResponse)
  | appendentries (ae : MsgAppendentries)
  | appendentriesResponse (r : MsgAppendentriesResponse)
  deriving DecidableEq

/-- What a message from `src` to `dst` is evidence of. -/
def Message.Genuine [Fintype ι] (careful : Prop) (w : World ι RaftEntry) (src dst : ι) :
    Message ι → Prop
  | .requestvote vr => vr.candidateId = src ∧ ∃ Y, w.stood src vr.term Y ∧
      vr.lastLogIdx = Y.length ∧ vr.lastLogTerm = lastStamp RaftEntry.term Y
  | .requestvoteResponse r => r.voteGranted → ∃ X, w.granted src dst r.term X
  | .appendentries ae => ∃ R, ae.Genuine careful w R ∧ R.leader = src
  | .appendentriesResponse r => r.success → w.acked src r.term r.currentIdx

def RaftCall.message : RaftCall ι → Option (ι × Message ι)
  | .sendRequestvote node vr => some (node, .requestvote vr)
  | .sendAppendentries node ae => some (node, .appendentries ae)
  | _ => none

/-- A server in its cluster: its id, the ids of all, and what it has applied before. -/
structure Place (ι : Type) where
  self : ι
  ids : List ι
  past : List RaftEntry
  nodup : ids.Nodup
  all : ∀ i, i ∈ ids

def Tracked (w : World ι RaftEntry) (me : RaftServer ι) (n : RaftNode ι) : Prop :=
  n.nextIdx ≤ me.log.length + 1 ∧ (0 < n.matchIdx → w.acked n.id me.currentTerm n.matchIdx)

/-- The server is a peer of the world, apart from what it knows of its own peers as the leader. -/
structure Serves [Fintype ι] (careful : Prop) (pl : Place ι) (w : World ι RaftEntry)
    (me : RaftServer ι) : Prop where
  sound : Sound RaftEntry.term careful w
  peer : w.peer pl.self = me.peer
  node : me.node = some pl.self
  ids : me.nodes.map (·.id) = pl.ids
  voting : ∀ n ∈ me.nodes, n.raftNodeIsVoting
  next : ∀ n ∈ me.nodes, 1 ≤ n.nextIdx
  timeout : me.electionTimeout ≠ 0
  votes : me.state = .candidate → ∀ n ∈ me.nodes, n.raftNodeHasVoteForMe → n.id ≠ pl.self →
    ∃ X, w.granted n.id pl.self me.currentTerm X
  alone : me.state = .candidate ∨ me.state = .leader → 1 < pl.ids.length
  sent : ∀ c ∈ me.calls, ∀ m ∈ c.message, pl.self ≠ m.1 ∧ m.2.Genuine careful w pl.self m.1
  applied : careful → me.lastAppliedIdx ≤ me.commitIdx ∧
    pl.past ++ me.calls.filterMap (·.applied) = me.log.take me.lastAppliedIdx

/-- While a server works its world moves by steps of its peer. -/
structure Follows [Fintype ι] [DecidableEq ι] (careful : Prop) (i : ι)
    (w w' : World ι RaftEntry) : Prop where
  steps : Relation.ReflTransGen (Step RaftEntry.term careful) w w'
  others : ∀ j, j ≠ i → w'.peer j = w.peer j
  grows : Grows w w'

section Follows
variable [Fintype ι] [DecidableEq ι] {careful : Prop} {i : ι} {w w' w'' : World ι RaftEntry}

theorem Follows.refl : Follows careful i w w := ⟨.refl, fun _ _ => rfl, .refl w⟩

theorem Follows.trans (h : Follows careful i w w') (h' : Follows careful i w' w'') :
    Follows careful i w w'' :=
  ⟨h.steps.trans h'.steps, fun j hj => (h'.others j hj).trans (h.others j hj),
    h.grows.trans h'.grows⟩

theorem Follows.step (h : Sound RaftEntry.term careful w) (hs : Step RaftEntry.term careful w w')
    (hothers : ∀ j, j ≠ i → w'.peer j = w.peer j) : Follows careful i w w' :=
  ⟨.single hs, hothers, hs.grows h.elections⟩

end Follows

section Grows
variable [Fintype ι] {careful : Prop} {w w' : World ι RaftEntry}

theorem MsgAppendentries.Genuine.grows {ae : MsgAppendentries} {R : Reign ι RaftEntry}
    (h : ae.Genuine careful w R) (hg : Grows w w') :
    ∃ R', ae.Genuine careful w' R' ∧ R'.leader = R.leader := by
  obtain ⟨l, hl⟩ := hg.reign _ _ h.reign
  refine ⟨_, ⟨hl, ?_, ?_, h.first, ?_, fun hc => ?_⟩, rfl⟩
  · rw [List.length_append]
    exact h.prev.trans (Nat.le_add_right ..)
  · rw [List.take_append_of_le_length h.prev]
    exact h.stretch.trans (List.prefix_append ..)
  · intro e hpos he
    rw [List.getElem?_append_left (by have := h.prev; omega)] at he
    exact h.prevTerm e hpos he
  · exact (h.commit hc).imp_right (Or.imp_right fun ⟨T, hT, hk⟩ => ⟨T, hT, hk.grows hg⟩)

theorem Message.Genuine.grows {src dst : ι} {m : Message ι} (h : m.Genuine careful w src dst)
    (hg : Grows w w') : m.Genuine careful w' src dst := by
  cases m with
  | requestvote vr =>
    obtain ⟨hid, Y, hY, hrest⟩ := h
    exact ⟨hid, Y, hg.stood _ _ _ hY, hrest⟩
  | requestvoteResponse r =>
    intro hr
    obtain ⟨X, hX⟩ := h hr
    exact ⟨X, hg.granted _ _ _ _ hX⟩
  | appendentries ae =>
    obtain ⟨R, hR, hlead⟩ := h
    obtain ⟨R', hR', heq⟩ := hR.grows hg
    exact ⟨R', hR', heq.trans hlead⟩
  | appendentriesResponse r => exact fun hr => hg.acked _ _ _ (h hr)

omit [Fintype ι] in
theorem Tracked.grows {me : RaftServer ι} {n : RaftNode ι} (h : Tracked w me n) (hg : Grows w w') :
    Tracked w' me n :=
  ⟨h.1, fun hpos => hg.acked _ _ _ (h.2 hpos)⟩

end Grows

end KirinFS.Raft
