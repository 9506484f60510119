import KirinFS.Raft.Server

/-! # What a raft server receives

Every function gives the state of the server, what it returns and what it has
written to its result.
-/

namespace KirinFS.Raft.RaftServer
variable {ι : Type} [DecidableEq ι] (me : RaftServer ι)

def fail (term currentIdx : ℕ) : RaftServer ι × ℤ × MsgAppendentriesResponse :=
  (me, -1, ⟨term, false, currentIdx, 0⟩)

def failWithCurrentIdx (term : ℕ) : RaftServer ι × ℤ × MsgAppendentriesResponse :=
  me.fail term me.raftGetCurrentIdx

/-- The first loop: skip the entries that are there, and delete from the first one that conflicts.
It gives the entries that are left and the index in the result. -/
def skipExisting (me : RaftServer ι) (etyIndex currentIdx : ℕ) :
    List RaftEntry → Option (RaftServer ι × List RaftEntry × ℕ)
  | [] => some (me, [], currentIdx)
  | ety :: rest => do
    match ← me.raftGetEntryFromIdx etyIndex with
    | none => some (me, ety :: rest, etyIndex)
    | some existing =>
      if existing.term ≠ ety.term then
        if me.commitIdx < etyIndex then some (me.logDelete etyIndex, ety :: rest, etyIndex) else none
      else skipExisting me (etyIndex + 1) etyIndex rest

/-- The second loop: append the entries that are left; without an index if one is refused. -/
def pickUpRemainder (me : RaftServer ι) (etyIndex currentIdx : ℕ) :
    List RaftEntry → RaftServer ι × Option ℕ
  | [] => (me, some currentIdx)
  | ety :: rest =>
    let (me, e) := me.raftAppendEntry ety
    if e = -1 then (me, none) else pickUpRemainder me (etyIndex + 1) etyIndex rest

/-- Step 4: the commit index follows the leader's. -/
def followCommit (leaderCommit : ℕ) : Option (RaftServer ι) :=
  if me.commitIdx < leaderCommit then
    let lastLogIdx := max me.raftGetCurrentIdx 1
    me.raftSetCommitIdx (min lastLogIdx leaderCommit)
  else some me

/-- Step 3, without entries: the log ends behind the previous entry, if two follow it at least. -/
def cutBehindPrev (ae : MsgAppendentries) : Option (RaftServer ι) :=
  if ae.entries = [] ∧ 0 < ae.prevLogIdx ∧ ae.prevLogIdx + 1 < me.raftGetCurrentIdx then
    if me.commitIdx < ae.prevLogIdx + 1 then some (me.logDelete (ae.prevLogIdx + 1)) else none
  else some me

/-- From step 3 on: the log has the entry before the new ones. -/
def takeEntries (node : Option ι) (ae : MsgAppendentries) (term : ℕ) :
    Option (RaftServer ι × ℤ × MsgAppendentriesResponse) := do
  let me ← me.cutBehindPrev ae
  let (me, rest, currentIdx) ← me.skipExisting (ae.prevLogIdx + 1) ae.prevLogIdx ae.entries
  match me.pickUpRemainder (ae.prevLogIdx + 1 + (ae.entries.length - rest.length)) currentIdx
    rest with
  | (me, none) => some (me.failWithCurrentIdx term)
  | (me, some currentIdx) =>
    let me ← me.followCommit ae.leaderCommit
    some ({ me with currentLeader := node }, 0, ⟨term, true, currentIdx, ae.prevLogIdx + 1⟩)

/-- Step 2: the entry before the new ones is that of the leader. -/
def checkPrev (node : Option ι) (ae : MsgAppendentries) (term : ℕ) :
    Option (RaftServer ι × ℤ × MsgAppendentriesResponse) :=
  if 0 < ae.prevLogIdx then do
    match ← me.raftGetEntryFromIdx ae.prevLogIdx with
    | none => some (me.failWithCurrentIdx term)
    | some e =>
      if me.raftGetCurrentIdx < ae.prevLogIdx then some (me.failWithCurrentIdx term)
      else if e.term ≠ ae.prevLogTerm then
        if me.commitIdx < ae.prevLogIdx then
          some ((me.logDelete ae.prevLogIdx).fail term (ae.prevLogIdx - 1))
        else none
      else me.takeEntries node ae term
  else me.takeEntries node ae term

def raftRecvAppendentries (node : Option ι) (ae : MsgAppendentries) :
    Option (RaftServer ι × ℤ × MsgAppendentriesResponse) :=
  let me := { me with timeoutElapsed := 0 }
  let term := me.currentTerm
  if me.state = .candidate ∧ me.currentTerm = ae.term then
    ({ me with votedFor := none } : RaftServer ι).raftBecomeFollower.checkPrev node ae term
  else if me.currentTerm < ae.term then
    (me.raftSetCurrentTerm ae.term).raftBecomeFollower.checkPrev node ae ae.term
  else if ae.term < me.currentTerm then some (me.failWithCurrentIdx term)
  else me.checkPrev node ae term

/-- The votes for committing up to an index; it fails on a peer that has more than the log. -/
def commitVotes (point : ℕ) : Option ℕ :=
  (me.nodes.filter me.isVotingPeer).foldlM (fun votes n =>
    if 0 < n.matchIdx then do
      let ety ← ← me.raftGetEntryFromIdx n.matchIdx
      some (if ety.term = me.currentTerm ∧ point ≤ n.matchIdx then votes + 1 else votes)
    else some votes) 1

def sendRemaining (node : ι) : Option (RaftServer ι) := do
  let n ← me.raftGetNode node
  match ← me.raftGetEntryFromIdx n.nextIdx with
  | some _ => me.raftSendAppendentries node
  | none => some me

/-- The commit index moves to a point that a majority has. -/
def countVotes (point : ℕ) : Option (RaftServer ι) := do
  let votes ← me.commitVotes point
  if me.nodes.length / 2 < votes ∧ me.commitIdx < point then me.raftSetCommitIdx point else some me

def recordMatch (node : ι) (currentIdx : ℕ) : Option (RaftServer ι) :=
  if currentIdx ≤ me.raftGetCurrentIdx then do
    let me := me.setNode node fun n =>
      (n.raftNodeSetNextIdx (currentIdx + 1)).raftNodeSetMatchIdx currentIdx
    let n ← me.raftGetNode node
    let me := if ¬ n.raftNodeIsVoting ∧ me.votingCfgChangeLogIdx = none ∧
        me.raftGetCurrentIdx ≤ currentIdx + 1 ∧ ¬ n.raftNodeHasSufficientLogs then
      (me.setNode node (·.raftNodeSetHasSufficientLogs)).call (.nodeHasSufficientLogs node)
    else me
    let me ← me.countVotes currentIdx
    me.sendRemaining node
  else none

/-- What follows a failure: go back in the log of the peer and try again. -/
def stepBack (node : ι) (nextIdx currentIdx : ℕ) : Option (RaftServer ι) :=
  if currentIdx < nextIdx - 1 then
    (me.setNode node (·.raftNodeSetNextIdx
      (min (currentIdx + 1) me.raftGetCurrentIdx))).raftSendAppendentries node
  else (me.setNode node (·.raftNodeSetNextIdx (nextIdx - 1))).raftSendAppendentries node

def heedResponse (node : Option ι) (r : MsgAppendentriesResponse) : Option (RaftServer ι × ℤ) :=
  if me.state ≠ .leader then some (me, -1)
  else if me.currentTerm < r.term then
    some ((me.raftSetCurrentTerm r.term).raftBecomeFollower, 0)
  else if me.currentTerm ≠ r.term then some (me, 0)
  else match node with
    | none => some (me, 0)
    | some node =>
      if r.success then (me.recordMatch node r.currentIdx).map fun me => (me, 0)
      else do
        let n ← me.raftGetNode node
        (me.stepBack node n.nextIdx r.currentIdx).map fun me => (me, 0)

/-- The node is read before it is known that there is one. -/
def raftRecvAppendentriesResponse (node : Option ι) (r : MsgAppendentriesResponse) :
    Option (RaftServer ι × ℤ) :=
  if r.currentIdx ≠ 0 then do
    let n ← me.raftGetNode (← node)
    if r.currentIdx ≤ n.matchIdx then some (me, 0) else me.heedResponse node r
  else me.heedResponse node r

def shouldGrantVote (vr : MsgRequestvote ι) : Bool :=
  if vr.term < me.currentTerm then false
  else if me.votedFor ≠ none then false
  else match me.log[me.raftGetCurrentIdx - 1]? with
    | none => true
    | some e => e.term < vr.lastLogTerm ||
        (vr.lastLogTerm = e.term && me.raftGetCurrentIdx ≤ vr.lastLogIdx)

def raftRecvRequestvote (vr : MsgRequestvote ι) :
    Option (RaftServer ι × MsgRequestvoteResponse) :=
  let me := if me.currentTerm < vr.term then
    (me.raftSetCurrentTerm vr.term).raftBecomeFollower else me
  if me.shouldGrantVote vr then
    if me.state = .leader ∨ me.state = .candidate then none
    else
      let me := me.raftVoteForNodeid (some vr.candidateId)
      some ({ me with currentLeader := none, timeoutElapsed := 0 }, ⟨me.currentTerm, true⟩)
  else some (me, ⟨me.currentTerm, false⟩)

def raftRecvRequestvoteResponse (node : Option ι) (r : MsgRequestvoteResponse) :
    Option (RaftServer ι) :=
  if me.state ≠ .candidate then some me
  else if me.currentTerm < r.term then
    some (me.raftSetCurrentTerm r.term).raftBecomeFollower
  else if me.currentTerm ≠ r.term then some me
  else if r.voteGranted then do
    let me := match node with
      | some node => me.setNode node (·.raftNodeVoteForMe true)
      | none => me
    let votes ← me.raftGetNvotesForMe
    if raftVotesIsMajority me.nodes.length votes then me.raftBecomeLeader else some me
  else some me

/-- The result is written only if the entry is accepted; that the log takes it is not checked. -/
def raftRecvEntry (e : RaftEntry) : Option (RaftServer ι × ℤ × Option MsgEntryResponse) :=
  if raftEntryIsVotingCfgChange e ∧ me.votingCfgChangeLogIdx ≠ none then some (me, -1, none)
  else if me.state ≠ .leader then some (me, -1, none)
  else do
    let ety : RaftEntry := { e with term := me.currentTerm }
    let me := (me.raftAppendEntry ety).1
    let me ← me.forNodes (fun me n => me.isVotingPeer n && n.nextIdx = me.raftGetCurrentIdx)
      raftSendAppendentries
    let me := if me.nodes.length = 1 then { me with commitIdx := me.raftGetCurrentIdx } else me
    let r : MsgEntryResponse := ⟨e.id, me.currentTerm, me.raftGetCurrentIdx⟩
    let me := if raftEntryIsVotingCfgChange e then
      { me with votingCfgChangeLogIdx := some me.raftGetCurrentIdx } else me
    some (me, 0, some r)

/-- 1 if it is committed, 0 if not yet, -1 if the entry of another leader stands there. -/
def raftMsgEntryResponseCommitted (r : MsgEntryResponse) : Option ℤ := do
  match ← me.raftGetEntryFromIdx r.idx with
  | none => some 0
  | some ety =>
    if r.term ≠ ety.term then some (-1) else some (if r.idx ≤ me.commitIdx then 1 else 0)

end KirinFS.Raft.RaftServer
