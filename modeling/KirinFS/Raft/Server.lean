import KirinFS.Raft.Node

/-! # A raft server

The functions of the server and of its properties. A pointer to a node is the
id of the node, and -1 and `NULL` are `none`. An operation is `none` where an
assertion fails or a pointer to nothing is followed. The log is the list of its
entries, as the server never polls it. Every callback is set; what has been
called is listed in the server. Terms, indexes, timeouts and sizes are `int`
fields of the code and naturals here: none is negative and none overflows.
-/

namespace KirinFS.Raft

inductive RaftState where
  | none
  | follower
  | candidate
  | leader
  deriving DecidableEq, Repr

inductive RaftLogtype where
  | normal
  | addNonvotingNode
  | addNode
  | removeNode
  deriving DecidableEq, Repr

structure RaftEntry where
  term : ℕ
  id : ℕ
  type : RaftLogtype
  data : List UInt8
  deriving DecidableEq, Repr

structure MsgEntryResponse where
  id : ℕ
  term : ℕ
  idx : ℕ
  deriving DecidableEq, Repr

structure MsgRequestvote (ι : Type) where
  term : ℕ
  candidateId : ι
  lastLogIdx : ℕ
  lastLogTerm : ℕ
  deriving DecidableEq, Repr

structure MsgRequestvoteResponse where
  term : ℕ
  voteGranted : Bool
  deriving DecidableEq, Repr

/-- `n_entries` is the length of `entries`. -/
structure MsgAppendentries where
  term : ℕ
  prevLogIdx : ℕ
  prevLogTerm : ℕ
  leaderCommit : ℕ
  entries : List RaftEntry
  deriving DecidableEq, Repr

structure MsgAppendentriesResponse where
  term : ℕ
  success : Bool
  currentIdx : ℕ
  firstIdx : ℕ
  deriving DecidableEq, Repr

inductive RaftCall (ι : Type) where
  | sendRequestvote (node : ι) (msg : MsgRequestvote ι)
  | sendAppendentries (node : ι) (msg : MsgAppendentries)
  | applylog (ety : RaftEntry)
  | persistVote (node : Option ι)
  | persistTerm (term : ℕ)
  | logOffer (ety : RaftEntry) (idx : ℕ)
  | logPop (ety : RaftEntry) (idx : ℕ)
  | nodeHasSufficientLogs (node : ι)
  deriving DecidableEq, Repr

def RaftCall.applied {ι : Type} : RaftCall ι → Option RaftEntry
  | .applylog ety => some ety
  | _ => none

structure RaftServer (ι : Type) where
  currentTerm : ℕ
  votedFor : Option ι
  log : List RaftEntry
  commitIdx : ℕ
  lastAppliedIdx : ℕ
  state : RaftState
  timeoutElapsed : ℕ
  nodes : List (RaftNode ι)
  electionTimeout : ℕ
  requestTimeout : ℕ
  currentLeader : Option ι
  node : Option ι
  votingCfgChangeLogIdx : Option ℕ
  calls : List (RaftCall ι)
  deriving DecidableEq

def raftEntryIsVotingCfgChange (ety : RaftEntry) : Bool :=
  RaftLogtype.addNode = ety.type || RaftLogtype.removeNode = ety.type

def raftVotesIsMajority (numNodes nvotes : ℕ) : Bool :=
  if numNodes < nvotes then false else numNodes / 2 + 1 ≤ nvotes

namespace RaftServer
variable {ι : Type} [DecidableEq ι]

def raftNew : RaftServer ι where
  currentTerm := 0
  votedFor := none
  log := []
  commitIdx := 0
  lastAppliedIdx := 0
  state := .follower
  timeoutElapsed := 0
  nodes := []
  electionTimeout := 1000
  requestTimeout := 200
  currentLeader := none
  node := none
  votingCfgChangeLogIdx := none
  calls := []

variable (me : RaftServer ι)

def call (c : RaftCall ι) : RaftServer ι := { me with calls := me.calls ++ [c] }

def raftGetCurrentIdx : ℕ := me.log.length

/-- `none` for an index below 1, `some none` for one behind the log. -/
def raftGetEntryFromIdx (idx : ℕ) : Option (Option RaftEntry) :=
  if idx = 0 then none else some me.log[idx - 1]?

def raftGetEntriesFromIdx (idx : ℕ) : Option (List RaftEntry) :=
  if idx = 0 then none else some (me.log.drop (idx - 1))

/-- `log_delete` from an index on, which is at least 1: the last entry goes first. -/
def logDelete (idx : ℕ) : RaftServer ι :=
  { me with
    log := me.log.take (idx - 1)
    calls := me.calls ++ (me.log.zipIdx.drop (idx - 1)).reverse.map fun e => .logPop e.1 (e.2 + 1) }

def logAppendEntry (c : RaftEntry) : RaftServer ι × ℤ :=
  if c.id = 0 then (me, -1)
  else ({ me with log := me.log ++ [c], calls := me.calls ++ [.logOffer c me.log.length] }, 0)

def raftGetLastLogTerm : ℕ :=
  if 0 < me.raftGetCurrentIdx then ((me.log[me.raftGetCurrentIdx - 1]?).map (·.term)).getD 0 else 0

/-- The index of a change of the configuration is that of the entry before it. -/
def raftAppendEntry (ety : RaftEntry) : RaftServer ι × ℤ :=
  let me := if raftEntryIsVotingCfgChange ety then
    { me with votingCfgChangeLogIdx := some me.raftGetCurrentIdx } else me
  me.logAppendEntry ety

def raftSetCurrentTerm (term : ℕ) : RaftServer ι :=
  if me.currentTerm < term then
    { me with currentTerm := term, votedFor := none }.call (.persistTerm term)
  else me

def raftSetCommitIdx (idx : ℕ) : Option (RaftServer ι) :=
  if me.commitIdx ≤ idx ∧ idx ≤ me.raftGetCurrentIdx then some { me with commitIdx := idx }
  else none

def raftSetState (state : RaftState) : RaftServer ι :=
  if state = .leader then { me with currentLeader := me.node, state := state }
  else { me with state := state }

def raftBecomeFollower : RaftServer ι := me.raftSetState .follower

def raftVoteForNodeid (nodeid : Option ι) : RaftServer ι :=
  { me with votedFor := nodeid }.call (.persistVote nodeid)

def raftVote (node : Option ι) : RaftServer ι := me.raftVoteForNodeid node

def raftGetNode (nodeid : ι) : Option (RaftNode ι) := me.nodes.find? fun n => nodeid = n.id

def setNode (nodeid : ι) (f : RaftNode ι → RaftNode ι) : RaftServer ι :=
  { me with nodes := me.nodes.map fun n => if n.id = nodeid then f n else n }

def raftAddNode (id : ι) (isSelf : Bool) : RaftServer ι :=
  match me.raftGetNode id with
  | some _ => me.setNode id (·.raftNodeSetVoting true)
  | none =>
    let me := { me with nodes := me.nodes ++ [RaftNode.raftNodeNew id] }
    if isSelf then { me with node := some id } else me

def raftAddNonVotingNode (id : ι) (isSelf : Bool) : RaftServer ι :=
  (me.raftAddNode id isSelf).setNode id (·.raftNodeSetVoting false)

def raftRemoveNode (node : ι) : RaftServer ι :=
  { me with nodes := me.nodes.filter fun n => n.id ≠ node }

/-- Not this server itself, and voting. -/
def isVotingPeer (n : RaftNode ι) : Bool := me.node ≠ some n.id && n.raftNodeIsVoting

def raftGetNvotesForMe : Option ℕ :=
  me.node.map fun self =>
    (me.nodes.filter fun n => me.isVotingPeer n && n.raftNodeHasVoteForMe).length +
      if me.votedFor = some self then 1 else 0

def raftSendRequestvote (node : ι) : Option (RaftServer ι) :=
  if me.node = some node then none
  else me.node.map fun self => me.call (.sendRequestvote node
    ⟨me.currentTerm, self, me.raftGetCurrentIdx, me.raftGetLastLogTerm⟩)

def raftSendAppendentries (node : ι) : Option (RaftServer ι) :=
  if me.node = some node then none
  else do
    let n ← me.raftGetNode node
    let entries ← me.raftGetEntriesFromIdx n.nextIdx
    let prev ← if 1 < n.nextIdx then me.raftGetEntryFromIdx (n.nextIdx - 1) else some none
    some (me.call (.sendAppendentries node
      { term := me.currentTerm
        prevLogIdx := if 1 < n.nextIdx then n.nextIdx - 1 else 0
        prevLogTerm := (prev.map (·.term)).getD 0
        leaderCommit := me.commitIdx
        entries := entries }))

/-- A loop over the nodes with a body for some of them. -/
def forNodes (p : RaftServer ι → RaftNode ι → Bool)
    (body : RaftServer ι → ι → Option (RaftServer ι)) : Option (RaftServer ι) :=
  (me.nodes.map (·.id)).foldlM
    (fun me id => (me.raftGetNode id).bind fun n => if p me n then body me id else some me) me

def raftSendAppendentriesAll : Option (RaftServer ι) :=
  { me with timeoutElapsed := 0 }.forNodes (fun me n => me.node ≠ some n.id)
    raftSendAppendentries

def raftBecomeLeader : Option (RaftServer ι) :=
  (me.raftSetState .leader).forNodes isVotingPeer fun me id =>
    (me.setNode id fun n =>
      (n.raftNodeSetNextIdx (me.raftGetCurrentIdx + 1)).raftNodeSetMatchIdx 0).raftSendAppendentries
        id

/-- What `raft_become_candidate` does before it sends: a new term and a vote for itself. -/
def newCandidate : RaftServer ι :=
  let me := me.raftSetCurrentTerm (me.currentTerm + 1)
  let me : RaftServer ι := { me with nodes := me.nodes.map (·.raftNodeVoteForMe false) }
  let me : RaftServer ι := { me.raftVote me.node with currentLeader := none }
  me.raftSetState .candidate

/-- `rand` is what the random number generator gives. -/
def raftBecomeCandidate (rand : ℕ) : Option (RaftServer ι) :=
  if me.electionTimeout = 0 then none
  else { me.newCandidate with timeoutElapsed := rand % me.electionTimeout }.forNodes isVotingPeer
    raftSendRequestvote

def raftElectionStart (rand : ℕ) : Option (RaftServer ι) := me.raftBecomeCandidate rand

def raftApplyEntry : Option (RaftServer ι × ℤ) :=
  if me.lastAppliedIdx = me.commitIdx then some (me, -1)
  else do
    let logIdx := me.lastAppliedIdx + 1
    match ← me.raftGetEntryFromIdx logIdx with
    | none => some (me, -1)
    | some e =>
      let me := { me with lastAppliedIdx := me.lastAppliedIdx + 1 }.call (.applylog e)
      some (if me.votingCfgChangeLogIdx = some logIdx then
        { me with votingCfgChangeLogIdx := none } else me, 0)

def raftPeriodic (msecSinceLastPeriod rand : ℕ) : Option (RaftServer ι × ℤ) := do
  let me := { me with timeoutElapsed := me.timeoutElapsed + msecSinceLastPeriod }
  let me ←
    if me.state = .leader then
      if me.requestTimeout ≤ me.timeoutElapsed then me.raftSendAppendentriesAll else some me
    else if me.electionTimeout ≤ me.timeoutElapsed then
      if 1 < me.nodes.length then me.raftElectionStart rand else some me
    else some me
  if me.lastAppliedIdx < me.commitIdx then
    let (me, ret) ← me.raftApplyEntry
    some (me, if ret = -1 then -1 else 0)
  else some (me, 0)

end RaftServer

end KirinFS.Raft
