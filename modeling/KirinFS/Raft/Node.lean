import Mathlib.Data.BitVec
import KirinFS.Foundation.WordBits

/-! # What a raft server knows about a peer

The flags are the bits of one word. The macros for them have no parentheses. The
two indexes are `int` fields that are not negative and do not overflow.
-/

namespace KirinFS.Raft

structure RaftNode (ι : Type) where
  nextIdx : ℕ
  matchIdx : ℕ
  flags : BitVec 32
  id : ι
  deriving DecidableEq

namespace RaftNode
variable {ι : Type}

def raftNodeNew (id : ι) : RaftNode ι := ⟨1, 0, 1#32 <<< 1, id⟩

variable (me : RaftNode ι)

/-- The log index begins at 1. -/
def raftNodeSetNextIdx (nextIdx : ℕ) : RaftNode ι :=
  { me with nextIdx := if nextIdx < 1 then 1 else nextIdx }

def raftNodeSetMatchIdx (matchIdx : ℕ) : RaftNode ι := { me with matchIdx := matchIdx }

def raftNodeVoteForMe (vote : Bool) : RaftNode ι :=
  if vote then { me with flags := me.flags ||| 1#32 } else { me with flags := me.flags &&& ~~~1#32 }

def raftNodeHasVoteForMe : Bool := me.flags &&& 1#32 ≠ 0

/-- `~RAFT_NODE_VOTING` expands to `~1 << 1`. -/
def raftNodeSetVoting (voting : Bool) : RaftNode ι :=
  if voting then { me with flags := me.flags ||| 1#32 <<< 1 }
  else { me with flags := me.flags &&& (~~~1#32) <<< 1 }

def raftNodeIsVoting : Bool := me.flags &&& 1#32 <<< 1 ≠ 0

def raftNodeSetHasSufficientLogs : RaftNode ι := { me with flags := me.flags ||| 1#32 <<< 2 }

def raftNodeHasSufficientLogs : Bool := me.flags &&& 1#32 <<< 2 ≠ 0

section Flags
variable {me} {b : Bool} {id : ι}

theorem and_twoPow_ne_zero (x : BitVec 32) (k : ℕ) :
    decide (x &&& BitVec.twoPow 32 k ≠ 0) = x.getLsbD k := by
  simp only [ne_eq, Foundation.WordBits.and_bit_eq_zero_iff]
  cases x.getLsbD k <;> rfl

theorem hasVoteForMe_eq : me.raftNodeHasVoteForMe = me.flags.getLsbD 0 :=
  and_twoPow_ne_zero me.flags 0

theorem isVoting_eq : me.raftNodeIsVoting = me.flags.getLsbD 1 :=
  and_twoPow_ne_zero me.flags 1

@[simp] theorem voteForMe_hasVoteForMe : (me.raftNodeVoteForMe b).raftNodeHasVoteForMe = b := by
  cases b <;> simp [hasVoteForMe_eq, raftNodeVoteForMe]

@[simp] theorem voteForMe_isVoting :
    (me.raftNodeVoteForMe b).raftNodeIsVoting = me.raftNodeIsVoting := by
  cases b <;> simp [isVoting_eq, raftNodeVoteForMe]

@[simp] theorem setVoting_isVoting : (me.raftNodeSetVoting b).raftNodeIsVoting = b := by
  cases b <;> simp [isVoting_eq, raftNodeSetVoting]

/-- A node that is no longer voting has no vote either. -/
@[simp] theorem setVoting_hasVoteForMe :
    (me.raftNodeSetVoting b).raftNodeHasVoteForMe = (b && me.raftNodeHasVoteForMe) := by
  cases b <;> simp [hasVoteForMe_eq, raftNodeSetVoting]

@[simp] theorem setHasSufficientLogs_isVoting :
    me.raftNodeSetHasSufficientLogs.raftNodeIsVoting = me.raftNodeIsVoting := by
  simp [isVoting_eq, raftNodeSetHasSufficientLogs]

@[simp] theorem setHasSufficientLogs_hasVoteForMe :
    me.raftNodeSetHasSufficientLogs.raftNodeHasVoteForMe = me.raftNodeHasVoteForMe := by
  simp [hasVoteForMe_eq, raftNodeSetHasSufficientLogs]

@[simp] theorem new_isVoting : (raftNodeNew id).raftNodeIsVoting = true := by
  simp [isVoting_eq, raftNodeNew]

end Flags

end RaftNode

end KirinFS.Raft
