import Mathlib.Tactic.Simps.Basic
import KirinFS.Raft.Follow

/-! # A cluster of raft servers

Every server knows the same nodes, and all of them vote. What has been sent may
be delivered at any time, any number of times, or never. A step is one call of
one server; it is undefined where the server aborts.
-/

namespace KirinFS.Raft
open Function

structure Envelope (ι : Type) where
  src : ι
  dst : ι
  message : Message ι
  deriving DecidableEq

structure Cluster (ι : Type) where
  server : ι → RaftServer ι
  /-- What has been sent, in this order. -/
  net : List (Envelope ι)
  /-- What the servers have applied. -/
  applied : ι → List RaftEntry
  /-- The entries of clients and the answers to them. -/
  receipts : List (RaftEntry × MsgEntryResponse)

inductive Action (ι : Type) where
  | periodic (i : ι) (msecSinceLastPeriod rand : ℕ)
  | entry (i : ι) (e : RaftEntry)
  /-- What has been sent at this place of the list arrives. -/
  | deliver (k : ℕ)
  deriving DecidableEq

variable {ι : Type} [DecidableEq ι]

/-- The handler of a message, with the answer to it. -/
def RaftServer.receive (me : RaftServer ι) (src : ι) :
    Message ι → Option (RaftServer ι × Option (Message ι))
  | .requestvote vr =>
    (me.raftRecvRequestvote vr).map fun r => (r.1, some (.requestvoteResponse r.2))
  | .requestvoteResponse r =>
    (me.raftRecvRequestvoteResponse (some src) r).map fun me => (me, none)
  | .appendentries ae =>
    (me.raftRecvAppendentries (some src) ae).map fun r => (r.1, some (.appendentriesResponse r.2.2))
  | .appendentriesResponse r =>
    (me.raftRecvAppendentriesResponse (some src) r).map fun r => (r.1, none)

/-- Only a message with entries may cut what is of its own term. -/
def RaftServer.SparesMessage (me : RaftServer ι) : Message ι → Prop
  | .appendentries ae => me.Spares ae
  | _ => True

instance (me : RaftServer ι) : DecidablePred me.SparesMessage
  | .appendentries ae => inferInstanceAs (Decidable (me.Spares ae))
  | .appendentriesResponse _ => .isTrue trivial
  | .requestvote _ => .isTrue trivial
  | .requestvoteResponse _ => .isTrue trivial

namespace Cluster

/-- A new server that has been told of the members, one of which it is. -/
def newServer (members : List ι) (i : ι) : RaftServer ι :=
  members.foldl (fun me j => me.raftAddNode j (j = i)) RaftServer.raftNew

@[simps] def start (members : List ι) : Cluster ι := ⟨newServer members, [], fun _ => [], []⟩

/-- What a server has sent during a call. -/
def posted (i : ι) (me : RaftServer ι) : List (Envelope ι) :=
  (me.calls.filterMap (·.message)).map fun m => ⟨i, m.1, m.2⟩

@[simps] def returned (c : Cluster ι) (i : ι) (me : RaftServer ι) : Cluster ι :=
  { c with
    server := update c.server i { me with calls := [] }
    net := c.net ++ posted i me
    applied := update c.applied i (c.applied i ++ me.calls.filterMap (·.applied)) }

@[simps] def answer (c : Cluster ι) (src dst : ι) (m : Option (Message ι)) : Cluster ι :=
  { c with net := c.net ++ m.toList.map fun m => ⟨src, dst, m⟩ }

@[simps] def receipt (c : Cluster ι) (ety : RaftEntry) (r : Option MsgEntryResponse) : Cluster ι :=
  { c with receipts := c.receipts ++ r.toList.map fun r => (ety, r) }

def step (c : Cluster ι) : Action ι → Option (Cluster ι)
  | .periodic i msec rand =>
    ((c.server i).raftPeriodic msec rand).map fun r => c.returned i r.1
  | .entry i ety =>
    ((c.server i).raftRecvEntry ety).map fun r => (c.returned i r.1).receipt ety r.2.2
  | .deliver k =>
    match c.net[k]? with
    | none => some c
    | some e => ((c.server e.dst).receive e.src e.message).map fun r =>
      (c.returned e.dst r.1).answer e.dst e.src r.2

def turn (c : Cluster ι) (a : Action ι) : Option (Cluster ι × Action ι) :=
  (c.step a).map fun c' => (c', a)

/-- No message without entries cuts off what is of its own term. -/
def Spares (c : Cluster ι) : Action ι → Prop
  | .deliver k => ∀ e ∈ c.net[k]?, (c.server e.dst).SparesMessage e.message
  | _ => True

instance (c : Cluster ι) : DecidablePred c.Spares
  | .deliver _ => by
    unfold Spares
    infer_instance
  | .periodic .. => .isTrue trivial
  | .entry .. => .isTrue trivial

end Cluster

/-- The members are all servers, and each is listed once. -/
structure Members (members : List ι) : Prop where
  nodup : members.Nodup
  all : ∀ i, i ∈ members

end KirinFS.Raft
