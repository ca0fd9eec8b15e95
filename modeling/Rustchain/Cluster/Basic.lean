/-
  Rustchain.Cluster.Basic

  A cluster of Raft peers and the network between them.

  The peers are those of a finite set `P`, each in the state its handlers left
  it in.  The network is the list of all messages ever sent: nothing is removed
  when a message is delivered, so a message may be delivered late, several
  times, in any order, or never.  Beside each message the model keeps the log
  its sender had when it sent it; no handler reads it, it is there for the
  statements about runs.

  Membership is fixed, peers do not restart, and the terms of the peers that
  act stay below `2^64 - 1`.
-/

import Rustchain.Consensus.Raft.Handlers

namespace Rustchain

-- ============================================================================
-- The cluster
-- ============================================================================

/-- A message with the log its sender had when it sent it. -/
structure Sent where
  message : Message
  log : List RaftLogEntry
deriving DecidableEq

structure Cluster where
  peers : PeerId → RaftConsensus
  sent : List Sent

namespace Cluster

/-- Every peer is fresh and no message was sent. -/
def Initial (c : Cluster) : Prop :=
  c.sent = [] ∧ ∀ p, ∃ now draw, c.peers p = RaftConsensus.new p now draw

/-- The messages peer `p` sends to execute an effect.  A `SendRaftAppendEntries`
    carries each of its entries together with some block payload. -/
inductive Emits (P : Finset PeerId) (p : PeerId) : ConsensusEffect → Message → Prop where
  | broadcast (body : MessageBody) (q : PeerId) (hq : q ∈ P) (hne : q ≠ p) :
      Emits P p (.broadcast body) { «from» := p, «to» := q, body }
  | send (q : PeerId) (body : MessageBody) :
      Emits P p (.send q body) { «from» := p, «to» := q, body }
  | sendRaftAppendEntries (q : PeerId) (term prevLogIndex prevLogTerm : Nat)
      (replicated : List RaftReplicatedBlock) (leaderCommit : Nat) :
      Emits P p
        (.sendRaftAppendEntries q term prevLogIndex prevLogTerm
          (replicated.map RaftReplicatedBlock.entry) leaderCommit)
        { «from» := p
          «to» := q
          body := .raftAppendEntries term p prevLogIndex prevLogTerm replicated leaderCommit }

/-- What can happen in a cluster. -/
inductive Action where
  | tick (p : PeerId) (now : Instant) (knownPeers : List PeerId)
  | deliver (sent : Sent) (now : Instant) (draw : Nat)
  | clientTransaction (p : PeerId) (clientTx : SignedTransaction)
  | blockCreated (p : PeerId) (blockHash : BlockHash)
  | takePendingBlock (p : PeerId) (blockHash : BlockHash)

namespace Action

/-- The peer that acts. -/
def peer : Action → PeerId
  | tick p .. | clientTransaction p _ | blockCreated p _ | takePendingBlock p _ => p
  | deliver sent .. => sent.message.to

def event : Action → RaftEvent
  | tick _ now knownPeers => .tick now knownPeers
  | deliver sent now draw => .receive sent.message.from sent.message.body now draw
  | clientTransaction _ clientTx => .clientTransaction clientTx
  | blockCreated _ blockHash => .blockCreated blockHash
  | takePendingBlock _ blockHash => .takePendingBlock blockHash

/-- A tick knows exactly the other members of `P`; only a message that was sent
    is delivered. -/
def Enabled (P : Finset PeerId) (c : Cluster) : Action → Prop
  | tick p _ knownPeers => ∀ q, q ∈ knownPeers ↔ q ∈ P ∧ q ≠ p
  | deliver sent .. => sent ∈ c.sent
  | _ => True

end Action

/-- The handler's outcome for an action. -/
def outcome (pf : Platform) (c : Cluster) (act : Action) :
    RaftConsensus × Except String (List ConsensusEffect) :=
  (c.peers act.peer).handle pf act.event

/-- One step of the cluster: the acting peer handles the event, and any of the
    messages its effects turn into are sent. -/
structure Step (pf : Platform) (P : Finset PeerId) (c : Cluster) (act : Action)
    (c' : Cluster) : Prop where
  mem : act.peer ∈ P
  enabled : act.Enabled P c
  term_lt : (c.peers act.peer).currentTerm < 2 ^ 64 - 1
  peers : c'.peers = Function.update c.peers act.peer (c.outcome pf act).1
  sent : ∃ new, c'.sent = c.sent ++ new ∧ ∀ s ∈ new, s.log = (c.outcome pf act).1.log ∧
    ∃ effects, (c.outcome pf act).2 = .ok effects ∧
      ∃ effect ∈ effects, Emits P act.peer effect s.message

/-- A run all of whose steps meet `ok`. -/
def Run (pf : Platform) (P : Finset PeerId) (ok : Cluster → Action → Prop) :
    Cluster → Cluster → Prop :=
  Relation.ReflTransGen fun c c' => ∃ act, ok c act ∧ Step pf P c act c'

end Cluster

end Rustchain
