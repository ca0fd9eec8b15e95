/-
  Rustchain.Consensus.Raft.Handlers

  The handlers through which a peer drives its `RaftConsensus` (`raft.rs`):
  time, client transactions, created blocks and the four Raft messages.
-/

import Rustchain.Consensus.Raft.Replication

namespace Rustchain
namespace RaftConsensus

def forwardClientTransaction (r : RaftConsensus) (clientTx : SignedTransaction) :
    Except String (List ConsensusEffect) :=
  match r.leaderId with
  | none => .error "Raft leader is unknown"
  | some leaderId => .ok [.send leaderId (.clientTransaction clientTx)]

def onClientTransaction (r : RaftConsensus) (clientTx : SignedTransaction) :
    Except String (List ConsensusEffect) :=
  match r.role with
  | .leader =>
    match r.ensureNoUncommittedBlock with
    | .error e => .error e
    | .ok () => .ok [.stageClientTransaction clientTx]
  | .follower | .candidate => r.forwardClientTransaction clientTx

def onBlockCreated (pf : Platform) (r : RaftConsensus) (blockHash : BlockHash) :
    RaftConsensus × Except String (List ConsensusEffect) :=
  match r.role with
  | .leader => r.appendLocalBlock pf blockHash
  | .follower | .candidate => (r, .ok [])

/-- The `RaftRequestVote` a candidate broadcasts. -/
def requestVoteBody (r : RaftConsensus) : MessageBody :=
  .raftRequestVote r.currentTerm r.peerId r.lastLogIndex r.lastLogTerm

def onTick (pf : Platform) (r : RaftConsensus) (now : Instant) (knownPeers : List PeerId) :
    RaftConsensus × Except String (List ConsensusEffect) :=
  let r := r.updateParticipants knownPeers
  if r.role = .leader then
    if r.heartbeatDue now then
      let r := { r with lastHeartbeatSentAt := some now }
      (r, .ok r.appendEntriesEffectsForFollowers)
    else (r, .ok [])
  else if r.leaderTimedOut now then
    match r.startElectionAt now with
    | (r, false) => (r, .ok [.broadcast r.requestVoteBody])
    | (r, true) =>
      let request := r.requestVoteBody
      match r.appendLeaderNoop pf with
      | (r, .error e) => (r, .error e)
      | (r, .ok effects) => (r, .ok (.broadcast request :: effects))
  else (r, .ok [])

def onRequestVote (r : RaftConsensus) (term : Nat) (candidateId : PeerId)
    (lastLogIndex lastLogTerm : Nat) (src : PeerId) : RaftConsensus × List ConsensusEffect :=
  let (r, response) := r.requestVote term candidateId lastLogIndex lastLogTerm
  (r, [.send src (.raftRequestVoteResponse r.currentTerm (response == .granted))])

def onRequestVoteResponse (pf : Platform) (r : RaftConsensus) (term : Nat) (voterId : PeerId)
    (voteGranted : Bool) : RaftConsensus × Except String (List ConsensusEffect) :=
  if r.role = .candidate then
    match r.receiveVote term voterId voteGranted with
    | (r, true) => r.appendLeaderNoop pf
    | (r, false) => (r, .ok [])
  else (r.stepDownOnNewerTerm term, .ok [])

def onAppendEntriesResponse (pf : Platform) (r : RaftConsensus) (term : Nat) (src : PeerId)
    (success : Bool) (matchIndex : Nat) : RaftConsensus × Except String (List ConsensusEffect) :=
  if r.role = .leader then
    r.handleLeaderAppendEntriesResponse pf term src success matchIndex
  else (r.stepDownOnNewerTerm term, .ok [])

def takePendingBlock (r : RaftConsensus) (blockHash : BlockHash) :
    RaftConsensus × Option BlockFile :=
  ({ r with pendingBlocks := r.pendingBlocks.erase blockHash }, r.pendingBlocks.lookup blockHash)

/-- `ConsensusEngine::on_message` in Raft mode: every message that reaches
    consensus without validation by `Peer`. -/
def onMessage (pf : Platform) (r : RaftConsensus) (src : PeerId) (body : MessageBody)
    (now : Instant) (draw : Nat) : RaftConsensus × Except String (List ConsensusEffect) :=
  match body with
  | .raftRequestVote term candidateId lastLogIndex lastLogTerm =>
    let (r, effects) := r.onRequestVote term candidateId lastLogIndex lastLogTerm src
    (r, .ok effects)
  | .raftRequestVoteResponse term voteGranted => r.onRequestVoteResponse pf term src voteGranted
  | .raftAppendEntries term leaderId prevLogIndex prevLogTerm entries leaderCommit =>
    r.handleAppendEntries pf
      { term, leaderId, prevLogIndex, prevLogTerm, entries, leaderCommit, «from» := src, now } draw
  | .raftAppendEntriesResponse term success matchIndex =>
    r.onAppendEntriesResponse pf term src success matchIndex
  | other => (r, .error s!"{other.display} must be validated by Peer before reaching consensus")

end RaftConsensus

-- ============================================================================
-- Events at one peer
-- ============================================================================

/-- What a peer passes on to its `RaftConsensus`. -/
inductive RaftEvent where
  | tick (now : Instant) (knownPeers : List PeerId)
  | receive (src : PeerId) (body : MessageBody) (now : Instant) (draw : Nat)
  | clientTransaction (clientTx : SignedTransaction)
  | blockCreated (blockHash : BlockHash)
  | takePendingBlock (blockHash : BlockHash)

def RaftConsensus.handle (pf : Platform) (r : RaftConsensus) :
    RaftEvent → RaftConsensus × Except String (List ConsensusEffect)
  | .tick now knownPeers => r.onTick pf now knownPeers
  | .receive src body now draw => r.onMessage pf src body now draw
  | .clientTransaction clientTx => (r, r.onClientTransaction clientTx)
  | .blockCreated blockHash => r.onBlockCreated pf blockHash
  | .takePendingBlock blockHash => ((r.takePendingBlock blockHash).1, .ok [])

end Rustchain
