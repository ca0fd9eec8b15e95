/-
  Rustchain.Consensus.Engine

  The two consensus engines behind one interface (`consensus.rs`).  A handler
  returns the engine's new state next to its effects or its error.
-/

import Rustchain.Consensus.Raft.Handlers
import Rustchain.Consensus.Voting

namespace Rustchain

inductive ConsensusEngine where
  | voting (peerId : PeerId) (votings : Voting.Votings)
  | raft (raft : RaftConsensus)

namespace ConsensusEngine

def newVoting (peerId : PeerId) : ConsensusEngine := .voting peerId ∅

def newRaft (peerId : PeerId) (now : Instant) (draw : Nat) : ConsensusEngine :=
  .raft (.new peerId now draw)

def newRaftWithStorage (pf : Platform) (peerId : PeerId) (raftLogStore : AnyRaftLogStore)
    (commitIndex : Nat) (now : Instant) (draw : Nat) : Except String ConsensusEngine :=
  match RaftConsensus.newWithStorage pf peerId raftLogStore commitIndex now draw with
  | .error e => .error e
  | .ok r => .ok (.raft r)

def requiresTick : ConsensusEngine → Bool
  | voting .. => false
  | raft _ => true

def state : ConsensusEngine → ConsensusState
  | voting .. => .voting
  | raft r => r.state

/-- A Raft handler's outcome as the engine's. -/
def ofRaft (result : RaftConsensus × Except String (List ConsensusEffect)) :
    ConsensusEngine × Except String (List ConsensusEffect) :=
  (.raft result.1, result.2)

/-- A voting handler's outcome as the engine's. -/
def ofVoting (peerId : PeerId) (result : Voting.Votings × List ConsensusEffect) :
    ConsensusEngine × Except String (List ConsensusEffect) :=
  (.voting peerId result.1, .ok result.2)

def onClientTransaction (engine : ConsensusEngine) (clientTx : SignedTransaction) :
    Except String (List ConsensusEffect) :=
  match engine with
  | voting .. => .ok (Voting.onClientTransaction clientTx)
  | raft r => r.onClientTransaction clientTx

def onBlockCreated (pf : Platform) (engine : ConsensusEngine) (blockHash : BlockHash) :
    ConsensusEngine × Except String (List ConsensusEffect) :=
  match engine with
  | voting .. => (engine, .ok (Voting.onBlockCreated blockHash))
  | raft r => ofRaft (r.onBlockCreated pf blockHash)

def onLocalBlockProposed (engine : ConsensusEngine) (blockHash : BlockHash)
    (knownPeers : List PeerId) : ConsensusEngine × Except String (List ConsensusEffect) :=
  match engine with
  | voting peerId votings =>
    ofVoting peerId (Voting.onLocalBlockProposed peerId votings blockHash knownPeers)
  | raft _ => (engine, .ok [])

def onBlockProposalValidated (engine : ConsensusEngine) (blockHash : BlockHash)
    (proposer : PeerId) (valid : Bool) (knownPeers : List PeerId) :
    ConsensusEngine × Except String (List ConsensusEffect) :=
  match engine with
  | voting peerId votings =>
    ofVoting peerId
      (Voting.onBlockProposalValidated peerId votings blockHash proposer valid knownPeers)
  | raft _ => (engine, .ok [])

def onBlockVote (engine : ConsensusEngine) (blockHash : BlockHash) (src : PeerId)
    (approve : Bool) (knownPeers : List PeerId) :
    ConsensusEngine × Except String (List ConsensusEffect) :=
  match engine with
  | voting peerId votings =>
    ofVoting peerId (Voting.onBlockVote peerId votings blockHash src approve knownPeers)
  | raft _ => (engine, .ok [])

def onTick (pf : Platform) (engine : ConsensusEngine) (now : Instant)
    (knownPeers : List PeerId) : ConsensusEngine × Except String (List ConsensusEffect) :=
  match engine with
  | voting .. => (engine, .ok [])
  | raft r => ofRaft (r.onTick pf now knownPeers)

def takePendingRaftBlock (engine : ConsensusEngine) (blockHash : BlockHash) :
    ConsensusEngine × Option BlockFile :=
  match engine with
  | voting .. => (engine, none)
  | raft r => (.raft (r.takePendingBlock blockHash).1, (r.takePendingBlock blockHash).2)

/-- `on_message`: the four Raft messages, which voting mode ignores; every other
    kind is refused in both modes. -/
def onMessage (pf : Platform) (engine : ConsensusEngine) (src : PeerId) (body : MessageBody)
    (now : Instant) (draw : Nat) : ConsensusEngine × Except String (List ConsensusEffect) :=
  match engine with
  | raft r => ofRaft (r.onMessage pf src body now draw)
  | voting .. =>
    match body with
    | .raftRequestVote .. | .raftRequestVoteResponse .. | .raftAppendEntries ..
    | .raftAppendEntriesResponse .. => (engine, .ok [])
    | other =>
      (engine, .error s!"{other.display} must be validated by Peer before reaching consensus")

end ConsensusEngine
end Rustchain
