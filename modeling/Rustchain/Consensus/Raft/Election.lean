/-
  Rustchain.Consensus.Raft.Election

  Terms, votes and leadership of one Raft peer (`raft/election.rs`), function
  by function.
-/

import Rustchain.Consensus.Raft.State

namespace Rustchain
namespace RaftConsensus

def updateParticipants (r : RaftConsensus) (knownPeers : List PeerId) : RaftConsensus :=
  let participants := knownPeers.dedup.insert r.peerId
  { r with
    participants
    votesReceived := r.votesReceived.filter (· ∈ participants)
    matchIndexes := r.matchIndexes.retain (· ∈ participants) }

def stepDown (r : RaftConsensus) (term : Nat) : RaftConsensus :=
  { r with
    currentTerm := term
    role := .follower
    votedFor := none
    leaderId := none
    votesReceived := ∅ }

def stepDownOnNewerTerm (r : RaftConsensus) (term : Nat) : RaftConsensus :=
  if term > r.currentTerm then r.stepDown term else r

/-- The match index a fresh leader assumes for every participant: its own last
    index for itself, 0 for the others. -/
def initialMatchIndexes (r : RaftConsensus) : HashMap PeerId Nat :=
  r.participants.foldl
    (fun m participant =>
      m.insert participant (if participant = r.peerId then r.lastLogIndex else 0)) ∅

def becomeLeaderIfMajority (r : RaftConsensus) : RaftConsensus × Bool :=
  if r.votesReceived.card ≥ r.majority then
    ({ r with
        role := .leader
        leaderId := some r.peerId
        lastHeartbeatSentAt := none
        matchIndexes := r.initialMatchIndexes }, true)
  else (r, false)

/-- `start_election_at`.  The term is a `u64`; its increment wraps. -/
def startElectionAt (r : RaftConsensus) (now : Instant) : RaftConsensus × Bool :=
  becomeLeaderIfMajority
    { r with
      currentTerm := (r.currentTerm + 1) % 2 ^ 64
      role := .candidate
      votedFor := some r.peerId
      leaderId := none
      votesReceived := {r.peerId}
      lastHeartbeatReceivedAt := now
      lastHeartbeatSentAt := none }

def candidateLogIsUpToDate (r : RaftConsensus) (lastLogIndex lastLogTerm : Nat) : Bool :=
  lastLogTerm > r.lastLogTerm
    || (lastLogTerm == r.lastLogTerm && lastLogIndex ≥ r.lastLogIndex)

def requestVote (r : RaftConsensus) (term : Nat) (candidateId : PeerId)
    (lastLogIndex lastLogTerm : Nat) : RaftConsensus × VoteResponse :=
  if term < r.currentTerm then (r, .rejected)
  else
    let r := r.stepDownOnNewerTerm term
    if !r.candidateLogIsUpToDate lastLogIndex lastLogTerm then (r, .rejected)
    else if r.votedFor.any (· ≠ candidateId) then (r, .rejected)
    else ({ r with votedFor := some candidateId }, .granted)

def receiveVote (r : RaftConsensus) (term : Nat) (voterId : PeerId) (granted : Bool) :
    RaftConsensus × Bool :=
  if term > r.currentTerm then (r.stepDown term, false)
  else if r.role ≠ .candidate ∨ term ≠ r.currentTerm ∨ !granted then (r, false)
  else if voterId ∈ r.participants then
    becomeLeaderIfMajority { r with votesReceived := insert voterId r.votesReceived }
  else (r, false)

def leaderTimedOut (r : RaftConsensus) (now : Instant) : Bool :=
  now - r.lastHeartbeatReceivedAt ≥ r.currentElectionTimeout

def resetElectionTimeout (r : RaftConsensus) (draw : Nat) : RaftConsensus :=
  { r with
    currentElectionTimeout :=
      randomElectionTimeout r.electionTimeoutBase r.electionTimeoutJitter draw }

/-- The tail of `receive_append_entries_at`: follow `leaderId`. -/
def followLeader (r : RaftConsensus) (leaderId : PeerId) (now : Instant) (draw : Nat) :
    RaftConsensus :=
  let leaderChanged := r.leaderId ≠ some leaderId
  let r :=
    { r with
      role := .follower
      leaderId := some leaderId
      votesReceived := ∅
      lastHeartbeatReceivedAt := now }
  if leaderChanged then r.resetElectionTimeout draw else r

def receiveAppendEntriesAt (r : RaftConsensus) (term : Nat) (leaderId src : PeerId)
    (now : Instant) (draw : Nat) : RaftConsensus × Bool :=
  if src ≠ leaderId ∨ leaderId ∉ r.participants then (r, false)
  else if term < r.currentTerm then (r, false)
  else
    let r := r.stepDownOnNewerTerm term
    if r.leaderId.any (· ≠ leaderId) && !r.leaderTimedOut now then (r, false)
    else (r.followLeader leaderId now draw, true)

end RaftConsensus
end Rustchain
