/-
  Rustchain.Consensus.Raft.State

  The state of one Raft peer (`raft.rs`) and the lookups on its log that every
  handler shares (`raft/replication.rs`).

  `participants` is a `HashSet` in the source and is walked when the leader
  addresses its followers, so it is the list of its members in iteration order,
  without repetition.  Randomised timeouts take the random draw as an argument.
-/

import Mathlib.Data.Finset.Card
import Mathlib.Data.List.Dedup
import Rustchain.Consensus.RaftLogStore
import Rustchain.Lib.HashMap

namespace Rustchain

-- ============================================================================
-- Constants
-- ============================================================================

/-- `DEFAULT_RAFT_HEARTBEAT_INTERVAL`, in milliseconds. -/
def defaultHeartbeatInterval : Nat := 5000

/-- `DEFAULT_RAFT_ELECTION_TIMEOUT`, in milliseconds. -/
def defaultElectionTimeout : Nat := 10000

/-- `DEFAULT_RAFT_ELECTION_TIMEOUT_JITTER`, in milliseconds. -/
def defaultElectionTimeoutJitter : Nat := 5000

/-- `MAX_APPEND_ENTRIES`: how many entries one request carries at most. -/
def maxAppendEntries : Nat := 5

-- ============================================================================
-- State
-- ============================================================================

inductive RaftRole where
  | follower
  | candidate
  | leader
deriving DecidableEq, Repr

inductive VoteResponse where
  | granted
  | rejected
deriving DecidableEq, Repr

structure RaftConsensus where
  peerId : PeerId
  participants : List PeerId
  currentTerm : Nat
  votedFor : Option PeerId
  leaderId : Option PeerId
  role : RaftRole
  votesReceived : Finset PeerId
  heartbeatInterval : Nat
  electionTimeoutBase : Nat
  electionTimeoutJitter : Nat
  currentElectionTimeout : Nat
  lastHeartbeatReceivedAt : Instant
  lastHeartbeatSentAt : Option Instant
  log : List RaftLogEntry
  raftLogStore : AnyRaftLogStore
  commitIndex : Nat
  matchIndexes : HashMap PeerId Nat
  pendingBlocks : HashMap BlockHash BlockFile

/-- What `ConsensusEngine::state` publishes. -/
inductive ConsensusState where
  | voting
  | raft (role : RaftRole) (term : Nat) (leaderId : Option PeerId)
      (commitIndex lastLogIndex : Nat)
deriving DecidableEq, Repr

/-- `random_election_timeout`: `draw` is what the generator returns for the
    range `0..=jitter`. -/
def randomElectionTimeout (base jitter draw : Nat) : Nat :=
  if jitter = 0 then base else base + draw % (jitter + 1)

-- ============================================================================
-- Log lookups
-- ============================================================================

/-- The index of the last entry of a log, 0 for the empty log. -/
def lastIndexOf (log : List RaftLogEntry) : Nat :=
  (log.getLast?.map RaftLogEntry.index).getD 0

/-- The term of the last entry of a log, 0 for the empty log. -/
def lastTermOf (log : List RaftLogEntry) : Nat :=
  (log.getLast?.map RaftLogEntry.term).getD 0

/-- The entry of a log with the given index. -/
def entryOf (log : List RaftLogEntry) (index : Nat) : Option RaftLogEntry :=
  log.find? fun entry => entry.index == index

/-- The term of the entry with the given index; index 0 counts as term 0. -/
def termOf (log : List RaftLogEntry) (index : Nat) : Option Nat :=
  if index = 0 then some 0 else (entryOf log index).map RaftLogEntry.term

namespace RaftConsensus

def lastLogIndex (r : RaftConsensus) : Nat := lastIndexOf r.log

def lastLogTerm (r : RaftConsensus) : Nat := lastTermOf r.log

def logEntry (r : RaftConsensus) (index : Nat) : Option RaftLogEntry := entryOf r.log index

def termAt (r : RaftConsensus) (index : Nat) : Option Nat := termOf r.log index

-- ============================================================================
-- Construction
-- ============================================================================

def newWithLog (peerId : PeerId) (log : List RaftLogEntry) (commitIndex : Nat)
    (raftLogStore : AnyRaftLogStore) (now : Instant) (draw : Nat) : RaftConsensus :=
  { peerId
    participants := [peerId]
    currentTerm := 0
    votedFor := none
    leaderId := none
    role := .follower
    votesReceived := ∅
    heartbeatInterval := defaultHeartbeatInterval
    electionTimeoutBase := defaultElectionTimeout
    electionTimeoutJitter := defaultElectionTimeoutJitter
    currentElectionTimeout :=
      randomElectionTimeout defaultElectionTimeout defaultElectionTimeoutJitter draw
    lastHeartbeatReceivedAt := now
    lastHeartbeatSentAt := none
    log
    raftLogStore
    commitIndex := min commitIndex (lastIndexOf log)
    matchIndexes := ∅
    pendingBlocks := ∅ }

def newWithStorage (pf : Platform) (peerId : PeerId) (raftLogStore : AnyRaftLogStore)
    (commitIndex : Nat) (now : Instant) (draw : Nat) : Except String RaftConsensus :=
  match raftLogStore.load pf with
  | .error e => .error e
  | .ok persisted =>
    .ok (newWithLog peerId persisted.log (persisted.commitIndex.getD commitIndex)
      raftLogStore now draw)

/-- `RaftConsensus::new`: an empty log in memory. -/
def new (peerId : PeerId) (now : Instant) (draw : Nat) : RaftConsensus :=
  newWithLog peerId [] 0 (.inMemory .new) now draw

/-- The in-memory store of `new` is always readable, as its `expect` says. -/
theorem newWithStorage_inMemory (pf : Platform) (peerId : PeerId) (now : Instant) (draw : Nat) :
    newWithStorage pf peerId (.inMemory .new) 0 now draw = .ok (new peerId now draw) := rfl

def state (r : RaftConsensus) : ConsensusState :=
  .raft r.role r.currentTerm r.leaderId r.commitIndex r.lastLogIndex

/-- `persist_log`. -/
def persistLog (pf : Platform) (r : RaftConsensus) : RaftConsensus × Except String Unit :=
  let (store, result) := r.raftLogStore.save pf r.log r.commitIndex
  ({ r with raftLogStore := store }, result)

/-- `self.persist_log()?; Ok(effects)`. -/
def persistThen (pf : Platform) (r : RaftConsensus) (effects : List ConsensusEffect) :
    RaftConsensus × Except String (List ConsensusEffect) :=
  match r.persistLog pf with
  | (r, .ok ()) => (r, .ok effects)
  | (r, .error e) => (r, .error e)

theorem persistThen_fst (pf : Platform) (r : RaftConsensus) (effects : List ConsensusEffect) :
    (r.persistThen pf effects).1 =
      { r with raftLogStore := (r.raftLogStore.save pf r.log r.commitIndex).1 } := by
  unfold persistThen persistLog
  rcases r.raftLogStore.save pf r.log r.commitIndex with ⟨store, _ | _⟩ <;> rfl

theorem persistThen_snd (pf : Platform) (r : RaftConsensus) (effects : List ConsensusEffect) :
    (r.persistThen pf effects).2 =
      (r.raftLogStore.save pf r.log r.commitIndex).2.map fun _ => effects := by
  unfold persistThen persistLog
  rcases r.raftLogStore.save pf r.log r.commitIndex with ⟨store, _ | _⟩ <;> rfl

def majority (r : RaftConsensus) : Nat := r.participants.length / 2 + 1

end RaftConsensus

end Rustchain
