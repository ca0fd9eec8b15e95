/-
  Rustchain.Consensus.Raft.Replication

  Log replication of one Raft peer (`raft/replication.rs`), function by
  function: the follower's merge of a leader's entries, the leader's view of
  its followers, and the commit index on both sides.

  A handler returns the new state next to its result, because the state a
  failed save leaves behind is part of what the code does.
-/

import Rustchain.Consensus.Raft.Election
import Rustchain.Storage.Block

namespace Rustchain

/-- `entries_are_contiguous_after`. -/
def entriesAreContiguousAfter (prevLogIndex : Nat) (entries : List RaftLogEntry) : Bool :=
  entries.zipIdx.all fun (entry, offset) => entry.index == prevLogIndex + offset + 1

/-- The non-noop block hashes of a list of entries, in order. -/
def blockHashes (entries : List RaftLogEntry) : List BlockHash :=
  (entries.filter fun entry => !entry.isNoop).map RaftLogEntry.blockHash

/-- The loop of `append_entries`: merges `entries` into `log` one by one and
    collects the block hashes of the entries it discards.  The result is `none`
    when an entry conflicts with the log at or below `commitIndex`; the log
    comes back as it stands then. -/
def mergeEntries (commitIndex : Nat) :
    List RaftLogEntry → List BlockHash → List RaftLogEntry →
      List RaftLogEntry × Option (List BlockHash)
  | log, discarded, [] => (log, some discarded)
  | log, discarded, entry :: entries =>
    match entryOf log entry.index with
    | some existing =>
      if existing.term ≠ entry.term then
        -- A conflicting suffix must never reach into committed history.
        if entry.index ≤ commitIndex then (log, none)
        else
          let truncateAt := entry.index - 1
          mergeEntries commitIndex (log.take truncateAt ++ [entry])
            (discarded ++ blockHashes (log.drop truncateAt)) entries
      else mergeEntries commitIndex log discarded entries
    | none =>
      if entry.index = lastIndexOf log + 1 then
        mergeEntries commitIndex (log ++ [entry]) discarded entries
      else mergeEntries commitIndex log discarded entries

/-- The entries of a log with index in `(low, high]`. -/
def entriesBetween (log : List RaftLogEntry) (low high : Nat) : List RaftLogEntry :=
  log.filter fun entry => low < entry.index && entry.index ≤ high

/-- The arguments of `handle_append_entries`. -/
structure AppendEntriesRequest where
  term : Nat
  leaderId : PeerId
  prevLogIndex : Nat
  prevLogTerm : Nat
  entries : List RaftReplicatedBlock
  leaderCommit : Nat
  «from» : PeerId
  now : Instant

namespace RaftConsensus

-- ============================================================================
-- Follower side
-- ============================================================================

def appendEntriesResponse (r : RaftConsensus) (dst : PeerId) (success : Bool)
    (matchIndex : Nat) : ConsensusEffect :=
  .send dst (.raftAppendEntriesResponse r.currentTerm success matchIndex)

def matchingIndexFor (r : RaftConsensus) (prevLogIndex prevLogTerm : Nat)
    (entries : List RaftLogEntry) : Nat :=
  let previousMatch := if r.termAt prevLogIndex = some prevLogTerm then prevLogIndex else 0
  ((entries.filter fun entry => r.termAt entry.index = some entry.term).map
    RaftLogEntry.index).max?.getD previousMatch

/-- `CommitBlock` for every block entry of the log in `(low, high]`. -/
def commitEffects (r : RaftConsensus) (low high : Nat) : List ConsensusEffect :=
  (blockHashes (entriesBetween r.log low high)).map .commitBlock

def appendEntries (r : RaftConsensus) (prevLogIndex prevLogTerm : Nat)
    (entries : List RaftLogEntry) (leaderCommit : Nat) :
    RaftConsensus × Option (List ConsensusEffect) :=
  if r.termAt prevLogIndex ≠ some prevLogTerm then (r, none)
  else if !entriesAreContiguousAfter prevLogIndex entries then (r, none)
  else
    let previousCommitIndex := r.commitIndex
    let entriesToStage :=
      entries.filter fun entry => entry.index > previousCommitIndex && !entry.isNoop
    match mergeEntries r.commitIndex r.log [] entries with
    | (log, none) => ({ r with log }, none)
    | (log, some discardedBlockHashes) =>
      let r :=
        { r with log, commitIndex := max r.commitIndex (min leaderCommit (lastIndexOf log)) }
      let staged :=
        if entriesToStage.isEmpty then [] else [ConsensusEffect.stageRaftEntries entriesToStage]
      (r, some (discardedBlockHashes.map .rollbackBlock ++ staged
        ++ r.commitEffects previousCommitIndex r.commitIndex))

/-- `validate_replicated_entries`: the entries of a request with the blocks that
    came with them, keyed by hash. -/
def validateReplicatedEntries (pf : Platform) :
    List RaftReplicatedBlock → Except String (List RaftLogEntry × HashMap BlockHash BlockFile)
  | [] => .ok ([], ∅)
  | replicated :: rest =>
    if replicated.entry.isNoop then
      if !replicated.blockFile.isEmpty then
        .error s!"Raft no-op entry at index {replicated.entry.index} contains a block payload"
      else
        match pf.verify replicated.publicKey replicated.blockFile replicated.signature with
        | .error e => .error e
        | .ok () =>
          match validateReplicatedEntries pf rest with
          | .error e => .error e
          | .ok (entries, blocks) => .ok (replicated.entry :: entries, blocks)
    else
      match BlockFile.verifyBlockVec pf replicated.entry.blockHash replicated.blockFile
        replicated.signature replicated.publicKey with
      | .error e => .error e.display
      | .ok blockFile =>
        match validateReplicatedEntries pf rest with
        | .error e => .error e
        | .ok (entries, blocks) =>
          -- A later payload for the same hash overwrites an earlier one.
          .ok (replicated.entry :: entries,
            if replicated.entry.blockHash ∈ blocks then blocks
            else blocks.insert replicated.entry.blockHash blockFile)

/-- A validated request starts with a validated entry: a no-op without payload, or
    a block entry with its block. -/
theorem validateReplicatedEntries_cons {pf : Platform} {replicated : RaftReplicatedBlock}
    {rest : List RaftReplicatedBlock} {entries : List RaftLogEntry}
    {blocks : HashMap BlockHash BlockFile}
    (h : validateReplicatedEntries pf (replicated :: rest) = .ok (entries, blocks)) :
    ∃ entries' blocks', validateReplicatedEntries pf rest = .ok (entries', blocks') ∧
      entries = replicated.entry :: entries' ∧
      (replicated.entry.isNoop = true ∧ blocks = blocks' ∨
        replicated.entry.isNoop = false ∧ ∃ blockFile,
          BlockFile.verifyBlockVec pf replicated.entry.blockHash replicated.blockFile
            replicated.signature replicated.publicKey = .ok blockFile ∧
          blocks = if replicated.entry.blockHash ∈ blocks' then blocks'
            else blocks'.insert replicated.entry.blockHash blockFile) := by
  rw [validateReplicatedEntries] at h
  by_cases hnoop : replicated.entry.isNoop = true
  · rw [if_pos hnoop] at h
    by_cases hempty : (!replicated.blockFile.isEmpty) = true
    · rw [if_pos hempty] at h
      cases h
    rw [if_neg hempty] at h
    cases hverify : pf.verify replicated.publicKey replicated.blockFile replicated.signature with
    | error e =>
        rw [hverify] at h
        cases h
    | ok _ =>
        rw [hverify] at h
        cases hrest : validateReplicatedEntries pf rest with
        | error e =>
            rw [hrest] at h
            cases h
        | ok result =>
            rw [hrest] at h
            cases h
            exact ⟨result.1, _, rfl, rfl, Or.inl ⟨hnoop, rfl⟩⟩
  · rw [if_neg hnoop] at h
    cases hverify : BlockFile.verifyBlockVec pf replicated.entry.blockHash replicated.blockFile
        replicated.signature replicated.publicKey with
    | error e =>
        rw [hverify] at h
        cases h
    | ok blockFile =>
        rw [hverify] at h
        cases hrest : validateReplicatedEntries pf rest with
        | error e =>
            rw [hrest] at h
            cases h
        | ok result =>
            rw [hrest] at h
            cases h
            exact ⟨result.1, result.2, rfl, rfl,
              Or.inr ⟨by simpa using hnoop, blockFile, rfl, rfl⟩⟩

/-- Validation passes the entries on unchanged. -/
theorem validateReplicatedEntries_entries {pf : Platform} {replicated : List RaftReplicatedBlock}
    {entries : List RaftLogEntry} {blocks : HashMap BlockHash BlockFile}
    (h : validateReplicatedEntries pf replicated = .ok (entries, blocks)) :
    entries = replicated.map RaftReplicatedBlock.entry := by
  induction replicated generalizing entries blocks with
  | nil =>
      cases h
      rfl
  | cons x rest ih =>
      obtain ⟨entries', blocks', hrest, rfl, -⟩ := validateReplicatedEntries_cons h
      rw [List.map_cons, ih hrest]

/-- Moves the validated block of every entry to be staged into `pendingBlocks`. -/
def keepPendingBlocks (pendingBlocks blocks : HashMap BlockHash BlockFile) :
    List RaftLogEntry → HashMap BlockHash BlockFile
  | [] => pendingBlocks
  | entry :: entries =>
    match blocks.lookup entry.blockHash with
    | some blockFile =>
      if entry.isNoop then keepPendingBlocks pendingBlocks blocks entries
      else
        keepPendingBlocks (pendingBlocks.insert entry.blockHash blockFile)
          (blocks.erase entry.blockHash) entries
    | none => keepPendingBlocks pendingBlocks blocks entries

/-- The entries of the `StageRaftEntries` effects of a batch. -/
def stagedEntries (effects : List ConsensusEffect) : List RaftLogEntry :=
  effects.flatMap fun
    | .stageRaftEntries entries => entries
    | _ => []

/-- The part of `handle_append_entries` after the entries are validated. -/
def acceptEntries (pf : Platform) (r : RaftConsensus) (request : AppendEntriesRequest)
    (logEntries : List RaftLogEntry) (blocks : HashMap BlockHash BlockFile) :
    RaftConsensus × Except String (List ConsensusEffect) :=
  let matchIndex := r.matchingIndexFor request.prevLogIndex request.prevLogTerm logEntries
  let acceptedMatchIndex := (logEntries.getLast?.map RaftLogEntry.index).getD request.prevLogIndex
  let logChanged := acceptedMatchIndex > request.prevLogIndex
  let previousCommitIndex := r.commitIndex
  match r.appendEntries request.prevLogIndex request.prevLogTerm logEntries
      request.leaderCommit with
  | (r, none) => (r, .ok [r.appendEntriesResponse request.from false matchIndex])
  | (r, some effects) =>
    let r := { r with
      pendingBlocks := keepPendingBlocks r.pendingBlocks blocks (stagedEntries effects) }
    -- The acknowledgement is the batch's last effect.
    let effects := effects ++ [r.appendEntriesResponse request.from true acceptedMatchIndex]
    if logChanged || r.commitIndex ≠ previousCommitIndex then r.persistThen pf effects
    else (r, .ok effects)

def handleAppendEntries (pf : Platform) (r : RaftConsensus) (request : AppendEntriesRequest)
    (draw : Nat) : RaftConsensus × Except String (List ConsensusEffect) :=
  match r.receiveAppendEntriesAt request.term request.leaderId request.from request.now draw with
  | (r, false) =>
    (r, .ok [r.appendEntriesResponse request.from false
      (r.matchingIndexFor request.prevLogIndex request.prevLogTerm [])])
  | (r, true) =>
    match validateReplicatedEntries pf request.entries with
    | .error _ =>
      (r, .ok [r.appendEntriesResponse request.from false
        (r.matchingIndexFor request.prevLogIndex request.prevLogTerm [])])
    | .ok (logEntries, blocks) => r.acceptEntries pf request logEntries blocks

-- ============================================================================
-- Leader side
-- ============================================================================

def heartbeatDue (r : RaftConsensus) (now : Instant) : Bool :=
  r.lastHeartbeatSentAt.all fun lastSentAt => now - lastSentAt ≥ r.heartbeatInterval

/-- How many participants hold the log up to `index`, by the leader's account. -/
def replicatedCount (r : RaftConsensus) (index : Nat) : Nat :=
  r.participants.countP fun peerId => (r.matchIndexes.lookup peerId).any (· ≥ index)

/-- The entry `advance_commit_index` stops at: the last one of the current term
    above the commit index that a majority holds. -/
def commitCandidate (r : RaftConsensus) : Option RaftLogEntry :=
  r.log.reverse.find? fun entry =>
    r.commitIndex < entry.index && entry.term == r.currentTerm
      && r.replicatedCount entry.index ≥ r.majority

def advanceCommitIndex (r : RaftConsensus) : RaftConsensus × List ConsensusEffect :=
  let previousCommitIndex := r.commitIndex
  let r :=
    match r.commitCandidate with
    | some entry => { r with commitIndex := entry.index }
    | none => r
  (r, r.commitEffects previousCommitIndex r.commitIndex)

theorem advanceCommitIndex_fst (r : RaftConsensus) :
    r.advanceCommitIndex.1 =
      { r with
        commitIndex := (r.commitCandidate.map RaftLogEntry.index).getD r.commitIndex } := by
  rw [advanceCommitIndex]
  cases r.commitCandidate <;> rfl

theorem commitCandidate_spec {r : RaftConsensus} {entry : RaftLogEntry}
    (h : r.commitCandidate = some entry) :
    entry ∈ r.log ∧ r.commitIndex < entry.index ∧ entry.term = r.currentTerm ∧
      r.majority ≤ r.replicatedCount entry.index := by
  have hmem := List.mem_of_find?_eq_some h
  have hp := List.find?_some h
  simp only [Bool.and_eq_true, decide_eq_true_eq, beq_iff_eq, ge_iff_le] at hp
  exact ⟨List.mem_reverse.mp hmem, hp.1.1, hp.1.2, hp.2⟩

theorem le_advanceCommitIndex (r : RaftConsensus) :
    r.commitIndex ≤ r.advanceCommitIndex.1.commitIndex := by
  rw [r.advanceCommitIndex_fst]
  cases h : r.commitCandidate with
  | none => exact Nat.le_refl _
  | some entry => exact Nat.le_of_lt (commitCandidate_spec h).2.1

def appendEntriesEffectFor (r : RaftConsensus) (peerId : PeerId) : Option ConsensusEffect :=
  let peerMatchIndex := (r.matchIndexes.lookup peerId).getD 0
  let prevLogIndex := min peerMatchIndex r.lastLogIndex
  match r.termAt prevLogIndex with
  | none => none
  | some prevLogTerm =>
    some (.sendRaftAppendEntries peerId r.currentTerm prevLogIndex prevLogTerm
      ((r.log.filter fun entry => entry.index > prevLogIndex).take maxAppendEntries)
      r.commitIndex)

/-- The request for a follower, if there is one. -/
theorem appendEntriesEffectFor_spec {r : RaftConsensus} {peerId : PeerId}
    {effect : ConsensusEffect} (h : r.appendEntriesEffectFor peerId = some effect) :
    ∃ prevLogIndex prevLogTerm, r.termAt prevLogIndex = some prevLogTerm ∧
      effect = .sendRaftAppendEntries peerId r.currentTerm prevLogIndex prevLogTerm
        ((r.log.filter fun entry => entry.index > prevLogIndex).take maxAppendEntries)
        r.commitIndex := by
  rw [appendEntriesEffectFor] at h
  split at h
  · cases h
  · rename_i prevLogTerm hterm
    cases h
    exact ⟨_, prevLogTerm, hterm, rfl⟩

def appendEntriesEffectsForFollowers (r : RaftConsensus) : List ConsensusEffect :=
  (r.participants.filter (· ≠ r.peerId)).filterMap r.appendEntriesEffectFor

theorem mem_appendEntriesEffectsForFollowers {r : RaftConsensus} {effect : ConsensusEffect}
    (h : effect ∈ r.appendEntriesEffectsForFollowers) :
    ∃ peerId ≠ r.peerId, r.appendEntriesEffectFor peerId = some effect := by
  obtain ⟨peerId, hmem, heffect⟩ := List.mem_filterMap.mp h
  exact ⟨peerId, by simpa using (List.mem_filter.mp hmem).2, heffect⟩

def handleLeaderAppendEntriesResponse (pf : Platform) (r : RaftConsensus) (term : Nat)
    (src : PeerId) (success : Bool) (matchIndex : Nat) :
    RaftConsensus × Except String (List ConsensusEffect) :=
  if term > r.currentTerm then (r.stepDown term, .ok [])
  else if term ≠ r.currentTerm ∨ src ∉ r.participants then (r, .ok [])
  else if success then
    let currentMatchIndex := (r.matchIndexes.lookup src).getD 0
    let r := { r with matchIndexes := r.matchIndexes.insert src (max currentMatchIndex matchIndex) }
    let previousCommitIndex := r.commitIndex
    let (r, effects) := r.advanceCommitIndex
    if r.commitIndex ≠ previousCommitIndex then r.persistThen pf effects else (r, .ok effects)
  else
    let matchIndex := min matchIndex r.lastLogIndex
    let r := { r with matchIndexes := r.matchIndexes.insert src matchIndex }
    if matchIndex ≥ r.lastLogIndex then (r, .ok [])
    else (r, .ok (r.appendEntriesEffectFor src).toList)

def ensureNoUncommittedBlock (r : RaftConsensus) : Except String Unit :=
  if r.log.any fun entry => r.commitIndex < entry.index && !entry.isNoop then
    .error "Raft leader already has an uncommitted block"
  else .ok ()

/-- The common tail of `append_local_block` and `append_leader_noop`. -/
def appendAsLeader (pf : Platform) (r : RaftConsensus) (entry : RaftLogEntry) :
    RaftConsensus × Except String (List ConsensusEffect) :=
  let r := { r with
    log := r.log ++ [entry]
    matchIndexes := r.matchIndexes.insert r.peerId entry.index }
  let effects := r.appendEntriesEffectsForFollowers
  let (r, commits) := r.advanceCommitIndex
  r.persistThen pf (effects ++ commits)

def appendLocalBlock (pf : Platform) (r : RaftConsensus) (blockHash : BlockHash) :
    RaftConsensus × Except String (List ConsensusEffect) :=
  match r.ensureNoUncommittedBlock with
  | .error e => (r, .error e)
  | .ok () =>
    r.appendAsLeader pf { term := r.currentTerm, index := r.lastLogIndex + 1, blockHash }

def appendLeaderNoop (pf : Platform) (r : RaftConsensus) :
    RaftConsensus × Except String (List ConsensusEffect) :=
  r.appendAsLeader pf (.noop r.currentTerm (r.lastLogIndex + 1))

end RaftConsensus
end Rustchain
