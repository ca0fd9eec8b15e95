/-
  Rustchain.Peer.Backing

  What a message has to be for its receiver to accept it, and what consensus has
  to see to for that when it asks for something to be sent.

  Every kind of message has a check of its own at the receiver: the signatures of
  a transaction, signature and hash of a proposed block, the shape and the
  payloads of an `AppendEntries` request.  The sender makes none of them again; a
  message passes because of what the sender holds.  None of the checks looks at
  where the transactions of a block come from, which is what `Bears` is about.
-/

import Rustchain.Consensus.Raft.History
import Rustchain.Peer.Delegation
import Rustchain.Peer.Refinement
import Rustchain.Peer.Transactions
import Rustchain.Storage.Verified

namespace Rustchain

-- ============================================================================
-- Checks
-- ============================================================================

/-- The sender that a call to the network names. -/
def NetworkCall.sender : NetworkCall → PeerId
  | .send message => message.from
  | .broadcast _ src => src

/-- What a receiver checks of a message from `src` before it looks at its own state:
    `process_client_transaction`, `synchronize_transaction`, `process_block_proposal`,
    and for an `AppendEntries` request the sender, the payloads and the indexes.  Other
    messages carry nothing to check. -/
def MessageBody.Passes (pf : Platform) (src : PeerId) : MessageBody → Prop
  | .clientTransaction clientTx => clientTx.verify pf = .ok ()
  | .synchronization verifiedTx => verifiedTx.verify pf = .ok ()
  | .blockProposal blockHash blockFile signature publicKey =>
    ∃ block, BlockFile.verifyBlockVec pf blockHash blockFile signature publicKey = .ok block
  | .raftAppendEntries _ leaderId prevLogIndex _ entries _ =>
    leaderId = src ∧
      entriesAreContiguousAfter prevLogIndex (entries.map RaftReplicatedBlock.entry) = true ∧
      ∃ validated, RaftConsensus.validateReplicatedEntries pf entries = .ok validated
  | _ => True

/-- The transactions that a message takes past the first check of a receiver are
    good. -/
def MessageBody.Bears (pf : Platform) (good : SignedTransaction → Prop) : MessageBody → Prop
  | .clientTransaction clientTx => clientTx.verify pf = .ok () → good clientTx
  | .synchronization verifiedTx => verifiedTx.verify pf = .ok () → good verifiedTx.clientTx
  | .blockProposal blockHash blockFile signature publicKey =>
    ∀ block, BlockFile.verifyBlockVec pf blockHash blockFile signature publicKey = .ok block →
      ∀ tx ∈ block.transactions, good tx
  | .raftAppendEntries _ _ _ _ entries _ =>
    ∀ replicated ∈ entries, replicated.entry.isNoop = false →
      ∀ block, BlockFile.verifyBlockVec pf replicated.entry.blockHash replicated.blockFile
        replicated.signature replicated.publicKey = .ok block → ∀ tx ∈ block.transactions, good tx
  | _ => True

/-- What consensus has to see to when it asks for something to be sent by `src`, or for
    a transaction to be staged. -/
def ConsensusEffect.Backed (pf : Platform) (good : SignedTransaction → Prop) (src : PeerId) :
    ConsensusEffect → Prop
  | .stageClientTransaction clientTx => good clientTx
  | .broadcastClientTransaction clientTx => clientTx.verify pf = .ok () ∧ good clientTx
  | .sendRaftAppendEntries _ _ prevLogIndex _ entries _ => Contiguous prevLogIndex entries
  | .broadcast body | .send _ body => body.Passes pf src ∧ body.Bears pf good
  | _ => True

/-- Every effect of the answer is backed. -/
def Backs {α : Type} (pf : Platform) (good : SignedTransaction → Prop) (src : PeerId)
    (answer : α × Except String (List ConsensusEffect)) : Prop :=
  ∀ queue, answer.2 = .ok queue → ∀ effect ∈ queue, effect.Backed pf good src

section Backs

variable {α : Type} {pf : Platform} {good : SignedTransaction → Prop} {src : PeerId}

theorem Backs.of_ok {state : α} {queue : List ConsensusEffect}
    (h : ∀ effect ∈ queue, effect.Backed pf good src) : Backs pf good src (state, .ok queue) := by
  intro answered heq
  cases heq
  exact h

theorem Backs.of_nil (state : α) : Backs pf good src (state, .ok []) :=
  .of_ok fun _ h => absurd h List.not_mem_nil

theorem Backs.of_single {state : α} {effect : ConsensusEffect} (h : effect.Backed pf good src) :
    Backs pf good src (state, .ok [effect]) := by
  apply Backs.of_ok
  intro other hmem
  rw [List.mem_singleton.mp hmem]
  exact h

theorem Backs.of_error (state : α) (e : String) : Backs pf good src (state, .error e) := by
  intro queue heq
  cases heq

end Backs

-- ============================================================================
-- Raft
-- ============================================================================

namespace RaftConsensus

variable {pf : Platform} {good : SignedTransaction → Prop} {src : PeerId} {r : RaftConsensus}

/-- The entries after `prevLogIndex`, as a leader sends them. -/
theorem appendEntriesEffectFor_backed (hlog : Contiguous 0 r.log) {peerId : PeerId}
    {effect : ConsensusEffect} (h : r.appendEntriesEffectFor peerId = some effect) :
    effect.Backed pf good src := by
  obtain ⟨prevLogIndex, prevLogTerm, -, rfl⟩ := appendEntriesEffectFor_spec h
  show Contiguous prevLogIndex
    ((r.log.filter fun entry => entry.index > prevLogIndex).take maxAppendEntries)
  rw [hlog.filter_gt]
  have hdrop := hlog.drop prevLogIndex
  rw [Nat.zero_add] at hdrop
  exact hdrop.initial (List.take_prefix _ _)

theorem appendEntriesEffectsForFollowers_backed (hlog : Contiguous 0 r.log) :
    ∀ effect ∈ r.appendEntriesEffectsForFollowers, effect.Backed pf good src := by
  intro effect hmem
  obtain ⟨q, -, heffect⟩ := mem_appendEntriesEffectsForFollowers hmem
  exact appendEntriesEffectFor_backed hlog heffect

theorem commitEffects_backed (low high : Nat) :
    ∀ effect ∈ r.commitEffects low high, effect.Backed pf good src := by
  intro effect hmem
  obtain ⟨blockHash, -, rfl⟩ := List.mem_map.mp hmem
  trivial

theorem persistThen_backs {queue : List ConsensusEffect}
    (h : ∀ effect ∈ queue, effect.Backed pf good src) :
    Backs pf good src (r.persistThen pf queue) := by
  unfold persistThen
  split
  · exact .of_ok h
  · exact .of_error _ _

theorem appendAsLeader_backs (hlog : Contiguous 0 r.log) {entry : RaftLogEntry}
    (hentry : entry.index = r.lastLogIndex + 1) :
    Backs pf good src (r.appendAsLeader pf entry) := by
  have hlog' : Contiguous 0 (r.log ++ [entry]) := by
    refine hlog.concat (hentry.trans ?_)
    rw [lastLogIndex, hlog.lastIndexOf, Nat.zero_add]
  apply persistThen_backs
  intro effect hmem
  rcases List.mem_append.mp hmem with hmem | hmem
  · exact appendEntriesEffectsForFollowers_backed (by exact hlog') effect hmem
  · exact commitEffects_backed _ _ effect hmem

theorem onBlockCreated_backs (hlog : Contiguous 0 r.log) (blockHash : BlockHash) :
    Backs pf good src (r.onBlockCreated pf blockHash) := by
  unfold onBlockCreated
  split
  · unfold appendLocalBlock
    split
    · exact .of_error _ _
    · exact appendAsLeader_backs hlog rfl
  · exact .of_nil r
  · exact .of_nil r

theorem onTick_backs (hlog : Contiguous 0 r.log) (now : Instant) (knownPeers : List PeerId) :
    Backs pf good src (r.onTick pf now knownPeers) := by
  unfold onTick
  simp only
  have hlog' : Contiguous 0 (r.updateParticipants knownPeers).log := hlog
  generalize r.updateParticipants knownPeers = r' at hlog'
  split
  · split
    · exact .of_ok (appendEntriesEffectsForFollowers_backed (by exact hlog'))
    · exact .of_nil _
  · split
    · have helect := startElectionAt_sameLog r' now
      split
      · exact .of_single ⟨trivial, trivial⟩
      · rename_i r'' heq
        rw [heq] at helect
        split
        · exact .of_error _ _
        · rename_i effects hnoop
          have hlog'' : Contiguous 0 r''.log := by
            rw [helect.log]
            exact hlog'
          apply Backs.of_ok
          intro effect hmem
          rcases List.mem_cons.mp hmem with rfl | hmem
          · exact ⟨trivial, trivial⟩
          · exact appendAsLeader_backs hlog'' rfl effects (congrArg Prod.snd hnoop) effect hmem
    · exact .of_nil _

theorem onRequestVoteResponse_backs (hlog : Contiguous 0 r.log) (term : Nat) (voterId : PeerId)
    (voteGranted : Bool) :
    Backs pf good src (r.onRequestVoteResponse pf term voterId voteGranted) := by
  unfold onRequestVoteResponse
  split
  · have hvote := receiveVote_sameLog r term voterId voteGranted
    split
    · rename_i r' heq
      rw [heq] at hvote
      refine appendAsLeader_backs ?_ rfl
      rw [hvote.log]
      exact hlog
    · exact .of_nil _
  · exact .of_nil _

theorem onAppendEntriesResponse_backs (hlog : Contiguous 0 r.log) (term : Nat) (peerId : PeerId)
    (success : Bool) (matchIndex : Nat) :
    Backs pf good src (r.onAppendEntriesResponse pf term peerId success matchIndex) := by
  unfold onAppendEntriesResponse handleLeaderAppendEntriesResponse
  split
  · split
    · exact .of_nil _
    split
    · exact .of_nil _
    split
    · simp only
      split
      · exact persistThen_backs (commitEffects_backed _ _)
      · exact .of_ok (commitEffects_backed _ _)
    · simp only
      split
      · exact .of_nil _
      · apply Backs.of_ok
        intro effect hmem
        exact appendEntriesEffectFor_backed (by exact hlog) (Option.mem_toList.mp hmem)
  · exact .of_nil _

/-- A follower answers a request, and asks for nothing else to be sent. -/
theorem handleAppendEntries_backs (request : AppendEntriesRequest) (draw : Nat) :
    Backs pf good src (r.handleAppendEntries pf request draw) := by
  intro queue hok effect hmem
  have hanswers := r.handleAppendEntries_answers pf request draw
  cases haccepted : r.acceptance pf request draw with
  | none =>
      rw [haccepted] at hanswers
      rcases hanswers with ⟨e, herror⟩ | ⟨term, matchIndex, heq⟩
      · rw [herror] at hok
        cases hok
      · rw [heq] at hok
        cases hok
        rw [List.mem_singleton.mp hmem]
        exact ⟨trivial, trivial⟩
  | some a =>
      rw [haccepted] at hanswers
      obtain ⟨⟨term, matchIndex, heq⟩, -⟩ := hanswers
      rw [heq] at hok
      cases hok
      rcases List.mem_append.mp hmem with hmem | hmem
      · rw [Accepted.effects] at hmem
        rcases List.mem_append.mp hmem with hmem | hmem
        · rcases List.mem_append.mp hmem with hmem | hmem
          · obtain ⟨hash, -, rfl⟩ := List.mem_map.mp hmem
            trivial
          · split at hmem
            · cases hmem
            · rw [List.mem_singleton.mp hmem]
              trivial
        · obtain ⟨hash, -, rfl⟩ := List.mem_map.mp hmem
          trivial
      · rw [List.mem_singleton.mp hmem]
        exact ⟨trivial, trivial⟩

/-- A peer that does not lead passes a verified transaction on as it is. -/
theorem onClientTransaction_backed {clientTx : SignedTransaction}
    (hverify : clientTx.verify pf = .ok ()) (hgood : good clientTx) :
    Backs pf good src (r, r.onClientTransaction clientTx) := by
  unfold onClientTransaction
  split
  · split
    · exact .of_error _ _
    · exact .of_single hgood
  all_goals
    unfold forwardClientTransaction
    split
    · exact .of_error _ _
    · exact .of_single ⟨hverify, fun _ => hgood⟩

theorem onMessage_backs (hlog : Contiguous 0 r.log) (peerId : PeerId) (body : MessageBody)
    (now : Instant) (draw : Nat) : Backs pf good src (r.onMessage pf peerId body now draw) := by
  cases body with
  | raftRequestVote term candidateId lastLogIndex lastLogTerm =>
      exact .of_single ⟨trivial, trivial⟩
  | raftRequestVoteResponse term voteGranted =>
      exact onRequestVoteResponse_backs hlog term peerId voteGranted
  | raftAppendEntries term leaderId prevLogIndex prevLogTerm entries leaderCommit =>
      exact handleAppendEntries_backs _ draw
  | raftAppendEntriesResponse term success matchIndex =>
      exact onAppendEntriesResponse_backs hlog term peerId success matchIndex
  | _ => exact .of_error _ _

-- ----------------------------------------------------------------------------
-- Blocks that wait to be staged
-- ----------------------------------------------------------------------------

/-- The log is contiguous, and the blocks that wait to be staged hold good transactions
    only. -/
structure Vouches (good : SignedTransaction → Prop) (r : RaftConsensus) : Prop where
  log : Contiguous 0 r.log
  pending : ∀ h b, r.pendingBlocks.lookup h = some b → ∀ tx ∈ b.transactions, good tx

/-- The blocks of a validated request are those its payloads stand for. -/
theorem validateReplicatedEntries_bears {replicated : List RaftReplicatedBlock}
    {entries : List RaftLogEntry} {blocks : HashMap BlockHash BlockFile}
    (hvalid : validateReplicatedEntries pf replicated = .ok (entries, blocks))
    (hbears : ∀ other ∈ replicated, other.entry.isNoop = false →
      ∀ block, BlockFile.verifyBlockVec pf other.entry.blockHash other.blockFile other.signature
        other.publicKey = .ok block → ∀ tx ∈ block.transactions, good tx) :
    ∀ h b, blocks.lookup h = some b → ∀ tx ∈ b.transactions, good tx := by
  induction replicated generalizing entries blocks with
  | nil =>
      cases hvalid
      intro h b hlookup
      cases hlookup
  | cons first rest ih =>
      obtain ⟨entries', blocks', hrest, rfl, hfirst⟩ := validateReplicatedEntries_cons hvalid
      have hblocks := ih hrest fun other hmem => hbears other (List.mem_cons_of_mem first hmem)
      rcases hfirst with ⟨-, rfl⟩ | ⟨hnoop, block, hverify, rfl⟩
      · exact hblocks
      · split
        · exact hblocks
        · exact HashMap.forall_insert hblocks (hbears first List.mem_cons_self hnoop block hverify)

/-- What waits to be staged waited before or comes with the request. -/
theorem keepPendingBlocks_forall {P : BlockFile → Prop}
    {pendingBlocks blocks : HashMap BlockHash BlockFile} (entries : List RaftLogEntry)
    (hpending : ∀ h b, pendingBlocks.lookup h = some b → P b)
    (hblocks : ∀ h b, blocks.lookup h = some b → P b) :
    ∀ h b, (keepPendingBlocks pendingBlocks blocks entries).lookup h = some b → P b := by
  induction entries generalizing pendingBlocks blocks with
  | nil => exact hpending
  | cons entry entries ih =>
      rw [keepPendingBlocks]
      split
      · rename_i block hlookup
        split
        · exact ih hpending hblocks
        · exact ih (HashMap.forall_insert hpending (hblocks _ block hlookup))
            (HashMap.forall_erase hblocks _)
      · exact ih hpending hblocks

theorem newWithStorage_pendingBlocks {peerId : PeerId} {raftLogStore : AnyRaftLogStore}
    {commitIndex : Nat} {now : Instant} {draw : Nat}
    (h : newWithStorage pf peerId raftLogStore commitIndex now draw = .ok r) :
    r.pendingBlocks = ∅ := by
  unfold newWithStorage at h
  split at h
  · cases h
  · cases h
    rfl

theorem appendEntries_pendingBlocks (r : RaftConsensus) (prevLogIndex prevLogTerm : Nat)
    (entries : List RaftLogEntry) (leaderCommit : Nat) :
    (r.appendEntries prevLogIndex prevLogTerm entries leaderCommit).1.pendingBlocks =
      r.pendingBlocks := by
  unfold appendEntries
  split
  · rfl
  split
  · rfl
  dsimp only
  split <;> rfl

theorem persistThen_pendingBlocks (pf : Platform) (r : RaftConsensus)
    (queue : List ConsensusEffect) : (r.persistThen pf queue).1.pendingBlocks = r.pendingBlocks := by
  rw [persistThen_fst]

theorem becomeLeaderIfMajority_pendingBlocks (r : RaftConsensus) :
    r.becomeLeaderIfMajority.1.pendingBlocks = r.pendingBlocks := by
  unfold becomeLeaderIfMajority
  split <;> rfl

theorem stepDownOnNewerTerm_pendingBlocks (r : RaftConsensus) (term : Nat) :
    (r.stepDownOnNewerTerm term).pendingBlocks = r.pendingBlocks := by
  unfold stepDownOnNewerTerm
  split <;> rfl

/-- A request that is accepted leaves its blocks to be staged, and no others. -/
theorem handleAppendEntries_pending (hpending : ∀ h b, r.pendingBlocks.lookup h = some b →
      ∀ tx ∈ b.transactions, good tx) (request : AppendEntriesRequest) (draw : Nat)
    (hbears : ∀ other ∈ request.entries, other.entry.isNoop = false →
      ∀ block, BlockFile.verifyBlockVec pf other.entry.blockHash other.blockFile other.signature
        other.publicKey = .ok block → ∀ tx ∈ block.transactions, good tx) :
    ∀ h b, (r.handleAppendEntries pf request draw).1.pendingBlocks.lookup h = some b →
      ∀ tx ∈ b.transactions, good tx := by
  obtain ⟨-, -, hreceived, -⟩ := r.receiveAppendEntriesAt_keeps request.term request.leaderId
    request.from request.now draw
  unfold handleAppendEntries
  split
  · rename_i r' heq
    rw [heq] at hreceived
    dsimp only at hreceived ⊢
    rw [hreceived]
    exact hpending
  rename_i r' heq
  rw [heq] at hreceived
  dsimp only at hreceived
  rw [← hreceived] at hpending
  split
  · exact hpending
  rename_i entries blocks hvalid
  have hblocks := validateReplicatedEntries_bears hvalid hbears
  unfold acceptEntries
  have happend := r'.appendEntries_pendingBlocks request.prevLogIndex request.prevLogTerm entries
    request.leaderCommit
  dsimp only
  split
  · rename_i r'' hnone
    rw [hnone] at happend
    dsimp only at happend ⊢
    rw [happend]
    exact hpending
  · rename_i r'' effects hsome
    rw [hsome] at happend
    dsimp only at happend
    rw [← happend] at hpending
    split
    · rw [persistThen_pendingBlocks]
      exact keepPendingBlocks_forall _ hpending hblocks
    · exact keepPendingBlocks_forall _ hpending hblocks

theorem appendAsLeader_pendingBlocks (pf : Platform) (r : RaftConsensus) (entry : RaftLogEntry) :
    (r.appendAsLeader pf entry).1.pendingBlocks = r.pendingBlocks := by
  unfold appendAsLeader
  rw [persistThen_pendingBlocks, advanceCommitIndex_fst]

theorem onTick_pendingBlocks (pf : Platform) (r : RaftConsensus) (now : Instant)
    (knownPeers : List PeerId) :
    (r.onTick pf now knownPeers).1.pendingBlocks = r.pendingBlocks := by
  unfold onTick
  dsimp only
  split
  · split <;> rfl
  split
  · have helected : ((r.updateParticipants knownPeers).startElectionAt now).1.pendingBlocks =
        r.pendingBlocks := becomeLeaderIfMajority_pendingBlocks _
    split
    · rename_i r' heq
      rw [heq] at helected
      exact helected
    · rename_i r' heq
      rw [heq] at helected
      have hnoop : (r'.appendLeaderNoop pf).1.pendingBlocks = r'.pendingBlocks :=
        appendAsLeader_pendingBlocks pf r' _
      split
      · rename_i heq'
        rw [heq'] at hnoop
        exact hnoop.trans helected
      · rename_i heq'
        rw [heq'] at hnoop
        exact hnoop.trans helected
  · rfl

theorem onRequestVoteResponse_pendingBlocks (pf : Platform) (r : RaftConsensus) (term : Nat)
    (voterId : PeerId) (voteGranted : Bool) :
    (r.onRequestVoteResponse pf term voterId voteGranted).1.pendingBlocks = r.pendingBlocks := by
  unfold onRequestVoteResponse
  split
  · have hvoted : (r.receiveVote term voterId voteGranted).1.pendingBlocks = r.pendingBlocks := by
      unfold receiveVote
      split
      · rfl
      split
      · rfl
      split
      · exact becomeLeaderIfMajority_pendingBlocks _
      · rfl
    split
    · rename_i r' heq
      rw [heq] at hvoted
      exact (appendAsLeader_pendingBlocks pf r' _).trans hvoted
    · rename_i r' heq
      rw [heq] at hvoted
      exact hvoted
  · exact r.stepDownOnNewerTerm_pendingBlocks term

theorem onAppendEntriesResponse_pendingBlocks (pf : Platform) (r : RaftConsensus) (term : Nat)
    (peerId : PeerId) (success : Bool) (matchIndex : Nat) :
    (r.onAppendEntriesResponse pf term peerId success matchIndex).1.pendingBlocks =
      r.pendingBlocks := by
  unfold onAppendEntriesResponse handleLeaderAppendEntriesResponse
  split
  · split
    · rfl
    split
    · rfl
    split
    · dsimp only
      split
      · rw [persistThen_pendingBlocks, advanceCommitIndex_fst]
      · rw [advanceCommitIndex_fst]
    · dsimp only
      split <;> rfl
  · exact r.stepDownOnNewerTerm_pendingBlocks term

end RaftConsensus

/-- The transactions that come with the event are good. -/
def RaftEvent.Bears (pf : Platform) (good : SignedTransaction → Prop) : RaftEvent → Prop
  | .receive _ body _ _ => body.Bears pf good
  | _ => True

namespace RaftConsensus

variable {pf : Platform} {good : SignedTransaction → Prop} {r : RaftConsensus}

/-- Only an accepted request adds to what waits to be staged. -/
theorem handle_pending (hpending : ∀ h b, r.pendingBlocks.lookup h = some b →
      ∀ tx ∈ b.transactions, good tx) {event : RaftEvent} (hbears : event.Bears pf good) :
    ∀ h b, (r.handle pf event).1.pendingBlocks.lookup h = some b →
      ∀ tx ∈ b.transactions, good tx := by
  have hsame : ∀ {r' : RaftConsensus}, r'.pendingBlocks = r.pendingBlocks →
      ∀ h b, r'.pendingBlocks.lookup h = some b → ∀ tx ∈ b.transactions, good tx := by
    intro r' heq
    rw [heq]
    exact hpending
  cases event with
  | tick now knownPeers => exact hsame (r.onTick_pendingBlocks pf now knownPeers)
  | clientTransaction clientTx => exact hpending
  | blockCreated blockHash =>
      apply hsame
      show (r.onBlockCreated pf blockHash).1.pendingBlocks = r.pendingBlocks
      unfold onBlockCreated
      split
      · unfold appendLocalBlock
        split
        · rfl
        · exact r.appendAsLeader_pendingBlocks pf _
      · rfl
      · rfl
  | takePendingBlock blockHash => exact HashMap.forall_erase hpending blockHash
  | receive src body now draw =>
      cases body with
      | raftRequestVote term candidateId lastLogIndex lastLogTerm =>
          apply hsame
          show (r.requestVote term candidateId lastLogIndex lastLogTerm).1.pendingBlocks = _
          unfold requestVote
          split
          · rfl
          dsimp only
          split
          · exact r.stepDownOnNewerTerm_pendingBlocks term
          split <;> exact r.stepDownOnNewerTerm_pendingBlocks term
      | raftRequestVoteResponse term voteGranted =>
          exact hsame (r.onRequestVoteResponse_pendingBlocks pf term src voteGranted)
      | raftAppendEntries term leaderId prevLogIndex prevLogTerm entries leaderCommit =>
          exact handleAppendEntries_pending hpending _ draw hbears
      | raftAppendEntriesResponse term success matchIndex =>
          exact hsame (r.onAppendEntriesResponse_pendingBlocks pf term src success matchIndex)
      | _ => exact hpending

theorem Vouches.handle (h : r.Vouches good) {event : RaftEvent} (hbears : event.Bears pf good) :
    (r.handle pf event).1.Vouches good :=
  ⟨((handle_recorded pf h.log event).advance h.log).contiguous, handle_pending h.pending hbears⟩

end RaftConsensus

-- ============================================================================
-- Both engines
-- ============================================================================

/-- A voting engine keeps neither a log nor blocks. -/
def ConsensusEngine.Vouches (good : SignedTransaction → Prop) : ConsensusEngine → Prop
  | .voting .. => True
  | .raft r => r.Vouches good

/-- What a handler of an engine answers with: the engine still vouches, and what it asks
    for is backed. -/
structure SoundAnswer (pf : Platform) (good : SignedTransaction → Prop) (src : PeerId)
    (answer : ConsensusEngine × Except String (List ConsensusEffect)) : Prop where
  consensus : answer.1.Vouches good
  backs : Backs pf good src answer

theorem Voting.handleVotingVote_backed (pf : Platform) (good : SignedTransaction → Prop)
    (src peerId : PeerId) (votings : Votings) (knownPeers : List PeerId) (blockHash : BlockHash)
    (voter : PeerId) (approve : Bool) :
    ∀ effect ∈ (handleVotingVote peerId votings knownPeers blockHash voter approve).2,
      effect.Backed pf good src := by
  intro effect hmem
  rw [handleVotingVote_effects] at hmem
  generalize (ballot peerId votings knownPeers blockHash).voteOutcome voter approve = outcome
    at hmem
  cases outcome with
  | pending => cases hmem
  | approved =>
      rcases List.mem_pair.mp hmem with rfl | rfl
      · trivial
      · exact ⟨trivial, trivial⟩
  | rejected =>
      rcases List.mem_pair.mp hmem with rfl | rfl
      · trivial
      · exact ⟨trivial, trivial⟩

namespace ConsensusEngine

variable {pf : Platform} {good : SignedTransaction → Prop} {src : PeerId}
  {engine : ConsensusEngine}

/-- What a Raft handler answers with. -/
theorem soundAnswer_ofRaft {r : RaftConsensus} (hvouches : r.Vouches good) (event : RaftEvent)
    (hbears : event.Bears pf good) (h : Backs pf good src (r.handle pf event)) :
    SoundAnswer pf good src (ofRaft (r.handle pf event)) :=
  ⟨hvouches.handle hbears, h⟩

theorem onClientTransaction_sound (h : engine.Vouches good) {clientTx : SignedTransaction}
    (hverify : clientTx.verify pf = .ok ()) (hgood : good clientTx) :
    SoundAnswer pf good src (engine, engine.onClientTransaction clientTx) := by
  refine ⟨h, ?_⟩
  cases engine with
  | voting peerId votings =>
      apply Backs.of_ok
      intro effect hmem
      rcases List.mem_pair.mp hmem with rfl | rfl
      · exact hgood
      · exact ⟨hverify, hgood⟩
  | raft r => exact RaftConsensus.onClientTransaction_backed hverify hgood

theorem onBlockCreated_sound (h : engine.Vouches good) (blockHash : BlockHash) :
    SoundAnswer pf good src (engine.onBlockCreated pf blockHash) := by
  cases engine with
  | voting peerId votings => exact ⟨trivial, .of_single trivial⟩
  | raft r =>
      exact soundAnswer_ofRaft h (.blockCreated blockHash) trivial
        (RaftConsensus.onBlockCreated_backs h.log blockHash)

theorem onLocalBlockProposed_sound (h : engine.Vouches good) (blockHash : BlockHash)
    (knownPeers : List PeerId) :
    SoundAnswer pf good src (engine.onLocalBlockProposed blockHash knownPeers) := by
  cases engine with
  | voting peerId votings =>
      exact ⟨trivial, .of_ok (Voting.handleVotingVote_backed pf good src _ _ _ _ _ _)⟩
  | raft r => exact ⟨h, .of_nil _⟩

theorem onBlockProposalValidated_sound (h : engine.Vouches good) (blockHash : BlockHash)
    (proposer : PeerId) (valid : Bool) (knownPeers : List PeerId) :
    SoundAnswer pf good src
      (engine.onBlockProposalValidated blockHash proposer valid knownPeers) := by
  cases engine with
  | voting peerId votings =>
      refine ⟨trivial, .of_ok ?_⟩
      rw [Voting.onBlockProposalValidated_eq]
      split <;> exact Voting.handleVotingVote_backed pf good src _ _ _ _ _ _
  | raft r => exact ⟨h, .of_nil _⟩

theorem onBlockVote_sound (h : engine.Vouches good) (blockHash : BlockHash) (voter : PeerId)
    (approve : Bool) (knownPeers : List PeerId) :
    SoundAnswer pf good src (engine.onBlockVote blockHash voter approve knownPeers) := by
  cases engine with
  | voting peerId votings =>
      exact ⟨trivial, .of_ok (Voting.handleVotingVote_backed pf good src _ _ _ _ _ _)⟩
  | raft r => exact ⟨h, .of_nil _⟩

theorem onTick_sound (h : engine.Vouches good) (now : Instant) (knownPeers : List PeerId) :
    SoundAnswer pf good src (engine.onTick pf now knownPeers) := by
  cases engine with
  | voting peerId votings => exact ⟨trivial, .of_nil _⟩
  | raft r =>
      exact soundAnswer_ofRaft h (.tick now knownPeers) trivial
        (RaftConsensus.onTick_backs h.log now knownPeers)

theorem onMessage_sound (h : engine.Vouches good) (peerId : PeerId) {body : MessageBody}
    (hbears : body.Bears pf good) (now : Instant) (draw : Nat) :
    SoundAnswer pf good src (engine.onMessage pf peerId body now draw) := by
  cases engine with
  | voting self votings =>
      unfold onMessage
      cases body <;> first
        | exact ⟨trivial, .of_nil _⟩
        | exact ⟨trivial, .of_error _ _⟩
  | raft r =>
      exact soundAnswer_ofRaft h (.receive peerId body now draw) hbears
        (RaftConsensus.onMessage_backs h.log peerId body now draw)

end ConsensusEngine

end Rustchain
