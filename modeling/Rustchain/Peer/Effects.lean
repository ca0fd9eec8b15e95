/-
  Rustchain.Peer.Effects

  The services of a peer and how it executes what consensus asks for
  (`peer/effects.rs`): its ledger, its block store and its network.

  The network is the interface the peer calls (`NetworkInterface`): the peers it
  reports as known, and the calls made to it so far, in order.  What becomes of
  a call is up to the network behind the interface.
-/

import Rustchain.Consensus.Engine
import Rustchain.Ledger.Processor
import Rustchain.Storage.BlockKeeper

namespace Rustchain

-- ============================================================================
-- The network interface
-- ============================================================================

inductive NetworkCall where
  /-- `send_peer_message`. -/
  | send (message : Message)
  /-- `broadcast_peer_message`. -/
  | broadcast (body : MessageBody) («from» : PeerId)
deriving DecidableEq, Repr

/-- The body of the message a call sends. -/
def NetworkCall.body : NetworkCall → MessageBody
  | .send message => message.body
  | .broadcast body _ => body

structure Network where
  knownPeers : List PeerId
  calls : List NetworkCall

namespace Network

def sendPeerMessage (network : Network) (message : Message) : Network :=
  { network with calls := network.calls ++ [.send message] }

def broadcastPeerMessage (network : Network) (body : MessageBody) (src : PeerId) : Network :=
  { network with calls := network.calls ++ [.broadcast body src] }

end Network

-- ============================================================================
-- State
-- ============================================================================

structure PeerEffects where
  peerId : PeerId
  transactionProcessor : TransactionProcessor
  blockKeeper : BlockKeeper
  signingKey : SigningKey
  publicKey : VerifyingKey
  network : Network
  lastCompletedBlock : BlockHash
  /-- Every transaction handed to `process_transaction` so far.  No function reads
      this field; it is there for the statements about runs. -/
  processed : List SignedTransaction

namespace PeerEffects

def new (pf : Platform) (peerId : PeerId) (network : Network) (blockKeeper : BlockKeeper)
    (signingKey : SigningKey) : PeerEffects :=
  { peerId
    transactionProcessor := .default
    blockKeeper
    signingKey
    publicKey := pf.verifyingKey signingKey
    network
    lastCompletedBlock := emptyHash
    processed := [] }

def knownPeers (effects : PeerEffects) : List PeerId := effects.network.knownPeers

-- ============================================================================
-- Blocks from outside
-- ============================================================================

/-- `apply_block_transactions`: a transaction that fails is only logged. -/
def applyBlockTransactions (effects : PeerEffects) (block : BlockFile) : PeerEffects :=
  { effects with
    transactionProcessor := block.transactions.foldl
      (fun tp tx => (tp.processTransaction tx).1) effects.transactionProcessor
    processed := effects.processed ++ block.transactions }

/-- `stage_external_block`: whether the block was staged. -/
def stageExternalBlock (pf : Platform) (effects : PeerEffects) (block : BlockFile) :
    PeerEffects × Except String Bool :=
  if !effects.blockKeeper.blockCanBeAdded block then (effects, .ok false)
  else
    let effects := effects.applyBlockTransactions block
    match effects.blockKeeper.addExternalBlock pf block with
    | (blockKeeper, .ok ()) => ({ effects with blockKeeper }, .ok true)
    | (blockKeeper, .error e) => ({ effects with blockKeeper }, .error e.display)

/-- `apply_synchronized_block`. -/
def applySynchronizedBlock (pf : Platform) (effects : PeerEffects) (block : BlockFile) :
    PeerEffects × Except String Unit :=
  if !effects.blockKeeper.blockCanBeAdded block then
    (effects,
      .error s!"Synchronized block {displayHash block.hash} does not extend the local chain")
  else
    let effects := effects.applyBlockTransactions block
    match effects.blockKeeper.addExternalBlock pf block with
    | (blockKeeper, .error e) => ({ effects with blockKeeper }, .error e.display)
    | (blockKeeper, .ok ()) =>
      match blockKeeper.commitBlock pf block.hash with
      | (blockKeeper, .error e) => ({ effects with blockKeeper }, .error e)
      | (blockKeeper, .ok ()) =>
        ({ effects with blockKeeper, lastCompletedBlock := block.hash }, .ok ())

def ensureUncommittedBlock (effects : PeerEffects) (blockHash : BlockHash) : Except String Unit :=
  match effects.blockKeeper.getUncommitedBlock blockHash with
  | some _ => .ok ()
  | none => .error s!"Block ${displayHash blockHash} is not found"

-- ============================================================================
-- The effects
-- ============================================================================

def stageClientTransaction (pf : Platform) (effects : PeerEffects) (clientTx : SignedTransaction) :
    PeerEffects × Except String BlockStatus :=
  match clientTx.verify pf with
  | .error e => (effects, .error e)
  | .ok () =>
    let processed := effects.processed ++ [clientTx]
    match effects.transactionProcessor.processTransaction clientTx with
    | (transactionProcessor, .error e) =>
      ({ effects with transactionProcessor, processed }, .error e.display)
    | (transactionProcessor, .ok ()) =>
      let (blockKeeper, status) := effects.blockKeeper.addTransaction pf clientTx
      ({ effects with transactionProcessor, blockKeeper, processed }, .ok status)

def broadcastClientTransaction (pf : Platform) (effects : PeerEffects)
    (clientTx : SignedTransaction) : PeerEffects :=
  { effects with
    network := effects.network.broadcastPeerMessage
      (.synchronization (.new pf clientTx effects.signingKey)) effects.peerId }

/-- `stage_raft_entries`: stops at the first entry whose block cannot be staged. -/
def stageRaftEntries (pf : Platform) :
    PeerEffects → ConsensusEngine → List RaftLogEntry →
      PeerEffects × ConsensusEngine × Except String Unit
  | effects, consensus, [] => (effects, consensus, .ok ())
  | effects, consensus, entry :: entries =>
    if entry.isNoop then stageRaftEntries pf effects consensus entries
    else
      let (consensus, pendingBlock) := consensus.takePendingRaftBlock entry.blockHash
      if (effects.blockKeeper.getUncommitedBlock entry.blockHash).isSome then
        stageRaftEntries pf effects consensus entries
      else
        match pendingBlock with
        | none =>
          (effects, consensus,
            .error s!"Validated Raft block {displayHash entry.blockHash} for log index {entry.index} is not found")
        | some block =>
          if !effects.blockKeeper.blockCanBeAdded block then
            (effects, consensus,
              .error s!"Raft block {displayHash entry.blockHash} at log index {entry.index} failed the chain-linkage check")
          else
            let effects := effects.applyBlockTransactions block
            match effects.blockKeeper.addExternalBlock pf block with
            | (blockKeeper, .error e) =>
              ({ effects with blockKeeper }, consensus, .error e.display)
            | (blockKeeper, .ok ()) =>
              stageRaftEntries pf { effects with blockKeeper } consensus entries

/-- `broadcast_block_proposal`: a peer that knows no other commits at once. -/
def broadcastBlockProposal (pf : Platform) (effects : PeerEffects) (blockHash : BlockHash) :
    PeerEffects × Except String (Option (List PeerId)) :=
  if effects.knownPeers.isEmpty then
    match effects.blockKeeper.commitBlock pf blockHash with
    | (blockKeeper, .error e) => ({ effects with blockKeeper }, .error e)
    | (blockKeeper, .ok ()) => ({ effects with blockKeeper }, .ok none)
  else
    match effects.blockKeeper.getUncommitedBlock blockHash with
    | none => (effects, .ok (some effects.knownPeers))
    | some block =>
      let blockAsBytes := pf.encodeBlock block
      ({ effects with
          network := effects.network.broadcastPeerMessage
            (.blockProposal blockHash blockAsBytes (pf.sign effects.signingKey blockAsBytes)
              effects.publicKey) effects.peerId }, .ok (some effects.knownPeers))

/-- A log entry with its signed block, from memory or from disk. -/
def replicatedEntry (pf : Platform) (effects : PeerEffects) (entry : RaftLogEntry) :
    Except String RaftReplicatedBlock :=
  let withPayload (blockFile : Bytes) : RaftReplicatedBlock :=
    { entry
      blockFile
      signature := pf.sign effects.signingKey blockFile
      publicKey := effects.publicKey }
  if entry.isNoop then .ok (withPayload [])
  else
    match effects.blockKeeper.getUncommitedBlock entry.blockHash with
    | some block => .ok (withPayload (pf.encodeBlock block))
    | none =>
      match effects.blockKeeper.readBlockByHash pf entry.blockHash with
      | .ok block => .ok (withPayload (pf.encodeBlock block))
      | .error e => .error e

def replicatedEntries (pf : Platform) (effects : PeerEffects) :
    List RaftLogEntry → Except String (List RaftReplicatedBlock)
  | [] => .ok []
  | entry :: entries =>
    match effects.replicatedEntry pf entry with
    | .error e => .error e
    | .ok replicated =>
      match replicatedEntries pf effects entries with
      | .error e => .error e
      | .ok rest => .ok (replicated :: rest)

def sendRaftAppendEntries (pf : Platform) (effects : PeerEffects) (dst : PeerId)
    (term prevLogIndex prevLogTerm : Nat) (entries : List RaftLogEntry) (leaderCommit : Nat) :
    PeerEffects × Except String Unit :=
  match effects.replicatedEntries pf entries with
  | .error e => (effects, .error e)
  | .ok replicated =>
    ({ effects with
        network := effects.network.sendPeerMessage
          { «from» := effects.peerId
            «to» := dst
            body := .raftAppendEntries term effects.peerId prevLogIndex prevLogTerm replicated
              leaderCommit } }, .ok ())

def commitBlock (pf : Platform) (effects : PeerEffects) (blockHash : BlockHash) :
    PeerEffects × Except String Unit :=
  match effects.blockKeeper.commitBlock pf blockHash with
  | (blockKeeper, .ok ()) =>
    ({ effects with blockKeeper, lastCompletedBlock := blockHash }, .ok ())
  | (blockKeeper, .error e) => ({ effects with blockKeeper }, .error e)

/-- A block that was never staged here is no error: rolling back is idempotent. -/
def rollbackBlock (pf : Platform) (effects : PeerEffects) (blockHash : BlockHash) :
    PeerEffects × Except String Unit :=
  match effects.blockKeeper.getUncommitedBlock blockHash with
  | none => ({ effects with lastCompletedBlock := blockHash }, .ok ())
  | some block =>
    let transactionProcessor := effects.transactionProcessor.rollbackTransactions block.transactions
    match effects.blockKeeper.rollbackBlock pf blockHash with
    | (blockKeeper, .error e) => ({ effects with transactionProcessor, blockKeeper }, .error e)
    | (blockKeeper, .ok ()) =>
      ({ effects with transactionProcessor, blockKeeper, lastCompletedBlock := blockHash }, .ok ())

/-- The state a handler leaves: services, consensus, the effects it queued and
    its result. -/
structure Executed where
  effects : PeerEffects
  consensus : ConsensusEngine
  queued : List ConsensusEffect
  result : Except String Unit

/-- The effects a consensus handler asks for are queued; its error is passed on. -/
def queueAll (effects : PeerEffects)
    (answer : ConsensusEngine × Except String (List ConsensusEffect)) : Executed :=
  match answer with
  | (consensus, .ok queued) => { effects, consensus, queued, result := .ok () }
  | (consensus, .error e) => { effects, consensus, queued := [], result := .error e }

/-- `execute_effect`, with the effects it appends to the queue. -/
def executeEffect (pf : Platform) (effects : PeerEffects) (consensus : ConsensusEngine)
    (effect : ConsensusEffect) : Executed :=
  match effect with
  | .stageClientTransaction clientTx =>
    match effects.stageClientTransaction pf clientTx with
    | (effects, .error e) => { effects, consensus, queued := [], result := .error e }
    | (effects, .ok .addedToMempool) => { effects, consensus, queued := [], result := .ok () }
    | (effects, .ok (.newBlockCreated blockHash)) =>
      effects.queueAll (consensus.onBlockCreated pf blockHash)
  | .stageRaftEntries entries =>
    let (effects, consensus, result) := effects.stageRaftEntries pf consensus entries
    { effects, consensus, queued := [], result }
  | .broadcastClientTransaction clientTx =>
    { effects := effects.broadcastClientTransaction pf clientTx
      consensus, queued := [], result := .ok () }
  | .proposeBlock blockHash =>
    match effects.broadcastBlockProposal pf blockHash with
    | (effects, .error e) => { effects, consensus, queued := [], result := .error e }
    | (effects, .ok none) => { effects, consensus, queued := [], result := .ok () }
    | (effects, .ok (some knownPeers)) =>
      effects.queueAll (consensus.onLocalBlockProposed blockHash knownPeers)
  | .sendRaftAppendEntries dst term prevLogIndex prevLogTerm entries leaderCommit =>
    let (effects, result) :=
      effects.sendRaftAppendEntries pf dst term prevLogIndex prevLogTerm entries leaderCommit
    { effects, consensus, queued := [], result }
  | .commitBlock blockHash =>
    let (effects, result) := effects.commitBlock pf blockHash
    { effects, consensus, queued := [], result }
  | .rollbackBlock blockHash =>
    let (effects, result) := effects.rollbackBlock pf blockHash
    { effects, consensus, queued := [], result }
  | .broadcast body =>
    { effects :=
        { effects with network := effects.network.broadcastPeerMessage body effects.peerId }
      consensus, queued := [], result := .ok () }
  | .send dst body =>
    { effects :=
        { effects with
          network := effects.network.sendPeerMessage
            { «from» := effects.peerId, «to» := dst, body } }
      consensus, queued := [], result := .ok () }

-- ============================================================================
-- The queue
-- ============================================================================

/-- The error texts of a result: none, or one. -/
def errorsOf : Except String Unit → List String
  | .ok () => []
  | .error e => [e]

/-- Where `execute_all` stands: services, consensus, the effects still queued and
    the errors so far. -/
structure Batch where
  effects : PeerEffects
  consensus : ConsensusEngine
  queue : List ConsensusEffect
  errors : List String

namespace Batch

/-- Executes an effect taken off the queue: what it queues goes to the end, its
    error is kept, and the batch goes on. -/
def turn (pf : Platform) (b : Batch) (effect : ConsensusEffect) : Batch :=
  let executed := b.effects.executeEffect pf b.consensus effect
  { effects := executed.effects
    consensus := executed.consensus
    queue := b.queue ++ executed.queued
    errors := b.errors ++ errorsOf executed.result }

/-- Executes everything that is queued now; what that queues is left. -/
def generation (pf : Platform) (b : Batch) : Batch :=
  b.queue.foldl (turn pf) { b with queue := [] }

end Batch

/-- `execute_all`: runs the queue dry and reports all errors together.  An effect
    queues at most two further generations (`Batch.generation_queue_nil`). -/
def executeAll (pf : Platform) (effects : PeerEffects) (consensus : ConsensusEngine)
    (queue : List ConsensusEffect) : PeerEffects × ConsensusEngine × Except String Unit :=
  let start : Batch := { effects, consensus, queue, errors := [] }
  let b := ((start.generation pf).generation pf).generation pf
  (b.effects, b.consensus,
    if b.errors.isEmpty then .ok () else .error ("; ".intercalate b.errors))

-- ============================================================================
-- The queue runs dry
-- ============================================================================

/-- How many generations an effect can still queue. -/
def generationsOf : ConsensusEffect → Nat
  | .stageClientTransaction _ => 2
  | .proposeBlock _ => 1
  | _ => 0

theorem appendEntriesEffectsForFollowers_generations {r : RaftConsensus} {effect : ConsensusEffect}
    (h : effect ∈ r.appendEntriesEffectsForFollowers) : generationsOf effect = 0 := by
  obtain ⟨q, -, heffect⟩ := RaftConsensus.mem_appendEntriesEffectsForFollowers h
  obtain ⟨prevLogIndex, prevLogTerm, -, rfl⟩ := RaftConsensus.appendEntriesEffectFor_spec heffect
  rfl

theorem commitEffects_generations {r : RaftConsensus} {low high : Nat} {effect : ConsensusEffect}
    (h : effect ∈ r.commitEffects low high) : generationsOf effect = 0 := by
  obtain ⟨blockHash, -, rfl⟩ := List.mem_map.mp h
  rfl

/-- A block a Raft leader appends queues messages and commits only. -/
theorem onBlockCreated_generations {pf : Platform} {r : RaftConsensus} {blockHash : BlockHash}
    {queued : List ConsensusEffect} (h : (r.onBlockCreated pf blockHash).2 = .ok queued)
    {effect : ConsensusEffect} (hmem : effect ∈ queued) : generationsOf effect = 0 := by
  unfold RaftConsensus.onBlockCreated at h
  split at h
  · unfold RaftConsensus.appendLocalBlock at h
    split at h
    · cases h
    · unfold RaftConsensus.appendAsLeader RaftConsensus.persistThen at h
      simp only at h
      split at h
      · cases h
        rcases List.mem_append.mp hmem with hmem | hmem
        · exact appendEntriesEffectsForFollowers_generations hmem
        · exact commitEffects_generations hmem
      · cases h
  all_goals
    cases h
    cases hmem

theorem outcomeEffects_generations {blockHash : BlockHash} {outcome : ConsensusOutcome}
    {effect : ConsensusEffect} (h : effect ∈ Voting.outcomeEffects blockHash outcome) :
    generationsOf effect = 0 := by
  cases outcome
  · cases h
  · simp only [Voting.outcomeEffects, List.mem_cons, List.not_mem_nil, or_false] at h
    rcases h with rfl | rfl <;> rfl
  · simp only [Voting.outcomeEffects, List.mem_cons, List.not_mem_nil, or_false] at h
    rcases h with rfl | rfl <;> rfl

theorem handleVotingVote_generations {peerId : PeerId} {votings : Voting.Votings}
    {knownPeers : List PeerId} {blockHash : BlockHash} {src : PeerId} {approve : Bool}
    {effect : ConsensusEffect}
    (h : effect ∈ (Voting.handleVotingVote peerId votings knownPeers blockHash src approve).2) :
    generationsOf effect = 0 := by
  unfold Voting.handleVotingVote at h
  simp only at h
  split at h
  · cases h
  · exact outcomeEffects_generations h

theorem queueAll_queued {effects : PeerEffects}
    {answer : ConsensusEngine × Except String (List ConsensusEffect)} {effect : ConsensusEffect}
    (h : effect ∈ (effects.queueAll answer).queued) :
    ∃ queued, answer.2 = .ok queued ∧ effect ∈ queued := by
  obtain ⟨consensus, result⟩ := answer
  cases result with
  | ok queued => exact ⟨queued, rfl, h⟩
  | error e => cases h

/-- What an effect queues has fewer generations left than the effect. -/
theorem executeEffect_queued {pf : Platform} {effects : PeerEffects} {consensus : ConsensusEngine}
    {effect queued : ConsensusEffect}
    (h : queued ∈ (effects.executeEffect pf consensus effect).queued) :
    generationsOf queued < generationsOf effect := by
  cases effect with
  | stageClientTransaction clientTx =>
      simp only [executeEffect] at h
      split at h
      · cases h
      · cases h
      · obtain ⟨answer, hanswer, hmem⟩ := queueAll_queued h
        cases consensus with
        | voting peerId votings =>
            cases hanswer
            rw [List.mem_singleton.mp hmem]
            exact Nat.one_lt_two
        | raft r =>
            rw [onBlockCreated_generations hanswer hmem]
            exact Nat.zero_lt_two
  | proposeBlock blockHash =>
      simp only [executeEffect] at h
      split at h
      · cases h
      · cases h
      · obtain ⟨answer, hanswer, hmem⟩ := queueAll_queued h
        cases consensus with
        | voting peerId votings =>
            cases hanswer
            rw [handleVotingVote_generations hmem]
            exact Nat.zero_lt_one
        | raft r =>
            cases hanswer
            cases hmem
  | _ => cases h

/-- Staging a transaction in voting mode: a block it completes is to be proposed. -/
theorem executeEffect_stageClientTransaction (pf : Platform) (effects : PeerEffects)
    (peerId : PeerId) (votings : Voting.Votings) (clientTx : SignedTransaction) :
    let executed := effects.executeEffect pf (.voting peerId votings)
      (.stageClientTransaction clientTx)
    executed.effects = (effects.stageClientTransaction pf clientTx).1 ∧
      executed.consensus = .voting peerId votings ∧
      (executed.queued = [] ∨
        ∃ created, (effects.stageClientTransaction pf clientTx).2 = .ok (.newBlockCreated created) ∧
          executed.queued = [.proposeBlock created]) := by
  simp only [executeEffect]
  rcases effects.stageClientTransaction pf clientTx with ⟨staged, error | _ | created⟩
  · exact ⟨rfl, rfl, Or.inl rfl⟩
  · exact ⟨rfl, rfl, Or.inl rfl⟩
  · exact ⟨rfl, rfl, Or.inr ⟨created, rfl, rfl⟩⟩

/-- Proposing a block in voting mode: once the proposal is out, the peer votes for it. -/
theorem executeEffect_proposeBlock (pf : Platform) (effects : PeerEffects) (peerId : PeerId)
    (votings : Voting.Votings) (blockHash : BlockHash) :
    let executed := effects.executeEffect pf (.voting peerId votings) (.proposeBlock blockHash)
    executed.effects = (effects.broadcastBlockProposal pf blockHash).1 ∧
      ((executed.consensus = .voting peerId votings ∧ executed.queued = []) ∨
        ∃ knownPeers, (effects.broadcastBlockProposal pf blockHash).2 = .ok (some knownPeers) ∧
          executed.consensus = .voting peerId
            (Voting.handleVotingVote peerId votings knownPeers blockHash peerId true).1 ∧
          executed.queued =
            (Voting.handleVotingVote peerId votings knownPeers blockHash peerId true).2) := by
  simp only [executeEffect]
  rcases effects.broadcastBlockProposal pf blockHash with ⟨proposed, error | _ | knownPeers⟩
  · exact ⟨rfl, Or.inl ⟨rfl, rfl⟩⟩
  · exact ⟨rfl, Or.inl ⟨rfl, rfl⟩⟩
  · exact ⟨rfl, Or.inr ⟨knownPeers, rfl, rfl, rfl⟩⟩

namespace Batch

/-- With nothing queued a generation changes nothing. -/
theorem generation_nil (pf : Platform) {b : Batch} (h : b.queue = []) : b.generation pf = b := by
  obtain ⟨effects, consensus, queue, errors⟩ := b
  obtain rfl : queue = [] := h
  rfl

/-- A generation turns effects with at most `k + 1` generations left into effects
    with at most `k`. -/
theorem generation_queue (pf : Platform) {b : Batch} {k : Nat}
    (h : ∀ effect ∈ b.queue, generationsOf effect ≤ k) :
    ∀ effect ∈ (b.generation pf).queue, generationsOf effect < k := by
  have hfold : ∀ (queue : List ConsensusEffect) (c : Batch),
      (∀ effect ∈ queue, generationsOf effect ≤ k) →
      (∀ effect ∈ c.queue, generationsOf effect < k) →
      ∀ effect ∈ (queue.foldl (turn pf) c).queue, generationsOf effect < k := by
    intro queue
    induction queue with
    | nil => exact fun c _ hc => hc
    | cons first queue ih =>
        intro c hqueue hc
        apply ih
        · exact fun effect hmem => hqueue effect (List.mem_cons_of_mem first hmem)
        · intro effect hmem
          rcases List.mem_append.mp hmem with hmem | hmem
          · exact hc effect hmem
          · exact lt_of_lt_of_le (executeEffect_queued hmem) (hqueue first List.mem_cons_self)
  apply hfold b.queue { b with queue := [] } h
  exact fun effect hmem => absurd hmem List.not_mem_nil

theorem generationsOf_le (effect : ConsensusEffect) : generationsOf effect ≤ 2 := by
  cases effect <;> simp [generationsOf]

/-- Three generations empty the queue. -/
theorem generation_queue_nil (pf : Platform) (b : Batch) :
    (((b.generation pf).generation pf).generation pf).queue = [] := by
  have h1 := generation_queue pf (b := b) fun effect _ => generationsOf_le effect
  have h2 := generation_queue pf fun effect hmem => Nat.le_of_lt_succ (h1 effect hmem)
  have h3 := generation_queue pf fun effect hmem => Nat.le_of_lt_succ (h2 effect hmem)
  apply List.eq_nil_iff_forall_not_mem.mpr
  exact fun effect hmem => Nat.not_lt_zero _ (h3 effect hmem)

/-- The loop of `execute_all`: as long as the queue is not empty, its first effect
    is taken off and executed. -/
inductive Loop (pf : Platform) : Batch → Batch → Prop where
  | done {b : Batch} (h : b.queue = []) : Loop pf b b
  | turn {b b' : Batch} {effect : ConsensusEffect} {rest : List ConsensusEffect}
      (h : b.queue = effect :: rest) (next : Loop pf ({ b with queue := rest }.turn pf effect) b') :
      Loop pf b b'

/-- Executing a first part of the queue is a part of the loop. -/
theorem Loop.of_foldl {pf : Platform} {b' : Batch} (first : List ConsensusEffect) :
    ∀ (b : Batch) (rest : List ConsensusEffect),
      Loop pf (first.foldl (Batch.turn pf) { b with queue := rest }) b' →
      Loop pf { b with queue := first ++ rest } b' := by
  induction first with
  | nil => exact fun _ _ h => h
  | cons effect first ih =>
      intro b rest h
      refine .turn (show effect :: first ++ rest = effect :: (first ++ rest) from rfl) ?_
      have hnext := ih (({ b with queue := rest } : Batch).turn pf effect)
        (rest ++ (b.effects.executeEffect pf b.consensus effect).queued) h
      simpa only [Batch.turn, List.append_assoc] using hnext

theorem Loop.of_generation {pf : Platform} {b b' : Batch} (h : Loop pf (b.generation pf) b') :
    Loop pf b b' := by
  have hloop := Loop.of_foldl b.queue b [] h
  rwa [List.append_nil] at hloop

end Batch

/-- `execute_all` leaves what its loop leaves when the queue is empty. -/
theorem executeAll_loop (pf : Platform) (effects : PeerEffects) (consensus : ConsensusEngine)
    (queue : List ConsensusEffect) :
    ∃ b : Batch, Batch.Loop pf { effects, consensus, queue, errors := [] } b ∧
      effects.executeAll pf consensus queue =
        (b.effects, b.consensus,
          if b.errors.isEmpty then .ok () else .error ("; ".intercalate b.errors)) := by
  refine ⟨_, ?_, rfl⟩
  apply Batch.Loop.of_generation
  apply Batch.Loop.of_generation
  apply Batch.Loop.of_generation
  exact .done (Batch.generation_queue_nil pf _)

/-- A queue of effects that queue nothing is executed in one pass. -/
theorem executeAll_flat (pf : Platform) (effects : PeerEffects) (consensus : ConsensusEngine)
    {queue : List ConsensusEffect} (h : ∀ effect ∈ queue, generationsOf effect = 0) :
    ∃ b : Batch,
      queue.foldl (Batch.turn pf) { effects, consensus, queue := [], errors := [] } = b ∧
      effects.executeAll pf consensus queue =
        (b.effects, b.consensus,
          if b.errors.isEmpty then .ok () else .error ("; ".intercalate b.errors)) := by
  let start : Batch := { effects, consensus, queue, errors := [] }
  have hempty : (start.generation pf).queue = [] := by
    apply List.eq_nil_iff_forall_not_mem.mpr
    intro effect hmem
    exact Nat.not_lt_zero _ (Batch.generation_queue pf (fun e he => (h e he).le) effect hmem)
  refine ⟨start.generation pf, rfl, ?_⟩
  show (let b := ((start.generation pf).generation pf).generation pf
    (b.effects, b.consensus,
      if b.errors.isEmpty then Except.ok () else .error ("; ".intercalate b.errors))) = _
  rw [Batch.generation_nil pf hempty, Batch.generation_nil pf hempty]

/-- What every turn of the loop preserves holds when the queue is empty. -/
theorem Batch.Loop.preserves {pf : Platform} {I : Batch → Prop}
    (hturn : ∀ (b : Batch) (effect : ConsensusEffect) (rest : List ConsensusEffect),
      I { b with queue := effect :: rest } → I ({ b with queue := rest }.turn pf effect))
    {b b' : Batch} (hloop : Batch.Loop pf b b') (h : I b) : I b' ∧ b'.queue = [] := by
  induction hloop with
  | done hempty => exact ⟨h, hempty⟩
  | @turn b b' effect rest hqueue _ ih =>
      apply ih
      apply hturn
      rw [← hqueue]
      exact h

/-- The invariant rule for `execute_all`. -/
theorem executeAll_preserves {pf : Platform} {I : Batch → Prop}
    (hturn : ∀ (b : Batch) (effect : ConsensusEffect) (rest : List ConsensusEffect),
      I { b with queue := effect :: rest } → I ({ b with queue := rest }.turn pf effect))
    {effects : PeerEffects} {consensus : ConsensusEngine} {queue : List ConsensusEffect}
    (h : I { effects, consensus, queue, errors := [] }) :
    ∃ b : Batch, I b ∧ b.queue = [] ∧
      effects.executeAll pf consensus queue =
        (b.effects, b.consensus,
          if b.errors.isEmpty then .ok () else .error ("; ".intercalate b.errors)) := by
  obtain ⟨b, hloop, heq⟩ := executeAll_loop pf effects consensus queue
  obtain ⟨hb, hempty⟩ := hloop.preserves hturn h
  exact ⟨b, hb, hempty, heq⟩

end PeerEffects
end Rustchain
