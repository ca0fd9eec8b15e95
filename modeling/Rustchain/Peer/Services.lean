/-
  Rustchain.Peer.Services

  What an event can do to the services of a peer, in voting mode and in Raft
  mode alike: a sequence of five kinds of change (`PeerEffects.Change`).  A
  transaction enters by two of them only, from a client or in a block from
  outside.  Which of those an event makes is read off the peer before it
  (`Peer.Admits`), so that what all changes preserve is preserved by every run.
-/

import Mathlib.Logic.Relation
import Rustchain.Peer.Acknowledge

namespace Rustchain

-- ============================================================================
-- Effects that bring nothing new
-- ============================================================================

/-- The effect can bring a transaction from outside. -/
def ConsensusEffect.brings : ConsensusEffect → Bool
  | .stageClientTransaction _ | .stageRaftEntries _ => true
  | _ => false

/-- No effect of the answer brings a transaction. -/
def Routine {α : Type} (answer : α × Except String (List ConsensusEffect)) : Prop :=
  ∀ queue, answer.2 = .ok queue → ∀ effect ∈ queue, effect.brings = false

theorem Routine.of_ok {α : Type} {state : α} {queue : List ConsensusEffect}
    (h : ∀ effect ∈ queue, effect.brings = false) : Routine (state, .ok queue) := by
  intro answered heq
  cases heq
  exact h

theorem Routine.of_nil {α : Type} (state : α) : Routine (state, .ok []) :=
  .of_ok fun _ h => absurd h List.not_mem_nil

theorem Routine.of_error {α : Type} (state : α) (e : String) : Routine (state, .error e) := by
  intro queue heq
  cases heq

namespace RaftConsensus

theorem appendEntriesEffectFor_brings {r : RaftConsensus} {peerId : PeerId}
    {effect : ConsensusEffect} (h : r.appendEntriesEffectFor peerId = some effect) :
    effect.brings = false := by
  obtain ⟨prevLogIndex, prevLogTerm, -, rfl⟩ := appendEntriesEffectFor_spec h
  rfl

theorem appendEntriesEffectsForFollowers_brings {r : RaftConsensus} {effect : ConsensusEffect}
    (h : effect ∈ r.appendEntriesEffectsForFollowers) : effect.brings = false := by
  obtain ⟨q, -, heffect⟩ := mem_appendEntriesEffectsForFollowers h
  exact appendEntriesEffectFor_brings heffect

theorem commitEffects_brings {r : RaftConsensus} {low high : Nat} {effect : ConsensusEffect}
    (h : effect ∈ r.commitEffects low high) : effect.brings = false := by
  obtain ⟨blockHash, -, rfl⟩ := List.mem_map.mp h
  rfl

variable (pf : Platform) (r : RaftConsensus)

theorem persistThen_routine {queue : List ConsensusEffect}
    (h : ∀ effect ∈ queue, effect.brings = false) : Routine (r.persistThen pf queue) := by
  unfold persistThen
  split
  · exact .of_ok h
  · exact .of_error _ _

theorem appendAsLeader_routine (entry : RaftLogEntry) :
    Routine (r.appendAsLeader pf entry) := by
  apply persistThen_routine
  intro effect hmem
  rcases List.mem_append.mp hmem with hmem | hmem
  · exact appendEntriesEffectsForFollowers_brings hmem
  · exact commitEffects_brings hmem

theorem onBlockCreated_routine (blockHash : BlockHash) :
    Routine (r.onBlockCreated pf blockHash) := by
  unfold onBlockCreated
  split
  · unfold appendLocalBlock
    split
    · exact .of_error _ _
    · exact appendAsLeader_routine pf r _
  · exact .of_nil r
  · exact .of_nil r

theorem onTick_routine (now : Instant) (knownPeers : List PeerId) :
    Routine (r.onTick pf now knownPeers) := by
  unfold onTick
  simp only
  split
  · split
    · exact .of_ok fun _ h => appendEntriesEffectsForFollowers_brings h
    · exact .of_nil _
  · split
    · split
      · apply Routine.of_ok
        intro effect hmem
        rw [List.mem_singleton.mp hmem]
        rfl
      · split
        · exact .of_error _ _
        · rename_i effects hnoop
          apply Routine.of_ok
          intro effect hmem
          rcases List.mem_cons.mp hmem with rfl | hmem
          · rfl
          · exact appendAsLeader_routine pf _ _ effects (congrArg Prod.snd hnoop) effect hmem
    · exact .of_nil _

theorem onAppendEntriesResponse_routine (term : Nat) (src : PeerId) (success : Bool)
    (matchIndex : Nat) : Routine (r.onAppendEntriesResponse pf term src success matchIndex) := by
  unfold onAppendEntriesResponse handleLeaderAppendEntriesResponse
  split
  · split
    · exact .of_nil _
    split
    · exact .of_nil _
    split
    · simp only
      split
      · exact persistThen_routine pf _ fun _ h => commitEffects_brings h
      · exact .of_ok fun _ h => commitEffects_brings h
    · simp only
      split
      · exact .of_nil _
      · apply Routine.of_ok
        intro effect hmem
        exact appendEntriesEffectFor_brings (Option.mem_toList.mp hmem)
  · exact .of_nil _

/-- Of the messages for consensus only an accepted `AppendEntries` request brings
    blocks. -/
theorem onMessage_routine (src : PeerId) (body : MessageBody) (now : Instant) (draw : Nat)
    (h : ∀ term leaderId prevLogIndex prevLogTerm entries leaderCommit,
      body ≠ .raftAppendEntries term leaderId prevLogIndex prevLogTerm entries leaderCommit) :
    Routine (r.onMessage pf src body now draw) := by
  cases body with
  | raftRequestVote term candidateId lastLogIndex lastLogTerm =>
      apply Routine.of_ok
      intro effect hmem
      rw [List.mem_singleton.mp hmem]
      rfl
  | raftRequestVoteResponse term voteGranted =>
      simp only [onMessage, onRequestVoteResponse]
      split
      · split
        · exact appendAsLeader_routine pf _ _
        · exact .of_nil _
      · exact .of_nil _
  | raftAppendEntries term leaderId prevLogIndex prevLogTerm entries leaderCommit =>
      exact absurd rfl (h term leaderId prevLogIndex prevLogTerm entries leaderCommit)
  | raftAppendEntriesResponse term success matchIndex =>
      exact onAppendEntriesResponse_routine pf r term src success matchIndex
  | _ => exact .of_error _ _

end RaftConsensus

namespace Voting

theorem outcomeEffects_brings {blockHash : BlockHash} {outcome : ConsensusOutcome}
    {effect : ConsensusEffect} (h : effect ∈ outcomeEffects blockHash outcome) :
    effect.brings = false := by
  cases outcome
  · cases h
  · simp only [outcomeEffects, List.mem_cons, List.not_mem_nil, or_false] at h
    rcases h with rfl | rfl <;> rfl
  · simp only [outcomeEffects, List.mem_cons, List.not_mem_nil, or_false] at h
    rcases h with rfl | rfl <;> rfl

theorem handleVotingVote_brings {peerId : PeerId} {votings : Votings} {knownPeers : List PeerId}
    {blockHash : BlockHash} {src : PeerId} {approve : Bool} {effect : ConsensusEffect}
    (h : effect ∈ (handleVotingVote peerId votings knownPeers blockHash src approve).2) :
    effect.brings = false := by
  rw [handleVotingVote_effects] at h
  exact outcomeEffects_brings h

end Voting

namespace ConsensusEngine

variable (engine : ConsensusEngine) (blockHash : BlockHash) (knownPeers : List PeerId)

theorem onBlockCreated_routine (pf : Platform) : Routine (engine.onBlockCreated pf blockHash) := by
  cases engine with
  | voting peerId votings =>
      apply Routine.of_ok
      intro effect hmem
      rw [List.mem_singleton.mp hmem]
      rfl
  | raft r => exact RaftConsensus.onBlockCreated_routine pf r blockHash

theorem onLocalBlockProposed_routine :
    Routine (engine.onLocalBlockProposed blockHash knownPeers) := by
  cases engine with
  | voting peerId votings => exact .of_ok fun _ h => Voting.handleVotingVote_brings h
  | raft r => exact .of_nil _

theorem onBlockProposalValidated_routine (proposer : PeerId) (valid : Bool) :
    Routine (engine.onBlockProposalValidated blockHash proposer valid knownPeers) := by
  cases engine with
  | voting peerId votings =>
      apply Routine.of_ok
      intro effect hmem
      rw [Voting.onBlockProposalValidated_eq] at hmem
      split at hmem <;> exact Voting.handleVotingVote_brings hmem
  | raft r => exact .of_nil _

theorem onBlockVote_routine (src : PeerId) (approve : Bool) :
    Routine (engine.onBlockVote blockHash src approve knownPeers) := by
  cases engine with
  | voting peerId votings => exact .of_ok fun _ h => Voting.handleVotingVote_brings h
  | raft r => exact .of_nil _

theorem onTick_routine (pf : Platform) (now : Instant) :
    Routine (engine.onTick pf now knownPeers) := by
  cases engine with
  | voting peerId votings => exact .of_nil _
  | raft r => exact RaftConsensus.onTick_routine pf r now knownPeers

end ConsensusEngine

-- ============================================================================
-- Changes
-- ============================================================================

namespace PeerEffects

/-- A change of a peer's services.  `mayStage` says which client transactions,
    `mayAdd` which blocks from outside come in at which block store. -/
inductive Change (pf : Platform) (mayStage : BlockKeeper → SignedTransaction → Prop)
    (mayAdd : BlockKeeper → BlockFile → Prop) : PeerEffects → PeerEffects → Prop where
  | talk (effects : PeerEffects) (network : Network) (lastCompletedBlock : BlockHash) :
      Change pf mayStage mayAdd effects { effects with network, lastCompletedBlock }
  | stageClientTransaction (effects : PeerEffects) {clientTx : SignedTransaction}
      (h : mayStage effects.blockKeeper clientTx) :
      Change pf mayStage mayAdd effects (effects.stageClientTransaction pf clientTx).1
  | addExternalBlock (effects : PeerEffects) {block : BlockFile}
      (hadd : effects.blockKeeper.blockCanBeAdded block = true)
      (h : mayAdd effects.blockKeeper block) :
      Change pf mayStage mayAdd effects
        { effects.applyBlockTransactions block with
          blockKeeper := (effects.blockKeeper.addExternalBlock pf block).1 }
  | commitBlock (effects : PeerEffects) (blockHash : BlockHash) :
      Change pf mayStage mayAdd effects
        { effects with blockKeeper := (effects.blockKeeper.commitBlock pf blockHash).1 }
  | rollbackBlock (effects : PeerEffects) (blockHash : BlockHash)
      (transactionProcessor : TransactionProcessor) :
      Change pf mayStage mayAdd effects
        { effects with
          transactionProcessor
          blockKeeper := (effects.blockKeeper.rollbackBlock pf blockHash).1 }

/-- Any number of changes. -/
abbrev Changes (pf : Platform) (mayStage : BlockKeeper → SignedTransaction → Prop)
    (mayAdd : BlockKeeper → BlockFile → Prop) : PeerEffects → PeerEffects → Prop :=
  Relation.ReflTransGen (Change pf mayStage mayAdd)

variable {pf : Platform} {mayStage : BlockKeeper → SignedTransaction → Prop}
  {mayAdd : BlockKeeper → BlockFile → Prop}

/-- The invariant rule for changes. -/
theorem Changes.preserves {I : PeerEffects → Prop}
    (hchange : ∀ effects effects', Change pf mayStage mayAdd effects effects' → I effects →
      I effects')
    {effects effects' : PeerEffects} (h : Changes pf mayStage mayAdd effects effects')
    (hI : I effects) : I effects' := by
  induction h with
  | refl => exact hI
  | tail _ hlast ih => exact hchange _ _ hlast ih

variable (pf mayStage mayAdd)

theorem commitBlock_changes (effects : PeerEffects) (blockHash : BlockHash) :
    Changes pf mayStage mayAdd effects (effects.commitBlock pf blockHash).1 := by
  refine (Relation.ReflTransGen.single (.commitBlock effects blockHash)).tail ?_
  unfold commitBlock
  split
  · rename_i heq
    rw [heq]
    exact .talk _ effects.network blockHash
  · rename_i heq
    rw [heq]
    exact .talk _ effects.network effects.lastCompletedBlock

theorem rollbackBlock_changes (effects : PeerEffects) (blockHash : BlockHash) :
    Changes pf mayStage mayAdd effects (effects.rollbackBlock pf blockHash).1 := by
  unfold rollbackBlock
  split
  · exact .single (.talk effects effects.network blockHash)
  · rename_i block hblock
    refine (Relation.ReflTransGen.single (.rollbackBlock effects blockHash
      (effects.transactionProcessor.rollbackTransactions block.transactions))).tail ?_
    dsimp only
    split
    · rename_i heq
      rw [heq]
      exact .talk _ effects.network effects.lastCompletedBlock
    · rename_i heq
      rw [heq]
      exact .talk _ effects.network blockHash

theorem broadcastBlockProposal_changes (effects : PeerEffects) (blockHash : BlockHash) :
    Changes pf mayStage mayAdd effects (effects.broadcastBlockProposal pf blockHash).1 := by
  unfold broadcastBlockProposal
  split
  · have hcommit : Change pf mayStage mayAdd effects
        { effects with blockKeeper := (effects.blockKeeper.commitBlock pf blockHash).1 } :=
      .commitBlock effects blockHash
    split
    · rename_i heq
      rw [heq] at hcommit
      exact .single hcommit
    · rename_i heq
      rw [heq] at hcommit
      exact .single hcommit
  · split
    · exact .refl
    · exact .single (.talk effects _ effects.lastCompletedBlock)

theorem sendRaftAppendEntries_changes (effects : PeerEffects) (dst : PeerId)
    (term prevLogIndex prevLogTerm : Nat) (entries : List RaftLogEntry) (leaderCommit : Nat) :
    Changes pf mayStage mayAdd effects (effects.sendRaftAppendEntries pf dst term prevLogIndex
      prevLogTerm entries leaderCommit).1 := by
  unfold sendRaftAppendEntries
  split
  · exact .refl
  · exact .single (.talk effects _ effects.lastCompletedBlock)

theorem queueAll_effects (effects : PeerEffects)
    (answer : ConsensusEngine × Except String (List ConsensusEffect)) :
    (effects.queueAll answer).effects = effects := by
  unfold queueAll
  split <;> rfl

/-- An effect that brings nothing makes changes, and queues effects that bring
    nothing. -/
theorem executeEffect_changes (effects : PeerEffects) (consensus : ConsensusEngine)
    {effect : ConsensusEffect} (h : effect.brings = false) :
    Changes pf mayStage mayAdd effects (effects.executeEffect pf consensus effect).effects ∧
      ∀ queued ∈ (effects.executeEffect pf consensus effect).queued, queued.brings = false := by
  cases effect with
  | stageClientTransaction clientTx => cases h
  | stageRaftEntries entries => cases h
  | broadcastClientTransaction clientTx =>
      exact ⟨.single (.talk effects _ effects.lastCompletedBlock),
        fun queued hmem => absurd hmem List.not_mem_nil⟩
  | proposeBlock blockHash =>
      have hchanges := broadcastBlockProposal_changes pf mayStage mayAdd effects blockHash
      simp only [executeEffect]
      rcases hresult : effects.broadcastBlockProposal pf blockHash with
        ⟨effects', e | _ | knownPeers⟩
      all_goals rw [hresult] at hchanges
      · exact ⟨hchanges, fun queued hmem => absurd hmem List.not_mem_nil⟩
      · exact ⟨hchanges, fun queued hmem => absurd hmem List.not_mem_nil⟩
      · have hroutine := consensus.onLocalBlockProposed_routine blockHash knownPeers
        refine ⟨?_, ?_⟩
        · rw [queueAll_effects]
          exact hchanges
        · intro queued hmem
          obtain ⟨queue, hanswer, hmem⟩ := queueAll_queued hmem
          exact hroutine queue hanswer queued hmem
  | sendRaftAppendEntries dst term prevLogIndex prevLogTerm entries leaderCommit =>
      exact ⟨sendRaftAppendEntries_changes pf mayStage mayAdd effects dst term prevLogIndex
        prevLogTerm entries leaderCommit, fun queued hmem => absurd hmem List.not_mem_nil⟩
  | commitBlock blockHash =>
      exact ⟨commitBlock_changes pf mayStage mayAdd effects blockHash,
        fun queued hmem => absurd hmem List.not_mem_nil⟩
  | rollbackBlock blockHash =>
      exact ⟨rollbackBlock_changes pf mayStage mayAdd effects blockHash,
        fun queued hmem => absurd hmem List.not_mem_nil⟩
  | broadcast body =>
      exact ⟨.single (.talk effects _ effects.lastCompletedBlock),
        fun queued hmem => absurd hmem List.not_mem_nil⟩
  | send dst body =>
      exact ⟨.single (.talk effects _ effects.lastCompletedBlock),
        fun queued hmem => absurd hmem List.not_mem_nil⟩

/-- What the loop of `execute_all` does when nothing queued brings anything. -/
theorem Batch.Loop.changes {b b' : Batch} (hloop : Batch.Loop pf b b')
    (h : ∀ effect ∈ b.queue, effect.brings = false) :
    Changes pf mayStage mayAdd b.effects b'.effects := by
  induction hloop with
  | done _ => exact .refl
  | @turn b b' effect rest hqueue _ ih =>
      rw [hqueue] at h
      obtain ⟨hchanges, hqueued⟩ := executeEffect_changes pf mayStage mayAdd b.effects b.consensus
        (h effect List.mem_cons_self)
      refine hchanges.trans (ih ?_)
      intro other hmem
      rcases List.mem_append.mp hmem with hmem | hmem
      · exact h other (List.mem_cons_of_mem effect hmem)
      · exact hqueued other hmem

/-- A batch that brings nothing makes changes. -/
theorem executeAll_changes (effects : PeerEffects) (consensus : ConsensusEngine)
    {queue : List ConsensusEffect} (h : ∀ effect ∈ queue, effect.brings = false) :
    Changes pf mayStage mayAdd effects (effects.executeAll pf consensus queue).1 := by
  obtain ⟨b, hloop, heq⟩ := executeAll_loop pf effects consensus queue
  rw [heq]
  exact hloop.changes pf mayStage mayAdd h

/-- A batch whose first effect stages a client transaction that may be staged. -/
theorem executeAll_stage_changes (effects : PeerEffects) (consensus : ConsensusEngine)
    {clientTx : SignedTransaction} (hmay : mayStage effects.blockKeeper clientTx)
    {rest : List ConsensusEffect} (h : ∀ effect ∈ rest, effect.brings = false) :
    Changes pf mayStage mayAdd effects
      (effects.executeAll pf consensus (.stageClientTransaction clientTx :: rest)).1 := by
  obtain ⟨b, hloop, heq⟩ := executeAll_loop pf effects consensus
    (.stageClientTransaction clientTx :: rest)
  rw [heq]
  have hstage : Change pf mayStage mayAdd effects (effects.stageClientTransaction pf clientTx).1 :=
    .stageClientTransaction effects hmay
  cases hloop with
  | done hempty => cases hempty
  | turn hqueue hnext =>
      cases hqueue
      -- What the staging leaves, and what it queues.
      have hexecuted : (effects.executeEffect pf consensus
            (.stageClientTransaction clientTx)).effects =
            (effects.stageClientTransaction pf clientTx).1 ∧
          ∀ queued ∈ (effects.executeEffect pf consensus
            (.stageClientTransaction clientTx)).queued, queued.brings = false := by
        simp only [executeEffect]
        rcases effects.stageClientTransaction pf clientTx with ⟨effects', e | _ | blockHash⟩
        · exact ⟨rfl, fun queued hmem => absurd hmem List.not_mem_nil⟩
        · exact ⟨rfl, fun queued hmem => absurd hmem List.not_mem_nil⟩
        · refine ⟨queueAll_effects effects' _, ?_⟩
          intro queued hmem
          obtain ⟨queue, hanswer, hmem⟩ := queueAll_queued hmem
          exact consensus.onBlockCreated_routine blockHash pf queue hanswer queued hmem
      have hrest := hnext.changes pf mayStage mayAdd (by
        intro other hmem
        rcases List.mem_append.mp hmem with hmem | hmem
        · exact h other hmem
        · exact hexecuted.2 other hmem)
      rw [← hexecuted.1] at hstage
      exact (Relation.ReflTransGen.single hstage).trans hrest

theorem foldl_turn_changes (queue : List ConsensusEffect) (b : Batch)
    (h : ∀ effect ∈ queue, effect.brings = false) :
    Changes pf mayStage mayAdd b.effects (queue.foldl (Batch.turn pf) b).effects := by
  induction queue generalizing b with
  | nil => exact .refl
  | cons effect queue ih =>
      have hchanges := (executeEffect_changes pf mayStage mayAdd b.effects b.consensus
        (h effect List.mem_cons_self)).1
      exact hchanges.trans (ih (b.turn pf effect) fun other hmem =>
        h other (List.mem_cons_of_mem effect hmem))

-- ============================================================================
-- Staging the blocks of a request
-- ============================================================================

/-- Staging the entries one by one, with these payloads, adds only blocks that may be
    added: an entry whose block is staged is passed over, and staging ends at the
    first block that cannot be added. -/
def AddsOnly (pf : Platform) (mayAdd : BlockKeeper → BlockFile → Prop)
    (blocks : HashMap BlockHash BlockFile) : BlockKeeper → List RaftLogEntry → Prop
  | _, [] => True
  | k, entry :: entries =>
    if entry.blockHash ∈ k.uncommitedBlocks then AddsOnly pf mayAdd blocks k entries
    else
      ∀ block, blocks.lookup entry.blockHash = some block → k.blockCanBeAdded block = true →
        mayAdd k block ∧ AddsOnly pf mayAdd blocks (k.addExternalBlock pf block).1 entries

theorem stageRaftEntries_changes {blocks : HashMap BlockHash BlockFile}
    (hpayloads : RaftConsensus.Payloads pf blocks) {entries : List RaftLogEntry}
    (hnoop : ∀ entry ∈ entries, entry.isNoop = false) (effects : PeerEffects) (r : RaftConsensus)
    (hprovided : Provided effects.blockKeeper r blocks entries)
    (hadds : AddsOnly pf mayAdd blocks effects.blockKeeper entries) :
    Changes pf mayStage mayAdd effects (effects.stageRaftEntries pf (.raft r) entries).1 := by
  induction entries generalizing effects r with
  | nil => exact .refl
  | cons entry entries ih =>
      have hentry := hnoop entry List.mem_cons_self
      have hothers : ∀ e ∈ entries, e.isNoop = false :=
        fun e he => hnoop e (List.mem_cons_of_mem entry he)
      rw [AddsOnly] at hadds
      by_cases hstaged : entry.blockHash ∈ effects.blockKeeper.uncommitedBlocks
      · rw [if_pos hstaged] at hadds
        rw [stageRaftEntries_staged pf entries hentry hstaged]
        exact ih hothers effects _ (hprovided.tail _ (fun _ h => h) hstaged) hadds
      rw [if_neg hstaged] at hadds
      obtain ⟨block, hpending, hblock⟩ :=
        (hprovided entry List.mem_cons_self).resolve_left hstaged
      obtain ⟨hhash, hverify⟩ := hpayloads _ _ hblock
      cases hadd : effects.blockKeeper.blockCanBeAdded block with
      | false =>
          obtain ⟨e, heq⟩ := stageRaftEntries_refused pf entries hentry hstaged hpending hadd
          rw [heq]
      | true =>
          obtain ⟨hmay, hrest⟩ := hadds block hblock hadd
          rw [stageRaftEntries_added pf entries hentry hstaged hpending hverify hadd]
          have hstages := BlockKeeper.addExternalBlock_stages effects.blockKeeper hverify
          refine (Relation.ReflTransGen.single (.addExternalBlock effects hadd hmay)).trans
            (ih hothers _ _ (hprovided.tail _ ?_ ?_) hrest)
          · intro h hmem
            rw [hstages.uncommitedBlocks]
            exact (AList.mem_insert _).mpr (Or.inr hmem)
          · rw [hstages.uncommitedBlocks, ← hhash]
            exact (AList.mem_insert _).mpr (Or.inl rfl)

/-- The batch of an accepted request. -/
theorem accepted_changes {a : Accepted} {r : RaftConsensus} (h : a.Supplied pf r)
    (effects : PeerEffects)
    (hadds : AddsOnly pf mayAdd a.blocks (effects.blockKeeper.rolledBack pf a.discarded) a.toStage)
    (dst : PeerId) (body : MessageBody) :
    Changes pf mayStage mayAdd effects
      (effects.executeAll pf (.raft r) (a.effects ++ [.send dst body])).1 := by
  obtain ⟨last, hlast, heq⟩ := executeAll_flat pf effects (.raft r)
    (accepted_generations a dst body)
  rw [heq, ← hlast, Accepted.effects, List.foldl_append, List.foldl_append, List.foldl_append]
  clear hlast heq
  have hrollbacks := foldl_turn_changes pf mayStage mayAdd
    (a.discarded.map ConsensusEffect.rollbackBlock)
    { effects, consensus := .raft r, queue := [], errors := [] } (by
      intro effect hmem
      obtain ⟨blockHash, -, rfl⟩ := List.mem_map.mp hmem
      rfl)
  obtain ⟨htalk, -, hkeeper⟩ := rollbacks_turns pf a.discarded
    { effects, consensus := .raft r, queue := [], errors := [] }
  generalize (a.discarded.map ConsensusEffect.rollbackBlock).foldl (Batch.turn pf)
    { effects, consensus := .raft r, queue := [], errors := [] } = rolled at hrollbacks htalk hkeeper
  refine hrollbacks.trans ?_
  have hstage : Changes pf mayStage mayAdd rolled.effects
      ((if a.toStage.isEmpty then [] else [ConsensusEffect.stageRaftEntries a.toStage]).foldl
        (Batch.turn pf) rolled).effects := by
    split
    · exact .refl
    · have hconsensus : rolled.consensus = .raft r := htalk.consensus
      show Changes pf mayStage mayAdd rolled.effects
        (rolled.effects.stageRaftEntries pf rolled.consensus a.toStage).1
      rw [hconsensus]
      apply stageRaftEntries_changes pf mayStage mayAdd h.payloads h.blocks
      · exact fun entry hmem => Or.inr (h.pending entry hmem)
      · rw [hkeeper]
        exact hadds
  refine hstage.trans (Relation.ReflTransGen.trans (foldl_turn_changes pf mayStage mayAdd _ _ ?_)
    (foldl_turn_changes pf mayStage mayAdd _ _ ?_))
  · intro effect hmem
    obtain ⟨blockHash, -, rfl⟩ := List.mem_map.mp hmem
    rfl
  · intro effect hmem
    rw [List.mem_singleton.mp hmem]
    rfl

/-- A block from outside that may be added, whether it is then staged or not. -/
theorem addExternalBlock_change {effects : PeerEffects} {block : BlockFile}
    (hadd : effects.blockKeeper.blockCanBeAdded block = true)
    (hmay : mayAdd effects.blockKeeper block) {blockKeeper : BlockKeeper}
    {result : Except BlockVerificationError Unit}
    (h : (effects.applyBlockTransactions block).blockKeeper.addExternalBlock pf block =
      (blockKeeper, result)) :
    Change pf mayStage mayAdd effects
      { effects.applyBlockTransactions block with blockKeeper } := by
  have hchange : Change pf mayStage mayAdd effects
      { effects.applyBlockTransactions block with
        blockKeeper := (effects.blockKeeper.addExternalBlock pf block).1 } :=
    .addExternalBlock effects hadd hmay
  have hkeeper : effects.blockKeeper.addExternalBlock pf block = (blockKeeper, result) := h
  rw [hkeeper] at hchange
  exact hchange

theorem stageExternalBlock_changes (effects : PeerEffects) {block : BlockFile}
    (h : effects.blockKeeper.blockCanBeAdded block = true → mayAdd effects.blockKeeper block) :
    Changes pf mayStage mayAdd effects (effects.stageExternalBlock pf block).1 := by
  unfold stageExternalBlock
  cases hadd : effects.blockKeeper.blockCanBeAdded block with
  | false => exact .refl
  | true =>
      simp only [Bool.not_true, Bool.false_eq_true, if_false]
      rcases hresult : (effects.applyBlockTransactions block).blockKeeper.addExternalBlock pf block
        with ⟨k', e | _⟩
      · exact .single (addExternalBlock_change pf mayStage mayAdd hadd (h hadd) hresult)
      · exact .single (addExternalBlock_change pf mayStage mayAdd hadd (h hadd) hresult)

theorem applySynchronizedBlock_changes (effects : PeerEffects) {block : BlockFile}
    (h : effects.blockKeeper.blockCanBeAdded block = true → mayAdd effects.blockKeeper block) :
    Changes pf mayStage mayAdd effects (effects.applySynchronizedBlock pf block).1 := by
  unfold applySynchronizedBlock
  cases hadd : effects.blockKeeper.blockCanBeAdded block with
  | false => exact .refl
  | true =>
      simp only [Bool.not_true, Bool.false_eq_true, if_false]
      rcases hresult : (effects.applyBlockTransactions block).blockKeeper.addExternalBlock pf block
        with ⟨k', e | _⟩
      · exact .single (addExternalBlock_change pf mayStage mayAdd hadd (h hadd) hresult)
      · have hchange := addExternalBlock_change pf mayStage mayAdd hadd (h hadd) hresult
        have hcommit : Change pf mayStage mayAdd
            { effects.applyBlockTransactions block with blockKeeper := k' }
            { effects.applyBlockTransactions block with
              blockKeeper := (k'.commitBlock pf block.hash).1 } :=
          .commitBlock _ block.hash
        dsimp only
        rcases hcommitted : k'.commitBlock pf block.hash with ⟨k'', e | _⟩
        · rw [hcommitted] at hcommit
          exact (Relation.ReflTransGen.single hchange).tail hcommit
        · rw [hcommitted] at hcommit
          exact ((Relation.ReflTransGen.single hchange).tail hcommit).tail
            (.talk _ effects.network block.hash)

end PeerEffects

-- ============================================================================
-- Events
-- ============================================================================

namespace Peer

/-- What the event brings in may come in: read off the peer before the event, a
    transaction that will be staged may be staged, and a block that will be added
    may be added. -/
def Admits (pf : Platform) (mayStage : BlockKeeper → SignedTransaction → Prop)
    (mayAdd : BlockKeeper → BlockFile → Prop) (p : Peer) : Event → Prop
  | .message message now draw =>
    match message.body with
    | .clientTransaction clientTx =>
      ∀ queue, p.consensus.onClientTransaction clientTx = .ok queue →
        .stageClientTransaction clientTx ∈ queue → mayStage p.effects.blockKeeper clientTx
    | .synchronization verifiedTx => mayStage p.effects.blockKeeper verifiedTx.clientTx
    | .blockProposal blockHash blockFile signature publicKey =>
      p.effects.lastCompletedBlock ≠ blockHash → ∀ block,
        BlockFile.verifyBlockVec pf blockHash blockFile signature publicKey = .ok block →
        p.effects.blockKeeper.blockCanBeAdded block = true → mayAdd p.effects.blockKeeper block
    | .raftAppendEntries term leaderId prevLogIndex prevLogTerm entries leaderCommit =>
      ∀ r a, p.consensus = .raft r →
        r.acceptance pf
          { term, leaderId, prevLogIndex, prevLogTerm, entries, leaderCommit
            «from» := message.from
            now } draw = some a →
        PeerEffects.AddsOnly pf mayAdd a.blocks
          (p.effects.blockKeeper.rolledBack pf a.discarded) a.toStage
    | _ => True
  | .synchronized block =>
    p.effects.blockKeeper.blockCanBeAdded block = true → mayAdd p.effects.blockKeeper block
  | .tick _ | .discovered _ => True

variable (pf : Platform) (mayStage : BlockKeeper → SignedTransaction → Prop)
  (mayAdd : BlockKeeper → BlockFile → Prop)

/-- An answer that brings nothing makes changes. -/
theorem answer_changes (p : Peer) {response : ConsensusEngine × Except String (List ConsensusEffect)}
    (h : Routine response) :
    PeerEffects.Changes pf mayStage mayAdd p.effects (p.answer pf response).1.effects := by
  obtain ⟨consensus, e | queue⟩ := response
  · exact .refl
  · rw [(answer_ok pf p consensus queue).1]
    exact PeerEffects.executeAll_changes pf mayStage mayAdd p.effects consensus (h queue rfl)

theorem processClientTransaction_changes (p : Peer) (clientTx : SignedTransaction)
    (h : ∀ queue, p.consensus.onClientTransaction clientTx = .ok queue →
      .stageClientTransaction clientTx ∈ queue → mayStage p.effects.blockKeeper clientTx) :
    PeerEffects.Changes pf mayStage mayAdd p.effects
      (p.processClientTransaction pf clientTx).1.effects := by
  have hstage : ∀ {rest}, mayStage p.effects.blockKeeper clientTx →
      (∀ effect ∈ rest, effect.brings = false) →
      PeerEffects.Changes pf mayStage mayAdd p.effects
        (p.answer pf (p.consensus, .ok (.stageClientTransaction clientTx :: rest))).1.effects := by
    intro rest hmay hrest
    rw [(answer_ok pf p p.consensus _).1]
    exact PeerEffects.executeAll_stage_changes pf mayStage mayAdd p.effects p.consensus hmay hrest
  unfold processClientTransaction
  split
  · exact .refl
  cases hconsensus : p.consensus with
  | voting peerId votings =>
      rw [hconsensus] at h hstage
      refine hstage (h _ rfl List.mem_cons_self) ?_
      intro effect hmem
      rw [List.mem_singleton.mp hmem]
      rfl
  | raft r =>
      rw [hconsensus] at h hstage
      simp only [ConsensusEngine.onClientTransaction, RaftConsensus.onClientTransaction,
        RaftConsensus.forwardClientTransaction] at h ⊢
      split
      · rename_i hleader
        simp only [hleader] at h
        cases hensure : r.ensureNoUncommittedBlock with
        | error e => exact answer_changes pf mayStage mayAdd p (.of_error _ e)
        | ok _ =>
            simp only [hensure] at h
            exact hstage (h _ rfl List.mem_cons_self) fun _ hmem => absurd hmem List.not_mem_nil
      all_goals
        -- A follower or a candidate passes the transaction on.
        split
        · exact answer_changes pf mayStage mayAdd p (.of_error _ _)
        · apply answer_changes pf mayStage mayAdd p
          apply Routine.of_ok
          intro effect hmem
          rw [List.mem_singleton.mp hmem]
          rfl

theorem synchronizeTransaction_changes (p : Peer) (verifiedTx : VerifiedTransaction)
    (h : mayStage p.effects.blockKeeper verifiedTx.clientTx) :
    PeerEffects.Changes pf mayStage mayAdd p.effects
      (p.synchronizeTransaction pf verifiedTx).1.effects := by
  unfold synchronizeTransaction
  split
  · exact .refl
  have hstage : PeerEffects.Change pf mayStage mayAdd p.effects
      (p.effects.stageClientTransaction pf verifiedTx.clientTx).1 :=
    .stageClientTransaction p.effects h
  rcases hresult : p.effects.stageClientTransaction pf verifiedTx.clientTx with
    ⟨effects, e | _ | blockHash⟩
  all_goals rw [hresult] at hstage
  · exact .single hstage
  · exact .single hstage
  · exact (Relation.ReflTransGen.single hstage).trans
      (answer_changes pf mayStage mayAdd { p with effects }
        (p.consensus.onBlockCreated_routine blockHash pf))

theorem processBlockProposal_changes (p : Peer) (blockHash : BlockHash) (blockFile : Bytes)
    (signature : Signature) (publicKey : VerifyingKey) (src : PeerId)
    (h : p.effects.lastCompletedBlock ≠ blockHash → ∀ block,
      BlockFile.verifyBlockVec pf blockHash blockFile signature publicKey = .ok block →
      p.effects.blockKeeper.blockCanBeAdded block = true → mayAdd p.effects.blockKeeper block) :
    PeerEffects.Changes pf mayStage mayAdd p.effects
      (p.processBlockProposal pf blockHash blockFile signature publicKey src).1.effects := by
  unfold processBlockProposal
  split
  · exact .refl
  rename_i hnew
  have hvalidate : PeerEffects.Changes pf mayStage mayAdd p.effects
      (p.validateProposal pf blockHash blockFile signature publicKey).1 := by
    unfold validateProposal
    split
    · rename_i block hverify
      exact PeerEffects.stageExternalBlock_changes pf mayStage mayAdd p.effects
        (h hnew block hverify)
    · exact .refl
  rcases hresult : p.validateProposal pf blockHash blockFile signature publicKey with
    ⟨effects, e | isOk⟩
  all_goals rw [hresult] at hvalidate
  · exact hvalidate
  · exact hvalidate.trans (answer_changes pf mayStage mayAdd { p with effects }
      (p.consensus.onBlockProposalValidated_routine blockHash effects.knownPeers src isOk))

theorem processBlockVote_changes (p : Peer) (blockHash : BlockHash) (src : PeerId)
    (approve : Bool) :
    PeerEffects.Changes pf mayStage mayAdd p.effects
      (p.processBlockVote pf blockHash src approve).1.effects := by
  unfold processBlockVote
  split
  · exact .refl
  split
  · exact .refl
  · exact answer_changes pf mayStage mayAdd p
      (p.consensus.onBlockVote_routine blockHash p.effects.knownPeers src approve)

/-- A message for consensus other than `AppendEntries` brings nothing. -/
theorem onMessage_changes (p : Peer) (src : PeerId) (body : MessageBody) (now : Instant)
    (draw : Nat)
    (h : ∀ term leaderId prevLogIndex prevLogTerm entries leaderCommit,
      body ≠ .raftAppendEntries term leaderId prevLogIndex prevLogTerm entries leaderCommit) :
    PeerEffects.Changes pf mayStage mayAdd p.effects
      (p.answer pf (p.consensus.onMessage pf src body now draw)).1.effects := by
  apply answer_changes
  cases p.consensus with
  | voting peerId votings =>
      simp only [ConsensusEngine.onMessage]
      split
      all_goals first | exact .of_nil _ | exact .of_error _ _
  | raft r => exact RaftConsensus.onMessage_routine pf r src body now draw h

theorem handleAppendEntries_changes (p : Peer) (r : RaftConsensus)
    (request : AppendEntriesRequest) (draw : Nat)
    (h : ∀ a, r.acceptance pf request draw = some a →
      PeerEffects.AddsOnly pf mayAdd a.blocks (p.effects.blockKeeper.rolledBack pf a.discarded)
        a.toStage) :
    PeerEffects.Changes pf mayStage mayAdd p.effects
      (p.answer pf (ConsensusEngine.ofRaft (r.handleAppendEntries pf request draw))).1.effects := by
  have hanswers := r.handleAppendEntries_answers pf request draw
  rcases hresult : r.handleAppendEntries pf request draw with ⟨r', result⟩
  rw [hresult] at hanswers
  cases haccepted : r.acceptance pf request draw with
  | none =>
      rw [haccepted] at hanswers
      apply answer_changes
      rcases hanswers with ⟨e, rfl⟩ | ⟨term, matchIndex, rfl⟩
      · exact .of_error _ e
      · apply Routine.of_ok
        intro effect hmem
        rw [List.mem_singleton.mp hmem]
        rfl
  | some a =>
      rw [haccepted] at hanswers
      obtain ⟨⟨term, matchIndex, rfl⟩, -, -, hpending, -⟩ := hanswers
      rw [ConsensusEngine.ofRaft, (answer_ok pf p _ _).1]
      exact PeerEffects.accepted_changes pf mayStage mayAdd
        (RaftConsensus.acceptance_supplied haccepted hpending) p.effects (h a haccepted) _ _

/-- An event makes changes of the five kinds, if what it brings in may come in. -/
theorem handle_changes (p : Peer) (event : Event) (h : p.Admits pf mayStage mayAdd event) :
    PeerEffects.Changes pf mayStage mayAdd p.effects (p.handle pf event).effects := by
  cases event with
  | message message now draw =>
      obtain ⟨src, dst, body⟩ := message
      cases body with
      | clientTransaction clientTx =>
          exact processClientTransaction_changes pf mayStage mayAdd p clientTx h
      | synchronization verifiedTx =>
          exact synchronizeTransaction_changes pf mayStage mayAdd p verifiedTx h
      | blockProposal blockHash blockFile signature publicKey =>
          exact processBlockProposal_changes pf mayStage mayAdd p blockHash blockFile signature
            publicKey src h
      | blockApproved blockHash =>
          exact processBlockVote_changes pf mayStage mayAdd p blockHash src true
      | blockReject blockHash =>
          exact processBlockVote_changes pf mayStage mayAdd p blockHash src false
      | raftAppendEntries term leaderId prevLogIndex prevLogTerm entries leaderCommit =>
          cases hconsensus : p.consensus with
          | voting peerId votings =>
              show PeerEffects.Changes pf mayStage mayAdd p.effects
                (p.answer pf (p.consensus.onMessage pf src _ now draw)).1.effects
              rw [hconsensus]
              exact answer_changes pf mayStage mayAdd p (.of_nil _)
          | raft r =>
              have hchanges := handleAppendEntries_changes pf mayStage mayAdd p r
                { term, leaderId, prevLogIndex, prevLogTerm, entries, leaderCommit
                  «from» := src
                  now } draw (h r · hconsensus)
              show PeerEffects.Changes pf mayStage mayAdd p.effects
                (p.answer pf (p.consensus.onMessage pf src _ now draw)).1.effects
              rw [hconsensus]
              exact hchanges
      | raftRequestVote | raftRequestVoteResponse | raftAppendEntriesResponse =>
          refine onMessage_changes pf mayStage mayAdd p src _ now draw ?_
          rintro _ _ _ _ _ _ ⟨⟩
  | tick now =>
      exact answer_changes pf mayStage mayAdd p
        (p.consensus.onTick_routine p.effects.knownPeers pf now)
  | synchronized block =>
      exact PeerEffects.applySynchronizedBlock_changes pf mayStage mayAdd p.effects h
  | discovered knownPeers =>
      exact .single (.talk p.effects _ p.effects.lastCompletedBlock)

/-- The condition holds at every event of the run, in the state it meets. -/
def Throughout (pf : Platform) (condition : Peer → Event → Prop) : Peer → List Event → Prop
  | _, [] => True
  | p, event :: events => condition p event ∧ Throughout pf condition (p.handle pf event) events

/-- A run makes changes of the five kinds, if at every event what it brings in may
    come in. -/
theorem run_changes (p : Peer) (events : List Event)
    (h : Throughout pf (Admits pf mayStage mayAdd) p events) :
    PeerEffects.Changes pf mayStage mayAdd p.effects (p.run pf events).effects := by
  induction events generalizing p with
  | nil => exact .refl
  | cons event events ih =>
      exact (handle_changes pf mayStage mayAdd p event h.1).trans (ih (p.handle pf event) h.2)

end Peer
end Rustchain
