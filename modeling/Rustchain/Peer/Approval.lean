/-
  Rustchain.Peer.Approval

  When a voting peer announces its approval of a block it never staged.

  Votes of others on such a block are refused, and a block the peer packs itself
  is staged, so the announcement can only come from a proposal.  There the
  proposer's approval is counted before the peer's own verdict, and the
  announcement is made exactly when that approval completes the quorum.
-/

import Rustchain.Peer.Basic
import Rustchain.Reference
import Rustchain.Storage.Changes

namespace Rustchain

namespace PeerEffects

/-- The peer has sent a `BlockApproved` for the block. -/
def Announced (effects : PeerEffects) (blockHash : BlockHash) : Prop :=
  ∃ call ∈ effects.network.calls, call.body = .blockApproved blockHash

/-- A block with this hash was staged at some time. -/
def HasStaged (effects : PeerEffects) (blockHash : BlockHash) : Prop :=
  ∃ b, effects.blockKeeper.Seen b ∧ b.hash = blockHash

instance (effects : PeerEffects) (blockHash : BlockHash) : Decidable (effects.Announced blockHash) :=
  inferInstanceAs (Decidable (∃ call ∈ effects.network.calls, _))

instance (effects : PeerEffects) (blockHash : BlockHash) : Decidable (effects.HasStaged blockHash) :=
  decidable_of_iff
    (∃ b ∈ effects.blockKeeper.created ++ effects.blockKeeper.received, b.hash = blockHash) (by
      simp only [List.mem_append, HasStaged, BlockKeeper.Seen])

-- ============================================================================
-- One effect
-- ============================================================================

/-- `effects'` is `effects` after one effect: what was seen stays seen, what is
    staged was seen, and the calls made are added at the end. -/
structure Advances (effects effects' : PeerEffects) (calls : List NetworkCall) : Prop where
  seen : ∀ b, effects.blockKeeper.Seen b → effects'.blockKeeper.Seen b
  accounted : effects.blockKeeper.Accounted → effects'.blockKeeper.Accounted
  calls : effects'.network.calls = effects.network.calls ++ calls

theorem Advances.refl (effects : PeerEffects) : Advances effects effects [] :=
  ⟨fun _ h => h, fun h => h, (List.append_nil _).symm⟩

theorem Advances.trans {effects effects' effects'' : PeerEffects} {calls calls' : List NetworkCall}
    (h : Advances effects effects' calls) (h' : Advances effects' effects'' calls') :
    Advances effects effects'' (calls ++ calls') :=
  ⟨fun b hb => h'.seen b (h.seen b hb), fun ha => h'.accounted (h.accounted ha), by
    rw [h'.calls, h.calls, List.append_assoc]⟩

theorem Advances.hasStaged {effects effects' : PeerEffects} {calls : List NetworkCall}
    (h : Advances effects effects' calls) {blockHash : BlockHash}
    (hb : effects.HasStaged blockHash) : effects'.HasStaged blockHash := by
  obtain ⟨b, hseen, hhash⟩ := hb
  exact ⟨b, h.seen b hseen, hhash⟩

theorem Advances.announced_iff {effects effects' : PeerEffects} {calls : List NetworkCall}
    (h : Advances effects effects' calls) (blockHash : BlockHash) :
    effects'.Announced blockHash ↔
      effects.Announced blockHash ∨ ∃ call ∈ calls, call.body = .blockApproved blockHash := by
  simp only [Announced, h.calls, List.mem_append, or_and_right, exists_or]

theorem commitKeeper_advances (pf : Platform) (effects : PeerEffects) (blockHash : BlockHash)
    (last : BlockHash) :
    Advances effects
      { effects with
        blockKeeper := (effects.blockKeeper.commitBlock pf blockHash).1
        lastCompletedBlock := last } [] := by
  rcases BlockKeeper.commitBlock_cases pf effects.blockKeeper blockHash with
    ⟨-, e, heq⟩ | ⟨block, -, -, -, heq⟩ | ⟨block, fault, e, -, -, -, heq⟩
  · rw [heq]
    exact ⟨fun _ h => h, fun h => h, (List.append_nil _).symm⟩
  · rw [heq]
    refine ⟨fun _ h => h, fun h => ?_, (List.append_nil _).symm⟩
    exact BlockKeeper.erase_accounted h blockHash
  · rw [heq]
    exact ⟨fun _ h => h, fun h => h, (List.append_nil _).symm⟩

theorem commitBlock_advances (pf : Platform) (effects : PeerEffects) (blockHash : BlockHash) :
    Advances effects (effects.commitBlock pf blockHash).1 [] := by
  unfold commitBlock
  split
  · rename_i k hk
    have h := commitKeeper_advances pf effects blockHash blockHash
    rw [hk] at h
    exact h
  · rename_i k e hk
    have h := commitKeeper_advances pf effects blockHash effects.lastCompletedBlock
    rw [hk] at h
    exact h

theorem rollbackBlock_advances (pf : Platform) (effects : PeerEffects) (blockHash : BlockHash) :
    Advances effects (effects.rollbackBlock pf blockHash).1 [] := by
  have hkeeper : ∀ (tp : TransactionProcessor) (last : BlockHash),
      Advances effects
        { effects with
          transactionProcessor := tp
          blockKeeper := (effects.blockKeeper.rollbackBlock pf blockHash).1
          lastCompletedBlock := last } [] := by
    intro tp last
    rcases BlockKeeper.rollbackBlock_cases pf effects.blockKeeper blockHash with
      ⟨-, e, heq⟩ | ⟨block, -, -, hpacks⟩
    · rw [heq]
      exact ⟨fun _ h => h, fun h => h, (List.append_nil _).symm⟩
    · refine ⟨fun b hb => hpacks.seen hb, fun h => ?_, (List.append_nil _).symm⟩
      exact hpacks.accounted (BlockKeeper.erase_accounted h blockHash)
  unfold rollbackBlock
  split
  · exact ⟨fun _ h => h, fun h => h, (List.append_nil _).symm⟩
  · simp only
    split
    · rename_i k e hk
      rw [hk] at hkeeper
      exact hkeeper _ _
    · rename_i k hk
      rw [hk] at hkeeper
      exact hkeeper _ _

/-- Staging a client transaction: a block it completes was seen. -/
theorem stageClientTransaction_advances (pf : Platform) (effects : PeerEffects)
    (tx : SignedTransaction) :
    Advances effects (effects.stageClientTransaction pf tx).1 [] ∧
      ∀ blockHash, (effects.stageClientTransaction pf tx).2 = .ok (.newBlockCreated blockHash) →
        (effects.stageClientTransaction pf tx).1.HasStaged blockHash := by
  unfold stageClientTransaction
  split
  · exact ⟨Advances.refl effects, fun _ h => by cases h⟩
  · split
    · exact ⟨⟨fun _ h => h, fun h => h, (List.append_nil _).symm⟩, fun _ h => by cases h⟩
    · have hpacks := BlockKeeper.addTransaction_packs pf effects.blockKeeper tx
      refine ⟨⟨fun b hb => hpacks.seen hb, hpacks.accounted, (List.append_nil _).symm⟩, ?_⟩
      intro blockHash h
      obtain ⟨block, hhash, hmem, -⟩ := BlockKeeper.addTransaction_created (Except.ok.inj h)
      exact ⟨block, Or.inl hmem, hhash⟩

/-- Proposing a block sends the proposal and nothing else. -/
theorem broadcastBlockProposal_advances (pf : Platform) (effects : PeerEffects)
    (blockHash : BlockHash) :
    ∃ calls, Advances effects (effects.broadcastBlockProposal pf blockHash).1 calls ∧
      ∀ call ∈ calls, ∀ h, call.body ≠ .blockApproved h := by
  unfold broadcastBlockProposal
  split
  · have h := commitKeeper_advances pf effects blockHash effects.lastCompletedBlock
    refine ⟨[], ?_, fun call hmem => absurd hmem List.not_mem_nil⟩
    split
    · rename_i k e hk
      rw [hk] at h
      exact h
    · rename_i k hk
      rw [hk] at h
      exact h
  · split
    · exact ⟨[], Advances.refl effects, fun call hmem => absurd hmem List.not_mem_nil⟩
    · refine ⟨_, ⟨fun _ h => h, fun h => h, rfl⟩, ?_⟩
      intro call hmem h heq
      rw [List.mem_singleton.mp hmem] at heq
      cases heq

/-- Staging a block from outside. -/
theorem stageExternalBlock_advances (pf : Platform) (effects : PeerEffects) (block : BlockFile) :
    Advances effects (effects.stageExternalBlock pf block).1 [] ∧
      ((effects.stageExternalBlock pf block).2 = .ok true →
        (effects.stageExternalBlock pf block).1.HasStaged block.hash) := by
  unfold stageExternalBlock
  split
  · exact ⟨Advances.refl effects, fun h => by cases h⟩
  · simp only
    rcases BlockKeeper.addExternalBlock_cases pf
      (effects.applyBlockTransactions block).blockKeeper block with
      ⟨e, -, heq⟩ | ⟨-, hok, hstages⟩
    · rw [heq]
      exact ⟨⟨fun _ h => h, fun h => h, (List.append_nil _).symm⟩, fun h => by cases h⟩
    · split
      · rename_i k hk
        rw [hk] at hstages
        refine ⟨⟨fun b hb => hstages.seen hb, hstages.accounted, (List.append_nil _).symm⟩, ?_⟩
        intro _
        refine ⟨block, Or.inr ?_, rfl⟩
        rw [hstages.received]
        exact List.mem_append_right _ (List.mem_singleton_self _)
      · rename_i k e hk
        rw [hk] at hok
        cases hok

-- ============================================================================
-- A batch of effects
-- ============================================================================

/-- The effects a voting engine asks for. -/
def VotingEffect : ConsensusEffect → Prop
  | .stageClientTransaction _ | .broadcastClientTransaction _ | .proposeBlock _
  | .commitBlock _ | .rollbackBlock _ => True
  | .broadcast (.blockApproved _) | .broadcast (.blockReject _) => True
  | _ => False

/-- Every ballot that is open has not reached the quorum. -/
def BallotsUndecided (votings : Voting.Votings) : Prop :=
  Voting.AllBallots VotingConsensus.Undecided votings

theorem BallotsUndecided.ballot {votings : Voting.Votings} (h : BallotsUndecided votings)
    (peerId : PeerId) (knownPeers : List PeerId) (blockHash : BlockHash) :
    (Voting.ballot peerId votings knownPeers blockHash).Undecided :=
  Voting.AllBallots.ballot h VotingConsensus.new_undecided peerId knownPeers blockHash

theorem BallotsUndecided.handleVotingVote {votings : Voting.Votings}
    (h : BallotsUndecided votings) (peerId : PeerId) (knownPeers : List PeerId)
    (blockHash : BlockHash) (src : PeerId) (approve : Bool) :
    BallotsUndecided
      (Voting.handleVotingVote peerId votings knownPeers blockHash src approve).1 :=
  Voting.AllBallots.handleVotingVote h VotingConsensus.new_undecided
    (fun _ src approve hv => VotingConsensus.afterVote_undecided hv src approve) peerId knownPeers
    blockHash src approve

theorem outcomeEffects_voting {blockHash : BlockHash} {outcome : ConsensusOutcome}
    {effect : ConsensusEffect} (h : effect ∈ Voting.outcomeEffects blockHash outcome) :
    VotingEffect effect ∧ (∀ h', effect ≠ .proposeBlock h') ∧
      (∀ h', effect = .broadcast (.blockApproved h') → h' = blockHash ∧ outcome = .approved) := by
  cases outcome with
  | pending => cases h
  | approved | rejected =>
      simp only [Voting.outcomeEffects, List.mem_cons, List.not_mem_nil, or_false] at h
      rcases h with rfl | rfl <;> simp [VotingEffect]

/-- Where a batch stands that started with `start`: until a block with the hash is
    staged, no approval of it was announced and nothing queued leads to one, unless
    that is `excused`. -/
structure Quiet (start : PeerEffects) (excused : Prop) (blockHash : BlockHash) (b : Batch) :
    Prop where
  advances : ∃ calls, Advances start b.effects calls
  voting : ∃ peerId votings, b.consensus = .voting peerId votings ∧ BallotsUndecided votings
  accounted : b.effects.blockKeeper.Accounted
  votingEffects : ∀ effect ∈ b.queue, VotingEffect effect
  quiet : excused ∨ b.effects.HasStaged blockHash ∨
    (¬ b.effects.Announced blockHash ∧ .broadcast (.blockApproved blockHash) ∉ b.queue ∧
      .proposeBlock blockHash ∉ b.queue)

/-- One turn keeps quiet, given what its effect does. -/
theorem Quiet.turn_of {pf : Platform} {start : PeerEffects} {excused : Prop}
    {blockHash : BlockHash} {b : Batch} {effect : ConsensusEffect} {rest : List ConsensusEffect}
    (h : Quiet start excused blockHash { b with queue := effect :: rest }) (calls : List NetworkCall)
    (hadvances : Advances b.effects (b.effects.executeEffect pf b.consensus effect).effects calls)
    (hvoting : ∃ peerId votings,
      (b.effects.executeEffect pf b.consensus effect).consensus = .voting peerId votings ∧
        BallotsUndecided votings)
    (hqueued : ∀ queued ∈ (b.effects.executeEffect pf b.consensus effect).queued,
      VotingEffect queued)
    (hquiet : (b.effects.executeEffect pf b.consensus effect).effects.HasStaged blockHash ∨
      effect = .proposeBlock blockHash ∨ effect = .broadcast (.blockApproved blockHash) ∨
      ((∀ call ∈ calls, call.body ≠ .blockApproved blockHash) ∧
        .broadcast (.blockApproved blockHash) ∉
          (b.effects.executeEffect pf b.consensus effect).queued ∧
        .proposeBlock blockHash ∉ (b.effects.executeEffect pf b.consensus effect).queued)) :
    Quiet start excused blockHash ({ b with queue := rest }.turn pf effect) where
  advances := by
    obtain ⟨before, hbefore⟩ := h.advances
    exact ⟨before ++ calls, hbefore.trans hadvances⟩
  voting := hvoting
  accounted := hadvances.accounted h.accounted
  votingEffects := by
    intro queued hmem
    rcases List.mem_append.mp hmem with hmem | hmem
    · exact h.votingEffects queued (List.mem_cons_of_mem effect hmem)
    · exact hqueued queued hmem
  quiet := by
    rcases h.quiet with hexcused | hstaged | ⟨hannounced, hbroadcast, hpropose⟩
    · exact Or.inl hexcused
    · exact Or.inr (Or.inl (hadvances.hasStaged hstaged))
    rcases hquiet with hstaged | rfl | rfl | ⟨hcalls, hqbroadcast, hqpropose⟩
    · exact Or.inr (Or.inl hstaged)
    · exact absurd List.mem_cons_self hpropose
    · exact absurd List.mem_cons_self hbroadcast
    · refine Or.inr (Or.inr ⟨?_, ?_, ?_⟩)
      · intro h'
        rcases (hadvances.announced_iff blockHash).mp h' with hold | ⟨call, hmem, hbody⟩
        · exact hannounced hold
        · exact hcalls call hmem hbody
      · intro hmem
        rcases List.mem_append.mp hmem with hmem | hmem
        · exact hbroadcast (List.mem_cons_of_mem _ hmem)
        · exact hqbroadcast hmem
      · intro hmem
        rcases List.mem_append.mp hmem with hmem | hmem
        · exact hpropose (List.mem_cons_of_mem _ hmem)
        · exact hqpropose hmem

/-- A turn of an effect that sends nothing of interest and queues nothing. -/
theorem Quiet.turn_plain {pf : Platform} {start : PeerEffects} {excused : Prop}
    {blockHash : BlockHash} {b : Batch} {effect : ConsensusEffect} {rest : List ConsensusEffect}
    (h : Quiet start excused blockHash { b with queue := effect :: rest }) {calls : List NetworkCall}
    (hadvances : Advances b.effects (b.effects.executeEffect pf b.consensus effect).effects calls)
    (hcalls : ∀ call ∈ calls, call.body ≠ .blockApproved blockHash)
    (hsame : (b.effects.executeEffect pf b.consensus effect).consensus = b.consensus)
    (hnone : (b.effects.executeEffect pf b.consensus effect).queued = []) :
    Quiet start excused blockHash ({ b with queue := rest }.turn pf effect) := by
  obtain ⟨peerId, votings, hconsensus, hundecided⟩ := h.voting
  refine h.turn_of calls hadvances ⟨peerId, votings, hsame.trans hconsensus, hundecided⟩ ?_ ?_
  · rw [hnone]
    exact fun _ hmem => absurd hmem List.not_mem_nil
  · rw [hnone]
    exact Or.inr (Or.inr (Or.inr ⟨hcalls, List.not_mem_nil, List.not_mem_nil⟩))

/-- A transaction is staged: a block it completes is staged before it is proposed. -/
theorem Quiet.turn_stageClientTransaction {pf : Platform} {start : PeerEffects} {excused : Prop}
    {blockHash : BlockHash} {b : Batch} {clientTx : SignedTransaction}
    {rest : List ConsensusEffect}
    (h : Quiet start excused blockHash { b with queue := .stageClientTransaction clientTx :: rest }) :
    Quiet start excused blockHash
      ({ b with queue := rest }.turn pf (.stageClientTransaction clientTx)) := by
  obtain ⟨peerId, votings, hvoting, hundecided⟩ := h.voting
  have hconsensus : b.consensus = .voting peerId votings := hvoting
  obtain ⟨hadvances, hcreated⟩ := stageClientTransaction_advances pf b.effects clientTx
  obtain ⟨heffects, hsame, hqueued⟩ := executeEffect_stageClientTransaction pf b.effects peerId
    votings clientTx
  rw [← hconsensus] at heffects hsame hqueued
  rw [← heffects] at hadvances hcreated
  rcases hqueued with hnone | ⟨created, hresult, hqueued⟩
  · exact h.turn_plain hadvances (fun _ hmem => absurd hmem List.not_mem_nil) hsame hnone
  · refine h.turn_of [] hadvances ⟨peerId, votings, hsame.trans hconsensus, hundecided⟩ ?_ ?_
    · intro queued hmem
      rw [hqueued] at hmem
      rw [List.mem_singleton.mp hmem]
      trivial
    · rw [hqueued]
      by_cases heq : created = blockHash
      · exact Or.inl (heq ▸ hcreated created hresult)
      · refine Or.inr (Or.inr (Or.inr ⟨fun _ hmem => absurd hmem List.not_mem_nil, ?_, ?_⟩))
        · simp
        · simpa using fun h => heq h.symm

/-- A block is proposed: the peer votes for that block only. -/
theorem Quiet.turn_proposeBlock {pf : Platform} {start : PeerEffects} {excused : Prop}
    {blockHash proposed : BlockHash} {b : Batch} {rest : List ConsensusEffect}
    (h : Quiet start excused blockHash { b with queue := .proposeBlock proposed :: rest }) :
    Quiet start excused blockHash ({ b with queue := rest }.turn pf (.proposeBlock proposed)) := by
  obtain ⟨peerId, votings, hvoting, hundecided⟩ := h.voting
  have hconsensus : b.consensus = .voting peerId votings := hvoting
  obtain ⟨calls, hadvances, hcalls⟩ := broadcastBlockProposal_advances pf b.effects proposed
  obtain ⟨heffects, houtcome⟩ := executeEffect_proposeBlock pf b.effects peerId votings proposed
  rw [← hconsensus] at heffects houtcome
  rw [← heffects] at hadvances
  rcases houtcome with ⟨hsame, hnone⟩ | ⟨knownPeers, -, hvoted, hqueued⟩
  · exact h.turn_plain hadvances (fun call hmem => hcalls call hmem blockHash) hsame hnone
  · rw [Voting.handleVotingVote_effects] at hqueued
    refine h.turn_of calls hadvances ⟨peerId, _, hvoted, ?_⟩ ?_ ?_
    · exact hundecided.handleVotingVote peerId knownPeers proposed peerId true
    · rw [hqueued]
      exact fun queued hmem => (outcomeEffects_voting hmem).1
    · by_cases heq : proposed = blockHash
      · exact Or.inr (Or.inl (by rw [heq]))
      · rw [hqueued]
        refine Or.inr (Or.inr (Or.inr ⟨fun call hmem => hcalls call hmem blockHash, ?_, ?_⟩))
        · intro hmem
          exact heq ((outcomeEffects_voting hmem).2.2 blockHash rfl).1.symm
        · exact fun hmem => (outcomeEffects_voting hmem).2.1 blockHash rfl

/-- Every turn keeps quiet. -/
theorem Quiet.turn {pf : Platform} {start : PeerEffects} {excused : Prop}
    {blockHash : BlockHash} (b : Batch) (effect : ConsensusEffect) (rest : List ConsensusEffect)
    (h : Quiet start excused blockHash { b with queue := effect :: rest }) :
    Quiet start excused blockHash ({ b with queue := rest }.turn pf effect) := by
  have heffect : VotingEffect effect := h.votingEffects effect List.mem_cons_self
  have hnocalls : ∀ call ∈ ([] : List NetworkCall), call.body ≠ .blockApproved blockHash :=
    fun _ hmem => absurd hmem List.not_mem_nil
  cases effect with
  | stageClientTransaction clientTx => exact h.turn_stageClientTransaction
  | broadcastClientTransaction clientTx =>
      refine h.turn_plain ⟨fun _ h => h, fun h => h, rfl⟩ ?_ rfl rfl
      intro call hmem heq
      rw [List.mem_singleton.mp hmem] at heq
      cases heq
  | proposeBlock proposed => exact h.turn_proposeBlock
  | commitBlock committed =>
      exact h.turn_plain (commitBlock_advances pf b.effects committed) hnocalls rfl rfl
  | rollbackBlock rolledBack =>
      exact h.turn_plain (rollbackBlock_advances pf b.effects rolledBack) hnocalls rfl rfl
  | broadcast body =>
      have hadvances : Advances b.effects (b.effects.executeEffect pf b.consensus
          (.broadcast body)).effects [.broadcast body b.effects.peerId] :=
        ⟨fun _ h => h, fun h => h, rfl⟩
      by_cases hbody : body = .blockApproved blockHash
      · refine h.turn_of _ hadvances h.voting ?_ ?_
        · exact fun _ hmem => absurd hmem List.not_mem_nil
        · exact Or.inr (Or.inr (Or.inl (by rw [hbody])))
      · refine h.turn_plain hadvances ?_ rfl rfl
        intro call hmem heq
        rw [List.mem_singleton.mp hmem] at heq
        exact hbody heq
  | stageRaftEntries | sendRaftAppendEntries | send => exact absurd heffect id

/-- Fetching a block by synchronization sends nothing. -/
theorem applySynchronizedBlock_advances (pf : Platform) (effects : PeerEffects)
    (block : BlockFile) : Advances effects (effects.applySynchronizedBlock pf block).1 [] := by
  unfold applySynchronizedBlock
  split
  · exact Advances.refl effects
  · simp only
    rcases BlockKeeper.addExternalBlock_cases pf
      (effects.applyBlockTransactions block).blockKeeper block with
      ⟨e, -, heq⟩ | ⟨-, hok, hstages⟩
    · rw [heq]
      exact ⟨fun _ h => h, fun h => h, (List.append_nil _).symm⟩
    · split
      · rename_i k e hk
        rw [hk] at hok
        cases hok
      · rename_i k hk
        rw [hk] at hstages
        have hstaged : Advances effects
            { effects.applyBlockTransactions block with blockKeeper := k } [] :=
          ⟨fun b hb => hstages.seen hb, hstages.accounted, (List.append_nil _).symm⟩
        have hcommit := commitKeeper_advances pf
          { effects.applyBlockTransactions block with blockKeeper := k } block.hash
        split
        · rename_i k' e hk'
          rw [hk'] at hcommit
          exact hstaged.trans (hcommit effects.lastCompletedBlock)
        · rename_i k' hk'
          rw [hk'] at hcommit
          exact hstaged.trans (hcommit block.hash)

end PeerEffects

-- ============================================================================
-- One event
-- ============================================================================

namespace Peer

open PeerEffects (Advances VotingEffect BallotsUndecided)

/-- A voting peer as it can come about: its open ballots have not reached the
    quorum, and what it has staged it has seen. -/
structure VotingSound (p : Peer) : Prop where
  voting : ∃ peerId votings, p.consensus = .voting peerId votings ∧ BallotsUndecided votings
  accounted : p.effects.blockKeeper.Accounted

theorem startVoting_sound (pf : Platform) (id : PeerId) (network : Network) (dir : BlockDir)
    (mempoolSize : Nat) (walk : HashMap.Walk BlockHash BlockFile) (signingKey : SigningKey) :
    (startVoting pf id network dir mempoolSize walk signingKey).VotingSound :=
  ⟨⟨id, ∅, rfl, fun _ _ h => by cases h⟩, BlockKeeper.new_accounted pf dir mempoolSize walk⟩

/-- A proposal whose sender's approval completes the quorum of the ballot on its
    block. -/
def ProposalCompletes (p : Peer) (event : Event) (blockHash : BlockHash) : Prop :=
  ∃ message now draw blockFile signature publicKey peerId votings,
    event = .message message now draw ∧
      message.body = .blockProposal blockHash blockFile signature publicKey ∧
      p.consensus = .voting peerId votings ∧ p.effects.lastCompletedBlock ≠ blockHash ∧
      (Voting.ballot peerId votings p.effects.knownPeers blockHash).Completes message.from

/-- What an event does, as far as announcements of approvals go. -/
structure QuietStep (p p' : Peer) (blockHash : BlockHash) (completes : Prop) : Prop where
  sound : p'.VotingSound
  advances : ∃ calls, Advances p.effects p'.effects calls
  quiet : p'.effects.HasStaged blockHash ∨
    (p'.effects.Announced blockHash → p.effects.Announced blockHash ∨ completes)

theorem QuietStep.refl {p : Peer} (h : p.VotingSound) (blockHash : BlockHash) (completes : Prop) :
    QuietStep p p blockHash completes :=
  ⟨h, ⟨[], Advances.refl p.effects⟩, Or.inr Or.inl⟩

/-- Executing the answer of the voting engine. -/
theorem answer_quietStep {pf : Platform} {p : Peer} {peerId : PeerId} {votings : Voting.Votings}
    {queue : List ConsensusEffect} {blockHash : BlockHash} {completes : Prop}
    (haccounted : p.effects.blockKeeper.Accounted) (hundecided : BallotsUndecided votings)
    (hvoting : ∀ effect ∈ queue, VotingEffect effect)
    (hquiet : p.effects.HasStaged blockHash ∨ completes ∨
      (.broadcast (.blockApproved blockHash) ∉ queue ∧ .proposeBlock blockHash ∉ queue)) :
    QuietStep p (p.answer pf (.voting peerId votings, .ok queue)).1 blockHash completes := by
  obtain ⟨heffects, hconsensus⟩ := answer_ok pf p (.voting peerId votings) queue
  have hstart : PeerEffects.Quiet p.effects (completes ∨ p.effects.Announced blockHash) blockHash
      { effects := p.effects, consensus := .voting peerId votings, queue, errors := [] } := by
    refine ⟨⟨[], Advances.refl _⟩, ⟨peerId, votings, rfl, hundecided⟩, haccounted, hvoting, ?_⟩
    by_cases hannounced : p.effects.Announced blockHash
    · exact Or.inl (Or.inr hannounced)
    · rcases hquiet with hstaged | hcompletes | hqueue
      · exact Or.inr (Or.inl hstaged)
      · exact Or.inl (Or.inl hcompletes)
      · exact Or.inr (Or.inr ⟨hannounced, hqueue⟩)
  obtain ⟨b, hb, -, hall⟩ := PeerEffects.executeAll_preserves PeerEffects.Quiet.turn hstart
  rw [hall] at heffects hconsensus
  obtain ⟨calls, hadvances⟩ := hb.advances
  refine ⟨⟨?_, ?_⟩, ⟨calls, ?_⟩, ?_⟩
  · rw [hconsensus]
    exact hb.voting
  · rw [heffects]
    exact hb.accounted
  · rw [heffects]
    exact hadvances
  · rw [heffects]
    rcases hb.quiet with (hcompletes | hannounced) | hstaged | ⟨hnot, -⟩
    · exact Or.inr fun _ => Or.inr hcompletes
    · exact Or.inr fun _ => Or.inl hannounced
    · exact Or.inl hstaged
    · exact Or.inr fun h => absurd h hnot

/-- An event that changes the services before the engine is asked. -/
theorem QuietStep.after {p p' : Peer} {effects : PeerEffects} {calls : List NetworkCall}
    {blockHash : BlockHash} {completes : Prop} (hadvances : Advances p.effects effects calls)
    (hcalls : ∀ call ∈ calls, call.body ≠ .blockApproved blockHash)
    (h : QuietStep { p with effects } p' blockHash completes) :
    QuietStep p p' blockHash completes := by
  obtain ⟨hsound, ⟨calls', hadvances'⟩, hquiet⟩ := h
  refine ⟨hsound, ⟨calls ++ calls', hadvances.trans hadvances'⟩, ?_⟩
  refine hquiet.imp_right fun hquiet hannounced => (hquiet hannounced).imp_left fun hold => ?_
  rcases (hadvances.announced_iff blockHash).mp hold with hold | ⟨call, hmem, hbody⟩
  · exact hold
  · exact absurd hbody (hcalls call hmem)

theorem processClientTransaction_quietStep {pf : Platform} {p : Peer} (h : p.VotingSound)
    (clientTx : SignedTransaction) (blockHash : BlockHash) (completes : Prop) :
    QuietStep p (p.processClientTransaction pf clientTx).1 blockHash completes := by
  obtain ⟨peerId, votings, hconsensus, hundecided⟩ := h.voting
  unfold processClientTransaction
  split
  · exact QuietStep.refl h blockHash completes
  · simp only [hconsensus, ConsensusEngine.onClientTransaction]
    apply answer_quietStep h.accounted hundecided
    · intro effect hmem
      simp only [Voting.onClientTransaction, List.mem_cons, List.not_mem_nil, or_false] at hmem
      rcases hmem with rfl | rfl <;> trivial
    · refine Or.inr (Or.inr ⟨?_, ?_⟩) <;> simp [Voting.onClientTransaction]

theorem synchronizeTransaction_quietStep {pf : Platform} {p : Peer} (h : p.VotingSound)
    (verifiedTx : VerifiedTransaction) (blockHash : BlockHash) (completes : Prop) :
    QuietStep p (p.synchronizeTransaction pf verifiedTx).1 blockHash completes := by
  obtain ⟨peerId, votings, hconsensus, hundecided⟩ := h.voting
  unfold synchronizeTransaction
  split
  · exact QuietStep.refl h blockHash completes
  · obtain ⟨hadvances, hcreated⟩ :=
      PeerEffects.stageClientTransaction_advances pf p.effects verifiedTx.clientTx
    have hnocalls : ∀ call ∈ ([] : List NetworkCall), call.body ≠ .blockApproved blockHash :=
      fun _ hmem => absurd hmem List.not_mem_nil
    have hsound : ∀ effects, Advances p.effects effects [] →
        VotingSound { p with effects } := fun effects hadvances =>
      ⟨⟨peerId, votings, hconsensus, hundecided⟩, hadvances.accounted h.accounted⟩
    split
    · rename_i effects e hstage
      rw [hstage] at hadvances
      exact (QuietStep.refl (hsound effects hadvances) blockHash completes).after hadvances hnocalls
    · rename_i effects hstage
      rw [hstage] at hadvances
      exact (QuietStep.refl (hsound effects hadvances) blockHash completes).after hadvances hnocalls
    · rename_i effects created hstage
      rw [hstage] at hadvances hcreated
      apply QuietStep.after hadvances hnocalls
      simp only [hconsensus, ConsensusEngine.onBlockCreated, Voting.onBlockCreated]
      apply answer_quietStep (hadvances.accounted h.accounted) hundecided
      · intro effect hmem
        rw [List.mem_singleton.mp hmem]
        trivial
      · by_cases heq : created = blockHash
        · exact Or.inl (heq ▸ hcreated created rfl)
        · refine Or.inr (Or.inr ⟨?_, ?_⟩)
          · simp
          · simpa using fun h => heq h.symm

/-- A vote of the voting engine on a block, executed. -/
theorem vote_quietStep {pf : Platform} {p : Peer} {peerId : PeerId} {votings : Voting.Votings}
    (haccounted : p.effects.blockKeeper.Accounted) (hundecided : BallotsUndecided votings)
    (knownPeers : List PeerId) (voted : BlockHash) (src : PeerId) (approve : Bool)
    {blockHash : BlockHash} {completes : Prop}
    (h : p.effects.HasStaged blockHash ∨ completes ∨ voted ≠ blockHash ∨
      (Voting.ballot peerId votings knownPeers voted).voteOutcome src approve ≠ .approved) :
    QuietStep p
      (p.answer pf (ConsensusEngine.ofVoting peerId
        (Voting.handleVotingVote peerId votings knownPeers voted src approve))).1
      blockHash completes := by
  have heffects := Voting.handleVotingVote_effects peerId votings knownPeers voted src approve
  apply answer_quietStep haccounted
    (hundecided.handleVotingVote peerId knownPeers voted src approve)
  · rw [heffects]
    exact fun effect hmem => (PeerEffects.outcomeEffects_voting hmem).1
  · refine h.imp_right fun h => h.imp_right fun h => ?_
    rw [heffects]
    refine ⟨fun hmem => ?_, fun hmem => (PeerEffects.outcomeEffects_voting hmem).2.1 _ rfl⟩
    obtain ⟨hhash, happroved⟩ := (PeerEffects.outcomeEffects_voting hmem).2.2 blockHash rfl
    exact h.elim (fun hne => hne hhash.symm) fun hne => hne happroved

/-- A peer's check of a proposed block sends nothing, and what passes it is staged. -/
theorem validateProposal_advances (pf : Platform) (p : Peer) (blockHash : BlockHash)
    (blockFile : Bytes) (signature : Signature) (publicKey : VerifyingKey) :
    Advances p.effects (p.validateProposal pf blockHash blockFile signature publicKey).1 [] ∧
      (p.validateProposal pf blockHash blockFile signature publicKey).1.knownPeers =
        p.effects.knownPeers ∧
      ((p.validateProposal pf blockHash blockFile signature publicKey).2 = .ok true →
        (p.validateProposal pf blockHash blockFile signature publicKey).1.HasStaged
          blockHash) := by
  unfold validateProposal
  split
  · rename_i block hverify
    obtain ⟨hadvances, hstaged⟩ := PeerEffects.stageExternalBlock_advances pf p.effects block
    refine ⟨hadvances, ?_, ?_⟩
    · unfold PeerEffects.stageExternalBlock
      split
      · rfl
      · simp only
        split <;> rfl
    · rw [← (BlockFile.verifyBlockVec_ok hverify).1]
      exact hstaged
  · exact ⟨Advances.refl p.effects, rfl, fun h => by cases h⟩

theorem processBlockProposal_quietStep {pf : Platform} {p : Peer} (h : p.VotingSound)
    {message : Message} {now : Instant} {draw : Nat} {proposed : BlockHash} {blockFile : Bytes}
    {signature : Signature} {publicKey : VerifyingKey}
    (hbody : message.body = .blockProposal proposed blockFile signature publicKey)
    (blockHash : BlockHash) :
    QuietStep p
      (p.processBlockProposal pf proposed blockFile signature publicKey message.from).1
      blockHash (p.ProposalCompletes (.message message now draw) blockHash) := by
  obtain ⟨peerId, votings, hconsensus, hundecided⟩ := h.voting
  unfold processBlockProposal
  split
  · exact QuietStep.refl h blockHash _
  · rename_i hlast
    obtain ⟨hadvances, hknown, hstaged⟩ :=
      validateProposal_advances pf p proposed blockFile signature publicKey
    have hnocalls : ∀ call ∈ ([] : List NetworkCall), call.body ≠ .blockApproved blockHash :=
      fun _ hmem => absurd hmem List.not_mem_nil
    split
    · rename_i effects e hvalidate
      rw [hvalidate] at hadvances
      have hsound : VotingSound { p with effects } :=
        ⟨⟨peerId, votings, hconsensus, hundecided⟩, hadvances.accounted h.accounted⟩
      exact (QuietStep.refl hsound blockHash _).after hadvances hnocalls
    · rename_i effects isOk hvalidate
      rw [hvalidate] at hadvances hknown hstaged
      apply QuietStep.after hadvances hnocalls
      simp only [hconsensus, ConsensusEngine.onBlockProposalValidated,
        Voting.onBlockProposalValidated_eq]
      split
      · -- The proposer's approval left the ballot open: the peer's own verdict counts.
        apply vote_quietStep (hadvances.accounted h.accounted)
          (hundecided.handleVotingVote peerId effects.knownPeers proposed message.from true)
        cases isOk with
        | true =>
            by_cases heq : proposed = blockHash
            · exact Or.inl (heq ▸ hstaged rfl)
            · exact Or.inr (Or.inr (Or.inl heq))
        | false =>
            refine Or.inr (Or.inr (Or.inr ?_))
            apply VotingConsensus.voteOutcome_false_ne_approved
            exact (hundecided.handleVotingVote peerId effects.knownPeers proposed message.from
              true).ballot peerId effects.knownPeers proposed
      · apply vote_quietStep (hadvances.accounted h.accounted) hundecided
        by_cases heq : proposed = blockHash
        · subst heq
          by_cases happroved : (Voting.ballot peerId votings effects.knownPeers
              proposed).voteOutcome message.from true = .approved
          · refine Or.inr (Or.inl ⟨message, now, draw, blockFile, signature, publicKey, peerId,
              votings, rfl, hbody, hconsensus, hlast, ?_⟩)
            rw [← hknown]
            exact VotingConsensus.voteOutcome_true_eq_approved.mp happroved
          · exact Or.inr (Or.inr (Or.inr happroved))
        · exact Or.inr (Or.inr (Or.inl heq))

theorem processBlockVote_quietStep {pf : Platform} {p : Peer} (h : p.VotingSound)
    (voted : BlockHash) (src : PeerId) (approve : Bool) (blockHash : BlockHash)
    (completes : Prop) :
    QuietStep p (p.processBlockVote pf voted src approve).1 blockHash completes := by
  obtain ⟨peerId, votings, hconsensus, hundecided⟩ := h.voting
  unfold processBlockVote
  split
  · exact QuietStep.refl h blockHash completes
  · cases hlookup : p.effects.blockKeeper.getUncommitedBlock voted with
    | none =>
        simp only [PeerEffects.ensureUncommittedBlock, hlookup]
        exact QuietStep.refl h blockHash completes
    | some block =>
        simp only [PeerEffects.ensureUncommittedBlock, hlookup, hconsensus,
          ConsensusEngine.onBlockVote, Voting.onBlockVote]
        apply vote_quietStep h.accounted hundecided
        by_cases heq : voted = blockHash
        · obtain ⟨hhash, hseen⟩ := h.accounted voted block hlookup
          exact Or.inl ⟨block, hseen, hhash.trans heq⟩
        · exact Or.inr (Or.inr (Or.inl heq))

/-- A voting peer starts to announce its approval of a block only when it has staged
    it, or when a proposal of it completes the quorum. -/
theorem handle_quietStep (pf : Platform) {p : Peer} (h : p.VotingSound) (event : Event)
    (blockHash : BlockHash) :
    QuietStep p (p.handle pf event) blockHash (p.ProposalCompletes event blockHash) := by
  obtain ⟨peerId, votings, hconsensus, hundecided⟩ := h.voting
  have hidle : ∀ completes : Prop, QuietStep p
      (p.answer pf (.voting peerId votings, .ok [])).1 blockHash completes := fun completes =>
    answer_quietStep h.accounted hundecided (fun _ hmem => absurd hmem List.not_mem_nil)
      (Or.inr (Or.inr ⟨List.not_mem_nil, List.not_mem_nil⟩))
  cases event with
  | message message now draw =>
      simp only [handle, handleMessage]
      split
      · exact processClientTransaction_quietStep h _ blockHash _
      · exact synchronizeTransaction_quietStep h _ blockHash _
      · rename_i hbody
        exact processBlockProposal_quietStep h hbody blockHash
      · exact processBlockVote_quietStep h _ _ _ blockHash _
      · exact processBlockVote_quietStep h _ _ _ blockHash _
      · simp only [hconsensus, ConsensusEngine.onMessage]
        split
        all_goals first
          | exact hidle _
          | exact ⟨⟨⟨peerId, votings, rfl, hundecided⟩, h.accounted⟩,
              ⟨[], Advances.refl p.effects⟩, Or.inr Or.inl⟩
  | tick now =>
      simp only [handle, handleTick, hconsensus, ConsensusEngine.onTick]
      exact hidle _
  | synchronized block =>
      have hadvances := PeerEffects.applySynchronizedBlock_advances pf p.effects block
      refine ⟨⟨⟨peerId, votings, hconsensus, hundecided⟩, hadvances.accounted h.accounted⟩,
        ⟨[], hadvances⟩, Or.inr fun hannounced => ?_⟩
      rcases (hadvances.announced_iff blockHash).mp hannounced with hold | ⟨call, hmem, -⟩
      · exact Or.inl hold
      · exact absurd hmem List.not_mem_nil
  | discovered knownPeers =>
      exact ⟨⟨⟨peerId, votings, hconsensus, hundecided⟩, h.accounted⟩,
        ⟨[], ⟨fun _ h => h, fun h => h, (List.append_nil _).symm⟩⟩, Or.inr Or.inl⟩

/-- The check of a proposed block always comes to a verdict: a block that verified
    is never refused by `add_external_block`. -/
theorem validateProposal_ok (pf : Platform) (p : Peer) (blockHash : BlockHash)
    (blockFile : Bytes) (signature : Signature) (publicKey : VerifyingKey) :
    ∃ isOk, (p.validateProposal pf blockHash blockFile signature publicKey).2 = .ok isOk := by
  unfold validateProposal
  split
  · rename_i block hverify
    unfold PeerEffects.stageExternalBlock
    split
    · exact ⟨false, rfl⟩
    · simp only
      rcases BlockKeeper.addExternalBlock_cases pf
        (p.effects.applyBlockTransactions block).blockKeeper block with
        ⟨e, hbad, -⟩ | ⟨-, hok, -⟩
      · rw [(BlockFile.verifyBlockVec_ok hverify).2] at hbad
        cases hbad
      · split
        · exact ⟨true, rfl⟩
        · rename_i k e hk
          rw [hk] at hok
          cases hok
  · exact ⟨false, rfl⟩

/-- A proposal whose sender's approval completes the quorum is announced as
    approved, whatever the peer's own check says and whether or not the block can be
    committed. -/
theorem announced_of_proposalCompletes {pf : Platform} {p : Peer} {event : Event}
    {blockHash : BlockHash} (h : p.ProposalCompletes event blockHash) :
    (p.handle pf event).effects.Announced blockHash := by
  obtain ⟨message, now, draw, blockFile, signature, publicKey, peerId, votings, rfl, hbody,
    hconsensus, hlast, hcompletes⟩ := h
  obtain ⟨-, hknown, -⟩ := validateProposal_advances pf p blockHash blockFile signature publicKey
  obtain ⟨isOk, hverdict⟩ := validateProposal_ok pf p blockHash blockFile signature publicKey
  generalize hvalidate : p.validateProposal pf blockHash blockFile signature publicKey = result
    at hknown hverdict
  obtain ⟨effects, verdict⟩ := result
  subst hverdict
  have happroved : (Voting.ballot peerId votings effects.knownPeers blockHash).voteOutcome
      message.from true = .approved := by
    rw [hknown]
    exact VotingConsensus.voteOutcome_true_eq_approved.mpr hcompletes
  simp only [handle, handleMessage, hbody, processBlockProposal, if_neg hlast, hvalidate,
    hconsensus, ConsensusEngine.onBlockProposalValidated, Voting.onBlockProposalValidated_eq,
    happroved, reduceCtorEq, if_false]
  rw [ConsensusEngine.ofVoting, Voting.handleVotingVote_effects, happroved, (answer_ok pf _ _ _).1]
  exact ⟨.broadcast (.blockApproved blockHash) _,
    List.mem_append_right _ (List.mem_singleton_self _), rfl⟩

-- ============================================================================
-- Runs
-- ============================================================================

/-- An announcement stays made. -/
theorem announced_handle {pf : Platform} {p : Peer} (h : p.VotingSound) (event : Event)
    {blockHash : BlockHash} (hannounced : p.effects.Announced blockHash) :
    (p.handle pf event).effects.Announced blockHash := by
  obtain ⟨calls, hadvances⟩ := (handle_quietStep pf h event blockHash).advances
  exact (hadvances.announced_iff blockHash).mpr (Or.inl hannounced)

/-- A run of a voting peer keeps it sound, and what was staged stays staged at some
    time. -/
theorem run_sound {pf : Platform} {p : Peer} (h : p.VotingSound) (events : List Event) :
    (p.run pf events).VotingSound ∧ ∀ blockHash, p.effects.HasStaged blockHash →
      (p.run pf events).effects.HasStaged blockHash := by
  induction events generalizing p with
  | nil => exact ⟨h, fun _ hstaged => hstaged⟩
  | cons event events ih =>
      have hstep := handle_quietStep pf h event
      obtain ⟨hsound, hmono⟩ := ih (hstep 0).sound
      refine ⟨hsound, fun blockHash hstaged => hmono blockHash ?_⟩
      obtain ⟨calls, hadvances⟩ := (hstep blockHash).advances
      exact hadvances.hasStaged hstaged

/-- The run passes a proposal that completes the quorum for the block. -/
def RunCompletes (pf : Platform) (p : Peer) (events : List Event) (blockHash : BlockHash) : Prop :=
  ∃ before event after, events = before ++ event :: after ∧
    (p.run pf before).ProposalCompletes event blockHash

/-- A run that never stages a block announces its approval of it if and only if it
    did before or passes a proposal that completes the quorum. -/
theorem run_announced_iff {pf : Platform} {p : Peer} (h : p.VotingSound) (events : List Event)
    {blockHash : BlockHash} (hstaged : ¬ (p.run pf events).effects.HasStaged blockHash) :
    (p.run pf events).effects.Announced blockHash ↔
      p.effects.Announced blockHash ∨ RunCompletes pf p events blockHash := by
  induction events generalizing p with
  | nil =>
      refine ⟨Or.inl, fun h => h.resolve_right ?_⟩
      rintro ⟨before, event, after, heq, -⟩
      exact absurd heq.symm (List.append_ne_nil_of_right_ne_nil _ (List.cons_ne_nil _ _))
  | cons event events ih =>
      have hstep := handle_quietStep pf h event blockHash
      have hnot : ¬ (p.handle pf event).effects.HasStaged blockHash := fun hnow =>
        hstaged ((run_sound hstep.sound events).2 blockHash hnow)
      have hfirst : (p.handle pf event).effects.Announced blockHash ↔
          p.effects.Announced blockHash ∨ p.ProposalCompletes event blockHash := by
        refine ⟨hstep.quiet.resolve_left hnot, fun h' => h'.elim ?_ ?_⟩
        · exact announced_handle h event
        · exact announced_of_proposalCompletes
      have hlater : RunCompletes pf p (event :: events) blockHash ↔
          p.ProposalCompletes event blockHash ∨
            RunCompletes pf (p.handle pf event) events blockHash := by
        constructor
        · rintro ⟨before, event', after, heq, hcompletes⟩
          cases before with
          | nil =>
              cases heq
              exact Or.inl hcompletes
          | cons first before =>
              rw [List.cons_append, List.cons.injEq] at heq
              obtain ⟨rfl, heq⟩ := heq
              exact Or.inr ⟨before, event', after, heq, hcompletes⟩
        · rintro (hcompletes | ⟨before, event', after, rfl, hcompletes⟩)
          · exact ⟨[], event, events, rfl, hcompletes⟩
          · exact ⟨event :: before, event', after, rfl, hcompletes⟩
      rw [hlater, ← or_assoc, ← hfirst]
      exact ih hstep.sound hstaged

/-- A voting peer never announces its approval of a block it never staged, if and
    only if at no step of its run the approval implied by a proposal of the block
    completes the quorum. -/
theorem never_announced_iff (pf : Platform) (id : PeerId) (knownPeers : List PeerId)
    (dir : BlockDir) (mempoolSize : Nat) (walk : HashMap.Walk BlockHash BlockFile)
    (signingKey : SigningKey) (events : List Event) (blockHash : BlockHash)
    (hstaged : ¬ ((startVoting pf id { knownPeers, calls := [] } dir mempoolSize walk
      signingKey).run pf events).effects.HasStaged blockHash) :
    ¬ ((startVoting pf id { knownPeers, calls := [] } dir mempoolSize walk
        signingKey).run pf events).effects.Announced blockHash ↔
      ∀ before event after, events = before ++ event :: after →
        ¬ ((startVoting pf id { knownPeers, calls := [] } dir mempoolSize walk
          signingKey).run pf before).ProposalCompletes event blockHash := by
  have hsound := startVoting_sound pf id { knownPeers, calls := [] } dir mempoolSize walk signingKey
  rw [run_announced_iff hsound events hstaged]
  have hfresh : ¬ (startVoting pf id { knownPeers, calls := [] } dir mempoolSize walk
      signingKey).effects.Announced blockHash := by
    rintro ⟨call, hmem, -⟩
    exact absurd hmem List.not_mem_nil
  simp only [hfresh, false_or, RunCompletes, not_exists, not_and]

end Peer

namespace Reference

/-- A block on a parent that no peer has. -/
def strayBlock : BlockFile := .create platform [] 9 1

/-- Peer 2's proposal of it. -/
def strayProposal : Peer.Event :=
  .message
    { «from» := 2
      «to» := 1
      body := .blockProposal strayBlock.hash (platform.encodeBlock strayBlock)
        (platform.sign [2] (platform.encodeBlock strayBlock)) [2] } 0 0

/-- A new voting peer 1 that knows the given peers. -/
def votingPeer (knownPeers : List PeerId) : Peer :=
  .startVoting platform 1 { knownPeers, calls := [] } (.empty "data/peer_1") 1 (.listed _ _) [1]

end Reference

namespace Peer

/-- Among four peers the proposer's approval does not complete the quorum, and a stray
    proposal is not announced as approved. -/
theorem never_announced_four :
    let p := Reference.votingPeer [2, 3, 4]
    let blockHash := Reference.strayBlock.hash
    ¬ (p.run Reference.platform [Reference.strayProposal]).effects.HasStaged blockHash ∧
      (∀ before event after, [Reference.strayProposal] = before ++ event :: after →
        ¬ (p.run Reference.platform before).ProposalCompletes event blockHash) ∧
      ¬ (p.run Reference.platform [Reference.strayProposal]).effects.Announced blockHash := by
  intro p blockHash
  have hstaged :
      ¬ (p.run Reference.platform [Reference.strayProposal]).effects.HasStaged blockHash := by
    decide +kernel
  have hcondition : ∀ before event after, [Reference.strayProposal] = before ++ event :: after →
      ¬ (p.run Reference.platform before).ProposalCompletes event blockHash := by
    rintro (_ | ⟨first, before⟩) event after hevents
    · obtain ⟨rfl, -⟩ := List.cons.inj hevents
      rintro ⟨_, _, _, _, _, _, _, _, hmessage, -, hvoting, -, hcompletes⟩
      cases hmessage
      cases hvoting
      have hquorum := hcompletes.quorum
      revert hquorum
      decide +kernel
    · exact absurd (List.cons.inj hevents).2 (by simp)
  exact ⟨hstaged, hcondition, (never_announced_iff Reference.platform 1 [2, 3, 4]
    (.empty "data/peer_1") 1 (.listed _ _) [1] [Reference.strayProposal] blockHash hstaged).mpr
    hcondition⟩

/-- Between two peers it is: the block verifies, cannot be staged, is neither staged
    nor committed, and its approval is announced all the same. -/
theorem announced_never_staged :
    BlockFile.verifyBlockVec Reference.platform Reference.strayBlock.hash
        (Reference.platform.encodeBlock Reference.strayBlock)
        (Reference.platform.sign [2] (Reference.platform.encodeBlock Reference.strayBlock)) [2] =
          .ok Reference.strayBlock ∧
      (Reference.votingPeer [2]).effects.blockKeeper.blockCanBeAdded Reference.strayBlock =
        false ∧
      (Reference.votingPeer [2]).effects.blockKeeper.blockStorageState.blockHeight = 0 ∧
      ¬ ((Reference.votingPeer [2]).run Reference.platform
        [Reference.strayProposal]).effects.HasStaged Reference.strayBlock.hash ∧
      ((Reference.votingPeer [2]).run Reference.platform
        [Reference.strayProposal]).effects.Announced Reference.strayBlock.hash := by
  decide +kernel

end Peer
end Rustchain
