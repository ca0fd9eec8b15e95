/-
  Rustchain.Peer.Truncation

  What rolling back the blocks of a truncated log restores.

  `append_entries` collects the hashes of the entries it discards in log order, and
  the peer rolls the blocks back in that order: the oldest first, each block from its
  end.  A block that spends what an older discarded block credited is undone after
  it, too late for the saturating subtraction.  The balances come back if and only if
  every block could have been executed without the older ones.
-/

import Rustchain.Consensus.Raft.MergeRule
import Rustchain.Peer.Acknowledge
import Rustchain.Peer.Unwinding
import Rustchain.Storage.Retention

namespace Rustchain

/-- The transactions of the blocks, the newest block first. -/
def newestFirst (blocks : List BlockFile) : List SignedTransaction :=
  blocks.reverse.flatMap BlockFile.transactions

namespace TransactionProcessor

theorem rollbackTransactions_append (tp : TransactionProcessor)
    (txs txs' : List SignedTransaction) :
    tp.rollbackTransactions (txs ++ txs') =
      (tp.rollbackTransactions txs').rollbackTransactions txs := by
  rw [rollbackTransactions, List.reverse_append, List.foldl_append]
  rfl

/-- Rolling blocks back, the oldest first. -/
theorem foldl_rollbackTransactions (blocks : List BlockFile) (tp : TransactionProcessor) :
    blocks.foldl (fun tp block => tp.rollbackTransactions block.transactions) tp =
      tp.rollbackTransactions (newestFirst blocks) := by
  induction blocks generalizing tp with
  | nil => rfl
  | cons block blocks ih =>
      have hcons : newestFirst (block :: blocks) = newestFirst blocks ++ block.transactions := by
        rw [newestFirst, List.reverse_cons, List.flatMap_append, List.flatMap_singleton]
        rfl
      rw [List.foldl_cons, ih, hcons, rollbackTransactions_append]

theorem eq_of_entries {tp tp' : TransactionProcessor}
    (haccounts : tp.accounts.entries = tp'.accounts.entries)
    (happlied : tp.appliedTransactions = tp'.appliedTransactions) : tp = tp' := by
  obtain ⟨accounts, applied⟩ := tp
  obtain ⟨accounts', applied'⟩ := tp'
  cases AList.ext haccounts
  cases happlied
  rfl

end TransactionProcessor

namespace PeerEffects

open TransactionProcessor

-- ============================================================================
-- Blocks staged one after the other
-- ============================================================================

/-- The blocks are staged, each under its own hash, and the ledger is the one that
    `apply_block_transactions` makes of `before`, block by block. -/
structure StagedSince (before : TransactionProcessor) (effects : PeerEffects)
    (blocks : List BlockFile) : Prop where
  staged : ∀ block ∈ blocks,
    effects.blockKeeper.getUncommitedBlock block.hash = some block
  received : ∀ block ∈ blocks, block ∈ effects.blockKeeper.received
  distinct : (blocks.map BlockFile.hash).Nodup
  ledger : effects.transactionProcessor =
    (before.processEach (blocks.flatMap BlockFile.transactions)).1

theorem StagedSince.nil (effects : PeerEffects) :
    StagedSince effects.transactionProcessor effects [] where
  staged _ hmem := absurd hmem List.not_mem_nil
  received _ hmem := absurd hmem List.not_mem_nil
  distinct := List.nodup_nil
  ledger := rfl

section Stage

variable {pf : Platform} {before : TransactionProcessor} {effects : PeerEffects}
  {blocks : List BlockFile}

/-- Staging one more block. -/
theorem StagedSince.stage (h : StagedSince before effects blocks) {block : BlockFile}
    (hverify : block.verifyBlock pf = .ok ())
    (hnew : block.hash ∉ effects.blockKeeper.uncommitedBlocks) :
    StagedSince before
      { effects.applyBlockTransactions block with
        blockKeeper := (effects.blockKeeper.addExternalBlock pf block).1 } (blocks ++ [block]) := by
  have hstages := BlockKeeper.addExternalBlock_stages effects.blockKeeper hverify
  have hne : ∀ other ∈ blocks, other.hash ≠ block.hash := by
    intro other hmem heq
    have hstaged : effects.blockKeeper.uncommitedBlocks.lookup other.hash = some other :=
      h.staged other hmem
    rw [heq] at hstaged
    exact hnew (AList.lookup_isSome.mp (by rw [hstaged]; rfl))
  constructor
  · intro other hmem
    show (effects.blockKeeper.addExternalBlock pf block).1.uncommitedBlocks.lookup other.hash =
      some other
    rw [hstages.uncommitedBlocks]
    rcases List.mem_append.mp hmem with hmem | hmem
    · rw [AList.lookup_insert_ne (hne other hmem)]
      exact h.staged other hmem
    · rw [List.mem_singleton.mp hmem, AList.lookup_insert]
  · intro other hmem
    show other ∈ (effects.blockKeeper.addExternalBlock pf block).1.received
    rw [hstages.received, List.mem_append]
    exact (List.mem_append.mp hmem).imp_left (h.received other)
  · rw [List.map_append, List.map_singleton, List.nodup_append]
    refine ⟨h.distinct, List.nodup_singleton _, ?_⟩
    intro hash hmem other hother
    obtain ⟨b, hb, rfl⟩ := List.mem_map.mp hmem
    rw [List.mem_singleton.mp hother]
    exact hne b hb
  · show (effects.applyBlockTransactions block).transactionProcessor = _
    rw [applyBlockTransactions_processor, h.ledger, List.flatMap_append, List.flatMap_singleton,
      processEach_fst, processEach_fst, processEach_fst, List.foldl_append]

/-- `stage_raft_entries` stages the blocks of its entries one after the other, if none
    of them is staged yet. -/
theorem StagedSince.stageRaftEntries (h : StagedSince before effects blocks)
    {entries : List RaftLogEntry} {r : RaftConsensus} {effects' : PeerEffects}
    {consensus : ConsensusEngine} (hpayloads : RaftConsensus.Payloads pf r.pendingBlocks)
    (hnew : ∀ blockHash ∈ blockHashes entries,
      blockHash ∉ effects.blockKeeper.uncommitedBlocks)
    (hdistinct : (blockHashes entries).Nodup)
    (hstage : effects.stageRaftEntries pf (.raft r) entries = (effects', consensus, .ok ())) :
    ∃ staged : List BlockFile, staged.map BlockFile.hash = blockHashes entries ∧
      StagedSince before effects' (blocks ++ staged) := by
  induction entries generalizing effects r blocks with
  | nil =>
      cases hstage
      exact ⟨[], rfl, by rwa [List.append_nil]⟩
  | cons entry entries ih =>
      by_cases hnoop : entry.isNoop = true
      · have hhashes : blockHashes (entry :: entries) = blockHashes entries := by
          rw [blockHashes, List.filter_cons_of_neg (by simpa using hnoop)]
          rfl
        rw [hhashes] at hnew hdistinct ⊢
        rw [PeerEffects.stageRaftEntries, if_pos hnoop] at hstage
        exact ih h hpayloads hnew hdistinct hstage
      have hhashes : blockHashes (entry :: entries) = entry.blockHash :: blockHashes entries := by
        rw [blockHashes, List.filter_cons_of_pos (by simpa using hnoop)]
        rfl
      rw [hhashes] at hnew hdistinct ⊢
      rw [List.nodup_cons] at hdistinct
      rw [Bool.not_eq_true] at hnoop
      have hentry := hnew _ List.mem_cons_self
      cases hpending : r.pendingBlocks.lookup entry.blockHash with
      | none =>
          simp [PeerEffects.stageRaftEntries, hnoop, ConsensusEngine.takePendingRaftBlock,
            RaftConsensus.takePendingBlock, hpending, BlockKeeper.getUncommitedBlock,
            AList.lookup_eq_none.mpr hentry] at hstage
      | some block =>
          obtain ⟨hhash, hverify⟩ := hpayloads _ _ hpending
          cases hadd : effects.blockKeeper.blockCanBeAdded block with
          | false =>
              obtain ⟨e, herror⟩ :=
                stageRaftEntries_refused pf entries hnoop hentry hpending hadd
              rw [herror] at hstage
              cases hstage
          | true =>
              rw [stageRaftEntries_added pf entries hnoop hentry hpending hverify hadd] at hstage
              have hstages := BlockKeeper.addExternalBlock_stages effects.blockKeeper hverify
              have hpayloads' : RaftConsensus.Payloads pf
                  (r.takePendingBlock entry.blockHash).1.pendingBlocks := by
                intro other b hlookup
                rw [RaftConsensus.takePendingBlock, HashMap.lookup_erase_ite] at hlookup
                split at hlookup
                · cases hlookup
                · exact hpayloads other b hlookup
              obtain ⟨staged, hstaged, hsince⟩ := ih (h.stage hverify (hhash ▸ hentry)) hpayloads'
                (by
                  intro blockHash hmem hin
                  rw [hstages.uncommitedBlocks, AList.mem_insert] at hin
                  rcases hin with heq | hin
                  · rw [hhash] at heq
                    exact hdistinct.1 (heq ▸ hmem)
                  · exact hnew blockHash (List.mem_cons_of_mem _ hmem) hin)
                hdistinct.2 hstage
              refine ⟨block :: staged, by rw [List.map_cons, hhash, hstaged], ?_⟩
              rwa [List.append_assoc] at hsince

/-- What `stage_raft_entries` leaves of entries whose blocks are new. -/
theorem stageRaftEntries_stagedSince {entries : List RaftLogEntry} {r : RaftConsensus}
    {effects' : PeerEffects} {consensus : ConsensusEngine}
    (hpayloads : RaftConsensus.Payloads pf r.pendingBlocks)
    (hnew : ∀ blockHash ∈ blockHashes entries,
      blockHash ∉ effects.blockKeeper.uncommitedBlocks)
    (hdistinct : (blockHashes entries).Nodup)
    (hstage : effects.stageRaftEntries pf (.raft r) entries = (effects', consensus, .ok ())) :
    ∃ staged : List BlockFile, staged.map BlockFile.hash = blockHashes entries ∧
      StagedSince effects.transactionProcessor effects' staged :=
  (StagedSince.nil effects).stageRaftEntries hpayloads hnew hdistinct hstage

end Stage

-- ============================================================================
-- Rolling them back
-- ============================================================================

/-- Executes the `RollbackBlock` effects for the hashes, in the order of the list. -/
def executeRollbacks (pf : Platform) (effects : PeerEffects) (consensus : ConsensusEngine)
    (hashes : List BlockHash) : PeerEffects :=
  hashes.foldl
    (fun effects blockHash =>
      (effects.executeEffect pf consensus (.rollbackBlock blockHash)).effects) effects

/-- The effect on a staged block. -/
theorem executeEffect_rollbackBlock {pf : Platform} {effects : PeerEffects}
    (consensus : ConsensusEngine) {blockHash : BlockHash} {block : BlockFile}
    (h : effects.blockKeeper.getUncommitedBlock blockHash = some block) :
    let executed := (effects.executeEffect pf consensus (.rollbackBlock blockHash)).effects
    executed.transactionProcessor =
        effects.transactionProcessor.rollbackTransactions block.transactions ∧
      executed.blockKeeper = (effects.blockKeeper.rollbackBlock pf blockHash).1 := by
  simp only [executeEffect, rollbackBlock, h]
  rcases effects.blockKeeper.rollbackBlock pf blockHash with ⟨blockKeeper, _ | _⟩
  · exact ⟨rfl, rfl⟩
  · exact ⟨rfl, rfl⟩

/-- Rolling back forgets no block that was seen. -/
theorem seen_executeEffect_rollbackBlock (pf : Platform) {effects : PeerEffects}
    (consensus : ConsensusEngine) (blockHash : BlockHash) {block : BlockFile}
    (h : effects.blockKeeper.Seen block) :
    (effects.executeEffect pf consensus (.rollbackBlock blockHash)).effects.blockKeeper.Seen
      block := by
  cases hstaged : effects.blockKeeper.getUncommitedBlock blockHash with
  | none =>
      simp only [executeEffect, rollbackBlock, hstaged]
      exact h
  | some staged =>
      rw [(executeEffect_rollbackBlock consensus hstaged).2]
      rcases BlockKeeper.rollbackBlock_cases pf effects.blockKeeper blockHash with
        ⟨-, e, heq⟩ | ⟨other, -, -, hpacks⟩
      · rw [heq]
        exact h
      · exact hpacks.seen h

theorem seen_executeRollbacks {pf : Platform} {consensus : ConsensusEngine}
    (hashes : List BlockHash) {effects : PeerEffects} {block : BlockFile}
    (h : effects.blockKeeper.Seen block) :
    (effects.executeRollbacks pf consensus hashes).blockKeeper.Seen block := by
  induction hashes generalizing effects with
  | nil => exact h
  | cons blockHash hashes ih => exact ih (seen_executeEffect_rollbackBlock pf consensus blockHash h)

/-- A block with these transactions is staged under the hash. -/
def StagedAs (effects : PeerEffects) (block : BlockFile) : Prop :=
  ∃ staged, effects.blockKeeper.getUncommitedBlock block.hash = some staged ∧
    staged.transactions = block.transactions

/-- Rolling another block back may pack a block again.  One that takes the place of a
    staged block has its transactions. -/
theorem StagedAs.executeEffect {pf : Platform} {effects : PeerEffects}
    {consensus : ConsensusEngine} {block other : BlockFile} (h : StagedAs effects block)
    (hother : StagedAs effects other) (hne : block.hash ≠ other.hash)
    (hseen : effects.blockKeeper.Seen block)
    (hfree : (effects.executeEffect pf consensus
      (.rollbackBlock other.hash)).effects.blockKeeper.Collisionless) :
    StagedAs (effects.executeEffect pf consensus (.rollbackBlock other.hash)).effects block := by
  obtain ⟨staged, hlookup, htransactions⟩ := h
  obtain ⟨rolledBack, hrolledBack, -⟩ := hother
  have hseen' := seen_executeEffect_rollbackBlock pf consensus other.hash hseen
  unfold StagedAs
  rw [(executeEffect_rollbackBlock consensus hrolledBack).2] at hfree hseen' ⊢
  rcases BlockKeeper.rollbackBlock_cases pf effects.blockKeeper other.hash with
    ⟨hnone, -⟩ | ⟨-, -, -, hpacks⟩
  · rw [BlockKeeper.getUncommitedBlock, hnone] at hrolledBack
    cases hrolledBack
  have hkept : (effects.blockKeeper.uncommitedBlocks.erase other.hash).lookup block.hash =
      some staged := (AList.lookup_erase_ne hne).trans hlookup
  have hmem : block.hash ∈
      (effects.blockKeeper.rollbackBlock pf other.hash).1.uncommitedBlocks :=
    hpacks.kept _ (AList.lookup_isSome.mp (by rw [hkept]; rfl))
  obtain ⟨now, hnow⟩ := Option.isSome_iff_exists.mp (AList.lookup_isSome.mpr hmem)
  refine ⟨now, hnow, ?_⟩
  rcases hpacks.staged _ _ hnow with hsame | ⟨hhash, hcreated⟩
  · rw [hkept] at hsame
    cases hsame
    exact htransactions
  · exact hfree now block (Or.inl hcreated) hseen' hhash

/-- The rollbacks undo the blocks in the order of their hashes. -/
theorem transactionProcessor_executeRollbacks {pf : Platform} {consensus : ConsensusEngine}
    {blocks : List BlockFile} {effects : PeerEffects}
    (hstaged : ∀ block ∈ blocks, StagedAs effects block)
    (hseen : ∀ block ∈ blocks, effects.blockKeeper.Seen block)
    (hdistinct : (blocks.map BlockFile.hash).Nodup)
    (hfree : (effects.executeRollbacks pf consensus
      (blocks.map BlockFile.hash)).blockKeeper.Collisionless) :
    (effects.executeRollbacks pf consensus (blocks.map BlockFile.hash)).transactionProcessor =
      effects.transactionProcessor.rollbackTransactions (newestFirst blocks) := by
  rw [← foldl_rollbackTransactions]
  induction blocks generalizing effects with
  | nil => rfl
  | cons block blocks ih =>
      rw [List.map_cons, List.nodup_cons] at hdistinct
      have hblock := hstaged block List.mem_cons_self
      have hnow : (effects.executeEffect pf consensus
          (.rollbackBlock block.hash)).effects.blockKeeper.Collisionless := by
        intro b b' hb hb'
        have hkept : ∀ b, (effects.executeEffect pf consensus
            (.rollbackBlock block.hash)).effects.blockKeeper.Seen b →
            (effects.executeRollbacks pf consensus
              (block.hash :: blocks.map BlockFile.hash)).blockKeeper.Seen b :=
          fun _ h => seen_executeRollbacks (blocks.map BlockFile.hash) h
        exact hfree b b' (hkept b hb) (hkept b' hb')
      have hrest := @ih (effects.executeEffect pf consensus (.rollbackBlock block.hash)).effects
        (by
          intro other hmem
          have hne : other.hash ≠ block.hash :=
            fun heq => hdistinct.1 (heq ▸ List.mem_map_of_mem hmem)
          exact (hstaged other (List.mem_cons_of_mem _ hmem)).executeEffect hblock hne
            (hseen other (List.mem_cons_of_mem _ hmem)) hnow)
        (fun other hmem => seen_executeEffect_rollbackBlock pf consensus block.hash
          (hseen other (List.mem_cons_of_mem _ hmem)))
        hdistinct.2 hfree
      obtain ⟨staged, hlookup, htransactions⟩ := hblock
      rw [(executeEffect_rollbackBlock consensus hlookup).1, htransactions] at hrest
      exact hrest

end PeerEffects

-- ============================================================================
-- A truncated log
-- ============================================================================

namespace RaftConsensus

theorem rollbackHashes_effects (a : Accepted) : rollbackHashes a.effects = a.discarded := by
  rw [Accepted.effects, rollbackHashes_append, rollbackHashes_append,
    rollbackHashes_map_rollbackBlock, rollbackHashes_map_commitBlock, List.append_nil]
  split <;> exact List.append_nil _

/-- An accepted request rolls back the blocks of the entries it discards, in log order. -/
theorem rollbackHashes_handleAppendEntries {pf : Platform} {r r' : RaftConsensus}
    {request : AppendEntriesRequest} {draw : Nat} {asked : List ConsensusEffect}
    (hlog : Contiguous 0 r.log)
    (hhandled : r.handleAppendEntries pf request draw = (r', .ok asked))
    (haccepted : ∃ term matchIndex, ConsensusEffect.send request.from
      (.raftAppendEntriesResponse term true matchIndex) ∈ asked) :
    rollbackHashes asked =
      blockHashes (discardedEntries r.log (request.entries.map RaftReplicatedBlock.entry)) := by
  have hanswers := r.handleAppendEntries_answers pf request draw
  rw [hhandled] at hanswers
  cases hacceptance : r.acceptance pf request draw with
  | none =>
      rw [hacceptance] at hanswers
      obtain ⟨term, matchIndex, hmem⟩ := haccepted
      rcases hanswers with ⟨e, herror⟩ | ⟨term', matchIndex', hrefused⟩
      · cases herror
      · cases hrefused
        cases List.mem_singleton.mp hmem
  | some a =>
      rw [hacceptance] at hanswers
      obtain ⟨⟨term, matchIndex, hasked⟩, -⟩ := hanswers
      cases hasked
      obtain ⟨entries, blocks, log, discarded, hvalid, hprev, hcontiguous, hmerge, rfl⟩ :=
        acceptance_some hacceptance
      have hentries := entriesAreContiguousAfter_iff.mp hcontiguous
      rw [rollbackHashes_append, rollbackHashes_effects,
        ← validateReplicatedEntries_entries hvalid]
      rcases mergeEntries_eq_mergedLog r.commitIndex hlog hentries
          (hlog.le_length_of_termOf hprev) with ⟨-, hnone⟩ | ⟨-, hsome⟩
      · rw [hnone] at hmerge
        cases hmerge
      · rw [hsome] at hmerge
        cases hmerge
        exact List.append_nil _

end RaftConsensus

namespace PeerEffects

open TransactionProcessor

/-- A request that truncates a log whose discarded blocks were staged one after the
    other is accepted, and the rollbacks it asks for are executed.  The balances are
    those before the first of the blocks if and only if every applied transaction is
    covered when the blocks are taken newest first. -/
theorem executeRollbacks_restores_iff {pf : Platform} {r r' : RaftConsensus}
    {request : AppendEntriesRequest} {draw : Nat} {asked : List ConsensusEffect}
    {before : TransactionProcessor} {effects : PeerEffects} {blocks : List BlockFile}
    (hlog : Contiguous 0 r.log)
    (hhandled : r.handleAppendEntries pf request draw = (r', .ok asked))
    (haccepted : ∃ term matchIndex, ConsensusEffect.send request.from
      (.raftAppendEntriesResponse term true matchIndex) ∈ asked)
    (hdiscarded : blocks.map BlockFile.hash =
      blockHashes (discardedEntries r.log (request.entries.map RaftReplicatedBlock.entry)))
    (hstaged : StagedSince before effects blocks)
    (hfresh : before.Fresh (blocks.flatMap BlockFile.transactions))
    (hcredits : before.CreditsFit (blocks.flatMap BlockFile.transactions))
    (hrefunds : effects.transactionProcessor.RefundsFit (newestFirst blocks).reverse)
    (hfree : (effects.executeRollbacks pf (.raft r')
      (rollbackHashes asked)).blockKeeper.Collisionless) :
    (∀ id, (effects.executeRollbacks pf (.raft r')
          (rollbackHashes asked)).transactionProcessor.balanceOf id = before.balanceOf id) ↔
      before.CoveredInOrder (effects.transactionProcessor.appliedAmong (newestFirst blocks)) := by
  have hhashes := RaftConsensus.rollbackHashes_handleAppendEntries hlog hhandled haccepted
  rw [← hdiscarded] at hhashes
  rw [hhashes] at hfree ⊢
  have hrollback := transactionProcessor_executeRollbacks
    (fun block hmem => ⟨block, hstaged.staged block hmem, rfl⟩)
    (fun block hmem => Or.inr (hstaged.received block hmem)) hstaged.distinct hfree
  have hperm : (blocks.flatMap BlockFile.transactions).Perm (newestFirst blocks) :=
    (List.reverse_perm blocks).symm.flatMap_right _
  rw [hrollback]
  rw [hstaged.ledger] at hrefunds ⊢
  exact rollbackTransactions_perm_iff hfresh hperm hcredits hrefunds

end PeerEffects

namespace Reference

/-- A block of the first transaction and a block of the second on top of it. -/
def chainOf (tx tx' : SignedTransaction) : List BlockFile :=
  [firstBlock tx, .create platform [tx'] (firstBlock tx).hash 2]

/-- A follower of term 1 whose log has the entries of the blocks, none committed. -/
def followerOf (blocks : List BlockFile) : RaftConsensus :=
  let log := blocks.map fun block => (⟨1, block.index, block.hash⟩ : RaftLogEntry)
  { RaftConsensus.newWithLog 1 log 0 (.inMemory .new) 0 0 with
    participants := [1, 2]
    currentTerm := 1
    pendingBlocks := blocks.foldl (fun pending block => pending.insert block.hash block) ∅ }

/-- The peer after staging the blocks of the follower's log. -/
def stagedEffects (blocks : List BlockFile) : PeerEffects :=
  ((newEffects 3).stageRaftEntries platform (.raft (followerOf blocks)) (followerOf blocks).log).1

/-- The leader of term 2 has a no-op where the follower's log starts. -/
def truncation : AppendEntriesRequest where
  term := 2
  leaderId := 2
  prevLogIndex := 0
  prevLogTerm := 0
  entries := [payload (.noop 2 1)]
  leaderCommit := 0
  «from» := 2
  now := 0

/-- The effects of the truncation. -/
def truncationEffects (blocks : List BlockFile) : List ConsensusEffect :=
  (blocks.map fun block => .rollbackBlock block.hash) ++
    [.send 2 (.raftAppendEntriesResponse 2 true 1)]

end Reference

namespace PeerEffects

open TransactionProcessor

/-- Two clients' deposits in two blocks: neither block needs the other. -/
theorem executeRollbacks_restores_deposits :
    let blocks := Reference.chainOf Reference.deposit Reference.otherDeposit
    let handled := (Reference.followerOf blocks).handleAppendEntries Reference.platform
      Reference.truncation 0
    let asked := Reference.truncationEffects blocks
    handled.2.toOption = some asked ∧
      ∀ id, ((Reference.stagedEffects blocks).executeRollbacks Reference.platform
        (.raft handled.1) (rollbackHashes asked)).transactionProcessor.balanceOf id = 0 := by
  intro blocks handled asked
  have hasked : handled.2.toOption = some asked := by decide +kernel
  have hhandled : handled = (handled.1, .ok asked) := by
    rcases hresult : handled.2 with e | answered
    · rw [hresult] at hasked
      cases hasked
    · rw [hresult] at hasked
      cases hasked
      exact Prod.ext rfl hresult
  have hlog : Contiguous 0 (Reference.followerOf blocks).log :=
    entriesAreContiguousAfter_iff.mp (by decide +kernel)
  have hstaged : StagedSince default (Reference.stagedEffects blocks) blocks :=
    ⟨by decide +kernel, by decide +kernel, by decide +kernel,
      eq_of_entries (by decide +kernel) (by decide +kernel)⟩
  have hfresh : default.Fresh (blocks.flatMap BlockFile.transactions) :=
    ⟨by decide +kernel, by decide +kernel⟩
  have hcredits : default.CreditsFit (blocks.flatMap BlockFile.transactions) :=
    ⟨fun _ _ => by decide +kernel, fun _ _ => by decide +kernel, trivial⟩
  have hfree : ((Reference.stagedEffects blocks).executeRollbacks Reference.platform
      (.raft handled.1) (rollbackHashes asked)).blockKeeper.Collisionless := by
    generalize hk : ((Reference.stagedEffects blocks).executeRollbacks Reference.platform
      (.raft handled.1) (rollbackHashes asked)).blockKeeper = k
    have hseen : ∀ b ∈ k.created ++ k.received, ∀ b' ∈ k.created ++ k.received,
        b.hash = b'.hash → b.transactions = b'.transactions := by
      rw [← hk]
      decide +kernel
    exact fun b b' hb hb' =>
      hseen b (List.mem_append.mpr hb) b' (List.mem_append.mpr hb')
  have happlied : (Reference.stagedEffects blocks).transactionProcessor.appliedAmong
      (newestFirst blocks) = [Reference.otherDeposit, Reference.deposit] := by decide +kernel
  have hcovered : default.CoveredInOrder
      ((Reference.stagedEffects blocks).transactionProcessor.appliedAmong
        (newestFirst blocks)) := by
    rw [happlied]
    rintro (_ | ⟨first, _ | ⟨second, rest⟩⟩) tx after heq
    · cases heq
      decide +kernel
    · cases heq
      decide +kernel
    · cases rest <;> cases heq
  exact ⟨hasked, (executeRollbacks_restores_iff hlog hhandled ⟨2, 1, by decide +kernel⟩
    (by decide +kernel) hstaged hfresh hcredits (by decide +kernel) hfree).mpr hcovered⟩

/-- Coins added by the first block are spent in the second.  Rolling the first back
    takes nothing, and rolling the second back then gives the coins to their old owner. -/
theorem executeRollbacks_leaves_coins :
    let blocks := Reference.chainOf Reference.deposit Reference.payment
    let r := Reference.followerOf blocks
    let handled := r.handleAppendEntries Reference.platform Reference.truncation 0
    let asked := Reference.truncationEffects blocks
    Contiguous 0 r.log ∧ handled.2.toOption = some asked ∧
      blocks.map BlockFile.hash = blockHashes (discardedEntries r.log
        (Reference.truncation.entries.map RaftReplicatedBlock.entry)) ∧
      StagedSince default (Reference.stagedEffects blocks) blocks ∧
      default.Fresh (blocks.flatMap BlockFile.transactions) ∧
      default.CreditsFit (blocks.flatMap BlockFile.transactions) ∧
      (Reference.stagedEffects blocks).transactionProcessor.RefundsFit
        (newestFirst blocks).reverse ∧
      ((Reference.stagedEffects blocks).executeRollbacks Reference.platform (.raft handled.1)
        (rollbackHashes asked)).transactionProcessor.balanceOf "05" = 10 ∧
      default.balanceOf "05" = 0 := by
  intro blocks r handled asked
  exact ⟨entriesAreContiguousAfter_iff.mp (by decide +kernel), by decide +kernel,
    by decide +kernel, ⟨by decide +kernel, by decide +kernel, by decide +kernel,
      eq_of_entries (by decide +kernel) (by decide +kernel)⟩,
    ⟨by decide +kernel, by decide +kernel⟩,
    ⟨fun _ _ => by decide +kernel, fun _ _ => by decide +kernel, trivial⟩, by decide +kernel,
    by decide +kernel, rfl⟩

end PeerEffects
end Rustchain
