/-
  Rustchain.Storage.Changes

  What the operations of the block store can do to it, said once for each.

  Packing transactions, also those of a rolled-back block, stages new blocks on
  the committed tip and nothing else (`Packs`).  External blocks are staged as
  they come.  Only `commit_block` touches the directory, the height and the tip.
-/

import Rustchain.Storage.BlockKeeper

namespace Rustchain
namespace BlockKeeper

-- ============================================================================
-- Packing
-- ============================================================================

/-- `k'` is `k` after some transactions were added to the mempool: the blocks they
    filled are staged on the tip. -/
structure Packs (pf : Platform) (k k' : BlockKeeper) : Prop where
  dir : k'.dir = k.dir
  state : k'.blockStorageState = k.blockStorageState
  mempoolSize : k'.mempoolSize = k.mempoolSize
  walk : k'.walk = k.walk
  received : k'.received = k.received
  /-- New blocks are built on the tip. -/
  created : ∃ new, k'.created = k.created ++ new ∧ ∀ b ∈ new, ∃ transactions,
    b = BlockFile.create pf transactions k.blockStorageState.lastCommitedHash
      (k.blockStorageState.blockHeight + 1)
  kept : ∀ h, h ∈ k.uncommitedBlocks → h ∈ k'.uncommitedBlocks
  /-- What is staged was staged before or is new. -/
  staged : ∀ h b, k'.uncommitedBlocks.lookup h = some b →
    k.uncommitedBlocks.lookup h = some b ∨ (b.hash = h ∧ b ∈ k'.created)

theorem Packs.refl (pf : Platform) (k : BlockKeeper) : Packs pf k k where
  dir := rfl
  state := rfl
  mempoolSize := rfl
  walk := rfl
  received := rfl
  created := ⟨[], (List.append_nil _).symm, fun _ h => absurd h List.not_mem_nil⟩
  kept := fun _ h => h
  staged := fun _ _ h => Or.inl h

theorem Packs.mem_created {pf : Platform} {k k' : BlockKeeper} (h : Packs pf k k') {b : BlockFile}
    (hmem : b ∈ k.created) : b ∈ k'.created := by
  obtain ⟨new, hnew, -⟩ := h.created
  rw [hnew]
  exact List.mem_append_left new hmem

theorem Packs.trans {pf : Platform} {k k' k'' : BlockKeeper} (h : Packs pf k k')
    (h' : Packs pf k' k'') : Packs pf k k'' where
  dir := h'.dir.trans h.dir
  state := h'.state.trans h.state
  mempoolSize := h'.mempoolSize.trans h.mempoolSize
  walk := h'.walk.trans h.walk
  received := h'.received.trans h.received
  created := by
    obtain ⟨new, hnew, hbuilt⟩ := h.created
    obtain ⟨new', hnew', hbuilt'⟩ := h'.created
    refine ⟨new ++ new', by rw [hnew', hnew, List.append_assoc], ?_⟩
    intro b hmem
    rcases List.mem_append.mp hmem with hmem | hmem
    · exact hbuilt b hmem
    · rw [h.state] at hbuilt'
      exact hbuilt' b hmem
  kept := fun hash hmem => h'.kept hash (h.kept hash hmem)
  staged := by
    intro hash b hlookup
    rcases h'.staged hash b hlookup with hold | hnew
    · rcases h.staged hash b hold with hold | ⟨hhash, hmem⟩
      · exact Or.inl hold
      · exact Or.inr ⟨hhash, h'.mem_created hmem⟩
    · exact Or.inr hnew

theorem createNewBlock_packs (pf : Platform) (k : BlockKeeper)
    (transactionsMap : HashMap String SignedTransaction) :
    Packs pf k (k.createNewBlock pf transactionsMap).1 where
  dir := rfl
  state := rfl
  mempoolSize := rfl
  walk := rfl
  received := rfl
  created := by
    refine ⟨_, rfl, ?_⟩
    intro b hmem
    exact ⟨_, List.mem_singleton.mp hmem⟩
  kept := by
    intro h hmem
    exact (AList.mem_insert _).mpr (Or.inr hmem)
  staged := by
    intro h b hlookup
    simp only [createNewBlock] at hlookup ⊢
    rw [HashMap.lookup_insert_ite] at hlookup
    split at hlookup
    · rename_i heq
      cases hlookup
      exact Or.inr ⟨heq.symm, List.mem_append_right _ (List.mem_singleton_self _)⟩
    · exact Or.inl hlookup

/-- The mempool is no part of what packing is about. -/
theorem Packs.of_mempool {pf : Platform} {k k' : BlockKeeper}
    {mempool pendingTransactions : HashMap String SignedTransaction}
    (h : Packs pf { k with mempool, pendingTransactions } k') : Packs pf k k' :=
  ⟨h.dir, h.state, h.mempoolSize, h.walk, h.received, h.created, h.kept, h.staged⟩

theorem addTransaction_packs (pf : Platform) (k : BlockKeeper) (tx : SignedTransaction) :
    Packs pf k (k.addTransaction pf tx).1 := by
  simp only [addTransaction]
  split
  · exact (createNewBlock_packs pf { k with mempool := ∅ } _).of_mempool
  · exact ⟨rfl, rfl, rfl, rfl, rfl, (Packs.refl pf k).created, fun _ h => h, fun _ _ h => Or.inl h⟩

/-- A block that completes the mempool is staged under its hash. -/
theorem addTransaction_created {pf : Platform} {k : BlockKeeper} {tx : SignedTransaction}
    {blockHash : BlockHash} (h : (k.addTransaction pf tx).2 = .newBlockCreated blockHash) :
    ∃ block, block.hash = blockHash ∧ block ∈ (k.addTransaction pf tx).1.created ∧
      (k.addTransaction pf tx).1.uncommitedBlocks.lookup blockHash = some block ∧
      block.previousHash = k.blockStorageState.lastCommitedHash := by
  simp only [addTransaction] at h ⊢
  split at h
  · rename_i hfull
    rw [if_pos hfull]
    cases h
    exact ⟨_, rfl, List.mem_append_right _ (List.mem_singleton_self _), AList.lookup_insert _, rfl⟩
  · cases h

theorem returnTransaction_packs (pf : Platform) (k : BlockKeeper) (tx : SignedTransaction) :
    Packs pf k (k.returnTransaction pf tx) := by
  unfold returnTransaction
  split
  · exact Packs.refl pf k
  · exact (addTransaction_packs pf { k with pendingTransactions := _ } _).of_mempool

theorem returnTransactions_packs (pf : Platform) (k : BlockKeeper)
    (txs : List SignedTransaction) : Packs pf k (txs.foldl (returnTransaction pf) k) := by
  induction txs generalizing k with
  | nil => exact Packs.refl pf k
  | cons tx txs ih => exact (returnTransaction_packs pf k tx).trans (ih _)

-- ============================================================================
-- Rolling back, staging and committing
-- ============================================================================

/-- `rollback_block` drops the block and packs what it returns to the mempool. -/
theorem rollbackBlock_cases (pf : Platform) (k : BlockKeeper) (blockHash : BlockHash) :
    (k.uncommitedBlocks.lookup blockHash = none ∧
        ∃ e, k.rollbackBlock pf blockHash = (k, .error e)) ∨
      (∃ block, k.uncommitedBlocks.lookup blockHash = some block ∧
        (k.rollbackBlock pf blockHash).2 = .ok () ∧
        Packs pf { k with uncommitedBlocks := k.uncommitedBlocks.erase blockHash }
          (k.rollbackBlock pf blockHash).1) := by
  unfold rollbackBlock
  cases hlookup : k.uncommitedBlocks.lookup blockHash with
  | none => exact Or.inl ⟨rfl, _, rfl⟩
  | some block => exact Or.inr ⟨block, rfl, rfl, returnTransactions_packs pf _ _⟩

/-- `k'` is `k` but for the mempool and the transactions under way. -/
structure SameBlocks (k k' : BlockKeeper) : Prop where
  dir : k'.dir = k.dir
  state : k'.blockStorageState = k.blockStorageState
  mempoolSize : k'.mempoolSize = k.mempoolSize
  walk : k'.walk = k.walk
  created : k'.created = k.created
  received : k'.received = k.received
  uncommitedBlocks : k'.uncommitedBlocks = k.uncommitedBlocks

theorem claimTransactions_sameBlocks (k : BlockKeeper) (txs : List SignedTransaction) :
    SameBlocks k (txs.foldl claimTransaction k) := by
  induction txs generalizing k with
  | nil => exact ⟨rfl, rfl, rfl, rfl, rfl, rfl, rfl⟩
  | cons tx txs ih =>
      have hfirst : SameBlocks k (k.claimTransaction tx) := by
        unfold claimTransaction
        split <;> exact ⟨rfl, rfl, rfl, rfl, rfl, rfl, rfl⟩
      have hrest := ih (k.claimTransaction tx)
      exact ⟨hrest.dir.trans hfirst.dir, hrest.state.trans hfirst.state,
        hrest.mempoolSize.trans hfirst.mempoolSize, hrest.walk.trans hfirst.walk,
        hrest.created.trans hfirst.created, hrest.received.trans hfirst.received,
        hrest.uncommitedBlocks.trans hfirst.uncommitedBlocks⟩

/-- `k'` is `k` with an external block staged. -/
structure Stages (k k' : BlockKeeper) (block : BlockFile) : Prop where
  dir : k'.dir = k.dir
  state : k'.blockStorageState = k.blockStorageState
  mempoolSize : k'.mempoolSize = k.mempoolSize
  walk : k'.walk = k.walk
  created : k'.created = k.created
  received : k'.received = k.received ++ [block]
  uncommitedBlocks : k'.uncommitedBlocks = k.uncommitedBlocks.insert block.hash block

/-- `add_external_block` stages a block whose hash is right. -/
theorem addExternalBlock_cases (pf : Platform) (k : BlockKeeper) (block : BlockFile) :
    (∃ e, block.verifyBlock pf = .error e ∧ k.addExternalBlock pf block = (k, .error e)) ∨
      (block.verifyBlock pf = .ok () ∧ (k.addExternalBlock pf block).2 = .ok () ∧
        Stages k (k.addExternalBlock pf block).1 block) := by
  unfold addExternalBlock
  cases hverify : block.verifyBlock pf with
  | error e => exact Or.inl ⟨e, rfl, rfl⟩
  | ok _ =>
      have hsame := claimTransactions_sameBlocks k block.transactions
      refine Or.inr ⟨rfl, rfl, hsame.dir, hsame.state, hsame.mempoolSize, hsame.walk,
        hsame.created, ?_, ?_⟩
      · exact congrArg (· ++ [block]) hsame.received
      · exact congrArg (AList.insert block.hash block) hsame.uncommitedBlocks

theorem addExternalBlock_stages {pf : Platform} (k : BlockKeeper) {block : BlockFile}
    (hverify : block.verifyBlock pf = .ok ()) :
    Stages k (k.addExternalBlock pf block).1 block := by
  rcases addExternalBlock_cases pf k block with ⟨e, herror, -⟩ | ⟨-, -, hstages⟩
  · rw [hverify] at herror
    cases herror
  · exact hstages

/-- `commit_block`: the block is not staged; its file was written and it became the
    tip; or the write failed. -/
theorem commitBlock_cases (pf : Platform) (k : BlockKeeper) (blockHash : BlockHash) :
    (k.uncommitedBlocks.lookup blockHash = none ∧
        ∃ e, k.commitBlock pf blockHash = (k, .error e)) ∨
      (∃ block, k.uncommitedBlocks.lookup blockHash = some block ∧
        k.dir.writeFault k.dir.writes = none ∧
        (k.commitBlock pf blockHash).2 = .ok () ∧
        (k.commitBlock pf blockHash).1 =
          { k with
            dir := { k.dir with
              writes := k.dir.writes + 1
              files := k.dir.files.insert
                (BlockFile.blockFilenameForIndex (k.blockStorageState.blockHeight + 1))
                (pf.encodeBlock block) }
            blockStorageState :=
              { blockHeight := k.blockStorageState.blockHeight + 1, lastCommitedHash := blockHash }
            pendingTransactions := block.transactions.foldl
              (fun m tx => m.erase tx.txId) k.pendingTransactions
            uncommitedBlocks := k.uncommitedBlocks.erase blockHash }) ∨
      (∃ block fault e, k.uncommitedBlocks.lookup blockHash = some block ∧
        k.dir.writeFault k.dir.writes = some fault ∧
        (k.commitBlock pf blockHash).2 = .error e ∧
        (k.commitBlock pf blockHash).1 =
          { k with
            dir := (k.dir.write
              (BlockFile.blockFilenameForIndex (k.blockStorageState.blockHeight + 1))
              (pf.encodeBlock block)).1 }) := by
  unfold commitBlock
  cases hlookup : k.uncommitedBlocks.lookup blockHash with
  | none => exact Or.inl ⟨rfl, _, rfl⟩
  | some block =>
      cases hfault : k.dir.writeFault k.dir.writes with
      | none =>
          refine Or.inr (Or.inl ⟨block, rfl, rfl, ?_, ?_⟩)
          · simp only [BlockDir.write, hfault]
          · simp only [BlockDir.write, hfault]
      | some fault =>
          refine Or.inr (Or.inr ⟨block, fault, s!"Failed to write block file: {fault.error}", rfl,
            rfl, ?_, ?_⟩)
          · simp only [BlockDir.write, hfault]
          · simp only [BlockDir.write, hfault]

-- ============================================================================
-- Where staged blocks come from
-- ============================================================================

/-- The block was packed or staged from outside at some time. -/
def Seen (k : BlockKeeper) (b : BlockFile) : Prop := b ∈ k.created ∨ b ∈ k.received

/-- What is staged was seen, and is staged under its own hash. -/
def Accounted (k : BlockKeeper) : Prop :=
  ∀ h b, k.uncommitedBlocks.lookup h = some b → b.hash = h ∧ k.Seen b

theorem new_accounted (pf : Platform) (dir : BlockDir) (mempoolSize : Nat)
    (walk : HashMap.Walk BlockHash BlockFile) : (new pf dir mempoolSize walk).Accounted := by
  intro h b hlookup
  cases hlookup

theorem Packs.seen {pf : Platform} {k k' : BlockKeeper} (h : Packs pf k k') {b : BlockFile}
    (hb : k.Seen b) : k'.Seen b :=
  hb.imp h.mem_created fun hmem => h.received ▸ hmem

theorem Packs.accounted {pf : Platform} {k k' : BlockKeeper} (h : Packs pf k k')
    (hk : k.Accounted) : k'.Accounted := by
  intro hash b hlookup
  rcases h.staged hash b hlookup with hold | ⟨hhash, hmem⟩
  · exact ⟨(hk hash b hold).1, h.seen (hk hash b hold).2⟩
  · exact ⟨hhash, Or.inl hmem⟩

theorem Stages.seen {k k' : BlockKeeper} {block : BlockFile} (h : Stages k k' block)
    {b : BlockFile} (hb : k.Seen b) : k'.Seen b := by
  rcases hb with hmem | hmem
  · exact Or.inl (h.created ▸ hmem)
  · rw [Seen, h.received]
    exact Or.inr (List.mem_append_left _ hmem)

theorem Stages.accounted {k k' : BlockKeeper} {block : BlockFile} (h : Stages k k' block)
    (hk : k.Accounted) : k'.Accounted := by
  intro hash b hlookup
  rw [h.uncommitedBlocks, HashMap.lookup_insert_ite] at hlookup
  split at hlookup
  · rename_i heq
    cases hlookup
    refine ⟨heq.symm, Or.inr ?_⟩
    rw [h.received]
    exact List.mem_append_right _ (List.mem_singleton_self _)
  · exact ⟨(hk hash b hlookup).1, h.seen (hk hash b hlookup).2⟩

theorem erase_accounted {k : BlockKeeper} (hk : k.Accounted) (blockHash : BlockHash) :
    Accounted { k with uncommitedBlocks := k.uncommitedBlocks.erase blockHash } :=
  HashMap.forall_erase hk blockHash

end BlockKeeper
end Rustchain
