/-
  Rustchain.Storage.Retention

  What becomes of a transaction that `add_transaction` has taken.

  It is in the mempool until it is packed or claimed by an external block; from
  then on it is pending, and in a staged block, until a block with it is
  committed or the last block with it is rolled back, which returns it to the
  mempool.  So it is never lost.  But the mempool that a rollback returns
  transactions to may fill up on the way: a block is then packed whose hash
  nobody is told.
-/

import Mathlib.Data.Finset.Card
import Rustchain.Storage.Operations
import Rustchain.Storage.Transactions

namespace Rustchain
namespace BlockKeeper

-- ============================================================================
-- Keys
-- ============================================================================

/-- Mempool and pending transactions are kept under their own ids. -/
structure Keyed (k : BlockKeeper) : Prop where
  mempool : ∀ id tx, k.mempool.lookup id = some tx → tx.txId = id
  pending : ∀ id tx, k.pendingTransactions.lookup id = some tx → tx.txId = id

namespace Keyed

variable {pf : Platform} {k : BlockKeeper}

theorem new (pf : Platform) (dir : BlockDir) (mempoolSize : Nat)
    (walk : HashMap.Walk BlockHash BlockFile) : Keyed (.new pf dir mempoolSize walk) where
  mempool := fun id tx hlookup => by cases hlookup
  pending := fun id tx hlookup => by cases hlookup

theorem insert (h : Keyed k) (tx : SignedTransaction) (id : String) (own : SignedTransaction)
    (hlookup : (k.mempool.insert tx.txId tx).lookup id = some own) : own.txId = id :=
  OwnIds.insert h.mempool tx id own hlookup

theorem addTransaction (h : Keyed k) (tx : SignedTransaction) :
    Keyed (k.addTransaction pf tx).1 := by
  have hkeys := h.insert tx
  simp only [BlockKeeper.addTransaction]
  split
  · generalize k.mempool.insert tx.txId tx = mempool at hkeys
    refine ⟨fun id own hlookup => (by cases hlookup), ?_⟩
    intro id own hlookup
    rcases HashMap.lookup_foldl_insert hlookup with hold | hnew
    · exact h.pending id own hold
    · exact hkeys id own (Option.mem_def.mp (List.mem_dlookup mempool.nodupKeys hnew))
  · exact ⟨hkeys, h.pending⟩

theorem claimTransactions (h : Keyed k) (txs : List SignedTransaction) :
    Keyed (txs.foldl claimTransaction k) := by
  induction txs generalizing k with
  | nil => exact h
  | cons tx txs ih =>
      apply ih
      unfold claimTransaction
      split
      · exact h
      · constructor
        · exact HashMap.forall_erase h.mempool _
        · exact HashMap.forall_insert h.pending rfl

/-- The store with a pending transaction taken out. -/
theorem take (h : Keyed k) (id : String) :
    Keyed { k with pendingTransactions := k.pendingTransactions.erase id } :=
  ⟨h.mempool, HashMap.forall_erase h.pending id⟩

theorem unstage (h : Keyed k) (blockHash : BlockHash) :
    Keyed { k with uncommitedBlocks := k.uncommitedBlocks.erase blockHash } :=
  ⟨h.mempool, h.pending⟩

theorem returnTransaction (h : Keyed k) (tx : SignedTransaction) :
    Keyed (k.returnTransaction pf tx) := by
  unfold BlockKeeper.returnTransaction
  split
  · exact h
  · exact (h.take tx.txId).addTransaction _

theorem returnTransactions (h : Keyed k) (txs : List SignedTransaction) :
    Keyed (txs.foldl (BlockKeeper.returnTransaction pf) k) := by
  induction txs generalizing k with
  | nil => exact h
  | cons tx txs ih => exact ih (h.returnTransaction tx)

theorem operate (h : Keyed k) (operation : StoreOperation) : Keyed (k.operate pf operation) := by
  cases operation with
  | addTransaction transaction => exact h.addTransaction transaction
  | addExternalBlock block =>
      show Keyed (k.addExternalBlock pf block).1
      unfold BlockKeeper.addExternalBlock
      split
      · exact h
      · have hclaimed := h.claimTransactions block.transactions
        exact ⟨hclaimed.mempool, hclaimed.pending⟩
  | commitBlock blockHash =>
      obtain ⟨hmempool, hpending, -⟩ := commitBlock_memory pf k blockHash
      refine ⟨?_, fun id tx hlookup => h.pending id tx (hpending id tx hlookup)⟩
      show ∀ id tx, (k.commitBlock pf blockHash).1.mempool.lookup id = some tx → tx.txId = id
      rw [hmempool]
      exact h.mempool
  | rollbackBlock blockHash =>
      show Keyed (k.rollbackBlock pf blockHash).1
      unfold BlockKeeper.rollbackBlock
      split
      · exact h
      · exact (h.unstage blockHash).returnTransactions _

end Keyed

/-- Operations account for the blocks they stage. -/
theorem operate_accounted {pf : Platform} {k : BlockKeeper} (h : k.Accounted)
    (operation : StoreOperation) :
    (k.operate pf operation).Accounted ∧ ∀ b, k.Seen b → (k.operate pf operation).Seen b := by
  cases operation with
  | addTransaction transaction =>
      have hpacks := addTransaction_packs pf k transaction
      exact ⟨hpacks.accounted h, fun _ hb => hpacks.seen hb⟩
  | addExternalBlock block =>
      show (k.addExternalBlock pf block).1.Accounted ∧
        ∀ b, k.Seen b → (k.addExternalBlock pf block).1.Seen b
      rcases addExternalBlock_cases pf k block with ⟨e, -, heq⟩ | ⟨-, -, hstages⟩
      · rw [heq]
        exact ⟨h, fun _ hb => hb⟩
      · exact ⟨hstages.accounted h, fun _ hb => hstages.seen hb⟩
  | commitBlock blockHash =>
      show (k.commitBlock pf blockHash).1.Accounted ∧
        ∀ b, k.Seen b → (k.commitBlock pf blockHash).1.Seen b
      rcases commitBlock_cases pf k blockHash with
        ⟨-, e, heq⟩ | ⟨block, -, -, -, heq⟩ | ⟨block, fault, e, -, -, -, heq⟩
      · rw [heq]
        exact ⟨h, fun _ hb => hb⟩
      · rw [heq]
        exact ⟨erase_accounted h blockHash, fun _ hb => hb⟩
      · rw [heq]
        exact ⟨h, fun _ hb => hb⟩
  | rollbackBlock blockHash =>
      show (k.rollbackBlock pf blockHash).1.Accounted ∧
        ∀ b, k.Seen b → (k.rollbackBlock pf blockHash).1.Seen b
      rcases rollbackBlock_cases pf k blockHash with ⟨-, e, heq⟩ | ⟨block, -, -, hpacks⟩
      · rw [heq]
        exact ⟨h, fun _ hb => hb⟩
      · exact ⟨hpacks.accounted (erase_accounted h blockHash), fun _ hb => hpacks.seen hb⟩

-- ============================================================================
-- Where a transaction is
-- ============================================================================

/-- Among the blocks seen, equal hashes mean equal transactions. -/
def Collisionless (k : BlockKeeper) : Prop :=
  ∀ b b', k.Seen b → k.Seen b' → b.hash = b'.hash → b.transactions = b'.transactions

/-- The id is in a staged block. -/
def Staged (k : BlockKeeper) (id : String) : Prop :=
  ∃ h b, k.uncommitedBlocks.lookup h = some b ∧ id ∈ b.txIds

/-- The id is in a block file that was committed. -/
def Committed (pf : Platform) (k : BlockKeeper) (id : String) : Prop :=
  ∃ index b, CommittedAt pf k index b ∧ id ∈ b.txIds

/-- The store has the transaction: in the mempool, in a block file, or pending and
    in a staged block.  While a block is being rolled back, the ids it still owes
    are pending only. -/
def Retained (pf : Platform) (owed : List String) (k : BlockKeeper) (id : String) : Prop :=
  id ∈ k.mempool ∨ Committed pf k id ∨
    (id ∈ k.pendingTransactions ∧ (id ∈ owed ∨ k.Staged id))

section Retained

variable {pf : Platform} {k k' : BlockKeeper} {owed : List String} {id : String}

theorem Committed.congr (h : Committed pf k id) (hdir : k'.dir = k.dir)
    (hstate : k'.blockStorageState = k.blockStorageState) : Committed pf k' id := by
  obtain ⟨index, b, hat, hid⟩ := h
  exact ⟨index, b, hat.congr hdir.symm hstate.symm, hid⟩

/-- Staging a block on top of one with the same hash loses nothing. -/
theorem Staged.insert (h : k.Staged id) (haccounted : k.Accounted) {block : BlockFile}
    (hstaged : k'.uncommitedBlocks = k.uncommitedBlocks.insert block.hash block)
    (hseen : ∀ b, k.Seen b → k'.Seen b) (hblock : k'.Seen block) (hfree : k'.Collisionless) :
    k'.Staged id := by
  obtain ⟨hash, b, hlookup, hid⟩ := h
  by_cases heq : hash = block.hash
  · obtain ⟨hhash, hb⟩ := haccounted hash b hlookup
    have hsame := hfree b block (hseen b hb) hblock (hhash.trans heq)
    refine ⟨block.hash, block, by rw [hstaged, AList.lookup_insert], ?_⟩
    rw [BlockFile.txIds, ← hsame]
    exact hid
  · exact ⟨hash, b, by rw [hstaged, AList.lookup_insert_ne heq, hlookup], hid⟩

/-- A key is there after inserting entries if it was before or is one of theirs. -/
theorem mem_foldl_insert {entries : List (Σ _ : String, SignedTransaction)}
    {m : HashMap String SignedTransaction}
    (h : id ∈ m ∨ id ∈ entries.map Sigma.fst) :
    id ∈ entries.foldl (fun m e => m.insert e.1 e.2) m := by
  induction entries generalizing m with
  | nil =>
      rcases h with hmem | hmem
      · exact hmem
      · exact absurd hmem List.not_mem_nil
  | cons e entries ih =>
      apply ih
      rw [AList.mem_insert]
      rcases h with hmem | hmem
      · exact Or.inl (Or.inr hmem)
      · rw [List.map_cons, List.mem_cons] at hmem
        exact hmem.imp Or.inl (fun hrest => hrest)

/-- `add_transaction` keeps what the store has, and has what it is given. -/
theorem addTransaction_retained (hkeyed : k.Keyed) (haccounted : k.Accounted)
    {tx : SignedTransaction} (hfree : (k.addTransaction pf tx).1.Collisionless)
    (h : id = tx.txId ∨ Retained pf owed k id) :
    Retained pf owed (k.addTransaction pf tx).1 id := by
  have hpacks := addTransaction_packs pf k tx
  have hseen : ∀ b, k.Seen b → (k.addTransaction pf tx).1.Seen b := fun _ hb => hpacks.seen hb
  have hcommitted : Committed pf k id → Committed pf (k.addTransaction pf tx).1 id :=
    fun hold => hold.congr hpacks.dir hpacks.state
  have hkeys := hkeyed.insert tx
  have hthere : id = tx.txId ∨ id ∈ k.mempool → id ∈ k.mempool.insert tx.txId tx :=
    (AList.mem_insert _).mpr
  simp only [addTransaction] at hfree hseen hcommitted ⊢
  split at hfree
  · rename_i hfull
    rw [if_pos hfull] at hseen hcommitted ⊢
    generalize k.mempool.insert tx.txId tx = mempool at *
    -- Everything in the mempool is now in the new block, and pending.
    have hpacked : id ∈ mempool →
        Retained pf owed (createNewBlock pf { k with mempool := ∅ } mempool).1 id := by
      intro hmem
      refine Or.inr (Or.inr ⟨mem_foldl_insert (Or.inr (AList.mem_keys.mp hmem)), Or.inr ?_⟩)
      exact ⟨_, _, AList.lookup_insert _,
        (Once.txIds_packed pf hkeys k).mem_iff.mpr (AList.mem_keys.mp hmem)⟩
    rcases h with hnew | hmem | hold | ⟨hpending, hstaged⟩
    · exact hpacked (hthere (Or.inl hnew))
    · exact hpacked (hthere (Or.inr hmem))
    · exact Or.inr (Or.inl (hcommitted hold))
    · refine Or.inr (Or.inr ⟨mem_foldl_insert (Or.inl hpending), hstaged.imp_right ?_⟩)
      intro hstaged
      exact hstaged.insert haccounted rfl hseen
        (Or.inl (List.mem_append_right _ (List.mem_singleton_self _))) hfree
  · rename_i hroom
    rw [if_neg hroom] at hcommitted ⊢
    rcases h with hnew | hmem | hold | hpending
    · exact Or.inl (hthere (Or.inl hnew))
    · exact Or.inl (hthere (Or.inr hmem))
    · exact Or.inr (Or.inl (hcommitted hold))
    · exact Or.inr (Or.inr hpending)

/-- Returning a transaction pays what the block owed of it. -/
theorem returnTransaction_retained (hkeyed : k.Keyed) (haccounted : k.Accounted)
    {tx : SignedTransaction} (hfree : (k.returnTransaction pf tx).Collisionless)
    (h : Retained pf (tx.txId :: owed) k id) :
    Retained pf owed (k.returnTransaction pf tx) id := by
  unfold returnTransaction at hfree ⊢
  split at hfree
  · rename_i hnone
    rcases h with hmem | hold | ⟨hpending, howed⟩
    · exact Or.inl hmem
    · exact Or.inr (Or.inl hold)
    · refine Or.inr (Or.inr ⟨hpending, howed.imp_left fun hmem => ?_⟩)
      rcases List.mem_cons.mp hmem with rfl | hmem
      · exact absurd hpending (AList.lookup_eq_none.mp hnone)
      · exact hmem
  · rename_i own hown
    have hid := hkeyed.pending _ own hown
    apply addTransaction_retained (hkeyed.take tx.txId) haccounted hfree
    by_cases heq : id = tx.txId
    · exact Or.inl (heq.trans hid.symm)
    · refine Or.inr ?_
      rcases h with hmem | hold | ⟨hpending, howed⟩
      · exact Or.inl hmem
      · exact Or.inr (Or.inl (hold.congr rfl rfl))
      · refine Or.inr (Or.inr ⟨AList.mem_erase.mpr ⟨heq, hpending⟩, howed.imp_left ?_⟩)
        exact fun hmem => (List.mem_cons.mp hmem).resolve_left heq

theorem returnTransactions_retained {txs : List SignedTransaction} (hkeyed : k.Keyed)
    (haccounted : k.Accounted)
    (hfree : (txs.foldl (returnTransaction pf) k).Collisionless)
    (h : Retained pf (txs.map SignedTransaction.txId) k id) :
    Retained pf [] (txs.foldl (returnTransaction pf) k) id := by
  induction txs generalizing k with
  | nil => exact h
  | cons tx txs ih =>
      have hpacks := returnTransaction_packs pf k tx
      have hrest := returnTransactions_packs pf (k.returnTransaction pf tx) txs
      -- The blocks seen by now are among those seen in the end.
      have hnow : (k.returnTransaction pf tx).Collisionless :=
        fun b b' hb hb' => hfree b b' (hrest.seen hb) (hrest.seen hb')
      exact ih (hkeyed.returnTransaction tx) (hpacks.accounted haccounted) hfree
        (returnTransaction_retained hkeyed haccounted hnow h)

theorem rollbackBlock_retained (hkeyed : k.Keyed) (haccounted : k.Accounted)
    {blockHash : BlockHash} (hfree : (k.rollbackBlock pf blockHash).1.Collisionless)
    (h : Retained pf [] k id) : Retained pf [] (k.rollbackBlock pf blockHash).1 id := by
  unfold rollbackBlock at hfree ⊢
  split at hfree
  · exact h
  · rename_i block hblock
    apply returnTransactions_retained (hkeyed.unstage blockHash)
      (erase_accounted haccounted blockHash) hfree
    rcases h with hmem | hold | ⟨hpending, howed | ⟨hash, b, hlookup, hid⟩⟩
    · exact Or.inl hmem
    · exact Or.inr (Or.inl (hold.congr rfl rfl))
    · exact absurd howed List.not_mem_nil
    · refine Or.inr (Or.inr ⟨hpending, ?_⟩)
      by_cases heq : hash = blockHash
      · rw [heq, hblock] at hlookup
        cases hlookup
        exact Or.inl hid
      · exact Or.inr ⟨hash, b, (AList.lookup_erase_ne heq).trans hlookup, hid⟩

/-- What a block claims is pending afterwards; the rest of the mempool stays. -/
theorem mem_claimTransactions (hkeyed : k.Keyed) (txs : List SignedTransaction) :
    (id ∈ k.mempool → id ∈ (txs.foldl claimTransaction k).mempool ∨
        (id ∈ (txs.foldl claimTransaction k).pendingTransactions ∧
          id ∈ txs.map SignedTransaction.txId)) ∧
      (id ∈ k.pendingTransactions → id ∈ (txs.foldl claimTransaction k).pendingTransactions) := by
  induction txs generalizing k with
  | nil => exact ⟨Or.inl, fun h => h⟩
  | cons tx txs ih =>
      have hkeyed' : Keyed (k.claimTransaction tx) := hkeyed.claimTransactions [tx]
      obtain ⟨hmempool, hpending⟩ := ih hkeyed'
      have hfirst : (id ∈ k.mempool → id ∈ (k.claimTransaction tx).mempool ∨
            (id ∈ (k.claimTransaction tx).pendingTransactions ∧ id = tx.txId)) ∧
          (id ∈ k.pendingTransactions → id ∈ (k.claimTransaction tx).pendingTransactions) := by
        unfold claimTransaction
        split
        · exact ⟨Or.inl, fun h => h⟩
        · rename_i own hown
          have hid := hkeyed.mempool _ own hown
          refine ⟨fun hmem => ?_, fun hmem => (AList.mem_insert _).mpr (Or.inr hmem)⟩
          by_cases heq : id = tx.txId
          · exact Or.inr ⟨(AList.mem_insert _).mpr (Or.inl (heq.trans hid.symm)), heq⟩
          · exact Or.inl (AList.mem_erase.mpr ⟨heq, hmem⟩)
      refine ⟨fun hmem => ?_, fun hmem => hpending (hfirst.2 hmem)⟩
      rcases hfirst.1 hmem with hstill | ⟨hclaimed, rfl⟩
      · exact (hmempool hstill).imp_right fun h => ⟨h.1, List.mem_cons_of_mem _ h.2⟩
      · exact Or.inr ⟨hpending hclaimed, List.mem_cons_self⟩

theorem addExternalBlock_retained (hkeyed : k.Keyed) (haccounted : k.Accounted)
    {block : BlockFile} (hfree : (k.addExternalBlock pf block).1.Collisionless)
    (h : Retained pf [] k id) : Retained pf [] (k.addExternalBlock pf block).1 id := by
  rcases addExternalBlock_cases pf k block with ⟨e, -, heq⟩ | ⟨hverify, -, hstages⟩
  · rw [heq]
    exact h
  obtain ⟨hmempool, hpending⟩ := @mem_claimTransactions k id hkeyed block.transactions
  have hstaged : k.Staged id → (k.addExternalBlock pf block).1.Staged id := by
    intro hstaged
    apply hstaged.insert haccounted hstages.uncommitedBlocks (fun _ hb => hstages.seen hb) _ hfree
    rw [Seen, hstages.received]
    exact Or.inr (List.mem_append_right _ (List.mem_singleton_self _))
  have hnew : id ∈ block.txIds → (k.addExternalBlock pf block).1.Staged id := by
    intro hid
    exact ⟨block.hash, block, by rw [hstages.uncommitedBlocks, AList.lookup_insert], hid⟩
  have hcommitted : Committed pf k id → Committed pf (k.addExternalBlock pf block).1 id :=
    fun hold => hold.congr hstages.dir hstages.state
  simp only [addExternalBlock, hverify] at hstaged hnew hcommitted ⊢
  rcases h with hmem | hold | ⟨hthere, howed | hold⟩
  · rcases hmempool hmem with hstill | ⟨hclaimed, hid⟩
    · exact Or.inl hstill
    · exact Or.inr (Or.inr ⟨hclaimed, Or.inr (hnew hid)⟩)
  · exact Or.inr (Or.inl (hcommitted hold))
  · exact absurd howed List.not_mem_nil
  · exact Or.inr (Or.inr ⟨hpending hthere, Or.inr (hstaged hold)⟩)

/-- A key that none of the transactions has is still there after erasing theirs. -/
theorem mem_foldl_erase {txs : List SignedTransaction} {m : HashMap String SignedTransaction}
    (hmem : id ∈ m) (hother : id ∉ txs.map SignedTransaction.txId) :
    id ∈ txs.foldl (fun m tx => m.erase tx.txId) m := by
  induction txs generalizing m with
  | nil => exact hmem
  | cons tx txs ih =>
      rw [List.map_cons, List.mem_cons, not_or] at hother
      exact ih (AList.mem_erase.mpr ⟨hother.1, hmem⟩) hother.2

/-- A block file stays when another block is committed, or fails to be. -/
theorem Committed.commitBlock (h : Committed pf k id) (blockHash : BlockHash) :
    Committed pf (k.commitBlock pf blockHash).1 id := by
  obtain ⟨index, b, ⟨hpos, hle, hfile⟩, hid⟩ := h
  have hother : BlockFile.blockFilenameForIndex index ≠
      BlockFile.blockFilenameForIndex (k.blockStorageState.blockHeight + 1) := by
    intro hname
    have hindex := BlockFile.blockFilenameForIndex_injective hname
    omega
  rcases commitBlock_cases pf k blockHash with
    ⟨-, e, heq⟩ | ⟨block, -, -, -, heq⟩ | ⟨block, fault, e, -, -, -, heq⟩
  · rw [heq]
    exact ⟨index, b, ⟨hpos, hle, hfile⟩, hid⟩
  · refine ⟨index, b, ⟨hpos, ?_, ?_⟩, hid⟩
    · rw [heq]
      exact Nat.le_succ_of_le hle
    · rw [heq]
      exact (AList.lookup_insert_ne hother).trans hfile
  · rw [heq]
    exact ⟨index, b, ⟨hpos, hle, (write_lookup_ne k.dir hother _).trans hfile⟩, hid⟩

theorem commitBlock_retained {blockHash : BlockHash} (h : Retained pf [] k id) :
    Retained pf [] (k.commitBlock pf blockHash).1 id := by
  rcases h with hmem | hold | ⟨hpending, howed | ⟨hash, b, hlookup, hid⟩⟩
  · refine Or.inl ?_
    rw [(commitBlock_memory pf k blockHash).1]
    exact hmem
  · exact Or.inr (Or.inl (hold.commitBlock blockHash))
  · exact absurd howed List.not_mem_nil
  -- A staged block stays staged, or is the one that is written.
  rcases commitBlock_cases pf k blockHash with
    ⟨-, e, heq⟩ | ⟨block, hblock, -, -, heq⟩ | ⟨block, fault, e, -, -, -, heq⟩
  · rw [heq]
    exact Or.inr (Or.inr ⟨hpending, Or.inr ⟨hash, b, hlookup, hid⟩⟩)
  · by_cases hin : id ∈ block.txIds
    · refine Or.inr (Or.inl
        ⟨k.blockStorageState.blockHeight + 1, block, ⟨Nat.succ_pos _, ?_, ?_⟩, hin⟩)
      · rw [heq]
      · rw [heq]
        exact AList.lookup_insert _
    · have hne : hash ≠ blockHash := by
        rintro rfl
        rw [hblock] at hlookup
        cases hlookup
        exact hin hid
      refine Or.inr (Or.inr ?_)
      rw [heq]
      exact ⟨mem_foldl_erase hpending hin,
        Or.inr ⟨hash, b, (AList.lookup_erase_ne hne).trans hlookup, hid⟩⟩
  · rw [heq]
    exact Or.inr (Or.inr ⟨hpending, Or.inr ⟨hash, b, hlookup, hid⟩⟩)

end Retained

-- ============================================================================
-- Runs
-- ============================================================================

section Runs

variable {pf : Platform} {k : BlockKeeper} {id : String}

/-- No operation loses a transaction, and an added one is there. -/
theorem operate_retained (hkeyed : k.Keyed) (haccounted : k.Accounted)
    {operation : StoreOperation} (hfree : (k.operate pf operation).Collisionless)
    (h : Retained pf [] k id ∨ ∃ tx, operation = .addTransaction tx ∧ tx.txId = id) :
    Retained pf [] (k.operate pf operation) id := by
  cases operation with
  | addTransaction transaction =>
      apply addTransaction_retained hkeyed haccounted hfree
      rcases h with hold | ⟨tx, heq, rfl⟩
      · exact Or.inr hold
      · cases heq
        exact Or.inl rfl
  | addExternalBlock block =>
      rcases h with hold | ⟨tx, heq, -⟩
      · exact addExternalBlock_retained hkeyed haccounted hfree hold
      · cases heq
  | commitBlock blockHash =>
      rcases h with hold | ⟨tx, heq, -⟩
      · exact commitBlock_retained hold
      · cases heq
  | rollbackBlock blockHash =>
      rcases h with hold | ⟨tx, heq, -⟩
      · exact rollbackBlock_retained hkeyed haccounted hfree hold
      · cases heq

theorem operateAll_seen {operations : List StoreOperation} (haccounted : k.Accounted)
    {b : BlockFile} (hb : k.Seen b) : (k.operateAll pf operations).Seen b := by
  induction operations generalizing k with
  | nil => exact hb
  | cons operation operations ih =>
      obtain ⟨haccounted', hseen⟩ := @operate_accounted pf k haccounted operation
      exact ih haccounted' (hseen b hb)

theorem operateAll_retained {operations : List StoreOperation} (hkeyed : k.Keyed)
    (haccounted : k.Accounted) (hfree : (k.operateAll pf operations).Collisionless)
    (h : Retained pf [] k id ∨ ∃ tx, .addTransaction tx ∈ operations ∧ tx.txId = id) :
    Retained pf [] (k.operateAll pf operations) id := by
  induction operations generalizing k with
  | nil =>
      rcases h with hold | ⟨tx, hmem, -⟩
      · exact hold
      · exact absurd hmem List.not_mem_nil
  | cons operation operations ih =>
      obtain ⟨haccounted', -⟩ := @operate_accounted pf k haccounted operation
      have hnow : (k.operate pf operation).Collisionless :=
        fun b b' hb hb' => hfree b b' (operateAll_seen haccounted' hb)
          (operateAll_seen haccounted' hb')
      apply ih (hkeyed.operate operation) haccounted' hfree
      rcases h with hold | ⟨tx, hmem, hid⟩
      · exact Or.inl (operate_retained hkeyed haccounted hnow (Or.inl hold))
      · rcases List.mem_cons.mp hmem with heq | hmem
        · exact Or.inl (operate_retained hkeyed haccounted hnow (Or.inr ⟨tx, heq.symm, hid⟩))
        · exact Or.inr ⟨tx, hmem, hid⟩

/-- Whatever is done with a new store, every transaction it was ever given is in
    the mempool, in a staged block or in a committed block file. -/
theorem admitted_retained {dir : BlockDir} {mempoolSize : Nat}
    {walk : HashMap.Walk BlockHash BlockFile} {operations : List StoreOperation}
    (hk : k = (new pf dir mempoolSize walk).operateAll pf operations) (hfree : k.Collisionless)
    {tx : SignedTransaction} (hadded : .addTransaction tx ∈ operations) :
    tx.txId ∈ k.mempool ∨ k.Staged tx.txId ∨ Committed pf k tx.txId := by
  subst hk
  rcases operateAll_retained (Keyed.new pf dir mempoolSize walk)
    (new_accounted pf dir mempoolSize walk) hfree (Or.inr ⟨tx, hadded, rfl⟩) with
    hmem | hcommitted | ⟨-, howed | hstaged⟩
  · exact Or.inl hmem
  · exact Or.inr (Or.inr hcommitted)
  · exact absurd howed List.not_mem_nil
  · exact Or.inr (Or.inl hstaged)

end Runs

end BlockKeeper

namespace Reference

/-- A packed block is rolled back, which packs it again, and then committed. -/
def packedAgain : List StoreOperation :=
  [.addTransaction deposit, .rollbackBlock (firstBlock deposit).hash,
    .commitBlock (firstBlock deposit).hash]

end Reference

namespace BlockKeeper

open Reference

theorem admitted_retained_packedAgain :
    (emptyStore.operateAll platform packedAgain).Collisionless ∧
      (deposit.txId ∈ (emptyStore.operateAll platform packedAgain).mempool ∨
        (emptyStore.operateAll platform packedAgain).Staged deposit.txId ∨
        Committed platform (emptyStore.operateAll platform packedAgain) deposit.txId) := by
  have hblocks : ∀ b ∈ (emptyStore.operateAll platform packedAgain).created ++
      (emptyStore.operateAll platform packedAgain).received,
      b = firstBlock deposit := by decide +kernel
  have hfree : (emptyStore.operateAll platform packedAgain).Collisionless := by
    intro b b' hb hb' _
    rw [hblocks b (List.mem_append.mpr hb), hblocks b' (List.mem_append.mpr hb')]
  have hstart : emptyStore.operateAll platform packedAgain =
      (new platform (.empty "data") 1 (.listed _ _)).operateAll platform packedAgain := rfl
  exact ⟨hfree, admitted_retained hstart hfree List.mem_cons_self⟩

-- ============================================================================
-- Rolling back
-- ============================================================================

/-- The ids in the mempool. -/
def poolIds (k : BlockKeeper) : Finset String := k.mempool.keys.toFinset

/-- The ids of the transactions that are pending. -/
def pendingIds (k : BlockKeeper) (txs : List SignedTransaction) : Finset String :=
  (txs.map SignedTransaction.txId).toFinset.filter (· ∈ k.pendingTransactions)

/-- Nothing is to be returned to the mempool, or it does not fill up with it. -/
def HasRoom (k : BlockKeeper) (txs : List SignedTransaction) : Prop :=
  k.pendingIds txs = ∅ ∨ (k.poolIds ∪ k.pendingIds txs).card < k.mempoolSize

variable {pf : Platform} {k : BlockKeeper}

theorem mem_poolIds {id : String} : id ∈ k.poolIds ↔ id ∈ k.mempool := by
  rw [poolIds, List.mem_toFinset, AList.mem_keys]

theorem mem_pendingIds {txs : List SignedTransaction} {id : String} :
    id ∈ k.pendingIds txs ↔ id ∈ txs.map SignedTransaction.txId ∧ id ∈ k.pendingTransactions := by
  rw [pendingIds, Finset.mem_filter, List.mem_toFinset]

theorem mem_pendingIds_cons {tx : SignedTransaction} {txs : List SignedTransaction}
    {id : String} :
    id ∈ k.pendingIds (tx :: txs) ↔
      (id = tx.txId ∨ id ∈ txs.map SignedTransaction.txId) ∧ id ∈ k.pendingTransactions := by
  rw [mem_pendingIds, List.map_cons, List.mem_cons]

/-- `return_transaction`: nothing is pending; or the mempool is full with the
    transaction and is packed; or the transaction goes to the mempool. -/
theorem returnTransaction_cases (hkeyed : k.Keyed) (tx : SignedTransaction) :
    (tx.txId ∉ k.pendingTransactions ∧ k.returnTransaction pf tx = k) ∨
      (tx.txId ∈ k.pendingTransactions ∧ k.mempoolSize ≤ (insert tx.txId k.poolIds).card ∧
        ∃ block, (k.returnTransaction pf tx).created = k.created ++ [block] ∧
          block.hash ∈ (k.returnTransaction pf tx).uncommitedBlocks) ∨
      (tx.txId ∈ k.pendingTransactions ∧ (insert tx.txId k.poolIds).card < k.mempoolSize ∧
        (k.returnTransaction pf tx).uncommitedBlocks = k.uncommitedBlocks ∧
        (k.returnTransaction pf tx).created = k.created ∧
        (k.returnTransaction pf tx).poolIds = insert tx.txId k.poolIds ∧
        (k.returnTransaction pf tx).pendingTransactions =
          k.pendingTransactions.erase tx.txId) := by
  cases hown : k.pendingTransactions.lookup tx.txId with
  | none =>
      refine Or.inl ⟨AList.lookup_eq_none.mp hown, ?_⟩
      rw [returnTransaction, hown]
  | some own =>
      have hid := hkeyed.pending _ own hown
      have hpending : tx.txId ∈ k.pendingTransactions :=
        AList.lookup_isSome.mp (Option.isSome_iff_exists.mpr ⟨own, hown⟩)
      have hinserted : (k.mempool.insert own.txId own).keys.toFinset =
          insert tx.txId k.poolIds := by
        ext id
        rw [List.mem_toFinset, ← AList.mem_keys, AList.mem_insert, Finset.mem_insert, mem_poolIds,
          hid]
      have hlength : (k.mempool.insert own.txId own).entries.length =
          (insert tx.txId k.poolIds).card := by
        rw [← hinserted, List.toFinset_card_of_nodup (AList.keys_nodup _)]
        exact (List.length_map _).symm
      simp only [returnTransaction, hown, addTransaction, hlength]
      by_cases hfull : (insert tx.txId k.poolIds).card ≥ k.mempoolSize
      · refine Or.inr (Or.inl ⟨hpending, hfull, ?_⟩)
        rw [if_pos hfull]
        exact ⟨_, rfl, (AList.mem_insert _).mpr (Or.inl rfl)⟩
      · refine Or.inr (Or.inr ⟨hpending, Nat.lt_of_not_le hfull, ?_⟩)
        rw [if_neg hfull]
        exact ⟨rfl, rfl, hinserted, rfl⟩

/-- A transaction that is not pending takes no room. -/
theorem pendingIds_cons_of_notMem {tx : SignedTransaction}
    (hnot : tx.txId ∉ k.pendingTransactions) (txs : List SignedTransaction) :
    k.pendingIds (tx :: txs) = k.pendingIds txs := by
  ext id
  rw [mem_pendingIds_cons, mem_pendingIds]
  constructor
  · rintro ⟨rfl | hrest, hthere⟩
    · exact absurd hthere hnot
    · exact ⟨hrest, hthere⟩
  · exact fun h => ⟨Or.inr h.1, h.2⟩

/-- There is no room if the first pending transaction fills the mempool. -/
theorem not_hasRoom_cons {tx : SignedTransaction} (hpending : tx.txId ∈ k.pendingTransactions)
    (hfull : k.mempoolSize ≤ (insert tx.txId k.poolIds).card) (txs : List SignedTransaction) :
    ¬ k.HasRoom (tx :: txs) := by
  have hfirst : tx.txId ∈ k.pendingIds (tx :: txs) :=
    mem_pendingIds_cons.mpr ⟨Or.inl rfl, hpending⟩
  rintro (hnone | hroom)
  · exact Finset.ne_empty_of_mem hfirst hnone
  · have hcard := Finset.card_le_card (Finset.insert_subset
      (Finset.mem_union_right k.poolIds hfirst) Finset.subset_union_left)
    omega

/-- Returning a transaction that fits moves it from the one set to the other. -/
theorem poolIds_union_returned {k' : BlockKeeper} {tx : SignedTransaction}
    (hpending : tx.txId ∈ k.pendingTransactions) (hpool : k'.poolIds = insert tx.txId k.poolIds)
    (hleft : k'.pendingTransactions = k.pendingTransactions.erase tx.txId)
    (txs : List SignedTransaction) :
    k'.poolIds ∪ k'.pendingIds txs = k.poolIds ∪ k.pendingIds (tx :: txs) := by
  ext id
  rw [hpool, Finset.mem_union, Finset.mem_union, Finset.mem_insert, mem_pendingIds_cons,
    mem_pendingIds, hleft, AList.mem_erase]
  by_cases heq : id = tx.txId
  · rw [heq]
    exact iff_of_true (Or.inl (Or.inl rfl)) (Or.inr ⟨Or.inl rfl, hpending⟩)
  · simp only [heq, false_or, ne_eq, not_false_eq_true, true_and]

/-- The rest fits after a transaction that fits if and only if all of them do. -/
theorem hasRoom_returned_iff {k' : BlockKeeper} {tx : SignedTransaction}
    (hpending : tx.txId ∈ k.pendingTransactions)
    (hless : (insert tx.txId k.poolIds).card < k.mempoolSize)
    (hsize : k'.mempoolSize = k.mempoolSize) (hpool : k'.poolIds = insert tx.txId k.poolIds)
    (hleft : k'.pendingTransactions = k.pendingTransactions.erase tx.txId)
    (txs : List SignedTransaction) : k'.HasRoom txs ↔ k.HasRoom (tx :: txs) := by
  have hunion := poolIds_union_returned hpending hpool hleft txs
  rw [HasRoom, HasRoom, hunion, hsize]
  constructor
  · rintro (hnone | hfits)
    · refine Or.inr ?_
      rw [← hunion, hnone, Finset.union_empty, hpool]
      exact hless
    · exact Or.inr hfits
  · intro h
    exact Or.inr (h.resolve_left
      (Finset.ne_empty_of_mem (mem_pendingIds_cons.mpr ⟨Or.inl rfl, hpending⟩)))

/-- The transactions fit the mempool and go there; or a block is packed on the
    way. -/
theorem returnTransactions_room (hkeyed : k.Keyed) (txs : List SignedTransaction) :
    (k.HasRoom txs ∧
        (txs.foldl (returnTransaction pf) k).uncommitedBlocks = k.uncommitedBlocks ∧
        (txs.foldl (returnTransaction pf) k).poolIds = k.poolIds ∪ k.pendingIds txs) ∨
      (¬ k.HasRoom txs ∧ ∃ new block,
        (txs.foldl (returnTransaction pf) k).created = k.created ++ new ∧ block ∈ new ∧
          block.hash ∈ (txs.foldl (returnTransaction pf) k).uncommitedBlocks) := by
  induction txs generalizing k with
  | nil => exact Or.inl ⟨Or.inl rfl, rfl, (Finset.union_empty _).symm⟩
  | cons tx txs ih =>
      rw [List.foldl_cons]
      rcases @returnTransaction_cases pf k hkeyed tx with ⟨hnot, hskip⟩ |
        ⟨hpending, hfull, block, hcreated, hstaged⟩ | ⟨hpending, hless, hstaged, hcreated, hpool, hleft⟩
      · rw [hskip, HasRoom, pendingIds_cons_of_notMem hnot]
        exact ih hkeyed
      · refine Or.inr ⟨not_hasRoom_cons hpending hfull txs, ?_⟩
        have hpacks := returnTransactions_packs pf (k.returnTransaction pf tx) txs
        obtain ⟨new, hnew, -⟩ := hpacks.created
        refine ⟨block :: new, block, ?_, List.mem_cons_self, hpacks.kept _ hstaged⟩
        rw [hnew, hcreated, List.append_assoc]
        rfl
      · have hroom := hasRoom_returned_iff hpending hless
          (returnTransaction_packs pf k tx).mempoolSize hpool hleft txs
        rcases ih (hkeyed.returnTransaction tx) with ⟨hfits, hstaged', hids⟩ | ⟨hno, hpacked⟩
        · exact Or.inl ⟨hroom.mp hfits, hstaged'.trans hstaged,
            hids.trans (poolIds_union_returned hpending hpool hleft txs)⟩
        · rw [hcreated] at hpacked
          exact Or.inr ⟨fun h => hno (hroom.mpr h), hpacked⟩

/-- The hashes that `add_transaction` has returned in `NewBlockCreated` during a
    run. -/
def handedOut (pf : Platform) : BlockKeeper → List StoreOperation → List BlockHash
  | _, [] => []
  | k, operation :: operations =>
    let rest := handedOut pf (k.operate pf operation) operations
    match operation with
    | .addTransaction transaction =>
      match (k.addTransaction pf transaction).2 with
      | .newBlockCreated blockHash => blockHash :: rest
      | .addedToMempool => rest
    | _ => rest

/-- `k'` is `k` with the block un-staged: it is gone, nothing is staged that was
    not before, and its pending transactions are in the mempool or in a block
    that a caller knows of. -/
structure Unstages (k k' : BlockKeeper) (handed : List BlockHash) (b : BlockFile) : Prop where
  gone : b.hash ∉ k'.uncommitedBlocks
  staged : ∀ hash block, k'.uncommitedBlocks.lookup hash = some block →
    k.uncommitedBlocks.lookup hash = some block
  returned : ∀ id ∈ b.txIds, id ∈ k.pendingTransactions →
    id ∈ k'.mempool ∨ ∃ block ∈ k'.created, block.hash ∈ handed ∧ id ∈ block.txIds

theorem operateAll_keyed (hkeyed : k.Keyed) (operations : List StoreOperation) :
    (k.operateAll pf operations).Keyed := by
  induction operations generalizing k with
  | nil => exact hkeyed
  | cons operation operations ih => exact ih (hkeyed.operate operation)

/-- In every state that a store can reach, rolling a staged block back un-stages
    it if the mempool has room for its pending transactions.  Otherwise a block is
    packed on the way and its hash dropped, and only if that hash is another staged
    block's can the block still count as un-staged. -/
theorem rollbackBlock_unstages {dir : BlockDir} {mempoolSize : Nat}
    {walk : HashMap.Walk BlockHash BlockFile} {operations : List StoreOperation}
    (hk : k = (new pf dir mempoolSize walk).operateAll pf operations) {b : BlockFile}
    (hb : k.uncommitedBlocks.lookup b.hash = some b) :
    (k.rollbackBlock pf b.hash).2 = .ok () ∧
      (k.HasRoom b.transactions → Unstages k (k.rollbackBlock pf b.hash).1
        (handedOut pf (new pf dir mempoolSize walk) operations) b) ∧
      (¬ k.HasRoom b.transactions → ∃ added packed,
        (k.rollbackBlock pf b.hash).1.created = k.created ++ added ∧ packed ∈ added ∧
          packed.hash ∈ (k.rollbackBlock pf b.hash).1.uncommitedBlocks ∧
          (Unstages k (k.rollbackBlock pf b.hash).1
              (handedOut pf (new pf dir mempoolSize walk) operations) b →
            packed.hash ≠ b.hash ∧ packed.hash ∈ k.uncommitedBlocks)) := by
  have hkeyed : k.Keyed := hk ▸ operateAll_keyed (Keyed.new pf dir mempoolSize walk) operations
  have hroom := @returnTransactions_room pf _ (hkeyed.unstage b.hash) b.transactions
  simp only [rollbackBlock, hb]
  rcases hroom with ⟨hfits, hstaged, hpool⟩ | ⟨hno, added, packed, hcreated, hmem, hstaged⟩
  · refine ⟨trivial, fun _ => ⟨?_, ?_, ?_⟩, fun hnot => absurd hfits hnot⟩
    · rw [hstaged, AList.mem_erase]
      exact fun h => h.1 rfl
    · intro hash block hlookup
      rw [hstaged, HashMap.lookup_erase_ite] at hlookup
      split at hlookup
      · cases hlookup
      · exact hlookup
    · intro id hid hpending
      refine Or.inl (mem_poolIds.mp ?_)
      rw [hpool]
      exact Finset.mem_union_right _ (mem_pendingIds.mpr ⟨hid, hpending⟩)
  · refine ⟨trivial, fun hfits => absurd hfits hno, fun _ =>
      ⟨added, packed, hcreated, hmem, hstaged, fun hunstages => ⟨?_, ?_⟩⟩⟩
    · exact fun heq => hunstages.gone (heq ▸ hstaged)
    · obtain ⟨block, hlookup⟩ := Option.isSome_iff_exists.mp (AList.lookup_isSome.mpr hstaged)
      exact AList.lookup_isSome.mp
        (Option.isSome_iff_exists.mpr ⟨block, hunstages.staged _ block hlookup⟩)

/-- An external block claims the deposit of a store that packs two at a time. -/
def claimed : List StoreOperation :=
  [.addTransaction deposit, .addExternalBlock (firstBlock deposit)]

/-- The claimed deposit goes back to the mempool. -/
theorem rollbackBlock_unstages_claimed :
    ∃ k b, k = (new platform (.empty "data") 2 (.listed _ _)).operateAll platform claimed ∧
      k.uncommitedBlocks.lookup b.hash = some b ∧
      Unstages k (k.rollbackBlock platform b.hash).1
        (handedOut platform (new platform (.empty "data") 2 (.listed _ _)) claimed) b := by
  have hlookup : ((new platform (.empty "data") 2 (.listed _ _)).operateAll platform
      claimed).uncommitedBlocks.lookup (firstBlock deposit).hash = some (firstBlock deposit) := by
    decide +kernel
  have hroom : ((new platform (.empty "data") 2 (.listed _ _)).operateAll platform
      claimed).HasRoom (firstBlock deposit).transactions :=
    Or.inr (by decide +kernel)
  exact ⟨_, firstBlock deposit, rfl, hlookup, (rollbackBlock_unstages rfl hlookup).2.1 hroom⟩

/-- A store that packs every transaction at once: the block it packed is staged
    again, under the same hash, by the time its rollback returns. -/
theorem rollbackBlock_packs_again :
    (emptyStore.operateAll platform [.addTransaction deposit]).uncommitedBlocks.lookup
        (firstBlock deposit).hash = some (firstBlock deposit) ∧
      ((emptyStore.operateAll platform [.addTransaction deposit]).rollbackBlock platform
        (firstBlock deposit).hash).2 = .ok () ∧
      (firstBlock deposit).hash ∈
        ((emptyStore.operateAll platform [.addTransaction deposit]).rollbackBlock platform
          (firstBlock deposit).hash).1.uncommitedBlocks :=
  ⟨by decide +kernel, by decide +kernel, by decide +kernel⟩

end BlockKeeper
end Rustchain
