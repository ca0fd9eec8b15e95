/-
  Rustchain.Storage.Transactions

  Which transactions a block store holds, wherever it holds them: in the
  mempool, under way, in a staged block or in a block file.

  Two properties of them are kept by every operation of the store, provided that
  what comes in from outside has them: that all satisfy a predicate
  (`HoldsOnly`), and that no id is in two places of the chain to be (`Once`).
-/

import Rustchain.Storage.Changes
import Rustchain.Storage.Filenames

namespace Rustchain

/-- The ids of a block's transactions, in order. -/
def BlockFile.txIds (block : BlockFile) : List String :=
  block.transactions.map SignedTransaction.txId

namespace BlockKeeper

/-- The block file with this index is committed and holds the block. -/
def CommittedAt (pf : Platform) (k : BlockKeeper) (index : Nat) (block : BlockFile) : Prop :=
  1 ≤ index ∧ index ≤ k.blockStorageState.blockHeight ∧
    k.dir.files.lookup (BlockFile.blockFilenameForIndex index) = some (pf.encodeBlock block)

instance (pf : Platform) (k : BlockKeeper) (index : Nat) (block : BlockFile) :
    Decidable (CommittedAt pf k index block) :=
  inferInstanceAs (Decidable (_ ∧ _ ∧ _))

-- ============================================================================
-- Block files
-- ============================================================================

section CommittedAt

variable {pf : Platform} {k k' : BlockKeeper} {index : Nat} {block : BlockFile}

/-- A block file holds one block. -/
theorem CommittedAt.unique (hdecode : ∀ b, pf.decodeBlock (pf.encodeBlock b) = .ok b)
    (h : CommittedAt pf k index block) {block' : BlockFile} (h' : CommittedAt pf k index block') :
    block = block' := by
  have hbytes := congrArg pf.decodeBlock (Option.some.inj (h.2.2.symm.trans h'.2.2))
  rw [hdecode, hdecode] at hbytes
  exact Except.ok.inj hbytes

theorem CommittedAt.congr (h : CommittedAt pf k' index block) (hdir : k'.dir = k.dir)
    (hstate : k'.blockStorageState = k.blockStorageState) : CommittedAt pf k index block := by
  unfold CommittedAt at h ⊢
  rw [hdir, hstate] at h
  exact h

/-- A write touches the file it names only. -/
theorem write_lookup_ne (dir : BlockDir) {filename other : String} (hne : other ≠ filename)
    (contents : Bytes) :
    (dir.write filename contents).1.files.lookup other = dir.files.lookup other := by
  unfold BlockDir.write
  split
  · exact AList.lookup_insert_ne hne
  · dsimp only
    split
    · exact AList.lookup_insert_ne hne
    · exact AList.lookup_erase_ne hne

/-- After `commit_block` a block file is one from before, or the next one with the
    block that was staged. -/
theorem CommittedAt.of_commitBlock (hdecode : ∀ b, pf.decodeBlock (pf.encodeBlock b) = .ok b)
    {blockHash : BlockHash} (h : CommittedAt pf (k.commitBlock pf blockHash).1 index block) :
    CommittedAt pf k index block ∨
      (index = k.blockStorageState.blockHeight + 1 ∧
        k.uncommitedBlocks.lookup blockHash = some block ∧
        (k.commitBlock pf blockHash).1.uncommitedBlocks = k.uncommitedBlocks.erase blockHash) := by
  obtain ⟨hpos, hle, hfile⟩ := h
  rcases commitBlock_cases pf k blockHash with
    ⟨-, e, heq⟩ | ⟨staged, hlookup, -, -, heq⟩ | ⟨staged, fault, e, -, -, -, heq⟩
  · rw [heq] at hle hfile
    exact Or.inl ⟨hpos, hle, hfile⟩
  · rw [heq] at hle hfile
    dsimp only at hle hfile
    rw [HashMap.lookup_insert_ite] at hfile
    split at hfile
    · rename_i hname
      have hindex := BlockFile.blockFilenameForIndex_injective hname
      have hsame : staged = block := by
        have hbytes := congrArg pf.decodeBlock (Option.some.inj hfile)
        rw [hdecode, hdecode] at hbytes
        exact Except.ok.inj hbytes
      subst hsame
      refine Or.inr ⟨hindex, hlookup, ?_⟩
      rw [heq]
    · rename_i hname
      have hne : index ≠ k.blockStorageState.blockHeight + 1 := fun h => hname (by rw [h])
      exact Or.inl ⟨hpos, by omega, hfile⟩
  · rw [heq] at hle hfile
    dsimp only at hle hfile
    have hne : BlockFile.blockFilenameForIndex index ≠
        BlockFile.blockFilenameForIndex (k.blockStorageState.blockHeight + 1) := by
      intro hname
      have hindex := BlockFile.blockFilenameForIndex_injective hname
      omega
    rw [write_lookup_ne k.dir hne] at hfile
    exact Or.inl ⟨hpos, hle, hfile⟩

end CommittedAt

/-- What `commit_block` leaves in memory was there before. -/
theorem commitBlock_memory (pf : Platform) (k : BlockKeeper) (blockHash : BlockHash) :
    (k.commitBlock pf blockHash).1.mempool = k.mempool ∧
      (∀ id tx, (k.commitBlock pf blockHash).1.pendingTransactions.lookup id = some tx →
        k.pendingTransactions.lookup id = some tx) ∧
      ∀ h b, (k.commitBlock pf blockHash).1.uncommitedBlocks.lookup h = some b →
        k.uncommitedBlocks.lookup h = some b := by
  rcases commitBlock_cases pf k blockHash with
    ⟨-, e, heq⟩ | ⟨staged, -, -, -, heq⟩ | ⟨staged, fault, e, -, -, -, heq⟩
  · rw [heq]
    exact ⟨rfl, fun _ _ h => h, fun _ _ h => h⟩
  · rw [heq]
    exact ⟨rfl, fun _ _ h => HashMap.lookup_foldl_erase h,
      HashMap.forall_erase (fun _ _ h => h) blockHash⟩
  · rw [heq]
    exact ⟨rfl, fun _ _ h => h, fun _ _ h => h⟩

-- ============================================================================
-- Only transactions of a kind
-- ============================================================================

/-- Every transaction in the store is good. -/
structure HoldsOnly (pf : Platform) (good : SignedTransaction → Prop) (k : BlockKeeper) :
    Prop where
  mempool : ∀ id tx, k.mempool.lookup id = some tx → good tx
  pending : ∀ id tx, k.pendingTransactions.lookup id = some tx → good tx
  staged : ∀ h b, k.uncommitedBlocks.lookup h = some b → ∀ tx ∈ b.transactions, good tx
  committed : ∀ index b, CommittedAt pf k index b → ∀ tx ∈ b.transactions, good tx

namespace HoldsOnly

variable {pf : Platform} {good : SignedTransaction → Prop} {k : BlockKeeper}

/-- A new store holds the transactions of its block files. -/
theorem new {dir : BlockDir} {mempoolSize : Nat} {walk : HashMap.Walk BlockHash BlockFile}
    (h : ∀ index b, CommittedAt pf (.new pf dir mempoolSize walk) index b →
      ∀ tx ∈ b.transactions, good tx) : HoldsOnly pf good (.new pf dir mempoolSize walk) where
  mempool := fun id tx hlookup => by cases hlookup
  pending := fun id tx hlookup => by cases hlookup
  staged := fun hash b hlookup => by cases hlookup
  committed := h

theorem addTransaction (h : HoldsOnly pf good k) {tx : SignedTransaction} (htx : good tx) :
    HoldsOnly pf good (k.addTransaction pf tx).1 := by
  have hinsert : ∀ id own, (k.mempool.insert tx.txId tx).lookup id = some own → good own :=
    HashMap.forall_insert h.mempool htx
  simp only [BlockKeeper.addTransaction]
  split
  · refine ⟨fun id own hlookup => (by cases hlookup), ?_, ?_, fun _ _ hat => ?_⟩
    · intro id own hlookup
      rcases HashMap.lookup_foldl_insert hlookup with hold | hnew
      · exact h.pending id own hold
      · exact hinsert id own (Option.mem_def.mp (List.mem_dlookup (AList.nodupKeys _) hnew))
    · intro hash b hlookup
      simp only [createNewBlock] at hlookup
      rw [HashMap.lookup_insert_ite] at hlookup
      split at hlookup
      · cases hlookup
        intro own hmem
        have hvalue : own ∈ HashMap.values (k.mempool.insert tx.txId tx) :=
          (List.mem_insertionSort _).mp hmem
        obtain ⟨id, hid⟩ := HashMap.lookup_of_mem_values hvalue
        exact hinsert id own hid
      · exact h.staged hash b hlookup
    · exact h.committed _ _ (hat.congr rfl rfl)
  · exact ⟨hinsert, h.pending, h.staged, fun _ _ hat => h.committed _ _ (hat.congr rfl rfl)⟩

theorem claimTransactions (h : HoldsOnly pf good k) (txs : List SignedTransaction) :
    HoldsOnly pf good (txs.foldl claimTransaction k) := by
  induction txs generalizing k with
  | nil => exact h
  | cons tx txs ih =>
      apply ih
      unfold claimTransaction
      cases hown : k.mempool.lookup tx.txId with
      | none => exact h
      | some own =>
          refine ⟨?_, ?_, h.staged, fun _ _ hat => h.committed _ _ (hat.congr rfl rfl)⟩
          · exact HashMap.forall_erase h.mempool _
          · exact HashMap.forall_insert h.pending (h.mempool _ _ hown)

theorem addExternalBlock (h : HoldsOnly pf good k) {block : BlockFile}
    (hblock : ∀ tx ∈ block.transactions, good tx) :
    HoldsOnly pf good (k.addExternalBlock pf block).1 := by
  unfold BlockKeeper.addExternalBlock
  split
  · exact h
  · have hclaimed := h.claimTransactions block.transactions
    exact ⟨hclaimed.mempool, hclaimed.pending, HashMap.forall_insert hclaimed.staged hblock,
      fun _ _ hat => hclaimed.committed _ _ (hat.congr rfl rfl)⟩

theorem commitBlock (hdecode : ∀ b, pf.decodeBlock (pf.encodeBlock b) = .ok b)
    (h : HoldsOnly pf good k) (blockHash : BlockHash) :
    HoldsOnly pf good (k.commitBlock pf blockHash).1 := by
  obtain ⟨hmempool, hpending, hstaged⟩ := commitBlock_memory pf k blockHash
  refine ⟨?_, fun id tx hlookup => h.pending id tx (hpending id tx hlookup),
    fun hash b hlookup => h.staged hash b (hstaged hash b hlookup), ?_⟩
  · rw [hmempool]
    exact h.mempool
  · intro index b hat
    rcases hat.of_commitBlock hdecode with hold | ⟨-, hnew, -⟩
    · exact h.committed index b hold
    · exact h.staged blockHash b hnew

theorem returnTransaction (h : HoldsOnly pf good k) (tx : SignedTransaction) :
    HoldsOnly pf good (k.returnTransaction pf tx) := by
  unfold BlockKeeper.returnTransaction
  cases hown : k.pendingTransactions.lookup tx.txId with
  | none => exact h
  | some own =>
      apply addTransaction _ (h.pending _ own hown)
      exact ⟨h.mempool, HashMap.forall_erase h.pending _, h.staged,
        fun _ _ hat => h.committed _ _ (hat.congr rfl rfl)⟩

theorem rollbackBlock (h : HoldsOnly pf good k) (blockHash : BlockHash) :
    HoldsOnly pf good (k.rollbackBlock pf blockHash).1 := by
  unfold BlockKeeper.rollbackBlock
  split
  · exact h
  · rename_i block _
    have herased : HoldsOnly pf good
        { k with uncommitedBlocks := k.uncommitedBlocks.erase blockHash } := by
      refine ⟨h.mempool, h.pending, ?_, fun _ _ hat => h.committed _ _ (hat.congr rfl rfl)⟩
      intro hash b hlookup
      rw [HashMap.lookup_erase_ite] at hlookup
      split at hlookup
      · cases hlookup
      · exact h.staged hash b hlookup
    have hreturned : ∀ (txs : List SignedTransaction) {k : BlockKeeper}, HoldsOnly pf good k →
        HoldsOnly pf good (txs.foldl (BlockKeeper.returnTransaction pf) k) := by
      intro txs
      induction txs with
      | nil => exact fun h => h
      | cons tx txs ih => exact fun h => ih (h.returnTransaction tx)
    exact hreturned block.transactions herased

end HoldsOnly

-- ============================================================================
-- Every transaction once
-- ============================================================================

/-- The id is in no staged block and in no block file. -/
structure Fresh (pf : Platform) (k : BlockKeeper) (id : String) : Prop where
  staged : ∀ h b, k.uncommitedBlocks.lookup h = some b → id ∉ b.txIds
  committed : ∀ index b, CommittedAt pf k index b → id ∉ b.txIds

/-- No id is in two block files, nor twice in one. -/
structure CommittedOnce (pf : Platform) (k : BlockKeeper) : Prop where
  nodup : ∀ index b, CommittedAt pf k index b → b.txIds.Nodup
  disjoint : ∀ i j b b', CommittedAt pf k i b → CommittedAt pf k j b' → i ≠ j →
    b.txIds.Disjoint b'.txIds

/-- No id is in two blocks that are staged or committed, nor twice in one; what is in
    the mempool is in none of them. -/
structure Once (pf : Platform) (k : BlockKeeper) : Prop where
  committed : CommittedOnce pf k
  /-- Both maps have transactions under their own ids. -/
  mempoolKeys : ∀ id tx, k.mempool.lookup id = some tx → tx.txId = id
  pendingKeys : ∀ id tx, k.pendingTransactions.lookup id = some tx → tx.txId = id
  mempoolFresh : ∀ id ∈ k.mempool, Fresh pf k id
  stagedNodup : ∀ h b, k.uncommitedBlocks.lookup h = some b → b.txIds.Nodup
  stagedDisjoint : ∀ h h' b b', k.uncommitedBlocks.lookup h = some b →
    k.uncommitedBlocks.lookup h' = some b' → h ≠ h' → b.txIds.Disjoint b'.txIds
  stagedNew : ∀ h b, k.uncommitedBlocks.lookup h = some b → ∀ index b',
    CommittedAt pf k index b' → b.txIds.Disjoint b'.txIds

theorem CommittedOnce.congr {pf : Platform} {k k' : BlockKeeper} (h : CommittedOnce pf k)
    (hdir : k'.dir = k.dir) (hstate : k'.blockStorageState = k.blockStorageState) :
    CommittedOnce pf k' where
  nodup := fun index b hat => h.nodup index b (hat.congr hdir hstate)
  disjoint := fun i j b b' hat hat' =>
    h.disjoint i j b b' (hat.congr hdir hstate) (hat'.congr hdir hstate)

theorem Fresh.congr {pf : Platform} {k k' : BlockKeeper} {id : String} (h : Fresh pf k id)
    (hdir : k'.dir = k.dir) (hstate : k'.blockStorageState = k.blockStorageState)
    (hstaged : ∀ hash b, k'.uncommitedBlocks.lookup hash = some b →
      k.uncommitedBlocks.lookup hash = some b) : Fresh pf k' id where
  staged := fun hash b hlookup => h.staged hash b (hstaged hash b hlookup)
  committed := fun index b hat => h.committed index b (hat.congr hdir hstate)

/-- The id is fresh when one more block is staged that it is not in. -/
theorem Fresh.insert {pf : Platform} {k k' : BlockKeeper} {id : String} (h : Fresh pf k id)
    (hdir : k'.dir = k.dir) (hstate : k'.blockStorageState = k.blockStorageState)
    {blockHash : BlockHash} {block : BlockFile}
    (hstaged : k'.uncommitedBlocks = k.uncommitedBlocks.insert blockHash block)
    (hid : id ∉ block.txIds) : Fresh pf k' id where
  staged := by
    rw [hstaged]
    exact HashMap.forall_insert h.staged hid
  committed := fun index b hat => h.committed index b (hat.congr hdir hstate)

/-- Every transaction is in the map under its own id. -/
def OwnIds (m : HashMap String SignedTransaction) : Prop :=
  ∀ id tx, m.lookup id = some tx → tx.txId = id

theorem OwnIds.insert {m : HashMap String SignedTransaction} (h : OwnIds m)
    (tx : SignedTransaction) : OwnIds (m.insert tx.txId tx) :=
  HashMap.forall_insert h rfl

namespace Once

variable {pf : Platform} {k k' : BlockKeeper}

theorem new {dir : BlockDir} {mempoolSize : Nat} {walk : HashMap.Walk BlockHash BlockFile}
    (h : CommittedOnce pf (.new pf dir mempoolSize walk)) :
    Once pf (.new pf dir mempoolSize walk) where
  committed := h
  mempoolKeys := fun id tx hlookup => by cases hlookup
  pendingKeys := fun id tx hlookup => by cases hlookup
  mempoolFresh := fun id hmem => absurd hmem (AList.notMem_empty id)
  stagedNodup := fun hash b hlookup => by cases hlookup
  stagedDisjoint := fun hash hash' b b' hlookup => by cases hlookup
  stagedNew := fun hash b hlookup => by cases hlookup

/-- One more block is staged, whose ids are fresh and no longer in the mempool. -/
theorem stage (h : Once pf k) (hdir : k'.dir = k.dir)
    (hstate : k'.blockStorageState = k.blockStorageState) {blockHash : BlockHash}
    {block : BlockFile} (hstaged : k'.uncommitedBlocks = k.uncommitedBlocks.insert blockHash block)
    (hnodup : block.txIds.Nodup) (hfresh : ∀ id ∈ block.txIds, Fresh pf k id)
    (hmempoolKeys : ∀ id tx, k'.mempool.lookup id = some tx → tx.txId = id)
    (hpendingKeys : ∀ id tx, k'.pendingTransactions.lookup id = some tx → tx.txId = id)
    (hmempool : ∀ id ∈ k'.mempool, Fresh pf k id ∧ id ∉ block.txIds) : Once pf k' where
  committed := h.committed.congr hdir hstate
  mempoolKeys := hmempoolKeys
  pendingKeys := hpendingKeys
  mempoolFresh := fun id hmem => (hmempool id hmem).1.insert hdir hstate hstaged (hmempool id hmem).2
  stagedNodup := by
    rw [hstaged]
    exact HashMap.forall_insert h.stagedNodup hnodup
  stagedDisjoint := by
    intro hash hash' b b' hlookup hlookup' hne
    rw [hstaged, HashMap.lookup_insert_ite] at hlookup hlookup'
    split at hlookup
    · rename_i heq
      cases hlookup
      rw [if_neg (fun h => hne (heq.trans h.symm))] at hlookup'
      exact fun id hid => (hfresh id hid).staged hash' b' hlookup'
    · split at hlookup'
      · cases hlookup'
        exact fun id hid hid' => (hfresh id hid').staged hash b hlookup hid
      · exact h.stagedDisjoint hash hash' b b' hlookup hlookup' hne
  stagedNew := by
    intro hash b hlookup index b' hat
    have hold := hat.congr hdir hstate
    rw [hstaged, HashMap.lookup_insert_ite] at hlookup
    split at hlookup
    · cases hlookup
      exact fun id hid => (hfresh id hid).committed index b' hold
    · exact h.stagedNew hash b hlookup index b' hold

/-- The ids of the values of a map with transactions under their own ids are its
    keys. -/
theorem txIds_values {m : HashMap String SignedTransaction}
    (hkeys : ∀ id tx, m.lookup id = some tx → tx.txId = id) :
    m.values.map SignedTransaction.txId = m.keys := by
  rw [HashMap.values, AList.keys, List.keys, List.map_map]
  apply List.map_congr_left
  intro e hmem
  exact hkeys e.1 e.2 (Option.mem_def.mp (List.mem_dlookup m.nodupKeys hmem))

theorem nodup_txIds {m : HashMap String SignedTransaction} (h : OwnIds m) :
    (m.values.map SignedTransaction.txId).Nodup := by
  rw [txIds_values h]
  exact m.keys_nodup

/-- The block packed of such a map holds its keys. -/
theorem txIds_packed (pf : Platform) {m : HashMap String SignedTransaction}
    (hkeys : ∀ id tx, m.lookup id = some tx → tx.txId = id) (k : BlockKeeper) :
    ((BlockFile.create pf (m.values.insertionSort fun a b => a.txId ≤ b.txId)
      k.blockStorageState.lastCommitedHash (k.blockStorageState.blockHeight + 1)).txIds).Perm
        m.keys := by
  rw [← txIds_values hkeys]
  exact (List.perm_insertionSort _ _).map _

theorem insert_keys (h : Once pf k) (tx : SignedTransaction) (id : String)
    (own : SignedTransaction) (hlookup : (k.mempool.insert tx.txId tx).lookup id = some own) :
    own.txId = id :=
  OwnIds.insert h.mempoolKeys tx id own hlookup

/-- `add_transaction` with a fresh id. -/
theorem addTransaction (h : Once pf k) {tx : SignedTransaction} (hfresh : Fresh pf k tx.txId) :
    Once pf (k.addTransaction pf tx).1 := by
  have hkeys := h.insert_keys tx
  have hmempool : ∀ id ∈ k.mempool.insert tx.txId tx, Fresh pf k id := by
    intro id hmem
    rcases (AList.mem_insert _).mp hmem with rfl | hmem
    · exact hfresh
    · exact h.mempoolFresh id hmem
  simp only [BlockKeeper.addTransaction]
  split
  · -- The mempool with the new transaction goes into a block.
    generalize k.mempool.insert tx.txId tx = mempool at hkeys hmempool
    have hids := txIds_packed pf hkeys k
    refine h.stage rfl rfl rfl ?_ ?_ (fun id own hlookup => by cases hlookup) ?_
      (fun id hmem => absurd hmem (AList.notMem_empty id))
    · exact hids.nodup_iff.mpr mempool.keys_nodup
    · exact fun id hid => hmempool id (AList.mem_keys.mpr (hids.mem_iff.mp hid))
    · intro id own hlookup
      rcases HashMap.lookup_foldl_insert hlookup with hold | hnew
      · exact h.pendingKeys id own hold
      · exact hkeys id own (Option.mem_def.mp (List.mem_dlookup mempool.nodupKeys hnew))
  · refine ⟨h.committed.congr rfl rfl, hkeys, h.pendingKeys, ?_, h.stagedNodup, h.stagedDisjoint,
      fun hash b hlookup index b' hat => h.stagedNew hash b hlookup index b' (hat.congr rfl rfl)⟩
    exact fun id hmem => (hmempool id hmem).congr rfl rfl fun _ _ h => h

/-- An id that is fresh and neither in the mempool nor the one added stays so. -/
theorem addTransaction_apart (h : Once pf k) {tx : SignedTransaction} {id : String}
    (hfresh : Fresh pf k id) (hmempool : id ∉ k.mempool) (hne : id ≠ tx.txId) :
    Fresh pf (k.addTransaction pf tx).1 id ∧ id ∉ (k.addTransaction pf tx).1.mempool := by
  have hapart : id ∉ k.mempool.insert tx.txId tx := by
    rw [AList.mem_insert, not_or]
    exact ⟨hne, hmempool⟩
  have hkeys := h.insert_keys tx
  simp only [BlockKeeper.addTransaction]
  split
  · refine ⟨hfresh.insert rfl rfl rfl ?_, AList.notMem_empty id⟩
    intro hid
    exact hapart (AList.mem_keys.mpr ((txIds_packed pf hkeys k).mem_iff.mp hid))
  · exact ⟨hfresh.congr rfl rfl fun _ _ h => h, hapart⟩

/-- Moving the transactions of a block out of the mempool. -/
theorem claimTransactions (h : Once pf k) (txs : List SignedTransaction) :
    Once pf (txs.foldl claimTransaction k) ∧
      ∀ id ∈ (txs.foldl claimTransaction k).mempool,
        id ∈ k.mempool ∧ id ∉ txs.map SignedTransaction.txId := by
  induction txs generalizing k with
  | nil => exact ⟨h, fun id hmem => ⟨hmem, List.not_mem_nil⟩⟩
  | cons tx txs ih =>
      have hclaim : Once pf (k.claimTransaction tx) ∧ ∀ id ∈ (k.claimTransaction tx).mempool,
          id ∈ k.mempool ∧ id ≠ tx.txId := by
        unfold claimTransaction
        cases hown : k.mempool.lookup tx.txId with
        | none =>
            refine ⟨h, fun id hmem => ⟨hmem, ?_⟩⟩
            rintro rfl
            exact AList.lookup_eq_none.mp hown hmem
        | some own =>
            refine ⟨⟨h.committed.congr rfl rfl, ?_, ?_, ?_, h.stagedNodup, h.stagedDisjoint,
              fun hash b hlookup index b' hat =>
                h.stagedNew hash b hlookup index b' (hat.congr rfl rfl)⟩, ?_⟩
            · exact HashMap.forall_erase h.mempoolKeys _
            · exact HashMap.forall_insert h.pendingKeys rfl
            · intro id hmem
              exact (h.mempoolFresh id (AList.mem_erase.mp hmem).2).congr rfl rfl fun _ _ h => h
            · intro id hmem
              exact ⟨(AList.mem_erase.mp hmem).2, (AList.mem_erase.mp hmem).1⟩
      obtain ⟨honce, hmempool⟩ := ih hclaim.1
      refine ⟨honce, ?_⟩
      intro id hmem
      obtain ⟨hthere, hother⟩ := hmempool id hmem
      obtain ⟨hthere, hne⟩ := hclaim.2 id hthere
      refine ⟨hthere, ?_⟩
      rw [List.map_cons, List.mem_cons, not_or]
      exact ⟨hne, hother⟩

/-- `add_external_block` with a block of distinct, fresh ids. -/
theorem addExternalBlock (h : Once pf k) {block : BlockFile} (hnodup : block.txIds.Nodup)
    (hfresh : ∀ id ∈ block.txIds, Fresh pf k id) : Once pf (k.addExternalBlock pf block).1 := by
  unfold BlockKeeper.addExternalBlock
  split
  · exact h
  · obtain ⟨hclaimed, hmempool⟩ := h.claimTransactions block.transactions
    have hsame := claimTransactions_sameBlocks k block.transactions
    have hstaged := congrArg (AList.insert block.hash block) hsame.uncommitedBlocks
    refine h.stage hsame.dir hsame.state hstaged hnodup hfresh hclaimed.mempoolKeys
      hclaimed.pendingKeys ?_
    exact fun id hmem => ⟨h.mempoolFresh id (hmempool id hmem).1, (hmempool id hmem).2⟩

theorem commitBlock (hdecode : ∀ b, pf.decodeBlock (pf.encodeBlock b) = .ok b) (h : Once pf k)
    (blockHash : BlockHash) : Once pf (k.commitBlock pf blockHash).1 := by
  obtain ⟨hmempool, hpending, hstaged⟩ := commitBlock_memory pf k blockHash
  -- A staged block and a block file after the commit are two different blocks.
  have hnew : ∀ hash b, (k.commitBlock pf blockHash).1.uncommitedBlocks.lookup hash = some b →
      ∀ index b', CommittedAt pf (k.commitBlock pf blockHash).1 index b' →
      b.txIds.Disjoint b'.txIds := by
    intro hash b hlookup index b' hat
    rcases hat.of_commitBlock hdecode with hold | ⟨-, hnew, herased⟩
    · exact h.stagedNew hash b (hstaged hash b hlookup) index b' hold
    · rw [herased, HashMap.lookup_erase_ite] at hlookup
      split at hlookup
      · cases hlookup
      · rename_i hne
        exact h.stagedDisjoint hash blockHash b b' hlookup hnew hne
  refine ⟨⟨?_, ?_⟩, ?_, fun id tx hlookup => h.pendingKeys id tx (hpending id tx hlookup), ?_,
    fun hash b hlookup => h.stagedNodup hash b (hstaged hash b hlookup),
    fun hash hash' b b' hlookup hlookup' => h.stagedDisjoint hash hash' b b'
      (hstaged hash b hlookup) (hstaged hash' b' hlookup'), hnew⟩
  · intro index b hat
    rcases hat.of_commitBlock hdecode with hold | ⟨-, hnew, -⟩
    · exact h.committed.nodup index b hold
    · exact h.stagedNodup blockHash b hnew
  · intro i j b b' hat hat' hne
    rcases hat.of_commitBlock hdecode with hold | ⟨hi, hstage, -⟩
    · rcases hat'.of_commitBlock hdecode with hold' | ⟨-, hstage', -⟩
      · exact h.committed.disjoint i j b b' hold hold' hne
      · exact fun id hid hid' => h.stagedNew blockHash b' hstage' i b hold hid' hid
    · rcases hat'.of_commitBlock hdecode with hold' | ⟨hj, -, -⟩
      · exact h.stagedNew blockHash b hstage j b' hold'
      · exact absurd (hi.trans hj.symm) hne
  · rw [hmempool]
    exact h.mempoolKeys
  · rw [hmempool]
    intro id hmem
    have hfresh := h.mempoolFresh id hmem
    refine ⟨fun hash b hlookup => hfresh.staged hash b (hstaged hash b hlookup), ?_⟩
    intro index b hat
    rcases hat.of_commitBlock hdecode with hold | ⟨-, hnew, -⟩
    · exact hfresh.committed index b hold
    · exact hfresh.staged blockHash b hnew

/-- Returning transactions to the mempool whose ids are distinct, fresh and not in
    it. -/
theorem returnTransactions (txs : List SignedTransaction) (h : Once pf k)
    (hnodup : (txs.map SignedTransaction.txId).Nodup)
    (hfresh : ∀ tx ∈ txs, Fresh pf k tx.txId ∧ tx.txId ∉ k.mempool) :
    Once pf (txs.foldl (returnTransaction pf) k) := by
  induction txs generalizing k with
  | nil => exact h
  | cons tx txs ih =>
      rw [List.map_cons, List.nodup_cons] at hnodup
      rw [List.foldl_cons]
      unfold returnTransaction
      cases hown : k.pendingTransactions.lookup tx.txId with
      | none => exact ih h hnodup.2 fun other hmem => hfresh other (List.mem_cons_of_mem tx hmem)
      | some own =>
          have hid := h.pendingKeys _ own hown
          let taken : BlockKeeper :=
            { k with pendingTransactions := k.pendingTransactions.erase tx.txId }
          have htaken : Once pf taken := by
            refine ⟨h.committed.congr rfl rfl, h.mempoolKeys, ?_, ?_, h.stagedNodup,
              h.stagedDisjoint, fun hash b hlookup index b' hat =>
                h.stagedNew hash b hlookup index b' (hat.congr rfl rfl)⟩
            · exact HashMap.forall_erase h.pendingKeys _
            · exact fun id hmem => (h.mempoolFresh id hmem).congr rfl rfl fun _ _ h => h
          have hfirst : Fresh pf taken own.txId := by
            rw [hid]
            exact (hfresh tx List.mem_cons_self).1.congr rfl rfl fun _ _ h => h
          refine ih (htaken.addTransaction hfirst) hnodup.2 ?_
          intro other hmem
          obtain ⟨hother, hmempool⟩ := hfresh other (List.mem_cons_of_mem tx hmem)
          have hne : other.txId ≠ own.txId := by
            rw [hid]
            exact fun heq => hnodup.1 (heq ▸ List.mem_map_of_mem hmem)
          exact addTransaction_apart htaken (hother.congr rfl rfl fun _ _ h => h) hmempool hne

theorem rollbackBlock (h : Once pf k) (blockHash : BlockHash) :
    Once pf (k.rollbackBlock pf blockHash).1 := by
  unfold BlockKeeper.rollbackBlock
  cases hblock : k.uncommitedBlocks.lookup blockHash with
  | none => exact h
  | some block =>
      have hkept : ∀ hash b, (k.uncommitedBlocks.erase blockHash).lookup hash = some b →
          k.uncommitedBlocks.lookup hash = some b ∧ hash ≠ blockHash := by
        intro hash b hlookup
        rw [HashMap.lookup_erase_ite] at hlookup
        split at hlookup
        · cases hlookup
        · rename_i hne
          exact ⟨hlookup, hne⟩
      apply returnTransactions block.transactions
      · refine ⟨h.committed.congr rfl rfl, h.mempoolKeys, h.pendingKeys, ?_,
          fun hash b hlookup => h.stagedNodup hash b (hkept hash b hlookup).1,
          fun hash hash' b b' hlookup hlookup' => h.stagedDisjoint hash hash' b b'
            (hkept hash b hlookup).1 (hkept hash' b' hlookup').1,
          fun hash b hlookup index b' hat =>
            h.stagedNew hash b (hkept hash b hlookup).1 index b' (hat.congr rfl rfl)⟩
        exact fun id hmem => (h.mempoolFresh id hmem).congr rfl rfl fun hash b hlookup =>
          (hkept hash b hlookup).1
      · exact h.stagedNodup blockHash block hblock
      · intro tx hmem
        have hid : tx.txId ∈ block.txIds := List.mem_map_of_mem hmem
        refine ⟨⟨?_, ?_⟩, fun hmempool =>
          (h.mempoolFresh _ hmempool).staged blockHash block hblock hid⟩
        · intro hash b hlookup
          obtain ⟨hold, hne⟩ := hkept hash b hlookup
          exact h.stagedDisjoint blockHash hash block b hblock hold hne.symm hid
        · exact fun index b hat => h.stagedNew blockHash block hblock index b (hat.congr rfl rfl) hid

end Once

end BlockKeeper
end Rustchain
