/-
  Rustchain.Storage.Reopening

  What `BlockKeeper::new` makes of a directory of block files.

  It takes the last name in string order for the last block.  The names are
  padded to five digits, so string order is block order up to block 99999 and no
  further.  And it takes a last file that it cannot read for an empty directory:
  the next commit then writes block 1 over the one that is there.
-/

import Rustchain.Storage.Operations
import Rustchain.Storage.Recovery
import Rustchain.Storage.Transactions

namespace Rustchain

-- ============================================================================
-- The names in a directory
-- ============================================================================

namespace BlockDir

/-- The files are those of the blocks `1..n`. -/
def HoldsBlocks (dir : BlockDir) (n : Nat) : Prop :=
  ∀ filename, filename ∈ dir.files ↔ ∃ i < n, filename = BlockFile.blockFilenameForIndex (i + 1)

/-- The names of the blocks `1..n`, in the order of the blocks. -/
def blockNames (n : Nat) : List String :=
  (List.range n).map fun i => BlockFile.blockFilenameForIndex (i + 1)

variable {dir : BlockDir} {n : Nat}

theorem HoldsBlocks.listAllBlocks_perm (h : dir.HoldsBlocks n) :
    dir.listAllBlocks.Perm (blockNames n) := by
  have hnodup : dir.listAllBlocks.Nodup :=
    (List.perm_insertionSort _ _).nodup_iff.mpr (dir.files.keys_nodup.filter _)
  have hnodup' : (blockNames n).Nodup :=
    List.nodup_range.map fun i j hij =>
      Nat.succ.inj (BlockFile.blockFilenameForIndex_injective hij)
  rw [List.perm_ext_iff_of_nodup hnodup hnodup']
  intro filename
  rw [listAllBlocks, List.mem_insertionSort, List.mem_filter, ← AList.mem_keys, h filename,
    blockNames, List.mem_map]
  constructor
  · rintro ⟨⟨i, hi, rfl⟩, -⟩
    exact ⟨i, List.mem_range.mpr hi, rfl⟩
  · rintro ⟨i, hi, rfl⟩
    exact ⟨⟨i, List.mem_range.mp hi, rfl⟩, BlockFile.isBlockFilename_blockFilenameForIndex _⟩

theorem pairwise_blockNames (h : n ≤ 99999) : (blockNames n).Pairwise (· ≤ ·) := by
  rw [blockNames, List.pairwise_map]
  apply List.pairwise_lt_range.imp_of_mem
  intro i j _ hj hlt
  have hj' := List.mem_range.mp hj
  exact (BlockFile.blockFilenameForIndex_lt (by omega) (by omega)).le

/-- Five digits are not enough for the next block. -/
theorem not_pairwise_blockNames (h : 99999 < n) : ¬ (blockNames n).Pairwise (· ≤ ·) := by
  rw [blockNames, List.pairwise_map, List.pairwise_iff_getElem]
  intro hsorted
  have hle := hsorted 99998 99999 (by simp; omega) (by simp; omega) (by omega)
  rw [List.getElem_range, List.getElem_range] at hle
  exact absurd hle (by decide +kernel)

/-- The blocks are listed in their own order up to block 99999 and no further. -/
theorem HoldsBlocks.listAllBlocks_iff (h : dir.HoldsBlocks n) :
    dir.listAllBlocks = blockNames n ↔ n ≤ 99999 := by
  have hsorted : dir.listAllBlocks.Pairwise (· ≤ ·) := List.pairwise_insertionSort (· ≤ ·) _
  constructor
  · intro heq
    by_contra hmany
    exact not_pairwise_blockNames (Nat.lt_of_not_le hmany) (heq ▸ hsorted)
  · intro hfew
    apply h.listAllBlocks_perm.eq_of_pairwise _ hsorted (pairwise_blockNames hfew)
    intro a b _ _ hab hba
    exact le_antisymm hab hba

theorem HoldsBlocks.getLast_listAllBlocks (h : dir.HoldsBlocks (n + 1)) (hfew : n + 1 ≤ 99999) :
    dir.listAllBlocks.getLast? = some (BlockFile.blockFilenameForIndex (n + 1)) := by
  rw [h.listAllBlocks_iff.mpr hfew, blockNames, List.range_succ, List.map_append]
  exact List.getLast?_concat

end BlockDir

namespace BlockKeeper

variable {pf : Platform} {k k' : BlockKeeper}

/-- The store opened on blocks `1..n+1` starts from the last of them if it can be
    read, and from nothing otherwise. -/
theorem new_state {dir : BlockDir} {n : Nat} (h : dir.HoldsBlocks (n + 1)) (hfew : n + 1 ≤ 99999)
    (mempoolSize : Nat) (walk : HashMap.Walk BlockHash BlockFile) :
    (new pf dir mempoolSize walk).blockStorageState =
      match BlockFile.readFromDiskByIndex pf dir (n + 1) with
      | .ok block => { blockHeight := n + 1, lastCommitedHash := block.hash }
      | .error _ => { blockHeight := 0, lastCommitedHash := emptyHash } := by
  unfold new BlockFile.readFromDiskByIndex
  rw [h.getLast_listAllBlocks hfew]
  cases hread : BlockFile.readFromDisk pf dir (BlockFile.blockFilenameForIndex (n + 1)) with
  | error e => simp only [hread]
  | ok block => simp only [hread, BlockFile.blockIndexOf_blockFilenameForIndex]

-- ============================================================================
-- Recovering the tip
-- ============================================================================

/-- The files are the blocks committed so far, the last of them is the tip, and
    every block is staged under its own hash. -/
structure Recorded (pf : Platform) (k : BlockKeeper) (hashes : List BlockHash) : Prop where
  disk : OnDisk pf k hashes
  tip : k.blockStorageState.lastCommitedHash = hashes.getLastD emptyHash
  staged : k.Accounted

theorem Recorded.operate {hashes : List BlockHash} (h : Recorded pf k hashes)
    (operation : StoreOperation) : ∃ hashes', Recorded pf (k.operate pf operation) hashes' := by
  cases operation with
  | addTransaction transaction =>
      have hpacks := addTransaction_packs pf k transaction
      exact ⟨hashes, h.disk.congr hpacks.dir hpacks.state, hpacks.state ▸ h.tip,
        hpacks.accounted h.staged⟩
  | addExternalBlock block =>
      show ∃ hashes', Recorded pf (k.addExternalBlock pf block).1 hashes'
      rcases addExternalBlock_cases pf k block with ⟨e, -, heq⟩ | ⟨-, -, hstages⟩
      · rw [heq]
        exact ⟨hashes, h⟩
      · exact ⟨hashes, h.disk.congr hstages.dir hstages.state, hstages.state ▸ h.tip,
          hstages.accounted h.staged⟩
  | commitBlock blockHash =>
      show ∃ hashes', Recorded pf (k.commitBlock pf blockHash).1 hashes'
      cases hlookup : k.uncommitedBlocks.lookup blockHash with
      | none =>
          rw [commitBlock, hlookup]
          exact ⟨hashes, h⟩
      | some block =>
          obtain ⟨rfl, -⟩ := h.staged blockHash block hlookup
          have hcommits := (commitBlock_commits pf hlookup (h.disk.writable _)).2
          refine ⟨hashes ++ [block.hash], h.disk.commits hcommits, ?_, ?_⟩
          · rw [hcommits.tip, List.getLastD_concat]
          · intro hash b hlookup'
            rw [hcommits.uncommitedBlocks] at hlookup'
            obtain ⟨hhash, hseen⟩ := erase_accounted h.staged block.hash hash b hlookup'
            refine ⟨hhash, ?_⟩
            rw [Seen, hcommits.created, hcommits.received]
            exact hseen
  | rollbackBlock blockHash =>
      show ∃ hashes', Recorded pf (k.rollbackBlock pf blockHash).1 hashes'
      rcases rollbackBlock_cases pf k blockHash with ⟨-, e, heq⟩ | ⟨block, -, -, hpacks⟩
      · rw [heq]
        exact ⟨hashes, h⟩
      · exact ⟨hashes, h.disk.congr hpacks.dir hpacks.state, hpacks.state ▸ h.tip,
          hpacks.accounted (erase_accounted h.staged blockHash)⟩

theorem Recorded.operateAll {hashes : List BlockHash} (h : Recorded pf k hashes)
    (operations : List StoreOperation) :
    ∃ hashes', Recorded pf (k.operateAll pf operations) hashes' := by
  induction operations generalizing k hashes with
  | nil => exact ⟨hashes, h⟩
  | cons operation operations ih =>
      obtain ⟨hashes', h'⟩ := h.operate operation
      exact ih h'

/-- A store opened on the directory of `k` starts where `k` is: same height, the
    hash of the last block as tip, and the block files listed in block order. -/
structure Recovers (pf : Platform) (k reopened : BlockKeeper) : Prop where
  height : reopened.blockStorageState.blockHeight = k.blockStorageState.blockHeight
  tip : reopened.blockStorageState.lastCommitedHash = k.blockStorageState.lastCommitedHash
  block : 1 ≤ k.blockStorageState.blockHeight → ∃ b,
    BlockFile.readFromDiskByIndex pf k.dir k.blockStorageState.blockHeight = .ok b ∧
      reopened.blockStorageState.lastCommitedHash = b.hash
  listed : k.dir.listAllBlocks = BlockDir.blockNames k.blockStorageState.blockHeight

theorem OnDisk.holdsBlocks {hashes : List BlockHash} (h : OnDisk pf k hashes) :
    k.dir.HoldsBlocks hashes.length := by
  intro filename
  constructor
  · exact h.names filename
  · rintro ⟨i, hi, rfl⟩
    obtain ⟨b, hfile, -⟩ := h.blocks i hi
    exact AList.lookup_isSome.mp (Option.isSome_iff_exists.mpr ⟨_, hfile⟩)

theorem Recorded.recovers_iff (hpf : pf.Lawful) {hashes : List BlockHash}
    (h : Recorded pf k hashes) (mempoolSize : Nat) (walk : HashMap.Walk BlockHash BlockFile) :
    Recovers pf k (new pf k.dir mempoolSize walk) ↔ k.blockStorageState.blockHeight ≤ 99999 := by
  have hholds := h.disk.holdsBlocks
  rw [← h.disk.height] at hholds
  constructor
  · intro hrecovers
    exact hholds.listAllBlocks_iff.mp hrecovers.listed
  · intro hfew
    have hlisted := hholds.listAllBlocks_iff.mpr hfew
    cases hheight : k.blockStorageState.blockHeight with
    | zero =>
        have hempty : hashes = [] := List.length_eq_zero_iff.mp (h.disk.height.symm.trans hheight)
        rw [hheight] at hlisted
        have hnil : k.dir.listAllBlocks = [] := hlisted
        have hstate : (new pf k.dir mempoolSize walk).blockStorageState =
            { blockHeight := 0, lastCommitedHash := emptyHash } := by
          simp only [new, hnil, List.getLast?_nil]
        refine ⟨by rw [hstate, hheight], ?_, fun hpos => by omega, by rw [hheight, hnil]; rfl⟩
        rw [hstate, h.tip, hempty]
        rfl
    | succ n =>
        have hlength : hashes.length = n + 1 := h.disk.height.symm.trans hheight
        have hlast : n < hashes.length := by omega
        obtain ⟨b, hread, hhash⟩ := h.disk.read hpf hlast
        rw [hheight] at hholds hfew
        have hstate : (new pf k.dir mempoolSize walk).blockStorageState =
            { blockHeight := n + 1, lastCommitedHash := b.hash } := by
          rw [new_state hholds hfew, hread]
        have htip : k.blockStorageState.lastCommitedHash = b.hash := by
          have hindex : hashes.length - 1 = n := by omega
          rw [h.tip, hhash, List.getLastD_eq_getLast?, List.getLast?_eq_getElem?, hindex,
            List.getElem?_eq_getElem hlast]
          rfl
        refine ⟨by rw [hstate, hheight], by rw [hstate, htip], fun _ => ⟨b, ?_, by rw [hstate]⟩,
          hlisted⟩
        rw [hheight]
        exact hread

/-- A store that starts from an empty directory and is opened again after any
    operations recovers its tip and the order of its blocks if and only if it has
    at most 99999 blocks. -/
theorem reopening_recovers_iff (hpf : pf.Lawful) (path : String) (mempoolSize : Nat)
    (walk : HashMap.Walk BlockHash BlockFile) (operations : List StoreOperation)
    (mempoolSize' : Nat) (walk' : HashMap.Walk BlockHash BlockFile) :
    Recovers pf ((new pf (.empty path) mempoolSize walk).operateAll pf operations)
        (new pf ((new pf (.empty path) mempoolSize walk).operateAll pf operations).dir mempoolSize'
          walk') ↔
      ((new pf (.empty path) mempoolSize walk).operateAll pf
        operations).blockStorageState.blockHeight ≤ 99999 := by
  have hstart : Recorded pf (new pf (.empty path) mempoolSize walk) [] :=
    ⟨new_onDisk pf path mempoolSize walk, rfl, new_accounted pf _ mempoolSize walk⟩
  obtain ⟨hashes, hrecorded⟩ := hstart.operateAll operations
  exact hrecorded.recovers_iff hpf mempoolSize' walk'

end BlockKeeper

namespace Reference

open BlockKeeper

/-- Stages and commits the blocks of the chain of empty blocks, up to number `n`. -/
def growTo (n : Nat) : List StoreOperation :=
  (List.range n).flatMap fun i =>
    [.addExternalBlock (emptyBlock (i + 1)), .commitBlock (emptyBlock (i + 1)).hash]

theorem height_growTo (n : Nat) :
    (emptyStore.operateAll platform (growTo n)).blockStorageState.blockHeight = n ∧
      ∀ j, (emptyStore.operateAll platform (growTo n)).dir.writeFault j = none := by
  induction n with
  | zero => exact ⟨rfl, fun _ => rfl⟩
  | succ n ih =>
      have hgrow : emptyStore.operateAll platform (growTo (n + 1)) =
          (((emptyStore.operateAll platform (growTo n)).addExternalBlock platform
            (emptyBlock (n + 1))).1.commitBlock platform (emptyBlock (n + 1)).hash).1 := by
        simp only [operateAll, growTo, List.range_succ, List.flatMap_append, List.foldl_append]
        rfl
      have hstages : Stages (emptyStore.operateAll platform (growTo n))
          ((emptyStore.operateAll platform (growTo n)).addExternalBlock platform
            (emptyBlock (n + 1))).1 (emptyBlock (n + 1)) :=
        addExternalBlock_stages _ (BlockFile.verifyBlock_create platform [] _ (n + 1))
      have hlookup : ((emptyStore.operateAll platform (growTo n)).addExternalBlock platform
          (emptyBlock (n + 1))).1.uncommitedBlocks.lookup (emptyBlock (n + 1)).hash =
            some (emptyBlock (n + 1)) := by
        rw [hstages.uncommitedBlocks]
        exact AList.lookup_insert _
      have hcommits := (commitBlock_commits platform hlookup
        (by rw [hstages.dir]; exact ih.2 _)).2
      rw [hgrow]
      constructor
      · rw [hcommits.height, hstages.state, ih.1]
      · rw [hcommits.writeFault, hstages.dir]
        exact ih.2

end Reference

namespace BlockKeeper

open Reference

theorem reopening_recovers_three :
    Recovers platform (emptyStore.operateAll platform (growTo 3))
      (new platform (emptyStore.operateAll platform (growTo 3)).dir 1 (.listed _ _)) :=
  (reopening_recovers_iff platform_lawful "data" 1 (.listed _ _) (growTo 3) 1
    (.listed _ _)).mpr ((height_growTo 3).1.trans_le (by decide))

/-- With 100000 blocks the list of block files is out of order. -/
theorem reopening_loses_order :
    (emptyStore.operateAll platform (growTo 100000)).blockStorageState.blockHeight = 100000 ∧
      ¬ Recovers platform (emptyStore.operateAll platform (growTo 100000))
        (new platform (emptyStore.operateAll platform (growTo 100000)).dir 1 (.listed _ _)) := by
  have hheight := (height_growTo 100000).1
  refine ⟨hheight, ?_⟩
  intro hrecovers
  have hlisted := hrecovers.listed
  rw [hheight] at hlisted
  apply BlockDir.not_pairwise_blockNames (show 99999 < 100000 by decide)
  rw [← hlisted]
  exact List.pairwise_insertionSort (· ≤ ·) _

-- ============================================================================
-- A torn last file
-- ============================================================================

/-- The directory holds these blocks, as `commit_block` writes them, and one more
    file for the next index, with any contents. -/
structure Torn (pf : Platform) (dir : BlockDir) (blocks : List BlockFile) : Prop where
  written : ∀ i (hi : i < blocks.length),
    dir.files.lookup (BlockFile.blockFilenameForIndex (i + 1)) =
      some (pf.encodeBlock (blocks.get ⟨i, hi⟩))
  holds : dir.HoldsBlocks (blocks.length + 1)

/-- The operation writes the file of the index: it commits a staged block there. -/
def WritesFile (k : BlockKeeper) (index : Nat) : StoreOperation → Prop
  | .commitBlock blockHash =>
    blockHash ∈ k.uncommitedBlocks ∧ index = k.blockStorageState.blockHeight + 1
  | _ => False

/-- No operation writes a file of the indexes `1..n`. -/
def Spares (n : Nat) (k : BlockKeeper) (operation : StoreOperation) : Prop :=
  ∀ i, 1 ≤ i → i ≤ n → ¬ k.WritesFile i operation

variable {pf : Platform} {k : BlockKeeper}

/-- Committing a staged block touches the file of the next index alone. -/
theorem commitBlock_touches {blockHash : BlockHash} (hstaged : blockHash ∈ k.uncommitedBlocks) :
    k.blockStorageState.blockHeight ≤
        (k.commitBlock pf blockHash).1.blockStorageState.blockHeight ∧
      ∀ filename, filename ≠
          BlockFile.blockFilenameForIndex (k.blockStorageState.blockHeight + 1) →
        (k.commitBlock pf blockHash).1.dir.files.lookup filename = k.dir.files.lookup filename := by
  rcases commitBlock_cases pf k blockHash with ⟨hnone, -⟩ |
    ⟨block, -, -, -, heq⟩ | ⟨block, fault, e, -, -, -, heq⟩
  · exact absurd hstaged (AList.lookup_eq_none.mp hnone)
  · rw [heq]
    exact ⟨Nat.le_succ _, fun filename hne => AList.lookup_insert_ne hne⟩
  · rw [heq]
    exact ⟨le_refl _, fun filename hne => write_lookup_ne _ hne _⟩

/-- An operation leaves the directory and the height as they are, or commits a
    staged block. -/
theorem operate_cases (pf : Platform) (k : BlockKeeper) (operation : StoreOperation) :
    ((k.operate pf operation).dir = k.dir ∧
        (k.operate pf operation).blockStorageState = k.blockStorageState) ∨
      k.WritesFile (k.blockStorageState.blockHeight + 1) operation ∧
        k.blockStorageState.blockHeight ≤
          (k.operate pf operation).blockStorageState.blockHeight ∧
        ∀ filename, filename ≠
            BlockFile.blockFilenameForIndex (k.blockStorageState.blockHeight + 1) →
          (k.operate pf operation).dir.files.lookup filename = k.dir.files.lookup filename := by
  cases operation with
  | addTransaction transaction =>
      have hpacks := addTransaction_packs pf k transaction
      exact Or.inl ⟨hpacks.dir, hpacks.state⟩
  | addExternalBlock block =>
      show (k.addExternalBlock pf block).1.dir = k.dir ∧ _ ∨ _
      rcases addExternalBlock_cases pf k block with ⟨e, -, heq⟩ | ⟨-, -, hstages⟩
      · rw [heq]
        exact Or.inl ⟨rfl, congrArg (fun r => r.1.blockStorageState) heq⟩
      · exact Or.inl ⟨hstages.dir, hstages.state⟩
  | commitBlock blockHash =>
      by_cases hstaged : blockHash ∈ k.uncommitedBlocks
      · exact Or.inr ⟨⟨hstaged, rfl⟩, commitBlock_touches hstaged⟩
      · have hsame : k.operate pf (.commitBlock blockHash) = k := by
          simp only [operate, commitBlock, AList.lookup_eq_none.mpr hstaged]
        rw [hsame]
        exact Or.inl ⟨rfl, rfl⟩
  | rollbackBlock blockHash =>
      rcases rollbackBlock_cases pf k blockHash with ⟨-, e, heq⟩ | ⟨block, -, -, hpacks⟩
      · have hsame : k.operate pf (.rollbackBlock blockHash) = k := congrArg Prod.fst heq
        rw [hsame]
        exact Or.inl ⟨rfl, rfl⟩
      · exact Or.inl ⟨hpacks.dir, hpacks.state⟩

/-- From a height of `n` on, no operation touches the files of `1..n`. -/
theorem spares_of_le {n : Nat} {operations : List StoreOperation}
    (h : n ≤ k.blockStorageState.blockHeight) :
    Throughout pf (Spares n) k operations ∧
      ∀ i < n, (k.operateAll pf operations).dir.files.lookup
          (BlockFile.blockFilenameForIndex (i + 1)) =
        k.dir.files.lookup (BlockFile.blockFilenameForIndex (i + 1)) := by
  induction operations generalizing k with
  | nil => exact ⟨trivial, fun _ _ => rfl⟩
  | cons operation operations ih =>
      have hspares : Spares n k operation := by
        intro i _ hi hwrites
        cases operation with
        | commitBlock blockHash =>
            have hindex := hwrites.2
            omega
        | _ => exact hwrites
      have hstep : n ≤ (k.operate pf operation).blockStorageState.blockHeight ∧
          ∀ i < n, (k.operate pf operation).dir.files.lookup
              (BlockFile.blockFilenameForIndex (i + 1)) =
            k.dir.files.lookup (BlockFile.blockFilenameForIndex (i + 1)) := by
        rcases operate_cases pf k operation with ⟨hdir, hstate⟩ | ⟨-, hheight, hfiles⟩
        · rw [hdir, hstate]
          exact ⟨h, fun _ _ => rfl⟩
        · refine ⟨h.trans hheight, fun i hi => hfiles _ fun hname => ?_⟩
          have hindex := BlockFile.blockFilenameForIndex_injective hname
          omega
      obtain ⟨hrest, hfiles⟩ := ih hstep.1
      exact ⟨⟨hspares, hrest⟩, fun i hi => (hfiles i hi).trans (hstep.2 i hi)⟩

/-- A store that starts from nothing writes block 1 with its first commit. -/
theorem not_spares_of_zero {n : Nat} (hn : 1 ≤ n) (hzero : k.blockStorageState.blockHeight = 0) :
    ¬ Throughout pf (Spares n) k
      [.addExternalBlock (.create pf [] emptyHash 1),
        .commitBlock (BlockFile.create pf [] emptyHash 1).hash] := by
  rintro ⟨-, hspares, -⟩
  have hstages : Stages k (k.operate pf (.addExternalBlock (.create pf [] emptyHash 1)))
      (.create pf [] emptyHash 1) :=
    addExternalBlock_stages k (BlockFile.verifyBlock_create pf [] emptyHash 1)
  apply hspares 1 (le_refl 1) hn
  constructor
  · rw [hstages.uncommitedBlocks]
    exact (AList.mem_insert _).mpr (Or.inl rfl)
  · rw [hstages.state, hzero]

/-- The blocks before a torn last file are safe from every later operation if and
    only if the last file can be read as a block after all. -/
theorem torn_spares_iff {dir : BlockDir} {blocks : List BlockFile} (htorn : Torn pf dir blocks)
    (hsome : 1 ≤ blocks.length) (hfew : blocks.length + 1 ≤ 99999) (mempoolSize : Nat)
    (walk : HashMap.Walk BlockHash BlockFile) :
    (∀ operations,
        Throughout pf (Spares blocks.length) (new pf dir mempoolSize walk) operations ∧
          ∀ i (hi : i < blocks.length),
            ((new pf dir mempoolSize walk).operateAll pf operations).dir.files.lookup
                (BlockFile.blockFilenameForIndex (i + 1)) =
              some (pf.encodeBlock (blocks.get ⟨i, hi⟩))) ↔
      ∃ block, BlockFile.readFromDiskByIndex pf dir (blocks.length + 1) = .ok block := by
  have hstate : (new pf dir mempoolSize walk).blockStorageState = _ :=
    new_state htorn.holds hfew mempoolSize walk
  constructor
  · intro hsafe
    cases hread : BlockFile.readFromDiskByIndex pf dir (blocks.length + 1) with
    | ok block => exact ⟨block, rfl⟩
    | error e =>
        rw [hread] at hstate
        exact absurd (hsafe _).1 (not_spares_of_zero hsome (by rw [hstate]))
  · rintro ⟨block, hread⟩ operations
    rw [hread] at hstate
    have hheight : blocks.length ≤ (new pf dir mempoolSize walk).blockStorageState.blockHeight := by
      rw [hstate]
      exact Nat.le_succ _
    obtain ⟨hspares, hfiles⟩ := @spares_of_le pf _ _ operations hheight
    exact ⟨hspares, fun i hi => (hfiles i hi).trans (htorn.written i hi)⟩

/-- Block 1 as it was committed, and a second file cut short. -/
def tornDir (contents : Bytes) : BlockDir :=
  { BlockDir.empty "data" with
    files := (AList.insert (BlockFile.blockFilenameForIndex 2) contents ∅).insert
      (BlockFile.blockFilenameForIndex 1) (platform.encodeBlock (emptyBlock 1)) }

theorem torn_tornDir (contents : Bytes) : Torn platform (tornDir contents) [emptyBlock 1] where
  written := by
    intro i hi
    obtain rfl : i = 0 := Nat.lt_one_iff.mp hi
    exact AList.lookup_insert _
  holds := by
    intro filename
    show filename ∈ (AList.insert _ _ (AList.insert _ _ ∅) : HashMap String Bytes) ↔ _
    rw [AList.mem_insert, AList.mem_insert]
    constructor
    · rintro (rfl | rfl | hnone)
      · exact ⟨0, by decide, rfl⟩
      · exact ⟨1, by decide, rfl⟩
      · exact absurd hnone (AList.notMem_empty _)
    · rintro ⟨i, hi, rfl⟩
      have hcases : i = 0 ∨ i = 1 := by
        have hi' : i < 2 := hi
        omega
      rcases hcases with rfl | rfl
      · exact Or.inl rfl
      · exact Or.inr (Or.inl rfl)

/-- A second file that was written to its end. -/
theorem torn_spares_whole :
    Torn platform (tornDir (platform.encodeBlock (emptyBlock 2))) [emptyBlock 1] ∧
      ∀ operations, Throughout platform (Spares 1)
        (new platform (tornDir (platform.encodeBlock (emptyBlock 2))) 1 (.listed _ _))
          operations := by
  have hread : (BlockFile.readFromDiskByIndex platform
      (tornDir (platform.encodeBlock (emptyBlock 2))) 2).toOption = some (emptyBlock 2) := by
    decide +kernel
  have hsafe := (torn_spares_iff (torn_tornDir (platform.encodeBlock (emptyBlock 2))) (by decide)
    (by decide) 1 (.listed _ _)).mpr (by
      cases hresult : BlockFile.readFromDiskByIndex platform
          (tornDir (platform.encodeBlock (emptyBlock 2))) 2 with
      | ok block => exact ⟨block, rfl⟩
      | error e =>
          rw [hresult] at hread
          cases hread)
  exact ⟨torn_tornDir _, fun operations => (hsafe operations).1⟩

/-- An empty second file: the next commit overwrites block 1. -/
theorem torn_overwrites_first :
    Torn platform (tornDir []) [emptyBlock 1] ∧
      ((new platform (tornDir []) 1 (.listed _ _)).operateAll platform
        [.addTransaction deposit, .commitBlock (firstBlock deposit).hash]).dir.files.lookup
          (BlockFile.blockFilenameForIndex 1) = some (platform.encodeBlock (firstBlock deposit)) ∧
      platform.encodeBlock (firstBlock deposit) ≠ platform.encodeBlock (emptyBlock 1) :=
  ⟨torn_tornDir [], by decide +kernel, by decide +kernel⟩

end BlockKeeper
end Rustchain
