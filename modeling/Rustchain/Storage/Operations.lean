/-
  Rustchain.Storage.Operations

  The block store under any sequence of operations that its callers issue.

  `block_can_be_added` checks a block's parent when the block is staged, and
  `commit_block` places it when it is committed, without another look.  Between
  the two the tip may have moved.  So the block files are a hash chain as long
  as every block is committed on the tip it was built on, and only then.
-/

import Rustchain.Reference
import Rustchain.Storage.Chain

namespace Rustchain

namespace BlockFile

/-- A block the program creates passes its own check. -/
theorem verifyBlock_create (pf : Platform) (transactions : List SignedTransaction)
    (previousHash : BlockHash) (index : Nat) :
    (create pf transactions previousHash index).verifyBlock pf = .ok () := by
  rw [verifyBlock, if_neg]
  exact fun h => h rfl

end BlockFile

-- ============================================================================
-- Operations
-- ============================================================================

/-- A call of the block store. -/
inductive StoreOperation where
  | addTransaction (transaction : SignedTransaction)
  | addExternalBlock (block : BlockFile)
  | commitBlock (blockHash : BlockHash)
  | rollbackBlock (blockHash : BlockHash)

namespace BlockKeeper

def operate (pf : Platform) (k : BlockKeeper) : StoreOperation → BlockKeeper
  | .addTransaction transaction => (k.addTransaction pf transaction).1
  | .addExternalBlock block => (k.addExternalBlock pf block).1
  | .commitBlock blockHash => (k.commitBlock pf blockHash).1
  | .rollbackBlock blockHash => (k.rollbackBlock pf blockHash).1

def operateAll (pf : Platform) (k : BlockKeeper) (operations : List StoreOperation) : BlockKeeper :=
  operations.foldl (operate pf) k

/-- What the callers see to: an external block is added when `block_can_be_added`
    has just said so, and only staged blocks are committed or rolled back. -/
def Allows (k : BlockKeeper) : StoreOperation → Prop
  | .addTransaction _ => True
  | .addExternalBlock block => k.blockCanBeAdded block = true
  | .commitBlock blockHash => blockHash ∈ k.uncommitedBlocks
  | .rollbackBlock blockHash => blockHash ∈ k.uncommitedBlocks

instance (k : BlockKeeper) : (operation : StoreOperation) → Decidable (k.Allows operation)
  | .addTransaction _ => inferInstanceAs (Decidable True)
  | .addExternalBlock block => inferInstanceAs (Decidable (k.blockCanBeAdded block = true))
  | .commitBlock blockHash => inferInstanceAs (Decidable (blockHash ∈ k.uncommitedBlocks))
  | .rollbackBlock blockHash => inferInstanceAs (Decidable (blockHash ∈ k.uncommitedBlocks))

/-- A block is committed on the tip it was built on: it has the next index, and its
    parent is the last committed block. -/
def CommitsOnTip (k : BlockKeeper) : StoreOperation → Prop
  | .commitBlock blockHash => ∀ block, k.uncommitedBlocks.lookup blockHash = some block →
    block.index = k.blockStorageState.blockHeight + 1 ∧
      block.previousHash = k.blockStorageState.lastCommitedHash
  | _ => True

/-- Every operation meets the condition in the state in which it is called. -/
def Throughout (pf : Platform) (condition : BlockKeeper → StoreOperation → Prop) :
    BlockKeeper → List StoreOperation → Prop
  | _, [] => True
  | k, operation :: operations =>
    condition k operation ∧ Throughout pf condition (k.operate pf operation) operations

/-- The block files are a hash chain: the file of index `i` holds a block with index
    `i`, the hash of its contents and the hash of the block before it, and the tip is
    the last block. -/
structure Intact (pf : Platform) (k : BlockKeeper) : Prop where
  block : ∀ i, 1 ≤ i → i ≤ k.blockStorageState.blockHeight → ∃ b,
    BlockFile.readFromDiskByIndex pf k.dir i = .ok b ∧ b.index = i ∧
      b.verifyBlock pf = .ok () ∧ (i = 1 → b.previousHash = emptyHash) ∧
      (1 < i → ∃ parent, BlockFile.readFromDiskByIndex pf k.dir (i - 1) = .ok parent ∧
        b.previousHash = parent.hash)
  tip : 1 ≤ k.blockStorageState.blockHeight → ∃ b,
    BlockFile.readFromDiskByIndex pf k.dir k.blockStorageState.blockHeight = .ok b ∧
      k.blockStorageState.lastCommitedHash = b.hash

-- ============================================================================
-- The invariant
-- ============================================================================

/-- The block files hold a chain of verified blocks, each with its own index, and
    what is staged is verified. -/
structure Ordered (pf : Platform) (k : BlockKeeper) : Prop where
  chain : ∃ chain, Holds pf k chain ∧
    ∀ i (hi : i < chain.length), (chain.get ⟨i, hi⟩).index = i + 1
  sound : ChainSound pf (fun b => b.verifyBlock pf = .ok ()) (fun b => b.verifyBlock pf = .ok ()) k
  created : ∀ b ∈ k.created, b.verifyBlock pf = .ok ()

variable {pf : Platform} {k k' : BlockKeeper}

theorem new_ordered (pf : Platform) (path : String) (mempoolSize : Nat)
    (walk : HashMap.Walk BlockHash BlockFile) :
    Ordered pf (new pf (.empty path) mempoolSize walk) where
  chain := ⟨[], ⟨trivial, rfl, rfl, fun i hi => absurd hi (Nat.not_lt_zero i)⟩,
    fun i hi => absurd hi (Nat.not_lt_zero i)⟩
  sound := new_chainSound pf _ _ path mempoolSize walk
  created := fun _ hb => absurd hb List.not_mem_nil

/-- Packing stages blocks that the program creates itself. -/
theorem Ordered.packs (h : Ordered pf k) (hpacks : Packs pf k k') : Ordered pf k' := by
  have hcreated : ∀ b ∈ k'.created, b.verifyBlock pf = .ok () := by
    obtain ⟨new, hnew, hbuilt⟩ := hpacks.created
    rw [hnew]
    intro b hb
    rcases List.mem_append.mp hb with hb | hb
    · exact h.created b hb
    · obtain ⟨transactions, rfl⟩ := hbuilt b hb
      exact BlockFile.verifyBlock_create pf _ _ _
  refine ⟨?_, h.sound.packs hpacks hcreated, hcreated⟩
  obtain ⟨chain, hholds, hindex⟩ := h.chain
  exact ⟨chain, hholds.congr hpacks.dir hpacks.state, hindex⟩

theorem Ordered.stages (h : Ordered pf k) {block : BlockFile} (hstages : Stages k k' block)
    (hblock : block.verifyBlock pf = .ok ()) : Ordered pf k' := by
  refine ⟨?_, h.sound.stages hstages hblock, ?_⟩
  · obtain ⟨chain, hholds, hindex⟩ := h.chain
    exact ⟨chain, hholds.congr hstages.dir hstages.state, hindex⟩
  · rw [hstages.created]
    exact h.created

theorem Ordered.erase (h : Ordered pf k) (blockHash : BlockHash) :
    Ordered pf { k with uncommitedBlocks := k.uncommitedBlocks.erase blockHash } := by
  refine ⟨?_, h.sound.erase blockHash, h.created⟩
  obtain ⟨chain, hholds, hindex⟩ := h.chain
  exact ⟨chain, hholds.congr rfl rfl, hindex⟩

/-- Committing a block on its tip extends the chain. -/
theorem Ordered.commits (h : Ordered pf k) {blockHash : BlockHash} {block : BlockFile}
    (hlookup : k.uncommitedBlocks.lookup blockHash = some block)
    (hcommits : Commits pf k k' blockHash block)
    (hindex : block.index = k.blockStorageState.blockHeight + 1)
    (hparent : block.previousHash = k.blockStorageState.lastCommitedHash) : Ordered pf k' := by
  refine ⟨?_, h.sound.commits hlookup hcommits hparent
    (h.sound.staged blockHash block hlookup).2, ?_⟩
  · obtain ⟨rfl, -⟩ := h.sound.staged blockHash block hlookup
    obtain ⟨chain, hholds, hindexes⟩ := h.chain
    refine ⟨chain ++ [block], hholds.commits hcommits hparent, ?_⟩
    intro i hi
    rw [List.length_append, List.length_singleton] at hi
    rw [List.get_eq_getElem]
    by_cases hlast : i = chain.length
    · subst hlast
      rw [List.getElem_concat_length rfl, hindex, hholds.height]
    · have hi' : i < chain.length := by omega
      rw [List.getElem_append_left hi']
      exact hindexes i hi'
  · rw [hcommits.created]
    exact h.created

/-- One operation keeps the chain, if it commits on the tip. -/
theorem Ordered.operate (h : Ordered pf k) {operation : StoreOperation}
    (htip : k.CommitsOnTip operation) : Ordered pf (k.operate pf operation) := by
  cases operation with
  | addTransaction transaction => exact h.packs (addTransaction_packs pf k transaction)
  | addExternalBlock block =>
      show Ordered pf (k.addExternalBlock pf block).1
      rcases addExternalBlock_cases pf k block with ⟨e, -, heq⟩ | ⟨hverify, -, hstages⟩
      · rw [heq]
        exact h
      · exact h.stages hstages hverify
  | commitBlock blockHash =>
      show Ordered pf (k.commitBlock pf blockHash).1
      cases hlookup : k.uncommitedBlocks.lookup blockHash with
      | none =>
          rw [commitBlock, hlookup]
          exact h
      | some block =>
          obtain ⟨hindex, hparent⟩ := htip block hlookup
          exact h.commits hlookup (commitBlock_commits pf hlookup (h.sound.writable _)).2 hindex
            hparent
  | rollbackBlock blockHash =>
      show Ordered pf (k.rollbackBlock pf blockHash).1
      rcases rollbackBlock_cases pf k blockHash with ⟨-, e, heq⟩ | ⟨block, -, -, hpacks⟩
      · rw [heq]
        exact h
      · exact (h.erase blockHash).packs hpacks

-- ============================================================================
-- Runs
-- ============================================================================

/-- The invariant says what is to be shown. -/
theorem Ordered.intact (hpf : pf.Lawful) (h : Ordered pf k) : Intact pf k := by
  obtain ⟨chain, hholds, hindex⟩ := h.chain
  obtain ⟨chain', hholds', hverified⟩ := h.sound.chain
  obtain rfl := hholds'.unique hpf h.sound.readable hholds
  have hread := fun {i : Nat} (hi : i < chain'.length) => hholds.read hpf h.sound.readable hi
  constructor
  · intro i hi1 hi
    rw [hholds.height] at hi
    obtain ⟨j, rfl⟩ : ∃ j, i = j + 1 := ⟨i - 1, by omega⟩
    have hj : j < chain'.length := hi
    refine ⟨chain'.get ⟨j, hj⟩, hread hj, hindex j hj, hverified _ (List.get_mem chain' ⟨j, hj⟩),
      ?_, ?_⟩
    · intro hfirst
      obtain rfl : j = 0 := by omega
      exact hholds.linked.parent_first hj
    · intro hlater
      obtain ⟨m, rfl⟩ : ∃ m, j = m + 1 := ⟨j - 1, by omega⟩
      exact ⟨_, hread (Nat.lt_of_succ_lt hj), hholds.linked.parent_succ hj⟩
  · intro hpos
    rw [hholds.height] at hpos ⊢
    obtain ⟨m, hm⟩ : ∃ m, m + 1 = chain'.length := ⟨chain'.length - 1, by omega⟩
    rw [← hm]
    refine ⟨_, hread (i := m) (by omega), ?_⟩
    rw [hholds.tip, HashChain.tip_eq_hash_last hm]

/-- After a commit the new file holds the committed block. -/
theorem Commits.read_new (hpf : pf.Lawful)
    (hreadable : ∀ filename, k.dir.readError filename = none) {blockHash : BlockHash}
    {block : BlockFile} (h : Commits pf k k' blockHash block) :
    BlockFile.readFromDiskByIndex pf k'.dir (k.blockStorageState.blockHeight + 1) = .ok block := by
  simp only [BlockFile.readFromDiskByIndex, BlockFile.readFromDisk, h.files, h.readError,
    AList.lookup_insert, hreadable, hpf.decode_encodeBlock]

/-- A commit leaves the files of the chain as they are. -/
theorem Commits.read_old (hpf : pf.Lawful)
    (hreadable : ∀ filename, k.dir.readError filename = none) {blockHash : BlockHash}
    {block : BlockFile} (h : Commits pf k k' blockHash block) {chain : List BlockFile}
    (hholds : Holds pf k chain) {i : Nat} (hi : i < chain.length) :
    BlockFile.readFromDiskByIndex pf k'.dir (i + 1) = .ok (chain.get ⟨i, hi⟩) := by
  have hname : BlockFile.blockFilenameForIndex (i + 1) ≠
      BlockFile.blockFilenameForIndex (k.blockStorageState.blockHeight + 1) := by
    intro hname
    have := BlockFile.blockFilenameForIndex_injective hname
    have := hholds.height
    omega
  simp only [BlockFile.readFromDiskByIndex, BlockFile.readFromDisk, h.files, h.readError,
    AList.lookup_insert_ne hname, hholds.files i hi, hreadable, hpf.decode_encodeBlock]

/-- A chain is broken by a block that is not committed on the tip. -/
theorem Ordered.commitsOnTip_of_intact (hpf : pf.Lawful) (h : Ordered pf k)
    {operation : StoreOperation} (hintact : Intact pf (k.operate pf operation)) :
    k.CommitsOnTip operation := by
  cases operation with
  | commitBlock blockHash =>
      intro block hlookup
      have hcommits := (commitBlock_commits pf hlookup (h.sound.writable _)).2
      obtain ⟨b, hb, hindex, -, hfirst, hlater⟩ := hintact.block
        (k.blockStorageState.blockHeight + 1) (by omega) (Nat.le_of_eq hcommits.height.symm)
      have hnew : BlockFile.readFromDiskByIndex pf (k.operate pf (.commitBlock blockHash)).dir
          (k.blockStorageState.blockHeight + 1) = .ok block :=
        hcommits.read_new hpf h.sound.readable
      rw [hnew] at hb
      cases hb
      refine ⟨hindex, ?_⟩
      obtain ⟨chain, hholds, -⟩ := h.chain
      rcases Nat.eq_zero_or_pos k.blockStorageState.blockHeight with hzero | hpos
      · have hempty : chain = [] := List.length_eq_zero_iff.mp (hholds.height.symm.trans hzero)
        rw [hfirst (by omega), hholds.tip, hempty]
        rfl
      · -- the file below is the old tip's
        obtain ⟨parent, hparent, hlink⟩ := hlater (by omega)
        obtain ⟨m, hm⟩ : ∃ m, m + 1 = chain.length := by
          rw [← hholds.height]
          exact ⟨_, Nat.succ_pred_eq_of_pos hpos⟩
        have hold : BlockFile.readFromDiskByIndex pf (k.operate pf (.commitBlock blockHash)).dir
            (k.blockStorageState.blockHeight + 1 - 1) = .ok (chain.get ⟨m, by omega⟩) := by
          have hindex' : k.blockStorageState.blockHeight + 1 - 1 = m + 1 := by
            have := hholds.height
            omega
          rw [hindex']
          exact hcommits.read_old hpf h.sound.readable hholds (by omega)
        rw [hold] at hparent
        cases hparent
        rw [hlink, hholds.tip, HashChain.tip_eq_hash_last hm]
  | _ => trivial

/-- The block files stay a hash chain from here on exactly if every block is
    committed on the tip it was built on. -/
theorem Ordered.intact_iff (hpf : pf.Lawful) (h : Ordered pf k) (operations : List StoreOperation) :
    (∀ n, Intact pf (k.operateAll pf (operations.take n))) ↔
      Throughout pf CommitsOnTip k operations := by
  induction operations generalizing k with
  | nil => exact ⟨fun _ => trivial, fun _ n => by rw [List.take_nil]; exact h.intact hpf⟩
  | cons operation operations ih =>
      constructor
      · intro hintact
        have htip := h.commitsOnTip_of_intact hpf (hintact 1)
        exact ⟨htip, (ih (h.operate htip)).mp fun n => hintact (n + 1)⟩
      · rintro ⟨htip, hrest⟩ n
        cases n with
        | zero => exact h.intact hpf
        | succ n => exact (ih (h.operate htip)).mpr hrest n

/-- Over any sequence of operations, starting from an empty directory, the block files
    are a hash chain in every state reached exactly if every block is committed on the
    tip it was built on. -/
theorem operations_intact_iff (hpf : pf.Lawful) (path : String) (mempoolSize : Nat)
    (walk : HashMap.Walk BlockHash BlockFile) (operations : List StoreOperation) :
    (∀ n, Intact pf ((new pf (.empty path) mempoolSize walk).operateAll pf (operations.take n))) ↔
      Throughout pf CommitsOnTip (new pf (.empty path) mempoolSize walk) operations :=
  (new_ordered pf path mempoolSize walk).intact_iff hpf operations

end BlockKeeper

namespace Reference

open BlockKeeper

/-- An empty block store that packs every transaction at once. -/
def emptyStore : BlockKeeper := .new platform (.empty "data") 1 (.listed _ _)

/-- Two blocks, each committed before the next is packed. -/
def oneByOne : List StoreOperation :=
  [.addTransaction deposit, .commitBlock (firstBlock deposit).hash, .addTransaction otherDeposit,
    .commitBlock (BlockFile.create platform [otherDeposit] (firstBlock deposit).hash 2).hash]

/-- Two blocks packed on the same tip, and then both committed. -/
def siblings : List StoreOperation :=
  [.addTransaction deposit, .addTransaction otherDeposit, .commitBlock (firstBlock deposit).hash,
    .commitBlock (firstBlock otherDeposit).hash]

end Reference

namespace BlockKeeper

open Reference

theorem operations_intact_oneByOne :
    (emptyStore.operateAll platform oneByOne).blockStorageState.blockHeight = 2 ∧
      ∀ n, Intact platform (emptyStore.operateAll platform (oneByOne.take n)) := by
  refine ⟨by decide +kernel, ?_⟩
  refine (operations_intact_iff platform_lawful "data" 1 (.listed _ _) oneByOne).mpr ?_
  refine ⟨trivial, ?_, trivial, ?_, trivial⟩
  · intro block hlookup
    obtain rfl : block = firstBlock deposit :=
      Option.some.inj (hlookup.symm.trans (by decide +kernel))
    decide +kernel
  · intro block hlookup
    obtain rfl : block = BlockFile.create platform [otherDeposit] (firstBlock deposit).hash 2 :=
      Option.some.inj (hlookup.symm.trans (by decide +kernel))
    decide +kernel

/-- The second file holds a block of index 1. -/
theorem operations_break_siblings :
    Throughout platform Allows emptyStore siblings ∧
      ¬Intact platform (emptyStore.operateAll platform siblings) := by
  refine ⟨⟨trivial, trivial, by decide +kernel, by decide +kernel, trivial⟩, ?_⟩
  intro hintact
  obtain ⟨b, hb, hindex, -⟩ := hintact.block 2 (by decide) (by decide +kernel)
  have hindex' : (BlockFile.readFromDiskByIndex platform
      (emptyStore.operateAll platform siblings).dir 2).toOption.map BlockFile.index = some 1 := by
    decide +kernel
  rw [hb] at hindex'
  have hone : b.index = 1 := Option.some.inj hindex'
  omega

end BlockKeeper
end Rustchain
