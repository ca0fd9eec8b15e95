/-
  Rustchain.Storage.Verified

  Whatever operation it comes from, a block the store packs or stages passes its
  own check.  Over a directory whose files do too, so does every block that is
  read back by its hash: from memory or from disk, the store hands out a block
  with the hash it was asked for and the contents this hash is of.  Its
  transactions are among those that came in or were on disk already.
-/

import Rustchain.Storage.Operations
import Rustchain.Storage.Transactions

namespace Rustchain

open BlockFile

-- ============================================================================
-- In memory
-- ============================================================================

namespace BlockKeeper

/-- The blocks packed so far and the staged ones pass their own check, and a staged one
    is kept under its hash. -/
structure HoldsVerified (pf : Platform) (k : BlockKeeper) : Prop where
  staged : ∀ h b, k.uncommitedBlocks.lookup h = some b → b.hash = h ∧ b.verifyBlock pf = .ok ()
  created : ∀ b ∈ k.created, b.verifyBlock pf = .ok ()

theorem new_holdsVerified (pf : Platform) (dir : BlockDir) (mempoolSize : Nat)
    (walk : HashMap.Walk BlockHash BlockFile) : HoldsVerified pf (new pf dir mempoolSize walk) := by
  refine ⟨fun h b hlookup => ?_, fun b hb => absurd hb List.not_mem_nil⟩
  cases hlookup

variable {pf : Platform} {k k' : BlockKeeper}

theorem HoldsVerified.packs (h : HoldsVerified pf k) (hpacks : Packs pf k k') :
    HoldsVerified pf k' := by
  have hcreated : ∀ b ∈ k'.created, b.verifyBlock pf = .ok () := by
    obtain ⟨new, hnew, hbuilt⟩ := hpacks.created
    rw [hnew]
    intro b hb
    rcases List.mem_append.mp hb with hb | hb
    · exact h.created b hb
    · obtain ⟨transactions, rfl⟩ := hbuilt b hb
      exact verifyBlock_create pf _ _ _
  refine ⟨?_, hcreated⟩
  intro hash b hlookup
  rcases hpacks.staged hash b hlookup with hold | ⟨hhash, hmem⟩
  · exact h.staged hash b hold
  · exact ⟨hhash, hcreated b hmem⟩

theorem HoldsVerified.stages (h : HoldsVerified pf k) {block : BlockFile}
    (hverify : block.verifyBlock pf = .ok ()) (hstages : Stages k k' block) :
    HoldsVerified pf k' := by
  refine ⟨?_, ?_⟩
  · rw [hstages.uncommitedBlocks]
    exact HashMap.forall_insert h.staged ⟨rfl, hverify⟩
  · rw [hstages.created]
    exact h.created

theorem HoldsVerified.erase (h : HoldsVerified pf k) {blockHash : BlockHash}
    (hstaged : k'.uncommitedBlocks = k.uncommitedBlocks.erase blockHash)
    (hcreated : k'.created = k.created) : HoldsVerified pf k' := by
  refine ⟨?_, ?_⟩
  · rw [hstaged]
    exact HashMap.forall_erase h.staged blockHash
  · rw [hcreated]
    exact h.created

end BlockKeeper

-- ============================================================================
-- On disk
-- ============================================================================

/-- Contents that are no block, or a block that passes its own check and holds good
    transactions only. -/
def Platform.Reads (pf : Platform) (good : SignedTransaction → Prop) (contents : Bytes) : Prop :=
  ∀ block, pf.decodeBlock contents = .ok block →
    block.verifyBlock pf = .ok () ∧ ∀ tx ∈ block.transactions, good tx

theorem Platform.Lawful.reads {pf : Platform} (hpf : pf.Lawful) {good : SignedTransaction → Prop}
    {block : BlockFile} (hverify : block.verifyBlock pf = .ok ())
    (hgood : ∀ tx ∈ block.transactions, good tx) : pf.Reads good (pf.encodeBlock block) := by
  intro b hdecode
  rw [hpf.decode_encodeBlock] at hdecode
  cases hdecode
  exact ⟨hverify, hgood⟩

/-- No file reads as a block that fails its check or holds a transaction that is not
    good, and no write that fails leaves one behind. -/
structure BlockDir.Authentic (pf : Platform) (good : SignedTransaction → Prop) (dir : BlockDir) :
    Prop where
  file : ∀ filename contents, dir.files.lookup filename = some contents → pf.Reads good contents
  left : ∀ n fault contents, dir.writeFault n = some fault → fault.left = some contents →
    pf.Reads good contents

theorem BlockDir.Authentic.write {pf : Platform} {good : SignedTransaction → Prop} {dir : BlockDir}
    (h : dir.Authentic pf good) (filename : String) {contents : Bytes}
    (hcontents : pf.Reads good contents) : (dir.write filename contents).1.Authentic pf good := by
  unfold BlockDir.write
  split
  · exact ⟨HashMap.forall_insert h.file hcontents, h.left⟩
  · rename_i fault hfault
    refine ⟨?_, h.left⟩
    dsimp only
    split
    · rename_i left hleft
      exact HashMap.forall_insert h.file (h.left _ fault left hfault hleft)
    · exact HashMap.forall_erase h.file filename

/-- A block that is read from disk passes its check and holds good transactions only. -/
theorem BlockDir.Authentic.readFromDisk {pf : Platform} {good : SignedTransaction → Prop}
    {dir : BlockDir} (h : dir.Authentic pf good) {filename : String} {block : BlockFile}
    (hread : BlockFile.readFromDisk pf dir filename = .ok block) :
    block.verifyBlock pf = .ok () ∧ ∀ tx ∈ block.transactions, good tx := by
  unfold BlockFile.readFromDisk at hread
  split at hread
  · cases hread
  rename_i contents hlookup
  split at hread
  · cases hread
  split at hread
  · cases hread
  rename_i hdecode
  cases hread
  exact h.file filename contents hlookup _ hdecode

-- ============================================================================
-- The store
-- ============================================================================

/-- The operation brings good transactions only. -/
def StoreOperation.Brings (good : SignedTransaction → Prop) : StoreOperation → Prop
  | addTransaction tx => good tx
  | addExternalBlock block => ∀ tx ∈ block.transactions, good tx
  | _ => True

namespace BlockKeeper

variable {pf : Platform} {good : SignedTransaction → Prop} {k : BlockKeeper}

theorem HoldsVerified.operate (h : HoldsVerified pf k) (operation : StoreOperation) :
    HoldsVerified pf (k.operate pf operation) := by
  cases operation with
  | addTransaction transaction => exact h.packs (addTransaction_packs pf k transaction)
  | addExternalBlock block =>
      show HoldsVerified pf (k.addExternalBlock pf block).1
      rcases addExternalBlock_cases pf k block with ⟨e, -, heq⟩ | ⟨hverify, -, hstages⟩
      · rw [heq]
        exact h
      · exact h.stages hverify hstages
  | commitBlock blockHash =>
      show HoldsVerified pf (k.commitBlock pf blockHash).1
      rcases commitBlock_cases pf k blockHash with
        ⟨-, e, heq⟩ | ⟨block, -, -, -, heq⟩ | ⟨block, fault, e, -, -, -, heq⟩
      · rw [heq]
        exact h
      · rw [heq]
        exact h.erase rfl rfl
      · rw [heq]
        exact ⟨h.staged, h.created⟩
  | rollbackBlock blockHash =>
      show HoldsVerified pf (k.rollbackBlock pf blockHash).1
      rcases rollbackBlock_cases pf k blockHash with ⟨-, e, heq⟩ | ⟨block, -, -, hpacks⟩
      · rw [heq]
        exact h
      · refine HoldsVerified.packs ?_ hpacks
        exact h.erase rfl rfl

theorem HoldsOnly.operate (hpf : pf.Lawful) (h : HoldsOnly pf good k) {operation : StoreOperation}
    (hbrings : operation.Brings good) : HoldsOnly pf good (k.operate pf operation) := by
  cases operation with
  | addTransaction transaction => exact h.addTransaction hbrings
  | addExternalBlock block => exact h.addExternalBlock hbrings
  | commitBlock blockHash => exact h.commitBlock hpf.decode_encodeBlock blockHash
  | rollbackBlock blockHash => exact h.rollbackBlock blockHash

/-- Only a commit writes, and it writes what is staged. -/
theorem operate_dir (hpf : pf.Lawful) (hverified : HoldsVerified pf k) (honly : HoldsOnly pf good k)
    (hdir : k.dir.Authentic pf good) (operation : StoreOperation) :
    (k.operate pf operation).dir.Authentic pf good := by
  cases operation with
  | addTransaction transaction =>
      show (k.addTransaction pf transaction).1.dir.Authentic pf good
      rw [(addTransaction_packs pf k transaction).dir]
      exact hdir
  | addExternalBlock block =>
      show (k.addExternalBlock pf block).1.dir.Authentic pf good
      rcases addExternalBlock_cases pf k block with ⟨e, -, heq⟩ | ⟨-, -, hstages⟩
      · rw [heq]
        exact hdir
      · rw [hstages.dir]
        exact hdir
  | commitBlock blockHash =>
      have hreads : ∀ block, k.uncommitedBlocks.lookup blockHash = some block →
          pf.Reads good (pf.encodeBlock block) := fun block hlookup =>
        hpf.reads (hverified.staged blockHash block hlookup).2
          (honly.staged blockHash block hlookup)
      show (k.commitBlock pf blockHash).1.dir.Authentic pf good
      rcases commitBlock_cases pf k blockHash with
        ⟨-, e, heq⟩ | ⟨block, hlookup, -, -, heq⟩ | ⟨block, fault, e, hlookup, -, -, heq⟩
      · rw [heq]
        exact hdir
      · rw [heq]
        exact ⟨HashMap.forall_insert hdir.file (hreads block hlookup), hdir.left⟩
      · rw [heq]
        exact hdir.write _ (hreads block hlookup)
  | rollbackBlock blockHash =>
      show (k.rollbackBlock pf blockHash).1.dir.Authentic pf good
      rcases rollbackBlock_cases pf k blockHash with ⟨-, e, heq⟩ | ⟨block, -, -, hpacks⟩
      · rw [heq]
        exact hdir
      · rw [hpacks.dir]
        exact hdir

/-- Every block the store can hand out passes its own check and holds good
    transactions only. -/
structure Authentic (pf : Platform) (good : SignedTransaction → Prop) (k : BlockKeeper) : Prop
    extends HoldsVerified pf k where
  only : HoldsOnly pf good k
  dir : k.dir.Authentic pf good

/-- A store that is opened over block files. -/
theorem new_authentic (hpf : pf.Lawful) {dir : BlockDir} (hdir : dir.Authentic pf good)
    (mempoolSize : Nat) (walk : HashMap.Walk BlockHash BlockFile) :
    Authentic pf good (new pf dir mempoolSize walk) := by
  refine ⟨new_holdsVerified pf dir mempoolSize walk, HoldsOnly.new ?_, hdir⟩
  intro index b hat
  exact (hdir.file _ _ hat.2.2 b (hpf.decode_encodeBlock b)).2

theorem Authentic.operate (hpf : pf.Lawful) (h : Authentic pf good k) (operation : StoreOperation)
    (hbrings : operation.Brings good) : Authentic pf good (k.operate pf operation) :=
  ⟨h.toHoldsVerified.operate operation, h.only.operate hpf hbrings,
    operate_dir hpf h.toHoldsVerified h.only h.dir operation⟩

/-- A block found on disk has the hash it was looked for by, passes its check and holds
    good transactions only. -/
theorem Authentic.readBlockByHash (h : Authentic pf good k) {blockHash : BlockHash}
    {block : BlockFile} (hread : k.readBlockByHash pf blockHash = .ok block) :
    block.hash = blockHash ∧ block.verifyBlock pf = .ok () ∧
      ∀ tx ∈ block.transactions, good tx := by
  have hgo : ∀ filenames : List String,
      BlockKeeper.readBlockByHash.go pf k blockHash filenames = .ok block →
      block.hash = blockHash ∧ block.verifyBlock pf = .ok () ∧
        ∀ tx ∈ block.transactions, good tx := by
    intro filenames hfound
    induction filenames with
    | nil => cases hfound
    | cons filename rest ih =>
        rw [BlockKeeper.readBlockByHash.go] at hfound
        cases hfile : readFromDisk pf k.dir filename with
        | error e =>
            rw [hfile] at hfound
            cases hfound
        | ok b =>
            rw [hfile] at hfound
            dsimp only at hfound
            split at hfound
            · rename_i hhash
              cases hfound
              exact ⟨hhash, h.dir.readFromDisk hfile⟩
            · exact ih hfound
  exact hgo _ hread

end BlockKeeper
end Rustchain
