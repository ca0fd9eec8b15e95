/-
  Rustchain.Storage.BlockKeeper

  The block store of a peer (`storage.rs`): the mempool, the blocks staged in
  memory and the block files on disk.

  The directory is part of the keeper's state.  It holds the contents of its
  files by name, the error a read of a file meets, if any, and for each write
  to come what goes wrong with it, if anything; a failed write may leave any
  contents behind.  File names are ASCII, as the program writes them.
-/

import Mathlib.Data.List.Sort
import Rustchain.Lib.HashMap
import Rustchain.Storage.Block

namespace Rustchain

-- ============================================================================
-- The block directory
-- ============================================================================

/-- A write that fails: its error text and what it leaves in the file. -/
structure WriteFault where
  error : String
  left : Option Bytes

structure BlockDir where
  path : String
  files : HashMap String Bytes
  /-- The error other than "not found" that reading a file meets, if any. -/
  readError : String → Option String
  /-- How many writes were attempted so far. -/
  writes : Nat
  /-- What goes wrong with the `k`-th write, if anything. -/
  writeFault : Nat → Option WriteFault

namespace BlockDir

/-- An empty directory that never meets an I/O error. -/
def empty (path : String) : BlockDir :=
  { path, files := ∅, readError := fun _ => none, writes := 0, writeFault := fun _ => none }

/-- `path_to_blocks.join(filename)`. -/
def join (dir : BlockDir) (filename : String) : String := dir.path ++ "/" ++ filename

/-- `fs::write`. -/
def write (dir : BlockDir) (filename : String) (contents : Bytes) :
    BlockDir × Except String Unit :=
  match dir.writeFault dir.writes with
  | none =>
    ({ dir with writes := dir.writes + 1, files := dir.files.insert filename contents }, .ok ())
  | some fault =>
    ({ dir with
        writes := dir.writes + 1
        files :=
          match fault.left with
          | some contents => dir.files.insert filename contents
          | none => dir.files.erase filename }, .error fault.error)

/-- A name that `^(\d+)\.block$` matches. -/
def isBlockFilename (filename : String) : Bool :=
  let stem := filename.toList.takeWhile Char.isDigit
  !stem.isEmpty && filename.toList.drop stem.length == ".block".toList

/-- The number in a block file's name. -/
def blockIndexOf (filename : String) : Nat :=
  (filename.toList.takeWhile Char.isDigit).foldl (fun n c => 10 * n + (c.toNat - 48)) 0

/-- `list_all_blocks`: the block files' names, sorted as strings. -/
def listAllBlocks (dir : BlockDir) : List String :=
  (dir.files.keys.filter isBlockFilename).insertionSort (· ≤ ·)

end BlockDir

namespace BlockFile

/-- `BlockFile::block_filename_for_index`: the index padded to five digits. -/
def blockFilenameForIndex (index : Nat) : String :=
  let digits := (toString index).toList
  String.ofList (List.replicate (5 - digits.length) '0' ++ digits) ++ ".block"

/-- `BlockFile::read_from_disk`. -/
def readFromDisk (pf : Platform) (dir : BlockDir) (filename : String) : Except String BlockFile :=
  match dir.files.lookup filename with
  | none => .error s!"Block file not found: {dir.join filename}"
  | some contents =>
    match dir.readError filename with
    | some e => .error s!"Failed to read block file {dir.join filename}: {e}"
    | none =>
      match pf.decodeBlock contents with
      | .error e => .error s!"Failed to deserialize block file {dir.join filename}: {e}"
      | .ok block => .ok block

/-- `BlockFile::read_from_disk_by_index`. -/
def readFromDiskByIndex (pf : Platform) (dir : BlockDir) (index : Nat) : Except String BlockFile :=
  readFromDisk pf dir (blockFilenameForIndex index)

end BlockFile

-- ============================================================================
-- The keeper
-- ============================================================================

inductive BlockStatus where
  | addedToMempool
  | newBlockCreated (blockHash : BlockHash)
deriving DecidableEq, Repr

structure BlockStorageState where
  blockHeight : Nat
  lastCommitedHash : BlockHash
deriving DecidableEq, Repr

structure BlockKeeper where
  dir : BlockDir
  mempoolSize : Nat
  mempool : HashMap String SignedTransaction
  pendingTransactions : HashMap String SignedTransaction
  uncommitedBlocks : HashMap BlockHash BlockFile
  blockStorageState : BlockStorageState
  previousHash : BlockHash
  /-- The order in which `uncommitedBlocks` is walked. -/
  walk : HashMap.Walk BlockHash BlockFile
  /-- Every block packed so far.  No function reads this or the next field; they
      are there for the statements about runs. -/
  created : List BlockFile
  /-- Every external block staged so far. -/
  received : List BlockFile

/-- `hex::encode` of a block hash: 64 hexadecimal digits. -/
def displayHash (h : BlockHash) : String :=
  String.ofList ((List.range 64).map fun i => hexDigit (h.toNat / 16 ^ (63 - i) % 16))

namespace BlockKeeper

/-- `BlockKeeper::new`: the last block file, in string order, gives height and
    tip; an unreadable one counts as an empty store. -/
def new (pf : Platform) (dir : BlockDir) (mempoolSize : Nat)
    (walk : HashMap.Walk BlockHash BlockFile) : BlockKeeper :=
  let state : BlockStorageState :=
    match dir.listAllBlocks.getLast? with
    | none => { blockHeight := 0, lastCommitedHash := emptyHash }
    | some filename =>
      match BlockFile.readFromDisk pf dir filename with
      | .ok block =>
        { blockHeight := BlockDir.blockIndexOf filename, lastCommitedHash := block.hash }
      | .error _ => { blockHeight := 0, lastCommitedHash := emptyHash }
  { dir
    mempoolSize
    mempool := ∅
    pendingTransactions := ∅
    uncommitedBlocks := ∅
    blockStorageState := state
    previousHash := state.lastCommitedHash
    walk
    created := []
    received := [] }

/-- `create_new_block`: a block on the committed tip with the transactions in
    the order of their ids. -/
def createNewBlock (pf : Platform) (k : BlockKeeper)
    (transactionsMap : HashMap String SignedTransaction) : BlockKeeper × BlockHash :=
  let transactions := transactionsMap.values.insertionSort fun a b => a.txId ≤ b.txId
  let block := BlockFile.create pf transactions k.blockStorageState.lastCommitedHash
    (k.blockStorageState.blockHeight + 1)
  ({ k with
      previousHash := block.hash
      uncommitedBlocks := k.uncommitedBlocks.insert block.hash block
      pendingTransactions := transactionsMap.entries.foldl
        (fun m e => m.insert e.1 e.2) k.pendingTransactions
      created := k.created ++ [block] }, block.hash)

def addTransaction (pf : Platform) (k : BlockKeeper) (transaction : SignedTransaction) :
    BlockKeeper × BlockStatus :=
  let mempool := k.mempool.insert transaction.txId transaction
  if mempool.entries.length ≥ k.mempoolSize then
    let (k, blockHash) := { k with mempool := ∅ }.createNewBlock pf mempool
    (k, .newBlockCreated blockHash)
  else ({ k with mempool }, .addedToMempool)

/-- Moves a transaction of an external block out of the mempool. -/
def claimTransaction (k : BlockKeeper) (transaction : SignedTransaction) : BlockKeeper :=
  match k.mempool.lookup transaction.txId with
  | none => k
  | some own =>
    { k with
      mempool := k.mempool.erase transaction.txId
      pendingTransactions := k.pendingTransactions.insert own.txId own }

def addExternalBlock (pf : Platform) (k : BlockKeeper) (block : BlockFile) :
    BlockKeeper × Except BlockVerificationError Unit :=
  match block.verifyBlock pf with
  | .error e => (k, .error e)
  | .ok () =>
    let k := block.transactions.foldl claimTransaction k
    ({ k with
        uncommitedBlocks := k.uncommitedBlocks.insert block.hash block
        received := k.received ++ [block] }, .ok ())

def getUncommitedBlock (k : BlockKeeper) (blockHash : BlockHash) : Option BlockFile :=
  k.uncommitedBlocks.lookup blockHash

/-- `commit_block`: the staged block becomes the next block file, whatever its
    own index and parent are. -/
def commitBlock (pf : Platform) (k : BlockKeeper) (blockHash : BlockHash) :
    BlockKeeper × Except String Unit :=
  match k.uncommitedBlocks.lookup blockHash with
  | none => (k, .error s!"Block with hash {displayHash blockHash} not found")
  | some block =>
    let blockIndex := k.blockStorageState.blockHeight + 1
    match k.dir.write (BlockFile.blockFilenameForIndex blockIndex) (pf.encodeBlock block) with
    | (dir, .ok ()) =>
      ({ k with
          dir
          blockStorageState := { blockHeight := blockIndex, lastCommitedHash := blockHash }
          pendingTransactions := block.transactions.foldl
            (fun m tx => m.erase tx.txId) k.pendingTransactions
          uncommitedBlocks := k.uncommitedBlocks.erase blockHash }, .ok ())
    | (dir, .error e) => ({ k with dir }, .error s!"Failed to write block file: {e}")

/-- Puts a transaction of a rolled-back block back into the mempool; a block
    this completes is created and its hash dropped. -/
def returnTransaction (pf : Platform) (k : BlockKeeper) (transaction : SignedTransaction) :
    BlockKeeper :=
  match k.pendingTransactions.lookup transaction.txId with
  | none => k
  | some own =>
    ({ k with pendingTransactions := k.pendingTransactions.erase transaction.txId }.addTransaction
      pf own).1

def rollbackBlock (pf : Platform) (k : BlockKeeper) (blockHash : BlockHash) :
    BlockKeeper × Except String Unit :=
  match k.uncommitedBlocks.lookup blockHash with
  | none => (k, .error s!"Block with hash {displayHash blockHash} not found")
  | some block =>
    (block.transactions.foldl (returnTransaction pf)
      { k with uncommitedBlocks := k.uncommitedBlocks.erase blockHash }, .ok ())

/-- `read_block_by_hash`: the block files in string order, up to the first with
    that hash or that cannot be read. -/
def readBlockByHash (pf : Platform) (k : BlockKeeper) (blockHash : BlockHash) :
    Except String BlockFile :=
  go k.dir.listAllBlocks
where
  go : List String → Except String BlockFile
    | [] => .error s!"Block with hash {displayHash blockHash} not found"
    | filename :: rest =>
      match BlockFile.readFromDisk pf k.dir filename with
      | .error e => .error e
      | .ok block => if block.hash = blockHash then .ok block else go rest

/-- `block_can_be_added`: the block is new and extends the committed tip, or the
    first staged block found at the height below it. -/
def blockCanBeAdded (k : BlockKeeper) (block : BlockFile) : Bool :=
  if block.index = 0 then false
  else if block.hash ∈ k.uncommitedBlocks then false
  else if k.blockStorageState.blockHeight = block.index - 1 then
    block.previousHash == k.blockStorageState.lastCommitedHash
  else
    ((k.walk.order k.uncommitedBlocks).find? fun staged => staged.index + 1 == block.index).any
      fun previous => block.previousHash == previous.hash

end BlockKeeper
end Rustchain
