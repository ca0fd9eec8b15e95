/-
  Rustchain.Server

  What a peer serves to others (`server.rs`): its block files, the height and the
  tip of its block store, and the consensus state it published last.

  The answers are read from what the peer holds at that moment, while it goes on
  with whatever it meets.  So the question is what they are worth later: a block
  that was served is served again, and the states that a client sees in turn only
  move forward.
-/

import Rustchain.Consensus.Raft.Terms
import Rustchain.Peer.Delegation
import Rustchain.Peer.Refinement
import Rustchain.Peer.Transactions
import Rustchain.Storage.Verified

namespace Rustchain

-- ============================================================================
-- Views
-- ============================================================================

/-- `BlockStorageView`, as it stands: the state it shares with the block store, and the
    directory it reads from. -/
structure BlockStorageView where
  storageState : BlockStorageState
  pathToBlocks : BlockDir

namespace BlockStorageView

def getLatestState (view : BlockStorageView) : BlockStorageState := view.storageState

def getBlock (pf : Platform) (view : BlockStorageView) (index : Nat) : Except String BlockFile :=
  BlockFile.readFromDiskByIndex pf view.pathToBlocks index

end BlockStorageView

def BlockKeeper.createBlockStorageView (k : BlockKeeper) : BlockStorageView :=
  { storageState := k.blockStorageState, pathToBlocks := k.dir }

/-- `BlockStorageState::from(&BlockFile)`. -/
def BlockFile.storageState (block : BlockFile) : BlockStorageState :=
  { blockHeight := block.index, lastCommitedHash := block.hash }

structure PeerState where
  peerId : PeerId
  knownPeers : List PeerId
  block : BlockStorageState
  consensus : ConsensusState

/-- `PeerStateView`, as it stands: it receives what the peer publishes. -/
structure PeerStateView where
  peerId : PeerId
  blockStorageView : BlockStorageView
  consensusState : ConsensusState

def PeerStateView.getState (view : PeerStateView) (knownPeers : List PeerId) : PeerState :=
  { peerId := view.peerId
    knownPeers
    block := view.blockStorageView.getLatestState
    consensus := view.consensusState }

def Peer.createStateView (p : Peer) : PeerStateView :=
  { peerId := p.id
    blockStorageView := p.effects.blockKeeper.createBlockStorageView
    consensusState := p.consensusState }

-- ============================================================================
-- Requests
-- ============================================================================

/-- The two status codes of a block that cannot be read. -/
inductive StatusCode where
  | notFound
  | internalServerError
deriving DecidableEq, Repr

/-- `block_read_response`. -/
def blockReadResponse (error : String) : StatusCode × String :=
  if "Block file not found".toList.isPrefixOf error.toList then (.notFound, error)
  else (.internalServerError, error)

namespace Peer

/-- `GET /block/{block_index}`. -/
def getBlock (pf : Platform) (p : Peer) (blockIndex : Nat) :
    Except (StatusCode × String) BlockFile :=
  (p.effects.blockKeeper.createBlockStorageView.getBlock pf blockIndex).mapError blockReadResponse

/-- `GET /block/state/{block_index}`. -/
def getBlockState (pf : Platform) (p : Peer) (blockIndex : Nat) :
    Except (StatusCode × String) BlockStorageState :=
  ((p.effects.blockKeeper.createBlockStorageView.getBlock pf blockIndex).mapError
    blockReadResponse).map BlockFile.storageState

/-- `GET /block/state/latest`. -/
def getLatestStorageState (p : Peer) : BlockStorageState :=
  p.effects.blockKeeper.createBlockStorageView.getLatestState

/-- `GET /peer/state`. -/
def getPeerState (p : Peer) : PeerState := p.createStateView.getState p.effects.knownPeers

end Peer

/-- A block that is not there is reported as such, and nothing else is. -/
theorem blockReadResponse_readFromDisk {pf : Platform} {dir : BlockDir} {filename e : String}
    (h : BlockFile.readFromDisk pf dir filename = .error e) :
    (blockReadResponse e).1 = .notFound ↔ dir.files.lookup filename = none := by
  unfold BlockFile.readFromDisk at h
  cases hfile : dir.files.lookup filename with
  | none =>
      rw [hfile] at h
      cases h
      refine iff_of_true ?_ rfl
      simp [blockReadResponse, toString]
  | some contents =>
      rw [hfile] at h
      refine iff_of_false ?_ (by simp)
      simp only at h
      split at h
      · cases h
        simp [blockReadResponse, toString]
      · split at h
        · cases h
          simp [blockReadResponse, toString]
        · cases h

-- ============================================================================
-- A peer's operations on its block store
-- ============================================================================

namespace PeerEffects

variable {pf : Platform} {mayStage : BlockKeeper → SignedTransaction → Prop}
  {mayAdd : BlockKeeper → BlockFile → Prop} {effects effects' : PeerEffects}

/-- A change of a peer's services is at most one operation on its block store. -/
theorem Change.operation (h : Change pf mayStage mayAdd effects effects') :
    effects'.blockKeeper = effects.blockKeeper ∨
      ∃ operation, effects'.blockKeeper = effects.blockKeeper.operate pf operation := by
  cases h with
  | talk network lastCompletedBlock => exact Or.inl rfl
  | @stageClientTransaction clientTx hmay =>
      unfold PeerEffects.stageClientTransaction
      split
      · exact Or.inl rfl
      dsimp only
      split
      · exact Or.inl rfl
      · exact Or.inr ⟨.addTransaction clientTx, rfl⟩
  | @addExternalBlock block hadd hmay => exact Or.inr ⟨.addExternalBlock block, rfl⟩
  | commitBlock blockHash => exact Or.inr ⟨.commitBlock blockHash, rfl⟩
  | rollbackBlock blockHash transactionProcessor => exact Or.inr ⟨.rollbackBlock blockHash, rfl⟩

/-- What every operation keeps, a peer keeps. -/
theorem Changes.operates {I : BlockKeeper → Prop}
    (hoperate : ∀ k operation, I k → I (k.operate pf operation))
    (h : Changes pf mayStage mayAdd effects effects') (hI : I effects.blockKeeper) :
    I effects'.blockKeeper := by
  refine h.preserves (I := fun effects => I effects.blockKeeper) ?_ hI
  intro before after hchange hbefore
  rcases hchange.operation with hsame | ⟨operation, hoperation⟩
  · rw [hsame]
    exact hbefore
  · rw [hoperation]
    exact hoperate _ operation hbefore

theorem addsOnly_true (pf : Platform) (blocks : HashMap BlockHash BlockFile) (k : BlockKeeper)
    (entries : List RaftLogEntry) : AddsOnly pf (fun _ _ => True) blocks k entries := by
  induction entries generalizing k with
  | nil => trivial
  | cons entry entries ih =>
      rw [AddsOnly]
      split
      · exact ih k
      · exact fun _ _ _ => ⟨trivial, ih _⟩

end PeerEffects

namespace Peer

/-- Nothing that comes in is kept out. -/
theorem throughout_admits (pf : Platform) (p : Peer) (events : List Event) :
    Throughout pf (Admits pf (fun _ _ => True) fun _ _ => True) p events := by
  induction events generalizing p with
  | nil => trivial
  | cons event events ih =>
      refine ⟨?_, ih (p.handle pf event)⟩
      cases event with
      | message message now draw =>
          rw [Admits]
          split
          · exact fun _ _ _ => trivial
          · trivial
          · exact fun _ _ _ _ => trivial
          · exact fun _ a _ _ => PeerEffects.addsOnly_true pf a.blocks _ a.toStage
          · trivial
      | tick now => trivial
      | synchronized block => exact fun _ => trivial
      | discovered knownPeers => trivial

/-- What every operation on the block store keeps, every run of a peer keeps. -/
theorem run_operates {pf : Platform} {I : BlockKeeper → Prop}
    (hoperate : ∀ k operation, I k → I (k.operate pf operation)) {p : Peer}
    (hI : I p.effects.blockKeeper) (events : List Event) :
    I (p.run pf events).effects.blockKeeper :=
  (run_changes pf _ _ p events (throughout_admits pf p events)).operates hoperate hI

end Peer

-- ============================================================================
-- Block files
-- ============================================================================

namespace BlockKeeper

open BlockFile

/-- A file for each height, which holds a verified block, and at most one other: what a
    failed write left behind.  The tip is the hash of the last block. -/
structure Serves (pf : Platform) (k : BlockKeeper) : Prop extends HoldsVerified pf k where
  file : ∀ i, 0 < i → i ≤ k.blockStorageState.blockHeight → ∃ b,
    k.dir.files.lookup (blockFilenameForIndex i) = some (pf.encodeBlock b) ∧
      b.verifyBlock pf = .ok () ∧
      (i = k.blockStorageState.blockHeight → b.hash = k.blockStorageState.lastCommitedHash)
  named : ∀ filename ∈ k.dir.files, ∃ i, 0 < i ∧ i ≤ k.blockStorageState.blockHeight + 1 ∧
    filename = blockFilenameForIndex i
  readable : ∀ filename, k.dir.readError filename = none

/-- An empty directory, whatever goes wrong with writes to it. -/
theorem new_serves (pf : Platform) {dir : BlockDir} (hfiles : dir.files = ∅)
    (hreadable : ∀ filename, dir.readError filename = none) (mempoolSize : Nat)
    (walk : HashMap.Walk BlockHash BlockFile) : Serves pf (new pf dir mempoolSize walk) := by
  have hnone : dir.listAllBlocks.getLast? = none := by
    rw [BlockDir.listAllBlocks, hfiles]
    rfl
  have hstate : (new pf dir mempoolSize walk).blockStorageState = ⟨0, emptyHash⟩ := by
    simp only [new, hnone]
  refine ⟨new_holdsVerified pf dir mempoolSize walk, ?_, ?_, hreadable⟩
  · rw [hstate]
    exact fun i hpos hi => absurd hpos (Nat.not_lt_of_le hi)
  · intro filename hmem
    rw [show (new pf dir mempoolSize walk).dir.files = ∅ from hfiles] at hmem
    exact absurd hmem (AList.notMem_empty _)

variable {pf : Platform} {k k' : BlockKeeper}

theorem Serves.congr (h : Serves pf k) (hdir : k'.dir = k.dir)
    (hstate : k'.blockStorageState = k.blockStorageState) (hverified : HoldsVerified pf k') :
    Serves pf k' := by
  refine ⟨hverified, ?_, ?_, ?_⟩
  · rw [hdir, hstate]
    exact h.file
  · rw [hdir, hstate]
    exact h.named
  · rw [hdir]
    exact h.readable

theorem Serves.packs (h : Serves pf k) (hpacks : Packs pf k k') : Serves pf k' :=
  h.congr hpacks.dir hpacks.state (h.toHoldsVerified.packs hpacks)

/-- A write to the next file leaves the files of the chain alone. -/
theorem lookup_write_next (dir : BlockDir) {height i : Nat} (hi : i ≤ height) (contents : Bytes) :
    (dir.write (blockFilenameForIndex (height + 1)) contents).1.files.lookup
        (blockFilenameForIndex i) = dir.files.lookup (blockFilenameForIndex i) := by
  have hname : blockFilenameForIndex i ≠ blockFilenameForIndex (height + 1) := by
    intro hname
    have := blockFilenameForIndex_injective hname
    omega
  unfold BlockDir.write
  split
  · exact AList.lookup_insert_ne hname
  · split
    · exact AList.lookup_insert_ne hname
    · exact AList.lookup_erase_ne hname

/-- A write adds no file but the one it is for. -/
theorem mem_write (dir : BlockDir) {filename other : String} {contents : Bytes}
    (h : other ∈ (dir.write filename contents).1.files) : other = filename ∨ other ∈ dir.files := by
  unfold BlockDir.write at h
  split at h
  · exact (AList.mem_insert _).mp h
  · dsimp only at h
    split at h
    · exact (AList.mem_insert _).mp h
    · exact Or.inr (AList.mem_erase.mp h).2

theorem write_readError (dir : BlockDir) (filename : String) (contents : Bytes) :
    (dir.write filename contents).1.readError = dir.readError := by
  unfold BlockDir.write
  split <;> rfl

/-- A block that is committed gets the next file; a write that fails may spoil that
    file, which no height stands for. -/
theorem Serves.commitBlock (h : Serves pf k) (blockHash : BlockHash) :
    Serves pf (k.commitBlock pf blockHash).1 := by
  rcases commitBlock_cases pf k blockHash with
    ⟨-, e, heq⟩ | ⟨block, hlookup, hfault, -, heq⟩ | ⟨block, fault, e, -, -, -, heq⟩
  · rw [heq]
    exact h
  · obtain ⟨hhash, hverified⟩ := h.staged blockHash block hlookup
    rw [heq]
    refine ⟨h.toHoldsVerified.erase rfl rfl, ?_, ?_, h.readable⟩
    · intro i hpos hi
      dsimp only at hi ⊢
      rcases Nat.eq_or_lt_of_le hi with rfl | hlt
      · exact ⟨block, AList.lookup_insert _, hverified, fun _ => hhash⟩
      · have hname : blockFilenameForIndex i ≠
            blockFilenameForIndex (k.blockStorageState.blockHeight + 1) := by
          intro hname
          have := blockFilenameForIndex_injective hname
          omega
        obtain ⟨b, hfile, hb, -⟩ := h.file i hpos (Nat.le_of_lt_succ hlt)
        refine ⟨b, ?_, hb, fun hlast => absurd hlast (Nat.ne_of_lt hlt)⟩
        rw [AList.lookup_insert_ne hname]
        exact hfile
    · intro filename hmem
      dsimp only at hmem ⊢
      rcases (AList.mem_insert _).mp hmem with rfl | hmem
      · exact ⟨_, Nat.succ_pos _, Nat.le_succ _, rfl⟩
      · obtain ⟨i, hpos, hi, hname⟩ := h.named filename hmem
        exact ⟨i, hpos, Nat.le_succ_of_le hi, hname⟩
  · rw [heq]
    refine ⟨⟨h.staged, h.created⟩, ?_, ?_, ?_⟩
    · intro i hpos hi
      obtain ⟨b, hfile, hb, hlast⟩ := h.file i hpos hi
      refine ⟨b, ?_, hb, hlast⟩
      dsimp only
      rw [lookup_write_next k.dir hi]
      exact hfile
    · intro filename hmem
      rcases mem_write k.dir hmem with rfl | hmem
      · exact ⟨_, Nat.succ_pos _, Nat.le_refl _, rfl⟩
      · exact h.named filename hmem
    · intro filename
      dsimp only
      rw [write_readError]
      exact h.readable filename

theorem Serves.operate (h : Serves pf k) (operation : StoreOperation) :
    Serves pf (k.operate pf operation) := by
  cases operation with
  | addTransaction transaction => exact h.packs (addTransaction_packs pf k transaction)
  | addExternalBlock block =>
      show Serves pf (k.addExternalBlock pf block).1
      rcases addExternalBlock_cases pf k block with ⟨e, -, heq⟩ | ⟨hverify, -, hstages⟩
      · rw [heq]
        exact h
      · exact h.congr hstages.dir hstages.state (h.toHoldsVerified.stages hverify hstages)
  | commitBlock blockHash => exact h.commitBlock blockHash
  | rollbackBlock blockHash =>
      show Serves pf (k.rollbackBlock pf blockHash).1
      rcases rollbackBlock_cases pf k blockHash with ⟨-, e, heq⟩ | ⟨block, -, -, hpacks⟩
      · rw [heq]
        exact h
      · refine Serves.packs ?_ hpacks
        exact h.congr rfl rfl (h.toHoldsVerified.erase rfl rfl)

/-- The height is not below what it was, and the files up to it are as they were. -/
structure Continues (k k' : BlockKeeper) : Prop where
  height : k.blockStorageState.blockHeight ≤ k'.blockStorageState.blockHeight
  files : ∀ i ≤ k.blockStorageState.blockHeight,
    k'.dir.files.lookup (blockFilenameForIndex i) = k.dir.files.lookup (blockFilenameForIndex i)
  readError : k'.dir.readError = k.dir.readError

theorem Continues.of_same (hdir : k'.dir = k.dir)
    (hstate : k'.blockStorageState = k.blockStorageState) : Continues k k' := by
  refine ⟨?_, fun i _ => ?_, ?_⟩
  · rw [hstate]
  · rw [hdir]
  · rw [hdir]

theorem Continues.trans {k'' : BlockKeeper} (h : Continues k k') (h' : Continues k' k'') :
    Continues k k'' :=
  ⟨h.height.trans h'.height, fun i hi => (h'.files i (hi.trans h.height)).trans (h.files i hi),
    h'.readError.trans h.readError⟩

/-- No operation changes a file of the chain. -/
theorem operate_continues (pf : Platform) (k : BlockKeeper) (operation : StoreOperation) :
    Continues k (k.operate pf operation) := by
  cases operation with
  | addTransaction transaction =>
      have hpacks := addTransaction_packs pf k transaction
      exact .of_same hpacks.dir hpacks.state
  | addExternalBlock block =>
      show Continues k (k.addExternalBlock pf block).1
      rcases addExternalBlock_cases pf k block with ⟨e, -, heq⟩ | ⟨-, -, hstages⟩
      · rw [heq]
        exact .of_same rfl rfl
      · exact .of_same hstages.dir hstages.state
  | rollbackBlock blockHash =>
      have hrolled := rollbackBlock_rollsBack pf k blockHash
      exact .of_same hrolled.dir hrolled.state
  | commitBlock blockHash =>
      show Continues k (k.commitBlock pf blockHash).1
      rcases commitBlock_cases pf k blockHash with
        ⟨-, e, heq⟩ | ⟨block, -, hfault, -, heq⟩ | ⟨block, fault, e, -, -, -, heq⟩
      · rw [heq]
        exact .of_same rfl rfl
      · rw [heq]
        refine ⟨Nat.le_succ _, fun i hi => AList.lookup_insert_ne ?_, rfl⟩
        intro hname
        have := blockFilenameForIndex_injective hname
        omega
      · rw [heq]
        exact ⟨Nat.le_refl _, fun i hi => lookup_write_next k.dir hi _, write_readError _ _ _⟩

/-- A file of the chain is read as it was. -/
theorem Continues.read (h : Continues k k') (pf : Platform) {i : Nat}
    (hi : i ≤ k.blockStorageState.blockHeight) :
    (readFromDiskByIndex pf k'.dir i).toOption = (readFromDiskByIndex pf k.dir i).toOption := by
  simp only [readFromDiskByIndex, readFromDisk, h.files i hi, h.readError]
  split
  · rfl
  · split
    · rfl
    · split <;> rfl

/-- What is read at a height of the chain. -/
theorem Serves.read (hpf : pf.Lawful) (h : Serves pf k) {i : Nat} (hpos : 0 < i)
    (hi : i ≤ k.blockStorageState.blockHeight) :
    ∃ b, readFromDiskByIndex pf k.dir i = .ok b ∧ b.verifyBlock pf = .ok () ∧
      (i = k.blockStorageState.blockHeight → b.hash = k.blockStorageState.lastCommitedHash) := by
  obtain ⟨b, hfile, hb⟩ := h.file i hpos hi
  refine ⟨b, ?_, hb⟩
  simp only [readFromDiskByIndex, readFromDisk, hfile, h.readable, hpf.decode_encodeBlock]

/-- Beyond the file after the chain there is nothing. -/
theorem Serves.lookup_beyond (h : Serves pf k) {i : Nat}
    (hi : i = 0 ∨ k.blockStorageState.blockHeight + 1 < i) :
    k.dir.files.lookup (blockFilenameForIndex i) = none := by
  rw [AList.lookup_eq_none]
  intro hmem
  obtain ⟨j, hpos, hj, hname⟩ := h.named _ hmem
  have := blockFilenameForIndex_injective hname
  omega

end BlockKeeper

-- ============================================================================
-- What is served over time
-- ============================================================================

namespace Peer

open BlockKeeper

/-- The peer was started on an empty directory that can be read; what happens to writes
    is open. -/
def StartsEmpty (pf : Platform) (p : Peer) : Prop :=
  ∃ dir mempoolSize walk, dir.files = ∅ ∧ (∀ filename, dir.readError filename = none) ∧
    p.effects.blockKeeper = .new pf dir mempoolSize walk

variable {pf : Platform} {p : Peer}

theorem StartsEmpty.serves (h : p.StartsEmpty pf) (events : List Event) :
    Serves pf (p.run pf events).effects.blockKeeper := by
  obtain ⟨dir, mempoolSize, walk, hfiles, hreadable, hkeeper⟩ := h
  refine run_operates (fun _ operation hk => hk.operate operation) ?_ events
  rw [hkeeper]
  exact new_serves pf hfiles hreadable mempoolSize walk

theorem run_continues (pf : Platform) (p : Peer) (events : List Event) :
    Continues p.effects.blockKeeper (p.run pf events).effects.blockKeeper := by
  refine run_operates (I := Continues p.effects.blockKeeper) ?_ (.of_same rfl rfl) events
  exact fun k operation hk => hk.trans (operate_continues pf k operation)

theorem getBlock_eq_ok_iff {b : BlockFile} {i : Nat} :
    p.getBlock pf i = .ok b ↔
      BlockFile.readFromDiskByIndex pf p.effects.blockKeeper.dir i = .ok b := by
  show (BlockFile.readFromDiskByIndex pf p.effects.blockKeeper.dir i).mapError _ = _ ↔ _
  cases BlockFile.readFromDiskByIndex pf p.effects.blockKeeper.dir i with
  | ok block =>
      constructor
      · rintro ⟨⟩
        rfl
      · rintro ⟨⟩
        rfl
  | error e =>
      constructor
      · rintro ⟨⟩
      · rintro ⟨⟩

/-- `get_block_state` describes the block that `get_block` serves. -/
theorem getBlockState_of_getBlock {b : BlockFile} {i : Nat} (h : p.getBlock pf i = .ok b) :
    p.getBlockState pf i = .ok b.storageState :=
  congrArg (Except.map BlockFile.storageState) h

/-- In every run of a peer from an empty directory, whatever it meets and whichever writes
    fail: every height it reports has a verified block, the last of them the one whose
    hash it reports; it serves that block, and its state, from then on; and from the
    second height above there is nothing to be found. -/
theorem served_history (hpf : pf.Lawful) (hstart : p.StartsEmpty pf) (past future : List Event) :
    let now := p.run pf past
    let later := now.run pf future
    now.getLatestStorageState.blockHeight ≤ later.getLatestStorageState.blockHeight ∧
      (∀ i, 0 < i → i ≤ now.getLatestStorageState.blockHeight →
        ∃ b, now.getBlock pf i = .ok b ∧ later.getBlock pf i = .ok b ∧
          later.getBlockState pf i = .ok b.storageState ∧ b.verifyBlock pf = .ok () ∧
          (i = now.getLatestStorageState.blockHeight →
            b.hash = now.getLatestStorageState.lastCommitedHash)) ∧
      ∀ i, i = 0 ∨ now.getLatestStorageState.blockHeight + 1 < i →
        ∃ e, now.getBlock pf i = .error (.notFound, e) := by
  intro now later
  have hserves : Serves pf now.effects.blockKeeper := hstart.serves past
  have hcontinues := run_continues pf now future
  refine ⟨hcontinues.height, ?_, ?_⟩
  · intro i hpos hi
    obtain ⟨b, hread, hverified, hlast⟩ := hserves.read hpf hpos hi
    have hlater : later.getBlock pf i = .ok b := by
      have hsame := hcontinues.read pf hi
      rw [hread] at hsame
      apply getBlock_eq_ok_iff.mpr
      cases hlater : BlockFile.readFromDiskByIndex pf later.effects.blockKeeper.dir i with
      | error e =>
          rw [hlater] at hsame
          cases hsame
      | ok block =>
          rw [hlater] at hsame
          cases hsame
          rfl
    exact ⟨b, getBlock_eq_ok_iff.mpr hread, hlater, getBlockState_of_getBlock hlater, hverified,
      hlast⟩
  · intro i hi
    have hnone := hserves.lookup_beyond hi
    cases hread : BlockFile.readFromDiskByIndex pf now.effects.blockKeeper.dir i with
    | ok b =>
        simp only [BlockFile.readFromDiskByIndex, BlockFile.readFromDisk, hnone] at hread
        cases hread
    | error e =>
        have hcode := (blockReadResponse_readFromDisk hread).mpr hnone
        have hresponse : blockReadResponse e = (.notFound, e) := by
          unfold blockReadResponse at hcode ⊢
          split at hcode
          · rename_i hstarts
            rw [if_pos hstarts]
          · cases hcode
        refine ⟨e, ?_⟩
        show (BlockFile.readFromDiskByIndex pf now.effects.blockKeeper.dir i).mapError _ = _
        rw [hread, ← hresponse]
        rfl

open Reference in
/-- A lone peer serves the block it makes of a deposit, and has nothing at height 3. -/
theorem served_history_deposit :
    (votingPeer []).StartsEmpty platform ∧
      ((votingPeer []).run platform [submission deposit]).getLatestStorageState.blockHeight = 1 ∧
      (∃ b, ((votingPeer []).run platform [submission deposit]).getBlock platform 1 = .ok b ∧
        (((votingPeer []).run platform [submission deposit]).run platform
          [submission deposit]).getBlock platform 1 = .ok b ∧ b.verifyBlock platform = .ok ()) ∧
      ∃ e, ((votingPeer []).run platform [submission deposit]).getBlock platform 3 =
        .error (.notFound, e) := by
  have hempty : (votingPeer []).StartsEmpty platform :=
    ⟨.empty "data/peer_1", 1, .listed _ _, rfl, fun _ => rfl, rfl⟩
  have hheight : ((votingPeer []).run platform
      [submission deposit]).getLatestStorageState.blockHeight = 1 := by decide +kernel
  obtain ⟨-, hserved, hbeyond⟩ := served_history platform_lawful hempty [submission deposit]
    [submission deposit]
  rw [hheight] at hserved hbeyond
  obtain ⟨b, hnow, hlater, -, hverified, -⟩ := hserved 1 Nat.zero_lt_one (Nat.le_refl 1)
  exact ⟨hempty, hheight, ⟨b, hnow, hlater, hverified⟩, hbeyond 3 (Or.inr (by decide))⟩

end Peer

-- ============================================================================
-- What a client sees in turn
-- ============================================================================

/-- The state goes on from another: neither term nor commit index is behind. -/
def ConsensusState.GoesOn : ConsensusState → ConsensusState → Prop
  | .voting, .voting => True
  | .raft _ term _ commitIndex _, .raft _ term' _ commitIndex' _ =>
    term ≤ term' ∧ commitIndex ≤ commitIndex'
  | _, _ => False

namespace ConsensusState

theorem GoesOn.refl (state : ConsensusState) : state.GoesOn state := by
  cases state with
  | voting => trivial
  | raft role term leaderId commitIndex lastLogIndex => exact ⟨Nat.le_refl _, Nat.le_refl _⟩

theorem GoesOn.trans {state state' state'' : ConsensusState} (h : state.GoesOn state')
    (h' : state'.GoesOn state'') : state.GoesOn state'' := by
  cases state <;> cases state' <;> cases state'' <;>
    first
      | exact ⟨h.1.trans h'.1, h.2.trans h'.2⟩
      | trivial

end ConsensusState

/-- Handler calls none of which is an election that overflows the term. -/
theorem RaftConsensus.handleEach_goesOn {pf : Platform} {r : RaftConsensus}
    {events : List RaftEvent} (hlog : Contiguous 0 r.log)
    (hterms : ∀ past event future, events = past ++ event :: future →
      event.StartsElection (r.handleEach pf past) →
        (r.handleEach pf past).currentTerm < 2 ^ 64 - 1) :
    Contiguous 0 (r.handleEach pf events).log ∧
      r.state.GoesOn (r.handleEach pf events).state := by
  induction events generalizing r with
  | nil => exact ⟨hlog, .refl _⟩
  | cons event events ih =>
      have hadvance := (handle_recorded pf hlog event).advance hlog
      have hterm := r.handle_term_le pf fun h => hterms [] event events rfl h
      obtain ⟨hlog', hrest⟩ := ih hadvance.contiguous fun past later future heq =>
        hterms (event :: past) later future (by rw [heq, List.cons_append])
      have hfirst : r.state.GoesOn (r.handle pf event).1.state := ⟨hterm, hadvance.mono⟩
      exact ⟨hlog', hfirst.trans hrest⟩

namespace Peer

variable {pf : Platform} {p : Peer}

/-- The event does not start an election in the last term there is. -/
def TermFits (p : Peer) (event : Event) : Prop :=
  ∀ r now, p.consensus = .raft r → event = .tick now →
    (RaftEvent.tick now p.effects.knownPeers).StartsElection r → r.currentTerm < 2 ^ 64 - 1

instance (p : Peer) (event : Event) : Decidable (p.TermFits event) :=
  match hconsensus : p.consensus, event with
  | .raft r, .tick now =>
    if hfits : r.role ≠ .leader ∧ r.leaderTimedOut now = true → r.currentTerm < 2 ^ 64 - 1 then
      .isTrue fun r' now' hr' hnow' => by
        rw [hconsensus] at hr'
        cases hr'
        cases hnow'
        exact hfits
    else .isFalse fun h => hfits (h r now hconsensus rfl)
  | .voting .., _ => .isTrue fun r now hr => by
      rw [hconsensus] at hr
      cases hr
  | .raft _, .message .. | .raft _, .synchronized _ | .raft _, .discovered _ =>
    .isTrue fun _ _ _ h => by cases h

instance decidableThroughout (pf : Platform) (condition : Peer → Event → Prop)
    [∀ p event, Decidable (condition p event)] (p : Peer) (events : List Event) :
    Decidable (Throughout pf condition p events) :=
  match events with
  | [] => .isTrue trivial
  | event :: events =>
    have := decidableThroughout pf condition (p.handle pf event) events
    inferInstanceAs (Decidable (condition p event ∧ Throughout pf condition _ events))

/-- The consensus of a peer goes on from the state it published last. -/
structure Publishes (p : Peer) (r : RaftConsensus) : Prop where
  consensus : p.consensus = .raft r
  contiguous : Contiguous 0 r.log
  published : p.consensusState.GoesOn r.state

/-- A local call starts no election. -/
theorem not_startsElection_of_isLocal {event : RaftEvent} (h : event.isLocal = true)
    (r : RaftConsensus) : ¬ event.StartsElection r := by
  cases event with
  | tick now knownPeers => cases h
  | _ => exact fun h => h.elim

theorem Publishes.delegated {p' : Peer} {r : RaftConsensus} {first later : List RaftEvent}
    (h : p.Publishes r) (hdelegated : Delegated pf p p' r (first ++ later))
    (hfirst : ∀ event ∈ first, event.StartsElection r → r.currentTerm < 2 ^ 64 - 1)
    (hshort : first = [] ∨ ∃ event, first = [event])
    (hlater : ∀ event ∈ later, event.isLocal = true) :
    p'.Publishes (r.handleEach pf (first ++ later)) ∧
      p.consensusState.GoesOn p'.consensusState := by
  have hterms : ∀ past event future, first ++ later = past ++ event :: future →
      event.StartsElection (r.handleEach pf past) →
        (r.handleEach pf past).currentTerm < 2 ^ 64 - 1 := by
    intro past event future heq helection
    have hmem : ∀ later : List RaftEvent, (∀ event ∈ later, event.isLocal = true) →
        ∀ past, later = past ++ event :: future →
          ¬ event.StartsElection (r.handleEach pf (first ++ past)) := by
      rintro _ hlocal past rfl
      exact not_startsElection_of_isLocal
        (hlocal event (List.mem_append_right _ List.mem_cons_self)) _
    rcases hshort with rfl | ⟨only, rfl⟩
    · exact absurd helection (hmem later hlater past heq)
    · cases past with
      | nil =>
          obtain ⟨rfl, -⟩ := List.cons.inj heq
          exact hfirst only List.mem_cons_self helection
      | cons other past =>
          obtain ⟨rfl, hrest⟩ := List.cons.inj heq
          exact absurd helection (hmem later hlater past hrest)
  obtain ⟨hlog, hgoesOn⟩ := RaftConsensus.handleEach_goesOn h.contiguous hterms
  have hengine := hdelegated.delegates.engine
  have hnow := h.published.trans hgoesOn
  rcases hdelegated.published with hkept | hnew
  · rw [hkept]
    refine ⟨⟨hengine, hlog, ?_⟩, .refl _⟩
    rw [hkept]
    exact hnow
  · rw [hengine] at hnew
    refine ⟨⟨hengine, hlog, ?_⟩, ?_⟩
    · rw [hnew]
      exact .refl _
    · rw [hnew]
      exact hnow

/-- Every event keeps the published state behind consensus, and does not take it back. -/
theorem Publishes.handle {r : RaftConsensus} (h : p.Publishes r) (pf : Platform) {event : Event}
    (hfits : p.TermFits event) :
    (∃ r', (p.handle pf event).Publishes r') ∧
      p.consensusState.GoesOn (p.handle pf event).consensusState := by
  cases event with
  | message message now draw =>
      obtain ⟨first, later, hdelegated, hfirst, hlater⟩ :=
        handleMessage_delegated h.consensus message now draw
      have helection : ∀ event ∈ first, event.StartsElection r → r.currentTerm < 2 ^ 64 - 1 := by
        intro event hmem
        rcases hfirst with rfl | rfl
        · cases hmem
        · rw [List.mem_singleton.mp hmem]
          exact fun h => h.elim
      obtain ⟨hnext, hgoesOn⟩ := h.delegated hdelegated helection
        (hfirst.imp_right fun hone => ⟨_, hone⟩) hlater
      exact ⟨⟨_, hnext⟩, hgoesOn⟩
  | tick now =>
      obtain ⟨later, hdelegated, hlater⟩ := handleTick_delegated h.consensus now
      have helection : ∀ event ∈ [RaftEvent.tick now p.effects.knownPeers],
          event.StartsElection r → r.currentTerm < 2 ^ 64 - 1 := by
        intro event hmem
        rw [List.mem_singleton.mp hmem]
        exact hfits r now h.consensus rfl
      have hdelegated' : Delegated pf p (p.handle pf (.tick now)) r
          ([.tick now p.effects.knownPeers] ++ later) := hdelegated
      obtain ⟨hnext, hgoesOn⟩ := h.delegated hdelegated' helection (Or.inr ⟨_, rfl⟩) hlater
      exact ⟨⟨_, hnext⟩, hgoesOn⟩
  | synchronized block => exact ⟨⟨r, h.consensus, h.contiguous, h.published⟩, .refl _⟩
  | discovered knownPeers => exact ⟨⟨r, h.consensus, h.contiguous, h.published⟩, .refl _⟩

theorem Publishes.run {r : RaftConsensus} (h : p.Publishes r) {events : List Event}
    (hfits : Throughout pf TermFits p events) :
    (∃ r', (p.run pf events).Publishes r') ∧
      p.consensusState.GoesOn (p.run pf events).consensusState := by
  induction events generalizing p r with
  | nil => exact ⟨⟨r, h⟩, .refl _⟩
  | cons event events ih =>
      obtain ⟨⟨r', hnext⟩, hgoesOn⟩ := h.handle pf hfits.1
      obtain ⟨hlast, hgoesOn'⟩ := ih hnext hfits.2
      exact ⟨hlast, hgoesOn.trans hgoesOn'⟩

theorem throughout_append {condition : Peer → Event → Prop} {past future : List Event} :
    Throughout pf condition p (past ++ future) ↔
      Throughout pf condition p past ∧ Throughout pf condition (p.run pf past) future := by
  induction past generalizing p with
  | nil => simp [Throughout, run]
  | cons event past ih =>
      rw [List.cons_append, Throughout, ih, Throughout, and_assoc]
      rfl

/-- A Raft peer starts with its own state published. -/
theorem startRaft_publishes (hpf : pf.Lawful) {id : PeerId} {network : Network} {dir : BlockDir}
    {store : FileRaftLogStore} {mempoolSize : Nat} {walk : HashMap.Walk BlockHash BlockFile}
    {signingKey : SigningKey} {now : Instant} {draw : Nat} (hstore : Written pf (.file store))
    (hstart : startRaft pf id network dir store mempoolSize walk signingKey now draw = .ok p) :
    ∃ r, p.Publishes r := by
  unfold startRaft ConsensusEngine.newRaftWithStorage at hstart
  dsimp only at hstart
  cases hnew : RaftConsensus.newWithStorage pf id (.file store)
      (BlockKeeper.new pf dir mempoolSize walk).blockStorageState.blockHeight now draw with
  | error e =>
      rw [hnew] at hstart
      cases hstart
  | ok r =>
      rw [hnew] at hstart
      cases hstart
      exact ⟨r, rfl, (RaftConsensus.built_sound hpf hstore hnew).2.1, .refl _⟩

/-- The states that a client of a Raft peer sees in turn only move forward: neither the
    term nor the commit index that the peer publishes is ever taken back, and the height
    it reports does not fall. -/
theorem state_view_goes_on (hpf : pf.Lawful) {id : PeerId} {network : Network} {dir : BlockDir}
    {store : FileRaftLogStore} {mempoolSize : Nat} {walk : HashMap.Walk BlockHash BlockFile}
    {signingKey : SigningKey} {now : Instant} {draw : Nat} (hstore : Written pf (.file store))
    (hstart : startRaft pf id network dir store mempoolSize walk signingKey now draw = .ok p)
    (past future : List Event) (hfits : Throughout pf TermFits p (past ++ future)) :
    let seen := (p.run pf past).getPeerState
    let later := (p.run pf (past ++ future)).getPeerState
    seen.consensus.GoesOn later.consensus ∧ seen.block.blockHeight ≤ later.block.blockHeight := by
  intro seen later
  obtain ⟨r, hpublishes⟩ := startRaft_publishes hpf hstore hstart
  obtain ⟨hpast, hfuture⟩ := throughout_append.mp hfits
  obtain ⟨⟨r', hnow⟩, -⟩ := hpublishes.run hpast
  have hlater : later = ((p.run pf past).run pf future).getPeerState :=
    congrArg getPeerState List.foldl_append
  rw [hlater]
  exact ⟨(hnow.run hfuture).2, (run_continues pf _ future).height⟩

open Reference in
/-- A lone Raft peer elects itself, and commits the block of a deposit. -/
theorem state_view_goes_on_lone :
    (((raftPeer 1 []).run platform [.tick 20000]).getPeerState.consensus =
        .raft .leader 1 (some 1) 1 1 ∧
      ((raftPeer 1 []).run platform ([.tick 20000] ++ [submission deposit])).getPeerState.consensus =
        .raft .leader 1 (some 1) 2 2) ∧
      ((raftPeer 1 []).run platform [.tick 20000]).getPeerState.consensus.GoesOn
        ((raftPeer 1 []).run platform
          ([.tick 20000] ++ [submission deposit])).getPeerState.consensus ∧
      ((raftPeer 1 []).run platform [.tick 20000]).getPeerState.block.blockHeight ≤
        ((raftPeer 1 []).run platform
          ([.tick 20000] ++ [submission deposit])).getPeerState.block.blockHeight :=
  ⟨by decide +kernel, state_view_goes_on platform_lawful (.empty ⟨rfl, rfl⟩) (raftPeer_started 1 [])
    [.tick 20000] [submission deposit] (by decide +kernel)⟩

end Peer

end Rustchain
