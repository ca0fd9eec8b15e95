/-
  Rustchain.Peer.ReadState

  The ledger that `read_state` builds from the block files.

  It goes through the files as they are listed and gives up at the first
  transaction that is refused, while a peer that adds a block only logs a
  refusal.  So it finds its way back to the ledger of a running peer when the
  files are listed in the order of the chain and nothing was refused.
-/

import Rustchain.Ledger.Replay
import Rustchain.Peer.Synchronized
import Rustchain.Storage.Reopening
import Rustchain.Synchronization.CatchUp

namespace Rustchain

open BlockKeeper

-- ============================================================================
-- Reading
-- ============================================================================

/-- `read_transactions_from_disk`. -/
def BlockKeeper.readTransactionsFromDisk (pf : Platform) (k : BlockKeeper)
    (blockFilename : String) : Except String (List SignedTransaction) :=
  match BlockFile.readFromDisk pf k.dir blockFilename with
  | .error e => .error e
  | .ok block => .ok block.transactions

namespace TransactionProcessor

/-- The inner loop of `read_state`: a refused transaction ends it. -/
def readBlock (tp : TransactionProcessor) :
    List SignedTransaction → TransactionProcessor × Except String Unit
  | [] => (tp, .ok ())
  | tx :: txs =>
    match tp.processTransaction tx with
    | (tp, .error e) => (tp, .error e.display)
    | (tp, .ok ()) => tp.readBlock txs

/-- The outer loop of `read_state`. -/
def readBlocks (pf : Platform) (k : BlockKeeper) :
    TransactionProcessor → List String → TransactionProcessor × Except String Unit
  | tp, [] => (tp, .ok ())
  | tp, blockName :: blockNames =>
    match k.readTransactionsFromDisk pf blockName with
    | .error e => (tp, .error e)
    | .ok transactions =>
      match tp.readBlock transactions with
      | (tp, .error e) => (tp, .error e)
      | (tp, .ok ()) => readBlocks pf k tp blockNames

/-- `read_state`. -/
def readState (pf : Platform) (tp : TransactionProcessor) (k : BlockKeeper) :
    TransactionProcessor × Except String Unit :=
  readBlocks pf k tp k.dir.listAllBlocks

/-- A loop that ended stays where it ended. -/
theorem readBlock_append_error {tp tp' : TransactionProcessor} {txs : List SignedTransaction}
    {e : String} (h : tp.readBlock txs = (tp', .error e)) (txs' : List SignedTransaction) :
    tp.readBlock (txs ++ txs') = (tp', .error e) := by
  induction txs generalizing tp with
  | nil => cases h
  | cons tx txs ih =>
      rw [List.cons_append]
      rw [readBlock] at h ⊢
      rcases hprocess : tp.processTransaction tx with ⟨next, refused | _⟩
      · rw [hprocess] at h
        exact h
      · rw [hprocess] at h
        exact ih h

theorem readBlock_append_ok {tp tp' : TransactionProcessor} {txs : List SignedTransaction}
    (h : tp.readBlock txs = (tp', .ok ())) (txs' : List SignedTransaction) :
    tp.readBlock (txs ++ txs') = tp'.readBlock txs' := by
  induction txs generalizing tp with
  | nil =>
      cases h
      rfl
  | cons tx txs ih =>
      rw [List.cons_append]
      rw [readBlock] at h ⊢
      rcases hprocess : tp.processTransaction tx with ⟨next, refused | _⟩
      · rw [hprocess] at h
        cases h
      · rw [hprocess] at h
        exact ih h

/-- The loop gets through exactly when every transaction is accepted in its turn. -/
theorem readBlock_ok_iff (tp : TransactionProcessor) (txs : List SignedTransaction) :
    (tp.readBlock txs).2 = .ok () ↔ tp.AllAccepted txs := by
  induction txs generalizing tp with
  | nil => exact ⟨fun _ result hmem => absurd hmem List.not_mem_nil, fun _ => rfl⟩
  | cons tx txs ih =>
      rw [allAccepted_cons]
      simp only [readBlock]
      rcases tp.processTransaction tx with ⟨tp', e | _⟩
      · exact ⟨fun h => (by cases h), fun h => (by cases h.1)⟩
      · exact (ih tp').trans ⟨fun h => ⟨rfl, h⟩, And.right⟩

/-- Then it leaves the ledger that executing them leaves. -/
theorem readBlock_fst {tp : TransactionProcessor} {txs : List SignedTransaction}
    (h : tp.AllAccepted txs) :
    (tp.readBlock txs).1 = txs.foldl (fun tp tx => (tp.processTransaction tx).1) tp := by
  induction txs generalizing tp with
  | nil => rfl
  | cons tx txs ih =>
      obtain ⟨hfirst, hrest⟩ := allAccepted_cons.mp h
      simp only [readBlock, List.foldl_cons]
      rcases hprocess : tp.processTransaction tx with ⟨tp', e | _⟩
      · rw [hprocess] at hfirst
        cases hfirst
      · rw [hprocess] at hrest
        exact ih hrest

end TransactionProcessor

-- ============================================================================
-- The chain on disk
-- ============================================================================

namespace BlockKeeper

/-- The blocks of the chain in order, as they are read. -/
def chainOnDisk (pf : Platform) (k : BlockKeeper) : List BlockFile :=
  (List.range k.blockStorageState.blockHeight).filterMap fun i =>
    (BlockFile.readFromDiskByIndex pf k.dir (i + 1)).toOption

/-- The transactions of the chain in order. -/
def chainTransactions (pf : Platform) (k : BlockKeeper) : List SignedTransaction :=
  (k.chainOnDisk pf).flatMap BlockFile.transactions

variable {pf : Platform} {k k' : BlockKeeper}

/-- Reading files one after the other that can all be read. -/
theorem readBlocks_names {indexes : List Nat}
    (h : ∀ i ∈ indexes, ∃ b, BlockFile.readFromDiskByIndex pf k.dir (i + 1) = .ok b)
    (tp : TransactionProcessor) :
    TransactionProcessor.readBlocks pf k tp
        (indexes.map fun i => BlockFile.blockFilenameForIndex (i + 1)) =
      tp.readBlock ((indexes.filterMap fun i =>
        (BlockFile.readFromDiskByIndex pf k.dir (i + 1)).toOption).flatMap
          BlockFile.transactions) := by
  induction indexes generalizing tp with
  | nil => rfl
  | cons i indexes ih =>
      obtain ⟨b, hread⟩ := h i List.mem_cons_self
      have hrest := ih fun j hj => h j (List.mem_cons_of_mem i hj)
      have hfile : k.readTransactionsFromDisk pf (BlockFile.blockFilenameForIndex (i + 1)) =
          .ok b.transactions := by
        rw [readTransactionsFromDisk, show BlockFile.readFromDisk pf k.dir
          (BlockFile.blockFilenameForIndex (i + 1)) = .ok b from hread]
      have htransactions : ((i :: indexes).filterMap fun i =>
          (BlockFile.readFromDiskByIndex pf k.dir (i + 1)).toOption).flatMap
            BlockFile.transactions = b.transactions ++ (indexes.filterMap fun i =>
          (BlockFile.readFromDiskByIndex pf k.dir (i + 1)).toOption).flatMap
            BlockFile.transactions := by
        simp only [List.filterMap_cons, hread, Except.toOption, List.flatMap_cons]
      rw [List.map_cons, TransactionProcessor.readBlocks, hfile, htransactions]
      rcases hblock : tp.readBlock b.transactions with ⟨tp', e | _⟩
      · rw [TransactionProcessor.readBlock_append_error hblock]
        simp only [hblock]
      · rw [TransactionProcessor.readBlock_append_ok hblock]
        simp only [hblock]
        exact hrest tp'

/-- Up to block 99999 the files are read in the order of the chain: `read_state` gets
    through when the transactions are all accepted in this order, and then leaves what
    executing them leaves. -/
theorem Recorded.readState (hpf : pf.Lawful) {hashes : List BlockHash} (h : Recorded pf k hashes)
    (hfew : k.blockStorageState.blockHeight ≤ 99999) (tp : TransactionProcessor) :
    ((tp.readState pf k).2 = .ok () ↔ tp.AllAccepted (k.chainTransactions pf)) ∧
      ((tp.readState pf k).2 = .ok () →
        (tp.readState pf k).1 = (tp.processEach (k.chainTransactions pf)).1) := by
  have hread : tp.readState pf k = tp.readBlock (k.chainTransactions pf) := by
    have hholds := h.disk.holdsBlocks
    rw [← h.disk.height] at hholds
    rw [TransactionProcessor.readState, hholds.listAllBlocks_iff.mpr hfew]
    refine readBlocks_names ?_ tp
    intro i hi
    have hlt : i < hashes.length := by
      rw [← h.disk.height]
      exact List.mem_range.mp hi
    obtain ⟨b, hread, -⟩ := h.disk.read hpf hlt
    exact ⟨b, hread⟩
  have hok := tp.readBlock_ok_iff (k.chainTransactions pf)
  rw [hread]
  refine ⟨hok, fun hdone => ?_⟩
  rw [TransactionProcessor.readBlock_fst (hok.mp hdone), TransactionProcessor.processEach_fst]

/-- A committed block is the last one of the chain. -/
theorem chainOnDisk_commits (hpf : pf.Lawful) {blockHash : BlockHash} {block : BlockFile}
    (hreadable : ∀ filename, k.dir.readError filename = none)
    (hcommits : Commits pf k k' blockHash block) :
    k'.chainOnDisk pf = k.chainOnDisk pf ++ [block] := by
  have hcontinues : Continues k k' := by
    refine ⟨by rw [hcommits.height]; exact Nat.le_succ _, ?_, hcommits.readError⟩
    intro i hi
    rw [hcommits.files]
    apply AList.lookup_insert_ne
    intro hname
    have := BlockFile.blockFilenameForIndex_injective hname
    omega
  rw [chainOnDisk, hcommits.height, List.range_succ, List.filterMap_append]
  congr 1
  · apply List.filterMap_congr
    intro i hi
    exact hcontinues.read pf (List.mem_range.mp hi)
  · simp only [List.filterMap_cons, hcommits.read_new hpf hreadable, Except.toOption,
      List.filterMap_nil]

end BlockKeeper

-- ============================================================================
-- Over a run
-- ============================================================================

namespace Peer

/-- The peer was started on a new directory, and has executed nothing. -/
def StartsNew (pf : Platform) (p : Peer) : Prop :=
  (∃ path mempoolSize walk, p.effects.blockKeeper = .new pf (.empty path) mempoolSize walk) ∧
    p.effects.transactionProcessor = .default

theorem votingPeer_startsNew (knownPeers : List PeerId) :
    (Reference.votingPeer knownPeers).StartsNew Reference.platform :=
  ⟨⟨_, _, _, rfl⟩, rfl⟩

variable {pf : Platform} {p : Peer}

theorem StartsNew.recorded (h : p.StartsNew pf) :
    ∃ hashes, BlockKeeper.Recorded pf p.effects.blockKeeper hashes := by
  obtain ⟨⟨path, mempoolSize, walk, hnew⟩, -⟩ := h
  rw [hnew]
  exact ⟨[], new_onDisk pf path mempoolSize walk, rfl, new_accounted pf _ mempoolSize walk⟩

/-- The files are always those of the blocks committed so far. -/
theorem run_recorded (h : ∃ hashes, BlockKeeper.Recorded pf p.effects.blockKeeper hashes)
    (events : List Event) :
    ∃ hashes, BlockKeeper.Recorded pf (p.run pf events).effects.blockKeeper hashes :=
  run_operates (I := fun k => ∃ hashes, BlockKeeper.Recorded pf k hashes)
    (fun _ operation ⟨_, hrecorded⟩ => hrecorded.operate operation) h events

/-- The peer is at synchronizing: blocks are fetched that apply cleanly, and the peers it
    knows may change. -/
def Synchronizes (pf : Platform) (p : Peer) : Event → Prop
  | .synchronized block => AppliesCleanly pf p block
  | .discovered _ => True
  | .message .. | .tick _ => False

/-- The ledger is what the chain on disk leaves. -/
structure Mirrors (pf : Platform) (p : Peer) : Prop where
  recorded : ∃ hashes, BlockKeeper.Recorded pf p.effects.blockKeeper hashes
  ledger : p.effects.transactionProcessor =
    (p.effects.blockKeeper.chainTransactions pf).foldl (fun tp tx => (tp.processTransaction tx).1)
      .default

/-- A block that is refused leaves the peer as it was. -/
theorem applySynchronizedBlock_refused (pf : Platform) {block : BlockFile}
    (hrefused : p.effects.blockKeeper.blockCanBeAdded block = false) :
    (p.applySynchronizedBlock pf block).1 = p := by
  unfold applySynchronizedBlock PeerEffects.applySynchronizedBlock
  rw [if_pos (by simp [hrefused])]

/-- A block that applies cleanly. -/
theorem Mirrors.applySynchronizedBlock (hpf : pf.Lawful) (h : p.Mirrors pf) {block : BlockFile}
    (hclean : AppliesCleanly pf p block) :
    (p.applySynchronizedBlock pf block).1.effects.transactionProcessor =
      ((p.applySynchronizedBlock pf block).1.effects.blockKeeper.chainTransactions pf).foldl
        (fun tp tx => (tp.processTransaction tx).1) .default := by
  cases hadd : p.effects.blockKeeper.blockCanBeAdded block with
  | false =>
      rw [applySynchronizedBlock_refused pf hadd]
      exact h.ledger
  | true =>
      rcases hclean with hrefused | ⟨⟨e, hwrong⟩, hidle⟩ | ⟨hverify, hwrite⟩
      · rw [hadd] at hrefused
        cases hrefused
      · -- The hash is wrong, and the transactions change nothing.
        rcases applySynchronizedBlock_cases pf p hadd with
          ⟨-, -, heq⟩ | ⟨hverify, -⟩ | ⟨hverify, -⟩
        · rw [heq]
          exact (TransactionProcessor.foldl_processTransaction_of_idle hidle).trans h.ledger
        · rw [hwrong] at hverify
          cases hverify
        · rw [hwrong] at hverify
          cases hverify
      · obtain ⟨k, k', hstages, hcommits, heq⟩ :=
          applySynchronizedBlock_commits hadd hverify hwrite
        obtain ⟨hashes, hrecorded⟩ := h.recorded
        have hreadable : ∀ filename, k.dir.readError filename = none := by
          rw [hstages.dir]
          exact hrecorded.disk.readable
        have hchain : k'.chainTransactions pf =
            p.effects.blockKeeper.chainTransactions pf ++ block.transactions := by
          have hsame : k.chainOnDisk pf = p.effects.blockKeeper.chainOnDisk pf := by
            rw [chainOnDisk, chainOnDisk, hstages.dir, hstages.state]
          rw [chainTransactions, chainOnDisk_commits hpf hreadable hcommits, hsame,
            List.flatMap_append, List.flatMap_singleton]
          rfl
        rw [heq]
        simp only [hchain, List.foldl_append, ← h.ledger]
        rfl

theorem Mirrors.run (hpf : pf.Lawful) (h : p.Mirrors pf) {events : List Event}
    (hevents : Throughout pf (Synchronizes pf) p events) : (p.run pf events).Mirrors pf := by
  induction events generalizing p with
  | nil => exact h
  | cons event events ih =>
      obtain ⟨hevent, hrest⟩ := hevents
      refine ih ⟨run_recorded h.recorded [event], ?_⟩ hrest
      cases event with
      | message message now draw => cases hevent
      | tick now => cases hevent
      | discovered knownPeers => exact h.ledger
      | synchronized block => exact h.applySynchronizedBlock hpf hevent

end Peer

end Rustchain
