/-
  Rustchain.Peer.Transactions

  Which transactions a peer executes and commits over a whole run.

  A client transaction is verified before it is staged; a block from outside is
  checked for its hash and its sender's signature, not for its transactions.  So
  only signed transactions reach the ledger and the chain as long as the blocks
  that are added hold no others.  And nothing keeps out a transaction that is in
  the chain already: `process_transaction` accepts it, as it does on replay, and
  it goes to the mempool again.
-/

import Rustchain.Peer.Approval
import Rustchain.Peer.Services
import Rustchain.Storage.Transactions

namespace Rustchain

namespace Peer

/-- A peer as it comes out of `run_peer`, in either mode, over any directory. -/
def Started (pf : Platform) (p : Peer) : Prop :=
  ∃ id network dir mempoolSize walk signingKey,
    p = .startVoting pf id network dir mempoolSize walk signingKey ∨
      ∃ store now draw,
        startRaft pf id network dir store mempoolSize walk signingKey now draw = .ok p

/-- The services of a started peer are new. -/
theorem Started.effects {pf : Platform} {p : Peer} (h : p.Started pf) :
    ∃ id network dir mempoolSize walk signingKey,
      p.effects = .new pf id network (.new pf dir mempoolSize walk) signingKey := by
  obtain ⟨id, network, dir, mempoolSize, walk, signingKey, rfl | ⟨store, now, draw, hstart⟩⟩ := h
  · exact ⟨id, network, dir, mempoolSize, walk, signingKey, rfl⟩
  · refine ⟨id, network, dir, mempoolSize, walk, signingKey, ?_⟩
    unfold startRaft at hstart
    dsimp only at hstart
    split at hstart
    · cases hstart
    · cases hstart
      rfl

end Peer

-- ============================================================================
-- Only signed transactions
-- ============================================================================

/-- Every transaction of the block is signed. -/
def BlockFile.Signed (pf : Platform) (block : BlockFile) : Prop :=
  ∀ tx ∈ block.transactions, tx.verify pf = .ok ()

namespace PeerEffects

/-- Every transaction that was executed or is in the block store is signed. -/
structure SignedThroughout (pf : Platform) (effects : PeerEffects) : Prop where
  processed : ∀ tx ∈ effects.processed, tx.verify pf = .ok ()
  store : effects.blockKeeper.HoldsOnly pf fun tx => tx.verify pf = .ok ()

variable {pf : Platform} {effects effects' : PeerEffects}

theorem SignedThroughout.stageClientTransaction (h : effects.SignedThroughout pf)
    (clientTx : SignedTransaction) :
    (effects.stageClientTransaction pf clientTx).1.SignedThroughout pf := by
  unfold PeerEffects.stageClientTransaction
  split
  · exact h
  rename_i hverify
  have hprocessed : ∀ tx ∈ effects.processed ++ [clientTx], tx.verify pf = .ok () := by
    intro tx hmem
    rcases List.mem_append.mp hmem with hmem | hmem
    · exact h.processed tx hmem
    · rw [List.mem_singleton.mp hmem]
      exact hverify
  dsimp only
  split
  · exact ⟨hprocessed, h.store⟩
  · exact ⟨hprocessed, h.store.addTransaction hverify⟩

/-- Every change keeps to signed transactions, if the blocks added do. -/
theorem SignedThroughout.change (hdecode : ∀ b, pf.decodeBlock (pf.encodeBlock b) = .ok b)
    (hchange : Change pf (fun _ _ => True) (fun _ => BlockFile.Signed pf) effects effects')
    (h : effects.SignedThroughout pf) : effects'.SignedThroughout pf := by
  cases hchange with
  | talk network lastCompletedBlock => exact ⟨h.processed, h.store⟩
  | stageClientTransaction _ => exact h.stageClientTransaction _
  | addExternalBlock hadd hsigned =>
      refine ⟨?_, h.store.addExternalBlock hsigned⟩
      intro tx hmem
      rcases List.mem_append.mp hmem with hmem | hmem
      · exact h.processed tx hmem
      · exact hsigned tx hmem
  | commitBlock blockHash => exact ⟨h.processed, h.store.commitBlock hdecode blockHash⟩
  | rollbackBlock blockHash transactionProcessor =>
      exact ⟨h.processed, h.store.rollbackBlock blockHash⟩

end PeerEffects

namespace Peer

/-- Every transaction handed to `process_transaction` and every transaction in a
    committed block file is signed. -/
structure OnlySigned (pf : Platform) (p : Peer) : Prop where
  executed : ∀ tx ∈ p.effects.processed, tx.verify pf = .ok ()
  committed : ∀ index block, p.effects.blockKeeper.CommittedAt pf index block → block.Signed pf

/-- Over any run, only signed transactions reach the ledger and the chain, as long as
    every block that is added holds signed transactions only. -/
theorem only_signed_transactions {pf : Platform}
    (hdecode : ∀ b, pf.decodeBlock (pf.encodeBlock b) = .ok b) {p : Peer} (hstart : p.Started pf)
    (hfiles : ∀ index block, p.effects.blockKeeper.CommittedAt pf index block → block.Signed pf)
    (events : List Event)
    (h : Throughout pf (Admits pf (fun _ _ => True) fun _ => BlockFile.Signed pf) p events) :
    (p.run pf events).OnlySigned pf := by
  have hinit : p.effects.SignedThroughout pf := by
    obtain ⟨id, network, dir, mempoolSize, walk, signingKey, heq⟩ := hstart.effects
    rw [heq] at hfiles ⊢
    exact ⟨fun tx hmem => absurd hmem List.not_mem_nil, .new hfiles⟩
  have hrun := (run_changes pf (fun _ _ => True) (fun _ => BlockFile.Signed pf) p events h).preserves
    (fun _ _ hchange => PeerEffects.SignedThroughout.change hdecode hchange) hinit
  exact ⟨hrun.processed, hrun.store.committed⟩

end Peer

namespace Reference

/-- Peer 2's proposal of a block. -/
def proposalOf (block : BlockFile) : Peer.Event :=
  .message
    { «from» := 2
      «to» := 1
      body := .blockProposal block.hash (platform.encodeBlock block)
        (platform.sign [2] (platform.encodeBlock block)) [2] } 0 0

/-- A transaction in the name of the client with key 7, who has signed nothing. -/
def forged : SignedTransaction :=
  { transaction :=
      { operation := .addCoin 10 .btc, metadata := { timestampNanos := 0, sequenceNumber := 0 } }
    signature := []
    publicKey := [7] }

/-- A peer that was proposed the block of a signed deposit. -/
def creditedPeer : Peer := (votingPeer [2]).run platform [proposalOf (firstBlock deposit)]

/-- A peer that was proposed the block of the forged one. -/
def deceivedPeer : Peer := (votingPeer [2]).run platform [proposalOf (firstBlock forged)]

theorem votingPeer_started (knownPeers : List PeerId) :
    (votingPeer knownPeers).Started platform :=
  ⟨1, { knownPeers, calls := [] }, .empty "data/peer_1", 1, .listed _ _, [1], Or.inl rfl⟩

/-- A new peer over an empty directory has committed nothing. -/
theorem votingPeer_no_files (knownPeers : List PeerId) (index : Nat) (block : BlockFile) :
    ¬ (votingPeer knownPeers).effects.blockKeeper.CommittedAt platform index block := by
  rintro ⟨hpos, hle, -⟩
  have hheight : (votingPeer knownPeers).effects.blockKeeper.blockStorageState.blockHeight = 0 := rfl
  omega

end Reference

namespace Peer

/-- A peer that commits the proposed block of a signed deposit. -/
theorem only_signed_proposal :
    Reference.creditedPeer.effects.blockKeeper.CommittedAt Reference.platform 1
        (Reference.firstBlock Reference.deposit) ∧
      Reference.creditedPeer.OnlySigned Reference.platform := by
  refine ⟨by decide +kernel, only_signed_transactions Reference.platform_lawful.decode_encodeBlock
    (Reference.votingPeer_started [2])
    (fun index block hat => absurd hat (Reference.votingPeer_no_files [2] index block)) _
    ⟨?_, trivial⟩⟩
  intro _ block hverify _
  have hdecode := BlockFile.decodeBlock_of_verifyBlockVec hverify
  rw [Reference.platform_lawful.decode_encodeBlock] at hdecode
  cases hdecode
  show ∀ tx ∈ (Reference.firstBlock Reference.deposit).transactions,
    tx.verify Reference.platform = .ok ()
  decide +kernel

/-- A block with a forged deposit is executed and committed: the account is credited. -/
theorem forged_transaction_committed :
    (Reference.votingPeer [2]).Started Reference.platform ∧
      (∀ index block, ¬ (Reference.votingPeer [2]).effects.blockKeeper.CommittedAt
        Reference.platform index block) ∧
      Reference.forged.verify Reference.platform ≠ .ok () ∧
      Reference.deceivedPeer.effects.transactionProcessor.getAccount (hexEncode [7]) =
        some { assetType := .btc, balance := 10 } ∧
      Reference.deceivedPeer.effects.blockKeeper.CommittedAt Reference.platform 1
        (Reference.firstBlock Reference.forged) ∧
      ¬ Reference.deceivedPeer.OnlySigned Reference.platform := by
  have hforged : Reference.forged.verify Reference.platform ≠ .ok () := by decide +kernel
  have hcommitted : Reference.deceivedPeer.effects.blockKeeper.CommittedAt Reference.platform 1
      (Reference.firstBlock Reference.forged) := by
    decide +kernel
  refine ⟨Reference.votingPeer_started [2], Reference.votingPeer_no_files [2], hforged,
    by decide +kernel, hcommitted, fun h => hforged ?_⟩
  exact h.committed 1 _ hcommitted _ (List.mem_singleton_self _)

end Peer

-- ============================================================================
-- Every transaction once
-- ============================================================================

namespace PeerEffects

variable {pf : Platform} {effects effects' : PeerEffects}

/-- Every change commits every transaction once, if what comes in is fresh. -/
theorem Change.once (hdecode : ∀ b, pf.decodeBlock (pf.encodeBlock b) = .ok b)
    (hchange : Change pf (fun k tx => k.Fresh pf tx.txId)
      (fun k block => block.txIds.Nodup ∧ ∀ id ∈ block.txIds, k.Fresh pf id) effects effects')
    (h : effects.blockKeeper.Once pf) : effects'.blockKeeper.Once pf := by
  cases hchange with
  | talk network lastCompletedBlock => exact h
  | stageClientTransaction hfresh =>
      unfold PeerEffects.stageClientTransaction
      split
      · exact h
      dsimp only
      split
      · exact h
      · exact h.addTransaction hfresh
  | addExternalBlock hadd hfresh => exact h.addExternalBlock hfresh.1 hfresh.2
  | commitBlock blockHash => exact h.commitBlock hdecode blockHash
  | rollbackBlock blockHash transactionProcessor => exact h.rollbackBlock blockHash

end PeerEffects

namespace Peer

/-- Over any run, no transaction is committed twice, as long as what comes in is in no
    staged or committed block: the transactions that are staged, and those of the
    blocks that are added, which are distinct. -/
theorem committed_once {pf : Platform}
    (hdecode : ∀ b, pf.decodeBlock (pf.encodeBlock b) = .ok b) {p : Peer} (hstart : p.Started pf)
    (hfiles : p.effects.blockKeeper.CommittedOnce pf) (events : List Event)
    (h : Throughout pf (Admits pf (fun k tx => k.Fresh pf tx.txId)
      fun k block => block.txIds.Nodup ∧ ∀ id ∈ block.txIds, k.Fresh pf id) p events) :
    (p.run pf events).effects.blockKeeper.CommittedOnce pf := by
  have hinit : p.effects.blockKeeper.Once pf := by
    obtain ⟨id, network, dir, mempoolSize, walk, signingKey, heq⟩ := hstart.effects
    rw [heq] at hfiles ⊢
    exact .new hfiles
  have hrun := (run_changes pf _ _ p events h).preserves
    (I := fun effects => effects.blockKeeper.Once pf)
    (fun _ _ hchange => PeerEffects.Change.once hdecode hchange) hinit
  exact hrun.committed

end Peer

namespace Reference

/-- A client hands the transaction to peer 1. -/
def submission (tx : SignedTransaction) : Peer.Event :=
  .message { «from» := 0, «to» := 1, body := .clientTransaction tx } 0 0

/-- A lone peer that was handed two transactions. -/
def submitted (tx tx' : SignedTransaction) : Peer :=
  (votingPeer []).run platform [submission tx, submission tx']

end Reference

namespace Peer

/-- A lone peer commits two different transactions. -/
theorem committed_once_deposits :
    let p := Reference.submitted Reference.deposit Reference.otherDeposit
    p.effects.blockKeeper.blockStorageState.blockHeight = 2 ∧
      p.effects.blockKeeper.CommittedOnce Reference.platform := by
  have hnone := Reference.votingPeer_no_files []
  refine ⟨by decide +kernel, committed_once Reference.platform_lawful.decode_encodeBlock
    (Reference.votingPeer_started [])
    ⟨fun index b hat => absurd hat (hnone index b),
      fun i j b b' hat => absurd hat (hnone i b)⟩ _ ⟨?_, ?_, trivial⟩⟩
  · intro _ _ _
    exact ⟨fun h b hlookup => (by cases hlookup), fun index b hat => absurd hat (hnone index b)⟩
  · intro _ _ _
    -- The store holds the block of the first deposit, and nothing is staged.
    generalize hk : ((Reference.votingPeer []).handle Reference.platform
      (Reference.submission Reference.deposit)).effects.blockKeeper = k
    have hempty : k.uncommitedBlocks.entries = [] := by
      rw [← hk]
      decide +kernel
    have hheight : k.blockStorageState.blockHeight = 1 := by
      rw [← hk]
      decide +kernel
    have hfirst : k.CommittedAt Reference.platform 1 (Reference.firstBlock Reference.deposit) := by
      rw [← hk]
      decide +kernel
    refine ⟨?_, ?_⟩
    · intro h b hlookup
      have hmem : (⟨h, b⟩ : Σ _ : BlockHash, BlockFile) ∈ k.uncommitedBlocks.entries :=
        List.of_mem_dlookup (Option.mem_def.mpr hlookup)
      rw [hempty] at hmem
      cases hmem
    · intro index b hat
      obtain ⟨hpos, hle, hfile⟩ := hat
      have hindex : index = 1 := by omega
      subst hindex
      rw [BlockKeeper.CommittedAt.unique Reference.platform_lawful.decode_encodeBlock
        ⟨hpos, hle, hfile⟩ hfirst]
      decide +kernel

/-- A client that sends its transaction twice has it in two blocks. -/
theorem resent_transaction_committed_twice :
    (Reference.votingPeer []).Started Reference.platform ∧
      (∀ index block, ¬ (Reference.votingPeer []).effects.blockKeeper.CommittedAt
        Reference.platform index block) ∧
      Reference.deposit.verify Reference.platform = .ok () ∧
      ¬ (Reference.submitted Reference.deposit
        Reference.deposit).effects.blockKeeper.CommittedOnce Reference.platform := by
  refine ⟨Reference.votingPeer_started [], Reference.votingPeer_no_files [], by decide +kernel, ?_⟩
  have hfirst : (Reference.submitted Reference.deposit
      Reference.deposit).effects.blockKeeper.CommittedAt Reference.platform 1
        (Reference.firstBlock Reference.deposit) := by
    decide +kernel
  have hsecond : (Reference.submitted Reference.deposit
      Reference.deposit).effects.blockKeeper.CommittedAt Reference.platform 2
        (.create Reference.platform [Reference.deposit]
          (Reference.firstBlock Reference.deposit).hash 2) := by
    decide +kernel
  intro h
  exact h.disjoint 1 2 _ _ hfirst hsecond (by decide) (List.mem_singleton_self _)
    (List.mem_singleton_self _)

end Peer
end Rustchain
