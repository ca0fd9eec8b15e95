/-
  Rustchain.Peer.Packing

  From client transactions to a block: what `stage_client_transaction` packs, and
  when replaying the block gives the accounts of the peer that packed it.

  The packing peer executes the transactions as they arrive; the block holds them
  in the order of their ids, which are signatures, so the two orders have nothing
  to do with each other.
-/

import Rustchain.Ledger.Replay
import Rustchain.Peer.Effects
import Rustchain.Reference

namespace Rustchain

namespace BlockKeeper

/-- `add_transaction` with a new id: the mempool grows by one, or all of it goes
    into a block on the committed tip. -/
theorem addTransaction_cases (pf : Platform) {k : BlockKeeper} {tx : SignedTransaction}
    (hnew : tx.txId ∉ k.mempool) :
    ((k.addTransaction pf tx).2 = .addedToMempool ∧
        (k.addTransaction pf tx).1.mempool.values = tx :: k.mempool.values ∧
        ∀ id, id ∈ (k.addTransaction pf tx).1.mempool ↔ id = tx.txId ∨ id ∈ k.mempool) ∨
      ∃ block, (k.addTransaction pf tx).2 = .newBlockCreated block.hash ∧
        (k.addTransaction pf tx).1.getUncommitedBlock block.hash = some block ∧
        block.transactions = (tx :: k.mempool.values).insertionSort fun a b => a.txId ≤ b.txId := by
  have hvalues : HashMap.values (k.mempool.insert tx.txId tx) = tx :: k.mempool.values := by
    rw [HashMap.values, AList.entries_insert_of_notMem hnew]
    rfl
  simp only [addTransaction]
  split
  · refine Or.inr ⟨_, rfl, AList.lookup_insert _, ?_⟩
    rw [← hvalues]
    rfl
  · exact Or.inl ⟨rfl, hvalues, fun id => AList.mem_insert _⟩

end BlockKeeper

namespace PeerEffects

/-- Applying a block to a ledger is processing its transactions in block order. -/
theorem applyBlockTransactions_processor (effects : PeerEffects) (block : BlockFile) :
    (effects.applyBlockTransactions block).transactionProcessor =
      (effects.transactionProcessor.processEach block.transactions).1 :=
  (TransactionProcessor.processEach_fst _ _).symm

/-- Stages client transactions one by one, until the last of them completes a
    block. -/
def packBlock (pf : Platform) :
    PeerEffects → List SignedTransaction → Option (PeerEffects × BlockHash)
  | _, [] => none
  | effects, tx :: txs =>
    match effects.stageClientTransaction pf tx with
    | (effects, .ok .addedToMempool) => packBlock pf effects txs
    | (effects, .ok (.newBlockCreated blockHash)) =>
      if txs.isEmpty then some (effects, blockHash) else none
    | (_, .error _) => none

/-- A staged client transaction was accepted by the ledger and went to the
    mempool. -/
theorem stageClientTransaction_ok {pf : Platform} {effects effects' : PeerEffects}
    {tx : SignedTransaction} {status : BlockStatus}
    (h : effects.stageClientTransaction pf tx = (effects', .ok status)) :
    tx.verify pf = .ok () ∧
      (effects.transactionProcessor.processTransaction tx).2 = .ok () ∧
      status = (effects.blockKeeper.addTransaction pf tx).2 ∧
      effects' = { effects with
        transactionProcessor := (effects.transactionProcessor.processTransaction tx).1
        blockKeeper := (effects.blockKeeper.addTransaction pf tx).1
        processed := effects.processed ++ [tx] } := by
  unfold stageClientTransaction at h
  split at h
  · cases h
  · rename_i hverify
    split at h
    · cases h
    · rename_i tp hprocess
      cases h
      rw [hprocess]
      exact ⟨hverify, rfl, rfl, rfl⟩

/-- What packing a block amounts to: every transaction was accepted in the order
    of arrival, and the block holds those of the mempool and the new ones. -/
theorem packBlock_some {pf : Platform} {txs : List SignedTransaction} {blockHash : BlockHash} :
    ∀ {effects effects' : PeerEffects}, effects.packBlock pf txs = some (effects', blockHash) →
      (txs.map SignedTransaction.txId).Nodup →
      (∀ tx ∈ txs, tx.txId ∉ effects.blockKeeper.mempool) →
      effects.transactionProcessor.AllAccepted txs ∧
        effects'.transactionProcessor = (effects.transactionProcessor.processEach txs).1 ∧
        ∃ block, effects'.blockKeeper.getUncommitedBlock blockHash = some block ∧
          (txs ++ effects.blockKeeper.mempool.values).Perm block.transactions := by
  induction txs with
  | nil =>
      intro effects effects' h _ _
      cases h
  | cons tx txs ih =>
      intro effects effects' h hnodup hnew
      rw [List.map_cons, List.nodup_cons] at hnodup
      have hcases := BlockKeeper.addTransaction_cases pf (hnew tx List.mem_cons_self)
      rw [TransactionProcessor.allAccepted_cons]
      rw [packBlock] at h
      split at h
      · rename_i next hstage
        obtain ⟨-, hok, hstatus, rfl⟩ := stageClientTransaction_ok hstage
        rcases hcases with ⟨-, hvalues, hmem⟩ | ⟨block, hcreated, -⟩
        · obtain ⟨hall, htp, block, hblock, hperm⟩ := ih h hnodup.2 (by
            intro other hother
            rw [hmem, not_or]
            refine ⟨fun heq => hnodup.1 ?_, hnew other (List.mem_cons_of_mem tx hother)⟩
            exact heq ▸ List.mem_map_of_mem hother)
          refine ⟨⟨hok, hall⟩, htp, block, hblock, ?_⟩
          rw [hvalues] at hperm
          exact List.perm_middle.symm.trans hperm
        · rw [hcreated] at hstatus
          cases hstatus
      · rename_i next created hstage
        obtain ⟨-, hok, hstatus, rfl⟩ := stageClientTransaction_ok hstage
        rcases hcases with ⟨hadded, -⟩ | ⟨block, hcreated, hblock, htxs⟩
        · rw [hadded] at hstatus
          cases hstatus
        · rw [hcreated] at hstatus
          cases hstatus
          split at h
          · rename_i hlast
            rw [List.isEmpty_iff] at hlast
            subst hlast
            cases h
            refine ⟨⟨hok, fun result hmem => absurd hmem List.not_mem_nil⟩, rfl, block, hblock, ?_⟩
            rw [htxs]
            exact (List.perm_insertionSort _ _).symm
          · cases h
      · cases h

/-- A peer with an empty mempool packs new transactions into a block.  Processing
    the block in its own order, from the ledger the peer started with, is accepted
    throughout and gives the peer's balances if and only if every `Send` of the
    block finds its coins in what comes before it in the block. -/
theorem packed_block_replays_iff {pf : Platform} {effects effects' : PeerEffects}
    {txs : List SignedTransaction} {blockHash : BlockHash} {block : BlockFile}
    (hmempool : effects.blockKeeper.mempool = ∅)
    (hfresh : effects.transactionProcessor.Fresh txs)
    (hpack : effects.packBlock pf txs = some (effects', blockHash))
    (hblock : effects'.blockKeeper.getUncommitedBlock blockHash = some block) :
    (effects.transactionProcessor.AllAccepted block.transactions ∧
        ∀ id, ((effects.transactionProcessor.processEach block.transactions).1.getAccount id).map
            Account.balance =
          (effects'.transactionProcessor.getAccount id).map Account.balance) ↔
      effects.transactionProcessor.FundedInOrder block.transactions := by
  obtain ⟨hall, htp, block', hblock', hperm⟩ := packBlock_some hpack hfresh.1 (by
    intro tx _
    rw [hmempool]
    exact AList.notMem_empty _)
  rw [hblock] at hblock'
  cases hblock'
  have hvalues : effects.blockKeeper.mempool.values = [] := by
    rw [hmempool]
    rfl
  rw [hvalues, List.append_nil] at hperm
  obtain ⟨hiff, hsame⟩ := TransactionProcessor.allAccepted_perm_iff hfresh hall hperm
  rw [← hiff]
  refine ⟨fun h => h.1, fun h => ⟨h, ?_⟩⟩
  intro id
  rw [hsame h id, htp]

-- ============================================================================
-- A block that replays and one that does not
-- ============================================================================

end PeerEffects

namespace Reference

/-- The services of a new peer that packs blocks of the given size. -/
def newEffects (mempoolSize : Nat) : PeerEffects :=
  .new platform 1 { knownPeers := [], calls := [] }
    (.new platform (.empty "data/peer_1") mempoolSize (.listed _ _)) [9]

/-- Client `02` adds coins and sends some of them to client `01`. -/
def paidInOrder : List SignedTransaction :=
  [clientTx [2] (.addCoin 10 .btc), clientTx [2] (.send "01" 5 .btc)]

/-- Client `01` then passes some of them on; its transaction has the least id. -/
def paidOutOfOrder : List SignedTransaction :=
  paidInOrder ++ [clientTx [1] (.send "03" 3 .btc)]

end Reference

namespace PeerEffects

/-- Coins added and spent by one client: the block replays. -/
theorem packed_block_replays_pair :
    ∃ effects' blockHash block,
      (Reference.newEffects 2).packBlock Reference.platform Reference.paidInOrder =
          some (effects', blockHash) ∧
        effects'.blockKeeper.getUncommitedBlock blockHash = some block ∧
        (Reference.newEffects 2).transactionProcessor.AllAccepted block.transactions ∧
        ∀ id, (((Reference.newEffects 2).transactionProcessor.processEach
              block.transactions).1.getAccount id).map Account.balance =
            (effects'.transactionProcessor.getAccount id).map Account.balance := by
  have hrun : ((Reference.newEffects 2).packBlock Reference.platform Reference.paidInOrder).any
      (fun packed =>
        (packed.1.blockKeeper.getUncommitedBlock packed.2).any fun block =>
          (Reference.newEffects 2).transactionProcessor.FundedInOrder block.transactions) =
        true := by decide +kernel
  obtain ⟨packed, hpack, hrun⟩ := (Option.any_eq_true _ _).mp hrun
  obtain ⟨block, hblock, hfunded⟩ := (Option.any_eq_true _ _).mp hrun
  exact ⟨packed.1, packed.2, block, hpack, hblock,
    (packed_block_replays_iff rfl ⟨by decide +kernel, by decide +kernel⟩ hpack hblock).mpr
      (of_decide_eq_true hfunded)⟩

/-- Coins passed on by a client whose transaction has the least id: all three are
    accepted on arrival, and the block's first transaction is refused when the
    block is replayed. -/
theorem packed_block_refused :
    ∃ effects' blockHash block,
      (Reference.newEffects 3).blockKeeper.mempool = ∅ ∧
        (Reference.newEffects 3).transactionProcessor.Fresh Reference.paidOutOfOrder ∧
        (Reference.newEffects 3).packBlock Reference.platform Reference.paidOutOfOrder =
          some (effects', blockHash) ∧
        effects'.blockKeeper.getUncommitedBlock blockHash = some block ∧
        ¬ (Reference.newEffects 3).transactionProcessor.AllAccepted block.transactions := by
  have hrun : ((Reference.newEffects 3).packBlock Reference.platform
      Reference.paidOutOfOrder).any (fun packed =>
        (packed.1.blockKeeper.getUncommitedBlock packed.2).any fun block =>
          ((Reference.newEffects 3).transactionProcessor.processEach block.transactions).2 =
            [.error (.accountNotFound "01"), .ok (), .ok ()]) = true := by decide +kernel
  obtain ⟨packed, hpack, hrun⟩ := (Option.any_eq_true _ _).mp hrun
  obtain ⟨block, hblock, hresults⟩ := (Option.any_eq_true _ _).mp hrun
  refine ⟨packed.1, packed.2, block, rfl, ⟨by decide +kernel, by decide +kernel⟩, hpack, hblock, ?_⟩
  intro hall
  have hfirst := hall (.error (.accountNotFound "01")) (by
    rw [of_decide_eq_true hresults]
    exact List.mem_cons_self)
  cases hfirst

end PeerEffects
end Rustchain
