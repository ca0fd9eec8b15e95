/-
  Rustchain.Peer.Unwinding

  Rolling back a block that the peer packed itself.

  The ledger applied the transactions as they arrived; `rollback_transactions`
  undoes them in the reverse of block order, which is the order of their ids.
  The balances come back if and only if each transaction's coins are still in the
  account it credited when its turn comes, and that can be read off the balances
  before the first transaction: no prefix of the block may overdraw the account
  that its last transaction credits.
-/

import Rustchain.Ledger.Conservation
import Rustchain.Peer.Packing
import Rustchain.Storage.ArrivalOrder

namespace Rustchain
namespace TransactionProcessor

-- ============================================================================
-- Undoing in another order
-- ============================================================================

/-- The transactions in the order of their ids: the order of a block. -/
def inIdOrder (txs : List SignedTransaction) : List SignedTransaction :=
  txs.insertionSort fun a b => a.txId ≤ b.txId

/-- What the transactions add to the balance of an account. -/
def netOf (txs : List SignedTransaction) (id : String) : ℤ :=
  Move.netAll (txs.map SignedTransaction.move) id

/-- Each transaction of the list finds its amount in the account it credits, in
    the balances that the list up to and with that transaction makes. -/
def CoveredInOrder (tp : TransactionProcessor) (txs : List SignedTransaction) : Prop :=
  ∀ before tx after, txs = before ++ tx :: after →
    (tx.amount.toNat : ℤ) ≤ tp.balanceOf tx.credited + netOf (before ++ [tx]) tx.credited

/-- The transactions of the list that the ledger has applied. -/
def appliedAmong (tp : TransactionProcessor) (txs : List SignedTransaction) :
    List SignedTransaction :=
  txs.filter fun tx => tx.txId ∈ tp.appliedTransactions

/-- A sequence applies its own transactions and no others. -/
theorem mem_appliedTransactions_processEach {tp : TransactionProcessor}
    {txs : List SignedTransaction} {id : String}
    (h : id ∈ (tp.processEach txs).1.appliedTransactions) :
    id ∈ tp.appliedTransactions ∨ id ∈ txs.map SignedTransaction.txId := by
  induction txs generalizing tp with
  | nil => exact Or.inl h
  | cons tx txs ih =>
      rw [List.map_cons, List.mem_cons]
      have hlater : id ∈ ((tp.processTransaction tx).1.processEach txs).1.appliedTransactions := h
      rcases ih hlater with hbefore | hrest
      · rcases processTransaction_eq_or tp tx with hnoop | ⟨-, -, happlied⟩
        · rw [hnoop] at hbefore
          exact Or.inl hbefore
        · rw [happlied, Finset.mem_insert] at hbefore
          exact hbefore.elim (fun heq => Or.inr (Or.inl heq)) Or.inl
      · exact Or.inr (Or.inr hrest)

/-- After a sequence of new transactions every applied one has its accounts, and the
    balances are those of the moves of the applied ones. -/
theorem processEach_applied {tp : TransactionProcessor} {txs : List SignedTransaction}
    (hfresh : tp.Fresh txs) (hfits : tp.CreditsFit txs) :
    (∀ tx ∈ txs, tx.txId ∈ (tp.processEach txs).1.appliedTransactions →
        (tp.processEach txs).1.Standing tx) ∧
      ∀ id, ((tp.processEach txs).1.balanceOf id : ℤ) =
        tp.balanceOf id + netOf ((tp.processEach txs).1.appliedAmong txs) id := by
  induction txs generalizing tp with
  | nil =>
      refine ⟨fun tx hmem => absurd hmem List.not_mem_nil, fun id => ?_⟩
      exact (add_zero _).symm
  | cons tx txs ih =>
      have hnew := hfresh.2 tx List.mem_cons_self
      have hprocess : (tp.processEach (tx :: txs)).1 =
          ((tp.processTransaction tx).1.processEach txs).1 := rfl
      rw [hprocess]
      rcases processTransaction_cases hnew with ⟨-, e, heq⟩ | ⟨haccepts, -, happlied, -⟩
      · -- A refused transaction changes nothing, and nothing later has its id.
        have hrest : tp.Fresh txs :=
          ⟨(List.nodup_cons.mp hfresh.1).2,
            fun other hmem => hfresh.2 other (List.mem_cons_of_mem tx hmem)⟩
        have hfits' := hfits.2
        rw [heq] at hfits' ⊢
        have hnot : tx.txId ∉ (tp.processEach txs).1.appliedTransactions := by
          intro hmem
          rcases mem_appliedTransactions_processEach hmem with hbefore | hlater
          · exact hnew hbefore
          · exact (List.nodup_cons.mp hfresh.1).1 hlater
        obtain ⟨hstanding, hbalances⟩ := ih hrest hfits'
        have hsame : (tp.processEach txs).1.appliedAmong (tx :: txs) =
            (tp.processEach txs).1.appliedAmong txs :=
          List.filter_cons_of_neg (by simpa using hnot)
        refine ⟨fun other hmem hother => ?_, fun id => by rw [hsame, hbalances]⟩
        rcases List.mem_cons.mp hmem with rfl | hmem
        · exact absurd hother hnot
        · exact hstanding other hmem hother
      · obtain ⟨hrest, hbalances⟩ := ih (hfresh.tail happlied) hfits.2
        have hmem : tx.txId ∈
            ((tp.processTransaction tx).1.processEach txs).1.appliedTransactions := by
          rw [processEach_fst]
          apply appliedTransactions_subset_foldl
          rw [happlied]
          exact Finset.mem_insert_self _ _
        constructor
        · intro other hother happlied
          rcases List.mem_cons.mp hother with rfl | hother
          · exact (standing_processTransaction hnew haccepts).mono
              fun _ _ => assetTypeOf_processEach txs
          · exact hrest other hother happlied
        · intro id
          have hfirst : ((tp.processTransaction tx).1.balanceOf id : ℤ) =
              tp.balanceOf id + tx.move.net id := by
            rw [balanceOf_processTransaction hnew haccepts (hfits.1 hnew haccepts),
              Move.apply_eq haccepts.funded_move]
          have hcons : ((tp.processTransaction tx).1.processEach txs).1.appliedAmong (tx :: txs) =
              tx :: ((tp.processTransaction tx).1.processEach txs).1.appliedAmong txs :=
            List.filter_cons_of_pos (by simpa using hmem)
          have hnet : ∀ others, netOf (tx :: others) id = tx.move.net id + netOf others id :=
            fun others => Move.netAll_cons _ _ _
          have hlast := hbalances id
          rw [hfirst] at hlast
          rw [hcons, hnet, ← add_assoc]
          exact hlast

/-- What was accepted is all applied. -/
theorem AllAccepted.appliedAmong_eq {tp : TransactionProcessor} {txs txs' : List SignedTransaction}
    (h : tp.AllAccepted txs) (hsub : ∀ tx ∈ txs', tx ∈ txs) :
    (tp.processEach txs).1.appliedAmong txs' = txs' := by
  apply List.filter_eq_self.mpr
  intro tx hmem
  rw [processEach_fst]
  exact decide_eq_true (h.mem_appliedTransactions (hsub tx hmem))

/-- Under different ids, those that are applied are undone. -/
theorem undone_eq_appliedAmong {tp : TransactionProcessor} {txs : List SignedTransaction}
    (hnodup : (txs.map SignedTransaction.txId).Nodup) :
    undone tp.appliedTransactions txs = tp.appliedAmong txs := by
  unfold appliedAmong
  generalize tp.appliedTransactions = applied
  induction txs generalizing applied with
  | nil => rfl
  | cons tx txs ih =>
      rw [List.map_cons, List.nodup_cons] at hnodup
      have hrest : txs.filter (fun other => decide (other.txId ∈ applied.erase tx.txId)) =
          txs.filter fun other => decide (other.txId ∈ applied) := by
        apply List.filter_congr
        intro other hmem
        have hne : other.txId ≠ tx.txId := fun heq => hnodup.1 (heq ▸ List.mem_map_of_mem hmem)
        simp only [Finset.mem_erase, hne, ne_eq, not_false_iff, true_and]
      by_cases hmem : tx.txId ∈ applied
      · rw [undone, if_pos hmem, ih hnodup.2, hrest, List.filter_cons_of_pos (by simpa using hmem)]
      · rw [undone, if_neg hmem, ih hnodup.2, List.filter_cons_of_neg (by simpa using hmem)]

/-- Undoing a list from its end, after all of it was applied: what is covered
    then, in terms of the balances before. -/
theorem coveredAll_reverse_iff {tp current : TransactionProcessor} {txs : List SignedTransaction}
    (hcurrent : ∀ id, (current.balanceOf id : ℤ) = tp.balanceOf id + netOf txs id) :
    Move.CoveredAll (txs.reverse.map SignedTransaction.move)
        (fun id => (current.balanceOf id : ℤ)) ↔
      tp.CoveredInOrder txs := by
  -- A split of the list at a transaction, seen from either end.
  have hsplit : ∀ before tx after, txs = before ++ tx :: after → ∀ id,
      (current.balanceOf id : ℤ) - netOf after.reverse id =
        tp.balanceOf id + netOf (before ++ [tx]) id := by
    rintro before tx after rfl id
    have hreverse : netOf after.reverse id = netOf after id :=
      Move.netAll_perm ((List.reverse_perm after).map _) id
    have hall : netOf (before ++ tx :: after) id = netOf (before ++ [tx]) id + netOf after id := by
      rw [List.append_cons, netOf, List.map_append, Move.netAll_append]
      rfl
    rw [hcurrent, hreverse, hall]
    omega
  constructor
  · intro h before tx after heq
    have hcovered := h (after.reverse.map SignedTransaction.move) tx.move
      (before.reverse.map SignedTransaction.move) (by rw [heq]; simp)
    have hbalance := hsplit before tx after heq tx.credited
    exact hcovered.trans hbalance.le
  · intro h undone m left heq
    obtain ⟨after, rest, hrev, rfl, hrest⟩ := List.map_eq_append_iff.mp heq
    obtain ⟨tx, before, rfl, rfl, rfl⟩ := List.map_eq_cons_iff.mp hrest
    have htxs : txs = before.reverse ++ tx :: after.reverse := by
      rw [← List.reverse_reverse txs, hrev]
      simp
    have hbalance := hsplit _ _ _ htxs tx.credited
    rw [List.reverse_reverse] at hbalance
    exact (h _ _ _ htxs).trans hbalance.ge

/-- Transactions processed in one order and rolled back along another: the balances
    come back if and only if every applied transaction is covered in the second
    order. -/
theorem rollbackTransactions_perm_iff {tp : TransactionProcessor}
    {txs block : List SignedTransaction} (hfresh : tp.Fresh txs) (hperm : txs.Perm block)
    (hcredits : tp.CreditsFit txs)
    (hrefunds : (tp.processEach txs).1.RefundsFit block.reverse) :
    (∀ id, ((tp.processEach txs).1.rollbackTransactions block).balanceOf id = tp.balanceOf id) ↔
      tp.CoveredInOrder ((tp.processEach txs).1.appliedAmong block) := by
  obtain ⟨hstanding, hbalances⟩ := processEach_applied hfresh hcredits
  generalize (tp.processEach txs).1 = current at *
  have hcurrent : ∀ id, (current.balanceOf id : ℤ) =
      tp.balanceOf id + netOf (current.appliedAmong block) id := by
    intro id
    have hsame : (current.appliedAmong txs).Perm (current.appliedAmong block) := hperm.filter _
    rw [hbalances, netOf, netOf, Move.netAll_perm (hsame.map _)]
  have hreverse : current.appliedAmong block.reverse = (current.appliedAmong block).reverse :=
    List.filter_reverse
  have hundone : undone current.appliedTransactions block.reverse =
      (current.appliedAmong block).reverse := by
    rw [undone_eq_appliedAmong, hreverse]
    rw [List.map_reverse, List.nodup_reverse]
    exact (hperm.map _).nodup_iff.mp hfresh.1
  have hknown : ∀ tx ∈ block.reverse, tx ∈ txs.toFinset := by
    intro tx hmem
    exact List.mem_toFinset.mpr (hperm.mem_iff.mpr (List.mem_reverse.mp hmem))
  have hrollback := balanceOf_foldl_rollbackTransaction
    (fun tx hmem => hstanding tx (List.mem_toFinset.mp hmem)) hknown hrefunds
  rw [hundone] at hrollback
  rw [← coveredAll_reverse_iff hcurrent, ← Move.undoAll_eq_iff, ← hrollback]
  apply forall_congr'
  intro id
  have hnet : Move.netAll ((current.appliedAmong block).reverse.map SignedTransaction.move) id =
      netOf (current.appliedAmong block) id :=
    Move.netAll_perm ((List.reverse_perm _).map _) id
  have hid := hcurrent id
  rw [hnet, rollbackTransactions]
  omega

end TransactionProcessor

namespace PeerEffects

open TransactionProcessor

-- ============================================================================
-- A packed block
-- ============================================================================

/-- A packed block holds its transactions in the order of their ids. -/
theorem packBlock_sorted {pf : Platform} {txs : List SignedTransaction} {blockHash : BlockHash} :
    ∀ {effects effects' : PeerEffects}, effects.packBlock pf txs = some (effects', blockHash) →
      ∀ block, effects'.blockKeeper.getUncommitedBlock blockHash = some block →
        block.transactions.Pairwise fun a b => a.txId ≤ b.txId := by
  induction txs with
  | nil =>
      intro effects effects' h
      cases h
  | cons tx txs ih =>
      intro effects effects' h block hblock
      rw [packBlock] at h
      split at h
      · exact ih h block hblock
      · rename_i next created hstage
        obtain ⟨-, -, hstatus, rfl⟩ := stageClientTransaction_ok hstage
        split at h
        · cases h
          simp only [BlockKeeper.addTransaction] at hstatus hblock
          split at hstatus
          · rename_i hfull
            cases hstatus
            rw [if_pos hfull] at hblock
            cases (AList.lookup_insert _).symm.trans hblock
            exact SignedTransaction.pairwise_sorted _
          · cases hstatus
        · cases h
      · cases h

/-- A peer with an empty mempool packs new transactions into a block and then
    rolls the block back.  The balances are those before the first of them if and
    only if every transaction, in the order of the block, is covered. -/
theorem rollbackBlock_restores_iff {pf : Platform} {effects effects' : PeerEffects}
    {txs : List SignedTransaction} {blockHash : BlockHash} (consensus : ConsensusEngine)
    (hmempool : effects.blockKeeper.mempool = ∅)
    (hfresh : effects.transactionProcessor.Fresh txs)
    (hpack : effects.packBlock pf txs = some (effects', blockHash))
    (hcredits : effects.transactionProcessor.CreditsFit txs)
    (hrefunds : effects'.transactionProcessor.RefundsFit (inIdOrder txs).reverse) :
    (∀ id, (effects'.executeEffect pf consensus
          (.rollbackBlock blockHash)).effects.transactionProcessor.balanceOf id =
        effects.transactionProcessor.balanceOf id) ↔
      effects.transactionProcessor.CoveredInOrder (inIdOrder txs) := by
  obtain ⟨hall, htp, block, hblock, hperm⟩ := packBlock_some hpack hfresh.1 (by
    intro tx _
    rw [hmempool]
    exact AList.notMem_empty _)
  have hvalues : effects.blockKeeper.mempool.values = [] := by
    rw [hmempool]
    rfl
  rw [hvalues, List.append_nil] at hperm
  have horder : block.transactions = inIdOrder txs :=
    SignedTransaction.eq_sorted hperm hfresh.1 (packBlock_sorted hpack block hblock)
  have hrollback : (effects'.executeEffect pf consensus
      (.rollbackBlock blockHash)).effects.transactionProcessor =
        effects'.transactionProcessor.rollbackTransactions block.transactions := by
    simp only [executeEffect, rollbackBlock, hblock]
    split <;> rfl
  rw [hrollback, htp, horder]
  rw [htp] at hrefunds
  rw [horder] at hperm
  have happlied := hall.appliedAmong_eq fun tx hmem => hperm.mem_iff.mpr hmem
  rw [rollbackTransactions_perm_iff hfresh hperm hcredits hrefunds, happlied]

/-- Coins added and spent by one client come back to nothing. -/
theorem rollbackBlock_restores_pair :
    ∃ effects' blockHash,
      (Reference.newEffects 2).packBlock Reference.platform Reference.paidInOrder =
          some (effects', blockHash) ∧
        ∀ id, (effects'.executeEffect Reference.platform (.newVoting 1)
          (.rollbackBlock blockHash)).effects.transactionProcessor.balanceOf id = 0 := by
  have hrun : ((Reference.newEffects 2).packBlock Reference.platform Reference.paidInOrder).any
      (fun packed => packed.1.transactionProcessor.RefundsFit Reference.paidInOrder.reverse) =
        true := by decide +kernel
  obtain ⟨⟨effects', blockHash⟩, hpack, hrefunds⟩ := (Option.any_eq_true _ _).mp hrun
  rw [decide_eq_true_eq] at hrefunds
  have horder : inIdOrder Reference.paidInOrder = Reference.paidInOrder := by decide +kernel
  have hmempool : (Reference.newEffects 2).blockKeeper.mempool = ∅ := rfl
  have hfresh : (Reference.newEffects 2).transactionProcessor.Fresh Reference.paidInOrder :=
    ⟨by decide +kernel, by decide +kernel⟩
  have hcredits : (Reference.newEffects 2).transactionProcessor.CreditsFit
      Reference.paidInOrder :=
    ⟨fun _ _ => by decide +kernel, fun _ _ => by decide +kernel, trivial⟩
  have hall : (Reference.newEffects 2).transactionProcessor.AllAccepted
      Reference.paidInOrder := by
    unfold AllAccepted
    decide +kernel
  have hcovered : (Reference.newEffects 2).transactionProcessor.CoveredInOrder
      Reference.paidInOrder := by
    have hbalances := (processEach_applied hfresh hcredits).2
    rw [hall.appliedAmong_eq fun _ h => h] at hbalances
    rw [← coveredAll_reverse_iff hbalances]
    decide +kernel
  have hrestored := (rollbackBlock_restores_iff (.newVoting 1) hmempool hfresh hpack hcredits
    (by rw [horder]; exact hrefunds)).mpr (by rw [horder]; exact hcovered)
  refine ⟨effects', blockHash, hpack, fun id => ?_⟩
  rw [hrestored]
  rfl

/-- Client `01` spent coins that the block credits to it later: rolling the block
    back leaves it three coins it did not have. -/
theorem rollbackBlock_leaves_coins :
    ∃ effects' blockHash,
      (Reference.newEffects 3).blockKeeper.mempool = ∅ ∧
        (Reference.newEffects 3).transactionProcessor.Fresh Reference.paidOutOfOrder ∧
        (Reference.newEffects 3).packBlock Reference.platform Reference.paidOutOfOrder =
          some (effects', blockHash) ∧
        (Reference.newEffects 3).transactionProcessor.balanceOf "01" = 0 ∧
        (effects'.executeEffect Reference.platform (.newVoting 1)
          (.rollbackBlock blockHash)).effects.transactionProcessor.balanceOf "01" = 3 := by
  have hrun : ((Reference.newEffects 3).packBlock Reference.platform
      Reference.paidOutOfOrder).any (fun packed =>
        (packed.1.executeEffect Reference.platform (.newVoting 1)
          (.rollbackBlock packed.2)).effects.transactionProcessor.balanceOf "01" = 3) = true := by
    decide +kernel
  obtain ⟨packed, hpack, hthree⟩ := (Option.any_eq_true _ _).mp hrun
  exact ⟨packed.1, packed.2, rfl, ⟨by decide +kernel, by decide +kernel⟩, hpack, rfl,
    of_decide_eq_true hthree⟩

end PeerEffects
end Rustchain
