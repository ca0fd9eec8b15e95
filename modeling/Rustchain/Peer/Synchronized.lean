/-
  Rustchain.Peer.Synchronized

  When a synchronized block that is refused leaves the peer as it was.

  `apply_synchronized_block` runs the transactions of the block before it verifies
  the block's hash, and stages the block before it writes the file.  Neither is
  undone when the step after it fails.
-/

import Rustchain.Peer.Coverage

namespace Rustchain

namespace TransactionProcessor

/-- The processor has nothing to do for the transaction: it is applied already, or it
    is refused. -/
def Idle (tp : TransactionProcessor) (tx : SignedTransaction) : Prop :=
  tx.txId ∈ tp.appliedTransactions ∨ ¬ tp.Accepts tx

theorem processTransaction_of_idle {tp : TransactionProcessor} {tx : SignedTransaction}
    (h : tp.Idle tx) : (tp.processTransaction tx).1 = tp := by
  rcases processTransaction_eq_or tp tx with heq | ⟨hnew, haccepts, -⟩
  · exact heq
  · rcases h with happlied | hnot
    · exact absurd happlied hnew
    · exact absurd haccepts hnot

/-- Transactions that are run leave no trace exactly when none of them is new and
    accepted: what is accepted is recorded and stays recorded. -/
theorem foldl_processTransaction_eq_iff (tp : TransactionProcessor)
    (txs : List SignedTransaction) :
    (txs.foldl (fun tp tx => (tp.processTransaction tx).1) tp).appliedTransactions =
        tp.appliedTransactions ↔ ∀ tx ∈ txs, tp.Idle tx := by
  induction txs with
  | nil => exact ⟨fun _ tx hmem => absurd hmem List.not_mem_nil, fun _ => rfl⟩
  | cons tx txs ih =>
      rw [List.foldl_cons, List.forall_mem_cons]
      by_cases hidle : tp.Idle tx
      · rw [processTransaction_of_idle hidle, ih]
        exact ⟨fun h => ⟨hidle, h⟩, fun h => h.2⟩
      · refine ⟨fun heq => ?_, fun h => absurd h.1 hidle⟩
        rcases processTransaction_eq_or tp tx with hsame | ⟨hnew, -, happlied⟩
        · exfalso
          rw [Idle, not_or, not_not] at hidle
          rcases processTransaction_cases hidle.1 with ⟨hnot, -⟩ | ⟨-, -, happlied, -⟩
          · exact hnot hidle.2
          · rw [hsame] at happlied
            exact hidle.1 (happlied ▸ Finset.mem_insert_self _ _)
        · have hsubset := appliedTransactions_subset_foldl txs (tp.processTransaction tx).1
          rw [heq, happlied] at hsubset
          exact absurd (hsubset (Finset.mem_insert_self _ _)) hnew

theorem foldl_processTransaction_of_idle {tp : TransactionProcessor}
    {txs : List SignedTransaction} (h : ∀ tx ∈ txs, tp.Idle tx) :
    txs.foldl (fun tp tx => (tp.processTransaction tx).1) tp = tp := by
  induction txs with
  | nil => rfl
  | cons tx txs ih =>
      obtain ⟨htx, htxs⟩ := List.forall_mem_cons.mp h
      rw [List.foldl_cons, processTransaction_of_idle htx, ih htxs]

end TransactionProcessor

namespace Peer

/-- Accounts, applied transactions, mempool, pending transactions, staged blocks, height
    and disk are the same. -/
structure SameBooks (p p' : Peer) : Prop where
  accounts : ∀ id, p'.effects.transactionProcessor.getAccount id =
    p.effects.transactionProcessor.getAccount id
  appliedTransactions : p'.effects.transactionProcessor.appliedTransactions =
    p.effects.transactionProcessor.appliedTransactions
  mempool : ∀ id, p'.effects.blockKeeper.mempool.lookup id =
    p.effects.blockKeeper.mempool.lookup id
  pendingTransactions : ∀ id, p'.effects.blockKeeper.pendingTransactions.lookup id =
    p.effects.blockKeeper.pendingTransactions.lookup id
  uncommitedBlocks : ∀ blockHash, p'.effects.blockKeeper.uncommitedBlocks.lookup blockHash =
    p.effects.blockKeeper.uncommitedBlocks.lookup blockHash
  state : p'.effects.blockKeeper.blockStorageState = p.effects.blockKeeper.blockStorageState
  files : ∀ filename, p'.effects.blockKeeper.dir.files.lookup filename =
    p.effects.blockKeeper.dir.files.lookup filename

theorem SameBooks.refl (p : Peer) : SameBooks p p :=
  ⟨fun _ => rfl, rfl, fun _ => rfl, fun _ => rfl, fun _ => rfl, rfl, fun _ => rfl⟩

/-- The block is refused before anything is changed, or it is refused for its hash and
    has nothing for the ledger, or its hash is right and its file gets written. -/
def AppliesCleanly (pf : Platform) (p : Peer) (block : BlockFile) : Prop :=
  p.effects.blockKeeper.blockCanBeAdded block = false ∨
    (∃ e, block.verifyBlock pf = .error e) ∧
      (∀ tx ∈ block.transactions, p.effects.transactionProcessor.Idle tx) ∨
    block.verifyBlock pf = .ok () ∧
      p.effects.blockKeeper.dir.writeFault p.effects.blockKeeper.dir.writes = none

/-- A block that extends the chain has its transactions run, and fails for its hash or
    for its file. -/
theorem applySynchronizedBlock_cases (pf : Platform) (p : Peer) {block : BlockFile}
    (hadd : p.effects.blockKeeper.blockCanBeAdded block = true) :
    let out := p.applySynchronizedBlock pf block
    ((∃ e, block.verifyBlock pf = .error e) ∧ (∃ e, out.2 = .error e) ∧
      out.1 = { p with effects := p.effects.applyBlockTransactions block }) ∨
    (block.verifyBlock pf = .ok () ∧
      p.effects.blockKeeper.dir.writeFault p.effects.blockKeeper.dir.writes = none ∧
      out.2 = .ok ()) ∨
    (block.verifyBlock pf = .ok () ∧
      p.effects.blockKeeper.dir.writeFault p.effects.blockKeeper.dir.writes ≠ none ∧
      (∃ e, out.2 = .error e) ∧
      out.1.effects.blockKeeper.uncommitedBlocks.lookup block.hash = some block) := by
  unfold applySynchronizedBlock PeerEffects.applySynchronizedBlock
  rw [if_neg (by simp [hadd])]
  have hkeeper : (p.effects.applyBlockTransactions block).blockKeeper = p.effects.blockKeeper := rfl
  rcases BlockKeeper.addExternalBlock_cases pf p.effects.blockKeeper block with
    ⟨e, hverify, heq⟩ | ⟨hverify, hok, hstages⟩
  · refine Or.inl ⟨⟨e, hverify⟩, ?_, ?_⟩
    · simp only [hkeeper, heq]
      exact ⟨_, rfl⟩
    · simp only [hkeeper, heq]
      rfl
  · obtain ⟨k, hk⟩ : ∃ k, p.effects.blockKeeper.addExternalBlock pf block = (k, .ok ()) :=
      ⟨_, Prod.ext rfl hok⟩
    rw [hk] at hstages
    have hdir : k.dir = p.effects.blockKeeper.dir := hstages.dir
    have hstaged : k.uncommitedBlocks.lookup block.hash = some block := by
      rw [hstages.uncommitedBlocks, AList.lookup_insert]
    simp only [hkeeper, hk]
    rcases BlockKeeper.commitBlock_cases pf k block.hash with
      ⟨hnone, -⟩ | ⟨b, -, hwrite, hcommit, -⟩ | ⟨b, fault, e, -, hfault, hcommit, hleft⟩
    · rw [hstaged] at hnone
      cases hnone
    · obtain ⟨k', hk'⟩ : ∃ k', k.commitBlock pf block.hash = (k', .ok ()) :=
        ⟨_, Prod.ext rfl hcommit⟩
      rw [hdir] at hwrite
      refine Or.inr (Or.inl ⟨hverify, hwrite, ?_⟩)
      simp only [hk']
    · obtain ⟨k', hk'⟩ : ∃ k', k.commitBlock pf block.hash = (k', .error e) :=
        ⟨_, Prod.ext rfl hcommit⟩
      rw [hdir] at hfault
      refine Or.inr (Or.inr ⟨hverify, by simp [hfault], ?_, ?_⟩)
      · simp only [hk']
        exact ⟨e, rfl⟩
      · rw [hk'] at hleft
        have hsame : k'.uncommitedBlocks = k.uncommitedBlocks := by
          rw [show k' = _ from hleft]
        simp only [hk', hsame]
        exact hstaged

/-- Only a block that is not staged can be added. -/
theorem not_staged_of_blockCanBeAdded {k : BlockKeeper} {block : BlockFile}
    (h : k.blockCanBeAdded block = true) : k.uncommitedBlocks.lookup block.hash = none := by
  unfold BlockKeeper.blockCanBeAdded at h
  split at h
  · cases h
  split at h
  · cases h
  · rename_i hnot
    exact AList.lookup_eq_none.mpr hnot

/-- A synchronized block that is refused leaves the peer as it was exactly when it is
    refused before anything is changed, has nothing for the ledger, or is written. -/
theorem applySynchronizedBlock_allOrNothing_iff (pf : Platform) (p : Peer) (block : BlockFile) :
    (∀ e, (p.applySynchronizedBlock pf block).2 = .error e →
        SameBooks p (p.applySynchronizedBlock pf block).1) ↔ p.AppliesCleanly pf block := by
  unfold AppliesCleanly
  cases hadd : p.effects.blockKeeper.blockCanBeAdded block with
  | false =>
      have hsame : (p.applySynchronizedBlock pf block).1 = p := by
        unfold applySynchronizedBlock PeerEffects.applySynchronizedBlock
        rw [if_pos (by simp [hadd])]
      rw [hsame]
      exact ⟨fun _ => Or.inl rfl, fun _ _ _ => SameBooks.refl p⟩
  | true =>
      rcases p.applySynchronizedBlock_cases pf hadd with ⟨hverify, ⟨e, herror⟩, hout⟩ |
        ⟨hverify, hwrite, hok⟩ | ⟨hverify, hfault, ⟨e, herror⟩, hstaged⟩
      · rw [hout, herror]
        constructor
        · intro h
          refine Or.inr (Or.inl ⟨hverify, ?_⟩)
          exact (TransactionProcessor.foldl_processTransaction_eq_iff _ _).mp
            (h e rfl).appliedTransactions
        · rintro (hnot | ⟨-, hidle⟩ | ⟨hright, -⟩)
          · cases hnot
          · intro e' _
            have hledger := TransactionProcessor.foldl_processTransaction_of_idle hidle
            refine ⟨fun id => ?_, ?_, fun _ => rfl, fun _ => rfl, fun _ => rfl, rfl, fun _ => rfl⟩
            · exact congrArg (TransactionProcessor.getAccount · id) hledger
            · exact congrArg TransactionProcessor.appliedTransactions hledger
          · obtain ⟨e', hwrong⟩ := hverify
            rw [hwrong] at hright
            cases hright
      · rw [hok]
        exact ⟨fun _ => Or.inr (Or.inr ⟨hverify, hwrite⟩), fun _ e h => by cases h⟩
      · constructor
        · intro h
          have hsame := (h e herror).uncommitedBlocks block.hash
          rw [hstaged, not_staged_of_blockCanBeAdded hadd] at hsame
          cases hsame
        · rintro (hnot | ⟨⟨e', hwrong⟩, -⟩ | ⟨-, hwrite⟩)
          · cases hnot
          · rw [hverify] at hwrong
            cases hwrong
          · exact absurd hwrite hfault

end Peer

namespace Reference

/-- The first block of a chain with a deposit, under a hash that is not its own. -/
def forgedBlock : BlockFile := { firstBlock deposit with hash := 0 }

end Reference

namespace Peer

/-- The forged block is refused, and its deposit is in the ledger all the same. -/
theorem applySynchronizedBlock_forgedBlock :
    let p := Reference.votingPeer [2]
    let out := p.applySynchronizedBlock Reference.platform Reference.forgedBlock
    out.2.isOk = false ∧
      p.effects.transactionProcessor.balanceOf Reference.deposit.signer = 0 ∧
      out.1.effects.transactionProcessor.balanceOf Reference.deposit.signer = 10 ∧
      ¬ ∀ e, out.2 = .error e → SameBooks p out.1 := by
  intro p out
  have hrefused : out.2.isOk = false := by decide +kernel
  have hbefore : p.effects.transactionProcessor.balanceOf Reference.deposit.signer = 0 := by
    decide +kernel
  have hafter : out.1.effects.transactionProcessor.balanceOf Reference.deposit.signer = 10 := by
    decide +kernel
  refine ⟨hrefused, hbefore, hafter, ?_⟩
  intro h
  rcases hresult : out.2 with e | _
  · have hsame := (h e hresult).accounts Reference.deposit.signer
    unfold TransactionProcessor.balanceOf at hbefore hafter
    rw [hsame, hbefore] at hafter
    cases hafter
  · rw [hresult] at hrefused
    cases hrefused

end Peer

end Rustchain
