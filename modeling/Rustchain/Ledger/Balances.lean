/-
  Rustchain.Ledger.Balances

  The ledger as balances in which coins move, and what rolling back restores.

  Balances are natural numbers here, zero for an account that does not exist.
  As long as they fit their type, an applied transaction is a `Move` and rolling
  it back undoes the move, so the results about lists of moves carry over.
  Rolling back what was just applied, last first, is exact: every move finds the
  coins where it put them.
-/

import Rustchain.Ledger.Replay
import Rustchain.Lib.Moves
import Rustchain.Reference

namespace Rustchain

/-- A transaction as a move of coins. -/
def SignedTransaction.move (tx : SignedTransaction) : Move String where
  source := if tx.isSend then some tx.signer else none
  target := tx.credited
  amount := tx.amount.toNat

theorem SignedTransaction.move_source_eq {tx : SignedTransaction} {id : String} :
    tx.move.source = some id ↔ tx.isSend = true ∧ tx.signer = id := by
  cases h : tx.isSend <;> simp [SignedTransaction.move, h]

namespace TransactionProcessor

/-- The balance of an account, zero if there is none. -/
def balanceOf (tp : TransactionProcessor) (id : String) : ℕ :=
  (tp.getAccount id).elim 0 fun account => account.balance.toNat

/-- The asset type of an account, if there is one. -/
def assetTypeOf (tp : TransactionProcessor) (id : String) : Option AssetType :=
  (tp.getAccount id).map Account.assetType

theorem balanceOf_lt (tp : TransactionProcessor) (id : String) : tp.balanceOf id < 2 ^ 32 := by
  unfold balanceOf
  cases tp.getAccount id with
  | none => decide
  | some account => exact account.balance.toNat_lt

theorem balanceOf_of_assetTypeOf_eq_none {tp : TransactionProcessor} {id : String}
    (h : tp.assetTypeOf id = none) : tp.balanceOf id = 0 := by
  rw [balanceOf, Option.map_eq_none_iff.mp h]
  rfl

-- ============================================================================
-- One transaction
-- ============================================================================

/-- The balance the transaction credits fits its type. -/
def CreditFits (tp : TransactionProcessor) (tx : SignedTransaction) : Prop :=
  tx.move.apply tp.balanceOf tx.credited < 2 ^ 32

/-- The balance that rolling the transaction back gives coins to fits its type. -/
def RefundFits (tp : TransactionProcessor) (tx : SignedTransaction) : Prop :=
  tx.move.undo tp.balanceOf tx.signer < 2 ^ 32

instance (tp : TransactionProcessor) (tx : SignedTransaction) : Decidable (tp.CreditFits tx) :=
  inferInstanceAs (Decidable (_ < _))

instance (tp : TransactionProcessor) (tx : SignedTransaction) : Decidable (tp.RefundFits tx) :=
  inferInstanceAs (Decidable (_ < _))

/-- The accounts of the transaction exist, with its asset type. -/
structure Standing (tp : TransactionProcessor) (tx : SignedTransaction) : Prop where
  credited : tp.assetTypeOf tx.credited = some tx.assetType
  signer : tx.isSend = true → tp.assetTypeOf tx.signer = some tx.assetType

theorem Standing.mono {tp tp' : TransactionProcessor} {tx : SignedTransaction}
    (h : tp.Standing tx)
    (hkept : ∀ id assetType, tp.assetTypeOf id = some assetType →
      tp'.assetTypeOf id = some assetType) :
    tp'.Standing tx :=
  ⟨hkept _ _ h.credited, fun hsend => hkept _ _ (h.signer hsend)⟩

theorem Accepts.funded_move {tp : TransactionProcessor} {tx : SignedTransaction}
    (h : tp.Accepts tx) : tx.move.Funded tp.balanceOf := by
  intro id hsource
  obtain ⟨hsend, rfl⟩ := SignedTransaction.move_source_eq.mp hsource
  obtain ⟨account, hacc, -, hfunds⟩ := h.funded hsend
  rw [balanceOf, hacc]
  exact UInt32.le_iff_toNat_le.mp hfunds

/-- An applied transaction leaves its own accounts standing and every other
    account as it was. -/
theorem assetTypeOf_processTransaction {tp : TransactionProcessor} {tx : SignedTransaction}
    {id : String} {assetType : AssetType} (h : tp.assetTypeOf id = some assetType) :
    (tp.processTransaction tx).1.assetTypeOf id = some assetType := by
  obtain ⟨account, hacc, rfl⟩ := Option.map_eq_some_iff.mp h
  obtain ⟨account', hacc', htype⟩ := getAccount_processTransaction tx hacc
  rw [assetTypeOf, hacc', Option.map_some, htype]

theorem standing_processTransaction {tp : TransactionProcessor} {tx : SignedTransaction}
    (hfresh : tx.txId ∉ tp.appliedTransactions) (haccepts : tp.Accepts tx) :
    (tp.processTransaction tx).1.Standing tx := by
  rcases processTransaction_cases hfresh with ⟨hnot, -⟩ | ⟨-, -, -, hget⟩
  · exact absurd haccepts hnot
  constructor
  · rw [assetTypeOf, hget]
    cases hacc : tp.getAccount tx.credited with
    | none => simp [accountAfter]
    | some account => simp [accountAfter, haccepts.matching account hacc]
  · intro hsend
    obtain ⟨account, hacc, htype, -⟩ := haccepts.funded hsend
    apply assetTypeOf_processTransaction
    rw [assetTypeOf, hacc, Option.map_some, htype]

/-- `u32` arithmetic on a balance that covers the debit and holds the credit. -/
theorem toNat_add_sub {balance credit debit : UInt32} (hcovered : debit.toNat ≤ balance.toNat)
    (hfits : balance.toNat - debit.toNat + credit.toNat < 2 ^ 32) :
    (balance + (credit - debit)).toNat = balance.toNat - debit.toNat + credit.toNat := by
  have hcredit := credit.toNat_lt
  have hdebit := debit.toNat_lt
  rw [UInt32.toNat_add, UInt32.toNat_sub]
  omega

/-- An applied transaction moves its coins. -/
theorem balanceOf_processTransaction {tp : TransactionProcessor} {tx : SignedTransaction}
    (hfresh : tx.txId ∉ tp.appliedTransactions) (haccepts : tp.Accepts tx)
    (hfits : tp.CreditFits tx) (id : String) :
    (tp.processTransaction tx).1.balanceOf id = tx.move.apply tp.balanceOf id := by
  rcases processTransaction_cases hfresh with ⟨hnot, -⟩ | ⟨-, -, -, hget⟩
  · exact absurd haccepts hnot
  -- In every account, whether or not it is the credited one, the sum fits.
  have hlt : tx.move.apply tp.balanceOf id < 2 ^ 32 := by
    by_cases hcredited : tx.credited = id
    · exact hcredited ▸ hfits
    · have hold := tp.balanceOf_lt id
      unfold Move.apply
      rw [if_neg (show ¬ tx.move.target = id from hcredited)]
      omega
  have hfunded : (if tx.isSend = true ∧ tx.signer = id then tx.amount else 0).toNat ≤
      tp.balanceOf id := by
    split
    · rename_i hsource
      exact haccepts.funded_move id (SignedTransaction.move_source_eq.mpr hsource)
    · exact Nat.zero_le _
  have happly : tx.move.apply tp.balanceOf id = tp.balanceOf id -
      (if tx.isSend = true ∧ tx.signer = id then tx.amount else 0).toNat +
      (if tx.credited = id then tx.amount else 0).toNat := by
    simp only [Move.apply, SignedTransaction.move_source_eq, apply_ite UInt32.toNat]
    rfl
  rw [happly] at hlt ⊢
  have hbalance : tp.balanceOf id = (tp.getAccount id).elim 0 fun a => a.balance.toNat := rfl
  rw [hbalance] at hfunded hlt ⊢
  rw [balanceOf, hget]
  cases hacc : tp.getAccount id with
  | none =>
      rw [hacc] at hfunded
      have hsum := @toNat_add_sub 0 _ _ hfunded (by simpa [hacc] using hlt)
      by_cases hcredited : tx.credited = id
      · simpa [accountAfter, hcredited, SignedTransaction.net] using hsum
      · simp [accountAfter, hcredited]
  | some account =>
      rw [hacc] at hfunded hlt
      exact toNat_add_sub hfunded hlt

/-- What an applied transaction changes, in the words of its operation. -/
def AppliedExactly (tp tp' : TransactionProcessor) (tx : SignedTransaction) : Prop :=
  match tx.transaction.operation with
  | .addCoin amount _ =>
    tp'.balanceOf tx.signer = tp.balanceOf tx.signer + amount.toNat ∧
      ∀ id, id ≠ tx.signer → tp'.getAccount id = tp.getAccount id
  | .send recipient amount assetType =>
    (if recipient = tx.signer then tp'.balanceOf tx.signer = tp.balanceOf tx.signer
      else tp'.balanceOf tx.signer + amount.toNat = tp.balanceOf tx.signer ∧
        tp'.balanceOf recipient = tp.balanceOf recipient + amount.toNat) ∧
      (tp.getAccount recipient = none → tp'.assetTypeOf recipient = some assetType) ∧
      ∀ id, id ≠ tx.signer → id ≠ recipient → tp'.getAccount id = tp.getAccount id

/-- An account that an applied transaction does not name is as it was. -/
theorem accountAfter_of_ne {tx : SignedTransaction} {id : String} (hsigner : id ≠ tx.signer)
    (hcredited : id ≠ tx.credited) (account : Option Account) :
    accountAfter tx id account = account := by
  have hnet : tx.net id = 0 := by
    rw [SignedTransaction.net, if_neg (Ne.symm hcredited), if_neg (fun h => hsigner h.2.symm),
      sub_zero]
  cases account with
  | none => rw [accountAfter, if_neg (Ne.symm hcredited)]
  | some account => rw [accountAfter, hnet, add_zero]

theorem appliedExactly_processTransaction {tp : TransactionProcessor} {tx : SignedTransaction}
    (hfresh : tx.txId ∉ tp.appliedTransactions) (haccepts : tp.Accepts tx)
    (hfits : tp.CreditFits tx) : tp.AppliedExactly (tp.processTransaction tx).1 tx := by
  have hbalance := balanceOf_processTransaction hfresh haccepts hfits
  have hstanding := standing_processTransaction hfresh haccepts
  have hfunded := haccepts.funded_move
  rcases processTransaction_cases hfresh with ⟨hnot, -⟩ | ⟨-, -, -, hget⟩
  · exact absurd haccepts hnot
  unfold AppliedExactly
  cases hop : tx.transaction.operation with
  | addCoin amount assetType =>
      have hcredited : tx.credited = tx.signer := by simp only [SignedTransaction.credited, hop]
      constructor
      · rw [hbalance]
        simp [Move.apply, SignedTransaction.move, SignedTransaction.isSend, hcredited,
          SignedTransaction.amount, hop]
      · intro id hne
        rw [hget, accountAfter_of_ne hne (hcredited ▸ hne)]
  | send recipient amount assetType =>
      have hcredited : tx.credited = recipient := by simp only [SignedTransaction.credited, hop]
      have hasset : tx.assetType = assetType := by simp only [SignedTransaction.assetType, hop]
      have hmove : tx.move =
          { source := some tx.signer, target := recipient, amount := amount.toNat } := by
        simp [SignedTransaction.move, SignedTransaction.isSend, SignedTransaction.credited,
          SignedTransaction.amount, hop]
      have hfunds : amount.toNat ≤ tp.balanceOf tx.signer := by
        rw [hmove] at hfunded
        exact hfunded tx.signer rfl
      refine ⟨?_, ?_, ?_⟩
      · rw [hbalance, hbalance, hmove]
        split
        · rename_i hself
          simp only [Move.apply, hself, if_true]
          omega
        · rename_i hself
          have hself' : tx.signer ≠ recipient := fun h => hself h.symm
          simp only [Move.apply, hself, hself', Option.some.injEq, if_true, if_false]
          omega
      · intro _
        rw [← hcredited, hstanding.credited, hasset]
      · intro id hsigner hrecipient
        rw [hget, accountAfter_of_ne hsigner (hcredited ▸ hrecipient)]

/-- `process_transaction` fails without a trace, and what it applies it applies
    exactly; a `Send` not applied before succeeds if and only if the sender has
    the coins and the recipient can hold them. -/
theorem processTransaction_atomic (tp : TransactionProcessor) (tx : SignedTransaction) :
    (∀ e, (tp.processTransaction tx).2 = .error e → (tp.processTransaction tx).1 = tp) ∧
      (tx.txId ∉ tp.appliedTransactions → (tp.processTransaction tx).2 = .ok () →
        tp.CreditFits tx →
          (tp.processTransaction tx).1.appliedTransactions =
              insert tx.txId tp.appliedTransactions ∧
            tp.AppliedExactly (tp.processTransaction tx).1 tx ∧
            ∀ id assetType, tp.assetTypeOf id = some assetType →
              (tp.processTransaction tx).1.assetTypeOf id = some assetType) ∧
      (tx.txId ∉ tp.appliedTransactions → ∀ recipient amount assetType,
        tx.transaction.operation = .send recipient amount assetType →
          ((tp.processTransaction tx).2 = .ok () ↔
            (∃ sender, tp.getAccount tx.signer = some sender ∧ sender.assetType = assetType ∧
                amount ≤ sender.balance) ∧
              ∀ account, tp.getAccount recipient = some account →
                account.assetType = assetType)) := by
  refine ⟨?_, ?_, ?_⟩
  · intro e herror
    by_cases hfresh : tx.txId ∈ tp.appliedTransactions
    · rw [processTransaction, if_pos hfresh]
    · rcases processTransaction_cases hfresh with ⟨-, e', heq⟩ | ⟨-, hok, -⟩
      · rw [heq]
      · rw [hok] at herror
        cases herror
  · intro hfresh hok hfits
    rcases processTransaction_cases hfresh with ⟨-, e, heq⟩ | ⟨haccepts, -, happlied, -⟩
    · rw [heq] at hok
      cases hok
    · exact ⟨happlied, appliedExactly_processTransaction hfresh haccepts hfits,
        fun id assetType h => assetTypeOf_processTransaction h⟩
  · intro hfresh recipient amount assetType hop
    have hsend : tx.isSend = true := by simp only [SignedTransaction.isSend, hop]
    have hcredited : tx.credited = recipient := by simp only [SignedTransaction.credited, hop]
    have hasset : tx.assetType = assetType := by simp only [SignedTransaction.assetType, hop]
    have hamount : tx.amount = amount := by simp only [SignedTransaction.amount, hop]
    subst hcredited hasset hamount
    rcases processTransaction_cases hfresh with ⟨hnot, e, heq⟩ | ⟨haccepts, hok, -⟩
    · rw [heq]
      refine iff_of_false (fun h => by cases h) ?_
      rintro ⟨hfunded, hmatching⟩
      exact hnot ⟨fun _ => hfunded, hmatching⟩
    · exact iff_of_true hok ⟨haccepts.funded hsend, haccepts.matching⟩

end TransactionProcessor

namespace Reference

/-- The client of `deposit` sends all of it to client `06`. -/
def payment : SignedTransaction := clientTx [5] (.send "06" 10 .btc)

/-- The ledger after `deposit`. -/
def depositLedger : TransactionProcessor :=
  (TransactionProcessor.default.processTransaction deposit).1

end Reference

namespace TransactionProcessor

theorem processTransaction_atomic_payment :
    (Reference.depositLedger.processTransaction Reference.payment).2 = .ok () ∧
      Reference.depositLedger.AppliedExactly
        (Reference.depositLedger.processTransaction Reference.payment).1 Reference.payment := by
  have hok : (Reference.depositLedger.processTransaction Reference.payment).2 = .ok () := by
    decide +kernel
  have hexact := (processTransaction_atomic Reference.depositLedger Reference.payment).2.1
    (by decide +kernel) hok (by decide +kernel)
  exact ⟨hok, hexact.2.1⟩

/-- A `Send` that was applied before succeeds again without the coins. -/
theorem processTransaction_repeated_payment :
    Reference.payment.transaction.operation = .send "06" 10 .btc ∧
      ((Reference.depositLedger.processTransaction Reference.payment).1.processTransaction
        Reference.payment).2 = .ok () ∧
      ¬ ∃ sender, (Reference.depositLedger.processTransaction Reference.payment).1.getAccount
          Reference.payment.signer = some sender ∧ sender.assetType = .btc ∧
            10 ≤ sender.balance := by
  refine ⟨rfl, by decide +kernel, ?_⟩
  rintro ⟨sender, hacc, -, hfunds⟩
  have hempty : (Reference.depositLedger.processTransaction Reference.payment).1.getAccount
      Reference.payment.signer = some { assetType := .btc, balance := 0 } := by decide +kernel
  rw [hempty, Option.some.injEq] at hacc
  subst hacc
  exact absurd hfunds (by decide)

-- ============================================================================
-- Rolling one transaction back
-- ============================================================================

theorem toNat_saturatingSub (a b : UInt32) : (saturatingSub a b).toNat = a.toNat - b.toNat := by
  unfold saturatingSub
  split
  · rename_i hle
    exact UInt32.toNat_sub_of_le a b hle
  · rename_i hlt
    have hlt' := UInt32.lt_iff_toNat_lt.mp (UInt32.not_le.mp hlt)
    rw [UInt32.toNat_zero]
    omega

theorem assetTypeOf_modifyBalance (tp : TransactionProcessor) (id : String)
    (f : UInt32 → UInt32) (other : String) :
    (tp.modifyBalance id f).assetTypeOf other = tp.assetTypeOf other := by
  unfold assetTypeOf
  rw [getAccount_modifyBalance]
  split
  · rw [Option.map_map]
    rfl
  · rfl

theorem balanceOf_debit (tp : TransactionProcessor) (id : String) (amount : UInt32)
    (other : String) :
    (tp.modifyBalance id (saturatingSub · amount)).balanceOf other =
      tp.balanceOf other - if id = other then amount.toNat else 0 := by
  unfold balanceOf
  rw [getAccount_modifyBalance]
  by_cases h : id = other
  · rw [if_pos h, if_pos h.symm]
    cases tp.getAccount other with
    | none => exact (Nat.zero_sub _).symm
    | some account => exact toNat_saturatingSub account.balance amount
  · rw [if_neg h, if_neg (Ne.symm h), Nat.sub_zero]

theorem balanceOf_credit {tp : TransactionProcessor} {id : String} {amount : UInt32}
    {assetType : AssetType} (hexists : tp.assetTypeOf id = some assetType)
    (hfits : tp.balanceOf id + amount.toNat < 2 ^ 32) (other : String) :
    (tp.modifyBalance id (· + amount)).balanceOf other =
      tp.balanceOf other + if id = other then amount.toNat else 0 := by
  obtain ⟨account, hacc, -⟩ := Option.map_eq_some_iff.mp hexists
  unfold balanceOf at hfits ⊢
  rw [getAccount_modifyBalance]
  by_cases h : id = other
  · rw [if_pos h, if_pos h.symm, ← h, hacc]
    rw [hacc] at hfits
    show (account.balance + amount).toNat = account.balance.toNat + amount.toNat
    rw [UInt32.toNat_add]
    exact Nat.mod_eq_of_lt hfits
  · rw [if_neg h, if_neg (Ne.symm h), Nat.add_zero]

@[simp] theorem appliedTransactions_rollbackTransaction (tp : TransactionProcessor)
    (tx : SignedTransaction) :
    (tp.rollbackTransaction tx).appliedTransactions = tp.appliedTransactions.erase tx.txId := by
  unfold rollbackTransaction
  split
  · rename_i hnot
    rw [Finset.erase_eq_of_notMem hnot]
  · cases tx.transaction.operation <;> simp only [modifyBalance_applied]

@[simp] theorem assetTypeOf_rollbackTransaction (tp : TransactionProcessor)
    (tx : SignedTransaction) (id : String) :
    (tp.rollbackTransaction tx).assetTypeOf id = tp.assetTypeOf id := by
  unfold rollbackTransaction
  split
  · rfl
  · cases tx.transaction.operation <;> simp only [assetTypeOf_modifyBalance] <;> rfl

/-- Rolling an applied transaction back undoes its move. -/
theorem balanceOf_rollbackTransaction {tp : TransactionProcessor} {tx : SignedTransaction}
    (happlied : tx.txId ∈ tp.appliedTransactions) (hstanding : tp.Standing tx)
    (hfits : tp.RefundFits tx) (id : String) :
    (tp.rollbackTransaction tx).balanceOf id = tx.move.undo tp.balanceOf id := by
  unfold rollbackTransaction
  rw [if_neg (not_not.mpr happlied)]
  cases hop : tx.transaction.operation with
  | addCoin amount assetType =>
      have hmove : tx.move = { source := none, target := tx.signer, amount := amount.toNat } := by
        simp [SignedTransaction.move, SignedTransaction.isSend, SignedTransaction.credited,
          SignedTransaction.amount, hop]
      rw [hmove]
      exact balanceOf_debit _ tx.signer amount id
  | send recipient amount assetType =>
      have hmove : tx.move =
          { source := some tx.signer, target := recipient, amount := amount.toNat } := by
        simp [SignedTransaction.move, SignedTransaction.isSend, SignedTransaction.credited,
          SignedTransaction.amount, hop]
      have hsigner := hstanding.signer (by rw [SignedTransaction.isSend, hop])
      rw [RefundFits, hmove, Move.undo, if_pos rfl] at hfits
      rw [hmove]
      -- The debit leaves the signer's account in place for the credit.
      have hcredit := balanceOf_credit
        ((assetTypeOf_modifyBalance { tp with
            appliedTransactions := tp.appliedTransactions.erase tx.txId }
          recipient (saturatingSub · amount) tx.signer).trans hsigner)
        (by rw [balanceOf_debit]; exact hfits) id
      refine hcredit.trans ?_
      rw [balanceOf_debit]
      simp only [Move.undo, Option.some.injEq]
      rfl

-- ============================================================================
-- Sequences
-- ============================================================================

/-- No balance outgrows its type while the transactions are processed. -/
def CreditsFit : TransactionProcessor → List SignedTransaction → Prop
  | _, [] => True
  | tp, tx :: txs =>
    (tx.txId ∉ tp.appliedTransactions → tp.Accepts tx → tp.CreditFits tx) ∧
      CreditsFit (tp.processTransaction tx).1 txs

theorem assetTypeOf_processEach {tp : TransactionProcessor} {id : String} {assetType : AssetType}
    (txs : List SignedTransaction) (h : tp.assetTypeOf id = some assetType) :
    (tp.processEach txs).1.assetTypeOf id = some assetType := by
  obtain ⟨account, hacc, rfl⟩ := Option.map_eq_some_iff.mp h
  obtain ⟨account', hacc', htype⟩ := getAccount_processEach txs hacc
  rw [assetTypeOf, hacc', Option.map_some, htype]

@[simp] theorem assetTypeOf_rollbackTransactions (tp : TransactionProcessor)
    (txs : List SignedTransaction) (id : String) :
    (tp.rollbackTransactions txs).assetTypeOf id = tp.assetTypeOf id := by
  unfold rollbackTransactions
  induction txs.reverse generalizing tp with
  | nil => rfl
  | cons tx rest ih =>
      rw [List.foldl_cons, ih, assetTypeOf_rollbackTransaction]

theorem rollbackTransactions_cons (tp : TransactionProcessor) (tx : SignedTransaction)
    (txs : List SignedTransaction) :
    tp.rollbackTransactions (tx :: txs) =
      (tp.rollbackTransactions txs).rollbackTransaction tx := by
  rw [rollbackTransactions, List.reverse_cons, List.foldl_append]
  rfl

/-- Rolling a transaction back in a state that looks as it did right after the
    transaction was applied. -/
theorem rollbackTransaction_processTransaction {tp current : TransactionProcessor}
    {tx : SignedTransaction} (hnew : tx.txId ∉ tp.appliedTransactions)
    (haccepts : tp.Accepts tx) (hfits : tp.CreditFits tx)
    (hids : current.appliedTransactions = (tp.processTransaction tx).1.appliedTransactions)
    (hbalances : ∀ id, current.balanceOf id = (tp.processTransaction tx).1.balanceOf id)
    (htypes : ∀ id assetType, (tp.processTransaction tx).1.assetTypeOf id = some assetType →
      current.assetTypeOf id = some assetType) :
    (current.rollbackTransaction tx).appliedTransactions = tp.appliedTransactions ∧
      ∀ id, (current.rollbackTransaction tx).balanceOf id = tp.balanceOf id := by
  rcases processTransaction_cases hnew with ⟨hnot, -⟩ | ⟨-, -, happlied, -⟩
  · exact absurd haccepts hnot
  rw [happlied] at hids
  have hbalances' : current.balanceOf = tx.move.apply tp.balanceOf := by
    funext id
    rw [hbalances, balanceOf_processTransaction hnew haccepts hfits]
  have hundo : tx.move.undo current.balanceOf = tp.balanceOf := by
    rw [hbalances', Move.undo_apply haccepts.funded_move]
  have hmem : tx.txId ∈ current.appliedTransactions := by
    rw [hids]
    exact Finset.mem_insert_self _ _
  have hrefund : current.RefundFits tx := by
    rw [RefundFits, hundo]
    exact tp.balanceOf_lt _
  constructor
  · rw [appliedTransactions_rollbackTransaction, hids, Finset.erase_insert hnew]
  · intro id
    rw [balanceOf_rollbackTransaction hmem
      ((standing_processTransaction hnew haccepts).mono htypes) hrefund, hundo]

/-- Processing new transactions, whatever becomes of each, and rolling the same
    list back gives the applied ids and the balances there were before. -/
theorem rollbackTransactions_processEach {tp : TransactionProcessor}
    {txs : List SignedTransaction} (hfresh : tp.Fresh txs) (hfits : tp.CreditsFit txs) :
    ((tp.processEach txs).1.rollbackTransactions txs).appliedTransactions =
        tp.appliedTransactions ∧
      ∀ id, ((tp.processEach txs).1.rollbackTransactions txs).balanceOf id = tp.balanceOf id := by
  induction txs generalizing tp with
  | nil => exact ⟨rfl, fun _ => rfl⟩
  | cons tx txs ih =>
      have hnew := hfresh.2 tx List.mem_cons_self
      have hprocess : (tp.processEach (tx :: txs)).1 =
          ((tp.processTransaction tx).1.processEach txs).1 := rfl
      rw [rollbackTransactions_cons, hprocess]
      rcases processTransaction_cases hnew with ⟨-, e, heq⟩ | ⟨haccepts, -, happlied, -⟩
      · -- A refused transaction changed nothing and is skipped on the way back.
        have hrest : tp.Fresh txs :=
          ⟨(List.nodup_cons.mp hfresh.1).2,
            fun other hmem => hfresh.2 other (List.mem_cons_of_mem tx hmem)⟩
        have hfits' := hfits.2
        rw [heq] at hfits' ⊢
        obtain ⟨hids, hbalances⟩ := ih hrest hfits'
        rw [rollbackTransaction, if_pos (hids ▸ hnew)]
        exact ⟨hids, hbalances⟩
      · -- An applied one finds its accounts as it left them.
        obtain ⟨hids, hbalances⟩ := ih (hfresh.tail happlied) hfits.2
        apply rollbackTransaction_processTransaction hnew haccepts (hfits.1 hnew haccepts) hids
          hbalances
        intro id assetType htype
        rw [assetTypeOf_rollbackTransactions]
        exact assetTypeOf_processEach txs htype

end TransactionProcessor

namespace Reference

/-- A deposit, a payment out of it, a payment without an account, and a payment
    of a client to itself. -/
def mixed : List SignedTransaction :=
  [deposit, clientTx [5] (.send "06" 4 .btc), clientTx [7] (.send "05" 1 .btc),
    clientTx [5] (.send "05" 3 .btc), clientTx [6] (.send "05" 2 .btc)]

end Reference

namespace TransactionProcessor

theorem rollbackTransactions_processEach_mixed :
    (default.processEach Reference.mixed).2.map Except.isOk = [true, true, false, true, true] ∧
      ((default.processEach Reference.mixed).1.rollbackTransactions
          Reference.mixed).appliedTransactions = ∅ ∧
      ∀ id, ((default.processEach Reference.mixed).1.rollbackTransactions
        Reference.mixed).balanceOf id = 0 := by
  have hfresh : default.Fresh Reference.mixed := ⟨by decide +kernel, by decide +kernel⟩
  have hfits : default.CreditsFit Reference.mixed :=
    ⟨fun _ _ => by decide +kernel, fun _ _ => by decide +kernel, fun _ _ => by decide +kernel,
      fun _ _ => by decide +kernel, fun _ _ => by decide +kernel, trivial⟩
  have hrestored := rollbackTransactions_processEach hfresh hfits
  exact ⟨by decide +kernel, hrestored.1, hrestored.2⟩

end TransactionProcessor
end Rustchain
