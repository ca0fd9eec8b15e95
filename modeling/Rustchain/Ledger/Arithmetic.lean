/-
  Rustchain.Ledger.Arithmetic

  The `u32` arithmetic on balances.

  `operations` lists the additions and subtractions on balances that a call of
  the processor evaluates, in order and with the balances they find; the balances
  after the call are the ones they make (`operations_evaluate`).  A debit is
  checked before it is made and a rollback takes coins back with saturation, so
  neither can leave the type; a credit is not checked, neither the one of a
  transaction nor the one a rolled back `Send` gives its sender.
-/

import Rustchain.Ledger.Conservation

namespace Rustchain

-- ============================================================================
-- Operations on balances
-- ============================================================================

/-- An operation on a balance, with its operands. -/
inductive BalanceOp where
  | add (balance amount : UInt32)
  | sub (balance amount : UInt32)
  | saturatingSub (balance amount : UInt32)
deriving DecidableEq, Repr

namespace BalanceOp

/-- The exact result. -/
def exact : BalanceOp → ℤ
  | add balance amount => balance.toNat + amount.toNat
  | sub balance amount => balance.toNat - amount.toNat
  | saturatingSub balance amount => max (balance.toNat - amount.toNat) 0

/-- The exact result is a `u32`: the operation neither overflows nor underflows. -/
def Fits (op : BalanceOp) : Prop := 0 ≤ op.exact ∧ op.exact < 2 ^ 32

instance (op : BalanceOp) : Decidable op.Fits := inferInstanceAs (Decidable (_ ∧ _))

theorem fits_add {balance amount : UInt32} :
    (add balance amount).Fits ↔ balance.toNat + amount.toNat < 2 ^ 32 := by
  show (0 : ℤ) ≤ balance.toNat + amount.toNat ∧ (balance.toNat + amount.toNat : ℤ) < 2 ^ 32 ↔ _
  omega

theorem fits_sub {balance amount : UInt32} :
    (sub balance amount).Fits ↔ amount ≤ balance := by
  have hbalance := balance.toNat_lt
  rw [UInt32.le_iff_toNat_le]
  show (0 : ℤ) ≤ balance.toNat - amount.toNat ∧ (balance.toNat - amount.toNat : ℤ) < 2 ^ 32 ↔ _
  omega

theorem fits_saturatingSub (balance amount : UInt32) : (saturatingSub balance amount).Fits := by
  have hbalance := balance.toNat_lt
  show (0 : ℤ) ≤ max ((balance.toNat : ℤ) - amount.toNat) 0 ∧
    max ((balance.toNat : ℤ) - amount.toNat) 0 < 2 ^ 32
  omega

/-- The balance that the operation finds. -/
def found : BalanceOp → UInt32
  | add balance _ | sub balance _ | saturatingSub balance _ => balance

/-- The balance that the operation leaves. -/
def value : BalanceOp → UInt32
  | add balance amount => balance + amount
  | sub balance amount => balance - amount
  | saturatingSub balance amount => TransactionProcessor.saturatingSub balance amount

end BalanceOp

/-- The operations, one after the other, take the first accounts to the last: each is
    made on the balance of an account and leaves its value there.  Apart from that,
    accounts are only opened. -/
inductive Evaluates :
    HashMap String Account → List BalanceOp → HashMap String Account → Prop where
  | done (accounts : HashMap String Account) : Evaluates accounts [] accounts
  | opens {accounts accounts' : HashMap String Account} {ops : List BalanceOp} {id : String}
      {account : Account} (hnone : accounts.lookup id = none)
      (hrest : Evaluates (accounts.insert id account) ops accounts') :
      Evaluates accounts ops accounts'
  | evaluates {accounts accounts' : HashMap String Account} {op : BalanceOp}
      {ops : List BalanceOp} {id : String} {account : Account}
      (hsome : accounts.lookup id = some account) (hfound : op.found = account.balance)
      (hrest : Evaluates (accounts.insert id { account with balance := op.value }) ops accounts') :
      Evaluates accounts (op :: ops) accounts'

theorem Evaluates.append {accounts accounts' accounts'' : HashMap String Account}
    {ops ops' : List BalanceOp} (h : Evaluates accounts ops accounts')
    (h' : Evaluates accounts' ops' accounts'') : Evaluates accounts (ops ++ ops') accounts'' := by
  induction h with
  | done => exact h'
  | opens hnone _ ih => exact .opens hnone (ih h')
  | evaluates hsome hfound _ ih => exact .evaluates hsome hfound (ih h')

namespace TransactionProcessor

/-- The operations of `add_coin`: a missing account is created with the amount. -/
def addCoinOps (tp : TransactionProcessor) (id : String) (assetType : AssetType)
    (amount : UInt32) : List BalanceOp :=
  match tp.accounts.lookup id with
  | some account => if account.assetType ≠ assetType then [] else [.add account.balance amount]
  | none => []

/-- The operations of `send_coins`: the debit, and the credit after it. -/
def sendCoinsOps (tp : TransactionProcessor) (id recipient : String) (assetType : AssetType)
    (amount : UInt32) : List BalanceOp :=
  match tp.accounts.lookup id with
  | none => []
  | some senderAccount =>
    if senderAccount.assetType ≠ assetType then []
    else if senderAccount.balance < amount then []
    else
      let transfer := .sub senderAccount.balance amount ::
        (tp.modifyBalance id (· - amount)).addCoinOps recipient assetType amount
      match tp.accounts.lookup recipient with
      | some recipientAccount => if recipientAccount.assetType ≠ assetType then [] else transfer
      | none => transfer

def processTransactionOps (tp : TransactionProcessor) (clientTx : SignedTransaction) :
    List BalanceOp :=
  if clientTx.txId ∈ tp.appliedTransactions then []
  else
    match clientTx.transaction.operation with
    | .addCoin amount assetType => tp.addCoinOps clientTx.signer assetType amount
    | .send recipient amount assetType =>
      tp.sendCoinsOps clientTx.signer recipient assetType amount

/-- The operations of `reverse_add_coin`. -/
def reverseAddCoinOps (tp : TransactionProcessor) (id : String) (amount : UInt32) :
    List BalanceOp :=
  match tp.accounts.lookup id with
  | some account => [.saturatingSub account.balance amount]
  | none => []

/-- The operations of `reverse_send_coins`: the sender is looked up after the recipient
    was debited. -/
def reverseSendCoinsOps (tp : TransactionProcessor) (id recipient : String) (amount : UInt32) :
    List BalanceOp :=
  tp.reverseAddCoinOps recipient amount ++
    match (tp.modifyBalance recipient (saturatingSub · amount)).accounts.lookup id with
    | some senderAccount => [.add senderAccount.balance amount]
    | none => []

def rollbackTransactionOps (tp : TransactionProcessor) (clientTx : SignedTransaction) :
    List BalanceOp :=
  if clientTx.txId ∉ tp.appliedTransactions then []
  else
    match clientTx.transaction.operation with
    | .addCoin amount _ => tp.reverseAddCoinOps clientTx.signer amount
    | .send recipient amount _ => tp.reverseSendCoinsOps clientTx.signer recipient amount

/-- The operations of rolling transactions back one after the other. -/
def rollbackEachOps : TransactionProcessor → List SignedTransaction → List BalanceOp
  | _, [] => []
  | tp, clientTx :: transactions =>
    tp.rollbackTransactionOps clientTx ++
      rollbackEachOps (tp.rollbackTransaction clientTx) transactions

/-- The operations that a call evaluates. -/
def operations (tp : TransactionProcessor) : Call → List BalanceOp
  | .processTransaction tx => tp.processTransactionOps tx
  | .rollbackTransactions txs => tp.rollbackEachOps txs.reverse

-- ============================================================================
-- The operations make the balances
-- ============================================================================

/-- An update in place makes one operation on the balance of the account. -/
theorem modifyBalance_evaluates {tp : TransactionProcessor} {id : String} {account : Account}
    (hget : tp.accounts.lookup id = some account) {op : BalanceOp} {f : UInt32 → UInt32}
    (hfound : op.found = account.balance) (hvalue : op.value = f account.balance) :
    Evaluates tp.accounts [op] (tp.modifyBalance id f).accounts := by
  refine .evaluates hget hfound ?_
  unfold modifyBalance
  simp only [hget, hvalue]
  exact .done _

theorem addCoin_evaluates (tp : TransactionProcessor) (id : String) (assetType : AssetType)
    (amount : UInt32) :
    Evaluates tp.accounts (tp.addCoinOps id assetType amount)
      (tp.addCoin id assetType amount).1.accounts := by
  unfold addCoinOps addCoin
  cases hget : tp.accounts.lookup id with
  | none => exact .opens hget (.done _)
  | some account =>
      by_cases htype : account.assetType ≠ assetType
      · simp only [if_pos htype]
        exact .done _
      · simp only [if_neg htype]
        exact modifyBalance_evaluates hget rfl rfl

theorem sendCoins_evaluates (tp : TransactionProcessor) (id recipient : String)
    (assetType : AssetType) (amount : UInt32) :
    Evaluates tp.accounts (tp.sendCoinsOps id recipient assetType amount)
      (tp.sendCoins id recipient assetType amount).1.accounts := by
  unfold sendCoinsOps sendCoins
  cases hsender : tp.accounts.lookup id with
  | none => exact .done _
  | some sender =>
      by_cases htype : sender.assetType ≠ assetType
      · simp only [if_pos htype]
        exact .done _
      by_cases hfunds : sender.balance < amount
      · simp only [if_neg htype, if_pos hfunds]
        exact .done _
      simp only [if_neg htype, if_neg hfunds]
      have hdebit : Evaluates tp.accounts [.sub sender.balance amount]
          (tp.modifyBalance id (· - amount)).accounts :=
        modifyBalance_evaluates hsender rfl rfl
      have htransfer := hdebit.append (addCoin_evaluates _ recipient assetType amount)
      cases hrecipient : tp.accounts.lookup recipient with
      | none => exact htransfer
      | some account =>
          by_cases hmatch : account.assetType ≠ assetType
          · simp only [if_pos hmatch]
            exact .done _
          · simp only [if_neg hmatch]
            exact htransfer

theorem applyOperation_evaluates (tp : TransactionProcessor) {tx : SignedTransaction}
    (hnew : tx.txId ∉ tp.appliedTransactions) :
    Evaluates tp.accounts (tp.processTransactionOps tx) (tp.applyOperation tx).1.accounts := by
  unfold processTransactionOps applyOperation
  rw [if_neg hnew]
  cases tx.transaction.operation with
  | addCoin amount assetType => exact addCoin_evaluates _ _ _ _
  | send recipient amount assetType => exact sendCoins_evaluates _ _ _ _ _

theorem processTransaction_evaluates (tp : TransactionProcessor) (tx : SignedTransaction) :
    Evaluates tp.accounts (tp.processTransactionOps tx)
      (tp.processTransaction tx).1.accounts := by
  by_cases happlied : tx.txId ∈ tp.appliedTransactions
  · unfold processTransactionOps processTransaction
    rw [if_pos happlied, if_pos happlied]
    exact .done _
  · have happly := tp.applyOperation_evaluates happlied
    unfold processTransaction
    rw [if_neg happlied]
    -- accepted or refused, the accounts are the ones the operation leaves
    rcases hresult : tp.applyOperation tx with ⟨tp', e | ok⟩ <;>
    · rw [hresult] at happly
      exact happly

theorem reverseAddCoin_evaluates (tp : TransactionProcessor) (id : String) (amount : UInt32) :
    Evaluates tp.accounts (tp.reverseAddCoinOps id amount)
      (tp.modifyBalance id (saturatingSub · amount)).accounts := by
  unfold reverseAddCoinOps
  cases hget : tp.accounts.lookup id with
  | none =>
      unfold modifyBalance
      rw [hget]
      exact .done _
  | some account => exact modifyBalance_evaluates hget rfl rfl

theorem reverseSendCoins_evaluates (tp : TransactionProcessor) (id recipient : String)
    (amount : UInt32) :
    Evaluates tp.accounts (tp.reverseSendCoinsOps id recipient amount)
      ((tp.modifyBalance recipient (saturatingSub · amount)).modifyBalance id
        (· + amount)).accounts := by
  refine (tp.reverseAddCoin_evaluates recipient amount).append ?_
  generalize tp.modifyBalance recipient (saturatingSub · amount) = debited
  cases hget : debited.accounts.lookup id with
  | none =>
      unfold modifyBalance
      rw [hget]
      exact .done _
  | some account => exact modifyBalance_evaluates hget rfl rfl

theorem rollbackTransaction_evaluates (tp : TransactionProcessor) (tx : SignedTransaction) :
    Evaluates tp.accounts (tp.rollbackTransactionOps tx) (tp.rollbackTransaction tx).accounts := by
  unfold rollbackTransactionOps rollbackTransaction
  by_cases happlied : tx.txId ∉ tp.appliedTransactions
  · rw [if_pos happlied, if_pos happlied]
    exact .done _
  · rw [if_neg happlied, if_neg happlied]
    -- the operations look at the accounts only
    let erased : TransactionProcessor :=
      { tp with appliedTransactions := tp.appliedTransactions.erase tx.txId }
    cases tx.transaction.operation with
    | addCoin amount _ => exact erased.reverseAddCoin_evaluates tx.signer amount
    | send recipient amount _ =>
        have hops : tp.reverseSendCoinsOps tx.signer recipient amount =
            erased.reverseSendCoinsOps tx.signer recipient amount := by
          unfold reverseSendCoinsOps modifyBalance
          simp only [erased]
          cases tp.accounts.lookup recipient <;> rfl
        show Evaluates _ (tp.reverseSendCoinsOps tx.signer recipient amount) _
        rw [hops]
        exact erased.reverseSendCoins_evaluates tx.signer recipient amount

theorem rollbackEach_evaluates (tp : TransactionProcessor) (txs : List SignedTransaction) :
    Evaluates tp.accounts (tp.rollbackEachOps txs) (txs.foldl rollbackTransaction tp).accounts := by
  induction txs generalizing tp with
  | nil => exact .done _
  | cons tx txs ih => exact (tp.rollbackTransaction_evaluates tx).append (ih _)

/-- The balances after a call are the ones that its operations make. -/
theorem operations_evaluate (tp : TransactionProcessor) (c : Call) :
    Evaluates tp.accounts (tp.operations c) (tp.call c).accounts := by
  cases c with
  | processTransaction tx => exact tp.processTransaction_evaluates tx
  | rollbackTransactions txs => exact tp.rollbackEach_evaluates txs.reverse

-- ============================================================================
-- Transactions
-- ============================================================================

variable {tp : TransactionProcessor}

theorem addCoinOps_fit {id : String} {assetType : AssetType} {amount : UInt32}
    (hmatching : ∀ account, tp.getAccount id = some account → account.assetType = assetType) :
    (∀ op ∈ tp.addCoinOps id assetType amount, op.Fits) ↔
      tp.balanceOf id + amount.toNat < 2 ^ 32 := by
  have hamount := amount.toNat_lt
  unfold addCoinOps balanceOf
  cases hget : tp.getAccount id with
  | none =>
      have hlookup : tp.accounts.lookup id = none := hget
      rw [hlookup]
      refine ⟨fun _ => ?_, fun _ op hmem => by cases hmem⟩
      show 0 + amount.toNat < 2 ^ 32
      omega
  | some account =>
      have hlookup : tp.accounts.lookup id = some account := hget
      rw [hlookup]
      simp only [if_neg (not_not.mpr (hmatching account hget)), List.mem_singleton, forall_eq]
      exact BalanceOp.fits_add

theorem balanceOf_sub {id : String} {account : Account} {amount : UInt32}
    (hget : tp.getAccount id = some account) (hfunds : amount ≤ account.balance) (other : String) :
    (tp.modifyBalance id (· - amount)).balanceOf other =
      tp.balanceOf other - if id = other then amount.toNat else 0 := by
  unfold balanceOf
  rw [getAccount_modifyBalance]
  by_cases heq : id = other
  · subst heq
    rw [if_pos rfl, if_pos rfl, hget]
    exact UInt32.toNat_sub_of_le _ _ hfunds
  · rw [if_neg (Ne.symm heq), if_neg heq]
    rfl

/-- The operations of a transfer that passes the checks. -/
theorem sendCoinsOps_of_checks {id recipient : String} {assetType : AssetType} {amount : UInt32}
    {sender : Account} (hsender : tp.getAccount id = some sender)
    (htype : sender.assetType = assetType) (hfunds : amount ≤ sender.balance)
    (hmatch : ∀ account, tp.getAccount recipient = some account →
      account.assetType = assetType) :
    tp.sendCoinsOps id recipient assetType amount =
      .sub sender.balance amount ::
        (tp.modifyBalance id (· - amount)).addCoinOps recipient assetType amount := by
  have hlookup : tp.accounts.lookup id = some sender := hsender
  unfold sendCoinsOps
  simp only [hlookup, if_neg (not_not.mpr htype), if_neg (UInt32.not_lt.mpr hfunds)]
  cases hrecipient : tp.accounts.lookup recipient with
  | none => rfl
  | some account => simp only [if_neg (not_not.mpr (hmatch account hrecipient))]

/-- A transfer that is refused changes no balance. -/
theorem sendCoinsOps_of_error {id recipient : String} {assetType : AssetType} {amount : UInt32}
    (h : ¬ ((∃ sender, tp.getAccount id = some sender ∧ sender.assetType = assetType ∧
        amount ≤ sender.balance) ∧
      ∀ account, tp.getAccount recipient = some account → account.assetType = assetType)) :
    tp.sendCoinsOps id recipient assetType amount = [] := by
  unfold sendCoinsOps
  split
  · rfl
  rename_i sender hsender
  split
  · rfl
  rename_i htype
  split
  · rfl
  rename_i hfunds
  simp only
  split
  · split
    · rfl
    · rename_i account haccount hmatch
      refine absurd ⟨⟨sender, hsender, not_not.mp htype, UInt32.not_lt.mp hfunds⟩, ?_⟩ h
      intro other hother
      cases haccount.symm.trans hother
      exact not_not.mp hmatch
  · rename_i hnone
    refine absurd ⟨⟨sender, hsender, not_not.mp htype, UInt32.not_lt.mp hfunds⟩, ?_⟩ h
    intro other hother
    cases hnone.symm.trans hother

/-- A deposit that is refused changes no balance. -/
theorem addCoinOps_of_error {id : String} {assetType : AssetType} {amount : UInt32}
    (h : ¬ ∀ account, tp.getAccount id = some account → account.assetType = assetType) :
    tp.addCoinOps id assetType amount = [] := by
  unfold addCoinOps
  split
  · rename_i account hlookup
    split
    · rfl
    · rename_i htype
      refine absurd ?_ h
      intro other hother
      cases hlookup.symm.trans hother
      exact not_not.mp htype
  · rfl

/-- Of a deposit, only the credit can leave the type. -/
theorem addCoinOps_fit_iff {tx : SignedTransaction} {amount : UInt32} {assetType : AssetType}
    (hop : tx.transaction.operation = .addCoin amount assetType) :
    (∀ op ∈ tp.addCoinOps tx.signer assetType amount, op.Fits) ↔
      (tp.Accepts tx → tp.CreditFits tx) := by
  have hcredited : tx.credited = tx.signer := by simp only [SignedTransaction.credited, hop]
  have hasset : tx.assetType = assetType := by simp only [SignedTransaction.assetType, hop]
  have hsend : tx.isSend = false := by simp only [SignedTransaction.isSend, hop]
  have hamount : tx.amount = amount := by simp only [SignedTransaction.amount, hop]
  by_cases hmatching : ∀ account, tp.getAccount tx.signer = some account →
      account.assetType = assetType
  · have haccepts : tp.Accepts tx :=
      ⟨fun h => (by rw [hsend] at h; cases h), by rw [hcredited, hasset]; exact hmatching⟩
    have hcredit : tp.CreditFits tx ↔ tp.balanceOf tx.signer + amount.toNat < 2 ^ 32 := by
      unfold CreditFits Move.apply SignedTransaction.move
      simp only [hsend, hcredited, hamount, Bool.false_eq_true, if_false, if_true, reduceCtorEq,
        Nat.sub_zero]
    rw [addCoinOps_fit hmatching, hcredit]
    exact ⟨fun h _ => h, fun h => h haccepts⟩
  · -- The account holds another asset: nothing is evaluated, nothing accepted.
    rw [addCoinOps_of_error hmatching]
    refine ⟨fun _ haccepts => ?_, fun _ op hmem => by cases hmem⟩
    have hmatch := haccepts.matching
    rw [hcredited, hasset] at hmatch
    exact absurd hmatch hmatching

/-- Of a transfer, only the credit of the recipient can leave the type. -/
theorem sendCoinsOps_fit_iff {tx : SignedTransaction} {recipient : String} {amount : UInt32}
    {assetType : AssetType} (hop : tx.transaction.operation = .send recipient amount assetType) :
    (∀ op ∈ tp.sendCoinsOps tx.signer recipient assetType amount, op.Fits) ↔
      (tp.Accepts tx → tp.CreditFits tx) := by
  have hcredited : tx.credited = recipient := by simp only [SignedTransaction.credited, hop]
  have hasset : tx.assetType = assetType := by simp only [SignedTransaction.assetType, hop]
  have hsend : tx.isSend = true := by simp only [SignedTransaction.isSend, hop]
  have hamount : tx.amount = amount := by simp only [SignedTransaction.amount, hop]
  by_cases hchecks : (∃ sender, tp.getAccount tx.signer = some sender ∧
      sender.assetType = assetType ∧ amount ≤ sender.balance) ∧
    ∀ account, tp.getAccount recipient = some account → account.assetType = assetType
  · have haccepts : tp.Accepts tx :=
      ⟨fun _ => by rw [hasset, hamount]; exact hchecks.1,
        by rw [hcredited, hasset]; exact hchecks.2⟩
    obtain ⟨⟨sender, hsender, htype, hfunds⟩, hmatch⟩ := hchecks
    have hmatch' : ∀ account, (tp.modifyBalance tx.signer (· - amount)).getAccount recipient =
        some account → account.assetType = assetType := by
      intro account hget
      have htypes := assetTypeOf_modifyBalance tp tx.signer (· - amount) recipient
      rw [assetTypeOf, hget, assetTypeOf] at htypes
      obtain ⟨other, hother, heq⟩ := Option.map_eq_some_iff.mp htypes.symm
      rw [← heq]
      exact hmatch other hother
    have hcredit : tp.CreditFits tx ↔
        tp.balanceOf recipient - (if tx.signer = recipient then amount.toNat else 0) +
          amount.toNat < 2 ^ 32 := by
      unfold CreditFits Move.apply SignedTransaction.move
      simp only [hsend, hcredited, hamount, if_true, Option.some.injEq]
    rw [sendCoinsOps_of_checks hsender htype hfunds hmatch, List.forall_mem_cons,
      BalanceOp.fits_sub, addCoinOps_fit hmatch', balanceOf_sub hsender hfunds, hcredit]
    exact ⟨fun h _ => h.2, fun h => ⟨hfunds, h haccepts⟩⟩
  · rw [sendCoinsOps_of_error hchecks]
    refine ⟨fun _ haccepts => ?_, fun _ op hmem => by cases hmem⟩
    refine absurd ⟨?_, ?_⟩ hchecks
    · have hfunded := haccepts.funded hsend
      rwa [hasset, hamount] at hfunded
    · have hmatch := haccepts.matching
      rwa [hcredited, hasset] at hmatch

/-- A transaction that is refused changes no balance; one that is accepted evaluates
    nothing that could leave the type but the credit. -/
theorem processTransactionOps_fit (tp : TransactionProcessor) (tx : SignedTransaction) :
    (∀ op ∈ tp.processTransactionOps tx, op.Fits) ↔ tp.CallFits (.processTransaction tx) := by
  show _ ↔ (tx.txId ∉ tp.appliedTransactions → tp.Accepts tx → tp.CreditFits tx)
  unfold processTransactionOps
  by_cases happlied : tx.txId ∈ tp.appliedTransactions
  · rw [if_pos happlied]
    exact ⟨fun _ hnew => absurd happlied hnew, fun _ op hmem => by cases hmem⟩
  rw [if_neg happlied, forall_prop_of_true happlied]
  cases hop : tx.transaction.operation with
  | addCoin amount assetType => exact addCoinOps_fit_iff hop
  | send recipient amount assetType => exact sendCoinsOps_fit_iff hop

-- ============================================================================
-- Rollbacks
-- ============================================================================

theorem reverseAddCoinOps_fit (tp : TransactionProcessor) (id : String) (amount : UInt32) :
    ∀ op ∈ tp.reverseAddCoinOps id amount, op.Fits := by
  intro op hmem
  unfold reverseAddCoinOps at hmem
  split at hmem
  · rw [List.mem_singleton.mp hmem]
    exact BalanceOp.fits_saturatingSub _ _
  · cases hmem

/-- Only the sender that gets its coins back can get too many. -/
theorem reverseSendCoinsOps_fit (tp : TransactionProcessor) (id recipient : String)
    (amount : UInt32) :
    (∀ op ∈ tp.reverseSendCoinsOps id recipient amount, op.Fits) ↔
      tp.balanceOf id - (if recipient = id then amount.toNat else 0) + amount.toNat < 2 ^ 32 := by
  have hamount := amount.toNat_lt
  unfold reverseSendCoinsOps
  rw [List.forall_mem_append, ← balanceOf_debit]
  generalize tp.modifyBalance recipient (saturatingSub · amount) = debited
  unfold balanceOf
  cases hget : debited.getAccount id with
  | none =>
      have hlookup : debited.accounts.lookup id = none := hget
      rw [hlookup]
      refine ⟨fun _ => ?_, fun _ => ⟨reverseAddCoinOps_fit _ _ _, fun op hmem => by cases hmem⟩⟩
      show 0 + amount.toNat < 2 ^ 32
      omega
  | some account =>
      have hlookup : debited.accounts.lookup id = some account := hget
      rw [hlookup]
      simp only [List.mem_singleton, forall_eq]
      rw [BalanceOp.fits_add]
      exact ⟨fun h => h.2, fun h => ⟨reverseAddCoinOps_fit _ _ _, h⟩⟩

theorem rollbackTransactionOps_fit (tp : TransactionProcessor) (tx : SignedTransaction) :
    (∀ op ∈ tp.rollbackTransactionOps tx, op.Fits) ↔
      (tx.txId ∈ tp.appliedTransactions → tp.RefundFits tx) := by
  unfold rollbackTransactionOps
  by_cases happlied : tx.txId ∈ tp.appliedTransactions
  · rw [if_neg (not_not.mpr happlied)]
    cases hop : tx.transaction.operation with
    | addCoin amount assetType =>
        have hsend : tx.isSend = false := by simp only [SignedTransaction.isSend, hop]
        refine ⟨fun _ _ => ?_, fun _ => reverseAddCoinOps_fit _ _ _⟩
        have hlt := tp.balanceOf_lt tx.signer
        unfold RefundFits Move.undo SignedTransaction.move
        simp only [hsend, Bool.false_eq_true, if_false, reduceCtorEq, Nat.add_zero]
        omega
    | send recipient amount assetType =>
        have hcredited : tx.credited = recipient := by simp only [SignedTransaction.credited, hop]
        have hsend : tx.isSend = true := by simp only [SignedTransaction.isSend, hop]
        have hamount : tx.amount = amount := by simp only [SignedTransaction.amount, hop]
        have hrefund : tp.RefundFits tx ↔
            tp.balanceOf tx.signer - (if recipient = tx.signer then amount.toNat else 0) +
              amount.toNat < 2 ^ 32 := by
          unfold RefundFits Move.undo SignedTransaction.move
          simp only [hsend, hcredited, hamount, if_true]
        show (∀ op ∈ tp.reverseSendCoinsOps tx.signer recipient amount, op.Fits) ↔ _
        rw [reverseSendCoinsOps_fit, hrefund]
        exact ⟨fun h _ => h, fun h => h happlied⟩
  · rw [if_pos happlied]
    exact ⟨fun _ h => absurd h happlied, fun _ op hmem => by cases hmem⟩

theorem rollbackEachOps_fit (tp : TransactionProcessor) (txs : List SignedTransaction) :
    (∀ op ∈ tp.rollbackEachOps txs, op.Fits) ↔ tp.RefundsFit txs := by
  induction txs generalizing tp with
  | nil => exact ⟨fun _ => trivial, fun _ op hmem => by cases hmem⟩
  | cons tx txs ih =>
      rw [rollbackEachOps, List.forall_mem_append, rollbackTransactionOps_fit, ih]
      rfl

-- ============================================================================
-- Runs
-- ============================================================================

/-- The call evaluates no operation on a balance that overflows or underflows, and a
    transaction that is refused leaves the state as it was. -/
def StaysInU32 (tp : TransactionProcessor) (c : Call) : Prop :=
  (∀ op ∈ tp.operations c, op.Fits) ∧
    ∀ tx e, c = .processTransaction tx → (tp.processTransaction tx).2 = .error e → tp.call c = tp

theorem processTransaction_of_error {tx : SignedTransaction} {e : TransactionValidationError}
    (h : (tp.processTransaction tx).2 = .error e) : (tp.processTransaction tx).1 = tp := by
  rcases processTransaction_eq_or tp tx with hnoop | ⟨hnew, haccepts, -⟩
  · exact hnoop
  · rcases processTransaction_cases hnew with ⟨hnot, -⟩ | ⟨-, hok, -⟩
    · exact absurd haccepts hnot
    · rw [hok] at h
      cases h

/-- In every state that calls lead to, the arithmetic of the next call stays in `u32`
    exactly when the credits it makes fit. -/
theorem staysInU32_iff (calls : List Call) (next : Call) :
    (default.callAll calls).StaysInU32 next ↔ (default.callAll calls).CallFits next := by
  generalize default.callAll calls = tp
  have hrefused : ∀ tx e, next = .processTransaction tx →
      (tp.processTransaction tx).2 = .error e → tp.call next = tp := by
    rintro tx e rfl herror
    exact processTransaction_of_error herror
  have hoperations : (∀ op ∈ tp.operations next, op.Fits) ↔ tp.CallFits next := by
    cases next with
    | processTransaction tx => exact tp.processTransactionOps_fit tx
    | rollbackTransactions txs => exact tp.rollbackEachOps_fit txs.reverse
  exact ⟨fun h => hoperations.mp h.1, fun h => ⟨hoperations.mpr h, hrefused⟩⟩

end TransactionProcessor

namespace Reference

/-- A deposit of the given amount, always to the same account. -/
def depositOf (amount : UInt32) : SignedTransaction := clientTx [5] (.addCoin amount .btc)

/-- The reference platform writes numbers in unary. -/
theorem length_signature_depositOf (amount : UInt32) :
    (depositOf amount).signature.length = amount.toNat + 6 := by
  show ([5] ++ (([0] ++ ((List.replicate amount.toNat 1 ++ [0]) ++ [0])) ++ ([0] ++ [0])) :
    Bytes).length = _
  simp

theorem txId_depositOf_ne {amount amount' : UInt32} (h : amount ≠ amount') :
    (depositOf amount).txId ≠ (depositOf amount').txId := by
  have hlength : ∀ bytes : Bytes, (hexEncode bytes).toList.length = 2 * bytes.length := by
    intro bytes
    rw [hexEncode, String.toList_ofList]
    induction bytes with
    | nil => rfl
    | cons b bytes ih =>
        rw [List.flatMap_cons, List.length_append, ih, List.length_cons]
        show 2 + 2 * bytes.length = 2 * (bytes.length + 1)
        omega
  intro heq
  have hsame := congrArg (fun id : String => id.toList.length) heq
  simp only [SignedTransaction.txId, hlength, length_signature_depositOf] at hsame
  exact h (UInt32.toNat_inj.mp (by omega))

end Reference

namespace TransactionProcessor

/-- A second deposit takes the largest balance out of the type: it is not refused. -/
theorem staysInU32_fails :
    let tp := default.callAll [.processTransaction (Reference.depositOf (2 ^ 32 - 1))]
    ¬ tp.StaysInU32 (.processTransaction (Reference.depositOf 1)) ∧
      (tp.processTransaction (Reference.depositOf 1)).2 = .ok () ∧
      tp.balanceOf (Reference.depositOf 1).signer = 2 ^ 32 - 1 := by
  intro tp
  have haccepts : default.Accepts (Reference.depositOf (2 ^ 32 - 1)) := by
    refine ⟨?_, ?_⟩
    · intro hsend
      cases hsend
    · intro account hget
      cases hget
  have hnew : (Reference.depositOf (2 ^ 32 - 1)).txId ∉ default.appliedTransactions :=
    Finset.notMem_empty _
  have hfits : default.CreditFits (Reference.depositOf (2 ^ 32 - 1)) := by decide
  have hbalance : tp.balanceOf (Reference.depositOf 1).signer = 2 ^ 32 - 1 := by
    show (default.processTransaction (Reference.depositOf (2 ^ 32 - 1))).1.balanceOf _ = _
    rw [balanceOf_processTransaction hnew haccepts hfits]
    decide
  have hnew' : (Reference.depositOf 1).txId ∉ tp.appliedTransactions := by
    rcases processTransaction_cases hnew with ⟨hnot, -⟩ | ⟨-, -, happlied, -⟩
    · exact absurd haccepts hnot
    · show _ ∉ (default.processTransaction _).1.appliedTransactions
      rw [happlied]
      intro hmem
      rcases Finset.mem_insert.mp hmem with heq | hmem
      · exact Reference.txId_depositOf_ne (by decide) heq
      · cases hmem
  have haccepts' : tp.Accepts (Reference.depositOf 1) := by
    refine ⟨?_, ?_⟩
    · intro hsend
      cases hsend
    · intro account hget
      have htype := (standing_processTransaction hnew haccepts).credited
      change (tp.getAccount (Reference.depositOf 1).credited).map _ = _ at htype
      rw [hget] at htype
      exact Option.some.inj htype
  refine ⟨?_, ?_, hbalance⟩
  · rintro ⟨hops, -⟩
    have hcredit := (tp.processTransactionOps_fit _).mp hops hnew' haccepts'
    change tp.balanceOf (Reference.depositOf 1).signer + 1 < 2 ^ 32 at hcredit
    omega
  · rcases processTransaction_cases hnew' with ⟨hnot, -⟩ | ⟨-, hok, -⟩
    · exact absurd haccepts' hnot
    · exact hok

end TransactionProcessor

end Rustchain
