/-
  Rustchain.Ledger.Replay

  What a sequence of transactions does to the accounts, independently of the
  order in which they are applied.

  An accepted transaction changes the balance of two accounts at most, by an
  amount that does not depend on the state (`net`), and creates the account it
  credits.  So the accounts after a sequence that is accepted throughout are a
  sum over the sequence (`accountsAfter`), and whether it is accepted throughout
  comes down to one condition on each `Send` (`FundedInOrder`).
-/

import Mathlib.Algebra.BigOperators.Group.List.Basic
import Mathlib.Data.UInt
import Rustchain.Ledger.Processor

namespace Rustchain

-- ============================================================================
-- Transactions as changes of balances
-- ============================================================================

namespace SignedTransaction

def amount (tx : SignedTransaction) : UInt32 :=
  match tx.transaction.operation with
  | .addCoin amount _ => amount
  | .send _ amount _ => amount

def assetType (tx : SignedTransaction) : AssetType :=
  match tx.transaction.operation with
  | .addCoin _ assetType => assetType
  | .send _ _ assetType => assetType

/-- The account the coins go to. -/
def credited (tx : SignedTransaction) : String :=
  match tx.transaction.operation with
  | .addCoin .. => tx.signer
  | .send recipient _ _ => recipient

def isSend (tx : SignedTransaction) : Bool :=
  match tx.transaction.operation with
  | .addCoin .. => false
  | .send .. => true

/-- What the transaction adds to the balance of an account, modulo `2^32`. -/
def net (tx : SignedTransaction) (id : String) : UInt32 :=
  (if tx.credited = id then tx.amount else 0) -
    (if tx.isSend = true ∧ tx.signer = id then tx.amount else 0)

end SignedTransaction

namespace TransactionProcessor

/-- The condition under which `process_transaction` accepts a new transaction. -/
structure Accepts (tp : TransactionProcessor) (tx : SignedTransaction) : Prop where
  funded : tx.isSend = true → ∃ account, tp.getAccount tx.signer = some account ∧
    account.assetType = tx.assetType ∧ tx.amount ≤ account.balance
  matching : ∀ account, tp.getAccount tx.credited = some account →
    account.assetType = tx.assetType

/-- An account after an accepted transaction. -/
def accountAfter (tx : SignedTransaction) (id : String) : Option Account → Option Account
  | some account => some { account with balance := account.balance + tx.net id }
  | none =>
    if tx.credited = id then some { assetType := tx.assetType, balance := tx.net id } else none

theorem getAccount_modifyBalance (tp : TransactionProcessor) (id : String) (f : UInt32 → UInt32)
    (other : String) :
    (tp.modifyBalance id f).getAccount other =
      if other = id then
        (tp.getAccount other).map fun account => { account with balance := f account.balance }
      else tp.getAccount other := by
  unfold modifyBalance getAccount
  cases hid : tp.accounts.lookup id with
  | none =>
      by_cases heq : other = id
      · rw [if_pos heq, heq, hid, Option.map_none]
      · rw [if_neg heq]
  | some account =>
      by_cases heq : other = id
      · rw [if_pos heq, heq, hid]
        exact AList.lookup_insert _
      · rw [if_neg heq]
        exact AList.lookup_insert_ne heq

@[simp] theorem modifyBalance_applied (tp : TransactionProcessor) (id : String)
    (f : UInt32 → UInt32) :
    (tp.modifyBalance id f).appliedTransactions = tp.appliedTransactions := by
  unfold modifyBalance
  split <;> rfl

/-- `add_coin` is accepted when the account is new or of the same asset type. -/
theorem addCoin_cases (tp : TransactionProcessor) (id : String) (assetType : AssetType)
    (amount : UInt32) :
    (∃ account, tp.getAccount id = some account ∧ account.assetType ≠ assetType ∧
        tp.addCoin id assetType amount =
          (tp, .error (.assetMismatch id account.assetType assetType))) ∨
      ((∀ account, tp.getAccount id = some account → account.assetType = assetType) ∧
        (tp.addCoin id assetType amount).2 = .ok () ∧
        (tp.addCoin id assetType amount).1.appliedTransactions = tp.appliedTransactions ∧
        ∀ other, (tp.addCoin id assetType amount).1.getAccount other =
          if other = id then
            some (match tp.getAccount id with
              | some account => { account with balance := account.balance + amount }
              | none => { assetType, balance := amount })
          else tp.getAccount other) := by
  cases hid : tp.getAccount id with
  | none =>
      have hlookup : tp.accounts.lookup id = none := hid
      refine Or.inr ⟨(fun _ h => by cases h), ?_⟩
      simp only [addCoin, hlookup, true_and]
      intro other
      simp only [getAccount]
      split
      · rename_i heq
        rw [heq, AList.lookup_insert]
      · rename_i hne
        exact AList.lookup_insert_ne hne
  | some account =>
      have hlookup : tp.accounts.lookup id = some account := hid
      by_cases htype : account.assetType = assetType
      · refine Or.inr ⟨?_, ?_⟩
        · intro account' h
          cases h
          exact htype
        · simp only [addCoin, hlookup, htype, ne_eq, not_true_eq_false, if_false,
            modifyBalance_applied, true_and]
          intro other
          rw [getAccount_modifyBalance]
          split
          · rename_i heq
            rw [heq, hid, ← htype]
            rfl
          · rfl
      · refine Or.inl ⟨account, rfl, htype, ?_⟩
        simp only [addCoin, hlookup, ne_eq, htype, not_false_eq_true, if_true]

/-- `send_coins` with every check passed. -/
theorem sendCoins_of_checks {tp : TransactionProcessor} {id recipient : String}
    {assetType : AssetType} {amount : UInt32} {sender : Account}
    (hsender : tp.getAccount id = some sender) (htype : sender.assetType = assetType)
    (hfunds : amount ≤ sender.balance)
    (hmatch : ∀ account, tp.getAccount recipient = some account →
      account.assetType = assetType) :
    tp.sendCoins id recipient assetType amount =
      (tp.modifyBalance id (· - amount)).addCoin recipient assetType amount := by
  have hlookup : tp.accounts.lookup id = some sender := hsender
  simp only [sendCoins, hlookup, htype, ne_eq, not_true_eq_false, if_false,
    UInt32.not_lt.mpr hfunds]
  split
  · rename_i account hrecipient
    rw [if_neg (not_not.mpr (hmatch account hrecipient))]
  · rfl

/-- `send_coins` is accepted when the sender has the coins and the recipient, if
    it has an account, the same asset type. -/
theorem sendCoins_cases (tp : TransactionProcessor) (id recipient : String)
    (assetType : AssetType) (amount : UInt32) :
    (¬ ((∃ sender, tp.getAccount id = some sender ∧ sender.assetType = assetType ∧
          amount ≤ sender.balance) ∧
        ∀ account, tp.getAccount recipient = some account → account.assetType = assetType) ∧
      ∃ e, tp.sendCoins id recipient assetType amount = (tp, .error e)) ∨
    (∃ sender, tp.getAccount id = some sender ∧ sender.assetType = assetType ∧
      amount ≤ sender.balance ∧
      (∀ account, tp.getAccount recipient = some account → account.assetType = assetType) ∧
      tp.sendCoins id recipient assetType amount =
        (tp.modifyBalance id (· - amount)).addCoin recipient assetType amount) := by
  cases hsender : tp.getAccount id with
  | none =>
      have hlookup : tp.accounts.lookup id = none := hsender
      refine Or.inl ⟨?_, .accountNotFound id, ?_⟩
      · rintro ⟨⟨sender, h, -⟩, -⟩
        cases h
      · simp only [sendCoins, hlookup]
  | some sender =>
      have hlookup : tp.accounts.lookup id = some sender := hsender
      by_cases htype : sender.assetType = assetType
      · by_cases hfunds : amount ≤ sender.balance
        · by_cases hmatch : ∀ account, tp.getAccount recipient = some account →
              account.assetType = assetType
          · exact Or.inr ⟨sender, rfl, htype, hfunds, hmatch,
              sendCoins_of_checks hsender htype hfunds hmatch⟩
          · obtain ⟨account, hrecipient, hother⟩ : ∃ account,
                tp.getAccount recipient = some account ∧ account.assetType ≠ assetType := by
              simpa only [not_forall, exists_prop] using hmatch
            have hlookup' : tp.accounts.lookup recipient = some account := hrecipient
            refine Or.inl ⟨fun h => hmatch h.2,
              .assetMismatch recipient account.assetType assetType, ?_⟩
            simp only [sendCoins, hlookup, htype, ne_eq, not_true_eq_false, if_false,
              UInt32.not_lt.mpr hfunds, hlookup', hother, not_false_eq_true, if_true]
        · refine Or.inl ⟨?_, .insufficientFunds id sender.balance amount, ?_⟩
          · rintro ⟨⟨sender', h, -, hle⟩, -⟩
            cases h
            exact hfunds hle
          · simp only [sendCoins, hlookup, htype, ne_eq, not_true_eq_false, if_false,
              UInt32.not_le.mp hfunds, if_true]
      · refine Or.inl ⟨?_, .assetMismatch id sender.assetType assetType, ?_⟩
        · rintro ⟨⟨sender', h, hmatch, -⟩, -⟩
          cases h
          exact htype hmatch
        · simp only [sendCoins, hlookup, ne_eq, htype, not_false_eq_true, if_true]

/-- An `AddCoin` is accepted or refused as a whole. -/
theorem applyOperation_addCoin_cases (tp : TransactionProcessor) {tx : SignedTransaction}
    {amount : UInt32} {assetType : AssetType}
    (hop : tx.transaction.operation = .addCoin amount assetType) :
    (¬ tp.Accepts tx ∧ ∃ e, tp.applyOperation tx = (tp, .error e)) ∨
      (tp.Accepts tx ∧ (tp.applyOperation tx).2 = .ok () ∧
        (tp.applyOperation tx).1.appliedTransactions = tp.appliedTransactions ∧
        ∀ id, (tp.applyOperation tx).1.getAccount id = accountAfter tx id (tp.getAccount id)) := by
  have hcredited : tx.credited = tx.signer := by simp only [SignedTransaction.credited, hop]
  have hasset : tx.assetType = assetType := by simp only [SignedTransaction.assetType, hop]
  have hsend : tx.isSend = false := by simp only [SignedTransaction.isSend, hop]
  have hnet : ∀ id, tx.net id = if tx.signer = id then amount else 0 := by
    intro id
    simp [SignedTransaction.net, hcredited, hsend, SignedTransaction.amount, hop]
  simp only [applyOperation, hop]
  rcases addCoin_cases tp tx.signer assetType amount with
    ⟨account, hacc, htype, heq⟩ | ⟨htype, hok, happlied, hget⟩
  · refine Or.inl ⟨?_, _, heq⟩
    intro haccepts
    exact htype ((haccepts.matching account (by rw [hcredited, hacc])).trans hasset)
  · refine Or.inr ⟨⟨?_, ?_⟩, hok, happlied, ?_⟩
    · intro h
      rw [hsend] at h
      cases h
    · intro account hacc
      rw [hasset]
      exact htype account (hcredited ▸ hacc)
    · intro id
      rw [hget]
      by_cases hid : id = tx.signer
      · subst hid
        rw [if_pos rfl]
        cases hacc : tp.getAccount tx.signer <;>
          simp [accountAfter, hnet, hcredited, hasset]
      · have hne : tx.signer ≠ id := fun h => hid h.symm
        rw [if_neg hid]
        cases hacc : tp.getAccount id <;>
          simp [accountAfter, hnet, hcredited, hne]

/-- A `Send` is accepted or refused as a whole. -/
theorem applyOperation_send_cases (tp : TransactionProcessor) {tx : SignedTransaction}
    {recipient : String} {amount : UInt32} {assetType : AssetType}
    (hop : tx.transaction.operation = .send recipient amount assetType) :
    (¬ tp.Accepts tx ∧ ∃ e, tp.applyOperation tx = (tp, .error e)) ∨
      (tp.Accepts tx ∧ (tp.applyOperation tx).2 = .ok () ∧
        (tp.applyOperation tx).1.appliedTransactions = tp.appliedTransactions ∧
        ∀ id, (tp.applyOperation tx).1.getAccount id = accountAfter tx id (tp.getAccount id)) := by
  have hcredited : tx.credited = recipient := by simp only [SignedTransaction.credited, hop]
  have hasset : tx.assetType = assetType := by simp only [SignedTransaction.assetType, hop]
  have hsend : tx.isSend = true := by simp only [SignedTransaction.isSend, hop]
  have hamount : tx.amount = amount := by simp only [SignedTransaction.amount, hop]
  have hnet : ∀ id, tx.net id = (if recipient = id then amount else 0) -
      (if tx.signer = id then amount else 0) := by
    intro id
    simp [SignedTransaction.net, hcredited, hsend, hamount]
  simp only [applyOperation, hop]
  rcases sendCoins_cases tp tx.signer recipient assetType amount with
    ⟨hnot, e, heq⟩ | ⟨sender, hsender, htype, hfunds, hmatch, heq⟩
  · refine Or.inl ⟨?_, e, heq⟩
    intro haccepts
    obtain ⟨sender, hsender, htype, hfunds⟩ := haccepts.funded hsend
    refine hnot ⟨⟨sender, hsender, htype.trans hasset, hamount ▸ hfunds⟩, ?_⟩
    intro account hacc
    exact (haccepts.matching account (hcredited ▸ hacc)).trans hasset
  · rw [heq]
    -- The debit leaves asset types and the set of accounts as they are.
    have hdebit := getAccount_modifyBalance tp tx.signer (· - amount)
    have hmatch' : ∀ account,
        (tp.modifyBalance tx.signer (· - amount)).getAccount recipient = some account →
          account.assetType = assetType := by
      intro account hacc
      rw [hdebit] at hacc
      split at hacc
      · obtain ⟨account', hacc', rfl⟩ := Option.map_eq_some_iff.mp hacc
        exact hmatch account' hacc'
      · exact hmatch account hacc
    rcases addCoin_cases (tp.modifyBalance tx.signer (· - amount)) recipient assetType amount
      with ⟨account, hacc, hne, -⟩ | ⟨-, hok, happlied, hget⟩
    · exact absurd (hmatch' account hacc) hne
    refine Or.inr ⟨⟨?_, ?_⟩, hok, by rw [happlied, modifyBalance_applied], ?_⟩
    · intro _
      exact ⟨sender, hsender, htype.trans hasset.symm, hamount ▸ hfunds⟩
    · intro account hacc
      exact (hmatch account (hcredited ▸ hacc)).trans hasset.symm
    · intro id
      rw [hget, hdebit, hdebit]
      by_cases hid : id = tx.signer
      · subst hid
        by_cases hself : recipient = tx.signer
        · simp only [hself, if_true, hsender, Option.map_some, accountAfter, hnet,
            sub_add_cancel, sub_self, add_zero]
        · have hself' : tx.signer ≠ recipient := fun h => hself h.symm
          simp only [hself, hself', if_true, if_false, hsender, Option.map_some, accountAfter,
            hnet, sub_eq_add_neg, zero_add]
      · have hid' : tx.signer ≠ id := fun h => hid h.symm
        by_cases hrec : id = recipient
        · subst hrec
          simp only [hid, hid', if_true, if_false, accountAfter, hnet, hcredited, hasset]
          cases tp.getAccount id <;> simp
        · have hrec' : recipient ≠ id := fun h => hrec h.symm
          simp only [hid, hid', hrec, hrec', if_false, accountAfter, hnet, hcredited]
          cases tp.getAccount id <;> simp

theorem applyOperation_cases (tp : TransactionProcessor) (tx : SignedTransaction) :
    (¬ tp.Accepts tx ∧ ∃ e, tp.applyOperation tx = (tp, .error e)) ∨
      (tp.Accepts tx ∧ (tp.applyOperation tx).2 = .ok () ∧
        (tp.applyOperation tx).1.appliedTransactions = tp.appliedTransactions ∧
        ∀ id, (tp.applyOperation tx).1.getAccount id = accountAfter tx id (tp.getAccount id)) := by
  cases hop : tx.transaction.operation with
  | addCoin amount assetType => exact tp.applyOperation_addCoin_cases hop
  | send recipient amount assetType => exact tp.applyOperation_send_cases hop

/-- `process_transaction` on a transaction that was not applied before. -/
theorem processTransaction_cases {tp : TransactionProcessor} {tx : SignedTransaction}
    (hfresh : tx.txId ∉ tp.appliedTransactions) :
    (¬ tp.Accepts tx ∧ ∃ e, tp.processTransaction tx = (tp, .error e)) ∨
      (tp.Accepts tx ∧ (tp.processTransaction tx).2 = .ok () ∧
        (tp.processTransaction tx).1.appliedTransactions =
          insert tx.txId tp.appliedTransactions ∧
        ∀ id, (tp.processTransaction tx).1.getAccount id =
          accountAfter tx id (tp.getAccount id)) := by
  rcases applyOperation_cases tp tx with ⟨hnot, e, heq⟩ | ⟨haccepts, hok, happlied, hget⟩
  · refine Or.inl ⟨hnot, e, ?_⟩
    rw [processTransaction, if_neg hfresh, heq]
  · have heq : tp.applyOperation tx = ((tp.applyOperation tx).1, .ok ()) := by rw [← hok]
    have hprocess : tp.processTransaction tx =
        ({ (tp.applyOperation tx).1 with
            appliedTransactions := insert tx.txId (tp.applyOperation tx).1.appliedTransactions },
          .ok ()) := by
      rw [processTransaction, if_neg hfresh, heq]
    refine Or.inr ⟨haccepts, ?_, ?_, ?_⟩
    · rw [hprocess]
    · rw [hprocess, happlied]
    · intro id
      rw [hprocess]
      exact hget id

-- ============================================================================
-- Sequences
-- ============================================================================

/-- Processes transactions one after the other and returns all results, as a
    peer does that applies a block: an error does not stop it. -/
def processEach : TransactionProcessor → List SignedTransaction →
    TransactionProcessor × List (Except TransactionValidationError Unit)
  | tp, [] => (tp, [])
  | tp, tx :: txs =>
    let (tp, result) := tp.processTransaction tx
    let (tp, results) := processEach tp txs
    (tp, result :: results)

theorem processEach_fst (txs : List SignedTransaction) (tp : TransactionProcessor) :
    (tp.processEach txs).1 = txs.foldl (fun tp tx => (tp.processTransaction tx).1) tp := by
  induction txs generalizing tp with
  | nil => rfl
  | cons tx txs ih => exact ih (tp.processTransaction tx).1

/-- Every transaction of the sequence is accepted. -/
def AllAccepted (tp : TransactionProcessor) (txs : List SignedTransaction) : Prop :=
  ∀ result ∈ (tp.processEach txs).2, result = .ok ()

theorem allAccepted_cons {tp : TransactionProcessor} {tx : SignedTransaction}
    {txs : List SignedTransaction} :
    tp.AllAccepted (tx :: txs) ↔
      (tp.processTransaction tx).2 = .ok () ∧ (tp.processTransaction tx).1.AllAccepted txs := by
  simp only [AllAccepted, processEach, List.mem_cons, forall_eq_or_imp]

/-- The ids of a sequence are distinct and none of them was applied before. -/
def Fresh (tp : TransactionProcessor) (txs : List SignedTransaction) : Prop :=
  (txs.map SignedTransaction.txId).Nodup ∧ ∀ tx ∈ txs, tx.txId ∉ tp.appliedTransactions

theorem Fresh.tail {tp : TransactionProcessor} {tx : SignedTransaction}
    {txs : List SignedTransaction} (h : tp.Fresh (tx :: txs))
    (happlied : (tp.processTransaction tx).1.appliedTransactions =
      insert tx.txId tp.appliedTransactions) :
    (tp.processTransaction tx).1.Fresh txs := by
  obtain ⟨hnodup, hfresh⟩ := h
  rw [List.map_cons, List.nodup_cons] at hnodup
  refine ⟨hnodup.2, ?_⟩
  intro other hmem
  rw [happlied, Finset.mem_insert, not_or]
  refine ⟨?_, hfresh other (List.mem_cons_of_mem tx hmem)⟩
  intro heq
  exact hnodup.1 (heq ▸ List.mem_map_of_mem hmem)

theorem Fresh.perm {tp : TransactionProcessor} {txs txs' : List SignedTransaction}
    (h : tp.Fresh txs) (hperm : txs.Perm txs') : tp.Fresh txs' :=
  ⟨(hperm.map _).nodup_iff.mp h.1, fun tx hmem => h.2 tx (hperm.mem_iff.mpr hmem)⟩

-- ============================================================================
-- Asset types
-- ============================================================================

/-- Every account has the asset type that `types` gives it. -/
def TypedBy (types : String → AssetType) (tp : TransactionProcessor) : Prop :=
  ∀ id account, tp.getAccount id = some account → account.assetType = types id

/-- The accounts a transaction acts on have its asset type. -/
structure TypedTransaction (types : String → AssetType) (tx : SignedTransaction) : Prop where
  credited : types tx.credited = tx.assetType
  signer : tx.isSend = true → types tx.signer = tx.assetType

/-- A processed transaction, accepted or not, leaves every account in place and
    its asset type as it was. -/
theorem getAccount_processTransaction {tp : TransactionProcessor} (tx : SignedTransaction)
    {id : String} {account : Account} (h : tp.getAccount id = some account) :
    ∃ account', (tp.processTransaction tx).1.getAccount id = some account' ∧
      account'.assetType = account.assetType := by
  by_cases hfresh : tx.txId ∈ tp.appliedTransactions
  · rw [processTransaction, if_pos hfresh]
    exact ⟨account, h, rfl⟩
  · rcases processTransaction_cases hfresh with ⟨-, e, heq⟩ | ⟨-, -, -, hget⟩
    · rw [heq]
      exact ⟨account, h, rfl⟩
    · rw [hget, h]
      exact ⟨_, rfl, rfl⟩

theorem getAccount_processEach {tp : TransactionProcessor} (txs : List SignedTransaction)
    {id : String} {account : Account} (h : tp.getAccount id = some account) :
    ∃ account', (tp.processEach txs).1.getAccount id = some account' ∧
      account'.assetType = account.assetType := by
  induction txs generalizing tp account with
  | nil => exact ⟨account, h, rfl⟩
  | cons tx txs ih =>
      obtain ⟨account', h', htype⟩ := getAccount_processTransaction tx h
      obtain ⟨account'', h'', htype'⟩ := ih h'
      exact ⟨account'', h'', htype'.trans htype⟩

/-- The asset types of the accounts, `BTC` where there is none. -/
def typesOf (tp : TransactionProcessor) (id : String) : AssetType :=
  (tp.getAccount id).elim .btc Account.assetType

theorem typesOf_processEach {tp : TransactionProcessor} (txs : List SignedTransaction)
    {id : String} {account : Account} (h : tp.getAccount id = some account) :
    (tp.processEach txs).1.typesOf id = account.assetType := by
  obtain ⟨account', h', htype⟩ := getAccount_processEach txs h
  rw [typesOf, h']
  exact htype

/-- The asset types at the end of an accepted sequence are those every one of its
    transactions was accepted with. -/
theorem typedTransaction_of_allAccepted {tp : TransactionProcessor}
    {txs : List SignedTransaction} (hfresh : tp.Fresh txs) (h : tp.AllAccepted txs) :
    ∀ tx ∈ txs, TypedTransaction (tp.processEach txs).1.typesOf tx := by
  induction txs generalizing tp with
  | nil => exact fun tx hmem => absurd hmem List.not_mem_nil
  | cons first txs ih =>
      rw [allAccepted_cons] at h
      rcases processTransaction_cases (hfresh.2 first List.mem_cons_self) with
        ⟨-, e, heq⟩ | ⟨haccepts, -, happlied, hget⟩
      · rw [heq] at h
        cases h.1
      intro tx hmem
      rcases List.mem_cons.mp hmem with rfl | hmem
      · constructor
        · -- The credited account exists from here on, with the transaction's type.
          obtain ⟨account, hacc, htype⟩ : ∃ account,
              (tp.processTransaction tx).1.getAccount tx.credited = some account ∧
                account.assetType = tx.assetType := by
            rw [hget]
            cases hold : tp.getAccount tx.credited with
            | none => exact ⟨_, if_pos rfl, rfl⟩
            | some account => exact ⟨_, rfl, haccepts.matching account hold⟩
          exact (typesOf_processEach txs hacc).trans htype
        · intro hsend
          obtain ⟨account, hacc, htype, -⟩ := haccepts.funded hsend
          have htypes := typesOf_processEach (tx :: txs) hacc
          exact htypes.trans htype
      · exact ih (hfresh.tail happlied) h.2 tx hmem

-- ============================================================================
-- Accounts after an accepted sequence
-- ============================================================================

/-- The balance of an account after a sequence: what it was, and what each
    transaction adds to it. -/
def balanceAfter (tp : TransactionProcessor) (txs : List SignedTransaction) (id : String) :
    UInt32 :=
  (tp.getAccount id).elim 0 Account.balance + (txs.map fun tx => tx.net id).sum

/-- There is an account before the sequence, or the sequence credits one. -/
def HasAccountAfter (tp : TransactionProcessor) (txs : List SignedTransaction) (id : String) :
    Prop :=
  (tp.getAccount id).isSome = true ∨ ∃ tx ∈ txs, tx.credited = id

instance (tp : TransactionProcessor) (txs : List SignedTransaction) (id : String) :
    Decidable (tp.HasAccountAfter txs id) :=
  inferInstanceAs (Decidable (_ ∨ _))

/-- The accounts after a sequence that is accepted throughout. -/
def accountsAfter (types : String → AssetType) (tp : TransactionProcessor)
    (txs : List SignedTransaction) (id : String) : Option Account :=
  if tp.HasAccountAfter txs id then
    some { assetType := types id, balance := tp.balanceAfter txs id }
  else none

/-- The accounts do not depend on the order of the sequence. -/
theorem accountsAfter_perm {types : String → AssetType} {tp : TransactionProcessor}
    {txs txs' : List SignedTransaction} (h : txs.Perm txs') (id : String) :
    accountsAfter types tp txs id = accountsAfter types tp txs' id := by
  have hhas : tp.HasAccountAfter txs id ↔ tp.HasAccountAfter txs' id := by
    simp only [HasAccountAfter, h.mem_iff]
  have hbalance : tp.balanceAfter txs id = tp.balanceAfter txs' id := by
    rw [balanceAfter, balanceAfter, (h.map _).sum_eq]
  simp only [accountsAfter, hhas, hbalance]

/-- A `Send` of a sequence finds its coins: after the transactions `before` it,
    the signer has an account and the amount. -/
def Funded (tp : TransactionProcessor) (before : List SignedTransaction)
    (tx : SignedTransaction) : Prop :=
  tp.HasAccountAfter before tx.signer ∧ tx.amount ≤ tp.balanceAfter before tx.signer

/-- Every `Send` of the sequence finds its coins in what comes before it. -/
def FundedInOrder (tp : TransactionProcessor) (txs : List SignedTransaction) : Prop :=
  ∀ before tx after, txs = before ++ tx :: after → tx.isSend = true → tp.Funded before tx

theorem hasAccountAfter_concat {tp : TransactionProcessor} {before : List SignedTransaction}
    {tx : SignedTransaction} {id : String} :
    tp.HasAccountAfter (before ++ [tx]) id ↔
      tp.HasAccountAfter before id ∨ tx.credited = id := by
  simp only [HasAccountAfter, List.mem_append, List.mem_singleton, or_and_right, exists_or,
    exists_eq_left, or_assoc]

/-- Every sender of the sequence has an account at its end. -/
def SendersKnown (tp : TransactionProcessor) (txs : List SignedTransaction) : Prop :=
  ∀ tx ∈ txs, tx.isSend = true → tp.HasAccountAfter txs tx.signer

/-- An account that does not exist was not touched. -/
theorem balanceAfter_of_not_hasAccountAfter {tp : TransactionProcessor}
    {txs : List SignedTransaction} {id : String} (hsenders : tp.SendersKnown txs)
    (h : ¬ tp.HasAccountAfter txs id) : tp.balanceAfter txs id = 0 := by
  have hnone : tp.getAccount id = none := by
    have hsome : ¬ (tp.getAccount id).isSome = true := fun hsome => h (Or.inl hsome)
    simpa using hsome
  have hnet : ∀ tx ∈ txs, tx.net id = 0 := by
    intro tx hmem
    have hcredited : tx.credited ≠ id := fun hid => h (Or.inr ⟨tx, hmem, hid⟩)
    have hsigner : ¬ (tx.isSend = true ∧ tx.signer = id) :=
      fun hsend => h (hsend.2 ▸ hsenders tx hmem hsend.1)
    rw [SignedTransaction.net, if_neg hcredited, if_neg hsigner, sub_zero]
  have hsum : (txs.map fun tx => tx.net id).sum = 0 := by
    apply List.sum_eq_zero
    intro b hb
    obtain ⟨tx, hmem, rfl⟩ := List.mem_map.mp hb
    exact hnet tx hmem
  rw [balanceAfter, hnone, hsum, add_zero]
  rfl

/-- One more accepted transaction. -/
theorem accountAfter_accountsAfter {types : String → AssetType} {tp : TransactionProcessor}
    {before : List SignedTransaction} {tx : SignedTransaction}
    (hsenders : tp.SendersKnown before) (htyped : TypedTransaction types tx) (id : String) :
    accountAfter tx id (accountsAfter types tp before id) =
      accountsAfter types tp (before ++ [tx]) id := by
  have hbalance : tp.balanceAfter (before ++ [tx]) id = tp.balanceAfter before id + tx.net id := by
    simp only [balanceAfter, List.map_append, List.map_cons, List.map_nil, List.sum_append,
      List.sum_singleton, add_assoc]
  by_cases hold : tp.HasAccountAfter before id
  · rw [accountsAfter, if_pos hold, accountsAfter,
      if_pos (hasAccountAfter_concat.mpr (Or.inl hold)), hbalance]
    rfl
  · rw [accountsAfter, if_neg hold]
    by_cases hcredited : tx.credited = id
    · rw [accountsAfter, if_pos (hasAccountAfter_concat.mpr (Or.inr hcredited)), hbalance,
        balanceAfter_of_not_hasAccountAfter hsenders hold, zero_add, accountAfter,
        if_pos hcredited, ← hcredited, htyped.credited]
    · rw [accountsAfter, if_neg (fun h => (hasAccountAfter_concat.mp h).elim hold hcredited),
        accountAfter, if_neg hcredited]

/-- In a state reached by an accepted sequence, a transaction of the right asset
    type is accepted if and only if it is no `Send` or finds its coins. -/
theorem accepts_iff_funded {types : String → AssetType} {tp current : TransactionProcessor}
    {before : List SignedTransaction} {tx : SignedTransaction}
    (hcurrent : ∀ id, current.getAccount id = accountsAfter types tp before id)
    (htyped : TypedTransaction types tx) :
    current.Accepts tx ↔ (tx.isSend = true → tp.Funded before tx) := by
  constructor
  · intro haccepts hsend
    obtain ⟨account, hacc, -, hfunds⟩ := haccepts.funded hsend
    rw [hcurrent, accountsAfter] at hacc
    split at hacc
    · rename_i hhas
      cases hacc
      exact ⟨hhas, hfunds⟩
    · cases hacc
  · intro hfunded
    constructor
    · intro hsend
      obtain ⟨hhas, hfunds⟩ := hfunded hsend
      refine ⟨_, by rw [hcurrent, accountsAfter, if_pos hhas], htyped.signer hsend, hfunds⟩
    · intro account hacc
      rw [hcurrent, accountsAfter] at hacc
      split at hacc
      · cases hacc
        exact htyped.credited
      · cases hacc

/-- `FundedInOrder` of the rest of a sequence, after the part `before`. -/
def FundedFrom (tp : TransactionProcessor) (before txs : List SignedTransaction) : Prop :=
  ∀ middle tx after, txs = middle ++ tx :: after → tx.isSend = true →
    tp.Funded (before ++ middle) tx

theorem fundedFrom_cons {tp : TransactionProcessor} {before txs : List SignedTransaction}
    {tx : SignedTransaction} :
    tp.FundedFrom before (tx :: txs) ↔
      (tx.isSend = true → tp.Funded before tx) ∧ tp.FundedFrom (before ++ [tx]) txs := by
  constructor
  · intro h
    constructor
    · intro hsend
      have hfirst := h [] tx txs rfl hsend
      rwa [List.append_nil] at hfirst
    · intro middle other after heq hsend
      have hlater := h (tx :: middle) other after (by rw [heq]; rfl) hsend
      rwa [List.append_cons] at hlater
  · rintro ⟨hfirst, hrest⟩ middle other after heq hsend
    cases middle with
    | nil =>
        cases heq
        rw [List.append_nil]
        exact hfirst hsend
    | cons first middle =>
        rw [List.cons_append, List.cons.injEq] at heq
        obtain ⟨rfl, heq⟩ := heq
        rw [List.append_cons]
        exact hrest middle other after heq hsend

instance decidableFundedFrom (tp : TransactionProcessor) :
    ∀ txs before : List SignedTransaction, Decidable (tp.FundedFrom before txs)
  | [], _ => .isTrue fun _ _ _ heq =>
      absurd heq.symm (List.append_ne_nil_of_right_ne_nil _ (List.cons_ne_nil _ _))
  | tx :: txs, before =>
    have := decidableFundedFrom tp txs (before ++ [tx])
    have : Decidable (tp.Funded before tx) := inferInstanceAs (Decidable (_ ∧ _))
    decidable_of_iff _ fundedFrom_cons.symm

instance (tp : TransactionProcessor) (txs : List SignedTransaction) :
    Decidable (tp.FundedInOrder txs) :=
  decidableFundedFrom tp txs []

/-- The rest of a sequence, from the state its first part leaves: accepted if and
    only if every `Send` finds its coins, and then the accounts are those of the
    whole sequence. -/
theorem processEach_from {types : String → AssetType} {tp : TransactionProcessor}
    {txs : List SignedTransaction} :
    ∀ {current : TransactionProcessor} {before : List SignedTransaction},
      (∀ id, current.getAccount id = accountsAfter types tp before id) →
      tp.SendersKnown before → current.Fresh txs →
      (∀ tx ∈ txs, TypedTransaction types tx) →
      (current.AllAccepted txs ↔ tp.FundedFrom before txs) ∧
        (current.AllAccepted txs → ∀ id, (current.processEach txs).1.getAccount id =
          accountsAfter types tp (before ++ txs) id) := by
  induction txs with
  | nil =>
      intro current before hcurrent _ _ _
      refine ⟨⟨fun _ middle tx after heq => ?_, fun _ result hmem => ?_⟩, fun _ id => ?_⟩
      · exact absurd heq.symm (List.append_ne_nil_of_right_ne_nil _ (List.cons_ne_nil _ _))
      · cases hmem
      · rw [List.append_nil]
        exact hcurrent id
  | cons tx txs ih =>
      intro current before hcurrent hsenders hfresh htyped
      have htx := htyped tx List.mem_cons_self
      rw [allAccepted_cons, fundedFrom_cons, ← accepts_iff_funded hcurrent htx]
      rcases processTransaction_cases (hfresh.2 tx List.mem_cons_self) with
        ⟨hnot, e, heq⟩ | ⟨haccepts, hok, happlied, hget⟩
      · rw [heq]
        refine ⟨⟨fun h => ?_, fun h => absurd h.1 hnot⟩, fun h => ?_⟩
        · cases h.1
        · cases h.1
      · have hcurrent' : ∀ id, (current.processTransaction tx).1.getAccount id =
            accountsAfter types tp (before ++ [tx]) id := by
          intro id
          rw [hget, hcurrent, accountAfter_accountsAfter hsenders htx]
        have hsenders' : tp.SendersKnown (before ++ [tx]) := by
          intro other hmem hsend
          rw [hasAccountAfter_concat]
          rcases List.mem_append.mp hmem with hmem | hmem
          · exact Or.inl (hsenders other hmem hsend)
          · rw [List.mem_singleton] at hmem
            subst hmem
            exact Or.inl ((accepts_iff_funded hcurrent htx).mp haccepts hsend).1
        obtain ⟨hiff, hafter⟩ := ih hcurrent' hsenders' (hfresh.tail happlied)
          fun other hmem => htyped other (List.mem_cons_of_mem tx hmem)
        refine ⟨?_, ?_⟩
        · rw [hiff]
          simp only [hok, haccepts, true_and]
        · rintro ⟨-, hall⟩ id
          rw [List.append_cons]
          exact hafter hall id

/-- A sequence of the right asset types is accepted throughout if and only if
    every `Send` finds its coins in what comes before it; the accounts it leaves
    then depend on its transactions only. -/
theorem allAccepted_iff_fundedInOrder {types : String → AssetType} {tp : TransactionProcessor}
    {txs : List SignedTransaction} (htp : tp.TypedBy types) (hfresh : tp.Fresh txs)
    (htyped : ∀ tx ∈ txs, TypedTransaction types tx) :
    (tp.AllAccepted txs ↔ tp.FundedInOrder txs) ∧
      (tp.AllAccepted txs → ∀ id, (tp.processEach txs).1.getAccount id =
        accountsAfter types tp txs id) := by
  have hstart : ∀ id, tp.getAccount id = accountsAfter types tp [] id := by
    intro id
    simp only [accountsAfter, HasAccountAfter, List.not_mem_nil, false_and, exists_false, or_false,
      balanceAfter, List.map_nil, List.sum_nil, add_zero]
    cases hid : tp.getAccount id with
    | none => rfl
    | some account =>
        rw [← htp id account hid]
        rfl
  have h := processEach_from hstart (fun tx hmem => absurd hmem List.not_mem_nil) hfresh htyped
  exact h

/-- Two orders of the same transactions, the first of them accepted throughout:
    the second is accepted throughout if and only if its `Send`s find their
    coins, and then both leave the same accounts. -/
theorem allAccepted_perm_iff {tp : TransactionProcessor} {txs txs' : List SignedTransaction}
    (hfresh : tp.Fresh txs) (hall : tp.AllAccepted txs) (hperm : txs.Perm txs') :
    (tp.AllAccepted txs' ↔ tp.FundedInOrder txs') ∧
      (tp.AllAccepted txs' → ∀ id, (tp.processEach txs').1.getAccount id =
        (tp.processEach txs).1.getAccount id) := by
  have htp : tp.TypedBy (tp.processEach txs).1.typesOf := by
    intro id account hacc
    exact (typesOf_processEach txs hacc).symm
  have htyped := typedTransaction_of_allAccepted hfresh hall
  have hfirst := (allAccepted_iff_fundedInOrder htp hfresh htyped).2 hall
  obtain ⟨hiff, hafter⟩ := allAccepted_iff_fundedInOrder htp (hfresh.perm hperm)
    fun tx hmem => htyped tx (hperm.mem_iff.mpr hmem)
  refine ⟨hiff, ?_⟩
  intro hall' id
  rw [hafter hall' id, hfirst id, accountsAfter_perm hperm]

end TransactionProcessor
end Rustchain
