/-
  Rustchain.Ledger.Processor

  Accounts and the transactions that act on them (`transactions.rs`).  A
  processor returns the new state next to its result; a refused transaction
  leaves the accounts as they were.
-/

import Mathlib.Data.Finset.Card
import Rustchain.Data
import Rustchain.Lib.HashMap

namespace Rustchain

structure Account where
  assetType : AssetType
  balance : UInt32
deriving DecidableEq, Repr

inductive TransactionValidationError where
  | accountNotFound (accountId : String)
  | insufficientFunds (accountId : String) (balance amount : UInt32)
  | assetMismatch (accountId : String) (expected actual : AssetType)
deriving DecidableEq, Repr

/-- The `Debug` name of an asset type. -/
def AssetType.debug : AssetType → String
  | btc => "BTC"
  | usdt => "USDT"

def TransactionValidationError.display : TransactionValidationError → String
  | accountNotFound accountId => s!"Account {accountId} not found"
  | insufficientFunds accountId balance amount =>
    s!"Account {accountId} has insufficient funds: balance {balance}, requested {amount}"
  | assetMismatch accountId expected actual =>
    s!"Account {accountId} asset mismatch: expected {expected.debug}, got {actual.debug}"

structure TransactionProcessor where
  accounts : HashMap String Account
  appliedTransactions : Finset String

namespace TransactionProcessor

/-- `TransactionProcessor::default`. -/
def default : TransactionProcessor := { accounts := ∅, appliedTransactions := ∅ }

/-- `get_account`. -/
def getAccount (tp : TransactionProcessor) (id : String) : Option Account :=
  tp.accounts.lookup id

/-- `get_mut` on the balance of an account, if there is one. -/
def modifyBalance (tp : TransactionProcessor) (id : String) (f : UInt32 → UInt32) :
    TransactionProcessor :=
  match tp.accounts.lookup id with
  | none => tp
  | some account =>
    { tp with accounts := tp.accounts.insert id { account with balance := f account.balance } }

def addCoin (tp : TransactionProcessor) (id : String) (assetType : AssetType) (amount : UInt32) :
    TransactionProcessor × Except TransactionValidationError Unit :=
  match tp.accounts.lookup id with
  | some account =>
    if account.assetType ≠ assetType then
      (tp, .error (.assetMismatch id account.assetType assetType))
    else (tp.modifyBalance id (· + amount), .ok ())
  | none =>
    ({ tp with accounts := tp.accounts.insert id { assetType, balance := amount } }, .ok ())

def sendCoins (tp : TransactionProcessor) (id recipient : String) (assetType : AssetType)
    (amount : UInt32) : TransactionProcessor × Except TransactionValidationError Unit :=
  match tp.accounts.lookup id with
  | none => (tp, .error (.accountNotFound id))
  | some senderAccount =>
    if senderAccount.assetType ≠ assetType then
      (tp, .error (.assetMismatch id senderAccount.assetType assetType))
    else if senderAccount.balance < amount then
      (tp, .error (.insufficientFunds id senderAccount.balance amount))
    else
      match tp.accounts.lookup recipient with
      | some recipientAccount =>
        if recipientAccount.assetType ≠ assetType then
          (tp, .error (.assetMismatch recipient recipientAccount.assetType assetType))
        else (tp.modifyBalance id (· - amount)).addCoin recipient assetType amount
      | none => (tp.modifyBalance id (· - amount)).addCoin recipient assetType amount

/-- The operation of a transaction, on the account of its signer. -/
def applyOperation (tp : TransactionProcessor) (clientTx : SignedTransaction) :
    TransactionProcessor × Except TransactionValidationError Unit :=
  match clientTx.transaction.operation with
  | .addCoin amount assetType => tp.addCoin clientTx.signer assetType amount
  | .send recipient amount assetType => tp.sendCoins clientTx.signer recipient assetType amount

/-- `process_transaction`: a transaction already applied is a no-op. -/
def processTransaction (tp : TransactionProcessor) (clientTx : SignedTransaction) :
    TransactionProcessor × Except TransactionValidationError Unit :=
  if clientTx.txId ∈ tp.appliedTransactions then (tp, .ok ())
  else
    match tp.applyOperation clientTx with
    | (tp, .ok ()) =>
      ({ tp with appliedTransactions := insert clientTx.txId tp.appliedTransactions }, .ok ())
    | (tp, .error e) => (tp, .error e)

-- ============================================================================
-- Rollback
-- ============================================================================

/-- `u32::saturating_sub`. -/
def saturatingSub (a b : UInt32) : UInt32 := if b ≤ a then a - b else 0

def rollbackTransaction (tp : TransactionProcessor) (clientTx : SignedTransaction) :
    TransactionProcessor :=
  if clientTx.txId ∉ tp.appliedTransactions then tp
  else
    let tp := { tp with appliedTransactions := tp.appliedTransactions.erase clientTx.txId }
    match clientTx.transaction.operation with
    | .addCoin amount _ => tp.modifyBalance clientTx.signer (saturatingSub · amount)
    | .send recipient amount _ =>
      (tp.modifyBalance recipient (saturatingSub · amount)).modifyBalance clientTx.signer
        (· + amount)

/-- `rollback_transactions`: in reverse order. -/
def rollbackTransactions (tp : TransactionProcessor) (transactions : List SignedTransaction) :
    TransactionProcessor :=
  transactions.reverse.foldl rollbackTransaction tp

end TransactionProcessor
end Rustchain
