/-
  Rustchain.Reference

  A platform that meets `Platform.Lawful`, so that what is proved under it is
  not empty, and on which the model can be run.  Values are written with
  self-delimiting codes; a signature is the key followed by the message, and a
  digest is a checksum.  Neither is secure: no result is about security.
-/

import Mathlib.Algebra.GroupWithZero.Nat
import Rustchain.Lib.PrefixCode
import Rustchain.Storage.Block

namespace Rustchain
namespace Reference

open PrefixCode

-- ============================================================================
-- Codes
-- ============================================================================

def bytesCode : PrefixCode Bytes := list byte

def stringCode : PrefixCode String :=
  (list nat).via (fun s => s.toList.map Char.toNat) (fun l => String.ofList (l.map Char.ofNat)) (by
    intro s
    simp only [List.map_map]
    have hid : Char.ofNat ∘ Char.toNat = id := by
      funext c
      exact Char.ofNat_toNat c
    rw [hid, List.map_id, String.ofList_toList])

def uint32Code : PrefixCode UInt32 :=
  nat.via UInt32.toNat UInt32.ofNat fun _ => UInt32.ofNat_toNat

def hashCode : PrefixCode BlockHash :=
  nat.via BitVec.toNat (BitVec.ofNat 256) fun b => BitVec.ofNat_toNat 256 b ▸ BitVec.setWidth_eq b

def assetTypeCode : PrefixCode AssetType :=
  nat.via (fun a => if a = .btc then 0 else 1) (fun n => if n = 0 then .btc else .usdt) (by
    intro a
    cases a <;> rfl)

/-- An `AddCoin` has no recipient. -/
def operationCode : PrefixCode Operation :=
  ((list stringCode).prod (uint32Code.prod assetTypeCode)).via
    (fun
      | .addCoin amount assetType => ([], amount, assetType)
      | .send recipient amount assetType => ([recipient], amount, assetType))
    (fun
      | ([], amount, assetType) => .addCoin amount assetType
      | (recipient :: _, amount, assetType) => .send recipient amount assetType)
    (by
      intro op
      cases op <;> rfl)

def transactionCode : PrefixCode Transaction :=
  (operationCode.prod (nat.prod nat)).via
    (fun tx => (tx.operation, tx.metadata.timestampNanos, tx.metadata.sequenceNumber))
    (fun x => { operation := x.1, metadata := { timestampNanos := x.2.1, sequenceNumber := x.2.2 } })
    fun _ => rfl

def signedTransactionCode : PrefixCode SignedTransaction :=
  (transactionCode.prod (bytesCode.prod bytesCode)).via
    (fun tx => (tx.transaction, tx.signature, tx.publicKey))
    (fun x => { transaction := x.1, signature := x.2.1, publicKey := x.2.2 })
    fun _ => rfl

def blockCode : PrefixCode BlockFile :=
  (nat.prod (hashCode.prod (hashCode.prod (list signedTransactionCode)))).via
    (fun b => (b.index, b.hash, b.previousHash, b.transactions))
    (fun x =>
      { index := x.1, hash := x.2.1, previousHash := x.2.2.1, transactions := x.2.2.2 })
    fun _ => rfl

def raftLogCode : PrefixCode PersistedRaftLogState :=
  ((list ((nat.prod (nat.prod hashCode)).via
    (fun e : RaftLogEntry => (e.term, e.index, e.blockHash))
    (fun x => { term := x.1, index := x.2.1, blockHash := x.2.2 }) fun _ => rfl)).prod nat).via
    (fun s => (s.log, s.commitIndex)) (fun x => { log := x.1, commitIndex := x.2 }) fun _ => rfl

/-- Reading with the error text of a malformed input. -/
def decode {α : Type} (c : PrefixCode α) (bytes : Bytes) : Except String α :=
  match c.readAll bytes with
  | some a => .ok a
  | none => .error "expected value"

theorem decode_write {α : Type} (c : PrefixCode α) (a : α) : decode c (c.write a) = .ok a := by
  rw [decode, c.readAll_write]

-- ============================================================================
-- The platform
-- ============================================================================

/-- Parent and contents in one number. -/
def digest (previousHash : BlockHash) (bytes : Bytes) : BlockHash :=
  BitVec.ofNat 256 (previousHash.toNat + (bytes.map UInt8.toNat).sum + 1)

def platform : Platform where
  verify key msg signature := if signature = key ++ msg then .ok () else .error "signature error"
  sign key msg := key ++ msg
  verifyingKey key := key
  sha256 := digest
  encodeTransaction := transactionCode.write
  encodeSignedTransaction := signedTransactionCode.write
  encodeTransactions := (list signedTransactionCode).write
  encodeBlock := blockCode.write
  decodeBlock := decode blockCode
  encodeRaftLog := raftLogCode.write
  decodeRaftLog := decode raftLogCode

theorem platform_lawful : platform.Lawful where
  verify_sign := by
    intro key msg
    exact if_pos rfl
  decode_encodeBlock := decode_write blockCode
  decode_encodeRaftLog := decode_write raftLogCode

/-- Block number `n` of the chain of empty blocks; on the reference platform its
    hash is `n`. -/
def emptyBlock (n : Nat) : BlockFile :=
  .create platform [] (BitVec.ofNat 256 (n - 1)) n

/-- The payload of an entry whose block is in the chain of empty blocks. -/
def payload (entry : RaftLogEntry) : RaftReplicatedBlock :=
  let bytes := if entry.isNoop then [] else platform.encodeBlock (emptyBlock entry.blockHash.toNat)
  { entry, blockFile := bytes, signature := platform.sign [] bytes, publicKey := [] }

/-- A signed transaction of the client with the given key. -/
def clientTx (key : SigningKey) (operation : Operation) : SignedTransaction :=
  .new platform { operation, metadata := { timestampNanos := 0, sequenceNumber := 0 } } key

def deposit : SignedTransaction := clientTx [5] (.addCoin 10 .btc)

def otherDeposit : SignedTransaction := clientTx [6] (.addCoin 20 .usdt)

/-- The block a new peer packs of a transaction. -/
def firstBlock (tx : SignedTransaction) : BlockFile := .create platform [tx] emptyHash 1

end Reference
end Rustchain
