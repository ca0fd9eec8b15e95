/-
  Rustchain.Storage.Block

  Blocks and their verification (`storage.rs`, `transactions.rs`): what a hash
  covers, when a received byte string is accepted as a block, and when a
  transaction's signature stands.
-/

import Rustchain.Platform

namespace Rustchain

-- ============================================================================
-- Transactions
-- ============================================================================

/-- `SignedTransaction::new`. -/
def SignedTransaction.new (pf : Platform) (transaction : Transaction) (key : SigningKey) :
    SignedTransaction :=
  { transaction
    signature := pf.sign key (pf.encodeTransaction transaction)
    publicKey := pf.verifyingKey key }

/-- `SignedTransaction::verify`. -/
def SignedTransaction.verify (pf : Platform) (tx : SignedTransaction) : Except String Unit :=
  match pf.verify tx.publicKey (pf.encodeTransaction tx.transaction) tx.signature with
  | .ok () => .ok ()
  | .error e => .error s!"Invalid client signature: {e}"

/-- `VerifiedTransaction::new`. -/
def VerifiedTransaction.new (pf : Platform) (clientTx : SignedTransaction) (peerKey : SigningKey) :
    VerifiedTransaction :=
  { clientTx
    peerSignature := pf.sign peerKey (pf.encodeSignedTransaction clientTx)
    peerPublicKey := pf.verifyingKey peerKey }

/-- `VerifiedTransaction::verify`: the client's signature, then the peer's. -/
def VerifiedTransaction.verify (pf : Platform) (tx : VerifiedTransaction) : Except String Unit :=
  match tx.clientTx.verify pf with
  | .error e => .error e
  | .ok () =>
    match pf.verify tx.peerPublicKey (pf.encodeSignedTransaction tx.clientTx)
      tx.peerSignature with
    | .ok () => .ok ()
    | .error e => .error s!"Invalid peer signature: {e}"

-- ============================================================================
-- Blocks
-- ============================================================================

inductive BlockVerificationError where
  | signatureError (e : String)
  | deserializationError (e : String)
  | invalidBlockHash
  | invalidPreviousHash
  | alreadyAdded
deriving DecidableEq, Repr

/-- The derived `Display` of the error: the payload, or the variant's name. -/
def BlockVerificationError.display : BlockVerificationError → String
  | signatureError e => e
  | deserializationError e => e
  | invalidBlockHash => "InvalidBlockHash"
  | invalidPreviousHash => "InvalidPreviousHash"
  | alreadyAdded => "AlreadyAdded"

namespace BlockFile

/-- `BlockFile::calculate_hash`: the parent's hash and the transactions. -/
def calculateHash (pf : Platform) (transactions : List SignedTransaction)
    (previousHash : BlockHash) : BlockHash :=
  pf.sha256 previousHash (pf.encodeTransactions transactions)

/-- `BlockFile::create`. -/
def create (pf : Platform) (transactions : List SignedTransaction) (previousHash : BlockHash)
    (index : Nat) : BlockFile :=
  { index, hash := calculateHash pf transactions previousHash, previousHash, transactions }

/-- `BlockFile::verify_block`: the hash is recomputed; the transactions'
    signatures are not looked at. -/
def verifyBlock (pf : Platform) (block : BlockFile) : Except BlockVerificationError Unit :=
  if calculateHash pf block.transactions block.previousHash ≠ block.hash then
    .error .invalidBlockHash
  else .ok ()

/-- `BlockFile::verify_block_vec`. -/
def verifyBlockVec (pf : Platform) (blockHash : BlockHash) (blockFileVec : Bytes)
    (signature : Signature) (publicKey : VerifyingKey) :
    Except BlockVerificationError BlockFile :=
  match pf.verify publicKey blockFileVec signature with
  | .error e => .error (.signatureError e)
  | .ok () =>
    match pf.decodeBlock blockFileVec with
    | .error e => .error (.deserializationError e)
    | .ok block =>
      if blockHash ≠ block.hash then .error .invalidBlockHash
      else
        match block.verifyBlock pf with
        | .error e => .error e
        | .ok () => .ok block

/-- A block accepted from the wire carries the announced hash, and its hash is
    the hash of its contents. -/
theorem verifyBlockVec_ok {pf : Platform} {blockHash : BlockHash} {bytes : Bytes}
    {signature : Signature} {publicKey : VerifyingKey} {block : BlockFile}
    (h : verifyBlockVec pf blockHash bytes signature publicKey = .ok block) :
    block.hash = blockHash ∧ block.verifyBlock pf = .ok () := by
  unfold verifyBlockVec at h
  split at h
  · cases h
  · split at h
    · cases h
    · split at h
      · cases h
      · rename_i hhash
        split at h
        · cases h
        · rename_i hverify
          cases h
          exact ⟨(Decidable.not_not.mp hhash).symm, hverify⟩

/-- A block accepted from the wire is what the bytes decode to. -/
theorem decodeBlock_of_verifyBlockVec {pf : Platform} {blockHash : BlockHash} {bytes : Bytes}
    {signature : Signature} {publicKey : VerifyingKey} {block : BlockFile}
    (h : verifyBlockVec pf blockHash bytes signature publicKey = .ok block) :
    pf.decodeBlock bytes = .ok block := by
  unfold verifyBlockVec at h
  split at h
  · cases h
  · split at h
    · cases h
    · rename_i hdecode
      split at h
      · cases h
      · split at h
        · cases h
        · cases h
          exact hdecode

end BlockFile
end Rustchain
