/-
  Rustchain.Data

  The data model shared by every component: byte strings and hashes,
  transactions, blocks, Raft log entries, peer messages and the effects a
  consensus engine asks its peer to execute (`transactions.rs`, `storage.rs`,
  `peer/messages.rs`, `peer/consensus.rs`).

  Machine integers: token amounts and balances are `UInt32`, whose addition
  wraps as the release build's does.  Terms, log indices, block heights and
  times are `Nat`; the one addition on them that a message value can push over
  the width of its type (`current_term + 1`) wraps explicitly where it stands.
-/

import Mathlib.Data.List.Basic
import Mathlib.Data.String.Basic

namespace Rustchain

-- ============================================================================
-- Scalars
-- ============================================================================

/-- A byte string: `Vec<u8>`. -/
abbrev Bytes := List UInt8

/-- `PeerId(u32)`. -/
abbrev PeerId := Nat

/-- `std::time::Instant`, in milliseconds.  `Instant::duration_since` saturates
    at zero, which is what subtraction on `Nat` does. -/
abbrev Instant := Nat

/-- `BlockHash([u8; 32])`. -/
abbrev BlockHash := BitVec 256

/-- `EMPTY_HASH`: the parent of block 1 and the mark of a Raft no-op. -/
def emptyHash : BlockHash := 0

/-- An ECDSA signature, by its bytes. -/
abbrev Signature := Bytes

/-- A public key, by its SEC1 bytes. -/
abbrev VerifyingKey := Bytes

/-- A private key, by its bytes. -/
abbrev SigningKey := Bytes

/-- A lower-case hexadecimal digit. -/
def hexDigit (n : Nat) : Char :=
  if n < 10 then Char.ofNat (48 + n) else Char.ofNat (87 + n)

/-- `hex::encode`. -/
def hexEncode (bytes : Bytes) : String :=
  String.ofList (bytes.flatMap fun b => [hexDigit (b.toNat / 16), hexDigit (b.toNat % 16)])

-- ============================================================================
-- Transactions
-- ============================================================================

inductive AssetType where
  | btc
  | usdt
deriving DecidableEq, Repr

inductive Operation where
  | addCoin (amount : UInt32) (assetType : AssetType)
  | send (recipient : String) (amount : UInt32) (assetType : AssetType)
deriving DecidableEq, Repr

structure Metadata where
  timestampNanos : Nat
  sequenceNumber : Nat
deriving DecidableEq, Repr

structure Transaction where
  operation : Operation
  metadata : Metadata
deriving DecidableEq, Repr

structure SignedTransaction where
  transaction : Transaction
  signature : Signature
  publicKey : VerifyingKey
deriving DecidableEq, Repr

/-- `SignedTransaction::tx_id`: the signature in hexadecimal. -/
def SignedTransaction.txId (tx : SignedTransaction) : String :=
  hexEncode tx.signature

/-- `KeyManager::to_string_hex` of the signer: the account a transaction acts on. -/
def SignedTransaction.signer (tx : SignedTransaction) : String :=
  hexEncode tx.publicKey

structure VerifiedTransaction where
  clientTx : SignedTransaction
  peerSignature : Signature
  peerPublicKey : VerifyingKey
deriving DecidableEq, Repr

-- ============================================================================
-- Blocks
-- ============================================================================

structure BlockFile where
  index : Nat
  hash : BlockHash
  previousHash : BlockHash
  transactions : List SignedTransaction
deriving DecidableEq, Repr

-- ============================================================================
-- Raft log entries
-- ============================================================================

structure RaftLogEntry where
  term : Nat
  index : Nat
  blockHash : BlockHash
deriving DecidableEq, Repr

/-- `RaftLogEntry::noop`. -/
def RaftLogEntry.noop (term index : Nat) : RaftLogEntry :=
  { term, index, blockHash := emptyHash }

/-- `RaftLogEntry::is_noop`. -/
def RaftLogEntry.isNoop (entry : RaftLogEntry) : Bool :=
  entry.blockHash == emptyHash

/-- A log entry with the signed block it refers to, as it travels to followers. -/
structure RaftReplicatedBlock where
  entry : RaftLogEntry
  blockFile : Bytes
  signature : Signature
  publicKey : VerifyingKey
deriving DecidableEq, Repr

-- ============================================================================
-- Messages
-- ============================================================================

inductive MessageBody where
  | clientTransaction (clientTx : SignedTransaction)
  | synchronization (verifiedTx : VerifiedTransaction)
  | blockProposal (blockHash : BlockHash) (blockFile : Bytes) (signature : Signature)
      (publicKey : VerifyingKey)
  | blockReject (blockHash : BlockHash)
  | blockApproved (blockHash : BlockHash)
  | raftRequestVote (term : Nat) (candidateId : PeerId) (lastLogIndex lastLogTerm : Nat)
  | raftRequestVoteResponse (term : Nat) (voteGranted : Bool)
  | raftAppendEntries (term : Nat) (leaderId : PeerId) (prevLogIndex prevLogTerm : Nat)
      (entries : List RaftReplicatedBlock) (leaderCommit : Nat)
  | raftAppendEntriesResponse (term : Nat) (success : Bool) (matchIndex : Nat)
deriving DecidableEq, Repr

/-- The `Display` name of a message kind. -/
def MessageBody.display : MessageBody → String
  | clientTransaction _ => "ClientTransaction"
  | synchronization _ => "Synchronization"
  | blockProposal .. => "BlockProposal"
  | blockReject _ => "BlockReject"
  | blockApproved _ => "BlockApproved"
  | raftRequestVote .. => "RaftRequestVote"
  | raftRequestVoteResponse .. => "RaftRequestVoteResponse"
  | raftAppendEntries .. => "RaftAppendEntries"
  | raftAppendEntriesResponse .. => "RaftAppendEntriesResponse"

structure Message where
  «from» : PeerId
  «to» : PeerId
  body : MessageBody
deriving DecidableEq, Repr

-- ============================================================================
-- Consensus effects
-- ============================================================================

/-- What a consensus engine asks its peer to do. -/
inductive ConsensusEffect where
  | stageClientTransaction (clientTx : SignedTransaction)
  | stageRaftEntries (entries : List RaftLogEntry)
  | broadcastClientTransaction (clientTx : SignedTransaction)
  | proposeBlock (blockHash : BlockHash)
  | sendRaftAppendEntries («to» : PeerId) (term prevLogIndex prevLogTerm : Nat)
      (entries : List RaftLogEntry) (leaderCommit : Nat)
  | commitBlock (blockHash : BlockHash)
  | rollbackBlock (blockHash : BlockHash)
  | broadcast (body : MessageBody)
  | send («to» : PeerId) (body : MessageBody)
deriving DecidableEq, Repr

end Rustchain
