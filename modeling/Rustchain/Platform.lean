/-
  Rustchain.Platform

  What the program takes from other crates: ECDSA (`k256`), SHA-256 (`sha2`)
  and JSON (`serde_json`).  None of it is defined here: `Platform` names the
  operations the code calls, and every function that calls one takes a
  `Platform`.  What the code relies on is stated once, in `Platform.Lawful`,
  and assumed only where a result needs it.
-/

import Rustchain.Data

namespace Rustchain

/-- The log as `raft_log.json` holds it. -/
structure PersistedRaftLogState where
  log : List RaftLogEntry
  commitIndex : Nat
deriving DecidableEq, Repr

/-- The operations of other crates that the program calls. -/
structure Platform where
  /-- `VerifyingKey::verify`; the error carries its text. -/
  verify : VerifyingKey → Bytes → Signature → Except String Unit
  /-- `SigningKey::sign`. -/
  sign : SigningKey → Bytes → Signature
  /-- `VerifyingKey::from(&SigningKey)`. -/
  verifyingKey : SigningKey → VerifyingKey
  /-- `Sha256` over a block hash followed by a byte string. -/
  sha256 : BlockHash → Bytes → BlockHash
  /-- `serde_json::to_vec` of a `Transaction`. -/
  encodeTransaction : Transaction → Bytes
  /-- `serde_json::to_vec` of a `SignedTransaction`. -/
  encodeSignedTransaction : SignedTransaction → Bytes
  /-- `serde_json::to_string` of a transaction list. -/
  encodeTransactions : List SignedTransaction → Bytes
  /-- `serde_json::to_vec` of a `BlockFile`. -/
  encodeBlock : BlockFile → Bytes
  /-- `serde_json::from_slice::<BlockFile>`. -/
  decodeBlock : Bytes → Except String BlockFile
  /-- `serde_json::to_string_pretty` of the persisted Raft state. -/
  encodeRaftLog : PersistedRaftLogState → Bytes
  /-- `serde_json::from_slice::<PersistedRaftLogState>`. -/
  decodeRaftLog : Bytes → Except String PersistedRaftLogState

/-- What the code relies on: a signature verifies under the signer's own key,
    and decoding inverts encoding. -/
structure Platform.Lawful (pf : Platform) : Prop where
  verify_sign : ∀ key msg, pf.verify (pf.verifyingKey key) msg (pf.sign key msg) = .ok ()
  decode_encodeBlock : ∀ block, pf.decodeBlock (pf.encodeBlock block) = .ok block
  decode_encodeRaftLog : ∀ state, pf.decodeRaftLog (pf.encodeRaftLog state) = .ok state

end Rustchain
