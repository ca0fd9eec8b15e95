/-
  Rustchain.Peer.Coverage

  Whether the ledger of a peer covers what the peer is about to put on the chain.

  A peer applies a transaction before it goes to the mempool.  `RollbackBlock`
  works the other way: it un-applies the transactions of the block and hands those
  that are the peer's own back to the mempool, where they may at once be packed
  into a new block.  So the ledger covers the mempool and the blocks the peer has
  packed as long as no block is rolled back that shares a transaction with them.

  Ledger and block store together are the peer's books.  An event amounts to a
  list of operations on the books (`Peer.operations`, `handle_books`), and a
  condition on a run is a condition on each operation, in the books it meets.
-/

import Rustchain.Ledger.Conservation
import Rustchain.Peer.Transactions

namespace Rustchain

-- ============================================================================
-- The books
-- ============================================================================

/-- The ledger and the block store of a peer. -/
structure Books where
  ledger : TransactionProcessor
  store : BlockKeeper

inductive BookOperation where
  /-- `stage_client_transaction`. -/
  | stageTransaction (clientTx : SignedTransaction)
  /-- A block from outside is applied and staged, if it can be added. -/
  | addBlock (block : BlockFile)
  | commitBlock (blockHash : BlockHash)
  | rollbackBlock (blockHash : BlockHash)
deriving DecidableEq

namespace Books

def perform (pf : Platform) (books : Books) : BookOperation → Books
  | .stageTransaction clientTx =>
    match clientTx.verify pf with
    | .error _ => books
    | .ok () =>
      match books.ledger.processTransaction clientTx with
      | (ledger, .error _) => { books with ledger }
      | (ledger, .ok ()) => { ledger, store := (books.store.addTransaction pf clientTx).1 }
  | .addBlock block =>
    if books.store.blockCanBeAdded block then
      { ledger := block.transactions.foldl (fun tp tx => (tp.processTransaction tx).1) books.ledger
        store := (books.store.addExternalBlock pf block).1 }
    else books
  | .commitBlock blockHash => { books with store := (books.store.commitBlock pf blockHash).1 }
  | .rollbackBlock blockHash =>
    match books.store.getUncommitedBlock blockHash with
    | none => books
    | some block =>
      { ledger := books.ledger.rollbackTransactions block.transactions
        store := (books.store.rollbackBlock pf blockHash).1 }

def performAll (pf : Platform) (books : Books) (operations : List BookOperation) : Books :=
  operations.foldl (perform pf) books

/-- Every operation meets the condition in the books it finds. -/
def Throughout (pf : Platform) (condition : Books → BookOperation → Prop) :
    Books → List BookOperation → Prop
  | _, [] => True
  | books, operation :: operations =>
    condition books operation ∧ Throughout pf condition (books.perform pf operation) operations

variable {pf : Platform} {books : Books}

theorem performAll_append (pf : Platform) (books : Books) (first rest : List BookOperation) :
    books.performAll pf (first ++ rest) = (books.performAll pf first).performAll pf rest :=
  List.foldl_append

end Books

-- ============================================================================
-- What an effect does to the books
-- ============================================================================

namespace PeerEffects

def books (effects : PeerEffects) : Books :=
  { ledger := effects.transactionProcessor, store := effects.blockKeeper }

/-- The blocks that `stage_raft_entries` adds: it stops at the first that cannot be
    staged. -/
def raftOperations (pf : Platform) :
    PeerEffects → ConsensusEngine → List RaftLogEntry → List BookOperation
  | _, _, [] => []
  | effects, consensus, entry :: entries =>
    if entry.isNoop then raftOperations pf effects consensus entries
    else
      let (consensus, pendingBlock) := consensus.takePendingRaftBlock entry.blockHash
      if (effects.blockKeeper.getUncommitedBlock entry.blockHash).isSome then
        raftOperations pf effects consensus entries
      else
        match pendingBlock with
        | none => []
        | some block =>
          match effects.stageExternalBlock pf block with
          | (effects, .ok true) => .addBlock block :: raftOperations pf effects consensus entries
          | _ => [.addBlock block]

def effectOperations (pf : Platform) (effects : PeerEffects) (consensus : ConsensusEngine) :
    ConsensusEffect → List BookOperation
  | .stageClientTransaction clientTx => [.stageTransaction clientTx]
  | .stageRaftEntries entries => effects.raftOperations pf consensus entries
  | .proposeBlock blockHash =>
    -- A peer that knows no other commits at once.
    if effects.knownPeers.isEmpty then [.commitBlock blockHash] else []
  | .commitBlock blockHash => [.commitBlock blockHash]
  | .rollbackBlock blockHash => [.rollbackBlock blockHash]
  | _ => []

theorem stageClientTransaction_books (pf : Platform) (effects : PeerEffects)
    (clientTx : SignedTransaction) :
    (effects.stageClientTransaction pf clientTx).1.books =
      effects.books.perform pf (.stageTransaction clientTx) := by
  simp only [stageClientTransaction, Books.perform, books]
  rcases clientTx.verify pf with e | _
  · rfl
  · rcases effects.transactionProcessor.processTransaction clientTx with ⟨ledger, e | _⟩ <;> rfl

theorem stageExternalBlock_books (pf : Platform) (effects : PeerEffects) (block : BlockFile) :
    (effects.stageExternalBlock pf block).1.books = effects.books.perform pf (.addBlock block) := by
  have hkeeper : (effects.applyBlockTransactions block).blockKeeper = effects.blockKeeper := rfl
  cases hadd : effects.blockKeeper.blockCanBeAdded block with
  | false =>
      simp only [stageExternalBlock, Books.perform, books, hadd, Bool.not_false, if_true,
        Bool.false_eq_true, if_false]
  | true =>
      simp only [stageExternalBlock, Books.perform, books, hkeeper, hadd, Bool.not_true, if_true,
        Bool.false_eq_true, if_false]
      rcases effects.blockKeeper.addExternalBlock pf block with ⟨k, e | _⟩ <;> rfl

theorem commitBlock_books (pf : Platform) (effects : PeerEffects) (blockHash : BlockHash) :
    (effects.commitBlock pf blockHash).1.books =
      effects.books.perform pf (.commitBlock blockHash) := by
  simp only [commitBlock, Books.perform, books]
  rcases effects.blockKeeper.commitBlock pf blockHash with ⟨k, e | _⟩ <;> rfl

theorem rollbackBlock_books (pf : Platform) (effects : PeerEffects) (blockHash : BlockHash) :
    (effects.rollbackBlock pf blockHash).1.books =
      effects.books.perform pf (.rollbackBlock blockHash) := by
  simp only [rollbackBlock, Books.perform, books]
  rcases effects.blockKeeper.getUncommitedBlock blockHash with _ | block
  · rfl
  · rcases effects.blockKeeper.rollbackBlock pf blockHash with ⟨k, e | _⟩ <;> rfl

theorem broadcastBlockProposal_books (pf : Platform) (effects : PeerEffects)
    (blockHash : BlockHash) (consensus : ConsensusEngine) :
    (effects.broadcastBlockProposal pf blockHash).1.books =
      effects.books.performAll pf
        (effects.effectOperations pf consensus (.proposeBlock blockHash)) := by
  simp only [broadcastBlockProposal, effectOperations]
  split
  · simp only [Books.performAll, List.foldl_cons, List.foldl_nil, Books.perform, books]
    rcases effects.blockKeeper.commitBlock pf blockHash with ⟨k, e | _⟩ <;> rfl
  · split <;> rfl

theorem sendRaftAppendEntries_books (pf : Platform) (effects : PeerEffects) (dst : PeerId)
    (term prevLogIndex prevLogTerm : Nat) (entries : List RaftLogEntry) (leaderCommit : Nat) :
    (effects.sendRaftAppendEntries pf dst term prevLogIndex prevLogTerm entries
      leaderCommit).1.books = effects.books := by
  unfold sendRaftAppendEntries
  split <;> rfl

/-- Staging Raft entries adds their blocks, one after the other. -/
theorem stageRaftEntries_books (pf : Platform) (entries : List RaftLogEntry)
    (effects : PeerEffects) (consensus : ConsensusEngine) :
    (effects.stageRaftEntries pf consensus entries).1.books =
      effects.books.performAll pf (effects.raftOperations pf consensus entries) := by
  induction entries generalizing effects consensus with
  | nil => rfl
  | cons entry entries ih =>
      unfold stageRaftEntries raftOperations
      split
      · exact ih effects consensus
      rcases consensus.takePendingRaftBlock entry.blockHash with ⟨consensus', _ | block⟩
      · dsimp only
        split
        · exact ih effects consensus'
        · rfl
      · dsimp only
        split
        · exact ih effects consensus'
        have hstage := stageExternalBlock_books pf effects block
        have hkeeper : (effects.applyBlockTransactions block).blockKeeper = effects.blockKeeper :=
          rfl
        simp only [stageExternalBlock, hkeeper] at hstage ⊢
        cases hadd : effects.blockKeeper.blockCanBeAdded block with
        | false =>
            rw [hadd] at hstage
            exact hstage
        | true =>
            rw [hadd] at hstage
            rcases hresult : effects.blockKeeper.addExternalBlock pf block with ⟨k, e | _⟩
            · rw [hresult] at hstage
              exact hstage
            · rw [hresult] at hstage
              refine (ih _ consensus').trans ?_
              exact congrArg (Books.performAll pf · _) hstage

/-- What an effect does to the books. -/
theorem executeEffect_books (pf : Platform) (effects : PeerEffects) (consensus : ConsensusEngine)
    (effect : ConsensusEffect) :
    (effects.executeEffect pf consensus effect).effects.books =
      effects.books.performAll pf (effects.effectOperations pf consensus effect) := by
  cases effect with
  | stageClientTransaction clientTx =>
      have hstage := stageClientTransaction_books pf effects clientTx
      simp only [executeEffect]
      rcases hresult : effects.stageClientTransaction pf clientTx with
        ⟨effects', e | _ | blockHash⟩
      all_goals rw [hresult] at hstage
      · exact hstage
      · exact hstage
      · rw [queueAll_effects]
        exact hstage
  | stageRaftEntries entries => exact stageRaftEntries_books pf entries effects consensus
  | proposeBlock blockHash =>
      have hpropose := broadcastBlockProposal_books pf effects blockHash consensus
      simp only [executeEffect]
      rcases hresult : effects.broadcastBlockProposal pf blockHash with
        ⟨effects', e | _ | knownPeers⟩
      all_goals rw [hresult] at hpropose
      · exact hpropose
      · exact hpropose
      · rw [queueAll_effects]
        exact hpropose
  | sendRaftAppendEntries dst term prevLogIndex prevLogTerm entries leaderCommit =>
      exact sendRaftAppendEntries_books pf effects dst term prevLogIndex prevLogTerm entries
        leaderCommit
  | commitBlock blockHash => exact commitBlock_books pf effects blockHash
  | rollbackBlock blockHash => exact rollbackBlock_books pf effects blockHash
  | broadcastClientTransaction clientTx => rfl
  | broadcast body => rfl
  | send dst body => rfl

/-- The operations of a part of the queue. -/
def Batch.operations (pf : Platform) : Batch → List ConsensusEffect → List BookOperation
  | _, [] => []
  | b, effect :: queue =>
    b.effects.effectOperations pf b.consensus effect ++ operations pf (b.turn pf effect) queue

/-- The operations of what is queued now. -/
def Batch.generationOperations (pf : Platform) (b : Batch) : List BookOperation :=
  Batch.operations pf { b with queue := [] } b.queue

/-- The operations of `execute_all`. -/
def allOperations (pf : Platform) (effects : PeerEffects) (consensus : ConsensusEngine)
    (queue : List ConsensusEffect) : List BookOperation :=
  let start : Batch := { effects, consensus, queue, errors := [] }
  start.generationOperations pf ++ ((start.generation pf).generationOperations pf ++
    ((start.generation pf).generation pf).generationOperations pf)

theorem Batch.foldl_turn_books (pf : Platform) (queue : List ConsensusEffect) (b : Batch) :
    (queue.foldl (Batch.turn pf) b).effects.books =
      b.effects.books.performAll pf (Batch.operations pf b queue) := by
  induction queue generalizing b with
  | nil => rfl
  | cons effect queue ih =>
      have hturn : (b.turn pf effect).effects.books =
          b.effects.books.performAll pf (b.effects.effectOperations pf b.consensus effect) :=
        executeEffect_books pf b.effects b.consensus effect
      rw [List.foldl_cons, ih, hturn, Batch.operations, Books.performAll_append]

theorem Batch.generation_books (pf : Platform) (b : Batch) :
    (b.generation pf).effects.books =
      b.effects.books.performAll pf (b.generationOperations pf) :=
  Batch.foldl_turn_books pf b.queue { b with queue := [] }

theorem executeAll_books (pf : Platform) (effects : PeerEffects) (consensus : ConsensusEngine)
    (queue : List ConsensusEffect) :
    (effects.executeAll pf consensus queue).1.books =
      effects.books.performAll pf (effects.allOperations pf consensus queue) := by
  rw [allOperations, Books.performAll_append, Books.performAll_append]
  let start : Batch := { effects, consensus, queue, errors := [] }
  calc (effects.executeAll pf consensus queue).1.books
      = ((start.generation pf).generation pf).effects.books.performAll pf
          (((start.generation pf).generation pf).generationOperations pf) :=
        Batch.generation_books pf _
    _ = ((start.generation pf).effects.books.performAll pf
          ((start.generation pf).generationOperations pf)).performAll pf
            (((start.generation pf).generation pf).generationOperations pf) := by
        rw [Batch.generation_books pf (start.generation pf)]
    _ = ((effects.books.performAll pf (start.generationOperations pf)).performAll pf
          ((start.generation pf).generationOperations pf)).performAll pf
            (((start.generation pf).generation pf).generationOperations pf) := by
        rw [Batch.generation_books pf start]

end PeerEffects

-- ============================================================================
-- What an event does to the books
-- ============================================================================

namespace Peer

/-- The operations of an answer of consensus. -/
def answerOperations (pf : Platform) (p : Peer) :
    ConsensusEngine × Except String (List ConsensusEffect) → List BookOperation
  | (consensus, .ok queue) => p.effects.allOperations pf consensus queue
  | (_, .error _) => []

def proposalOperations (pf : Platform) (p : Peer) (blockHash : BlockHash) (blockFile : Bytes)
    (signature : Signature) (publicKey : VerifyingKey) (src : PeerId) : List BookOperation :=
  if p.effects.lastCompletedBlock = blockHash then []
  else
    let added : List BookOperation :=
      match BlockFile.verifyBlockVec pf blockHash blockFile signature publicKey with
      | .ok block => [.addBlock block]
      | .error _ => []
    match p.validateProposal pf blockHash blockFile signature publicKey with
    | (_, .error _) => added
    | (effects, .ok isOk) =>
      added ++ { p with effects }.answerOperations pf
        (p.consensus.onBlockProposalValidated blockHash src isOk effects.knownPeers)

def voteOperations (pf : Platform) (p : Peer) (blockHash : BlockHash) (src : PeerId)
    (approve : Bool) : List BookOperation :=
  if p.effects.lastCompletedBlock = blockHash then []
  else
    match p.effects.ensureUncommittedBlock blockHash with
    | .error _ => []
    | .ok () =>
      p.answerOperations pf (p.consensus.onBlockVote blockHash src approve p.effects.knownPeers)

/-- What an event does to the books of the peer, operation by operation. -/
def operations (pf : Platform) (p : Peer) : Event → List BookOperation
  | .message message now draw =>
    match message.body with
    | .clientTransaction clientTx =>
      match clientTx.verify pf with
      | .error _ => []
      | .ok () => p.answerOperations pf (p.consensus, p.consensus.onClientTransaction clientTx)
    | .synchronization verifiedTx =>
      match verifiedTx.verify pf with
      | .error _ => []
      | .ok () =>
        match p.effects.stageClientTransaction pf verifiedTx.clientTx with
        | (effects, .ok (.newBlockCreated blockHash)) =>
          .stageTransaction verifiedTx.clientTx :: { p with effects }.answerOperations pf
            (p.consensus.onBlockCreated pf blockHash)
        | _ => [.stageTransaction verifiedTx.clientTx]
    | .blockProposal blockHash blockFile signature publicKey =>
      p.proposalOperations pf blockHash blockFile signature publicKey message.from
    | .blockApproved blockHash => p.voteOperations pf blockHash message.from true
    | .blockReject blockHash => p.voteOperations pf blockHash message.from false
    | body => p.answerOperations pf (p.consensus.onMessage pf message.from body now draw)
  | .tick now => p.answerOperations pf (p.consensus.onTick pf now p.effects.knownPeers)
  | .synchronized block =>
    match p.effects.stageExternalBlock pf block with
    | (_, .ok true) => [.addBlock block, .commitBlock block.hash]
    | _ => [.addBlock block]
  | .discovered _ => []

/-- The operations of a run. -/
def runOperations (pf : Platform) : Peer → List Event → List BookOperation
  | _, [] => []
  | p, event :: events => p.operations pf event ++ runOperations pf (p.handle pf event) events

variable (pf : Platform)

theorem answer_books (p : Peer)
    (response : ConsensusEngine × Except String (List ConsensusEffect)) :
    (p.answer pf response).1.effects.books =
      p.effects.books.performAll pf (p.answerOperations pf response) := by
  obtain ⟨consensus, e | queue⟩ := response
  · rfl
  · rw [(answer_ok pf p consensus queue).1]
    exact PeerEffects.executeAll_books pf p.effects consensus queue

theorem synchronizeTransaction_books (p : Peer) (verifiedTx : VerifiedTransaction)
    (message : Message) (hbody : message.body = .synchronization verifiedTx) (now : Instant)
    (draw : Nat) :
    (p.synchronizeTransaction pf verifiedTx).1.effects.books =
      p.effects.books.performAll pf (p.operations pf (.message message now draw)) := by
  simp only [synchronizeTransaction, operations, hbody]
  rcases verifiedTx.verify pf with e | _
  · rfl
  have hstage := PeerEffects.stageClientTransaction_books pf p.effects verifiedTx.clientTx
  rcases hresult : p.effects.stageClientTransaction pf verifiedTx.clientTx with
    ⟨effects, e | _ | blockHash⟩
  all_goals rw [hresult] at hstage
  · exact hstage
  · exact hstage
  · refine (answer_books pf { p with effects } _).trans ?_
    exact congrArg (Books.performAll pf · _) hstage

theorem processBlockProposal_books (p : Peer) (blockHash : BlockHash) (blockFile : Bytes)
    (signature : Signature) (publicKey : VerifyingKey) (src : PeerId) :
    (p.processBlockProposal pf blockHash blockFile signature publicKey src).1.effects.books =
      p.effects.books.performAll pf
        (p.proposalOperations pf blockHash blockFile signature publicKey src) := by
  unfold processBlockProposal proposalOperations
  split
  · rfl
  -- Validating the proposal adds its block, if it verifies.
  have hvalidate : (p.validateProposal pf blockHash blockFile signature publicKey).1.books =
      p.effects.books.performAll pf
        (match BlockFile.verifyBlockVec pf blockHash blockFile signature publicKey with
          | .ok block => [.addBlock block]
          | .error _ => []) := by
    unfold validateProposal
    rcases BlockFile.verifyBlockVec pf blockHash blockFile signature publicKey with e | block
    · rfl
    · exact PeerEffects.stageExternalBlock_books pf p.effects block
  rcases hresult : p.validateProposal pf blockHash blockFile signature publicKey with
    ⟨effects, e | isOk⟩
  all_goals rw [hresult] at hvalidate
  · exact hvalidate
  · dsimp only
    rw [Books.performAll_append, ← hvalidate]
    exact answer_books pf { p with effects } _

theorem processBlockVote_books (p : Peer) (blockHash : BlockHash) (src : PeerId)
    (approve : Bool) :
    (p.processBlockVote pf blockHash src approve).1.effects.books =
      p.effects.books.performAll pf (p.voteOperations pf blockHash src approve) := by
  unfold processBlockVote voteOperations
  split
  · rfl
  rcases p.effects.ensureUncommittedBlock blockHash with e | _
  · rfl
  · exact answer_books pf p _

theorem applySynchronizedBlock_books (p : Peer) (block : BlockFile) :
    (p.applySynchronizedBlock pf block).1.effects.books =
      p.effects.books.performAll pf (p.operations pf (.synchronized block)) := by
  have hstage := PeerEffects.stageExternalBlock_books pf p.effects block
  have hkeeper : (p.effects.applyBlockTransactions block).blockKeeper = p.effects.blockKeeper :=
    rfl
  simp only [applySynchronizedBlock, PeerEffects.applySynchronizedBlock, operations]
  simp only [PeerEffects.stageExternalBlock, hkeeper] at hstage ⊢
  cases hadd : p.effects.blockKeeper.blockCanBeAdded block with
  | false =>
      rw [hadd] at hstage
      exact hstage
  | true =>
      rw [hadd] at hstage
      rcases hresult : p.effects.blockKeeper.addExternalBlock pf block with ⟨k, e | _⟩
      · rw [hresult] at hstage
        exact hstage
      · rw [hresult] at hstage
        show _ = (p.effects.books.perform pf (.addBlock block)).perform pf (.commitBlock block.hash)
        rw [← hstage]
        simp only [Bool.not_true, Bool.false_eq_true, if_false, Books.perform, PeerEffects.books]
        rcases k.commitBlock pf block.hash with ⟨k', e | _⟩ <;> rfl

/-- An event does its operations to the books, one after the other, and nothing else. -/
theorem handle_books (p : Peer) (event : Event) :
    (p.handle pf event).effects.books =
      p.effects.books.performAll pf (p.operations pf event) := by
  cases event with
  | message message now draw =>
      obtain ⟨src, dst, body⟩ := message
      cases body with
      | clientTransaction clientTx =>
          simp only [handle, handleMessage, processClientTransaction, operations]
          rcases clientTx.verify pf with e | _
          · rfl
          · exact answer_books pf p _
      | synchronization verifiedTx =>
          exact synchronizeTransaction_books pf p verifiedTx ⟨src, dst, .synchronization verifiedTx⟩
            rfl now draw
      | blockProposal blockHash blockFile signature publicKey =>
          exact processBlockProposal_books pf p blockHash blockFile signature publicKey src
      | blockApproved blockHash => exact processBlockVote_books pf p blockHash src true
      | blockReject blockHash => exact processBlockVote_books pf p blockHash src false
      | raftAppendEntries => exact answer_books pf p _
      | raftRequestVote | raftRequestVoteResponse | raftAppendEntriesResponse =>
          exact answer_books pf p _
  | tick now => exact answer_books pf p _
  | synchronized block => exact applySynchronizedBlock_books pf p block
  | discovered knownPeers => rfl

theorem run_books (p : Peer) (events : List Event) :
    (p.run pf events).effects.books =
      p.effects.books.performAll pf (p.runOperations pf events) := by
  induction events generalizing p with
  | nil => rfl
  | cons event events ih =>
      rw [runOperations, Books.performAll_append, ← handle_books]
      exact ih (p.handle pf event)

end Peer

-- ============================================================================
-- Coverage
-- ============================================================================

namespace TransactionProcessor

/-- Un-applying transactions takes out their ids and no others. -/
theorem mem_appliedTransactions_rollbackTransactions {tp : TransactionProcessor}
    {txs : List SignedTransaction} {id : String} :
    id ∈ (tp.rollbackTransactions txs).appliedTransactions ↔
      id ∈ tp.appliedTransactions ∧ id ∉ txs.map SignedTransaction.txId := by
  have hfold : ∀ (txs : List SignedTransaction) (tp : TransactionProcessor),
      id ∈ (txs.foldl rollbackTransaction tp).appliedTransactions ↔
        id ∈ tp.appliedTransactions ∧ id ∉ txs.map SignedTransaction.txId := by
    intro txs
    induction txs with
    | nil => simp
    | cons tx txs ih =>
        intro tp
        rw [List.foldl_cons, ih, appliedTransactions_rollbackTransaction, Finset.mem_erase,
          List.map_cons, List.mem_cons]
        tauto
  rw [rollbackTransactions, hfold, List.map_reverse, List.mem_reverse]

end TransactionProcessor

namespace Books

/-- The peer has packed the block itself, and it is staged. -/
def Packed (store : BlockKeeper) (block : BlockFile) : Prop :=
  block ∈ store.created ∧ store.uncommitedBlocks.lookup block.hash = some block

/-- Every transaction of the mempool is applied, and every transaction of a staged
    block that the peer has packed itself. -/
structure Covered (books : Books) : Prop where
  mempool : ∀ id tx, books.store.mempool.lookup id = some tx →
    tx.txId ∈ books.ledger.appliedTransactions
  packed : ∀ block, Packed books.store block → ∀ tx ∈ block.transactions,
    tx.txId ∈ books.ledger.appliedTransactions

/-- The staged block shares no transaction with the mempool, with the transactions
    under way or with another staged block that the peer has packed. -/
structure Unshared (store : BlockKeeper) (blockHash : BlockHash) (block : BlockFile) : Prop where
  mempool : ∀ id tx, store.mempool.lookup id = some tx → tx.txId ∉ block.txIds
  pending : ∀ tx ∈ block.transactions, store.pendingTransactions.lookup tx.txId = none
  packed : ∀ other, Packed store other → other.hash ≠ blockHash →
    ∀ tx ∈ other.transactions, tx.txId ∉ block.txIds

/-- A staged block that is rolled back is unshared, and a block the peer once packed
    that comes back from outside has all its transactions accepted. -/
def Spares (books : Books) : BookOperation → Prop
  | .rollbackBlock blockHash => ∀ block, books.store.getUncommitedBlock blockHash = some block →
    Unshared books.store blockHash block
  | .addBlock block => block ∈ books.store.created →
    books.store.blockCanBeAdded block = true → books.ledger.AllAccepted block.transactions
  | .stageTransaction _ | .commitBlock _ => True

/-- A block the peer has packed itself is committed with all its transactions
    applied. -/
def CommitsApplied (books : Books) : BookOperation → Prop
  | .commitBlock blockHash => ∀ block, Packed books.store block → block.hash = blockHash →
    ∀ tx ∈ block.transactions, tx.txId ∈ books.ledger.appliedTransactions
  | _ => True

variable {pf : Platform} {books : Books}

/-- A ledger that has applied more covers as well. -/
theorem Covered.grow (h : books.Covered) {ledger : TransactionProcessor}
    (hsubset : books.ledger.appliedTransactions ⊆ ledger.appliedTransactions) :
    Covered { books with ledger } where
  mempool := fun id tx hlookup => hsubset (h.mempool id tx hlookup)
  packed := fun block hpacked tx htx => hsubset (h.packed block hpacked tx htx)

/-- A transaction that is applied may go to the mempool. -/
theorem Covered.addTransaction (h : books.Covered) {tx : SignedTransaction}
    (happlied : tx.txId ∈ books.ledger.appliedTransactions) :
    Covered { books with store := (books.store.addTransaction pf tx).1 } := by
  have hinsert : ∀ id own, (books.store.mempool.insert tx.txId tx).lookup id = some own →
      own.txId ∈ books.ledger.appliedTransactions :=
    HashMap.forall_insert h.mempool happlied
  simp only [BlockKeeper.addTransaction]
  split
  · refine ⟨fun id own hlookup => (by cases hlookup), ?_⟩
    rintro block ⟨hmem, hlookup⟩ own hown
    simp only [BlockKeeper.createNewBlock] at hlookup hmem
    rw [HashMap.lookup_insert_ite] at hlookup
    split at hlookup
    · -- The block is the new one, and holds what the mempool held.
      cases hlookup
      have hvalue : own ∈ HashMap.values (books.store.mempool.insert tx.txId tx) :=
        (List.mem_insertionSort _).mp hown
      obtain ⟨id, hid⟩ := HashMap.lookup_of_mem_values hvalue
      exact hinsert id own hid
    · rename_i hne
      rcases List.mem_append.mp hmem with hmem | hmem
      · exact h.packed block ⟨hmem, hlookup⟩ own hown
      · exact absurd (congrArg BlockFile.hash (List.mem_singleton.mp hmem)) hne
  · exact ⟨hinsert, h.packed⟩

theorem Covered.stageTransaction (h : books.Covered) (clientTx : SignedTransaction) :
    Covered (books.perform pf (.stageTransaction clientTx)) := by
  have hsubset := books.ledger.appliedTransactions_subset_processTransaction clientTx
  simp only [perform]
  rcases clientTx.verify pf with e | _
  · exact h
  rcases hresult : books.ledger.processTransaction clientTx with ⟨ledger, e | _⟩
  · rw [hresult] at hsubset
    exact h.grow hsubset
  · have happlied : clientTx.txId ∈ ledger.appliedTransactions := by
      have hmem := TransactionProcessor.mem_appliedTransactions_of_ok
        (congrArg Prod.snd hresult : (books.ledger.processTransaction clientTx).2 = .ok ())
      rwa [hresult] at hmem
    rw [hresult] at hsubset
    exact (h.grow hsubset).addTransaction happlied

/-- What a block from outside claims leaves the mempool. -/
theorem lookup_claimTransactions {k : BlockKeeper} {txs : List SignedTransaction} {id : String}
    {tx : SignedTransaction}
    (h : (txs.foldl BlockKeeper.claimTransaction k).mempool.lookup id = some tx) :
    k.mempool.lookup id = some tx := by
  induction txs generalizing k with
  | nil => exact h
  | cons first txs ih =>
      have hrest := ih h
      unfold BlockKeeper.claimTransaction at hrest
      split at hrest
      · exact hrest
      · rw [HashMap.lookup_erase_ite] at hrest
        split at hrest
        · cases hrest
        · exact hrest

theorem Covered.addBlock (h : books.Covered) {block : BlockFile}
    (hspares : books.Spares (.addBlock block)) :
    Covered (books.perform pf (.addBlock block)) := by
  simp only [perform]
  split
  · rename_i hadd
    have hsubset := TransactionProcessor.appliedTransactions_subset_foldl block.transactions
      books.ledger
    rcases BlockKeeper.addExternalBlock_cases pf books.store block with
      ⟨e, -, heq⟩ | ⟨hverify, -, hstages⟩
    · rw [heq]
      exact h.grow hsubset
    · refine ⟨?_, ?_⟩
      · intro id tx hlookup
        apply hsubset
        apply h.mempool id tx
        simp only [BlockKeeper.addExternalBlock, hverify] at hlookup
        exact lookup_claimTransactions hlookup
      · rintro other ⟨hmem, hlookup⟩ tx htx
        dsimp only at hmem hlookup
        rw [hstages.created] at hmem
        rw [hstages.uncommitedBlocks, HashMap.lookup_insert_ite] at hlookup
        split at hlookup
        · cases hlookup
          exact (hspares hmem hadd).mem_appliedTransactions htx
        · exact hsubset (h.packed other ⟨hmem, hlookup⟩ tx htx)
  · exact h

theorem Covered.commitBlock (h : books.Covered) (blockHash : BlockHash) :
    Covered (books.perform pf (.commitBlock blockHash)) := by
  obtain ⟨hmempool, -, hstaged⟩ := BlockKeeper.commitBlock_memory pf books.store blockHash
  have hcreated : (books.store.commitBlock pf blockHash).1.created = books.store.created := by
    rcases BlockKeeper.commitBlock_cases pf books.store blockHash with
      ⟨-, e, heq⟩ | ⟨block, -, -, -, heq⟩ | ⟨block, fault, e, -, -, -, heq⟩
    all_goals rw [heq]
  refine ⟨?_, ?_⟩
  · intro id tx hlookup
    simp only [perform] at hlookup
    rw [hmempool] at hlookup
    exact h.mempool id tx hlookup
  · rintro block ⟨hmem, hlookup⟩ tx htx
    simp only [perform] at hmem hlookup
    rw [hcreated] at hmem
    exact h.packed block ⟨hmem, hstaged _ _ hlookup⟩ tx htx

/-- Nothing is handed back of a block none of whose transactions is under way. -/
theorem returnTransactions_of_none {k : BlockKeeper} {txs : List SignedTransaction}
    (h : ∀ tx ∈ txs, k.pendingTransactions.lookup tx.txId = none) :
    txs.foldl (BlockKeeper.returnTransaction pf) k = k := by
  induction txs with
  | nil => rfl
  | cons tx txs ih =>
      have hfirst : k.returnTransaction pf tx = k := by
        rw [BlockKeeper.returnTransaction, h tx List.mem_cons_self]
      rw [List.foldl_cons, hfirst]
      exact ih fun other hmem => h other (List.mem_cons_of_mem tx hmem)

theorem Covered.rollbackBlock (h : books.Covered) {blockHash : BlockHash}
    (hspares : books.Spares (.rollbackBlock blockHash)) :
    Covered (books.perform pf (.rollbackBlock blockHash)) := by
  simp only [perform]
  cases hblock : books.store.getUncommitedBlock blockHash with
  | none => exact h
  | some block =>
      obtain ⟨hmempool, hpending, hpacked⟩ := hspares block hblock
      have hstore : (books.store.rollbackBlock pf blockHash).1 =
          { books.store with
            uncommitedBlocks := books.store.uncommitedBlocks.erase blockHash } := by
        have hlookup : books.store.uncommitedBlocks.lookup blockHash = some block := hblock
        simp only [BlockKeeper.rollbackBlock, hlookup]
        exact returnTransactions_of_none hpending
      rw [hstore]
      refine ⟨?_, ?_⟩
      · intro id tx hlookup
        exact TransactionProcessor.mem_appliedTransactions_rollbackTransactions.mpr
          ⟨h.mempool id tx hlookup, hmempool id tx hlookup⟩
      · rintro other ⟨hmem, hlookup⟩ tx htx
        dsimp only at hmem hlookup
        rw [HashMap.lookup_erase_ite] at hlookup
        split at hlookup
        · cases hlookup
        · rename_i hne
          exact TransactionProcessor.mem_appliedTransactions_rollbackTransactions.mpr
            ⟨h.packed other ⟨hmem, hlookup⟩ tx htx, hpacked other ⟨hmem, hlookup⟩ hne tx htx⟩

/-- An operation that spares what is under way keeps the books covered. -/
theorem Covered.perform (h : books.Covered) {operation : BookOperation}
    (hspares : books.Spares operation) : Covered (books.perform pf operation) := by
  cases operation with
  | stageTransaction clientTx => exact h.stageTransaction clientTx
  | addBlock block => exact h.addBlock hspares
  | commitBlock blockHash => exact h.commitBlock blockHash
  | rollbackBlock blockHash => exact h.rollbackBlock hspares

theorem Covered.commitsApplied (h : books.Covered) (operation : BookOperation) :
    books.CommitsApplied operation := by
  cases operation with
  | commitBlock blockHash => exact fun block hpacked _ => h.packed block hpacked
  | _ => trivial

theorem Covered.performAll (h : books.Covered) {operations : List BookOperation}
    (hspares : Throughout pf Spares books operations) :
    Covered (books.performAll pf operations) ∧
      Throughout pf CommitsApplied books operations := by
  induction operations generalizing books with
  | nil => exact ⟨h, trivial⟩
  | cons operation operations ih =>
      obtain ⟨hcovered, hcommits⟩ := ih (h.perform hspares.1) hspares.2
      exact ⟨hcovered, h.commitsApplied operation, hcommits⟩

end Books

namespace Peer

/-- In every run in which every block rolled back is unshared, and every block that
    comes back to the peer that packed it is accepted whole, the ledger covers the
    mempool and the staged blocks the peer has packed, and the peer commits a block
    it has packed only with all its transactions applied. -/
theorem run_covered {pf : Platform} {p : Peer} (hstart : p.Started pf) {events : List Event}
    (hspares : Books.Throughout pf Books.Spares p.effects.books (p.runOperations pf events)) :
    (p.run pf events).effects.books.Covered ∧
      Books.Throughout pf Books.CommitsApplied p.effects.books (p.runOperations pf events) := by
  have hnew : p.effects.books.Covered := by
    obtain ⟨id, network, dir, mempoolSize, walk, signingKey, heq⟩ := hstart.effects
    rw [heq]
    refine ⟨fun id tx hlookup => (by cases hlookup), ?_⟩
    rintro block ⟨hmem, -⟩
    cases hmem
  rw [run_books]
  exact hnew.performAll hspares

end Peer

namespace Reference

/-- Peer 3 votes against a block. -/
def rejectionOf (block : BlockFile) : Peer.Event :=
  .message { «from» := 3, «to» := 1, body := .blockReject block.hash } 0 0

/-- A client's transaction is packed, and a block of peer 2 is rejected. -/
def foreignRejected : List Peer.Event :=
  [submission otherDeposit, proposalOf (firstBlock deposit), rejectionOf (firstBlock deposit)]

/-- A client's transaction is packed, and the block is rejected. -/
def ownRejected : List Peer.Event := [submission deposit, rejectionOf (firstBlock deposit)]

end Reference

namespace Peer

/-- The block of peer 2 is rolled back; the client's is staged and its transaction
    applied. -/
theorem run_covered_foreignRejected :
    let p := (Reference.votingPeer [2, 3, 4]).run Reference.platform Reference.foreignRejected
    Books.Packed p.effects.books.store (Reference.firstBlock Reference.otherDeposit) ∧
      p.effects.books.Covered := by
  have hoperations : (Reference.votingPeer [2, 3, 4]).runOperations Reference.platform
      Reference.foreignRejected =
        [.stageTransaction Reference.otherDeposit,
          .addBlock (Reference.firstBlock Reference.deposit),
          .rollbackBlock (Reference.firstBlock Reference.deposit).hash] := by
    decide +kernel
  refine ⟨⟨by decide +kernel, by decide +kernel⟩,
    (run_covered (Reference.votingPeer_started [2, 3, 4]) ?_).1⟩
  rw [hoperations]
  refine ⟨trivial, ?_, ?_, trivial⟩
  · -- The peer has not packed this block.
    have hnew : Reference.firstBlock Reference.deposit ∉
        ((Reference.votingPeer [2, 3, 4]).effects.books.perform Reference.platform
          (.stageTransaction Reference.otherDeposit)).store.created := by
      decide +kernel
    exact fun hmem => absurd hmem hnew
  · generalize hbooks : ((Reference.votingPeer [2, 3, 4]).effects.books.perform Reference.platform
      (.stageTransaction Reference.otherDeposit)).perform Reference.platform
        (.addBlock (Reference.firstBlock Reference.deposit)) = books
    have hstaged : books.store.getUncommitedBlock (Reference.firstBlock Reference.deposit).hash =
        some (Reference.firstBlock Reference.deposit) := by
      rw [← hbooks]
      decide +kernel
    have hmempool : books.store.mempool.entries = [] := by
      rw [← hbooks]
      decide +kernel
    have hpending : ∀ tx ∈ (Reference.firstBlock Reference.deposit).transactions,
        books.store.pendingTransactions.lookup tx.txId = none := by
      rw [← hbooks]
      decide +kernel
    have hcreated : ∀ other ∈ books.store.created, ∀ tx ∈ other.transactions,
        tx.txId ∉ (Reference.firstBlock Reference.deposit).txIds := by
      rw [← hbooks]
      decide +kernel
    intro block hblock
    cases hstaged.symm.trans hblock
    refine ⟨?_, hpending, fun other hpacked _ => hcreated other hpacked.1⟩
    intro id tx hlookup
    have hentry := HashMap.lookup_eq_some_iff.mp hlookup
    rw [hmempool] at hentry
    cases hentry

/-- The rejected block is packed again, and its transaction is not applied. -/
theorem ownRejected_uncovered :
    let p := (Reference.votingPeer [2, 3, 4]).run Reference.platform Reference.ownRejected
    (Reference.votingPeer [2, 3, 4]).Started Reference.platform ∧
      Reference.deposit.verify Reference.platform = .ok () ∧
      Books.Packed p.effects.books.store (Reference.firstBlock Reference.deposit) ∧
      Reference.deposit ∈ (Reference.firstBlock Reference.deposit).transactions ∧
      Reference.deposit.txId ∉ p.effects.books.ledger.appliedTransactions ∧
      ¬ p.effects.books.Covered := by
  have hpacked : Books.Packed
      ((Reference.votingPeer [2, 3, 4]).run Reference.platform
        Reference.ownRejected).effects.books.store (Reference.firstBlock Reference.deposit) :=
    ⟨by decide +kernel, by decide +kernel⟩
  have hmissing : Reference.deposit.txId ∉
      ((Reference.votingPeer [2, 3, 4]).run Reference.platform
        Reference.ownRejected).effects.books.ledger.appliedTransactions := by
    decide +kernel
  have hmem : Reference.deposit ∈ (Reference.firstBlock Reference.deposit).transactions :=
    List.mem_singleton_self _
  exact ⟨Reference.votingPeer_started [2, 3, 4], by decide +kernel, hpacked, hmem, hmissing,
    fun h => hmissing (h.packed _ hpacked _ hmem)⟩

end Peer
end Rustchain
