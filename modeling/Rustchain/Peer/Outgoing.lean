/-
  Rustchain.Peer.Outgoing

  What a peer sends, its receivers accept, and the transactions in it are ones
  the peer was given.

  The invariant is about three parts at once: the block store, whose blocks pass
  their own check, the consensus engine, whose log is contiguous, and the effects
  under way, which ask for nothing that would not pass.
-/

import Rustchain.Peer.Backing

namespace Rustchain

-- ============================================================================
-- Services
-- ============================================================================

/-- A call that `src` stands behind. -/
structure NetworkCall.Vouched (pf : Platform) (good : SignedTransaction → Prop) (src : PeerId)
    (call : NetworkCall) : Prop where
  sender : call.sender = src
  passes : call.body.Passes pf src
  bears : call.body.Bears pf good

namespace PeerEffects

/-- The services of peer `src`: the blocks it can send pass their own check and hold good
    transactions only, its public key is that of its signing key, and all it has sent
    passes. -/
structure Vouches (pf : Platform) (good : SignedTransaction → Prop) (src : PeerId)
    (effects : PeerEffects) : Prop where
  peerId : effects.peerId = src
  store : effects.blockKeeper.Authentic pf good
  publicKey : effects.publicKey = pf.verifyingKey effects.signingKey
  processed : ∀ tx ∈ effects.processed, good tx
  calls : ∀ call ∈ effects.network.calls, call.Vouched pf good src

variable {pf : Platform} {good : SignedTransaction → Prop} {src : PeerId} {effects : PeerEffects}

/-- One more call. -/
theorem Vouches.call (h : effects.Vouches pf good src) {call : NetworkCall}
    (hcall : call.Vouched pf good src) :
    ({ effects with
      network := { effects.network with
        calls := effects.network.calls ++ [call] } } : PeerEffects).Vouches pf good src := by
  refine ⟨h.peerId, h.store, h.publicKey, h.processed, ?_⟩
  intro other hmem
  rcases List.mem_append.mp hmem with hmem | hmem
  · exact h.calls other hmem
  · rw [List.mem_singleton.mp hmem]
    exact hcall

/-- The payload of a block that passes its check, signed by the peer itself. -/
theorem Vouches.verifyBlockVec (hpf : pf.Lawful) (h : effects.Vouches pf good src)
    {block : BlockFile} (hverify : block.verifyBlock pf = .ok ()) :
    BlockFile.verifyBlockVec pf block.hash (pf.encodeBlock block)
      (pf.sign effects.signingKey (pf.encodeBlock block)) effects.publicKey = .ok block := by
  rw [BlockFile.verifyBlockVec, h.publicKey, hpf.verify_sign]
  simp only [hpf.decode_encodeBlock, ne_eq, not_true_eq_false, if_false, hverify]

/-- A replicated entry is a no-op without a payload, or comes with the block it names. -/
theorem Vouches.replicatedEntry (h : effects.Vouches pf good src) {entry : RaftLogEntry}
    {replicated : RaftReplicatedBlock}
    (hreplicated : effects.replicatedEntry pf entry = .ok replicated) :
    (entry.isNoop = true ∧ replicated =
        { entry
          blockFile := []
          signature := pf.sign effects.signingKey []
          publicKey := effects.publicKey }) ∨
      (entry.isNoop = false ∧ ∃ block : BlockFile, block.hash = entry.blockHash ∧
        block.verifyBlock pf = .ok () ∧ (∀ tx ∈ block.transactions, good tx) ∧ replicated =
          { entry
            blockFile := pf.encodeBlock block
            signature := pf.sign effects.signingKey (pf.encodeBlock block)
            publicKey := effects.publicKey }) := by
  unfold PeerEffects.replicatedEntry at hreplicated
  simp only at hreplicated
  split at hreplicated
  · rename_i hnoop
    cases hreplicated
    exact Or.inl ⟨hnoop, rfl⟩
  rename_i hnoop
  rw [Bool.not_eq_true] at hnoop
  split at hreplicated
  · rename_i block hlookup
    cases hreplicated
    obtain ⟨hhash, hverify⟩ := h.store.staged entry.blockHash block hlookup
    exact Or.inr ⟨hnoop, block, hhash, hverify, h.store.only.staged _ block hlookup, rfl⟩
  split at hreplicated
  · rename_i block hread
    cases hreplicated
    obtain ⟨hhash, hverify, hgood⟩ := h.store.readBlockByHash hread
    exact Or.inr ⟨hnoop, block, hhash, hverify, hgood, rfl⟩
  · cases hreplicated

/-- A follower validates what is replicated to it. -/
theorem Vouches.replicatedEntries (hpf : pf.Lawful) (h : effects.Vouches pf good src)
    {entries : List RaftLogEntry} {replicated : List RaftReplicatedBlock}
    (hreplicated : effects.replicatedEntries pf entries = .ok replicated) :
    (∃ validated, RaftConsensus.validateReplicatedEntries pf replicated = .ok validated) ∧
      ∀ other ∈ replicated, other.entry.isNoop = false →
        ∀ block, BlockFile.verifyBlockVec pf other.entry.blockHash other.blockFile other.signature
          other.publicKey = .ok block → ∀ tx ∈ block.transactions, good tx := by
  induction entries generalizing replicated with
  | nil =>
      cases hreplicated
      exact ⟨⟨_, rfl⟩, fun other hmem => absurd hmem List.not_mem_nil⟩
  | cons entry entries ih =>
      rw [PeerEffects.replicatedEntries] at hreplicated
      cases hentry : effects.replicatedEntry pf entry with
      | error e =>
          rw [hentry] at hreplicated
          cases hreplicated
      | ok first =>
          rw [hentry] at hreplicated
          dsimp only at hreplicated
          cases hrest : effects.replicatedEntries pf entries with
          | error e =>
              rw [hrest] at hreplicated
              cases hreplicated
          | ok rest =>
              rw [hrest] at hreplicated
              cases hreplicated
              obtain ⟨⟨validated, hvalid⟩, hbears⟩ := ih hrest
              rw [RaftConsensus.validateReplicatedEntries]
              rcases h.replicatedEntry hentry with
                ⟨hnoop, rfl⟩ | ⟨hnoop, block, hhash, hverify, hgood, rfl⟩
              · refine ⟨?_, ?_⟩
                · rw [if_pos hnoop]
                  simp only [List.isEmpty_nil, Bool.not_true, Bool.false_eq_true, if_false,
                    h.publicKey, hpf.verify_sign, hvalid]
                  exact ⟨_, rfl⟩
                · intro other hmem hother
                  rcases List.mem_cons.mp hmem with rfl | hmem
                  · rw [hnoop] at hother
                    cases hother
                  · exact hbears other hmem hother
              · have hpasses := h.verifyBlockVec hpf hverify
                refine ⟨?_, ?_⟩
                · rw [if_neg (by rw [hnoop]; exact Bool.false_ne_true)]
                  simp only [← hhash, hpasses, hvalid]
                  exact ⟨_, rfl⟩
                · intro other hmem hother b hother'
                  rcases List.mem_cons.mp hmem with rfl | hmem
                  · dsimp only at hother'
                    rw [← hhash, hpasses] at hother'
                    cases hother'
                    exact hgood
                  · exact hbears other hmem hother b hother'

-- ============================================================================
-- Executing effects
-- ============================================================================

/-- Services, consensus and queue after a step of a batch. -/
structure Executed.Sound (pf : Platform) (good : SignedTransaction → Prop) (src : PeerId)
    (executed : Executed) : Prop where
  effects : executed.effects.Vouches pf good src
  consensus : executed.consensus.Vouches good
  queued : ∀ effect ∈ executed.queued, effect.Backed pf good src

/-- A step that queues nothing. -/
theorem Vouches.executed (h : effects.Vouches pf good src) {consensus : ConsensusEngine}
    (hconsensus : consensus.Vouches good) (result : Except String Unit) :
    Executed.Sound pf good src { effects, consensus, queued := [], result } :=
  ⟨h, hconsensus, fun _ hmem => absurd hmem List.not_mem_nil⟩

theorem Vouches.queueAll (h : effects.Vouches pf good src)
    {answer : ConsensusEngine × Except String (List ConsensusEffect)}
    (hanswer : SoundAnswer pf good src answer) : (effects.queueAll answer).Sound pf good src := by
  obtain ⟨consensus, result⟩ := answer
  cases result with
  | ok queued => exact ⟨h, hanswer.consensus, hanswer.backs queued rfl⟩
  | error e => exact h.executed hanswer.consensus (.error e)

theorem Vouches.stageClientTransaction (hpf : pf.Lawful) (h : effects.Vouches pf good src)
    {clientTx : SignedTransaction} (hgood : good clientTx) :
    (effects.stageClientTransaction pf clientTx).1.Vouches pf good src := by
  have hprocessed : ∀ tx ∈ effects.processed ++ [clientTx], good tx := by
    intro tx hmem
    rcases List.mem_append.mp hmem with hmem | hmem
    · exact h.processed tx hmem
    · rw [List.mem_singleton.mp hmem]
      exact hgood
  unfold PeerEffects.stageClientTransaction
  split
  · exact h
  dsimp only
  split
  · exact ⟨h.peerId, h.store, h.publicKey, hprocessed, h.calls⟩
  · have hstore := h.store.operate hpf (.addTransaction clientTx) hgood
    exact ⟨h.peerId, hstore, h.publicKey, hprocessed, h.calls⟩

theorem Vouches.commitBlock (hpf : pf.Lawful) (h : effects.Vouches pf good src)
    (blockHash : BlockHash) : (effects.commitBlock pf blockHash).1.Vouches pf good src := by
  have hstore := h.store.operate hpf (.commitBlock blockHash) trivial
  unfold PeerEffects.commitBlock
  split
  · rename_i heq
    rw [BlockKeeper.operate, heq] at hstore
    exact ⟨h.peerId, hstore, h.publicKey, h.processed, h.calls⟩
  · rename_i heq
    rw [BlockKeeper.operate, heq] at hstore
    exact ⟨h.peerId, hstore, h.publicKey, h.processed, h.calls⟩

theorem Vouches.rollbackBlock (hpf : pf.Lawful) (h : effects.Vouches pf good src)
    (blockHash : BlockHash) : (effects.rollbackBlock pf blockHash).1.Vouches pf good src := by
  have hstore := h.store.operate hpf (.rollbackBlock blockHash) trivial
  unfold PeerEffects.rollbackBlock
  split
  · exact ⟨h.peerId, h.store, h.publicKey, h.processed, h.calls⟩
  dsimp only
  split
  · rename_i heq
    rw [BlockKeeper.operate, heq] at hstore
    exact ⟨h.peerId, hstore, h.publicKey, h.processed, h.calls⟩
  · rename_i heq
    rw [BlockKeeper.operate, heq] at hstore
    exact ⟨h.peerId, hstore, h.publicKey, h.processed, h.calls⟩

/-- A proposal carries the staged block. -/
theorem Vouches.broadcastBlockProposal (hpf : pf.Lawful) (h : effects.Vouches pf good src)
    (blockHash : BlockHash) :
    (effects.broadcastBlockProposal pf blockHash).1.Vouches pf good src := by
  have hstore := h.store.operate hpf (.commitBlock blockHash) trivial
  unfold PeerEffects.broadcastBlockProposal
  split
  · split
    · rename_i heq
      rw [BlockKeeper.operate, heq] at hstore
      exact ⟨h.peerId, hstore, h.publicKey, h.processed, h.calls⟩
    · rename_i heq
      rw [BlockKeeper.operate, heq] at hstore
      exact ⟨h.peerId, hstore, h.publicKey, h.processed, h.calls⟩
  · split
    · exact h
    · rename_i block hlookup
      obtain ⟨hhash, hverify⟩ := h.store.staged blockHash block hlookup
      have hpasses := h.verifyBlockVec hpf hverify
      rw [hhash] at hpasses
      refine h.call ⟨h.peerId, ⟨block, hpasses⟩, ?_⟩
      intro b hother
      rw [hpasses] at hother
      cases hother
      exact h.store.only.staged blockHash block hlookup

theorem Vouches.sendRaftAppendEntries (hpf : pf.Lawful) (h : effects.Vouches pf good src)
    (dst : PeerId) (term prevLogIndex prevLogTerm : Nat) {entries : List RaftLogEntry} (leaderCommit : Nat)
    (hcontiguous : Contiguous prevLogIndex entries) :
    (effects.sendRaftAppendEntries pf dst term prevLogIndex prevLogTerm entries
      leaderCommit).1.Vouches pf good src := by
  unfold PeerEffects.sendRaftAppendEntries
  split
  · exact h
  · rename_i replicated hreplicated
    obtain ⟨hvalid, hbears⟩ := h.replicatedEntries hpf hreplicated
    refine h.call ⟨h.peerId, ⟨h.peerId, ?_, hvalid⟩, hbears⟩
    rw [replicatedEntries_entries hreplicated]
    exact entriesAreContiguousAfter_iff.mpr hcontiguous

theorem Vouches.broadcastClientTransaction (hpf : pf.Lawful) (h : effects.Vouches pf good src)
    {clientTx : SignedTransaction} (hverify : clientTx.verify pf = .ok ()) (hgood : good clientTx) :
    (effects.broadcastClientTransaction pf clientTx).Vouches pf good src := by
  refine h.call ⟨h.peerId, ?_, fun _ => hgood⟩
  show VerifiedTransaction.verify pf (.new pf clientTx effects.signingKey) = .ok ()
  simp only [VerifiedTransaction.verify, VerifiedTransaction.new, hverify, hpf.verify_sign]

/-- Adding a block checks it. -/
theorem Vouches.addExternalBlock (hpf : pf.Lawful) (h : effects.Vouches pf good src)
    {block : BlockFile} (hgood : ∀ tx ∈ block.transactions, good tx) {blockKeeper : BlockKeeper}
    {result : Except BlockVerificationError Unit}
    (hadd : (effects.applyBlockTransactions block).blockKeeper.addExternalBlock pf block =
      (blockKeeper, result)) :
    ({ effects.applyBlockTransactions block with blockKeeper } : PeerEffects).Vouches pf good src := by
  have hstore := h.store.operate hpf (.addExternalBlock block) hgood
  change ((effects.applyBlockTransactions block).blockKeeper.addExternalBlock pf
    block).1.Authentic pf good at hstore
  rw [hadd] at hstore
  refine ⟨h.peerId, hstore, h.publicKey, ?_, h.calls⟩
  intro tx hmem
  rcases List.mem_append.mp hmem with hmem | hmem
  · exact h.processed tx hmem
  · exact hgood tx hmem

/-- Staging takes the blocks that consensus kept for it. -/
theorem Vouches.stageRaftEntries (hpf : pf.Lawful) {consensus : ConsensusEngine}
    (entries : List RaftLogEntry) (h : effects.Vouches pf good src)
    (hconsensus : consensus.Vouches good) :
    (effects.stageRaftEntries pf consensus entries).1.Vouches pf good src ∧
      (effects.stageRaftEntries pf consensus entries).2.1.Vouches good := by
  induction entries generalizing effects consensus with
  | nil => exact ⟨h, hconsensus⟩
  | cons entry entries ih =>
      rw [PeerEffects.stageRaftEntries]
      split
      · exact ih h hconsensus
      have htaken : (consensus.takePendingRaftBlock entry.blockHash).1.Vouches good ∧
          ∀ block, (consensus.takePendingRaftBlock entry.blockHash).2 = some block →
            ∀ tx ∈ block.transactions, good tx := by
        cases consensus with
        | voting peerId votings => exact ⟨trivial, fun block hnone => by cases hnone⟩
        | raft r =>
            exact ⟨⟨hconsensus.log, HashMap.forall_erase hconsensus.pending _⟩,
              fun block hlookup => hconsensus.pending _ block hlookup⟩
      obtain ⟨htaken, hkept⟩ := htaken
      dsimp only
      split
      · exact ih h htaken
      split
      · exact ⟨h, htaken⟩
      rename_i block hpending
      have hgood := hkept block hpending
      split
      · exact ⟨h, htaken⟩
      split
      · rename_i hadd
        exact ⟨h.addExternalBlock hpf hgood hadd, htaken⟩
      · rename_i hadd
        exact ih (h.addExternalBlock hpf hgood hadd) htaken

/-- Executing an effect that is backed. -/
theorem Vouches.executeEffect (hpf : pf.Lawful) (h : effects.Vouches pf good src)
    {consensus : ConsensusEngine} (hconsensus : consensus.Vouches good) {effect : ConsensusEffect}
    (hbacked : effect.Backed pf good src) :
    (effects.executeEffect pf consensus effect).Sound pf good src := by
  cases effect with
  | stageClientTransaction clientTx =>
      have hstaged := h.stageClientTransaction hpf hbacked
      simp only [PeerEffects.executeEffect]
      split
      · rename_i heq
        rw [heq] at hstaged
        exact hstaged.executed hconsensus _
      · rename_i heq
        rw [heq] at hstaged
        exact hstaged.executed hconsensus _
      · rename_i heq
        rw [heq] at hstaged
        exact hstaged.queueAll (ConsensusEngine.onBlockCreated_sound hconsensus _)
  | stageRaftEntries entries =>
      obtain ⟨hstaged, hconsensus'⟩ := h.stageRaftEntries hpf entries hconsensus
      exact hstaged.executed hconsensus' _
  | broadcastClientTransaction clientTx =>
      exact (h.broadcastClientTransaction hpf hbacked.1 hbacked.2).executed hconsensus _
  | proposeBlock blockHash =>
      have hproposed := h.broadcastBlockProposal hpf blockHash
      simp only [PeerEffects.executeEffect]
      split
      · rename_i heq
        rw [heq] at hproposed
        exact hproposed.executed hconsensus _
      · rename_i heq
        rw [heq] at hproposed
        exact hproposed.executed hconsensus _
      · rename_i heq
        rw [heq] at hproposed
        exact hproposed.queueAll (ConsensusEngine.onLocalBlockProposed_sound hconsensus _ _)
  | sendRaftAppendEntries dst term prevLogIndex prevLogTerm entries leaderCommit =>
      exact (h.sendRaftAppendEntries hpf dst term prevLogIndex prevLogTerm leaderCommit
        hbacked).executed hconsensus _
  | commitBlock blockHash => exact (h.commitBlock hpf blockHash).executed hconsensus _
  | rollbackBlock blockHash => exact (h.rollbackBlock hpf blockHash).executed hconsensus _
  | broadcast body =>
      have hcall : (NetworkCall.broadcast body effects.peerId).Vouched pf good src :=
        ⟨h.peerId, hbacked.1, hbacked.2⟩
      exact (h.call hcall).executed hconsensus _
  | send dst body =>
      have hcall : (NetworkCall.send { «from» := effects.peerId, «to» := dst, body }).Vouched
          pf good src := ⟨h.peerId, hbacked.1, hbacked.2⟩
      exact (h.call hcall).executed hconsensus _

/-- A batch whose queue is backed. -/
structure Batch.Backed (pf : Platform) (good : SignedTransaction → Prop) (src : PeerId)
    (b : Batch) : Prop where
  effects : b.effects.Vouches pf good src
  consensus : b.consensus.Vouches good
  queue : ∀ effect ∈ b.queue, effect.Backed pf good src

theorem Batch.Backed.turn (hpf : pf.Lawful) {b : Batch} {effect : ConsensusEffect}
    {rest : List ConsensusEffect}
    (h : Batch.Backed pf good src { b with queue := effect :: rest }) :
    Batch.Backed pf good src ({ b with queue := rest }.turn pf effect) := by
  obtain ⟨hvouches, hconsensus, hqueue⟩ := h
  have hexecuted := hvouches.executeEffect hpf hconsensus (hqueue effect List.mem_cons_self)
  refine ⟨hexecuted.effects, hexecuted.consensus, ?_⟩
  intro other hmem
  rcases List.mem_append.mp hmem with hmem | hmem
  · exact hqueue other (List.mem_cons_of_mem effect hmem)
  · exact hexecuted.queued other hmem

end PeerEffects

-- ============================================================================
-- Peers
-- ============================================================================

namespace Peer

/-- Services and consensus of a peer. -/
structure Vouches (pf : Platform) (good : SignedTransaction → Prop) (src : PeerId) (p : Peer) :
    Prop where
  effects : p.effects.Vouches pf good src
  consensus : p.consensus.Vouches good

/-- The transactions that come with the event are good. -/
def Event.Bears (pf : Platform) (good : SignedTransaction → Prop) : Event → Prop
  | .message sent _ _ => sent.body.Bears pf good
  | .synchronized block => ∀ tx ∈ block.transactions, good tx
  | .tick _ | .discovered _ => True

variable {pf : Platform} {good : SignedTransaction → Prop} {src : PeerId} {p : Peer}

/-- The whole answer of a handler is executed. -/
theorem Vouches.answer (hpf : pf.Lawful) (h : p.Vouches pf good src)
    {response : ConsensusEngine × Except String (List ConsensusEffect)}
    (hresponse : SoundAnswer pf good src response) :
    (p.answer pf response).1.Vouches pf good src := by
  obtain ⟨consensus, e | queue⟩ := response
  · exact ⟨h.effects, hresponse.consensus⟩
  have hstart : PeerEffects.Batch.Backed pf good src
      { effects := p.effects, consensus, queue, errors := [] } :=
    ⟨h.effects, hresponse.consensus, hresponse.backs queue rfl⟩
  obtain ⟨b, hbacked, -, heq⟩ := PeerEffects.executeAll_preserves
    (I := PeerEffects.Batch.Backed pf good src) (fun _ _ _ hbatch => hbatch.turn hpf) hstart
  obtain ⟨heffects, hconsensus⟩ := answer_ok pf p consensus queue
  rw [heq] at heffects hconsensus
  refine ⟨?_, ?_⟩
  · rw [heffects]
    exact hbacked.effects
  · rw [hconsensus]
    exact hbacked.consensus

theorem Vouches.processClientTransaction (hpf : pf.Lawful) (h : p.Vouches pf good src)
    {clientTx : SignedTransaction} (hbears : clientTx.verify pf = .ok () → good clientTx) :
    (p.processClientTransaction pf clientTx).1.Vouches pf good src := by
  unfold Peer.processClientTransaction
  split
  · exact h
  · rename_i hverify
    exact h.answer hpf
      (ConsensusEngine.onClientTransaction_sound h.consensus hverify (hbears hverify))

theorem Vouches.synchronizeTransaction (hpf : pf.Lawful) (h : p.Vouches pf good src)
    {verifiedTx : VerifiedTransaction}
    (hbears : verifiedTx.verify pf = .ok () → good verifiedTx.clientTx) :
    (p.synchronizeTransaction pf verifiedTx).1.Vouches pf good src := by
  unfold Peer.synchronizeTransaction
  split
  · exact h
  rename_i hverify
  have hstaged := h.effects.stageClientTransaction hpf (hbears hverify)
  split
  · rename_i heq
    rw [heq] at hstaged
    exact ⟨hstaged, h.consensus⟩
  · rename_i heq
    rw [heq] at hstaged
    exact ⟨hstaged, h.consensus⟩
  · rename_i heq
    rw [heq] at hstaged
    refine Vouches.answer hpf ?_ (ConsensusEngine.onBlockCreated_sound h.consensus _)
    exact ⟨hstaged, h.consensus⟩

theorem Vouches.processBlockProposal (hpf : pf.Lawful) (h : p.Vouches pf good src)
    {blockHash : BlockHash} {blockFile : Bytes} {signature : Signature} {publicKey : VerifyingKey}
    (proposer : PeerId)
    (hbears : ∀ block,
      BlockFile.verifyBlockVec pf blockHash blockFile signature publicKey = .ok block →
        ∀ tx ∈ block.transactions, good tx) :
    (p.processBlockProposal pf blockHash blockFile signature publicKey proposer).1.Vouches
      pf good src := by
  have hvalidated : (p.validateProposal pf blockHash blockFile signature publicKey).1.Vouches
      pf good src := by
    unfold Peer.validateProposal
    split
    · rename_i block hverify
      have hgood := hbears block hverify
      unfold PeerEffects.stageExternalBlock
      split
      · exact h.effects
      dsimp only
      split
      · rename_i hadd
        exact h.effects.addExternalBlock hpf hgood hadd
      · rename_i hadd
        exact h.effects.addExternalBlock hpf hgood hadd
    · exact h.effects
  unfold Peer.processBlockProposal
  split
  · exact h
  split
  · rename_i heq
    rw [heq] at hvalidated
    exact ⟨hvalidated, h.consensus⟩
  · rename_i heq
    rw [heq] at hvalidated
    refine Vouches.answer hpf ?_
      (ConsensusEngine.onBlockProposalValidated_sound h.consensus _ _ _ _)
    exact ⟨hvalidated, h.consensus⟩

theorem Vouches.processBlockVote (hpf : pf.Lawful) (h : p.Vouches pf good src)
    (blockHash : BlockHash) (voter : PeerId) (approve : Bool) :
    (p.processBlockVote pf blockHash voter approve).1.Vouches pf good src := by
  unfold Peer.processBlockVote
  split
  · exact h
  split
  · exact h
  · exact h.answer hpf (ConsensusEngine.onBlockVote_sound h.consensus _ _ _ _)

theorem Vouches.applySynchronizedBlock (hpf : pf.Lawful) (h : p.Vouches pf good src)
    {block : BlockFile} (hgood : ∀ tx ∈ block.transactions, good tx) :
    (p.applySynchronizedBlock pf block).1.Vouches pf good src := by
  refine ⟨?_, h.consensus⟩
  show (p.effects.applySynchronizedBlock pf block).1.Vouches pf good src
  unfold PeerEffects.applySynchronizedBlock
  split
  · exact h.effects
  dsimp only
  split
  · rename_i hadd
    exact h.effects.addExternalBlock hpf hgood hadd
  · rename_i hadd
    have hadded := h.effects.addExternalBlock hpf hgood hadd
    have hstore := hadded.store.operate hpf (.commitBlock block.hash) trivial
    split
    · rename_i hcommit
      rw [BlockKeeper.operate, hcommit] at hstore
      exact ⟨h.effects.peerId, hstore, h.effects.publicKey, hadded.processed, h.effects.calls⟩
    · rename_i hcommit
      rw [BlockKeeper.operate, hcommit] at hstore
      exact ⟨h.effects.peerId, hstore, h.effects.publicKey, hadded.processed, h.effects.calls⟩

/-- Every event. -/
theorem Vouches.handle (hpf : pf.Lawful) (h : p.Vouches pf good src) {event : Event}
    (hbears : event.Bears pf good) : (p.handle pf event).Vouches pf good src := by
  cases event with
  | message message now draw =>
      obtain ⟨peerId, dst, body⟩ := message
      have hbody : body.Bears pf good := hbears
      cases body with
      | clientTransaction clientTx => exact h.processClientTransaction hpf hbody
      | synchronization verifiedTx => exact h.synchronizeTransaction hpf hbody
      | blockProposal blockHash blockFile signature publicKey =>
          exact h.processBlockProposal hpf peerId hbody
      | blockApproved blockHash => exact h.processBlockVote hpf blockHash peerId true
      | blockReject blockHash => exact h.processBlockVote hpf blockHash peerId false
      | _ =>
          exact h.answer hpf (ConsensusEngine.onMessage_sound h.consensus peerId hbody now draw)
  | tick now => exact h.answer hpf (ConsensusEngine.onTick_sound h.consensus now _)
  | synchronized block => exact h.applySynchronizedBlock hpf hbears
  | discovered knownPeers =>
      exact ⟨⟨h.effects.peerId, h.effects.store, h.effects.publicKey, h.effects.processed,
        h.effects.calls⟩, h.consensus⟩

theorem Vouches.run (hpf : pf.Lawful) (h : p.Vouches pf good src) (events : List Event)
    (hbears : ∀ event ∈ events, event.Bears pf good) : (p.run pf events).Vouches pf good src := by
  induction events generalizing p with
  | nil => exact h
  | cons event events ih =>
      exact ih (h.handle hpf (hbears event List.mem_cons_self)) fun other hmem =>
        hbears other (List.mem_cons_of_mem event hmem)

/-- Where every transaction is good, any event comes with good ones. -/
theorem Event.bears_all (pf : Platform) (event : Event) : event.Bears pf fun _ => True := by
  cases event with
  | message message now draw =>
      obtain ⟨peerId, dst, body⟩ := message
      cases body with
      | blockProposal => exact fun _ _ _ _ => trivial
      | raftAppendEntries => exact fun _ _ _ _ _ _ _ => trivial
      | clientTransaction | synchronization => exact fun _ => trivial
      | _ => trivial
  | synchronized block => exact fun _ _ => trivial
  | tick now => trivial
  | discovered knownPeers => trivial

/-- A peer that has sent nothing yet, started in either mode on block files that pass
    their own check and hold good transactions only and, in Raft mode, on a log that
    peers wrote. -/
def StartsSound (pf : Platform) (good : SignedTransaction → Prop) (src : PeerId) (p : Peer) :
    Prop :=
  ∃ network dir mempoolSize walk signingKey, network.calls = [] ∧
    BlockDir.Authentic pf good dir ∧
    (p = .startVoting pf src network dir mempoolSize walk signingKey ∨
      ∃ store now draw, Written pf (.file store) ∧
        startRaft pf src network dir store mempoolSize walk signingKey now draw = .ok p)

theorem StartsSound.vouches (hpf : pf.Lawful) (h : p.StartsSound pf good src) :
    p.Vouches pf good src := by
  obtain ⟨network, dir, mempoolSize, walk, signingKey, hcalls, hdir, hstart⟩ := h
  have heffects : (PeerEffects.new pf src network (.new pf dir mempoolSize walk)
      signingKey).Vouches pf good src := by
    refine ⟨rfl, BlockKeeper.new_authentic hpf hdir mempoolSize walk, rfl,
      fun tx hmem => absurd hmem List.not_mem_nil, ?_⟩
    intro call hcall
    rw [show (PeerEffects.new pf src network (.new pf dir mempoolSize walk)
      signingKey).network.calls = [] from hcalls] at hcall
    cases hcall
  rcases hstart with rfl | ⟨store, now, draw, hstore, hstart⟩
  · exact ⟨heffects, trivial⟩
  · obtain ⟨r, hnew, -, hlog, -⟩ := RaftConsensus.newWithStorage_sound (hstore.storeSound hpf) src
      (BlockKeeper.new pf dir mempoolSize walk).blockStorageState.blockHeight now draw
    have hpending : r.pendingBlocks = ∅ := RaftConsensus.newWithStorage_pendingBlocks hnew
    simp only [startRaft, ConsensusEngine.newRaftWithStorage, hnew] at hstart
    cases hstart
    refine ⟨heffects, hlog, ?_⟩
    intro h b hlookup
    rw [hpending] at hlookup
    cases hlookup

/-- Whatever a peer has met, everything it has sent names it as the sender and passes the
    checks of the receivers. -/
theorem sent_passes (hpf : pf.Lawful) (hstart : p.StartsSound pf (fun _ => True) src)
    (events : List Event) :
    ∀ call ∈ (p.run pf events).effects.network.calls,
      call.sender = src ∧ call.body.Passes pf src := by
  intro call hmem
  have hrun := (hstart.vouches hpf).run hpf events fun event _ => event.bears_all pf
  exact ⟨(hrun.effects.calls call hmem).sender, (hrun.effects.calls call hmem).passes⟩

end Peer

namespace Reference

/-- Peer 2 votes for peer 1, which then packs a deposit. -/
def electedAndPaid : List Peer.Event :=
  [.tick 20000,
    .message { «from» := 2, «to» := 1, body := .raftRequestVoteResponse 1 true } 20000 0,
    submission deposit]

theorem empty_authentic (good : SignedTransaction → Prop) (path : String) :
    (BlockDir.empty path).Authentic platform good := by
  refine ⟨?_, ?_⟩
  · intro filename contents hlookup
    cases hlookup
  · intro n fault contents hfault
    cases hfault

theorem raftPeer_startsSound (good : SignedTransaction → Prop) (id : PeerId)
    (knownPeers : List PeerId) : (raftPeer id knownPeers).StartsSound platform good id :=
  ⟨_, _, _, _, _, rfl, empty_authentic good "data", Or.inr ⟨_, _, _, .empty ⟨rfl, rfl⟩,
    raftPeer_started id knownPeers⟩⟩

end Reference

namespace Peer

open Reference

/-- A new leader asks for votes, and sends its no-op and then the block with it. -/
theorem sent_passes_leader :
    let calls := ((raftPeer 1 [2]).run platform electedAndPaid).effects.network.calls
    calls.map (fun call => call.body.display) =
        ["RaftRequestVote", "RaftAppendEntries", "RaftAppendEntries"] ∧
      ∀ call ∈ calls, call.sender = 1 ∧ call.body.Passes platform 1 :=
  ⟨by decide +kernel, sent_passes platform_lawful (raftPeer_startsSound _ 1 [2]) electedAndPaid⟩

end Peer

end Rustchain
