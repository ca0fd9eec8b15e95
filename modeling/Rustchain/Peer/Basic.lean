/-
  Rustchain.Peer.Basic

  A peer (`peer.rs`): which message goes where, what is validated and staged
  before consensus is asked, and the execution of its answer.  The clock and the
  random draw of an election timeout are arguments.  `handle_message` prints the
  error of a message; here the error is returned next to the peer.
-/

import Rustchain.Peer.Effects

namespace Rustchain

structure Peer where
  id : PeerId
  consensus : ConsensusEngine
  /-- What the watch channel `consensus_state_tx` holds. -/
  consensusState : ConsensusState
  effects : PeerEffects

namespace Peer

def new (pf : Platform) (id : PeerId) (network : Network) (consensus : ConsensusEngine)
    (blockKeeper : BlockKeeper) (signingKey : SigningKey) : Peer :=
  { id
    consensus
    consensusState := consensus.state
    effects := .new pf id network blockKeeper signingKey }

-- ============================================================================
-- Executing what consensus answers
-- ============================================================================

/-- `execute_consensus_effects`: the new state is published only when every
    effect succeeded. -/
def executeConsensusEffects (pf : Platform) (p : Peer) (queue : List ConsensusEffect) :
    Peer × Except String Unit :=
  match p.effects.executeAll pf p.consensus queue with
  | (effects, consensus, .ok ()) =>
    ({ p with effects, consensus, consensusState := consensus.state }, .ok ())
  | (effects, consensus, .error e) => ({ p with effects, consensus }, .error e)

/-- Executes the answer of a consensus handler, or passes its error on. -/
def answer (pf : Platform) (p : Peer)
    (response : ConsensusEngine × Except String (List ConsensusEffect)) :
    Peer × Except String Unit :=
  match response with
  | (consensus, .ok queue) => { p with consensus }.executeConsensusEffects pf queue
  | (consensus, .error e) => ({ p with consensus }, .error e)

/-- The services after an answer are those `execute_all` leaves. -/
theorem answer_ok (pf : Platform) (p : Peer) (consensus : ConsensusEngine)
    (queue : List ConsensusEffect) :
    (p.answer pf (consensus, .ok queue)).1.effects =
        (p.effects.executeAll pf consensus queue).1 ∧
      (p.answer pf (consensus, .ok queue)).1.consensus =
        (p.effects.executeAll pf consensus queue).2.1 := by
  simp only [answer, executeConsensusEffects]
  split <;> simp_all

/-- The result of an answer is the one of `execute_all`. -/
theorem answer_result (pf : Platform) (p : Peer) (consensus : ConsensusEngine)
    (queue : List ConsensusEffect) :
    (p.answer pf (consensus, .ok queue)).2 = (p.effects.executeAll pf consensus queue).2.2 := by
  simp only [answer, executeConsensusEffects]
  split <;> simp_all

-- ============================================================================
-- Messages
-- ============================================================================

def processClientTransaction (pf : Platform) (p : Peer) (clientTx : SignedTransaction) :
    Peer × Except String Unit :=
  match clientTx.verify pf with
  | .error e => (p, .error e)
  | .ok () => p.answer pf (p.consensus, p.consensus.onClientTransaction clientTx)

def synchronizeTransaction (pf : Platform) (p : Peer) (verifiedTx : VerifiedTransaction) :
    Peer × Except String Unit :=
  match verifiedTx.verify pf with
  | .error e => (p, .error e)
  | .ok () =>
    match p.effects.stageClientTransaction pf verifiedTx.clientTx with
    | (effects, .error e) => ({ p with effects }, .error e)
    | (effects, .ok .addedToMempool) => ({ p with effects }, .ok ())
    | (effects, .ok (.newBlockCreated blockHash)) =>
      { p with effects }.answer pf (p.consensus.onBlockCreated pf blockHash)

/-- The peer's own check of a proposed block: whether it verified and could be
    staged. -/
def validateProposal (pf : Platform) (p : Peer) (blockHash : BlockHash) (blockFile : Bytes)
    (signature : Signature) (publicKey : VerifyingKey) : PeerEffects × Except String Bool :=
  match BlockFile.verifyBlockVec pf blockHash blockFile signature publicKey with
  | .ok block => p.effects.stageExternalBlock pf block
  | .error _ => (p.effects, .ok false)

def processBlockProposal (pf : Platform) (p : Peer) (blockHash : BlockHash) (blockFile : Bytes)
    (signature : Signature) (publicKey : VerifyingKey) (src : PeerId) :
    Peer × Except String Unit :=
  if p.effects.lastCompletedBlock = blockHash then (p, .ok ())
  else
    match p.validateProposal pf blockHash blockFile signature publicKey with
    | (effects, .error e) => ({ p with effects }, .error e)
    | (effects, .ok isOk) =>
      { p with effects }.answer pf
        (p.consensus.onBlockProposalValidated blockHash src isOk effects.knownPeers)

def processBlockVote (pf : Platform) (p : Peer) (blockHash : BlockHash) (src : PeerId)
    (approve : Bool) : Peer × Except String Unit :=
  if p.effects.lastCompletedBlock = blockHash then (p, .ok ())
  else
    match p.effects.ensureUncommittedBlock blockHash with
    | .error e => (p, .error e)
    | .ok () =>
      p.answer pf (p.consensus.onBlockVote blockHash src approve p.effects.knownPeers)

/-- `handle_message`. -/
def handleMessage (pf : Platform) (p : Peer) (message : Message) (now : Instant) (draw : Nat) :
    Peer × Except String Unit :=
  match message.body with
  | .clientTransaction clientTx => p.processClientTransaction pf clientTx
  | .synchronization verifiedTx => p.synchronizeTransaction pf verifiedTx
  | .blockProposal blockHash blockFile signature publicKey =>
    p.processBlockProposal pf blockHash blockFile signature publicKey message.from
  | .blockApproved blockHash => p.processBlockVote pf blockHash message.from true
  | .blockReject blockHash => p.processBlockVote pf blockHash message.from false
  | body => p.answer pf (p.consensus.onMessage pf message.from body now draw)

/-- `handle_tick`. -/
def handleTick (pf : Platform) (p : Peer) (now : Instant) : Peer × Except String Unit :=
  p.answer pf (p.consensus.onTick pf now p.effects.knownPeers)

/-- `apply_synchronized_block`. -/
def applySynchronizedBlock (pf : Platform) (p : Peer) (block : BlockFile) :
    Peer × Except String Unit :=
  let (effects, result) := p.effects.applySynchronizedBlock pf block
  ({ p with effects }, result)

/-- What a running peer meets: a message, the tick of its clock, a block fetched by
    synchronization, or a change of the peers its network knows. -/
inductive Event where
  | message (message : Message) (now : Instant) (draw : Nat)
  | tick (now : Instant)
  | synchronized (block : BlockFile)
  | discovered (knownPeers : List PeerId)

def handle (pf : Platform) (p : Peer) : Event → Peer
  | .message message now draw => (p.handleMessage pf message now draw).1
  | .tick now => (p.handleTick pf now).1
  | .synchronized block => (p.applySynchronizedBlock pf block).1
  | .discovered knownPeers =>
    { p with effects := { p.effects with network := { p.effects.network with knownPeers } } }

/-- A peer after a sequence of events. -/
def run (pf : Platform) (p : Peer) (events : List Event) : Peer := events.foldl (handle pf) p

-- ============================================================================
-- Starting
-- ============================================================================

/-- A voting peer over a block directory, as `run_peer` builds it. -/
def startVoting (pf : Platform) (id : PeerId) (network : Network) (dir : BlockDir)
    (mempoolSize : Nat) (walk : HashMap.Walk BlockHash BlockFile) (signingKey : SigningKey) :
    Peer :=
  .new pf id network (.newVoting id) (.new pf dir mempoolSize walk) signingKey

/-- A Raft peer over a block directory and a log file, as `run_peer` and
    `create_raft_consensus` build it; a log file that cannot be read stops it. -/
def startRaft (pf : Platform) (id : PeerId) (network : Network) (dir : BlockDir)
    (store : FileRaftLogStore) (mempoolSize : Nat) (walk : HashMap.Walk BlockHash BlockFile)
    (signingKey : SigningKey) (now : Instant) (draw : Nat) : Except String Peer :=
  let blockKeeper := BlockKeeper.new pf dir mempoolSize walk
  match ConsensusEngine.newRaftWithStorage pf id (.file store)
    blockKeeper.blockStorageState.blockHeight now draw with
  | .error e => .error e
  | .ok consensus => .ok (.new pf id network consensus blockKeeper signingKey)

end Peer
end Rustchain
