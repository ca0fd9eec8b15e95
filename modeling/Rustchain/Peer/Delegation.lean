/-
  Rustchain.Peer.Delegation

  What an event of a Raft peer is to its consensus: a sequence of handler calls,
  and the messages that executing their effects sends.

  The first call may be the message or the tick itself.  All others are local:
  a client's transaction, the block it completes, a payload taken for staging.
  They leave the term alone, and no message is sent before the log has its final
  form: so every message of the event belongs to the log the peer has after it.
-/

import Rustchain.Peer.Published

namespace Rustchain

-- ============================================================================
-- Handler calls
-- ============================================================================

/-- The event comes from the peer itself: it is no message and no tick. -/
def RaftEvent.isLocal : RaftEvent → Bool
  | .clientTransaction _ | .blockCreated _ | .takePendingBlock _ => true
  | .tick .. | .receive .. => false

theorem isLocal_takes (hashes : List BlockHash) :
    ∀ event ∈ hashes.map RaftEvent.takePendingBlock, event.isLocal = true := by
  intro event hmem
  obtain ⟨hash, -, rfl⟩ := List.mem_map.mp hmem
  rfl

namespace RaftConsensus

variable {pf : Platform} {r : RaftConsensus} {events : List RaftEvent} {event : RaftEvent}
  {effect : ConsensusEffect}

/-- The state after a sequence of handler calls. -/
def handleEach (pf : Platform) (r : RaftConsensus) (events : List RaftEvent) : RaftConsensus :=
  events.foldl (fun r event => (r.handle pf event).1) r

@[simp] theorem handleEach_cons (pf : Platform) (r : RaftConsensus) (event : RaftEvent)
    (events : List RaftEvent) :
    r.handleEach pf (event :: events) = (r.handle pf event).1.handleEach pf events := rfl

@[simp] theorem handleEach_append (pf : Platform) (r : RaftConsensus)
    (events events' : List RaftEvent) :
    r.handleEach pf (events ++ events') = (r.handleEach pf events).handleEach pf events' :=
  List.foldl_append

/-- One of the calls asks for the effect, and its log is the one the last call leaves. -/
def Asks (pf : Platform) (r : RaftConsensus) (events : List RaftEvent)
    (effect : ConsensusEffect) : Prop :=
  ∃ past event future effects, events = past ++ event :: future ∧
    ((r.handleEach pf past).handle pf event).2 = .ok effects ∧ effect ∈ effects ∧
    ((r.handleEach pf past).handle pf event).1.log = (r.handleEach pf events).log

theorem Asks.last {effects : List ConsensusEffect}
    (h : ((r.handleEach pf events).handle pf event).2 = .ok effects) (hmem : effect ∈ effects) :
    r.Asks pf (events ++ [event]) effect := by
  refine ⟨events, event, [], effects, rfl, h, hmem, ?_⟩
  rw [handleEach_append]
  rfl

/-- Calls that leave the log alone may follow. -/
theorem Asks.append (h : r.Asks pf events effect) {later : List RaftEvent}
    (hlog : (r.handleEach pf (events ++ later)).log = (r.handleEach pf events).log) :
    r.Asks pf (events ++ later) effect := by
  obtain ⟨past, event, future, effects, rfl, hok, hmem, hsame⟩ := h
  refine ⟨past, event, future ++ later, effects, ?_, hok, hmem, hsame.trans hlog.symm⟩
  rw [List.append_assoc, List.cons_append]

/-- Taking payloads changes nothing else. -/
theorem handleEach_take (pf : Platform) (r : RaftConsensus) (hashes : List BlockHash) :
    ∃ pendingBlocks, r.handleEach pf (hashes.map .takePendingBlock) = { r with pendingBlocks } := by
  induction hashes generalizing r with
  | nil => exact ⟨r.pendingBlocks, rfl⟩
  | cons hash hashes ih =>
      obtain ⟨pendingBlocks, h⟩ := ih (r.takePendingBlock hash).1
      exact ⟨pendingBlocks, h⟩

/-- A leader's own entries leave its term alone. -/
theorem onBlockCreated_currentTerm (pf : Platform) (r : RaftConsensus) (blockHash : BlockHash) :
    (r.onBlockCreated pf blockHash).1.currentTerm = r.currentTerm := by
  rw [onBlockCreated]
  split
  · rw [appendLocalBlock]
    split
    · rfl
    · rw [appendAsLeader, persistThen_fst]
      simp only
      rw [advanceCommitIndex_fst]
  · rfl
  · rfl

theorem handle_currentTerm_of_isLocal (pf : Platform) (r : RaftConsensus)
    (h : event.isLocal = true) : (r.handle pf event).1.currentTerm = r.currentTerm := by
  cases event with
  | clientTransaction clientTx => rfl
  | blockCreated blockHash => exact r.onBlockCreated_currentTerm pf blockHash
  | takePendingBlock blockHash => rfl
  | tick now knownPeers => cases h
  | receive src body now draw => cases h

theorem handleEach_currentTerm (pf : Platform) (r : RaftConsensus)
    (h : ∀ event ∈ events, event.isLocal = true) :
    (r.handleEach pf events).currentTerm = r.currentTerm := by
  induction events generalizing r with
  | nil => rfl
  | cons event events ih =>
      rw [handleEach_cons, ih _ fun e he => h e (List.mem_cons_of_mem event he)]
      exact r.handle_currentTerm_of_isLocal pf (h event List.mem_cons_self)

end RaftConsensus

-- ============================================================================
-- Effects of Raft handlers
-- ============================================================================

namespace ConsensusEffect

/-- The effects of Raft handlers other than the staging of a client's transaction. -/
def isRaft : ConsensusEffect → Bool
  | .send .. | .broadcast _ | .sendRaftAppendEntries .. | .commitBlock _ | .rollbackBlock _
  | .stageRaftEntries _ => true
  | _ => false

theorem isRaft_of_isPlain {effect : ConsensusEffect} (h : effect.isPlain = true) :
    effect.isRaft = true := by
  cases effect <;> first | rfl | cases h

/-- The calls to the network that executing an effect at peer `p` can make. -/
inductive Calls (p : PeerId) : ConsensusEffect → NetworkCall → Prop where
  | broadcast (body : MessageBody) : Calls p (.broadcast body) (.broadcast body p)
  | send (dst : PeerId) (body : MessageBody) :
      Calls p (.send dst body) (.send { «from» := p, «to» := dst, body })
  | sendRaftAppendEntries (dst : PeerId) (term prevLogIndex prevLogTerm : Nat)
      (replicated : List RaftReplicatedBlock) (leaderCommit : Nat) :
      Calls p
        (.sendRaftAppendEntries dst term prevLogIndex prevLogTerm
          (replicated.map RaftReplicatedBlock.entry) leaderCommit)
        (.send
          { «from» := p
            «to» := dst
            body := .raftAppendEntries term p prevLogIndex prevLogTerm replicated leaderCommit })

end ConsensusEffect

theorem Accepted.effects_isRaft (a : Accepted) : ∀ effect ∈ a.effects, effect.isRaft = true := by
  intro effect hmem
  rw [Accepted.effects] at hmem
  rcases List.mem_append.mp hmem with hmem | hmem
  · rcases List.mem_append.mp hmem with hmem | hmem
    · obtain ⟨hash, -, rfl⟩ := List.mem_map.mp hmem
      rfl
    · split at hmem
      · cases hmem
      · rw [List.mem_singleton.mp hmem]
        rfl
  · obtain ⟨hash, -, rfl⟩ := List.mem_map.mp hmem
    rfl

namespace RaftConsensus

theorem onBlockCreated_isRaft (pf : Platform) (r : RaftConsensus) (blockHash : BlockHash)
    {effects : List ConsensusEffect} (h : (r.onBlockCreated pf blockHash).2 = .ok effects) :
    ∀ effect ∈ effects, effect.isRaft = true := by
  intro effect hmem
  rcases r.onBlockCreated_grows pf blockHash with hgrows | ⟨-, hgrows⟩
  · exact ConsensusEffect.isRaft_of_isPlain (hgrows.plain effects h effect hmem)
  · exact ConsensusEffect.isRaft_of_isPlain (hgrows.plain effects h effect hmem)

theorem onTick_isRaft (pf : Platform) (r : RaftConsensus) (now : Instant)
    (knownPeers : List PeerId) {effects : List ConsensusEffect}
    (h : (r.onTick pf now knownPeers).2 = .ok effects) :
    ∀ effect ∈ effects, effect.isRaft = true :=
  fun effect hmem => ConsensusEffect.isRaft_of_isPlain
    ((r.onTick_grows pf now knownPeers).plain effects h effect hmem)

theorem handleAppendEntries_isRaft (pf : Platform) (r : RaftConsensus)
    (request : AppendEntriesRequest) (draw : Nat) {effects : List ConsensusEffect}
    (h : (r.handleAppendEntries pf request draw).2 = .ok effects) :
    ∀ effect ∈ effects, effect.isRaft = true := by
  intro effect hmem
  have hanswers := r.handleAppendEntries_answers pf request draw
  cases haccepted : r.acceptance pf request draw with
  | none =>
      rw [haccepted] at hanswers
      rcases hanswers with ⟨e, herror⟩ | ⟨term, matchIndex, hok⟩
      · rw [herror] at h
        cases h
      · rw [hok] at h
        cases h
        rw [List.mem_singleton.mp hmem]
        rfl
  | some a =>
      rw [haccepted] at hanswers
      obtain ⟨⟨term, matchIndex, hok⟩, -⟩ := hanswers
      rw [hok] at h
      cases h
      rcases List.mem_append.mp hmem with hmem | hmem
      · exact a.effects_isRaft effect hmem
      · rw [List.mem_singleton.mp hmem]
        rfl

theorem onMessage_isRaft (pf : Platform) (r : RaftConsensus) (src : PeerId) (body : MessageBody)
    (now : Instant) (draw : Nat) {effects : List ConsensusEffect}
    (h : (r.onMessage pf src body now draw).2 = .ok effects) :
    ∀ effect ∈ effects, effect.isRaft = true := by
  cases body with
  | raftAppendEntries term leaderId prevLogIndex prevLogTerm entries leaderCommit =>
      exact r.handleAppendEntries_isRaft pf _ draw h
  | _ =>
      intro effect hmem
      refine ConsensusEffect.isRaft_of_isPlain
        ((r.onMessage_grows pf src now draw ?_).plain effects h effect hmem)
      rintro _ _ _ _ _ _ ⟨⟩

end RaftConsensus

-- ============================================================================
-- Executing them
-- ============================================================================

namespace PeerEffects

variable {pf : Platform}

theorem replicatedEntries_entries {effects : PeerEffects} {entries : List RaftLogEntry}
    {replicated : List RaftReplicatedBlock}
    (h : effects.replicatedEntries pf entries = .ok replicated) :
    replicated.map RaftReplicatedBlock.entry = entries := by
  have hone : ∀ entry block, effects.replicatedEntry pf entry = .ok block → block.entry = entry := by
    intro entry block hblock
    unfold replicatedEntry at hblock
    simp only at hblock
    split at hblock
    · cases hblock
      rfl
    split at hblock
    · cases hblock
      rfl
    split at hblock
    · cases hblock
      rfl
    · cases hblock
  induction entries generalizing replicated with
  | nil =>
      cases h
      rfl
  | cons entry entries ih =>
      rw [replicatedEntries] at h
      cases hentry : effects.replicatedEntry pf entry with
      | error e =>
          rw [hentry] at h
          cases h
      | ok block =>
          rw [hentry] at h
          simp only at h
          cases hrest : effects.replicatedEntries pf entries with
          | error e =>
              rw [hrest] at h
              cases h
          | ok rest =>
              rw [hrest] at h
              cases h
              rw [List.map_cons, hone entry block hentry, ih hrest]

/-- The services and consensus after handler calls of a Raft peer: only network calls
    that effects of these calls make were made. -/
structure Delegates (pf : Platform) (r : RaftConsensus) (events : List RaftEvent)
    (effects effects' : PeerEffects) (consensus : ConsensusEngine) : Prop where
  engine : consensus = .raft (r.handleEach pf events)
  peerId : effects'.peerId = effects.peerId
  knownPeers : effects'.network.knownPeers = effects.network.knownPeers
  calls : ∃ new, effects'.network.calls = effects.network.calls ++ new ∧
    ∀ call ∈ new, ∃ effect, r.Asks pf events effect ∧ effect.Calls effects.peerId call

/-- Staging takes payloads and calls nobody. -/
theorem stageRaftEntries_takes (pf : Platform) (effects : PeerEffects) (r : RaftConsensus)
    (entries : List RaftLogEntry) :
    ∃ hashes : List BlockHash,
      (effects.stageRaftEntries pf (.raft r) entries).2.1 =
          .raft (r.handleEach pf (hashes.map .takePendingBlock)) ∧
        (effects.stageRaftEntries pf (.raft r) entries).1.peerId = effects.peerId ∧
        (effects.stageRaftEntries pf (.raft r) entries).1.network = effects.network := by
  induction entries generalizing effects r with
  | nil => exact ⟨[], rfl, rfl, rfl⟩
  | cons entry entries ih =>
      rw [stageRaftEntries]
      split
      · exact ih effects r
      simp only [ConsensusEngine.takePendingRaftBlock]
      -- Whatever comes next, the payload of this entry is taken.
      have htaken : ∀ effects' : PeerEffects, effects'.peerId = effects.peerId →
          effects'.network = effects.network → ∃ hashes : List BlockHash,
            (effects'.stageRaftEntries pf (.raft (r.takePendingBlock entry.blockHash).1)
                entries).2.1 = .raft (r.handleEach pf (hashes.map .takePendingBlock)) ∧
              (effects'.stageRaftEntries pf (.raft (r.takePendingBlock entry.blockHash).1)
                entries).1.peerId = effects.peerId ∧
              (effects'.stageRaftEntries pf (.raft (r.takePendingBlock entry.blockHash).1)
                entries).1.network = effects.network := by
        intro effects' hpeer hnetwork
        obtain ⟨hashes, hengine, hpeer', hnetwork'⟩ :=
          ih effects' (r.takePendingBlock entry.blockHash).1
        exact ⟨entry.blockHash :: hashes, hengine, hpeer'.trans hpeer, hnetwork'.trans hnetwork⟩
      split
      · exact htaken effects rfl rfl
      split
      · exact ⟨[entry.blockHash], rfl, rfl, rfl⟩
      split
      · exact ⟨[entry.blockHash], rfl, rfl, rfl⟩
      split
      · exact ⟨[entry.blockHash], rfl, rfl, rfl⟩
      · exact htaken _ rfl rfl

/-- What executing an effect of a Raft handler does to consensus and network. -/
theorem executeEffect_takes (pf : Platform) (effects : PeerEffects) (r : RaftConsensus)
    {effect : ConsensusEffect} (hraft : effect.isRaft = true) :
    let executed := effects.executeEffect pf (.raft r) effect
    executed.queued = [] ∧ ∃ hashes : List BlockHash,
      executed.consensus = .raft (r.handleEach pf (hashes.map .takePendingBlock)) ∧
      executed.effects.peerId = effects.peerId ∧
      executed.effects.network.knownPeers = effects.network.knownPeers ∧
      ∃ new, executed.effects.network.calls = effects.network.calls ++ new ∧
        ∀ call ∈ new, effect.Calls effects.peerId call := by
  -- An effect that calls nobody.
  have hsilent : ∀ {effects' : PeerEffects}, effects'.network = effects.network →
      ∃ new, effects'.network.calls = effects.network.calls ++ new ∧
        ∀ call ∈ new, effect.Calls effects.peerId call := fun hnetwork =>
    ⟨[], by rw [hnetwork, List.append_nil], fun _ h => absurd h List.not_mem_nil⟩
  cases effect with
  | send dst body =>
      refine ⟨rfl, [], rfl, rfl, rfl, [_], rfl, ?_⟩
      intro call hcall
      rw [List.mem_singleton.mp hcall]
      exact .send dst body
  | broadcast body =>
      refine ⟨rfl, [], rfl, rfl, rfl, [_], rfl, ?_⟩
      intro call hcall
      rw [List.mem_singleton.mp hcall]
      exact .broadcast body
  | sendRaftAppendEntries dst term prevLogIndex prevLogTerm entries leaderCommit =>
      simp only [executeEffect, sendRaftAppendEntries]
      cases hreplicated : effects.replicatedEntries pf entries with
      | error e => exact ⟨trivial, [], rfl, rfl, rfl, hsilent rfl⟩
      | ok replicated =>
          refine ⟨trivial, [], rfl, rfl, rfl, [_], rfl, ?_⟩
          intro call hcall
          rw [List.mem_singleton.mp hcall, ← replicatedEntries_entries hreplicated]
          exact .sendRaftAppendEntries dst term prevLogIndex prevLogTerm replicated leaderCommit
  | stageRaftEntries entries =>
      obtain ⟨hashes, hengine, hpeer, hnetwork⟩ := effects.stageRaftEntries_takes pf r entries
      exact ⟨rfl, hashes, hengine, hpeer, congrArg Network.knownPeers hnetwork, hsilent hnetwork⟩
  | commitBlock blockHash =>
      have hkept : (effects.commitBlock pf blockHash).1.peerId = effects.peerId ∧
          (effects.commitBlock pf blockHash).1.network = effects.network := by
        unfold commitBlock
        split <;> exact ⟨rfl, rfl⟩
      exact ⟨rfl, [], rfl, hkept.1, congrArg Network.knownPeers hkept.2, hsilent hkept.2⟩
  | rollbackBlock blockHash =>
      have hkept : (effects.rollbackBlock pf blockHash).1.peerId = effects.peerId ∧
          (effects.rollbackBlock pf blockHash).1.network = effects.network := by
        unfold rollbackBlock
        split
        · exact ⟨rfl, rfl⟩
        simp only
        split <;> exact ⟨rfl, rfl⟩
      exact ⟨rfl, [], rfl, hkept.1, congrArg Network.knownPeers hkept.2, hsilent hkept.2⟩
  | _ => cases hraft

variable {r : RaftConsensus} {events : List RaftEvent} {effects effects' : PeerEffects}
  {consensus : ConsensusEngine}

/-- A batch of effects that the calls asked for. -/
structure Batch.Delegated (pf : Platform) (r : RaftConsensus) (events : List RaftEvent)
    (effects : PeerEffects) (b : Batch) : Prop where
  delegates : Delegates pf r events effects b.effects b.consensus
  queue : ∀ effect ∈ b.queue, effect.isRaft = true ∧ r.Asks pf events effect

/-- Every turn adds payloads taken for staging, and calls of the effect it executes. -/
theorem Batch.Delegated.turn {b : Batch} {effect : ConsensusEffect} {rest : List ConsensusEffect}
    (h : Batch.Delegated pf r events effects { b with queue := effect :: rest }) :
    ∃ hashes : List BlockHash,
      Batch.Delegated pf r (events ++ hashes.map .takePendingBlock) effects
        ({ b with queue := rest }.turn pf effect) := by
  obtain ⟨⟨hengine, hpeer, hknown, new, hcalls, hnew⟩, hqueue⟩ := h
  obtain ⟨hraft, hasked⟩ := hqueue effect List.mem_cons_self
  have htakes := b.effects.executeEffect_takes pf (r.handleEach pf events) hraft
  rw [← hengine] at htakes
  obtain ⟨hqueued, hashes, hengine', hpeer', hknown', more, hcalls', hmore⟩ := htakes
  -- What was asked for stays asked for.
  have hlater : ∀ {effect : ConsensusEffect}, r.Asks pf events effect →
      r.Asks pf (events ++ hashes.map .takePendingBlock) effect := by
    intro effect hasks
    refine hasks.append ?_
    obtain ⟨pendingBlocks, htake⟩ := (r.handleEach pf events).handleEach_take pf hashes
    rw [RaftConsensus.handleEach_append, htake]
  refine ⟨hashes, ⟨?_, hpeer'.trans hpeer, hknown'.trans hknown, new ++ more, ?_, ?_⟩, ?_⟩
  · rw [RaftConsensus.handleEach_append]
    exact hengine'
  · show (b.effects.executeEffect pf b.consensus effect).effects.network.calls = _
    rw [hcalls', ← List.append_assoc, ← hcalls]
  · intro call hcall
    rcases List.mem_append.mp hcall with hcall | hcall
    · obtain ⟨source, hasks, hmakes⟩ := hnew call hcall
      exact ⟨source, hlater hasks, hmakes⟩
    · refine ⟨effect, hlater hasked, ?_⟩
      rw [← show b.effects.peerId = effects.peerId from hpeer]
      exact hmore call hcall
  · intro other hother
    have hrest : other ∈ rest := by
      simp only [Batch.turn, hqueued, List.append_nil] at hother
      exact hother
    obtain ⟨hplain, hasks⟩ := hqueue other (List.mem_cons_of_mem effect hrest)
    exact ⟨hplain, hlater hasks⟩

/-- A batch that is executed adds payloads taken for staging. -/
theorem executeAll_delegates {queue : List ConsensusEffect}
    (h : Batch.Delegated pf r events effects
      { effects := effects', consensus, queue, errors := [] }) :
    ∃ hashes : List BlockHash,
      Delegates pf r (events ++ hashes.map .takePendingBlock) effects
        (effects'.executeAll pf consensus queue).1
        (effects'.executeAll pf consensus queue).2.1 := by
  have hturn : ∀ (b : Batch) (effect : ConsensusEffect) (rest : List ConsensusEffect),
      (∃ hashes : List BlockHash, Batch.Delegated pf r (events ++ hashes.map .takePendingBlock)
        effects { b with queue := effect :: rest }) →
      ∃ hashes : List BlockHash, Batch.Delegated pf r (events ++ hashes.map .takePendingBlock)
        effects ({ b with queue := rest }.turn pf effect) := by
    rintro b effect rest ⟨hashes, hdelegated⟩
    obtain ⟨more, hnext⟩ := hdelegated.turn
    rw [List.append_assoc, ← List.map_append] at hnext
    exact ⟨hashes ++ more, hnext⟩
  have hstart : Batch.Delegated pf r (events ++ [].map .takePendingBlock) effects
      { effects := effects', consensus, queue, errors := [] } := by
    rw [List.map_nil, List.append_nil]
    exact h
  obtain ⟨b, ⟨hashes, hdelegated⟩, -, heq⟩ := executeAll_preserves
    (I := fun b => ∃ hashes : List BlockHash,
      Batch.Delegated pf r (events ++ hashes.map .takePendingBlock) effects b)
    hturn ⟨[], hstart⟩
  rw [heq]
  exact ⟨hashes, hdelegated.delegates⟩

/-- Before any effect is executed. -/
theorem Delegates.refl (pf : Platform) (r : RaftConsensus) (event : RaftEvent)
    (hpeer : effects'.peerId = effects.peerId) (hnetwork : effects'.network = effects.network) :
    Delegates pf r [event] effects effects' (.raft (r.handle pf event).1) := by
  refine ⟨rfl, hpeer, congrArg Network.knownPeers hnetwork, [], ?_, ?_⟩
  · rw [hnetwork, List.append_nil]
  · exact fun _ h => absurd h List.not_mem_nil

/-- Without a handler call nothing is sent. -/
theorem Delegates.idle (pf : Platform) {r : RaftConsensus} (hengine : consensus = .raft r)
    (hpeer : effects'.peerId = effects.peerId) (hnetwork : effects'.network = effects.network) :
    Delegates pf r [] effects effects' consensus := by
  refine ⟨hengine, hpeer, congrArg Network.knownPeers hnetwork, [], ?_, ?_⟩
  · rw [hnetwork, List.append_nil]
  · exact fun _ h => absurd h List.not_mem_nil

theorem stageClientTransaction_silent (pf : Platform) (effects : PeerEffects)
    (clientTx : SignedTransaction) :
    (effects.stageClientTransaction pf clientTx).1.peerId = effects.peerId ∧
      (effects.stageClientTransaction pf clientTx).1.network = effects.network := by
  unfold stageClientTransaction
  split
  · exact ⟨rfl, rfl⟩
  simp only
  split <;> exact ⟨rfl, rfl⟩

/-- Executing what a handler call asks for. -/
theorem executeAll_handle {queue : List ConsensusEffect} {past : List RaftEvent}
    {event : RaftEvent} (hpeer : effects'.peerId = effects.peerId)
    (hnetwork : effects'.network = effects.network)
    (hok : ((r.handleEach pf past).handle pf event).2 = .ok queue)
    (hraft : ∀ effect ∈ queue, effect.isRaft = true) :
    ∃ hashes : List BlockHash,
      Delegates pf r (past ++ event :: hashes.map .takePendingBlock) effects
        (effects'.executeAll pf (.raft ((r.handleEach pf past).handle pf event).1) queue).1
        (effects'.executeAll pf (.raft ((r.handleEach pf past).handle pf event).1) queue).2.1 := by
  have hstart : Batch.Delegated pf r (past ++ [event]) effects
      { effects := effects'
        consensus := .raft ((r.handleEach pf past).handle pf event).1
        queue
        errors := [] } := by
    refine ⟨⟨?_, hpeer, congrArg Network.knownPeers hnetwork, [], ?_, ?_⟩, ?_⟩
    · rw [RaftConsensus.handleEach_append]
      rfl
    · rw [hnetwork, List.append_nil]
    · exact fun _ h => absurd h List.not_mem_nil
    · exact fun effect hmem => ⟨hraft effect hmem, .last hok hmem⟩
  obtain ⟨hashes, hdelegates⟩ := executeAll_delegates hstart
  rw [List.append_assoc, List.singleton_append] at hdelegates
  exact ⟨hashes, hdelegates⟩

/-- A leader stages a client's transaction, and appends the block that it completes. -/
theorem executeAll_stage_delegates (pf : Platform) (effects : PeerEffects) (r : RaftConsensus)
    (clientTx : SignedTransaction) :
    ∃ later : List RaftEvent, (∀ event ∈ later, event.isLocal = true) ∧
      Delegates pf r (.clientTransaction clientTx :: later) effects
        (effects.executeAll pf (.raft r) [.stageClientTransaction clientTx]).1
        (effects.executeAll pf (.raft r) [.stageClientTransaction clientTx]).2.1 := by
  obtain ⟨hpeer, hnetwork⟩ := effects.stageClientTransaction_silent pf clientTx
  have hnone : ∀ event ∈ ([] : List RaftEvent), event.isLocal = true :=
    fun _ h => absurd h List.not_mem_nil
  rcases hstage : effects.stageClientTransaction pf clientTx with ⟨staged, e | _ | blockHash⟩
  all_goals rw [hstage] at hpeer hnetwork
  · obtain ⟨e', heq⟩ := executeAll_single_error
      (show effects.executeEffect pf (.raft r) (.stageClientTransaction clientTx) =
        { effects := staged, consensus := .raft r, queued := [], result := .error e } by
          simp only [executeEffect, hstage])
    rw [heq]
    exact ⟨[], hnone, .refl pf r (.clientTransaction clientTx) hpeer hnetwork⟩
  · rw [executeAll_single
      (show effects.executeEffect pf (.raft r) (.stageClientTransaction clientTx) =
        { effects := staged, consensus := .raft r, queued := [], result := .ok () } by
          simp only [executeEffect, hstage])
      fun _ h => absurd h List.not_mem_nil]
    exact ⟨[], hnone, .refl pf r (.clientTransaction clientTx) hpeer hnetwork⟩
  · -- The block is complete, and goes into the leader's log.
    have hexecute : effects.executeEffect pf (.raft r) (.stageClientTransaction clientTx) =
        staged.queueAll (ConsensusEngine.ofRaft (r.onBlockCreated pf blockHash)) := by
      simp only [executeEffect, hstage]
      rfl
    rcases hanswer : r.onBlockCreated pf blockHash with ⟨r', e | queued⟩
    · obtain ⟨e', heq⟩ := executeAll_single_error (hexecute.trans (by rw [hanswer]; rfl))
      rw [heq]
      refine ⟨[.blockCreated blockHash], fun _ h => by rw [List.mem_singleton.mp h]; rfl, ?_⟩
      have hengine : r.handleEach pf [.clientTransaction clientTx, .blockCreated blockHash] = r' :=
        congrArg Prod.fst hanswer
      refine ⟨congrArg _ hengine.symm, hpeer, congrArg Network.knownPeers hnetwork, [], ?_, ?_⟩
      · rw [hnetwork, List.append_nil]
      · exact fun _ h => absurd h List.not_mem_nil
    · have hok : (r.onBlockCreated pf blockHash).2 = .ok queued := by rw [hanswer]
      rw [executeAll_single (hexecute.trans (by rw [hanswer]; rfl))
        fun _ h => onBlockCreated_generations hok h]
      have hcreated : (RaftConsensus.handle pf (r.handleEach pf [.clientTransaction clientTx])
          (.blockCreated blockHash)).2 = .ok queued := hok
      obtain ⟨hashes, hdelegates⟩ := executeAll_handle hpeer hnetwork hcreated
        (r.onBlockCreated_isRaft pf blockHash hok)
      have hengine : (RaftConsensus.handle pf (r.handleEach pf [.clientTransaction clientTx])
          (.blockCreated blockHash)).1 = r' := congrArg Prod.fst hanswer
      rw [hengine] at hdelegates
      exact ⟨.blockCreated blockHash :: hashes.map .takePendingBlock,
        List.forall_mem_cons.mpr ⟨rfl, isLocal_takes hashes⟩, hdelegates⟩

end PeerEffects

-- ============================================================================
-- Events
-- ============================================================================

namespace Peer

open PeerEffects

variable {pf : Platform} {p : Peer} {r : RaftConsensus} {effects : PeerEffects}

/-- An event comes down to handler calls; if it publishes a state, it is the last one. -/
structure Delegated (pf : Platform) (p p' : Peer) (r : RaftConsensus) (events : List RaftEvent) :
    Prop where
  delegates : Delegates pf r events p.effects p'.effects p'.consensus
  published : p'.consensusState = p.consensusState ∨ p'.consensusState = p'.consensus.state

theorem answer_published (pf : Platform) (p : Peer)
    (response : ConsensusEngine × Except String (List ConsensusEffect)) :
    (p.answer pf response).1.consensusState = p.consensusState ∨
      (p.answer pf response).1.consensusState = (p.answer pf response).1.consensus.state := by
  unfold answer executeConsensusEffects
  split
  · split
    · exact Or.inr rfl
    · exact Or.inl rfl
  · exact Or.inl rfl

/-- The answer of a handler whose effects are those of Raft. -/
theorem answer_delegates (p : Peer) {event : RaftEvent}
    (hpeer : p.effects.peerId = effects.peerId) (hnetwork : p.effects.network = effects.network)
    (hraft : ∀ queue, (r.handle pf event).2 = .ok queue → ∀ effect ∈ queue, effect.isRaft = true) :
    ∃ hashes : List BlockHash,
      Delegates pf r (event :: hashes.map .takePendingBlock) effects
        (p.answer pf (ConsensusEngine.ofRaft (r.handle pf event))).1.effects
        (p.answer pf (ConsensusEngine.ofRaft (r.handle pf event))).1.consensus := by
  cases hok : (r.handle pf event).2 with
  | error e =>
      have hanswer : ConsensusEngine.ofRaft (r.handle pf event) =
          (.raft (r.handle pf event).1, .error e) := by rw [ConsensusEngine.ofRaft, hok]
      rw [hanswer]
      exact ⟨[], .refl pf r event hpeer hnetwork⟩
  | ok queue =>
      have hanswer : ConsensusEngine.ofRaft (r.handle pf event) =
          (.raft (r.handle pf event).1, .ok queue) := by rw [ConsensusEngine.ofRaft, hok]
      rw [hanswer, (answer_ok pf p _ queue).1, (answer_ok pf p _ queue).2]
      have hfirst : ((r.handleEach pf []).handle pf event).2 = .ok queue := hok
      exact executeAll_handle hpeer hnetwork hfirst (hraft queue hok)

/-- Nothing is asked of consensus. -/
theorem Delegated.idle {p' : Peer} (hconsensus : p.consensus = .raft r)
    (hsame : p'.consensus = p.consensus) (hpeer : p'.effects.peerId = p.effects.peerId)
    (hnetwork : p'.effects.network = p.effects.network)
    (hpublished : p'.consensusState = p.consensusState) : Delegated pf p p' r [] :=
  ⟨.idle pf (hsame.trans hconsensus) hpeer hnetwork, Or.inl hpublished⟩

theorem processClientTransaction_delegated (hconsensus : p.consensus = .raft r)
    (clientTx : SignedTransaction) :
    ∃ events, Delegated pf p (p.processClientTransaction pf clientTx).1 r events ∧
      ∀ event ∈ events, event.isLocal = true := by
  have hnone : ∀ event ∈ ([] : List RaftEvent), event.isLocal = true :=
    fun _ h => absurd h List.not_mem_nil
  unfold processClientTransaction
  split
  · exact ⟨[], .idle hconsensus rfl rfl rfl rfl, hnone⟩
  rw [hconsensus]
  show ∃ events, Delegated pf p
    (p.answer pf (ConsensusEngine.ofRaft (r.handle pf (.clientTransaction clientTx)))).1 r events ∧ _
  have hpublished := p.answer_published pf
    (ConsensusEngine.ofRaft (r.handle pf (.clientTransaction clientTx)))
  by_cases hstages : r.onClientTransaction clientTx = .ok [.stageClientTransaction clientTx]
  · have hanswer : ConsensusEngine.ofRaft (r.handle pf (.clientTransaction clientTx)) =
        (.raft r, .ok [.stageClientTransaction clientTx]) := by
      rw [← hstages]
      rfl
    obtain ⟨later, hlocal, hdelegates⟩ := p.effects.executeAll_stage_delegates pf r clientTx
    refine ⟨.clientTransaction clientTx :: later, ⟨?_, hpublished⟩,
      List.forall_mem_cons.mpr ⟨rfl, hlocal⟩⟩
    rw [hanswer, (answer_ok pf p _ _).1, (answer_ok pf p _ _).2]
    exact hdelegates
  · -- Anyone but a leader forwards the transaction.
    have hraft : ∀ queue, (r.handle pf (.clientTransaction clientTx)).2 = .ok queue →
        ∀ effect ∈ queue, effect.isRaft = true := by
      intro queue hok effect hmem
      change r.onClientTransaction clientTx = .ok queue at hok
      unfold RaftConsensus.onClientTransaction at hok hstages
      unfold RaftConsensus.forwardClientTransaction at hok
      split at hok
      · split at hok
        · cases hok
        · simp_all
      all_goals
        split at hok
        · cases hok
        · cases hok
          rw [List.mem_singleton.mp hmem]
          rfl
    obtain ⟨hashes, hdelegates⟩ := answer_delegates p rfl rfl hraft
    exact ⟨_, ⟨hdelegates, hpublished⟩, List.forall_mem_cons.mpr ⟨rfl, isLocal_takes hashes⟩⟩

theorem synchronizeTransaction_delegated (hconsensus : p.consensus = .raft r)
    (verifiedTx : VerifiedTransaction) :
    ∃ events, Delegated pf p (p.synchronizeTransaction pf verifiedTx).1 r events ∧
      ∀ event ∈ events, event.isLocal = true := by
  obtain ⟨hpeer, hnetwork⟩ := p.effects.stageClientTransaction_silent pf verifiedTx.clientTx
  have hnone : ∀ event ∈ ([] : List RaftEvent), event.isLocal = true :=
    fun _ h => absurd h List.not_mem_nil
  unfold synchronizeTransaction
  split
  · exact ⟨[], .idle hconsensus rfl rfl rfl rfl, hnone⟩
  rcases hstage : p.effects.stageClientTransaction pf verifiedTx.clientTx with
    ⟨staged, e | _ | blockHash⟩
  all_goals rw [hstage] at hpeer hnetwork
  · exact ⟨[], .idle hconsensus rfl hpeer hnetwork rfl, hnone⟩
  · exact ⟨[], .idle hconsensus rfl hpeer hnetwork rfl, hnone⟩
  · have hpublished := answer_published pf { p with effects := staged }
      (ConsensusEngine.ofRaft (r.handle pf (.blockCreated blockHash)))
    have hraft : ∀ queue, (r.handle pf (.blockCreated blockHash)).2 = .ok queue →
        ∀ effect ∈ queue, effect.isRaft = true :=
      fun queue hok => r.onBlockCreated_isRaft pf blockHash hok
    obtain ⟨hashes, hdelegates⟩ :=
      answer_delegates { p with effects := staged } hpeer hnetwork hraft
    rw [hconsensus]
    exact ⟨_, ⟨hdelegates, hpublished⟩, List.forall_mem_cons.mpr ⟨rfl, isLocal_takes hashes⟩⟩

/-- An answer of consensus without effects. -/
theorem answer_nil_delegated {effects : PeerEffects} (hpeer : effects.peerId = p.effects.peerId)
    (hnetwork : effects.network = p.effects.network) :
    Delegated pf p ({ p with effects }.answer pf (.raft r, .ok [])).1 r [] := by
  refine ⟨?_, answer_published pf { p with effects } (.raft r, .ok [])⟩
  rw [(answer_ok pf { p with effects } _ _).1, (answer_ok pf { p with effects } _ _).2]
  exact .idle pf rfl hpeer hnetwork

theorem processBlockProposal_delegated (hconsensus : p.consensus = .raft r)
    (blockHash : BlockHash) (blockFile : Bytes) (signature : Signature)
    (publicKey : VerifyingKey) (src : PeerId) :
    Delegated pf p (p.processBlockProposal pf blockHash blockFile signature publicKey src).1 r
      [] := by
  have hvalidated : (p.validateProposal pf blockHash blockFile signature publicKey).1.peerId =
        p.effects.peerId ∧
      (p.validateProposal pf blockHash blockFile signature publicKey).1.network =
        p.effects.network := by
    unfold validateProposal PeerEffects.stageExternalBlock
    split
    · split
      · exact ⟨rfl, rfl⟩
      simp only
      split <;> exact ⟨rfl, rfl⟩
    · exact ⟨rfl, rfl⟩
  unfold processBlockProposal
  split
  · exact .idle hconsensus rfl rfl rfl rfl
  rcases hresult : p.validateProposal pf blockHash blockFile signature publicKey with
    ⟨effects, e | isOk⟩
  all_goals rw [hresult] at hvalidated
  · exact .idle hconsensus rfl hvalidated.1 hvalidated.2 rfl
  · rw [hconsensus]
    exact answer_nil_delegated hvalidated.1 hvalidated.2

theorem processBlockVote_delegated (hconsensus : p.consensus = .raft r) (blockHash : BlockHash)
    (src : PeerId) (approve : Bool) :
    Delegated pf p (p.processBlockVote pf blockHash src approve).1 r [] := by
  unfold processBlockVote
  split
  · exact .idle hconsensus rfl rfl rfl rfl
  split
  · exact .idle hconsensus rfl rfl rfl rfl
  · rw [hconsensus]
    show Delegated pf p ({ p with effects := p.effects }.answer pf (.raft r, .ok [])).1 r []
    exact answer_nil_delegated rfl rfl

/-- A message comes down to its own call, if it is one for consensus, and local calls. -/
theorem handleMessage_delegated (hconsensus : p.consensus = .raft r) (message : Message)
    (now : Instant) (draw : Nat) :
    ∃ first later, Delegated pf p (p.handle pf (.message message now draw)) r (first ++ later) ∧
      (first = [] ∨ first = [.receive message.from message.body now draw]) ∧
      ∀ event ∈ later, event.isLocal = true := by
  have hnone : ∀ event ∈ ([] : List RaftEvent), event.isLocal = true :=
    fun _ h => absurd h List.not_mem_nil
  obtain ⟨src, dst, body⟩ := message
  have hreceive : ∃ first later,
      Delegated pf p (p.answer pf (p.consensus.onMessage pf src body now draw)).1 r
        (first ++ later) ∧
      (first = [] ∨ first = [.receive src body now draw]) ∧
      ∀ event ∈ later, event.isLocal = true := by
    rw [hconsensus]
    have hpublished := p.answer_published pf
      (ConsensusEngine.ofRaft (r.handle pf (.receive src body now draw)))
    have hraft : ∀ queue, (r.handle pf (.receive src body now draw)).2 = .ok queue →
        ∀ effect ∈ queue, effect.isRaft = true :=
      fun queue hok => r.onMessage_isRaft pf src body now draw hok
    obtain ⟨hashes, hdelegates⟩ := answer_delegates p rfl rfl hraft
    exact ⟨[.receive src body now draw], hashes.map .takePendingBlock, ⟨hdelegates, hpublished⟩,
      Or.inr rfl, isLocal_takes hashes⟩
  cases body with
  | clientTransaction clientTx =>
      obtain ⟨events, hdelegated, hlocal⟩ :=
        processClientTransaction_delegated hconsensus clientTx
      exact ⟨[], events, hdelegated, Or.inl rfl, hlocal⟩
  | synchronization verifiedTx =>
      obtain ⟨events, hdelegated, hlocal⟩ :=
        synchronizeTransaction_delegated hconsensus verifiedTx
      exact ⟨[], events, hdelegated, Or.inl rfl, hlocal⟩
  | blockProposal blockHash blockFile signature publicKey =>
      exact ⟨[], [], processBlockProposal_delegated hconsensus blockHash blockFile signature
        publicKey src, Or.inl rfl, hnone⟩
  | blockApproved blockHash =>
      exact ⟨[], [], processBlockVote_delegated hconsensus blockHash src true, Or.inl rfl, hnone⟩
  | blockReject blockHash =>
      exact ⟨[], [], processBlockVote_delegated hconsensus blockHash src false, Or.inl rfl, hnone⟩
  | _ => exact hreceive

/-- A tick comes down to its own call and payloads taken for staging. -/
theorem handleTick_delegated (hconsensus : p.consensus = .raft r) (now : Instant) :
    ∃ later, Delegated pf p (p.handle pf (.tick now)) r (.tick now p.effects.knownPeers :: later) ∧
      ∀ event ∈ later, event.isLocal = true := by
  have hpublished := p.answer_published pf
    (ConsensusEngine.ofRaft (r.handle pf (.tick now p.effects.knownPeers)))
  have hraft : ∀ queue, (r.handle pf (.tick now p.effects.knownPeers)).2 = .ok queue →
      ∀ effect ∈ queue, effect.isRaft = true :=
    fun queue hok => r.onTick_isRaft pf now p.effects.knownPeers hok
  obtain ⟨hashes, hdelegates⟩ := answer_delegates p rfl rfl hraft
  refine ⟨hashes.map .takePendingBlock, ?_, isLocal_takes hashes⟩
  show Delegated pf p (p.answer pf (p.consensus.onTick pf now p.effects.knownPeers)).1 r _
  rw [hconsensus]
  exact ⟨hdelegates, hpublished⟩

end Peer

end Rustchain
