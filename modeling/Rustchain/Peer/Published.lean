/-
  Rustchain.Peer.Published

  The consensus state a peer publishes (`consensus_state_tx`).

  It is published once for each message or tick, after every effect succeeded.
  By then consensus has moved on: an entry is in the log and the role is taken
  before the log is saved and the effects are executed.  So when one of these
  fails, the published state is the one from before, and what has to succeed for
  it to be current can be read off the peer before the event.
-/

import Rustchain.Consensus.Raft.Growth
import Rustchain.Peer.Services

namespace Rustchain

-- ============================================================================
-- Messages and commits
-- ============================================================================

/-- The effect sends something. -/
def ConsensusEffect.isMessage : ConsensusEffect → Bool
  | .send .. | .broadcast _ | .sendRaftAppendEntries .. => true
  | _ => false

/-- The block of a log entry can be read, staged or on disk; a no-op has none. -/
def BlockKeeper.Readable (pf : Platform) (k : BlockKeeper) (entry : RaftLogEntry) : Prop :=
  entry.isNoop = true ∨ entry.blockHash ∈ k.uncommitedBlocks ∨
    ∃ block, k.readBlockByHash pf entry.blockHash = .ok block

/-- The entries that the effect sends can be read. -/
def BlockKeeper.Sendable (pf : Platform) (k : BlockKeeper) : ConsensusEffect → Prop
  | .sendRaftAppendEntries _ _ _ _ entries _ => ∀ entry ∈ entries, k.Readable pf entry
  | _ => True

namespace PeerEffects

theorem replicatedEntry_ok_iff (pf : Platform) (effects : PeerEffects) (entry : RaftLogEntry) :
    (∃ replicated, effects.replicatedEntry pf entry = .ok replicated) ↔
      effects.blockKeeper.Readable pf entry := by
  unfold replicatedEntry BlockKeeper.Readable BlockKeeper.getUncommitedBlock
  by_cases hnoop : entry.isNoop = true
  · simp [hnoop]
  cases hstaged : effects.blockKeeper.uncommitedBlocks.lookup entry.blockHash with
  | some block =>
      have hmem : entry.blockHash ∈ effects.blockKeeper.uncommitedBlocks :=
        AList.lookup_isSome.mp (by rw [hstaged, Option.isSome_some])
      simp [hnoop, hmem]
  | none =>
      have hmem := AList.lookup_eq_none.mp hstaged
      cases hread : effects.blockKeeper.readBlockByHash pf entry.blockHash with
      | error e => simp [hnoop, hmem]
      | ok block => simp [hnoop]

theorem replicatedEntries_ok_iff (pf : Platform) (effects : PeerEffects)
    (entries : List RaftLogEntry) :
    (∃ replicated, effects.replicatedEntries pf entries = .ok replicated) ↔
      ∀ entry ∈ entries, effects.blockKeeper.Readable pf entry := by
  induction entries with
  | nil => simp [replicatedEntries]
  | cons entry entries ih =>
      rw [List.forall_mem_cons, ← ih, ← replicatedEntry_ok_iff, replicatedEntries]
      cases effects.replicatedEntry pf entry with
      | error e => simp
      | ok replicated =>
          cases effects.replicatedEntries pf entries with
          | error e => simp
          | ok rest => simp

/-- Executing a message leaves everything but the network alone; it fails if an entry
    to be sent cannot be read. -/
theorem executeEffect_message (pf : Platform) (effects : PeerEffects) (consensus : ConsensusEngine)
    {effect : ConsensusEffect} (h : effect.isMessage = true) :
    let executed := effects.executeEffect pf consensus effect
    executed.effects.blockKeeper = effects.blockKeeper ∧ executed.consensus = consensus ∧
      executed.queued = [] ∧
      (executed.result = .ok () ↔ effects.blockKeeper.Sendable pf effect) := by
  cases effect with
  | send dst body => exact ⟨rfl, rfl, rfl, iff_of_true rfl trivial⟩
  | broadcast body => exact ⟨rfl, rfl, rfl, iff_of_true rfl trivial⟩
  | sendRaftAppendEntries dst term prevLogIndex prevLogTerm entries leaderCommit =>
      have hread := replicatedEntries_ok_iff pf effects entries
      simp only [executeEffect, sendRaftAppendEntries, BlockKeeper.Sendable, ← hread]
      cases effects.replicatedEntries pf entries with
      | error e => simp
      | ok replicated => simp
  | _ => cases h

theorem messages_turns (pf : Platform) (messages : List ConsensusEffect)
    (h : ∀ effect ∈ messages, effect.isMessage = true) (b : Batch) :
    let b' := messages.foldl (Batch.turn pf) b
    b'.effects.blockKeeper = b.effects.blockKeeper ∧ b'.consensus = b.consensus ∧
      (b'.errors = [] ↔
        b.errors = [] ∧ ∀ effect ∈ messages, b.effects.blockKeeper.Sendable pf effect) := by
  induction messages generalizing b with
  | nil => simp
  | cons effect messages ih =>
      rw [List.forall_mem_cons] at h
      obtain ⟨hkeeper, hconsensus, -, hresult⟩ :=
        b.effects.executeEffect_message pf b.consensus h.1
      obtain ⟨hkeeper', hconsensus', herrors⟩ := ih h.2 (b.turn pf effect)
      refine ⟨hkeeper'.trans hkeeper, hconsensus'.trans hconsensus, ?_⟩
      rw [List.foldl_cons, herrors, List.forall_mem_cons, ← hresult]
      have hsame : (b.turn pf effect).effects.blockKeeper = b.effects.blockKeeper := hkeeper
      rw [hsame]
      have hturn : (b.turn pf effect).errors = [] ↔
          b.errors = [] ∧ (b.effects.executeEffect pf b.consensus effect).result = .ok () := by
        simp only [Batch.turn, List.append_eq_nil_iff]
        cases (b.effects.executeEffect pf b.consensus effect).result <;> simp [errorsOf]
      rw [hturn, and_assoc]

/-- The batch of a Raft leader: messages, and then commits. -/
theorem executeAll_messages_commits (pf : Platform) (effects : PeerEffects)
    (consensus : ConsensusEngine) {messages : List ConsensusEffect}
    (h : ∀ effect ∈ messages, effect.isMessage = true) (blockHashes : List BlockHash) :
    let out := effects.executeAll pf consensus (messages ++ blockHashes.map .commitBlock)
    out.2.1 = consensus ∧
      (out.2.2 = .ok () ↔
        (∀ effect ∈ messages, effects.blockKeeper.Sendable pf effect) ∧
          effects.blockKeeper.Committable blockHashes) := by
  have hgenerations : ∀ effect ∈ messages ++ blockHashes.map .commitBlock,
      generationsOf effect = 0 := by
    intro effect hmem
    rcases List.mem_append.mp hmem with hmem | hmem
    · have hmessage := h effect hmem
      cases effect <;> first | rfl | cases hmessage
    · obtain ⟨blockHash, -, rfl⟩ := List.mem_map.mp hmem
      rfl
  obtain ⟨b, hb, heq⟩ := executeAll_flat pf effects consensus hgenerations
  rw [List.foldl_append] at hb
  obtain ⟨hkeeper, hconsensus, herrors⟩ := messages_turns pf messages h
    { effects, consensus, queue := [], errors := [] }
  generalize messages.foldl (Batch.turn pf) { effects, consensus, queue := [], errors := [] } =
    sent at hb hkeeper hconsensus herrors
  obtain ⟨⟨-, hconsensus'⟩, herrors', -⟩ := hb ▸ commits_turns pf blockHashes sent
  intro out
  have hout : out = _ := heq
  rw [hout]
  refine ⟨hconsensus'.trans hconsensus, ?_⟩
  rw [hkeeper, herrors] at herrors'
  have hresult : b.errors = [] ↔
      (if b.errors.isEmpty then Except.ok () else
        Except.error ("; ".intercalate b.errors) : Except String Unit) = .ok () := by
    cases b.errors <;> simp
  rw [← hresult, herrors']
  simp

/-- An effect that succeeds makes way for what it queues. -/
theorem executeAll_single {pf : Platform} {effects effects' : PeerEffects}
    {consensus consensus' : ConsensusEngine} {effect : ConsensusEffect}
    {queued : List ConsensusEffect}
    (h : effects.executeEffect pf consensus effect =
      { effects := effects', consensus := consensus', queued, result := .ok () })
    (hflat : ∀ e ∈ queued, generationsOf e = 0) :
    effects.executeAll pf consensus [effect] = effects'.executeAll pf consensus' queued := by
  have hfirst : Batch.generation pf { effects, consensus, queue := [effect], errors := [] } =
      { effects := effects', consensus := consensus', queue := queued, errors := [] } := by
    simp only [Batch.generation, List.foldl_cons, List.foldl_nil, Batch.turn, h, errorsOf,
      List.nil_append]
  have hsecond := Batch.generation_queue pf
    (b := { effects := effects', consensus := consensus', queue := queued, errors := [] })
    fun e he => (hflat e he).le
  have hempty := List.eq_nil_iff_forall_not_mem.mpr fun e he => Nat.not_lt_zero _ (hsecond e he)
  unfold executeAll
  simp only [hfirst, Batch.generation_nil pf hempty]

theorem executeAll_single_error {pf : Platform} {effects effects' : PeerEffects}
    {consensus consensus' : ConsensusEngine} {effect : ConsensusEffect} {e : String}
    (h : effects.executeEffect pf consensus effect =
      { effects := effects', consensus := consensus', queued := [], result := .error e }) :
    ∃ e', effects.executeAll pf consensus [effect] = (effects', consensus', .error e') := by
  have hfirst : Batch.generation pf { effects, consensus, queue := [effect], errors := [] } =
      { effects := effects', consensus := consensus', queue := [], errors := [e] } := by
    simp only [Batch.generation, List.foldl_cons, List.foldl_nil, Batch.turn, h, errorsOf,
      List.nil_append]
  unfold executeAll
  simp only [hfirst, Batch.generation_nil]
  exact ⟨_, rfl⟩

end PeerEffects

-- ============================================================================
-- A leader that appends
-- ============================================================================

namespace RaftConsensus

/-- The leader's state when the entry is in its log, before it is saved. -/
def appended (r : RaftConsensus) (entry : RaftLogEntry) : RaftConsensus :=
  { r with
    log := r.log ++ [entry]
    matchIndexes := r.matchIndexes.insert r.peerId entry.index }

/-- The blocks that the leader's account of its followers lets it commit. -/
def toCommit (r : RaftConsensus) : List BlockHash :=
  blockHashes (entriesBetween r.log r.commitIndex r.advanceCommitIndex.1.commitIndex)

theorem advanceCommitIndex_toCommit (r : RaftConsensus) :
    r.advanceCommitIndex.2 = r.toCommit.map .commitBlock := by
  rw [advanceCommitIndex_snd, commitEffects, advanceCommitIndex_log]
  rfl

theorem appendAsLeader_eq (pf : Platform) (r : RaftConsensus) (entry : RaftLogEntry) :
    r.appendAsLeader pf entry = (r.appended entry).advanceCommitIndex.1.persistThen pf
      ((r.appended entry).appendEntriesEffectsForFollowers ++
        (r.appended entry).toCommit.map .commitBlock) := by
  rw [← advanceCommitIndex_toCommit]
  rfl

/-- The entry with which a new leader begins. -/
def leaderNoop (r : RaftConsensus) : RaftLogEntry := .noop r.currentTerm (r.lastLogIndex + 1)

/-- The entry with which a leader appends a block. -/
def blockEntry (r : RaftConsensus) (blockHash : BlockHash) : RaftLogEntry :=
  { term := r.currentTerm, index := r.lastLogIndex + 1, blockHash }

/-- The leader's state when it has noted what a follower acknowledges. -/
def noted (r : RaftConsensus) (src : PeerId) (matchIndex : Nat) : RaftConsensus :=
  { r with
    matchIndexes := r.matchIndexes.insert src
      (max ((r.matchIndexes.lookup src).getD 0) matchIndex) }

theorem handleLeaderAppendEntriesResponse_success (pf : Platform) (r : RaftConsensus) {term : Nat}
    {src : PeerId} (hterm : term = r.currentTerm) (hmem : src ∈ r.participants)
    (matchIndex : Nat) :
    r.handleLeaderAppendEntriesResponse pf term src true matchIndex =
      if (r.noted src matchIndex).advanceCommitIndex.1.commitIndex ≠
          (r.noted src matchIndex).commitIndex then
        (r.noted src matchIndex).advanceCommitIndex.1.persistThen pf
          (r.noted src matchIndex).advanceCommitIndex.2
      else ((r.noted src matchIndex).advanceCommitIndex.1,
        .ok (r.noted src matchIndex).advanceCommitIndex.2) := by
  unfold handleLeaderAppendEntriesResponse
  rw [if_neg (by omega), if_neg (by simp [hterm, hmem])]
  rfl

/-- Appending the entry succeeds at a leader with this block store: the log is saved,
    what the followers are sent can be read, and what is committed at once can be. -/
structure AppendSucceeds (pf : Platform) (k : BlockKeeper) (r : RaftConsensus)
    (entry : RaftLogEntry) : Prop where
  saved : r.raftLogStore.NextSaveSucceeds
  sent : ∀ effect ∈ (r.appended entry).appendEntriesEffectsForFollowers, k.Sendable pf effect
  committed : k.Committable (r.appended entry).toCommit

theorem appendEntriesEffectsForFollowers_message {r : RaftConsensus} {effect : ConsensusEffect}
    (h : effect ∈ r.appendEntriesEffectsForFollowers) : effect.isMessage = true := by
  obtain ⟨peerId, -, heffect⟩ := mem_appendEntriesEffectsForFollowers h
  obtain ⟨prevLogIndex, prevLogTerm, -, rfl⟩ := appendEntriesEffectFor_spec heffect
  rfl

end RaftConsensus

namespace Peer

variable {pf : Platform} {p : Peer}

/-- What is published is the state of consensus. -/
def Current (p : Peer) : Prop := p.consensusState = p.consensus.state

theorem current_iff_of_raft {r : RaftConsensus} (hraft : p.consensus = .raft r) :
    p.Current ↔ p.consensusState = r.state := by
  rw [Current, hraft]
  rfl

/-- An answer is published if it was executed without error. -/
theorem answer_current_iff (pf : Platform) (p : Peer) (consensus : ConsensusEngine)
    (queue : List ConsensusEffect) :
    (p.answer pf (consensus, .ok queue)).1.Current ↔
      (p.effects.executeAll pf consensus queue).2.2 = .ok () ∨
        p.consensusState = (p.effects.executeAll pf consensus queue).2.1.state := by
  simp only [answer, executeConsensusEffects, Current]
  rcases p.effects.executeAll pf consensus queue with ⟨effects, consensus', e | _⟩
  · simp
  · simp

/-- A state that is saved, and messages and commits after that. -/
theorem answer_persistThen (pf : Platform) (p : Peer) (r : RaftConsensus)
    {messages : List ConsensusEffect} (h : ∀ effect ∈ messages, effect.isMessage = true)
    (blockHashes : List BlockHash) :
    (p.answer pf (ConsensusEngine.ofRaft
        (r.persistThen pf (messages ++ blockHashes.map .commitBlock)))).1.Current ↔
      (r.raftLogStore.NextSaveSucceeds ∧
          (∀ effect ∈ messages, p.effects.blockKeeper.Sendable pf effect) ∧
          p.effects.blockKeeper.Committable blockHashes) ∨
        p.consensusState = r.state := by
  have hsave := r.raftLogStore.save_ok_iff pf r.log r.commitIndex
  have hfst := r.persistThen_fst pf (messages ++ blockHashes.map .commitBlock)
  have hsnd := r.persistThen_snd pf (messages ++ blockHashes.map .commitBlock)
  have hstate : (r.persistThen pf (messages ++ blockHashes.map .commitBlock)).1.state =
      r.state := by
    rw [hfst]
    rfl
  generalize r.persistThen pf (messages ++ blockHashes.map .commitBlock) = out at *
  obtain ⟨r', result⟩ := out
  dsimp only at hsnd hstate
  cases hresult : (r.raftLogStore.save pf r.log r.commitIndex).2 with
  | error e =>
      rw [hresult] at hsave hsnd
      have hfails : ¬r.raftLogStore.NextSaveSucceeds := fun h => by cases hsave.mpr h
      rw [hsnd, ← hstate]
      simp only [hfails, false_and, false_or]
      rfl
  | ok _ =>
      rw [hresult] at hsave hsnd
      obtain ⟨hconsensus, hok⟩ := PeerEffects.executeAll_messages_commits pf p.effects (.raft r') h
        blockHashes
      rw [hsnd, ConsensusEngine.ofRaft]
      refine (answer_current_iff pf p (.raft r') _).trans ?_
      rw [hconsensus, hok, ← hstate]
      simp only [hsave.mp rfl, true_and]
      rfl

/-- A leader that appends an entry, with more messages in front: the last log index
    moves, so what was published before is stale unless all of it succeeds. -/
theorem answer_appended (pf : Platform) (p : Peer) (r : RaftConsensus) (entry : RaftLogEntry)
    (messages : List ConsensusEffect) (hentry : entry.index = r.lastLogIndex + 1)
    {role : RaftRole} {term commitIndex : Nat} {leaderId : Option PeerId}
    (hbefore : p.consensusState = .raft role term leaderId commitIndex r.lastLogIndex)
    (h : ∀ effect ∈ messages, ∃ body, effect = .broadcast body) :
    (p.answer pf (ConsensusEngine.ofRaft ((r.appended entry).advanceCommitIndex.1.persistThen pf
        (messages ++ ((r.appended entry).appendEntriesEffectsForFollowers ++
          (r.appended entry).toCommit.map .commitBlock))))).1.Current ↔
      r.AppendSucceeds pf p.effects.blockKeeper entry := by
  have hmessages : ∀ effect ∈ messages ++ (r.appended entry).appendEntriesEffectsForFollowers,
      effect.isMessage = true := by
    intro effect hmem
    rcases List.mem_append.mp hmem with hmem | hmem
    · obtain ⟨body, rfl⟩ := h effect hmem
      rfl
    · exact RaftConsensus.appendEntriesEffectsForFollowers_message hmem
  have hstore : (r.appended entry).advanceCommitIndex.1.raftLogStore = r.raftLogStore := by
    rw [RaftConsensus.advanceCommitIndex_fst]
    rfl
  have hmoves : p.consensusState ≠ (r.appended entry).advanceCommitIndex.1.state := by
    rw [hbefore, RaftConsensus.advanceCommitIndex_fst]
    intro heq
    have hlast : r.lastLogIndex = (r.appended entry).lastLogIndex := by
      injection heq
    have hnew : (r.appended entry).lastLogIndex = entry.index := by
      simp [RaftConsensus.lastLogIndex, RaftConsensus.appended, lastIndexOf]
    omega
  rw [← List.append_assoc, answer_persistThen pf p _ hmessages, hstore]
  simp only [hmoves, or_false]
  constructor
  · rintro ⟨hsaved, hsent, hcommitted⟩
    exact ⟨hsaved, fun effect hmem => hsent effect (List.mem_append_right _ hmem), hcommitted⟩
  · rintro ⟨hsaved, hsent, hcommitted⟩
    refine ⟨hsaved, fun effect hmem => ?_, hcommitted⟩
    rcases List.mem_append.mp hmem with hmem | hmem
    · obtain ⟨body, rfl⟩ := h effect hmem
      trivial
    · exact hsent effect hmem

theorem answer_appendAsLeader (pf : Platform) (p : Peer) (r : RaftConsensus)
    (entry : RaftLogEntry) (hentry : entry.index = r.lastLogIndex + 1)
    {role : RaftRole} {term commitIndex : Nat} {leaderId : Option PeerId}
    (hbefore : p.consensusState = .raft role term leaderId commitIndex r.lastLogIndex) :
    (p.answer pf (ConsensusEngine.ofRaft (r.appendAsLeader pf entry))).1.Current ↔
      r.AppendSucceeds pf p.effects.blockKeeper entry := by
  have happended := answer_appended pf p r entry [] hentry hbefore
    fun _ h => absurd h List.not_mem_nil
  rw [List.nil_append, ← RaftConsensus.appendAsLeader_eq] at happended
  exact happended

-- ============================================================================
-- Elections
-- ============================================================================

/-- Messages that leave the published state as it was, or that can all be sent. -/
theorem answer_messages (pf : Platform) (p : Peer) (r : RaftConsensus)
    {messages : List ConsensusEffect} (h : ∀ effect ∈ messages, effect.isMessage = true)
    (hsame : p.consensusState = r.state ∨
      ∀ effect ∈ messages, p.effects.blockKeeper.Sendable pf effect) :
    (p.answer pf (.raft r, .ok messages)).1.Current := by
  obtain ⟨hconsensus, hok⟩ :=
    PeerEffects.executeAll_messages_commits pf p.effects (.raft r) h []
  rw [List.map_nil, List.append_nil] at hconsensus hok
  refine (answer_current_iff pf p (.raft r) messages).mpr ?_
  rw [hconsensus, hok]
  have hnone : p.effects.blockKeeper.Committable [] :=
    ⟨List.nodup_nil, fun h hh => absurd hh List.not_mem_nil,
      fun j hj => absurd hj (Nat.not_lt_zero j)⟩
  rcases hsame with hsame | hsent
  · exact Or.inr hsame
  · exact Or.inl ⟨hsent, hnone⟩

theorem answer_nil (pf : Platform) (p : Peer) (r : RaftConsensus) :
    (p.answer pf (.raft r, .ok [])).1.Current :=
  answer_messages pf p r (fun _ h => absurd h List.not_mem_nil)
    (Or.inr fun _ h => absurd h List.not_mem_nil)

/-- An election that the peer wins by its own vote has to be brought to an end. -/
def TickSucceeds (pf : Platform) (effects : PeerEffects) (r : RaftConsensus) (now : Instant) :
    Prop :=
  let candidate := r.updateParticipants effects.knownPeers
  let elected := candidate.startElectionAt now
  r.role ≠ .leader → candidate.leaderTimedOut now = true → elected.2 = true →
    elected.1.AppendSucceeds pf effects.blockKeeper elected.1.leaderNoop

theorem handleTick_current_iff {r : RaftConsensus} (hraft : p.consensus = .raft r)
    (hcurrent : p.Current) (now : Instant) :
    (p.handleTick pf now).1.Current ↔ TickSucceeds pf p.effects r now := by
  have hpublished : p.consensusState = r.state := (current_iff_of_raft hraft).mp hcurrent
  have hstate : p.consensusState = (r.updateParticipants p.effects.knownPeers).state := hpublished
  unfold handleTick TickSucceeds
  rw [hraft]
  show (p.answer pf (ConsensusEngine.ofRaft (r.onTick pf now p.effects.knownPeers))).1.Current ↔ _
  have hrole : (r.updateParticipants p.effects.knownPeers).role = r.role := rfl
  have hlast : (r.updateParticipants p.effects.knownPeers).lastLogIndex = r.lastLogIndex := rfl
  simp only [RaftConsensus.onTick]
  generalize r.updateParticipants p.effects.knownPeers = candidate at hstate hrole hlast ⊢
  by_cases hleader : candidate.role = .leader
  · rw [if_pos hleader]
    refine iff_of_true ?_ fun h => absurd (hrole.symm.trans hleader) h
    split
    · exact answer_messages pf p _
        (fun _ h => RaftConsensus.appendEntriesEffectsForFollowers_message h) (Or.inl hstate)
    · exact answer_nil pf p candidate
  rw [if_neg hleader]
  by_cases htimeout : candidate.leaderTimedOut now = true
  · rw [if_pos htimeout]
    rcases helected : candidate.startElectionAt now with ⟨elected, _ | _⟩
    · simp only [Bool.false_eq_true, false_imp_iff, implies_true, iff_true]
      exact answer_messages pf p elected (by simp [ConsensusEffect.isMessage])
        (Or.inr (by simp [BlockKeeper.Sendable]))
    · have hlast' : elected.lastLogIndex = r.lastLogIndex := by
        have hlog := RaftConsensus.startElectionAt_sameLog candidate now
        rw [helected] at hlog
        exact hlog.lastLogIndex.trans hlast
      have happend := answer_appended pf p elected elected.leaderNoop
        [.broadcast elected.requestVoteBody] rfl (by rw [hlast']; exact hpublished) (by simp)
      have hcons := RaftConsensus.persistThen_cons pf
        (elected.appended elected.leaderNoop).advanceCommitIndex.1
        (.broadcast elected.requestVoteBody)
        ((elected.appended elected.leaderNoop).appendEntriesEffectsForFollowers ++
          (elected.appended elected.leaderNoop).toCommit.map .commitBlock)
      rw [← RaftConsensus.appendAsLeader_eq] at hcons
      rw [List.singleton_append, ← hcons] at happend
      have hfollower : r.role ≠ .leader := hrole ▸ hleader
      simp only [htimeout, true_imp_iff, hfollower, ne_eq, not_false_eq_true]
      exact happend
  · rw [if_neg htimeout]
    exact iff_of_true (answer_nil pf p candidate) fun _ h => absurd h htimeout

/-- A vote that makes the majority brings the election to an end. -/
def VoteSucceeds (pf : Platform) (effects : PeerEffects) (r : RaftConsensus) (term : Nat)
    (voterId : PeerId) (granted : Bool) : Prop :=
  let elected := r.receiveVote term voterId granted
  r.role = .candidate → elected.2 = true →
    elected.1.AppendSucceeds pf effects.blockKeeper elected.1.leaderNoop

theorem onRequestVoteResponse_current_iff {r : RaftConsensus} (hpublished : p.consensusState = r.state)
    (term : Nat) (voterId : PeerId) (granted : Bool) :
    (p.answer pf (ConsensusEngine.ofRaft
        (r.onRequestVoteResponse pf term voterId granted))).1.Current ↔
      VoteSucceeds pf p.effects r term voterId granted := by
  unfold VoteSucceeds
  simp only [RaftConsensus.onRequestVoteResponse]
  by_cases hcandidate : r.role = .candidate
  · rw [if_pos hcandidate]
    have hlog := RaftConsensus.receiveVote_sameLog r term voterId granted
    rcases helected : r.receiveVote term voterId granted with ⟨elected, _ | _⟩
    · simp only [Bool.false_eq_true, false_imp_iff, implies_true, iff_true]
      exact answer_nil pf p elected
    · rw [helected] at hlog
      have hlast : elected.lastLogIndex = r.lastLogIndex := hlog.lastLogIndex
      simp only [hcandidate, true_imp_iff]
      exact answer_appendAsLeader pf p elected elected.leaderNoop rfl
        (by rw [hlast]; exact hpublished)
  · rw [if_neg hcandidate]
    exact iff_of_true (answer_nil pf p _) fun h => absurd h hcandidate

theorem onRequestVote_current (pf : Platform) (p : Peer) (r : RaftConsensus) (term : Nat)
    (candidateId : PeerId) (lastLogIndex lastLogTerm : Nat) (src : PeerId) :
    (p.answer pf (ConsensusEngine.ofRaft
      ((r.onRequestVote term candidateId lastLogIndex lastLogTerm src).1,
        .ok (r.onRequestVote term candidateId lastLogIndex lastLogTerm src).2))).1.Current :=
  answer_messages pf p _ (by simp [RaftConsensus.onRequestVote, ConsensusEffect.isMessage])
    (Or.inr (by simp [RaftConsensus.onRequestVote, BlockKeeper.Sendable]))

-- ============================================================================
-- Responses of followers
-- ============================================================================

/-- A response that lets the leader commit: the new commit index is saved and the blocks
    can be committed. -/
def ResponseSucceeds (effects : PeerEffects) (r : RaftConsensus) (term : Nat)
    (src : PeerId) (success : Bool) (matchIndex : Nat) : Prop :=
  let noted := r.noted src matchIndex
  r.role = .leader → term = r.currentTerm → src ∈ r.participants → success = true →
    noted.commitCandidate ≠ none →
    r.raftLogStore.NextSaveSucceeds ∧ effects.blockKeeper.Committable noted.toCommit

/-- An acknowledgement that the leader takes into account. -/
theorem acknowledgement_current_iff {r : RaftConsensus} (hpublished : p.consensusState = r.state)
    {term : Nat} {src : PeerId} (hterm : term = r.currentTerm) (hmem : src ∈ r.participants)
    (matchIndex : Nat) :
    (p.answer pf (ConsensusEngine.ofRaft
        (r.handleLeaderAppendEntriesResponse pf term src true matchIndex))).1.Current ↔
      ((r.noted src matchIndex).commitCandidate ≠ none →
        r.raftLogStore.NextSaveSucceeds ∧
          p.effects.blockKeeper.Committable (r.noted src matchIndex).toCommit) := by
  have hstate : p.consensusState = (r.noted src matchIndex).state := hpublished
  have hstore : (r.noted src matchIndex).raftLogStore = r.raftLogStore := rfl
  rw [RaftConsensus.handleLeaderAppendEntriesResponse_success pf r hterm hmem matchIndex, ← hstore]
  generalize r.noted src matchIndex = noted at hstate ⊢
  rw [noted.advanceCommitIndex_toCommit]
  cases hcandidate : noted.commitCandidate with
  | none =>
      have hsame : noted.advanceCommitIndex.1 = noted := by
        rw [RaftConsensus.advanceCommitIndex_fst, hcandidate]
        rfl
      rw [hsame, if_neg (not_not.mpr rfl)]
      refine iff_of_true ?_ fun h => absurd rfl h
      refine (answer_current_iff pf p (.raft noted) _).mpr (Or.inr ?_)
      have hexecuted := PeerEffects.executeAll_messages_commits pf p.effects (.raft noted)
        (fun _ h => absurd h List.not_mem_nil) noted.toCommit
      rw [List.nil_append] at hexecuted
      rw [hexecuted.1]
      exact hstate
  | some entry =>
      have hmoves := (RaftConsensus.commitCandidate_spec hcandidate).2.1
      have hcommit : noted.advanceCommitIndex.1.commitIndex = entry.index := by
        rw [RaftConsensus.advanceCommitIndex_fst, hcandidate]
        rfl
      have hstale : p.consensusState ≠ noted.advanceCommitIndex.1.state := by
        rw [hstate]
        intro heq
        have hindex : noted.commitIndex = noted.advanceCommitIndex.1.commitIndex := by
          injection heq
        omega
      have hsaved := answer_persistThen pf p noted.advanceCommitIndex.1
        (fun _ h => absurd h List.not_mem_nil) noted.toCommit
      rw [List.nil_append] at hsaved
      rw [if_pos (by omega), hsaved]
      have hkept : noted.advanceCommitIndex.1.raftLogStore = noted.raftLogStore := by
        rw [RaftConsensus.advanceCommitIndex_fst]
      simp [hstale, hkept]

theorem onAppendEntriesResponse_current_iff {r : RaftConsensus}
    (hpublished : p.consensusState = r.state) (term : Nat) (src : PeerId) (success : Bool)
    (matchIndex : Nat) :
    (p.answer pf (ConsensusEngine.ofRaft
        (r.onAppendEntriesResponse pf term src success matchIndex))).1.Current ↔
      ResponseSucceeds p.effects r term src success matchIndex := by
  unfold ResponseSucceeds
  simp only [RaftConsensus.onAppendEntriesResponse]
  by_cases hleader : r.role = .leader
  swap
  · rw [if_neg hleader]
    exact iff_of_true (answer_nil pf p _) fun h => absurd h hleader
  rw [if_pos hleader]
  by_cases hforeign : term ≠ r.currentTerm ∨ src ∉ r.participants
  · -- neither a newer term nor a foreign one leads to effects
    refine iff_of_true ?_ fun _ hterm hmem => ?_
    · simp only [RaftConsensus.handleLeaderAppendEntriesResponse, if_pos hforeign]
      split
      · exact answer_nil pf p _
      · exact answer_nil pf p _
    · rcases hforeign with h | h
      · exact absurd hterm h
      · exact absurd hmem h
  obtain ⟨hterm, hmem⟩ := not_or.mp hforeign
  rw [not_not] at hterm hmem
  cases success with
  | true =>
      rw [acknowledgement_current_iff hpublished hterm hmem]
      exact ⟨fun h _ _ _ _ => h, fun h => h hleader hterm hmem rfl⟩
  | false =>
      -- only what the leader believes of this follower changes
      refine iff_of_true ?_ fun _ _ _ h => by cases h
      simp only [RaftConsensus.handleLeaderAppendEntriesResponse, if_neg hforeign,
        if_neg (show ¬term > r.currentTerm by omega), Bool.false_eq_true, if_false]
      split
      · exact answer_nil pf p _
      · refine answer_messages pf p _ (fun effect heffect => ?_) (Or.inl hpublished)
        obtain ⟨prevLogIndex, prevLogTerm, -, rfl⟩ :=
          RaftConsensus.appendEntriesEffectFor_spec (Option.mem_toList.mp heffect)
        rfl

-- ============================================================================
-- Transactions
-- ============================================================================

theorem onBlockCreated_current_iff (pf : Platform) {r : RaftConsensus}
    (hpublished : p.consensusState = r.state) (blockHash : BlockHash) :
    (p.answer pf (ConsensusEngine.ofRaft (r.onBlockCreated pf blockHash))).1.Current ↔
      (r.role = .leader → r.ensureNoUncommittedBlock = .ok () →
        r.AppendSucceeds pf p.effects.blockKeeper (r.blockEntry blockHash)) := by
  unfold RaftConsensus.onBlockCreated
  by_cases hleader : r.role = .leader
  · rw [hleader]
    simp only [RaftConsensus.appendLocalBlock, true_imp_iff]
    cases hfree : r.ensureNoUncommittedBlock with
    | error e => exact iff_of_true hpublished fun h => by cases h
    | ok _ =>
        simp only [true_imp_iff]
        exact answer_appendAsLeader pf p r (r.blockEntry blockHash) rfl hpublished
  · refine iff_of_true ?_ fun h => absurd h hleader
    split
    · exact absurd ‹_› hleader
    · exact answer_nil pf p r
    · exact answer_nil pf p r

/-- A transaction with which a leader completes a block: appending the block succeeds. -/
def StagingSucceeds (pf : Platform) (effects : PeerEffects) (r : RaftConsensus)
    (clientTx : SignedTransaction) : Prop :=
  ∀ staged blockHash,
    effects.stageClientTransaction pf clientTx = (staged, .ok (.newBlockCreated blockHash)) →
      r.role = .leader → r.ensureNoUncommittedBlock = .ok () →
        r.AppendSucceeds pf staged.blockKeeper (r.blockEntry blockHash)

/-- Staging a transaction that completes a block comes to creating the block. -/
theorem answer_stageClientTransaction {r : RaftConsensus} {clientTx : SignedTransaction}
    {staged : PeerEffects} {blockHash : BlockHash}
    (h : p.effects.stageClientTransaction pf clientTx = (staged, .ok (.newBlockCreated blockHash))) :
    (p.answer pf (.raft r, .ok [.stageClientTransaction clientTx])).1.Current ↔
      ({ p with effects := staged }.answer pf
        (ConsensusEngine.ofRaft (r.onBlockCreated pf blockHash))).1.Current := by
  have hexecuted : p.effects.executeEffect pf (.raft r) (.stageClientTransaction clientTx) =
      staged.queueAll (ConsensusEngine.ofRaft (r.onBlockCreated pf blockHash)) := by
    simp only [PeerEffects.executeEffect, h, ConsensusEngine.onBlockCreated]
  have hflat : ∀ queued, (r.onBlockCreated pf blockHash).2 = .ok queued →
      ∀ e ∈ queued, PeerEffects.generationsOf e = 0 :=
    fun queued h e he => PeerEffects.onBlockCreated_generations h he
  refine (answer_current_iff pf p (.raft r) _).trans ?_
  rcases hcreated : r.onBlockCreated pf blockHash with ⟨r', e | queued⟩
  · rw [hcreated] at hexecuted
    obtain ⟨e', hall⟩ := PeerEffects.executeAll_single_error hexecuted
    rw [hall]
    simp only [reduceCtorEq, false_or]
    rfl
  · rw [hcreated] at hexecuted hflat
    have hall := PeerEffects.executeAll_single hexecuted (hflat queued rfl)
    rw [hall]
    exact (answer_current_iff pf { p with effects := staged } (.raft r') queued).symm

theorem stageClientTransaction_current_iff {r : RaftConsensus}
    (hpublished : p.consensusState = r.state) (clientTx : SignedTransaction) :
    (p.answer pf (.raft r, .ok [.stageClientTransaction clientTx])).1.Current ↔
      StagingSucceeds pf p.effects r clientTx := by
  unfold StagingSucceeds
  rcases hstaged : p.effects.stageClientTransaction pf clientTx with
    ⟨staged, e | _ | blockHash⟩
  · refine iff_of_true ?_ fun _ _ h => by cases h
    have hexecuted : p.effects.executeEffect pf (.raft r) (.stageClientTransaction clientTx) =
        { effects := staged, consensus := .raft r, queued := [], result := .error e } := by
      simp only [PeerEffects.executeEffect, hstaged]
    obtain ⟨e', hall⟩ := PeerEffects.executeAll_single_error hexecuted
    refine (answer_current_iff pf p (.raft r) _).mpr (Or.inr ?_)
    rw [hall]
    exact hpublished
  · refine iff_of_true ?_ fun _ _ h => by cases h
    have hexecuted : p.effects.executeEffect pf (.raft r) (.stageClientTransaction clientTx) =
        { effects := staged, consensus := .raft r, queued := [], result := .ok () } := by
      simp only [PeerEffects.executeEffect, hstaged]
    have hall := PeerEffects.executeAll_single hexecuted fun _ h => absurd h List.not_mem_nil
    refine (answer_current_iff pf p (.raft r) _).mpr (Or.inl ?_)
    rw [hall]
    rfl
  · rw [answer_stageClientTransaction hstaged,
      onBlockCreated_current_iff (p := { p with effects := staged }) pf hpublished]
    constructor
    · intro h staged' blockHash' heq
      cases heq
      exact h
    · exact fun h => h staged blockHash rfl

theorem processClientTransaction_current_iff {r : RaftConsensus} (hraft : p.consensus = .raft r)
    (hpublished : p.consensusState = r.state) (clientTx : SignedTransaction) :
    (p.processClientTransaction pf clientTx).1.Current ↔
      StagingSucceeds pf p.effects r clientTx := by
  have hcurrent : p.Current := (current_iff_of_raft hraft).mpr hpublished
  unfold processClientTransaction
  rcases hverify : clientTx.verify pf with e | _
  · refine iff_of_true hcurrent fun staged blockHash hstaged => ?_
    simp only [PeerEffects.stageClientTransaction, hverify] at hstaged
    cases hstaged
  simp only [hraft, ConsensusEngine.onClientTransaction, RaftConsensus.onClientTransaction]
  by_cases hleader : r.role = .leader
  · rw [hleader]
    dsimp only
    cases hfree : r.ensureNoUncommittedBlock with
    | error e =>
        refine iff_of_true hpublished fun _ _ _ _ h => ?_
        rw [hfree] at h
        cases h
    | ok _ => exact stageClientTransaction_current_iff hpublished clientTx
  · refine iff_of_true ?_ fun _ _ _ h => absurd h hleader
    split
    · exact absurd ‹_› hleader
    all_goals
      rw [RaftConsensus.forwardClientTransaction]
      split
      · exact hpublished
      · exact answer_messages pf p r (by simp [ConsensusEffect.isMessage]) (Or.inl hpublished)

theorem synchronizeTransaction_current_iff {r : RaftConsensus} (hraft : p.consensus = .raft r)
    (hpublished : p.consensusState = r.state) (verifiedTx : VerifiedTransaction) :
    (p.synchronizeTransaction pf verifiedTx).1.Current ↔
      (verifiedTx.verify pf = .ok () → StagingSucceeds pf p.effects r verifiedTx.clientTx) := by
  have hcurrent : p.Current := (current_iff_of_raft hraft).mpr hpublished
  unfold synchronizeTransaction StagingSucceeds
  rcases hverify : verifiedTx.verify pf with e | _
  · exact iff_of_true hcurrent fun h => by cases h
  rcases hstaged : p.effects.stageClientTransaction pf verifiedTx.clientTx with
    ⟨staged, e | _ | blockHash⟩
  · exact iff_of_true hcurrent fun _ _ _ h => by cases h
  · exact iff_of_true hcurrent fun _ _ _ h => by cases h
  · simp only [hraft, ConsensusEngine.onBlockCreated]
    have hcreated :=
      onBlockCreated_current_iff (p := { p with effects := staged }) pf hpublished blockHash
    rw [hraft] at hcreated
    rw [hcreated]
    constructor
    · intro h _ staged' blockHash' heq
      cases heq
      exact h
    · exact fun h => h trivial staged blockHash rfl

-- ============================================================================
-- Requests of a leader
-- ============================================================================

/-- A request that is merged: it is accepted and all its effects succeed, or it brings
    nothing that is published. -/
def RequestSucceeds (pf : Platform) (effects : PeerEffects) (r : RaftConsensus)
    (request : AppendEntriesRequest) (draw : Nat) : Prop :=
  ∀ a, r.Merges pf request draw a →
    r.acceptance pf request draw = some a ∧ Clean pf effects.blockKeeper a ∨
      r.role = .follower ∧ r.currentTerm = request.term ∧ r.leaderId = some request.leaderId ∧
        r.commitIndex = a.commitIndex ∧ r.lastLogIndex = lastIndexOf a.log

theorem handleAppendEntries_current_iff {r : RaftConsensus} (hpublished : p.consensusState = r.state)
    (request : AppendEntriesRequest) (draw : Nat) :
    (p.answer pf (ConsensusEngine.ofRaft (r.handleAppendEntries pf request draw))).1.Current ↔
      RequestSucceeds pf p.effects r request draw := by
  by_cases hmerges : ∃ a, r.Merges pf request draw a
  swap
  · -- a refusal is published
    have hnone := not_exists.mp hmerges
    refine iff_of_true ?_ fun a ha => absurd ha (hnone a)
    obtain ⟨term, matchIndex, hrefused⟩ := RaftConsensus.handleAppendEntries_of_not_merges hnone
    rw [ConsensusEngine.ofRaft, hrefused]
    exact answer_messages pf p _ (by simp [ConsensusEffect.isMessage])
      (Or.inr (by simp [BlockKeeper.Sendable]))
  obtain ⟨a, ha⟩ := hmerges
  obtain ⟨hstate, hcase⟩ := RaftConsensus.handleAppendEntries_of_merges ha
  have hsame : p.consensusState = (r.handleAppendEntries pf request draw).1.state ↔
      r.role = .follower ∧ r.currentTerm = request.term ∧ r.leaderId = some request.leaderId ∧
        r.commitIndex = a.commitIndex ∧ r.lastLogIndex = lastIndexOf a.log := by
    rw [hpublished, hstate, RaftConsensus.state, ConsensusState.raft.injEq]
  have hsucceeds : RequestSucceeds pf p.effects r request draw ↔
      r.acceptance pf request draw = some a ∧ Clean pf p.effects.blockKeeper a ∨
        p.consensusState = (r.handleAppendEntries pf request draw).1.state := by
    rw [hsame]
    constructor
    · exact fun h => h a ha
    · intro h a' ha'
      rw [← ha.unique ha']
      exact h
  rw [hsucceeds]
  have hanswers := r.handleAppendEntries_answers pf request draw
  rcases hresult : r.handleAppendEntries pf request draw with ⟨r', result⟩
  rw [hresult] at hanswers hcase
  rcases hcase with haccepted | ⟨e, rfl⟩
  · rw [haccepted] at hanswers
    obtain ⟨⟨term, matchIndex, rfl⟩, -, -, hpending, -⟩ := hanswers
    obtain ⟨⟨pendingBlocks, hconsensus⟩, -, hclean, -⟩ := PeerEffects.accepted_batch
      (RaftConsensus.acceptance_supplied haccepted hpending) p.effects request.from term matchIndex
    refine (answer_current_iff pf p (.raft r') _).trans ?_
    rw [hclean, hconsensus]
    simp only [haccepted, true_and]
    rfl
  · -- the log could not be saved
    have hrefused : r.acceptance pf request draw ≠ some a := by
      intro haccepted
      rw [haccepted] at hanswers
      obtain ⟨⟨term, matchIndex, hok⟩, -⟩ := hanswers
      cases hok
    simp only [hrefused, false_and, false_or]
    rfl

-- ============================================================================
-- Events
-- ============================================================================

/-- The condition of a message. -/
def MessageSucceeds (pf : Platform) (effects : PeerEffects) (r : RaftConsensus)
    (message : Message) (now : Instant) (draw : Nat) : Prop :=
  match message.body with
  | .clientTransaction clientTx => StagingSucceeds pf effects r clientTx
  | .synchronization verifiedTx =>
    verifiedTx.verify pf = .ok () → StagingSucceeds pf effects r verifiedTx.clientTx
  | .raftRequestVoteResponse term voteGranted =>
    VoteSucceeds pf effects r term message.from voteGranted
  | .raftAppendEntries term leaderId prevLogIndex prevLogTerm entries leaderCommit =>
    RequestSucceeds pf effects r
      { term, leaderId, prevLogIndex, prevLogTerm, entries, leaderCommit
        «from» := message.from
        now } draw
  | .raftAppendEntriesResponse term success matchIndex =>
    ResponseSucceeds effects r term message.from success matchIndex
  | _ => True

/-- What the event changes of the published state is brought to an end without error. -/
def Succeeds (pf : Platform) (p : Peer) : Event → Prop
  | .message message now draw =>
    ∀ r, p.consensus = .raft r → MessageSucceeds pf p.effects r message now draw
  | .tick now => ∀ r, p.consensus = .raft r → TickSucceeds pf p.effects r now
  | .synchronized _ | .discovered _ => True

/-- Blocks that other peers propose are none of a Raft engine's business. -/
theorem processBlockProposal_current {r : RaftConsensus} (hraft : p.consensus = .raft r)
    (hcurrent : p.Current) (blockHash : BlockHash) (blockFile : Bytes) (signature : Signature)
    (publicKey : VerifyingKey) (src : PeerId) :
    (p.processBlockProposal pf blockHash blockFile signature publicKey src).1.Current := by
  unfold processBlockProposal
  split
  · exact hcurrent
  · split
    · exact hcurrent
    · rw [hraft]
      exact answer_nil pf _ r

theorem processBlockVote_current {r : RaftConsensus} (hraft : p.consensus = .raft r)
    (hcurrent : p.Current) (blockHash : BlockHash) (src : PeerId) (approve : Bool) :
    (p.processBlockVote pf blockHash src approve).1.Current := by
  unfold processBlockVote
  split
  · exact hcurrent
  · split
    · exact hcurrent
    · rw [hraft]
      exact answer_nil pf _ r

theorem handleMessage_current_iff {r : RaftConsensus} (hraft : p.consensus = .raft r)
    (hcurrent : p.Current) (message : Message) (now : Instant) (draw : Nat) :
    (p.handleMessage pf message now draw).1.Current ↔
      MessageSucceeds pf p.effects r message now draw := by
  have hpublished : p.consensusState = r.state := (current_iff_of_raft hraft).mp hcurrent
  obtain ⟨src, dst, body⟩ := message
  cases body with
  | clientTransaction clientTx =>
      exact processClientTransaction_current_iff hraft hpublished clientTx
  | synchronization verifiedTx =>
      exact synchronizeTransaction_current_iff hraft hpublished verifiedTx
  | blockProposal blockHash blockFile signature publicKey =>
      exact iff_of_true (processBlockProposal_current hraft hcurrent blockHash blockFile signature
        publicKey src) trivial
  | blockApproved blockHash =>
      exact iff_of_true (processBlockVote_current hraft hcurrent blockHash src true) trivial
  | blockReject blockHash =>
      exact iff_of_true (processBlockVote_current hraft hcurrent blockHash src false) trivial
  | raftRequestVote term candidateId lastLogIndex lastLogTerm =>
      refine iff_of_true ?_ trivial
      simp only [handleMessage, hraft]
      exact onRequestVote_current pf p r term candidateId lastLogIndex lastLogTerm src
  | raftRequestVoteResponse term voteGranted =>
      simp only [handleMessage, hraft]
      exact onRequestVoteResponse_current_iff hpublished term src voteGranted
  | raftAppendEntries term leaderId prevLogIndex prevLogTerm entries leaderCommit =>
      simp only [handleMessage, hraft]
      exact handleAppendEntries_current_iff hpublished _ draw
  | raftAppendEntriesResponse term success matchIndex =>
      simp only [handleMessage, hraft]
      exact onAppendEntriesResponse_current_iff hpublished term src success matchIndex

/-- Where the published state is current, it is so after the event exactly if what the
    event changes of it is brought to an end. -/
theorem handle_current_iff {r : RaftConsensus} (hraft : p.consensus = .raft r)
    (hcurrent : p.Current) (event : Event) :
    (p.handle pf event).Current ↔ p.Succeeds pf event := by
  have hengine : ∀ P : RaftConsensus → Prop, (∀ r', p.consensus = .raft r' → P r') ↔ P r := by
    intro P
    rw [hraft]
    exact ⟨fun h => h r rfl, fun h r' heq => by cases heq; exact h⟩
  cases event with
  | message message now draw =>
      rw [Succeeds, hengine]
      exact handleMessage_current_iff hraft hcurrent message now draw
  | tick now =>
      rw [Succeeds, hengine]
      exact handleTick_current_iff hraft hcurrent now
  | synchronized block => exact iff_of_true hcurrent trivial
  | discovered knownPeers => exact iff_of_true hcurrent trivial

end Peer

-- ============================================================================
-- The engine stays
-- ============================================================================

namespace PeerEffects

theorem stageRaftEntries_requiresTick (pf : Platform) (entries : List RaftLogEntry) :
    ∀ (effects : PeerEffects) (consensus : ConsensusEngine),
      (effects.stageRaftEntries pf consensus entries).2.1.requiresTick = consensus.requiresTick := by
  induction entries with
  | nil => exact fun _ _ => rfl
  | cons entry entries ih =>
      intro effects consensus
      have htaken : (consensus.takePendingRaftBlock entry.blockHash).1.requiresTick =
          consensus.requiresTick := by
        cases consensus <;> rfl
      rw [stageRaftEntries]
      split
      · exact ih effects consensus
      generalize consensus.takePendingRaftBlock entry.blockHash = answer at htaken ⊢
      obtain ⟨taken, pendingBlock⟩ := answer
      dsimp only at htaken ⊢
      split
      · rw [ih, htaken]
      split
      · exact htaken
      split
      · exact htaken
      split
      · exact htaken
      · rw [ih, htaken]

theorem executeEffect_requiresTick (pf : Platform) (effects : PeerEffects)
    (consensus : ConsensusEngine) (effect : ConsensusEffect) :
    (effects.executeEffect pf consensus effect).consensus.requiresTick =
      consensus.requiresTick := by
  have hqueue : ∀ (effects : PeerEffects)
      (answer : ConsensusEngine × Except String (List ConsensusEffect)),
      (effects.queueAll answer).consensus = answer.1 := by
    rintro effects ⟨consensus, e | queued⟩ <;> rfl
  cases effect with
  | stageClientTransaction clientTx =>
      simp only [executeEffect]
      split
      · rfl
      · rfl
      · rw [hqueue]
        cases consensus <;> rfl
  | stageRaftEntries entries => exact stageRaftEntries_requiresTick pf entries effects consensus
  | proposeBlock blockHash =>
      simp only [executeEffect]
      split
      · rfl
      · rfl
      · rw [hqueue]
        cases consensus <;> rfl
  | _ => rfl

theorem executeAll_requiresTick (pf : Platform) (effects : PeerEffects)
    (consensus : ConsensusEngine) (queue : List ConsensusEffect) :
    (effects.executeAll pf consensus queue).2.1.requiresTick = consensus.requiresTick := by
  let SameEngine (b : Batch) : Prop := b.consensus.requiresTick = consensus.requiresTick
  have hstart : SameEngine { effects, consensus, queue, errors := [] } := rfl
  obtain ⟨b, hb, -, heq⟩ := executeAll_preserves (fun b effect rest (h : SameEngine _) =>
    (b.effects.executeEffect_requiresTick pf b.consensus effect).trans h) hstart
  rw [heq]
  exact hb

end PeerEffects

namespace Peer

variable {pf : Platform} {p : Peer}

theorem answer_requiresTick (pf : Platform) (p : Peer)
    (response : ConsensusEngine × Except String (List ConsensusEffect)) :
    (p.answer pf response).1.consensus.requiresTick = response.1.requiresTick := by
  obtain ⟨consensus, e | queue⟩ := response
  · rfl
  · rw [(answer_ok pf p consensus queue).2]
    exact p.effects.executeAll_requiresTick pf consensus queue

theorem processBlockVote_requiresTick (pf : Platform) (p : Peer) (blockHash : BlockHash)
    (src : PeerId) (approve : Bool) :
    (p.processBlockVote pf blockHash src approve).1.consensus.requiresTick =
      p.consensus.requiresTick := by
  unfold processBlockVote
  split
  · rfl
  split
  · rfl
  · rw [answer_requiresTick]
    cases p.consensus <;> rfl

theorem onMessage_requiresTick (pf : Platform) (engine : ConsensusEngine) (src : PeerId)
    (body : MessageBody) (now : Instant) (draw : Nat) :
    (engine.onMessage pf src body now draw).1.requiresTick = engine.requiresTick := by
  cases engine with
  | voting peerId votings =>
      simp only [ConsensusEngine.onMessage]
      split <;> rfl
  | raft r => rfl

theorem handleMessage_requiresTick (pf : Platform) (p : Peer) (message : Message) (now : Instant)
    (draw : Nat) :
    (p.handleMessage pf message now draw).1.consensus.requiresTick = p.consensus.requiresTick := by
  obtain ⟨src, dst, body⟩ := message
  cases body with
  | clientTransaction clientTx =>
      show (p.processClientTransaction pf clientTx).1.consensus.requiresTick = _
      unfold processClientTransaction
      split
      · rfl
      · exact answer_requiresTick pf p _
  | synchronization verifiedTx =>
      show (p.synchronizeTransaction pf verifiedTx).1.consensus.requiresTick = _
      unfold synchronizeTransaction
      split
      · rfl
      split
      · rfl
      · rfl
      · rw [answer_requiresTick]
        cases p.consensus <;> rfl
  | blockProposal blockHash blockFile signature publicKey =>
      show (p.processBlockProposal pf blockHash blockFile signature publicKey
        src).1.consensus.requiresTick = _
      unfold processBlockProposal
      split
      · rfl
      split
      · rfl
      · rw [answer_requiresTick]
        cases p.consensus <;> rfl
  | blockApproved blockHash => exact processBlockVote_requiresTick pf p blockHash src true
  | blockReject blockHash => exact processBlockVote_requiresTick pf p blockHash src false
  | _ => exact (answer_requiresTick pf p _).trans (onMessage_requiresTick pf _ src _ now draw)

/-- A peer never changes its engine. -/
theorem handle_requiresTick (pf : Platform) (p : Peer) (event : Event) :
    (p.handle pf event).consensus.requiresTick = p.consensus.requiresTick := by
  cases event with
  | message message now draw => exact handleMessage_requiresTick pf p message now draw
  | tick now =>
      show (p.handleTick pf now).1.consensus.requiresTick = _
      unfold handleTick
      rw [answer_requiresTick]
      cases p.consensus <;> rfl
  | synchronized block => rfl
  | discovered knownPeers => rfl

/-- A Raft peer stays one. -/
theorem handle_raft (pf : Platform) {r : RaftConsensus} (hraft : p.consensus = .raft r)
    (event : Event) :
    ∃ r', (p.handle pf event).consensus = .raft r' := by
  have hkind := handle_requiresTick pf p event
  rw [hraft] at hkind
  cases hconsensus : (p.handle pf event).consensus with
  | voting peerId votings =>
      rw [hconsensus] at hkind
      cases hkind
  | raft r' => exact ⟨r', rfl⟩

-- ============================================================================
-- Runs
-- ============================================================================

/-- The published state is current after every event of a run exactly if at each of them
    what it changes of that state is brought to an end without error. -/
theorem run_current_iff {r : RaftConsensus} (hraft : p.consensus = .raft r) (hcurrent : p.Current)
    (events : List Event) :
    (∀ n, (p.run pf (events.take n)).Current) ↔ Throughout pf (Succeeds pf) p events := by
  induction events generalizing p r with
  | nil =>
      refine iff_of_true (fun n => ?_) trivial
      rw [List.take_nil]
      exact hcurrent
  | cons event events ih =>
      obtain ⟨r', hraft'⟩ := handle_raft pf hraft event
      rw [Throughout, ← handle_current_iff hraft hcurrent event]
      constructor
      · intro h
        have hfirst : (p.handle pf event).Current := h 1
        exact ⟨hfirst, (ih hraft' hfirst).mp fun n => h (n + 1)⟩
      · rintro ⟨hfirst, hrest⟩ n
        cases n with
        | zero => exact hcurrent
        | succ n => exact (ih hraft' hfirst).mpr hrest n

/-- What a Raft peer publishes is the state of its consensus engine after every event of
    a run exactly if at each of them what it changes of that state is brought to an end
    without error. -/
theorem published_iff (pf : Platform) (id : PeerId) (network : Network) (r : RaftConsensus)
    (blockKeeper : BlockKeeper) (signingKey : SigningKey) (events : List Event) :
    (∀ n, let p := (Peer.new pf id network (.raft r) blockKeeper signingKey).run pf (events.take n)
      p.consensusState = p.consensus.state) ↔
      Throughout pf (Succeeds pf) (.new pf id network (.raft r) blockKeeper signingKey)
        events := by
  have hcurrent : (Peer.new pf id network (.raft r) blockKeeper signingKey).Current := rfl
  exact run_current_iff rfl hcurrent events

end Peer

namespace Reference

/-- The log file of a peer, which cannot be written. -/
def readOnlyLog : FileRaftLogStore :=
  { FileRaftLogStore.empty "data/peer_1" with
    saveError := fun _ => some (.write "Read-only file system") }

/-- A Raft peer that knows no other and cannot save its log. -/
def readOnlyPeer : Peer :=
  .new platform 1 { knownPeers := [], calls := [] } (.raft (.newWithLog 1 [] 0
    (.file readOnlyLog) 0 0)) (.new platform (.empty "data/peer_1") 1 (.listed _ _)) [1]

end Reference

namespace Peer

open Reference

/-- The peer elects itself and cannot save the entry it begins with: it leads, and is
    published as a follower. -/
theorem published_stale :
    startRaft platform 1 { knownPeers := [], calls := [] } (.empty "data/peer_1") readOnlyLog 1
        (.listed _ _) [1] 0 0 = .ok readOnlyPeer ∧
      (readOnlyPeer.handleTick platform 10000).1.consensus.state = .raft .leader 1 (some 1) 1 1 ∧
      (readOnlyPeer.handleTick platform 10000).1.consensusState = .raft .follower 0 none 0 0 ∧
      ¬ ∀ n, let p := readOnlyPeer.run platform ([.tick 10000].take n)
        p.consensusState = p.consensus.state := by
  have hconsensus : (readOnlyPeer.handleTick platform 10000).1.consensus.state =
      .raft .leader 1 (some 1) 1 1 := by decide +kernel
  have hpublished : (readOnlyPeer.handleTick platform 10000).1.consensusState =
      .raft .follower 0 none 0 0 := by decide +kernel
  refine ⟨rfl, hconsensus, hpublished, fun h => ?_⟩
  have hcurrent : (readOnlyPeer.handleTick platform 10000).1.consensusState =
      (readOnlyPeer.handleTick platform 10000).1.consensus.state := h 1
  rw [hconsensus, hpublished] at hcurrent
  cases hcurrent

end Peer
end Rustchain
