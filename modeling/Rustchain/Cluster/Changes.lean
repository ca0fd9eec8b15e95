/-
  Rustchain.Cluster.Changes

  What a handler can do to the state of its peer, said once.

  A handler is a sequence of the elementary changes below, each with the guard
  under which the code makes it and the message that justifies it.  The effects
  a handler returns are described by the state it leaves (`EffectOk`).  Every
  invariant of the cluster is proved change by change and effect by effect.

  Two changes carry a condition that the code does not check: the index a
  leader takes over from a rejection is a true match (`RejectionTrue`), and a
  follower raises its commit index only over entries the leader's log had, too
  (`CommitCovered`).  The flags `A` and `B` say whether a run is known to meet
  them.
-/

import Rustchain.Cluster.Basic
import Rustchain.Consensus.Raft.Accept
import Rustchain.Consensus.Raft.Merge

namespace Rustchain

-- ============================================================================
-- The two unchecked conditions
-- ============================================================================

/-- At the index a leader takes over from a rejection of its term, its log has
    the term that the rejecting peer's log had when it answered. -/
def RejectionTrue (r : RaftConsensus) (s : Sent) : Prop :=
  match s.message.body with
  | .raftAppendEntriesResponse term false matchIndex =>
    r.role = .leader → term = r.currentTerm →
      termOf r.log (min matchIndex r.lastLogIndex) = termOf s.log (min matchIndex r.lastLogIndex)
  | _ => True

/-- When a request of a current leader agrees with the log as far as it goes,
    the commit index it asks for stays within the request or within what the
    follower has committed already, or the follower's entry there has the term
    that the leader's log had. -/
def CommitCovered (r : RaftConsensus) (s : Sent) : Prop :=
  match s.message.body with
  | .raftAppendEntries term _ prevLogIndex prevLogTerm entries leaderCommit =>
    r.currentTerm ≤ term → termOf r.log prevLogIndex = some prevLogTerm →
    firstConflict (r.log.drop prevLogIndex) (entries.map RaftReplicatedBlock.entry) = none →
      min leaderCommit r.lastLogIndex ≤ max (prevLogIndex + entries.length) r.commitIndex ∨
      termOf r.log (min leaderCommit r.lastLogIndex) =
        termOf s.log (min leaderCommit r.lastLogIndex)
  | _ => True

-- ============================================================================
-- Elementary changes
-- ============================================================================

/-- The two states agree on everything but timers, the known leader, the log
    store and the blocks waiting to be staged. -/
structure SameCore (r r' : RaftConsensus) : Prop where
  peerId : r'.peerId = r.peerId
  participants : r'.participants = r.participants
  currentTerm : r'.currentTerm = r.currentTerm
  votedFor : r'.votedFor = r.votedFor
  role : r'.role = r.role
  votesReceived : r'.votesReceived = r.votesReceived
  log : r'.log = r.log
  commitIndex : r'.commitIndex = r.commitIndex
  matchIndexes : r'.matchIndexes = r.matchIndexes

/-- The peer's participants are the members of `P`. -/
def KnowsAll (P : Finset PeerId) (r : RaftConsensus) : Prop :=
  r.participants.Nodup ∧ ∀ q, q ∈ r.participants ↔ q ∈ P

inductive Change (P : Finset PeerId) (N : Sent → Prop) (A B : Prop) :
    RaftConsensus → RaftConsensus → Prop where
  | tune {r r' : RaftConsensus} (h : SameCore r r') : Change P N A B r r'
  | join {r : RaftConsensus} {knownPeers : List PeerId}
      (h : KnowsAll P (r.updateParticipants knownPeers)) :
      Change P N A B r (r.updateParticipants knownPeers)
  | stepDown {r : RaftConsensus} {term : Nat} (h : r.currentTerm < term) :
      Change P N A B r (r.stepDown term)
  | stand {r : RaftConsensus} (hmem : r.peerId ∈ P) (h : KnowsAll P r) :
      Change P N A B r
        { r with
          currentTerm := r.currentTerm + 1
          role := .candidate
          votedFor := some r.peerId
          votesReceived := {r.peerId} }
  | countVote {r : RaftConsensus} {s : Sent} (hs : N s) (hrole : r.role = .candidate)
      (hto : s.message.to = r.peerId)
      (hbody : s.message.body = .raftRequestVoteResponse r.currentTerm true)
      (hfrom : s.message.from ∈ r.participants) :
      Change P N A B r
        { r with votesReceived := insert s.message.from r.votesReceived }
  | lead {r : RaftConsensus} (hrole : r.role = .candidate)
      (hvotes : r.majority ≤ r.votesReceived.card) :
      Change P N A B r
        { r with role := .leader, matchIndexes := r.initialMatchIndexes }
  | grant {r : RaftConsensus} {s : Sent} (hs : N s) {candidateId : PeerId}
      {lastLogIndex lastLogTerm : Nat}
      (hbody : s.message.body =
        .raftRequestVote r.currentTerm candidateId lastLogIndex lastLogTerm)
      (hlog : r.candidateLogIsUpToDate lastLogIndex lastLogTerm = true)
      (hvote : r.votedFor = none ∨ r.votedFor = some candidateId) :
      Change P N A B r { r with votedFor := some candidateId }
  | follow {r : RaftConsensus} :
      Change P N A B r { r with role := .follower, votesReceived := ∅ }
  | accept {r : RaftConsensus} {s : Sent} (hs : N s) (hrole : r.role = .follower)
      {leaderId : PeerId} {prevLogIndex prevLogTerm : Nat} {entries : List RaftReplicatedBlock}
      {leaderCommit : Nat} {log : List RaftLogEntry} {discarded : List BlockHash}
      (hbody : s.message.body = .raftAppendEntries r.currentTerm leaderId prevLogIndex prevLogTerm
        entries leaderCommit)
      (hprev : termOf r.log prevLogIndex = some prevLogTerm)
      (hentries : Contiguous prevLogIndex (entries.map RaftReplicatedBlock.entry))
      (hmerge : mergeEntries r.commitIndex r.log [] (entries.map RaftReplicatedBlock.entry) =
        (log, some discarded))
      (hcovered : B → CommitCovered r s) :
      Change P N A B r
        { r with log, commitIndex := max r.commitIndex (min leaderCommit (lastIndexOf log)) }
  | append {r : RaftConsensus} {entry : RaftLogEntry} (hrole : r.role = .leader)
      (hterm : entry.term = r.currentTerm) (hindex : entry.index = r.lastLogIndex + 1) :
      Change P N A B r
        { r with
          log := r.log ++ [entry]
          matchIndexes := r.matchIndexes.insert r.peerId entry.index }
  | commit {r : RaftConsensus} (hrole : r.role = .leader) :
      Change P N A B r r.advanceCommitIndex.1
  | success {r : RaftConsensus} {s : Sent} (hs : N s) (hrole : r.role = .leader)
      {matchIndex : Nat}
      (hbody : s.message.body = .raftAppendEntriesResponse r.currentTerm true matchIndex) :
      Change P N A B r
        { r with
          matchIndexes := r.matchIndexes.insert s.message.from
            (max ((r.matchIndexes.lookup s.message.from).getD 0) matchIndex) }
  | failure {r : RaftConsensus} {s : Sent} (hs : N s) (hrole : r.role = .leader)
      {matchIndex : Nat}
      (hbody : s.message.body = .raftAppendEntriesResponse r.currentTerm false matchIndex)
      (htrue : A → RejectionTrue r s) :
      Change P N A B r
        { r with
          matchIndexes := r.matchIndexes.insert s.message.from (min matchIndex r.lastLogIndex) }

/-- A sequence of changes. -/
abbrev Changes (P : Finset PeerId) (N : Sent → Prop) (A B : Prop) :
    RaftConsensus → RaftConsensus → Prop :=
  Relation.ReflTransGen (Change P N A B)

/-- No change concerns the identity of the peer. -/
theorem Change.peerId {P : Finset PeerId} {N : Sent → Prop} {A B : Prop}
    {r r' : RaftConsensus} (h : Change P N A B r r') : r'.peerId = r.peerId := by
  cases h with
  | tune h => exact h.peerId
  | commit hrole =>
      rw [RaftConsensus.advanceCommitIndex]
      cases r.commitCandidate <;> rfl
  | _ => rfl

theorem Changes.peerId {P : Finset PeerId} {N : Sent → Prop} {A B : Prop}
    {r r' : RaftConsensus} (h : Changes P N A B r r') : r'.peerId = r.peerId := by
  induction h with
  | refl => rfl
  | tail _ hchange ih => exact hchange.peerId.trans ih

/-- What is known of the effects of a handler that leaves the state `r`. -/
def EffectOk (P : Finset PeerId) (N : Sent → Prop) (r : RaftConsensus) :
    ConsensusEffect → Prop
  | .broadcast body => body = r.requestVoteBody ∧ r.role = .candidate ∨ P ⊆ {r.peerId}
  | .sendRaftAppendEntries _ term prevLogIndex prevLogTerm entries leaderCommit =>
    r.role = .leader ∧ term = r.currentTerm ∧ termOf r.log prevLogIndex = some prevLogTerm ∧
      entries = (r.log.filter fun entry => entry.index > prevLogIndex).take maxAppendEntries ∧
      leaderCommit ≤ r.commitIndex
  | .send dst body =>
    match body with
    | .raftRequestVoteResponse term granted =>
      term = r.currentTerm ∧ (granted = true → ∃ s, N s ∧ s.message.from = dst ∧
        ∃ candidateId lastLogIndex lastLogTerm,
          s.message.body = .raftRequestVote term candidateId lastLogIndex lastLogTerm ∧
          r.votedFor = some candidateId)
    | .raftAppendEntriesResponse term success matchIndex =>
      term = r.currentTerm ∧ (success = true → ∃ s, N s ∧
        ∃ leaderId prevLogIndex prevLogTerm entries leaderCommit,
          s.message.body = .raftAppendEntries term leaderId prevLogIndex prevLogTerm entries
            leaderCommit ∧
          matchIndex = prevLogIndex + entries.length ∧
          termOf r.log matchIndex =
            some (lastTermFrom prevLogTerm (entries.map RaftReplicatedBlock.entry)))
    | .clientTransaction _ => True
    | _ => False
  | _ => True

-- ============================================================================
-- Parts of handlers
-- ============================================================================

variable {P : Finset PeerId} {N : Sent → Prop} {A B : Prop} {pf : Platform}
  {r r' : RaftConsensus}

theorem EffectOk.congr (h : SameCore r r') {effect : ConsensusEffect}
    (hr : EffectOk P N r effect) : EffectOk P N r' effect := by
  have hbody : r'.requestVoteBody = r.requestVoteBody := by
    simp only [RaftConsensus.requestVoteBody, RaftConsensus.lastLogIndex,
      RaftConsensus.lastLogTerm, h.currentTerm, h.peerId, h.log]
  cases effect with
  | broadcast body =>
      show body = r'.requestVoteBody ∧ r'.role = .candidate ∨ P ⊆ {r'.peerId}
      rw [hbody, h.role, h.peerId]
      exact hr
  | sendRaftAppendEntries dst term prevLogIndex prevLogTerm entries leaderCommit =>
      simp only [EffectOk] at hr ⊢
      rw [h.role, h.currentTerm, h.log, h.commitIndex]
      exact hr
  | send dst body =>
      cases body with
      | raftRequestVoteResponse term granted =>
          simp only [EffectOk] at hr ⊢
          rw [h.currentTerm, h.votedFor]
          exact hr
      | raftAppendEntriesResponse term success matchIndex =>
          simp only [EffectOk] at hr ⊢
          rw [h.currentTerm, h.log]
          exact hr
      | _ => exact hr
  | _ => trivial

/-- What is known of a handler's outcome: the state is reached by changes, and
    the effects, if any, are justified by it. -/
def OutcomeOk (P : Finset PeerId) (N : Sent → Prop) (A B : Prop) (r : RaftConsensus)
    (out : RaftConsensus × Except String (List ConsensusEffect)) : Prop :=
  Changes P N A B r out.1 ∧
    ∀ effects, out.2 = .ok effects → ∀ effect ∈ effects, EffectOk P N out.1 effect

/-- An outcome without effects needs only its changes. -/
theorem OutcomeOk.quiet (h : Changes P N A B r r') : OutcomeOk P N A B r (r', .ok []) := by
  refine ⟨h, ?_⟩
  intro effects he effect hmem
  cases he
  simp at hmem

theorem OutcomeOk.error (h : Changes P N A B r r') (e : String) :
    OutcomeOk P N A B r (r', .error e) :=
  ⟨h, fun _ he => by cases he⟩

theorem OutcomeOk.ok (h : Changes P N A B r r') {effects : List ConsensusEffect}
    (heffects : ∀ effect ∈ effects, EffectOk P N r' effect) :
    OutcomeOk P N A B r (r', .ok effects) := by
  refine ⟨h, ?_⟩
  intro effects' he
  cases he
  exact heffects

/-- Changes made before a part of a handler belong to the handler. -/
theorem OutcomeOk.after {r₁ : RaftConsensus}
    {out : RaftConsensus × Except String (List ConsensusEffect)}
    (h : Changes P N A B r r₁) (h' : OutcomeOk P N A B r₁ out) :
    OutcomeOk P N A B r out :=
  ⟨h.trans h'.1, h'.2⟩

theorem RaftConsensus.persistThen_sameCore (r : RaftConsensus) (effects : List ConsensusEffect) :
    SameCore r (r.persistThen pf effects).1 := by
  rw [RaftConsensus.persistThen_fst]
  exact ⟨rfl, rfl, rfl, rfl, rfl, rfl, rfl, rfl, rfl⟩

theorem RaftConsensus.eq_of_persistThen_ok {r : RaftConsensus}
    {effects effects' : List ConsensusEffect} (h : (r.persistThen pf effects).2 = .ok effects') :
    effects' = effects := by
  rw [RaftConsensus.persistThen_snd] at h
  cases hsave : (r.raftLogStore.save pf r.log r.commitIndex).2 with
  | error e =>
      rw [hsave] at h
      cases h
  | ok u =>
      rw [hsave] at h
      exact (Except.ok.inj h).symm

/-- Saving the log changes no core field, whether it succeeds or not. -/
theorem OutcomeOk.persistThen (h : Changes P N A B r r') {effects : List ConsensusEffect}
    (heffects : ∀ effect ∈ effects, EffectOk P N r' effect) :
    OutcomeOk P N A B r (r'.persistThen pf effects) := by
  refine ⟨h.tail (.tune (r'.persistThen_sameCore effects)), ?_⟩
  intro effects' he effect hmem
  rw [RaftConsensus.eq_of_persistThen_ok he] at hmem
  exact (heffects effect hmem).congr (r'.persistThen_sameCore effects)

-- ============================================================================
-- The leader's parts
-- ============================================================================

theorem commitEffects_ok {low high : Nat} (r₁ : RaftConsensus) :
    ∀ effect ∈ r₁.commitEffects low high, EffectOk P N r effect := by
  intro effect hmem
  obtain ⟨hash, -, rfl⟩ := List.mem_map.mp hmem
  trivial

theorem appendEntriesEffectFor_ok (hrole : r.role = .leader) {q : PeerId}
    {effect : ConsensusEffect} (h : r.appendEntriesEffectFor q = some effect) :
    EffectOk P N r effect := by
  obtain ⟨prevLogIndex, prevLogTerm, hterm, rfl⟩ := RaftConsensus.appendEntriesEffectFor_spec h
  exact ⟨hrole, rfl, hterm, rfl, Nat.le_refl _⟩

theorem appendEntriesEffectsForFollowers_ok (hrole : r.role = .leader) :
    ∀ effect ∈ r.appendEntriesEffectsForFollowers, EffectOk P N r effect := by
  intro effect hmem
  obtain ⟨q, -, hq⟩ := RaftConsensus.mem_appendEntriesEffectsForFollowers hmem
  exact appendEntriesEffectFor_ok hrole hq

/-- A request built before the commit index advanced stays justified after. -/
theorem EffectOk.advance {effect : ConsensusEffect} (h : EffectOk P N r effect) :
    EffectOk P N r.advanceCommitIndex.1 effect := by
  have hle := r.le_advanceCommitIndex
  rw [r.advanceCommitIndex_fst] at hle ⊢
  cases effect with
  | sendRaftAppendEntries dst term prevLogIndex prevLogTerm entries leaderCommit =>
      obtain ⟨h1, h2, h3, h4, h5⟩ := h
      exact ⟨h1, h2, h3, h4, h5.trans hle⟩
  | _ => exact h

theorem appendAsLeader_ok (hrole : r.role = .leader) {entry : RaftLogEntry}
    (hterm : entry.term = r.currentTerm) (hindex : entry.index = r.lastLogIndex + 1) :
    OutcomeOk P N A B r (r.appendAsLeader pf entry) := by
  set r₁ : RaftConsensus :=
    { r with
      log := r.log ++ [entry]
      matchIndexes := r.matchIndexes.insert r.peerId entry.index } with hr₁
  have hchanges : Changes P N A B r r₁.advanceCommitIndex.1 :=
    (Relation.ReflTransGen.single (.append hrole hterm hindex)).tail (.commit hrole)
  show OutcomeOk P N A B r (r₁.advanceCommitIndex.1.persistThen pf
    (r₁.appendEntriesEffectsForFollowers ++ r₁.advanceCommitIndex.2))
  refine OutcomeOk.persistThen hchanges ?_
  intro effect hmem
  rcases List.mem_append.mp hmem with hmem | hmem
  · exact (appendEntriesEffectsForFollowers_ok (r := r₁) hrole effect hmem).advance
  · exact commitEffects_ok _ effect hmem

theorem appendLeaderNoop_ok (hrole : r.role = .leader) :
    OutcomeOk P N A B r (r.appendLeaderNoop pf) :=
  appendAsLeader_ok hrole rfl rfl

theorem onBlockCreated_ok (blockHash : BlockHash) :
    OutcomeOk P N A B r (r.onBlockCreated pf blockHash) := by
  rw [RaftConsensus.onBlockCreated]
  split
  · rename_i hrole
    rw [RaftConsensus.appendLocalBlock]
    split
    · exact OutcomeOk.error .refl _
    · exact appendAsLeader_ok hrole rfl rfl
  · exact OutcomeOk.quiet .refl
  · exact OutcomeOk.quiet .refl

-- ============================================================================
-- The handlers
-- ============================================================================

theorem stepDownOnNewerTerm_changes (r : RaftConsensus) (term : Nat) :
    Changes P N A B r (r.stepDownOnNewerTerm term) := by
  rw [RaftConsensus.stepDownOnNewerTerm]
  split
  · rename_i h
    exact .single (.stepDown h)
  · exact .refl

theorem becomeLeaderIfMajority_changes (hrole : r.role = .candidate) :
    Changes P N A B r r.becomeLeaderIfMajority.1 ∧
      (r.becomeLeaderIfMajority.2 = true → r.becomeLeaderIfMajority.1.role = .leader) := by
  rw [RaftConsensus.becomeLeaderIfMajority]
  split
  · rename_i hvotes
    refine ⟨?_, fun _ => rfl⟩
    refine (Relation.ReflTransGen.single (.lead hrole hvotes)).tail (.tune ?_)
    exact ⟨rfl, rfl, rfl, rfl, rfl, rfl, rfl, rfl, rfl⟩
  · exact ⟨.refl, fun h => by cases h⟩

theorem knowsAll_updateParticipants {knownPeers : List PeerId} (hmem : r.peerId ∈ P)
    (h : ∀ q, q ∈ knownPeers ↔ q ∈ P ∧ q ≠ r.peerId) :
    KnowsAll P (r.updateParticipants knownPeers) := by
  refine ⟨(List.nodup_dedup knownPeers).insert, ?_⟩
  intro q
  show q ∈ knownPeers.dedup.insert r.peerId ↔ q ∈ P
  rw [List.mem_insert_iff, List.mem_dedup, h q]
  constructor
  · rintro (rfl | ⟨hq, -⟩)
    · exact hmem
    · exact hq
  · intro hq
    by_cases hqp : q = r.peerId
    · exact Or.inl hqp
    · exact Or.inr ⟨hq, hqp⟩

theorem KnowsAll.length_participants (h : KnowsAll P r) : r.participants.length = P.card := by
  have hP : P = r.participants.toFinset := by
    ext q
    rw [List.mem_toFinset, h.2]
  rw [hP, List.toFinset_card_of_nodup h.1]

/-- An election starts with a candidacy; only a single peer wins it at once. -/
theorem startElectionAt_ok (hmem : r.peerId ∈ P) (hknows : KnowsAll P r)
    (hterm : r.currentTerm < 2 ^ 64 - 1)
    (now : Instant) :
    Changes P N A B r (r.startElectionAt now).1 ∧
      ((r.startElectionAt now).2 = false → (r.startElectionAt now).1.role = .candidate) ∧
      ((r.startElectionAt now).2 = true →
        (r.startElectionAt now).1.role = .leader ∧ P ⊆ {r.peerId}) := by
  set r₁ : RaftConsensus :=
    { r with
      currentTerm := (r.currentTerm + 1) % 2 ^ 64
      role := .candidate
      votedFor := some r.peerId
      leaderId := none
      votesReceived := {r.peerId}
      lastHeartbeatReceivedAt := now
      lastHeartbeatSentAt := none } with hr₁
  have hmod : (r.currentTerm + 1) % 2 ^ 64 = r.currentTerm + 1 := Nat.mod_eq_of_lt (by omega)
  have hstand : Changes P N A B r r₁ := by
    refine (Relation.ReflTransGen.single (.stand hmem hknows)).tail (.tune ?_)
    exact ⟨rfl, rfl, hmod, rfl, rfl, rfl, rfl, rfl, rfl⟩
  have hlead := becomeLeaderIfMajority_changes (P := P) (N := N) (A := A) (B := B)
    (r := r₁) rfl
  show Changes P N A B r r₁.becomeLeaderIfMajority.1 ∧
    (r₁.becomeLeaderIfMajority.2 = false → r₁.becomeLeaderIfMajority.1.role = .candidate) ∧
    (r₁.becomeLeaderIfMajority.2 = true →
      r₁.becomeLeaderIfMajority.1.role = .leader ∧ P ⊆ {r.peerId})
  refine ⟨hstand.trans hlead.1, ?_, ?_⟩
  · intro hfalse
    rw [RaftConsensus.becomeLeaderIfMajority] at hfalse ⊢
    split at hfalse
    · cases hfalse
    · rename_i hvotes
      rw [if_neg hvotes]
  · intro htrue
    refine ⟨hlead.2 htrue, ?_⟩
    have hvotes : r₁.majority ≤ r₁.votesReceived.card := by
      rw [RaftConsensus.becomeLeaderIfMajority] at htrue
      split at htrue
      · assumption
      · cases htrue
    -- one vote is a majority of at most one participant
    have hcard : P.card ≤ 1 := by
      have hlen : r.participants.length / 2 + 1 ≤ 1 := by
        simpa [RaftConsensus.majority, hr₁] using hvotes
      rw [← hknows.length_participants]
      omega
    intro q hq
    exact Finset.mem_singleton.mpr (Finset.card_le_one.mp hcard q hq r.peerId hmem)

theorem onTick_ok (hmem : r.peerId ∈ P) {knownPeers : List PeerId}
    (hknown : ∀ q, q ∈ knownPeers ↔ q ∈ P ∧ q ≠ r.peerId)
    (hterm : r.currentTerm < 2 ^ 64 - 1) (now : Instant) :
    OutcomeOk P N A B r (r.onTick pf now knownPeers) := by
  have hknows := knowsAll_updateParticipants hmem hknown
  set r₁ := r.updateParticipants knownPeers with hr₁
  have hjoin : Changes P N A B r r₁ := .single (.join hknows)
  refine OutcomeOk.after hjoin ?_
  rw [RaftConsensus.onTick]
  simp only [← hr₁]
  split
  · rename_i hrole
    split
    · have htune : Changes P N A B r₁ { r₁ with lastHeartbeatSentAt := some now } :=
        .single (.tune ⟨rfl, rfl, rfl, rfl, rfl, rfl, rfl, rfl, rfl⟩)
      exact OutcomeOk.ok htune (appendEntriesEffectsForFollowers_ok hrole)
    · exact OutcomeOk.quiet .refl
  · split
    · obtain ⟨hchanges, hcand, hlead⟩ := startElectionAt_ok (N := N) (A := A) (B := B)
        (r := r₁) hmem hknows hterm now
      split
      · rename_i r₂ heq
        rw [heq] at hchanges hcand
        refine OutcomeOk.ok hchanges ?_
        intro effect heffect
        rw [List.mem_singleton.mp heffect]
        exact Or.inl ⟨rfl, hcand rfl⟩
      · rename_i r₂ heq
        rw [heq] at hchanges hlead
        obtain ⟨hrole, hsingle⟩ := hlead rfl
        have hnoop : OutcomeOk P N A B r₂ (r₂.appendLeaderNoop pf) := appendLeaderNoop_ok hrole
        refine OutcomeOk.after hchanges ?_
        split
        · rename_i heq'
          rw [heq'] at hnoop
          exact hnoop
        · rename_i r₃ effects heq'
          rw [heq'] at hnoop
          refine OutcomeOk.ok hnoop.1 ?_
          intro effect heffect
          rcases List.mem_cons.mp heffect with rfl | heffect
          · -- nobody else is there to receive the request
            refine Or.inr ?_
            rw [Changes.peerId (hchanges.trans hnoop.1)]
            exact hsingle
          · exact hnoop.2 effects rfl effect heffect
    · exact OutcomeOk.quiet .refl

theorem onRequestVote_ok {s : Sent} (hs : N s) {term : Nat} {candidateId : PeerId}
    {lastLogIndex lastLogTerm : Nat}
    (hbody : s.message.body = .raftRequestVote term candidateId lastLogIndex lastLogTerm) :
    Changes P N A B r
        (r.onRequestVote term candidateId lastLogIndex lastLogTerm s.message.from).1 ∧
      ∀ effect ∈ (r.onRequestVote term candidateId lastLogIndex lastLogTerm s.message.from).2,
        EffectOk P N (r.onRequestVote term candidateId lastLogIndex lastLogTerm s.message.from).1
          effect := by
  -- a refusal is justified by any state of its own term
  have hrefuse : ∀ r' : RaftConsensus, EffectOk P N r'
      (.send s.message.from (.raftRequestVoteResponse r'.currentTerm false)) :=
    fun r' => ⟨rfl, fun h => by cases h⟩
  simp only [RaftConsensus.onRequestVote, RaftConsensus.requestVote, List.mem_singleton,
    forall_eq]
  split
  · exact ⟨.refl, hrefuse r⟩
  rename_i hterm
  have hdown := stepDownOnNewerTerm_changes (P := P) (N := N) (A := A) (B := B) r term
  split
  · exact ⟨hdown, hrefuse _⟩
  rename_i hlog
  split
  · exact ⟨hdown, hrefuse _⟩
  rename_i hvote
  have hcurrent : (r.stepDownOnNewerTerm term).currentTerm = term := by
    rw [RaftConsensus.stepDownOnNewerTerm]
    split
    · rfl
    · omega
  have hvote' : (r.stepDownOnNewerTerm term).votedFor = none ∨
      (r.stepDownOnNewerTerm term).votedFor = some candidateId := by
    cases hv : (r.stepDownOnNewerTerm term).votedFor with
    | none => exact Or.inl rfl
    | some v =>
        rw [hv] at hvote
        simp only [Option.any_some, decide_eq_true_eq, ne_eq, not_not] at hvote
        exact Or.inr (by rw [hvote])
  refine ⟨hdown.tail (.grant hs (by rw [hcurrent]; exact hbody) (by simpa using hlog) hvote'), ?_⟩
  refine ⟨rfl, fun _ => ⟨s, hs, rfl, candidateId, lastLogIndex, lastLogTerm, ?_, rfl⟩⟩
  show s.message.body =
    .raftRequestVote (r.stepDownOnNewerTerm term).currentTerm candidateId lastLogIndex lastLogTerm
  rw [hcurrent]
  exact hbody

theorem onRequestVoteResponse_ok {s : Sent} (hs : N s) (hto : s.message.to = r.peerId)
    {term : Nat} {voteGranted : Bool}
    (hbody : s.message.body = .raftRequestVoteResponse term voteGranted) :
    OutcomeOk P N A B r (r.onRequestVoteResponse pf term s.message.from voteGranted) := by
  rw [RaftConsensus.onRequestVoteResponse]
  by_cases hrole : r.role = .candidate
  · rw [if_pos hrole, RaftConsensus.receiveVote]
    by_cases hnewer : term > r.currentTerm
    · rw [if_pos hnewer]
      exact OutcomeOk.quiet (.single (.stepDown hnewer))
    rw [if_neg hnewer]
    by_cases hstale : r.role ≠ .candidate ∨ term ≠ r.currentTerm ∨ !voteGranted
    · rw [if_pos hstale]
      exact OutcomeOk.quiet .refl
    rw [if_neg hstale]
    by_cases hfrom : s.message.from ∈ r.participants
    · rw [if_pos hfrom]
      push Not at hstale
      obtain ⟨-, rfl, hgranted⟩ := hstale
      have hcount : Changes P N A B r
          { r with votesReceived := insert s.message.from r.votesReceived } := by
        refine .single (.countVote hs hrole hto ?_ hfrom)
        rw [hbody]
        simpa using hgranted
      have hlead := becomeLeaderIfMajority_changes (P := P) (N := N) (A := A) (B := B)
        (r := { r with votesReceived := insert s.message.from r.votesReceived }) hrole
      refine OutcomeOk.after hcount ?_
      split
      · rename_i r₂ heq
        rw [heq] at hlead
        exact OutcomeOk.after hlead.1 (appendLeaderNoop_ok (hlead.2 rfl))
      · rename_i r₂ heq
        rw [heq] at hlead
        exact OutcomeOk.quiet hlead.1
    · rw [if_neg hfrom]
      exact OutcomeOk.quiet .refl
  · rw [if_neg hrole]
    exact OutcomeOk.quiet (stepDownOnNewerTerm_changes r term)

theorem onAppendEntriesResponse_ok {s : Sent} (hs : N s) {term : Nat} {success : Bool}
    {matchIndex : Nat}
    (hbody : s.message.body = .raftAppendEntriesResponse term success matchIndex)
    (htrue : A → RejectionTrue r s) :
    OutcomeOk P N A B r
      (r.onAppendEntriesResponse pf term s.message.from success matchIndex) := by
  rw [RaftConsensus.onAppendEntriesResponse]
  by_cases hrole : r.role = .leader
  · rw [if_pos hrole, RaftConsensus.handleLeaderAppendEntriesResponse]
    by_cases hnewer : term > r.currentTerm
    · rw [if_pos hnewer]
      exact OutcomeOk.quiet (.single (.stepDown hnewer))
    rw [if_neg hnewer]
    by_cases hstale : term ≠ r.currentTerm ∨ s.message.from ∉ r.participants
    · rw [if_pos hstale]
      exact OutcomeOk.quiet .refl
    rw [if_neg hstale]
    push Not at hstale
    obtain ⟨rfl, -⟩ := hstale
    cases success with
    | true =>
        have hsuccess := (Relation.ReflTransGen.single
          (Change.success (P := P) (A := A) (B := B) hs hrole hbody)).tail (.commit hrole)
        simp only [if_true]
        split
        · exact OutcomeOk.persistThen hsuccess (commitEffects_ok _)
        · exact OutcomeOk.ok hsuccess (commitEffects_ok _)
    | false =>
        have hfailure := Relation.ReflTransGen.single
          (Change.failure (P := P) (A := A) (B := B) hs hrole hbody htrue)
        simp only [Bool.false_eq_true, if_false]
        split
        · exact OutcomeOk.quiet hfailure
        · refine OutcomeOk.ok hfailure ?_
          intro effect heffect
          refine appendEntriesEffectFor_ok (q := s.message.from) ?_ (Option.mem_toList.mp heffect)
          exact hrole
  · rw [if_neg hrole]
    exact OutcomeOk.quiet (stepDownOnNewerTerm_changes r term)

/-- An append request is followed only if its term is not older; following it
    touches neither the log nor the commit index. -/
theorem receiveAppendEntriesAt_ok (r : RaftConsensus) (term : Nat) (leaderId src : PeerId)
    (now : Instant) (draw : Nat) :
    Changes P N A B r (r.receiveAppendEntriesAt term leaderId src now draw).1 ∧
      (r.receiveAppendEntriesAt term leaderId src now draw).1.log = r.log ∧
      (r.receiveAppendEntriesAt term leaderId src now draw).1.commitIndex = r.commitIndex ∧
      ((r.receiveAppendEntriesAt term leaderId src now draw).2 = true → r.currentTerm ≤ term ∧
        (r.receiveAppendEntriesAt term leaderId src now draw).1.currentTerm = term ∧
        (r.receiveAppendEntriesAt term leaderId src now draw).1.role = .follower) := by
  rw [RaftConsensus.receiveAppendEntriesAt]
  split
  · exact ⟨.refl, rfl, rfl, fun h => by cases h⟩
  split
  · exact ⟨.refl, rfl, rfl, fun h => by cases h⟩
  rename_i hterm
  have hdown := stepDownOnNewerTerm_changes (P := P) (N := N) (A := A) (B := B) r term
  have hlog : (r.stepDownOnNewerTerm term).log = r.log := by
    rw [RaftConsensus.stepDownOnNewerTerm]
    split <;> rfl
  have hcommit : (r.stepDownOnNewerTerm term).commitIndex = r.commitIndex := by
    rw [RaftConsensus.stepDownOnNewerTerm]
    split <;> rfl
  have hcurrent : (r.stepDownOnNewerTerm term).currentTerm = term := by
    rw [RaftConsensus.stepDownOnNewerTerm]
    split
    · rfl
    · omega
  simp only
  split
  · exact ⟨hdown, hlog, hcommit, fun h => by cases h⟩
  · -- the tail of the function only moves timers and the known leader besides
    have hsame : SameCore
        { r.stepDownOnNewerTerm term with role := .follower, votesReceived := ∅ }
        ((r.stepDownOnNewerTerm term).followLeader leaderId now draw) := by
      rw [RaftConsensus.followLeader]
      simp only
      split <;> exact ⟨rfl, rfl, rfl, rfl, rfl, rfl, rfl, rfl, rfl⟩
    refine ⟨(hdown.tail .follow).tail (.tune hsame), ?_, ?_, ?_⟩
    · exact hsame.log.trans hlog
    · exact hsame.commitIndex.trans hcommit
    · intro _
      exact ⟨by omega, hsame.currentTerm.trans hcurrent, hsame.role⟩

/-- A successful append rolls back, stages and commits blocks; it sends nothing. -/
theorem appendEffects_ok {discarded : List BlockHash} {staged : Bool}
    {entries : List RaftLogEntry} {r₁ : RaftConsensus} {low high : Nat}
    {effects : List ConsensusEffect}
    (h : effects = discarded.map .rollbackBlock
      ++ (if staged then [] else [.stageRaftEntries entries]) ++ r₁.commitEffects low high) :
    ∀ effect ∈ effects, EffectOk P N r effect := by
  intro effect hmem
  rw [h] at hmem
  rcases List.mem_append.mp hmem with hmem | hmem
  · rcases List.mem_append.mp hmem with hmem | hmem
    · obtain ⟨hash, -, rfl⟩ := List.mem_map.mp hmem
      trivial
    · split at hmem
      · simp at hmem
      · rw [List.mem_singleton.mp hmem]
        trivial
  · exact commitEffects_ok r₁ effect hmem

/-- The condition depends on the log and the commit index only, once the request
    is current. -/
theorem CommitCovered.of_follow {s : Sent} {term : Nat} {leaderId : PeerId}
    {prevLogIndex prevLogTerm : Nat} {entries : List RaftReplicatedBlock} {leaderCommit : Nat}
    (h : CommitCovered r s)
    (hbody : s.message.body = .raftAppendEntries term leaderId prevLogIndex prevLogTerm entries
      leaderCommit)
    (hle : r.currentTerm ≤ term) (hlog : r'.log = r.log) (hcommit : r'.commitIndex = r.commitIndex) :
    CommitCovered r' s := by
  simp only [CommitCovered, hbody, RaftConsensus.lastLogIndex, hlog, hcommit] at h ⊢
  exact fun _ => h hle

theorem acceptEntries_ok {s : Sent} (hs : N s) (hlog : Contiguous 0 r.log)
    (hrole : r.role = .follower) {request : AppendEntriesRequest} {logEntries : List RaftLogEntry}
    {blocks : HashMap BlockHash BlockFile} (hterm : r.currentTerm = request.term)
    (hbody : s.message.body = .raftAppendEntries request.term request.leaderId
      request.prevLogIndex request.prevLogTerm request.entries request.leaderCommit)
    (hentries : logEntries = request.entries.map RaftReplicatedBlock.entry)
    (hcovered : B → CommitCovered r s) :
    OutcomeOk P N A B r (r.acceptEntries pf request logEntries blocks) := by
  have hrefuse : ∀ (r' : RaftConsensus) (m : Nat), EffectOk P N r'
      (r'.appendEntriesResponse request.from false m) :=
    fun r' m => ⟨rfl, fun h => by cases h⟩
  subst hentries
  rw [RaftConsensus.acceptEntries]
  rcases RaftConsensus.appendEntries_cases hlog request.prevLogIndex request.prevLogTerm
      (request.entries.map RaftReplicatedBlock.entry) request.leaderCommit with
    hnone | ⟨log, discarded, r₁, effects, hprev, hcontiguous, hmerge, hr₁, heffects, hsome⟩
  · simp only [hnone]
    refine OutcomeOk.ok .refl ?_
    simpa using hrefuse r _
  have haccept : Change P N A B r r₁ :=
    hr₁ ▸ .accept hs hrole (hterm ▸ hbody) hprev hcontiguous hmerge hcovered
  have hmatch := hcontiguous.getLast_index
  have hlast := (termOf_mergeEntries hlog hcontiguous hprev hmerge).2
  rw [List.length_map] at hmatch hlast
  simp only [hsome, hmatch]
  set r₂ : RaftConsensus := { r₁ with
    pendingBlocks := RaftConsensus.keepPendingBlocks r₁.pendingBlocks blocks
      (RaftConsensus.stagedEntries effects) } with hr₂
  have hchanges : Changes P N A B r r₂ :=
    (Relation.ReflTransGen.single haccept).tail
      (.tune ⟨rfl, rfl, rfl, rfl, rfl, rfl, rfl, rfl, rfl⟩)
  have hok : ∀ effect ∈ effects ++ [r₂.appendEntriesResponse request.from true
      (request.prevLogIndex + request.entries.length)], EffectOk P N r₂ effect := by
    intro effect hmem
    rcases List.mem_append.mp hmem with hmem | hmem
    · exact appendEffects_ok heffects effect hmem
    · rw [List.mem_singleton.mp hmem]
      have hterm₁ : r₁.currentTerm = request.term := by rw [hr₁, ← hterm]
      have hlog₁ : r₁.log = log := by rw [hr₁]
      refine ⟨rfl, fun _ => ⟨s, hs, request.leaderId, request.prevLogIndex, request.prevLogTerm,
        request.entries, request.leaderCommit, ?_, rfl, ?_⟩⟩
      · rw [hbody, ← hterm₁]
      · show termOf r₁.log _ = _
        rw [hlog₁]
        exact hlast
  split
  · exact OutcomeOk.persistThen hchanges hok
  · exact OutcomeOk.ok hchanges hok

theorem handleAppendEntries_ok {s : Sent} (hs : N s) (hlog : Contiguous 0 r.log)
    {request : AppendEntriesRequest}
    (hbody : s.message.body = .raftAppendEntries request.term request.leaderId
      request.prevLogIndex request.prevLogTerm request.entries request.leaderCommit)
    (hcovered : B → CommitCovered r s) (draw : Nat) :
    OutcomeOk P N A B r (r.handleAppendEntries pf request draw) := by
  obtain ⟨hchanges, hlog₁, hcommit₁, hfollow⟩ := receiveAppendEntriesAt_ok (P := P) (N := N)
    (A := A) (B := B) r request.term request.leaderId request.from request.now draw
  have hrefuse : ∀ (r' : RaftConsensus) (m : Nat), ∀ effect ∈
      [r'.appendEntriesResponse request.from false m], EffectOk P N r' effect := by
    intro r' m effect hmem
    rw [List.mem_singleton.mp hmem]
    exact ⟨rfl, fun h => by cases h⟩
  rw [RaftConsensus.handleAppendEntries]
  cases hreceive : r.receiveAppendEntriesAt request.term request.leaderId request.from request.now
      draw with
  | mk r₁ accepted =>
      rw [hreceive] at hchanges hlog₁ hcommit₁ hfollow
      cases accepted with
      | false => exact OutcomeOk.ok hchanges (hrefuse r₁ _)
      | true =>
          obtain ⟨hle, hterm, hrole⟩ := hfollow rfl
          cases hvalidate : RaftConsensus.validateReplicatedEntries pf request.entries with
          | error e => exact OutcomeOk.ok hchanges (hrefuse r₁ _)
          | ok validated =>
              refine OutcomeOk.after hchanges ?_
              refine acceptEntries_ok hs (hlog₁ ▸ hlog) hrole hterm hbody
                (RaftConsensus.validateReplicatedEntries_entries hvalidate) ?_
              intro hmB
              exact (hcovered hmB).of_follow hbody hle hlog₁ hcommit₁

-- ============================================================================
-- Steps of the cluster
-- ============================================================================

namespace Cluster

/-- Every rejection a leader handles is a true match. -/
def RejectionsTrue (c : Cluster) : Action → Prop
  | .deliver s _ _ => RejectionTrue (c.peers s.message.to) s
  | _ => True

/-- Every append request a follower handles covers the commit index it raises. -/
def CommitsCovered (c : Cluster) : Action → Prop
  | .deliver s _ _ => CommitCovered (c.peers s.message.to) s
  | _ => True

/-- Whatever happens in a step is a sequence of changes with justified effects. -/
theorem Step.outcome_ok {c c' : Cluster} {act : Action} (hstep : Step pf P c act c')
    (hpeer : (c.peers act.peer).peerId = act.peer) (hlog : Contiguous 0 (c.peers act.peer).log)
    (htrue : A → c.RejectionsTrue act) (hcovered : B → c.CommitsCovered act) :
    OutcomeOk P (· ∈ c.sent) A B (c.peers act.peer) (c.outcome pf act) := by
  have henabled := hstep.enabled
  cases act with
  | tick p now knownPeers =>
      refine onTick_ok (hpeer.symm ▸ hstep.mem) ?_ hstep.term_lt now
      intro q
      rw [hpeer]
      exact henabled q
  | clientTransaction p clientTx =>
      refine ⟨.refl, ?_⟩
      intro effects heffects effect hmem
      have heq : (c.peers p).onClientTransaction clientTx = .ok effects := heffects
      rw [RaftConsensus.onClientTransaction] at heq
      split at heq
      · split at heq
        · cases heq
        · cases heq
          rw [List.mem_singleton.mp hmem]
          trivial
      all_goals
        rw [RaftConsensus.forwardClientTransaction] at heq
        split at heq
        · cases heq
        · cases heq
          rw [List.mem_singleton.mp hmem]
          trivial
  | blockCreated p blockHash => exact onBlockCreated_ok blockHash
  | takePendingBlock p blockHash =>
      exact OutcomeOk.quiet (.single (.tune ⟨rfl, rfl, rfl, rfl, rfl, rfl, rfl, rfl, rfl⟩))
  | deliver s now draw =>
      have hs : s ∈ c.sent := henabled
      show OutcomeOk P (· ∈ c.sent) A B (c.peers s.message.to)
        ((c.peers s.message.to).onMessage pf s.message.from s.message.body now draw)
      cases hbody : s.message.body with
      | raftRequestVote term candidateId lastLogIndex lastLogTerm =>
          obtain ⟨h1, h2⟩ := onRequestVote_ok (P := P) (N := (· ∈ c.sent)) (A := A) (B := B)
            (r := c.peers s.message.to) hs hbody
          exact OutcomeOk.ok h1 h2
      | raftRequestVoteResponse term voteGranted =>
          exact onRequestVoteResponse_ok (N := (· ∈ c.sent)) hs hpeer.symm hbody
      | raftAppendEntries term leaderId prevLogIndex prevLogTerm entries leaderCommit =>
          exact handleAppendEntries_ok (N := (· ∈ c.sent)) hs hlog hbody hcovered draw
      | raftAppendEntriesResponse term success matchIndex =>
          exact onAppendEntriesResponse_ok (N := (· ∈ c.sent)) hs hbody htrue
      | _ => exact OutcomeOk.error .refl _

end Cluster

end Rustchain
