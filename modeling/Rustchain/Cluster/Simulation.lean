/-
  Rustchain.Cluster.Simulation

  The cluster refines the abstract protocol of `RaftCore`.

  `PeerSim` relates the state of one peer to the abstract state, `MessageSim`
  a message on the network.  Every elementary change of a peer is matched by a
  sequence of abstract steps of that peer (`PeerSim.change`), so the relation,
  and with it the abstract invariant, holds in every state of every run
  (`Run.sim`).

  The leader's match indexes and the commit indexes are part of the relation
  only under the two conditions the code does not check.
-/

import Rustchain.Cluster.Changes
import Rustchain.RaftCore.Safety

namespace Rustchain

open RaftCore

/-- The abstract state of a cluster. -/
abbrev Abstract := RaftCore.State PeerId RaftLogEntry

-- ============================================================================
-- The relation
-- ============================================================================

/-- What the leader's match indexes say is true: a peer with match index `k` has
    acknowledged every entry of the leader's term among the first `k`. -/
def MatchesTrue (a : Abstract) (r : RaftConsensus) : Prop :=
  ∀ q k, r.matchIndexes.lookup q = some k → k ≤ r.log.length ∧
    ∀ j entry, r.log[j]? = some entry → entry.term = r.currentTerm → j < k →
      a.acked q r.currentTerm (j + 1)

/-- What is known of a candidate of `term`. -/
structure CandidateSim (P : Finset PeerId) (a : Abstract) (p : PeerId) (term : Nat)
    (log : List RaftLogEntry) (votesReceived : Finset PeerId) : Prop where
  stood : a.stood term p = some log
  not_elected : ∀ el, a.elected term = some el → el.leader ≠ p
  voters : votesReceived ⊆ P
  votes : ∀ v ∈ votesReceived, ∃ l, a.vote v term = some (p, l)

structure PeerSim (P : Finset PeerId) (A B : Prop) (a : Abstract) (p : PeerId)
    (r : RaftConsensus) : Prop where
  peerId : r.peerId = p
  term : a.term p = r.currentTerm
  log : a.log p = r.log
  contiguous : Contiguous 0 r.log
  vote : (a.vote p r.currentTerm).map Prod.fst = r.votedFor
  knows : r.role ≠ .follower → KnowsAll P r
  candidate : r.role = .candidate → CandidateSim P a p r.currentTerm r.log r.votesReceived
  leader : r.role = .leader → ∃ el, a.elected r.currentTerm = some el ∧ el.leader = p
  commit_le : r.commitIndex ≤ r.log.length
  matched : A → r.role = .leader → MatchesTrue a r
  committed : A → B → CommittedPrefix RaftLogEntry.term P a (r.log.take r.commitIndex)

/-- What is known of a message on the network. -/
def MessageSim (P : Finset PeerId) (A B : Prop) (a : Abstract) (s : Sent) : Prop :=
  match s.message.body with
  | .raftRequestVote term candidateId lastLogIndex lastLogTerm =>
    candidateId = s.message.from ∧ ∃ l, a.stood term candidateId = some l ∧
      lastLogIndex = l.length ∧ lastLogTerm = lastTerm RaftLogEntry.term l
  | .raftRequestVoteResponse term voteGranted =>
    voteGranted = true → ∃ l, a.vote s.message.from term = some (s.message.to, l)
  | .raftAppendEntries term _ prevLogIndex prevLogTerm entries leaderCommit =>
    (∃ el, a.elected term = some el) ∧ s.log <+: a.lead term ∧ Contiguous 0 s.log ∧
      termOf s.log prevLogIndex = some prevLogTerm ∧
      entries.map RaftReplicatedBlock.entry = (s.log.drop prevLogIndex).take maxAppendEntries ∧
      leaderCommit ≤ s.log.length ∧
      (A → B → CommittedPrefix RaftLogEntry.term P a (s.log.take leaderCommit))
  | .raftAppendEntriesResponse term success matchIndex =>
    Contiguous 0 s.log ∧ Valid RaftLogEntry.term a.lead s.log ∧
      (∀ j entry, s.log[j]? = some entry → entry.term = term →
        a.acked s.message.from term (j + 1)) ∧
      (success = true → matchIndex ≤ s.log.length ∧ s.log.take matchIndex <+: a.lead term)
  | _ => True

/-- The relation between a cluster and the abstract state. -/
structure ClusterSim (P : Finset PeerId) (A B : Prop) (c : Cluster) (a : Abstract) : Prop where
  inv : Inv RaftLogEntry.term P a
  peers : ∀ p, PeerSim P A B a p (c.peers p)
  sent : ∀ s ∈ c.sent, MessageSim P A B a s

variable {P : Finset PeerId} {N : Sent → Prop} {A B : Prop} {pf : Platform}
  {a a' : Abstract} {p q : PeerId} {r r' : RaftConsensus}

-- ============================================================================
-- What later steps keep
-- ============================================================================

theorem MatchesTrue.mono (h : MatchesTrue a r) (hext : Extends a a') : MatchesTrue a' r := by
  intro q k hk
  obtain ⟨hle, hacked⟩ := h q k hk
  exact ⟨hle, fun j entry hj ht hlt => hext.acked q _ _ (hacked j entry hj ht hlt)⟩

theorem MessageSim.mono {s : Sent} (h : MessageSim P A B a s) (hext : Extends a a') :
    MessageSim P A B a' s := by
  unfold MessageSim at h ⊢
  split at h
  · obtain ⟨h1, l, h2, h3⟩ := h
    exact ⟨h1, l, hext.stood _ _ l h2, h3⟩
  · intro hgranted
    obtain ⟨l, hl⟩ := h hgranted
    exact ⟨l, hext.vote _ _ _ hl⟩
  · obtain ⟨⟨el, h1⟩, h2, h3, h4, h5, h6, h7⟩ := h
    exact ⟨⟨el, hext.elected _ el h1⟩, h2.trans (hext.lead _), h3, h4, h5, h6,
      fun hA hB => (h7 hA hB).mono hext⟩
  · obtain ⟨h1, h2, h3, h4⟩ := h
    refine ⟨h1, h2.mono hext.lead, fun j entry hj ht => hext.acked _ _ _ (h3 j entry hj ht), ?_⟩
    intro hsuccess
    exact ⟨(h4 hsuccess).1, (h4 hsuccess).2.trans (hext.lead _)⟩
  · trivial

/-- The steps of one peer leave the relation for another peer alone. -/
theorem PeerSim.frame (h : PeerSim P A B a q r) (hext : Extends a a') (hframe : Frame p a a')
    (hne : q ≠ p) : PeerSim P A B a' q r where
  peerId := h.peerId
  term := (hframe.term q hne).trans h.term
  log := (hframe.log q hne).trans h.log
  contiguous := h.contiguous
  vote := by
    rw [hframe.vote q hne]
    exact h.vote
  knows := h.knows
  candidate := by
    intro hrole
    have hc := h.candidate hrole
    refine ⟨hext.stood _ _ _ hc.stood, ?_, hc.voters, ?_⟩
    · intro el hel
      rcases hframe.elected _ el hel with hel | hp
      · exact hc.not_elected el hel
      · rw [hp]
        exact hne.symm
    · intro v hv
      obtain ⟨l, hl⟩ := hc.votes v hv
      exact ⟨l, hext.vote _ _ _ hl⟩
  leader := by
    intro hrole
    obtain ⟨el, hel, hl⟩ := h.leader hrole
    exact ⟨el, hext.elected _ el hel, hl⟩
  commit_le := h.commit_le
  matched := fun hA hrole => (h.matched hA hrole).mono hext
  committed := fun hA hB => (h.committed hA hB).mono hext

-- ============================================================================
-- Changes without an abstract counterpart
-- ============================================================================

theorem MatchesTrue.congr (h : MatchesTrue a r) (hsame : SameCore r r') : MatchesTrue a r' := by
  unfold MatchesTrue at h ⊢
  rw [hsame.matchIndexes, hsame.log, hsame.currentTerm]
  exact h

theorem PeerSim.tune (h : PeerSim P A B a p r) (hsame : SameCore r r') :
    PeerSim P A B a p r' where
  peerId := hsame.peerId.trans h.peerId
  term := h.term.trans hsame.currentTerm.symm
  log := h.log.trans hsame.log.symm
  contiguous := hsame.log ▸ h.contiguous
  vote := by
    rw [hsame.currentTerm, hsame.votedFor]
    exact h.vote
  knows := by
    intro hrole
    unfold KnowsAll
    rw [hsame.participants]
    exact h.knows (hsame.role ▸ hrole)
  candidate := by
    intro hrole
    rw [hsame.currentTerm, hsame.log, hsame.votesReceived]
    exact h.candidate (hsame.role ▸ hrole)
  leader := by
    intro hrole
    rw [hsame.currentTerm]
    exact h.leader (hsame.role ▸ hrole)
  commit_le := by
    rw [hsame.commitIndex, hsame.log]
    exact h.commit_le
  matched := fun hA hrole => (h.matched hA (hsame.role ▸ hrole)).congr hsame
  committed := by
    rw [hsame.log, hsame.commitIndex]
    exact h.committed

/-- A change of membership only narrows what a candidate and a leader keep. -/
theorem PeerSim.join (h : PeerSim P A B a p r) {knownPeers : List PeerId}
    (hknows : KnowsAll P (r.updateParticipants knownPeers)) :
    PeerSim P A B a p (r.updateParticipants knownPeers) :=
  { h with
    knows := fun _ => hknows
    candidate := by
      intro hrole
      have hc := h.candidate hrole
      refine ⟨hc.stood, hc.not_elected, ?_, ?_⟩
      · exact (Finset.filter_subset _ _).trans hc.voters
      · intro v hv
        exact hc.votes v (Finset.mem_filter.mp hv).1
    matched := by
      intro hA hrole q k hk
      exact h.matched hA hrole q k (HashMap.lookup_of_lookup_retain hk) }

theorem PeerSim.countVote (h : PeerSim P A B a p r) {s : Sent} (hs : MessageSim P A B a s)
    (hrole : r.role = .candidate) (hto : s.message.to = r.peerId)
    (hbody : s.message.body = .raftRequestVoteResponse r.currentTerm true)
    (hfrom : s.message.from ∈ r.participants) :
    PeerSim P A B a p { r with votesReceived := insert s.message.from r.votesReceived } :=
  { h with
    candidate := by
      intro _
      have hc := h.candidate hrole
      refine ⟨hc.stood, hc.not_elected, ?_, ?_⟩
      · refine Finset.insert_subset ?_ hc.voters
        have hknows := h.knows (by rw [hrole]; decide)
        exact (hknows.2 _).mp hfrom
      · intro v hv
        rcases Finset.mem_insert.mp hv with rfl | hv
        · simp only [MessageSim, hbody] at hs
          rw [hto, h.peerId] at hs
          exact hs trivial
        · exact hc.votes v hv }

theorem PeerSim.follow (h : PeerSim P A B a p r) :
    PeerSim P A B a p { r with role := .follower, votesReceived := ∅ } :=
  { h with
    knows := fun hrole => absurd rfl hrole
    candidate := fun hrole => by cases hrole
    leader := fun hrole => by cases hrole
    matched := fun _ hrole => by cases hrole }

/-- Storing a match index keeps the match indexes true if the new one is. -/
theorem PeerSim.storeMatch (h : PeerSim P A B a p r) {q : PeerId} {k : Nat}
    (hk : A → r.role = .leader → k ≤ r.log.length ∧
      ∀ j entry, r.log[j]? = some entry → entry.term = r.currentTerm → j < k →
        a.acked q r.currentTerm (j + 1)) :
    PeerSim P A B a p { r with matchIndexes := r.matchIndexes.insert q k } :=
  { h with
    matched := by
      intro hA hrole q' k' hk'
      by_cases hq : q' = q
      · subst hq
        have hlookup : (r.matchIndexes.insert q' k).lookup q' = some k' := hk'
        rw [AList.lookup_insert] at hlookup
        cases hlookup
        exact hk hA hrole
      · have hlookup : (r.matchIndexes.insert q k).lookup q' = some k' := hk'
        rw [AList.lookup_insert_ne hq] at hlookup
        exact h.matched hA hrole q' k' hlookup }

-- ============================================================================
-- Terms and votes
-- ============================================================================

/-- A peer has cast no vote in a term it has not reached. -/
theorem vote_eq_none_of_lt (hinv : Inv RaftLogEntry.term P a) {t : Nat} (ht : a.term p < t) :
    a.vote p t = none := by
  cases hv : a.vote p t with
  | none => rfl
  | some v =>
      have := (hinv.vote_ok p t v.1 v.2 hv).term_le
      omega

theorem PeerSim.stepDown (hinv : Inv RaftLogEntry.term P a) (h : PeerSim P A B a p r)
    {t : Nat} (ht : r.currentTerm < t) :
    ∃ a', Steps RaftLogEntry.term P p a a' ∧ PeerSim P A B a' p (r.stepDown t) := by
  have hle : a.term p ≤ t := by
    rw [h.term]
    exact Nat.le_of_lt ht
  have hext : Extends a (a.setTerm p t) := Extends.setTerm hle
  refine ⟨a.setTerm p t, .single (.advance a t hle), ?_⟩
  exact
    { peerId := h.peerId
      term := by
        show Function.update a.term p t p = t
        rw [Function.update_self]
      log := h.log
      contiguous := h.contiguous
      vote := by
        show (a.vote p t).map Prod.fst = none
        rw [vote_eq_none_of_lt hinv (by rw [h.term]; exact ht)]
        rfl
      knows := fun hrole => absurd rfl hrole
      candidate := fun hrole => by cases hrole
      leader := fun hrole => by cases hrole
      commit_le := h.commit_le
      matched := fun _ hrole => by cases hrole
      committed := fun hA hB => (h.committed hA hB).mono hext }

/-- Standing for election in the next term. -/
theorem PeerSim.stand (hinv : Inv RaftLogEntry.term P a) (h : PeerSim P A B a p r)
    (hmem : r.peerId ∈ P) (hknows : KnowsAll P r) :
    ∃ a', Steps RaftLogEntry.term P p a a' ∧ PeerSim P A B a' p
      { r with
        currentTerm := r.currentTerm + 1
        role := .candidate
        votedFor := some r.peerId
        votesReceived := {r.peerId} } := by
  have hterm : a.term p < r.currentTerm + 1 := by
    rw [h.term]
    exact Nat.lt_succ_self _
  set a₁ := a.setTerm p (r.currentTerm + 1) with ha₁
  have hterm₁ : a₁.term p = r.currentTerm + 1 := by
    show Function.update a.term p _ p = _
    rw [Function.update_self]
  have hvote₁ : a₁.vote p (a₁.term p) = none := by
    rw [hterm₁]
    exact vote_eq_none_of_lt hinv hterm
  have hstood₁ : a₁.stood (a₁.term p) p = none := by
    rw [hterm₁]
    cases hs : a.stood (r.currentTerm + 1) p with
    | none => exact hs
    | some l =>
        have := (hinv.stood_ok _ p l hs).1
        omega
  have hlog₁ : ∀ e ∈ a₁.log p, e.term < a₁.term p := by
    intro e he
    rw [hterm₁]
    exact Nat.lt_of_le_of_lt (hinv.log_le p e he) hterm
  have hext₁ : Extends a a₁ := Extends.setTerm (Nat.le_of_lt hterm)
  have hext₂ : Extends a₁ ((a₁.setStood p).setVote p p) :=
    (Extends.setStood hstood₁).trans (Extends.setVote hvote₁)
  refine ⟨(a₁.setStood p).setVote p p,
    (Relation.ReflTransGen.single (.advance a _ (Nat.le_of_lt hterm))).tail
      (.stand a₁ hlog₁ hstood₁ hvote₁), ?_⟩
  have hvote₂ : ((a₁.setStood p).setVote p p).vote p (r.currentTerm + 1) = some (p, r.log) := by
    rw [setVote_vote, if_pos ⟨rfl, hterm₁.symm⟩]
    exact congrArg (fun l => some (p, l)) h.log
  exact
    { peerId := h.peerId
      term := hterm₁
      log := h.log
      contiguous := h.contiguous
      vote := by
        rw [hvote₂, h.peerId]
        rfl
      knows := fun _ => hknows
      candidate := by
        intro _
        refine ⟨?_, ?_, ?_, ?_⟩
        · show (a₁.setStood p).stood (r.currentTerm + 1) p = some r.log
          rw [setStood_stood, if_pos ⟨rfl, hterm₁.symm⟩]
          exact congrArg some h.log
        · -- whoever won this term has reached it already
          intro el hel hl
          have hle : r.currentTerm + 1 ≤ a.term el.leader := (hinv.elected_ok _ el hel).term_le
          rw [hl] at hle
          omega
        · exact Finset.singleton_subset_iff.mpr hmem
        · intro v hv
          rw [Finset.mem_singleton.mp hv, h.peerId]
          exact ⟨r.log, hvote₂⟩
      leader := fun hrole => by cases hrole
      commit_le := h.commit_le
      matched := fun _ hrole => by cases hrole
      committed := fun hA hB => (h.committed hA hB).mono (hext₁.trans hext₂) }

/-- A vote for a candidate whose log is up to date. -/
theorem PeerSim.grant (h : PeerSim P A B a p r) {s : Sent} (hs : MessageSim P A B a s)
    {candidateId : PeerId} {lastLogIndex lastLogTerm : Nat}
    (hbody : s.message.body =
      .raftRequestVote r.currentTerm candidateId lastLogIndex lastLogTerm)
    (hlog : r.candidateLogIsUpToDate lastLogIndex lastLogTerm = true)
    (hvote : r.votedFor = none ∨ r.votedFor = some candidateId) :
    ∃ a', Steps RaftLogEntry.term P p a a' ∧
      PeerSim P A B a' p { r with votedFor := some candidateId } := by
  rcases hvote with hnone | hsome
  swap
  · -- the vote was cast before
    refine ⟨a, .refl, h.tune ?_⟩
    exact ⟨rfl, rfl, rfl, hsome.symm, rfl, rfl, rfl, rfl, rfl⟩
  simp only [MessageSim, hbody] at hs
  obtain ⟨-, l, hstood, rfl, rfl⟩ := hs
  have hvote : a.vote p (a.term p) = none := by
    have := h.vote
    rw [hnone, ← h.term] at this
    exact Option.map_eq_none_iff.mp this
  have hup : UpToDate RaftLogEntry.term l (a.log p) := by
    simp only [RaftConsensus.candidateLogIsUpToDate, Bool.or_eq_true, Bool.and_eq_true,
      decide_eq_true_eq, beq_iff_eq, RaftConsensus.lastLogIndex, h.contiguous.lastIndexOf] at hlog
    rw [h.log]
    rcases hlog with hlt | ⟨heq, hle⟩
    · exact Or.inl hlt
    · exact Or.inr ⟨heq.symm, hle⟩
  have hext : Extends a (a.setVote p candidateId) := Extends.setVote hvote
  refine ⟨a.setVote p candidateId,
    .single (.vote a candidateId l (by rw [h.term]; exact hstood) hvote hup), ?_⟩
  exact
    { h with
      vote := by
        show ((a.setVote p candidateId).vote p r.currentTerm).map Prod.fst = some candidateId
        rw [setVote_vote, if_pos ⟨rfl, h.term.symm⟩]
        rfl
      candidate := by
        intro hrole
        have hc := h.candidate hrole
        refine ⟨hc.stood, hc.not_elected, hc.voters, ?_⟩
        intro v hv
        obtain ⟨l', hl'⟩ := hc.votes v hv
        exact ⟨l', hext.vote _ _ _ hl'⟩
      matched := fun hA hrole => (h.matched hA hrole).mono hext
      committed := fun hA hB => (h.committed hA hB).mono hext }

-- ============================================================================
-- Leadership
-- ============================================================================

/-- A fresh leader knows its own log and assumes nothing of the others. -/
theorem RaftConsensus.lookup_initialMatchIndexes {r : RaftConsensus} {q : PeerId} {k : Nat}
    (h : r.initialMatchIndexes.lookup q = some k) :
    (q = r.peerId ∧ k = r.lastLogIndex) ∨ k = 0 := by
  have hgen : ∀ (l : List PeerId) (m : HashMap PeerId Nat),
      (∀ q k, m.lookup q = some k → (q = r.peerId ∧ k = r.lastLogIndex) ∨ k = 0) →
      ∀ q k, (l.foldl (fun m participant =>
        m.insert participant (if participant = r.peerId then r.lastLogIndex else 0)) m).lookup q
          = some k → (q = r.peerId ∧ k = r.lastLogIndex) ∨ k = 0 := by
    intro l
    induction l with
    | nil => exact fun m hm => hm
    | cons v l ih =>
        intro m hm
        refine ih _ ?_
        intro q k hk
        by_cases hq : q = v
        · subst hq
          rw [AList.lookup_insert] at hk
          cases hk
          by_cases hp : q = r.peerId
          · exact Or.inl ⟨hp, by rw [if_pos hp]⟩
          · exact Or.inr (by rw [if_neg hp])
        · rw [AList.lookup_insert_ne hq] at hk
          exact hm q k hk
  refine hgen r.participants ∅ ?_ q k h
  intro q k hk
  simp at hk

/-- A majority of the participants is a majority of `P`. -/
theorem PeerSim.isQuorum (hknows : KnowsAll P r) {Q : Finset PeerId} (hQ : Q ⊆ P)
    (hcard : r.majority ≤ Q.card) : IsQuorum P Q := by
  refine ⟨hQ, ?_⟩
  rw [← hknows.length_participants]
  exact hcard

theorem PeerSim.lead (hinv : Inv RaftLogEntry.term P a) (h : PeerSim P A B a p r)
    (hrole : r.role = .candidate) (hvotes : r.majority ≤ r.votesReceived.card) :
    ∃ a', Steps RaftLogEntry.term P p a a' ∧ PeerSim P A B a' p
      { r with role := .leader, matchIndexes := r.initialMatchIndexes } := by
  have hc := h.candidate hrole
  have hknows : KnowsAll P r := h.knows (by rw [hrole]; decide)
  have hQ : IsQuorum P r.votesReceived := PeerSim.isQuorum hknows hc.voters hvotes
  have hnone : a.elected (a.term p) = none := by
    cases hel : a.elected (a.term p) with
    | none => rfl
    | some el =>
        rw [h.term] at hel
        exact absurd (hinv.leader_unique hel hQ hc.votes).symm (hc.not_elected el hel)
  have hstep : Step RaftLogEntry.term P p a (a.setElected p r.votesReceived) := by
    refine .elect a r.votesReceived hQ ?_ ?_ hnone
    · rw [h.term, h.log]
      exact hc.stood
    · rw [h.term]
      exact hc.votes
  have hext := hinv.step_extends hstep
  have hinv' := hinv.step hstep
  have helected : (a.setElected p r.votesReceived).elected r.currentTerm =
      some ⟨p, a.log p, r.votesReceived⟩ := by
    show Function.update a.elected (a.term p) _ r.currentTerm = _
    rw [h.term, Function.update_self]
  refine ⟨_, .single hstep, ?_⟩
  exact
    { h with
      knows := fun _ => hknows
      candidate := fun hrole => by cases hrole
      leader := fun _ => ⟨_, helected, rfl⟩
      matched := by
        intro _ _ q k hk
        rcases RaftConsensus.lookup_initialMatchIndexes hk with ⟨hq, hk⟩ | hk
        · refine ⟨?_, ?_⟩
          · rw [hk]
            exact Nat.le_of_eq h.contiguous.lastIndexOf
          · intro j entry hj ht _
            have hacked := hinv'.acked_of_getElem? (n := p) (j := j) (e := entry)
              (by rw [← h.log] at hj; exact hj) (by rw [ht]; exact h.term.symm)
            rw [hq, h.peerId]
            exact h.term ▸ hacked
        · rw [hk]
          exact ⟨Nat.zero_le _, fun j _ _ _ hlt => absurd hlt (Nat.not_lt_zero j)⟩
      committed := fun hA hB => (h.committed hA hB).mono hext }

theorem PeerSim.append (hinv : Inv RaftLogEntry.term P a) (h : PeerSim P A B a p r)
    {entry : RaftLogEntry} (hrole : r.role = .leader) (hterm : entry.term = r.currentTerm)
    (hindex : entry.index = r.lastLogIndex + 1) :
    ∃ a', Steps RaftLogEntry.term P p a a' ∧ PeerSim P A B a' p
      { r with
        log := r.log ++ [entry]
        matchIndexes := r.matchIndexes.insert r.peerId entry.index } := by
  obtain ⟨el, hel, hl⟩ := h.leader hrole
  have hlast : r.lastLogIndex = r.log.length := h.contiguous.lastIndexOf
  have hstep : Step RaftLogEntry.term P p a _ :=
    .append a entry el (by rw [h.term]; exact hel) hl (by rw [h.term]; exact hterm)
  have hext := hinv.step_extends hstep
  have hinv' := hinv.step hstep
  refine ⟨_, .single hstep, ?_⟩
  have happend : PeerSim P A B
      (((a.setLog p (a.log p ++ [entry])).setLead (a.term p) (a.lead (a.term p) ++ [entry])).setAcked
        p ((a.lead (a.term p)).length + 1)) p { r with log := r.log ++ [entry] } :=
    { h with
      log := by
        show Function.update a.log p (a.log p ++ [entry]) p = _
        rw [Function.update_self, h.log]
      contiguous := h.contiguous.concat (by rw [hindex, hlast, Nat.zero_add])
      candidate := by
        intro hcand
        rw [hrole] at hcand
        cases hcand
      commit_le := by
        rw [List.length_append]
        exact Nat.le_add_right_of_le h.commit_le
      matched := by
        intro hA _ q k hk
        obtain ⟨hle, hacked⟩ := h.matched hA hrole q k hk
        refine ⟨?_, ?_⟩
        · rw [List.length_append]
          exact Nat.le_add_right_of_le hle
        · intro j e hj ht hlt
          refine hext.acked q _ _ (hacked j e ?_ ht hlt)
          rwa [List.getElem?_append_left (by omega)] at hj
      committed := by
        intro hA hB
        rw [List.take_append_of_le_length h.commit_le]
        exact (h.committed hA hB).mono hext }
  refine happend.storeMatch ?_
  intro _ _
  refine ⟨?_, ?_⟩
  · rw [hindex, hlast, List.length_append]
    exact Nat.le_refl _
  · intro j e hj ht _
    have hj' := happend.log ▸ hj
    rw [h.peerId]
    exact happend.term ▸ hinv'.acked_of_getElem? hj' (ht.trans happend.term.symm)

/-- A leader's log is its term's log. -/
theorem PeerSim.log_eq_lead (hinv : Inv RaftLogEntry.term P a) (h : PeerSim P A B a p r)
    (hrole : r.role = .leader) : r.log = a.lead r.currentTerm := by
  obtain ⟨el, hel, hl⟩ := h.leader hrole
  rw [← h.log, ← h.term]
  exact hinv.leader_log p el (h.term ▸ hel) hl

/-- The leader's entry at a place that a majority matches is committed. -/
theorem PeerSim.committed_of_majority (hinv : Inv RaftLogEntry.term P a)
    (h : PeerSim P A B a p r) (hA : A) (hrole : r.role = .leader) {entry : RaftLogEntry}
    (hmem : entry ∈ r.log) (hterm : entry.term = r.currentTerm)
    (hcount : r.majority ≤ r.replicatedCount entry.index) :
    entry.index ≤ r.log.length ∧
      Committed RaftLogEntry.term P a r.currentTerm entry.index ∧
      r.log.take entry.index = (a.lead r.currentTerm).take entry.index := by
  have hlead := h.log_eq_lead hinv hrole
  have hknows : KnowsAll P r := h.knows (by rw [hrole]; decide)
  obtain ⟨j, hj⟩ := List.mem_iff_getElem?.mp hmem
  have hindex : entry.index = j + 1 := by
    have := h.contiguous j entry hj
    omega
  have hlt : j < r.log.length := (List.getElem?_eq_some_iff.mp hj).1
  refine ⟨by omega, ⟨⟨r.log.take j, entry, ?_, ?_, hterm⟩, ?_⟩, by rw [hlead]⟩
  · rw [← hlead]
    exact take_concat_starts hj
  · rw [List.length_take, Nat.min_eq_left (Nat.le_of_lt hlt), hindex]
  · -- the participants counted are the acknowledging majority
    refine ⟨(r.participants.filter fun peerId =>
      (r.matchIndexes.lookup peerId).any (· ≥ entry.index)).toFinset, ?_, ?_⟩
    · refine PeerSim.isQuorum hknows ?_ ?_
      · intro q hq
        exact (hknows.2 q).mp (List.mem_filter.mp (List.mem_toFinset.mp hq)).1
      · rw [List.toFinset_card_of_nodup (hknows.1.filter _), ← List.countP_eq_length_filter]
        exact hcount
    · intro q hq
      have hany := (List.mem_filter.mp (List.mem_toFinset.mp hq)).2
      cases hk : r.matchIndexes.lookup q with
      | none =>
          rw [hk] at hany
          cases hany
      | some k =>
          rw [hk] at hany
          have hle : entry.index ≤ k := by simpa using hany
          rw [hindex]
          exact (h.matched hA hrole q k hk).2 j entry hj hterm (by omega)

theorem PeerSim.commit (hinv : Inv RaftLogEntry.term P a) (h : PeerSim P A B a p r)
    (hrole : r.role = .leader) : PeerSim P A B a p r.advanceCommitIndex.1 := by
  rw [r.advanceCommitIndex_fst]
  cases hcand : r.commitCandidate with
  | none => exact h
  | some entry =>
      obtain ⟨hmem, -, hterm, hcount⟩ := RaftConsensus.commitCandidate_spec hcand
      refine { h with commit_le := ?_, committed := ?_ }
      · obtain ⟨j, hj⟩ := List.mem_iff_getElem?.mp hmem
        have hindex := h.contiguous j entry hj
        have hlt := (List.getElem?_eq_some_iff.mp hj).1
        show entry.index ≤ r.log.length
        omega
      · intro hA hB
        obtain ⟨-, hcommitted, htake⟩ :=
          h.committed_of_majority hinv hA hrole hmem hterm hcount
        exact Or.inr ⟨_, _, hcommitted, htake ▸ List.prefix_refl _⟩

-- ============================================================================
-- Acknowledgements
-- ============================================================================

/-- Two valid logs with the same term at an index agree up to it. -/
theorem take_eq_of_termOf {lead : Nat → List RaftLogEntry} {l l' : List RaftLogEntry}
    (hl : Contiguous 0 l) (hl' : Contiguous 0 l') (hv : Valid RaftLogEntry.term lead l)
    (hv' : Valid RaftLogEntry.term lead l') {index term : Nat} (ht : termOf l index = some term)
    (ht' : termOf l' index = some term) : l.take index = l'.take index := by
  cases index with
  | zero => rfl
  | succ k =>
      rw [hl.termOf_succ] at ht
      rw [hl'.termOf_succ] at ht'
      obtain ⟨e, he, het⟩ := Option.map_eq_some_iff.mp ht
      obtain ⟨e', he', het'⟩ := Option.map_eq_some_iff.mp ht'
      exact hv.take_eq_of_term hv' he he' (het.trans het'.symm)

/-- If the leader and a peer that answered agree up to `k`, the peer has
    acknowledged the leader's entries of the current term up to there. -/
theorem acked_of_take_eq {s : Sent} {k term : Nat}
    (hacked : ∀ j entry, s.log[j]? = some entry → entry.term = term →
      a.acked s.message.from term (j + 1))
    (htake : r.log.take k = s.log.take k) :
    ∀ j entry, r.log[j]? = some entry → entry.term = term → j < k →
      a.acked s.message.from term (j + 1) := by
  intro j entry hj ht hlt
  refine hacked j entry ?_ ht
  rw [← List.getElem?_take_of_lt hlt, ← htake, List.getElem?_take_of_lt hlt]
  exact hj

theorem PeerSim.success (hinv : Inv RaftLogEntry.term P a) (h : PeerSim P A B a p r) {s : Sent}
    (hs : MessageSim P A B a s) (hrole : r.role = .leader) {matchIndex : Nat}
    (hbody : s.message.body = .raftAppendEntriesResponse r.currentTerm true matchIndex) :
    PeerSim P A B a p
      { r with
        matchIndexes := r.matchIndexes.insert s.message.from
          (max ((r.matchIndexes.lookup s.message.from).getD 0) matchIndex) } := by
  have hlead := h.log_eq_lead hinv hrole
  simp only [MessageSim, hbody] at hs
  obtain ⟨-, -, hacked, hmatch⟩ := hs
  obtain ⟨hle, hpre⟩ := hmatch trivial
  have htake : r.log.take matchIndex = s.log.take matchIndex := by
    rw [hlead]
    have := List.prefix_iff_eq_take.mp hpre
    rwa [List.length_take, Nat.min_eq_left hle, eq_comm] at this
  have hlen : matchIndex ≤ r.log.length := by
    have := hpre.length_le
    rw [List.length_take, Nat.min_eq_left hle, ← hlead] at this
    exact this
  refine h.storeMatch ?_
  intro hA _
  -- the larger of the old index and the new one
  rcases Nat.le_total matchIndex ((r.matchIndexes.lookup s.message.from).getD 0) with hm | hm
  · rw [Nat.max_eq_left hm]
    cases hk : r.matchIndexes.lookup s.message.from with
    | none => exact ⟨Nat.zero_le _, fun j _ _ _ hlt => absurd hlt (Nat.not_lt_zero j)⟩
    | some k => exact h.matched hA hrole _ k hk
  · rw [Nat.max_eq_right hm]
    exact ⟨hlen, acked_of_take_eq hacked htake⟩

/-- A rejection that is a true match leaves the match indexes true. -/
theorem PeerSim.failure (hinv : Inv RaftLogEntry.term P a) (h : PeerSim P A B a p r) {s : Sent}
    (hs : MessageSim P A B a s) (hrole : r.role = .leader) {matchIndex : Nat}
    (hbody : s.message.body = .raftAppendEntriesResponse r.currentTerm false matchIndex)
    (htrue : A → RejectionTrue r s) :
    PeerSim P A B a p
      { r with
        matchIndexes := r.matchIndexes.insert s.message.from (min matchIndex r.lastLogIndex) } := by
  simp only [MessageSim, hbody] at hs
  obtain ⟨hcontiguous, hvalid, hacked, -⟩ := hs
  refine h.storeMatch ?_
  intro hA _
  have hterm := htrue hA
  simp only [RejectionTrue, hbody] at hterm
  have hterm := hterm hrole trivial
  have hle : min matchIndex r.lastLogIndex ≤ r.log.length := by
    rw [RaftConsensus.lastLogIndex, h.contiguous.lastIndexOf]
    exact Nat.min_le_right _ _
  refine ⟨hle, acked_of_take_eq hacked ?_⟩
  obtain ⟨term, ht⟩ := h.contiguous.exists_termOf hle
  exact take_eq_of_termOf h.contiguous hcontiguous (h.log ▸ hinv.log_valid p) hvalid ht
    (hterm ▸ ht)

-- ============================================================================
-- Merging
-- ============================================================================

/-- The first `m` entries of a slice complete the log before it. -/
theorem take_append_drop_slice {l : List RaftLogEntry} {prev n m : Nat}
    (hm : m ≤ ((l.drop prev).take n).length) :
    l.take (prev + m) ++ ((l.drop prev).take n).drop m =
      l.take (prev + ((l.drop prev).take n).length) := by
  have hslice : (l.drop prev).take n = (l.drop prev).take ((l.drop prev).take n).length := by
    rw [List.length_take, List.take_eq_take_iff]
    omega
  generalize ((l.drop prev).take n).length = k at hm hslice
  rw [hslice, List.drop_take, List.drop_drop]
  rw [show prev + k = (prev + m) + (k - m) by omega]
  exact List.take_add.symm

theorem getElem?_slice {l : List RaftLogEntry} {prev n j : Nat} {entry : RaftLogEntry}
    (h : ((l.drop prev).take n)[j]? = some entry) : l[prev + j]? = some entry := by
  rw [List.getElem?_take] at h
  split at h
  · rwa [List.getElem?_drop] at h
  · cases h

/-- A log and a leader's log agree as far as the terms of a slice do that starts where
    they have the same term. -/
theorem take_eq_of_slice_terms {lead : Nat → List RaftLogEntry} {log slog : List RaftLogEntry}
    {prev prevTerm n m : Nat} (hlog : Contiguous 0 log) (hslog : Contiguous 0 slog)
    (hv : Valid RaftLogEntry.term lead log) (hv' : Valid RaftLogEntry.term lead slog)
    (hprev : termOf log prev = some prevTerm) (hsprev : termOf slog prev = some prevTerm)
    (hm : m ≤ ((slog.drop prev).take n).length) (hml : prev + m ≤ log.length)
    (hterms : ∀ j existing entry, j < m → (log.drop prev)[j]? = some existing →
      ((slog.drop prev).take n)[j]? = some entry → existing.term = entry.term) :
    log.take (prev + m) = slog.take (prev + m) := by
  cases m with
  | zero => exact take_eq_of_termOf hlog hslog hv hv' hprev hsprev
  | succ m =>
      have he := List.getElem?_eq_getElem (l := log) (i := prev + m) (by omega)
      have he' := List.getElem?_eq_getElem (l := (slog.drop prev).take n) (i := m) (by omega)
      exact hv.take_eq_of_term hv' he (getElem?_slice he')
        (hterms m _ _ (Nat.lt_succ_self m) (by rw [List.getElem?_drop]; exact he) he')

/-- Without a conflict the entries past the end of the log are appended. -/
theorem append_slice_eq_merge {log slog : List RaftLogEntry} {prev n : Nat}
    (hle : prev ≤ log.length)
    (hagree : ∀ m, m ≤ ((slog.drop prev).take n).length → prev + m ≤ log.length →
      log.take (prev + m) = slog.take (prev + m)) :
    log ++ ((slog.drop prev).take n).drop (log.length - prev) =
      merge log slog (prev + ((slog.drop prev).take n).length) := by
  set entries := (slog.drop prev).take n with hes
  have hlen : entries.length ≤ slog.length - prev := by
    rw [hes, List.length_take, List.length_drop]
    omega
  rcases Nat.lt_or_ge log.length (prev + entries.length) with hlt | hge
  · -- the request reaches past the log
    have hown := hagree (log.length - prev) (by omega) (by omega)
    rw [show prev + (log.length - prev) = log.length by omega, List.take_length] at hown
    rw [merge, if_neg]
    · have htail : slog.take (prev + (log.length - prev)) ++ entries.drop (log.length - prev) =
          slog.take (prev + entries.length) :=
        take_append_drop_slice (by rw [← hes]; omega)
      rw [show prev + (log.length - prev) = log.length by omega] at htail
      rw [← htail, ← hown]
    · intro hp
      have := hp.length_le
      rw [List.length_take] at this
      omega
  · have hown := hagree entries.length (Nat.le_refl _) hge
    rw [merge, if_pos (hown ▸ List.take_prefix _ _), List.drop_eq_nil_of_le (by omega),
      List.append_nil]

/-- At a conflict the log is cut and the rest of the entries taken over. -/
theorem cut_slice_eq_merge {log slog : List RaftLogEntry} {prev n k : Nat}
    {existing entry : RaftLogEntry} (hexisting : log[prev + k]? = some existing)
    (hentry : ((slog.drop prev).take n)[k]? = some entry) (hdiffer : existing.term ≠ entry.term)
    (hagree : log.take (prev + k) = slog.take (prev + k)) :
    log.take (prev + k) ++ ((slog.drop prev).take n).drop k =
        slog.take (prev + ((slog.drop prev).take n).length) ∧
      slog.take (prev + ((slog.drop prev).take n).length) =
        merge log slog (prev + ((slog.drop prev).take n).length) := by
  have hk : k < ((slog.drop prev).take n).length := (List.getElem?_eq_some_iff.mp hentry).1
  have hk' : prev + k < slog.length :=
    (List.getElem?_eq_some_iff.mp (getElem?_slice hentry)).1
  constructor
  · rw [hagree]
    exact take_append_drop_slice (Nat.le_of_lt hk)
  · rw [merge, if_neg]
    -- the logs differ at the conflict
    intro hp
    have hsame : log[prev + k]? = slog[prev + k]? := by
      obtain ⟨rest, hrest⟩ := hp
      rw [← hrest, List.getElem?_append_left (by rw [List.length_take]; omega),
        List.getElem?_take_of_lt (by omega)]
    rw [hexisting, getElem?_slice hentry] at hsame
    cases hsame
    exact hdiffer rfl

/-- Merging a slice of a leader's log into a valid log is the abstract merge, and
    keeps what the follower has committed. -/
theorem mergeEntries_eq_merge {lead : Nat → List RaftLogEntry} {log slog log' : List RaftLogEntry}
    {commitIndex prev prevTerm n : Nat} {discarded : List BlockHash}
    (hlog : Contiguous 0 log) (hslog : Contiguous 0 slog)
    (hv : Valid RaftLogEntry.term lead log) (hv' : Valid RaftLogEntry.term lead slog)
    (hprev : termOf log prev = some prevTerm) (hsprev : termOf slog prev = some prevTerm)
    (hentries : Contiguous prev ((slog.drop prev).take n)) (hcommit : commitIndex ≤ log.length)
    (hmerge : mergeEntries commitIndex log [] ((slog.drop prev).take n) =
      (log', some discarded)) :
    log' = merge log slog (prev + ((slog.drop prev).take n).length) ∧
      log'.take commitIndex = log.take commitIndex ∧
      (firstConflict (log.drop prev) ((slog.drop prev).take n) = none ∨
        log'.length = prev + ((slog.drop prev).take n).length) := by
  have hle : prev ≤ log.length := hlog.le_length_of_termOf hprev
  have hsle : prev ≤ slog.length := hslog.le_length_of_termOf hsprev
  have hagree := fun m => take_eq_of_slice_terms (m := m) (n := n) hlog hslog hv hv' hprev hsprev
  rw [mergeEntries_eq commitIndex hlog hentries hle] at hmerge
  cases hconflict : firstConflict (log.drop prev) ((slog.drop prev).take n) with
  | none =>
      rw [hconflict] at hmerge
      simp only [Prod.mk.injEq] at hmerge
      obtain ⟨rfl, -⟩ := hmerge
      refine ⟨append_slice_eq_merge hle fun m hm hml => hagree m hm hml ?_,
        List.take_append_of_le_length hcommit, Or.inl rfl⟩
      intro j existing entry _ h1 h2
      exact term_eq_of_firstConflict_none hconflict h1 h2
  | some k =>
      rw [hconflict] at hmerge
      simp only at hmerge
      split at hmerge
      · cases hmerge
      · rename_i hc
        simp only [Prod.mk.injEq] at hmerge
        obtain ⟨rfl, -⟩ := hmerge
        obtain ⟨⟨existing, entry, h1, h2, hdiffer⟩, hbefore⟩ := firstConflict_eq_some hconflict
        rw [List.getElem?_drop] at h1
        have hk : prev + k < log.length := (List.getElem?_eq_some_iff.mp h1).1
        have hown := hagree k (Nat.le_of_lt (List.getElem?_eq_some_iff.mp h2).1) (Nat.le_of_lt hk)
          fun j existing entry hj h1 h2 => hbefore j hj existing entry h1 h2
        obtain ⟨hcut, hmerged⟩ := cut_slice_eq_merge h1 h2 hdiffer hown
        refine ⟨hcut.trans hmerged, ?_, Or.inr ?_⟩
        · rw [List.take_append_of_le_length (by rw [List.length_take]; omega), List.take_take,
            Nat.min_eq_left (by omega)]
        · rw [hcut, List.length_take, Nat.min_eq_left]
          rw [List.length_take, List.length_drop]
          omega

/-- The commit index a follower takes over covers only entries of the leader's
    log, if the request does or the follower's entry there is the leader's. -/
theorem take_commit_eq {lead : Nat → List RaftLogEntry} {s : Sent} {log' : List RaftLogEntry}
    {leaderId : PeerId} {prevLogIndex prevLogTerm leaderCommit : Nat}
    {entries : List RaftReplicatedBlock}
    (hlog : Contiguous 0 r.log) (hslog : Contiguous 0 s.log)
    (hv : Valid RaftLogEntry.term lead r.log) (hv' : Valid RaftLogEntry.term lead s.log)
    (hbody : s.message.body = .raftAppendEntries r.currentTerm leaderId prevLogIndex prevLogTerm
      entries leaderCommit)
    (hprev : termOf r.log prevLogIndex = some prevLogTerm)
    (hlen : prevLogIndex + entries.length ≤ s.log.length)
    (hlog' : log' = merge r.log s.log (prevLogIndex + entries.length))
    (hconflict : firstConflict (r.log.drop prevLogIndex)
        (entries.map RaftReplicatedBlock.entry) = none ∨
      log'.length = prevLogIndex + entries.length)
    (hcovered : CommitCovered r s) (hcommit : r.commitIndex < min leaderCommit log'.length) :
    log'.take (min leaderCommit log'.length) = s.log.take (min leaderCommit log'.length) := by
  rcases Nat.lt_or_ge (prevLogIndex + entries.length) (min leaderCommit log'.length) with hlt | hge
  · -- past the request: nothing was cut, and the terms agree at the commit index
    have hsame : log' = r.log := by
      rw [hlog', merge]
      split
      · rfl
      · rename_i hnot
        rw [hlog', merge, if_neg hnot, List.length_take] at hlt
        omega
    have hnone := hconflict.resolve_right (by omega)
    simp only [CommitCovered, hbody, RaftConsensus.lastLogIndex, hlog.lastIndexOf] at hcovered
    rw [hsame] at hlt hcommit ⊢
    have hterm := (hcovered (Nat.le_refl _) hprev hnone).resolve_left (by omega)
    obtain ⟨term, ht⟩ := hlog.exists_termOf (Nat.min_le_right leaderCommit r.log.length)
    exact take_eq_of_termOf hlog hslog hv hv' ht (hterm ▸ ht)
  · have hpre : s.log.take (prevLogIndex + entries.length) <+: log' :=
      hlog' ▸ take_prefix_merge _ _ _
    obtain ⟨rest, hrest⟩ := hpre
    generalize min leaderCommit log'.length = k at hge
    rw [← hrest, List.take_append_of_le_length (by rw [List.length_take]; omega), List.take_take,
      Nat.min_eq_left hge]

theorem PeerSim.accept (hinv : Inv RaftLogEntry.term P a) (h : PeerSim P A B a p r) {s : Sent}
    (hs : MessageSim P A B a s) (hrole : r.role = .follower) {leaderId : PeerId}
    {prevLogIndex prevLogTerm : Nat} {entries : List RaftReplicatedBlock} {leaderCommit : Nat}
    {log : List RaftLogEntry} {discarded : List BlockHash}
    (hbody : s.message.body = .raftAppendEntries r.currentTerm leaderId prevLogIndex prevLogTerm
      entries leaderCommit)
    (hprev : termOf r.log prevLogIndex = some prevLogTerm)
    (hentries : Contiguous prevLogIndex (entries.map RaftReplicatedBlock.entry))
    (hmerge : mergeEntries r.commitIndex r.log [] (entries.map RaftReplicatedBlock.entry) =
      (log, some discarded))
    (hcovered : B → CommitCovered r s) :
    ∃ a', Steps RaftLogEntry.term P p a a' ∧ PeerSim P A B a' p
      { r with log, commitIndex := max r.commitIndex (min leaderCommit (lastIndexOf log)) } := by
  simp only [MessageSim, hbody] at hs
  obtain ⟨⟨el, hel⟩, hslead, hscontiguous, hsprev, hslice, hscommit, hcommitted⟩ := hs
  have hv : Valid RaftLogEntry.term a.lead r.log := h.log ▸ hinv.log_valid p
  have hv' : Valid RaftLogEntry.term a.lead s.log := (hinv.lead_valid _).initial hslead
  have hcontiguous := (termOf_mergeEntries h.contiguous hentries hprev hmerge).1
  have hslicelen : ((s.log.drop prevLogIndex).take maxAppendEntries).length = entries.length := by
    rw [← hslice, List.length_map]
  have hlen : prevLogIndex + entries.length ≤ s.log.length := by
    have := hscontiguous.le_length_of_termOf hsprev
    rw [List.length_take, List.length_drop] at hslicelen
    omega
  obtain ⟨hlog, hkept, hconflict⟩ := mergeEntries_eq_merge h.contiguous hscontiguous hv hv' hprev
    hsprev (hslice ▸ hentries) h.commit_le (hslice ▸ hmerge)
  rw [hslicelen] at hlog hconflict
  rw [← hslice] at hconflict
  -- the slice is the leader's own
  have hlead : s.log.take (prevLogIndex + entries.length) =
      (a.lead r.currentTerm).take (prevLogIndex + entries.length) := by
    obtain ⟨rest, hrest⟩ := hslead
    rw [← hrest, List.take_append_of_le_length hlen]
  have hstep : Step RaftLogEntry.term P p a _ :=
    .accept a (prevLogIndex + entries.length) el (by rw [h.term]; exact hel)
      (by rw [h.term]; exact hlen.trans hslead.length_le)
  have hext := hinv.step_extends hstep
  refine ⟨_, .single hstep, ?_⟩
  have hcommit_le : r.commitIndex ≤ log.length := by
    have := congrArg List.length hkept
    rw [List.length_take, List.length_take, Nat.min_eq_left h.commit_le] at this
    omega
  exact
    { h with
      log := by
        show Function.update a.log p (merge (a.log p) (a.lead (a.term p)) _) p = log
        rw [Function.update_self, h.log, h.term, hlog]
        exact (merge_congr hlead).symm
      contiguous := hcontiguous
      knows := fun hrole' => absurd hrole hrole'
      candidate := by
        intro hcand
        rw [hrole] at hcand
        cases hcand
      commit_le := by
        rw [hcontiguous.lastIndexOf]
        exact Nat.max_le.mpr ⟨hcommit_le, Nat.min_le_right _ _⟩
      matched := by
        intro _ hlead
        rw [hrole] at hlead
        cases hlead
      committed := by
        intro hA hB
        show CommittedPrefix RaftLogEntry.term P _
          (log.take (max r.commitIndex (min leaderCommit (lastIndexOf log))))
        rw [hcontiguous.lastIndexOf]
        rcases Nat.lt_or_ge r.commitIndex (min leaderCommit log.length) with hlt | hge
        · rw [Nat.max_eq_right (Nat.le_of_lt hlt), take_commit_eq h.contiguous hscontiguous hv hv'
            hbody hprev hlen hlog hconflict (hcovered hB) hlt]
          refine ((hcommitted hA hB).initial ?_).mono hext
          exact List.take_prefix_take_left (Nat.min_le_left _ _)
        · rw [Nat.max_eq_left hge, hkept]
          exact (h.committed hA hB).mono hext }

-- ============================================================================
-- Changes, steps and runs
-- ============================================================================

/-- Every change of a peer is matched by abstract steps of that peer. -/
theorem PeerSim.change (hinv : Inv RaftLogEntry.term P a) (h : PeerSim P A B a p r)
    (hnet : ∀ s, N s → MessageSim P A B a s) (hchange : Change P N A B r r') :
    ∃ a', Steps RaftLogEntry.term P p a a' ∧ PeerSim P A B a' p r' := by
  cases hchange with
  | tune hsame => exact ⟨a, .refl, h.tune hsame⟩
  | join hknows => exact ⟨a, .refl, h.join hknows⟩
  | stepDown hterm => exact h.stepDown hinv hterm
  | stand hmem hknows => exact h.stand hinv hmem hknows
  | countVote hs hrole hto hbody hfrom =>
      exact ⟨a, .refl, h.countVote (hnet _ hs) hrole hto hbody hfrom⟩
  | lead hrole hvotes => exact h.lead hinv hrole hvotes
  | grant hs hbody hlog hvote => exact h.grant (hnet _ hs) hbody hlog hvote
  | follow => exact ⟨a, .refl, h.follow⟩
  | accept hs hrole hbody hprev hentries hmerge hcovered =>
      exact h.accept hinv (hnet _ hs) hrole hbody hprev hentries hmerge hcovered
  | append hrole hterm hindex => exact h.append hinv hrole hterm hindex
  | commit hrole => exact ⟨a, .refl, h.commit hinv hrole⟩
  | success hs hrole hbody => exact ⟨a, .refl, h.success hinv (hnet _ hs) hrole hbody⟩
  | failure hs hrole hbody htrue =>
      exact ⟨a, .refl, h.failure hinv (hnet _ hs) hrole hbody htrue⟩

theorem PeerSim.changes (hinv : Inv RaftLogEntry.term P a) (h : PeerSim P A B a p r)
    (hnet : ∀ s, N s → MessageSim P A B a s) (hchanges : Changes P N A B r r') :
    ∃ a', Steps RaftLogEntry.term P p a a' ∧ PeerSim P A B a' p r' := by
  induction hchanges with
  | refl => exact ⟨a, .refl, h⟩
  | tail _ hchange ih =>
      obtain ⟨a₁, hsteps, h₁⟩ := ih
      have hinv₁ := hinv.steps hsteps
      have hext := hinv.steps_extends hsteps
      obtain ⟨a₂, hsteps₂, h₂⟩ := h₁.change hinv₁ (fun s hs => (hnet s hs).mono hext) hchange
      exact ⟨a₂, Relation.ReflTransGen.trans hsteps hsteps₂, h₂⟩

/-- The messages a justified effect turns into are related to the abstract state. -/
theorem PeerSim.message (hinv : Inv RaftLogEntry.term P a) (h : PeerSim P A B a p r)
    (hnet : ∀ s, N s → MessageSim P A B a s) {effect : ConsensusEffect}
    (hok : EffectOk P N r effect) {m : Message} (hemits : Cluster.Emits P p effect m) :
    MessageSim P A B a ⟨m, r.log⟩ := by
  have hvalid : Valid RaftLogEntry.term a.lead r.log := h.log ▸ hinv.log_valid p
  cases hemits with
  | broadcast body q hq hne =>
      rcases hok with ⟨rfl, hrole⟩ | hsingle
      · refine ⟨h.peerId, r.log, ?_, h.contiguous.lastIndexOf, rfl⟩
        rw [h.peerId]
        exact (h.candidate hrole).stood
      · exact absurd ((Finset.mem_singleton.mp (hsingle hq)).trans h.peerId) hne
  | send q body =>
      cases body with
      | raftRequestVoteResponse term granted =>
          intro hgranted
          obtain ⟨rfl, hvote⟩ := hok
          obtain ⟨s, hs, hfrom, candidateId, _, _, hbody, hvoted⟩ := hvote hgranted
          have hsim := hnet s hs
          simp only [MessageSim, hbody] at hsim
          have hv := h.vote
          rw [hvoted, hsim.1, hfrom] at hv
          obtain ⟨v, hv, hfst⟩ := Option.map_eq_some_iff.mp hv
          exact ⟨v.2, by rw [hv, ← hfst]⟩
      | raftAppendEntriesResponse term success matchIndex =>
          obtain ⟨rfl, hsuccess⟩ := hok
          refine ⟨h.contiguous, hvalid, ?_, ?_⟩
          · intro j entry hj ht
            exact h.term ▸ hinv.acked_of_getElem? (h.log ▸ hj) (ht.trans h.term.symm)
          · intro htrue
            obtain ⟨s, hs, _, prevLogIndex, prevLogTerm, entries, _, hbody, rfl, hterm⟩ :=
              hsuccess htrue
            have hsim := hnet s hs
            simp only [MessageSim, hbody] at hsim
            obtain ⟨-, hslead, hscontiguous, hsprev, hslice, -, -⟩ := hsim
            -- the acknowledged index carries the same term on both sides
            have hstarts : entries.map RaftReplicatedBlock.entry <+: s.log.drop prevLogIndex :=
              hslice ▸ List.take_prefix _ _
            have hsterm := termOf_of_drop_prefix hscontiguous hsprev hstarts
            rw [List.length_map] at hsterm
            have htake := take_eq_of_termOf h.contiguous hscontiguous hvalid
              ((hinv.lead_valid _).initial hslead) hterm hsterm
            refine ⟨h.contiguous.le_length_of_termOf hterm, ?_⟩
            show r.log.take (prevLogIndex + entries.length) <+: a.lead r.currentTerm
            rw [htake]
            exact (List.take_prefix _ _).trans hslead
      | clientTransaction clientTx => trivial
      | _ => exact hok.elim
  | sendRaftAppendEntries q term prevLogIndex prevLogTerm replicated leaderCommit =>
      obtain ⟨hrole, rfl, hprev, hslice, hcommit⟩ := hok
      obtain ⟨el, hel, -⟩ := h.leader hrole
      rw [h.contiguous.filter_gt, Nat.sub_zero] at hslice
      refine ⟨⟨el, hel⟩, h.log_eq_lead hinv hrole ▸ List.prefix_refl _, h.contiguous, hprev, hslice,
        hcommit.trans h.commit_le, ?_⟩
      intro hA hB
      exact (h.committed hA hB).initial (List.take_prefix_take_left hcommit)

namespace ClusterSim

variable {c c' : Cluster} {act : Cluster.Action}

theorem init (h : c.Initial) : ClusterSim P A B c State.init where
  inv := Inv.init
  peers := by
    intro p
    obtain ⟨now, draw, hp⟩ := h.2 p
    rw [hp]
    exact
      { peerId := rfl
        term := rfl
        log := rfl
        contiguous := Contiguous.nil 0
        vote := rfl
        knows := fun hrole => absurd rfl hrole
        candidate := fun hrole => by cases hrole
        leader := fun hrole => by cases hrole
        commit_le := Nat.le_refl _
        matched := fun _ hrole => by cases hrole
        committed := fun _ _ => Or.inl rfl }
  sent := by
    rw [h.1]
    simp

/-- Every step of the cluster is matched by abstract steps of the acting peer. -/
theorem step (h : ClusterSim P A B c a) (hstep : Cluster.Step pf P c act c')
    (htrue : A → c.RejectionsTrue act) (hcovered : B → c.CommitsCovered act) :
    ∃ a', Steps RaftLogEntry.term P act.peer a a' ∧ ClusterSim P A B c' a' := by
  have hpeer := h.peers act.peer
  obtain ⟨hchanges, heffects⟩ := hstep.outcome_ok hpeer.peerId hpeer.contiguous htrue hcovered
  obtain ⟨a', hsteps, hpeer'⟩ := hpeer.changes h.inv h.sent hchanges
  have hinv' := h.inv.steps hsteps
  have hext := h.inv.steps_extends hsteps
  refine ⟨a', hsteps, hinv', ?_, ?_⟩
  · intro q
    rw [hstep.peers, Function.update_apply]
    split
    · rename_i hq
      rw [hq]
      exact hpeer'
    · rename_i hq
      exact (h.peers q).frame hext hsteps.frame hq
  · obtain ⟨new, hsent, hnew⟩ := hstep.sent
    rw [hsent]
    intro s hs
    rcases List.mem_append.mp hs with hs | hs
    · exact (h.sent s hs).mono hext
    · obtain ⟨hlog, effects, hok, effect, hmem, hemits⟩ := hnew s hs
      have hmessage := hpeer'.message hinv' (fun s hs => (h.sent s hs).mono hext)
        (heffects effects hok effect hmem) hemits
      rw [← hlog] at hmessage
      exact hmessage

/-- The relation holds along every run, and the abstract history only grows. -/
theorem run (h : ClusterSim P A B c a) {ok : Cluster → Cluster.Action → Prop}
    (htrue : A → ∀ c act, ok c act → c.RejectionsTrue act)
    (hcovered : B → ∀ c act, ok c act → c.CommitsCovered act)
    (hrun : Cluster.Run pf P ok c c') : ∃ a', Extends a a' ∧ ClusterSim P A B c' a' := by
  induction hrun with
  | refl => exact ⟨a, Extends.refl a, h⟩
  | tail _ hstep ih =>
      obtain ⟨a₁, hext, h₁⟩ := ih
      obtain ⟨act, hok, hstep⟩ := hstep
      obtain ⟨a₂, hsteps, h₂⟩ := h₁.step hstep (fun hA => htrue hA _ act hok)
        (fun hB => hcovered hB _ act hok)
      exact ⟨a₂, hext.trans (h₁.inv.steps_extends hsteps), h₂⟩

end ClusterSim

end Rustchain
