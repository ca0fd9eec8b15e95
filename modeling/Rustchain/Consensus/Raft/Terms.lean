/-
  Rustchain.Consensus.Raft.Terms

  Terms and votes over the whole life of a Raft peer.

  Within a term a peer gives one vote: it is cast for itself when the peer stands
  for election, or for the candidate a `RaftRequestVote` names.  The vote is kept
  under that name, but the answer goes to the sender of the request, so the vote
  has one recipient if the candidates ask for themselves.
-/

import Rustchain.Consensus.Raft.Accept
import Rustchain.Consensus.Raft.History

namespace Rustchain

-- ============================================================================
-- Elections and granted votes
-- ============================================================================

/-- The event makes the peer stand for election: a tick after the leader has been
    silent for too long. -/
def RaftEvent.StartsElection (r : RaftConsensus) : RaftEvent → Prop
  | .tick now _ => r.role ≠ .leader ∧ r.leaderTimedOut now = true
  | _ => False

/-- The votes that a batch grants: the term and the peer that gets the answer. -/
def grantedVotes (effects : List ConsensusEffect) : List (Nat × PeerId) :=
  effects.filterMap fun
    | .send dst (.raftRequestVoteResponse term true) => some (term, dst)
    | _ => none

@[simp] theorem grantedVotes_append (effects effects' : List ConsensusEffect) :
    grantedVotes (effects ++ effects') = grantedVotes effects ++ grantedVotes effects' :=
  List.filterMap_append

theorem mem_grantedVotes {effects : List ConsensusEffect} {term : Nat} {dst : PeerId} :
    (term, dst) ∈ grantedVotes effects ↔
      .send dst (.raftRequestVoteResponse term true) ∈ effects := by
  unfold grantedVotes
  rw [List.mem_filterMap]
  constructor
  · rintro ⟨effect, hmem, heq⟩
    split at heq
    · cases heq
      exact hmem
    · cases heq
  · intro hmem
    exact ⟨_, hmem, rfl⟩

/-- The vote is given once: term and vote are what they were, or the term is newer
    and nobody has the vote. -/
structure KeepsVote (r r' : RaftConsensus) : Prop where
  peerId : r'.peerId = r.peerId
  vote : r'.currentTerm = r.currentTerm ∧ r'.votedFor = r.votedFor ∨
    r.currentTerm < r'.currentTerm ∧ r'.votedFor = none

namespace KeepsVote

variable {r r' r'' : RaftConsensus}

theorem refl (r : RaftConsensus) : KeepsVote r r := ⟨rfl, Or.inl ⟨rfl, rfl⟩⟩

theorem trans (h : KeepsVote r r') (h' : KeepsVote r' r'') : KeepsVote r r'' := by
  refine ⟨h'.peerId.trans h.peerId, ?_⟩
  rcases h'.vote with ⟨hterm', hvote'⟩ | ⟨hterm', hvote'⟩
  · rw [hterm', hvote']
    exact h.vote
  · refine Or.inr ⟨?_, hvote'⟩
    rcases h.vote with ⟨hterm, -⟩ | ⟨hterm, -⟩ <;> omega

theorem term_le (h : KeepsVote r r') : r.currentTerm ≤ r'.currentTerm := by
  rcases h.vote with ⟨hterm, -⟩ | ⟨hterm, -⟩ <;> omega

end KeepsVote

/-- A handler that neither stands for election nor grants a vote. -/
structure NoVote (r : RaftConsensus) (out : RaftConsensus × Except String (List ConsensusEffect)) :
    Prop where
  keeps : KeepsVote r out.1
  grantedVotes : grantedVotes (out.2.toOption.getD []) = []

theorem NoVote.after {r r' : RaftConsensus}
    {out : RaftConsensus × Except String (List ConsensusEffect)} (hkeeps : KeepsVote r r')
    (h : NoVote r' out) : NoVote r out :=
  ⟨hkeeps.trans h.keeps, h.grantedVotes⟩

-- ============================================================================
-- The handlers
-- ============================================================================

namespace RaftConsensus

variable {pf : Platform} {r : RaftConsensus}

theorem stepDownOnNewerTerm_keepsVote (r : RaftConsensus) (term : Nat) :
    KeepsVote r (r.stepDownOnNewerTerm term) := by
  rw [stepDownOnNewerTerm]
  split
  · rename_i hterm
    exact ⟨rfl, Or.inr ⟨hterm, rfl⟩⟩
  · exact KeepsVote.refl r

theorem receiveAppendEntriesAt_keepsVote (r : RaftConsensus) (term : Nat) (leaderId src : PeerId)
    (now : Instant) (draw : Nat) :
    KeepsVote r (r.receiveAppendEntriesAt term leaderId src now draw).1 := by
  have hstep := r.stepDownOnNewerTerm_keepsVote term
  unfold receiveAppendEntriesAt
  split
  · exact KeepsVote.refl r
  split
  · exact KeepsVote.refl r
  simp only
  split
  · exact hstep
  · unfold followLeader
    simp only
    split <;> exact hstep.trans ⟨rfl, Or.inl ⟨rfl, rfl⟩⟩

theorem becomeLeaderIfMajority_vote (r : RaftConsensus) :
    r.becomeLeaderIfMajority.1.peerId = r.peerId ∧
      r.becomeLeaderIfMajority.1.currentTerm = r.currentTerm ∧
      r.becomeLeaderIfMajority.1.votedFor = r.votedFor := by
  unfold becomeLeaderIfMajority
  split <;> exact ⟨rfl, rfl, rfl⟩

theorem receiveVote_keepsVote (r : RaftConsensus) (term : Nat) (voterId : PeerId) (granted : Bool) :
    KeepsVote r (r.receiveVote term voterId granted).1 := by
  unfold receiveVote
  split
  · rename_i hterm
    exact ⟨rfl, Or.inr ⟨hterm, rfl⟩⟩
  split
  · exact KeepsVote.refl r
  split
  · obtain ⟨hid, hterm, hvote⟩ := becomeLeaderIfMajority_vote
      { r with votesReceived := insert voterId r.votesReceived }
    exact ⟨hid, Or.inl ⟨hterm, hvote⟩⟩
  · exact KeepsVote.refl r

theorem persistThen_noVote {r' : RaftConsensus} {effects : List ConsensusEffect}
    (hkeeps : KeepsVote r r') (hgrants : grantedVotes effects = []) :
    NoVote r (r'.persistThen pf effects) := by
  refine ⟨?_, ?_⟩
  · rw [persistThen_fst]
    exact hkeeps.trans ⟨rfl, Or.inl ⟨rfl, rfl⟩⟩
  · rw [persistThen_snd]
    cases (r'.raftLogStore.save pf r'.log r'.commitIndex).2 with
    | error e => rfl
    | ok _ => exact hgrants

theorem grantedVotes_eq_nil_of_plain {effects : List ConsensusEffect}
    (h : ∀ effect ∈ effects, ∀ dst body, effect ≠ .send dst body) : grantedVotes effects = [] := by
  rw [grantedVotes, List.filterMap_eq_nil_iff]
  intro effect hmem
  split
  · exact absurd rfl (h _ hmem _ _)
  · rfl

theorem grantedVotes_commitEffects (r : RaftConsensus) (low high : Nat) :
    grantedVotes (r.commitEffects low high) = [] := by
  refine grantedVotes_eq_nil_of_plain ?_
  intro effect hmem dst body heq
  obtain ⟨blockHash, -, rfl⟩ := List.mem_map.mp hmem
  cases heq

theorem grantedVotes_appendEntriesEffectFor (r : RaftConsensus) (peerId : PeerId) :
    grantedVotes (r.appendEntriesEffectFor peerId).toList = [] := by
  unfold appendEntriesEffectFor
  simp only
  split <;> rfl

theorem grantedVotes_appendEntriesEffectsForFollowers (r : RaftConsensus) :
    grantedVotes r.appendEntriesEffectsForFollowers = [] := by
  refine grantedVotes_eq_nil_of_plain ?_
  intro effect hmem dst body heq
  obtain ⟨peerId, -, hsome⟩ := mem_appendEntriesEffectsForFollowers hmem
  obtain ⟨prevLogIndex, prevLogTerm, -, rfl⟩ := appendEntriesEffectFor_spec hsome
  cases heq

theorem advanceCommitIndex_keepsVote (r : RaftConsensus) (log : List RaftLogEntry)
    (matchIndexes : HashMap PeerId Nat) :
    KeepsVote r { r with log, matchIndexes }.advanceCommitIndex.1 := by
  rw [advanceCommitIndex_fst]
  exact ⟨rfl, Or.inl ⟨rfl, rfl⟩⟩

theorem appendAsLeader_noVote (pf : Platform) (r : RaftConsensus) (entry : RaftLogEntry) :
    NoVote r (r.appendAsLeader pf entry) := by
  unfold appendAsLeader
  refine persistThen_noVote ?_ ?_
  · exact r.advanceCommitIndex_keepsVote (r.log ++ [entry])
      (r.matchIndexes.insert r.peerId entry.index)
  · rw [grantedVotes_append, grantedVotes_appendEntriesEffectsForFollowers]
    exact grantedVotes_commitEffects _ _ _

theorem onBlockCreated_noVote (r : RaftConsensus) (blockHash : BlockHash) :
    NoVote r (r.onBlockCreated pf blockHash) := by
  unfold onBlockCreated
  split
  · unfold appendLocalBlock
    split
    · exact ⟨KeepsVote.refl r, rfl⟩
    · exact appendAsLeader_noVote _ r _
  · exact ⟨KeepsVote.refl r, rfl⟩
  · exact ⟨KeepsVote.refl r, rfl⟩

theorem onRequestVoteResponse_noVote (r : RaftConsensus) (term : Nat) (voterId : PeerId)
    (voteGranted : Bool) : NoVote r (r.onRequestVoteResponse pf term voterId voteGranted) := by
  unfold onRequestVoteResponse
  split
  · have hvote := r.receiveVote_keepsVote term voterId voteGranted
    split
    · rename_i heq
      rw [heq] at hvote
      exact NoVote.after hvote (appendAsLeader_noVote _ _ _)
    · rename_i heq
      rw [heq] at hvote
      exact ⟨hvote, rfl⟩
  · exact ⟨r.stepDownOnNewerTerm_keepsVote term, rfl⟩

theorem onAppendEntriesResponse_noVote (r : RaftConsensus) (term : Nat) (src : PeerId)
    (success : Bool) (matchIndex : Nat) :
    NoVote r (r.onAppendEntriesResponse pf term src success matchIndex) := by
  unfold onAppendEntriesResponse
  split
  · unfold handleLeaderAppendEntriesResponse
    split
    · rename_i hterm
      exact ⟨⟨rfl, Or.inr ⟨hterm, rfl⟩⟩, rfl⟩
    split
    · exact ⟨KeepsVote.refl r, rfl⟩
    split
    · have hkeeps := r.advanceCommitIndex_keepsVote r.log
        (r.matchIndexes.insert src (max ((r.matchIndexes.lookup src).getD 0) matchIndex))
      simp only
      split
      · exact persistThen_noVote hkeeps (grantedVotes_commitEffects _ _ _)
      · exact ⟨hkeeps, grantedVotes_commitEffects _ _ _⟩
    · simp only
      split
      · exact ⟨⟨rfl, Or.inl ⟨rfl, rfl⟩⟩, rfl⟩
      · exact ⟨⟨rfl, Or.inl ⟨rfl, rfl⟩⟩, grantedVotes_appendEntriesEffectFor _ _⟩
  · exact ⟨r.stepDownOnNewerTerm_keepsVote term, rfl⟩

theorem grantedVotes_accepted (a : Accepted) : grantedVotes a.effects = [] := by
  refine grantedVotes_eq_nil_of_plain ?_
  intro effect hmem dst body heq
  rw [heq, Accepted.effects, List.mem_append, List.mem_append] at hmem
  rcases hmem with (hmem | hmem) | hmem
  · obtain ⟨_, -, hmem⟩ := List.mem_map.mp hmem
    cases hmem
  · split at hmem
    · cases hmem
    · cases List.mem_singleton.mp hmem
  · obtain ⟨_, -, hmem⟩ := List.mem_map.mp hmem
    cases hmem

theorem handleAppendEntries_noVote (r : RaftConsensus) (request : AppendEntriesRequest)
    (draw : Nat) : NoVote r (r.handleAppendEntries pf request draw) := by
  refine ⟨?_, ?_⟩
  · have hreceive := r.receiveAppendEntriesAt_keepsVote request.term request.leaderId request.from
      request.now draw
    unfold handleAppendEntries
    split
    · rename_i heq
      rw [heq] at hreceive
      exact hreceive
    · rename_i r' heq
      rw [heq] at hreceive
      split
      · exact hreceive
      · rename_i entries blocks hvalid
        obtain ⟨log, store, commitIndex, pending, hfst⟩ := acceptEntries_fst pf r' request entries
          blocks
        rw [hfst]
        exact hreceive.trans ⟨rfl, Or.inl ⟨rfl, rfl⟩⟩
  · have hanswers := handleAppendEntries_answers pf r request draw
    cases haccept : r.acceptance pf request draw with
    | none =>
        rw [haccept] at hanswers
        rcases hanswers with ⟨e, hout⟩ | ⟨term, matchIndex, hout⟩
        · rw [hout]
          rfl
        · rw [hout]
          rfl
    | some a =>
        rw [haccept] at hanswers
        obtain ⟨⟨term, matchIndex, hout⟩, -⟩ := hanswers
        rw [hout]
        show grantedVotes (a.effects ++ _) = []
        rw [grantedVotes_append, grantedVotes_accepted]
        rfl

theorem onClientTransaction_noVote (r : RaftConsensus) (clientTx : SignedTransaction) :
    NoVote r (r, r.onClientTransaction clientTx) := by
  refine ⟨KeepsVote.refl r, ?_⟩
  show grantedVotes ((r.onClientTransaction clientTx).toOption.getD []) = []
  unfold onClientTransaction forwardClientTransaction
  split
  · split <;> rfl
  · split <;> rfl
  · split <;> rfl

/-- A tick without election. -/
theorem onTick_noVote (r : RaftConsensus) (now : Instant) (knownPeers : List PeerId)
    (h : ¬ (RaftEvent.tick now knownPeers).StartsElection r) :
    NoVote r (r.onTick pf now knownPeers) := by
  have hkeeps : KeepsVote r (r.updateParticipants knownPeers) := ⟨rfl, Or.inl ⟨rfl, rfl⟩⟩
  unfold onTick
  simp only
  split
  · split
    · exact ⟨⟨rfl, Or.inl ⟨rfl, rfl⟩⟩, grantedVotes_appendEntriesEffectsForFollowers _⟩
    · exact ⟨hkeeps, rfl⟩
  · rename_i hrole
    split
    · rename_i htimeout
      exact absurd ⟨hrole, htimeout⟩ h
    · exact ⟨hkeeps, rfl⟩

theorem startElectionAt_vote (r : RaftConsensus) (now : Instant) :
    (r.startElectionAt now).1.peerId = r.peerId ∧
      (r.startElectionAt now).1.currentTerm = (r.currentTerm + 1) % 2 ^ 64 ∧
      (r.startElectionAt now).1.votedFor = some r.peerId :=
  becomeLeaderIfMajority_vote _

theorem appendLeaderNoop_vote (pf : Platform) (r : RaftConsensus) :
    (r.appendLeaderNoop pf).1.peerId = r.peerId ∧
      (r.appendLeaderNoop pf).1.currentTerm = r.currentTerm ∧
      (r.appendLeaderNoop pf).1.votedFor = r.votedFor := by
  unfold appendLeaderNoop appendAsLeader
  simp only [persistThen_fst, advanceCommitIndex_fst, and_self]

/-- A tick with an election: the peer votes for itself in the next term. -/
theorem onTick_election (pf : Platform) (r : RaftConsensus) (now : Instant)
    (knownPeers : List PeerId) (h : (RaftEvent.tick now knownPeers).StartsElection r) :
    let out := r.onTick pf now knownPeers
    out.1.peerId = r.peerId ∧ out.1.currentTerm = (r.currentTerm + 1) % 2 ^ 64 ∧
      out.1.votedFor = some r.peerId ∧ grantedVotes (out.2.toOption.getD []) = [] := by
  obtain ⟨hrole, htimeout⟩ := h
  have hrole' : (r.updateParticipants knownPeers).role ≠ .leader := hrole
  have htimeout' : (r.updateParticipants knownPeers).leaderTimedOut now = true := htimeout
  obtain ⟨hid, hterm, hvote⟩ := (r.updateParticipants knownPeers).startElectionAt_vote now
  unfold onTick
  simp only [if_neg hrole', if_pos htimeout']
  rcases helection : (r.updateParticipants knownPeers).startElectionAt now with ⟨r', _ | _⟩
  · rw [helection] at hid hterm hvote
    exact ⟨hid, hterm, hvote, rfl⟩
  · rw [helection] at hid hterm hvote
    obtain ⟨hid', hterm', hvote'⟩ := appendLeaderNoop_vote pf r'
    have hgrants := (appendAsLeader_noVote pf r'
      (.noop r'.currentTerm (r'.lastLogIndex + 1))).grantedVotes
    change grantedVotes ((r'.appendLeaderNoop pf).2.toOption.getD []) = [] at hgrants
    rcases hnoop : r'.appendLeaderNoop pf with ⟨r'', e | effects⟩
    · rw [hnoop] at hid' hterm' hvote'
      simp only [hnoop]
      exact ⟨hid'.trans hid, hterm'.trans hterm, hvote'.trans hvote, rfl⟩
    · rw [hnoop] at hid' hterm' hvote' hgrants
      simp only [hnoop]
      exact ⟨hid'.trans hid, hterm'.trans hterm, hvote'.trans hvote, hgrants⟩

-- ============================================================================
-- Requests for a vote
-- ============================================================================

/-- The vote of the term can be had by the candidate. -/
def VoteOpen (r : RaftConsensus) (term : Nat) (candidateId : PeerId) : Prop :=
  r.currentTerm < term ∨
    r.currentTerm = term ∧ (r.votedFor = none ∨ r.votedFor = some candidateId)

/-- A vote is granted when it can be had and the candidate's log is up to date. -/
theorem requestVote_cases (r : RaftConsensus) (term : Nat) (candidateId : PeerId)
    (lastLogIndex lastLogTerm : Nat) :
    (r.VoteOpen term candidateId ∧ r.candidateLogIsUpToDate lastLogIndex lastLogTerm = true ∧
      r.requestVote term candidateId lastLogIndex lastLogTerm =
        ({ r.stepDownOnNewerTerm term with votedFor := some candidateId }, .granted)) ∨
    ∃ r', KeepsVote r r' ∧
      r.requestVote term candidateId lastLogIndex lastLogTerm = (r', .rejected) := by
  have hkeeps := r.stepDownOnNewerTerm_keepsVote term
  unfold requestVote
  by_cases hstale : term < r.currentTerm
  · rw [if_pos hstale]
    exact Or.inr ⟨r, KeepsVote.refl r, rfl⟩
  have hlog : (r.stepDownOnNewerTerm term).candidateLogIsUpToDate lastLogIndex lastLogTerm =
      r.candidateLogIsUpToDate lastLogIndex lastLogTerm := by
    unfold candidateLogIsUpToDate RaftConsensus.lastLogTerm RaftConsensus.lastLogIndex
    rw [(r.stepDownOnNewerTerm_sameLog term).log]
  rw [if_neg hstale]
  simp only [hlog]
  by_cases hupToDate : r.candidateLogIsUpToDate lastLogIndex lastLogTerm = true
  · rw [if_neg (by simpa using hupToDate)]
    by_cases hvoted : (r.stepDownOnNewerTerm term).votedFor.any (· ≠ candidateId) = true
    · rw [if_pos hvoted]
      exact Or.inr ⟨_, hkeeps, rfl⟩
    · rw [if_neg hvoted]
      refine Or.inl ⟨?_, hupToDate, rfl⟩
      rcases Nat.lt_or_ge r.currentTerm term with hlt | hge
      · exact Or.inl hlt
      · have hsame : r.stepDownOnNewerTerm term = r := if_neg (by omega)
        rw [hsame] at hvoted
        refine Or.inr ⟨by omega, ?_⟩
        cases hv : r.votedFor with
        | none => exact Or.inl rfl
        | some v =>
            rw [hv] at hvoted
            exact Or.inr (by simpa using hvoted)
  · rw [if_pos (by simpa using hupToDate)]
    exact Or.inr ⟨_, hkeeps, rfl⟩

end RaftConsensus

/-- A request that gets the vote was sent by the candidate it names. -/
def RaftEvent.FromCandidate (r : RaftConsensus) : RaftEvent → Prop
  | .receive src (.raftRequestVote term candidateId lastLogIndex lastLogTerm) _ _ =>
    r.VoteOpen term candidateId → r.candidateLogIsUpToDate lastLogIndex lastLogTerm = true →
      src = candidateId
  | _ => True

/-- The event gives the vote of the new state's term to `voted`, who had it before if
    anybody had. -/
structure GivesVote (r : RaftConsensus) (event : RaftEvent)
    (out : RaftConsensus × Except String (List ConsensusEffect)) (voted : PeerId) : Prop where
  peerId : out.1.peerId = r.peerId
  term_le : r.currentTerm ≤ out.1.currentTerm
  votedFor : out.1.votedFor = some voted
  before : out.1.currentTerm = r.currentTerm → r.votedFor = none ∨ r.votedFor = some voted
  grantedVotes : ∀ vote ∈ grantedVotes (out.2.toOption.getD []),
    vote = (out.1.currentTerm, voted)
  election : event.StartsElection r →
    out.1.currentTerm = r.currentTerm + 1 ∧ voted = r.peerId

/-- What the first event gives is the vote of the new state's term. -/
theorem GivesVote.first {pf : Platform} {r : RaftConsensus} {event : RaftEvent}
    {voted voted' : PeerId} {term : Nat} (h : GivesVote r event (r.handle pf event) voted)
    (hgives : (term, voted') ∈ Rustchain.grantedVotes ((r.handle pf event).2.toOption.getD []) ∨
      voted' = r.peerId ∧ event.StartsElection r ∧ (r.handle pf event).1.currentTerm = term) :
    term = (r.handle pf event).1.currentTerm ∧ voted' = voted := by
  rcases hgives with hgrant | ⟨hself, hstarts, hterm⟩
  · have heq := h.grantedVotes _ hgrant
    exact ⟨congrArg Prod.fst heq, congrArg Prod.snd heq⟩
  · exact ⟨hterm.symm, hself.trans (h.election hstarts).2.symm⟩

namespace RaftConsensus

variable {pf : Platform} {r : RaftConsensus}

theorem onRequestVote_vote (pf : Platform) {term : Nat} {candidateId : PeerId}
    {lastLogIndex lastLogTerm : Nat} {src : PeerId} {now : Instant} {draw : Nat}
    (hfrom : (RaftEvent.receive src
      (.raftRequestVote term candidateId lastLogIndex lastLogTerm) now draw).FromCandidate r) :
    let event := RaftEvent.receive src
      (.raftRequestVote term candidateId lastLogIndex lastLogTerm) now draw
    NoVote r (r.handle pf event) ∨ ∃ voted, GivesVote r event (r.handle pf event) voted := by
  intro event
  have hhandle : r.handle pf event =
      ((r.requestVote term candidateId lastLogIndex lastLogTerm).1,
        .ok [.send src (.raftRequestVoteResponse
          (r.requestVote term candidateId lastLogIndex lastLogTerm).1.currentTerm
          ((r.requestVote term candidateId lastLogIndex lastLogTerm).2 == .granted))]) := rfl
  rcases r.requestVote_cases term candidateId lastLogIndex lastLogTerm with
    ⟨hopen, hlog, hgranted⟩ | ⟨r', hkeeps, hrejected⟩
  · have hsrc : src = candidateId := hfrom hopen hlog
    rw [hhandle, hgranted, hsrc]
    have hkeeps := r.stepDownOnNewerTerm_keepsVote term
    refine Or.inr ⟨candidateId, hkeeps.peerId, hkeeps.term_le, rfl, ?_, ?_, fun h => h.elim⟩
    · intro hterm
      rcases hopen with hlt | ⟨-, hvoted⟩
      · have hstep : r.stepDownOnNewerTerm term = r.stepDown term := if_pos hlt
        rw [hstep] at hterm
        have hterm : term = r.currentTerm := hterm
        omega
      · exact hvoted
    · intro vote hmem
      exact List.mem_singleton.mp hmem
  · rw [hhandle, hrejected]
    exact Or.inl ⟨hkeeps, rfl⟩

/-- What one event does with the vote. -/
theorem handle_vote (pf : Platform) {event : RaftEvent}
    (hterm : event.StartsElection r → r.currentTerm < 2 ^ 64 - 1)
    (hfrom : event.FromCandidate r) :
    NoVote r (r.handle pf event) ∧ ¬ event.StartsElection r ∨
      ∃ voted, GivesVote r event (r.handle pf event) voted := by
  cases event with
  | tick now knownPeers =>
      by_cases helection : (RaftEvent.tick now knownPeers).StartsElection r
      · obtain ⟨hid, hnext, hvoted, hgrants⟩ := onTick_election pf r now knownPeers helection
        have hterm := hterm helection
        rw [Nat.mod_eq_of_lt (by omega)] at hnext
        refine Or.inr ⟨r.peerId, hid, ?_, hvoted, ?_, ?_, fun _ => ⟨hnext, rfl⟩⟩
        · show r.currentTerm ≤ (r.onTick pf now knownPeers).1.currentTerm
          omega
        · intro hsame
          change (r.onTick pf now knownPeers).1.currentTerm = r.currentTerm at hsame
          omega
        · intro vote hmem
          change vote ∈ grantedVotes ((r.onTick pf now knownPeers).2.toOption.getD []) at hmem
          rw [hgrants] at hmem
          cases hmem
      · exact Or.inl ⟨onTick_noVote r now knownPeers helection, helection⟩
  | receive src body now draw =>
      cases body with
      | raftRequestVote term candidateId lastLogIndex lastLogTerm =>
          rcases onRequestVote_vote pf hfrom with hnone | hvote
          · exact Or.inl ⟨hnone, fun h => h.elim⟩
          · exact Or.inr hvote
      | raftRequestVoteResponse term voteGranted =>
          exact Or.inl ⟨onRequestVoteResponse_noVote r term src voteGranted, fun h => h.elim⟩
      | raftAppendEntries term leaderId prevLogIndex prevLogTerm entries leaderCommit =>
          exact Or.inl ⟨handleAppendEntries_noVote r _ draw, fun h => h.elim⟩
      | raftAppendEntriesResponse term success matchIndex =>
          exact Or.inl ⟨onAppendEntriesResponse_noVote r term src success matchIndex,
            fun h => h.elim⟩
      | _ => exact Or.inl ⟨⟨KeepsVote.refl r, rfl⟩, fun h => h.elim⟩
  | clientTransaction clientTx =>
      exact Or.inl ⟨onClientTransaction_noVote r clientTx, fun h => h.elim⟩
  | blockCreated blockHash =>
      exact Or.inl ⟨onBlockCreated_noVote r blockHash, fun h => h.elim⟩
  | takePendingBlock blockHash =>
      exact Or.inl ⟨⟨⟨rfl, Or.inl ⟨rfl, rfl⟩⟩, rfl⟩, fun h => h.elim⟩

/-- Only an election that overflows takes the term back. -/
theorem handle_term_le (pf : Platform) {event : RaftEvent}
    (hterm : event.StartsElection r → r.currentTerm < 2 ^ 64 - 1) :
    r.currentTerm ≤ (r.handle pf event).1.currentTerm := by
  by_cases hfrom : event.FromCandidate r
  · rcases handle_vote pf hterm hfrom with ⟨hnone, -⟩ | ⟨voted, hgives⟩
    · exact hnone.keeps.term_le
    · exact hgives.term_le
  · -- Only a request for a vote is looked at for its sender.
    cases event with
    | receive src body now draw =>
        cases body with
        | raftRequestVote term candidateId lastLogIndex lastLogTerm =>
            show r.currentTerm ≤
              (r.requestVote term candidateId lastLogIndex lastLogTerm).1.currentTerm
            rcases r.requestVote_cases term candidateId lastLogIndex lastLogTerm with
              ⟨-, -, hgranted⟩ | ⟨r', hkeeps, hrejected⟩
            · rw [hgranted]
              exact (r.stepDownOnNewerTerm_keepsVote term).term_le
            · rw [hrejected]
              exact hkeeps.term_le
        | _ => exact absurd trivial hfrom
    | _ => exact absurd trivial hfrom

-- ============================================================================
-- Runs
-- ============================================================================

/-- The events of a run with the states they meet. -/
def steps (pf : Platform) : RaftConsensus → List RaftEvent → List (RaftConsensus × RaftEvent)
  | _, [] => []
  | r, event :: events => (r, event) :: (r.handle pf event).1.steps pf events

/-- The run gives the vote of the term to the peer: by granting it, or by standing for
    election in that term. -/
def Gives (pf : Platform) (r : RaftConsensus) (events : List RaftEvent) (term : Nat)
    (voted : PeerId) : Prop :=
  .send voted (.raftRequestVoteResponse term true) ∈ (r.handleAll pf events).2 ∨
    voted = r.peerId ∧ ∃ step ∈ r.steps pf events, step.2.StartsElection step.1 ∧
      (step.1.handle pf step.2).1.currentTerm = term

/-- One vote a term: granted to one peer only, and to nobody else after standing for
    election. -/
def OneVotePerTerm (pf : Platform) (r : RaftConsensus) (events : List RaftEvent) : Prop :=
  (∀ term dst dst', .send dst (.raftRequestVoteResponse term true) ∈ (r.handleAll pf events).2 →
    .send dst' (.raftRequestVoteResponse term true) ∈ (r.handleAll pf events).2 → dst = dst') ∧
  ∀ step ∈ r.steps pf events, step.2.StartsElection step.1 → ∀ dst,
    .send dst (.raftRequestVoteResponse (step.1.handle pf step.2).1.currentTerm true) ∈
      (r.handleAll pf events).2 → dst = r.peerId

/-- The vote is given by the first event, or later. -/
theorem Gives.cons {event : RaftEvent} {events : List RaftEvent} {term : Nat} {voted : PeerId}
    (hid : (r.handle pf event).1.peerId = r.peerId)
    (h : r.Gives pf (event :: events) term voted) :
    ((term, voted) ∈ grantedVotes ((r.handle pf event).2.toOption.getD []) ∨
      voted = r.peerId ∧ event.StartsElection r ∧ (r.handle pf event).1.currentTerm = term) ∨
    (r.handle pf event).1.Gives pf events term voted := by
  rcases h with hgrant | ⟨hself, step, hstep, hstarts, hterm⟩
  · rw [handleAll_cons, List.mem_append] at hgrant
    rcases hgrant with hgrant | hgrant
    · exact Or.inl (Or.inl (mem_grantedVotes.mpr hgrant))
    · exact Or.inr (Or.inl hgrant)
  · rcases List.mem_cons.mp hstep with rfl | hstep
    · exact Or.inl (Or.inr ⟨hself, hstarts, hterm⟩)
    · exact Or.inr (Or.inr ⟨hself.trans hid.symm, step, hstep, hstarts, hterm⟩)

/-- What a run gives away is in the current term or a later one, in the current term to
    the one who has the vote already, and within each term to one peer. -/
structure GivesOnce (pf : Platform) (r : RaftConsensus) (events : List RaftEvent) : Prop where
  later : ∀ {term voted}, r.Gives pf events term voted → r.currentTerm ≤ term ∧
    (term = r.currentTerm → r.votedFor = none ∨ r.votedFor = some voted)
  unique : ∀ {term voted voted'}, r.Gives pf events term voted →
    r.Gives pf events term voted' → voted = voted'

theorem GivesOnce.nil (pf : Platform) (r : RaftConsensus) : r.GivesOnce pf [] := by
  have hnone : ∀ {term voted}, ¬ r.Gives pf [] term voted := by
    rintro term voted (hgrant | ⟨-, step, hstep, -⟩)
    · cases hgrant
    · cases hstep
  exact ⟨fun h => absurd h hnone, fun h => absurd h hnone⟩

/-- An event that gives no vote: all votes are given later. -/
theorem GivesOnce.cons_of_noVote {event : RaftEvent} {events : List RaftEvent}
    (h : (r.handle pf event).1.GivesOnce pf events) (hnone : NoVote r (r.handle pf event))
    (hstarts : ¬ event.StartsElection r) : r.GivesOnce pf (event :: events) := by
  have hrest : ∀ {term voted}, r.Gives pf (event :: events) term voted →
      (r.handle pf event).1.Gives pf events term voted := by
    intro term voted hgives
    rcases hgives.cons hnone.keeps.peerId with (hgrant | ⟨-, helection, -⟩) | hrest
    · rw [hnone.grantedVotes] at hgrant
      cases hgrant
    · exact absurd helection hstarts
    · exact hrest
  refine ⟨?_, fun hgives hgives' => h.unique (hrest hgives) (hrest hgives')⟩
  intro term voted hgives
  obtain ⟨hle, hsame⟩ := h.later (hrest hgives)
  refine ⟨hnone.keeps.term_le.trans hle, ?_⟩
  intro hterm
  rcases hnone.keeps.vote with ⟨hcurrent, hvote⟩ | ⟨hcurrent, -⟩
  · rw [← hvote]
    exact hsame (hterm.trans hcurrent.symm)
  · omega

/-- An event that gives the vote of the new state's term to `voted₀`, who keeps it. -/
theorem GivesOnce.cons_of_givesVote {event : RaftEvent} {events : List RaftEvent}
    {voted₀ : PeerId} (h : (r.handle pf event).1.GivesOnce pf events)
    (hvote : GivesVote r event (r.handle pf event) voted₀) :
    r.GivesOnce pf (event :: events) := by
  have hnow : ∀ {term voted}, r.Gives pf (event :: events) term voted →
      term = (r.handle pf event).1.currentTerm ∧ voted = voted₀ ∨
        (r.handle pf event).1.Gives pf events term voted := by
    intro term voted hgives
    rcases hgives.cons hvote.peerId with hfirst | hrest
    · exact Or.inl (hvote.first hfirst)
    · exact Or.inr hrest
  have hkept : ∀ {term voted}, (r.handle pf event).1.Gives pf events term voted →
      term = (r.handle pf event).1.currentTerm → voted = voted₀ := by
    intro term voted hgives hterm
    rcases (h.later hgives).2 hterm with hnone | hsome
    · rw [hvote.votedFor] at hnone
      cases hnone
    · exact (Option.some.inj (hvote.votedFor.symm.trans hsome)).symm
  refine ⟨?_, ?_⟩
  · intro term voted hgives
    rcases hnow hgives with ⟨hterm, hvoted⟩ | hrest
    · refine ⟨hterm ▸ hvote.term_le, ?_⟩
      intro hsame
      rw [hvoted]
      exact hvote.before (hterm.symm.trans hsame)
    · have hle := (h.later hrest).1
      refine ⟨hvote.term_le.trans hle, ?_⟩
      intro hsame
      have hle' := hvote.term_le
      have hterm : term = (r.handle pf event).1.currentTerm := by omega
      rw [hkept hrest hterm]
      exact hvote.before (hterm.symm.trans hsame)
  · intro term voted voted' hgives hgives'
    rcases hnow hgives with ⟨hterm, hvoted⟩ | hrest
    · rcases hnow hgives' with ⟨-, hvoted'⟩ | hrest'
      · rw [hvoted, hvoted']
      · rw [hvoted, hkept hrest' hterm]
    · rcases hnow hgives' with ⟨hterm, hvoted'⟩ | hrest'
      · rw [hvoted', hkept hrest hterm]
      · exact h.unique hrest hrest'

theorem givesOnce_of_fromCandidate {events : List RaftEvent}
    (hterms : ∀ step ∈ r.steps pf events, step.1.currentTerm < 2 ^ 64 - 1)
    (hfrom : ∀ step ∈ r.steps pf events, step.2.FromCandidate step.1) :
    r.GivesOnce pf events := by
  induction events generalizing r with
  | nil => exact GivesOnce.nil pf r
  | cons event events ih =>
      have hrest : (r.handle pf event).1.GivesOnce pf events :=
        ih (fun step hstep => hterms step (List.mem_cons_of_mem _ hstep))
          (fun step hstep => hfrom step (List.mem_cons_of_mem _ hstep))
      have hterm : r.currentTerm < 2 ^ 64 - 1 := hterms (r, event) List.mem_cons_self
      have hcandidate : event.FromCandidate r := hfrom (r, event) List.mem_cons_self
      rcases handle_vote pf (fun _ => hterm) hcandidate with ⟨hnone, hstarts⟩ | ⟨voted, hvote⟩
      · exact hrest.cons_of_noVote hnone hstarts
      · exact hrest.cons_of_givesVote hvote

/-- In every run in which the votes are granted to candidates that asked for themselves,
    a term's vote goes to one peer. -/
theorem oneVotePerTerm_of_fromCandidate (pf : Platform) (r : RaftConsensus)
    (events : List RaftEvent)
    (hterms : ∀ step ∈ r.steps pf events, step.1.currentTerm < 2 ^ 64 - 1)
    (hfrom : ∀ step ∈ r.steps pf events, step.2.FromCandidate step.1) :
    r.OneVotePerTerm pf events := by
  have honce := givesOnce_of_fromCandidate hterms hfrom
  refine ⟨?_, ?_⟩
  · intro term dst dst' h h'
    exact honce.unique (Or.inl h) (Or.inl h')
  · intro step hstep hstarts dst hgrant
    exact honce.unique (Or.inl hgrant) (Or.inr ⟨rfl, step, hstep, hstarts, rfl⟩)

end RaftConsensus

namespace Reference

/-- Candidate 2 of term 1 asks, by itself or through another peer. -/
def voteRequest (src : PeerId) : RaftEvent := .receive src (.raftRequestVote 1 2 0 0) 0 0

end Reference

namespace RaftConsensus

/-- Candidate 2 asks twice. -/
theorem oneVotePerTerm_repeated :
    let r := RaftConsensus.new 1 0 0
    let events := [Reference.voteRequest 2, Reference.voteRequest 2]
    (∀ step ∈ r.steps Reference.platform events, step.1.currentTerm < 2 ^ 64 - 1) ∧
      (∀ step ∈ r.steps Reference.platform events, step.2.FromCandidate step.1) ∧
      .send 2 (.raftRequestVoteResponse 1 true) ∈ (r.handleAll Reference.platform events).2 ∧
      r.OneVotePerTerm Reference.platform events := by
  intro r events
  have hterms : ∀ step ∈ r.steps Reference.platform events, step.1.currentTerm < 2 ^ 64 - 1 := by
    rintro step (_ | ⟨_, _ | ⟨_, hmem⟩⟩)
    · decide
    · decide
    · cases hmem
  have hfrom : ∀ step ∈ r.steps Reference.platform events, step.2.FromCandidate step.1 := by
    rintro step (_ | ⟨_, _ | ⟨_, hmem⟩⟩)
    · exact fun _ _ => rfl
    · exact fun _ _ => rfl
    · cases hmem
  exact ⟨hterms, hfrom, by decide, oneVotePerTerm_of_fromCandidate _ _ _ hterms hfrom⟩

/-- A vote for candidate 2 is granted to it and to a peer that asked in its name. -/
theorem oneVotePerTerm_fails :
    let r := RaftConsensus.new 1 0 0
    let events := [Reference.voteRequest 2, Reference.voteRequest 3]
    (∀ step ∈ r.steps Reference.platform events, step.1.currentTerm < 2 ^ 64 - 1) ∧
      ¬ r.OneVotePerTerm Reference.platform events := by
  intro r events
  refine ⟨?_, ?_⟩
  · rintro step (_ | ⟨_, _ | ⟨_, hmem⟩⟩)
    · decide
    · decide
    · cases hmem
  · rintro ⟨hgrants, -⟩
    exact absurd (hgrants 1 2 3 (by decide) (by decide)) (by decide)

end RaftConsensus

end Rustchain
