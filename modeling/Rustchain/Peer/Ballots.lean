/-
  Rustchain.Peer.Ballots

  How a voting peer counts the votes on one block, over any event.

  A peer counts the approvals of those that propose the block and of those that
  announce their approval, and its own.  It announces its own approval only when
  that decides the ballot, so what others count depends on how many peers propose
  the block themselves.
-/

import Rustchain.Peer.Approval

namespace Rustchain

-- ============================================================================
-- One ballot
-- ============================================================================

namespace VotingConsensus

/-- A ballot as votes leave it: no threshold is reached as long as it is open, nobody
    votes on both sides, and it is rejected only if somebody rejected. -/
structure Fair (v : VotingConsensus) : Prop where
  undecided : v.Undecided
  unrejected : v.Unrejected
  settled : v.outcome ≠ some .pending
  approved : v.outcome = some .approved →
    2 * faultBound v.participants.card + 1 ≤ v.approvals.card
  rejected : v.outcome = some .rejected → v.rejections.Nonempty
  disjoint : Disjoint v.approvals v.rejections

theorem new_fair (peerId : PeerId) (knownPeers : List PeerId) : (new peerId knownPeers).Fair where
  undecided := new_undecided peerId knownPeers
  unrejected := new_unrejected peerId knownPeers
  settled := by simp [new]
  approved := by simp [new]
  rejected := by simp [new]
  disjoint := Finset.disjoint_empty_left _

/-- What a vote does to a ballot. -/
structure Voted (v v' : VotingConsensus) (src : PeerId) (approve : Bool)
    (outcome : ConsensusOutcome) : Prop where
  participants : v'.participants = v.participants
  approvals : v.approvals ⊆ v'.approvals
  rejections : v.rejections ⊆ v'.rejections
  approver : ∀ q ∈ v'.approvals, q ∈ v.approvals ∨ (q = src ∧ approve = true)
  rejecter : ∀ q ∈ v'.rejections, q ∈ v.rejections ∨ (q = src ∧ approve = false)
  counted : src ∈ v.participants → v'.outcome = none →
    src ∈ v'.approvals ∨ src ∈ v'.rejections
  decided : v.outcome ≠ none → v' = v
  pending : outcome = .pending → v'.outcome = v.outcome
  decides : outcome ≠ .pending → v.outcome = none ∧ v'.outcome = some outcome

/-- The votes after a vote that counts, whether it decides or not. -/
theorem afterVote_votes {v : VotingConsensus} {src : PeerId} (hopen : v.closedTo src = false)
    (hmem : src ∈ v.participants) (approve : Bool) :
    (v.afterVote src approve).participants = v.participants ∧
      (v.afterVote src approve).approvals =
        (if approve then insert src v.approvals else v.approvals) ∧
      (v.afterVote src approve).rejections =
        (if approve then v.rejections else insert src v.rejections) := by
  rw [← recordVote_approvals, ← recordVote_rejections, ← recordVote_participants v src approve,
    (afterVote_of_open hopen hmem approve).1]
  split
  · exact ⟨rfl, rfl, rfl⟩
  · exact ⟨rfl, rfl, rfl⟩

/-- A vote that decides is one that counts. -/
theorem open_of_decides {v : VotingConsensus} {src : PeerId} {approve : Bool}
    (h : v.voteOutcome src approve ≠ .pending) :
    v.closedTo src = false ∧ src ∈ v.participants := by
  rcases v.open_or_closed src with hopen | hclosed
  · exact hopen
  · exact absurd (afterVote_of_closed hclosed approve).2 h

theorem afterVote_voted (v : VotingConsensus) (src : PeerId) (approve : Bool) :
    Voted v (v.afterVote src approve) src approve (v.voteOutcome src approve) := by
  rcases v.open_or_closed src with ⟨hopen, hmem⟩ | hclosed
  · obtain ⟨-, -, hnone⟩ := closedTo_eq_false.mp hopen
    obtain ⟨hafter, hout⟩ := afterVote_of_open hopen hmem approve
    obtain ⟨hparticipants, happrovals, hrejections⟩ := afterVote_votes hopen hmem approve
    refine ⟨hparticipants, ?_, ?_, ?_, ?_, ?_, fun h => absurd hnone h, ?_, ?_⟩
    · rw [happrovals]
      split
      · exact Finset.subset_insert _ _
      · exact Finset.Subset.refl _
    · rw [hrejections]
      split
      · exact Finset.Subset.refl _
      · exact Finset.subset_insert _ _
    · intro q hq
      rw [happrovals] at hq
      cases approve with
      | true => exact (Finset.mem_insert.mp hq).symm.imp_right fun h => ⟨h, rfl⟩
      | false => exact Or.inl hq
    · intro q hq
      rw [hrejections] at hq
      cases approve with
      | true => exact Or.inl hq
      | false => exact (Finset.mem_insert.mp hq).symm.imp_right fun h => ⟨h, rfl⟩
    · intro _ _
      rw [happrovals, hrejections]
      cases approve with
      | true => exact Or.inl (Finset.mem_insert_self src _)
      | false => exact Or.inr (Finset.mem_insert_self src _)
    · intro hpending
      rw [hout] at hpending
      rw [hafter, if_neg (not_not.mpr hpending), recordVote_outcome]
    · intro hdecides
      rw [hout] at hdecides
      refine ⟨hnone, ?_⟩
      rw [hafter, if_pos hdecides, hout]
  · obtain ⟨hafter, hout⟩ := afterVote_of_closed hclosed approve
    rw [hafter, hout]
    refine ⟨rfl, fun _ h => h, fun _ h => h, fun q hq => Or.inl hq, fun q hq => Or.inl hq, ?_,
      fun _ => rfl, fun _ => rfl, fun h => absurd rfl h⟩
    intro hmem hnone
    have hvoted : v.closedTo src = true := hclosed.resolve_right (not_not.mpr hmem)
    simpa [closedTo, alreadyVoted, hnone] using hvoted

namespace Voted

variable {v v' : VotingConsensus} {src : PeerId} {approve : Bool} {outcome o : ConsensusOutcome}

/-- What was decided before stays decided the same way. -/
theorem keeps (h : Voted v v' src approve outcome) (hsome : v.outcome = some o) :
    v'.outcome = some o := by
  rw [h.decided (by rw [hsome]; simp)]
  exact hsome

/-- A ballot that is open after the vote was open before. -/
theorem still_open (h : Voted v v' src approve outcome) (hnone : v'.outcome = none) :
    v.outcome = none := by
  cases hold : v.outcome with
  | none => rfl
  | some o =>
      rw [h.keeps hold] at hnone
      cases hnone

/-- A decision is an old one, or this vote's. -/
theorem decision (h : Voted v v' src approve outcome) (hsome : v'.outcome = some o) :
    v.outcome = some o ∨ (outcome ≠ .pending ∧ outcome = o) := by
  by_cases hpending : outcome = .pending
  · rw [h.pending hpending] at hsome
    exact Or.inl hsome
  · obtain ⟨-, hnew⟩ := h.decides hpending
    exact Or.inr ⟨hpending, Option.some.inj (hnew.symm.trans hsome)⟩

/-- Nobody votes on both sides, `src` not having voted before. -/
theorem disjoint (h : Voted v v' src approve outcome)
    (hdisjoint : Disjoint v.approvals v.rejections)
    (happ : src ∉ v.approvals) (hrej : src ∉ v.rejections) :
    Disjoint v'.approvals v'.rejections := by
  rw [Finset.disjoint_left]
  intro q hq hq'
  rcases h.approver q hq with hold | ⟨rfl, hyes⟩
  · rcases h.rejecter q hq' with hold' | ⟨rfl, -⟩
    · exact Finset.disjoint_left.mp hdisjoint hold hold'
    · exact happ hold
  · rcases h.rejecter q hq' with hold' | ⟨-, hno⟩
    · exact hrej hold'
    · rw [hyes] at hno
      cases hno

end Voted

/-- A vote that approves the block completes the quorum. -/
theorem quorum_of_approves {v : VotingConsensus} {src : PeerId} {approve : Bool}
    (h : v.Undecided) (happroves : v.voteOutcome src approve = .approved) :
    2 * faultBound v.participants.card + 1 ≤ (v.afterVote src approve).approvals.card := by
  cases approve with
  | false => exact absurd happroves (voteOutcome_false_ne_approved h src)
  | true =>
      have hcompletes := voteOutcome_true_eq_approved.mp happroves
      obtain ⟨hopen, hmem⟩ := open_of_decides (by rw [happroves]; simp)
      rw [(afterVote_votes hopen hmem true).2.1, if_pos rfl,
        Finset.card_insert_of_notMem hcompletes.notApproved]
      exact hcompletes.quorum

/-- A vote that rejects the block is a rejection, and counted. -/
theorem rejecter_of_rejects {v : VotingConsensus} {src : PeerId} {approve : Bool}
    (h : v.Unrejected) (hrejects : v.voteOutcome src approve = .rejected) :
    src ∈ (v.afterVote src approve).rejections := by
  cases approve with
  | true => exact absurd hrejects (voteOutcome_true_ne_rejected h src)
  | false =>
      obtain ⟨hopen, hmem⟩ := open_of_decides (by rw [hrejects]; simp)
      rw [(afterVote_votes hopen hmem false).2.2, if_neg (by simp)]
      exact Finset.mem_insert_self src _

theorem afterVote_fair {v : VotingConsensus} (h : v.Fair) (src : PeerId) (approve : Bool) :
    (v.afterVote src approve).Fair := by
  have hvoted := afterVote_voted v src approve
  refine ⟨afterVote_undecided h.undecided src approve,
    afterVote_unrejected h.unrejected src approve, ?_, ?_, ?_, ?_⟩
  · intro hpending
    rcases hvoted.decision hpending with hold | ⟨hne, heq⟩
    · exact h.settled hold
    · exact hne heq
  · intro happroved
    rw [hvoted.participants]
    rcases hvoted.decision happroved with hold | ⟨-, happroves⟩
    · exact (h.approved hold).trans (Finset.card_le_card hvoted.approvals)
    · exact quorum_of_approves h.undecided happroves
  · intro hrejected
    rcases hvoted.decision hrejected with hold | ⟨-, hrejects⟩
    · exact (h.rejected hold).mono hvoted.rejections
    · exact ⟨src, rejecter_of_rejects h.unrejected hrejects⟩
  · by_cases hopen : v.closedTo src = false
    · obtain ⟨happ, hrej, -⟩ := closedTo_eq_false.mp hopen
      exact hvoted.disjoint h.disjoint happ hrej
    · rw [(afterVote_of_closed (Or.inl (by simpa using hopen)) approve).1]
      exact h.disjoint

end VotingConsensus

-- ============================================================================
-- What a peer counts
-- ============================================================================

/-- The body proposes the block. -/
def MessageBody.proposes (blockHash : BlockHash) : MessageBody → Bool
  | .blockProposal proposed .. => proposed == blockHash
  | _ => false

/-- One block and what the peers other than `self` have done about it. -/
structure Electorate where
  blockHash : BlockHash
  peers : Finset PeerId
  self : PeerId
  /-- Those that have proposed the block. -/
  proposers : Finset PeerId
  /-- Those that have announced their approval. -/
  announcers : Finset PeerId
  /-- Somebody has rejected the block itself. -/
  contested : Prop
  /-- The peer has. -/
  opposed : Prop
  /-- Those whose approval has reached the peer. -/
  heard : Finset PeerId

namespace PeerEffects

/-- The peer has proposed the block. -/
def Proposed (effects : PeerEffects) (blockHash : BlockHash) : Prop :=
  ∃ call ∈ effects.network.calls, call.body.proposes blockHash = true

instance (effects : PeerEffects) (blockHash : BlockHash) : Decidable (effects.Proposed blockHash) :=
  inferInstanceAs (Decidable (∃ call ∈ effects.network.calls, _))

/-- The peer has sent a `BlockReject` for the block. -/
def Refused (effects : PeerEffects) (blockHash : BlockHash) : Prop :=
  ∃ call ∈ effects.network.calls, call.body = .blockReject blockHash

/-- All peers that have proposed the block. -/
def allProposers (effects : PeerEffects) (e : Electorate) : Finset PeerId :=
  if effects.Proposed e.blockHash then insert e.self e.proposers else e.proposers

/-- An effect that may be queued when the ballot on the block stands as it does. -/
def Licensed (blockHash : BlockHash) (outcome : Option ConsensusOutcome) : ConsensusEffect → Prop
  | .stageClientTransaction _ | .broadcastClientTransaction _ | .proposeBlock _ => True
  | .commitBlock h | .rollbackBlock h => h = blockHash → outcome ≠ none
  | .broadcast (.blockApproved h) => h = blockHash → outcome = some .approved
  | .broadcast (.blockReject h) => h = blockHash → outcome = some .rejected
  | _ => False

/-- A decision that stands licenses what it licensed before. -/
theorem Licensed.mono {blockHash : BlockHash} {outcome outcome' : Option ConsensusOutcome}
    {effect : ConsensusEffect} (h : Licensed blockHash outcome effect)
    (hkeeps : ∀ o, outcome = some o → outcome' = some o) : Licensed blockHash outcome' effect := by
  have hdecided : outcome ≠ none → outcome' ≠ none := by
    intro hne hnone
    obtain ⟨o, ho⟩ := Option.ne_none_iff_exists'.mp hne
    rw [hkeeps o ho] at hnone
    cases hnone
  unfold Licensed at h ⊢
  split at h
  · trivial
  · trivial
  · trivial
  · exact fun heq => hdecided (h heq)
  · exact fun heq => hdecided (h heq)
  · exact fun heq => hkeeps _ (h heq)
  · exact fun heq => hkeeps _ (h heq)
  · exact h.elim

/-- The ballot of the peer on the block. -/
def ballotOn (effects : PeerEffects) (e : Electorate) (votings : Voting.Votings) :
    VotingConsensus :=
  Voting.ballot e.self votings effects.knownPeers e.blockHash

/-- Where a voting peer stands with the block, between two effects of a batch. -/
structure Counts (e : Electorate) (effects : PeerEffects) (votings : Voting.Votings)
    (queue : List ConsensusEffect) : Prop where
  self : effects.peerId = e.self
  known : insert e.self effects.knownPeers.toFinset = e.peers
  calls : ∀ call ∈ effects.network.calls, ∃ body, call = .broadcast body e.self
  participants : (effects.ballotOn e votings).participants = e.peers
  fair : (effects.ballotOn e votings).Fair
  /-- Whose approvals are counted. -/
  sources : ∀ q ∈ (effects.ballotOn e votings).approvals,
    q = e.self ∨ q ∈ e.proposers ∨ q ∈ e.announcers
  heard : ∀ q ∈ e.heard, (effects.ballotOn e votings).outcome = none →
    q ∈ (effects.ballotOn e votings).approvals ∨ q ∈ (effects.ballotOn e votings).rejections
  contested : (effects.ballotOn e votings).rejections.Nonempty →
    e.self ∈ (effects.ballotOn e votings).rejections ∨ e.contested
  opposed : e.opposed → e.self ∈ (effects.ballotOn e votings).rejections
  /-- An approval takes enough proposers, wherever it was reached first. -/
  quorum : (effects.ballotOn e votings).outcome = some .approved ∨ e.announcers.Nonempty →
    2 * VotingConsensus.faultBound e.peers.card ≤ (effects.allProposers e).card
  proposed : effects.Proposed e.blockHash → effects.knownPeers ≠ [] ∧
    ((effects.ballotOn e votings).outcome = none →
      e.blockHash ∈ effects.blockKeeper.uncommitedBlocks)
  completed : effects.lastCompletedBlock = e.blockHash →
    (effects.ballotOn e votings).outcome ≠ none
  announced : effects.Announced e.blockHash →
    (effects.ballotOn e votings).outcome = some .approved
  refused : effects.Refused e.blockHash → (effects.ballotOn e votings).outcome = some .rejected
  /-- An approval is announced, or about to be. -/
  announces : (effects.ballotOn e votings).outcome = some .approved →
    effects.Announced e.blockHash ∨ .broadcast (.blockApproved e.blockHash) ∈ queue
  licensed : ∀ effect ∈ queue, Licensed e.blockHash (effects.ballotOn e votings).outcome effect

namespace Counts

variable {e : Electorate} {effects effects' : PeerEffects} {votings : Voting.Votings}
  {queue rest queued : List ConsensusEffect}

/-- The block store changes and a block is completed, but this one stays staged and is
    not completed as long as the ballot on it is open. -/
theorem services (h : Counts e effects votings queue) (hself : effects'.peerId = effects.peerId)
    (hnetwork : effects'.network = effects.network)
    (hstaged : effects.knownPeers ≠ [] → (effects.ballotOn e votings).outcome = none →
      e.blockHash ∈ effects.blockKeeper.uncommitedBlocks →
      e.blockHash ∈ effects'.blockKeeper.uncommitedBlocks)
    (hcompleted : effects'.lastCompletedBlock = e.blockHash →
      effects.lastCompletedBlock = e.blockHash ∨ (effects.ballotOn e votings).outcome ≠ none) :
    Counts e effects' votings queue := by
  have hknown : effects'.knownPeers = effects.knownPeers := by rw [knownPeers, hnetwork, knownPeers]
  have hballot : effects'.ballotOn e votings = effects.ballotOn e votings := by
    rw [ballotOn, hknown, ballotOn]
  have hproposed : effects'.Proposed e.blockHash ↔ effects.Proposed e.blockHash := by
    rw [Proposed, hnetwork, Proposed]
  have hannounced : effects'.Announced e.blockHash ↔ effects.Announced e.blockHash := by
    rw [Announced, hnetwork, Announced]
  have hrefused : effects'.Refused e.blockHash ↔ effects.Refused e.blockHash := by
    rw [Refused, hnetwork, Refused]
  have hall : effects'.allProposers e = effects.allProposers e := by
    simp only [allProposers, hproposed]
  refine ⟨hself.trans h.self, by rw [hknown, h.known], by rw [hnetwork]; exact h.calls, ?_, ?_, ?_,
    ?_, ?_, ?_, ?_, ?_, ?_, ?_, ?_, ?_, ?_⟩ <;> rw [hballot]
  · exact h.participants
  · exact h.fair
  · exact h.sources
  · exact h.heard
  · exact h.contested
  · exact h.opposed
  · rw [hall]
    exact h.quorum
  · rw [hproposed, hknown]
    intro hprop
    obtain ⟨hne, hstage⟩ := h.proposed hprop
    exact ⟨hne, fun hopen => hstaged hne hopen (hstage hopen)⟩
  · exact fun hlast => (hcompleted hlast).elim h.completed id
  · rw [hannounced]
    exact h.announced
  · rw [hrefused]
    exact h.refused
  · rw [hannounced]
    exact h.announces
  · exact h.licensed

/-- A message is broadcast: if it proposes the block, that is staged; if it is a word
    on the block, that is what the ballot says. -/
theorem call (h : Counts e effects votings queue) (body : MessageBody)
    (hproposes : body.proposes e.blockHash = true → effects.knownPeers ≠ [] ∧
      e.blockHash ∈ effects.blockKeeper.uncommitedBlocks)
    (happroves : body = .blockApproved e.blockHash →
      (effects.ballotOn e votings).outcome = some .approved)
    (hrejects : body = .blockReject e.blockHash →
      (effects.ballotOn e votings).outcome = some .rejected) :
    Counts e
      { effects with network := effects.network.broadcastPeerMessage body effects.peerId } votings
      queue := by
  generalize heffects : { effects with
    network := effects.network.broadcastPeerMessage body effects.peerId } = effects'
  have hmem : ∀ call, call ∈ effects'.network.calls ↔
      call ∈ effects.network.calls ∨ call = .broadcast body effects.peerId := by
    intro call
    rw [← heffects]
    simp [Network.broadcastPeerMessage]
  have hknown : effects'.knownPeers = effects.knownPeers := by
    rw [← heffects]
    rfl
  have hballot : effects'.ballotOn e votings = effects.ballotOn e votings := by
    rw [ballotOn, hknown, ballotOn]
  have hself : effects'.peerId = effects.peerId := by rw [← heffects]
  have hkeeper : effects'.blockKeeper = effects.blockKeeper := by rw [← heffects]
  have hlast : effects'.lastCompletedBlock = effects.lastCompletedBlock := by rw [← heffects]
  have hcalls : ∀ call ∈ effects'.network.calls, ∃ body, call = .broadcast body e.self := by
    intro call hcall
    rcases (hmem call).mp hcall with hold | rfl
    · exact h.calls call hold
    · exact ⟨body, by rw [h.self]⟩
  refine ⟨hself.trans h.self, by rw [hknown, h.known], hcalls, ?_, ?_, ?_, ?_, ?_, ?_, ?_, ?_, ?_,
    ?_, ?_, ?_, ?_⟩ <;> rw [hballot]
  · exact h.participants
  · exact h.fair
  · exact h.sources
  · exact h.heard
  · exact h.contested
  · exact h.opposed
  · intro hquorum
    refine (h.quorum hquorum).trans (Finset.card_le_card ?_)
    have hproposed : effects.Proposed e.blockHash → effects'.Proposed e.blockHash :=
      fun ⟨call, hcall, hbody⟩ => ⟨call, (hmem call).mpr (Or.inl hcall), hbody⟩
    unfold allProposers
    split
    · rename_i hprop
      rw [if_pos (hproposed hprop)]
    · split
      · exact Finset.subset_insert _ _
      · exact Finset.Subset.refl _
  · rintro ⟨call, hcall, hbody⟩
    rw [hknown, hkeeper]
    rcases (hmem call).mp hcall with hold | rfl
    · exact h.proposed ⟨call, hold, hbody⟩
    · exact ⟨(hproposes hbody).1, fun _ => (hproposes hbody).2⟩
  · rw [hlast]
    exact h.completed
  · rintro ⟨call, hcall, hbody⟩
    rcases (hmem call).mp hcall with hold | rfl
    · exact h.announced ⟨call, hold, hbody⟩
    · exact happroves hbody
  · rintro ⟨call, hcall, hbody⟩
    rcases (hmem call).mp hcall with hold | rfl
    · exact h.refused ⟨call, hold, hbody⟩
    · exact hrejects hbody
  · intro happroved
    refine (h.announces happroved).imp_left ?_
    rintro ⟨call, hcall, hbody⟩
    exact ⟨call, (hmem call).mpr (Or.inl hcall), hbody⟩
  · exact h.licensed

/-- Taking an effect off the queue and putting others at its end. -/
theorem requeue {effect : ConsensusEffect} (h : Counts e effects votings (effect :: rest))
    (heffect : effect ≠ .broadcast (.blockApproved e.blockHash) ∨ effects.Announced e.blockHash)
    (hqueued : ∀ other ∈ queued,
      Licensed e.blockHash (effects.ballotOn e votings).outcome other) :
    Counts e effects votings (rest ++ queued) := by
  refine { h with announces := ?_, licensed := ?_ }
  · intro happroved
    rcases h.announces happroved with hold | hmem
    · exact Or.inl hold
    · rcases List.mem_cons.mp hmem with heq | hmem
      · exact Or.inl (heffect.resolve_left fun hne => hne heq.symm)
      · exact Or.inr (List.mem_append_left _ hmem)
  · intro other hmem
    rcases List.mem_append.mp hmem with hmem | hmem
    · exact h.licensed other (List.mem_cons_of_mem effect hmem)
    · exact hqueued other hmem

theorem proposers_card_le (effects : PeerEffects) (e : Electorate) :
    e.proposers.card ≤ (effects.allProposers e).card := by
  unfold allProposers
  split
  · exact Finset.card_le_card (Finset.subset_insert _ _)
  · exact Nat.le_refl _

/-- Votes that are all from the peer itself and from proposers leave one for it. -/
theorem card_le_proposers {e : Electorate} {votes : Finset PeerId}
    (h : ∀ q ∈ votes, q = e.self ∨ q ∈ e.proposers) : votes.card ≤ e.proposers.card + 1 := by
  have hsub : votes ⊆ insert e.self e.proposers := fun q hq => Finset.mem_insert.mpr (h q hq)
  exact (Finset.card_le_card hsub).trans (Finset.card_insert_le _ _)

/-- The ballot on the block after a vote on some block. -/
theorem ballotOn_handleVotingVote (effects : PeerEffects) (e : Electorate)
    (votings : Voting.Votings) (voted : BlockHash) (src : PeerId) (approve : Bool) :
    effects.ballotOn e (Voting.handleVotingVote e.self votings effects.knownPeers voted src
        approve).1 =
      if voted = e.blockHash then (effects.ballotOn e votings).afterVote src approve
      else effects.ballotOn e votings :=
  Voting.ballot_handleVotingVote ..

/-- The effects of an outcome are licensed by it. -/
theorem outcomeEffects_licensed {blockHash voted : BlockHash} {outcome : ConsensusOutcome}
    {standing : Option ConsensusOutcome}
    (h : voted = blockHash → outcome ≠ .pending → standing = some outcome)
    {effect : ConsensusEffect} (hmem : effect ∈ Voting.outcomeEffects voted outcome) :
    Licensed blockHash standing effect := by
  cases outcome with
  | pending => cases hmem
  | approved =>
      simp only [Voting.outcomeEffects, List.mem_cons, List.not_mem_nil, or_false] at hmem
      rcases hmem with rfl | rfl
      · intro heq
        rw [h heq (by simp)]
        simp
      · exact fun heq => h heq (by simp)
  | rejected =>
      simp only [Voting.outcomeEffects, List.mem_cons, List.not_mem_nil, or_false] at hmem
      rcases hmem with rfl | rfl
      · intro heq
        rw [h heq (by simp)]
        simp
      · exact fun heq => h heq (by simp)

/-- A vote on another block, with what it queues. -/
theorem vote_elsewhere (h : Counts e effects votings queue) {votings' : Voting.Votings}
    (hballot : effects.ballotOn e votings' = effects.ballotOn e votings)
    {queued : List ConsensusEffect}
    (hqueued : ∀ effect ∈ queued,
      Licensed e.blockHash (effects.ballotOn e votings).outcome effect) :
    Counts e effects votings' (queue ++ queued) := by
  refine ⟨h.self, h.known, h.calls, ?_, ?_, ?_, ?_, ?_, ?_, ?_, ?_, ?_, ?_, ?_, ?_, ?_⟩ <;>
    rw [hballot]
  · exact h.participants
  · exact h.fair
  · exact h.sources
  · exact h.heard
  · exact h.contested
  · exact h.opposed
  · exact h.quorum
  · exact h.proposed
  · exact h.completed
  · exact h.announced
  · exact h.refused
  · exact fun happroved => (h.announces happroved).imp_right (List.mem_append_left _)
  · intro effect hmem
    rcases List.mem_append.mp hmem with hmem | hmem
    · exact h.licensed effect hmem
    · exact hqueued effect hmem

/-- An approval takes enough proposers: as long as nobody has announced one, the
    approvals counted are those of proposers and the peer's own. -/
theorem enough_proposers (h : Counts e effects votings queue) {v : VotingConsensus}
    (hfair : v.Fair) (hparticipants : v.participants = e.peers)
    (hsources : ∀ q ∈ v.approvals, q = e.self ∨ q ∈ e.proposers ∨ q ∈ e.announcers)
    (happroved : v.outcome = some .approved ∨ e.announcers.Nonempty) :
    2 * VotingConsensus.faultBound e.peers.card ≤ (effects.allProposers e).card := by
  by_cases hannouncers : e.announcers.Nonempty
  · exact h.quorum (Or.inr hannouncers)
  · have hreached := hfair.approved (happroved.resolve_right hannouncers)
    rw [Finset.not_nonempty_iff_eq_empty] at hannouncers
    have hcard := card_le_proposers fun q hq =>
      (hsources q hq).imp_right fun h => h.resolve_right (by rw [hannouncers]; simp)
    have hless := proposers_card_le effects e
    rw [hparticipants] at hreached
    omega

/-- A vote on this block, with what it queues. -/
theorem vote_here (h : Counts e effects votings queue) {votings' : Voting.Votings} (src : PeerId)
    (approve : Bool)
    (hballot : effects.ballotOn e votings' = (effects.ballotOn e votings).afterVote src approve)
    (happrove : approve = true → src = e.self ∨ src ∈ e.proposers ∨ src ∈ e.announcers)
    (hreject : approve = false → src = e.self ∨ e.contested) :
    Counts e effects votings' (queue ++ Voting.outcomeEffects e.blockHash
      ((effects.ballotOn e votings).voteOutcome src approve)) := by
  have hvoted := VotingConsensus.afterVote_voted (effects.ballotOn e votings) src approve
  have hfair := VotingConsensus.afterVote_fair h.fair src approve
  have hparticipants := hvoted.participants.trans h.participants
  have hsources : ∀ q ∈ ((effects.ballotOn e votings).afterVote src approve).approvals,
      q = e.self ∨ q ∈ e.proposers ∨ q ∈ e.announcers := by
    intro q hq
    rcases hvoted.approver q hq with hold | ⟨rfl, hyes⟩
    · exact h.sources q hold
    · exact happrove hyes
  refine ⟨h.self, h.known, h.calls, ?_, ?_, ?_, ?_, ?_, ?_, ?_, ?_, ?_, ?_, ?_, ?_, ?_⟩ <;>
    rw [hballot]
  · exact hparticipants
  · exact hfair
  · exact hsources
  · intro q hq hnone
    exact (h.heard q hq (hvoted.still_open hnone)).imp (fun h => hvoted.approvals h)
      fun h => hvoted.rejections h
  · rintro ⟨q, hq⟩
    rcases hvoted.rejecter q hq with hold | ⟨rfl, hno⟩
    · exact (h.contested ⟨q, hold⟩).imp_left fun hself => hvoted.rejections hself
    · rcases hreject hno with rfl | hcontested
      · exact Or.inl hq
      · exact Or.inr hcontested
  · exact fun hopposed => hvoted.rejections (h.opposed hopposed)
  · exact fun happroved => h.enough_proposers hfair hparticipants hsources happroved
  · exact fun hproposed => ⟨(h.proposed hproposed).1, fun hnone =>
      (h.proposed hproposed).2 (hvoted.still_open hnone)⟩
  · intro hlast hnone
    exact h.completed hlast (hvoted.still_open hnone)
  · exact fun hannounced => hvoted.keeps (h.announced hannounced)
  · exact fun hrefused => hvoted.keeps (h.refused hrefused)
  · intro happroved
    rcases hvoted.decision happroved with hold | ⟨-, happroves⟩
    · exact (h.announces hold).imp_right (List.mem_append_left _)
    · rw [happroves]
      exact Or.inr (List.mem_append_right _ (List.mem_cons_of_mem _ List.mem_cons_self))
  · intro effect hmem
    rcases List.mem_append.mp hmem with hmem | hmem
    · exact (h.licensed effect hmem).mono fun _ hsome => hvoted.keeps hsome
    · exact outcomeEffects_licensed (fun _ hout => (hvoted.decides hout).2) hmem

/-- A vote, on this block or another, with what it queues.  On this block approvals
    come from the peer itself, a proposer or an announcer, and a rejection from the
    peer itself if no other has rejected. -/
theorem vote (h : Counts e effects votings queue) (voted : BlockHash) (src : PeerId)
    (approve : Bool)
    (happrove : voted = e.blockHash → approve = true →
      src = e.self ∨ src ∈ e.proposers ∨ src ∈ e.announcers)
    (hreject : voted = e.blockHash → approve = false → src = e.self ∨ e.contested) :
    Counts e effects
      (Voting.handleVotingVote e.self votings effects.knownPeers voted src approve).1
      (queue ++
        (Voting.handleVotingVote e.self votings effects.knownPeers voted src approve).2) := by
  have hballot := ballotOn_handleVotingVote effects e votings voted src approve
  rw [Voting.handleVotingVote_effects]
  by_cases heq : voted = e.blockHash
  · subst heq
    rw [if_pos rfl] at hballot
    exact h.vote_here src approve hballot (happrove rfl) (hreject rfl)
  · rw [if_neg heq] at hballot
    exact h.vote_elsewhere hballot fun _ hmem =>
      outcomeEffects_licensed (fun h => absurd h heq) hmem

-- ----------------------------------------------------------------------------
-- Effect by effect
-- ----------------------------------------------------------------------------

theorem stageClientTransaction (h : Counts e effects votings queue) (pf : Platform)
    (clientTx : SignedTransaction) :
    Counts e (effects.stageClientTransaction pf clientTx).1 votings queue := by
  unfold PeerEffects.stageClientTransaction
  split
  · exact h
  dsimp only
  split
  · exact h.services rfl rfl (fun _ _ hmem => hmem) Or.inl
  · refine h.services rfl rfl (fun _ _ hmem => ?_) Or.inl
    exact (BlockKeeper.addTransaction_packs pf effects.blockKeeper clientTx).kept _ hmem

/-- A block is committed or rolled back: another one, or one that is decided. -/
theorem commitBlock (h : Counts e effects votings queue) (pf : Platform) {blockHash : BlockHash}
    (hdecided : blockHash = e.blockHash → (effects.ballotOn e votings).outcome ≠ none) :
    Counts e (effects.commitBlock pf blockHash).1 votings queue := by
  have hkept : ∀ hash ∈ effects.blockKeeper.uncommitedBlocks, hash ≠ blockHash →
      hash ∈ (effects.blockKeeper.commitBlock pf blockHash).1.uncommitedBlocks := by
    intro hash hmem hne
    rcases BlockKeeper.commitBlock_cases pf effects.blockKeeper blockHash with
      ⟨-, _, heq⟩ | ⟨_, -, -, -, heq⟩ | ⟨_, _, _, -, -, -, heq⟩
    · rw [heq]
      exact hmem
    · rw [heq]
      exact AList.mem_erase.mpr ⟨hne, hmem⟩
    · rw [heq]
      exact hmem
  have hstaged : ∀ k', (effects.blockKeeper.commitBlock pf blockHash).1 = k' →
      (effects.ballotOn e votings).outcome = none →
      e.blockHash ∈ effects.blockKeeper.uncommitedBlocks → e.blockHash ∈ k'.uncommitedBlocks := by
    rintro k' rfl hopen hmem
    exact hkept _ hmem fun heq => hdecided heq.symm hopen
  unfold PeerEffects.commitBlock
  split
  · rename_i k' heq
    refine h.services rfl rfl (fun _ => hstaged k' (by rw [heq])) ?_
    exact fun hlast => Or.inr (hdecided hlast)
  · rename_i k' error heq
    exact h.services rfl rfl (fun _ => hstaged k' (by rw [heq])) Or.inl

theorem rollbackBlock (h : Counts e effects votings queue) (pf : Platform) {blockHash : BlockHash}
    (hdecided : blockHash = e.blockHash → (effects.ballotOn e votings).outcome ≠ none) :
    Counts e (effects.rollbackBlock pf blockHash).1 votings queue := by
  have hstaged : ∀ k', (effects.blockKeeper.rollbackBlock pf blockHash).1 = k' →
      (effects.ballotOn e votings).outcome = none →
      e.blockHash ∈ effects.blockKeeper.uncommitedBlocks → e.blockHash ∈ k'.uncommitedBlocks := by
    rintro k' rfl hopen hmem
    rcases BlockKeeper.rollbackBlock_cases pf effects.blockKeeper blockHash with
      ⟨-, _, heq⟩ | ⟨_, -, -, hpacks⟩
    · rw [heq]
      exact hmem
    · exact hpacks.kept _ (AList.mem_erase.mpr ⟨fun heq => hdecided heq.symm hopen, hmem⟩)
  unfold PeerEffects.rollbackBlock
  split
  · exact h.services rfl rfl (fun _ _ hmem => hmem) fun hlast => Or.inr (hdecided hlast)
  · dsimp only
    split
    · rename_i k' error heq
      exact h.services rfl rfl (fun _ => hstaged k' (by rw [heq])) Or.inl
    · rename_i k' heq
      refine h.services rfl rfl (fun _ => hstaged k' (by rw [heq])) ?_
      exact fun hlast => Or.inr (hdecided hlast)

/-- Proposing a block: alone the peer commits it, otherwise it goes out if it is
    staged. -/
theorem broadcastBlockProposal (h : Counts e effects votings queue) (pf : Platform)
    (blockHash : BlockHash) :
    Counts e (effects.broadcastBlockProposal pf blockHash).1 votings queue ∧
      ∀ knownPeers, (effects.broadcastBlockProposal pf blockHash).2 = .ok (some knownPeers) →
        knownPeers = (effects.broadcastBlockProposal pf blockHash).1.knownPeers := by
  unfold PeerEffects.broadcastBlockProposal
  split
  · rename_i halone
    have hnone : effects.knownPeers = [] := List.isEmpty_iff.mp halone
    split
    · exact ⟨h.services rfl rfl (fun hne => absurd hnone hne) Or.inl, fun _ heq => by cases heq⟩
    · exact ⟨h.services rfl rfl (fun hne => absurd hnone hne) Or.inl, fun _ heq => by cases heq⟩
  · rename_i hothers
    split
    · refine ⟨h, fun knownPeers heq => ?_⟩
      cases heq
      rfl
    · rename_i block hblock
      refine ⟨h.call _ ?_ (fun heq => by cases heq) (fun heq => by cases heq),
        fun knownPeers heq => ?_⟩
      · intro hproposes
        have hhash : blockHash = e.blockHash := by simpa [MessageBody.proposes] using hproposes
        refine ⟨fun hnone => hothers (List.isEmpty_iff.mpr hnone), ?_⟩
        rw [← hhash]
        exact AList.lookup_isSome.mp (Option.isSome_iff_exists.mpr ⟨block, hblock⟩)
      · cases heq
        rfl

end Counts

/-- Where a batch of a voting peer stands with the block. -/
def Batch.CountsOn (e : Electorate) (b : Batch) : Prop :=
  ∃ votings, b.consensus = .voting e.self votings ∧ Counts e b.effects votings b.queue

/-- Every turn keeps the count. -/
theorem Batch.CountsOn.turn {pf : Platform} {e : Electorate} (b : Batch)
    (effect : ConsensusEffect) (rest : List ConsensusEffect)
    (h : CountsOn e { b with queue := effect :: rest }) :
    CountsOn e ({ b with queue := rest }.turn pf effect) := by
  obtain ⟨votings, hconsensus, hcounts⟩ := h
  have hconsensus : b.consensus = .voting e.self votings := hconsensus
  have hcounts : Counts e b.effects votings (effect :: rest) := hcounts
  have hlicensed := hcounts.licensed effect List.mem_cons_self
  have hnil : ∀ other ∈ ([] : List ConsensusEffect),
      Licensed e.blockHash (b.effects.ballotOn e votings).outcome other :=
    fun _ hmem => absurd hmem List.not_mem_nil
  cases effect with
  | stageClientTransaction clientTx =>
      obtain ⟨heffects, hsame, hqueued⟩ := executeEffect_stageClientTransaction pf b.effects
        e.self votings clientTx
      rw [← hconsensus] at heffects hsame hqueued
      refine ⟨votings, hsame.trans hconsensus, ?_⟩
      simp only [Batch.turn, heffects]
      refine (hcounts.requeue (Or.inl (by simp)) ?_).stageClientTransaction pf clientTx
      rcases hqueued with hnone | ⟨created, -, hqueued⟩
      · rw [hnone]
        exact hnil
      · rw [hqueued]
        intro other hmem
        rw [List.mem_singleton.mp hmem]
        trivial
  | broadcastClientTransaction clientTx =>
      have hcall := (hcounts.requeue (Or.inl (by simp)) hnil).call
        (.synchronization (.new pf clientTx b.effects.signingKey)) (fun h => by cases h)
        (fun h => by cases h) (fun h => by cases h)
      exact ⟨votings, hconsensus, hcall⟩
  | proposeBlock blockHash =>
      obtain ⟨hproposed, hknown⟩ := (hcounts.requeue (Or.inl (by simp)) hnil).broadcastBlockProposal
        pf blockHash
      obtain ⟨heffects, houtcome⟩ := executeEffect_proposeBlock pf b.effects e.self votings
        blockHash
      rw [← hconsensus] at heffects houtcome
      rw [← heffects] at hproposed hknown
      rcases houtcome with ⟨hsame, hnone⟩ | ⟨knownPeers, hresult, hvoted, hqueued⟩
      · refine ⟨votings, hsame.trans hconsensus, ?_⟩
        simp only [Batch.turn, hnone]
        exact hproposed
      · -- The peer's own approval.
        have hvote := hproposed.vote blockHash e.self true (fun _ _ => Or.inl rfl)
          (fun _ h => by cases h)
        rw [List.append_nil, ← hknown knownPeers hresult] at hvote
        refine ⟨_, hvoted, ?_⟩
        simp only [Batch.turn, hqueued]
        exact hvote
  | commitBlock blockHash =>
      exact ⟨votings, hconsensus,
        ((hcounts.requeue (Or.inl (by simp)) hnil).commitBlock pf hlicensed)⟩
  | rollbackBlock blockHash =>
      exact ⟨votings, hconsensus,
        ((hcounts.requeue (Or.inl (by simp)) hnil).rollbackBlock pf hlicensed)⟩
  | broadcast body =>
      have hword : body.proposes e.blockHash = false ∧
          (body = .blockApproved e.blockHash →
            (b.effects.ballotOn e votings).outcome = some .approved) ∧
          (body = .blockReject e.blockHash →
            (b.effects.ballotOn e votings).outcome = some .rejected) := by
        cases body with
        | blockApproved hash =>
            exact ⟨rfl, fun heq => hlicensed (MessageBody.blockApproved.inj heq),
              (fun heq => by cases heq)⟩
        | blockReject hash =>
            exact ⟨rfl, (fun heq => by cases heq),
              fun heq => hlicensed (MessageBody.blockReject.inj heq)⟩
        | _ => exact hlicensed.elim
      obtain ⟨hother, happroves, hrejects⟩ := hword
      have hcall := hcounts.call body (fun h => by rw [hother] at h; cases h) happroves hrejects
      refine ⟨votings, hconsensus, hcall.requeue ?_ hnil⟩
      by_cases hbody : body = .blockApproved e.blockHash
      · refine Or.inr ⟨.broadcast body b.effects.peerId, ?_, hbody⟩
        exact List.mem_append_right _ (List.mem_singleton_self _)
      · exact Or.inl fun heq => hbody (ConsensusEffect.broadcast.inj heq)
  | stageRaftEntries | sendRaftAppendEntries | send => exact hlicensed.elim

/-- A batch keeps the count, and leaves nothing queued. -/
theorem executeAll_counts (pf : Platform) {e : Electorate} {effects : PeerEffects}
    {votings : Voting.Votings} {queue : List ConsensusEffect}
    (h : Counts e effects votings queue) :
    ∃ votings', (effects.executeAll pf (.voting e.self votings) queue).2.1 =
        .voting e.self votings' ∧
      Counts e (effects.executeAll pf (.voting e.self votings) queue).1 votings' [] := by
  obtain ⟨b, ⟨votings', hconsensus, hcounts⟩, hempty, heq⟩ := executeAll_preserves
    (fun b effect rest => Batch.CountsOn.turn b effect rest) (show Batch.CountsOn e
      { effects, consensus := .voting e.self votings, queue, errors := [] } from ⟨votings, rfl, h⟩)
  rw [heq, ← hempty]
  exact ⟨votings', hconsensus, hcounts⟩

/-- One more peer is heard: its vote is counted if the ballot is open. -/
theorem Counts.hear {e : Electorate} {effects : PeerEffects} {votings : Voting.Votings}
    {queue : List ConsensusEffect} (h : Counts e effects votings queue) {q : PeerId}
    (hq : (effects.ballotOn e votings).outcome = none →
      q ∈ (effects.ballotOn e votings).approvals ∨ q ∈ (effects.ballotOn e votings).rejections) :
    Counts { e with heard := insert q e.heard } effects votings queue := by
  refine ⟨h.self, h.known, h.calls, h.participants, h.fair, h.sources, ?_, h.contested,
    h.opposed, h.quorum, h.proposed, h.completed, h.announced, h.refused, h.announces, h.licensed⟩
  intro other hmem hopen
  rcases Finset.mem_insert.mp hmem with rfl | hmem
  · exact hq hopen
  · exact h.heard other hmem hopen

/-- A vote of a participant on the block is heard. -/
theorem Counts.hear_vote {e : Electorate} {effects : PeerEffects} {votings : Voting.Votings}
    {queue : List ConsensusEffect} (h : Counts e effects votings queue) {src : PeerId}
    (hsrc : src ∈ e.peers) (happrove : src ∈ e.proposers ∨ src ∈ e.announcers) :
    Counts { e with heard := insert src e.heard } effects
      (Voting.handleVotingVote e.self votings effects.knownPeers e.blockHash src true).1
      (queue ++
        (Voting.handleVotingVote e.self votings effects.knownPeers e.blockHash src true).2) := by
  apply (h.vote e.blockHash src true (fun _ _ => Or.inr happrove) (fun _ h => by cases h)).hear
  rw [ballotOn_handleVotingVote, if_pos rfl]
  rw [← h.participants] at hsrc
  exact (VotingConsensus.afterVote_voted _ src true).counted hsrc

end PeerEffects

-- ============================================================================
-- Events
-- ============================================================================

namespace Peer

open PeerEffects (Counts)

/-- Where a voting peer stands with the block, between two events. -/
def CountsOn (e : Electorate) (p : Peer) : Prop :=
  ∃ votings, p.consensus = .voting e.self votings ∧ Counts e p.effects votings []

/-- The ballot of a voting peer on a block; a Raft peer has none. -/
def ballotOf (p : Peer) (blockHash : BlockHash) : VotingConsensus :=
  match p.consensus with
  | .voting peerId votings => Voting.ballot peerId votings p.effects.knownPeers blockHash
  | .raft _ => .new p.id []

/-- Where a peer stands, in terms of its ballot. -/
theorem CountsOn.ballotOf {e : Electorate} {p : Peer} (h : p.CountsOn e) :
    ∃ votings, p.ballotOf e.blockHash = p.effects.ballotOn e votings ∧
      Counts e p.effects votings [] := by
  obtain ⟨votings, hconsensus, hcounts⟩ := h
  refine ⟨votings, ?_, hcounts⟩
  rw [Peer.ballotOf, hconsensus, PeerEffects.ballotOn]

/-- The others have done more, and have heard more of it. -/
theorem CountsOn.mono {e e' : Electorate} {p : Peer} (h : p.CountsOn e)
    (hhash : e'.blockHash = e.blockHash) (hpeers : e'.peers = e.peers) (hself : e'.self = e.self)
    (hproposers : e.proposers ⊆ e'.proposers) (hannouncers : e.announcers ⊆ e'.announcers)
    (hheard : e'.heard = e.heard)
    (hcontested : (p.ballotOf e.blockHash).rejections.Nonempty →
      e.self ∈ (p.ballotOf e.blockHash).rejections ∨ e'.contested)
    (hopposed : e'.opposed → e.self ∈ (p.ballotOf e.blockHash).rejections)
    (hquorum : (p.ballotOf e.blockHash).outcome = some .approved ∨ e'.announcers.Nonempty →
      2 * VotingConsensus.faultBound e.peers.card ≤ (p.effects.allProposers e').card) :
    p.CountsOn e' := by
  obtain ⟨votings, hconsensus, hcounts⟩ := h
  have hballot : p.ballotOf e.blockHash = p.effects.ballotOn e votings := by
    rw [Peer.ballotOf, hconsensus, PeerEffects.ballotOn]
  have hballot' : p.effects.ballotOn e' votings = p.effects.ballotOn e votings := by
    rw [PeerEffects.ballotOn, hself, hhash, PeerEffects.ballotOn]
  rw [hballot] at hcontested hopposed hquorum
  refine ⟨votings, by rw [hself, hconsensus], ?_⟩
  refine ⟨?_, ?_, ?_, ?_, ?_, ?_, ?_, ?_, ?_, ?_, ?_, ?_, ?_, ?_, ?_, ?_⟩
  all_goals try rw [hballot']
  all_goals try rw [hself]
  all_goals try rw [hhash]
  all_goals try rw [hpeers]
  · exact hcounts.self
  · exact hcounts.known
  · exact hcounts.calls
  · exact hcounts.participants
  · exact hcounts.fair
  · intro q hq
    exact (hcounts.sources q hq).imp_right fun h =>
      h.imp (fun h => hproposers h) fun h => hannouncers h
  · rw [hheard]
    exact hcounts.heard
  · exact hcontested
  · exact hopposed
  · exact hquorum
  · exact hcounts.proposed
  · exact hcounts.completed
  · exact hcounts.announced
  · exact hcounts.refused
  · exact hcounts.announces
  · exact hcounts.licensed

/-- A new voting peer has counted nothing. -/
theorem startVoting_counts (pf : Platform) (e : Electorate) (knownPeers : List PeerId)
    (hknown : insert e.self knownPeers.toFinset = e.peers) (hhash : e.blockHash ≠ emptyHash)
    (hannouncers : e.announcers = ∅) (hheard : e.heard = ∅) (hopposed : ¬ e.opposed)
    (dir : BlockDir) (mempoolSize : Nat) (walk : HashMap.Walk BlockHash BlockFile)
    (signingKey : SigningKey) :
    (startVoting pf e.self { knownPeers, calls := [] } dir mempoolSize walk signingKey).CountsOn
      e := by
  refine ⟨∅, rfl, ?_⟩
  have hnone : ∀ call, call ∉ ([] : List NetworkCall) := fun call => List.not_mem_nil
  refine ⟨rfl, hknown, fun call hcall => absurd hcall (hnone call), hknown,
    VotingConsensus.new_fair _ _, ?_, ?_, ?_, fun h => absurd h hopposed, ?_, ?_, ?_, ?_, ?_, ?_, ?_⟩
  · intro q hq
    exact absurd hq (Finset.notMem_empty q)
  · rw [hheard]
    exact fun q hq => absurd hq (Finset.notMem_empty q)
  · rintro ⟨q, hq⟩
    exact absurd hq (Finset.notMem_empty q)
  · rw [hannouncers]
    rintro (h | ⟨q, hq⟩)
    · cases h
    · exact absurd hq (Finset.notMem_empty q)
  · rintro ⟨call, hcall, -⟩
    exact absurd hcall (hnone call)
  · exact fun hlast => absurd hlast.symm hhash
  · rintro ⟨call, hcall, -⟩
    exact absurd hcall (hnone call)
  · rintro ⟨call, hcall, -⟩
    exact absurd hcall (hnone call)
  · intro h
    cases h
  · exact fun effect hmem => absurd hmem List.not_mem_nil

variable {pf : Platform} {e : Electorate} {p : Peer} {votings : Voting.Votings}

theorem answer_counts (pf : Platform) (p : Peer) {queue : List ConsensusEffect}
    (h : Counts e p.effects votings queue) :
    (p.answer pf (.voting e.self votings, .ok queue)).1.CountsOn e := by
  obtain ⟨votings', hconsensus, hcounts⟩ := PeerEffects.executeAll_counts pf h
  obtain ⟨heffects, hsame⟩ := answer_ok pf p (.voting e.self votings) queue
  refine ⟨votings', hsame.trans hconsensus, ?_⟩
  rw [heffects]
  exact hcounts

theorem processClientTransaction_counts (h : p.CountsOn e) (clientTx : SignedTransaction) :
    (p.processClientTransaction pf clientTx).1.CountsOn e := by
  obtain ⟨votings, hconsensus, hcounts⟩ := h
  unfold processClientTransaction
  split
  · exact ⟨votings, hconsensus, hcounts⟩
  · simp only [hconsensus, ConsensusEngine.onClientTransaction]
    apply answer_counts
    refine { hcounts with announces := ?_, licensed := ?_ }
    · exact fun happroved => (hcounts.announces happroved).imp_right fun h =>
        absurd h List.not_mem_nil
    · intro effect hmem
      simp only [Voting.onClientTransaction, List.mem_cons, List.not_mem_nil, or_false] at hmem
      rcases hmem with rfl | rfl <;> trivial

theorem synchronizeTransaction_counts (h : p.CountsOn e) (verifiedTx : VerifiedTransaction) :
    (p.synchronizeTransaction pf verifiedTx).1.CountsOn e := by
  obtain ⟨votings, hconsensus, hcounts⟩ := h
  unfold synchronizeTransaction
  split
  · exact ⟨votings, hconsensus, hcounts⟩
  have hstage := hcounts.stageClientTransaction pf verifiedTx.clientTx
  rcases hresult : p.effects.stageClientTransaction pf verifiedTx.clientTx with
    ⟨effects, error | _ | blockHash⟩
  all_goals rw [hresult] at hstage
  · exact ⟨votings, hconsensus, hstage⟩
  · exact ⟨votings, hconsensus, hstage⟩
  · simp only [hconsensus, ConsensusEngine.onBlockCreated]
    apply answer_counts
    refine { hstage with announces := ?_, licensed := ?_ }
    · exact fun happroved => (hstage.announces happroved).imp_right fun h =>
        absurd h List.not_mem_nil
    · intro effect hmem
      rw [List.mem_singleton.mp hmem]
      trivial

/-- The check of a proposed block stages at most. -/
theorem validateProposal_counts (pf : Platform) (h : Counts e p.effects votings [])
    (blockHash : BlockHash) (blockFile : Bytes) (signature : Signature)
    (publicKey : VerifyingKey) :
    Counts e (p.validateProposal pf blockHash blockFile signature publicKey).1 votings [] := by
  unfold validateProposal
  split
  · rename_i block _
    unfold PeerEffects.stageExternalBlock
    split
    · exact h
    · have hkept : ∀ k', (p.effects.blockKeeper.addExternalBlock pf block).1 = k' →
          e.blockHash ∈ p.effects.blockKeeper.uncommitedBlocks →
          e.blockHash ∈ k'.uncommitedBlocks := by
        rintro k' rfl hmem
        rcases BlockKeeper.addExternalBlock_cases pf p.effects.blockKeeper block with
          ⟨_, -, heq⟩ | ⟨-, -, hstages⟩
        · rw [heq]
          exact hmem
        · rw [hstages.uncommitedBlocks]
          exact (AList.mem_insert _).mpr (Or.inr hmem)
      have hkeeper : (p.effects.applyBlockTransactions block).blockKeeper =
          p.effects.blockKeeper := rfl
      simp only [hkeeper]
      rcases hresult : p.effects.blockKeeper.addExternalBlock pf block with ⟨k', error | _⟩
      all_goals
        rw [hresult] at hkept
        exact h.services rfl rfl (fun _ _ => hkept k' rfl) Or.inl
  · exact h

theorem processBlockProposal_counts (pf : Platform) (h : p.CountsOn e) (proposed : BlockHash)
    (blockFile : Bytes) (signature : Signature) (publicKey : VerifyingKey) (src : PeerId)
    (hsrc : proposed = e.blockHash → src ∈ e.peers ∧ src ∈ e.proposers) :
    (p.processBlockProposal pf proposed blockFile signature publicKey src).1.CountsOn
      { e with heard := if proposed = e.blockHash then insert src e.heard else e.heard } := by
  obtain ⟨votings, hconsensus, hcounts⟩ := h
  -- The proposer's approval is heard.
  have hhear : ∀ {effects : PeerEffects}, Counts e effects votings [] → Counts
      { e with heard := if proposed = e.blockHash then insert src e.heard else e.heard } effects
      (Voting.handleVotingVote e.self votings effects.knownPeers proposed src true).1
      (Voting.handleVotingVote e.self votings effects.knownPeers proposed src true).2 := by
    intro effects hcounts
    split
    · rename_i heq
      subst heq
      exact hcounts.hear_vote (hsrc rfl).1 (Or.inl (hsrc rfl).2)
    · rename_i hne
      exact hcounts.vote proposed src true (fun heq => absurd heq hne) (fun heq => absurd heq hne)
  -- Of a block that is completed here the ballot is decided.
  have hdone : p.effects.lastCompletedBlock = proposed → Counts
      { e with heard := if proposed = e.blockHash then insert src e.heard else e.heard } p.effects
      votings [] := by
    intro hlast
    split
    · rename_i heq
      exact hcounts.hear fun hopen => absurd hopen (hcounts.completed (hlast.trans heq))
    · exact hcounts
  generalize he : { e with
    heard := if proposed = e.blockHash then insert src e.heard else e.heard } = e' at hhear hdone ⊢
  have hself : e'.self = e.self := by rw [← he]
  rw [← hself] at hconsensus hhear
  unfold processBlockProposal
  split
  · rename_i hlast
    exact ⟨votings, hconsensus, hdone hlast⟩
  have hvalidated := validateProposal_counts pf hcounts proposed blockFile signature publicKey
  obtain ⟨isOk, hok⟩ := validateProposal_ok pf p proposed blockFile signature publicKey
  rcases hresult : p.validateProposal pf proposed blockFile signature publicKey with
    ⟨effects, error | verdict⟩
  · rw [hresult] at hok
    cases hok
  rw [hresult] at hvalidated
  have hfirst := hhear hvalidated
  simp only [hconsensus, ConsensusEngine.onBlockProposalValidated,
    Voting.onBlockProposalValidated_eq]
  split
  · rename_i hpending
    have hsecond := hfirst.vote proposed e'.self verdict (fun _ _ => Or.inl rfl)
      (fun _ _ => Or.inl rfl)
    have hnone : (Voting.handleVotingVote e'.self votings effects.knownPeers proposed src true).2 =
        [] := by
      rw [Voting.handleVotingVote_effects, hpending]
      rfl
    rw [hnone, List.nil_append] at hsecond
    exact answer_counts pf { p with effects, consensus := .voting e'.self votings } hsecond
  · exact answer_counts pf { p with effects, consensus := .voting e'.self votings } hfirst

theorem processBlockVote_counts (pf : Platform) (h : p.CountsOn e) (voted : BlockHash)
    (src : PeerId) (approve : Bool)
    (happrove : voted = e.blockHash → approve = true → src ∈ e.peers ∧ src ∈ e.announcers)
    (hreject : voted = e.blockHash → approve = false → e.contested) :
    (p.processBlockVote pf voted src approve).1.CountsOn
      { e with heard := if voted = e.blockHash ∧ approve = true ∧
          e.blockHash ∈ p.effects.blockKeeper.uncommitedBlocks then insert src e.heard
        else e.heard } := by
  obtain ⟨votings, hconsensus, hcounts⟩ := h
  have hhear : Counts
      { e with heard := if voted = e.blockHash ∧ approve = true ∧
          e.blockHash ∈ p.effects.blockKeeper.uncommitedBlocks then insert src e.heard
        else e.heard } p.effects
      (Voting.handleVotingVote e.self votings p.effects.knownPeers voted src approve).1
      (Voting.handleVotingVote e.self votings p.effects.knownPeers voted src approve).2 := by
    split
    · rename_i heq
      obtain ⟨rfl, rfl, -⟩ := heq
      exact hcounts.hear_vote (happrove rfl rfl).1 (Or.inr (happrove rfl rfl).2)
    · exact hcounts.vote voted src approve
        (fun heq hyes => Or.inr (Or.inr (happrove heq hyes).2))
        (fun heq hno => Or.inr (hreject heq hno))
  have hdone : p.effects.lastCompletedBlock = voted ∨
      voted ∉ p.effects.blockKeeper.uncommitedBlocks → Counts
      { e with heard := if voted = e.blockHash ∧ approve = true ∧
          e.blockHash ∈ p.effects.blockKeeper.uncommitedBlocks then insert src e.heard
        else e.heard } p.effects votings [] := by
    intro hwhy
    split
    · rename_i heq
      obtain ⟨rfl, -, hmem⟩ := heq
      rcases hwhy with hlast | hnot
      · exact hcounts.hear fun hopen => absurd hopen (hcounts.completed hlast)
      · exact absurd hmem hnot
    · exact hcounts
  generalize he : { e with heard := if voted = e.blockHash ∧ approve = true ∧
      e.blockHash ∈ p.effects.blockKeeper.uncommitedBlocks then insert src e.heard
    else e.heard } = e' at hhear hdone ⊢
  have hself : e'.self = e.self := by rw [← he]
  rw [← hself] at hconsensus hhear
  unfold processBlockVote
  split
  · rename_i hlast
    exact ⟨votings, hconsensus, hdone (Or.inl hlast)⟩
  cases hstaged : p.effects.blockKeeper.getUncommitedBlock voted with
  | none =>
      simp only [PeerEffects.ensureUncommittedBlock, hstaged]
      exact ⟨votings, hconsensus, hdone (Or.inr (AList.lookup_eq_none.mp hstaged))⟩
  | some block =>
      simp only [PeerEffects.ensureUncommittedBlock, hstaged, hconsensus,
        ConsensusEngine.onBlockVote, Voting.onBlockVote]
      exact answer_counts pf p hhear

/-- The peers whose approval has reached the peer after a message: a proposal is
    always heard, an announcement if the block is staged. -/
def hearing (p : Peer) (e : Electorate) (message : Message) : Finset PeerId :=
  if message.body.proposes e.blockHash = true ∨
      (message.body = .blockApproved e.blockHash ∧
        e.blockHash ∈ p.effects.blockKeeper.uncommitedBlocks) then
    insert message.from e.heard
  else e.heard

theorem subset_hearing (p : Peer) (e : Electorate) (message : Message) :
    e.heard ⊆ p.hearing e message := by
  unfold hearing
  split
  · exact Finset.subset_insert _ _
  · exact Finset.Subset.refl _

theorem mem_hearing {p : Peer} {e : Electorate} {message : Message}
    (h : message.body.proposes e.blockHash = true ∨
      (message.body = .blockApproved e.blockHash ∧
        e.blockHash ∈ p.effects.blockKeeper.uncommitedBlocks)) :
    message.from ∈ p.hearing e message := by
  rw [hearing, if_pos h]
  exact Finset.mem_insert_self _ _

/-- On a ballot that is decided anybody counts as heard. -/
theorem CountsOn.hear_decided {e : Electorate} {p : Peer} (h : p.CountsOn e)
    (hdecided : (p.ballotOf e.blockHash).outcome ≠ none) (q : PeerId) :
    p.CountsOn { e with heard := insert q e.heard } := by
  obtain ⟨votings, hconsensus, hcounts⟩ := h
  refine ⟨votings, hconsensus, hcounts.hear fun hopen => absurd ?_ hdecided⟩
  rw [Peer.ballotOf, hconsensus]
  exact hopen

/-- A message keeps the count, if its sender has done what it says. -/
theorem handleMessage_counts (pf : Platform) (h : p.CountsOn e) (message : Message)
    (now : Instant) (draw : Nat)
    (hproposer : message.body.proposes e.blockHash = true →
      message.from ∈ e.peers ∧ message.from ∈ e.proposers)
    (hannouncer : message.body = .blockApproved e.blockHash →
      message.from ∈ e.peers ∧ message.from ∈ e.announcers)
    (hcontested : message.body = .blockReject e.blockHash → e.contested) :
    (p.handle pf (.message message now draw)).CountsOn
      { e with heard := p.hearing e message } := by
  obtain ⟨votings, hconsensus, hcounts⟩ := h
  have hidle : ∀ body, body.proposes e.blockHash = false →
      body ≠ .blockApproved e.blockHash → message.body = body →
      { e with heard := p.hearing e message } = e := by
    rintro body hother hne rfl
    rw [hearing, if_neg (by simp [hother, hne])]
  obtain ⟨src, dst, body⟩ := message
  cases body with
  | clientTransaction clientTx =>
      rw [hidle _ rfl (by simp) rfl]
      exact processClientTransaction_counts ⟨votings, hconsensus, hcounts⟩ clientTx
  | synchronization verifiedTx =>
      rw [hidle _ rfl (by simp) rfl]
      exact synchronizeTransaction_counts ⟨votings, hconsensus, hcounts⟩ verifiedTx
  | blockProposal proposed blockFile signature publicKey =>
      have hcount := processBlockProposal_counts pf ⟨votings, hconsensus, hcounts⟩ proposed
        blockFile signature publicKey src fun heq =>
          hproposer (by simpa [MessageBody.proposes] using heq)
      simpa [hearing, MessageBody.proposes, handle, handleMessage] using hcount
  | blockApproved voted =>
      have hcount := processBlockVote_counts pf ⟨votings, hconsensus, hcounts⟩ voted src true
        (fun heq _ => hannouncer (by rw [heq])) (fun _ h => by cases h)
      simpa [hearing, MessageBody.proposes, handle, handleMessage] using hcount
  | blockReject voted =>
      rw [hidle _ rfl (by simp) rfl]
      have hcount := processBlockVote_counts pf ⟨votings, hconsensus, hcounts⟩ voted src false
        (fun _ h => by cases h) (fun heq _ => hcontested (by rw [heq]))
      simpa [handle, handleMessage] using hcount
  | raftRequestVote | raftRequestVoteResponse | raftAppendEntries | raftAppendEntriesResponse =>
      rw [hidle _ rfl (by simp) rfl]
      show (p.answer pf (p.consensus.onMessage pf src _ now draw)).1.CountsOn e
      rw [hconsensus]
      exact answer_counts pf p hcounts

theorem handleTick_counts (h : p.CountsOn e) (now : Instant) :
    (p.handle pf (.tick now)).CountsOn e := by
  obtain ⟨votings, hconsensus, hcounts⟩ := h
  show (p.answer pf (p.consensus.onTick pf now p.effects.knownPeers)).1.CountsOn e
  rw [hconsensus]
  exact answer_counts pf p hcounts

end Peer
end Rustchain
