/-
  Rustchain.Consensus.Voting

  The leaderless voting engine (`voting.rs`): one ballot for each block hash,
  whose outcome is fixed by the first threshold the votes cross, and the
  handlers that turn votes into effects.
-/

import Mathlib.Data.Finset.Card
import Rustchain.Data
import Rustchain.Lib.HashMap

namespace Rustchain

inductive ConsensusOutcome where
  | pending
  | approved
  | rejected
deriving DecidableEq, Repr

structure VotingConsensus where
  participants : Finset PeerId
  approvals : Finset PeerId
  rejections : Finset PeerId
  outcome : Option ConsensusOutcome

namespace VotingConsensus

/-- `VotingConsensus::new`: the known peers and the peer itself take part. -/
def new (peerId : PeerId) (knownPeers : List PeerId) : VotingConsensus :=
  { participants := insert peerId knownPeers.toFinset
    approvals := ∅
    rejections := ∅
    outcome := none }

def alreadyVoted (v : VotingConsensus) (peerId : PeerId) : Bool :=
  peerId ∈ v.approvals || peerId ∈ v.rejections

/-- `f = (total_peers - 1) / 3`. -/
def faultBound (totalPeers : Nat) : Nat := (totalPeers - 1) / 3

/-- `evaluate_outcome`: approval is looked at first. -/
def evaluateOutcome (totalPeers approvals rejections : Nat) : ConsensusOutcome :=
  if approvals ≥ 2 * faultBound totalPeers + 1 then .approved
  else if rejections ≥ faultBound totalPeers then .rejected
  else .pending

/-- The ballot with a vote counted. -/
def recordVote (v : VotingConsensus) (peerId : PeerId) (approve : Bool) : VotingConsensus :=
  if approve then { v with approvals := insert peerId v.approvals }
  else { v with rejections := insert peerId v.rejections }

/-- What the votes counted so far amount to. -/
def standing (v : VotingConsensus) : ConsensusOutcome :=
  evaluateOutcome v.participants.card v.approvals.card v.rejections.card

def makeVote (v : VotingConsensus) (peerId : PeerId) (approve : Bool) :
    VotingConsensus × ConsensusOutcome :=
  match v.outcome with
  | some outcome => (v, outcome)
  | none =>
    if peerId ∉ v.participants then (v, .pending)
    else
      let v := v.recordVote peerId approve
      (if v.standing ≠ .pending then { v with outcome := some v.standing } else v, v.standing)

@[simp] theorem recordVote_participants (v : VotingConsensus) (peerId : PeerId) (approve : Bool) :
    (v.recordVote peerId approve).participants = v.participants := by
  unfold recordVote
  split <;> rfl

@[simp] theorem recordVote_outcome (v : VotingConsensus) (peerId : PeerId) (approve : Bool) :
    (v.recordVote peerId approve).outcome = v.outcome := by
  unfold recordVote
  split <;> rfl

theorem recordVote_approvals (v : VotingConsensus) (peerId : PeerId) (approve : Bool) :
    (v.recordVote peerId approve).approvals =
      if approve then insert peerId v.approvals else v.approvals := by
  unfold recordVote
  split <;> rfl

theorem recordVote_rejections (v : VotingConsensus) (peerId : PeerId) (approve : Bool) :
    (v.recordVote peerId approve).rejections =
      if approve then v.rejections else insert peerId v.rejections := by
  unfold recordVote
  split <;> rfl

/-- The counts after a vote. -/
theorem card_recordVote {v : VotingConsensus} {p : PeerId}
    (happ : p ∉ v.approvals) (hrej : p ∉ v.rejections) (approve : Bool) :
    (v.recordVote p approve).approvals.card =
        (if approve then v.approvals.card + 1 else v.approvals.card) ∧
      (v.recordVote p approve).rejections.card =
        (if approve then v.rejections.card else v.rejections.card + 1) := by
  rw [recordVote_approvals, recordVote_rejections]
  cases approve with
  | true => exact ⟨Finset.card_insert_of_notMem happ, rfl⟩
  | false => exact ⟨rfl, Finset.card_insert_of_notMem hrej⟩

/-- Another peer that has not voted still has not. -/
theorem not_voted_recordVote {v : VotingConsensus} {p q : PeerId} (hne : q ≠ p)
    (happ : q ∉ v.approvals) (hrej : q ∉ v.rejections) (approve : Bool) :
    q ∉ (v.recordVote p approve).approvals ∧ q ∉ (v.recordVote p approve).rejections := by
  rw [recordVote_approvals, recordVote_rejections]
  cases approve with
  | true => exact ⟨fun h => (Finset.mem_insert.mp h).elim hne happ, hrej⟩
  | false => exact ⟨happ, fun h => (Finset.mem_insert.mp h).elim hne hrej⟩

/-- A participant's vote on an open ballot is counted and the standing looked at. -/
theorem makeVote_of_open {v : VotingConsensus} (hopen : v.outcome = none) {peerId : PeerId}
    (hmem : peerId ∈ v.participants) (approve : Bool) :
    v.makeVote peerId approve =
      (if (v.recordVote peerId approve).standing ≠ .pending then
        { v.recordVote peerId approve with
          outcome := some (v.recordVote peerId approve).standing }
      else v.recordVote peerId approve, (v.recordVote peerId approve).standing) := by
  simp only [makeVote, hopen, hmem, not_true_eq_false, if_false]

/-- A vote that is not counted: its sender has voted, or the ballot is decided. -/
def closedTo (v : VotingConsensus) (peerId : PeerId) : Bool :=
  v.alreadyVoted peerId || v.outcome.isSome

/-- The ballot after a vote. -/
def afterVote (v : VotingConsensus) (peerId : PeerId) (approve : Bool) : VotingConsensus :=
  if v.closedTo peerId then v else (v.makeVote peerId approve).1

/-- What a vote decides. -/
def voteOutcome (v : VotingConsensus) (peerId : PeerId) (approve : Bool) : ConsensusOutcome :=
  if v.closedTo peerId then .pending else (v.makeVote peerId approve).2

/-- An approval of the peer would complete the quorum: the ballot is open, the peer
    takes part and has not voted, and its vote is the last one missing. -/
structure Completes (v : VotingConsensus) (peerId : PeerId) : Prop where
  undecided : v.outcome = none
  participant : peerId ∈ v.participants
  notApproved : peerId ∉ v.approvals
  notRejected : peerId ∉ v.rejections
  quorum : 2 * faultBound v.participants.card + 1 ≤ v.approvals.card + 1

theorem closedTo_eq_false {v : VotingConsensus} {peerId : PeerId} :
    v.closedTo peerId = false ↔
      peerId ∉ v.approvals ∧ peerId ∉ v.rejections ∧ v.outcome = none := by
  simp [closedTo, alreadyVoted, and_assoc]

/-- A vote on an open ballot of a participant that has not voted yet. -/
theorem afterVote_of_open {v : VotingConsensus} {src : PeerId} (hopen : v.closedTo src = false)
    (hmem : src ∈ v.participants) (approve : Bool) :
    v.afterVote src approve =
        (if (v.recordVote src approve).standing ≠ .pending then
          { v.recordVote src approve with outcome := some (v.recordVote src approve).standing }
        else v.recordVote src approve) ∧
      v.voteOutcome src approve = (v.recordVote src approve).standing := by
  obtain ⟨-, -, hnone⟩ := closedTo_eq_false.mp hopen
  unfold afterVote voteOutcome
  simp only [hopen, Bool.false_eq_true, if_false, makeVote_of_open hnone hmem, and_self]

/-- A vote that is not counted leaves the ballot as it is. -/
theorem afterVote_of_closed {v : VotingConsensus} {src : PeerId}
    (h : v.closedTo src = true ∨ src ∉ v.participants) (approve : Bool) :
    v.afterVote src approve = v ∧ v.voteOutcome src approve = .pending := by
  unfold afterVote voteOutcome
  by_cases hclosed : v.closedTo src = true
  · rw [if_pos hclosed, if_pos hclosed]
    exact ⟨rfl, rfl⟩
  · have hmem := h.resolve_left hclosed
    rw [if_neg hclosed, if_neg hclosed]
    obtain ⟨-, -, hnone⟩ := closedTo_eq_false.mp (by simpa using hclosed)
    simp only [makeVote, hnone, hmem, not_false_eq_true, if_true, and_self]

/-- A vote is counted or leaves the ballot as it is. -/
theorem open_or_closed (v : VotingConsensus) (src : PeerId) :
    v.closedTo src = false ∧ src ∈ v.participants ∨
      (v.closedTo src = true ∨ src ∉ v.participants) := by
  cases v.closedTo src with
  | true => exact Or.inr (Or.inl rfl)
  | false => exact (Decidable.em (src ∈ v.participants)).imp (fun h => ⟨rfl, h⟩) Or.inr

/-- What is true of every decided ballot stays true if it is true of the ballot with the
    vote counted, as long as that vote decides nothing. -/
theorem afterVote_keeps {motive : VotingConsensus → Prop} {v : VotingConsensus} (h : motive v)
    (src : PeerId) (approve : Bool) (hdecided : ∀ w, w.outcome ≠ none → motive w)
    (hpending : (v.recordVote src approve).standing = .pending →
      motive (v.recordVote src approve)) :
    motive (v.afterVote src approve) := by
  rcases v.open_or_closed src with ⟨hopen, hmem⟩ | hclosed
  · rw [(afterVote_of_open hopen hmem approve).1]
    split
    · exact hdecided _ (by simp)
    · rename_i hstanding
      exact hpending (not_not.mp hstanding)
  · rw [(afterVote_of_closed hclosed approve).1]
    exact h

theorem evaluateOutcome_eq_approved {totalPeers approvals rejections : Nat} :
    evaluateOutcome totalPeers approvals rejections = .approved ↔
      2 * faultBound totalPeers + 1 ≤ approvals := by
  unfold evaluateOutcome
  split
  · rename_i h
    simpa using h
  · rename_i h
    split <;> simpa using h

/-- An approval decides the ballot for the block exactly when it completes the
    quorum. -/
theorem voteOutcome_true_eq_approved {v : VotingConsensus} {peerId : PeerId} :
    v.voteOutcome peerId true = .approved ↔ v.Completes peerId := by
  constructor
  · intro h
    rcases v.open_or_closed peerId with ⟨hopen, hmem⟩ | hclosed
    · obtain ⟨happ, hrej, hnone⟩ := closedTo_eq_false.mp hopen
      rw [(afterVote_of_open hopen hmem true).2] at h
      have hquorum := evaluateOutcome_eq_approved.mp h
      rw [recordVote_approvals, if_pos rfl, Finset.card_insert_of_notMem happ,
        recordVote_participants] at hquorum
      exact ⟨hnone, hmem, happ, hrej, hquorum⟩
    · rw [(afterVote_of_closed hclosed true).2] at h
      cases h
  · intro h
    have hopen := closedTo_eq_false.mpr ⟨h.notApproved, h.notRejected, h.undecided⟩
    rw [(afterVote_of_open hopen h.participant true).2]
    apply evaluateOutcome_eq_approved.mpr
    rw [recordVote_approvals, if_pos rfl, Finset.card_insert_of_notMem h.notApproved,
      recordVote_participants]
    exact h.quorum

/-- As long as a ballot is open, the approvals have not reached the quorum. -/
def Undecided (v : VotingConsensus) : Prop :=
  v.outcome = none → v.approvals.card < 2 * faultBound v.participants.card + 1

theorem new_undecided (peerId : PeerId) (knownPeers : List PeerId) :
    (new peerId knownPeers).Undecided := by
  intro _
  simp [new]

theorem afterVote_undecided {v : VotingConsensus} (h : v.Undecided) (peerId : PeerId)
    (approve : Bool) : (v.afterVote peerId approve).Undecided := by
  refine afterVote_keeps h peerId approve (fun w hdecided hopen => absurd hopen hdecided) ?_
  intro hpending _
  by_contra hreached
  rw [not_lt, ← evaluateOutcome_eq_approved] at hreached
  cases hpending.symm.trans hreached

/-- A rejection never decides for the block. -/
theorem voteOutcome_false_ne_approved {v : VotingConsensus} (h : v.Undecided) (peerId : PeerId) :
    v.voteOutcome peerId false ≠ .approved := by
  intro happroved
  rcases v.open_or_closed peerId with ⟨hopen, hmem⟩ | hclosed
  · rw [(afterVote_of_open hopen hmem false).2] at happroved
    have hquorum := evaluateOutcome_eq_approved.mp happroved
    rw [recordVote_approvals, if_neg (by simp), recordVote_participants] at hquorum
    exact absurd hquorum (not_le.mpr (h (closedTo_eq_false.mp hopen).2.2))
  · rw [(afterVote_of_closed hclosed false).2] at happroved
    cases happroved

theorem evaluateOutcome_eq_rejected {totalPeers approvals rejections : Nat} :
    evaluateOutcome totalPeers approvals rejections = .rejected ↔
      approvals < 2 * faultBound totalPeers + 1 ∧ faultBound totalPeers ≤ rejections := by
  unfold evaluateOutcome
  split
  · rename_i h
    simp only [reduceCtorEq, false_iff]
    omega
  · rename_i h
    split
    · rename_i hrejected
      simp only [true_iff]
      omega
    · rename_i hrejected
      simp only [reduceCtorEq, false_iff]
      omega

/-- As long as a ballot is open, the rejections have not reached their threshold. -/
def Unrejected (v : VotingConsensus) : Prop :=
  v.outcome = none → faultBound v.participants.card = 0 ∨
    v.rejections.card < faultBound v.participants.card

theorem new_unrejected (peerId : PeerId) (knownPeers : List PeerId) :
    (new peerId knownPeers).Unrejected := by
  intro _
  simp only [new, Finset.card_empty]
  omega

theorem afterVote_unrejected {v : VotingConsensus} (h : v.Unrejected) (peerId : PeerId)
    (approve : Bool) : (v.afterVote peerId approve).Unrejected := by
  refine afterVote_keeps h peerId approve (fun w hdecided hopen => absurd hopen hdecided) ?_
  intro hpending _
  by_contra hreached
  rw [not_or, not_lt] at hreached
  have hquorum : (v.recordVote peerId approve).standing ≠ .approved := by
    rw [hpending]
    simp
  have hlow := evaluateOutcome_eq_approved.not.mp hquorum
  have hrejected : (v.recordVote peerId approve).standing = .rejected :=
    evaluateOutcome_eq_rejected.mpr ⟨by omega, hreached.2⟩
  cases hpending.symm.trans hrejected

/-- An approval never decides against the block. -/
theorem voteOutcome_true_ne_rejected {v : VotingConsensus} (h : v.Unrejected) (peerId : PeerId) :
    v.voteOutcome peerId true ≠ .rejected := by
  intro hrejected
  rcases v.open_or_closed peerId with ⟨hopen, hmem⟩ | hclosed
  · obtain ⟨happ, -, hnone⟩ := closedTo_eq_false.mp hopen
    rw [(afterVote_of_open hopen hmem true).2] at hrejected
    obtain ⟨hlow, hhigh⟩ := evaluateOutcome_eq_rejected.mp hrejected
    rw [recordVote_approvals, if_pos rfl, Finset.card_insert_of_notMem happ,
      recordVote_participants] at hlow
    rw [recordVote_rejections, if_pos rfl, recordVote_participants] at hhigh
    have := h hnone
    omega
  · rw [(afterVote_of_closed hclosed true).2] at hrejected
    cases hrejected

end VotingConsensus

-- ============================================================================
-- Handlers
-- ============================================================================

namespace Voting

abbrev Votings := HashMap BlockHash VotingConsensus

/-- The effects that carry out an outcome. -/
def outcomeEffects (blockHash : BlockHash) : ConsensusOutcome → List ConsensusEffect
  | .approved => [.commitBlock blockHash, .broadcast (.blockApproved blockHash)]
  | .rejected => [.rollbackBlock blockHash, .broadcast (.blockReject blockHash)]
  | .pending => []

theorem outcomeEffects_eq (blockHash : BlockHash) (outcome : ConsensusOutcome) :
    outcomeEffects blockHash outcome =
      if outcome = .approved then [.commitBlock blockHash, .broadcast (.blockApproved blockHash)]
      else if outcome = .rejected then
        [.rollbackBlock blockHash, .broadcast (.blockReject blockHash)]
      else [] := by
  cases outcome <;> rfl

/-- The ballot on a block: the one under way, or a new one. -/
def ballot (peerId : PeerId) (votings : Votings) (knownPeers : List PeerId)
    (blockHash : BlockHash) : VotingConsensus :=
  (votings.lookup blockHash).getD (.new peerId knownPeers)

def handleVotingVote (peerId : PeerId) (votings : Votings) (knownPeers : List PeerId)
    (blockHash : BlockHash) (src : PeerId) (approve : Bool) : Votings × List ConsensusEffect :=
  let consensus := ballot peerId votings knownPeers blockHash
  if consensus.closedTo src then
    (votings.insert blockHash consensus, [])
  else
    let (consensus, outcome) := consensus.makeVote src approve
    (votings.insert blockHash consensus, outcomeEffects blockHash outcome)

def onClientTransaction (clientTx : SignedTransaction) : List ConsensusEffect :=
  [.stageClientTransaction clientTx, .broadcastClientTransaction clientTx]

def onBlockCreated (blockHash : BlockHash) : List ConsensusEffect := [.proposeBlock blockHash]

def onLocalBlockProposed (peerId : PeerId) (votings : Votings) (blockHash : BlockHash)
    (knownPeers : List PeerId) : Votings × List ConsensusEffect :=
  handleVotingVote peerId votings knownPeers blockHash peerId true

/-- `on_block_proposal_validated`: the proposer's approval counts first; the
    peer's own verdict only when that decides nothing. -/
def onBlockProposalValidated (peerId : PeerId) (votings : Votings) (blockHash : BlockHash)
    (proposer : PeerId) (valid : Bool) (knownPeers : List PeerId) :
    Votings × List ConsensusEffect :=
  let (votings, effects) := handleVotingVote peerId votings knownPeers blockHash proposer true
  if effects.isEmpty then handleVotingVote peerId votings knownPeers blockHash peerId valid
  else (votings, effects)

def onBlockVote (peerId : PeerId) (votings : Votings) (blockHash : BlockHash) (src : PeerId)
    (approve : Bool) (knownPeers : List PeerId) : Votings × List ConsensusEffect :=
  handleVotingVote peerId votings knownPeers blockHash src approve

/-- A vote changes the ballot on its block and asks for the effects of its outcome. -/
theorem handleVotingVote_eq (peerId : PeerId) (votings : Votings) (knownPeers : List PeerId)
    (blockHash : BlockHash) (src : PeerId) (approve : Bool) :
    handleVotingVote peerId votings knownPeers blockHash src approve =
      (votings.insert blockHash
        ((ballot peerId votings knownPeers blockHash).afterVote src approve),
      outcomeEffects blockHash
        ((ballot peerId votings knownPeers blockHash).voteOutcome src approve)) := by
  simp only [handleVotingVote, VotingConsensus.afterVote, VotingConsensus.voteOutcome]
  split <;> rfl

theorem handleVotingVote_effects (peerId : PeerId) (votings : Votings) (knownPeers : List PeerId)
    (blockHash : BlockHash) (src : PeerId) (approve : Bool) :
    (handleVotingVote peerId votings knownPeers blockHash src approve).2 =
      outcomeEffects blockHash
        ((ballot peerId votings knownPeers blockHash).voteOutcome src approve) := by
  rw [handleVotingVote_eq]

theorem ballot_insert (peerId : PeerId) (votings : Votings) (knownPeers : List PeerId)
    (blockHash : BlockHash) (v : VotingConsensus) :
    ballot peerId (votings.insert blockHash v) knownPeers blockHash = v := by
  rw [ballot, AList.lookup_insert, Option.getD_some]

/-- The ballot on a block after a vote on some block. -/
theorem ballot_handleVotingVote (peerId : PeerId) (votings : Votings) (knownPeers : List PeerId)
    (voted : BlockHash) (src : PeerId) (approve : Bool) (blockHash : BlockHash) :
    ballot peerId (handleVotingVote peerId votings knownPeers voted src approve).1 knownPeers
        blockHash =
      if voted = blockHash then (ballot peerId votings knownPeers blockHash).afterVote src approve
      else ballot peerId votings knownPeers blockHash := by
  rw [handleVotingVote_eq]
  by_cases heq : voted = blockHash
  · rw [if_pos heq, heq]
    exact ballot_insert _ _ _ _ _
  · simp only [if_neg heq, ballot, AList.lookup_insert_ne (Ne.symm heq)]

/-- Every ballot has the property. -/
def AllBallots (good : VotingConsensus → Prop) (votings : Votings) : Prop :=
  ∀ h v, votings.lookup h = some v → good v

section AllBallots

variable {good : VotingConsensus → Prop} {votings : Votings}

theorem AllBallots.ballot (h : AllBallots good votings)
    (hnew : ∀ peerId knownPeers, good (.new peerId knownPeers)) (peerId : PeerId)
    (knownPeers : List PeerId) (blockHash : BlockHash) :
    good (Voting.ballot peerId votings knownPeers blockHash) := by
  unfold Voting.ballot
  cases hlookup : votings.lookup blockHash with
  | none => exact hnew peerId knownPeers
  | some v => exact h blockHash v hlookup

/-- What new ballots have and votes keep, all ballots keep. -/
theorem AllBallots.handleVotingVote (h : AllBallots good votings)
    (hnew : ∀ peerId knownPeers, good (.new peerId knownPeers))
    (hvote : ∀ v src approve, good v → good (v.afterVote src approve)) (peerId : PeerId)
    (knownPeers : List PeerId) (blockHash : BlockHash) (src : PeerId) (approve : Bool) :
    AllBallots good
      (Voting.handleVotingVote peerId votings knownPeers blockHash src approve).1 := by
  rw [handleVotingVote_eq]
  exact HashMap.forall_insert h
    (hvote _ src approve (h.ballot hnew peerId knownPeers blockHash))

end AllBallots

theorem outcomeEffects_isEmpty (blockHash : BlockHash) (outcome : ConsensusOutcome) :
    (outcomeEffects blockHash outcome).isEmpty = true ↔ outcome = .pending := by
  cases outcome <;> simp [outcomeEffects]

/-- A proposal is decided by the proposer's approval or, if that decides nothing, by
    the peer's own verdict. -/
theorem onBlockProposalValidated_eq (peerId : PeerId) (votings : Votings) (blockHash : BlockHash)
    (proposer : PeerId) (valid : Bool) (knownPeers : List PeerId) :
    onBlockProposalValidated peerId votings blockHash proposer valid knownPeers =
      if (ballot peerId votings knownPeers blockHash).voteOutcome proposer true = .pending then
        handleVotingVote peerId
          (handleVotingVote peerId votings knownPeers blockHash proposer true).1 knownPeers
          blockHash peerId valid
      else handleVotingVote peerId votings knownPeers blockHash proposer true := by
  simp only [onBlockProposalValidated, handleVotingVote_effects, outcomeEffects_isEmpty]
  split
  · rfl
  · rw [← handleVotingVote_effects]

end Voting
end Rustchain
