/-
  Rustchain.Consensus.FirstVotes

  What the voting engine decides, said without the engine.

  Of the calls for a block only the votes count that a participant casts first;
  the participants are those of the first call.  The block is decided by the
  first of these votes at which the approvals reach `2f + 1` or the rejections
  `f` (`decision`).  The engine keeps one ballot for each block and a latch in
  it; a run of arbitrary calls leaves in every ballot the votes of its own block,
  cast one after the other, so each call emits the decision if it is the call
  that brings it about, and nothing otherwise.
-/

import Mathlib.Data.List.Infix
import Rustchain.Consensus.VoteOrder

namespace Rustchain

open VotingConsensus (evaluateOutcome)

-- ============================================================================
-- The reference
-- ============================================================================

/-- What a sequence of verdicts amounts to when `n` participants take part. -/
def standingOf (n : Nat) (verdicts : List Bool) : ConsensusOutcome :=
  let f := (n - 1) / 3
  if 2 * f + 1 ≤ verdicts.count true then .approved
  else if f ≤ verdicts.count false then .rejected
  else .pending

/-- The outcome of the first prefix, with at least one verdict, that has one. -/
def firstDecision (n : Nat) (verdicts : List Bool) : ConsensusOutcome :=
  ((verdicts.inits.tail.map (standingOf n)).find? (· ≠ .pending)).getD .pending

/-- The first vote of each participant that has not voted before, in order. -/
def firstVotes : Finset PeerId → List (PeerId × Bool) → List (PeerId × Bool)
  | _, [] => []
  | participants, (src, approve) :: votes =>
    if src ∈ participants then (src, approve) :: firstVotes (participants.erase src) votes
    else firstVotes participants votes

/-- The calls through which votes reach a voting engine. -/
inductive VotingCall where
  | localBlockProposed (blockHash : BlockHash) (knownPeers : List PeerId)
  | blockProposalValidated (blockHash : BlockHash) (proposer : PeerId) (valid : Bool)
      (knownPeers : List PeerId)
  | blockVote (blockHash : BlockHash) (src : PeerId) (approve : Bool) (knownPeers : List PeerId)

namespace VotingCall

def blockHash : VotingCall → BlockHash
  | localBlockProposed blockHash _ => blockHash
  | blockProposalValidated blockHash .. => blockHash
  | blockVote blockHash .. => blockHash

def knownPeers : VotingCall → List PeerId
  | localBlockProposed _ knownPeers => knownPeers
  | blockProposalValidated _ _ _ knownPeers => knownPeers
  | blockVote _ _ _ knownPeers => knownPeers

/-- The votes of a call at the given peer: a proposal is the proposer's approval
    followed by the peer's own verdict. -/
def votes (peerId : PeerId) : VotingCall → List (PeerId × Bool)
  | localBlockProposed .. => [(peerId, true)]
  | blockProposalValidated _ proposer valid _ => [(proposer, true), (peerId, valid)]
  | blockVote _ src approve _ => [(src, approve)]

/-- The participants in the ballot on the block of these calls. -/
def participantsOf (peerId : PeerId) (calls : List VotingCall) : Finset PeerId :=
  insert peerId ((calls.head?.map knownPeers).getD []).toFinset

/-- The decision on a block after the given calls. -/
def decision (peerId : PeerId) (blockHash : BlockHash) (calls : List VotingCall) :
    ConsensusOutcome :=
  let own := calls.filter (·.blockHash = blockHash)
  firstDecision (participantsOf peerId own).card
    ((firstVotes (participantsOf peerId own) (own.flatMap (votes peerId))).map Prod.snd)

end VotingCall

namespace ConsensusEngine

def call (engine : ConsensusEngine) :
    VotingCall → ConsensusEngine × Except String (List ConsensusEffect)
  | .localBlockProposed blockHash knownPeers => engine.onLocalBlockProposed blockHash knownPeers
  | .blockProposalValidated blockHash proposer valid knownPeers =>
    engine.onBlockProposalValidated blockHash proposer valid knownPeers
  | .blockVote blockHash src approve knownPeers =>
    engine.onBlockVote blockHash src approve knownPeers

def callAll (engine : ConsensusEngine) (calls : List VotingCall) : ConsensusEngine :=
  calls.foldl (fun engine c => (engine.call c).1) engine

end ConsensusEngine

-- ============================================================================
-- The first decision
-- ============================================================================

theorem standingOf_eq (n : Nat) (verdicts : List Bool) :
    standingOf n verdicts = evaluateOutcome n (verdicts.count true) (verdicts.count false) := rfl

/-- The first prefix that is decided is found by going through the verdicts. -/
theorem find?_inits_eq_tally (n : Nat) (before verdicts : List Bool) :
    ((verdicts.inits.tail.map fun l => standingOf n (before ++ l)).find? (· ≠ .pending)).getD
        .pending =
      tally n (before.count true) (before.count false) verdicts := by
  induction verdicts generalizing before with
  | nil => rfl
  | cons verdict verdicts ih =>
      have hinits : (verdict :: verdicts).inits.tail = [verdict] ::
          verdicts.inits.tail.map (verdict :: ·) := by
        rw [List.inits_cons, List.tail_cons]
        cases verdicts <;> simp
      have hnext : (verdicts.inits.tail.map (verdict :: ·)).map
            (fun l => standingOf n (before ++ l)) =
          verdicts.inits.tail.map fun l => standingOf n (before ++ [verdict] ++ l) := by
        simp only [List.map_map, Function.comp_def, List.append_assoc, List.cons_append,
          List.nil_append]
      have hcounts : standingOf n (before ++ [verdict]) =
          evaluateOutcome n (if verdict then before.count true + 1 else before.count true)
            (if verdict then before.count false else before.count false + 1) := by
        rw [standingOf_eq]
        cases verdict <;> simp [List.count_append]
      rw [hinits, List.map_cons, hnext, tally, ← hcounts]
      by_cases hpending : standingOf n (before ++ [verdict]) = .pending
      · rw [List.find?_cons_of_neg (by simp [hpending]), ih, hpending]
        cases verdict <;> simp [List.count_append]
      · rw [List.find?_cons_of_pos (by simp [hpending])]
        cases hstanding : standingOf n (before ++ [verdict]) with
        | pending => exact absurd hstanding hpending
        | approved => rfl
        | rejected => rfl

theorem firstDecision_eq_tally (n : Nat) (verdicts : List Bool) :
    firstDecision n verdicts = tally n 0 0 verdicts :=
  find?_inits_eq_tally n [] verdicts

-- ============================================================================
-- A ballot
-- ============================================================================

namespace VotingConsensus

variable {v : VotingConsensus}

/-- The ballot after votes that are cast one after the other. -/
def cast (v : VotingConsensus) (votes : List (PeerId × Bool)) : VotingConsensus :=
  votes.foldl (fun v vote => v.afterVote vote.1 vote.2) v

/-- The participants that have not voted. -/
def eligible (v : VotingConsensus) : Finset PeerId :=
  v.participants \ (v.approvals ∪ v.rejections)

theorem cast_append (v : VotingConsensus) (votes votes' : List (PeerId × Bool)) :
    v.cast (votes ++ votes') = (v.cast votes).cast votes' :=
  List.foldl_append

/-- A decided ballot does not change. -/
theorem cast_of_decided (h : v.outcome.isSome = true) (votes : List (PeerId × Bool)) :
    v.cast votes = v := by
  induction votes with
  | nil => rfl
  | cons vote votes ih =>
      have hclosed : v.closedTo vote.1 = true := by rw [closedTo, h, Bool.or_true]
      show (v.afterVote vote.1 vote.2).cast votes = v
      rw [(afterVote_of_closed (Or.inl hclosed) vote.2).1]
      exact ih

theorem mem_eligible {src : PeerId} :
    src ∈ v.eligible ↔ src ∈ v.participants ∧ src ∉ v.approvals ∧ src ∉ v.rejections := by
  rw [eligible, Finset.mem_sdiff, Finset.mem_union, not_or]

theorem eligible_recordVote (v : VotingConsensus) (src : PeerId) (approve : Bool) :
    (v.recordVote src approve).eligible = v.eligible.erase src := by
  ext q
  rw [Finset.mem_erase, mem_eligible, mem_eligible, recordVote_participants, recordVote_approvals,
    recordVote_rejections]
  cases approve with
  | true =>
      simp only [if_true, Finset.mem_insert, not_or]
      tauto
  | false =>
      simp only [Bool.false_eq_true, if_false, Finset.mem_insert, not_or]
      tauto

/-- The outcome of an open ballot is the tally of the first votes of those who have not
    voted. -/
theorem outcome_cast (hopen : v.outcome = none) (votes : List (PeerId × Bool)) :
    (v.cast votes).outcome =
      let outcome := tally v.participants.card v.approvals.card v.rejections.card
        ((firstVotes v.eligible votes).map Prod.snd)
      if outcome = .pending then none else some outcome := by
  induction votes generalizing v with
  | nil => exact hopen
  | cons vote votes ih =>
      obtain ⟨src, approve⟩ := vote
      show ((v.afterVote src approve).cast votes).outcome = _
      by_cases hmem : src ∈ v.eligible
      · obtain ⟨hparticipant, happ, hrej⟩ := mem_eligible.mp hmem
        have hvotable := closedTo_eq_false.mpr ⟨happ, hrej, hopen⟩
        obtain ⟨ha, hr⟩ := card_recordVote happ hrej approve
        have hstanding : (v.recordVote src approve).standing =
            evaluateOutcome v.participants.card
              (if approve then v.approvals.card + 1 else v.approvals.card)
              (if approve then v.rejections.card else v.rejections.card + 1) := by
          rw [standing, ha, hr, recordVote_participants]
        rw [(afterVote_of_open hvotable hparticipant approve).1, firstVotes, if_pos hmem,
          List.map_cons, tally, ← hstanding, ← ha, ← hr]
        cases hdecided : (v.recordVote src approve).standing with
        | pending =>
            rw [if_neg (by simp), ih ((recordVote_outcome v src approve).trans hopen),
              eligible_recordVote, recordVote_participants]
        | approved | rejected =>
            rw [if_pos (by simp), cast_of_decided rfl]
            simp
      · have hclosed : v.closedTo src = true ∨ src ∉ v.participants := by
          rcases v.open_or_closed src with ⟨hvotable, hparticipant⟩ | hclosed
          · obtain ⟨happ, hrej, -⟩ := closedTo_eq_false.mp hvotable
            exact absurd (mem_eligible.mpr ⟨hparticipant, happ, hrej⟩) hmem
          · exact hclosed
        rw [(afterVote_of_closed hclosed approve).1, ih hopen, firstVotes, if_neg hmem]

/-- What a vote decides is the outcome it leaves, unless there was one before. -/
theorem voteOutcome_eq (v : VotingConsensus) (src : PeerId) (approve : Bool) :
    v.voteOutcome src approve =
      if v.outcome.isSome then .pending
      else (v.afterVote src approve).outcome.getD .pending := by
  rcases v.open_or_closed src with ⟨hvotable, hmem⟩ | hclosed
  · obtain ⟨-, -, hopen⟩ := closedTo_eq_false.mp hvotable
    obtain ⟨hafter, hout⟩ := afterVote_of_open hvotable hmem approve
    rw [hafter, hout, hopen, if_neg (by simp)]
    cases hstanding : (v.recordVote src approve).standing with
    | pending =>
        rw [if_neg (by simp), recordVote_outcome, hopen]
        rfl
    | approved | rejected => rfl
  · obtain ⟨hafter, hout⟩ := afterVote_of_closed hclosed approve
    rw [hafter, hout]
    cases hopen : v.outcome with
    | none => rfl
    | some outcome => rfl

end VotingConsensus

-- ============================================================================
-- The engine
-- ============================================================================

namespace Voting

/-- What votes newly decide. -/
def newlyDecided (before after : VotingConsensus) : ConsensusOutcome :=
  if before.outcome.isSome then .pending else after.outcome.getD .pending

/-- The outcome of a handler that casts votes on a block: the ballot on the block has
    them, no other ballot is touched, and the effects are those of the decision. -/
structure Casts (peerId : PeerId) (votings : Votings) (knownPeers : List PeerId)
    (blockHash : BlockHash) (votes : List (PeerId × Bool))
    (out : Votings × List ConsensusEffect) : Prop where
  lookup : ∀ hash, out.1.lookup hash =
    if hash = blockHash then some ((ballot peerId votings knownPeers blockHash).cast votes)
    else votings.lookup hash
  effects : out.2 = outcomeEffects blockHash
    (newlyDecided (ballot peerId votings knownPeers blockHash)
      ((ballot peerId votings knownPeers blockHash).cast votes))

theorem handleVotingVote_casts (peerId : PeerId) (votings : Votings) (knownPeers : List PeerId)
    (blockHash : BlockHash) (src : PeerId) (approve : Bool) :
    Casts peerId votings knownPeers blockHash [(src, approve)]
      (handleVotingVote peerId votings knownPeers blockHash src approve) := by
  rw [handleVotingVote_eq]
  constructor
  · intro hash
    rw [HashMap.lookup_insert_ite]
    rfl
  · show outcomeEffects blockHash _ = _
    rw [VotingConsensus.voteOutcome_eq]
    rfl

/-- Votes that decide nothing leave the decision to those after them. -/
theorem newlyDecided_cast (v : VotingConsensus) (votes votes' : List (PeerId × Bool)) :
    newlyDecided v (v.cast (votes ++ votes')) =
      if newlyDecided v (v.cast votes) = .pending then
        newlyDecided (v.cast votes) ((v.cast votes).cast votes')
      else newlyDecided v (v.cast votes) := by
  rw [VotingConsensus.cast_append]
  unfold newlyDecided
  by_cases hopen : v.outcome.isSome = true
  · rw [VotingConsensus.cast_of_decided hopen, VotingConsensus.cast_of_decided hopen]
    simp only [if_pos hopen, if_true]
  · simp only [if_neg hopen]
    by_cases hdecided : (v.cast votes).outcome.isSome = true
    · rw [VotingConsensus.cast_of_decided hdecided, if_pos hdecided]
      split
      · assumption
      · rfl
    · have hnone : (v.cast votes).outcome = none := by simpa using hdecided
      rw [if_neg hdecided, hnone]
      rfl

/-- The peer's own verdict on a proposal is cast, though the code passes it over when
    the proposer's approval decides: on a decided ballot it would change nothing. -/
theorem onBlockProposalValidated_casts (peerId : PeerId) (votings : Votings)
    (knownPeers : List PeerId) (blockHash : BlockHash) (proposer : PeerId) (valid : Bool) :
    Casts peerId votings knownPeers blockHash [(proposer, true), (peerId, valid)]
      (onBlockProposalValidated peerId votings blockHash proposer valid knownPeers) := by
  have hfirst := handleVotingVote_casts peerId votings knownPeers blockHash proposer true
  have hsecond := handleVotingVote_casts peerId
    (handleVotingVote peerId votings knownPeers blockHash proposer true).1 knownPeers blockHash
    peerId valid
  have hballot : ballot peerId (handleVotingVote peerId votings knownPeers blockHash proposer
      true).1 knownPeers blockHash =
        (ballot peerId votings knownPeers blockHash).cast [(proposer, true)] := by
    rw [ballot, hfirst.lookup, if_pos rfl]
    rfl
  rw [onBlockProposalValidated_eq]
  generalize hv : ballot peerId votings knownPeers blockHash = v at hballot
  have hcast : v.cast [(proposer, true), (peerId, valid)] =
      (v.cast [(proposer, true)]).cast [(peerId, valid)] := v.cast_append [_] [_]
  have houtcome : v.voteOutcome proposer true = newlyDecided v (v.cast [(proposer, true)]) :=
    v.voteOutcome_eq proposer true
  have hchain := newlyDecided_cast v [(proposer, true)] [(peerId, valid)]
  rw [List.singleton_append] at hchain
  rw [houtcome]
  split
  · rename_i hpending
    rw [if_pos hpending] at hchain
    constructor
    · intro hash
      rw [hsecond.lookup, hballot, hfirst.lookup, hv, hcast]
      split <;> rfl
    · rw [hsecond.effects, hballot, hv, hchain]
  · rename_i hdecided
    rw [if_neg hdecided] at hchain
    have hsome : (v.cast [(proposer, true)]).outcome.isSome = true := by
      by_contra hnone
      refine hdecided ?_
      unfold newlyDecided
      rw [Option.not_isSome_iff_eq_none.mp hnone]
      split <;> rfl
    constructor
    · intro hash
      rw [hfirst.lookup, hv, hcast, VotingConsensus.cast_of_decided hsome]
    · rw [hfirst.effects, hv, hchain]

end Voting

namespace VotingCall

/-- The ballot that the calls for a block leave. -/
def ballotAfter (peerId : PeerId) (own : List VotingCall) : Option VotingConsensus :=
  own.head?.map fun first =>
    (VotingConsensus.new peerId first.knownPeers).cast (own.flatMap (votes peerId))

theorem ballotAfter_append (peerId : PeerId) (own : List VotingCall) (c : VotingCall) :
    ballotAfter peerId (own ++ [c]) =
      some (((ballotAfter peerId own).getD (.new peerId c.knownPeers)).cast (c.votes peerId)) := by
  unfold ballotAfter
  cases own with
  | nil =>
      show some (VotingConsensus.cast _ ([c].flatMap (votes peerId))) = _
      rw [List.flatMap_singleton]
      rfl
  | cons first own =>
      rw [List.flatMap_append, List.flatMap_singleton, List.cons_append, List.head?_cons,
        List.head?_cons, Option.map_some, Option.map_some, Option.getD_some,
        VotingConsensus.cast_append]

theorem filter_append_self (calls : List VotingCall) (c : VotingCall) :
    (calls ++ [c]).filter (·.blockHash = c.blockHash) =
      calls.filter (·.blockHash = c.blockHash) ++ [c] := by
  rw [List.filter_append]
  simp

/-- The reference reads the outcome of the ballot. -/
theorem decision_eq (peerId : PeerId) (blockHash : BlockHash) (calls : List VotingCall) :
    (ballotAfter peerId (calls.filter (·.blockHash = blockHash))).bind VotingConsensus.outcome =
      if decision peerId blockHash calls = .pending then none
      else some (decision peerId blockHash calls) := by
  unfold decision
  rw [firstDecision_eq_tally]
  cases calls.filter (·.blockHash = blockHash) with
  | nil => rfl
  | cons first own =>
      have heligible : (VotingConsensus.new peerId first.knownPeers).eligible =
          participantsOf peerId (first :: own) := Finset.sdiff_empty
      show ((VotingConsensus.new peerId first.knownPeers).cast
        ((first :: own).flatMap (votes peerId))).outcome = _
      rw [VotingConsensus.outcome_cast rfl, heligible]
      rfl

end VotingCall

namespace ConsensusEngine

/-- One call at a voting engine casts the votes of the call. -/
theorem call_casts (peerId : PeerId) (votings : Voting.Votings) (c : VotingCall) :
    ∃ votings' effects, (ConsensusEngine.voting peerId votings).call c =
        (.voting peerId votings', .ok effects) ∧
      Voting.Casts peerId votings c.knownPeers c.blockHash (c.votes peerId)
        (votings', effects) := by
  cases c with
  | localBlockProposed blockHash knownPeers =>
      exact ⟨_, _, rfl, Voting.handleVotingVote_casts peerId votings knownPeers blockHash peerId
        true⟩
  | blockProposalValidated blockHash proposer valid knownPeers =>
      exact ⟨_, _, rfl, Voting.onBlockProposalValidated_casts peerId votings knownPeers blockHash
        proposer valid⟩
  | blockVote blockHash src approve knownPeers =>
      exact ⟨_, _, rfl, Voting.handleVotingVote_casts peerId votings knownPeers blockHash src
        approve⟩

/-- After any calls, every ballot has the votes of the calls for its block, whatever
    came between them. -/
theorem callAll_ballots (peerId : PeerId) (calls : List VotingCall) :
    ∃ votings, (newVoting peerId).callAll calls = .voting peerId votings ∧
      ∀ hash, votings.lookup hash =
        VotingCall.ballotAfter peerId (calls.filter (·.blockHash = hash)) := by
  induction calls using List.reverseRecOn with
  | nil => exact ⟨∅, rfl, fun hash => rfl⟩
  | append_singleton calls c ih =>
      obtain ⟨votings, hengine, hlookup⟩ := ih
      obtain ⟨votings', effects, hcall, hcasts⟩ := call_casts peerId votings c
      refine ⟨votings', ?_, ?_⟩
      · unfold callAll at hengine ⊢
        rw [List.foldl_append, hengine]
        show ((ConsensusEngine.voting peerId votings).call c).1 = _
        rw [hcall]
      · intro hash
        rw [hcasts.lookup]
        by_cases heq : hash = c.blockHash
        · subst heq
          rw [if_pos rfl, VotingCall.filter_append_self, VotingCall.ballotAfter_append, ← hlookup]
          rfl
        · rw [if_neg heq, List.filter_append, hlookup]
          simp [Ne.symm heq]

/-- The voting engine decides by first votes and once: a call emits the decision on its
    block if the calls before it left the block undecided and the votes of this call
    decide it; otherwise it emits nothing. -/
theorem call_effects_eq_decision (peerId : PeerId) (calls : List VotingCall)
    (next : VotingCall) :
    (((newVoting peerId).callAll calls).call next).2 =
      .ok (if VotingCall.decision peerId next.blockHash calls ≠ .pending then []
      else if VotingCall.decision peerId next.blockHash (calls ++ [next]) = .approved then
        [.commitBlock next.blockHash, .broadcast (.blockApproved next.blockHash)]
      else if VotingCall.decision peerId next.blockHash (calls ++ [next]) = .rejected then
        [.rollbackBlock next.blockHash, .broadcast (.blockReject next.blockHash)]
      else []) := by
  rw [← Voting.outcomeEffects_eq, ite_not]
  obtain ⟨votings, hengine, hlookup⟩ := callAll_ballots peerId calls
  obtain ⟨votings', effects, hcall, hcasts⟩ := call_casts peerId votings next
  have hbefore := VotingCall.decision_eq peerId next.blockHash calls
  have hafter := VotingCall.decision_eq peerId next.blockHash (calls ++ [next])
  rw [VotingCall.filter_append_self, VotingCall.ballotAfter_append, Option.bind_some] at hafter
  have heffects : effects = _ := hcasts.effects
  rw [hengine, hcall, heffects, Voting.ballot, hlookup]
  generalize VotingCall.ballotAfter peerId (calls.filter (·.blockHash = next.blockHash)) = own
    at hbefore hafter ⊢
  have houtcome : (own.getD (.new peerId next.knownPeers)).outcome =
      own.bind VotingConsensus.outcome := by
    cases own <;> rfl
  rw [hbefore] at houtcome
  unfold Voting.newlyDecided
  rw [houtcome, hafter]
  by_cases hpending : VotingCall.decision peerId next.blockHash calls = .pending
  · rw [if_pos hpending, if_pos hpending, if_neg (by simp)]
    split
    · rename_i hundecided
      rw [hundecided]
      rfl
    · rfl
  · rw [if_neg hpending, if_neg hpending, if_pos Option.isSome_some]
    rfl

end ConsensusEngine

end Rustchain
