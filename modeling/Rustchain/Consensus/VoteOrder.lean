/-
  Rustchain.Consensus.VoteOrder

  How the decision on a block depends on the order in which its votes arrive.

  A ballot is decided by the first vote that brings the approvals to `2f + 1` or
  the rejections to `f`, so what counts of an order is its sequence of verdicts.
  `tally` reads the decision off that sequence; the engine is shown to compute
  it, and the question about orders becomes one about two counts.
-/

import Rustchain.Consensus.Engine

namespace Rustchain

open VotingConsensus (faultBound evaluateOutcome)

-- ============================================================================
-- The tally of a sequence of verdicts
-- ============================================================================

/-- The rejections that decide a ballot: `f`, but never without a vote. -/
def rejectThreshold (n : Nat) : Nat := max (faultBound n) 1

/-- The outcome of a ballot of `n` participants that stands at `a` approvals and
    `r` rejections when the verdicts come in. -/
def tally (n : Nat) : Nat → Nat → List Bool → ConsensusOutcome
  | _, _, [] => .pending
  | a, r, verdict :: verdicts =>
    let a := if verdict then a + 1 else a
    let r := if verdict then r else r + 1
    match evaluateOutcome n a r with
    | .pending => tally n a r verdicts
    | outcome => outcome

/-- After a vote, the outcome is read off the two thresholds. -/
theorem evaluateOutcome_of_pos {n a r : Nat} (hpos : 0 < a + r) :
    evaluateOutcome n a r =
      if 2 * faultBound n + 1 ≤ a then .approved
      else if rejectThreshold n ≤ r then .rejected else .pending := by
  unfold evaluateOutcome rejectThreshold
  by_cases ha : 2 * faultBound n + 1 ≤ a
  · rw [if_pos ha, if_pos ha]
  · rw [if_neg ha, if_neg ha]
    have hr : faultBound n ≤ r ↔ max (faultBound n) 1 ≤ r := by omega
    simp only [ge_iff_le, hr]

/-- Too few rejections to decide, enough approvals: every order approves. -/
theorem tally_approved {n a r : Nat} {verdicts : List Bool}
    (ha : a < 2 * faultBound n + 1)
    (hcount : 2 * faultBound n + 1 ≤ a + verdicts.count true)
    (hr : r + verdicts.count false < rejectThreshold n) :
    tally n a r verdicts = .approved := by
  induction verdicts generalizing a r with
  | nil =>
      rw [List.count_nil] at hcount
      omega
  | cons verdict verdicts ih =>
      cases verdict with
      | true =>
          simp only [List.count_cons_self, List.count_cons_of_ne, ne_eq, Bool.true_eq_false,
            not_false_eq_true] at hcount hr
          simp only [tally, if_true]
          rw [evaluateOutcome_of_pos (by omega)]
          by_cases hreached : 2 * faultBound n + 1 ≤ a + 1
          · rw [if_pos hreached]
          · rw [if_neg hreached, if_neg (by omega)]
            exact ih (by omega) (by omega) (by omega)
      | false =>
          simp only [List.count_cons_self, List.count_cons_of_ne, ne_eq, Bool.false_eq_true,
            not_false_eq_true] at hcount hr
          simp only [tally, Bool.false_eq_true, if_false]
          rw [evaluateOutcome_of_pos (by omega), if_neg (by omega), if_neg (by omega)]
          exact ih (by omega) (by omega) (by omega)

/-- Too few approvals to decide, enough rejections: every order rejects. -/
theorem tally_rejected {n a r : Nat} {verdicts : List Bool}
    (hr : r < rejectThreshold n)
    (hcount : rejectThreshold n ≤ r + verdicts.count false)
    (ha : a + verdicts.count true < 2 * faultBound n + 1) :
    tally n a r verdicts = .rejected := by
  induction verdicts generalizing a r with
  | nil =>
      rw [List.count_nil] at hcount
      omega
  | cons verdict verdicts ih =>
      cases verdict with
      | true =>
          simp only [List.count_cons_self, List.count_cons_of_ne, ne_eq, Bool.true_eq_false,
            not_false_eq_true] at hcount ha
          simp only [tally, if_true]
          rw [evaluateOutcome_of_pos (by omega), if_neg (by omega), if_neg (by omega)]
          exact ih (by omega) (by omega) (by omega)
      | false =>
          simp only [List.count_cons_self, List.count_cons_of_ne, ne_eq, Bool.false_eq_true,
            not_false_eq_true] at hcount ha
          simp only [tally, Bool.false_eq_true, if_false]
          rw [evaluateOutcome_of_pos (by omega), if_neg (by omega)]
          by_cases hreached : rejectThreshold n ≤ r + 1
          · rw [if_pos hreached]
          · rw [if_neg hreached]
            exact ih (by omega) (by omega) (by omega)

/-- Verdicts after a decision are not looked at. -/
theorem tally_append {n a r : Nat} {first second : List Bool}
    (h : tally n a r first ≠ .pending) : tally n a r (first ++ second) = tally n a r first := by
  induction first generalizing a r with
  | nil => exact absurd rfl h
  | cons verdict verdicts ih =>
      simp only [tally, List.cons_append] at h ⊢
      split
      · rename_i heq
        simp only [heq] at h
        exact ih h
      · rfl

-- ============================================================================
-- The engine computes the tally
-- ============================================================================

namespace ConsensusEngine

/-- Feeds votes on one block to the engine, one after the other, and collects
    the effects. -/
def castVotes (blockHash : BlockHash) (knownPeers : List PeerId) :
    ConsensusEngine → List (PeerId × Bool) → ConsensusEngine × List ConsensusEffect
  | engine, [] => (engine, [])
  | engine, (src, approve) :: votes =>
    let (engine, result) := engine.onBlockVote blockHash src approve knownPeers
    let (engine, effects) := castVotes blockHash knownPeers engine votes
    (engine, result.toOption.getD [] ++ effects)

/-- The decision among the effects of a ballot: its `CommitBlock` or
    `RollbackBlock`, if any. -/
def decisionOf (effects : List ConsensusEffect) : Option ConsensusEffect :=
  effects.find? fun
    | .commitBlock _ | .rollbackBlock _ => true
    | _ => false

/-- The decision of a new voting engine that every participant's vote reaches in
    the given order. -/
def decisionInOrder (peerId : PeerId) (knownPeers : List PeerId) (blockHash : BlockHash)
    (vote : PeerId → Bool) (order : List PeerId) : Option ConsensusEffect :=
  decisionOf (castVotes blockHash knownPeers (newVoting peerId)
    (order.map fun p => (p, vote p))).2

/-- A decided ballot answers no further vote. -/
theorem castVotes_of_decided {peerId : PeerId} {votings : Voting.Votings}
    {knownPeers : List PeerId} {blockHash : BlockHash} (votes : List (PeerId × Bool))
    (hdecided : (Voting.ballot peerId votings knownPeers blockHash).outcome.isSome = true) :
    (castVotes blockHash knownPeers (.voting peerId votings) votes).2 = [] := by
  induction votes generalizing votings with
  | nil => rfl
  | cons vote votes ih =>
      obtain ⟨src, approve⟩ := vote
      have hclosed : (Voting.ballot peerId votings knownPeers blockHash).closedTo src = true := by
        rw [VotingConsensus.closedTo, hdecided, Bool.or_true]
      simp only [castVotes, onBlockVote, ofVoting, Voting.onBlockVote, Voting.handleVotingVote_eq,
        VotingConsensus.afterVote, VotingConsensus.voteOutcome, hclosed, if_true]
      rw [ih (by rw [Voting.ballot_insert]; exact hdecided)]
      rfl

/-- The effects of a ballot are those of the tally of the verdicts, in the order
    in which they come. -/
theorem castVotes_effects {peerId : PeerId} {votings : Voting.Votings} {knownPeers : List PeerId}
    {blockHash : BlockHash} {v : VotingConsensus} (vote : PeerId → Bool) {order : List PeerId}
    (hballot : Voting.ballot peerId votings knownPeers blockHash = v)
    (hopen : v.outcome = none) (hnodup : order.Nodup)
    (hmem : ∀ p ∈ order, p ∈ v.participants ∧ p ∉ v.approvals ∧ p ∉ v.rejections) :
    (castVotes blockHash knownPeers (.voting peerId votings)
        (order.map fun p => (p, vote p))).2 =
      Voting.outcomeEffects blockHash
        (tally v.participants.card v.approvals.card v.rejections.card (order.map vote)) := by
  induction order generalizing votings v with
  | nil => rfl
  | cons p order ih =>
      obtain ⟨hp, happ, hrej⟩ := hmem p List.mem_cons_self
      have hnotin : p ∉ order := (List.nodup_cons.mp hnodup).1
      have hvotable : v.closedTo p = false := by
        simp [VotingConsensus.closedTo, VotingConsensus.alreadyVoted, happ, hrej, hopen]
      have hmake := VotingConsensus.makeVote_of_open hopen hp (vote p)
      obtain ⟨ha, hr⟩ := VotingConsensus.card_recordVote happ hrej (vote p)
      have hmem' : ∀ q ∈ order, q ∈ (v.recordVote p (vote p)).participants ∧
          q ∉ (v.recordVote p (vote p)).approvals ∧ q ∉ (v.recordVote p (vote p)).rejections := by
        intro q hq
        obtain ⟨hqp, hqa, hqr⟩ := hmem q (List.mem_cons_of_mem p hq)
        have hne : q ≠ p := fun h => hnotin (h ▸ hq)
        rw [VotingConsensus.recordVote_participants]
        exact ⟨hqp, VotingConsensus.not_voted_recordVote hne hqa hqr (vote p)⟩
      have htally : tally v.participants.card v.approvals.card v.rejections.card
          (vote p :: order.map vote) =
          match (v.recordVote p (vote p)).standing with
          | .pending => tally v.participants.card (v.recordVote p (vote p)).approvals.card
              (v.recordVote p (vote p)).rejections.card (order.map vote)
          | outcome => outcome := by
        simp only [tally, VotingConsensus.standing, ha, hr,
          VotingConsensus.recordVote_participants]
      simp only [List.map_cons, castVotes, onBlockVote, ofVoting, Voting.onBlockVote,
        Voting.handleVotingVote_eq, hballot, VotingConsensus.afterVote,
        VotingConsensus.voteOutcome, hvotable, Bool.false_eq_true, if_false, hmake, htally]
      have hballot' := Voting.ballot_insert peerId votings knownPeers blockHash
      cases hout : (v.recordVote p (vote p)).standing with
      | pending =>
          rw [if_neg (by simp), ih (hballot' _) (by simpa using hopen)
            (List.nodup_cons.mp hnodup).2 hmem']
          simp [Voting.outcomeEffects, Except.toOption]
      | approved | rejected =>
          rw [if_pos (by simp), castVotes_of_decided _ (by rw [hballot']; rfl)]
          simp [Except.toOption]

/-- The effect that carries out an outcome. -/
theorem decisionOf_outcomeEffects (blockHash : BlockHash) (outcome : ConsensusOutcome) :
    decisionOf (Voting.outcomeEffects blockHash outcome) =
      match outcome with
      | .approved => some (.commitBlock blockHash)
      | .rejected => some (.rollbackBlock blockHash)
      | .pending => none := by
  cases outcome <;> rfl

/-- The decision of an engine is the one the tally of the verdicts gives. -/
theorem decisionInOrder_eq {peerId : PeerId} {knownPeers : List PeerId} {blockHash : BlockHash}
    {vote : PeerId → Bool} {order : List PeerId} (hnodup : order.Nodup)
    (hmem : ∀ p, p ∈ order ↔ p ∈ insert peerId knownPeers.toFinset) :
    decisionInOrder peerId knownPeers blockHash vote order =
      decisionOf (Voting.outcomeEffects blockHash
        (tally (insert peerId knownPeers.toFinset).card 0 0 (order.map vote))) := by
  have hballot : Voting.ballot peerId ∅ knownPeers blockHash = .new peerId knownPeers := rfl
  have heffects := castVotes_effects vote hballot rfl hnodup fun p hp =>
    ⟨(hmem p).mp hp, Finset.notMem_empty p, Finset.notMem_empty p⟩
  rw [decisionInOrder, newVoting, heffects]
  rfl

end ConsensusEngine

-- ============================================================================
-- Orders
-- ============================================================================

/-- How many of the participants vote `verdict`. -/
def votesFor (participants : Finset PeerId) (vote : PeerId → Bool) (verdict : Bool) : Nat :=
  (participants.filter fun p => vote p = verdict).card

/-- Every order of the participants holds each verdict as often as it was cast. -/
theorem count_map_vote {participants : Finset PeerId} (vote : PeerId → Bool)
    {order : List PeerId} (hnodup : order.Nodup) (hmem : ∀ p, p ∈ order ↔ p ∈ participants)
    (verdict : Bool) : (order.map vote).count verdict = votesFor participants vote verdict := by
  have hset : participants = order.toFinset := by
    ext p
    rw [List.mem_toFinset, hmem]
  have hfilter : (participants.filter fun p => vote p = verdict) =
      (order.filter fun p => vote p == verdict).toFinset := by
    ext p
    simp [hset]
  rw [votesFor, hfilter, List.toFinset_card_of_nodup (hnodup.filter _),
    List.count_eq_countP, List.countP_map, List.countP_eq_length_filter]
  rfl

/-- The two kinds of votes are all votes. -/
theorem votesFor_add (participants : Finset PeerId) (vote : PeerId → Bool) :
    votesFor participants vote true + votesFor participants vote false = participants.card := by
  have h := Finset.card_filter_add_card_filter_not (s := participants) fun p => vote p = true
  simpa only [votesFor, Bool.not_eq_true] using h

/-- Both decisions are open: the approvals and the rejections among the votes
    both reach their threshold. -/
def Contested (participants : Finset PeerId) (vote : PeerId → Bool) : Prop :=
  2 * faultBound participants.card + 1 ≤ votesFor participants vote true ∧
    rejectThreshold participants.card ≤ votesFor participants vote false

/-- The participants whose vote is `verdict` first, then the others. -/
noncomputable def leadingOrder (participants : Finset PeerId) (vote : PeerId → Bool)
    (verdict : Bool) : List PeerId :=
  (participants.filter fun p => vote p = verdict).toList ++
    (participants.filter fun p => vote p = !verdict).toList

theorem leadingOrder_nodup (participants : Finset PeerId) (vote : PeerId → Bool)
    (verdict : Bool) : (leadingOrder participants vote verdict).Nodup := by
  refine List.nodup_append.mpr ⟨Finset.nodup_toList _, Finset.nodup_toList _, ?_⟩
  intro p hp q hq heq
  simp only [Finset.mem_toList, Finset.mem_filter] at hp hq
  rw [heq, hq.2] at hp
  cases verdict <;> simp at hp

theorem mem_leadingOrder {participants : Finset PeerId} {vote : PeerId → Bool} {verdict : Bool}
    (p : PeerId) : p ∈ leadingOrder participants vote verdict ↔ p ∈ participants := by
  simp only [leadingOrder, List.mem_append, Finset.mem_toList, Finset.mem_filter]
  constructor
  · rintro (⟨hp, -⟩ | ⟨hp, -⟩) <;> exact hp
  · intro hp
    by_cases hv : vote p = verdict
    · exact Or.inl ⟨hp, hv⟩
    · exact Or.inr ⟨hp, by cases hverdict : verdict <;> simp_all⟩

/-- The verdicts of the leading part of such an order. -/
theorem leadingOrder_map (participants : Finset PeerId) (vote : PeerId → Bool) (verdict : Bool) :
    (leadingOrder participants vote verdict).map vote =
      List.replicate (votesFor participants vote verdict) verdict ++
        ((participants.filter fun p => vote p = !verdict).toList).map vote := by
  rw [leadingOrder, List.map_append, votesFor, ← Finset.length_toList]
  congr 1
  rw [List.eq_replicate_iff]
  refine ⟨List.length_map _, ?_⟩
  intro b hb
  obtain ⟨p, hp, rfl⟩ := List.mem_map.mp hb
  rw [Finset.mem_toList, Finset.mem_filter] at hp
  exact hp.2

/-- With enough approvals, the order that starts with them approves. -/
theorem tally_approvals_first {participants : Finset PeerId} {vote : PeerId → Bool}
    (h : 2 * faultBound participants.card + 1 ≤ votesFor participants vote true) :
    tally participants.card 0 0 ((leadingOrder participants vote true).map vote) = .approved := by
  have hfirst : tally participants.card 0 0
      (List.replicate (votesFor participants vote true) true) = .approved := by
    apply tally_approved
    · omega
    · rw [List.count_replicate_self]
      omega
    · rw [List.count_replicate]
      simp only [rejectThreshold, Bool.true_beq, Bool.false_eq_true, if_false]
      omega
  rw [leadingOrder_map, tally_append (by rw [hfirst]; simp), hfirst]

/-- With enough rejections, the order that starts with them rejects. -/
theorem tally_rejections_first {participants : Finset PeerId} {vote : PeerId → Bool}
    (h : rejectThreshold participants.card ≤ votesFor participants vote false) :
    tally participants.card 0 0 ((leadingOrder participants vote false).map vote) = .rejected := by
  have hfirst : tally participants.card 0 0
      (List.replicate (votesFor participants vote false) false) = .rejected := by
    apply tally_rejected
    · simp only [rejectThreshold]
      omega
    · rw [List.count_replicate_self]
      omega
    · rw [List.count_replicate]
      simp only [Bool.false_beq, Bool.not_true, Bool.false_eq_true, if_false]
      omega
  rw [leadingOrder_map, tally_append (by rw [hfirst]; simp), hfirst]

/-- Where only one decision is open, every order reaches it. -/
theorem tally_of_not_contested {participants : Finset PeerId} {vote : PeerId → Bool}
    (hpos : 0 < participants.card) (hopen : ¬ Contested participants vote) {order : List PeerId}
    (hnodup : order.Nodup) (hmem : ∀ p, p ∈ order ↔ p ∈ participants) :
    tally participants.card 0 0 (order.map vote) =
      if 2 * faultBound participants.card + 1 ≤ votesFor participants vote true
      then .approved else .rejected := by
  have htrue := count_map_vote vote hnodup hmem true
  have hfalse := count_map_vote vote hnodup hmem false
  have hsum := votesFor_add participants vote
  by_cases ha : 2 * faultBound participants.card + 1 ≤ votesFor participants vote true
  · have hr : ¬ rejectThreshold participants.card ≤ votesFor participants vote false :=
      fun hr => hopen ⟨ha, hr⟩
    rw [if_pos ha]
    apply tally_approved <;> omega
  · -- Too few approvals leave at least `n - 2f` rejections, which is `f + 1` or more.
    have hr : rejectThreshold participants.card ≤ votesFor participants vote false := by
      simp only [rejectThreshold, faultBound] at ha ⊢
      omega
    rw [if_neg ha]
    apply tally_rejected
    · simp only [rejectThreshold]
      omega
    · omega
    · omega

/-- The decision on a block is the same in any two orders of the participants'
    votes, at any two peers with the same participants, if and only if the votes
    do not reach both thresholds. -/
theorem decision_order_independent_iff (peerId : PeerId) (knownPeers : List PeerId)
    (blockHash : BlockHash) (vote : PeerId → Bool) :
    (∀ (peerId' : PeerId) (knownPeers' : List PeerId) (order order' : List PeerId),
        insert peerId' knownPeers'.toFinset = insert peerId knownPeers.toFinset →
        order.Nodup → (∀ p, p ∈ order ↔ p ∈ insert peerId knownPeers.toFinset) →
        order'.Nodup → (∀ p, p ∈ order' ↔ p ∈ insert peerId knownPeers.toFinset) →
        ConsensusEngine.decisionInOrder peerId knownPeers blockHash vote order =
          ConsensusEngine.decisionInOrder peerId' knownPeers' blockHash vote order') ↔
      ¬ Contested (insert peerId knownPeers.toFinset) vote := by
  constructor
  · rintro hsame ⟨ha, hr⟩
    have h := hsame peerId knownPeers
      (leadingOrder (insert peerId knownPeers.toFinset) vote true)
      (leadingOrder (insert peerId knownPeers.toFinset) vote false) rfl
      (leadingOrder_nodup _ vote true) mem_leadingOrder
      (leadingOrder_nodup _ vote false) mem_leadingOrder
    rw [ConsensusEngine.decisionInOrder_eq (leadingOrder_nodup _ vote true) mem_leadingOrder,
      ConsensusEngine.decisionInOrder_eq (leadingOrder_nodup _ vote false) mem_leadingOrder,
      tally_approvals_first ha, tally_rejections_first hr,
      ConsensusEngine.decisionOf_outcomeEffects, ConsensusEngine.decisionOf_outcomeEffects] at h
    cases h
  · intro hopen peerId' knownPeers' order order' hparts hnodup hmem hnodup' hmem'
    have hpos : 0 < (insert peerId knownPeers.toFinset).card :=
      Finset.card_pos.mpr ⟨peerId, Finset.mem_insert_self _ _⟩
    rw [ConsensusEngine.decisionInOrder_eq hnodup hmem,
      ConsensusEngine.decisionInOrder_eq hnodup' (by rw [hparts]; exact hmem'), hparts,
      tally_of_not_contested hpos hopen hnodup hmem,
      tally_of_not_contested hpos hopen hnodup' hmem']

/-- Three approvals and one rejection among four participants: the block is
    committed when the rejection comes last and rolled back when it comes first. -/
theorem decision_depends_on_order :
    ConsensusEngine.decisionInOrder 1 [2, 3, 4] 7 (fun p => p ≠ 4) [1, 2, 3, 4] =
        some (.commitBlock 7) ∧
      ConsensusEngine.decisionInOrder 1 [2, 3, 4] 7 (fun p => p ≠ 4) [4, 1, 2, 3] =
        some (.rollbackBlock 7) := by
  decide +kernel

end Rustchain
