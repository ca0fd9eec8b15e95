/-
  Rustchain.Peer.VotingStep

  What a voting peer does to its ballots and its chain when it handles a message.

  The voting engine asks for at most one thing at a time that touches the block
  store: stage a transaction, propose a block, commit one or roll one back.  A
  message makes the peer approve one block at most, which is read off the peer
  before it (`Peer.asked`).  What the peer commits and what it announces has the
  quorum on its own ballot, and if what is committed extends the tip, the block
  files stay a chain of such blocks.
-/

import Rustchain.Peer.Ballots
import Rustchain.Storage.Chain

namespace Rustchain

namespace VotingConsensus

/-- An approval that a vote adds is that of the voter, who had not voted. -/
theorem approver_afterVote {v : VotingConsensus} {src q : PeerId} {approve : Bool}
    (h : q ∈ (v.afterVote src approve).approvals) :
    q ∈ v.approvals ∨ (q = src ∧ approve = true ∧ v.closedTo src = false) := by
  cases hclosed : v.closedTo src with
  | true =>
      rw [(afterVote_of_closed (Or.inl hclosed) approve).1] at h
      exact Or.inl h
  | false =>
      exact ((afterVote_voted v src approve).approver q h).imp_right fun h => ⟨h.1, h.2, rfl⟩

/-- A vote closes the ballot to nobody but opens it to nobody either. -/
theorem open_before_vote {v : VotingConsensus} {src q : PeerId} {approve : Bool}
    (h : (v.afterVote src approve).closedTo q = false) : v.closedTo q = false := by
  obtain ⟨happ, hrej, hopen⟩ := closedTo_eq_false.mp h
  have hvoted := afterVote_voted v src approve
  exact closedTo_eq_false.mpr ⟨fun hq => happ (hvoted.approvals hq),
    fun hq => hrej (hvoted.rejections hq), hvoted.still_open hopen⟩

end VotingConsensus

-- ============================================================================
-- What a message asks for
-- ============================================================================

/-- The block the transaction would complete: the mempool with it, on the tip. -/
def PeerEffects.packedWith (pf : Platform) (effects : PeerEffects) (clientTx : SignedTransaction) :
    Option BlockFile :=
  let mempool : HashMap String SignedTransaction :=
    effects.blockKeeper.mempool.insert clientTx.txId clientTx
  match clientTx.verify pf, (effects.transactionProcessor.processTransaction clientTx).2 with
  | .ok (), .ok () =>
    if mempool.entries.length ≥ effects.blockKeeper.mempoolSize then
      some (.create pf (mempool.values.insertionSort fun a b => a.txId ≤ b.txId)
        effects.blockKeeper.blockStorageState.lastCommitedHash
        (effects.blockKeeper.blockStorageState.blockHeight + 1))
    else none
  | _, _ => none

/-- The block on which the message brings an approval. -/
def MessageBody.approvedBlock : MessageBody → Option BlockHash
  | .blockProposal blockHash .. | .blockApproved blockHash => some blockHash
  | _ => none

namespace Peer

/-- The block of a proposal, if it is valid and can be staged. -/
def stageable (pf : Platform) (p : Peer) : MessageBody → Option BlockFile
  | .blockProposal blockHash blockFile signature publicKey =>
    match BlockFile.verifyBlockVec pf blockHash blockFile signature publicKey with
    | .ok block => if p.effects.blockKeeper.blockCanBeAdded block then some block else none
    | .error _ => none
  | _ => none

/-- The block a message asks the peer to approve: the one a transaction completes, or
    one that is proposed and can be staged, as long as the peer may vote on it. -/
def asked (pf : Platform) (p : Peer) : MessageBody → Option BlockFile
  | .clientTransaction clientTx => p.effects.packedWith pf clientTx
  | .synchronization verifiedTx =>
    match verifiedTx.verify pf with
    | .ok () => p.effects.packedWith pf verifiedTx.clientTx
    | .error _ => none
  | .blockProposal blockHash blockFile signature publicKey =>
    if (p.ballotOf blockHash).closedTo p.effects.peerId then none
    else p.stageable pf (.blockProposal blockHash blockFile signature publicKey)
  | _ => none

/-- Whose approvals a message brings: its sender's and, if it asks for one, the
    peer's own. -/
def approvers (pf : Platform) (p : Peer) (message : Message) : Finset PeerId :=
  if (p.asked pf message.body).isSome then {message.from, p.effects.peerId} else {message.from}

/-- If the approvals a message brings are what the quorum on a block lacks, the block,
    staged before or by the message, extends the tip. -/
def CommitsInOrder (pf : Platform) (p : Peer) (message : Message) : Prop :=
  ∀ blockHash ∈ message.body.approvedBlock,
    (p.ballotOf blockHash).outcome = none →
    2 * VotingConsensus.faultBound (p.ballotOf blockHash).participants.card + 1 ≤
      ((p.ballotOf blockHash).approvals ∪
        (p.approvers pf message \ (p.ballotOf blockHash).rejections)).card →
    ∀ b ∈ (p.effects.blockKeeper.uncommitedBlocks.lookup blockHash).or
        (p.stageable pf message.body),
      b.previousHash = p.effects.blockKeeper.blockStorageState.lastCommitedHash

instance (pf : Platform) (p : Peer) (message : Message) : Decidable (p.CommitsInOrder pf message) :=
  Option.decidableForallMem message.body.approvedBlock

/-- The peer has approved the block: its own ballot counts its vote for it, or it has
    proposed it. -/
def Approves (p : Peer) (blockHash : BlockHash) : Prop :=
  p.effects.peerId ∈ (p.ballotOf blockHash).approvals ∨ p.effects.Proposed blockHash

instance (p : Peer) (blockHash : BlockHash) : Decidable (p.Approves blockHash) :=
  inferInstanceAs (Decidable (_ ∨ _))

end Peer

-- ============================================================================
-- The surroundings of a step
-- ============================================================================

/-- The block was packed by one of the others or here. -/
def BlockKeeper.Known (others : BlockFile → Prop) (k : BlockKeeper) (b : BlockFile) : Prop :=
  others b ∨ b ∈ k.created

/-- What surrounds a voting peer that handles a message. -/
structure Session where
  self : PeerId
  knownPeers : List PeerId
  /-- The blocks the others have packed. -/
  others : BlockFile → Prop
  /-- Whose approvals of which block may be counted. -/
  counted : BlockHash → PeerId → Prop
  /-- The blocks the peer has approved before. -/
  approved : BlockHash → Prop
  /-- The block the message asks it to approve. -/
  asked : Option BlockFile

namespace Session

variable (e : Session)

def peers : Finset PeerId := insert e.self e.knownPeers.toFinset

def ballot (votings : Voting.Votings) (blockHash : BlockHash) : VotingConsensus :=
  Voting.ballot e.self votings e.knownPeers blockHash

/-- The peer's ballot has decided for the block. -/
def Decided (votings : Voting.Votings) (blockHash : BlockHash) : Prop :=
  (e.ballot votings blockHash).outcome = some .approved

/-- The block is known, and the peer's ballot has decided for it. -/
def Settled (votings : Voting.Votings) (k : BlockKeeper) (b : BlockFile) : Prop :=
  k.Known e.others b ∧ e.Decided votings b.hash

/-- The peer may approve the block: it has before, or it is asked to. -/
def MayApprove (k : BlockKeeper) (blockHash : BlockHash) : Prop :=
  e.approved blockHash ∨ ∃ b, e.asked = some b ∧ b.hash = blockHash ∧ k.Known e.others b

/-- What a message of the peer has to be true to. -/
def Warrants (pf : Platform) (votings : Voting.Votings) (k : BlockKeeper) : MessageBody → Prop
  | .blockProposal blockHash blockFile _ _ =>
    (∃ b, blockFile = pf.encodeBlock b ∧ k.Known e.others b) ∧ e.MayApprove k blockHash
  | .blockApproved blockHash => e.Decided votings blockHash
  | _ => True

variable {e} {pf : Platform} {votings votings' : Voting.Votings} {k k' : BlockKeeper}

theorem MayApprove.mono {blockHash : BlockHash} (h : e.MayApprove k blockHash)
    (hcreated : ∀ b ∈ k.created, b ∈ k'.created) : e.MayApprove k' blockHash :=
  h.imp_right fun ⟨b, hasked, hhash, hknown⟩ =>
    ⟨b, hasked, hhash, hknown.imp_right (hcreated b)⟩

theorem Warrants.mono {body : MessageBody} (h : e.Warrants pf votings k body)
    (hcreated : ∀ b ∈ k.created, b ∈ k'.created)
    (hdecided : ∀ blockHash, e.Decided votings blockHash → e.Decided votings' blockHash) :
    e.Warrants pf votings' k' body := by
  cases body with
  | blockProposal blockHash blockFile signature publicKey =>
      obtain ⟨⟨b, hencoded, hknown⟩, hmay⟩ := h
      exact ⟨⟨b, hencoded, hknown.imp_right (hcreated b)⟩, hmay.mono hcreated⟩
  | blockApproved blockHash => exact hdecided blockHash h
  | _ => trivial

/-- The votings after a vote. -/
def vote (e : Session) (votings : Voting.Votings) (blockHash : BlockHash) (src : PeerId)
    (approve : Bool) : Voting.Votings :=
  (Voting.handleVotingVote e.self votings e.knownPeers blockHash src approve).1

/-- A vote, in the surroundings of the peer. -/
theorem handleVotingVote_eq (votings : Voting.Votings) (voted : BlockHash) (src : PeerId)
    (approve : Bool) :
    Voting.handleVotingVote e.self votings e.knownPeers voted src approve =
      (e.vote votings voted src approve,
        Voting.outcomeEffects voted ((e.ballot votings voted).voteOutcome src approve)) :=
  Prod.ext rfl (Voting.handleVotingVote_effects ..)

theorem ballot_vote (voted : BlockHash) (src : PeerId) (approve : Bool) (blockHash : BlockHash) :
    e.ballot (e.vote votings voted src approve) blockHash =
      if voted = blockHash then (e.ballot votings blockHash).afterVote src approve
      else e.ballot votings blockHash :=
  Voting.ballot_handleVotingVote ..

/-- The ballots after a vote have what each ballot had and the vote keeps. -/
theorem ballot_vote_keeps {motive : BlockHash → VotingConsensus → Prop}
    (h : ∀ blockHash, motive blockHash (e.ballot votings blockHash)) {voted : BlockHash}
    {src : PeerId} {approve : Bool}
    (hvoted : motive voted ((e.ballot votings voted).afterVote src approve))
    (blockHash : BlockHash) :
    motive blockHash (e.ballot (e.vote votings voted src approve) blockHash) := by
  rw [ballot_vote]
  split
  · rename_i heq
    subst heq
    exact hvoted
  · exact h blockHash

theorem Decided.vote {blockHash : BlockHash} (h : e.Decided votings blockHash) (voted : BlockHash)
    (src : PeerId) (approve : Bool) : e.Decided (e.vote votings voted src approve) blockHash := by
  unfold Decided
  rw [ballot_vote]
  split
  · exact (VotingConsensus.afterVote_voted _ src approve).keeps h
  · exact h

/-- A vote that decides for the block leaves it decided. -/
theorem decided_of_vote {voted : BlockHash} {src : PeerId} {approve : Bool}
    (h : (e.ballot votings voted).voteOutcome src approve = .approved) :
    e.Decided (e.vote votings voted src approve) voted := by
  unfold Decided
  rw [ballot_vote, if_pos rfl]
  obtain ⟨-, hsome⟩ := (VotingConsensus.afterVote_voted (e.ballot votings voted) src
    approve).decides (by rw [h]; simp)
  rw [hsome, h]

end Session

namespace PeerEffects

/-- The services of a voting peer with these ballots. -/
structure Sound (pf : Platform) (e : Session) (votings : Voting.Votings) (effects : PeerEffects) :
    Prop where
  self : effects.peerId = e.self
  known : effects.knownPeers = e.knownPeers
  company : e.knownPeers ≠ []
  fair : ∀ blockHash, (e.ballot votings blockHash).Fair
  participants : ∀ blockHash, (e.ballot votings blockHash).participants = e.peers
  approvals : ∀ blockHash, ∀ q ∈ (e.ballot votings blockHash).approvals,
    e.counted blockHash q ∨ (q = e.self ∧ e.MayApprove effects.blockKeeper blockHash)
  kept : ∀ blockHash, e.approved blockHash →
    e.self ∈ (e.ballot votings blockHash).approvals ∨ effects.Proposed blockHash
  calls : ∀ call ∈ effects.network.calls, ∃ body, call = .broadcast body e.self ∧
    e.Warrants pf votings effects.blockKeeper body
  store : effects.blockKeeper.ChainSound pf (e.Settled votings effects.blockKeeper)
    (effects.blockKeeper.Known e.others)

/-- The block with this hash, if it is staged, extends the tip. -/
def ExtendsTip (k : BlockKeeper) (blockHash : BlockHash) : Prop :=
  ∀ b, k.uncommitedBlocks.lookup blockHash = some b →
    b.previousHash = k.blockStorageState.lastCommitedHash

/-- An effect that touches the block store. -/
def isActive : ConsensusEffect → Bool
  | .stageClientTransaction _ | .proposeBlock _ | .commitBlock _ | .rollbackBlock _ => true
  | _ => false

/-- What an effect of the voting engine has to meet: the peer is asked for what it
    proposes, and what it commits or announces is decided and extends the tip. -/
def Duty (pf : Platform) (e : Session) (votings : Voting.Votings) (effects : PeerEffects) :
    ConsensusEffect → Prop
  | .stageClientTransaction clientTx => e.asked = effects.packedWith pf clientTx
  | .proposeBlock blockHash =>
    ExtendsTip effects.blockKeeper blockHash ∧ e.MayApprove effects.blockKeeper blockHash
  | .commitBlock blockHash => ExtendsTip effects.blockKeeper blockHash ∧ e.Decided votings blockHash
  | .broadcast (.blockApproved blockHash) => e.Decided votings blockHash
  | .broadcast (.blockReject _) | .broadcastClientTransaction _ | .rollbackBlock _ => True
  | _ => False

variable {pf : Platform} {e : Session} {votings votings' : Voting.Votings}
  {effects effects' : PeerEffects}

/-- An effect that does not touch the block store meets its duty everywhere. -/
theorem Duty.of_passive {effect : ConsensusEffect} (hpassive : isActive effect = false)
    (h : Duty pf e votings effects effect)
    (hdecided : ∀ blockHash, e.Decided votings blockHash → e.Decided votings' blockHash) :
    Duty pf e votings' effects' effect := by
  cases effect with
  | stageClientTransaction | proposeBlock | commitBlock | rollbackBlock => cases hpassive
  | broadcast body =>
      cases body with
      | blockApproved blockHash => exact hdecided blockHash h
      | _ => exact h
  | _ => exact h

/-- A network call changes no duty. -/
theorem Duty.of_network {effect : ConsensusEffect} {network : Network}
    (h : Duty pf e votings effects effect) : Duty pf e votings { effects with network } effect := by
  cases effect with
  | broadcast body => cases body <;> exact h
  | _ => exact h

/-- A call that is true to the peer. -/
theorem Sound.call (h : Sound pf e votings effects) {body : MessageBody}
    (hbody : e.Warrants pf votings effects.blockKeeper body) :
    Sound pf e votings
      { effects with network := effects.network.broadcastPeerMessage body effects.peerId } where
  self := h.self
  known := h.known
  company := h.company
  fair := h.fair
  participants := h.participants
  approvals := h.approvals
  kept := fun blockHash happroved => (h.kept blockHash happroved).imp_right
    fun ⟨call, hcall, hproposes⟩ => ⟨call, List.mem_append_left _ hcall, hproposes⟩
  calls := by
    intro call hcall
    rcases List.mem_append.mp hcall with hcall | hcall
    · exact h.calls call hcall
    · rw [List.mem_singleton.mp hcall, h.self]
      exact ⟨body, rfl, hbody⟩
  store := h.store

/-- The block store changes; the blocks packed before stay packed. -/
theorem Sound.keeper (h : Sound pf e votings effects) (hself : effects'.peerId = effects.peerId)
    (hnetwork : effects'.network = effects.network)
    (hcreated : ∀ b ∈ effects.blockKeeper.created, b ∈ effects'.blockKeeper.created)
    (hstore : effects'.blockKeeper.ChainSound pf (e.Settled votings effects'.blockKeeper)
      (effects'.blockKeeper.Known e.others)) : Sound pf e votings effects' where
  self := hself.trans h.self
  known := (congrArg Network.knownPeers hnetwork).trans h.known
  company := h.company
  fair := h.fair
  participants := h.participants
  approvals := fun blockHash q hq => (h.approvals blockHash q hq).imp_right fun hown =>
    ⟨hown.1, hown.2.mono hcreated⟩
  kept := by
    intro blockHash happroved
    rw [Proposed, hnetwork]
    exact h.kept blockHash happroved
  calls := by
    intro call hcall
    rw [hnetwork] at hcall
    obtain ⟨body, heq, hbody⟩ := h.calls call hcall
    exact ⟨body, heq, hbody.mono hcreated fun _ h => h⟩
  store := hstore

/-- A vote that, if it is counted, may be. -/
theorem Sound.vote (h : Sound pf e votings effects) {voted : BlockHash} {src : PeerId}
    {approve : Bool}
    (hsrc : approve = true → (e.ballot votings voted).closedTo src = false →
      e.counted voted src ∨ (src = e.self ∧ e.MayApprove effects.blockKeeper voted)) :
    Sound pf e (e.vote votings voted src approve) effects where
  self := h.self
  known := h.known
  company := h.company
  fair := Session.ballot_vote_keeps (motive := fun _ v => v.Fair) h.fair
    (VotingConsensus.afterVote_fair (h.fair voted) src approve)
  participants := Session.ballot_vote_keeps (motive := fun _ v => v.participants = e.peers)
    h.participants ((VotingConsensus.afterVote_voted _ src approve).participants.trans
      (h.participants voted))
  approvals := by
    refine Session.ballot_vote_keeps (motive := fun blockHash v => ∀ q ∈ v.approvals,
      e.counted blockHash q ∨ (q = e.self ∧ e.MayApprove effects.blockKeeper blockHash))
      h.approvals ?_
    intro q hq
    rcases VotingConsensus.approver_afterVote hq with hold | ⟨rfl, hyes, hopen⟩
    · exact h.approvals voted q hold
    · exact hsrc hyes hopen
  kept := Session.ballot_vote_keeps (motive := fun blockHash v => e.approved blockHash →
      e.self ∈ v.approvals ∨ effects.Proposed blockHash) h.kept fun happroved =>
    (h.kept voted happroved).imp_left fun hmem =>
      (VotingConsensus.afterVote_voted _ src approve).approvals hmem
  calls := by
    intro call hcall
    obtain ⟨body, heq, hbody⟩ := h.calls call hcall
    exact ⟨body, heq, hbody.mono (fun _ hb => hb) fun _ hdecided => hdecided.vote voted src approve⟩
  store := h.store.mono (fun _ hb => ⟨hb.1, hb.2.vote voted src approve⟩) fun _ hb => hb

/-- Among others that have packed and approved more. -/
theorem Sound.among {e' : Session} (h : Sound pf e votings effects) (hself : e'.self = e.self)
    (hknown : e'.knownPeers = e.knownPeers)
    (hothers : ∀ b, effects.blockKeeper.Known e.others b → effects.blockKeeper.Known e'.others b)
    (hcounted : ∀ blockHash q, e.counted blockHash q → e'.counted blockHash q)
    (happroved : ∀ blockHash, e'.approved blockHash ↔
      e.self ∈ (e.ballot votings blockHash).approvals ∨ effects.Proposed blockHash) :
    Sound pf e' votings effects := by
  have hballot : e'.ballot votings = e.ballot votings := by
    unfold Session.ballot
    rw [hself, hknown]
  have hpeers : e'.peers = e.peers := by rw [Session.peers, hself, hknown, Session.peers]
  have hdecided : e'.Decided votings = e.Decided votings := by
    unfold Session.Decided
    rw [hballot]
  refine ⟨hself ▸ h.self, hknown ▸ h.known, hknown ▸ h.company, ?_, ?_, ?_, ?_, ?_, ?_⟩
  · rw [hballot]
    exact h.fair
  · rw [hballot, hpeers]
    exact h.participants
  · rw [hballot, hself]
    intro blockHash q hq
    rcases h.approvals blockHash q hq with hold | ⟨rfl, -⟩
    · exact Or.inl (hcounted blockHash q hold)
    · exact Or.inr ⟨rfl, Or.inl ((happroved blockHash).mpr (Or.inl hq))⟩
  · rw [hballot, hself]
    exact fun blockHash => (happroved blockHash).mp
  · intro call hcall
    obtain ⟨body, rfl, hbody⟩ := h.calls call hcall
    refine ⟨body, by rw [hself], ?_⟩
    cases body with
    | blockProposal blockHash blockFile signature publicKey =>
        obtain ⟨⟨b, hencoded, hb⟩, -⟩ := hbody
        refine ⟨⟨b, hencoded, hothers b hb⟩, Or.inl ((happroved blockHash).mpr (Or.inr ?_))⟩
        exact ⟨_, hcall, by simp [NetworkCall.body, MessageBody.proposes]⟩
    | blockApproved blockHash =>
        show e'.Decided votings blockHash
        rw [hdecided]
        exact hbody
    | _ => trivial
  · refine h.store.mono (fun b hb => ⟨hothers b hb.1, ?_⟩) hothers
    rw [hdecided]
    exact hb.2

/-- The peer's own approvals are those it may give. -/
theorem Sound.mayApprove (h : Sound pf e votings effects)
    (hself : ∀ blockHash, ¬ e.counted blockHash e.self) {blockHash : BlockHash}
    (happroved : e.self ∈ (e.ballot votings blockHash).approvals ∨ effects.Proposed blockHash) :
    e.MayApprove effects.blockKeeper blockHash := by
  rcases happroved with hmem | ⟨call, hcall, hproposes⟩
  · rcases h.approvals blockHash e.self hmem with hcounted | ⟨-, hmay⟩
    · exact absurd hcounted (hself blockHash)
    · exact hmay
  · obtain ⟨body, rfl, hbody⟩ := h.calls call hcall
    cases body with
    | blockProposal proposed blockFile signature publicKey =>
        simp only [NetworkCall.body, MessageBody.proposes, beq_iff_eq] at hproposes
        exact hproposes ▸ hbody.2
    | _ => cases hproposes

/-- Packing keeps the services sound. -/
theorem Sound.packs (h : Sound pf e votings effects)
    (hpacks : BlockKeeper.Packs pf effects.blockKeeper effects'.blockKeeper)
    (hself : effects'.peerId = effects.peerId) (hnetwork : effects'.network = effects.network) :
    Sound pf e votings effects' := by
  refine h.keeper hself hnetwork (fun b hb => hpacks.mem_created hb) ?_
  have hknown : ∀ b, effects.blockKeeper.Known e.others b →
      effects'.blockKeeper.Known e.others b := fun b hb => hb.imp_right hpacks.mem_created
  exact (h.store.mono (fun b hb => ⟨hknown b hb.1, hb.2⟩) hknown).packs hpacks fun b hb => Or.inr hb

-- ============================================================================
-- One effect
-- ============================================================================

/-- Staging a transaction packs the block it completes, if any. -/
theorem stageClientTransaction_packs (pf : Platform) (effects : PeerEffects)
    (clientTx : SignedTransaction) :
    let staged := effects.stageClientTransaction pf clientTx
    BlockKeeper.Packs pf effects.blockKeeper staged.1.blockKeeper ∧
      staged.1.peerId = effects.peerId ∧ staged.1.network = effects.network ∧
      ∀ blockHash, staged.2 = .ok (.newBlockCreated blockHash) →
        ExtendsTip staged.1.blockKeeper blockHash ∧
          ∃ b ∈ staged.1.blockKeeper.created,
            effects.packedWith pf clientTx = some b ∧ b.hash = blockHash := by
  simp only [stageClientTransaction, packedWith]
  rcases clientTx.verify pf with e | _
  · exact ⟨.refl pf _, rfl, rfl, fun _ hok => by cases hok⟩
  rcases effects.transactionProcessor.processTransaction clientTx with ⟨transactionProcessor, e | _⟩
  · exact ⟨.refl pf _, rfl, rfl, fun _ hok => by cases hok⟩
  · refine ⟨BlockKeeper.addTransaction_packs pf effects.blockKeeper clientTx, rfl, rfl, ?_⟩
    intro blockHash hok
    simp only [Except.ok.injEq] at hok
    obtain ⟨block, hhash, hmem, hstaged, hparent⟩ := BlockKeeper.addTransaction_created hok
    refine ⟨?_, ?_⟩
    · intro b hlookup
      rw [hstaged] at hlookup
      cases hlookup
      rw [(BlockKeeper.addTransaction_packs pf effects.blockKeeper clientTx).state]
      exact hparent
    · -- The mempool is full, so the block that is packed is the one that was to be.
      simp only [BlockKeeper.addTransaction] at hok ⊢
      split at hok
      · rename_i hfull
        simp only [if_pos hfull]
        cases hok
        exact ⟨_, List.mem_append_right _ (List.mem_singleton_self _), rfl, rfl⟩
      · cases hok

/-- The keeper after a commit of a decided block on the tip. -/
theorem commitKeeper_sound (h : Sound pf e votings effects) {blockHash : BlockHash}
    (hextends : ExtendsTip effects.blockKeeper blockHash) (hdecided : e.Decided votings blockHash)
    {next : PeerEffects} (hself : next.peerId = effects.peerId)
    (hnetwork : next.network = effects.network)
    (hkeeper : next.blockKeeper = (effects.blockKeeper.commitBlock pf blockHash).1) :
    Sound pf e votings next ∧ next.blockKeeper.created = effects.blockKeeper.created := by
  cases hlookup : effects.blockKeeper.uncommitedBlocks.lookup blockHash with
  | none =>
      have hsame : next.blockKeeper = effects.blockKeeper := by
        rw [hkeeper, BlockKeeper.commitBlock, hlookup]
      refine ⟨h.keeper hself hnetwork ?_ ?_, by rw [hsame]⟩
      · rw [hsame]
        exact fun _ hb => hb
      · rw [hsame]
        exact h.store
  | some block =>
      obtain ⟨-, hcommits⟩ := BlockKeeper.commitBlock_commits pf hlookup (h.store.writable _)
      rw [← hkeeper] at hcommits
      have hknown : next.blockKeeper.Known e.others = effects.blockKeeper.Known e.others := by
        unfold BlockKeeper.Known
        rw [hcommits.created]
      refine ⟨h.keeper hself hnetwork ?_ ?_, hcommits.created⟩
      · rw [hcommits.created]
        exact fun _ hb => hb
      · unfold Session.Settled
        rw [hknown]
        obtain ⟨hhash, hblock⟩ := h.store.staged blockHash block hlookup
        exact h.store.commits hlookup hcommits (hextends block hlookup) ⟨hblock, hhash ▸ hdecided⟩

theorem commitBlock_sound (h : Sound pf e votings effects) {blockHash : BlockHash}
    (hextends : ExtendsTip effects.blockKeeper blockHash)
    (hdecided : e.Decided votings blockHash) :
    Sound pf e votings (effects.commitBlock pf blockHash).1 ∧
      (effects.commitBlock pf blockHash).1.blockKeeper.created = effects.blockKeeper.created := by
  unfold commitBlock
  split
  · rename_i k hk
    exact commitKeeper_sound h hextends hdecided rfl rfl (by rw [hk])
  · rename_i k error hk
    exact commitKeeper_sound h hextends hdecided rfl rfl (by rw [hk])

/-- The transactions of a block that is rolled back may be packed again. -/
theorem rollbackBlock_sound (h : Sound pf e votings effects) (blockHash : BlockHash) :
    Sound pf e votings (effects.rollbackBlock pf blockHash).1 ∧
      ∀ b ∈ effects.blockKeeper.created,
        b ∈ (effects.rollbackBlock pf blockHash).1.blockKeeper.created := by
  have hmain : ∀ effects' : PeerEffects, effects'.peerId = effects.peerId →
      effects'.network = effects.network →
      effects'.blockKeeper = (effects.blockKeeper.rollbackBlock pf blockHash).1 →
      Sound pf e votings effects' ∧
        ∀ b ∈ effects.blockKeeper.created, b ∈ effects'.blockKeeper.created := by
    intro effects' hself hnetwork hkeeper
    rcases BlockKeeper.rollbackBlock_cases pf effects.blockKeeper blockHash with
      ⟨-, error, heq⟩ | ⟨block, -, -, hpacks⟩
    · rw [heq] at hkeeper
      have hcreated : ∀ b ∈ effects.blockKeeper.created, b ∈ effects'.blockKeeper.created := by
        rw [hkeeper]
        exact fun _ hb => hb
      refine ⟨h.keeper hself hnetwork hcreated ?_, hcreated⟩
      rw [hkeeper]
      exact h.store
    · rw [← hkeeper] at hpacks
      -- Without the block the services are sound, and then its transactions are packed.
      have herased : Sound pf e votings
          { effects with
            blockKeeper := { effects.blockKeeper with
              uncommitedBlocks := effects.blockKeeper.uncommitedBlocks.erase blockHash } } :=
        h.keeper rfl rfl (fun _ hb => hb) (h.store.erase blockHash)
      exact ⟨herased.packs hpacks hself hnetwork, fun b hb => hpacks.mem_created hb⟩
  unfold rollbackBlock
  split
  · rename_i hnone
    have hnone' : effects.blockKeeper.uncommitedBlocks.lookup blockHash = none := hnone
    exact hmain _ rfl rfl (by rw [BlockKeeper.rollbackBlock, hnone'])
  · dsimp only
    split
    · rename_i k error hk
      exact hmain _ rfl rfl (by rw [hk])
    · rename_i k hk
      exact hmain _ rfl rfl (by rw [hk])

/-- Proposing a block to the others; the block store stays as it is. -/
theorem broadcastBlockProposal_sound (pf : Platform) {effects : PeerEffects}
    (h : Sound pf e votings effects) {blockHash : BlockHash}
    (hmay : e.MayApprove effects.blockKeeper blockHash) :
    let proposed := effects.broadcastBlockProposal pf blockHash
    Sound pf e votings proposed.1 ∧ proposed.1.blockKeeper = effects.blockKeeper ∧
      proposed.2 = .ok (some e.knownPeers) := by
  have hcompany : effects.knownPeers.isEmpty = false := by
    rw [h.known]
    simpa using h.company
  simp only [broadcastBlockProposal, hcompany, Bool.false_eq_true, if_false,
    BlockKeeper.getUncommitedBlock]
  cases hstaged : effects.blockKeeper.uncommitedBlocks.lookup blockHash with
  | none => exact ⟨h, rfl, by rw [h.known]⟩
  | some block =>
      refine ⟨h.call ⟨⟨block, rfl, (h.store.staged blockHash block hstaged).2⟩, hmay⟩, rfl, ?_⟩
      rw [h.known]

-- ============================================================================
-- A batch of effects
-- ============================================================================

/-- The effects of a vote; what it decides for has to extend the tip. -/
theorem outcomeEffects_duties (pf : Platform) (votings : Voting.Votings) {effects : PeerEffects}
    {voted : BlockHash} {src : PeerId} {approve : Bool}
    (hextends : (e.ballot votings voted).voteOutcome src approve = .approved →
      ExtendsTip effects.blockKeeper voted) :
    (∀ effect ∈ Voting.outcomeEffects voted ((e.ballot votings voted).voteOutcome src approve),
        Duty pf e (e.vote votings voted src approve) effects effect) ∧
      (Voting.outcomeEffects voted ((e.ballot votings voted).voteOutcome src approve)).countP
        isActive ≤ 1 := by
  have hdecided := @Session.decided_of_vote e votings voted src approve
  cases houtcome : (e.ballot votings voted).voteOutcome src approve with
  | pending => exact ⟨fun _ hmem => absurd hmem List.not_mem_nil, Nat.zero_le 1⟩
  | approved =>
      rw [houtcome] at hextends hdecided
      refine ⟨?_, Nat.le_refl 1⟩
      intro effect hmem
      simp only [Voting.outcomeEffects, List.mem_cons, List.not_mem_nil, or_false] at hmem
      rcases hmem with rfl | rfl
      · exact ⟨hextends rfl, hdecided rfl⟩
      · exact hdecided rfl
  | rejected =>
      refine ⟨?_, Nat.le_refl 1⟩
      intro effect hmem
      simp only [Voting.outcomeEffects, List.mem_cons, List.not_mem_nil, or_false] at hmem
      rcases hmem with rfl | rfl <;> trivial

/-- Where a batch of a voting peer stands that had packed `start`: the services are
    sound, every queued effect meets its duty, and at most one of them touches the
    block store. -/
structure Deliberates (pf : Platform) (e : Session) (start : List BlockFile) (b : Batch) :
    Prop where
  voting : ∃ votings, b.consensus = .voting e.self votings ∧ Sound pf e votings b.effects ∧
    ∀ effect ∈ b.queue, Duty pf e votings b.effects effect
  kept : ∀ block ∈ start, block ∈ b.effects.blockKeeper.created
  active : b.queue.countP isActive ≤ 1

/-- A turn of an effect that touches the block store: nothing else that is queued
    does, so only what it queues itself has to be looked at. -/
theorem Deliberates.turn_active {start : List BlockFile} {b : Batch} {effect : ConsensusEffect}
    {rest : List ConsensusEffect} (h : Deliberates pf e start { b with queue := effect :: rest })
    (hactive : isActive effect = true)
    (hkept : ∀ block ∈ b.effects.blockKeeper.created,
      block ∈ (b.effects.executeEffect pf b.consensus effect).effects.blockKeeper.created)
    (hcount : (b.effects.executeEffect pf b.consensus effect).queued.countP isActive ≤ 1)
    (hvoting : ∀ votings, b.consensus = .voting e.self votings → Sound pf e votings b.effects →
      Duty pf e votings b.effects effect → ∃ votings',
        (b.effects.executeEffect pf b.consensus effect).consensus = .voting e.self votings' ∧
        (∀ blockHash, e.Decided votings blockHash → e.Decided votings' blockHash) ∧
        Sound pf e votings' (b.effects.executeEffect pf b.consensus effect).effects ∧
        ∀ queued ∈ (b.effects.executeEffect pf b.consensus effect).queued,
          Duty pf e votings' (b.effects.executeEffect pf b.consensus effect).effects queued) :
    Deliberates pf e start ({ b with queue := rest }.turn pf effect) := by
  have hrest : rest.countP isActive = 0 := by
    have := h.active
    rw [List.countP_cons_of_pos hactive] at this
    omega
  obtain ⟨votings, hconsensus, hsound, hduties⟩ := h.voting
  obtain ⟨votings', hconsensus', hdecided, hsound', hqueued⟩ :=
    hvoting votings hconsensus hsound (hduties effect List.mem_cons_self)
  refine ⟨⟨votings', hconsensus', hsound', ?_⟩, fun block hb => hkept block (h.kept block hb), ?_⟩
  · intro queued hmem
    rcases List.mem_append.mp hmem with hmem | hmem
    · have hpassive : isActive queued = false := by
        simpa using List.countP_eq_zero.mp hrest queued hmem
      exact (hduties queued (List.mem_cons_of_mem effect hmem)).of_passive hpassive hdecided
    · exact hqueued queued hmem
  · show (rest ++ _).countP isActive ≤ 1
    rw [List.countP_append, hrest, Nat.zero_add]
    exact hcount

/-- A turn of an effect that only tells the others something. -/
theorem Deliberates.turn_call {start : List BlockFile} {b : Batch} {effect : ConsensusEffect}
    {rest : List ConsensusEffect} (h : Deliberates pf e start { b with queue := effect :: rest })
    (body : MessageBody)
    (hbody : ∀ votings, Sound pf e votings b.effects → Duty pf e votings b.effects effect →
      e.Warrants pf votings b.effects.blockKeeper body)
    (hexecuted : b.effects.executeEffect pf b.consensus effect =
      { effects := { b.effects with
          network := b.effects.network.broadcastPeerMessage body b.effects.peerId }
        consensus := b.consensus, queued := [], result := .ok () }) :
    Deliberates pf e start ({ b with queue := rest }.turn pf effect) := by
  obtain ⟨votings, hconsensus, hsound, hduties⟩ := h.voting
  have hcall := hsound.call (hbody votings hsound (hduties effect List.mem_cons_self))
  simp only [Batch.turn, hexecuted, List.append_nil]
  refine ⟨⟨votings, hconsensus, hcall, ?_⟩, h.kept, ?_⟩
  · intro queued hmem
    exact (hduties queued (List.mem_cons_of_mem effect hmem)).of_network
  · have := h.active
    rw [List.countP_cons] at this
    show rest.countP isActive ≤ 1
    omega

/-- Staging a transaction; a block it completes is proposed. -/
theorem Deliberates.turn_stageClientTransaction {start : List BlockFile} {b : Batch}
    {clientTx : SignedTransaction} {rest : List ConsensusEffect}
    (h : Deliberates pf e start { b with queue := .stageClientTransaction clientTx :: rest }) :
    Deliberates pf e start
      ({ b with queue := rest }.turn pf (.stageClientTransaction clientTx)) := by
  obtain ⟨votings₀, hconsensus₀, -⟩ := h.voting
  dsimp only at hconsensus₀
  obtain ⟨hpacks, hself, hnetwork, hcreated⟩ :=
    stageClientTransaction_packs pf b.effects clientTx
  obtain ⟨heffects, hsame, hqueued⟩ := executeEffect_stageClientTransaction pf b.effects e.self
    votings₀ clientTx
  rw [← hconsensus₀] at heffects hsame hqueued
  rw [← heffects] at hpacks hself hnetwork hcreated
  apply h.turn_active rfl fun block hb => hpacks.mem_created hb
  · rcases hqueued with hnone | ⟨blockHash, -, hproposes⟩
    · exact le_of_eq_of_le (congrArg _ hnone) (Nat.zero_le 1)
    · exact le_of_eq_of_le (congrArg _ hproposes) (Nat.le_refl 1)
  · intro votings hconsensus hsound hduty
    refine ⟨votings, hsame.trans hconsensus, fun _ hb => hb,
      hsound.packs hpacks hself hnetwork, ?_⟩
    rcases hqueued with hnone | ⟨blockHash, hresult, hproposes⟩
    · rw [hnone]
      exact fun _ hmem => absurd hmem List.not_mem_nil
    · rw [hproposes]
      intro queued hmem
      rw [List.mem_singleton.mp hmem]
      obtain ⟨hextends, block, hmem, hpacked, hhash⟩ := hcreated blockHash hresult
      exact ⟨hextends, Or.inr ⟨block, hduty.trans hpacked, hhash, Or.inr hmem⟩⟩

/-- Proposing a block, and the peer's own vote for it. -/
theorem Deliberates.turn_proposeBlock {start : List BlockFile} {b : Batch} {blockHash : BlockHash}
    {rest : List ConsensusEffect}
    (h : Deliberates pf e start { b with queue := .proposeBlock blockHash :: rest }) :
    Deliberates pf e start ({ b with queue := rest }.turn pf (.proposeBlock blockHash)) := by
  obtain ⟨votings, hconsensus, hsound, hduties⟩ := h.voting
  dsimp only at hconsensus hsound hduties
  obtain ⟨hextends, hmay⟩ := hduties (.proposeBlock blockHash) List.mem_cons_self
  obtain ⟨hproposed, hsame, hresult⟩ := broadcastBlockProposal_sound pf hsound hmay
  have hexecuted : b.effects.executeEffect pf b.consensus (.proposeBlock blockHash) =
      { effects := (b.effects.broadcastBlockProposal pf blockHash).1
        consensus := .voting e.self (e.vote votings blockHash e.self true)
        queued := Voting.outcomeEffects blockHash
          ((e.ballot votings blockHash).voteOutcome e.self true)
        result := .ok () } := by
    rw [hconsensus, Session.ballot, ← Voting.handleVotingVote_effects, Session.vote]
    simp only [executeEffect]
    rcases hbroadcast : b.effects.broadcastBlockProposal pf blockHash with ⟨proposed, result⟩
    rw [hbroadcast] at hresult
    cases hresult
    rfl
  have hextends' : (e.ballot votings blockHash).voteOutcome e.self true = .approved →
      ExtendsTip (b.effects.broadcastBlockProposal pf blockHash).1.blockKeeper blockHash := by
    rw [hsame]
    exact fun _ => hextends
  have hqueued := outcomeEffects_duties pf votings hextends'
  apply h.turn_active rfl
  · rw [hexecuted, hsame]
    exact fun _ hb => hb
  · rw [hexecuted]
    exact hqueued.2
  · intro votings' hconsensus' _ _
    cases hconsensus.symm.trans hconsensus'
    rw [hexecuted]
    refine ⟨_, rfl, fun _ hdecided => hdecided.vote blockHash e.self true, ?_, hqueued.1⟩
    exact hproposed.vote fun _ _ => Or.inr ⟨rfl, by rw [hsame]; exact hmay⟩

/-- Every turn keeps the batch as it should be. -/
theorem Deliberates.turn {start : List BlockFile} (b : Batch) (effect : ConsensusEffect)
    (rest : List ConsensusEffect)
    (h : Deliberates pf e start { b with queue := effect :: rest }) :
    Deliberates pf e start ({ b with queue := rest }.turn pf effect) := by
  cases effect with
  | stageClientTransaction clientTx => exact h.turn_stageClientTransaction
  | proposeBlock blockHash => exact h.turn_proposeBlock
  | commitBlock blockHash =>
      obtain ⟨votings₀, hconsensus₀, hsound₀, hduties⟩ := h.voting
      obtain ⟨hextends, hdecided⟩ := hduties (.commitBlock blockHash) List.mem_cons_self
      refine h.turn_active rfl ?_ (Nat.zero_le 1) ?_
      · exact fun block hb => (commitBlock_sound hsound₀ hextends hdecided).2 ▸ hb
      · intro votings hconsensus hsound hduty
        exact ⟨votings, hconsensus, fun _ hb => hb, (commitBlock_sound hsound hduty.1 hduty.2).1,
          fun _ hmem => absurd hmem List.not_mem_nil⟩
  | rollbackBlock blockHash =>
      obtain ⟨votings₀, -, hsound₀, -⟩ := h.voting
      refine h.turn_active rfl (rollbackBlock_sound hsound₀ blockHash).2 (Nat.zero_le 1) ?_
      intro votings hconsensus hsound _
      exact ⟨votings, hconsensus, fun _ hb => hb, (rollbackBlock_sound hsound blockHash).1,
        fun _ hmem => absurd hmem List.not_mem_nil⟩
  | broadcastClientTransaction clientTx =>
      exact h.turn_call (.synchronization (.new pf clientTx b.effects.signingKey))
        (fun _ _ _ => trivial) rfl
  | broadcast body =>
      refine h.turn_call body ?_ rfl
      intro votings _ hduty
      cases body with
      | blockApproved blockHash => exact hduty
      | blockReject blockHash => trivial
      | _ => exact hduty.elim
  | stageRaftEntries | sendRaftAppendEntries | send =>
      obtain ⟨_, -, -, hduties⟩ := h.voting
      exact (hduties _ List.mem_cons_self).elim

end PeerEffects

-- ============================================================================
-- A message
-- ============================================================================

/-- What a message says has to be true of its sender. -/
def Session.Trusts (pf : Platform) (e : Session) (k : BlockKeeper) (message : Message) : Prop :=
  match message.body with
  | .blockProposal blockHash blockFile _ _ =>
    (∃ b, blockFile = pf.encodeBlock b ∧ k.Known e.others b) ∧ e.counted blockHash message.from
  | .blockApproved blockHash => e.counted blockHash message.from
  | _ => True

namespace Peer

/-- A voting peer in its surroundings. -/
def Sound (pf : Platform) (e : Session) (p : Peer) : Prop :=
  ∃ votings, p.consensus = .voting e.self votings ∧ PeerEffects.Sound pf e votings p.effects

variable {pf : Platform} {e : Session} {p : Peer} {votings : Voting.Votings}

/-- The peer is sound and has not forgotten a block it packed. -/
def SoundAfter (pf : Platform) (e : Session) (p p' : Peer) : Prop :=
  p'.Sound pf e ∧ ∀ b ∈ p.effects.blockKeeper.created, b ∈ p'.effects.blockKeeper.created

theorem Sound.refl (h : p.Sound pf e) : SoundAfter pf e p p := ⟨h, fun _ hb => hb⟩

/-- Executing what the voting engine asks for. -/
theorem answer_sound (p : Peer) (h : PeerEffects.Sound pf e votings p.effects)
    {queue : List ConsensusEffect}
    (hduties : ∀ effect ∈ queue, PeerEffects.Duty pf e votings p.effects effect)
    (hactive : queue.countP PeerEffects.isActive ≤ 1) :
    SoundAfter pf e p (p.answer pf (.voting e.self votings, .ok queue)).1 := by
  have hstart : PeerEffects.Deliberates pf e p.effects.blockKeeper.created
      { effects := p.effects, consensus := .voting e.self votings, queue, errors := [] } :=
    ⟨⟨votings, rfl, h, hduties⟩, fun _ hb => hb, hactive⟩
  obtain ⟨b, hb, -, hall⟩ := PeerEffects.executeAll_preserves PeerEffects.Deliberates.turn hstart
  obtain ⟨votings', hconsensus, hsound, -⟩ := hb.voting
  obtain ⟨heffects, hengine⟩ := answer_ok pf p (.voting e.self votings) queue
  rw [hall] at heffects hengine
  refine ⟨⟨votings', hengine.trans hconsensus, ?_⟩, ?_⟩
  · rw [heffects]
    exact hsound
  · rw [heffects]
    exact hb.kept

/-- Executing what a vote decides. -/
theorem vote_sound (p : Peer) (h : PeerEffects.Sound pf e votings p.effects) {voted : BlockHash}
    {src : PeerId} {approve : Bool}
    (hsrc : approve = true → (e.ballot votings voted).closedTo src = false →
      e.counted voted src ∨ (src = e.self ∧ e.MayApprove p.effects.blockKeeper voted))
    (hextends : (e.ballot votings voted).voteOutcome src approve = .approved →
      PeerEffects.ExtendsTip p.effects.blockKeeper voted) :
    SoundAfter pf e p (p.answer pf (ConsensusEngine.ofVoting e.self
      (Voting.handleVotingVote e.self votings e.knownPeers voted src approve))).1 := by
  obtain ⟨hduties, hactive⟩ := PeerEffects.outcomeEffects_duties pf votings hextends
  rw [Session.handleVotingVote_eq]
  exact answer_sound p (h.vote hsrc) hduties hactive

/-- The peer's ballot, in its surroundings. -/
theorem ballotOf_eq (hconsensus : p.consensus = .voting e.self votings)
    (h : PeerEffects.Sound pf e votings p.effects) (blockHash : BlockHash) :
    p.ballotOf blockHash = e.ballot votings blockHash := by
  rw [ballotOf, hconsensus, Session.ballot, ← h.known]

/-- What the peer has approved, in its surroundings. -/
theorem approves_iff (hconsensus : p.consensus = .voting e.self votings)
    (h : PeerEffects.Sound pf e votings p.effects) (blockHash : BlockHash) :
    p.Approves blockHash ↔
      e.self ∈ (e.ballot votings blockHash).approvals ∨ p.effects.Proposed blockHash := by
  rw [Approves, ballotOf_eq hconsensus h, h.self]

/-- The approvals a message brings complete a quorum: the block extends the tip. -/
theorem CommitsInOrder.extends {message : Message} (horder : p.CommitsInOrder pf message)
    (hconsensus : p.consensus = .voting e.self votings)
    (h : PeerEffects.Sound pf e votings p.effects) {blockHash : BlockHash}
    (hmem : message.body.approvedBlock = some blockHash)
    (hopen : (e.ballot votings blockHash).outcome = none) {approvals : Finset PeerId}
    (hquorum : 2 * VotingConsensus.faultBound e.peers.card + 1 ≤ approvals.card)
    (happrovals : ∀ q ∈ approvals, q ∈ (e.ballot votings blockHash).approvals ∨
      (q ∈ p.approvers pf message ∧ q ∉ (e.ballot votings blockHash).rejections))
    {b : BlockFile}
    (hb : b ∈ (p.effects.blockKeeper.uncommitedBlocks.lookup blockHash).or
      (p.stageable pf message.body)) :
    b.previousHash = p.effects.blockKeeper.blockStorageState.lastCommitedHash := by
  have hblock := horder blockHash hmem
  rw [ballotOf_eq hconsensus h, h.participants] at hblock
  refine hblock hopen (hquorum.trans (Finset.card_le_card ?_)) b hb
  intro q hq
  rcases happrovals q hq with hold | ⟨hnew, hrej⟩
  · exact Finset.mem_union_left _ hold
  · exact Finset.mem_union_right _ (Finset.mem_sdiff.mpr ⟨hnew, hrej⟩)

theorem mem_approvers_src (pf : Platform) (p : Peer) (message : Message) :
    message.from ∈ p.approvers pf message := by
  unfold approvers
  split
  · exact Finset.mem_insert_self _ _
  · exact Finset.mem_singleton_self _

/-- A ballot that the sender's approval decides. -/
theorem quorum_of_src (h : PeerEffects.Sound pf e votings p.effects) {message : Message}
    {blockHash : BlockHash} {approve : Bool}
    (happroved : (e.ballot votings blockHash).voteOutcome message.from approve = .approved) :
    (e.ballot votings blockHash).outcome = none ∧
      2 * VotingConsensus.faultBound e.peers.card + 1 ≤
        ((e.ballot votings blockHash).afterVote message.from approve).approvals.card ∧
      ∀ q ∈ ((e.ballot votings blockHash).afterVote message.from approve).approvals,
        q ∈ (e.ballot votings blockHash).approvals ∨
          (q ∈ p.approvers pf message ∧ q ∉ (e.ballot votings blockHash).rejections) := by
  refine ⟨?_, ?_, ?_⟩
  · exact ((VotingConsensus.afterVote_voted _ _ _).decides (by rw [happroved]; simp)).1
  · have hquorum := VotingConsensus.quorum_of_approves (h.fair blockHash).undecided happroved
    rwa [h.participants] at hquorum
  · intro q hq
    refine (VotingConsensus.approver_afterVote hq).imp_right ?_
    rintro ⟨rfl, -, hopen⟩
    exact ⟨mem_approvers_src pf p message, (VotingConsensus.closedTo_eq_false.mp hopen).2.1⟩

theorem processBlockVote_sound (h : p.Sound pf e) {message : Message} {blockHash : BlockHash}
    {approve : Bool} (htrusts : approve = true → e.counted blockHash message.from)
    (hmem : approve = true → message.body.approvedBlock = some blockHash)
    (horder : p.CommitsInOrder pf message) :
    SoundAfter pf e p (p.processBlockVote pf blockHash message.from approve).1 := by
  have hsame := h.refl
  obtain ⟨votings, hconsensus, hsound⟩ := h
  unfold processBlockVote
  split
  · exact hsame
  · split
    · exact hsame
    · rw [hconsensus, hsound.known]
      apply vote_sound p hsound fun hyes _ => Or.inl (htrusts hyes)
      intro happroved b hlookup
      have hyes : approve = true := by
        by_contra hno
        rw [Bool.not_eq_true] at hno
        subst hno
        exact VotingConsensus.voteOutcome_false_ne_approved (hsound.fair blockHash).undecided _
          happroved
      obtain ⟨hopen, hquorum, happrovals⟩ := quorum_of_src (p := p) hsound happroved
      exact horder.extends hconsensus hsound (hmem hyes) hopen hquorum happrovals
        (by rw [hlookup]; exact rfl)

/-- The peer's own check of a proposal: it changes nothing, or stages the block. -/
theorem validateProposal_cases (pf : Platform) (p : Peer) (blockHash : BlockHash)
    (blockFile : Bytes) (signature : Signature) (publicKey : VerifyingKey) :
    p.validateProposal pf blockHash blockFile signature publicKey = (p.effects, .ok false) ∨
      ∃ block blockKeeper,
        p.stageable pf (.blockProposal blockHash blockFile signature publicKey) = some block ∧
        block.hash = blockHash ∧ pf.decodeBlock blockFile = .ok block ∧
        block.hash ∉ p.effects.blockKeeper.uncommitedBlocks ∧
        BlockKeeper.Stages p.effects.blockKeeper blockKeeper block ∧
        p.validateProposal pf blockHash blockFile signature publicKey =
          ({ p.effects.applyBlockTransactions block with blockKeeper }, .ok true) := by
  simp only [validateProposal, stageable]
  cases hverify : BlockFile.verifyBlockVec pf blockHash blockFile signature publicKey with
  | error error => exact Or.inl rfl
  | ok block =>
      obtain ⟨hhash, hblock⟩ := BlockFile.verifyBlockVec_ok hverify
      have hdecode := BlockFile.decodeBlock_of_verifyBlockVec hverify
      simp only [PeerEffects.stageExternalBlock]
      cases hadd : p.effects.blockKeeper.blockCanBeAdded block with
      | false => exact Or.inl rfl
      | true =>
          have hnew : block.hash ∉ p.effects.blockKeeper.uncommitedBlocks := by
            intro hmem
            simp [BlockKeeper.blockCanBeAdded, hmem] at hadd
          have hstages := BlockKeeper.addExternalBlock_stages
            (p.effects.applyBlockTransactions block).blockKeeper hblock
          rcases BlockKeeper.addExternalBlock_cases pf
            (p.effects.applyBlockTransactions block).blockKeeper block with
            ⟨error, herror, -⟩ | ⟨-, hok, -⟩
          · rw [hblock] at herror
            cases herror
          · refine Or.inr ⟨block, _, rfl, hhash, hdecode, hnew, hstages, ?_⟩
            rcases hresult : (p.effects.applyBlockTransactions block).blockKeeper.addExternalBlock
              pf block with ⟨blockKeeper, result⟩
            rw [hresult] at hok
            cases hok
            rfl

/-- After the check the services are sound, a block that is approved is known, and
    what is staged under the hash was, or came with the proposal. -/
theorem validateProposal_sound (hpf : pf.Lawful) (h : PeerEffects.Sound pf e votings p.effects)
    {blockHash : BlockHash} {blockFile : Bytes} {signature : Signature} {publicKey : VerifyingKey}
    (hknown : ∃ b, blockFile = pf.encodeBlock b ∧ p.effects.blockKeeper.Known e.others b)
    {effects : PeerEffects} {isOk : Bool}
    (hvalidate : p.validateProposal pf blockHash blockFile signature publicKey =
      (effects, .ok isOk)) :
    PeerEffects.Sound pf e votings effects ∧
      effects.blockKeeper.created = p.effects.blockKeeper.created ∧
      effects.blockKeeper.blockStorageState = p.effects.blockKeeper.blockStorageState ∧
      (isOk = true → ∃ b,
        p.stageable pf (.blockProposal blockHash blockFile signature publicKey) = some b ∧
        b.hash = blockHash ∧ effects.blockKeeper.Known e.others b) ∧
      ∀ b, effects.blockKeeper.uncommitedBlocks.lookup blockHash = some b →
        b ∈ (p.effects.blockKeeper.uncommitedBlocks.lookup blockHash).or
          (p.stageable pf (.blockProposal blockHash blockFile signature publicKey)) := by
  rcases validateProposal_cases pf p blockHash blockFile signature publicKey with
    heq | ⟨block, blockKeeper, hstageable, hhash, hdecode, hnew, hstages, heq⟩
  · cases hvalidate.symm.trans heq
    refine ⟨h, rfl, rfl, ?_, ?_⟩
    · intro hyes
      cases hyes
    · intro b hlookup
      rw [hlookup]
      exact rfl
  · cases hvalidate.symm.trans heq
    obtain ⟨b, rfl, hknown⟩ := hknown
    rw [hpf.decode_encodeBlock] at hdecode
    obtain rfl := Except.ok.inj hdecode
    subst hhash
    have hsame : blockKeeper.Known e.others = p.effects.blockKeeper.Known e.others := by
      unfold BlockKeeper.Known
      rw [hstages.created]
    refine ⟨h.keeper rfl rfl (fun _ hb => ?_) ?_, hstages.created, hstages.state,
      fun _ => ⟨b, hstageable, rfl, ?_⟩, ?_⟩
    · rw [hstages.created]
      exact hb
    · unfold Session.Settled
      rw [hsame]
      exact h.store.stages hstages hknown
    · rw [hsame]
      exact hknown
    · intro other hlookup
      rw [AList.lookup_eq_none.mpr hnew, hstageable]
      rwa [hstages.uncommitedBlocks, AList.lookup_insert] at hlookup

/-- An approval on the ballot after a proposal: counted before, the sender's, or the
    peer's own, if it was asked for. -/
theorem processBlockProposal_approvers (hconsensus : p.consensus = .voting e.self votings)
    (h : PeerEffects.Sound pf e votings p.effects) {message : Message} {blockHash : BlockHash}
    {blockFile : Bytes} {signature : Signature} {publicKey : VerifyingKey}
    (hbody : message.body = .blockProposal blockHash blockFile signature publicKey)
    {isOk : Bool}
    (hstageable : isOk = true → (p.stageable pf message.body).isSome)
    {q : PeerId}
    (hq : q ∈ (((e.ballot votings blockHash).afterVote message.from true).afterVote e.self
      isOk).approvals) :
    q ∈ (e.ballot votings blockHash).approvals ∨
      (q ∈ p.approvers pf message ∧ q ∉ (e.ballot votings blockHash).rejections) := by
  rcases VotingConsensus.approver_afterVote hq with hq | ⟨rfl, rfl, hopen⟩
  · refine (VotingConsensus.approver_afterVote hq).imp_right ?_
    rintro ⟨rfl, -, hopen⟩
    exact ⟨mem_approvers_src pf p message, (VotingConsensus.closedTo_eq_false.mp hopen).2.1⟩
  · have hopen' := VotingConsensus.open_before_vote hopen
    refine Or.inr ⟨?_, (VotingConsensus.closedTo_eq_false.mp hopen').2.1⟩
    have hasked : (p.asked pf message.body).isSome := by
      have hsome := hstageable rfl
      rw [hbody] at hsome ⊢
      rw [asked, ballotOf_eq hconsensus h, h.self, hopen']
      exact hsome
    rw [approvers, if_pos hasked, h.self]
    exact Finset.mem_insert_of_mem (Finset.mem_singleton_self _)

theorem processBlockProposal_sound (hpf : pf.Lawful) (h : p.Sound pf e) {message : Message}
    {blockHash : BlockHash} {blockFile : Bytes} {signature : Signature} {publicKey : VerifyingKey}
    (hbody : message.body = .blockProposal blockHash blockFile signature publicKey)
    (htrusts : e.Trusts pf p.effects.blockKeeper message)
    (hasked : e.asked = p.asked pf message.body) (horder : p.CommitsInOrder pf message) :
    SoundAfter pf e p
      (p.processBlockProposal pf blockHash blockFile signature publicKey message.from).1 := by
  have hsame := h.refl
  obtain ⟨votings, hconsensus, hsound⟩ := h
  rw [Session.Trusts, hbody] at htrusts
  unfold processBlockProposal
  split
  · exact hsame
  obtain ⟨isOk, hok⟩ := validateProposal_ok pf p blockHash blockFile signature publicKey
  rcases hvalidate : p.validateProposal pf blockHash blockFile signature publicKey with
    ⟨effects, result⟩
  rw [hvalidate] at hok
  obtain rfl : result = .ok isOk := hok
  obtain ⟨hsound', hcreated, hstate, hyes, hstaged⟩ :=
    validateProposal_sound hpf hsound htrusts.1 hvalidate
  -- What the votes decide for extends the tip.
  have hextends : (e.ballot votings blockHash).outcome = none →
      ∀ approvals : Finset PeerId,
      2 * VotingConsensus.faultBound e.peers.card + 1 ≤ approvals.card →
      (∀ q ∈ approvals, q ∈ (e.ballot votings blockHash).approvals ∨
        (q ∈ p.approvers pf message ∧ q ∉ (e.ballot votings blockHash).rejections)) →
      PeerEffects.ExtendsTip effects.blockKeeper blockHash := by
    intro hopen approvals hquorum happrovals b hlookup
    rw [hstate]
    apply horder.extends hconsensus hsound (by rw [hbody]; rfl) hopen hquorum happrovals
    rw [hbody]
    exact hstaged b hlookup
  have hsrc : true = true → (e.ballot votings blockHash).closedTo message.from = false →
      e.counted blockHash message.from ∨
        (message.from = e.self ∧ e.MayApprove effects.blockKeeper blockHash) :=
    fun _ _ => Or.inl htrusts.2
  have hafter : SoundAfter pf e { p with effects }
      (Peer.answer pf { p with effects }
        (p.consensus.onBlockProposalValidated blockHash message.from isOk
          effects.knownPeers)).1 := by
    rw [hconsensus, hsound'.known, ConsensusEngine.onBlockProposalValidated,
      Voting.onBlockProposalValidated_eq]
    split
    · -- The sender's approval left the ballot open: the peer's own verdict counts.
      have hfirst : e.ballot (e.vote votings blockHash message.from true) blockHash =
          (e.ballot votings blockHash).afterVote message.from true := by
        rw [Session.ballot_vote, if_pos rfl]
      rw [Session.handleVotingVote_eq votings]
      apply vote_sound { p with effects } (hsound'.vote hsrc)
      · rintro hok hopen
        rw [hfirst] at hopen
        obtain ⟨b, hstageable, hhash, hknown⟩ := hyes hok
        refine Or.inr ⟨rfl, Or.inr ⟨b, ?_, hhash, hknown⟩⟩
        rw [hasked, hbody, asked, ballotOf_eq hconsensus hsound, hsound.self,
          VotingConsensus.open_before_vote hopen]
        exact hstageable
      · intro happroved
        rw [hfirst] at happroved
        have hquorum := VotingConsensus.quorum_of_approves (VotingConsensus.afterVote_fair
          (hsound.fair blockHash) message.from true).undecided happroved
        have hvoted := VotingConsensus.afterVote_voted (e.ballot votings blockHash) message.from true
        rw [hvoted.participants, hsound.participants] at hquorum
        have hopen := (VotingConsensus.afterVote_voted _ _ _).decides (by rw [happroved]; simp)
        apply hextends (hvoted.still_open hopen.1) _ hquorum
        intro q hq
        apply processBlockProposal_approvers hconsensus hsound hbody _ hq
        intro hok
        obtain ⟨b, hstageable, -⟩ := hyes hok
        rw [hbody, hstageable]
        rfl
    · apply vote_sound { p with effects } hsound' hsrc
      intro happroved
      obtain ⟨hopen, hquorum, happrovals⟩ := quorum_of_src (p := p) hsound happroved
      exact hextends hopen _ hquorum happrovals
  exact ⟨hafter.1, fun b hb => hafter.2 b (hcreated ▸ hb)⟩

theorem processClientTransaction_sound (h : p.Sound pf e) {clientTx : SignedTransaction}
    (hasked : e.asked = p.effects.packedWith pf clientTx) :
    SoundAfter pf e p (p.processClientTransaction pf clientTx).1 := by
  have hsame := h.refl
  obtain ⟨votings, hconsensus, hsound⟩ := h
  unfold processClientTransaction
  split
  · exact hsame
  · simp only [hconsensus, ConsensusEngine.onClientTransaction, Voting.onClientTransaction]
    apply answer_sound p hsound
    · intro effect hmem
      simp only [List.mem_cons, List.not_mem_nil, or_false] at hmem
      rcases hmem with rfl | rfl
      · exact hasked
      · trivial
    · exact Nat.le_refl 1

theorem synchronizeTransaction_sound (h : p.Sound pf e) {verifiedTx : VerifiedTransaction}
    (hasked : e.asked = p.asked pf (.synchronization verifiedTx)) :
    SoundAfter pf e p (p.synchronizeTransaction pf verifiedTx).1 := by
  have hsame := h.refl
  obtain ⟨votings, hconsensus, hsound⟩ := h
  obtain ⟨hpacks, hself, hnetwork, hcreated⟩ :=
    PeerEffects.stageClientTransaction_packs pf p.effects verifiedTx.clientTx
  have hstaged := hsound.packs hpacks hself hnetwork
  unfold synchronizeTransaction
  simp only [asked] at hasked
  cases hverify : verifiedTx.verify pf with
  | error error => exact hsame
  | ok _ =>
      rw [hverify] at hasked
      dsimp only at hasked ⊢
      rcases hstage : p.effects.stageClientTransaction pf verifiedTx.clientTx with
        ⟨effects, error | _ | blockHash⟩
      all_goals rw [hstage] at hpacks hcreated hstaged
      · exact ⟨⟨votings, hconsensus, hstaged⟩, fun b hb => hpacks.mem_created hb⟩
      · exact ⟨⟨votings, hconsensus, hstaged⟩, fun b hb => hpacks.mem_created hb⟩
      · obtain ⟨hextends, b, hmem, hpacked, hhash⟩ := hcreated blockHash rfl
        have hduties : ∀ effect ∈ [ConsensusEffect.proposeBlock blockHash],
            PeerEffects.Duty pf e votings effects effect := by
          intro effect heffect
          rw [List.mem_singleton.mp heffect]
          exact ⟨hextends, Or.inr ⟨b, hasked.trans hpacked, hhash, Or.inr hmem⟩⟩
        simp only [hconsensus, ConsensusEngine.onBlockCreated, Voting.onBlockCreated]
        have hanswer := answer_sound { p with effects } hstaged hduties (Nat.le_refl 1)
        exact ⟨hanswer.1, fun b hb => hanswer.2 b (hpacks.mem_created hb)⟩

/-- A voting peer that commits in order stays sound, whatever message it handles. -/
theorem handleMessage_sound (hpf : pf.Lawful) (h : p.Sound pf e) {message : Message}
    (htrusts : e.Trusts pf p.effects.blockKeeper message)
    (hasked : e.asked = p.asked pf message.body) (horder : p.CommitsInOrder pf message)
    (now : Instant) (draw : Nat) :
    SoundAfter pf e p (p.handleMessage pf message now draw).1 := by
  unfold handleMessage
  cases hbody : message.body with
  | clientTransaction clientTx =>
      rw [hbody] at hasked
      exact processClientTransaction_sound h hasked
  | synchronization verifiedTx =>
      rw [hbody] at hasked
      exact synchronizeTransaction_sound h hasked
  | blockProposal blockHash blockFile signature publicKey =>
      exact processBlockProposal_sound hpf h hbody htrusts hasked horder
  | blockApproved blockHash =>
      rw [Session.Trusts, hbody] at htrusts
      exact processBlockVote_sound h (fun _ => htrusts) (fun _ => by rw [hbody]; rfl) horder
  | blockReject blockHash =>
      exact processBlockVote_sound h (fun hyes => by cases hyes) (fun hyes => by cases hyes) horder
  | _ =>
      obtain ⟨votings, hconsensus, hsound⟩ := h
      simp only [hconsensus, ConsensusEngine.onMessage]
      exact answer_sound p hsound (fun _ hmem => absurd hmem List.not_mem_nil) (Nat.zero_le 1)

/-- A voting peer does nothing when its clock ticks. -/
theorem handleTick_sound (h : p.Sound pf e) (now : Instant) :
    SoundAfter pf e p (p.handleTick pf now).1 := by
  obtain ⟨votings, hconsensus, hsound⟩ := h
  simp only [handleTick, hconsensus, ConsensusEngine.onTick]
  exact answer_sound p hsound (fun _ hmem => absurd hmem List.not_mem_nil) (Nat.zero_le 1)

end Peer

end Rustchain
