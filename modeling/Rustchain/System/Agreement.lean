/-
  Rustchain.System.Agreement

  Voting peers agree on the block files at every height two of them have reached,
  in every run in which no two blocks on one parent can both gather a quorum and
  every block is committed on its parent.

  A peer may approve several blocks on one parent: it approves whatever it packs,
  and whatever is proposed to it on its tip.  As long as those who do are fewer
  than two quorums have in common, or only one of the blocks has approvals at all,
  at most one of the blocks is ever approved by a quorum.  The program ensures
  neither this nor the order of the commits.
-/

import Mathlib.Data.Finset.Union
import Rustchain.Lib.Quorum
import Rustchain.Peer.VotingStep
import Rustchain.Reference
import Rustchain.System.Basic

namespace Rustchain
namespace System

/-- The peers of `P` are new voting peers on empty directories that know each other. -/
def VotingStart (pf : Platform) (P : Finset PeerId) (s : System) : Prop :=
  ∀ p ∈ P, ∃ knownPeers path mempoolSize walk signingKey,
    (∀ q, q ∈ knownPeers ↔ q ∈ P ∧ q ≠ p) ∧
      s.peers p = .startVoting pf p { knownPeers, calls := [] } (.empty path) mempoolSize walk
        signingKey

-- ============================================================================
-- Blocks and approvals
-- ============================================================================

/-- The block was packed by a peer of `P`. -/
def Packed (P : Finset PeerId) (s : System) (b : BlockFile) : Prop :=
  ∃ q ∈ P, b ∈ (s.peers q).effects.blockKeeper.created

/-- The hashes of the blocks packed on the parent. -/
def siblings (P : Finset PeerId) (s : System) (parent : BlockHash) : Finset BlockHash :=
  P.biUnion fun q =>
    (((s.peers q).effects.blockKeeper.created.filter
      fun b => b.previousHash = parent).map BlockFile.hash).toFinset

/-- The votes that approve a block. -/
def quorum (P : Finset PeerId) : Nat := 2 * VotingConsensus.faultBound P.card + 1

/-- The approvals so far, and the acting peer's of the block it is asked for. -/
def ApprovesWith (s : System) (p : PeerId) (b : BlockFile) (q : PeerId) (h : BlockHash) : Prop :=
  (s.peers q).Approves h ∨ (q = p ∧ h = b.hash)

instance (s : System) (p : PeerId) (b : BlockFile) (q : PeerId) (h : BlockHash) :
    Decidable (s.ApprovesWith p b q h) :=
  inferInstanceAs (Decidable (_ ∨ _))

/-- The block the action asks the acting peer to approve. -/
def asked (pf : Platform) (s : System) (act : Action) : Option BlockFile :=
  match act.event with
  | .message message _ _ => (s.peers act.peer).asked pf message.body
  | _ => none

/-- What the votes in the message approve extends the tip of the acting peer. -/
def CommitsInOrder (pf : Platform) (s : System) (act : Action) : Prop :=
  match act.event with
  | .message message _ _ => (s.peers act.peer).CommitsInOrder pf message
  | _ => True

instance (pf : Platform) (s : System) : (act : Action) → Decidable (s.CommitsInOrder pf act)
  | .client .. | .deliver .. => inferInstanceAs (Decidable (Peer.CommitsInOrder ..))
  | .tick .. => inferInstanceAs (Decidable True)

/-- Even with the approval the acting peer is asked for, two blocks on one parent cannot
    both get a quorum; and what the message approves is committed on its parent. -/
def Prudent (pf : Platform) (P : Finset PeerId) (s : System) (act : Action) : Prop :=
  (∀ b ∈ s.asked pf act, Quorum.Decisive P (quorum P)
      (insert b.hash (s.siblings P b.previousHash)) (s.ApprovesWith act.peer b)) ∧
    s.CommitsInOrder pf act

instance (pf : Platform) (P : Finset PeerId) (s : System) (act : Action) :
    Decidable (Prudent pf P s act) :=
  inferInstanceAs (Decidable (_ ∧ _))

/-- Packed blocks with the same hash have the same parent. -/
def Collisionless (P : Finset PeerId) (s : System) : Prop :=
  ∀ p ∈ P, ∀ q ∈ P, ∀ b ∈ (s.peers p).effects.blockKeeper.created,
    ∀ c ∈ (s.peers q).effects.blockKeeper.created,
      b.hash = c.hash → b.previousHash = c.previousHash

instance (P : Finset PeerId) (s : System) : Decidable (s.Collisionless P) :=
  inferInstanceAs (Decidable (∀ p ∈ P, _))

-- ============================================================================
-- The invariant
-- ============================================================================

/-- The block was packed by a peer of `P` other than `p`. -/
def PackedByOthers (P : Finset PeerId) (s : System) (p : PeerId) (b : BlockFile) : Prop :=
  ∃ q ∈ P, q ≠ p ∧ b ∈ (s.peers q).effects.blockKeeper.created

/-- A quorum of peers has approved the block. -/
def Elected (P : Finset PeerId) (s : System) (h : BlockHash) : Prop :=
  quorum P ≤ (Quorum.voters P (fun q h => (s.peers q).Approves h) h).card

/-- What surrounds peer `p`: an approval counts if the peer has given it, or if a quorum
    has. -/
def session (P : Finset PeerId) (s : System) (p : PeerId) (asked : Option BlockFile) : Session :=
  { self := p
    knownPeers := (s.peers p).effects.knownPeers
    others := s.PackedByOthers P p
    counted := fun h q => q ∈ P ∧ q ≠ p ∧ ((s.peers q).Approves h ∨ s.Elected P h)
    approved := (s.peers p).Approves
    asked }

/-- Every peer is sound among the others, and approves only what some peer has packed. -/
structure Sound (pf : Platform) (P : Finset PeerId) (s : System) : Prop where
  peers : ∀ p ∈ P, (s.peers p).Sound pf (s.session P p none)
  committee : ∀ p ∈ P, insert p (s.peers p).effects.knownPeers.toFinset = P
  packed : ∀ p ∈ P, ∀ h, (s.peers p).Approves h → ∃ b, s.Packed P b ∧ b.hash = h

/-- No two blocks on one parent can both get a quorum. -/
def Decisive (P : Finset PeerId) (s : System) : Prop :=
  ∀ parent, Quorum.Decisive P (quorum P) (s.siblings P parent) fun q h => (s.peers q).Approves h

variable {pf : Platform} {P : Finset PeerId} {s s' : System} {p q : PeerId}

theorem mem_siblings {parent h : BlockHash} :
    h ∈ s.siblings P parent ↔ ∃ b, s.Packed P b ∧ b.previousHash = parent ∧ b.hash = h := by
  simp only [siblings, Packed, Finset.mem_biUnion, List.mem_toFinset, List.mem_map,
    List.mem_filter, decide_eq_true_eq]
  constructor
  · rintro ⟨q, hq, b, ⟨hb, hparent⟩, hhash⟩
    exact ⟨b, ⟨q, hq, hb⟩, hparent, hhash⟩
  · rintro ⟨b, ⟨q, hq, hb⟩, hparent, hhash⟩
    exact ⟨q, hq, b, ⟨hb, hparent⟩, hhash⟩

theorem Collisionless.parent (h : s.Collisionless P) {b c : BlockFile} (hb : s.Packed P b)
    (hc : s.Packed P c) (hhash : b.hash = c.hash) : b.previousHash = c.previousHash := by
  obtain ⟨p, hp, hb⟩ := hb
  obtain ⟨q, hq, hc⟩ := hc
  exact h p hp q hq b hb c hc hhash

/-- What a peer knows of is what any peer has packed. -/
theorem known_iff (hp : p ∈ P) (b : BlockFile) :
    (s.peers p).effects.blockKeeper.Known (s.PackedByOthers P p) b ↔ s.Packed P b := by
  constructor
  · rintro (⟨q, hq, -, hb⟩ | hb)
    · exact ⟨q, hq, hb⟩
    · exact ⟨p, hp, hb⟩
  · rintro ⟨q, hq, hb⟩
    by_cases hqp : q = p
    · subst hqp
      exact Or.inr hb
    · exact Or.inl ⟨q, hq, hqp, hb⟩

/-- A block a peer's ballot has decided for is approved by a quorum: the first peer to
    decide has counted approvals that were given. -/
theorem Sound.elected (h : s.Sound pf P) (hp : p ∈ P) {votings : Voting.Votings}
    (hsound : PeerEffects.Sound pf (s.session P p none) votings (s.peers p).effects)
    {blockHash : BlockHash} (hdecided : (s.session P p none).Decided votings blockHash) :
    s.Elected P blockHash := by
  by_contra hnot
  apply hnot
  have hquorum := (hsound.fair blockHash).approved hdecided
  rw [hsound.participants, show (s.session P p none).peers = P from h.committee p hp] at hquorum
  refine hquorum.trans (Finset.card_le_card ?_)
  intro q hq
  rcases hsound.approvals blockHash q hq with ⟨hmem, -, happroves⟩ | ⟨rfl, hmay⟩
  · exact Quorum.mem_voters.mpr ⟨hmem, happroves.resolve_right hnot⟩
  · rcases hmay with happroves | ⟨b, hasked, -⟩
    · exact Quorum.mem_voters.mpr ⟨hp, happroves⟩
    · cases hasked

/-- What a peer says to another one is true. -/
theorem Sound.trusts (h : s.Sound pf P) (hq : q ∈ P) {message : Message} (hp : message.to ∈ P)
    (hsent : message ∈ s.sentBy q) (asked : Option BlockFile) :
    (s.session P message.to asked).Trusts pf (s.peers message.to).effects.blockKeeper message := by
  obtain ⟨votings, hconsensus, hsound⟩ := h.peers q hq
  obtain ⟨call, hcall, hmessage⟩ := List.mem_flatMap.mp hsent
  obtain ⟨body, rfl, hbody⟩ := hsound.calls call hcall
  -- A broadcast goes from the peer to the others.
  obtain ⟨dst, hdst, rfl⟩ := List.mem_map.mp hmessage
  have hne : q ≠ dst := fun heq => by simp [heq, session] at hdst
  cases body with
  | blockProposal blockHash blockFile signature publicKey =>
      obtain ⟨⟨b, hencoded, hknown⟩, -⟩ := hbody
      refine ⟨⟨b, hencoded, (known_iff hp b).mpr ((known_iff hq b).mp hknown)⟩, hq, hne, Or.inl ?_⟩
      apply (Peer.approves_iff hconsensus hsound blockHash).mpr
      exact Or.inr ⟨_, hcall, by simp [NetworkCall.body, MessageBody.proposes]⟩
  | blockApproved blockHash => exact ⟨hq, hne, Or.inr (h.elected hq hsound hbody)⟩
  | _ => trivial

-- ============================================================================
-- Steps and runs
-- ============================================================================

/-- The acting peer handles the event as it should. -/
theorem Sound.acting (hpf : pf.Lawful) (h : s.Sound pf P) {act : Action} (hmem : act.peer ∈ P)
    (henabled : act.Enabled P s) (horder : s.CommitsInOrder pf act) :
    Peer.SoundAfter pf (s.session P act.peer (s.asked pf act)) (s.peers act.peer)
      ((s.peers act.peer).handle pf act.event) := by
  obtain ⟨votings, hconsensus, hsound⟩ := h.peers act.peer hmem
  have hasking : (s.peers act.peer).Sound pf (s.session P act.peer (s.asked pf act)) :=
    ⟨votings, hconsensus, hsound.among rfl rfl (fun _ hb => hb) (fun _ _ hq => hq)
      (Peer.approves_iff hconsensus hsound)⟩
  cases act with
  | client p clientTx now draw =>
      refine Peer.handleMessage_sound hpf hasking ?_ rfl horder now draw
      exact trivial
  | deliver message now draw =>
      obtain ⟨q, hq, hsent⟩ := henabled
      exact Peer.handleMessage_sound hpf hasking (h.trusts hq hmem hsent _) rfl horder now draw
  | tick p now => exact Peer.handleTick_sound hasking now

/-- What a step adds: packed blocks, approvals of the acting peer of the block it is
    asked for, and nothing else. -/
structure Grows (pf : Platform) (P : Finset PeerId) (s s' : System) (act : Action) : Prop where
  packed : ∀ b, s.Packed P b → s'.Packed P b
  approves : ∀ q ∈ P, ∀ h, (s.peers q).Approves h → (s'.peers q).Approves h
  approved : ∀ q ∈ P, ∀ h, (s'.peers q).Approves h → (s.peers q).Approves h ∨
    (q = act.peer ∧ ∃ b, s.asked pf act = some b ∧ b.hash = h ∧ s'.Packed P b)

theorem Grows.elected {act : Action} (h : Grows pf P s s' act) {blockHash : BlockHash}
    (helected : s.Elected P blockHash) : s'.Elected P blockHash :=
  helected.trans (Quorum.voters_mono h.approves blockHash)

theorem Sound.step (hpf : pf.Lawful) (h : s.Sound pf P) {act : Action} (hmem : act.peer ∈ P)
    (henabled : act.Enabled P s) (horder : s.CommitsInOrder pf act) :
    (s.step pf act).Sound pf P ∧ Grows pf P s (s.step pf act) act := by
  obtain ⟨⟨votings, hconsensus, hsound⟩, hkept⟩ := h.acting hpf hmem henabled horder
  have hself : (s.step pf act).peers act.peer = (s.peers act.peer).handle pf act.event :=
    Function.update_self ..
  have hother : ∀ q, q ≠ act.peer → (s.step pf act).peers q = s.peers q :=
    fun q hq => Function.update_of_ne hq ..
  rw [← hself] at hconsensus hsound hkept
  have hpacked : ∀ b, s.Packed P b → (s.step pf act).Packed P b := by
    rintro b ⟨q, hq, hb⟩
    refine ⟨q, hq, ?_⟩
    by_cases hact : q = act.peer
    · subst hact
      exact hkept b hb
    · rw [hother q hact]
      exact hb
  have happroves := Peer.approves_iff hconsensus hsound
  have hgrows : Grows pf P s (s.step pf act) act := by
    refine ⟨hpacked, ?_, ?_⟩
    · intro q hq blockHash happroved
      by_cases hact : q = act.peer
      · subst hact
        exact (happroves blockHash).mpr (hsound.kept blockHash happroved)
      · rw [hother q hact]
        exact happroved
    · intro q hq blockHash happroved
      by_cases hact : q = act.peer
      · subst hact
        have hmay := hsound.mayApprove (fun _ hcounted => hcounted.2.1 rfl)
          ((happroves blockHash).mp happroved)
        refine hmay.imp_right ?_
        rintro ⟨b, hasked, hhash, hknown⟩
        refine ⟨rfl, b, hasked, hhash, ?_⟩
        rcases hknown with ⟨q, hq, hne, hb⟩ | hb
        · exact hpacked b ⟨q, hq, hb⟩
        · exact ⟨act.peer, hmem, hb⟩
      · rw [hother q hact] at happroved
        exact Or.inl happroved
  have hcounted : ∀ p asked blockHash q, (s.session P p asked).counted blockHash q →
      ((s.step pf act).session P p none).counted blockHash q := by
    rintro p asked blockHash q ⟨hq, hne, hcounted⟩
    exact ⟨hq, hne, hcounted.imp (hgrows.approves q hq blockHash) hgrows.elected⟩
  have hknown : ∀ p ∈ P, ((s.step pf act).peers p).effects.knownPeers =
      (s.peers p).effects.knownPeers := by
    intro p hp
    by_cases hact : p = act.peer
    · subst hact
      exact hsound.known
    · rw [hother p hact]
  refine ⟨⟨?_, ?_, ?_⟩, hgrows⟩
  · intro p hp
    by_cases hact : p = act.peer
    · subst hact
      refine ⟨votings, hconsensus, hsound.among rfl (hknown _ hp) ?_ (hcounted _ _) happroves⟩
      intro b hb
      apply (known_iff hp b).mpr
      rcases hb with ⟨q, hq, -, hb⟩ | hb
      · exact hpacked b ⟨q, hq, hb⟩
      · exact ⟨act.peer, hp, hb⟩
    · obtain ⟨votings, hconsensus, hsound⟩ := h.peers p hp
      rw [Peer.Sound, hother p hact]
      refine ⟨votings, hconsensus, hsound.among rfl (hknown _ hp) ?_ (hcounted _ _) ?_⟩
      · intro b hb
        have hb' := hpacked b ((known_iff hp b).mp hb)
        rw [← known_iff hp, hother p hact] at hb'
        exact hb'
      · intro blockHash
        show ((s.step pf act).peers p).Approves blockHash ↔ _
        rw [hother p hact]
        exact Peer.approves_iff hconsensus hsound blockHash
  · intro p hp
    rw [hknown p hp]
    exact h.committee p hp
  · intro p hp blockHash happroved
    rcases hgrows.approved p hp blockHash happroved with hold | ⟨-, b, -, hhash, hb⟩
    · obtain ⟨b, hb, hhash⟩ := h.packed p hp blockHash hold
      exact ⟨b, hpacked b hb, hhash⟩
    · exact ⟨b, hb, hhash⟩

/-- A prudent step leaves the votes on every parent decisive. -/
theorem Decisive.step {act : Action} (hdecisive : s.Decisive P) (h : s.Sound pf P)
    (hgrows : Grows pf P s s' act) (hfree : s'.Collisionless P)
    (hprudent : Prudent pf P s act) : s'.Decisive P := by
  intro parent
  -- A block somebody had approved is not packed on another parent.
  have hold : ∀ q ∈ P, ∀ blockHash ∈ s'.siblings P parent, (s.peers q).Approves blockHash →
      blockHash ∈ s.siblings P parent := by
    intro q hq blockHash hsibling happroved
    obtain ⟨b, hb, hhash⟩ := h.packed q hq blockHash happroved
    obtain ⟨c, hc, hparent, hhash'⟩ := mem_siblings.mp hsibling
    refine mem_siblings.mpr ⟨b, hb, ?_, hhash⟩
    rw [hfree.parent (hgrows.packed b hb) hc (hhash.trans hhash'.symm), hparent]
  by_cases hasks : ∃ b, s.asked pf act = some b ∧ b.previousHash = parent
  · obtain ⟨b, hasked, rfl⟩ := hasks
    apply (hprudent.1 b hasked).mono
    intro q hq blockHash hsibling happroved
    rcases hgrows.approved q hq blockHash happroved with hbefore | ⟨rfl, c, hasked', rfl, -⟩
    · exact ⟨Finset.mem_insert_of_mem (hold q hq blockHash hsibling hbefore), Or.inl hbefore⟩
    · cases hasked.symm.trans hasked'
      exact ⟨Finset.mem_insert_self _ _, Or.inr ⟨rfl, rfl⟩⟩
  · apply (hdecisive parent).mono
    intro q hq blockHash hsibling happroved
    rcases hgrows.approved q hq blockHash happroved with hbefore | ⟨-, b, hasked, hhash, hb⟩
    · exact ⟨hold q hq blockHash hsibling hbefore, hbefore⟩
    · obtain ⟨c, hc, hparent, hhash'⟩ := mem_siblings.mp hsibling
      exact absurd ⟨b, hasked, (hfree.parent hb hc (hhash.trans hhash'.symm)).trans hparent⟩ hasks

theorem Grows.collisionless {act : Action} (h : Grows pf P s s' act)
    (hfree : s'.Collisionless P) : s.Collisionless P :=
  fun p hp q hq b hb c hc =>
    hfree.parent (h.packed b ⟨p, hp, hb⟩) (h.packed c ⟨q, hq, hc⟩)

/-- New peers have approved nothing. -/
theorem VotingStart.sound (h : s.VotingStart pf P) (hsize : 2 ≤ P.card) :
    s.Sound pf P ∧ s.Decisive P := by
  have hnone : ∀ q ∈ P, ∀ b, ¬ (s.peers q).Approves b := by
    intro q hq b happroved
    obtain ⟨_, _, _, _, _, -, heq⟩ := h q hq
    rw [heq] at happroved
    rcases happroved with hmem | ⟨call, hcall, -⟩
    · exact absurd hmem (Finset.notMem_empty _)
    · cases hcall
  refine ⟨⟨?_, ?_, fun q hq b happroved => absurd happroved (hnone q hq b)⟩, ?_⟩
  · intro p hp
    have hnone := hnone p hp
    obtain ⟨knownPeers, path, mempoolSize, walk, signingKey, hknown, heq⟩ := h p hp
    have hcompany : knownPeers ≠ [] := by
      obtain ⟨q, hq, hne⟩ := Finset.exists_mem_ne hsize p
      exact List.ne_nil_of_mem ((hknown q).mpr ⟨hq, hne⟩)
    have hsame : (s.peers p).effects.knownPeers = knownPeers := by
      rw [heq]
      rfl
    refine ⟨∅, by rw [heq]; rfl, ?_⟩
    have hcalls : (s.peers p).effects.network.calls = [] := by
      rw [heq]
      rfl
    refine ⟨by rw [heq]; rfl, rfl, ?_, fun b => VotingConsensus.new_fair _ _, fun b => rfl, ?_,
      fun b happroved => absurd happroved (hnone b), ?_, ?_⟩
    · exact fun hnil => hcompany (hsame.symm.trans hnil)
    · exact fun b q hq => absurd hq (Finset.notMem_empty q)
    · intro call hcall
      rw [hcalls] at hcall
      cases hcall
    · rw [heq]
      exact BlockKeeper.new_chainSound pf _ _ path mempoolSize walk
  · intro p hp
    obtain ⟨knownPeers, path, mempoolSize, walk, signingKey, hknown, heq⟩ := h p hp
    have hsame : (s.peers p).effects.knownPeers = knownPeers := by
      rw [heq]
      rfl
    rw [hsame]
    ext q
    rw [Finset.mem_insert, List.mem_toFinset, hknown]
    constructor
    · rintro (rfl | ⟨hq, -⟩)
      · exact hp
      · exact hq
    · intro hq
      exact (Decidable.em (q = p)).imp_right fun hne => ⟨hq, hne⟩
  · intro parent
    refine Or.inl (Finset.card_le_one.mpr ?_)
    intro a ha
    obtain ⟨-, q, hq, happroved⟩ := Quorum.mem_supported.mp ha
    exact absurd happroved (hnone q hq a)

/-- In every run of prudent steps the peers stay sound, and no two blocks on one parent
    can both get a quorum. -/
theorem Run.sound (hpf : pf.Lawful) (hrun : Run pf P (Prudent pf P) s s')
    (h : s.Sound pf P) (hdecisive : s.Decisive P) :
    s'.Sound pf P ∧ (s'.Collisionless P → s'.Decisive P) := by
  refine hrun.preserves (I := fun s => s.Sound pf P ∧ (s.Collisionless P → s.Decisive P)) ?_
    ⟨h, fun _ => hdecisive⟩
  rintro s act hmem henabled hprudent ⟨hsound, hdecisive⟩
  obtain ⟨hsound', hgrows⟩ := hsound.step hpf hmem henabled hprudent.2
  exact ⟨hsound', fun hfree =>
    (hdecisive (hgrows.collisionless hfree)).step hsound hgrows hfree hprudent⟩

/-- In every run of voting peers whose steps are prudent, two peers that have both
    reached a height hold block files with the same hash there. -/
theorem voting_agreement (hpf : pf.Lawful) (hsize : 2 ≤ P.card) (hstart : s.VotingStart pf P)
    (hrun : Run pf P (Prudent pf P) s s') (hfree : s'.Collisionless P) (hp : p ∈ P) (hq : q ∈ P)
    {i : Nat} (hpositive : 0 < i)
    (hip : i ≤ (s'.peers p).effects.blockKeeper.blockStorageState.blockHeight)
    (hiq : i ≤ (s'.peers q).effects.blockKeeper.blockStorageState.blockHeight) :
    ∃ b b',
      BlockFile.readFromDiskByIndex pf (s'.peers p).effects.blockKeeper.dir i = .ok b ∧
      BlockFile.readFromDiskByIndex pf (s'.peers q).effects.blockKeeper.dir i = .ok b' ∧
      b.hash = b'.hash := by
  obtain ⟨hsound, hdecisive⟩ := hrun.sound hpf (hstart.sound hsize).1 (hstart.sound hsize).2
  -- The block files hold packed blocks that a quorum has approved.
  have hstore : ∀ r ∈ P, (s'.peers r).effects.blockKeeper.ChainSound pf
      (fun b => s'.Packed P b ∧ s'.Elected P b.hash) (s'.Packed P) := by
    intro r hr
    obtain ⟨votings, -, hservices⟩ := hsound.peers r hr
    refine hservices.store.mono (fun b hb => ?_) fun b hb => (known_iff hr b).mp hb
    exact ⟨(known_iff hr b).mp hb.1, hsound.elected hr hservices hb.2⟩
  have hforkless : HashChain.Forkless BlockFile.hash BlockFile.previousHash
      fun b => s'.Packed P b ∧ s'.Elected P b.hash := by
    rintro b c ⟨hb, helected⟩ ⟨hc, helected'⟩ hparent
    exact (hdecisive hfree b.previousHash).elected_unique (Nat.succ_pos _)
      (mem_siblings.mpr ⟨b, hb, rfl, rfl⟩) (mem_siblings.mpr ⟨c, hc, hparent.symm, rfl⟩) helected
      helected'
  obtain ⟨j, rfl⟩ := Nat.exists_eq_succ_of_ne_zero hpositive.ne'
  exact (hstore p hp).agree hpf hforkless (hstore q hq) hip hiq

end System
-- ============================================================================
-- Two peers
-- ============================================================================

namespace Reference

/-- Two new voting peers that pack every transaction at once. -/
def twoVoters : System where
  peers p := .startVoting platform p { knownPeers := if p = 1 then [2] else [1], calls := [] }
    (.empty "data") 1 (.listed _ _) (if p = 1 then [1] else [2])

theorem twoVoters_votingStart : twoVoters.VotingStart platform {1, 2} := by
  intro p hp
  refine ⟨_, _, _, _, _, ?_, rfl⟩
  rcases Finset.mem_insert.mp hp with rfl | hp
  · intro q
    simp only [if_pos, List.mem_singleton, Finset.mem_insert, Finset.mem_singleton]
    constructor
    · rintro rfl
      decide
    · rintro ⟨rfl | rfl, hne⟩
      · exact absurd rfl hne
      · rfl
  · rw [Finset.mem_singleton] at hp
    subst hp
    intro q
    rw [if_neg (by decide)]
    simp only [List.mem_singleton, Finset.mem_insert, Finset.mem_singleton]
    constructor
    · rintro rfl
      decide
    · rintro ⟨rfl | rfl, hne⟩
      · rfl
      · exact absurd rfl hne

/-- Each peer is handed a transaction by a client of its own. -/
def forked : System :=
  (twoVoters.step platform (.client 1 deposit 0 0)).step platform (.client 2 otherDeposit 0 0)

end Reference

namespace System

/-- Two peers that pack different transactions commit different blocks at height 1. -/
theorem voting_disagreement :
    Reference.twoVoters.VotingStart Reference.platform {1, 2} ∧
      Run Reference.platform {1, 2} (fun _ _ => True) Reference.twoVoters Reference.forked ∧
      (Reference.forked.peers 1).effects.blockKeeper.blockStorageState.blockHeight = 1 ∧
      (Reference.forked.peers 2).effects.blockKeeper.blockStorageState.blockHeight = 1 ∧
      ∃ b b',
        BlockFile.readFromDiskByIndex Reference.platform
          (Reference.forked.peers 1).effects.blockKeeper.dir 1 = .ok b ∧
        BlockFile.readFromDiskByIndex Reference.platform
          (Reference.forked.peers 2).effects.blockKeeper.dir 1 = .ok b' ∧
        b.hash ≠ b'.hash := by
  refine ⟨Reference.twoVoters_votingStart, ?_, by decide +kernel, by decide +kernel,
    Reference.firstBlock Reference.deposit, Reference.firstBlock Reference.otherDeposit,
    by decide +kernel, by decide +kernel, by decide +kernel⟩
  refine (Run.snoc .refl ?_ ?_ trivial).snoc ?_ ?_ trivial
  · decide
  · trivial
  · decide
  · trivial

end System

-- ============================================================================
-- Four peers
-- ============================================================================

namespace Reference

def voterIds (n : Nat) : Finset PeerId := (List.range' 1 n).toFinset

/-- New voting peers `1..n`; the first `packers` of them pack every transaction at
    once. -/
def votersOf (n packers : Nat) : System where
  peers p := .startVoting platform p
    { knownPeers := (List.range' 1 n).filter (· ≠ p), calls := [] } (.empty "data")
    (if p ≤ packers then 1 else 10) (.listed _ _) [UInt8.ofNat p]

theorem votersOf_votingStart (n packers : Nat) :
    (votersOf n packers).VotingStart platform (voterIds n) := by
  refine fun p _ => ⟨_, _, _, _, _, ?_, rfl⟩
  intro q
  rw [voterIds, List.mem_filter, List.mem_toFinset, decide_eq_true_eq]

/-- A peer's proposal of the block with the transaction. -/
def proposal (src dst : PeerId) (tx : SignedTransaction) : Message :=
  { «from» := src
    «to» := dst
    body := .blockProposal (firstBlock tx).hash (platform.encodeBlock (firstBlock tx))
      (platform.sign [UInt8.ofNat src] (platform.encodeBlock (firstBlock tx)))
      [UInt8.ofNat src] }

/-- Peer 1 shares the deposit with another one. -/
def sharedDeposit (dst : PeerId) : Message :=
  { «from» := 1, «to» := dst, body := .synchronization (.new platform deposit [1]) }

/-- Peer 4 packs another deposit than peers 1 to 3, who approve theirs and reject the
    one of peer 4; then peer 4 hears of theirs and approves it too. -/
def rivalry : List System.Action :=
  [.client 4 otherDeposit 0 0, .client 1 deposit 0 0,
    .deliver (sharedDeposit 2) 0 0, .deliver (sharedDeposit 3) 0 0,
    .deliver (proposal 1 2 deposit) 0 0, .deliver (proposal 3 2 deposit) 0 0,
    .deliver (proposal 2 1 deposit) 0 0, .deliver (proposal 3 1 deposit) 0 0,
    .deliver (proposal 1 3 deposit) 0 0, .deliver (proposal 2 3 deposit) 0 0,
    .deliver (proposal 4 1 otherDeposit) 0 0, .deliver (proposal 4 2 otherDeposit) 0 0,
    .deliver (proposal 1 4 deposit) 0 0, .deliver (proposal 2 4 deposit) 0 0,
    .deliver { «from» := 1, «to» := 4, body := .blockReject (firstBlock otherDeposit).hash } 0 0]

def settled : System := (votersOf 4 4).stepAll platform rivalry

end Reference

namespace System

open Reference

/-- Two blocks on one parent are proposed to four peers, one of which approves both; all
    commit the same one. -/
theorem voting_agreement_rivals :
    (firstBlock deposit).previousHash = (firstBlock otherDeposit).previousHash ∧
      (firstBlock deposit).hash ≠ (firstBlock otherDeposit).hash ∧
      (settled.peers 4).Approves (firstBlock deposit).hash ∧
      (settled.peers 4).Approves (firstBlock otherDeposit).hash ∧
      ((settled.peers 1).ballotOf (firstBlock otherDeposit).hash).outcome = some .rejected ∧
      ∀ p ∈ voterIds 4, ∃ b b',
        BlockFile.readFromDiskByIndex platform (settled.peers 1).effects.blockKeeper.dir 1 = .ok b ∧
        BlockFile.readFromDiskByIndex platform (settled.peers p).effects.blockKeeper.dir 1 =
          .ok b' ∧
        b.hash = b'.hash := by
  have hrun : Run platform (voterIds 4) (Prudent platform (voterIds 4)) (votersOf 4 4) settled :=
    run_stepAll (by decide +kernel)
  have hheight : ∀ p ∈ voterIds 4,
      1 ≤ (settled.peers p).effects.blockKeeper.blockStorageState.blockHeight := by
    decide +kernel
  refine ⟨rfl, by decide +kernel, by decide +kernel, by decide +kernel, by decide +kernel, ?_⟩
  intro p hp
  exact voting_agreement platform_lawful (by decide) (votersOf_votingStart 4 4) hrun
    (by decide +kernel) (by decide) hp Nat.one_pos (hheight 1 (by decide)) (hheight p hp)

end System
end Rustchain
