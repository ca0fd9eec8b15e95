/-
  Rustchain.System.Lossless

  Voting peers on a network that loses nothing: every message is in flight until
  it is delivered, once.

  A peer that validates a proposal counts its own approval, and tells the others
  only if that decides its ballot.  So when the network is quiet, and every peer
  has approved the block, the ballots are decided exactly when `2f` peers have
  proposed the block themselves.
-/

import Rustchain.Peer.Ballots
import Rustchain.System.Agreement

namespace Rustchain

structure Lossless where
  system : System
  /-- The messages sent and not yet delivered. -/
  inFlight : List Message

namespace Lossless

/-- The messages a peer sends when it turns from `p` into `p'`. -/
def sent (p p' : Peer) : List Message :=
  (p'.effects.network.calls.drop p.effects.network.calls.length).flatMap
    (NetworkCall.messages p'.effects.network.knownPeers)

/-- Only a message in flight is delivered. -/
def Enabled (s : Lossless) : System.Action → Prop
  | .deliver message .. => message ∈ s.inFlight
  | _ => True

instance (s : Lossless) : (act : System.Action) → Decidable (s.Enabled act)
  | .client .. => inferInstanceAs (Decidable True)
  | .deliver message .. => inferInstanceAs (Decidable (message ∈ s.inFlight))
  | .tick .. => inferInstanceAs (Decidable True)

/-- What is left in flight when the action is taken. -/
def remaining (s : Lossless) : System.Action → List Message
  | .deliver message .. => s.inFlight.erase message
  | _ => s.inFlight

def step (pf : Platform) (s : Lossless) (act : System.Action) : Lossless :=
  { system := s.system.step pf act
    inFlight := s.remaining act ++
      sent (s.system.peers act.peer) ((s.system.step pf act).peers act.peer) }

/-- A run of the peers of `P`. -/
def Run (pf : Platform) (P : Finset PeerId) : Lossless → Lossless → Prop :=
  Relation.ReflTransGen fun s s' => ∃ act, act.peer ∈ P ∧ s.Enabled act ∧ s' = s.step pf act

/-- Actions taken one after the other. -/
def stepAll (pf : Platform) (s : Lossless) (acts : List System.Action) : Lossless :=
  acts.foldl (step pf) s

/-- The actions are those of peers of `P` and can be taken. -/
theorem run_stepAll {pf : Platform} {P : Finset PeerId} {s : Lossless} {acts : List System.Action}
    (h : Runs.takesAll (step pf) (fun s act => act.peer ∈ P ∧ s.Enabled act) s acts = true) :
    Run pf P s (s.stepAll pf acts) := by
  refine Relation.ReflTransGen.mono ?_ _ _ (Runs.reaches_foldl h)
  rintro s s' ⟨act, ⟨hpeer, henabled⟩, heq⟩
  exact ⟨act, hpeer, henabled, heq⟩

-- ============================================================================
-- Who has done what about a block
-- ============================================================================

/-- The peers that have proposed the block. -/
def proposers (P : Finset PeerId) (s : System) (h : BlockHash) : Finset PeerId :=
  P.filter fun q => (s.peers q).effects.Proposed h

/-- The peers that have announced their approval of it. -/
def announcers (P : Finset PeerId) (s : System) (h : BlockHash) : Finset PeerId :=
  P.filter fun q => (s.peers q).effects.Announced h

/-- A peer has rejected the block itself. -/
def Opposes (s : System) (h : BlockHash) (q : PeerId) : Prop :=
  q ∈ ((s.peers q).ballotOf h).rejections

/-- What peer `p` has to do with. -/
def electorate (P : Finset PeerId) (s : System) (h : BlockHash) (p : PeerId)
    (heard : Finset PeerId) : Electorate :=
  { blockHash := h
    peers := P
    self := p
    proposers := (proposers P s h).erase p
    announcers := (announcers P s h).erase p
    contested := ∃ q ∈ P, Opposes s h q
    opposed := Opposes s h p
    heard }

theorem allProposers_electorate {P : Finset PeerId} {s : System} {h : BlockHash} {p : PeerId}
    (hp : p ∈ P) (heard : Finset PeerId) :
    (s.peers p).effects.allProposers (electorate P s h p heard) = proposers P s h := by
  unfold PeerEffects.allProposers
  split
  · rename_i hproposed
    exact Finset.insert_erase (Finset.mem_filter.mpr ⟨hp, hproposed⟩)
  · rename_i hnot
    exact Finset.erase_eq_of_notMem fun hmem => hnot (Finset.mem_filter.mp hmem).2

/-- A peer `p` counts correctly, and what the others sent has been heard or is in
    flight, unless the block was not staged when an announcement came, and then enough
    others had proposed it. -/
structure Hears (P : Finset PeerId) (h : BlockHash) (s : System) (flight : List Message)
    (p : PeerId) (peer : Peer) (heard : Finset PeerId) : Prop where
  counts : peer.CountsOn (electorate P s h p heard)
  proposals : ∀ q ∈ proposers P s h, q ≠ p → q ∈ heard ∨
    ∃ m ∈ flight, m.from = q ∧ m.to = p ∧ m.body.proposes h = true
  announcements : ∀ q ∈ announcers P s h, q ≠ p → q ∈ heard ∨
    (∃ m ∈ flight, m.from = q ∧ m.to = p ∧ m.body = .blockApproved h) ∨
    2 * VotingConsensus.faultBound P.card ≤ ((proposers P s h).erase p).card

/-- What holds in every state a run reaches. -/
structure Tallied (P : Finset PeerId) (h : BlockHash) (s : Lossless) : Prop where
  sound : ∀ p ∈ P, (s.system.peers p).VotingSound
  flight : ∀ m ∈ s.inFlight, m.from ∈ P ∧ m.to ∈ P ∧ m.from ≠ m.to ∧
    ∃ call ∈ (s.system.peers m.from).effects.network.calls, call.body = m.body
  counts : ∀ p ∈ P, ∃ heard, Hears P h s.system s.inFlight p (s.system.peers p) heard

-- ============================================================================
-- The acting peer
-- ============================================================================

variable {P : Finset PeerId} {h : BlockHash} {s : Lossless}

/-- What a peer that counts correctly says about its ballot. -/
theorem Hears.ballot {s : System} {flight : List Message} {p : PeerId} {peer : Peer}
    {heard : Finset PeerId} (hhears : Hears P h s flight p peer heard) :
    ∃ votings, peer.ballotOf h = peer.effects.ballotOn (electorate P s h p heard) votings ∧
      PeerEffects.Counts (electorate P s h p heard) peer.effects votings [] :=
  hhears.counts.ballotOf

/-- A peer that has refused the block, or the peer it heard that from, opposes it. -/
theorem Tallied.opposed_of_refused (htallied : Tallied P h s) {q : PeerId} (hq : q ∈ P)
    (hrefused : (s.system.peers q).effects.Refused h) : ∃ r ∈ P, Opposes s.system h r := by
  obtain ⟨heard, hhears⟩ := htallied.counts q hq
  obtain ⟨votings, hballot, hcounts⟩ := hhears.ballot
  have hsome := hcounts.fair.rejected (hcounts.refused hrefused)
  rcases hcounts.contested hsome with hself | hcontested
  · refine ⟨q, hq, ?_⟩
    rw [Opposes, hballot]
    exact hself
  · exact hcontested

/-- Whoever has announced its approval, enough peers have proposed the block. -/
theorem Tallied.quorum_of_announced (htallied : Tallied P h s) {q : PeerId}
    (hq : q ∈ announcers P s.system h) :
    2 * VotingConsensus.faultBound P.card ≤ (proposers P s.system h).card := by
  obtain ⟨hmem, hannounced⟩ := Finset.mem_filter.mp hq
  obtain ⟨heard, hhears⟩ := htallied.counts q hmem
  obtain ⟨votings, -, hcounts⟩ := hhears.ballot
  have hquorum := hcounts.quorum (Or.inl (hcounts.announced hannounced))
  rw [allProposers_electorate hmem] at hquorum
  exact hquorum

/-- A peer whose ballot is open has not proposed the block if it is not staged. -/
theorem Tallied.unstaged_not_proposer (htallied : Tallied P h s) {p : PeerId}
    (hopen : ((s.system.peers p).ballotOf h).outcome = none)
    (hunstaged : h ∉ (s.system.peers p).effects.blockKeeper.uncommitedBlocks) :
    p ∉ proposers P s.system h := by
  intro hmem
  obtain ⟨hp, hproposed⟩ := Finset.mem_filter.mp hmem
  obtain ⟨heard, hhears⟩ := htallied.counts p hp
  obtain ⟨votings, hballot, hcounts⟩ := hhears.ballot
  rw [hballot] at hopen
  exact hunstaged ((hcounts.proposed hproposed).2 hopen)

/-- On a ballot that is decided already anybody counts as heard. -/
theorem Tallied.heard_or_open (htallied : Tallied P h s) {p : PeerId} (hp : p ∈ P)
    (src : PeerId) :
    ∃ heard, Hears P h s.system s.inFlight p (s.system.peers p) heard ∧
      (src ∈ heard ∨ ((s.system.peers p).ballotOf h).outcome = none) := by
  obtain ⟨heard, hhears⟩ := htallied.counts p hp
  by_cases hopen : ((s.system.peers p).ballotOf h).outcome = none
  · exact ⟨heard, hhears, Or.inr hopen⟩
  · refine ⟨insert src heard, ⟨hhears.counts.hear_decided hopen src, ?_, ?_⟩,
      Or.inl (Finset.mem_insert_self _ _)⟩
    · exact fun q hq hne => (hhears.proposals q hq hne).imp_left Finset.mem_insert_of_mem
    · exact fun q hq hne => (hhears.announcements q hq hne).imp_left Finset.mem_insert_of_mem

/-- A message in flight is delivered: its sender has done what it says, and is heard. -/
theorem Tallied.deliver (htallied : Tallied P h s) (pf : Platform) {message : Message}
    (hmessage : message ∈ s.inFlight) (now : Instant) (draw : Nat) :
    ∃ heard, Hears P h s.system (s.inFlight.erase message) message.to
      ((s.system.peers message.to).handle pf (.message message now draw)) heard := by
  obtain ⟨hsrc, hdst, hne, call, hcall, hbody⟩ := htallied.flight message hmessage
  obtain ⟨heard, ⟨hcounts, hproposals, hannouncements⟩, hopen⟩ :=
    htallied.heard_or_open hdst message.from
  have hproposer : message.body.proposes h = true →
      message.from ∈ P ∧ message.from ∈ (proposers P s.system h).erase message.to :=
    fun hproposes => ⟨hsrc, Finset.mem_erase.mpr ⟨hne, Finset.mem_filter.mpr
      ⟨hsrc, call, hcall, by rw [hbody]; exact hproposes⟩⟩⟩
  have hannouncer : message.body = .blockApproved h →
      message.from ∈ P ∧ message.from ∈ (announcers P s.system h).erase message.to :=
    fun heq => ⟨hsrc, Finset.mem_erase.mpr ⟨hne, Finset.mem_filter.mpr
      ⟨hsrc, call, hcall, hbody.trans heq⟩⟩⟩
  have hcontested : message.body = .blockReject h → ∃ r ∈ P, Opposes s.system h r :=
    fun heq => htallied.opposed_of_refused hsrc ⟨call, hcall, hbody.trans heq⟩
  have hcount := Peer.handleMessage_counts pf hcounts message now draw hproposer hannouncer
    hcontested
  have hheard := Peer.subset_hearing (s.system.peers message.to)
    (electorate P s.system h message.to heard) message
  refine ⟨(s.system.peers message.to).hearing (electorate P s.system h message.to heard) message,
    hcount, ?_, ?_⟩
  · intro q hq hqne
    rcases hproposals q hq hqne with hold | ⟨m, hm, rfl, hto, hproposes⟩
    · exact Or.inl (hheard hold)
    by_cases hsame : m = message
    · subst hsame
      exact Or.inl (Peer.mem_hearing (Or.inl hproposes))
    · exact Or.inr ⟨m, (List.mem_erase_of_ne hsame).mpr hm, rfl, hto, hproposes⟩
  · intro q hq hqne
    rcases hannouncements q hq hqne with hold | ⟨m, hm, rfl, hto, happroved⟩ | henough
    · exact Or.inl (hheard hold)
    · by_cases hsame : m = message
      · subst hsame
        rcases hopen with hold | hopen
        · exact Or.inl (hheard hold)
        by_cases hstaged : h ∈ (s.system.peers m.to).effects.blockKeeper.uncommitedBlocks
        · exact Or.inl (Peer.mem_hearing (Or.inr ⟨happroved, hstaged⟩))
        · -- The announcement is dropped, and the peer is not among the proposers.
          refine Or.inr (Or.inr ?_)
          rw [Finset.erase_eq_of_notMem (htallied.unstaged_not_proposer hopen hstaged)]
          exact htallied.quorum_of_announced hq
      · exact Or.inr (Or.inl ⟨m, (List.mem_erase_of_ne hsame).mpr hm, rfl, hto, happroved⟩)
    · exact Or.inr (Or.inr henough)

/-- The acting peer counts correctly among what the others had done before. -/
theorem Tallied.acting (htallied : Tallied P h s) (pf : Platform) {act : System.Action}
    (hmem : act.peer ∈ P) (henabled : s.Enabled act) :
    ∃ heard, Hears P h s.system (s.remaining act) act.peer
      ((s.system.peers act.peer).handle pf act.event) heard := by
  cases act with
  | client p clientTx now draw =>
      obtain ⟨heard, hcounts, hproposals, hannouncements⟩ := htallied.counts p hmem
      refine ⟨heard, ?_, hproposals, hannouncements⟩
      have hcount := Peer.handleMessage_counts pf hcounts
        { «from» := 0, «to» := p, body := .clientTransaction clientTx } now draw
        (fun heq => by cases heq) (fun heq => by cases heq) (fun heq => by cases heq)
      rw [Peer.hearing, if_neg (by simp [MessageBody.proposes])] at hcount
      exact hcount
  | tick p now =>
      obtain ⟨heard, hcounts, hproposals, hannouncements⟩ := htallied.counts p hmem
      exact ⟨heard, Peer.handleTick_counts hcounts now, hproposals, hannouncements⟩
  | deliver message now draw => exact htallied.deliver pf henabled now draw

-- ============================================================================
-- Steps and runs
-- ============================================================================

theorem step_self (pf : Platform) (s : Lossless) (act : System.Action) :
    (s.step pf act).system.peers act.peer = (s.system.peers act.peer).handle pf act.event :=
  Function.update_self ..

theorem step_other (pf : Platform) (s : Lossless) {act : System.Action} {q : PeerId}
    (hq : q ≠ act.peer) : (s.step pf act).system.peers q = s.system.peers q :=
  Function.update_of_ne hq ..

/-- The acting peer keeps its calls and sends the new ones. -/
theorem Tallied.calls (htallied : Tallied P h s) (pf : Platform) {act : System.Action}
    (hmem : act.peer ∈ P) :
    ((s.step pf act).system.peers act.peer).VotingSound ∧
      ∃ calls, ((s.step pf act).system.peers act.peer).effects.network.calls =
          (s.system.peers act.peer).effects.network.calls ++ calls ∧
        (s.step pf act).inFlight = s.remaining act ++ calls.flatMap (NetworkCall.messages
          ((s.step pf act).system.peers act.peer).effects.network.knownPeers) := by
  have hstep := Peer.handle_quietStep pf (htallied.sound act.peer hmem) act.event h
  obtain ⟨calls, hadvances⟩ := hstep.advances
  have hcalls := hadvances.calls
  rw [← step_self pf s act] at hcalls
  refine ⟨?_, calls, hcalls, ?_⟩
  · rw [step_self]
    exact hstep.sound
  · show s.remaining act ++ sent _ ((s.step pf act).system.peers act.peer) = _
    rw [sent, hcalls, List.drop_left]

/-- Who has proposed or announced has done so after the step as well. -/
theorem Tallied.calls_kept (htallied : Tallied P h s) (pf : Platform) {act : System.Action}
    (hmem : act.peer ∈ P) (q : PeerId) {call : NetworkCall}
    (hcall : call ∈ (s.system.peers q).effects.network.calls) :
    call ∈ ((s.step pf act).system.peers q).effects.network.calls := by
  by_cases hq : q = act.peer
  · subst hq
    obtain ⟨-, calls, hcalls, -⟩ := htallied.calls pf hmem
    rw [hcalls]
    exact List.mem_append_left _ hcall
  · rw [step_other pf s hq]
    exact hcall

/-- A message of the acting peer goes to everybody else. -/
theorem Tallied.reaches (htallied : Tallied P h s) (pf : Platform) {act : System.Action}
    (hmem : act.peer ∈ P) (henabled : s.Enabled act) {call : NetworkCall} {q : PeerId}
    (hq : q ∈ P) (hne : q ≠ act.peer)
    (hnew : call ∈ ((s.step pf act).system.peers act.peer).effects.network.calls)
    (hold : call ∉ (s.system.peers act.peer).effects.network.calls) :
    ∃ m ∈ (s.step pf act).inFlight, m.from = act.peer ∧ m.to = q ∧ m.body = call.body := by
  obtain ⟨-, calls, hcalls, hflight⟩ := htallied.calls pf hmem
  obtain ⟨heard, hcounts, -⟩ := htallied.acting pf hmem henabled
  rw [← step_self] at hcounts
  obtain ⟨votings, -, hcounts⟩ := hcounts.ballotOf
  obtain ⟨body, rfl⟩ := hcounts.calls call hnew
  have hself : (electorate P s.system h act.peer heard).self = act.peer := rfl
  have hknown : q ∈ ((s.step pf act).system.peers act.peer).effects.knownPeers := by
    have hpeers : q ∈ (electorate P s.system h act.peer heard).peers := hq
    rw [← hcounts.known] at hpeers
    exact List.mem_toFinset.mp ((Finset.mem_insert.mp hpeers).resolve_left hne)
  rw [hcalls] at hnew
  refine ⟨{ «from» := act.peer, «to» := q, body }, ?_, rfl, rfl, rfl⟩
  rw [hflight]
  refine List.mem_append_right _ (List.mem_flatMap.mpr
    ⟨_, (List.mem_append.mp hnew).resolve_left hold, ?_⟩)
  rw [hself, NetworkCall.messages]
  exact List.mem_map.mpr ⟨q, List.mem_filter.mpr ⟨hknown, by simpa using hne⟩, rfl⟩

/-- What somebody says for the first time is on its way to everybody else. -/
theorem Tallied.newly_sent (htallied : Tallied P h s) (pf : Platform) {act : System.Action}
    (hmem : act.peer ∈ P) (henabled : s.Enabled act) (Q : MessageBody → Prop) {q r : PeerId}
    (hq : q ∈ P) (hother : q ≠ act.peer)
    (hnow : ∃ call ∈ ((s.step pf act).system.peers r).effects.network.calls, Q call.body)
    (hbefore : ¬ ∃ call ∈ (s.system.peers r).effects.network.calls, Q call.body) :
    ∃ m ∈ (s.step pf act).inFlight, m.from = r ∧ m.to = q ∧ Q m.body := by
  obtain ⟨call, hcall, hbody⟩ := hnow
  have hnot : call ∉ (s.system.peers r).effects.network.calls :=
    fun hold => hbefore ⟨call, hold, hbody⟩
  have hact : r = act.peer := by
    by_contra hne
    rw [step_other pf s hne] at hcall
    exact hnot hcall
  subst hact
  obtain ⟨m, hm, hsrc, hto, hsent⟩ := htallied.reaches pf hmem henabled hq hother hcall hnot
  exact ⟨m, hm, hsrc, hto, by rw [hsent]; exact hbody⟩

/-- What is in flight between others stays in flight. -/
theorem mem_step_inFlight (pf : Platform) {act : System.Action} {m : Message} (hm : m ∈ s.inFlight)
    (hto : m.to ≠ act.peer) : m ∈ (s.step pf act).inFlight := by
  apply List.mem_append_left
  cases act with
  | deliver message now draw =>
      exact (List.mem_erase_of_ne fun heq => hto (by rw [heq]; rfl)).mpr hm
  | client p clientTx now draw => exact hm
  | tick p now => exact hm

theorem Tallied.flight_step (htallied : Tallied P h s) (pf : Platform) {act : System.Action}
    (hmem : act.peer ∈ P) (henabled : s.Enabled act) {m : Message}
    (hm : m ∈ (s.step pf act).inFlight) :
    m.from ∈ P ∧ m.to ∈ P ∧ m.from ≠ m.to ∧
      ∃ call ∈ ((s.step pf act).system.peers m.from).effects.network.calls, call.body = m.body := by
  obtain ⟨-, calls, hcalls, hflight⟩ := htallied.calls pf hmem
  rw [hflight] at hm
  rcases List.mem_append.mp hm with hold | hnew
  · have hbefore : m ∈ s.inFlight := by
      cases act with
      | deliver message now draw => exact List.mem_of_mem_erase hold
      | client p clientTx now draw => exact hold
      | tick p now => exact hold
    obtain ⟨hsrc, hdst, hne, call, hcall, hbody⟩ := htallied.flight m hbefore
    exact ⟨hsrc, hdst, hne, call, htallied.calls_kept pf hmem m.from hcall, hbody⟩
  · obtain ⟨call, hcall, hmessage⟩ := List.mem_flatMap.mp hnew
    obtain ⟨heard, hcounts, -⟩ := htallied.acting pf hmem henabled
    rw [← step_self] at hcounts
    obtain ⟨votings, -, hcounts⟩ := hcounts.ballotOf
    have hmade : call ∈ ((s.step pf act).system.peers act.peer).effects.network.calls := by
      rw [hcalls]
      exact List.mem_append_right _ hcall
    obtain ⟨body, rfl⟩ := hcounts.calls call hmade
    obtain ⟨dst, hdst, rfl⟩ := List.mem_map.mp hmessage
    obtain ⟨hknown, hother⟩ := List.mem_filter.mp hdst
    refine ⟨hmem, ?_, ?_, _, hmade, rfl⟩
    · show dst ∈ (electorate P s.system h act.peer heard).peers
      rw [← hcounts.known]
      exact Finset.mem_insert_of_mem (List.mem_toFinset.mpr hknown)
    · simpa using Ne.symm (by simpa using hother)

/-- What the others are like is as before. -/
theorem step_filter_erase (pf : Platform) (s : Lossless) (act : System.Action)
    (R : Peer → Prop) [DecidablePred R] :
    (P.filter fun q => R ((s.step pf act).system.peers q)).erase act.peer =
      (P.filter fun q => R (s.system.peers q)).erase act.peer := by
  ext q
  rw [Finset.mem_erase, Finset.mem_erase, Finset.mem_filter, Finset.mem_filter]
  refine and_congr_right fun hne => ?_
  rw [step_other pf s hne]

/-- The others are as before, and the acting peer may have joined the proposers. -/
theorem Tallied.proposers_step (htallied : Tallied P h s) (pf : Platform) {act : System.Action}
    (hmem : act.peer ∈ P) :
    proposers P s.system h ⊆ proposers P (s.step pf act).system h ∧
      (proposers P (s.step pf act).system h).erase act.peer =
        (proposers P s.system h).erase act.peer := by
  refine ⟨?_, step_filter_erase pf s act fun p => p.effects.Proposed h⟩
  intro q hq
  obtain ⟨hqmem, call, hcall, hbody⟩ := Finset.mem_filter.mp hq
  exact Finset.mem_filter.mpr ⟨hqmem, call, htallied.calls_kept pf hmem q hcall, hbody⟩

theorem Tallied.announcers_step (htallied : Tallied P h s) (pf : Platform) {act : System.Action}
    (hmem : act.peer ∈ P) :
    announcers P s.system h ⊆ announcers P (s.step pf act).system h ∧
      (announcers P (s.step pf act).system h).erase act.peer =
        (announcers P s.system h).erase act.peer := by
  refine ⟨?_, step_filter_erase pf s act fun p => p.effects.Announced h⟩
  intro q hq
  obtain ⟨hqmem, call, hcall, hbody⟩ := Finset.mem_filter.mp hq
  exact Finset.mem_filter.mpr ⟨hqmem, call, htallied.calls_kept pf hmem q hcall, hbody⟩

/-- Nobody who has rejected the block takes that back. -/
theorem Tallied.opposes_step (htallied : Tallied P h s) (pf : Platform) {act : System.Action}
    (hmem : act.peer ∈ P) (henabled : s.Enabled act) {q : PeerId} (hq : Opposes s.system h q) :
    Opposes (s.step pf act).system h q := by
  by_cases hself : q = act.peer
  · subst hself
    obtain ⟨heard, hcounts, -⟩ := htallied.acting pf hmem henabled
    rw [← step_self] at hcounts
    obtain ⟨votings, hballot, hcounts⟩ := hcounts.ballotOf
    have hopposed := hcounts.opposed hq
    rw [← hballot] at hopposed
    exact hopposed
  · rw [Opposes, step_other pf s hself]
    exact hq

/-- Somebody who opposed the block before does so now. -/
theorem Tallied.contested_step (htallied : Tallied P h s) (pf : Platform) {act : System.Action}
    (hmem : act.peer ∈ P) (henabled : s.Enabled act) :
    (∃ q ∈ P, Opposes s.system h q) → ∃ q ∈ P, Opposes (s.step pf act).system h q :=
  fun ⟨q, hq, hopposed⟩ => ⟨q, hq, htallied.opposes_step pf hmem henabled hopposed⟩

/-- The acting peer among the others as they are now. -/
theorem Tallied.step_actor (htallied : Tallied P h s) (pf : Platform) {act : System.Action}
    (hmem : act.peer ∈ P) (henabled : s.Enabled act) :
    ∃ heard, Hears P h (s.step pf act).system (s.step pf act).inFlight act.peer
      ((s.step pf act).system.peers act.peer) heard := by
  obtain ⟨-, hproposers⟩ := htallied.proposers_step pf hmem
  obtain ⟨-, hannouncers⟩ := htallied.announcers_step pf hmem
  obtain ⟨heard, hcounts, hproposals, hannouncements⟩ := htallied.acting pf hmem henabled
  rw [← step_self] at hcounts
  obtain ⟨votings, hballot, hfields⟩ := hcounts.ballotOf
  refine ⟨heard, ?_, ?_, ?_⟩
  · refine hcounts.mono rfl rfl rfl hproposers.symm.subset hannouncers.symm.subset rfl ?_
      (fun hopposed => hopposed) ?_
    · intro hsome
      rw [hballot] at hsome ⊢
      exact (hfields.contested hsome).imp_right (htallied.contested_step pf hmem henabled)
    · intro hquorum
      rw [hballot] at hquorum
      have hall : ((s.step pf act).system.peers act.peer).effects.allProposers
          (electorate P (s.step pf act).system h act.peer heard) =
          ((s.step pf act).system.peers act.peer).effects.allProposers
            (electorate P s.system h act.peer heard) := by
        have hothers : (electorate P (s.step pf act).system h act.peer heard).proposers =
            (electorate P s.system h act.peer heard).proposers := hproposers
        unfold PeerEffects.allProposers
        rw [hothers]
        rfl
      rw [hall]
      refine hfields.quorum (hquorum.imp_right fun hsome => ?_)
      show ((announcers P s.system h).erase act.peer).Nonempty
      rw [← hannouncers]
      exact hsome
  · intro r hr hne
    have hbefore : r ∈ (proposers P s.system h).erase act.peer := by
      rw [← hproposers]
      exact Finset.mem_erase.mpr ⟨hne, hr⟩
    refine (hproposals r (Finset.mem_erase.mp hbefore).2 hne).imp_right ?_
    rintro ⟨m, hm, hfacts⟩
    exact ⟨m, List.mem_append_left _ hm, hfacts⟩
  · intro r hr hne
    have hbefore : r ∈ (announcers P s.system h).erase act.peer := by
      rw [← hannouncers]
      exact Finset.mem_erase.mpr ⟨hne, hr⟩
    rw [hproposers]
    refine (hannouncements r (Finset.mem_erase.mp hbefore).2 hne).imp_right fun h => h.imp_left ?_
    rintro ⟨m, hm, hfacts⟩
    exact ⟨m, List.mem_append_left _ hm, hfacts⟩

/-- Whoever has announced an approval after the step, enough have proposed by then. -/
theorem Tallied.step_quorum (htallied : Tallied P h s) (pf : Platform) {act : System.Action}
    (hmem : act.peer ∈ P) (henabled : s.Enabled act) {q : PeerId}
    (hq : q ∈ announcers P (s.step pf act).system h) :
    2 * VotingConsensus.faultBound P.card ≤ (proposers P (s.step pf act).system h).card := by
  by_cases hself : q = act.peer
  · subst hself
    obtain ⟨heard, hhears⟩ := htallied.step_actor pf hmem henabled
    obtain ⟨votings, -, hfields⟩ := hhears.ballot
    have henough := hfields.quorum (Or.inl (hfields.announced (Finset.mem_filter.mp hq).2))
    rw [allProposers_electorate hmem] at henough
    exact henough
  · have hbefore : q ∈ announcers P s.system h := by
      have := Finset.mem_erase.mpr ⟨hself, hq⟩
      rw [(htallied.announcers_step pf hmem).2] at this
      exact (Finset.mem_erase.mp this).2
    exact (htallied.quorum_of_announced hbefore).trans
      (Finset.card_le_card (htallied.proposers_step pf hmem).1)

/-- A peer that does not act counts as before among the others as they are now. -/
theorem Tallied.step_counts (htallied : Tallied P h s) (pf : Platform) {act : System.Action}
    (hmem : act.peer ∈ P) (henabled : s.Enabled act) {q : PeerId} (hq : q ∈ P)
    (hself : q ≠ act.peer) {heard : Finset PeerId}
    (hcounts : (s.system.peers q).CountsOn (electorate P s.system h q heard)) :
    ((s.step pf act).system.peers q).CountsOn (electorate P (s.step pf act).system h q heard) := by
  have hgrow := (htallied.proposers_step pf hmem).1
  have hgrow' := (htallied.announcers_step pf hmem).1
  have hsame : (s.step pf act).system.peers q = s.system.peers q := step_other pf s hself
  obtain ⟨votings, hballot, hfields⟩ := hcounts.ballotOf
  rw [hsame]
  refine hcounts.mono rfl rfl rfl (Finset.erase_subset_erase q hgrow)
    (Finset.erase_subset_erase q hgrow') rfl ?_ ?_ ?_
  · intro hsome
    rw [hballot] at hsome ⊢
    exact (hfields.contested hsome).imp_right (htallied.contested_step pf hmem henabled)
  · intro hopposed
    change q ∈ (((s.step pf act).system.peers q).ballotOf h).rejections at hopposed
    rw [hsame] at hopposed
    exact hopposed
  · intro hwhy
    have hall : (s.system.peers q).effects.allProposers
        (electorate P (s.step pf act).system h q heard) =
        proposers P (s.step pf act).system h := by
      rw [← hsame]
      exact allProposers_electorate hq heard
    rw [hall]
    rcases hwhy with happroved | ⟨r, hr⟩
    · rw [hballot] at happroved
      have henough := hfields.quorum (Or.inl happroved)
      rw [allProposers_electorate hq] at henough
      exact henough.trans (Finset.card_le_card hgrow)
    · exact htallied.step_quorum pf hmem henabled (Finset.mem_erase.mp hr).2

/-- A peer that does not act hears of what the acting peer says. -/
theorem Tallied.step_other (htallied : Tallied P h s) (pf : Platform) {act : System.Action}
    (hmem : act.peer ∈ P) (henabled : s.Enabled act) {q : PeerId} (hq : q ∈ P)
    (hself : q ≠ act.peer) :
    ∃ heard, Hears P h (s.step pf act).system (s.step pf act).inFlight q
      ((s.step pf act).system.peers q) heard := by
  obtain ⟨heard, hcounts, hproposals, hannouncements⟩ := htallied.counts q hq
  refine ⟨heard, htallied.step_counts pf hmem henabled hq hself hcounts, ?_, ?_⟩
  · intro r hr hne
    by_cases hbefore : r ∈ proposers P s.system h
    · refine (hproposals r hbefore hne).imp_right ?_
      rintro ⟨m, hm, hsrc, hto, hbody⟩
      exact ⟨m, mem_step_inFlight pf hm (by rw [hto]; exact hself), hsrc, hto, hbody⟩
    · obtain ⟨hrmem, hproposed⟩ := Finset.mem_filter.mp hr
      exact Or.inr (htallied.newly_sent pf hmem henabled (fun body => body.proposes h = true) hq
        hself hproposed fun hold => hbefore (Finset.mem_filter.mpr ⟨hrmem, hold⟩))
  · intro r hr hne
    by_cases hbefore : r ∈ announcers P s.system h
    · rcases hannouncements r hbefore hne with hheard | ⟨m, hm, hsrc, hto, hbody⟩ | henough
      · exact Or.inl hheard
      · exact Or.inr (Or.inl ⟨m, mem_step_inFlight pf hm (by rw [hto]; exact hself), hsrc, hto,
          hbody⟩)
      · exact Or.inr (Or.inr (henough.trans (Finset.card_le_card
          (Finset.erase_subset_erase q (htallied.proposers_step pf hmem).1))))
    · obtain ⟨hrmem, hannounced⟩ := Finset.mem_filter.mp hr
      exact Or.inr (Or.inl (htallied.newly_sent pf hmem henabled (· = .blockApproved h) hq hself
        hannounced fun hold => hbefore (Finset.mem_filter.mpr ⟨hrmem, hold⟩)))

/-- Every step keeps the tally. -/
theorem Tallied.step (htallied : Tallied P h s) (pf : Platform) {act : System.Action}
    (hmem : act.peer ∈ P) (henabled : s.Enabled act) : Tallied P h (s.step pf act) := by
  refine ⟨?_, fun m hm => htallied.flight_step pf hmem henabled hm, ?_⟩
  · intro q hq
    by_cases hself : q = act.peer
    · rw [hself]
      exact (htallied.calls pf hmem).1
    · rw [Lossless.step_other pf s hself]
      exact htallied.sound q hq
  · intro q hq
    by_cases hself : q = act.peer
    · rw [hself]
      exact htallied.step_actor pf hmem henabled
    · exact htallied.step_other pf hmem henabled hq hself

-- ============================================================================
-- Runs
-- ============================================================================

/-- Every peer of `P` starts afresh, on whatever blocks are in its directory, and knows
    the others. -/
def Started (pf : Platform) (P : Finset PeerId) (s : Lossless) : Prop :=
  s.inFlight = [] ∧ ∀ p ∈ P, ∃ knownPeers dir mempoolSize walk signingKey,
    (∀ q, q ∈ knownPeers ↔ q ∈ P ∧ q ≠ p) ∧
      s.system.peers p = .startVoting pf p { knownPeers, calls := [] } dir mempoolSize walk
        signingKey

theorem Started.tallied {pf : Platform} (hstart : Started pf P s) (hhash : h ≠ emptyHash) :
    Tallied P h s := by
  obtain ⟨hquiet, hpeers⟩ := hstart
  have hcalls : ∀ p ∈ P, ∀ call, call ∉ (s.system.peers p).effects.network.calls := by
    intro p hp call
    obtain ⟨knownPeers, dir, mempoolSize, walk, signingKey, -, heq⟩ := hpeers p hp
    rw [heq]
    exact List.not_mem_nil
  have hproposers : proposers P s.system h = ∅ :=
    Finset.filter_eq_empty_iff.mpr fun q hq ⟨call, hcall, _⟩ => hcalls q hq call hcall
  have hannouncers : announcers P s.system h = ∅ :=
    Finset.filter_eq_empty_iff.mpr fun q hq ⟨call, hcall, _⟩ => hcalls q hq call hcall
  refine ⟨?_, ?_, ?_⟩
  · intro p hp
    obtain ⟨knownPeers, dir, mempoolSize, walk, signingKey, -, heq⟩ := hpeers p hp
    rw [heq]
    exact Peer.startVoting_sound ..
  · intro m hm
    rw [hquiet] at hm
    exact absurd hm List.not_mem_nil
  · intro p hp
    refine ⟨∅, ?_, ?_, ?_⟩
    · obtain ⟨knownPeers, dir, mempoolSize, walk, signingKey, hknown, heq⟩ := hpeers p hp
      have hcounts := Peer.startVoting_counts pf (electorate P s.system h p ∅) knownPeers ?_ hhash
        ?_ rfl ?_ dir mempoolSize walk signingKey
      · rw [heq]
        exact hcounts
      · ext q
        show q ∈ insert p knownPeers.toFinset ↔ q ∈ P
        rw [Finset.mem_insert, List.mem_toFinset, hknown]
        constructor
        · rintro (rfl | ⟨hq, -⟩)
          · exact hp
          · exact hq
        · intro hq
          by_cases hself : q = p
          · exact Or.inl hself
          · exact Or.inr ⟨hq, hself⟩
      · show (announcers P s.system h).erase p = ∅
        rw [hannouncers]
        rfl
      · show ¬ p ∈ ((s.system.peers p).ballotOf h).rejections
        rw [heq]
        exact Finset.notMem_empty p
    · rw [hproposers]
      exact fun q hq => absurd hq (Finset.notMem_empty q)
    · rw [hannouncers]
      exact fun q hq => absurd hq (Finset.notMem_empty q)

theorem Run.tallied {pf : Platform} {s₀ : Lossless} (hrun : Run pf P s₀ s)
    (hstart : Tallied P h s₀) : Tallied P h s := by
  induction hrun with
  | refl => exact hstart
  | tail _ hstep ih =>
      obtain ⟨act, hmem, henabled, rfl⟩ := hstep
      exact ih.step pf hmem henabled

-- ============================================================================
-- A quiet network
-- ============================================================================

/-- Nobody who approves the block itself counts a rejection of it. -/
theorem Tallied.no_rejections (htallied : Tallied P h s)
    (hown : ∀ p ∈ P, p ∈ ((s.system.peers p).ballotOf h).approvals) {p : PeerId} (hp : p ∈ P) :
    ((s.system.peers p).ballotOf h).rejections = ∅ := by
  have hunopposed : ∀ q ∈ P, ¬ Opposes s.system h q := by
    intro q hq hopposed
    obtain ⟨heard, hcounts, -⟩ := htallied.counts q hq
    obtain ⟨votings, hballot, hfields⟩ := hcounts.ballotOf
    have hdisjoint := hfields.fair.disjoint
    rw [← hballot] at hdisjoint
    exact Finset.disjoint_left.mp hdisjoint (hown q hq) hopposed
  obtain ⟨heard, hcounts, -⟩ := htallied.counts p hp
  obtain ⟨votings, hballot, hfields⟩ := hcounts.ballotOf
  have hcontested := hfields.contested
  rw [← hballot] at hcontested
  by_contra hsome
  rcases hcontested (Finset.nonempty_iff_ne_empty.mpr hsome) with hself | ⟨q, hq, hopposed⟩
  · exact hunopposed p hp hself
  · exact hunopposed q hq hopposed

/-- When nothing is in flight, a peer that is undecided has counted every proposer. -/
theorem Tallied.proposers_subset (htallied : Tallied P h s) (hquiet : s.inFlight = [])
    (hown : ∀ p ∈ P, p ∈ ((s.system.peers p).ballotOf h).approvals) {p : PeerId} (hp : p ∈ P)
    (hopen : ((s.system.peers p).ballotOf h).outcome = none) :
    insert p (proposers P s.system h) ⊆ ((s.system.peers p).ballotOf h).approvals := by
  obtain ⟨heard, hcounts, hproposals, -⟩ := htallied.counts p hp
  obtain ⟨votings, hballot, hfields⟩ := hcounts.ballotOf
  have hheard := hfields.heard
  rw [← hballot] at hheard
  intro q hq
  rcases Finset.mem_insert.mp hq with rfl | hq
  · exact hown q hp
  · by_cases hself : q = p
    · rw [hself]
      exact hown p hp
    rcases hproposals q hq hself with hmem | ⟨m, hm, -⟩
    · refine (hheard q hmem hopen).resolve_right fun hrejected => ?_
      have hempty : ((s.system.peers p).ballotOf h).rejections = ∅ :=
        htallied.no_rejections hown hp
      exact absurd (hempty ▸ hrejected) (Finset.notMem_empty q)
    · rw [hquiet] at hm
      exact absurd hm List.not_mem_nil

/-- An undecided peer has counted at most `2f` approvals. -/
theorem Tallied.approvals_card_le (htallied : Tallied P h s) {p : PeerId} (hp : p ∈ P)
    (hopen : ((s.system.peers p).ballotOf h).outcome = none) :
    ((s.system.peers p).ballotOf h).approvals.card ≤ 2 * VotingConsensus.faultBound P.card := by
  obtain ⟨heard, hcounts, -⟩ := htallied.counts p hp
  obtain ⟨votings, hballot, hfields⟩ := hcounts.ballotOf
  have hfew := hfields.fair.undecided
  have hparticipants := hfields.participants
  rw [← hballot] at hfew hparticipants
  have hlt := hfew hopen
  rw [hparticipants] at hlt
  exact Nat.lt_succ_iff.mp hlt

/-- When nothing is in flight, an undecided peer has counted whoever announced an
    approval, unless the announcement came before the block. -/
theorem Tallied.announcer_counted (htallied : Tallied P h s) (hquiet : s.inFlight = [])
    (hown : ∀ p ∈ P, p ∈ ((s.system.peers p).ballotOf h).approvals) {p q : PeerId} (hp : p ∈ P)
    (hopen : ((s.system.peers p).ballotOf h).outcome = none)
    (hq : q ∈ announcers P s.system h) (hne : q ≠ p) :
    q ∈ ((s.system.peers p).ballotOf h).approvals ∨
      2 * VotingConsensus.faultBound P.card ≤ ((proposers P s.system h).erase p).card := by
  obtain ⟨heard, hcounts, -, hannouncements⟩ := htallied.counts p hp
  obtain ⟨votings, hballot, hfields⟩ := hcounts.ballotOf
  have hheard := hfields.heard
  rw [← hballot] at hheard
  rcases hannouncements q hq hne with hmem | ⟨m, hm, -⟩ | henough
  · refine Or.inl ((hheard q hmem hopen).resolve_right fun hrejected => ?_)
    have hempty : ((s.system.peers p).ballotOf h).rejections = ∅ :=
      htallied.no_rejections hown hp
    exact absurd (hempty ▸ hrejected) (Finset.notMem_empty q)
  · rw [hquiet] at hm
    exact absurd hm List.not_mem_nil
  · exact Or.inr henough

/-- A peer that approves the block itself does not see it rejected. -/
theorem Tallied.approved_of_decided (htallied : Tallied P h s)
    (hown : ∀ p ∈ P, p ∈ ((s.system.peers p).ballotOf h).approvals) {p : PeerId} (hp : p ∈ P)
    (hdecided : ((s.system.peers p).ballotOf h).outcome ≠ none) :
    ((s.system.peers p).ballotOf h).outcome = some .approved := by
  obtain ⟨heard, hcounts, -⟩ := htallied.counts p hp
  obtain ⟨votings, hballot, hfields⟩ := hcounts.ballotOf
  have hfair := hfields.fair
  rw [← hballot] at hfair
  obtain ⟨outcome, houtcome⟩ := Option.ne_none_iff_exists'.mp hdecided
  cases outcome with
  | approved => exact houtcome
  | pending => exact absurd houtcome hfair.settled
  | rejected =>
      have hempty : ((s.system.peers p).ballotOf h).rejections = ∅ :=
        htallied.no_rejections hown hp
      exact absurd hempty (Finset.nonempty_iff_ne_empty.mp (hfair.rejected houtcome))

/-- A peer that has approved has announced it. -/
theorem Tallied.announces (htallied : Tallied P h s) {p : PeerId} (hp : p ∈ P)
    (happroved : ((s.system.peers p).ballotOf h).outcome = some .approved) :
    p ∈ announcers P s.system h := by
  obtain ⟨heard, hcounts, -⟩ := htallied.counts p hp
  obtain ⟨votings, hballot, hfields⟩ := hcounts.ballotOf
  have hannounces := hfields.announces
  rw [← hballot] at hannounces
  exact Finset.mem_filter.mpr
    ⟨hp, (hannounces happroved).resolve_right List.not_mem_nil⟩

/-- When the network is quiet and every peer has approved the block, all ballots on it
    are decided if and only if `2f` peers have proposed it. -/
theorem approved_iff_proposed {pf : Platform} {P : Finset PeerId} {s₀ s : Lossless}
    {h : BlockHash} (hstart : Started pf P s₀) (hrun : Run pf P s₀ s) (hhash : h ≠ emptyHash)
    (hnonempty : P.Nonempty) (hquiet : s.inFlight = [])
    (hown : ∀ p ∈ P, p ∈ ((s.system.peers p).ballotOf h).approvals) :
    (∀ p ∈ P, ((s.system.peers p).ballotOf h).outcome = some .approved) ↔
      2 * VotingConsensus.faultBound P.card ≤ (proposers P s.system h).card := by
  have htallied : Tallied P h s := hrun.tallied (hstart.tallied hhash)
  constructor
  · intro happroved
    obtain ⟨p, hp⟩ := hnonempty
    exact htallied.quorum_of_announced (htallied.announces hp (happroved p hp))
  · intro hquorum p hp
    by_contra hnot
    have hopen : ((s.system.peers p).ballotOf h).outcome = none := by
      by_contra hdecided
      exact hnot (htallied.approved_of_decided hown hp hdecided)
    have hfew := (Finset.card_le_card (htallied.proposers_subset hquiet hown hp hopen)).trans
      (htallied.approvals_card_le hp hopen)
    -- The undecided peer is one of the proposers, and there are just `2f` of them.
    have hmem : p ∈ proposers P s.system h := by
      by_contra hmem
      rw [Finset.card_insert_of_notMem hmem] at hfew
      omega
    rw [Finset.insert_eq_of_mem hmem] at hfew
    -- So somebody has not proposed the block, and it has counted one vote more.
    have hmore : (proposers P s.system h).card < P.card := by
      have hpos : 0 < P.card := Finset.card_pos.mpr hnonempty
      unfold VotingConsensus.faultBound at hfew
      omega
    obtain ⟨q, hq, hqnot⟩ := Finset.exists_mem_notMem_of_card_lt_card hmore
    have hne : q ≠ p := fun heq => hqnot (heq ▸ hmem)
    have hdecided : ((s.system.peers q).ballotOf h).outcome ≠ none := by
      intro hopen'
      have hfew' := (Finset.card_le_card (htallied.proposers_subset hquiet hown hq hopen')).trans
        (htallied.approvals_card_le hq hopen')
      rw [Finset.card_insert_of_notMem hqnot] at hfew'
      omega
    have hannouncer := htallied.announces hq (htallied.approved_of_decided hown hq hdecided)
    rcases htallied.announcer_counted hquiet hown hp hopen hannouncer hne with hcounted | henough
    · have hsubset : insert q (proposers P s.system h) ⊆
          ((s.system.peers p).ballotOf h).approvals := by
        refine Finset.insert_subset hcounted ((Finset.subset_insert p _).trans ?_)
        exact htallied.proposers_subset hquiet hown hp hopen
      have hcard := Finset.card_le_card hsubset
      rw [Finset.card_insert_of_notMem hqnot] at hcard
      have := htallied.approvals_card_le hp hopen
      omega
    · rw [Finset.card_erase_of_mem hmem] at henough
      have hpos := Finset.card_pos.mpr ⟨p, hmem⟩
      omega

end Lossless

-- ============================================================================
-- Four peers
-- ============================================================================

namespace Reference

/-- New voting peers `1..n`, of which the first `packers` pack every transaction at once,
    and nothing in flight. -/
def voters (n packers : Nat) : Lossless where
  system := votersOf n packers
  inFlight := []

theorem voters_started (n packers : Nat) :
    (voters n packers).Started platform (voterIds n) := by
  refine ⟨rfl, fun p hp => ?_⟩
  obtain ⟨_, _, _, _, _, hknown, heq⟩ := votersOf_votingStart n packers p hp
  exact ⟨_, _, _, _, _, hknown, heq⟩

/-- Up to `fuel` messages, each the one longest in flight. -/
def deliveries : Nat → Lossless → List System.Action
  | 0, _ => []
  | fuel + 1, s =>
    match s.inFlight with
    | [] => []
    | message :: _ =>
      .deliver message 0 0 :: deliveries fuel (s.step platform (.deliver message 0 0))

/-- A client hands its deposit to the first of four peers, and all messages are
    delivered. -/
def depositVoted (packers : Nat) : Lossless :=
  (voters 4 packers).stepAll platform (.client 1 deposit 0 0 ::
    deliveries 50 ((voters 4 packers).step platform (.client 1 deposit 0 0)))

end Reference

namespace Lossless

open Reference

/-- Two of the four peers pack the deposit, and all approve the block. -/
theorem two_proposals_approved :
    Started platform (voterIds 4) (voters 4 2) ∧
      Run platform (voterIds 4) (voters 4 2) (depositVoted 2) ∧
      (depositVoted 2).inFlight = [] ∧
      (∀ p ∈ voterIds 4, p ∈
        (((depositVoted 2).system.peers p).ballotOf (firstBlock deposit).hash).approvals) ∧
      2 * VotingConsensus.faultBound (voterIds 4).card ≤
        (proposers (voterIds 4) (depositVoted 2).system (firstBlock deposit).hash).card ∧
      ∀ p ∈ voterIds 4,
        (((depositVoted 2).system.peers p).ballotOf (firstBlock deposit).hash).outcome =
          some .approved := by
  have hrun : Run platform (voterIds 4) (voters 4 2) (depositVoted 2) :=
    run_stepAll (by decide +kernel)
  have hquiet : (depositVoted 2).inFlight = [] := by decide +kernel
  have hown : ∀ p ∈ voterIds 4, p ∈
      (((depositVoted 2).system.peers p).ballotOf (firstBlock deposit).hash).approvals := by
    decide +kernel
  have hquorum : 2 * VotingConsensus.faultBound (voterIds 4).card ≤
      (proposers (voterIds 4) (depositVoted 2).system (firstBlock deposit).hash).card := by
    decide +kernel
  refine ⟨voters_started 4 2, hrun, hquiet, hown, hquorum, ?_⟩
  exact (approved_iff_proposed (voters_started 4 2) hrun (by decide +kernel) ⟨1, by decide⟩ hquiet
    hown).mpr hquorum

/-- One of the four peers packs the deposit; all approve the block, and nobody decides. -/
theorem lone_proposal_undecided :
    Started platform (voterIds 4) (voters 4 1) ∧
      Run platform (voterIds 4) (voters 4 1) (depositVoted 1) ∧
      (firstBlock deposit).hash ≠ emptyHash ∧
      (depositVoted 1).inFlight = [] ∧
      (∀ p ∈ voterIds 4, p ∈
        (((depositVoted 1).system.peers p).ballotOf (firstBlock deposit).hash).approvals) ∧
      ∀ p ∈ voterIds 4,
        (((depositVoted 1).system.peers p).ballotOf (firstBlock deposit).hash).outcome = none := by
  refine ⟨voters_started 4 1, run_stepAll ?_, ?_, ?_, ?_, ?_⟩
  all_goals decide +kernel

end Lossless
end Rustchain
