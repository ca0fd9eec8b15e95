/-
  Rustchain.Cluster.Forwarding

  A peer that does not lead forwards a client transaction to the peer it takes
  for the leader.  Peers hold such pointers from different terms at the same
  time; following them never comes back.

  A pointer is set when a request of that leader is accepted, and the leader of
  a request is in a later term than the request or still leads.  So each hop
  goes to a peer in a strictly later term, or to a leader.
-/

import Rustchain.Cluster.Safety

namespace Rustchain

-- ============================================================================
-- Leadership at one peer
-- ============================================================================

/-- The two states have the same term, role and known leader. -/
structure SameLead (r r' : RaftConsensus) : Prop where
  peerId : r'.peerId = r.peerId
  currentTerm : r'.currentTerm = r.currentTerm
  role : r'.role = r.role
  leaderId : r'.leaderId = r.leaderId

theorem SameLead.refl (r : RaftConsensus) : SameLead r r := ⟨rfl, rfl, rfl, rfl⟩

theorem SameLead.trans {r r' r'' : RaftConsensus} (h : SameLead r r') (h' : SameLead r' r'') :
    SameLead r r'' :=
  ⟨h'.peerId.trans h.peerId, h'.currentTerm.trans h.currentTerm, h'.role.trans h.role,
    h'.leaderId.trans h.leaderId⟩

/-- How a handler changes a peer's term, role and known leader.  `heard q t` says
    that the handled message is a request of `q` in term `t`. -/
inductive Leadership (heard : PeerId → Nat → Prop) (r r' : RaftConsensus) : Prop where
  | same (h : SameLead r r')
  | left (hpeer : r'.peerId = r.peerId) (hterm : r.currentTerm < r'.currentTerm)
      (hleader : r'.leaderId = none)
  | won (hpeer : r'.peerId = r.peerId) (hterm : r.currentTerm ≤ r'.currentTerm)
      (hrole : r'.role = .leader) (hleader : r'.leaderId = some r.peerId)
  | followed {q : PeerId} (hpeer : r'.peerId = r.peerId) (hterm : r.currentTerm ≤ r'.currentTerm)
      (hleader : r'.leaderId = some q) (hheard : heard q r'.currentTerm)

/-- A request or an answer to one goes to another peer. -/
def Outward (p : PeerId) : ConsensusEffect → Prop
  | .sendRaftAppendEntries dst .. => dst ≠ p
  | .send dst (.raftAppendEntriesResponse ..) => dst ≠ p
  | _ => True

/-- What is known of the outcome of a handler. -/
structure LeadOk (heard : PeerId → Nat → Prop) (r : RaftConsensus)
    (out : RaftConsensus × Except String (List ConsensusEffect)) : Prop where
  leadership : Leadership heard r out.1
  outward : ∀ effects, out.2 = .ok effects → ∀ effect ∈ effects, Outward r.peerId effect

variable {heard : PeerId → Nat → Prop} {pf : Platform} {r r₁ r' : RaftConsensus}
  {out : RaftConsensus × Except String (List ConsensusEffect)}

namespace Leadership

theorem peerId (h : Leadership heard r r') : r'.peerId = r.peerId := by
  cases h with
  | same h => exact h.peerId
  | left hpeer | won hpeer | followed hpeer => exact hpeer

/-- What does not concern leadership may come after. -/
theorem then_same (h : Leadership heard r r₁) (h' : SameLead r₁ r') : Leadership heard r r' := by
  cases h with
  | same h => exact .same (h.trans h')
  | left hpeer hterm hleader =>
      refine .left (h'.peerId.trans hpeer) ?_ (h'.leaderId.trans hleader)
      rw [h'.currentTerm]
      exact hterm
  | won hpeer hterm hrole hleader =>
      refine .won (h'.peerId.trans hpeer) ?_ (h'.role.trans hrole) (h'.leaderId.trans hleader)
      rw [h'.currentTerm]
      exact hterm
  | followed hpeer hterm hleader hheard =>
      refine .followed (h'.peerId.trans hpeer) ?_ (h'.leaderId.trans hleader) ?_
      · rw [h'.currentTerm]
        exact hterm
      · rw [h'.currentTerm]
        exact hheard

end Leadership

namespace LeadOk

theorem quiet (h : Leadership heard r r') : LeadOk heard r (r', .ok []) :=
  ⟨h, fun _ he => by cases he; simp⟩

theorem error (h : Leadership heard r r') (e : String) : LeadOk heard r (r', .error e) :=
  ⟨h, fun _ he => by cases he⟩

theorem ok (h : Leadership heard r r') {effects : List ConsensusEffect}
    (heffects : ∀ effect ∈ effects, Outward r.peerId effect) :
    LeadOk heard r (r', .ok effects) := by
  refine ⟨h, ?_⟩
  intro effects' he
  cases he
  exact heffects

/-- What does not concern leadership may come before. -/
theorem after (hsame : SameLead r r₁) (h : LeadOk heard r₁ out) : LeadOk heard r out := by
  constructor
  · cases h.leadership with
    | same h => exact .same (hsame.trans h)
    | left hpeer hterm hleader =>
        rw [hsame.currentTerm] at hterm
        exact .left (hpeer.trans hsame.peerId) hterm hleader
    | won hpeer hterm hrole hleader =>
        rw [hsame.currentTerm] at hterm
        rw [hsame.peerId] at hleader
        exact .won (hpeer.trans hsame.peerId) hterm hrole hleader
    | followed hpeer hterm hleader hheard =>
        rw [hsame.currentTerm] at hterm
        exact .followed (hpeer.trans hsame.peerId) hterm hleader hheard
  · rw [← hsame.peerId]
    exact h.outward

/-- Saving the log has no part in leadership. -/
theorem persistThen (h : Leadership heard r r') {effects : List ConsensusEffect}
    (heffects : ∀ effect ∈ effects, Outward r.peerId effect) :
    LeadOk heard r (r'.persistThen pf effects) := by
  constructor
  · rw [RaftConsensus.persistThen_fst]
    exact h.then_same ⟨rfl, rfl, rfl, rfl⟩
  · intro effects' he
    rw [RaftConsensus.eq_of_persistThen_ok he]
    exact heffects

end LeadOk

-- ============================================================================
-- The handlers
-- ============================================================================

theorem commitEffects_outward (r : RaftConsensus) (p : PeerId) (low high : Nat) :
    ∀ effect ∈ r.commitEffects low high, Outward p effect := by
  intro effect hmem
  obtain ⟨hash, -, rfl⟩ := List.mem_map.mp hmem
  trivial

theorem appendEntriesEffectFor_outward {p q : PeerId} (hq : q ≠ p) {effect : ConsensusEffect}
    (h : r.appendEntriesEffectFor q = some effect) : Outward p effect := by
  obtain ⟨prevLogIndex, prevLogTerm, -, rfl⟩ := RaftConsensus.appendEntriesEffectFor_spec h
  exact hq

theorem appendEntriesEffectsForFollowers_outward (r : RaftConsensus) :
    ∀ effect ∈ r.appendEntriesEffectsForFollowers, Outward r.peerId effect := by
  intro effect hmem
  obtain ⟨q, hq, heffect⟩ := RaftConsensus.mem_appendEntriesEffectsForFollowers hmem
  exact appendEntriesEffectFor_outward hq heffect

theorem advanceCommitIndex_sameLead (r : RaftConsensus) :
    SameLead r r.advanceCommitIndex.1 := by
  rw [r.advanceCommitIndex_fst]
  exact ⟨rfl, rfl, rfl, rfl⟩

theorem appendAsLeader_leadOk (h : Leadership heard r r') (entry : RaftLogEntry) :
    LeadOk heard r (r'.appendAsLeader pf entry) := by
  let r₁ : RaftConsensus :=
    { r' with
      log := r'.log ++ [entry]
      matchIndexes := r'.matchIndexes.insert r'.peerId entry.index }
  have hlead : Leadership heard r r₁.advanceCommitIndex.1 :=
    (h.then_same ⟨rfl, rfl, rfl, rfl⟩ : Leadership heard r r₁).then_same
      (advanceCommitIndex_sameLead r₁)
  show LeadOk heard r (r₁.advanceCommitIndex.1.persistThen pf
    (r₁.appendEntriesEffectsForFollowers ++ r₁.advanceCommitIndex.2))
  refine LeadOk.persistThen hlead ?_
  intro effect hmem
  rcases List.mem_append.mp hmem with hmem | hmem
  · have := appendEntriesEffectsForFollowers_outward r₁ effect hmem
    rwa [show r₁.peerId = r.peerId from h.peerId] at this
  · exact commitEffects_outward _ _ _ _ effect hmem

theorem stepDownOnNewerTerm_leadership (heard : PeerId → Nat → Prop) (r : RaftConsensus)
    (term : Nat) :
    Leadership heard r (r.stepDownOnNewerTerm term) := by
  rw [RaftConsensus.stepDownOnNewerTerm]
  split
  · rename_i hnewer
    exact .left rfl hnewer rfl
  · exact .same (SameLead.refl r)

/-- A candidate that counts its votes leads or goes on. -/
theorem becomeLeaderIfMajority_leadership (hpeer : r₁.peerId = r.peerId)
    (hterm : r.currentTerm ≤ r₁.currentTerm) (h : Leadership heard r r₁) :
    Leadership heard r r₁.becomeLeaderIfMajority.1 := by
  rw [RaftConsensus.becomeLeaderIfMajority]
  split
  · exact .won hpeer hterm rfl (by rw [← hpeer])
  · exact h

theorem startElectionAt_leadership (heard : PeerId → Nat → Prop)
    (hterm : r.currentTerm < 2 ^ 64 - 1) (now : Instant) :
    Leadership heard r (r.startElectionAt now).1 := by
  have hmod : (r.currentTerm + 1) % 2 ^ 64 = r.currentTerm + 1 := Nat.mod_eq_of_lt (by omega)
  rw [RaftConsensus.startElectionAt]
  refine becomeLeaderIfMajority_leadership rfl ?_ (.left rfl ?_ rfl)
  · show r.currentTerm ≤ (r.currentTerm + 1) % 2 ^ 64
    omega
  · show r.currentTerm < (r.currentTerm + 1) % 2 ^ 64
    omega

theorem onTick_leadOk (hterm : r.currentTerm < 2 ^ 64 - 1) (now : Instant)
    (knownPeers : List PeerId) : LeadOk heard r (r.onTick pf now knownPeers) := by
  have hupdate : SameLead r (r.updateParticipants knownPeers) := ⟨rfl, rfl, rfl, rfl⟩
  refine LeadOk.after hupdate ?_
  rw [RaftConsensus.onTick]
  simp only
  rw [← hupdate.currentTerm] at hterm
  generalize r.updateParticipants knownPeers = r₁ at hterm
  split
  · split
    · refine LeadOk.ok ?_ ?_
      · exact .same ⟨rfl, rfl, rfl, rfl⟩
      · exact appendEntriesEffectsForFollowers_outward { r₁ with lastHeartbeatSentAt := some now }
    · exact LeadOk.quiet (.same (SameLead.refl r₁))
  split
  · have hstart := startElectionAt_leadership heard hterm now
    split
    · rename_i r₂ heq
      rw [heq] at hstart
      refine LeadOk.ok hstart ?_
      intro effect hmem
      rw [List.mem_singleton.mp hmem]
      trivial
    · rename_i r₂ heq
      rw [heq] at hstart
      have hnoop : LeadOk heard r₁ (r₂.appendLeaderNoop pf) := appendAsLeader_leadOk hstart _
      split
      · rename_i heq'
        rw [heq'] at hnoop
        exact LeadOk.error hnoop.leadership _
      · rename_i r₃ effects heq'
        rw [heq'] at hnoop
        refine LeadOk.ok hnoop.leadership ?_
        intro effect hmem
        rcases List.mem_cons.mp hmem with rfl | hmem
        · trivial
        · exact hnoop.outward effects rfl effect hmem
  · exact LeadOk.quiet (.same (SameLead.refl r₁))

theorem onBlockCreated_leadOk (blockHash : BlockHash) :
    LeadOk heard r (r.onBlockCreated pf blockHash) := by
  have hsame : Leadership heard r r := .same (SameLead.refl r)
  rw [RaftConsensus.onBlockCreated]
  split
  · rw [RaftConsensus.appendLocalBlock]
    split
    · exact LeadOk.error hsame _
    · exact appendAsLeader_leadOk hsame _
  · exact LeadOk.quiet hsame
  · exact LeadOk.quiet hsame

theorem onRequestVote_leadOk (term : Nat) (candidateId : PeerId) (lastLogIndex lastLogTerm : Nat)
    (src : PeerId) :
    LeadOk heard r
      ((r.onRequestVote term candidateId lastLogIndex lastLogTerm src).1,
        .ok (r.onRequestVote term candidateId lastLogIndex lastLogTerm src).2) := by
  refine LeadOk.ok ?_ ?_
  · simp only [RaftConsensus.onRequestVote, RaftConsensus.requestVote]
    split
    · exact .same (SameLead.refl r)
    have hdown := stepDownOnNewerTerm_leadership heard r term
    split
    · exact hdown
    split
    · exact hdown
    · exact hdown.then_same ⟨rfl, rfl, rfl, rfl⟩
  · intro effect hmem
    rw [List.mem_singleton.mp hmem]
    trivial

theorem onRequestVoteResponse_leadOk (term : Nat) (voterId : PeerId) (voteGranted : Bool) :
    LeadOk heard r (r.onRequestVoteResponse pf term voterId voteGranted) := by
  rw [RaftConsensus.onRequestVoteResponse]
  split
  · have hvote : Leadership heard r (r.receiveVote term voterId voteGranted).1 := by
      rw [RaftConsensus.receiveVote]
      split
      · rename_i hnewer
        exact .left rfl hnewer rfl
      split
      · exact .same (SameLead.refl r)
      split
      · exact becomeLeaderIfMajority_leadership rfl (Nat.le_refl _) (.same ⟨rfl, rfl, rfl, rfl⟩)
      · exact .same (SameLead.refl r)
    split
    · rename_i r₁ heq
      rw [heq] at hvote
      exact appendAsLeader_leadOk hvote _
    · rename_i r₁ heq
      rw [heq] at hvote
      exact LeadOk.quiet hvote
  · exact LeadOk.quiet (stepDownOnNewerTerm_leadership heard r term)

theorem onAppendEntriesResponse_leadOk {src : PeerId} (hsrc : src ≠ r.peerId) (term : Nat)
    (success : Bool) (matchIndex : Nat) :
    LeadOk heard r (r.onAppendEntriesResponse pf term src success matchIndex) := by
  have hsame : Leadership heard r r := .same (SameLead.refl r)
  rw [RaftConsensus.onAppendEntriesResponse]
  split
  · rw [RaftConsensus.handleLeaderAppendEntriesResponse]
    split
    · rename_i hnewer
      exact LeadOk.quiet (.left rfl hnewer rfl)
    split
    · exact LeadOk.quiet hsame
    split
    · simp only
      generalize max ((r.matchIndexes.lookup src).getD 0) matchIndex = m
      let r₁ : RaftConsensus := { r with matchIndexes := r.matchIndexes.insert src m }
      have hmatch : SameLead r r₁ := ⟨rfl, rfl, rfl, rfl⟩
      have hadvance : Leadership heard r r₁.advanceCommitIndex.1 :=
        .same (hmatch.trans (advanceCommitIndex_sameLead r₁))
      split
      · exact LeadOk.persistThen hadvance (commitEffects_outward _ _ _ _)
      · exact LeadOk.ok hadvance (commitEffects_outward _ _ _ _)
    · simp only
      split
      · exact LeadOk.quiet (.same ⟨rfl, rfl, rfl, rfl⟩)
      · refine LeadOk.ok ?_ ?_
        · exact .same ⟨rfl, rfl, rfl, rfl⟩
        · intro effect hmem
          exact appendEntriesEffectFor_outward hsrc (Option.mem_toList.mp hmem)
  · exact LeadOk.quiet (stepDownOnNewerTerm_leadership heard r term)

/-- The effects of an accepted request are no messages. -/
theorem accepted_outward (a : Accepted) (p : PeerId) : ∀ effect ∈ a.effects, Outward p effect := by
  intro effect hmem
  rw [Accepted.effects] at hmem
  rcases List.mem_append.mp hmem with hmem | hmem
  · rcases List.mem_append.mp hmem with hmem | hmem
    · obtain ⟨hash, -, rfl⟩ := List.mem_map.mp hmem
      trivial
    · split at hmem
      · cases hmem
      · rw [List.mem_singleton.mp hmem]
        trivial
  · obtain ⟨hash, -, rfl⟩ := List.mem_map.mp hmem
    trivial

/-- A request is heard only if it comes from the leader it names and its term is not
    older. -/
theorem receiveAppendEntriesAt_leadership (r : RaftConsensus) (term : Nat)
    (leaderId src : PeerId) (now : Instant) (draw : Nat) :
    Leadership (fun q t => q = src ∧ t = term) r
      (r.receiveAppendEntriesAt term leaderId src now draw).1 := by
  rw [RaftConsensus.receiveAppendEntriesAt]
  split
  · exact .same (SameLead.refl r)
  rename_i hfrom
  split
  · exact .same (SameLead.refl r)
  rename_i hterm
  simp only
  split
  · exact stepDownOnNewerTerm_leadership _ r term
  · push Not at hfrom
    obtain ⟨rfl, -⟩ := hfrom
    have hdown : (r.stepDownOnNewerTerm term).peerId = r.peerId ∧
        (r.stepDownOnNewerTerm term).currentTerm = term := by
      rw [RaftConsensus.stepDownOnNewerTerm]
      split
      · exact ⟨rfl, rfl⟩
      · exact ⟨rfl, by omega⟩
    have hfollow : ∀ r₁ : RaftConsensus, (r₁.followLeader src now draw).peerId = r₁.peerId ∧
        (r₁.followLeader src now draw).currentTerm = r₁.currentTerm ∧
        (r₁.followLeader src now draw).leaderId = some src := by
      intro r₁
      rw [RaftConsensus.followLeader]
      split <;> exact ⟨rfl, rfl, rfl⟩
    obtain ⟨hpeer, hcurrent, hleader⟩ := hfollow (r.stepDownOnNewerTerm term)
    refine .followed (hpeer.trans hdown.1) ?_ hleader ⟨rfl, hcurrent.trans hdown.2⟩
    rw [hcurrent, hdown.2]
    omega

theorem handleAppendEntries_leadOk (request : AppendEntriesRequest)
    (hsrc : request.from ≠ r.peerId) (draw : Nat) :
    LeadOk (fun q t => q = request.from ∧ t = request.term) r
      (r.handleAppendEntries pf request draw) := by
  constructor
  · have hreceived := receiveAppendEntriesAt_leadership r request.term request.leaderId request.from
      request.now draw
    rw [RaftConsensus.handleAppendEntries]
    generalize r.receiveAppendEntriesAt request.term request.leaderId request.from request.now draw =
      received at hreceived
    rcases received with ⟨r₁, _ | _⟩
    · exact hreceived
    rcases RaftConsensus.validateReplicatedEntries pf request.entries with e | ⟨entries, blocks⟩
    · exact hreceived
    · obtain ⟨_, _, _, _, hfst⟩ := r₁.acceptEntries_fst pf request entries blocks
      refine hreceived.then_same ?_
      show SameLead r₁ (r₁.acceptEntries pf request entries blocks).1
      rw [hfst]
      exact ⟨rfl, rfl, rfl, rfl⟩
  · have hanswers := r.handleAppendEntries_answers pf request draw
    intro effects hok effect hmem
    cases haccepted : r.acceptance pf request draw with
    | none =>
        rw [haccepted] at hanswers
        rcases hanswers with ⟨e, herror⟩ | ⟨term, matchIndex, hrefused⟩
        · rw [hok] at herror
          cases herror
        · rw [hok] at hrefused
          cases hrefused
          rw [List.mem_singleton.mp hmem]
          exact hsrc
    | some a =>
        rw [haccepted] at hanswers
        obtain ⟨⟨term, matchIndex, hanswer⟩, -⟩ := hanswers
        rw [hok] at hanswer
        cases hanswer
        rcases List.mem_append.mp hmem with hmem | hmem
        · exact accepted_outward a r.peerId effect hmem
        · rw [List.mem_singleton.mp hmem]
          exact hsrc

/-- The event is a request of `q` in term `t`. -/
def RaftEvent.Hears (q : PeerId) (t : Nat) : RaftEvent → Prop
  | .receive src (.raftAppendEntries term ..) _ _ => q = src ∧ t = term
  | _ => False

/-- A request or an answer to one comes from another peer. -/
def RaftEvent.FromOther (p : PeerId) : RaftEvent → Prop
  | .receive src (.raftAppendEntries ..) _ _ => src ≠ p
  | .receive src (.raftAppendEntriesResponse ..) _ _ => src ≠ p
  | _ => True

/-- How one event changes leadership, and whom its messages go to. -/
theorem handle_leadOk (hterm : r.currentTerm < 2 ^ 64 - 1) {event : RaftEvent}
    (hother : event.FromOther r.peerId) :
    LeadOk (fun q t => event.Hears q t) r (r.handle pf event) := by
  have hsame : Leadership (fun q t => event.Hears q t) r r := .same (SameLead.refl r)
  cases event with
  | tick now knownPeers => exact onTick_leadOk hterm now knownPeers
  | clientTransaction clientTx =>
      refine ⟨hsame, ?_⟩
      intro effects hok effect hmem
      have heq : r.onClientTransaction clientTx = .ok effects := hok
      rw [RaftConsensus.onClientTransaction] at heq
      split at heq
      · split at heq
        · cases heq
        · cases heq
          rw [List.mem_singleton.mp hmem]
          trivial
      all_goals
        rw [RaftConsensus.forwardClientTransaction] at heq
        split at heq
        · cases heq
        · cases heq
          rw [List.mem_singleton.mp hmem]
          trivial
  | blockCreated blockHash => exact onBlockCreated_leadOk blockHash
  | takePendingBlock blockHash => exact LeadOk.quiet (.same ⟨rfl, rfl, rfl, rfl⟩)
  | receive src body now draw =>
      cases body with
      | raftRequestVote term candidateId lastLogIndex lastLogTerm =>
          exact onRequestVote_leadOk term candidateId lastLogIndex lastLogTerm src
      | raftRequestVoteResponse term voteGranted =>
          exact onRequestVoteResponse_leadOk term src voteGranted
      | raftAppendEntries term leaderId prevLogIndex prevLogTerm entries leaderCommit =>
          exact handleAppendEntries_leadOk
            { term, leaderId, prevLogIndex, prevLogTerm, entries, leaderCommit, «from» := src, now }
            hother draw
      | raftAppendEntriesResponse term success matchIndex =>
          exact onAppendEntriesResponse_leadOk hother term success matchIndex
      | _ => exact LeadOk.error hsame _

-- ============================================================================
-- Pointers in a cluster
-- ============================================================================

/-- The term of a message that is a request. -/
def Sent.requestTerm (s : Sent) : Option Nat :=
  match s.message.body with
  | .raftAppendEntries term .. => some term
  | _ => none

/-- The message answers a request. -/
def Sent.IsAnswer (s : Sent) : Prop :=
  match s.message.body with
  | .raftAppendEntriesResponse .. => True
  | _ => False

namespace Cluster

variable {P : Finset PeerId} {c c' c₀ c₁ : Cluster} {act : Action} {a a' : Abstract}

/-- The sender of a request is another peer than its addressee, was elected in the
    request's term and has left that term or still leads it. -/
structure RequestOk (c : Cluster) (a : Abstract) (s : Sent) (term : Nat) : Prop where
  outward : s.message.from ≠ s.message.to
  elected : ∃ el, a.elected term = some el ∧ el.leader = s.message.from
  still : term < (c.peers s.message.from).currentTerm ∨
    term = (c.peers s.message.from).currentTerm ∧ (c.peers s.message.from).role = .leader

/-- What is known of the known leaders. -/
structure Pointers (c : Cluster) (a : Abstract) : Prop where
  request : ∀ s ∈ c.sent, ∀ term, s.requestTerm = some term → RequestOk c a s term
  answer : ∀ s ∈ c.sent, s.IsAnswer → s.message.from ≠ s.message.to
  /-- A peer points to itself when it leads, else to a peer whose request of its
      current term it received. -/
  pointer : ∀ p q, (c.peers p).leaderId = some q →
    p = q ∧ (c.peers p).role = .leader ∨
      ∃ s ∈ c.sent, s.message.to = p ∧ s.message.from = q ∧
        s.requestTerm = some (c.peers p).currentTerm
  bounded : ∃ bound, ∀ p, (c.peers p).currentTerm ≤ bound

theorem Pointers.init (hinit : c.Initial) : Pointers c RaftCore.State.init where
  request := by
    intro s hs
    rw [hinit.1] at hs
    cases hs
  answer := by
    intro s hs
    rw [hinit.1] at hs
    cases hs
  pointer := by
    intro p q hq
    obtain ⟨now, draw, hp⟩ := hinit.2 p
    rw [hp] at hq
    cases hq
  bounded := by
    refine ⟨0, ?_⟩
    intro p
    obtain ⟨now, draw, hp⟩ := hinit.2 p
    rw [hp]
    exact Nat.le_refl 0

/-- Requests and answers are delivered to others than their senders. -/
theorem Pointers.fromOther (h : Pointers c a) (henabled : act.Enabled P c) :
    act.event.FromOther act.peer := by
  cases act with
  | deliver s now draw =>
      have hs : s ∈ c.sent := henabled
      show RaftEvent.FromOther s.message.to (.receive s.message.from s.message.body now draw)
      cases hbody : s.message.body with
      | raftAppendEntries term leaderId prevLogIndex prevLogTerm entries leaderCommit =>
          exact (h.request s hs term (by rw [Sent.requestTerm, hbody])).outward
      | raftAppendEntriesResponse term success matchIndex =>
          exact h.answer s hs (by rw [Sent.IsAnswer, hbody]; trivial)
      | _ => trivial
  | _ => trivial

/-- A request that is heard was sent to the peer that hears it. -/
theorem heard_sent (henabled : act.Enabled P c) {q : PeerId} {t : Nat}
    (hears : act.event.Hears q t) :
    ∃ s ∈ c.sent, s.message.to = act.peer ∧ s.message.from = q ∧ s.requestTerm = some t := by
  cases act with
  | deliver s now draw =>
      have hs : s ∈ c.sent := henabled
      have hears : RaftEvent.Hears q t (.receive s.message.from s.message.body now draw) := hears
      cases hbody : s.message.body with
      | raftAppendEntries term leaderId prevLogIndex prevLogTerm entries leaderCommit =>
          rw [hbody] at hears
          obtain ⟨rfl, rfl⟩ := hears
          exact ⟨s, hs, rfl, rfl, by rw [Sent.requestTerm, hbody]⟩
      | _ =>
          rw [hbody] at hears
          exact hears.elim
  | _ => exact hears.elim

section Step

variable (h : Pointers c a) (hsim : ClusterSim P False False c a) (hstep : Step pf P c act c')
  (hlead : Leadership (fun q t => act.event.Hears q t) (c.peers act.peer) (c'.peers act.peer))

include h hsim hstep hlead

/-- A leader that stays in its term still leads it. -/
theorem Pointers.still_leads {term : Nat} (hterm : term < (c.peers act.peer).currentTerm ∨
      term = (c.peers act.peer).currentTerm ∧ (c.peers act.peer).role = .leader) :
    term < (c'.peers act.peer).currentTerm ∨
      term = (c'.peers act.peer).currentTerm ∧ (c'.peers act.peer).role = .leader := by
  cases hlead with
  | same hsame =>
      rw [hsame.currentTerm, hsame.role]
      exact hterm
  | left _ hlt _ => exact Or.inl (by omega)
  | won _ hle hrole _ =>
      rcases Nat.lt_or_ge term (c'.peers act.peer).currentTerm with hlt | hge
      · exact Or.inl hlt
      · exact Or.inr ⟨by omega, hrole⟩
  | @followed q _ hle _ hears =>
      rcases Nat.lt_or_ge term (c'.peers act.peer).currentTerm with hlt | hge
      · exact Or.inl hlt
      · -- the request would come from the leader itself, which sends to others only
        obtain ⟨hcurrent, hrole⟩ : (c'.peers act.peer).currentTerm = (c.peers act.peer).currentTerm ∧
            (c.peers act.peer).role = .leader := by
          rcases hterm with hlt | ⟨heq, hrole⟩
          · omega
          · exact ⟨by omega, hrole⟩
        rw [hcurrent] at hears
        obtain ⟨s, hs, hto, hfrom, hrequest⟩ := heard_sent hstep.enabled hears
        have hok := h.request s hs _ hrequest
        obtain ⟨el, hel, hleader⟩ := (hsim.peers act.peer).leader hrole
        obtain ⟨el', hel', hleader'⟩ := hok.elected
        rw [hel] at hel'
        cases hel'
        exact absurd (hleader'.symm.trans (hleader.trans hto.symm)) hok.outward

theorem Pointers.request_step {a' : Abstract} (hext : RaftCore.Extends a a') {s : Sent}
    (hs : s ∈ c.sent) {term : Nat} (hrequest : s.requestTerm = some term) :
    RequestOk c' a' s term := by
  have hok := h.request s hs term hrequest
  obtain ⟨el, hel, hleader⟩ := hok.elected
  refine ⟨hok.outward, ⟨el, hext.elected term el hel, hleader⟩, ?_⟩
  by_cases hp : s.message.from = act.peer
  · have hstill := hok.still
    rw [hp] at hstill ⊢
    exact h.still_leads hsim hstep hlead hstill
  · have hpeers : c'.peers s.message.from = c.peers s.message.from := by
      rw [hstep.peers, Function.update_of_ne hp]
    rw [hpeers]
    exact hok.still

theorem Pointers.pointer_step {p q : PeerId} (hq : (c'.peers p).leaderId = some q) :
    p = q ∧ (c'.peers p).role = .leader ∨
      ∃ s ∈ c.sent, s.message.to = p ∧ s.message.from = q ∧
        s.requestTerm = some (c'.peers p).currentTerm := by
  by_cases hp : p = act.peer
  · subst hp
    cases hlead with
    | same hsame =>
        rw [hsame.leaderId] at hq
        rw [hsame.role, hsame.currentTerm]
        exact h.pointer _ q hq
    | left _ _ hnone =>
        rw [hnone] at hq
        cases hq
    | won _ _ hrole hself =>
        rw [hself, (hsim.peers act.peer).peerId] at hq
        exact Or.inl ⟨Option.some.inj hq, hrole⟩
    | followed _ _ hleader hears =>
        rw [hleader] at hq
        cases hq
        exact Or.inr (heard_sent hstep.enabled hears)
  · have hpeers : c'.peers p = c.peers p := by
      rw [hstep.peers, Function.update_of_ne hp]
    rw [hpeers] at hq ⊢
    exact h.pointer p q hq

end Step

/-- A request goes to another peer, from a peer that leads its term. -/
theorem request_of_emits (hsim : ClusterSim P False False c' a') {p : PeerId}
    {effect : ConsensusEffect} (hout : Outward p effect)
    (hok : EffectOk P (· ∈ c.sent) (c'.peers p) effect) {s : Sent}
    (hemits : Emits P p effect s.message) :
    (∀ term, s.requestTerm = some term → RequestOk c' a' s term) ∧
      (s.IsAnswer → s.message.from ≠ s.message.to) := by
  obtain ⟨message, log⟩ := s
  cases hemits with
  | broadcast body q hq hne =>
      rcases hok with ⟨rfl, -⟩ | hsingle
      · exact ⟨(fun _ hrequest => by cases hrequest), fun hanswer => hanswer.elim⟩
      · exact absurd ((Finset.mem_singleton.mp (hsingle hq)).trans (hsim.peers p).peerId) hne
  | send q body =>
      cases body with
      | raftAppendEntriesResponse term success matchIndex =>
          exact ⟨(fun _ hrequest => by cases hrequest), fun _ => Ne.symm hout⟩
      | raftRequestVoteResponse term granted =>
          exact ⟨(fun _ hrequest => by cases hrequest), fun hanswer => hanswer.elim⟩
      | clientTransaction clientTx =>
          exact ⟨(fun _ hrequest => by cases hrequest), fun hanswer => hanswer.elim⟩
      | _ => exact hok.elim
  | sendRaftAppendEntries q term prevLogIndex prevLogTerm replicated leaderCommit =>
      obtain ⟨hrole, rfl, -⟩ := hok
      refine ⟨?_, fun hanswer => hanswer.elim⟩
      rintro _ ⟨⟩
      exact ⟨Ne.symm hout, (hsim.peers p).leader hrole, Or.inr ⟨rfl, hrole⟩⟩

theorem Pointers.step (h : Pointers c a) (hsim : ClusterSim P False False c a)
    (hstep : Step pf P c act c') :
    ∃ a', Pointers c' a' ∧ ClusterSim P False False c' a' := by
  have hpeer := hsim.peers act.peer
  obtain ⟨-, heffects⟩ := hstep.outcome_ok (A := False) (B := False) hpeer.peerId hpeer.contiguous
    (fun h => h.elim) (fun h => h.elim)
  obtain ⟨a', hsteps, hsim'⟩ := hsim.step hstep (fun h => h.elim) (fun h => h.elim)
  have hself : c'.peers act.peer = (c.outcome pf act).1 := by
    rw [hstep.peers, Function.update_self]
  have hleadOk : LeadOk (fun q t => act.event.Hears q t) (c.peers act.peer) (c.outcome pf act) := by
    refine handle_leadOk hstep.term_lt ?_
    rw [hpeer.peerId]
    exact h.fromOther hstep.enabled
  have hlead := hleadOk.leadership
  rw [← hself] at hlead
  obtain ⟨new, hsent, hnew⟩ := hstep.sent
  have hemitted : ∀ s ∈ new, (∀ term, s.requestTerm = some term → RequestOk c' a' s term) ∧
      (s.IsAnswer → s.message.from ≠ s.message.to) := by
    intro s hs
    obtain ⟨-, effects, hok, effect, hmem, hemits⟩ := hnew s hs
    have hout := hleadOk.outward effects hok effect hmem
    rw [hpeer.peerId] at hout
    exact request_of_emits hsim' hout (hself ▸ heffects effects hok effect hmem) hemits
  refine ⟨a', ⟨?_, ?_, ?_, ?_⟩, hsim'⟩
  · intro s hs term hrequest
    rcases List.mem_append.mp (hsent ▸ hs) with hold | hs
    · exact h.request_step hsim hstep hlead (hsim.inv.steps_extends hsteps) hold hrequest
    · exact (hemitted s hs).1 term hrequest
  · intro s hs hanswer
    rcases List.mem_append.mp (hsent ▸ hs) with hold | hs
    · exact h.answer s hold hanswer
    · exact (hemitted s hs).2 hanswer
  · intro p q hq
    rcases h.pointer_step hsim hstep hlead hq with hself | ⟨s, hs, hpointer⟩
    · exact Or.inl hself
    · refine Or.inr ⟨s, ?_, hpointer⟩
      rw [hsent]
      exact List.mem_append_left _ hs
  · obtain ⟨bound, hbound⟩ := h.bounded
    refine ⟨max bound (c'.peers act.peer).currentTerm, ?_⟩
    intro p
    by_cases hp : p = act.peer
    · subst hp
      exact Nat.le_max_right _ _
    · rw [hstep.peers, Function.update_of_ne hp]
      exact (hbound p).trans (Nat.le_max_left _ _)

theorem Pointers.run (hinit : c₀.Initial) (hrun : Run pf P (fun _ _ => True) c₀ c₁) :
    ∃ a, Pointers c₁ a ∧ ClusterSim P False False c₁ a := by
  induction hrun with
  | refl => exact ⟨_, Pointers.init hinit, ClusterSim.init hinit⟩
  | tail _ hstep ih =>
      obtain ⟨a, h, hsim⟩ := ih
      obtain ⟨act, -, hstep⟩ := hstep
      exact h.step hsim hstep

-- ============================================================================
-- Following the pointers
-- ============================================================================

/-- Where a peer forwards client transactions; `none` when it leads or knows no
    leader. -/
def nextHop (c : Cluster) (p : PeerId) : Option PeerId :=
  if (c.peers p).role = .leader then none else (c.peers p).leaderId

/-- Each hop goes to another peer, one that forwards no further or one in a later
    term. -/
theorem Pointers.nextHop (h : Pointers c a) {p q : PeerId} (hq : c.nextHop p = some q) :
    p ≠ q ∧ (c.nextHop q = none ∨ (c.peers p).currentTerm < (c.peers q).currentTerm) := by
  rw [Cluster.nextHop] at hq
  split at hq
  · cases hq
  rename_i hrole
  rcases h.pointer p q hq with ⟨-, hleader⟩ | ⟨s, hs, rfl, rfl, hrequest⟩
  · exact absurd hleader hrole
  · have hok := h.request s hs _ hrequest
    refine ⟨Ne.symm hok.outward, ?_⟩
    rcases hok.still with hlt | ⟨-, hleader⟩
    · exact Or.inr hlt
    · exact Or.inl (by rw [Cluster.nextHop, if_pos hleader])

/-- Pointers that lead to larger ranks or to an end lead to an end, by a path
    without repetition, as long as ranks are bounded. -/
theorem exists_path {α : Type} {next : α → Option α} {rank : α → Nat} {bound : Nat}
    (hbound : ∀ x, rank x ≤ bound)
    (hnext : ∀ x y, next x = some y → x ≠ y ∧ (next y = none ∨ rank x < rank y)) (x : α) :
    ∃ path : List α, (x :: path).Nodup ∧ (x :: path).IsChain (fun y z => next y = some z) ∧
      (∀ y ∈ path, next y = none ∨ rank x < rank y) ∧
      next ((x :: path).getLast (List.cons_ne_nil x path)) = none := by
  induction hn : bound - rank x using Nat.strong_induction_on generalizing x with
  | _ n ih =>
      cases hx : next x with
      | none => exact ⟨[], List.nodup_singleton x, List.IsChain.singleton x, by simp, hx⟩
      | some y =>
          obtain ⟨hne, hy⟩ := hnext x y hx
          rcases hy with hy | hlt
          · refine ⟨[y], ?_, ?_, ?_, hy⟩
            · simpa using hne
            · simpa using hx
            · simpa using Or.inl hy
          · have hy := hbound y
            obtain ⟨path, hnodup, hchain, hrank, hlast⟩ := ih (bound - rank y) (by omega) y rfl
            refine ⟨y :: path, ?_, ?_, ?_, ?_⟩
            · refine List.nodup_cons.mpr ⟨?_, hnodup⟩
              intro hmem
              rcases List.mem_cons.mp hmem with rfl | hmem
              · exact hne rfl
              · rcases hrank x hmem with hnone | hlt'
                · rw [hx] at hnone
                  cases hnone
                · omega
            · exact List.isChain_cons_cons.mpr ⟨hx, hchain⟩
            · intro z hz
              rcases List.mem_cons.mp hz with rfl | hz
              · exact Or.inr hlt
              · rcases hrank z hz with hnone | hlt'
                · exact Or.inl hnone
                · exact Or.inr (by omega)
            · rw [List.getLast_cons (List.cons_ne_nil y path)]
              exact hlast

/-- Forwarding ends: from every peer, following the known leader from peers that do
    not lead comes, without visiting a peer twice, to a peer that leads or knows no
    leader; and `on_client_transaction` forwards along this path. -/
theorem run_forwarding_ends (hinit : c₀.Initial) (hrun : Run pf P (fun _ _ => True) c₀ c₁)
    (p : PeerId) :
    ∃ path : List PeerId, (p :: path).Nodup ∧
      (p :: path).IsChain (fun x y =>
        (c₁.peers x).role ≠ .leader ∧ (c₁.peers x).leaderId = some y) ∧
      ((c₁.peers ((p :: path).getLast (List.cons_ne_nil p path))).role = .leader ∨
        (c₁.peers ((p :: path).getLast (List.cons_ne_nil p path))).leaderId = none) ∧
      ∀ clientTx, (p :: path).IsChain fun x y =>
        (c₁.peers x).onClientTransaction clientTx = .ok [.send y (.clientTransaction clientTx)] := by
  obtain ⟨a, h, -⟩ := Pointers.run hinit hrun
  obtain ⟨bound, hbound⟩ := h.bounded
  obtain ⟨path, hnodup, hchain, -, hlast⟩ := exists_path hbound (fun x y hy => h.nextHop hy) p
  have hhop : ∀ x y, c₁.nextHop x = some y →
      (c₁.peers x).role ≠ .leader ∧ (c₁.peers x).leaderId = some y := by
    intro x y hy
    rw [Cluster.nextHop] at hy
    split at hy
    · cases hy
    · exact ⟨by assumption, hy⟩
  refine ⟨path, hnodup, hchain.imp hhop, ?_, ?_⟩
  · rw [Cluster.nextHop] at hlast
    split at hlast
    · exact Or.inl (by assumption)
    · exact Or.inr hlast
  · intro clientTx
    refine hchain.imp ?_
    intro x y hy
    obtain ⟨hrole, hleader⟩ := hhop x y hy
    cases hr : (c₁.peers x).role with
    | leader => exact absurd hr hrole
    | follower | candidate =>
        simp only [RaftConsensus.onClientTransaction, hr,
          RaftConsensus.forwardClientTransaction, hleader]

/-- Peer 1 forwards to leader 0. -/
theorem run_forwarding_ends_pair :
    ((scripted [0, 1] fresh pairScript).peers 1).leaderId = some 0 ∧
    ∃ path : List PeerId, (1 :: path).Nodup ∧
      (1 :: path).IsChain (fun x y =>
        ((scripted [0, 1] fresh pairScript).peers x).role ≠ .leader ∧
          ((scripted [0, 1] fresh pairScript).peers x).leaderId = some y) ∧
      (((scripted [0, 1] fresh pairScript).peers
          ((1 :: path).getLast (List.cons_ne_nil 1 path))).role = .leader ∨
        ((scripted [0, 1] fresh pairScript).peers
          ((1 :: path).getLast (List.cons_ne_nil 1 path))).leaderId = none) ∧
      ∀ clientTx, (1 :: path).IsChain fun x y =>
        ((scripted [0, 1] fresh pairScript).peers x).onClientTransaction clientTx =
          .ok [.send y (.clientTransaction clientTx)] :=
  ⟨by decide +kernel, run_forwarding_ends fresh_initial (scripted_run [0, 1] fresh pairScript) 1⟩

end Cluster

end Rustchain
