/-
  Rustchain.System.Raft

  Whole Raft peers refine the cluster of their consensus states.

  An event of a peer is a sequence of handler calls, and the messages it sends are
  asked for by these calls (`Peer.Delegated`).  So one step of the system is a run
  of the cluster, in which every call sends what it asked for.  Saves and block
  files may fail on the way: what a peer does not send is a message that is never
  delivered.

  Membership is fixed, peers do not restart, and terms stay below `2^64 - 1`.
-/

import Rustchain.Cluster.Simulation
import Rustchain.Peer.Delegation
import Rustchain.Peer.Refinement
import Rustchain.System.Lossless

namespace Rustchain

-- ============================================================================
-- Calls along a run of the cluster
-- ============================================================================

theorem RaftConsensus.Asks.cons_cases {pf : Platform} {r : RaftConsensus} {event : RaftEvent}
    {events : List RaftEvent} {effect : ConsensusEffect} (h : r.Asks pf (event :: events) effect) :
    (∃ effects, (r.handle pf event).2 = .ok effects ∧ effect ∈ effects ∧
        (r.handle pf event).1.log = (r.handleEach pf (event :: events)).log) ∨
      (r.handle pf event).1.Asks pf events effect := by
  obtain ⟨past, asked, future, effects, heq, hok, hmem, hlog⟩ := h
  cases past with
  | nil =>
      obtain ⟨rfl, rfl⟩ := List.cons.inj heq
      exact Or.inl ⟨effects, hok, hmem, hlog⟩
  | cons first past =>
      rw [List.cons_append] at heq
      obtain ⟨rfl, rfl⟩ := List.cons.inj heq
      exact Or.inr ⟨past, asked, future, effects, rfl, hok, hmem, hlog⟩

namespace Cluster

variable {pf : Platform} {P : Finset PeerId} {p : PeerId} {c : Cluster}
  {ok : Cluster → Action → Prop}

/-- A local event is an action of the peer that anyone may take. -/
theorem exists_localAction (P : Finset PeerId) (p : PeerId) {event : RaftEvent}
    (h : event.isLocal = true) :
    ∃ act : Action, act.event = event ∧ act.peer = p ∧ ∀ c, act.Enabled P c := by
  cases event with
  | clientTransaction clientTx => exact ⟨.clientTransaction p clientTx, rfl, rfl, fun _ => trivial⟩
  | blockCreated blockHash => exact ⟨.blockCreated p blockHash, rfl, rfl, fun _ => trivial⟩
  | takePendingBlock blockHash => exact ⟨.takePendingBlock p blockHash, rfl, rfl, fun _ => trivial⟩
  | tick now knownPeers => cases h
  | receive src body now draw => cases h

/-- What peer `p` sends in the course of the calls. -/
def SentAlong (pf : Platform) (P : Finset PeerId) (p : PeerId) (r : RaftConsensus)
    (events : List RaftEvent) (x : Sent) : Prop :=
  x.log = (r.handleEach pf events).log ∧
    ∃ effect, r.Asks pf events effect ∧ Emits P p effect x.message

/-- The cluster after peer `p` handled the events and sent `news`. -/
structure Along (pf : Platform) (p : PeerId) (events : List RaftEvent) (news : List Sent)
    (c c' : Cluster) : Prop where
  peers : c'.peers = Function.update c.peers p ((c.peers p).handleEach pf events)
  sent : ∀ x, x ∈ c.sent ∨ x ∈ news → x ∈ c'.sent

/-- The first call sends what it asked for, and the others go on from there. -/
theorem along_cons {event : RaftEvent} {events : List RaftEvent} {news : List Sent} {act : Action}
    (hmem : p ∈ P) (hevent : act.event = event) (hpeer : act.peer = p) (henabled : act.Enabled P c)
    (hterm : (c.peers p).currentTerm < 2 ^ 64 - 1) (hok : ok c act)
    (hnews : ∀ x ∈ news, SentAlong pf P p (c.peers p) (event :: events) x)
    (hrest : ∀ c₁ : Cluster, c₁.peers p = ((c.peers p).handle pf event).1 → ∀ later : List Sent,
      (∀ x ∈ later, SentAlong pf P p (c₁.peers p) events x) →
      ∃ c', Run pf P ok c₁ c' ∧ Along pf p events later c₁ c') :
    ∃ c', Run pf P ok c c' ∧ Along pf p (event :: events) news c c' := by
  classical
  -- The messages the first call asked for, and the others.
  let now : Sent → Prop := fun x => x.log = ((c.peers p).handle pf event).1.log ∧
    ∃ effects, ((c.peers p).handle pf event).2 = .ok effects ∧
      ∃ effect ∈ effects, Emits P p effect x.message
  have houtcome : c.outcome pf act = (c.peers p).handle pf event := by
    rw [outcome, hpeer, hevent]
  obtain ⟨c₁, hpeers₁, hsent₁⟩ : ∃ c₁ : Cluster,
      c₁.peers = Function.update c.peers p ((c.peers p).handle pf event).1 ∧
        c₁.sent = c.sent ++ news.filter fun x => decide (now x) := ⟨⟨_, _⟩, rfl, rfl⟩
  have hself : c₁.peers p = ((c.peers p).handle pf event).1 := by
    rw [hpeers₁, Function.update_self]
  have hstep : Step pf P c act c₁ := by
    refine ⟨hpeer ▸ hmem, henabled, hpeer ▸ hterm, ?_, _, hsent₁, ?_⟩
    · rw [houtcome, hpeer, hpeers₁]
    · intro x hx
      rw [houtcome, hpeer]
      exact of_decide_eq_true (List.mem_filter.mp hx).2
  have hlater : ∀ x ∈ news.filter (fun x => decide ¬ now x),
      SentAlong pf P p (c₁.peers p) events x := by
    intro x hx
    rw [hself]
    obtain ⟨hx, hnot⟩ := List.mem_filter.mp hx
    have hnot : ¬ now x := of_decide_eq_true hnot
    obtain ⟨hlog, effect, hasks, hemits⟩ := hnews x hx
    rcases hasks.cons_cases with ⟨effects, hfirst, heffect, hsame⟩ | hasks
    · exact absurd ⟨hlog.trans hsame.symm, effects, hfirst, effect, heffect, hemits⟩ hnot
    · exact ⟨hlog, effect, hasks, hemits⟩
  obtain ⟨c', hrun, hpeers, hsent⟩ := hrest c₁ hself _ hlater
  refine ⟨c', .head ⟨act, hok, hstep⟩ hrun, ?_, ?_⟩
  · rw [hpeers, hself, hpeers₁, Function.update_idem]
    rfl
  · rintro x (hx | hx)
    · exact hsent x (Or.inl (hsent₁ ▸ List.mem_append_left _ hx))
    · by_cases hnow : now x
      · have hfirst : x ∈ news.filter fun x => decide (now x) :=
          List.mem_filter.mpr ⟨hx, decide_eq_true hnow⟩
        exact hsent x (Or.inl (hsent₁ ▸ List.mem_append_right _ hfirst))
      · have hrest : x ∈ news.filter fun x => decide ¬ now x :=
          List.mem_filter.mpr ⟨hx, decide_eq_true hnow⟩
        exact hsent x (Or.inr hrest)

/-- Local calls are a run of the cluster in any case. -/
theorem along_local {events : List RaftEvent} {news : List Sent} (hmem : p ∈ P)
    (hterm : (c.peers p).currentTerm < 2 ^ 64 - 1)
    (hlocal : ∀ event ∈ events, event.isLocal = true)
    (hok : ∀ c act, act.event.isLocal = true → ok c act)
    (hnews : ∀ x ∈ news, SentAlong pf P p (c.peers p) events x) :
    ∃ c', Run pf P ok c c' ∧ Along pf p events news c c' := by
  induction events generalizing c news with
  | nil =>
      have hnone : news = [] := by
        rw [List.eq_nil_iff_forall_not_mem]
        intro x hx
        obtain ⟨-, effect, ⟨past, event, future, -, heq, -⟩, -⟩ := hnews x hx
        cases past <;> cases heq
      subst hnone
      refine ⟨c, .refl, (Function.update_eq_self p c.peers).symm, ?_⟩
      rintro x (hx | hx)
      · exact hx
      · cases hx
  | cons event events ih =>
      have hevent := hlocal event List.mem_cons_self
      obtain ⟨act, hact, hpeer, henabled⟩ := exists_localAction P p hevent
      refine along_cons hmem hact hpeer (henabled c) hterm
        (hok c act (hact ▸ hevent)) hnews fun c₁ hc₁ later hlater => ?_
      refine ih ?_ (fun e he => hlocal e (List.mem_cons_of_mem event he)) hlater
      rw [hc₁, (c.peers p).handle_currentTerm_of_isLocal pf hevent]
      exact hterm

/-- A call of its own, then local ones. -/
theorem along_first {event : RaftEvent} {events : List RaftEvent} {news : List Sent} {act : Action}
    (hmem : p ∈ P) (hevent : act.event = event) (hpeer : act.peer = p) (henabled : act.Enabled P c)
    (hterm : (c.peers p).currentTerm < 2 ^ 64 - 1)
    (hafter : ((c.peers p).handle pf event).1.currentTerm < 2 ^ 64 - 1)
    (hlocal : ∀ event ∈ events, event.isLocal = true) (hact : ok c act)
    (hok : ∀ c act, act.event.isLocal = true → ok c act)
    (hnews : ∀ x ∈ news, SentAlong pf P p (c.peers p) (event :: events) x) :
    ∃ c', Run pf P ok c c' ∧ Along pf p (event :: events) news c c' :=
  along_cons hmem hevent hpeer henabled hterm hact hnews fun _ hc₁ _ hlater =>
    along_local hmem (hc₁ ▸ hafter) hlocal hok hlater

end Cluster

-- ============================================================================
-- Whole peers
-- ============================================================================

/-- The log of a Raft peer. -/
def Peer.raftLog (p : Peer) : List RaftLogEntry :=
  match p.consensus with
  | .raft r => r.log
  | .voting .. => []

theorem Peer.raftLog_eq {p : Peer} {r : RaftConsensus} (h : p.consensus = .raft r) :
    p.raftLog = r.log := by
  rw [raftLog, h]

/-- A system that keeps, beside each message, the log its sender had after the event
    that sent it. -/
structure RaftSystem extends System where
  sent : List Sent

namespace RaftSystem

inductive Action where
  /-- A client hands a transaction to a peer. -/
  | client (p : PeerId) (clientTx : SignedTransaction) (now : Instant) (draw : Nat)
  | deliver (sent : Sent) (now : Instant) (draw : Nat)
  | tick (p : PeerId) (now : Instant)

namespace Action

/-- The action of the peers, without the log. -/
def toSystem : Action → System.Action
  | client p clientTx now draw => .client p clientTx now draw
  | deliver sent now draw => .deliver sent.message now draw
  | tick p now => .tick p now

def peer (act : Action) : PeerId := act.toSystem.peer

/-- Only a message that was sent is delivered. -/
def Enabled (s : RaftSystem) : Action → Prop
  | deliver sent .. => sent ∈ s.sent
  | _ => True

end Action

def step (pf : Platform) (s : RaftSystem) (act : Action) : RaftSystem :=
  let after := s.toSystem.step pf act.toSystem
  { peers := after.peers
    sent := s.sent ++ (Lossless.sent (s.peers act.peer) (after.peers act.peer)).map
      (⟨·, (after.peers act.peer).raftLog⟩) }

/-- A run of the peers of `P` all of whose steps meet `ok`. -/
def Run (pf : Platform) (P : Finset PeerId) (ok : RaftSystem → Action → Prop) :
    RaftSystem → RaftSystem → Prop :=
  Relation.ReflTransGen fun s s' =>
    ∃ act, act.peer ∈ P ∧ act.Enabled s ∧ ok s act ∧ s' = s.step pf act

/-- The step leaves the acting peer in a term below `2^64 - 1`. -/
def InRange (pf : Platform) (s : RaftSystem) (act : Action) : Prop :=
  ∀ r, ((s.step pf act).peers act.peer).consensus = .raft r → r.currentTerm < 2 ^ 64 - 1

/-- Every rejection a leader handles is a true match. -/
def RejectionsTrue (s : RaftSystem) : Action → Prop
  | .deliver sent _ _ =>
    ∀ r, (s.peers sent.message.to).consensus = .raft r → RejectionTrue r sent
  | _ => True

/-- Every append request a follower handles covers the commit index it raises. -/
def CommitsCovered (s : RaftSystem) : Action → Prop
  | .deliver sent _ _ =>
    ∀ r, (s.peers sent.message.to).consensus = .raft r → CommitCovered r sent
  | _ => True

/-- The step stays in range and meets those of the two conditions that are asked for. -/
structure Meets (pf : Platform) (A B : Prop) (s : RaftSystem) (act : Action) : Prop where
  inRange : s.InRange pf act
  rejections : A → s.RejectionsTrue act
  commits : B → s.CommitsCovered act

/-- The peers of `P` are new Raft peers that know each other, over any block directory
    and a log file that does not exist yet; nothing was sent. -/
def RaftStart (pf : Platform) (P : Finset PeerId) (s : RaftSystem) : Prop :=
  s.sent = [] ∧ ∀ p ∈ P, ∃ knownPeers dir store mempoolSize walk signingKey now draw,
    (∀ q, q ∈ knownPeers ↔ q ∈ P ∧ q ≠ p) ∧ store.contents = none ∧
      Peer.startRaft pf p { knownPeers, calls := [] } dir store mempoolSize walk signingKey now
        draw = .ok (s.peers p)

-- ============================================================================
-- The refinement
-- ============================================================================

variable {pf : Platform} {P : Finset PeerId} {A B : Prop} {s s' : RaftSystem} {c c' : Cluster}
  {p : PeerId}

/-- The peer is a Raft peer of `P` in the state `r`. -/
structure Member (P : Finset PeerId) (p : PeerId) (r : RaftConsensus) (peer : Peer) : Prop where
  consensus : peer.consensus = .raft r
  peerId : peer.effects.peerId = p
  knownPeers : ∀ q, q ∈ peer.effects.network.knownPeers ↔ q ∈ P ∧ q ≠ p
  inRange : r.currentTerm < 2 ^ 64 - 1

/-- The cluster holds the consensus states of the peers of `P`, and their messages. -/
structure Matches (P : Finset PeerId) (s : RaftSystem) (c : Cluster) : Prop where
  members : ∀ p ∈ P, Member P p (c.peers p) (s.peers p)
  sent : ∀ x ∈ s.sent, x ∈ c.sent

/-- A call to the network turns into messages that the effect emits. -/
theorem Member.emits {r : RaftConsensus} {peer : Peer} (h : Member P p r peer)
    {effect : ConsensusEffect} {call : NetworkCall} (hcalls : effect.Calls p call) {m : Message}
    (hm : m ∈ call.messages peer.effects.network.knownPeers) : Cluster.Emits P p effect m := by
  cases hcalls with
  | broadcast body =>
      obtain ⟨q, hq, rfl⟩ := List.mem_map.mp hm
      obtain ⟨hmem, hne⟩ := (h.knownPeers q).mp (List.mem_filter.mp hq).1
      exact .broadcast body q hmem hne
  | send dst body =>
      rw [List.mem_singleton.mp hm]
      exact .send dst body
  | sendRaftAppendEntries dst term prevLogIndex prevLogTerm replicated leaderCommit =>
      rw [List.mem_singleton.mp hm]
      exact .sendRaftAppendEntries dst term prevLogIndex prevLogTerm replicated leaderCommit

/-- The messages of an event are asked for by its calls. -/
theorem Member.sentAlong {r : RaftConsensus} {peer peer' : Peer} (h : Member P p r peer)
    {events : List RaftEvent}
    (hdelegates : PeerEffects.Delegates pf r events peer.effects peer'.effects peer'.consensus) :
    ∀ x ∈ (Lossless.sent peer peer').map (⟨·, peer'.raftLog⟩),
      Cluster.SentAlong pf P p r events x := by
  intro x hx
  obtain ⟨m, hm, rfl⟩ := List.mem_map.mp hx
  obtain ⟨new, hcalls, hnew⟩ := hdelegates.calls
  rw [Lossless.sent, hcalls, List.drop_left, hdelegates.knownPeers] at hm
  obtain ⟨call, hcall, hm⟩ := List.mem_flatMap.mp hm
  obtain ⟨effect, hasks, hmakes⟩ := hnew call hcall
  rw [h.peerId] at hmakes
  exact ⟨Peer.raftLog_eq hdelegates.engine, effect, hasks, h.emits hmakes hm⟩

/-- A local call meets every condition. -/
theorem meets_local (A B : Prop) (c : Cluster) (act : Cluster.Action)
    (h : act.event.isLocal = true) :
    (A → c.RejectionsTrue act) ∧ (B → c.CommitsCovered act) := by
  cases act with
  | deliver sent now draw => cases h
  | _ => exact ⟨fun _ => trivial, fun _ => trivial⟩

theorem step_self (pf : Platform) (s : RaftSystem) (act : Action) :
    (s.step pf act).peers act.peer = (s.peers act.peer).handle pf act.toSystem.event :=
  Function.update_self ..

theorem step_other (pf : Platform) (s : RaftSystem) {act : Action} {q : PeerId}
    (hq : q ≠ act.peer) : (s.step pf act).peers q = s.peers q :=
  Function.update_of_ne hq ..

/-- The calls of a step lead the cluster where the step leads the system. -/
theorem Matches.along (h : Matches P s c) {act : Action} (hmem : act.peer ∈ P)
    (hrange : s.InRange pf act) {events : List RaftEvent}
    (hdelegated : Peer.Delegated pf (s.peers act.peer) ((s.step pf act).peers act.peer)
      (c.peers act.peer) events)
    (halong : Cluster.Along pf act.peer events
      ((Lossless.sent (s.peers act.peer) ((s.step pf act).peers act.peer)).map
        (⟨·, ((s.step pf act).peers act.peer).raftLog⟩)) c c') :
    Matches P (s.step pf act) c' := by
  have hmember := h.members act.peer hmem
  have hself : c'.peers act.peer = (c.peers act.peer).handleEach pf events := by
    rw [halong.peers, Function.update_self]
  refine ⟨fun q hq => ?_, ?_⟩
  · by_cases hact : q = act.peer
    · rw [hact, hself]
      refine ⟨hdelegated.delegates.engine, hdelegated.delegates.peerId.trans hmember.peerId, ?_,
        hrange _ hdelegated.delegates.engine⟩
      rw [hdelegated.delegates.knownPeers]
      exact hmember.knownPeers
    · rw [halong.peers, Function.update_of_ne hact, step_other pf s hact]
      exact h.members q hq
  · intro x hx
    refine halong.sent x ?_
    rcases List.mem_append.mp hx with hx | hx
    · exact Or.inl (h.sent x hx)
    · exact Or.inr hx

/-- The calls of a step: that of the message or the tick, if it comes to consensus, and
    local ones. -/
theorem Matches.calls (h : Matches P s c) {act : Action} (hmem : act.peer ∈ P)
    (henabled : act.Enabled s) (hmeets : s.Meets pf A B act) :
    ∃ first later,
      Peer.Delegated pf (s.peers act.peer) ((s.step pf act).peers act.peer) (c.peers act.peer)
        (first ++ later) ∧
      (∀ event ∈ later, event.isLocal = true) ∧
      (first = [] ∨ ∃ event, ∃ call : Cluster.Action, first = [event] ∧ call.event = event ∧
        call.peer = act.peer ∧ call.Enabled P c ∧
        (A → c.RejectionsTrue call) ∧ (B → c.CommitsCovered call)) := by
  have hmember := h.members act.peer hmem
  rw [step_self]
  cases act with
  | client p clientTx now draw =>
      obtain ⟨events, hdelegated, hlocal⟩ :=
        Peer.processClientTransaction_delegated hmember.consensus clientTx
      exact ⟨[], events, hdelegated, hlocal, Or.inl rfl⟩
  | deliver sent now draw =>
      obtain ⟨first, later, hdelegated, hfirst, hlocal⟩ :=
        Peer.handleMessage_delegated hmember.consensus sent.message now draw
      refine ⟨first, later, hdelegated, hlocal, ?_⟩
      rcases hfirst with hfirst | hfirst
      · exact Or.inl hfirst
      · refine Or.inr ⟨_, .deliver sent now draw, hfirst, rfl, rfl, h.sent sent henabled, ?_, ?_⟩
        · exact fun hA => hmeets.rejections hA _ hmember.consensus
        · exact fun hB => hmeets.commits hB _ hmember.consensus
  | tick p now =>
      obtain ⟨later, hdelegated, hlocal⟩ := Peer.handleTick_delegated hmember.consensus now
      refine ⟨[_], later, hdelegated, hlocal, Or.inr ⟨_, .tick p now _, rfl, rfl, rfl, ?_⟩⟩
      exact ⟨hmember.knownPeers, fun _ => trivial, fun _ => trivial⟩

/-- Every step of the system is a run of the cluster. -/
theorem Matches.step (h : Matches P s c) {act : Action} (hmem : act.peer ∈ P)
    (henabled : act.Enabled s) (hmeets : s.Meets pf A B act) :
    ∃ c', Cluster.Run pf P
        (fun c act => (A → c.RejectionsTrue act) ∧ (B → c.CommitsCovered act)) c c' ∧
      Matches P (s.step pf act) c' := by
  have hmember := h.members act.peer hmem
  obtain ⟨first, later, hdelegated, hlocal, hfirst⟩ := h.calls hmem henabled hmeets
  have hsent := hmember.sentAlong hdelegated.delegates
  rcases hfirst with rfl | ⟨event, call, rfl, hevent, hpeer, hcall, hconditions⟩
  · obtain ⟨c', hrun, halong⟩ := Cluster.along_local hmem hmember.inRange hlocal
      (fun c act => meets_local A B c act) hsent
    exact ⟨c', hrun, h.along hmem hmeets.inRange hdelegated halong⟩
  · -- Local calls do not touch the term, so it is in range after the first call already.
    have hafter : ((c.peers act.peer).handle pf event).1.currentTerm < 2 ^ 64 - 1 := by
      have hlast := hmeets.inRange _ hdelegated.delegates.engine
      rwa [List.singleton_append, RaftConsensus.handleEach_cons,
        RaftConsensus.handleEach_currentTerm pf _ hlocal] at hlast
    obtain ⟨c', hrun, halong⟩ := Cluster.along_first hmem hevent hpeer hcall hmember.inRange hafter
      hlocal hconditions (fun c act => meets_local A B c act) hsent
    exact ⟨c', hrun, h.along hmem hmeets.inRange hdelegated halong⟩

/-- Every run of the system is a run of the cluster. -/
theorem Matches.run (h : Matches P s c) {ok : RaftSystem → Action → Prop}
    (hok : ∀ s act, ok s act → s.Meets pf A B act) (hrun : Run pf P ok s s') :
    ∃ c', Cluster.Run pf P
        (fun c act => (A → c.RejectionsTrue act) ∧ (B → c.CommitsCovered act)) c c' ∧
      Matches P s' c' := by
  induction hrun with
  | refl => exact ⟨c, .refl, h⟩
  | tail _ hstep ih =>
      obtain ⟨c₁, hrun₁, h₁⟩ := ih
      obtain ⟨act, hmem, henabled, hact, rfl⟩ := hstep
      obtain ⟨c₂, hrun₂, h₂⟩ := h₁.step hmem henabled (hok _ act hact)
      exact ⟨c₂, Relation.ReflTransGen.trans hrun₁ hrun₂, h₂⟩

end RaftSystem

-- ============================================================================
-- From the start
-- ============================================================================

/-- Every peer has an empty log, whatever its log store does, and no message was sent. -/
def Cluster.Fresh (c : Cluster) : Prop :=
  c.sent = [] ∧ ∀ p, ∃ raftLogStore now draw,
    c.peers p = RaftConsensus.newWithLog p [] 0 raftLogStore now draw

theorem Cluster.Fresh.sim {P : Finset PeerId} {A B : Prop} {c : Cluster} (h : c.Fresh) :
    ClusterSim P A B c RaftCore.State.init where
  inv := RaftCore.Inv.init
  peers := by
    intro p
    obtain ⟨raftLogStore, now, draw, hp⟩ := h.2 p
    rw [hp]
    exact
      { peerId := rfl
        term := rfl
        log := rfl
        contiguous := Contiguous.nil 0
        vote := rfl
        knows := fun hrole => absurd rfl hrole
        candidate := fun hrole => by cases hrole
        leader := fun hrole => by cases hrole
        commit_le := Nat.le_refl _
        matched := fun _ hrole => by cases hrole
        committed := fun _ _ => Or.inl rfl }
  sent := by
    rw [h.1]
    exact fun _ hmem => absurd hmem List.not_mem_nil

namespace RaftSystem

variable {pf : Platform} {P : Finset PeerId} {A B : Prop} {s s' : RaftSystem} {c c' : Cluster}
  {p : PeerId}

/-- A new Raft peer without a log file has an empty log. -/
theorem startRaft_fresh {id : PeerId} {network : Network} {dir : BlockDir}
    {store : FileRaftLogStore} {mempoolSize : Nat} {walk : HashMap.Walk BlockHash BlockFile}
    {signingKey : SigningKey} {now : Instant} {draw : Nat} {peer : Peer}
    (hcontents : store.contents = none)
    (hstart : Peer.startRaft pf id network dir store mempoolSize walk signingKey now draw =
      .ok peer) :
    peer.consensus = .raft (.newWithLog id [] 0 (.file store) now draw) ∧
      peer.effects.peerId = id ∧ peer.effects.network = network ∧
      peer.consensusState = peer.consensus.state := by
  have hload : (AnyRaftLogStore.file store).load pf = .ok { log := [], commitIndex := none } := by
    show store.load pf = _
    rw [FileRaftLogStore.load, hcontents]
  have hnew : ∀ height, RaftConsensus.newWithStorage pf id (.file store) height now draw =
      .ok (.newWithLog id [] 0 (.file store) now draw) := by
    intro height
    rw [RaftConsensus.newWithStorage, hload]
    simp only [RaftConsensus.newWithLog, lastIndexOf, Option.getD_none]
    simp
  simp only [Peer.startRaft, ConsensusEngine.newRaftWithStorage, hnew] at hstart
  cases hstart
  exact ⟨rfl, rfl, rfl, rfl⟩

theorem RaftStart.matches_fresh (h : s.RaftStart pf P) : ∃ c : Cluster, c.Fresh ∧ Matches P s c := by
  classical
  obtain ⟨hsent, hpeers⟩ := h
  refine ⟨⟨fun p => if p ∈ P then
      match (s.peers p).consensus with
      | .raft r => r
      | .voting .. => .new p 0 0
    else .new p 0 0, []⟩, ⟨rfl, fun p => ?_⟩, fun p hp => ?_, ?_⟩
  · by_cases hp : p ∈ P
    · obtain ⟨knownPeers, dir, store, mempoolSize, walk, signingKey, now, draw, -, hcontents,
        hstart⟩ := hpeers p hp
      refine ⟨.file store, now, draw, ?_⟩
      simp only [if_pos hp, (startRaft_fresh hcontents hstart).1]
    · refine ⟨.inMemory .new, 0, 0, ?_⟩
      simp only [if_neg hp]
      rfl
  · obtain ⟨knownPeers, dir, store, mempoolSize, walk, signingKey, now, draw, hknown, hcontents,
      hstart⟩ := hpeers p hp
    obtain ⟨hconsensus, hpeer, hnetwork, -⟩ := startRaft_fresh hcontents hstart
    simp only [if_pos hp, hconsensus]
    refine ⟨hconsensus, hpeer, ?_, ?_⟩
    · rw [hnetwork]
      exact hknown
    · show 0 < 2 ^ 64 - 1
      decide
  · rw [hsent]
    exact fun _ hmem => absurd hmem List.not_mem_nil

-- ============================================================================
-- Scripts
-- ============================================================================

/-- The step stays in range, a leader that handles a rejection takes over a true match,
    a follower raises its commit index over what the request covers, and a request that
    it accepts fits its block store. -/
structure Orderly (pf : Platform) (s : RaftSystem) (act : Action) : Prop
    extends Meets pf True True s act where
  keepsUp : ∀ sent now draw, act = .deliver sent now draw →
    (s.peers sent.message.to).KeepsUp pf (.message sent.message now draw)


/-- One line of a script: which of the messages sent so far is delivered, or what else
    happens. -/
inductive Cue where
  | client (p : PeerId) (clientTx : SignedTransaction) (now : Instant)
  | deliver (k : Nat) (now : Instant)
  | tick (p : PeerId) (now : Instant)

def Cue.action (s : RaftSystem) : Cue → Option Action
  | client p clientTx now => some (.client p clientTx now 0)
  | deliver k now => s.sent[k]?.map fun sent => .deliver sent now 0
  | tick p now => some (.tick p now)

/-- An orderly step in a form that is easy to run: no rejection is handled, and no
    request reaches past what it carries. -/
def ready (pf : Platform) (s : RaftSystem) (act : Action) : Bool :=
  (match ((s.step pf act).peers act.peer).consensus with
    | .raft r => decide (r.currentTerm < 2 ^ 64 - 1)
    | .voting .. => true) &&
  match act with
  | .deliver sent now draw =>
    match (s.peers sent.message.to).consensus, sent.message.body with
    | .raft r, .raftAppendEntries term leaderId prevLogIndex prevLogTerm entries leaderCommit =>
      decide (min leaderCommit r.lastLogIndex ≤ prevLogIndex + entries.length) &&
        (r.acceptance pf
          { term, leaderId, prevLogIndex, prevLogTerm, entries, leaderCommit
            «from» := sent.message.from
            now } draw).all fun a =>
          decide (a.Fits pf (s.peers sent.message.to).effects.blockKeeper r)
    | _, .raftAppendEntriesResponse _ success _ => success
    | _, _ => true
  | _ => true

theorem orderly_of_ready {act : Action} (h : s.ready pf act = true) : s.Orderly pf act := by
  obtain ⟨hrange, hready⟩ := (Bool.and_eq_true _ _).mp h
  have hinRange : s.InRange pf act := by
    intro r hr
    rw [hr] at hrange
    exact of_decide_eq_true hrange
  cases act with
  | client p clientTx now draw =>
      exact ⟨⟨hinRange, fun _ => trivial, fun _ => trivial⟩, by rintro _ _ _ ⟨⟩⟩
  | tick p now => exact ⟨⟨hinRange, fun _ => trivial, fun _ => trivial⟩, by rintro _ _ _ ⟨⟩⟩
  | deliver sent now draw =>
      refine ⟨⟨hinRange, fun _ r hr => ?_, fun _ r hr => ?_⟩, ?_⟩
      · cases hbody : sent.message.body with
        | raftAppendEntriesResponse term success matchIndex =>
            simp only [hbody, hr] at hready
            subst hready
            simp only [RejectionTrue, hbody]
        | _ => simp only [RejectionTrue, hbody]
      · cases hbody : sent.message.body with
        | raftAppendEntries term leaderId prevLogIndex prevLogTerm entries leaderCommit =>
            simp only [hbody, hr, Bool.and_eq_true, decide_eq_true_eq] at hready
            simp only [CommitCovered, hbody]
            exact fun _ _ _ => Or.inl (hready.1.trans (Nat.le_max_left _ _))
        | _ => simp only [CommitCovered, hbody]
      · rintro _ _ _ ⟨⟩
        cases hbody : sent.message.body with
        | raftAppendEntries term leaderId prevLogIndex prevLogTerm entries leaderCommit =>
            simp only [Peer.KeepsUp, hbody]
            intro r a hr haccepted
            simp only [hbody, hr, Bool.and_eq_true] at hready
            have hfits := hready.2
            rw [haccepted] at hfits
            exact of_decide_eq_true hfits
        | _ => simp only [Peer.KeepsUp, hbody]

section Script

variable (pf : Platform) (P : Finset PeerId)

/-- A line that cannot be performed is skipped. -/
def perform (s : RaftSystem) (cue : Cue) : RaftSystem :=
  match cue.action s with
  | none => s
  | some act => if act.peer ∈ P ∧ s.ready pf act = true then s.step pf act else s

def script (s : RaftSystem) (cues : List Cue) : RaftSystem := cues.foldl (perform pf P) s

end Script

theorem Cue.action_enabled {cue : Cue} {act : Action} (h : cue.action s = some act) :
    act.Enabled s := by
  cases cue with
  | client p clientTx now =>
      cases h
      trivial
  | deliver k now =>
      obtain ⟨sent, hsent, rfl⟩ := Option.map_eq_some_iff.mp h
      exact List.mem_of_getElem? hsent
  | tick p now =>
      cases h
      trivial

/-- Every script is an orderly run. -/
theorem script_run (pf : Platform) (P : Finset PeerId) (s : RaftSystem) (cues : List Cue) :
    Run pf P (Orderly pf) s (s.script pf P cues) := by
  induction cues generalizing s with
  | nil => exact .refl
  | cons cue cues ih =>
      refine Relation.ReflTransGen.trans ?_ (ih (s.perform pf P cue))
      rw [perform]
      cases hact : cue.action s with
      | none => exact .refl
      | some act =>
          dsimp only
          split
          · rename_i hguard
            exact .single ⟨act, hguard.1, cue.action_enabled hact, orderly_of_ready hguard.2, rfl⟩
          · exact .refl

/-- Every run of whole Raft peers is, in their consensus states and the messages between
    them, a run of a cluster from empty logs. -/
theorem run_refines (hstart : s.RaftStart pf P) (hrun : Run pf P (Meets pf A B) s s') :
    ∃ c c' : Cluster, c.Fresh ∧ Matches P s c ∧ Cluster.Run pf P
        (fun c act => (A → c.RejectionsTrue act) ∧ (B → c.CommitsCovered act)) c c' ∧
      Matches P s' c' := by
  obtain ⟨c, hfresh, hmatches⟩ := hstart.matches_fresh
  obtain ⟨c', hcluster, hmatches'⟩ := hmatches.run (fun _ _ h => h) hrun
  exact ⟨c, c', hfresh, hmatches, hcluster, hmatches'⟩

end RaftSystem

namespace Reference

theorem raftPair_knows (p : PeerId) (hp : p ∈ ({1, 2} : Finset PeerId)) :
    ∀ q, q ∈ (if p = 1 then [2] else [1] : List PeerId) ↔
      q ∈ ({1, 2} : Finset PeerId) ∧ q ≠ p := by
  intro q
  rcases Finset.mem_insert.mp hp with rfl | hp
  · rw [if_pos rfl, List.mem_singleton, Finset.mem_insert, Finset.mem_singleton]
    constructor
    · rintro rfl
      exact ⟨Or.inr rfl, by decide⟩
    · rintro ⟨hq, hne⟩
      exact hq.resolve_left hne
  · rw [Finset.mem_singleton.mp hp, if_neg (by decide), List.mem_singleton, Finset.mem_insert,
      Finset.mem_singleton]
    constructor
    · rintro rfl
      exact ⟨Or.inl rfl, by decide⟩
    · rintro ⟨hq, hne⟩
      exact hq.resolve_right hne

end Reference

namespace RaftSystem

open Reference

/-- The pair, its messages kept with the logs. -/
def pair : RaftSystem := { peers := raftPair.peers, sent := [] }

theorem pair_raftStart : pair.RaftStart platform {1, 2} :=
  ⟨rfl, fun p hp => ⟨_, _, _, _, _, _, _, _, raftPair_knows p hp, rfl, raftPeer_started p _⟩⟩

/-- Peer 1 is elected, packs a deposit and sends it to peer 2, whose acknowledgement makes
    it commit the block. -/
def commits : List Cue :=
  [.tick 2 0, .tick 1 20000, .deliver 0 20000, .deliver 1 20000, .client 1 deposit 20000,
    .deliver 3 20000, .deliver 4 20000]

/-- Its next heartbeat makes peer 2 commit it too. -/
def follows : List Cue := [.tick 1 30000, .deliver 5 30000]

theorem run_refines_pair :
    ∃ c c' : Cluster, c.Fresh ∧ Matches {1, 2} pair c ∧ Cluster.Run platform {1, 2}
        (fun c act => (True → c.RejectionsTrue act) ∧ (True → c.CommitsCovered act)) c c' ∧
      Matches {1, 2} (pair.script platform {1, 2} commits) c' := by
  have hrun : Run platform {1, 2} (Meets platform True True) pair
      (pair.script platform {1, 2} commits) := by
    refine Relation.ReflTransGen.mono ?_ _ _ (script_run platform {1, 2} pair commits)
    rintro _ _ ⟨act, hmem, henabled, horderly, heq⟩
    exact ⟨act, hmem, henabled, horderly.toMeets, heq⟩
  exact run_refines pair_raftStart hrun

-- ============================================================================
-- What peers publish
-- ============================================================================

/-- The system, its cluster, and the history of the abstract protocol.  A published
    state may be old, but a leader in it was elected. -/
structure Sim (P : Finset PeerId) (A B : Prop) (s : RaftSystem) (c : Cluster) (a : Abstract) :
    Prop where
  matched : Matches P s c
  sim : ClusterSim P A B c a
  published : ∀ p ∈ P, ∀ term leaderId commitIndex lastLogIndex,
    (s.peers p).consensusState = .raft .leader term leaderId commitIndex lastLogIndex →
      ∃ el, a.elected term = some el ∧ el.leader = p

variable {pf : Platform} {P : Finset PeerId} {A B : Prop} {s s' : RaftSystem} {c : Cluster}
  {a : Abstract}

theorem RaftStart.sim (h : s.RaftStart pf P) : ∃ c, Sim P A B s c RaftCore.State.init := by
  obtain ⟨c, hfresh, hmatches⟩ := h.matches_fresh
  refine ⟨c, hmatches, hfresh.sim, ?_⟩
  intro p hp term leaderId commitIndex lastLogIndex hstate
  obtain ⟨knownPeers, dir, store, mempoolSize, walk, signingKey, now, draw, -, hcontents,
    hstart⟩ := h.2 p hp
  obtain ⟨hconsensus, -, -, hpublished⟩ := startRaft_fresh hcontents hstart
  rw [hpublished, hconsensus] at hstate
  cases hstate

theorem Sim.step (h : Sim P A B s c a) {act : Action} (hmem : act.peer ∈ P)
    (henabled : act.Enabled s) (hmeets : s.Meets pf A B act) :
    ∃ c' a', RaftCore.Extends a a' ∧ Sim P A B (s.step pf act) c' a' := by
  obtain ⟨c', hrun, hmatches⟩ := h.matched.step hmem henabled hmeets
  obtain ⟨a', hext, hsim⟩ := h.sim.run (fun hA _ _ hok => hok.1 hA) (fun hB _ _ hok => hok.2 hB)
    hrun
  refine ⟨c', a', hext, hmatches, hsim, ?_⟩
  intro p hp term leaderId commitIndex lastLogIndex hstate
  -- What was published before is still true of the longer history.
  have hold : (s.peers p).consensusState = .raft .leader term leaderId commitIndex lastLogIndex →
      ∃ el, a'.elected term = some el ∧ el.leader = p := by
    intro hstate
    obtain ⟨el, hel, hleader⟩ := h.published p hp term leaderId commitIndex lastLogIndex hstate
    exact ⟨el, hext.elected term el hel, hleader⟩
  by_cases hact : p = act.peer
  · subst hact
    obtain ⟨first, later, hdelegated, -⟩ := h.matched.calls hmem henabled hmeets
    rcases hdelegated.published with hsame | hcurrent
    · exact hold (hsame ▸ hstate)
    · have hmember := hmatches.members act.peer hp
      rw [hcurrent, hmember.consensus] at hstate
      obtain ⟨hrole, hterm, -⟩ := ConsensusState.raft.inj hstate
      rw [← hterm]
      exact (hsim.peers act.peer).leader hrole
  · rw [step_other pf s hact] at hstate
    exact hold hstate

theorem Sim.run (h : Sim P A B s c a) {ok : RaftSystem → Action → Prop}
    (hok : ∀ s act, ok s act → s.Meets pf A B act) (hrun : Run pf P ok s s') :
    ∃ c' a', RaftCore.Extends a a' ∧ Sim P A B s' c' a' := by
  induction hrun with
  | refl => exact ⟨c, a, .refl a, h⟩
  | tail _ hstep ih =>
      obtain ⟨c₁, a₁, hext₁, h₁⟩ := ih
      obtain ⟨act, hmem, henabled, hact, rfl⟩ := hstep
      obtain ⟨c₂, a₂, hext₂, h₂⟩ := h₁.step hmem henabled (hok _ act hact)
      exact ⟨c₂, a₂, hext₁.trans hext₂, h₂⟩

end RaftSystem

end Rustchain
