/-
  Rustchain.System.RaftSafety

  What the refinement says about whole Raft peers: no two of them ever publish that
  they lead the same term, and the block files of two of them agree as far as both
  go.

  The second holds of the runs that avoid what the code does not check: a rejection
  that is no true match, a commit index past what a request covers, and an accepted
  request that does not fit the block store.
-/

import Rustchain.System.Raft

namespace Rustchain

-- ============================================================================
-- Without the logs
-- ============================================================================

namespace System

/-- The step leaves the acting peer in a term below `2^64 - 1`. -/
def InRange (pf : Platform) (s : System) (act : Action) : Prop :=
  ∀ r, ((s.step pf act).peers act.peer).consensus = .raft r → r.currentTerm < 2 ^ 64 - 1

instance (pf : Platform) (s : System) (act : Action) : Decidable (InRange pf s act) :=
  match h : ((s.step pf act).peers act.peer).consensus with
  | .raft r =>
    if hterm : r.currentTerm < 2 ^ 64 - 1 then
      .isTrue fun r' hr' => by
        rw [h] at hr'
        cases hr'
        exact hterm
    else .isFalse fun hrange => hterm (hrange r h)
  | .voting .. => .isTrue fun r hr => by
      rw [h] at hr
      cases hr

/-- The peers of `P` are new Raft peers that know each other. -/
def RaftStart (pf : Platform) (P : Finset PeerId) (s : System) : Prop :=
  RaftSystem.RaftStart pf P { peers := s.peers, sent := [] }

variable {pf : Platform} {P : Finset PeerId} {s s' s₀ s₁ s₂ : System}

/-- The same peers, and all their messages with a log each. -/
structure Lifts (P : Finset PeerId) (s : System) (t : RaftSystem) : Prop where
  peers : t.peers = s.peers
  sent : ∀ p ∈ P, ∀ m ∈ s.sentBy p, ∃ x ∈ t.sent, x.message = m

/-- An action has a counterpart with the log of the message it delivers. -/
theorem Lifts.action {t : RaftSystem} (h : s.Lifts P t) {act : Action} (henabled : act.Enabled P s) :
    ∃ act' : RaftSystem.Action, act'.toSystem = act ∧ act'.Enabled t := by
  cases act with
  | client p clientTx now draw => exact ⟨.client p clientTx now draw, rfl, trivial⟩
  | tick p now => exact ⟨.tick p now, rfl, trivial⟩
  | deliver message now draw =>
      obtain ⟨p, hp, hsent⟩ := henabled
      obtain ⟨x, hx, rfl⟩ := h.sent p hp message hsent
      exact ⟨.deliver x now draw, rfl, hx⟩

theorem Lifts.step_peers {t : RaftSystem} (h : s.Lifts P t) (pf : Platform)
    (act : RaftSystem.Action) : (t.step pf act).peers = (s.step pf act.toSystem).peers := by
  simp only [RaftSystem.step, System.step, h.peers]

/-- A step of the system is one of the system with logs. -/
theorem Lifts.step {A B : Prop} {t : RaftSystem} {c : Cluster} {a : Abstract} (h : s.Lifts P t)
    (hsim : RaftSystem.Sim P A B t c a) {act : RaftSystem.Action} (hmem : act.peer ∈ P)
    (henabled : act.Enabled t) (hmeets : t.Meets pf A B act) :
    (s.step pf act.toSystem).Lifts P (t.step pf act) := by
  have hpeers := h.step_peers pf act
  refine ⟨hpeers, fun p hp m hm => ?_⟩
  rw [sentBy, ← hpeers] at hm
  by_cases hact : p = act.peer
  · subst hact
    obtain ⟨first, later, hdelegated, -⟩ := hsim.matched.calls hmem henabled hmeets
    obtain ⟨new, hcalls, -⟩ := hdelegated.delegates.calls
    rw [hdelegated.delegates.knownPeers, hcalls, List.flatMap_append] at hm
    rcases List.mem_append.mp hm with hm | hm
    · rw [h.peers] at hm
      obtain ⟨x, hx, hmessage⟩ := h.sent act.peer hp m hm
      exact ⟨x, List.mem_append_left _ hx, hmessage⟩
    · refine ⟨⟨m, ((t.step pf act).peers act.peer).raftLog⟩, List.mem_append_right _ ?_, rfl⟩
      refine List.mem_map.mpr ⟨m, ?_, rfl⟩
      show m ∈ Lossless.sent (t.peers act.peer) ((t.step pf act).peers act.peer)
      rw [Lossless.sent, hcalls, List.drop_left, hdelegated.delegates.knownPeers]
      exact hm
  · rw [RaftSystem.step_other pf t hact, h.peers] at hm
    obtain ⟨x, hx, hmessage⟩ := h.sent p hp m hm
    exact ⟨x, List.mem_append_left _ hx, hmessage⟩

/-- A run of the system is one of the system with logs. -/
theorem Lifts.run {t : RaftSystem} {c : Cluster} {a : Abstract} (h : s.Lifts P t)
    (hsim : RaftSystem.Sim P False False t c a) (hrun : Run pf P (InRange pf) s s') :
    ∃ t' c' a', s'.Lifts P t' ∧ RaftCore.Extends a a' ∧ RaftSystem.Sim P False False t' c' a' := by
  induction hrun with
  | refl => exact ⟨t, c, a, h, .refl a, hsim⟩
  | tail _ hstep ih =>
      obtain ⟨t₁, c₁, a₁, h₁, hext₁, hsim₁⟩ := ih
      obtain ⟨act, hmem, henabled, hrange, rfl⟩ := hstep
      obtain ⟨act, rfl, hsent⟩ := h₁.action henabled
      have hmeets : t₁.Meets pf False False act := by
        refine ⟨fun r hr => hrange r ?_, fun h => h.elim, fun h => h.elim⟩
        rw [h₁.step_peers] at hr
        exact hr
      obtain ⟨c₂, a₂, hext₂, hsim₂⟩ := hsim₁.step hmem hsent hmeets
      exact ⟨_, c₂, a₂, h₁.step hsim₁ hmem hsent hmeets, hext₁.trans hext₂, hsim₂⟩

theorem RaftStart.lifts (h : s.RaftStart pf P) :
    ∃ c, s.Lifts P { peers := s.peers, sent := [] } ∧
      RaftSystem.Sim P False False { peers := s.peers, sent := [] } c RaftCore.State.init := by
  obtain ⟨c, hsim⟩ := RaftSystem.RaftStart.sim h
  refine ⟨c, ⟨rfl, fun p hp m hm => ?_⟩, hsim⟩
  obtain ⟨knownPeers, dir, store, mempoolSize, walk, signingKey, now, draw, -, hcontents,
    hstart⟩ := h.2 p hp
  obtain ⟨-, -, hnetwork, -⟩ := RaftSystem.startRaft_fresh hcontents hstart
  rw [sentBy, hnetwork] at hm
  cases hm

/-- Every action can be taken and stays in range. -/
def inRangeAll (pf : Platform) (P : Finset PeerId) : System → List Action → Bool
  | _, [] => true
  | s, act :: acts =>
    decide (act.peer ∈ P) && decide (act.Enabled P s) && decide (InRange pf s act) &&
      inRangeAll pf P (s.step pf act) acts

theorem run_of_inRangeAll {acts : List Action} (h : inRangeAll pf P s acts = true) :
    Run pf P (InRange pf) s (s.stepAll pf acts) := by
  induction acts generalizing s with
  | nil => exact .refl
  | cons act acts ih =>
      simp only [inRangeAll, Bool.and_eq_true, decide_eq_true_eq] at h
      obtain ⟨⟨⟨hmem, henabled⟩, hrange⟩, hrest⟩ := h
      exact .head ⟨act, hmem, henabled, hrange, rfl⟩ (ih hrest)

end System

namespace Reference

theorem raftPair_raftStart : raftPair.RaftStart platform {1, 2} :=
  ⟨rfl, fun p hp => ⟨_, _, _, _, _, _, _, _, raftPair_knows p hp, rfl, raftPeer_started p _⟩⟩

/-- Peer 1 is elected. -/
def election : List System.Action :=
  [.tick 2 0,
    .tick 1 20000,
    .deliver { «from» := 1, «to» := 2, body := .raftRequestVote 1 1 0 0 } 20000 0,
    .deliver { «from» := 2, «to» := 1, body := .raftRequestVoteResponse 1 true } 20000 0]

end Reference

namespace System

open Reference

end System

-- ============================================================================
-- Agreement on block files
-- ============================================================================

theorem blockHashes_starts {log log' : List RaftLogEntry} (h : log <+: log') :
    blockHashes log <+: blockHashes log' := by
  obtain ⟨rest, rfl⟩ := h
  rw [blockHashes_append]
  exact List.prefix_append _ _

/-- Two peers each of whose block files are its committed blocks, one list of which goes
    on from the other, agree on the files both have. -/
theorem Peer.RefinesLog.agree {pf : Platform} {p q : Peer} (hp : p.RefinesLog pf)
    (hq : q.RefinesLog pf) (hstarts : p.committedBlocks <+: q.committedBlocks ∨
      q.committedBlocks <+: p.committedBlocks) {i : Nat}
    (hip : i < p.effects.blockKeeper.blockStorageState.blockHeight)
    (hiq : i < q.effects.blockKeeper.blockStorageState.blockHeight) :
    ∃ b b', BlockFile.readFromDiskByIndex pf p.effects.blockKeeper.dir (i + 1) = .ok b ∧
      BlockFile.readFromDiskByIndex pf q.effects.blockKeeper.dir (i + 1) = .ok b' ∧
      b.hash = b'.hash := by
  rw [hp.1] at hip
  rw [hq.1] at hiq
  obtain ⟨b, hread, hb⟩ := hp.2 i hip
  obtain ⟨b', hread', hb'⟩ := hq.2 i hiq
  refine ⟨b, b', hread, hread', ?_⟩
  rw [hb, hb', List.get_eq_getElem, List.get_eq_getElem]
  rcases hstarts with hstarts | hstarts
  · exact hstarts.getElem hip
  · exact (hstarts.getElem hiq).symm

namespace RaftSystem

/-- The peers of `P` are new Raft peers that know each other, each on an empty directory. -/
def CleanStart (pf : Platform) (P : Finset PeerId) (s : RaftSystem) : Prop :=
  s.sent = [] ∧ ∀ p ∈ P, ∃ knownPeers path peerDir mempoolSize walk signingKey now draw,
    (∀ q, q ∈ knownPeers ↔ q ∈ P ∧ q ≠ p) ∧
      Peer.startRaft pf p { knownPeers, calls := [] } (.empty path) (.empty peerDir) mempoolSize
        walk signingKey now draw = .ok (s.peers p)

variable {pf : Platform} {P : Finset PeerId} {s s' s₀ s₁ s₂ : RaftSystem} {p q : PeerId}

theorem CleanStart.raftStart (h : s.CleanStart pf P) : s.RaftStart pf P := by
  refine ⟨h.1, fun p hp => ?_⟩
  obtain ⟨knownPeers, path, peerDir, mempoolSize, walk, signingKey, now, draw, hknown, hstart⟩ :=
    h.2 p hp
  exact ⟨knownPeers, _, _, mempoolSize, walk, signingKey, now, draw, hknown, rfl, hstart⟩

/-- The block stores of all peers of `P` follow their logs. -/
def Tracked (pf : Platform) (P : Finset PeerId) (s : RaftSystem) : Prop :=
  ∀ p ∈ P, (s.peers p).Tracked pf

theorem CleanStart.tracked (h : s.CleanStart pf P) : s.Tracked pf P := by
  intro p hp
  obtain ⟨knownPeers, path, peerDir, mempoolSize, walk, signingKey, now, draw, -, hstart⟩ :=
    h.2 p hp
  exact Peer.startRaft_tracked hstart

theorem Tracked.step (hpf : pf.Lawful) (h : s.Tracked pf P) {act : Action} (hmem : act.peer ∈ P)
    (horderly : s.Orderly pf act) : (s.step pf act).Tracked pf P := by
  intro q hq
  by_cases hact : q = act.peer
  · subst hact
    rw [step_self]
    cases act with
    | client p clientTx now draw =>
        exact Peer.handleMessage_tracked hpf (h p hmem) _ now draw trivial
    | deliver sent now draw =>
        exact Peer.handleMessage_tracked hpf (h _ hmem) sent.message now draw
          (horderly.keepsUp sent now draw rfl)
    | tick p now => exact Peer.handleTick_tracked hpf (h p hmem) now
  · rw [step_other pf s hact]
    exact h q hq

theorem Tracked.run (hpf : pf.Lawful) (h : s.Tracked pf P) (hrun : Run pf P (Orderly pf) s s') :
    s'.Tracked pf P := by
  induction hrun with
  | refl => exact h
  | tail _ hstep ih =>
      obtain ⟨act, hmem, -, horderly, rfl⟩ := hstep
      exact ih.step hpf hmem horderly

/-- What a peer has committed is a committed prefix of the abstract log. -/
theorem Sim.committed {c : Cluster} {a : Abstract} (h : Sim P True True s c a) (hp : p ∈ P) :
    ∃ log, (s.peers p).committedBlocks = blockHashes log ∧
      RaftCore.CommittedPrefix RaftLogEntry.term P a log := by
  refine ⟨(c.peers p).log.take (c.peers p).commitIndex, ?_,
    (h.sim.peers p).committed trivial trivial⟩
  rw [Peer.committedBlocks, (h.matched.members p hp).consensus]

open Reference

theorem pair_cleanStart : pair.CleanStart platform {1, 2} :=
  ⟨rfl, fun p hp => ⟨_, _, _, _, _, _, _, _, raftPair_knows p hp, raftPeer_started p _⟩⟩

end RaftSystem

end Rustchain
