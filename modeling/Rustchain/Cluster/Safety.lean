/-
  Rustchain.Cluster.Safety

  What every run of a cluster guarantees.

  Election safety and log matching hold of every run.  Leader completeness and
  agreement on committed entries hold of every run in which leaders take over
  only true match indexes from rejections and, for agreement, followers raise
  their commit index only over entries of the leader's log.
-/

import Rustchain.Cluster.Script
import Rustchain.Cluster.Simulation

namespace Rustchain

open RaftCore

-- ============================================================================
-- How a leader raises its commit index
-- ============================================================================

/-- The commit index is that of an entry of the current term which, by the
    leader's account, a majority holds. -/
def CommittedByMajority (r : RaftConsensus) : Prop :=
  ∃ entry ∈ r.log, entry.index = r.commitIndex ∧ entry.term = r.currentTerm ∧
    r.majority ≤ r.replicatedCount entry.index

variable {P : Finset PeerId} {pf : Platform} {r r' : RaftConsensus}

theorem CommittedByMajority.congr (h : CommittedByMajority r) (hsame : SameCore r r') :
    CommittedByMajority r' := by
  unfold CommittedByMajority RaftConsensus.majority RaftConsensus.replicatedCount at h ⊢
  rw [hsame.log, hsame.commitIndex, hsame.currentTerm, hsame.participants, hsame.matchIndexes]
  exact h

/-- A commit index above `commitIndex` was, at a leader, raised by a majority. -/
def RaisedByMajority (commitIndex : Nat) (r : RaftConsensus) : Prop :=
  commitIndex < r.commitIndex → r.role = .leader → CommittedByMajority r

theorem RaisedByMajority.of_eq {commitIndex : Nat} (h : r.commitIndex = commitIndex) :
    RaisedByMajority commitIndex r :=
  fun hlt _ => absurd hlt (by omega)

theorem RaisedByMajority.congr {commitIndex : Nat} (h : RaisedByMajority commitIndex r)
    (hsame : SameCore r r') : RaisedByMajority commitIndex r' := by
  intro hlt hrole
  rw [hsame.commitIndex] at hlt
  rw [hsame.role] at hrole
  exact (h hlt hrole).congr hsame

theorem advanceCommitIndex_raised (r : RaftConsensus) :
    RaisedByMajority r.commitIndex r.advanceCommitIndex.1 := by
  rw [r.advanceCommitIndex_fst]
  cases hcand : r.commitCandidate with
  | none => exact RaisedByMajority.of_eq rfl
  | some entry =>
      obtain ⟨hmem, -, hterm, hcount⟩ := RaftConsensus.commitCandidate_spec hcand
      exact fun _ _ => ⟨entry, hmem, rfl, hterm, hcount⟩

theorem appendAsLeader_raised (r : RaftConsensus) (entry : RaftLogEntry) :
    RaisedByMajority r.commitIndex (r.appendAsLeader pf entry).1 := by
  set r₁ : RaftConsensus :=
    { r with
      log := r.log ++ [entry]
      matchIndexes := r.matchIndexes.insert r.peerId entry.index } with hr₁
  show RaisedByMajority r.commitIndex (r₁.advanceCommitIndex.1.persistThen pf
    (r₁.appendEntriesEffectsForFollowers ++ r₁.advanceCommitIndex.2)).1
  exact (advanceCommitIndex_raised r₁).congr (RaftConsensus.persistThen_sameCore _ _)

theorem becomeLeaderIfMajority_commitIndex (r : RaftConsensus) :
    r.becomeLeaderIfMajority.1.commitIndex = r.commitIndex := by
  rw [RaftConsensus.becomeLeaderIfMajority]
  split <;> rfl

theorem stepDownOnNewerTerm_commitIndex (r : RaftConsensus) (term : Nat) :
    (r.stepDownOnNewerTerm term).commitIndex = r.commitIndex := by
  rw [RaftConsensus.stepDownOnNewerTerm]
  split <;> rfl

theorem onTick_raised (r : RaftConsensus) (now : Instant) (knownPeers : List PeerId) :
    RaisedByMajority r.commitIndex (r.onTick pf now knownPeers).1 := by
  rw [RaftConsensus.onTick]
  simp only
  split
  · split
    · exact RaisedByMajority.of_eq rfl
    · exact RaisedByMajority.of_eq rfl
  split
  · have hstart : ((r.updateParticipants knownPeers).startElectionAt now).1.commitIndex =
        r.commitIndex := becomeLeaderIfMajority_commitIndex _
    split
    · rename_i r₁ heq
      rw [heq] at hstart
      exact RaisedByMajority.of_eq hstart
    · rename_i r₁ heq
      rw [heq] at hstart
      have hnoop : RaisedByMajority r.commitIndex (r₁.appendLeaderNoop pf).1 :=
        hstart ▸ appendAsLeader_raised r₁ _
      split
      · rename_i heq'
        rw [heq'] at hnoop
        exact hnoop
      · rename_i heq'
        rw [heq'] at hnoop
        exact hnoop
  · exact RaisedByMajority.of_eq rfl

theorem onRequestVote_raised (r : RaftConsensus) (term : Nat) (candidateId : PeerId)
    (lastLogIndex lastLogTerm : Nat) (src : PeerId) :
    RaisedByMajority r.commitIndex
      (r.onRequestVote term candidateId lastLogIndex lastLogTerm src).1 := by
  refine RaisedByMajority.of_eq ?_
  simp only [RaftConsensus.onRequestVote, RaftConsensus.requestVote]
  split
  · rfl
  split
  · exact stepDownOnNewerTerm_commitIndex r term
  split
  · exact stepDownOnNewerTerm_commitIndex r term
  · exact stepDownOnNewerTerm_commitIndex r term

theorem onRequestVoteResponse_raised (r : RaftConsensus) (term : Nat) (voterId : PeerId)
    (voteGranted : Bool) :
    RaisedByMajority r.commitIndex (r.onRequestVoteResponse pf term voterId voteGranted).1 := by
  have hvote : (r.receiveVote term voterId voteGranted).1.commitIndex = r.commitIndex := by
    rw [RaftConsensus.receiveVote]
    split
    · rfl
    split
    · rfl
    split
    · exact becomeLeaderIfMajority_commitIndex _
    · rfl
  rw [RaftConsensus.onRequestVoteResponse]
  split
  · split
    · rename_i r₁ heq
      rw [heq] at hvote
      exact hvote ▸ appendAsLeader_raised r₁ _
    · rename_i r₁ heq
      rw [heq] at hvote
      exact RaisedByMajority.of_eq hvote
  · exact RaisedByMajority.of_eq (stepDownOnNewerTerm_commitIndex r term)

theorem onAppendEntriesResponse_raised (r : RaftConsensus) (term : Nat) (src : PeerId)
    (success : Bool) (matchIndex : Nat) :
    RaisedByMajority r.commitIndex (r.onAppendEntriesResponse pf term src success matchIndex).1 := by
  rw [RaftConsensus.onAppendEntriesResponse]
  split
  · rw [RaftConsensus.handleLeaderAppendEntriesResponse]
    split
    · exact RaisedByMajority.of_eq rfl
    split
    · exact RaisedByMajority.of_eq rfl
    split
    · set r₁ : RaftConsensus := { r with
        matchIndexes := r.matchIndexes.insert src
          (max ((r.matchIndexes.lookup src).getD 0) matchIndex) } with hr₁
      have hadvance : RaisedByMajority r.commitIndex r₁.advanceCommitIndex.1 :=
        advanceCommitIndex_raised r₁
      simp only
      split
      · exact hadvance.congr (RaftConsensus.persistThen_sameCore _ _)
      · exact hadvance
    · simp only
      split
      · exact RaisedByMajority.of_eq rfl
      · exact RaisedByMajority.of_eq rfl
  · exact RaisedByMajority.of_eq (stepDownOnNewerTerm_commitIndex r term)

/-- A follower that accepted entries is no leader. -/
theorem handleAppendEntries_raised (r : RaftConsensus) (request : AppendEntriesRequest)
    (draw : Nat) :
    RaisedByMajority r.commitIndex (r.handleAppendEntries pf request draw).1 := by
  obtain ⟨-, -, hcommit, hfollow⟩ := receiveAppendEntriesAt_ok (P := ∅) (N := fun _ => False)
    (A := False) (B := False) r request.term request.leaderId request.from request.now draw
  rw [RaftConsensus.handleAppendEntries]
  cases hreceive : r.receiveAppendEntriesAt request.term request.leaderId request.from request.now
      draw with
  | mk r₁ accepted =>
      rw [hreceive] at hcommit hfollow
      cases accepted with
      | false => exact RaisedByMajority.of_eq hcommit
      | true =>
          obtain ⟨-, -, hrole⟩ := hfollow rfl
          cases hvalidate : RaftConsensus.validateReplicatedEntries pf request.entries with
          | error e => exact RaisedByMajority.of_eq hcommit
          | ok validated =>
              intro _ hlead
              obtain ⟨_, _, _, _, hfst⟩ := r₁.acceptEntries_fst pf request validated.1 validated.2
              have hrole' : (r₁.acceptEntries pf request validated.1 validated.2).1.role =
                  .follower := by
                rw [hfst]
                exact hrole
              exact absurd (hlead.symm.trans hrole') (by decide)

theorem handle_raised (r : RaftConsensus) (event : RaftEvent) :
    RaisedByMajority r.commitIndex (r.handle pf event).1 := by
  cases event with
  | tick now knownPeers => exact onTick_raised r now knownPeers
  | clientTransaction clientTx => exact RaisedByMajority.of_eq rfl
  | takePendingBlock blockHash => exact RaisedByMajority.of_eq rfl
  | blockCreated blockHash =>
      show RaisedByMajority r.commitIndex (r.onBlockCreated pf blockHash).1
      rw [RaftConsensus.onBlockCreated]
      split
      · rw [RaftConsensus.appendLocalBlock]
        split
        · exact RaisedByMajority.of_eq rfl
        · exact appendAsLeader_raised r _
      · exact RaisedByMajority.of_eq rfl
      · exact RaisedByMajority.of_eq rfl
  | receive src body now draw =>
      cases body with
      | raftRequestVote term candidateId lastLogIndex lastLogTerm =>
          exact onRequestVote_raised r term candidateId lastLogIndex lastLogTerm src
      | raftRequestVoteResponse term voteGranted =>
          exact onRequestVoteResponse_raised r term src voteGranted
      | raftAppendEntries term leaderId prevLogIndex prevLogTerm entries leaderCommit =>
          exact handleAppendEntries_raised r _ draw
      | raftAppendEntriesResponse term success matchIndex =>
          exact onAppendEntriesResponse_raised r term src success matchIndex
      | _ => exact RaisedByMajority.of_eq rfl

-- ============================================================================
-- Safety of runs
-- ============================================================================

/-- Peers that agree on their first `n` entries look up the same entry at every
    index up to `n`. -/
theorem logEntry_eq_of_take {n : Nat} (hlog : Contiguous 0 r.log) (hlog' : Contiguous 0 r'.log)
    (hle : n ≤ r.log.length) (htake : r.log.take n = r'.log.take n) {i : Nat} (hi : 1 ≤ i)
    (hin : i ≤ n) : ∃ entry, r.logEntry i = some entry ∧ r'.logEntry i = some entry := by
  obtain ⟨j, rfl⟩ : ∃ j, i = j + 1 := ⟨i - 1, by omega⟩
  have hj : j < r.log.length := by omega
  refine ⟨r.log[j], ?_, ?_⟩
  · rw [RaftConsensus.logEntry, hlog.entryOf_succ, List.getElem?_eq_getElem hj]
  · rw [RaftConsensus.logEntry, hlog'.entryOf_succ, ← List.getElem?_take_of_lt hin, ← htake,
      List.getElem?_take_of_lt hin, List.getElem?_eq_getElem hj]

namespace Cluster

variable {c₀ c₁ c₂ c₃ : Cluster} {ok : Cluster → Action → Prop}

/-- Election safety: over a whole run, a term has at most one leader. -/
theorem run_leader_unique (hinit : c₀.Initial) (hrun₁ : Run pf P (fun _ _ => True) c₀ c₁)
    (hrun₂ : Run pf P (fun _ _ => True) c₁ c₂) {p q : PeerId} {t : Nat}
    (hp : (c₁.peers p).role = .leader) (hpt : (c₁.peers p).currentTerm = t)
    (hq : (c₂.peers q).role = .leader) (hqt : (c₂.peers q).currentTerm = t) : p = q := by
  obtain ⟨a₁, -, h₁⟩ := (ClusterSim.init (P := P) (A := False) (B := False) hinit).run
    (fun h => h.elim) (fun h => h.elim) hrun₁
  obtain ⟨a₂, hext, h₂⟩ := h₁.run (fun h => h.elim) (fun h => h.elim) hrun₂
  obtain ⟨el, hel, hl⟩ := (h₁.peers p).leader hp
  obtain ⟨el', hel', hl'⟩ := (h₂.peers q).leader hq
  rw [hpt] at hel
  rw [hqt, hext.elected t el hel] at hel'
  cases hel'
  exact hl.symm.trans hl'

/-- Two peers: peer 0 is elected, replicates and commits its no-op, and tells
    peer 1 so. -/
def pairScript : List Cue :=
  [.tick 1 0, .tick 0 10000, .deliver 0 10000, .deliver 1 10000, .deliver 2 10000,
    .deliver 3 10000, .tick 0 10000, .deliver 4 10000]

theorem run_leader_unique_pair :
    ((scripted [0, 1] fresh pairScript).peers 0).role = .leader ∧
      ((scripted [0, 1] fresh pairScript).peers 0).currentTerm = 1 ∧ (0 : PeerId) = 0 := by
  have hrole : ((scripted [0, 1] fresh pairScript).peers 0).role = .leader := by decide +kernel
  have hterm : ((scripted [0, 1] fresh pairScript).peers 0).currentTerm = 1 := by decide +kernel
  exact ⟨hrole, hterm, run_leader_unique fresh_initial (scripted_run [0, 1] fresh pairScript) .refl
    hrole hterm hrole hterm⟩

/-- Log matching: in every state of a run, two logs with an entry of the same
    index and term agree up to it. -/
theorem run_log_matching (hinit : c₀.Initial) (hrun : Run pf P (fun _ _ => True) c₀ c₁)
    {p q : PeerId} {e f : RaftLogEntry} (he : e ∈ (c₁.peers p).log) (hf : f ∈ (c₁.peers q).log)
    (hindex : e.index = f.index) (hterm : e.term = f.term) {i : Nat} (hi : 1 ≤ i)
    (hie : i ≤ e.index) :
    ∃ entry, (c₁.peers p).logEntry i = some entry ∧ (c₁.peers q).logEntry i = some entry := by
  obtain ⟨a, -, h⟩ := (ClusterSim.init (P := P) (A := False) (B := False) hinit).run
    (fun h => h.elim) (fun h => h.elim) hrun
  have hp := h.peers p
  have hq := h.peers q
  obtain ⟨j, hj⟩ := List.mem_iff_getElem?.mp he
  obtain ⟨j', hj'⟩ := List.mem_iff_getElem?.mp hf
  have hej := hp.contiguous j e hj
  have hej' := hq.contiguous j' f hj'
  have hjj : j' = j := by omega
  subst hjj
  have hlt := (List.getElem?_eq_some_iff.mp hj).1
  have htake := (hp.log ▸ h.inv.log_valid p).take_eq_of_term (hq.log ▸ h.inv.log_valid q) hj hj' hterm
  exact logEntry_eq_of_take hp.contiguous hq.contiguous hlt htake hi (by omega)

theorem run_log_matching_pair :
    ∃ entry, ((scripted [0, 1] fresh pairScript).peers 0).logEntry 1 = some entry ∧
      ((scripted [0, 1] fresh pairScript).peers 1).logEntry 1 = some entry :=
  run_log_matching (e := .noop 1 1) (f := .noop 1 1) fresh_initial
    (scripted_run [0, 1] fresh pairScript) (by decide +kernel) (by decide +kernel) rfl rfl
    (Nat.le_refl 1) (Nat.le_refl 1)

/-- Leader completeness: what a leader commits is in the log of every later
    leader, in every run whose leaders take over only true matches from
    rejections. -/
theorem run_leader_complete (hinit : c₀.Initial) (hrun₁ : Run pf P RejectionsTrue c₀ c₁)
    {act : Action} (hok : c₁.RejectionsTrue act) (hstep : Step pf P c₁ act c₂)
    (hrun₂ : Run pf P RejectionsTrue c₂ c₃) {p q : PeerId} {t u : Nat}
    (hp : (c₂.peers p).role = .leader) (hpt : (c₂.peers p).currentTerm = t)
    (hraised : (c₁.peers p).commitIndex < (c₂.peers p).commitIndex)
    (hq : (c₃.peers q).role = .leader) (hqu : (c₃.peers q).currentTerm = u) (htu : t < u)
    {i : Nat} (hi : 1 ≤ i) (hic : i ≤ (c₂.peers p).commitIndex) :
    ∃ entry, (c₂.peers p).logEntry i = some entry ∧ (c₃.peers q).logEntry i = some entry := by
  obtain ⟨a₁, -, h₁⟩ := (ClusterSim.init (P := P) (A := True) (B := False) hinit).run
    (fun _ _ _ h => h) (fun h => h.elim) hrun₁
  obtain ⟨a₂, -, h₂⟩ := h₁.step hstep (fun _ => hok) (fun h => h.elim)
  obtain ⟨a₃, hext, h₃⟩ := h₂.run (fun _ _ _ h => h) (fun h => h.elim) hrun₂
  have hp₂ := h₂.peers p
  have hq₃ := h₃.peers q
  -- the acting peer is the one whose commit index rose
  have hmajority : CommittedByMajority (c₂.peers p) := by
    rw [hstep.peers, Function.update_apply] at hraised hp ⊢
    split at hraised
    · rename_i hpact
      subst hpact
      rw [if_pos rfl] at hp ⊢
      exact handle_raised _ _ hraised hp
    · exact absurd hraised (Nat.lt_irrefl _)
  obtain ⟨entry, hmem, hindex, hterm, hcount⟩ := hmajority
  obtain ⟨hle, hcommitted, htake⟩ :=
    hp₂.committed_of_majority h₂.inv trivial hp hmem hterm hcount
  rw [hindex, hpt] at hcommitted htake
  rw [hindex] at hle
  obtain ⟨el, hel, -⟩ := hq₃.leader hq
  rw [hqu] at hel
  -- the later leader was elected with the committed prefix
  have hpre := h₃.inv.leader_completeness (hcommitted.mono hext) u el htu hel
  have hpre' : (a₂.lead t).take (c₂.peers p).commitIndex <+: (c₃.peers q).log := by
    rw [hq₃.log_eq_lead h₃.inv hq, hqu]
    refine List.IsPrefix.trans ?_ (hpre.trans (h₃.inv.elected_ok u el hel).log_starts)
    exact (hext.lead t).take _
  rw [← htake] at hpre'
  have hagree := List.prefix_iff_eq_take.mp hpre'
  rw [List.length_take, Nat.min_eq_left hle] at hagree
  exact logEntry_eq_of_take hp₂.contiguous hq₃.contiguous hle hagree hi hic

/-- The pair, up to the acknowledgement that makes peer 0 commit, that step, and
    the election of peer 1 afterwards. -/
def beforeCommit : Cluster := orderly [0, 1] fresh
  [.tick 1 0, .tick 0 10000, .deliver 0 10000, .deliver 1 10000, .deliver 2 10000]

def afterCommit : Cluster := orderly [0, 1] beforeCommit [.deliver 3 10000]

def afterElection : Cluster := orderly [0, 1] afterCommit
  [.tick 1 30000, .deliver 4 30000, .deliver 5 30000]

theorem run_leader_complete_pair :
    ∃ entry, (afterCommit.peers 0).logEntry 1 = some entry ∧
      (afterElection.peers 1).logEntry 1 = some entry := by
  obtain ⟨act, hok, hstep⟩ := orderly_step [0, 1] beforeCommit (.deliver 3 10000)
    (by decide +kernel)
  exact run_leader_complete (t := 1) (u := 2) fresh_initial
    (Run.weaken (orderly_run [0, 1] fresh _) fun _ _ h => h.1) hok.1 hstep
    (Run.weaken (orderly_run [0, 1] afterCommit _) fun _ _ h => h.1) (by decide +kernel)
    (by decide +kernel) (by decide +kernel) (by decide +kernel) (by decide +kernel) (by decide)
    (Nat.le_refl 1) (by decide +kernel)

/-- Five peers.  Peer 0 leads term 1 and its log of two entries reaches peer 1;
    a heartbeat to peer 1 stays in flight.  Peer 2 leads term 2 and cuts the log
    of peer 0; peer 0 leads term 3 with a new second entry.  Now peer 1 rejects
    the old heartbeat with match index 2, and peer 3 acknowledges the new
    entries. -/
def staleRejection : Cluster := scripted [0, 1, 2, 3, 4] fresh
  [.tick 1 0, .tick 2 0, .tick 3 0, .tick 4 0, .tick 0 10000, .deliver 2 10000, .deliver 3 10000,
    .deliver 4 10000, .deliver 5 10000, .block 0 1, .deliver 10 10000, .deliver 14 10000,
    .tick 0 10000, .tick 2 20000, .tick 2 40000, .deliver 25 40000, .deliver 26 40000,
    .deliver 27 40000, .deliver 28 40000, .deliver 29 40000, .tick 0 60000, .deliver 34 60000,
    .deliver 36 60000, .deliver 38 60000, .deliver 39 60000, .deliver 15 60000,
    .deliver 44 60000, .deliver 42 60000]

/-- Peer 0 counts itself, peer 1 and peer 3, and commits index 2. -/
def staleCommit : Cluster := scripted [0, 1, 2, 3, 4] staleRejection [.deliver 45 60000]

/-- Peer 2 is elected in term 4 by peers 1 and 4, without that entry. -/
def staleSuccessor : Cluster := scripted [0, 1, 2, 3, 4] staleCommit
  [.deliver 35 60000, .tick 2 80000, .deliver 48 80000, .deliver 50 80000, .deliver 51 80000,
    .deliver 52 80000]

/-- A rejection of an append request of an earlier leadership makes a leader
    commit an entry that a later leader does not have. -/
theorem run_leader_incomplete :
    ∃ c₀ c₁ act c₂ c₃, c₀.Initial ∧
      Run Reference.platform [0, 1, 2, 3, 4].toFinset (fun _ _ => True) c₀ c₁ ∧
      Step Reference.platform [0, 1, 2, 3, 4].toFinset c₁ act c₂ ∧
      Run Reference.platform [0, 1, 2, 3, 4].toFinset (fun _ _ => True) c₂ c₃ ∧
      (c₂.peers 0).role = .leader ∧ (c₁.peers 0).commitIndex < (c₂.peers 0).commitIndex ∧
      (c₃.peers 2).role = .leader ∧ (c₂.peers 0).currentTerm < (c₃.peers 2).currentTerm ∧
      2 ≤ (c₂.peers 0).commitIndex ∧ (c₂.peers 0).logEntry 2 ≠ (c₃.peers 2).logEntry 2 := by
  obtain ⟨act, hstep⟩ := scripted_step [0, 1, 2, 3, 4] staleRejection (.deliver 45 60000)
    (by decide +kernel)
  exact ⟨fresh, staleRejection, act, staleCommit, staleSuccessor, fresh_initial,
    scripted_run _ _ _, hstep, scripted_run _ _ _, by decide +kernel, by decide +kernel,
    by decide +kernel, by decide +kernel, by decide +kernel, by decide +kernel⟩

/-- State machine safety: peers never disagree on an entry that both have
    committed, in every run whose leaders take over only true matches from
    rejections and whose followers raise their commit index only over entries of
    the leader's log. -/
theorem run_commit_agree
    (hinit : c₀.Initial)
    (hrun₁ : Run pf P (fun c act => c.RejectionsTrue act ∧ c.CommitsCovered act) c₀ c₁)
    (hrun₂ : Run pf P (fun c act => c.RejectionsTrue act ∧ c.CommitsCovered act) c₁ c₂)
    {p q : PeerId} {i : Nat} (hi : 1 ≤ i)
    (hic : i ≤ min (c₁.peers p).commitIndex (c₂.peers q).commitIndex) :
    ∃ entry, (c₁.peers p).logEntry i = some entry ∧ (c₂.peers q).logEntry i = some entry := by
  obtain ⟨a₁, -, h₁⟩ := (ClusterSim.init (P := P) (A := True) (B := True) hinit).run
    (fun _ _ _ h => h.1) (fun _ _ _ h => h.2) hrun₁
  obtain ⟨a₂, hext, h₂⟩ := h₁.run (fun _ _ _ h => h.1) (fun _ _ _ h => h.2) hrun₂
  have hp := h₁.peers p
  have hq := h₂.peers q
  set n := min (c₁.peers p).commitIndex (c₂.peers q).commitIndex with hn
  have hpn : n ≤ (c₁.peers p).log.length := (Nat.min_le_left _ _).trans hp.commit_le
  have hqn : n ≤ (c₂.peers q).log.length := (Nat.min_le_right _ _).trans hq.commit_le
  have hpc : CommittedPrefix RaftLogEntry.term P a₂ ((c₁.peers p).log.take n) :=
    ((hp.committed trivial trivial).initial
      (List.take_prefix_take_left (Nat.min_le_left _ _))).mono hext
  have hqc : CommittedPrefix RaftLogEntry.term P a₂ ((c₂.peers q).log.take n) :=
    (hq.committed trivial trivial).initial (List.take_prefix_take_left (Nat.min_le_right _ _))
  have hlen : ((c₁.peers p).log.take n).length = ((c₂.peers q).log.take n).length := by
    rw [List.length_take, List.length_take]
    omega
  have htake : (c₁.peers p).log.take n = (c₂.peers q).log.take n := by
    rcases h₂.inv.committedPrefix_comparable hpc hqc with hpre | hpre
    · exact hpre.eq_of_length hlen
    · exact (hpre.eq_of_length hlen.symm).symm
  exact logEntry_eq_of_take hp.contiguous hq.contiguous hpn htake hi hic

/-- The pair with its entry committed on both sides. -/
def pairCommitted : Cluster := orderly [0, 1] fresh pairScript

theorem run_commit_agree_pair :
    ∃ entry, (pairCommitted.peers 0).logEntry 1 = some entry ∧
      (pairCommitted.peers 1).logEntry 1 = some entry :=
  run_commit_agree fresh_initial (orderly_run [0, 1] fresh pairScript) .refl (Nat.le_refl 1)
    (by decide +kernel)

/-- Three peers.  Peer 0 leads term 1, commits five entries together with peer 1
    and appends a sixth that reaches nobody.  Peer 1 leads term 2, and commits
    its own sixth entry together with peer 2.  Its next request to peer 0 starts
    at index 0, carries five entries and the commit index 6. -/
def overcommit : Cluster := scripted [0, 1, 2] fresh
  [.tick 1 0, .tick 2 0, .tick 0 10000, .deliver 0 10000, .deliver 2 10000, .deliver 3 10000,
    .deliver 5 10000, .block 0 1, .deliver 6 10000, .deliver 8 10000, .block 0 2,
    .deliver 9 10000, .deliver 11 10000, .block 0 3, .deliver 12 10000, .deliver 14 10000,
    .block 0 4, .deliver 15 10000, .deliver 17 10000, .block 0 5, .tick 1 30000,
    .deliver 21 30000, .deliver 22 30000, .deliver 24 30000, .deliver 25 30000, .tick 1 30000,
    .deliver 27 30000, .deliver 28 30000, .tick 1 35000, .deliver 29 35000]

/-- Two peers have committed different entries at index 6. -/
theorem run_commit_disagree :
    ∃ c₀ c, c₀.Initial ∧ Run Reference.platform [0, 1, 2].toFinset (fun _ _ => True) c₀ c ∧
      6 ≤ min (c.peers 0).commitIndex (c.peers 1).commitIndex ∧
      (c.peers 0).logEntry 6 ≠ (c.peers 1).logEntry 6 :=
  ⟨fresh, overcommit, fresh_initial, scripted_run _ _ _, by decide +kernel, by decide +kernel⟩

end Cluster

end Rustchain
