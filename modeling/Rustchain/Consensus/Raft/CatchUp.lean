/-
  Rustchain.Consensus.Raft.CatchUp

  A leader that brings the log of one follower in line with its own.

  The leader sends what follows the index it believes to match, five entries at a
  time.  A batch that ends before the follower's first stale entry is accepted
  without a conflict, and the follower then raises its commit index to the
  leader's, within its own log: over entries that the leader does not have.  Once a
  stale entry counts as committed, the batch that would replace it is refused, and
  so is every later one.  The logs come to agree exactly if no such batch is sent
  (`CatchesUp`).
-/

import Rustchain.Consensus.Raft.MergeRule
import Rustchain.Reference

namespace Rustchain

-- ============================================================================
-- How far two logs agree
-- ============================================================================

section Agreed

variable {α : Type} [DecidableEq α]

/-- The length of the longest common prefix. -/
def agreed : List α → List α → Nat
  | a :: as, b :: bs => if a = b then agreed as bs + 1 else 0
  | _, _ => 0

theorem agreed_le (as bs : List α) : agreed as bs ≤ as.length ∧ agreed as bs ≤ bs.length := by
  induction as generalizing bs with
  | nil => exact ⟨Nat.le_refl _, Nat.zero_le _⟩
  | cons a as ih =>
      cases bs with
      | nil => exact ⟨Nat.zero_le _, Nat.le_refl _⟩
      | cons b bs =>
          have hrest := ih bs
          simp only [agreed, List.length_cons]
          split <;> omega

theorem take_agreed (as bs : List α) : as.take (agreed as bs) = bs.take (agreed as bs) := by
  induction as generalizing bs with
  | nil => simp [agreed]
  | cons a as ih =>
      cases bs with
      | nil => simp [agreed]
      | cons b bs =>
          rw [agreed]
          split
          · rename_i heq
            rw [heq, List.take_succ_cons, List.take_succ_cons, ih]
          · rfl

theorem le_agreed {as bs : List α} {i : Nat} (h : as.take i = bs.take i) (has : i ≤ as.length)
    (hbs : i ≤ bs.length) : i ≤ agreed as bs := by
  induction as generalizing bs i with
  | nil => exact has.trans (Nat.zero_le _)
  | cons a as ih =>
      cases i with
      | zero => exact Nat.zero_le _
      | succ i =>
          cases bs with
          | nil => cases hbs
          | cons b bs =>
              rw [List.take_succ_cons, List.take_succ_cons, List.cons.injEq] at h
              rw [agreed, if_pos h.1]
              exact Nat.succ_le_succ
                (ih h.2 (Nat.le_of_succ_le_succ has) (Nat.le_of_succ_le_succ hbs))

theorem getElem?_of_lt_agreed {as bs : List α} {i : Nat} (h : i < agreed as bs) :
    as[i]? = bs[i]? := by
  rw [← List.getElem?_take_of_lt h, take_agreed, List.getElem?_take_of_lt h]

/-- One list is a prefix of the other as far as they agree. -/
theorem initial_of_agreed_eq {as bs : List α} (h : agreed as bs = as.length) : as <+: bs := by
  have htake := take_agreed as bs
  rw [h, List.take_length] at htake
  rw [htake]
  exact List.take_prefix _ _

end Agreed

/-- Log matching: entries of the same index and term have the same logs up to them. -/
def LogsMatch (log log' : List RaftLogEntry) : Prop :=
  ∀ index term, termOf log index = some term → termOf log' index = some term →
    log.take index = log'.take index

/-- The entries of `log` after the given index that a request carries. -/
def batchAfter (log : List RaftLogEntry) (index : Nat) : List RaftLogEntry :=
  (log.drop index).take maxAppendEntries

section Batch

variable {log leaderLog : List RaftLogEntry} {index : Nat}

theorem Contiguous.batchAfter (h : Contiguous 0 leaderLog) (index : Nat) :
    Contiguous index (batchAfter leaderLog index) := by
  have hdrop := h.drop index
  rw [Nat.zero_add] at hdrop
  exact hdrop.initial (List.take_prefix _ _)

theorem length_batchAfter (log : List RaftLogEntry) (index : Nat) :
    (batchAfter log index).length = min 5 (log.length - index) := by
  rw [batchAfter, List.length_take, List.length_drop]
  rfl

theorem getElem?_batchAfter {j : Nat} (h : j < 5) :
    (batchAfter log index)[j]? = log[index + j]? := by
  show ((log.drop index).take 5)[j]? = log[index + j]?
  rw [List.getElem?_take_of_lt h, List.getElem?_drop]

theorem batchAfter_eq_none {j : Nat} (h : 5 ≤ j) : (batchAfter log index)[j]? = none := by
  apply List.getElem?_eq_none_iff.mpr
  rw [length_batchAfter]
  omega

/-- The logs have the same term at an index of the leader's log exactly as far as they
    agree. -/
theorem LogsMatch.termOf_eq_iff (hmatch : LogsMatch log leaderLog) (hlog : Contiguous 0 log)
    (hleader : Contiguous 0 leaderLog) (hle : index ≤ leaderLog.length) :
    termOf log index = termOf leaderLog index ↔ index ≤ agreed log leaderLog := by
  constructor
  · intro heq
    obtain ⟨term, hterm⟩ := hleader.exists_termOf hle
    rw [hterm] at heq
    exact le_agreed (hmatch index term heq hterm) (hlog.le_length_of_termOf heq) hle
  · intro hle
    cases index with
    | zero => rfl
    | succ k =>
        rw [hlog.termOf_succ, hleader.termOf_succ, getElem?_of_lt_agreed hle]

theorem firstConflict_eq_none {log entries : List RaftLogEntry}
    (h : ∀ (k : Nat) (existing entry : RaftLogEntry), log[k]? = some existing →
      entries[k]? = some entry → existing.term = entry.term) :
    firstConflict log entries = none := by
  cases hconflict : firstConflict log entries with
  | none => rfl
  | some k =>
      obtain ⟨⟨existing, entry, hexisting, hentry, hne⟩, -⟩ := firstConflict_eq_some hconflict
      exact absurd (h k existing entry hexisting hentry) hne

/-- A batch that the logs agree on has no conflict. -/
theorem firstConflict_batchAfter_none
    (h : index + 5 ≤ agreed log leaderLog ∨ agreed log leaderLog = log.length) :
    firstConflict (log.drop index) (batchAfter leaderLog index) = none := by
  apply firstConflict_eq_none
  intro k existing entry hexisting hentry
  rw [List.getElem?_drop] at hexisting
  rcases Nat.lt_or_ge k 5 with hk | hk
  · have hlt : index + k < agreed log leaderLog := by
      have := (List.getElem?_eq_some_iff.mp hexisting).1
      omega
    rw [getElem?_batchAfter hk, ← getElem?_of_lt_agreed hlt, hexisting] at hentry
    cases hentry
    rfl
  · rw [batchAfter_eq_none hk] at hentry
    cases hentry

/-- A batch that reaches the first stale entry conflicts there. -/
theorem firstConflict_batchAfter_some (hmatch : LogsMatch log leaderLog)
    (hlog : Contiguous 0 log) (hleader : Contiguous 0 leaderLog)
    (hindex : index ≤ agreed log leaderLog) (hreach : agreed log leaderLog < index + 5)
    (hstale : agreed log leaderLog < log.length)
    (hbeyond : agreed log leaderLog < leaderLog.length) :
    firstConflict (log.drop index) (batchAfter leaderLog index) =
      some (agreed log leaderLog - index) := by
  have hdiffer : ∀ (k : Nat) existing entry, (log.drop index)[k]? = some existing →
      (batchAfter leaderLog index)[k]? = some entry →
      (existing.term = entry.term ↔ index + k < agreed log leaderLog) := by
    intro k existing entry hexisting hentry
    rw [List.getElem?_drop] at hexisting
    rcases Nat.lt_or_ge k 5 with hk | hk
    · rw [getElem?_batchAfter hk] at hentry
      have hlt := (List.getElem?_eq_some_iff.mp hentry).1
      have hiff := hmatch.termOf_eq_iff hlog hleader (Nat.succ_le_of_lt hlt)
      rw [hlog.termOf_succ, hleader.termOf_succ, hexisting, hentry, Option.map_some,
        Option.map_some, Option.some.injEq] at hiff
      exact hiff
    · rw [batchAfter_eq_none hk] at hentry
      cases hentry
  have hentryAt : (batchAfter leaderLog index)[agreed log leaderLog - index]? =
      some leaderLog[agreed log leaderLog] := by
    rw [getElem?_batchAfter (by omega), ← List.getElem?_eq_getElem hbeyond]
    congr 1
    omega
  have hexistingAt : (log.drop index)[agreed log leaderLog - index]? =
      some log[agreed log leaderLog] := by
    rw [List.getElem?_drop, ← List.getElem?_eq_getElem hstale]
    congr 1
    omega
  have hiff := hdiffer _ _ _ hexistingAt hentryAt
  cases hconflict : firstConflict (log.drop index) (batchAfter leaderLog index) with
  | none =>
      have hterm := hiff.mp (term_eq_of_firstConflict_none hconflict hexistingAt hentryAt)
      omega
  | some k =>
      obtain ⟨⟨existing, entry, hexisting, hentry, hne⟩, hbefore⟩ :=
        firstConflict_eq_some hconflict
      have hk : ¬ index + k < agreed log leaderLog :=
        fun h => hne ((hdiffer k existing entry hexisting hentry).mpr h)
      have hle : ¬ agreed log leaderLog - index < k := by
        intro hlt
        have hterm := hiff.mp (hbefore _ hlt _ _ hexistingAt hentryAt)
        omega
      congr 1
      omega

-- ============================================================================
-- What a batch does to the follower's log
-- ============================================================================

/-- What is left of a batch from a later index on. -/
theorem drop_batchAfter {log : List RaftLogEntry} {index later : Nat} (h : index ≤ later) :
    (batchAfter log index).drop (later - index) = (log.drop later).take (index + 5 - later) := by
  have hlater : index + (later - index) = later := by omega
  have hrest : 5 - (later - index) = index + 5 - later := by omega
  show ((log.drop index).take 5).drop (later - index) = _
  rw [List.drop_take, List.drop_drop, hlater, hrest]

/-- A log that is a part of the leader's grows to the end of the batch. -/
theorem mergeEntries_initial (commitIndex : Nat) (hleader : Contiguous 0 leaderLog)
    {length : Nat} (hindex : index ≤ length) (hlength : length ≤ leaderLog.length) :
    mergeEntries commitIndex (leaderLog.take length) [] (batchAfter leaderLog index) =
      (leaderLog.take (max length (index + 5)), some []) := by
  have hinitial : Contiguous 0 (leaderLog.take length) := hleader.initial (List.take_prefix _ _)
  have htake : (leaderLog.take length).length = length := by
    rw [List.length_take]
    omega
  have hagreed : agreed (leaderLog.take length) leaderLog = (leaderLog.take length).length := by
    apply Nat.le_antisymm (agreed_le _ _).1
    apply le_agreed _ (Nat.le_refl _)
    · rw [htake]
      exact hlength
    · rw [htake, List.take_take, Nat.min_self]
  rw [mergeEntries_eq commitIndex hinitial (hleader.batchAfter index) (by omega),
    firstConflict_batchAfter_none (Or.inr hagreed)]
  have hend : length + (index + 5 - length) = max length (index + 5) := by omega
  simp only [htake]
  rw [drop_batchAfter hindex, ← List.take_add, hend]

/-- A batch that ends before the first stale entry changes nothing. -/
theorem mergeEntries_short (commitIndex : Nat) (hlog : Contiguous 0 log)
    (hleader : Contiguous 0 leaderLog) (h : index + 5 ≤ agreed log leaderLog) :
    mergeEntries commitIndex log [] (batchAfter leaderLog index) = (log, some []) := by
  have hle := agreed_le log leaderLog
  rw [mergeEntries_eq commitIndex hlog (hleader.batchAfter index) (by omega),
    firstConflict_batchAfter_none (Or.inl h)]
  have hrest : (batchAfter leaderLog index).drop (log.length - index) = [] := by
    apply List.drop_eq_nil_of_le
    rw [length_batchAfter]
    omega
  simp only
  rw [hrest, List.append_nil]

/-- A batch that reaches the first stale entry replaces it and all that follow, unless
    it counts as committed. -/
theorem mergeEntries_reaching (commitIndex : Nat) (hmatch : LogsMatch log leaderLog)
    (hlog : Contiguous 0 log) (hleader : Contiguous 0 leaderLog)
    (hindex : index ≤ agreed log leaderLog) (hreach : agreed log leaderLog < index + 5)
    (hstale : agreed log leaderLog < log.length)
    (hbeyond : agreed log leaderLog < leaderLog.length) :
    mergeEntries commitIndex log [] (batchAfter leaderLog index) =
      if agreed log leaderLog < commitIndex then (log, none)
      else (leaderLog.take (index + 5),
        some (blockHashes (log.drop (agreed log leaderLog)))) := by
  rw [mergeEntries_eq commitIndex hlog (hleader.batchAfter index) (by omega),
    firstConflict_batchAfter_some hmatch hlog hleader hindex hreach hstale hbeyond]
  have hat : index + (agreed log leaderLog - index) = agreed log leaderLog := by omega
  have hend : agreed log leaderLog + (index + 5 - agreed log leaderLog) = index + 5 := by omega
  simp only [hat, List.nil_append, Nat.succ_le_iff]
  split
  · rfl
  · rw [drop_batchAfter hindex, take_agreed, ← List.take_add, hend]

/-- A follower reports no index beyond which the logs differ, and 0 if they differ at
    the start of the batch. -/
theorem matchingIndexFor_batchAfter {f : RaftConsensus} (hmatch : LogsMatch f.log leaderLog)
    (hlog : Contiguous 0 f.log) (hleader : Contiguous 0 leaderLog)
    (hle : index ≤ leaderLog.length) {prevTerm : Nat}
    (hterm : termOf leaderLog index = some prevTerm) :
    f.matchingIndexFor index prevTerm (batchAfter leaderLog index) ≤ agreed f.log leaderLog ∧
      (agreed f.log leaderLog < index →
        f.matchingIndexFor index prevTerm (batchAfter leaderLog index) = 0) := by
  -- An entry of the batch is known to the follower if its index is agreed on.
  have hknown : ∀ entry ∈ batchAfter leaderLog index,
      index < entry.index ∧
        (f.termAt entry.index = some entry.term ↔ entry.index ≤ agreed f.log leaderLog) := by
    intro entry hmem
    obtain ⟨k, hk, rfl⟩ := List.mem_iff_getElem.mp hmem
    have hget := List.getElem?_eq_getElem hk
    have hindex := hleader.batchAfter index k _ hget
    rw [length_batchAfter] at hk
    rw [getElem?_batchAfter (by omega)] at hget
    refine ⟨by omega, ?_⟩
    have hiff := hmatch.termOf_eq_iff hlog hleader
      (show (batchAfter leaderLog index)[k].index ≤ leaderLog.length by omega)
    have hsome : termOf leaderLog (batchAfter leaderLog index)[k].index =
        some (batchAfter leaderLog index)[k].term := by
      rw [hindex, hleader.termOf_succ, hget]
      rfl
    rw [hsome] at hiff
    exact hiff
  have hprevious := hmatch.termOf_eq_iff hlog hleader hle
  rw [hterm] at hprevious
  unfold RaftConsensus.matchingIndexFor
  simp only
  have hprev : f.termAt index = some prevTerm ↔ index ≤ agreed f.log leaderLog := hprevious
  constructor
  · cases hmax : (((batchAfter leaderLog index).filter fun entry =>
        f.termAt entry.index = some entry.term).map RaftLogEntry.index).max? with
    | none =>
        simp only [Option.getD_none]
        split
        · rename_i h
          exact hprev.mp h
        · exact Nat.zero_le _
    | some matched =>
        obtain ⟨entry, hmem, rfl⟩ := List.mem_map.mp (List.max?_mem hmax)
        obtain ⟨hmem, hterm⟩ := List.mem_filter.mp hmem
        exact (hknown entry hmem).2.mp (of_decide_eq_true hterm)
  · intro hlt
    have hnone : (batchAfter leaderLog index).filter
        (fun entry => f.termAt entry.index = some entry.term) = [] := by
      apply List.filter_eq_nil_iff.mpr
      intro entry hmem hterm
      have hagreed := (hknown entry hmem).2.mp (of_decide_eq_true hterm)
      have := (hknown entry hmem).1
      omega
    have hnot : ¬ f.termAt index = some prevTerm := by
      rw [hprev]
      omega
    rw [hnone, if_neg hnot]
    rfl

end Batch

-- ============================================================================
-- One request and its answer
-- ============================================================================

/-- The answer to a request among the effects that handling it asks for. -/
def answerTo (dst : PeerId) : Except String (List ConsensusEffect) → Option (Nat × Bool × Nat)
  | .error _ => none
  | .ok effects => effects.findSome? fun
    | .send target (.raftAppendEntriesResponse term success matchIndex) =>
      if target = dst then some (term, success, matchIndex) else none
    | _ => none

namespace RaftConsensus

/-- The index up to which the leader believes the follower's log to be its own. -/
def matchIndexOf (l : RaftConsensus) (follower : PeerId) : Nat :=
  (l.matchIndexes.lookup follower).getD 0

/-- The leader with another index for the follower. -/
def withMatch (l : RaftConsensus) (follower : PeerId) (index : Nat) : RaftConsensus :=
  { l with matchIndexes := l.matchIndexes.insert follower index }

@[simp] theorem matchIndexOf_withMatch (l : RaftConsensus) (follower : PeerId) (index : Nat) :
    (l.withMatch follower index).matchIndexOf follower = index := by
  rw [matchIndexOf, withMatch, AList.lookup_insert]
  rfl

/-- The leader sends the follower the request of `append_entries_effect_for`, the
    follower handles it, and the leader handles the answer. -/
def round (pf : Platform) (payload : RaftLogEntry → RaftReplicatedBlock) (now : Instant)
    (draw : Nat) (l f : RaftConsensus) : RaftConsensus × RaftConsensus :=
  match l.appendEntriesEffectFor f.peerId with
  | some (.sendRaftAppendEntries _ term prevLogIndex prevLogTerm entries leaderCommit) =>
    let (f', answer) := f.handleAppendEntries pf
      { term
        leaderId := l.peerId
        prevLogIndex
        prevLogTerm
        entries := entries.map payload
        leaderCommit
        «from» := l.peerId
        now } draw
    match answerTo l.peerId answer with
    | some (term, success, matchIndex) =>
      ((l.onAppendEntriesResponse pf term f.peerId success matchIndex).1, f')
    | none => (l, f')
  | _ => (l, f)

/-- The rounds up to a number, with what time it is and what is drawn in each. -/
def rounds (pf : Platform) (payload : RaftLogEntry → RaftReplicatedBlock) (now : Nat → Instant)
    (draw : Nat → Nat) (l f : RaftConsensus) : Nat → RaftConsensus × RaftConsensus
  | 0 => (l, f)
  | n + 1 =>
    let (l, f) := rounds pf payload now draw l f n
    round pf payload (now n) (draw n) l f

/-- The peers are leader and follower of one term, the follower hears the leader, the
    payloads of the leader's entries are valid and the saves of both succeed. -/
structure Linked (pf : Platform) (payload : RaftLogEntry → RaftReplicatedBlock) (now : Instant)
    (l f : RaftConsensus) : Prop where
  leader : l.role = .leader
  member : f.peerId ∈ l.participants
  term : f.currentTerm = l.currentTerm
  heard : ∀ draw, (f.receiveAppendEntriesAt l.currentTerm l.peerId l.peerId now draw).2 = true
  payloads : ∀ entries, (∀ entry ∈ entries, entry ∈ l.log) →
    ∃ blocks, validateReplicatedEntries pf (entries.map payload) = .ok (entries, blocks)
  leaderLog : Contiguous 0 l.log
  matched : l.matchIndexOf f.peerId ≤ l.log.length
  leaderSaves : l.raftLogStore.SavesSucceed
  followerSaves : f.raftLogStore.SavesSucceed

/-- What a round does not touch. -/
structure Kept (l f l' f' : RaftConsensus) : Prop where
  log : l'.log = l.log
  role : l'.role = l.role
  leader : l'.peerId = l.peerId
  currentTerm : l'.currentTerm = l.currentTerm
  participants : l'.participants = l.participants
  follower : f'.peerId = f.peerId
  others : ∀ peerId, peerId ≠ f.peerId →
    l'.matchIndexes.lookup peerId = l.matchIndexes.lookup peerId

/-- The follower once it has heard the leader of its term. -/
structure Heard (leaderId : PeerId) (f r : RaftConsensus) : Prop where
  leaderId : r.leaderId = some leaderId
  peerId : r.peerId = f.peerId
  participants : r.participants = f.participants
  currentTerm : r.currentTerm = f.currentTerm
  log : r.log = f.log
  commitIndex : r.commitIndex = f.commitIndex
  raftLogStore : r.raftLogStore = f.raftLogStore

/-- A leader of the follower's term that is heard is followed from then on. -/
theorem receiveAppendEntriesAt_heard {r : RaftConsensus} {leaderId : PeerId} {now : Instant}
    {draw : Nat}
    (h : (r.receiveAppendEntriesAt r.currentTerm leaderId leaderId now draw).2 = true) :
    leaderId ∈ r.participants ∧
      Heard leaderId r (r.receiveAppendEntriesAt r.currentTerm leaderId leaderId now draw).1 := by
  have hstep : r.stepDownOnNewerTerm r.currentTerm = r := by
    rw [stepDownOnNewerTerm, if_neg (Nat.lt_irrefl _)]
  unfold receiveAppendEntriesAt at h ⊢
  simp only [hstep, Nat.lt_irrefl, if_false] at h ⊢
  split at h
  · cases h
  · rename_i hmember
    rw [if_neg hmember]
    rw [not_or, not_not, not_not] at hmember
    refine ⟨hmember.2, ?_⟩
    split at h
    · cases h
    · rename_i hother
      rw [if_neg hother]
      unfold followLeader
      simp only
      split <;> exact ⟨rfl, rfl, rfl, rfl, rfl, rfl, rfl⟩

theorem receiveAppendEntriesAt_again {r : RaftConsensus} {leaderId : PeerId}
    (hmember : leaderId ∈ r.participants) (hleader : r.leaderId = some leaderId) (now : Instant)
    (draw : Nat) :
    (r.receiveAppendEntriesAt r.currentTerm leaderId leaderId now draw).2 = true := by
  have hstep : r.stepDownOnNewerTerm r.currentTerm = r := by
    rw [stepDownOnNewerTerm, if_neg (Nat.lt_irrefl _)]
  simp [receiveAppendEntriesAt, hstep, hmember, hleader]

/-- The leader's side of a refusal. -/
theorem onAppendEntriesResponse_failure (pf : Platform) {l : RaftConsensus} {src : PeerId}
    (hleader : l.role = .leader) (hmember : src ∈ l.participants) (matchIndex : Nat) :
    (l.onAppendEntriesResponse pf l.currentTerm src false matchIndex).1 =
      l.withMatch src (min matchIndex l.lastLogIndex) := by
  rw [onAppendEntriesResponse, if_pos hleader, handleLeaderAppendEntriesResponse,
    if_neg (Nat.lt_irrefl _), if_neg (by simp [hmember])]
  simp only [Bool.false_eq_true, if_false]
  split <;> rfl

/-- The leader's side of an acknowledgement. -/
theorem onAppendEntriesResponse_success (pf : Platform) {l : RaftConsensus} {src : PeerId}
    (hleader : l.role = .leader) (hmember : src ∈ l.participants)
    (hsaves : l.raftLogStore.SavesSucceed) (matchIndex : Nat) :
    let counted := l.withMatch src (max (l.matchIndexOf src) matchIndex)
    ∃ raftLogStore : AnyRaftLogStore, raftLogStore.SavesSucceed ∧
      (l.onAppendEntriesResponse pf l.currentTerm src true matchIndex).1 =
        { counted with commitIndex := counted.advanceCommitIndex.1.commitIndex, raftLogStore } := by
  intro counted
  have hhandled : l.onAppendEntriesResponse pf l.currentTerm src true matchIndex =
      if counted.advanceCommitIndex.1.commitIndex ≠ l.commitIndex then
        counted.advanceCommitIndex.1.persistThen pf counted.advanceCommitIndex.2
      else (counted.advanceCommitIndex.1, .ok counted.advanceCommitIndex.2) := by
    rw [onAppendEntriesResponse, if_pos hleader, handleLeaderAppendEntriesResponse,
      if_neg (Nat.lt_irrefl _), if_neg (by simp [hmember]), if_pos rfl]
    rfl
  have hfst := counted.advanceCommitIndex_fst
  rcases hadvance : counted.advanceCommitIndex with ⟨advanced, effects⟩
  rw [hadvance] at hhandled hfst
  dsimp only at hhandled hfst
  subst hfst
  rw [hhandled]
  split
  · rw [persistThen_fst]
    exact ⟨_, (AnyRaftLogStore.save_of_savesSucceed pf hsaves _ _).2, rfl⟩
  · exact ⟨l.raftLogStore, hsaves, rfl⟩

/-- The follower's side of a refusal. -/
theorem acceptEntries_refused (pf : Platform) {r : RaftConsensus}
    (request : AppendEntriesRequest) {entries : List RaftLogEntry}
    (blocks : HashMap BlockHash BlockFile)
    (h : r.termAt request.prevLogIndex ≠ some request.prevLogTerm ∨
      mergeEntries r.commitIndex r.log [] entries = (r.log, none)) :
    r.acceptEntries pf request entries blocks =
      (r, .ok [r.appendEntriesResponse request.from false
        (r.matchingIndexFor request.prevLogIndex request.prevLogTerm entries)]) := by
  have hrefused : r.appendEntries request.prevLogIndex request.prevLogTerm entries
      request.leaderCommit = (r, none) := by
    unfold appendEntries
    split
    · rfl
    split
    · rfl
    rename_i hprev _
    rw [h.resolve_left hprev]
  rw [acceptEntries, hrefused]

/-- Nothing in the batch of an accepted request is an answer to it. -/
theorem answerTo_effects (a : Accepted) (dst : PeerId) (term : Nat) (success : Bool)
    (matchIndex : Nat) :
    answerTo dst (.ok (a.effects ++
        [.send dst (.raftAppendEntriesResponse term success matchIndex)])) =
      some (term, success, matchIndex) := by
  have hnone : answerTo dst (.ok a.effects) = none := by
    apply List.findSome?_eq_none_iff.mpr
    intro effect hmem
    rw [Accepted.effects, List.mem_append, List.mem_append, List.mem_map, List.mem_map] at hmem
    rcases hmem with (⟨blockHash, -, rfl⟩ | hstage) | ⟨blockHash, -, rfl⟩
    · rfl
    · split at hstage
      · cases hstage
      · rw [List.mem_singleton.mp hstage]
    · rfl
  rw [answerTo] at hnone ⊢
  rw [List.findSome?_append, hnone, Option.none_or, List.findSome?_singleton]
  exact if_pos rfl

/-- The follower's side of an acknowledgement. -/
theorem acceptEntries_accepted (pf : Platform) {r : RaftConsensus}
    (request : AppendEntriesRequest) {entries log : List RaftLogEntry}
    {discarded : List BlockHash} (blocks : HashMap BlockHash BlockFile)
    (hprev : r.termAt request.prevLogIndex = some request.prevLogTerm)
    (hentries : Contiguous request.prevLogIndex entries)
    (hmerge : mergeEntries r.commitIndex r.log [] entries = (log, some discarded))
    (hsaves : r.raftLogStore.SavesSucceed) :
    ∃ (raftLogStore : AnyRaftLogStore) (pendingBlocks : HashMap BlockHash BlockFile),
      raftLogStore.SavesSucceed ∧
      (r.acceptEntries pf request entries blocks).1 =
        { r with
          log
          commitIndex := max r.commitIndex (min request.leaderCommit (lastIndexOf log))
          raftLogStore
          pendingBlocks } ∧
      answerTo request.from (r.acceptEntries pf request entries blocks).2 =
        some (r.currentTerm, true, request.prevLogIndex + entries.length) := by
  have hmerged := appendEntries_merged (not_not.mpr hprev)
    (by simpa using entriesAreContiguousAfter_iff.mpr hentries) hmerge blocks
  have hlast := hentries.getLast_index
  rw [acceptEntries, hmerged]
  simp only [hlast]
  generalize ha : r.acceptedAs request entries blocks log discarded = a
  have hcommit : a.commitIndex =
      max r.commitIndex (min request.leaderCommit (lastIndexOf log)) := by
    rw [← ha]
    rfl
  rw [← hcommit]
  split
  · have hsaved := AnyRaftLogStore.save_of_savesSucceed pf hsaves log a.commitIndex
    rw [persistThen_fst, persistThen_snd, hsaved.1]
    exact ⟨_, _, hsaved.2, rfl, answerTo_effects a _ _ _ _⟩
  · exact ⟨r.raftLogStore, _, hsaves, rfl, answerTo_effects a _ _ _ _⟩

/-- The request that `append_entries_effect_for` builds. -/
theorem appendEntriesEffectFor_eq {l : RaftConsensus} {follower : PeerId}
    (hlog : Contiguous 0 l.log) (hmatched : l.matchIndexOf follower ≤ l.log.length)
    {prevLogTerm : Nat} (hterm : termOf l.log (l.matchIndexOf follower) = some prevLogTerm) :
    l.appendEntriesEffectFor follower =
      some (.sendRaftAppendEntries follower l.currentTerm (l.matchIndexOf follower) prevLogTerm
        (batchAfter l.log (l.matchIndexOf follower)) l.commitIndex) := by
  have hprev : min (l.matchIndexOf follower) l.lastLogIndex = l.matchIndexOf follower := by
    rw [lastLogIndex, hlog.lastIndexOf]
    exact Nat.min_eq_left hmatched
  unfold matchIndexOf at hprev hterm ⊢
  simp only [appendEntriesEffectFor, hprev, termAt, hterm, hlog.filter_gt]
  rfl

section Round

variable {pf : Platform} {payload : RaftLogEntry → RaftReplicatedBlock} {now : Instant}
  {l f : RaftConsensus}

/-- A follower that followed the leader's request is linked to the leader still. -/
theorem Linked.next (h : Linked pf payload now l f) {l' f' : RaftConsensus}
    (hkept : Kept l f l' f') (hterm : f'.currentTerm = f.currentTerm)
    (hparticipants : f'.participants = f.participants) (hleader : f'.leaderId = some l.peerId)
    (hmatched : l'.matchIndexOf f.peerId ≤ l.log.length)
    (hleaderSaves : l'.raftLogStore.SavesSucceed)
    (hfollowerSaves : f'.raftLogStore.SavesSucceed) (now' : Instant) :
    Linked pf payload now' l' f' where
  leader := hkept.role.trans h.leader
  member := by
    rw [hkept.participants, hkept.follower]
    exact h.member
  term := by
    rw [hterm, hkept.currentTerm]
    exact h.term
  heard := by
    have hheard := h.heard 0
    rw [← h.term] at hheard
    have hmember := (receiveAppendEntriesAt_heard hheard).1
    intro draw
    rw [hkept.currentTerm, hkept.leader, ← h.term, ← hterm]
    exact receiveAppendEntriesAt_again (hparticipants ▸ hmember) hleader now' draw
  payloads := by
    rw [hkept.log]
    exact h.payloads
  leaderLog := by
    rw [hkept.log]
    exact h.leaderLog
  matched := by
    rw [hkept.log, hkept.follower]
    exact hmatched
  leaderSaves := hleaderSaves
  followerSaves := hfollowerSaves

/-- The request of the next round, as the follower receives it. -/
def nextRequest (payload : RaftLogEntry → RaftReplicatedBlock) (now : Instant)
    (l f : RaftConsensus) (prevLogTerm : Nat) : AppendEntriesRequest where
  term := l.currentTerm
  leaderId := l.peerId
  prevLogIndex := l.matchIndexOf f.peerId
  prevLogTerm
  entries := (batchAfter l.log (l.matchIndexOf f.peerId)).map payload
  leaderCommit := l.commitIndex
  «from» := l.peerId
  now

/-- A round of linked peers: the follower hears the leader and looks at the batch, and
    the leader handles its answer. -/
theorem Linked.round_eq (h : Linked pf payload now l f) (draw : Nat) :
    ∃ prevLogTerm blocks r, termOf l.log (l.matchIndexOf f.peerId) = some prevLogTerm ∧
      Heard l.peerId f r ∧
      ∀ {f' answer term success matchIndex},
        r.acceptEntries pf (nextRequest payload now l f prevLogTerm)
          (batchAfter l.log (l.matchIndexOf f.peerId)) blocks = (f', answer) →
        answerTo l.peerId answer = some (term, success, matchIndex) →
        round pf payload now draw l f =
          ((l.onAppendEntriesResponse pf term f.peerId success matchIndex).1, f') := by
  obtain ⟨prevLogTerm, hterm⟩ := h.leaderLog.exists_termOf h.matched
  obtain ⟨blocks, hvalid⟩ := h.payloads (batchAfter l.log (l.matchIndexOf f.peerId)) (by
    intro entry hmem
    exact List.mem_of_mem_drop (List.mem_of_mem_take hmem))
  have hheard := h.heard draw
  rw [← h.term] at hheard
  have hfollows := (receiveAppendEntriesAt_heard hheard).2
  rcases hreceive : f.receiveAppendEntriesAt f.currentTerm l.peerId l.peerId now draw with
    ⟨r, heard⟩
  rw [hreceive] at hheard hfollows
  cases hheard
  refine ⟨prevLogTerm, blocks, r, hterm, hfollows, ?_⟩
  intro f' answer term success matchIndex haccepted hanswer
  have hhandled : f.handleAppendEntries pf (nextRequest payload now l f prevLogTerm) draw =
      (f', answer) := by
    rw [h.term] at hreceive
    rw [← haccepted]
    simp only [handleAppendEntries, nextRequest, hreceive, hvalid]
  unfold nextRequest at hhandled
  simp only [round, appendEntriesEffectFor_eq h.leaderLog h.matched hterm, hhandled, hanswer]

/-- A round in which the follower refuses the batch: the leader takes over the index
    that the follower reports. -/
theorem Linked.round_refused (h : Linked pf payload now l f)
    (hrefused : termOf f.log (l.matchIndexOf f.peerId) ≠ termOf l.log (l.matchIndexOf f.peerId) ∨
      mergeEntries f.commitIndex f.log [] (batchAfter l.log (l.matchIndexOf f.peerId)) =
        (f.log, none)) (draw : Nat) :
    ∃ l' f' prevLogTerm, round pf payload now draw l f = (l', f') ∧ Kept l f l' f' ∧
      (∀ now', Linked pf payload now' l' f') ∧
      f'.log = f.log ∧ f'.commitIndex = f.commitIndex ∧ l'.commitIndex = l.commitIndex ∧
      termOf l.log (l.matchIndexOf f.peerId) = some prevLogTerm ∧
      l'.matchIndexOf f.peerId = min (f.matchingIndexFor (l.matchIndexOf f.peerId) prevLogTerm
        (batchAfter l.log (l.matchIndexOf f.peerId))) l.log.length := by
  obtain ⟨prevLogTerm, blocks, r, hterm, hheard, hround⟩ := h.round_eq draw
  have hmatching : r.matchingIndexFor = f.matchingIndexFor := by
    unfold matchingIndexFor termAt
    rw [hheard.log]
  have hrefused' : r.termAt (l.matchIndexOf f.peerId) ≠ some prevLogTerm ∨
      mergeEntries r.commitIndex r.log [] (batchAfter l.log (l.matchIndexOf f.peerId)) =
        (r.log, none) := by
    rw [termAt, hheard.log, hheard.commitIndex, ← hterm]
    exact hrefused
  generalize hreported : f.matchingIndexFor (l.matchIndexOf f.peerId) prevLogTerm
    (batchAfter l.log (l.matchIndexOf f.peerId)) = reported
  have hanswer : answerTo l.peerId (.ok [r.appendEntriesResponse l.peerId false
      (r.matchingIndexFor (l.matchIndexOf f.peerId) prevLogTerm
        (batchAfter l.log (l.matchIndexOf f.peerId)))]) =
      some (l.currentTerm, false, reported) := by
    rw [appendEntriesResponse, hmatching, hreported, hheard.currentTerm, h.term, answerTo,
      List.findSome?_singleton]
    exact if_pos rfl
  have hpair : round pf payload now draw l f =
      (l.withMatch f.peerId (min reported l.log.length), r) := by
    have hlast : l.lastLogIndex = l.log.length := h.leaderLog.lastIndexOf
    rw [hround (acceptEntries_refused pf _ blocks hrefused') hanswer, ← hlast,
      ← onAppendEntriesResponse_failure pf h.leader h.member]
  have hkept : Kept l f (l.withMatch f.peerId (min reported l.log.length)) r :=
    ⟨rfl, rfl, rfl, rfl, rfl, hheard.peerId, fun _ hne => AList.lookup_insert_ne hne⟩
  refine ⟨_, _, prevLogTerm, hpair, hkept, ?_, hheard.log, hheard.commitIndex, rfl, hterm,
    by rw [matchIndexOf_withMatch, hreported]⟩
  apply h.next hkept hheard.currentTerm hheard.participants hheard.leaderId
  · rw [matchIndexOf_withMatch]
    exact Nat.min_le_right _ _
  · exact h.leaderSaves
  · exact hheard.raftLogStore ▸ h.followerSaves

/-- A round in which the follower accepts the batch: it merges the entries and raises
    its commit index to the leader's, and the leader counts the batch. -/
theorem Linked.round_accepted (h : Linked pf payload now l f)
    (hprev : termOf f.log (l.matchIndexOf f.peerId) = termOf l.log (l.matchIndexOf f.peerId))
    {log : List RaftLogEntry} {discarded : List BlockHash}
    (hmerge : mergeEntries f.commitIndex f.log []
      (batchAfter l.log (l.matchIndexOf f.peerId)) = (log, some discarded)) (draw : Nat) :
    ∃ l' f', round pf payload now draw l f = (l', f') ∧ Kept l f l' f' ∧
      (∀ now', Linked pf payload now' l' f') ∧
      f'.log = log ∧
      f'.commitIndex = max f.commitIndex (min l.commitIndex (lastIndexOf log)) ∧
      l'.matchIndexOf f.peerId = min (l.matchIndexOf f.peerId + 5) l.log.length ∧
      l'.commitIndex = (l.withMatch f.peerId
        (min (l.matchIndexOf f.peerId + 5) l.log.length)).advanceCommitIndex.1.commitIndex := by
  obtain ⟨prevLogTerm, blocks, r, hterm, hheard, hround⟩ := h.round_eq draw
  obtain ⟨followerStore, pendingBlocks, hfollowerSaves, hfollower, hanswer⟩ :=
    acceptEntries_accepted pf (nextRequest payload now l f prevLogTerm) blocks
      (show r.termAt (l.matchIndexOf f.peerId) = some prevLogTerm by
        rw [termAt, hheard.log, hprev, hterm])
      (h.leaderLog.batchAfter (l.matchIndexOf f.peerId))
      (show mergeEntries r.commitIndex r.log [] (batchAfter l.log (l.matchIndexOf f.peerId)) =
          (log, some discarded) by
        rw [hheard.log, hheard.commitIndex, hmerge])
      (hheard.raftLogStore ▸ h.followerSaves)
  have hend : max (l.matchIndexOf f.peerId) (l.matchIndexOf f.peerId +
      (batchAfter l.log (l.matchIndexOf f.peerId)).length) =
        min (l.matchIndexOf f.peerId + 5) l.log.length := by
    have hmatched := h.matched
    rw [length_batchAfter]
    omega
  obtain ⟨leaderStore, hleaderSaves, hleader⟩ := onAppendEntriesResponse_success pf h.leader
    h.member h.leaderSaves (l.matchIndexOf f.peerId +
      (batchAfter l.log (l.matchIndexOf f.peerId)).length)
  rw [hend] at hleader
  rcases haccepted : r.acceptEntries pf (nextRequest payload now l f prevLogTerm)
    (batchAfter l.log (l.matchIndexOf f.peerId)) blocks with ⟨f', answer⟩
  rw [haccepted] at hfollower hanswer
  have hanswer : answerTo l.peerId answer = some (l.currentTerm, true, l.matchIndexOf f.peerId +
      (batchAfter l.log (l.matchIndexOf f.peerId)).length) := by
    rw [← h.term, ← hheard.currentTerm]
    exact hanswer
  have hpair := hround haccepted hanswer
  rw [hleader] at hpair
  generalize hcounted : l.withMatch f.peerId (min (l.matchIndexOf f.peerId + 5) l.log.length) =
    counted at hpair
  have hfollower : f' = { r with
      log
      commitIndex := max f.commitIndex (min l.commitIndex (lastIndexOf log))
      raftLogStore := followerStore
      pendingBlocks } := by
    rw [← hheard.commitIndex]
    exact hfollower
  have hmatched : counted.matchIndexOf f.peerId =
      min (l.matchIndexOf f.peerId + 5) l.log.length := by
    rw [← hcounted, matchIndexOf_withMatch]
  have hkept : Kept l f { counted with
      commitIndex := counted.advanceCommitIndex.1.commitIndex
      raftLogStore := leaderStore } f' := by
    subst hcounted hfollower
    exact ⟨rfl, rfl, rfl, rfl, rfl, hheard.peerId, fun _ hne => AList.lookup_insert_ne hne⟩
  refine ⟨_, _, hpair, hkept, ?_, by rw [hfollower], by rw [hfollower], hmatched, rfl⟩
  subst hfollower
  exact h.next hkept hheard.currentTerm hheard.participants hheard.leaderId
    (hmatched.trans_le (Nat.min_le_right _ _)) hleaderSaves hfollowerSaves

-- ============================================================================
-- The leader's commit index
-- ============================================================================

/-- How many participants other than the follower hold the log up to the index, by the
    leader's account. -/
def heldWithout (l : RaftConsensus) (follower : PeerId) (index : Nat) : Nat :=
  l.participants.countP fun peerId =>
    peerId ≠ follower && (l.matchIndexes.lookup peerId).any (· ≥ index)

/-- An entry of the leader's term beyond the index is held by a majority without the
    follower. -/
def HeldBeyond (l : RaftConsensus) (follower : PeerId) (index : Nat) : Prop :=
  ∃ entry ∈ l.log, entry.term = l.currentTerm ∧ index < entry.index ∧
    l.majority ≤ l.heldWithout follower entry.index

theorem Kept.heldBeyond_iff {l' f' : RaftConsensus} (h : Kept l f l' f') (index : Nat) :
    l'.HeldBeyond f.peerId index ↔ l.HeldBeyond f.peerId index := by
  have hheld : ∀ i, l'.heldWithout f.peerId i = l.heldWithout f.peerId i := by
    intro i
    unfold heldWithout
    rw [h.participants]
    apply List.countP_congr
    intro peerId _
    by_cases hpeer : peerId = f.peerId
    · simp [hpeer]
    · rw [h.others peerId hpeer]
  simp only [HeldBeyond, h.log, h.currentTerm, hheld, majority, h.participants]

/-- Beyond the follower's index the count is that of the others. -/
theorem replicatedCount_withMatch (l : RaftConsensus) (follower : PeerId) {index i : Nat}
    (h : index < i) :
    (l.withMatch follower index).replicatedCount i = l.heldWithout follower i := by
  unfold replicatedCount heldWithout
  apply List.countP_congr
  intro peerId _
  by_cases hpeer : peerId = follower
  · subst hpeer
    simp only [withMatch, AList.lookup_insert, Option.any_some]
    simp
    omega
  · simp [withMatch, AList.lookup_insert_ne hpeer, hpeer]

/-- As long as no majority without the follower holds a later entry, the leader commits
    nothing beyond what the follower may hold. -/
theorem advanceCommitIndex_le {index bound : Nat} (hindex : index ≤ bound)
    (hcommit : l.commitIndex ≤ bound) {follower : PeerId} (hheld : ¬ l.HeldBeyond follower bound) :
    (l.withMatch follower index).advanceCommitIndex.1.commitIndex ≤ bound := by
  rw [advanceCommitIndex_fst]
  cases hcandidate : (l.withMatch follower index).commitCandidate with
  | none => exact hcommit
  | some entry =>
      obtain ⟨hmem, -, hterm, hmajority⟩ := commitCandidate_spec hcandidate
      show entry.index ≤ bound
      by_contra hbeyond
      apply hheld
      rw [replicatedCount_withMatch l follower (by omega)] at hmajority
      exact ⟨entry, hmem, hterm, by omega, hmajority⟩

/-- When a majority without the follower holds a later entry, the next acknowledgement
    makes the leader commit it. -/
theorem lt_advanceCommitIndex (hlog : Contiguous 0 l.log) {index bound : Nat}
    (hindex : index ≤ bound) {follower : PeerId} (hheld : l.HeldBeyond follower bound) :
    bound < (l.withMatch follower index).advanceCommitIndex.1.commitIndex := by
  obtain ⟨entry, hmem, hterm, hbeyond, hmajority⟩ := hheld
  rw [← replicatedCount_withMatch l follower (show index < entry.index by omega)] at hmajority
  have hle := (l.withMatch follower index).le_advanceCommitIndex
  rcases Nat.lt_or_ge bound l.commitIndex with hcommit | hcommit
  · exact Nat.lt_of_lt_of_le hcommit hle
  rw [advanceCommitIndex_fst]
  have hqualifies : ((l.withMatch follower index).commitIndex < entry.index &&
      entry.term == (l.withMatch follower index).currentTerm &&
      (l.withMatch follower index).replicatedCount entry.index ≥
        (l.withMatch follower index).majority) = true := by
    have hlt : l.commitIndex < entry.index := by omega
    simp only [Bool.and_eq_true, decide_eq_true_eq, beq_iff_eq]
    exact ⟨⟨hlt, hterm⟩, hmajority⟩
  cases hcandidate : (l.withMatch follower index).commitCandidate with
  | none =>
      have hnone := List.find?_eq_none.mp hcandidate entry (List.mem_reverse.mpr hmem)
      exact absurd hqualifies hnone
  | some last =>
      -- The search starts at the end of the log: no qualifying entry has a higher index.
      obtain ⟨-, later, earlier, hsplit, hnot⟩ := List.find?_eq_some_iff_append.mp hcandidate
      have hreverse : l.log.reverse = later ++ last :: earlier := hsplit
      have hsorted : l.log = earlier.reverse ++ last :: later.reverse := by
        rw [← List.reverse_reverse l.log, hreverse]
        simp
      have hlast : last.index = earlier.length + 1 := by
        have hget := hlog earlier.length last (by rw [hsorted]; simp)
        omega
      show bound < last.index
      rw [hsorted, List.mem_append, List.mem_cons, List.mem_reverse, List.mem_reverse] at hmem
      rcases hmem with hearlier | rfl | hlater
      · obtain ⟨k, hk, hentry⟩ := List.mem_iff_getElem.mp (List.mem_reverse.mpr hearlier)
        have hget := hlog k entry (by
          rw [hsorted, List.getElem?_append_left hk, ← hentry]
          exact List.getElem?_eq_getElem hk)
        rw [List.length_reverse] at hk
        omega
      · exact hbeyond
      · have hno := hnot entry hlater
        rw [hqualifies] at hno
        cases hno

-- ============================================================================
-- One round
-- ============================================================================

/-- The follower has entries after the agreed part, and so has the leader. -/
structure Stale (l f : RaftConsensus) : Prop where
  log : Contiguous 0 f.log
  matching : LogsMatch f.log l.log
  stale : agreed f.log l.log < f.log.length
  beyond : agreed f.log l.log < l.log.length

/-- What a round leaves that changes nothing in the follower's log. -/
theorem Stale.of_kept {l' f' : RaftConsensus} (h : Stale l f) (hkept : Kept l f l' f')
    (hlog : f'.log = f.log) : Stale l' f' := by
  refine ⟨?_, ?_, ?_, ?_⟩
  · rw [hlog]
    exact h.log
  · rw [hlog, hkept.log]
    exact h.matching
  · rw [hlog, hkept.log]
    exact h.stale
  · rw [hlog, hkept.log]
    exact h.beyond

/-- The leader's index is too high: it falls to 0. -/
theorem Linked.round_mismatch (h : Linked pf payload now l f) (hlog : Contiguous 0 f.log)
    (hmatch : LogsMatch f.log l.log) (hhigh : agreed f.log l.log < l.matchIndexOf f.peerId)
    (draw : Nat) :
    ∃ l' f', round pf payload now draw l f = (l', f') ∧ Kept l f l' f' ∧
      (∀ now', Linked pf payload now' l' f') ∧ f'.log = f.log ∧
      f'.commitIndex = f.commitIndex ∧ l'.commitIndex = l.commitIndex ∧
      l'.matchIndexOf f.peerId = 0 := by
  have hdiffer : termOf f.log (l.matchIndexOf f.peerId) ≠
      termOf l.log (l.matchIndexOf f.peerId) := by
    rw [Ne, hmatch.termOf_eq_iff hlog h.leaderLog h.matched]
    omega
  obtain ⟨l', f', prevLogTerm, hround, hkept, hlinked, hsame, hcommit, hleader, hterm, hindex⟩ :=
    h.round_refused (Or.inl hdiffer) draw
  refine ⟨l', f', hround, hkept, hlinked, hsame, hcommit, hleader, ?_⟩
  rw [hindex, (matchingIndexFor_batchAfter hmatch hlog h.leaderLog h.matched hterm).2 hhigh]
  exact Nat.zero_min _

/-- A batch that ends before the first stale entry: the follower's commit index follows
    the leader's into the stale part. -/
theorem Linked.round_short (h : Linked pf payload now l f) (hstale : Stale l f)
    (hshort : l.matchIndexOf f.peerId + 5 ≤ agreed f.log l.log) (draw : Nat) :
    ∃ l' f', round pf payload now draw l f = (l', f') ∧ Kept l f l' f' ∧
      (∀ now', Linked pf payload now' l' f') ∧ f'.log = f.log ∧
      f'.commitIndex = max f.commitIndex (min l.commitIndex f.log.length) ∧
      l'.matchIndexOf f.peerId = l.matchIndexOf f.peerId + 5 ∧
      l'.commitIndex = (l.withMatch f.peerId
        (l.matchIndexOf f.peerId + 5)).advanceCommitIndex.1.commitIndex := by
  have hbeyond := hstale.beyond
  have hagree := (hstale.matching.termOf_eq_iff hstale.log h.leaderLog h.matched).mpr (by omega)
  have hmerge := mergeEntries_short f.commitIndex hstale.log h.leaderLog hshort
  obtain ⟨l', f', hround, hkept, hlinked, hsame, hcommit, hindex, hleader⟩ :=
    h.round_accepted hagree hmerge draw
  have hend : min (l.matchIndexOf f.peerId + 5) l.log.length = l.matchIndexOf f.peerId + 5 := by
    omega
  rw [hend] at hindex hleader
  rw [hstale.log.lastIndexOf] at hcommit
  exact ⟨l', f', hround, hkept, hlinked, hsame, hcommit, hindex, hleader⟩

/-- A stale entry that counts as committed: whatever batch comes, the log stays. -/
theorem Linked.round_stuck (h : Linked pf payload now l f) (hstale : Stale l f)
    (hindex : l.matchIndexOf f.peerId ≤ agreed f.log l.log)
    (hcommit : agreed f.log l.log < f.commitIndex) (draw : Nat) :
    ∃ l' f', round pf payload now draw l f = (l', f') ∧ Kept l f l' f' ∧
      (∀ now', Linked pf payload now' l' f') ∧ f'.log = f.log ∧
      agreed f.log l.log < f'.commitIndex ∧
      l'.matchIndexOf f.peerId ≤ agreed f.log l.log := by
  rcases Nat.lt_or_ge (agreed f.log l.log) (l.matchIndexOf f.peerId + 5) with hreach | hshort
  · have hmerge := mergeEntries_reaching f.commitIndex hstale.matching hstale.log h.leaderLog
      hindex hreach hstale.stale hstale.beyond
    rw [if_pos hcommit] at hmerge
    obtain ⟨l', f', prevLogTerm, hround, hkept, hlinked, hsame, hfcommit, -, hterm, hreported⟩ :=
      h.round_refused (Or.inr hmerge) draw
    have hle := (matchingIndexFor_batchAfter hstale.matching hstale.log h.leaderLog h.matched
      hterm).1
    refine ⟨l', f', hround, hkept, hlinked, hsame, by omega, ?_⟩
    rw [hreported]
    omega
  · obtain ⟨l', f', hround, hkept, hlinked, hsame, hfcommit, hnext, -⟩ :=
      h.round_short hstale hshort draw
    exact ⟨l', f', hround, hkept, hlinked, hsame, by omega, by omega⟩

/-- A batch that reaches the first stale entry, which does not count as committed. -/
theorem Linked.round_reaching (h : Linked pf payload now l f) (hstale : Stale l f)
    (hindex : l.matchIndexOf f.peerId ≤ agreed f.log l.log)
    (hreach : agreed f.log l.log < l.matchIndexOf f.peerId + 5)
    (hcommit : f.commitIndex ≤ agreed f.log l.log) (draw : Nat) :
    ∃ l' f', round pf payload now draw l f = (l', f') ∧ Kept l f l' f' ∧
      (∀ now', Linked pf payload now' l' f') ∧
      f'.log = l.log.take (min (l.matchIndexOf f.peerId + 5) l.log.length) ∧
      l'.matchIndexOf f.peerId = min (l.matchIndexOf f.peerId + 5) l.log.length := by
  have hagree := (hstale.matching.termOf_eq_iff hstale.log h.leaderLog h.matched).mpr hindex
  have hmerge := mergeEntries_reaching f.commitIndex hstale.matching hstale.log h.leaderLog
    hindex hreach hstale.stale hstale.beyond
  rw [if_neg (by omega)] at hmerge
  obtain ⟨l', f', hround, hkept, hlinked, hlog, -, hnext, -⟩ :=
    h.round_accepted hagree hmerge draw
  refine ⟨l', f', hround, hkept, hlinked, ?_, hnext⟩
  rw [hlog, ← List.take_eq_take_min]

/-- A follower whose log is a part of the leader's. -/
theorem Linked.round_initial (h : Linked pf payload now l f) {length : Nat}
    (hlog : f.log = l.log.take length) (hindex : l.matchIndexOf f.peerId ≤ length)
    (hlength : length ≤ l.log.length) (draw : Nat) :
    ∃ l' f', round pf payload now draw l f = (l', f') ∧ Kept l f l' f' ∧
      (∀ now', Linked pf payload now' l' f') ∧
      f'.log = l.log.take (min (max length (l.matchIndexOf f.peerId + 5)) l.log.length) ∧
      l'.matchIndexOf f.peerId = min (l.matchIndexOf f.peerId + 5) l.log.length := by
  have hagree : termOf f.log (l.matchIndexOf f.peerId) =
      termOf l.log (l.matchIndexOf f.peerId) := by
    rw [hlog]
    cases hm : l.matchIndexOf f.peerId with
    | zero => rfl
    | succ k =>
        have hinitial := h.leaderLog.initial (List.take_prefix length l.log)
        rw [hinitial.termOf_succ, h.leaderLog.termOf_succ, List.getElem?_take_of_lt (by omega)]
  have hmerge := mergeEntries_initial f.commitIndex h.leaderLog hindex hlength
  rw [← hlog] at hmerge
  obtain ⟨l', f', hround, hkept, hlinked, hnewLog, -, hnext, -⟩ :=
    h.round_accepted hagree hmerge draw
  refine ⟨l', f', hround, hkept, hlinked, ?_, hnext⟩
  rw [hnewLog, ← List.take_eq_take_min]

-- ============================================================================
-- On course and off course
-- ============================================================================

/-- Where the leader starts: at the index it has for the follower, or at 0 if the logs
    differ there. -/
def startIndex (l f : RaftConsensus) : Nat :=
  if l.matchIndexOf f.peerId ≤ agreed f.log l.log then l.matchIndexOf f.peerId else 0

/-- No batch that ends before the first stale entry carries a commit index beyond it:
    there is no stale entry; or the first batch reaches it; or the leader has committed
    nothing beyond it, and either the second batch reaches it or the leader cannot
    commit anything beyond it without this follower. -/
def CatchesUp (l f : RaftConsensus) : Prop :=
  f.log <+: l.log ∨ agreed f.log l.log < l.startIndex f + 5 ∨
    (l.commitIndex ≤ agreed f.log l.log ∧
      (agreed f.log l.log < l.startIndex f + 10 ∨
        ¬ l.HeldBeyond f.peerId (agreed f.log l.log)))

/-- The follower's log is a part of the leader's, as far as the leader believes at least;
    or the stale entries will be replaced. -/
def OnCourse (l f : RaftConsensus) : Prop :=
  (∃ length, l.matchIndexOf f.peerId ≤ length ∧ length ≤ l.log.length ∧
      f.log = l.log.take length) ∨
    (Stale l f ∧ l.matchIndexOf f.peerId ≤ agreed f.log l.log ∧
      f.commitIndex ≤ agreed f.log l.log ∧ CatchesUp l f)

/-- The first stale entry counts as committed, or will. -/
def OffCourse (l f : RaftConsensus) : Prop :=
  Stale l f ∧
    ((l.matchIndexOf f.peerId ≤ agreed f.log l.log ∧ agreed f.log l.log < f.commitIndex) ∨
      ¬ CatchesUp l f)

theorem Stale.not_initial (h : Stale l f) : ¬ f.log <+: l.log := by
  intro hinitial
  have hle : f.log.length ≤ agreed f.log l.log := by
    apply le_agreed _ (Nat.le_refl _) hinitial.length_le
    rw [List.take_length]
    exact List.prefix_iff_eq_take.mp hinitial
  have := h.stale
  omega

theorem OnCourse.of_take {l' f' : RaftConsensus} (hkept : Kept l f l' f') {length : Nat}
    (hlog : f'.log = l.log.take length) (hindex : l'.matchIndexOf f.peerId ≤ length)
    (hlength : length ≤ l.log.length) : OnCourse l' f' := by
  refine Or.inl ⟨length, ?_, ?_, ?_⟩
  · rw [hkept.follower]
    exact hindex
  · rw [hkept.log]
    exact hlength
  · rw [hkept.log]
    exact hlog

/-- A round on course brings the leader five entries further, or to the end. -/
theorem Linked.round_onCourse (h : Linked pf payload now l f) (hcourse : OnCourse l f)
    (draw : Nat) :
    ∃ l' f', round pf payload now draw l f = (l', f') ∧ Kept l f l' f' ∧
      (∀ now', Linked pf payload now' l' f') ∧ OnCourse l' f' ∧
      l'.matchIndexOf f.peerId = min (l.matchIndexOf f.peerId + 5) l.log.length := by
  rcases hcourse with ⟨length, hindex, hlength, hlog⟩ | ⟨hstale, hindex, hcommit, hcatches⟩
  · obtain ⟨l', f', hround, hkept, hlinked, hnewLog, hnext⟩ :=
      h.round_initial hlog hindex hlength draw
    exact ⟨l', f', hround, hkept, hlinked, .of_take hkept hnewLog (by omega) (by omega), hnext⟩
  rcases Nat.lt_or_ge (agreed f.log l.log) (l.matchIndexOf f.peerId + 5) with hreach | hshort
  · obtain ⟨l', f', hround, hkept, hlinked, hnewLog, hnext⟩ :=
      h.round_reaching hstale hindex hreach hcommit draw
    exact ⟨l', f', hround, hkept, hlinked, .of_take hkept hnewLog (by omega) (by omega), hnext⟩
  · -- The batch ends before the first stale entry and commits nothing of it.
    obtain ⟨l', f', hround, hkept, hlinked, hsame, hfcommit, hnext, hleader⟩ :=
      h.round_short hstale hshort draw
    have hstart : l.startIndex f = l.matchIndexOf f.peerId := if_pos hindex
    have hbeyond := hstale.beyond
    have hsafe : l.commitIndex ≤ agreed f.log l.log ∧
        (agreed f.log l.log < l.matchIndexOf f.peerId + 10 ∨
          ¬ l.HeldBeyond f.peerId (agreed f.log l.log)) := by
      rcases hcatches with hinitial | hreach | hsafe
      · exact absurd hinitial hstale.not_initial
      · omega
      · rwa [hstart] at hsafe
    have hnext' : l'.startIndex f' = l.matchIndexOf f.peerId + 5 := by
      unfold startIndex
      rw [hkept.follower, hsame, hkept.log, hnext, if_pos hshort]
    refine ⟨l', f', hround, hkept, hlinked, Or.inr ⟨hstale.of_kept hkept hsame, ?_, ?_, ?_⟩, ?_⟩
    · rw [hkept.follower, hsame, hkept.log, hnext]
      exact hshort
    · rw [hsame, hkept.log, hfcommit]
      omega
    · unfold CatchesUp
      rw [hnext', hkept.follower, hsame, hkept.log, hkept.heldBeyond_iff, hleader]
      rcases hsafe.2 with hsecond | hnone
      · exact Or.inr (Or.inl (by omega))
      · exact Or.inr (Or.inr ⟨advanceCommitIndex_le hshort hsafe.1 hnone, Or.inr hnone⟩)
    · rw [hnext]
      omega

/-- Off course the follower's log never changes again. -/
theorem Linked.round_offCourse (h : Linked pf payload now l f) (hcourse : OffCourse l f)
    (draw : Nat) :
    ∃ l' f', round pf payload now draw l f = (l', f') ∧ Kept l f l' f' ∧
      (∀ now', Linked pf payload now' l' f') ∧ OffCourse l' f' ∧ f'.log = f.log := by
  obtain ⟨hstale, hcourse⟩ := hcourse
  by_cases hhigh : agreed f.log l.log < l.matchIndexOf f.peerId
  · obtain ⟨l', f', hround, hkept, hlinked, hsame, hfcommit, hleader, hnext⟩ :=
      h.round_mismatch hstale.log hstale.matching hhigh draw
    have hfails : ¬ CatchesUp l f := hcourse.resolve_left (by omega)
    refine ⟨l', f', hround, hkept, hlinked, ⟨hstale.of_kept hkept hsame, Or.inr ?_⟩, hsame⟩
    have hstart : l.startIndex f = 0 := if_neg (by omega)
    have hstart' : l'.startIndex f' = 0 := by
      unfold startIndex
      rw [hkept.follower, hnext]
      split <;> rfl
    unfold CatchesUp at hfails ⊢
    rw [hstart', hkept.follower, hsame, hkept.log, hkept.heldBeyond_iff, hleader]
    rwa [hstart] at hfails
  have hindex : l.matchIndexOf f.peerId ≤ agreed f.log l.log := by omega
  have hstuck : ∀ l' f', Kept l f l' f' → f'.log = f.log →
      l'.matchIndexOf f.peerId ≤ agreed f.log l.log → agreed f.log l.log < f'.commitIndex →
      OffCourse l' f' := by
    intro l' f' hkept hsame hnext hfcommit
    refine ⟨hstale.of_kept hkept hsame, Or.inl ?_⟩
    rw [hkept.follower, hsame, hkept.log]
    exact ⟨hnext, hfcommit⟩
  by_cases hcommit : agreed f.log l.log < f.commitIndex
  · obtain ⟨l', f', hround, hkept, hlinked, hsame, hfcommit, hnext⟩ :=
      h.round_stuck hstale hindex hcommit draw
    exact ⟨l', f', hround, hkept, hlinked, hstuck l' f' hkept hsame hnext hfcommit, hsame⟩
  have hfails : ¬ CatchesUp l f := hcourse.resolve_left (by omega)
  have hstart : l.startIndex f = l.matchIndexOf f.peerId := if_pos hindex
  unfold CatchesUp at hfails
  rw [hstart, not_or, not_or] at hfails
  obtain ⟨-, hshort, hunsafe⟩ := hfails
  obtain ⟨l', f', hround, hkept, hlinked, hsame, hfcommit, hnext, hleader⟩ :=
    h.round_short hstale (by omega) draw
  refine ⟨l', f', hround, hkept, hlinked, ?_, hsame⟩
  have hlt := hstale.stale
  by_cases hcommitted : agreed f.log l.log < l.commitIndex
  · -- The batch makes the stale entries count as committed.
    exact hstuck l' f' hkept hsame (by omega) (by omega)
  · -- The leader commits beyond them now, and the next batch tells the follower.
    rw [not_and_or, not_or, not_not] at hunsafe
    obtain ⟨hthird, hheld⟩ := hunsafe.resolve_left (by omega)
    have hadvance := lt_advanceCommitIndex h.leaderLog
      (show l.matchIndexOf f.peerId + 5 ≤ agreed f.log l.log by omega) hheld
    have hstart' : l'.startIndex f' = l.matchIndexOf f.peerId + 5 := by
      unfold startIndex
      rw [hkept.follower, hsame, hkept.log, hnext, if_pos (by omega)]
    refine ⟨hstale.of_kept hkept hsame, Or.inr ?_⟩
    unfold CatchesUp
    rw [hstart', hkept.follower, hsame, hkept.log, hkept.heldBeyond_iff, hleader]
    rintro (hinitial | hreach | ⟨hle, -⟩)
    · exact hstale.not_initial hinitial
    · omega
    · omega

end Round

-- ============================================================================
-- Round after round
-- ============================================================================

theorem Kept.refl (l f : RaftConsensus) : Kept l f l f :=
  ⟨rfl, rfl, rfl, rfl, rfl, rfl, fun _ _ => rfl⟩

theorem Kept.trans {l f l' f' l'' f'' : RaftConsensus} (h : Kept l f l' f')
    (h' : Kept l' f' l'' f'') : Kept l f l'' f'' where
  log := h'.log.trans h.log
  role := h'.role.trans h.role
  leader := h'.leader.trans h.leader
  currentTerm := h'.currentTerm.trans h.currentTerm
  participants := h'.participants.trans h.participants
  follower := h'.follower.trans h.follower
  others peerId hne := by
    rw [h'.others peerId (h.follower ▸ hne), h.others peerId hne]

section Rounds

variable {pf : Platform} {payload : RaftLogEntry → RaftReplicatedBlock} {now : Nat → Instant}
  {draw : Nat → Nat} {l f : RaftConsensus}

/-- Each round on course brings the leader five entries further, or to the end. -/
theorem rounds_onCourse {base : Nat} {l₁ f₁ : RaftConsensus}
    (hbase : rounds pf payload now draw l f base = (l₁, f₁))
    (h : Linked pf payload (now base) l₁ f₁) (hcourse : OnCourse l₁ f₁) (n : Nat) :
    ∃ l' f', rounds pf payload now draw l f (base + n) = (l', f') ∧ Kept l₁ f₁ l' f' ∧
      Linked pf payload (now (base + n)) l' f' ∧ OnCourse l' f' ∧
      l'.matchIndexOf f₁.peerId = min (l₁.matchIndexOf f₁.peerId + 5 * n) l₁.log.length := by
  induction n with
  | zero =>
      refine ⟨l₁, f₁, hbase, Kept.refl _ _, h, hcourse, ?_⟩
      have := h.matched
      omega
  | succ n ih =>
      obtain ⟨l₂, f₂, hn, hkept, hlinked, hcourse₂, hindex⟩ := ih
      obtain ⟨l', f', hround, hkept', hlinked', hcourse', hindex'⟩ :=
        hlinked.round_onCourse hcourse₂ (draw (base + n))
      refine ⟨l', f', ?_, hkept.trans hkept', hlinked' _, hcourse', ?_⟩
      · show round pf payload (now (base + n)) (draw (base + n))
          (rounds pf payload now draw l f (base + n)).1
          (rounds pf payload now draw l f (base + n)).2 = (l', f')
        rw [hn, hround]
      · rw [hkept.follower, hindex, hkept.log] at hindex'
        rw [hindex']
        omega

/-- Off course no number of rounds changes the follower's log. -/
theorem rounds_offCourse (h : Linked pf payload (now 0) l f) (hcourse : OffCourse l f) (n : Nat) :
    ∃ l' f', rounds pf payload now draw l f n = (l', f') ∧
      Linked pf payload (now n) l' f' ∧ OffCourse l' f' ∧ f'.log = f.log := by
  induction n with
  | zero => exact ⟨l, f, rfl, h, hcourse, rfl⟩
  | succ n ih =>
      obtain ⟨l₁, f₁, hn, hlinked, hcourse₁, hlog⟩ := ih
      obtain ⟨l', f', hround, -, hlinked', hcourse', hlog'⟩ :=
        hlinked.round_offCourse hcourse₁ (draw n)
      refine ⟨l', f', ?_, hlinked' _, hcourse', hlog'.trans hlog⟩
      show round pf payload (now n) (draw n) (rounds pf payload now draw l f n).1
        (rounds pf payload now draw l f n).2 = (l', f')
      rw [hn, hround]

/-- On course with all of the leader's log matched, the logs are the same. -/
theorem OnCourse.log_eq (h : OnCourse l f) (hmatched : l.matchIndexOf f.peerId = l.log.length) :
    f.log = l.log := by
  rcases h with ⟨length, hle, hlength, hlog⟩ | ⟨hstale, hle, -, -⟩
  · rw [hlog, show length = l.log.length by omega, List.take_length]
  · have := hstale.beyond
    omega

/-- A log that extends the leader's would extend its last term. -/
theorem agreed_lt_of_not_initial (hleader : Contiguous 0 l.log)
    (hlast : l.log.getLast?.map RaftLogEntry.term = some l.currentTerm)
    (hsorted : f.log.Pairwise fun a b => a.term ≤ b.term)
    (hbound : ∀ entry ∈ f.log, entry.term ≤ l.currentTerm)
    (hown : ∀ entry ∈ f.log, entry.term = l.currentTerm → entry ∈ l.log)
    (hlog : Contiguous 0 f.log) (hnot : ¬ f.log <+: l.log) :
    agreed f.log l.log < f.log.length ∧ agreed f.log l.log < l.log.length := by
  have hle := agreed_le f.log l.log
  have hstale : agreed f.log l.log < f.log.length := by
    rcases Nat.lt_or_ge (agreed f.log l.log) f.log.length with hlt | hge
    · exact hlt
    · exact absurd (initial_of_agreed_eq (Nat.le_antisymm hle.1 hge)) hnot
  refine ⟨hstale, ?_⟩
  by_contra hall
  have heq : agreed f.log l.log = l.log.length := by omega
  rw [heq] at hstale
  obtain ⟨last, hgetLast, hterm⟩ := Option.map_eq_some_iff.mp hlast
  have hpos : 0 < l.log.length := by
    rcases Nat.eq_zero_or_pos l.log.length with hzero | hpos
    · rw [List.eq_nil_of_length_eq_zero hzero] at hgetLast
      cases hgetLast
    · exact hpos
  have hshared : f.log[l.log.length - 1]? = some last := by
    have hlt : l.log.length - 1 < agreed f.log l.log := by omega
    rw [getElem?_of_lt_agreed hlt, ← List.getLast?_eq_getElem?, hgetLast]
  obtain ⟨hlt, hshared⟩ := List.getElem?_eq_some_iff.mp hshared
  have hnext := List.getElem?_eq_getElem hstale
  have hmem : f.log[l.log.length] ∈ f.log := List.getElem_mem hstale
  have hterms := List.pairwise_iff_getElem.mp hsorted (l.log.length - 1) l.log.length hlt hstale
    (by omega)
  rw [hshared, hterm] at hterms
  have hin := hown _ hmem (Nat.le_antisymm (hbound _ hmem) hterms)
  obtain ⟨k, hk, hget⟩ := List.mem_iff_getElem.mp hin
  have hindex := hleader k _ (List.getElem?_eq_getElem hk)
  have hindex' := hlog _ _ hnext
  rw [hget] at hindex
  omega

/-- A leader whose index for the follower is right starts on course. -/
theorem CatchesUp.onCourse (hcatches : CatchesUp l f)
    (hindex : l.matchIndexOf f.peerId ≤ agreed f.log l.log) (hlog : Contiguous 0 f.log)
    (hmatch : LogsMatch f.log l.log) (hcommitted : f.log.take f.commitIndex <+: l.log)
    (hstale : ¬ f.log <+: l.log →
      agreed f.log l.log < f.log.length ∧ agreed f.log l.log < l.log.length) :
    OnCourse l f := by
  by_cases hinitial : f.log <+: l.log
  · have hle := agreed_le f.log l.log
    exact Or.inl ⟨f.log.length, by omega, hinitial.length_le, List.prefix_iff_eq_take.mp hinitial⟩
  obtain ⟨hlt, hbeyond⟩ := hstale hinitial
  refine Or.inr ⟨⟨hlog, hmatch, hlt, hbeyond⟩, hindex, ?_, hcatches⟩
  -- What is committed agrees with the leader's log.
  by_contra hcommit
  have htake : f.log.take (agreed f.log l.log + 1) <+: l.log := by
    refine List.IsPrefix.trans ?_ hcommitted
    rw [List.prefix_take_iff, List.length_take]
    exact ⟨List.take_prefix _ _, by omega⟩
  have heq := List.prefix_iff_eq_take.mp htake
  rw [List.length_take, Nat.min_eq_left hlt] at heq
  have := le_agreed heq hlt hbeyond
  omega

/-- On course, a fifth of the leader's log is enough rounds. -/
theorem OnCourse.rounds_catchUp {base : Nat} {l₁ f₁ : RaftConsensus}
    (hbase : rounds pf payload now draw l f base = (l₁, f₁))
    (h : Linked pf payload (now base) l₁ f₁) (hcourse : OnCourse l₁ f₁)
    (hpos : 0 < l₁.log.length) :
    let s := rounds pf payload now draw l f (base + (l₁.log.length + 4) / 5)
    s.2.log = l₁.log ∧ s.1.matchIndexes.lookup f₁.peerId = some l₁.log.length := by
  obtain ⟨l', f', hend, hkept, -, hcourse', hindex⟩ :=
    rounds_onCourse hbase h hcourse ((l₁.log.length + 4) / 5)
  have hmatched : l'.matchIndexOf f₁.peerId = l₁.log.length := by
    rw [hindex]
    omega
  intro s
  have hs : s = (l', f') := hend
  rw [hs]
  constructor
  · rw [← hkept.log]
    apply hcourse'.log_eq
    rw [hkept.follower, hkept.log]
    exact hmatched
  · unfold matchIndexOf at hmatched
    cases hlookup : l'.matchIndexes.lookup f₁.peerId with
    | none =>
        rw [hlookup, Option.getD_none] at hmatched
        omega
    | some index =>
        rw [hlookup, Option.getD_some] at hmatched
        rw [hmatched]

/-- The follower's log becomes the leader's within a fifth of its length and one more
    request, and the leader knows it, if and only if no batch makes a stale entry count as
    committed. -/
theorem rounds_catchUp_iff (now : Nat → Instant) (draw : Nat → Nat)
    (h : Linked pf payload (now 0) l f)
    (hlast : l.log.getLast?.map RaftLogEntry.term = some l.currentTerm)
    (hlog : Contiguous 0 f.log) (hsorted : f.log.Pairwise fun a b => a.term ≤ b.term)
    (hbound : ∀ entry ∈ f.log, entry.term ≤ l.currentTerm)
    (hown : ∀ entry ∈ f.log, entry.term = l.currentTerm → entry ∈ l.log)
    (hmatch : LogsMatch f.log l.log) (hcommitted : f.log.take f.commitIndex <+: l.log) :
    (∃ n ≤ (l.log.length + 4) / 5 + 1,
      let s := rounds pf payload now draw l f n
      s.2.log = l.log ∧ s.1.matchIndexes.lookup f.peerId = some l.log.length) ↔
      CatchesUp l f := by
  have hstale := agreed_lt_of_not_initial h.leaderLog hlast hsorted hbound hown hlog
  have hpos : 0 < l.log.length := by
    rcases Nat.eq_zero_or_pos l.log.length with hzero | hpos
    · rw [List.eq_nil_of_length_eq_zero hzero] at hlast
      cases hlast
    · exact hpos
  constructor
  · rintro ⟨n, -, hsame, -⟩
    by_contra hfails
    have hnot : ¬ f.log <+: l.log := fun hinitial => hfails (Or.inl hinitial)
    obtain ⟨hlt, hbeyond⟩ := hstale hnot
    obtain ⟨l', f', hn, -, -, hkept⟩ :=
      rounds_offCourse h ⟨⟨hlog, hmatch, hlt, hbeyond⟩, Or.inr hfails⟩ n
    rw [hn] at hsame
    apply hnot
    rw [← hkept, hsame]
  · intro hcatches
    by_cases hindex : l.matchIndexOf f.peerId ≤ agreed f.log l.log
    · have hcourse := hcatches.onCourse hindex hlog hmatch hcommitted hstale
      exact ⟨_, by omega, OnCourse.rounds_catchUp rfl h hcourse hpos⟩
    · -- The first round brings the leader's index down to 0.
      obtain ⟨l₁, f₁, hround, hkept, hlinked, hsame, hfcommit, hleader, hzero⟩ :=
        h.round_mismatch hlog hmatch (by omega) (draw 0)
      have hstart : l.startIndex f = 0 := if_neg hindex
      have hstart' : l₁.startIndex f₁ = 0 := by
        unfold startIndex
        rw [hkept.follower, hzero]
        split <;> rfl
      have hcatches' : CatchesUp l₁ f₁ := by
        unfold CatchesUp at hcatches ⊢
        rw [hstart] at hcatches
        rw [hstart', hkept.follower, hsame, hkept.log, hkept.heldBeyond_iff, hleader]
        exact hcatches
      have hcourse : OnCourse l₁ f₁ := by
        apply hcatches'.onCourse
        · rw [hkept.follower, hzero]
          exact Nat.zero_le _
        · rw [hsame]
          exact hlog
        · rw [hsame, hkept.log]
          exact hmatch
        · rw [hsame, hfcommit, hkept.log]
          exact hcommitted
        · rw [hsame, hkept.log]
          exact hstale
      have hfirst : rounds pf payload now draw l f 1 = (l₁, f₁) := hround
      have hcaught := OnCourse.rounds_catchUp hfirst (hlinked _) hcourse (hkept.log ▸ hpos)
      rw [hkept.log, hkept.follower] at hcaught
      exact ⟨1 + (l.log.length + 4) / 5, by omega, hcaught⟩

end Rounds

end RaftConsensus

namespace Reference

/-- Six no-ops of the first term and a seventh of the given one. -/
def noopLog (term : Nat) : List RaftLogEntry :=
  (List.range 6).map (fun k => .noop 1 (k + 1)) ++ [.noop term 7]

/-- The leader of term 2, which knows nothing of the logs of its two followers but what
    it has been told of the third peer's. -/
def leadingPeer (commitIndex thirdMatch : Nat) : RaftConsensus :=
  { RaftConsensus.newWithLog 1 (noopLog 2) commitIndex (.inMemory .new) 0 0 with
    participants := [1, 2, 3]
    currentTerm := 2
    role := .leader
    matchIndexes := ((∅ : HashMap PeerId Nat).insert 1 7).insert 3 thirdMatch }

/-- A follower whose last entry is of the first term. -/
def stalePeer : RaftConsensus :=
  { RaftConsensus.newWithLog 2 (noopLog 1) 0 (.inMemory .new) 0 0 with
    participants := [1, 2, 3]
    currentTerm := 2 }

theorem validate_payload_noop {entries : List RaftLogEntry}
    (h : ∀ entry ∈ entries, entry.isNoop = true) :
    RaftConsensus.validateReplicatedEntries platform (entries.map payload) = .ok (entries, ∅) := by
  induction entries with
  | nil => rfl
  | cons entry entries ih =>
      have hentry := h entry List.mem_cons_self
      have hrest := ih fun e he => h e (List.mem_cons_of_mem entry he)
      have hpayload : payload entry =
          { entry, blockFile := [], signature := platform.sign [] [], publicKey := [] } := by
        simp only [payload, hentry, if_true]
      have hverify : platform.verify [] [] (platform.sign [] []) = .ok () :=
        platform_lawful.verify_sign [] []
      rw [List.map_cons, RaftConsensus.validateReplicatedEntries, hpayload, if_pos hentry]
      simp only [List.isEmpty_nil, Bool.not_true, Bool.false_eq_true, if_false, hverify, hrest]

theorem leadingPeer_linked (commitIndex thirdMatch : Nat) :
    RaftConsensus.Linked platform payload 0 (leadingPeer commitIndex thirdMatch) stalePeer where
  leader := rfl
  member := by
    show (2 : PeerId) ∈ [1, 2, 3]
    decide
  term := rfl
  heard draw := rfl
  payloads entries hentries := by
    refine ⟨_, validate_payload_noop ?_⟩
    intro entry hmem
    have hall : ∀ entry ∈ noopLog 2, entry.isNoop = true := by decide
    exact hall entry (hentries entry hmem)
  leaderLog := by
    show Contiguous 0 (noopLog 2)
    exact entriesAreContiguousAfter_iff.mp (by decide)
  matched := Nat.zero_le _
  leaderSaves := trivial
  followerSaves := trivial

/-- The follower's log disagrees with the leader's in its last entry only. -/
theorem stalePeer_matches : LogsMatch (noopLog 1) (noopLog 2) := by
  have hall : ∀ index < 8, termOf (noopLog 1) index = termOf (noopLog 2) index →
      (noopLog 1).take index = (noopLog 2).take index := by decide
  intro index term hterm hterm'
  have hlog : Contiguous 0 (noopLog 1) := entriesAreContiguousAfter_iff.mp (by decide)
  have hle : index ≤ 7 := hlog.le_length_of_termOf hterm
  exact hall index (by omega) (hterm.trans hterm'.symm)

end Reference

namespace RaftConsensus

/-- A leader that has committed nothing replaces the stale entry with its second batch. -/
theorem rounds_catchUp_uncommitted :
    ∃ n ≤ 3,
      let s := rounds Reference.platform Reference.payload (fun _ => 0) (fun _ => 0)
        (Reference.leadingPeer 0 0) Reference.stalePeer n
      s.2.log = Reference.noopLog 2 ∧ s.1.matchIndexes.lookup 2 = some 7 := by
  have hcatches : CatchesUp (Reference.leadingPeer 0 0) Reference.stalePeer :=
    Or.inr (Or.inr ⟨by decide, Or.inl (by decide)⟩)
  exact (rounds_catchUp_iff (fun _ => 0) (fun _ => 0) (Reference.leadingPeer_linked 0 0) rfl
    (entriesAreContiguousAfter_iff.mp (by decide)) (by decide) (by decide) (by decide)
    Reference.stalePeer_matches List.nil_prefix).mpr hcatches

/-- A leader that has committed its log with the third peer: the first batch makes the
    follower count its stale entry as committed, and it refuses the second. -/
theorem rounds_catchUp_committed :
    let l := Reference.leadingPeer 7 7
    let f := Reference.stalePeer
    Linked Reference.platform Reference.payload 0 l f ∧
      l.log.getLast?.map RaftLogEntry.term = some l.currentTerm ∧ Contiguous 0 f.log ∧
      (f.log.Pairwise fun a b => a.term ≤ b.term) ∧
      (∀ entry ∈ f.log, entry.term ≤ l.currentTerm) ∧
      (∀ entry ∈ f.log, entry.term = l.currentTerm → entry ∈ l.log) ∧
      LogsMatch f.log l.log ∧ f.log.take f.commitIndex <+: l.log ∧
      ¬ ∃ n ≤ (l.log.length + 4) / 5 + 1,
        let s := rounds Reference.platform Reference.payload (fun _ => 0) (fun _ => 0) l f n
        s.2.log = l.log ∧ s.1.matchIndexes.lookup f.peerId = some l.log.length := by
  intro l f
  refine ⟨Reference.leadingPeer_linked 7 7, rfl, entriesAreContiguousAfter_iff.mp (by decide),
    by decide, by decide, by decide, Reference.stalePeer_matches, List.nil_prefix, ?_⟩
  have hnever : ∀ n < 4, (rounds Reference.platform Reference.payload (fun _ => 0)
      (fun _ => 0) l f n).2.log ≠ l.log := by decide +kernel
  have hbound : (l.log.length + 4) / 5 + 1 = 3 := by decide
  rintro ⟨n, hle, hsame, -⟩
  exact hnever n (by omega) hsame

end RaftConsensus

end Rustchain
