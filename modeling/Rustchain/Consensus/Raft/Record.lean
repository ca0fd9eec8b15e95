/-
  Rustchain.Consensus.Raft.Record

  What one call does to the log of a Raft peer, whatever the peer receives.

  Every handler either leaves the log, the commit index and the store alone or
  moves the log on and saves it (`Recorded`).  Moving on (`Advance`) keeps the
  entries at their indexes and everything up to the commit index, and the
  blocks it commits are the ones between the two commit indexes.
-/

import Rustchain.Consensus.Raft.Accept
import Rustchain.Consensus.Raft.Handlers
import Rustchain.Consensus.Raft.Merge

namespace Rustchain

-- ============================================================================
-- Moving on
-- ============================================================================

/-- The log moves on from `log` with commit index `commit` to `log'` with
    `commit'`. -/
structure Advance (log : List RaftLogEntry) (commit : Nat) (log' : List RaftLogEntry)
    (commit' : Nat) : Prop where
  contiguous : Contiguous 0 log'
  /-- No entry up to the commit index is changed or removed. -/
  kept : log.take commit <+: log'
  mono : commit ≤ commit'
  /-- The commit index is raised within the log only. -/
  within : commit' = commit ∨ commit' ≤ log'.length

namespace Advance

variable {log log' log'' : List RaftLogEntry} {commit commit' commit'' : Nat}

theorem refl (h : Contiguous 0 log) : Advance log commit log commit :=
  ⟨h, List.take_prefix _ _, Nat.le_refl _, Or.inl rfl⟩

/-- The entries committed on the way stay. -/
theorem take_prefix_take (h : Advance log commit log' commit') :
    log.take commit <+: log'.take commit' := by
  rw [List.prefix_take_iff]
  refine ⟨h.kept, ?_⟩
  rw [List.length_take]
  have := h.mono
  omega

theorem trans (h : Advance log commit log' commit') (h' : Advance log' commit' log'' commit'') :
    Advance log commit log'' commit'' := by
  refine ⟨h'.contiguous, h.take_prefix_take.trans h'.kept, h.mono.trans h'.mono, ?_⟩
  rcases h'.within with heq | hle
  · rcases h.within with heq' | hle'
    · exact Or.inl (heq.trans heq')
    · have hlen := h'.kept.length_le
      rw [List.length_take] at hlen
      exact Or.inr (by omega)
  · exact Or.inr hle

/-- A commit index within the log stays within it, and the committed entries are
    the same before and after. -/
theorem take_eq (h : Advance log commit log' commit') (hle : commit ≤ log.length) :
    commit' ≤ log'.length ∧ log'.take commit = log.take commit := by
  have hlen : (log.take commit).length = commit := by
    rw [List.length_take]
    omega
  have hkept := h.kept.length_le
  rw [hlen] at hkept
  constructor
  · rcases h.within with heq | hle'
    · omega
    · exact hle'
  · have htake := List.prefix_iff_eq_take.mp h.kept
    rw [hlen] at htake
    exact htake.symm

/-- What was committed on the way comes before what is committed after. -/
theorem entriesBetween_append (h : Advance log commit log' commit')
    (h' : Advance log' commit' log'' commit'') :
    entriesBetween log' commit commit' ++ entriesBetween log'' commit' commit'' =
      entriesBetween log'' commit commit'' := by
  rw [h.contiguous.entriesBetween, h'.contiguous.entriesBetween, h'.contiguous.entriesBetween]
  rcases h.within with rfl | hle
  · simp
  · obtain ⟨-, htake⟩ := h'.take_eq hle
    have hsplit : log''.take commit'' = log'.take commit' ++ (log''.take commit'').drop commit' := by
      rw [← htake, ← Nat.min_eq_left h'.mono, ← List.take_take, Nat.min_eq_left h'.mono,
        List.take_append_drop]
    have hlen : commit ≤ (log'.take commit').length := by
      rw [List.length_take]
      have := h.mono
      omega
    conv_rhs => rw [hsplit]
    rw [List.drop_append_of_le_length hlen]

/-- A merge that succeeds moves the log on. -/
theorem of_mergeEntries {prev prevTerm leaderCommit : Nat} {entries : List RaftLogEntry}
    {discarded : List BlockHash} (hlog : Contiguous 0 log) (hentries : Contiguous prev entries)
    (hprev : termOf log prev = some prevTerm)
    (hmerge : mergeEntries commit log [] entries = (log', some discarded)) :
    Advance log commit log' (max commit (min leaderCommit (lastIndexOf log'))) := by
  have hlog' := (termOf_mergeEntries hlog hentries hprev hmerge).1
  refine ⟨hlog', ?_, Nat.le_max_left _ _, ?_⟩
  · rw [mergeEntries_eq commit hlog hentries (hlog.le_length_of_termOf hprev)] at hmerge
    split at hmerge
    · cases hmerge
      exact (List.take_prefix _ _).trans (List.prefix_append _ _)
    · split at hmerge
      · cases hmerge
      · rename_i k _ hk
        cases hmerge
        -- the cut lies above the commit index
        have hle : commit ≤ prev + k := by omega
        have htake : log.take commit = (log.take (prev + k)).take commit := by
          rw [List.take_take, Nat.min_eq_left hle]
        rw [htake]
        exact (List.take_prefix _ _).trans (List.prefix_append _ _)
  · rw [hlog'.lastIndexOf]
    omega

/-- A leader appends at the end of its log and commits within it. -/
theorem of_append {entry : RaftLogEntry} (hlog : Contiguous 0 log)
    (hentry : entry.index = lastIndexOf log + 1) (hmono : commit ≤ commit')
    (hwithin : commit' = commit ∨ commit' ≤ (log ++ [entry]).length) :
    Advance log commit (log ++ [entry]) commit' := by
  rw [hlog.lastIndexOf] at hentry
  refine ⟨hlog.concat (by omega), ?_, hmono, hwithin⟩
  exact (List.take_prefix _ _).trans (List.prefix_append _ _)

end Advance

/-- A merge leaves the log as it was exactly when the log has an entry of the same
    term for each entry of the request. -/
theorem mergeEntries_eq_log_iff {commitIndex prev prevTerm : Nat}
    {log log' entries : List RaftLogEntry} {discarded : List BlockHash}
    (hlog : Contiguous 0 log) (hentries : Contiguous prev entries)
    (hprev : termOf log prev = some prevTerm)
    (hmerge : mergeEntries commitIndex log [] entries = (log', some discarded)) :
    log' = log ↔ ∀ entry ∈ entries, termOf log entry.index = some entry.term := by
  have hle := hlog.le_length_of_termOf hprev
  rw [mergeEntries_eq commitIndex hlog hentries hle] at hmerge
  split at hmerge
  · rename_i hnone
    cases hmerge
    rw [List.append_right_eq_self, List.drop_eq_nil_iff]
    constructor
    · intro hlen entry hmem
      obtain ⟨k, hk, rfl⟩ := List.mem_iff_getElem.mp hmem
      have hindex := hentries k entries[k] (List.getElem?_eq_getElem hk)
      have hlt : prev + k < log.length := by omega
      rw [hindex, hlog.termOf_succ, List.getElem?_eq_getElem hlt]
      have hexisting : (log.drop prev)[k]? = some log[prev + k] := by
        rw [List.getElem?_drop, List.getElem?_eq_getElem hlt]
      rw [Option.map_some, term_eq_of_firstConflict_none hnone hexisting
        (List.getElem?_eq_getElem hk)]
    · intro hterms
      rcases List.eq_nil_or_concat entries with rfl | ⟨x, e, hx⟩
      · exact Nat.zero_le _
      · rw [List.concat_eq_append] at hx
        subst hx
        have hindex := hentries x.length e (by simp)
        have hlast := hlog.le_length_of_termOf (hterms e (by simp))
        rw [List.length_append, List.length_singleton]
        omega
  · rename_i k hk
    obtain ⟨⟨existing, entry, hexisting, hentry, hne⟩, -⟩ := firstConflict_eq_some hk
    rw [List.getElem?_drop] at hexisting
    split at hmerge
    · cases hmerge
    cases hmerge
    -- at the first conflict the log changes, and the terms differ
    constructor
    · intro heq
      have hlt : prev + k < log.length := (List.getElem?_eq_some_iff.mp hexisting).1
      have hget : (log.take (prev + k) ++ entries.drop k)[prev + k]? = some entry := by
        have hlen : (log.take (prev + k)).length = prev + k := by
          rw [List.length_take]
          omega
        rw [List.getElem?_append_right (by omega), hlen, Nat.sub_self, List.getElem?_drop]
        exact hentry
      rw [heq, hexisting] at hget
      exact absurd (congrArg RaftLogEntry.term (Option.some.inj hget)) hne
    · intro hterms
      have hterm := hterms entry (List.mem_of_getElem? hentry)
      rw [hentries k entry hentry, hlog.termOf_succ, hexisting] at hterm
      exact absurd (Option.some.inj hterm) hne

-- ============================================================================
-- The outcome of a handler
-- ============================================================================

/-- The block hashes of the `CommitBlock` effects of a batch, in order. -/
def commitHashes (effects : List ConsensusEffect) : List BlockHash :=
  effects.filterMap fun
    | .commitBlock blockHash => some blockHash
    | _ => none

@[simp] theorem commitHashes_append (effects effects' : List ConsensusEffect) :
    commitHashes (effects ++ effects') = commitHashes effects ++ commitHashes effects' :=
  List.filterMap_append

@[simp] theorem commitHashes_commitEffects (r : RaftConsensus) (low high : Nat) :
    commitHashes (r.commitEffects low high) = blockHashes (entriesBetween r.log low high) := by
  rw [commitHashes, RaftConsensus.commitEffects, List.filterMap_map]
  exact List.filterMap_some

@[simp] theorem commitHashes_rollbacks (discarded : List BlockHash) :
    commitHashes (discarded.map .rollbackBlock) = [] := by
  rw [commitHashes, List.filterMap_map]
  exact List.filterMap_eq_nil_iff.mpr fun _ _ => rfl

/-- The two states have the same log, commit index and store. -/
structure SameLog (r r' : RaftConsensus) : Prop where
  log : r'.log = r.log
  commitIndex : r'.commitIndex = r.commitIndex
  raftLogStore : r'.raftLogStore = r.raftLogStore

theorem SameLog.refl (r : RaftConsensus) : SameLog r r := ⟨rfl, rfl, rfl⟩

theorem SameLog.trans {r r' r'' : RaftConsensus} (h : SameLog r r') (h' : SameLog r' r'') :
    SameLog r r'' :=
  ⟨h'.log.trans h.log, h'.commitIndex.trans h.commitIndex, h'.raftLogStore.trans h.raftLogStore⟩

theorem SameLog.lastLogIndex {r r' : RaftConsensus} (h : SameLog r r') :
    r'.lastLogIndex = r.lastLogIndex :=
  congrArg lastIndexOf h.log

/-- What a handler's outcome records of the log.  `same` tells when a log that is
    saved is the one there was. -/
inductive Recorded (pf : Platform) (same : Prop) (r : RaftConsensus) :
    RaftConsensus × Except String (List ConsensusEffect) → Prop where
  | keeps {r' : RaftConsensus} {result : Except String (List ConsensusEffect)}
      (hkeeps : SameLog r r')
      (hcommits : ∀ effects, result = .ok effects → commitHashes effects = []) :
      Recorded pf same r (r', result)
  | saves {r' : RaftConsensus} {effects : List ConsensusEffect}
      (hadvance : Advance r.log r.commitIndex r'.log r'.commitIndex)
      (hstore : r'.raftLogStore = r.raftLogStore)
      (hcommits : commitHashes effects =
        blockHashes (entriesBetween r'.log r.commitIndex r'.commitIndex))
      (hsame : r'.log = r.log ∧ r'.commitIndex = r.commitIndex ↔ same) :
      Recorded pf same r (r'.persistThen pf effects)

namespace Recorded

variable {pf : Platform} {same : Prop} {r r₁ r' : RaftConsensus}
  {out : RaftConsensus × Except String (List ConsensusEffect)}

/-- A handler that leaves the log alone and commits nothing. -/
theorem quiet {effects : List ConsensusEffect} (hkeeps : SameLog r r')
    (hcommits : commitHashes effects = []) : Recorded pf same r (r', .ok effects) :=
  .keeps hkeeps fun _ h => by rw [← Except.ok.inj h, hcommits]

/-- Changes elsewhere made before belong to the handler. -/
theorem after (hkeeps : SameLog r r₁) (h : Recorded pf same r₁ out) :
    Recorded pf same r out := by
  cases h with
  | keeps h hcommits => exact .keeps (hkeeps.trans h) hcommits
  | saves hadvance hstore hcommits hsame =>
      rw [hkeeps.log, hkeeps.commitIndex] at hadvance hsame
      rw [hkeeps.commitIndex] at hcommits
      exact .saves hadvance (hstore.trans hkeeps.raftLogStore) hcommits hsame

end Recorded

-- ============================================================================
-- The handlers
-- ============================================================================

namespace RaftConsensus

variable {pf : Platform} {same : Prop} {r : RaftConsensus}

theorem stepDownOnNewerTerm_sameLog (r : RaftConsensus) (term : Nat) :
    SameLog r (r.stepDownOnNewerTerm term) := by
  rw [stepDownOnNewerTerm]
  split
  · exact ⟨rfl, rfl, rfl⟩
  · exact SameLog.refl r

theorem becomeLeaderIfMajority_sameLog (r : RaftConsensus) :
    SameLog r r.becomeLeaderIfMajority.1 := by
  rw [becomeLeaderIfMajority]
  split
  · exact ⟨rfl, rfl, rfl⟩
  · exact SameLog.refl r

theorem startElectionAt_sameLog (r : RaftConsensus) (now : Instant) :
    SameLog r (r.startElectionAt now).1 := by
  rw [startElectionAt]
  refine SameLog.trans ?_ (becomeLeaderIfMajority_sameLog _)
  exact ⟨rfl, rfl, rfl⟩

theorem receiveVote_sameLog (r : RaftConsensus) (term : Nat) (voterId : PeerId)
    (granted : Bool) : SameLog r (r.receiveVote term voterId granted).1 := by
  rw [receiveVote]
  split
  · exact ⟨rfl, rfl, rfl⟩
  split
  · exact SameLog.refl r
  split
  · refine SameLog.trans ?_ (becomeLeaderIfMajority_sameLog _)
    exact ⟨rfl, rfl, rfl⟩
  · exact SameLog.refl r

theorem requestVote_sameLog (r : RaftConsensus) (term : Nat) (candidateId : PeerId)
    (lastLogIndex lastLogTerm : Nat) :
    SameLog r (r.requestVote term candidateId lastLogIndex lastLogTerm).1 := by
  rw [requestVote]
  split
  · exact SameLog.refl r
  have hdown := stepDownOnNewerTerm_sameLog r term
  simp only
  split
  · exact hdown
  split
  · exact hdown
  · exact hdown.trans ⟨rfl, rfl, rfl⟩

/-- The requests a leader sends commit nothing. -/
theorem commitHashes_appendEntriesEffectFor (r : RaftConsensus) (peerId : PeerId) :
    commitHashes (r.appendEntriesEffectFor peerId).toList = [] := by
  rw [appendEntriesEffectFor]
  split <;> rfl

theorem commitHashes_appendEntriesEffectsForFollowers (r : RaftConsensus) :
    commitHashes r.appendEntriesEffectsForFollowers = [] := by
  rw [commitHashes, List.filterMap_eq_nil_iff]
  intro effect hmem
  obtain ⟨peerId, -, hpeer⟩ := mem_appendEntriesEffectsForFollowers hmem
  obtain ⟨prevLogIndex, prevLogTerm, -, rfl⟩ := appendEntriesEffectFor_spec hpeer
  rfl

/-- Advancing the commit index stays within the log. -/
theorem advanceCommitIndex_within (hlog : Contiguous 0 r.log) :
    r.advanceCommitIndex.1.commitIndex = r.commitIndex ∨
      r.advanceCommitIndex.1.commitIndex ≤ r.log.length := by
  rw [r.advanceCommitIndex_fst]
  cases hcand : r.commitCandidate with
  | none => exact Or.inl rfl
  | some entry =>
      obtain ⟨k, hk, rfl⟩ := List.mem_iff_getElem.mp (commitCandidate_spec hcand).1
      have hindex := hlog k r.log[k] (List.getElem?_eq_getElem hk)
      refine Or.inr ?_
      show r.log[k].index ≤ r.log.length
      omega

theorem advanceCommitIndex_snd (r : RaftConsensus) :
    r.advanceCommitIndex.2 =
      r.advanceCommitIndex.1.commitEffects r.commitIndex r.advanceCommitIndex.1.commitIndex := rfl

/-- A leader that appends saves a longer log. -/
theorem appendAsLeader_saves (pf : Platform) (hlog : Contiguous 0 r.log) (entry : RaftLogEntry)
    (hentry : entry.index = r.lastLogIndex + 1) :
    ∃ (r' : RaftConsensus) (effects : List ConsensusEffect),
      r.appendAsLeader pf entry = r'.persistThen pf effects ∧
      Advance r.log r.commitIndex r'.log r'.commitIndex ∧
      r'.raftLogStore = r.raftLogStore ∧
      commitHashes effects = blockHashes (entriesBetween r'.log r.commitIndex r'.commitIndex) ∧
      r'.log ≠ r.log := by
  let r₁ : RaftConsensus :=
    { r with
      log := r.log ++ [entry]
      matchIndexes := r.matchIndexes.insert r.peerId entry.index }
  have hlog₁ : Contiguous 0 r₁.log := by
    rw [lastLogIndex, hlog.lastIndexOf] at hentry
    exact hlog.concat (by omega)
  have hfst : r₁.advanceCommitIndex.1.log = r.log ++ [entry] ∧
      r₁.advanceCommitIndex.1.raftLogStore = r.raftLogStore := by
    rw [r₁.advanceCommitIndex_fst]
    exact ⟨rfl, rfl⟩
  refine ⟨r₁.advanceCommitIndex.1, r₁.appendEntriesEffectsForFollowers ++ r₁.advanceCommitIndex.2,
    rfl, ?_, hfst.2, ?_, ?_⟩
  · rw [hfst.1]
    exact Advance.of_append hlog hentry r₁.le_advanceCommitIndex (advanceCommitIndex_within hlog₁)
  · rw [commitHashes_append, commitHashes_appendEntriesEffectsForFollowers, List.nil_append,
      r₁.advanceCommitIndex_snd, commitHashes_commitEffects]
  · rw [hfst.1]
    simp

theorem appendLeaderNoop_recorded (hlog : Contiguous 0 r.log) :
    Recorded pf False r (r.appendLeaderNoop pf) := by
  obtain ⟨r', effects, heq, hadvance, hstore, hcommits, hne⟩ := appendAsLeader_saves pf hlog
    (.noop r.currentTerm (r.lastLogIndex + 1)) rfl
  rw [appendLeaderNoop, heq]
  exact .saves hadvance hstore hcommits (iff_false_intro fun h => hne h.1)

theorem onBlockCreated_recorded (hlog : Contiguous 0 r.log) (blockHash : BlockHash) :
    Recorded pf False r (r.onBlockCreated pf blockHash) := by
  rw [onBlockCreated]
  split
  · rw [appendLocalBlock]
    split
    · exact .keeps (SameLog.refl r) fun _ h => by cases h
    · obtain ⟨r', effects, heq, hadvance, hstore, hcommits, hne⟩ := appendAsLeader_saves pf hlog
        { term := r.currentTerm, index := r.lastLogIndex + 1, blockHash } rfl
      rw [heq]
      exact .saves hadvance hstore hcommits (iff_false_intro fun h => hne h.1)
  · exact .quiet (SameLog.refl r) rfl
  · exact .quiet (SameLog.refl r) rfl

/-- An effect put in front of those of a save comes with them or not at all. -/
theorem persistThen_cons (pf : Platform) (r : RaftConsensus) (effect : ConsensusEffect)
    (effects : List ConsensusEffect) :
    (match r.persistThen pf effects with
      | (r, .error e) => (r, .error e)
      | (r, .ok effects) => (r, .ok (effect :: effects))) =
      r.persistThen pf (effect :: effects) := by
  unfold persistThen
  rcases r.persistLog pf with ⟨r', e | u⟩ <;> rfl

theorem onTick_recorded (hlog : Contiguous 0 r.log) (now : Instant) (knownPeers : List PeerId) :
    Recorded pf False r (r.onTick pf now knownPeers) := by
  have hupdate : SameLog r (r.updateParticipants knownPeers) := ⟨rfl, rfl, rfl⟩
  refine Recorded.after hupdate ?_
  rw [onTick]
  simp only
  generalize r.updateParticipants knownPeers = r₁ at hupdate
  split
  · split
    · exact .quiet ⟨rfl, rfl, rfl⟩ (commitHashes_appendEntriesEffectsForFollowers _)
    · exact .quiet (SameLog.refl _) rfl
  · split
    · have helect := startElectionAt_sameLog r₁ now
      split
      · rename_i r₂ heq
        rw [heq] at helect
        exact .quiet helect rfl
      · rename_i r₂ heq
        rw [heq] at helect
        refine Recorded.after helect ?_
        have hlog₂ : Contiguous 0 r₂.log := by
          rw [helect.log, hupdate.log]
          exact hlog
        obtain ⟨r', effects, hsave, hadvance, hstore, hcommits, hne⟩ := appendAsLeader_saves
          pf hlog₂ (.noop r₂.currentTerm (r₂.lastLogIndex + 1)) rfl
        have hsaves : Recorded pf False r₂
            (r'.persistThen pf (.broadcast r₂.requestVoteBody :: effects)) :=
          .saves hadvance hstore hcommits (iff_false_intro fun h => hne h.1)
        rw [← persistThen_cons] at hsaves
        simp only [appendLeaderNoop, hsave]
        exact hsaves
    · exact .quiet (SameLog.refl _) rfl

theorem onRequestVoteResponse_recorded (hlog : Contiguous 0 r.log) (term : Nat)
    (voterId : PeerId) (voteGranted : Bool) :
    Recorded pf False r (r.onRequestVoteResponse pf term voterId voteGranted) := by
  rw [onRequestVoteResponse]
  split
  · have hvote := receiveVote_sameLog r term voterId voteGranted
    split
    · rename_i r₁ heq
      rw [heq] at hvote
      refine Recorded.after hvote (appendLeaderNoop_recorded ?_)
      rw [hvote.log]
      exact hlog
    · rename_i r₁ heq
      rw [heq] at hvote
      exact .quiet hvote rfl
  · exact .quiet (stepDownOnNewerTerm_sameLog r term) rfl

theorem onAppendEntriesResponse_recorded (hlog : Contiguous 0 r.log) (term : Nat) (src : PeerId)
    (success : Bool) (matchIndex : Nat) :
    Recorded pf False r (r.onAppendEntriesResponse pf term src success matchIndex) := by
  rw [onAppendEntriesResponse]
  split
  · rw [handleLeaderAppendEntriesResponse]
    split
    · exact .quiet ⟨rfl, rfl, rfl⟩ rfl
    split
    · exact .quiet (SameLog.refl r) rfl
    split
    · simp only
      generalize max ((r.matchIndexes.lookup src).getD 0) matchIndex = m
      let r₁ : RaftConsensus := { r with matchIndexes := r.matchIndexes.insert src m }
      have hfst : r₁.advanceCommitIndex.1.log = r.log ∧
          r₁.advanceCommitIndex.1.raftLogStore = r.raftLogStore := by
        rw [r₁.advanceCommitIndex_fst]
        exact ⟨rfl, rfl⟩
      have hcommits : commitHashes r₁.advanceCommitIndex.2 = blockHashes (entriesBetween
          r₁.advanceCommitIndex.1.log r.commitIndex r₁.advanceCommitIndex.1.commitIndex) := by
        rw [r₁.advanceCommitIndex_snd, commitHashes_commitEffects]
      show Recorded pf False r
        (if r₁.advanceCommitIndex.1.commitIndex ≠ r.commitIndex then
          r₁.advanceCommitIndex.1.persistThen pf r₁.advanceCommitIndex.2
        else (r₁.advanceCommitIndex.1, .ok r₁.advanceCommitIndex.2))
      by_cases hmoved : r₁.advanceCommitIndex.1.commitIndex ≠ r.commitIndex
      · rw [if_pos hmoved]
        refine .saves ?_ hfst.2 hcommits (iff_false_intro fun h => hmoved h.2)
        have hwithin := advanceCommitIndex_within (r := r₁) hlog
        rw [hfst.1]
        exact ⟨hlog, List.take_prefix _ _, r₁.le_advanceCommitIndex, hwithin⟩
      · rw [if_neg hmoved]
        rw [ne_eq, not_not] at hmoved
        refine .quiet ⟨hfst.1, hmoved, hfst.2⟩ ?_
        rw [hcommits, hmoved, hfst.1, hlog.entriesBetween]
        simp [blockHashes]
    · simp only
      split
      · exact .quiet ⟨rfl, rfl, rfl⟩ rfl
      · exact .quiet ⟨rfl, rfl, rfl⟩ (commitHashes_appendEntriesEffectFor _ _)
  · exact .quiet (stepDownOnNewerTerm_sameLog r term) rfl

/-- What an accepted request records: `repeated` says that the request repeats
    entries of the log and asks for no higher commit index. -/
theorem acceptEntries_recorded (hlog : Contiguous 0 r.log) (request : AppendEntriesRequest)
    (entries : List RaftLogEntry) (blocks : HashMap BlockHash BlockFile) :
    Recorded pf
      ((∀ entry ∈ entries, termOf r.log entry.index = some entry.term) ∧
        min request.leaderCommit r.lastLogIndex ≤ r.commitIndex)
      r (r.acceptEntries pf request entries blocks) := by
  rw [acceptEntries]
  rcases appendEntries_cases hlog request.prevLogIndex request.prevLogTerm entries
      request.leaderCommit with
    hnone | ⟨log, discarded, r₁, effects, hprev, hcontiguous, hmerge, hr₁, heffects, hsome⟩
  · simp only [hnone]
    exact .quiet (SameLog.refl r) rfl
  simp only [hsome]
  have hstore : r₁.raftLogStore = r.raftLogStore := by rw [hr₁]
  have hadvance : Advance r.log r.commitIndex r₁.log r₁.commitIndex := by
    rw [hr₁]
    exact Advance.of_mergeEntries hlog hcontiguous hprev hmerge
  have hcommits : ∀ ack, commitHashes (effects ++ [r₁.appendEntriesResponse request.from true ack]) =
      blockHashes (entriesBetween r₁.log r.commitIndex r₁.commitIndex) := by
    intro ack
    rw [heffects, commitHashes_append, commitHashes_append, commitHashes_append,
      commitHashes_rollbacks, commitHashes_commitEffects]
    split
    · exact List.append_nil _
    · exact List.append_nil _
  have hsame : r₁.log = r.log ∧ r₁.commitIndex = r.commitIndex ↔
      (∀ entry ∈ entries, termOf r.log entry.index = some entry.term) ∧
        min request.leaderCommit r.lastLogIndex ≤ r.commitIndex := by
    rw [← mergeEntries_eq_log_iff hlog hcontiguous hprev hmerge, hr₁]
    refine and_congr_right ?_
    rintro rfl
    show max r.commitIndex (min request.leaderCommit (lastIndexOf r.log)) = r.commitIndex ↔ _
    rw [lastLogIndex]
    omega
  split
  · exact .saves hadvance hstore (hcommits _) hsame
  · -- an empty request that does not move the commit index
    rename_i hunsaved
    simp only [Bool.or_eq_true, decide_eq_true_eq, not_or, ne_eq, not_not] at hunsaved
    obtain ⟨hlast, hcommit⟩ := hunsaved
    have hempty : entries = [] := by
      rcases List.eq_nil_or_concat entries with hnil | ⟨x, e, hx⟩
      · exact hnil
      · rw [List.concat_eq_append] at hx
        subst hx
        have hindex := hcontiguous x.length e (by simp)
        rw [List.getLast?_concat, Option.map_some, Option.getD_some] at hlast
        omega
    have hlog₁ : r₁.log = r.log := by
      subst hempty
      cases hmerge
      rw [hr₁]
    refine .quiet ⟨hlog₁, hcommit, hstore⟩ ((hcommits _).trans ?_)
    rw [hcommit, hlog₁, hlog.entriesBetween]
    simp [blockHashes]

theorem handleAppendEntries_recorded (hlog : Contiguous 0 r.log) (request : AppendEntriesRequest)
    (draw : Nat) :
    Recorded pf
      ((∀ entry ∈ request.entries.map RaftReplicatedBlock.entry,
          termOf r.log entry.index = some entry.term) ∧
        min request.leaderCommit r.lastLogIndex ≤ r.commitIndex)
      r (r.handleAppendEntries pf request draw) := by
  obtain ⟨hlog₁, hcommit, -, hstore⟩ := r.receiveAppendEntriesAt_keeps request.term
    request.leaderId request.from request.now draw
  rw [handleAppendEntries]
  rcases hreceive : r.receiveAppendEntriesAt request.term request.leaderId request.from request.now
    draw with ⟨r₁, heard⟩
  rw [hreceive] at hlog₁ hcommit hstore
  have hkeeps : SameLog r r₁ := ⟨hlog₁, hcommit, hstore⟩
  cases heard with
  | false => exact .quiet hkeeps rfl
  | true =>
      rcases hvalid : validateReplicatedEntries pf request.entries with e | ⟨entries, blocks⟩
      · exact .quiet hkeeps rfl
      · refine Recorded.after hkeeps ?_
        have hcontiguous : Contiguous 0 r₁.log := by
          rw [hkeeps.log]
          exact hlog
        rw [← validateReplicatedEntries_entries hvalid, lastLogIndex, ← hkeeps.log,
          ← hkeeps.commitIndex]
        exact acceptEntries_recorded hcontiguous request entries blocks

end RaftConsensus

-- ============================================================================
-- Every event
-- ============================================================================

/-- The event is a request that repeats entries of the log and asks for no higher
    commit index. -/
def RaftEvent.Repeats (r : RaftConsensus) : RaftEvent → Prop
  | .receive _ (.raftAppendEntries _ _ _ _ entries leaderCommit) _ _ =>
    (∀ entry ∈ entries.map RaftReplicatedBlock.entry,
        termOf r.log entry.index = some entry.term) ∧
      min leaderCommit r.lastLogIndex ≤ r.commitIndex
  | _ => False

theorem RaftConsensus.onClientTransaction_commitHashes {r : RaftConsensus}
    {clientTx : SignedTransaction} {effects : List ConsensusEffect}
    (h : r.onClientTransaction clientTx = .ok effects) : commitHashes effects = [] := by
  rw [RaftConsensus.onClientTransaction] at h
  split at h
  · split at h
    · cases h
    · cases h
      rfl
  all_goals
    rw [RaftConsensus.forwardClientTransaction] at h
    split at h
    · cases h
    · cases h
      rfl

/-- What one event records. -/
theorem RaftConsensus.handle_recorded (pf : Platform) {r : RaftConsensus}
    (hlog : Contiguous 0 r.log) (event : RaftEvent) :
    Recorded pf (event.Repeats r) r (r.handle pf event) := by
  cases event with
  | tick now knownPeers => exact onTick_recorded hlog now knownPeers
  | clientTransaction clientTx =>
      exact .keeps (SameLog.refl r) fun _ h => onClientTransaction_commitHashes h
  | blockCreated blockHash => exact onBlockCreated_recorded hlog blockHash
  | takePendingBlock blockHash => exact .quiet ⟨rfl, rfl, rfl⟩ rfl
  | receive src body now draw =>
      cases body with
      | raftRequestVote term candidateId lastLogIndex lastLogTerm =>
          exact .quiet (requestVote_sameLog r term candidateId lastLogIndex lastLogTerm) rfl
      | raftRequestVoteResponse term voteGranted =>
          exact onRequestVoteResponse_recorded hlog term src voteGranted
      | raftAppendEntries term leaderId prevLogIndex prevLogTerm entries leaderCommit =>
          exact handleAppendEntries_recorded hlog
            { term, leaderId, prevLogIndex, prevLogTerm, entries, leaderCommit, «from» := src, now }
            draw
      | raftAppendEntriesResponse term success matchIndex =>
          exact onAppendEntriesResponse_recorded hlog term src success matchIndex
      | _ => exact .keeps (SameLog.refl r) fun _ h => by cases h

end Rustchain
