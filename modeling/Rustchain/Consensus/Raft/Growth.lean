/-
  Rustchain.Consensus.Raft.Growth

  How the log of a Raft peer changes shape.

  The handlers other than `handle_append_entries` append to the log at most, a
  no-op or the block the peer created itself, and ask for messages and commits
  only (`Grows`).  A request that is accepted keeps the log up to some point
  above the commit index and puts entries of its own after it.
-/

import Rustchain.Consensus.Raft.Record

namespace Rustchain

/-- The effect sends something or commits a block. -/
def ConsensusEffect.isPlain : ConsensusEffect → Bool
  | .send .. | .broadcast _ | .sendRaftAppendEntries .. | .commitBlock _ => true
  | _ => false

/-- The outcome of a handler that appends entries with the given blocks and asks for
    plain effects. -/
structure Grows (r : RaftConsensus) (new : List BlockHash)
    (out : RaftConsensus × Except String (List ConsensusEffect)) : Prop where
  log : ∃ tail, out.1.log = r.log ++ tail ∧ blockHashes tail = new
  plain : ∀ effects, out.2 = .ok effects → ∀ effect ∈ effects, effect.isPlain = true

namespace Grows

variable {r r' : RaftConsensus} {new : List BlockHash} {effects : List ConsensusEffect}
  {out : RaftConsensus × Except String (List ConsensusEffect)}

theorem after (hkeeps : SameLog r r') (h : Grows r' new out) : Grows r new out := by
  obtain ⟨hlog, hplain⟩ := h
  rw [hkeeps.log] at hlog
  exact ⟨hlog, hplain⟩

theorem of_keeps (hkeeps : SameLog r r') (hplain : ∀ effect ∈ effects, effect.isPlain = true) :
    Grows r [] (r', .ok effects) := by
  refine ⟨⟨[], ?_, rfl⟩, ?_⟩
  · rw [List.append_nil]
    exact hkeeps.log
  · intro effects' heq
    cases heq
    exact hplain

theorem of_error (hkeeps : SameLog r r') (e : String) : Grows r [] (r', .error e) := by
  refine ⟨⟨[], ?_, rfl⟩, fun effects heq => by cases heq⟩
  rw [List.append_nil]
  exact hkeeps.log

theorem of_nil (hkeeps : SameLog r r') : Grows r [] (r', .ok []) :=
  of_keeps hkeeps fun _ h => absurd h List.not_mem_nil

/-- Saving changes neither. -/
theorem persistThen (pf : Platform) (tail : List RaftLogEntry) (hlog : r'.log = r.log ++ tail)
    (hplain : ∀ effect ∈ effects, effect.isPlain = true) :
    Grows r (blockHashes tail) (r'.persistThen pf effects) := by
  refine ⟨⟨tail, ?_, rfl⟩, ?_⟩
  · rw [RaftConsensus.persistThen_fst]
    exact hlog
  · intro effects' heq
    unfold RaftConsensus.persistThen at heq
    split at heq
    · cases heq
      exact hplain
    · cases heq

end Grows

namespace RaftConsensus

variable (pf : Platform) (r : RaftConsensus)

theorem appendEntriesEffectFor_plain {peerId : PeerId} {effect : ConsensusEffect}
    (h : r.appendEntriesEffectFor peerId = some effect) : effect.isPlain = true := by
  obtain ⟨prevLogIndex, prevLogTerm, -, rfl⟩ := appendEntriesEffectFor_spec h
  rfl

theorem appendEntriesEffectsForFollowers_plain :
    ∀ effect ∈ r.appendEntriesEffectsForFollowers, effect.isPlain = true := by
  intro effect hmem
  obtain ⟨q, -, heffect⟩ := mem_appendEntriesEffectsForFollowers hmem
  exact r.appendEntriesEffectFor_plain heffect

theorem advanceCommitIndex_log : r.advanceCommitIndex.1.log = r.log := by
  rw [advanceCommitIndex_fst]

theorem advanceCommitIndex_plain : ∀ effect ∈ r.advanceCommitIndex.2, effect.isPlain = true := by
  intro effect hmem
  rw [advanceCommitIndex_snd] at hmem
  obtain ⟨blockHash, -, rfl⟩ := List.mem_map.mp hmem
  rfl

theorem appendAsLeader_grows (entry : RaftLogEntry) :
    Grows r (blockHashes [entry]) (r.appendAsLeader pf entry) := by
  refine Grows.persistThen pf [entry] (advanceCommitIndex_log _) ?_
  intro effect hmem
  rcases List.mem_append.mp hmem with hmem | hmem
  · exact appendEntriesEffectsForFollowers_plain _ effect hmem
  · exact advanceCommitIndex_plain _ effect hmem

theorem appendLeaderNoop_grows : Grows r [] (r.appendLeaderNoop pf) :=
  r.appendAsLeader_grows pf (.noop r.currentTerm (r.lastLogIndex + 1))

/-- A leader appends the block it created if no block is uncommitted. -/
theorem onBlockCreated_grows (blockHash : BlockHash) :
    Grows r [] (r.onBlockCreated pf blockHash) ∨
      (r.ensureNoUncommittedBlock = .ok () ∧
        Grows r [blockHash] (r.onBlockCreated pf blockHash)) := by
  unfold onBlockCreated
  split
  · unfold appendLocalBlock
    split
    · exact Or.inl (.of_error (SameLog.refl r) _)
    · rename_i hnone
      have hgrows := r.appendAsLeader_grows pf
        { term := r.currentTerm, index := r.lastLogIndex + 1, blockHash }
      by_cases hempty : blockHash = emptyHash
      · left
        simpa [blockHashes, RaftLogEntry.isNoop, hempty] using hgrows
      · refine Or.inr ⟨hnone, ?_⟩
        simpa [blockHashes, RaftLogEntry.isNoop, hempty] using hgrows
  · exact Or.inl (.of_nil (SameLog.refl r))
  · exact Or.inl (.of_nil (SameLog.refl r))

theorem onTick_grows (now : Instant) (knownPeers : List PeerId) :
    Grows r [] (r.onTick pf now knownPeers) := by
  have hupdate : SameLog r (r.updateParticipants knownPeers) := ⟨rfl, rfl, rfl⟩
  refine Grows.after hupdate ?_
  rw [onTick]
  simp only
  generalize r.updateParticipants knownPeers = r₁
  split
  · split
    · exact .of_keeps ⟨rfl, rfl, rfl⟩ (appendEntriesEffectsForFollowers_plain _)
    · exact .of_nil (SameLog.refl _)
  split
  · have helect := startElectionAt_sameLog r₁ now
    split
    · rename_i r₂ heq
      rw [heq] at helect
      refine .of_keeps helect ?_
      intro effect hmem
      rw [List.mem_singleton.mp hmem]
      rfl
    · rename_i r₂ heq
      rw [heq] at helect
      refine Grows.after helect ?_
      have hnoop := r₂.appendLeaderNoop_grows pf
      rcases hanswer : r₂.appendLeaderNoop pf with ⟨r₃, e | effects⟩
      all_goals rw [hanswer] at hnoop
      · exact ⟨hnoop.log, fun effects heq => by cases heq⟩
      · refine ⟨hnoop.log, ?_⟩
        intro effects' heq effect hmem
        cases heq
        rcases List.mem_cons.mp hmem with rfl | hmem
        · rfl
        · exact hnoop.plain effects rfl effect hmem
  · exact .of_nil (SameLog.refl _)

theorem onRequestVoteResponse_grows (term : Nat) (voterId : PeerId) (voteGranted : Bool) :
    Grows r [] (r.onRequestVoteResponse pf term voterId voteGranted) := by
  rw [onRequestVoteResponse]
  split
  · have hvote := receiveVote_sameLog r term voterId voteGranted
    split
    · rename_i r₁ heq
      rw [heq] at hvote
      exact Grows.after hvote (r₁.appendLeaderNoop_grows pf)
    · rename_i r₁ heq
      rw [heq] at hvote
      exact .of_nil hvote
  · exact .of_nil (stepDownOnNewerTerm_sameLog r term)

theorem onAppendEntriesResponse_grows (term : Nat) (src : PeerId) (success : Bool)
    (matchIndex : Nat) : Grows r [] (r.onAppendEntriesResponse pf term src success matchIndex) := by
  rw [onAppendEntriesResponse]
  split
  · rw [handleLeaderAppendEntriesResponse]
    split
    · exact .of_nil ⟨rfl, rfl, rfl⟩
    split
    · exact .of_nil (SameLog.refl r)
    split
    · simp only
      split
      · refine Grows.persistThen pf [] ?_ (advanceCommitIndex_plain _)
        rw [advanceCommitIndex_log, List.append_nil]
      · refine ⟨⟨[], ?_, rfl⟩, ?_⟩
        · rw [advanceCommitIndex_log, List.append_nil]
        · intro effects heq
          cases heq
          exact advanceCommitIndex_plain _
    · simp only
      split
      · exact .of_nil ⟨rfl, rfl, rfl⟩
      · refine .of_keeps ⟨rfl, rfl, rfl⟩ ?_
        intro effect hmem
        exact appendEntriesEffectFor_plain _ (Option.mem_toList.mp hmem)
  · exact .of_nil (stepDownOnNewerTerm_sameLog r term)

/-- Of the messages that reach consensus only an `AppendEntries` request asks for
    more. -/
theorem onMessage_grows (src : PeerId) {body : MessageBody} (now : Instant) (draw : Nat)
    (hother : ∀ term leaderId prevLogIndex prevLogTerm entries leaderCommit,
      body ≠ .raftAppendEntries term leaderId prevLogIndex prevLogTerm entries leaderCommit) :
    Grows r [] (r.onMessage pf src body now draw) := by
  cases body with
  | raftRequestVote term candidateId lastLogIndex lastLogTerm =>
      refine .of_keeps (requestVote_sameLog r term candidateId lastLogIndex lastLogTerm) ?_
      intro effect hmem
      rw [List.mem_singleton.mp hmem]
      rfl
  | raftRequestVoteResponse term voteGranted =>
      exact r.onRequestVoteResponse_grows pf term src voteGranted
  | raftAppendEntries term leaderId prevLogIndex prevLogTerm entries leaderCommit =>
      exact absurd rfl (hother term leaderId prevLogIndex prevLogTerm entries leaderCommit)
  | raftAppendEntriesResponse term success matchIndex =>
      exact r.onAppendEntriesResponse_grows pf term src success matchIndex
  | _ => exact .of_error (SameLog.refl r) _

-- ============================================================================
-- Requests
-- ============================================================================

/-- A request that is not accepted leaves the log alone. -/
theorem handleAppendEntries_sameLog {pf : Platform} {r : RaftConsensus} (hlog : Contiguous 0 r.log)
    (hsave : r.raftLogStore.SavesSucceed) {request : AppendEntriesRequest} {draw : Nat}
    (h : r.acceptance pf request draw = none) :
    SameLog r (r.handleAppendEntries pf request draw).1 := by
  obtain ⟨hsameLog, hcommit, -, hstore⟩ := r.receiveAppendEntriesAt_keeps request.term
    request.leaderId request.from request.now draw
  unfold acceptance at h
  unfold handleAppendEntries
  rcases hreceive : r.receiveAppendEntriesAt request.term request.leaderId request.from request.now
    draw with ⟨r₁, heard⟩
  rw [hreceive] at hsameLog hcommit hstore h
  have hkeeps : SameLog r r₁ := ⟨hsameLog, hcommit, hstore⟩
  cases heard with
  | false => exact hkeeps
  | true =>
      rcases hvalid : validateReplicatedEntries pf request.entries with e | ⟨entries, blocks⟩
      · exact hkeeps
      rw [hvalid] at h
      refine hkeeps.trans ?_
      show SameLog r₁ (r₁.acceptEntries pf request entries blocks).1
      rw [← hkeeps.log] at hlog
      unfold acceptEntries
      rcases appendEntries_cases hlog request.prevLogIndex request.prevLogTerm entries
          request.leaderCommit with
        hnone | ⟨log, discarded, -, -, hprev, hcontiguous, hmerge, -, -, -⟩
      · simp only [hnone]
        exact SameLog.refl r₁
      · -- Entries that are merged are accepted, as the log is saved.
        exfalso
        have hsaved := fun log commitIndex =>
          (AnyRaftLogStore.save_of_savesSucceed pf hsave log commitIndex).1
        rw [hkeeps.log] at hprev
        rw [hkeeps.log, hkeeps.commitIndex] at hmerge
        simp [acceptanceOf, termAt, hprev, entriesAreContiguousAfter_iff.mpr hcontiguous, hmerge,
          hsaved] at h

/-- A merge keeps the log up to a point above the commit index, discards the rest and
    appends entries of the request. -/
theorem mergeEntries_splits {commitIndex prev : Nat} {log log' entries : List RaftLogEntry}
    {discarded : List BlockHash} (hlog : Contiguous 0 log) (hentries : Contiguous prev entries)
    (hprev : prev ≤ log.length) (hle : commitIndex ≤ log.length)
    (h : mergeEntries commitIndex log [] entries = (log', some discarded)) :
    ∃ n new, commitIndex ≤ n ∧ n ≤ log.length ∧ log' = log.take n ++ new ∧
      discarded = blockHashes (log.drop n) ∧ ∀ entry ∈ new, entry ∈ entries ∧ n < entry.index := by
  have habove : ∀ k n, prev + k = n → ∀ entry ∈ entries.drop k, n < entry.index := by
    rintro k n rfl entry hmem
    obtain ⟨j, hj, rfl⟩ := List.mem_iff_getElem.mp hmem
    have := hentries.drop k j _ (List.getElem?_eq_getElem hj)
    omega
  rw [mergeEntries_eq commitIndex hlog hentries hprev] at h
  split at h
  · cases h
    refine ⟨log.length, _, hle, Nat.le_refl _, by rw [List.take_length], ?_, ?_⟩
    · rw [List.drop_length]
      rfl
    · intro entry hmem
      exact ⟨List.mem_of_mem_drop hmem, habove _ _ (by omega) entry hmem⟩
  · rename_i k hk
    split at h
    · cases h
    · cases h
      obtain ⟨⟨existing, _, hexisting, -, -⟩, -⟩ := firstConflict_eq_some hk
      rw [List.getElem?_drop] at hexisting
      have hlt := (List.getElem?_eq_some_iff.mp hexisting).1
      refine ⟨prev + k, _, by omega, hlt.le, rfl, List.nil_append _, ?_⟩
      intro entry hmem
      exact ⟨List.mem_of_mem_drop hmem, habove k _ rfl entry hmem⟩

end RaftConsensus
end Rustchain
