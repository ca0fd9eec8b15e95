/-
  Rustchain.Consensus.Raft.Accept

  `handle_append_entries` seen from outside: whether a follower accepts a
  request, read off the state before, and what the peer is then asked to do.
-/

import Rustchain.Consensus.Raft.Replication

namespace Rustchain

/-- What an accepted request comes to. -/
structure Accepted where
  /-- The blocks that came with the request, by hash. -/
  blocks : HashMap BlockHash BlockFile
  /-- The log after the merge. -/
  log : List RaftLogEntry
  commitIndex : Nat
  /-- The blocks of the log entries the merge discards. -/
  discarded : List BlockHash
  /-- The block entries of the request above the old commit index. -/
  toStage : List RaftLogEntry
  /-- The blocks of the log entries between the old and the new commit index. -/
  toCommit : List BlockHash

/-- The effects of an accepted request, without the acknowledgement. -/
def Accepted.effects (a : Accepted) : List ConsensusEffect :=
  a.discarded.map .rollbackBlock
    ++ (if a.toStage.isEmpty then [] else [.stageRaftEntries a.toStage])
    ++ a.toCommit.map .commitBlock

namespace RaftConsensus

/-- What the request comes to when its entries have been merged. -/
def acceptedAs (r : RaftConsensus) (request : AppendEntriesRequest) (entries : List RaftLogEntry)
    (blocks : HashMap BlockHash BlockFile) (log : List RaftLogEntry)
    (discarded : List BlockHash) : Accepted :=
  let commitIndex := max r.commitIndex (min request.leaderCommit (lastIndexOf log))
  { blocks
    log
    commitIndex
    discarded
    toStage := entries.filter fun entry => entry.index > r.commitIndex && !entry.isNoop
    toCommit := blockHashes (entriesBetween log r.commitIndex commitIndex) }

/-- The acceptance of a request whose entries are valid: they follow an entry of the
    log and do not contradict a committed one, and the log is saved. -/
def acceptanceOf (pf : Platform) (r : RaftConsensus) (request : AppendEntriesRequest)
    (entries : List RaftLogEntry) (blocks : HashMap BlockHash BlockFile) : Option Accepted :=
  if r.termAt request.prevLogIndex ≠ some request.prevLogTerm then none
  else if !entriesAreContiguousAfter request.prevLogIndex entries then none
  else
    match mergeEntries r.commitIndex r.log [] entries with
    | (_, none) => none
    | (log, some discarded) =>
      let accepted := r.acceptedAs request entries blocks log discarded
      let last := (entries.getLast?.map RaftLogEntry.index).getD request.prevLogIndex
      if last > request.prevLogIndex || accepted.commitIndex ≠ r.commitIndex then
        match (r.raftLogStore.save pf log accepted.commitIndex).2 with
        | .ok () => some accepted
        | .error _ => none
      else some accepted

/-- The request as it is accepted in the given state, if it is: it is not stale and
    its entries are valid. -/
def acceptance (pf : Platform) (r : RaftConsensus) (request : AppendEntriesRequest)
    (draw : Nat) : Option Accepted :=
  if (r.receiveAppendEntriesAt request.term request.leaderId request.from request.now draw).2 =
    false then none
  else
    match validateReplicatedEntries pf request.entries with
    | .error _ => none
    | .ok (entries, blocks) => r.acceptanceOf pf request entries blocks

/-- The request is heard, and merging its entries comes to this; whether the log can
    be saved then is open. -/
def Merges (pf : Platform) (r : RaftConsensus) (request : AppendEntriesRequest) (draw : Nat)
    (a : Accepted) : Prop :=
  (r.receiveAppendEntriesAt request.term request.leaderId request.from request.now draw).2 = true ∧
    ∃ entries blocks log discarded,
      validateReplicatedEntries pf request.entries = .ok (entries, blocks) ∧
      r.termAt request.prevLogIndex = some request.prevLogTerm ∧
      entriesAreContiguousAfter request.prevLogIndex entries = true ∧
      mergeEntries r.commitIndex r.log [] entries = (log, some discarded) ∧
      a = r.acceptedAs request entries blocks log discarded

theorem Merges.unique {pf : Platform} {r : RaftConsensus} {request : AppendEntriesRequest}
    {draw : Nat} {a a' : Accepted} (h : r.Merges pf request draw a)
    (h' : r.Merges pf request draw a') : a = a' := by
  obtain ⟨-, entries, blocks, log, discarded, hvalid, -, -, hmerge, rfl⟩ := h
  obtain ⟨-, entries', blocks', log', discarded', hvalid', -, -, hmerge', rfl⟩ := h'
  cases hvalid.symm.trans hvalid'
  cases hmerge.symm.trans hmerge'
  rfl

/-- An accepted request is heard and merged. -/
theorem acceptance_merges {pf : Platform} {r : RaftConsensus} {request : AppendEntriesRequest}
    {draw : Nat} {a : Accepted} (h : r.acceptance pf request draw = some a) :
    r.Merges pf request draw a := by
  unfold acceptance at h
  split at h
  · cases h
  rename_i hheard
  split at h
  · cases h
  rename_i entries blocks hvalid
  unfold acceptanceOf at h
  split at h
  · cases h
  rename_i hprev
  split at h
  · cases h
  rename_i hcontiguous
  split at h
  · cases h
  rename_i log discarded hmerge
  refine ⟨by simpa using hheard, entries, blocks, log, discarded, hvalid,
    Decidable.not_not.mp hprev, by simpa using hcontiguous, hmerge, ?_⟩
  dsimp only at h
  split at h
  · split at h
    · exact (Option.some.inj h).symm
    · cases h
  · exact (Option.some.inj h).symm

/-- An accepted request is valid, follows an entry of the log and is merged. -/
theorem acceptance_some {pf : Platform} {r : RaftConsensus} {request : AppendEntriesRequest}
    {draw : Nat} {a : Accepted} (h : r.acceptance pf request draw = some a) :
    ∃ entries blocks log discarded,
      validateReplicatedEntries pf request.entries = .ok (entries, blocks) ∧
      r.termAt request.prevLogIndex = some request.prevLogTerm ∧
      entriesAreContiguousAfter request.prevLogIndex entries = true ∧
      mergeEntries r.commitIndex r.log [] entries = (log, some discarded) ∧
      a = r.acceptedAs request entries blocks log discarded :=
  (acceptance_merges h).2

/-- Hearing from a leader changes neither the log nor what belongs to it. -/
theorem receiveAppendEntriesAt_keeps (r : RaftConsensus) (term : Nat) (leaderId src : PeerId)
    (now : Instant) (draw : Nat) :
    let r' := (r.receiveAppendEntriesAt term leaderId src now draw).1
    r'.log = r.log ∧ r'.commitIndex = r.commitIndex ∧ r'.pendingBlocks = r.pendingBlocks ∧
      r'.raftLogStore = r.raftLogStore := by
  have hstep : ∀ term, (r.stepDownOnNewerTerm term).log = r.log ∧
      (r.stepDownOnNewerTerm term).commitIndex = r.commitIndex ∧
      (r.stepDownOnNewerTerm term).pendingBlocks = r.pendingBlocks ∧
      (r.stepDownOnNewerTerm term).raftLogStore = r.raftLogStore := by
    intro term
    unfold stepDownOnNewerTerm
    split <;> exact ⟨rfl, rfl, rfl, rfl⟩
  simp only [receiveAppendEntriesAt]
  split
  · exact ⟨rfl, rfl, rfl, rfl⟩
  · split
    · exact ⟨rfl, rfl, rfl, rfl⟩
    · split
      · exact hstep term
      · simp only [followLeader]
        split <;> exact hstep term

/-- A peer that hears from a leader follows it in the leader's term. -/
theorem receiveAppendEntriesAt_follows {r : RaftConsensus} {term : Nat} {leaderId src : PeerId}
    {now : Instant} {draw : Nat}
    (h : (r.receiveAppendEntriesAt term leaderId src now draw).2 = true) :
    let r' := (r.receiveAppendEntriesAt term leaderId src now draw).1
    r'.role = .follower ∧ r'.currentTerm = term ∧ r'.leaderId = some leaderId := by
  unfold receiveAppendEntriesAt at h ⊢
  split at h
  · cases h
  rename_i hforeign
  rw [if_neg hforeign]
  split at h
  · cases h
  rename_i hstale
  rw [if_neg hstale]
  have hterm : (r.stepDownOnNewerTerm term).currentTerm = term := by
    unfold stepDownOnNewerTerm
    split
    · rfl
    · omega
  dsimp only at h ⊢
  split at h
  · cases h
  rename_i hother
  rw [if_neg hother]
  simp only [followLeader]
  split
  · exact ⟨rfl, hterm, rfl⟩
  · exact ⟨rfl, hterm, rfl⟩

/-- The entries a batch of an accepted request stages. -/
theorem stagedEntries_effects (a : Accepted) : stagedEntries a.effects = a.toStage := by
  have hrollbacks : stagedEntries (a.discarded.map .rollbackBlock) = [] := by
    simp [stagedEntries, List.flatMap_map]
  have hcommits : stagedEntries (a.toCommit.map .commitBlock) = [] := by
    simp [stagedEntries, List.flatMap_map]
  have happend : ∀ l l', stagedEntries (l ++ l') = stagedEntries l ++ stagedEntries l' :=
    fun l l' => List.flatMap_append
  rw [Accepted.effects, happend, happend, hrollbacks, hcommits, List.append_nil, List.nil_append]
  by_cases hempty : a.toStage.isEmpty = true
  · rw [if_pos hempty, List.isEmpty_iff.mp hempty]
    rfl
  · rw [if_neg hempty]
    exact List.append_nil _

/-- What `handle_append_entries` answers, by whether the request is accepted. -/
def Answers (pf : Platform) (r : RaftConsensus) (request : AppendEntriesRequest)
    (answer : RaftConsensus × Except String (List ConsensusEffect)) : Option Accepted → Prop
  | none =>
    (∃ e, answer.2 = .error e) ∨
      ∃ term matchIndex, answer.2 =
        .ok [.send request.from (.raftAppendEntriesResponse term false matchIndex)]
  | some a =>
    (∃ term matchIndex, answer.2 =
      .ok (a.effects ++
        [.send request.from (.raftAppendEntriesResponse term true matchIndex)])) ∧
      answer.1.log = a.log ∧ answer.1.commitIndex = a.commitIndex ∧
      answer.1.pendingBlocks = keepPendingBlocks r.pendingBlocks a.blocks a.toStage ∧
      (answer.1.raftLogStore = r.raftLogStore ∨
        answer.1.raftLogStore = (r.raftLogStore.save pf a.log a.commitIndex).1)

/-- `append_entries` for entries that are merged. -/
theorem appendEntries_merged {r : RaftConsensus} {request : AppendEntriesRequest}
    {entries log : List RaftLogEntry} {discarded : List BlockHash}
    (hprev : ¬r.termAt request.prevLogIndex ≠ some request.prevLogTerm)
    (hcontiguous : ¬(!entriesAreContiguousAfter request.prevLogIndex entries) = true)
    (hmerge : mergeEntries r.commitIndex r.log [] entries = (log, some discarded))
    (blocks : HashMap BlockHash BlockFile) :
    r.appendEntries request.prevLogIndex request.prevLogTerm entries request.leaderCommit =
      ({ r with log, commitIndex := (r.acceptedAs request entries blocks log discarded).commitIndex },
        some (r.acceptedAs request entries blocks log discarded).effects) := by
  simp only [appendEntries, if_neg hprev, if_neg hcontiguous, hmerge]
  rfl

/-- A merge that has to be saved: it may have changed the log, or the commit index. -/
def needsSave (r : RaftConsensus) (request : AppendEntriesRequest) (entries : List RaftLogEntry)
    (a : Accepted) : Bool :=
  (entries.getLast?.map RaftLogEntry.index).getD request.prevLogIndex > request.prevLogIndex ||
    a.commitIndex ≠ r.commitIndex

/-- The state in which the merge is saved. -/
def merged (r : RaftConsensus) (a : Accepted) : RaftConsensus :=
  { r with
    log := a.log
    commitIndex := a.commitIndex
    pendingBlocks := keepPendingBlocks r.pendingBlocks a.blocks a.toStage }

section Merged

variable {pf : Platform} {r : RaftConsensus} {request : AppendEntriesRequest}
  {entries log : List RaftLogEntry} {discarded : List BlockHash}

/-- `acceptEntries` for entries that are merged. -/
theorem acceptEntries_merged (hprev : ¬r.termAt request.prevLogIndex ≠ some request.prevLogTerm)
    (hcontiguous : ¬(!entriesAreContiguousAfter request.prevLogIndex entries) = true)
    (hmerge : mergeEntries r.commitIndex r.log [] entries = (log, some discarded))
    (blocks : HashMap BlockHash BlockFile) :
    let a := r.acceptedAs request entries blocks log discarded
    let queue := a.effects ++ [r.appendEntriesResponse request.from true
      ((entries.getLast?.map RaftLogEntry.index).getD request.prevLogIndex)]
    r.acceptEntries pf request entries blocks =
      if r.needsSave request entries a then (r.merged a).persistThen pf queue
      else (r.merged a, .ok queue) := by
  unfold acceptEntries
  rw [appendEntries_merged hprev hcontiguous hmerge blocks]
  simp only [stagedEntries_effects]
  rfl

/-- The merge is accepted if it need not be saved or is. -/
theorem acceptanceOf_merged (hprev : ¬r.termAt request.prevLogIndex ≠ some request.prevLogTerm)
    (hcontiguous : ¬(!entriesAreContiguousAfter request.prevLogIndex entries) = true)
    (hmerge : mergeEntries r.commitIndex r.log [] entries = (log, some discarded))
    (blocks : HashMap BlockHash BlockFile) :
    let a := r.acceptedAs request entries blocks log discarded
    r.acceptanceOf pf request entries blocks =
      if r.needsSave request entries a ∧ (r.raftLogStore.save pf a.log a.commitIndex).2 ≠ .ok ()
      then none else some a := by
  intro a
  unfold acceptanceOf
  rw [if_neg hprev, if_neg hcontiguous, hmerge]
  dsimp only
  change (if r.needsSave request entries a = true then _ else _) = _
  by_cases hneeds : r.needsSave request entries a = true
  · rw [if_pos hneeds]
    rcases hsave : (r.raftLogStore.save pf log a.commitIndex).2 with e | _
    · have hfails : (r.raftLogStore.save pf a.log a.commitIndex).2 ≠ .ok () := by
        rw [show a.log = log from rfl, hsave]
        exact nofun
      rw [if_pos ⟨hneeds, hfails⟩]
    · rw [if_neg fun h => h.2 hsave]
  · rw [if_neg hneeds, if_neg fun h => hneeds h.1]

end Merged

/-- Merging a request's entries concerns the log, its store, the commit index and the
    blocks to be staged, nothing else. -/
theorem acceptEntries_fst (pf : Platform) (r : RaftConsensus) (request : AppendEntriesRequest)
    (entries : List RaftLogEntry) (blocks : HashMap BlockHash BlockFile) :
    ∃ log raftLogStore commitIndex pendingBlocks,
      (r.acceptEntries pf request entries blocks).1 =
        { r with log, raftLogStore, commitIndex, pendingBlocks } := by
  have happend : ∃ log commitIndex, (r.appendEntries request.prevLogIndex request.prevLogTerm entries
      request.leaderCommit).1 = { r with log, commitIndex } := by
    rw [appendEntries]
    split
    · exact ⟨_, _, rfl⟩
    split
    · exact ⟨_, _, rfl⟩
    simp only
    split
    · exact ⟨_, _, rfl⟩
    · exact ⟨_, _, rfl⟩
  obtain ⟨log, commitIndex, happend⟩ := happend
  rw [acceptEntries]
  simp only
  split
  · rename_i r₁ heq
    rw [heq] at happend
    exact ⟨log, r.raftLogStore, commitIndex, r.pendingBlocks, happend⟩
  · rename_i r₁ effects heq
    rw [heq] at happend
    have happend : r₁ = { r with log, commitIndex } := happend
    subst happend
    split
    · rw [persistThen_fst]
      exact ⟨_, _, _, _, rfl⟩
    · exact ⟨_, _, _, _, rfl⟩

theorem acceptEntries_answers (pf : Platform) (r : RaftConsensus)
    (request : AppendEntriesRequest) (entries : List RaftLogEntry)
    (blocks : HashMap BlockHash BlockFile) :
    Answers pf r request (r.acceptEntries pf request entries blocks)
      (r.acceptanceOf pf request entries blocks) := by
  by_cases hprev : r.termAt request.prevLogIndex ≠ some request.prevLogTerm
  · simp only [acceptanceOf, acceptEntries, appendEntries, if_pos hprev]
    exact Or.inr ⟨_, _, rfl⟩
  by_cases hcontiguous : (!entriesAreContiguousAfter request.prevLogIndex entries) = true
  · simp only [acceptanceOf, acceptEntries, appendEntries, if_neg hprev, if_pos hcontiguous]
    exact Or.inr ⟨_, _, rfl⟩
  rcases hmerge : mergeEntries r.commitIndex r.log [] entries with ⟨log, _ | discarded⟩
  · simp only [acceptanceOf, acceptEntries, appendEntries, if_neg hprev, if_neg hcontiguous, hmerge]
    exact Or.inr ⟨_, _, rfl⟩
  rw [acceptEntries_merged hprev hcontiguous hmerge blocks,
    acceptanceOf_merged hprev hcontiguous hmerge blocks]
  generalize r.acceptedAs request entries blocks log discarded = a
  by_cases hneeds : r.needsSave request entries a = true
  · simp only [hneeds, if_true, true_and, persistThen, persistLog]
    have hmerged : (r.merged a).raftLogStore.save pf (r.merged a).log (r.merged a).commitIndex =
        r.raftLogStore.save pf a.log a.commitIndex := rfl
    rw [hmerged]
    rcases hresult : r.raftLogStore.save pf a.log a.commitIndex with ⟨store, e | _⟩
    · exact Or.inl ⟨e, rfl⟩
    · exact ⟨⟨_, _, rfl⟩, rfl, rfl, rfl, Or.inr (by rw [hresult])⟩
  · simp only [hneeds]
    exact ⟨⟨_, _, rfl⟩, rfl, rfl, rfl, Or.inl rfl⟩

/-- `handle_append_entries` answers as its acceptance says. -/
theorem handleAppendEntries_answers (pf : Platform) (r : RaftConsensus)
    (request : AppendEntriesRequest) (draw : Nat) :
    Answers pf r request (r.handleAppendEntries pf request draw)
      (r.acceptance pf request draw) := by
  obtain ⟨hlog, hcommit, hpending, hstore⟩ := r.receiveAppendEntriesAt_keeps request.term
    request.leaderId request.from request.now draw
  unfold acceptance handleAppendEntries
  rcases hreceive : r.receiveAppendEntriesAt request.term request.leaderId request.from request.now
    draw with ⟨r', _ | _⟩
  · exact Or.inr ⟨_, _, rfl⟩
  rw [hreceive] at hlog hcommit hpending hstore
  dsimp only at hlog hcommit hpending hstore
  simp only [Bool.true_eq_false, if_false]
  rcases hvalid : validateReplicatedEntries pf request.entries with e | ⟨entries, blocks⟩
  · exact Or.inr ⟨_, _, rfl⟩
  -- Nothing the acceptance looks at was changed by hearing from the leader.
  have hsame : r.acceptanceOf pf request entries blocks =
      r'.acceptanceOf pf request entries blocks := by
    unfold acceptanceOf acceptedAs termAt
    rw [hlog, hcommit, hstore]
  have h := acceptEntries_answers pf r' request entries blocks
  simp only [hsame]
  cases haccepted : r'.acceptanceOf pf request entries blocks with
  | none =>
      rw [haccepted] at h
      exact h
  | some a =>
      rw [haccepted] at h
      simp only [Answers, hpending, hstore] at h
      exact h

/-- `handle_append_entries` on a request whose entries are merged: the state moves on
    whether or not the log can be saved. -/
theorem handleAppendEntries_of_merges {pf : Platform} {r : RaftConsensus}
    {request : AppendEntriesRequest} {draw : Nat} {a : Accepted}
    (h : r.Merges pf request draw a) :
    (r.handleAppendEntries pf request draw).1.state =
        .raft .follower request.term (some request.leaderId) a.commitIndex (lastIndexOf a.log) ∧
      (r.acceptance pf request draw = some a ∨
        ∃ e, (r.handleAppendEntries pf request draw).2 = .error e) := by
  obtain ⟨hheard, entries, blocks, log, discarded, hvalid, hprev, hcontiguous, hmerge, rfl⟩ := h
  obtain ⟨hrole, hterm, hleader⟩ := receiveAppendEntriesAt_follows hheard
  obtain ⟨hlog, hcommit, -, hstore⟩ := r.receiveAppendEntriesAt_keeps request.term
    request.leaderId request.from request.now draw
  unfold acceptance handleAppendEntries
  rcases hreceive : r.receiveAppendEntriesAt request.term request.leaderId request.from request.now
    draw with ⟨r', heard⟩
  rw [hreceive] at hheard hrole hterm hleader hlog hcommit hstore
  dsimp only at hheard hrole hterm hleader hlog hcommit hstore
  subst hheard
  simp only [hvalid, Bool.true_eq_false, if_false]
  have hprev' : ¬r'.termAt request.prevLogIndex ≠ some request.prevLogTerm := by
    rw [termAt, hlog]
    exact not_not.mpr hprev
  have hcontiguous' : ¬(!entriesAreContiguousAfter request.prevLogIndex entries) = true := by
    simp [hcontiguous]
  have hmerge' : mergeEntries r'.commitIndex r'.log [] entries = (log, some discarded) := by
    rw [hcommit, hlog]
    exact hmerge
  have haccepted : r'.acceptedAs request entries blocks log discarded =
      r.acceptedAs request entries blocks log discarded := by
    unfold acceptedAs
    rw [hcommit]
  rw [acceptEntries_merged hprev' hcontiguous' hmerge' blocks, haccepted,
    acceptanceOf_merged (not_not.mpr hprev) hcontiguous' hmerge blocks]
  generalize r.acceptedAs request entries blocks log discarded = a
  have hneeds : r'.needsSave request entries a = r.needsSave request entries a := by
    unfold needsSave
    rw [hcommit]
  have hstate : (r'.merged a).state =
      .raft .follower request.term (some request.leaderId) a.commitIndex (lastIndexOf a.log) := by
    rw [state, merged, hrole, hterm, hleader]
    rfl
  have hsave : (r'.merged a).raftLogStore.save pf (r'.merged a).log (r'.merged a).commitIndex =
      r.raftLogStore.save pf a.log a.commitIndex := by
    rw [← hstore]
    rfl
  rw [hneeds]
  by_cases hneeded : r.needsSave request entries a = true
  · rw [if_pos hneeded, persistThen_fst, persistThen_snd, hsave]
    refine ⟨hstate, ?_⟩
    cases (r.raftLogStore.save pf a.log a.commitIndex).2 with
    | error e => exact Or.inr ⟨e, rfl⟩
    | ok _ => exact Or.inl (if_neg fun h => h.2 rfl)
  · rw [if_neg hneeded]
    exact ⟨hstate, Or.inl (if_neg fun h => hneeded h.1)⟩

/-- A request whose entries are not merged is refused. -/
theorem handleAppendEntries_of_not_merges {pf : Platform} {r : RaftConsensus}
    {request : AppendEntriesRequest} {draw : Nat} (h : ∀ a, ¬r.Merges pf request draw a) :
    ∃ term matchIndex, (r.handleAppendEntries pf request draw).2 =
      .ok [.send request.from (.raftAppendEntriesResponse term false matchIndex)] := by
  obtain ⟨hlog, hcommit, -, -⟩ := r.receiveAppendEntriesAt_keeps request.term
    request.leaderId request.from request.now draw
  unfold Merges at h
  unfold handleAppendEntries
  rcases hreceive : r.receiveAppendEntriesAt request.term request.leaderId request.from request.now
    draw with ⟨r', _ | _⟩
  · exact ⟨_, _, rfl⟩
  rw [hreceive] at h hlog hcommit
  dsimp only at h hlog hcommit ⊢
  rcases hvalid : validateReplicatedEntries pf request.entries with e | ⟨entries, blocks⟩
  · exact ⟨_, _, rfl⟩
  dsimp only
  by_cases hprev : r'.termAt request.prevLogIndex ≠ some request.prevLogTerm
  · simp only [acceptEntries, appendEntries, if_pos hprev]
    exact ⟨_, _, rfl⟩
  by_cases hcontiguous : (!entriesAreContiguousAfter request.prevLogIndex entries) = true
  · simp only [acceptEntries, appendEntries, if_neg hprev, if_pos hcontiguous]
    exact ⟨_, _, rfl⟩
  rcases hmerge : mergeEntries r'.commitIndex r'.log [] entries with ⟨log, _ | discarded⟩
  · simp only [acceptEntries, appendEntries, if_neg hprev, if_neg hcontiguous, hmerge]
    exact ⟨_, _, rfl⟩
  rw [termAt, hlog, not_not] at hprev
  rw [hcommit, hlog] at hmerge
  exact absurd ⟨rfl, entries, blocks, log, discarded, hvalid, hprev, by simpa using hcontiguous,
    hmerge, rfl⟩ (h _)

end RaftConsensus
end Rustchain
