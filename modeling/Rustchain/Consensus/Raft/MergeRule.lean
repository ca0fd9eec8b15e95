/-
  Rustchain.Consensus.Raft.MergeRule

  `append_entries` against the rule it implements.

  The rule looks at the log and the request as a whole: the request is refused if
  the entry before it is missing, if it is not numbered from there on, or if its
  first conflict with the log is committed; otherwise the log up to the request is
  followed by the request, an entry that the log has staying as it is stored, and
  by the rest of the log if nothing conflicts (`mergedLog`).  The loop, which
  looks up, cuts and appends entry by entry, computes that, and computes nothing
  new when the same request comes again.
-/

import Rustchain.Consensus.Raft.Record

namespace Rustchain

-- ============================================================================
-- The rule
-- ============================================================================

/-- The first entry of the request whose term differs from that of the entry the log
    has at its index. -/
def firstConflicting (log entries : List RaftLogEntry) : Option RaftLogEntry :=
  entries.find? fun entry =>
    (entryOf log entry.index).any fun existing => existing.term ≠ entry.term

/-- The entries of a request over the stored ones from the same index on: as long as
    the terms agree the stored entry stays. -/
def overlay : List RaftLogEntry → List RaftLogEntry → List RaftLogEntry
  | existing :: stored, entry :: entries =>
    if existing.term = entry.term then existing :: overlay stored entries else entry :: entries
  | _, entries => entries

/-- The log that a request leaves. -/
def mergedLog (log : List RaftLogEntry) (prevLogIndex : Nat) (entries : List RaftLogEntry) :
    List RaftLogEntry :=
  log.take prevLogIndex ++ overlay (log.drop prevLogIndex) entries ++
    if firstConflicting log entries = none then log.drop (prevLogIndex + entries.length) else []

/-- The entries of the log that a request replaces. -/
def discardedEntries (log entries : List RaftLogEntry) : List RaftLogEntry :=
  match firstConflicting log entries with
  | none => []
  | some entry => log.drop (entry.index - 1)

/-- The block hashes of the `RollbackBlock` effects of a batch, in order. -/
def rollbackHashes (effects : List ConsensusEffect) : List BlockHash :=
  effects.filterMap fun
    | .rollbackBlock blockHash => some blockHash
    | _ => none

-- ============================================================================
-- The rule by positions
-- ============================================================================

@[simp] theorem overlay_nil_left (entries : List RaftLogEntry) : overlay [] entries = entries := by
  cases entries <;> rfl

@[simp] theorem overlay_nil_right (stored : List RaftLogEntry) : overlay stored [] = [] := by
  cases stored <;> rfl

@[simp] theorem length_overlay (stored entries : List RaftLogEntry) :
    (overlay stored entries).length = entries.length := by
  induction stored generalizing entries with
  | nil => rw [overlay_nil_left]
  | cons existing stored ih =>
      cases entries with
      | nil => rfl
      | cons entry entries =>
          rw [overlay]
          split
          · rw [List.length_cons, List.length_cons, ih]
          · rfl

theorem overlay_of_firstConflict_none {stored entries : List RaftLogEntry}
    (h : firstConflict stored entries = none) :
    overlay stored entries = stored.take entries.length ++ entries.drop stored.length := by
  induction stored generalizing entries with
  | nil => simp
  | cons existing stored ih =>
      cases entries with
      | nil => simp
      | cons entry entries =>
          rw [firstConflict] at h
          split at h
          · cases h
          · rename_i hterm
            rw [overlay, if_pos (not_not.mp hterm), ih (Option.map_eq_none_iff.mp h)]
            rfl

theorem overlay_of_firstConflict_some {stored entries : List RaftLogEntry} {k : Nat}
    (h : firstConflict stored entries = some k) :
    overlay stored entries = stored.take k ++ entries.drop k := by
  induction stored generalizing entries k with
  | nil => simp at h
  | cons existing stored ih =>
      cases entries with
      | nil => simp at h
      | cons entry entries =>
          rw [firstConflict] at h
          split at h
          · rename_i hterm
            cases h
            rw [overlay, if_neg hterm]
            rfl
          · rename_i hterm
            obtain ⟨k', hk', rfl⟩ := Option.map_eq_some_iff.mp h
            rw [overlay, if_pos (not_not.mp hterm), ih hk']
            rfl

/-- What a request left has no conflict with the request. -/
theorem firstConflict_overlay (stored entries rest : List RaftLogEntry) :
    firstConflict (overlay stored entries ++ rest) entries = none := by
  have hself : ∀ l : List RaftLogEntry, firstConflict (l ++ rest) l = none := by
    intro l
    induction l with
    | nil => simp
    | cons entry l ih =>
        rw [List.cons_append, firstConflict, if_neg (not_not.mpr rfl), ih]
        rfl
  induction stored generalizing entries with
  | nil =>
      rw [overlay_nil_left]
      exact hself entries
  | cons existing stored ih =>
      cases entries with
      | nil => simp
      | cons entry entries =>
          rw [overlay]
          split
          · rename_i hterm
            rw [List.cons_append, firstConflict, if_neg (not_not.mpr hterm), ih]
            rfl
          · exact hself (entry :: entries)

/-- Looking entries up by index finds the conflict that comparing position by
    position finds. -/
theorem firstConflicting_eq {log entries : List RaftLogEntry} {prev : Nat}
    (hlog : Contiguous 0 log) (hentries : Contiguous prev entries) :
    firstConflicting log entries =
      (firstConflict (log.drop prev) entries).bind fun k => entries[k]? := by
  induction entries generalizing prev with
  | nil => simp [firstConflicting]
  | cons entry entries ih =>
      obtain ⟨hindex, hrest⟩ := contiguous_cons.mp hentries
      have hlookup : entryOf log entry.index = log[prev]? := by
        rw [hindex]
        exact hlog.entryOf_succ prev
      have hnext := ih hrest
      unfold firstConflicting at hnext ⊢
      rw [List.find?_cons, hlookup]
      cases hget : log[prev]? with
      | none =>
          have hle := List.getElem?_eq_none_iff.mp hget
          rw [List.drop_eq_nil_of_le (by omega)] at hnext ⊢
          simpa using hnext
      | some existing =>
          obtain ⟨hlt, heq⟩ := List.getElem?_eq_some_iff.mp hget
          rw [List.drop_eq_getElem_cons hlt, heq, firstConflict]
          by_cases hterm : existing.term ≠ entry.term
          · simp [hterm]
          · simp only [Option.any_some, hterm, decide_false, if_false, hnext]
            cases firstConflict (log.drop (prev + 1)) entries <;> rfl

/-- No conflict: the log and what the request has beyond it. -/
theorem mergedLog_of_none {log entries : List RaftLogEntry} {prev : Nat}
    (hlog : Contiguous 0 log) (hentries : Contiguous prev entries) (hprev : prev ≤ log.length)
    (h : firstConflict (log.drop prev) entries = none) :
    mergedLog log prev entries = log ++ entries.drop (log.length - prev) := by
  have hnone : firstConflicting log entries = none := by
    rw [firstConflicting_eq hlog hentries, h]
    rfl
  rw [mergedLog, if_pos hnone, overlay_of_firstConflict_none h, List.length_drop]
  rcases Nat.le_total (prev + entries.length) log.length with hle | hle
  · have hbeyond : entries.drop (log.length - prev) = [] := List.drop_eq_nil_of_le (by omega)
    rw [hbeyond, List.append_nil, List.append_nil, ← List.drop_drop, List.append_assoc,
      List.take_append_drop, List.take_append_drop]
  · have hrest : log.drop (prev + entries.length) = [] := List.drop_eq_nil_of_le hle
    have hstored : (log.drop prev).take entries.length = log.drop prev :=
      List.take_of_length_le (by rw [List.length_drop]; omega)
    rw [hrest, hstored, List.append_nil, ← List.append_assoc, List.take_append_drop]

/-- A conflict: the log is cut there and the rest of the request appended. -/
theorem mergedLog_of_some {log entries : List RaftLogEntry} {prev k : Nat}
    (hlog : Contiguous 0 log) (hentries : Contiguous prev entries)
    (h : firstConflict (log.drop prev) entries = some k) :
    mergedLog log prev entries = log.take (prev + k) ++ entries.drop k ∧
      discardedEntries log entries = log.drop (prev + k) := by
  obtain ⟨⟨existing, entry, -, hentry, -⟩, -⟩ := firstConflict_eq_some h
  have hsome : firstConflicting log entries = some entry := by
    rw [firstConflicting_eq hlog hentries, h]
    exact hentry
  refine ⟨?_, ?_⟩
  · rw [mergedLog, hsome, if_neg (by simp), overlay_of_firstConflict_some h, List.append_nil,
      ← List.append_assoc, List.take_add]
  · have hindex := hentries k entry hentry
    simp only [discardedEntries, hsome]
    congr 1
    omega

/-- The loop computes the rule. -/
theorem mergeEntries_eq_mergedLog (commitIndex : Nat) {log entries : List RaftLogEntry}
    {prev : Nat} (hlog : Contiguous 0 log) (hentries : Contiguous prev entries)
    (hprev : prev ≤ log.length) :
    ((∃ entry, firstConflicting log entries = some entry ∧ entry.index ≤ commitIndex) ∧
        mergeEntries commitIndex log [] entries = (log, none)) ∨
      ((¬ ∃ entry, firstConflicting log entries = some entry ∧ entry.index ≤ commitIndex) ∧
        mergeEntries commitIndex log [] entries =
          (mergedLog log prev entries, some (blockHashes (discardedEntries log entries)))) := by
  rw [mergeEntries_eq commitIndex hlog hentries hprev]
  cases hconflict : firstConflict (log.drop prev) entries with
  | none =>
      have hnone : firstConflicting log entries = none := by
        rw [firstConflicting_eq hlog hentries, hconflict]
        rfl
      refine Or.inr ⟨?_, ?_⟩
      · rintro ⟨entry, hentry, -⟩
        rw [hnone] at hentry
        cases hentry
      · rw [mergedLog_of_none hlog hentries hprev hconflict, discardedEntries, hnone]
        rfl
  | some k =>
      obtain ⟨⟨existing, entry, -, hentry, -⟩, -⟩ := firstConflict_eq_some hconflict
      have hindex := hentries k entry hentry
      have hsome : firstConflicting log entries = some entry := by
        rw [firstConflicting_eq hlog hentries, hconflict]
        exact hentry
      obtain ⟨hmerged, hdiscarded⟩ := mergedLog_of_some hlog hentries hconflict
      by_cases hcommitted : prev + k + 1 ≤ commitIndex
      · refine Or.inl ⟨⟨entry, hsome, by omega⟩, ?_⟩
        simp only [if_pos hcommitted]
      · refine Or.inr ⟨?_, ?_⟩
        · rintro ⟨other, hother, hle⟩
          rw [hsome] at hother
          cases hother
          omega
        · simp only [if_neg hcommitted, hmerged, hdiscarded, List.nil_append]

/-- The merged log has the request: merging it again changes nothing. -/
theorem mergeEntries_mergedLog (commitIndex : Nat) {log entries : List RaftLogEntry} {prev : Nat}
    (hlog : Contiguous 0 (mergedLog log prev entries)) (hentries : Contiguous prev entries)
    (hprev : prev ≤ log.length) :
    mergeEntries commitIndex (mergedLog log prev entries) [] entries =
      (mergedLog log prev entries, some []) := by
  have hlength : prev + entries.length ≤ (mergedLog log prev entries).length := by
    simp only [mergedLog, List.length_append, List.length_take, length_overlay]
    omega
  have hdrop : firstConflict ((mergedLog log prev entries).drop prev) entries = none := by
    have htake : (log.take prev).length = prev := by
      rw [List.length_take]
      omega
    rw [mergedLog, List.append_assoc, List.drop_append_of_le_length (by omega),
      List.drop_eq_nil_of_le (by omega), List.nil_append]
    exact firstConflict_overlay _ _ _
  rw [mergeEntries_eq commitIndex hlog hentries (by omega), hdrop]
  simp only
  rw [List.drop_eq_nil_of_le (by omega), List.append_nil]

theorem getElem?_mergedLog {log entries : List RaftLogEntry} {prev k : Nat}
    (hprev : prev ≤ log.length) (hk : k < prev) : (mergedLog log prev entries)[k]? = log[k]? := by
  have htake : (log.take prev).length = prev := by
    rw [List.length_take]
    omega
  rw [mergedLog, List.append_assoc, List.getElem?_append_left (by omega),
    List.getElem?_take_of_lt hk]

-- ============================================================================
-- `append_entries` and the rule
-- ============================================================================

@[simp] theorem rollbackHashes_append (x y : List ConsensusEffect) :
    rollbackHashes (x ++ y) = rollbackHashes x ++ rollbackHashes y := List.filterMap_append

theorem rollbackHashes_map_rollbackBlock (hashes : List BlockHash) :
    rollbackHashes (hashes.map .rollbackBlock) = hashes := by
  induction hashes with
  | nil => rfl
  | cons blockHash hashes ih =>
      show blockHash :: rollbackHashes (hashes.map .rollbackBlock) = blockHash :: hashes
      rw [ih]

theorem rollbackHashes_map_commitBlock (hashes : List BlockHash) :
    rollbackHashes (hashes.map .commitBlock) = [] := by
  induction hashes with
  | nil => rfl
  | cons blockHash hashes ih => exact ih

namespace RaftConsensus

/-- What the rule refuses is refused. -/
theorem appendEntries_snd_eq_none_iff {r : RaftConsensus} (hlog : Contiguous 0 r.log)
    (prevLogIndex prevLogTerm : Nat) (entries : List RaftLogEntry) (leaderCommit : Nat) :
    (r.appendEntries prevLogIndex prevLogTerm entries leaderCommit).2 = none ↔
      termOf r.log prevLogIndex ≠ some prevLogTerm ∨ ¬ Contiguous prevLogIndex entries ∨
        ∃ entry, firstConflicting r.log entries = some entry ∧ entry.index ≤ r.commitIndex := by
  unfold appendEntries
  by_cases hprev : r.termAt prevLogIndex ≠ some prevLogTerm
  · rw [if_pos hprev]
    exact ⟨fun _ => Or.inl hprev, fun _ => rfl⟩
  rw [if_neg hprev]
  rw [not_not] at hprev
  by_cases hcontiguous : entriesAreContiguousAfter prevLogIndex entries = true
  · have hentries := entriesAreContiguousAfter_iff.mp hcontiguous
    rw [if_neg (by simpa using hcontiguous)]
    rcases mergeEntries_eq_mergedLog r.commitIndex hlog hentries
        (hlog.le_length_of_termOf hprev) with ⟨hconflict, hmerge⟩ | ⟨hconflict, hmerge⟩
    · rw [hmerge]
      exact ⟨fun _ => Or.inr (Or.inr hconflict), fun _ => rfl⟩
    · rw [hmerge]
      refine ⟨fun h => absurd h (by simp), ?_⟩
      rintro (h | h | h)
      · exact absurd hprev h
      · exact absurd hentries h
      · exact absurd h hconflict
  · have hentries : ¬ Contiguous prevLogIndex entries :=
      fun h => hcontiguous (entriesAreContiguousAfter_iff.mpr h)
    rw [if_pos (by simpa using hcontiguous)]
    exact ⟨fun _ => Or.inr (Or.inl hentries), fun _ => rfl⟩

/-- A request that is accepted leaves the merged log, and is accepted again with
    nothing left to do. -/
theorem appendEntries_of_some {r r' : RaftConsensus} {effects : List ConsensusEffect}
    (hlog : Contiguous 0 r.log) {prevLogIndex prevLogTerm : Nat} {entries : List RaftLogEntry}
    {leaderCommit : Nat}
    (h : r.appendEntries prevLogIndex prevLogTerm entries leaderCommit = (r', some effects)) :
    r'.log = mergedLog r.log prevLogIndex entries ∧
      rollbackHashes effects = blockHashes (discardedEntries r.log entries) ∧
      ∃ effects', r'.appendEntries prevLogIndex prevLogTerm entries leaderCommit =
        (r', some effects') := by
  rcases appendEntries_cases hlog prevLogIndex prevLogTerm entries leaderCommit with
    hrefused | ⟨log, discarded, r'', effects', hprev, hentries, hmerge, hr'', heffects, haccepted⟩
  · rw [hrefused] at h
    cases h
  rw [haccepted] at h
  cases h
  have hle := hlog.le_length_of_termOf hprev
  have hlog' := (termOf_mergeEntries hlog hentries hprev hmerge).1
  rcases mergeEntries_eq_mergedLog r.commitIndex hlog hentries hle with ⟨-, hnone⟩ | ⟨-, hsome⟩
  · rw [hnone] at hmerge
    cases hmerge
  rw [hsome] at hmerge
  cases hmerge
  refine ⟨by rw [hr''], ?_, ?_⟩
  · rw [heffects, rollbackHashes_append, rollbackHashes_append, rollbackHashes_map_rollbackBlock,
      commitEffects, rollbackHashes_map_commitBlock, List.append_nil]
    split <;> exact List.append_nil _
  · have hprev' : r'.termAt prevLogIndex = some prevLogTerm := by
      show termOf r'.log prevLogIndex = some prevLogTerm
      rw [hr'', ← hprev]
      cases prevLogIndex with
      | zero => rfl
      | succ k => rw [hlog'.termOf_succ, hlog.termOf_succ, getElem?_mergedLog hle (by omega)]
    have hmerge' : mergeEntries r'.commitIndex r'.log [] entries = (r'.log, some []) := by
      rw [hr'']
      exact mergeEntries_mergedLog _ hlog' hentries hle
    have hcommit : max r'.commitIndex (min leaderCommit (lastIndexOf r'.log)) = r'.commitIndex := by
      rw [hr'']
      exact Nat.max_eq_left (Nat.le_max_right _ _)
    unfold appendEntries
    rw [if_neg (by rw [hprev']; simp),
      if_neg (by simpa using entriesAreContiguousAfter_iff.mpr hentries), hmerge']
    simp only [hcommit]
    exact ⟨_, rfl⟩

/-- `append_entries` merges by the rule: it refuses exactly the requests that the rule
    refuses, leaving log and commit index alone; it leaves the merged log otherwise and
    rolls back the blocks of the entries it replaced; and the same request delivered
    again is accepted without changing anything. -/
theorem appendEntries_mergeRule {r : RaftConsensus} (hlog : Contiguous 0 r.log)
    (prevLogIndex prevLogTerm : Nat) (entries : List RaftLogEntry) (leaderCommit : Nat) :
    let outcome := r.appendEntries prevLogIndex prevLogTerm entries leaderCommit
    (outcome.2 = none ↔
      termOf r.log prevLogIndex ≠ some prevLogTerm ∨ ¬ Contiguous prevLogIndex entries ∨
        ∃ entry, firstConflicting r.log entries = some entry ∧ entry.index ≤ r.commitIndex) ∧
    (outcome.2 = none →
      outcome.1.log = r.log ∧ outcome.1.commitIndex = r.commitIndex) ∧
    ∀ effects, outcome.2 = some effects →
      outcome.1.log = mergedLog r.log prevLogIndex entries ∧
      rollbackHashes effects = blockHashes (discardedEntries r.log entries) ∧
      ∃ effects', outcome.1.appendEntries prevLogIndex prevLogTerm entries leaderCommit =
        (outcome.1, some effects') := by
  intro outcome
  refine ⟨appendEntries_snd_eq_none_iff hlog _ _ _ _, ?_, ?_⟩
  · intro hnone
    rcases appendEntries_cases hlog prevLogIndex prevLogTerm entries leaderCommit with
      hrefused | ⟨log, discarded, r', effects, -, -, -, -, -, haccepted⟩
    · have hr : outcome = (r, none) := hrefused
      rw [hr]
      exact ⟨rfl, rfl⟩
    · have hr : outcome = (r', some effects) := haccepted
      rw [hr] at hnone
      cases hnone
  · intro effects hsome
    exact appendEntries_of_some hlog (Prod.ext rfl hsome)

/-- A follower whose second and third entry are replaced by those of a newer term. -/
theorem appendEntries_mergeRule_conflict :
    let entry := fun term index blockHash => (⟨term, index, blockHash⟩ : RaftLogEntry)
    let r := newWithLog 1 [entry 1 1 10, entry 1 2 20, entry 1 3 30] 1 (.inMemory .new) 0 0
    Contiguous 0 r.log ∧
      mergedLog r.log 1 [entry 2 2 40] = [entry 1 1 10, entry 2 2 40] ∧
      ∃ effects, (r.appendEntries 1 1 [entry 2 2 40] 2).2 = some effects ∧
        (r.appendEntries 1 1 [entry 2 2 40] 2).1.log = [entry 1 1 10, entry 2 2 40] ∧
        rollbackHashes effects = [20, 30] := by
  intro entry r
  have hlog : Contiguous 0 r.log := entriesAreContiguousAfter_iff.mp (by decide)
  obtain ⟨-, -, hsome⟩ := appendEntries_mergeRule hlog 1 1 [entry 2 2 40] 2
  obtain ⟨hmerged, hhashes, -⟩ := hsome _ rfl
  exact ⟨hlog, by decide, _, rfl, hmerged.trans (by decide), hhashes.trans (by decide)⟩

end RaftConsensus

end Rustchain
