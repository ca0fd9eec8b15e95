/-
  Rustchain.Consensus.Raft.Counters

  The `u64` arithmetic of the Raft handlers.

  `sums` lists the exact values of the additions a handler call evaluates, in
  order and as far as the call gets: the next term of an election, the index of
  the next entry, and the indexes that a request's entries should have.  They are
  what the handlers go by: the indexes an event adds to the log are its last sums
  (`handle_indexes`), and the term of an election is its first (`onTick_term`).

  An index is bounded by what a `Vec` can hold, since it is compared with the log
  before anything is added to it.  A term is not: it is adopted from any message,
  and the election after the largest one overflows.
-/

import Rustchain.Consensus.Raft.Terms

namespace Rustchain

-- ============================================================================
-- The sums
-- ============================================================================

/-- The sums of `entries_are_contiguous_after`, from the entry at `offset` on.  The
    first entry with another index ends the check. -/
def contiguitySums (prevLogIndex offset : Nat) : List RaftLogEntry → List Nat
  | [] => []
  | entry :: entries =>
    (prevLogIndex + offset + 1) ::
      if entry.index = prevLogIndex + offset + 1 then
        contiguitySums prevLogIndex (offset + 1) entries
      else []

/-- The sums of the loop of `append_entries`: one for every entry that the log does
    not have when it is reached. -/
def mergeSums (commitIndex : Nat) : List RaftLogEntry → List RaftLogEntry → List Nat
  | _, [] => []
  | log, entry :: entries =>
    match entryOf log entry.index with
    | some existing =>
      if existing.term ≠ entry.term then
        if entry.index ≤ commitIndex then []
        else mergeSums commitIndex (log.take (entry.index - 1) ++ [entry]) entries
      else mergeSums commitIndex log entries
    | none =>
      (lastIndexOf log + 1) ::
        if entry.index = lastIndexOf log + 1 then mergeSums commitIndex (log ++ [entry]) entries
        else mergeSums commitIndex log entries

namespace RaftConsensus

def appendEntriesSums (r : RaftConsensus) (prevLogIndex prevLogTerm : Nat)
    (entries : List RaftLogEntry) : List Nat :=
  if r.termAt prevLogIndex ≠ some prevLogTerm then []
  else
    contiguitySums prevLogIndex 0 entries ++
      if !entriesAreContiguousAfter prevLogIndex entries then []
      else mergeSums r.commitIndex r.log entries

def handleAppendEntriesSums (pf : Platform) (r : RaftConsensus) (request : AppendEntriesRequest)
    (draw : Nat) : List Nat :=
  match r.receiveAppendEntriesAt request.term request.leaderId request.from request.now draw with
  | (_, false) => []
  | (r, true) =>
    match validateReplicatedEntries pf request.entries with
    | .error _ => []
    | .ok (logEntries, _) =>
      r.appendEntriesSums request.prevLogIndex request.prevLogTerm logEntries

def onTickSums (r : RaftConsensus) (now : Instant) (knownPeers : List PeerId) : List Nat :=
  let r := r.updateParticipants knownPeers
  if r.role = .leader then []
  else if r.leaderTimedOut now then
    (r.currentTerm + 1) ::
      match r.startElectionAt now with
      | (_, false) => []
      | (r, true) => [r.lastLogIndex + 1]
  else []

def onBlockCreatedSums (r : RaftConsensus) : List Nat :=
  match r.role with
  | .leader =>
    match r.ensureNoUncommittedBlock with
    | .error _ => []
    | .ok () => [r.lastLogIndex + 1]
  | .follower | .candidate => []

def onRequestVoteResponseSums (r : RaftConsensus) (term : Nat) (voterId : PeerId)
    (voteGranted : Bool) : List Nat :=
  if r.role = .candidate then
    match r.receiveVote term voterId voteGranted with
    | (r, true) => [r.lastLogIndex + 1]
    | (_, false) => []
  else []

/-- The sums that handling an event evaluates. -/
def sums (pf : Platform) (r : RaftConsensus) : RaftEvent → List Nat
  | .tick now knownPeers => r.onTickSums now knownPeers
  | .receive src (.raftRequestVoteResponse term voteGranted) _ _ =>
    r.onRequestVoteResponseSums term src voteGranted
  | .receive src (.raftAppendEntries term leaderId prevLogIndex prevLogTerm entries leaderCommit)
      now draw =>
    r.handleAppendEntriesSums pf
      { term, leaderId, prevLogIndex, prevLogTerm, entries, leaderCommit, «from» := src, now } draw
  | .blockCreated _ => r.onBlockCreatedSums
  | _ => []

end RaftConsensus

/-- The log and the entries of a request are `Vec`s, which hold at most `isize::MAX`
    elements. -/
def RaftEvent.FitsVec (r : RaftConsensus) (event : RaftEvent) : Prop :=
  r.log.length < 2 ^ 63 ∧
    match event with
    | .receive _ (.raftAppendEntries _ _ _ _ entries _) _ _ => entries.length < 2 ^ 63
    | _ => True

-- ============================================================================
-- The sums make the counters
-- ============================================================================

/-- The indexes of a list of entries. -/
def indexes (entries : List RaftLogEntry) : List Nat := entries.map RaftLogEntry.index

theorem indexes_append (entries entries' : List RaftLogEntry) :
    indexes (entries ++ entries') = indexes entries ++ indexes entries' := List.map_append

theorem length_contiguitySums_le (prevLogIndex offset : Nat) (entries : List RaftLogEntry) :
    (contiguitySums prevLogIndex offset entries).length ≤ entries.length := by
  induction entries generalizing offset with
  | nil => exact Nat.le_refl 0
  | cons entry entries ih =>
      rw [contiguitySums]
      split
      · exact Nat.succ_le_succ (ih (offset + 1))
      · exact Nat.succ_le_succ (Nat.zero_le _)

theorem contiguitySums_eq_iff {prevLogIndex offset : Nat} {entries : List RaftLogEntry} :
    contiguitySums prevLogIndex offset entries = indexes entries ↔
      Contiguous (prevLogIndex + offset) entries := by
  induction entries generalizing offset with
  | nil => exact ⟨fun _ => Contiguous.nil _, fun _ => rfl⟩
  | cons entry entries ih =>
      rw [contiguous_cons, contiguitySums, indexes, List.map_cons, List.cons.injEq, eq_comm]
      refine and_congr_right fun hindex => ?_
      rw [if_pos hindex]
      exact ih

/-- The check compares the sums with the indexes of the entries. -/
theorem entriesAreContiguousAfter_iff_sums {prevLogIndex : Nat} {entries : List RaftLogEntry} :
    entriesAreContiguousAfter prevLogIndex entries = true ↔
      contiguitySums prevLogIndex 0 entries = indexes entries := by
  rw [entriesAreContiguousAfter_iff, contiguitySums_eq_iff, Nat.add_zero]

/-- Entries that continue the log get the indexes that the sums give. -/
theorem mergeSums_push (commitIndex : Nat) {log entries : List RaftLogEntry}
    (hlog : Contiguous 0 log) (hentries : Contiguous log.length entries) :
    mergeSums commitIndex log entries = indexes entries := by
  induction entries generalizing log with
  | nil => rfl
  | cons entry entries ih =>
      obtain ⟨hindex, hrest⟩ := contiguous_cons.mp hentries
      have hnone : entryOf log entry.index = none := by
        rw [hindex, hlog.entryOf_succ, List.getElem?_eq_none_iff]
      have hconcat : Contiguous 0 (log ++ [entry]) := hlog.concat (by omega)
      have hlength : (log ++ [entry]).length = log.length + 1 := List.length_append
      unfold mergeSums
      simp only [hnone, hlog.lastIndexOf, if_pos hindex]
      rw [ih hconcat (by rw [hlength]; exact hrest), ← hindex]
      rfl

/-- The loop keeps the indexes of the log, up to the entry that it replaces, and adds
    its sums to them. -/
theorem mergeEntries_indexes (commitIndex : Nat) {prev : Nat} {log entries : List RaftLogEntry}
    (hlog : Contiguous 0 log) (hentries : Contiguous prev entries) (hprev : prev ≤ log.length)
    (discarded : List BlockHash) :
    ∃ kept, kept <+: indexes log ∧
      indexes (mergeEntries commitIndex log discarded entries).1 =
        kept ++ mergeSums commitIndex log entries := by
  induction entries generalizing prev with
  | nil => exact ⟨indexes log, List.prefix_refl _, (List.append_nil _).symm⟩
  | cons entry entries ih =>
      obtain ⟨hindex, hrest⟩ := contiguous_cons.mp hentries
      rcases Nat.eq_or_lt_of_le hprev with heq | hlt
      · -- past the end of the log everything is added
        rw [heq] at hentries
        rw [mergeEntries_push commitIndex hlog hentries, mergeSums_push commitIndex hlog hentries]
        exact ⟨indexes log, List.prefix_refl _, indexes_append _ _⟩
      have hexisting : log[prev]? = some log[prev] := List.getElem?_eq_getElem hlt
      have hlookup : entryOf log entry.index = some log[prev] := by
        rw [hindex, hlog.entryOf_succ, hexisting]
      unfold mergeEntries mergeSums
      by_cases hterm : log[prev].term ≠ entry.term
      · by_cases hcommitted : entry.index ≤ commitIndex
        · simp only [hlookup, if_pos hterm, if_pos hcommitted]
          exact ⟨indexes log, List.prefix_refl _, (List.append_nil _).symm⟩
        · -- the entry has the index of the one that it replaces
          have htake : log.take (entry.index - 1) = log.take prev := by
            rw [hindex, Nat.add_sub_cancel]
          have hlength : (log.take prev ++ [entry]).length = prev + 1 := by
            rw [List.length_append, List.length_take, Nat.min_eq_left hprev]
            rfl
          have hcut : Contiguous 0 (log.take prev ++ [entry]) :=
            (hlog.initial (List.take_prefix _ _)).concat
              (by rw [List.length_take, Nat.min_eq_left hprev, Nat.zero_add]; exact hindex)
          have hsame : indexes (log.take prev ++ [entry]) = indexes (log.take (prev + 1)) := by
            have hold := hlog prev log[prev] hexisting
            rw [List.take_add_one, hexisting, indexes_append, indexes_append]
            show _ ++ [entry.index] = _ ++ [log[prev].index]
            rw [hindex, hold, Nat.zero_add]
          rw [← hlength] at hrest
          simp only [hlookup, if_pos hterm, if_neg hcommitted, htake]
          rw [mergeEntries_push commitIndex hcut hrest, mergeSums_push commitIndex hcut hrest]
          refine ⟨indexes (log.take prev ++ [entry]), ?_, indexes_append _ _⟩
          rw [hsame]
          exact (List.take_prefix _ _).map _
      · simp only [hlookup, if_neg hterm]
        exact ih hrest hlt

namespace RaftConsensus

variable {pf : Platform} {r : RaftConsensus}

/-- Of the sums of `append_entries`, the last ones are the indexes that come to the log. -/
theorem appendEntries_indexes (hlog : Contiguous 0 r.log) (prevLogIndex prevLogTerm : Nat)
    (entries : List RaftLogEntry) (leaderCommit : Nat) :
    ∃ kept, kept <+: indexes r.log ∧
      indexes (r.appendEntries prevLogIndex prevLogTerm entries leaderCommit).1.log =
        kept ++ (r.appendEntriesSums prevLogIndex prevLogTerm entries).drop entries.length := by
  have hunchanged : ∀ sums : List Nat, sums.length ≤ entries.length →
      ∃ kept, kept <+: indexes r.log ∧ indexes r.log = kept ++ sums.drop entries.length := by
    intro sums hlength
    rw [List.drop_eq_nil_of_le hlength]
    exact ⟨indexes r.log, List.prefix_refl _, (List.append_nil _).symm⟩
  unfold appendEntries appendEntriesSums
  by_cases hprev : r.termAt prevLogIndex ≠ some prevLogTerm
  · rw [if_pos hprev, if_pos hprev]
    exact hunchanged [] (Nat.zero_le _)
  rw [if_neg hprev, if_neg hprev]
  by_cases hcontiguous : entriesAreContiguousAfter prevLogIndex entries = true
  · have hchecked := entriesAreContiguousAfter_iff_sums.mp hcontiguous
    have hlength : (indexes entries).length = entries.length := List.length_map _
    obtain ⟨kept, hkept, heq⟩ := mergeEntries_indexes r.commitIndex hlog
      (entriesAreContiguousAfter_iff.mp hcontiguous) (hlog.le_length_of_termOf (not_not.mp hprev))
      []
    simp only [hcontiguous, Bool.not_true, Bool.false_eq_true, if_false, hchecked]
    rw [← hlength, List.drop_left]
    refine ⟨kept, hkept, ?_⟩
    rw [← heq]
    rcases mergeEntries r.commitIndex r.log [] entries with ⟨log, _ | discarded⟩ <;> rfl
  · simp only [hcontiguous, Bool.not_false, if_true, List.append_nil]
    exact hunchanged _ (length_contiguitySums_le _ _ _)

theorem acceptEntries_log (request : AppendEntriesRequest) (logEntries : List RaftLogEntry)
    (blocks : HashMap BlockHash BlockFile) :
    (r.acceptEntries pf request logEntries blocks).1.log =
      (r.appendEntries request.prevLogIndex request.prevLogTerm logEntries
        request.leaderCommit).1.log := by
  unfold acceptEntries
  rcases r.appendEntries request.prevLogIndex request.prevLogTerm logEntries
    request.leaderCommit with ⟨r', _ | effects⟩
  · rfl
  · simp only
    split
    · rw [persistThen_fst]
    · rfl

theorem handleAppendEntries_indexes (hlog : Contiguous 0 r.log) (request : AppendEntriesRequest)
    (draw : Nat) :
    ∃ kept, kept <+: indexes r.log ∧
      indexes (r.handleAppendEntries pf request draw).1.log =
        kept ++ (r.handleAppendEntriesSums pf request draw).drop request.entries.length := by
  have hkeeps := (r.receiveAppendEntriesAt_keeps request.term request.leaderId request.from
    request.now draw).1
  have hunchanged : ∃ kept, kept <+: indexes r.log ∧
      indexes r.log = kept ++ ([] : List Nat).drop request.entries.length :=
    ⟨indexes r.log, List.prefix_refl _, by rw [List.drop_nil, List.append_nil]⟩
  unfold handleAppendEntries handleAppendEntriesSums
  rcases hreceive : r.receiveAppendEntriesAt request.term request.leaderId request.from
    request.now draw with ⟨r', _ | _⟩
  · rw [hreceive] at hkeeps
    have hlog' : r'.log = r.log := hkeeps
    simp only [hlog']
    exact hunchanged
  · rw [hreceive] at hkeeps
    have hlog' : r'.log = r.log := hkeeps
    cases hvalid : validateReplicatedEntries pf request.entries with
    | error e =>
        simp only [hlog']
        exact hunchanged
    | ok result =>
        have hcount : result.1.length = request.entries.length := by
          rw [validateReplicatedEntries_entries hvalid, List.length_map]
        simp only
        rw [acceptEntries_log, ← hcount, ← hlog']
        exact appendEntries_indexes (hlog' ▸ hlog) _ _ _ _

theorem appendAsLeader_indexes (pf : Platform) (r : RaftConsensus) (entry : RaftLogEntry) :
    indexes (r.appendAsLeader pf entry).1.log = indexes r.log ++ [entry.index] := by
  unfold appendAsLeader
  simp only [persistThen_fst, advanceCommitIndex_fst]
  exact indexes_append _ _

theorem onRequestVoteResponse_indexes (term : Nat) (voterId : PeerId) (voteGranted : Bool) :
    indexes (r.onRequestVoteResponse pf term voterId voteGranted).1.log =
      indexes r.log ++ r.onRequestVoteResponseSums term voterId voteGranted := by
  have hsame := r.receiveVote_sameLog term voterId voteGranted
  unfold onRequestVoteResponse onRequestVoteResponseSums
  by_cases hrole : r.role = .candidate
  · rw [if_pos hrole, if_pos hrole]
    rcases hvote : r.receiveVote term voterId voteGranted with ⟨r', _ | _⟩
    · rw [hvote] at hsame
      exact (congrArg indexes hsame.log).trans (List.append_nil _).symm
    · rw [hvote] at hsame
      rw [← hsame.log]
      exact appendAsLeader_indexes pf r' _
  · rw [if_neg hrole, if_neg hrole, (r.stepDownOnNewerTerm_sameLog term).log, List.append_nil]

theorem onBlockCreated_indexes (blockHash : BlockHash) :
    indexes (r.onBlockCreated pf blockHash).1.log = indexes r.log ++ r.onBlockCreatedSums := by
  unfold onBlockCreated onBlockCreatedSums appendLocalBlock
  cases r.role with
  | leader =>
      cases r.ensureNoUncommittedBlock with
      | error e => exact (List.append_nil _).symm
      | ok _ => exact appendAsLeader_indexes pf r _
  | follower => exact (List.append_nil _).symm
  | candidate => exact (List.append_nil _).symm

/-- All sums of a tick but the first are indexes that come to the log. -/
theorem onTick_indexes (now : Instant) (knownPeers : List PeerId) :
    indexes (r.onTick pf now knownPeers).1.log =
      indexes r.log ++ (r.onTickSums now knownPeers).drop 1 := by
  have hsame := startElectionAt_sameLog (r.updateParticipants knownPeers) now
  have hknown : (r.updateParticipants knownPeers).log = r.log := rfl
  unfold onTick onTickSums
  by_cases hrole : (r.updateParticipants knownPeers).role = .leader
  · simp only [if_pos hrole, List.drop_nil, List.append_nil]
    split <;> rfl
  by_cases htimeout : (r.updateParticipants knownPeers).leaderTimedOut now = true
  · simp only [if_neg hrole, if_pos htimeout, List.drop_succ_cons, List.drop_zero]
    rcases helection : (r.updateParticipants knownPeers).startElectionAt now with ⟨r', _ | _⟩
    · rw [helection] at hsame
      exact (congrArg indexes hsame.log).trans (List.append_nil _).symm
    · rw [helection] at hsame
      have happend := appendAsLeader_indexes pf r' (.noop r'.currentTerm (r'.lastLogIndex + 1))
      rw [hsame.log, hknown] at happend
      simp only
      rcases hnoop : r'.appendLeaderNoop pf with ⟨r'', e | effects⟩ <;>
      · rw [appendLeaderNoop] at hnoop
        rw [hnoop] at happend
        exact happend
  · simp only [if_neg hrole, if_neg htimeout, List.drop_nil, List.append_nil]
    rfl

/-- The first sum of a tick is the term that the peer stands for. -/
theorem onTick_term (now : Instant) (knownPeers : List PeerId) :
    (r.onTick pf now knownPeers).1.currentTerm =
      ((r.onTickSums now knownPeers).head?.map (· % 2 ^ 64)).getD r.currentTerm := by
  by_cases hrole : (r.updateParticipants knownPeers).role = .leader
  · unfold onTick onTickSums
    simp only [if_pos hrole]
    split <;> rfl
  by_cases htimeout : (r.updateParticipants knownPeers).leaderTimedOut now = true
  · rw [(onTick_election pf r now knownPeers ⟨hrole, htimeout⟩).2.1]
    unfold onTickSums
    simp only [if_neg hrole, if_pos htimeout]
    rfl
  · unfold onTick onTickSums
    simp only [if_neg hrole, if_neg htimeout]
    rfl

theorem onAppendEntriesResponse_log (term : Nat) (src : PeerId) (success : Bool)
    (matchIndex : Nat) :
    (r.onAppendEntriesResponse pf term src success matchIndex).1.log = r.log := by
  unfold onAppendEntriesResponse
  split
  · unfold handleLeaderAppendEntriesResponse
    split
    · rfl
    split
    · rfl
    split
    · simp only
      split
      · rw [persistThen_fst, advanceCommitIndex_fst]
      · rw [advanceCommitIndex_fst]
    · simp only
      split <;> rfl
  · exact (r.stepDownOnNewerTerm_sameLog term).log

end RaftConsensus

/-- How many sums come before the indexes of the new entries: the term of an election,
    or the indexes that the entries of a request are compared with. -/
def RaftEvent.checkedSums : RaftEvent → Nat
  | .tick _ _ => 1
  | .receive _ (.raftAppendEntries _ _ _ _ entries _) _ _ => entries.length
  | _ => 0

/-- The log keeps its indexes, up to a cut, and gets the ones that the event's last sums
    give. -/
theorem RaftConsensus.handle_indexes (pf : Platform) {r : RaftConsensus}
    (hlog : Contiguous 0 r.log) (event : RaftEvent) :
    ∃ kept, kept <+: indexes r.log ∧
      indexes (r.handle pf event).1.log = kept ++ (r.sums pf event).drop event.checkedSums := by
  have hsame : ∀ {log : List RaftLogEntry}, log = r.log →
      ∃ kept, kept <+: indexes r.log ∧ indexes log = kept ++ [] := by
    rintro _ rfl
    exact ⟨indexes r.log, List.prefix_refl _, (List.append_nil _).symm⟩
  cases event with
  | tick now knownPeers => exact ⟨_, List.prefix_refl _, onTick_indexes now knownPeers⟩
  | receive src body now draw =>
      cases body with
      | raftRequestVote term candidateId lastLogIndex lastLogTerm =>
          exact hsame (requestVote_sameLog r term candidateId lastLogIndex lastLogTerm).log
      | raftRequestVoteResponse term voteGranted =>
          exact ⟨_, List.prefix_refl _, onRequestVoteResponse_indexes term src voteGranted⟩
      | raftAppendEntries term leaderId prevLogIndex prevLogTerm entries leaderCommit =>
          exact handleAppendEntries_indexes hlog _ draw
      | raftAppendEntriesResponse term success matchIndex =>
          exact hsame (onAppendEntriesResponse_log term src success matchIndex)
      | _ => exact hsame rfl
  | blockCreated blockHash => exact ⟨_, List.prefix_refl _, onBlockCreated_indexes blockHash⟩
  | _ => exact hsame rfl

-- ============================================================================
-- Bounds
-- ============================================================================

theorem contiguitySums_le {prevLogIndex offset : Nat} {entries : List RaftLogEntry} :
    ∀ sum ∈ contiguitySums prevLogIndex offset entries,
      sum ≤ prevLogIndex + offset + entries.length := by
  induction entries generalizing offset with
  | nil =>
      intro sum hmem
      cases hmem
  | cons entry entries ih =>
      intro sum hmem
      rw [contiguitySums] at hmem
      rw [List.length_cons]
      rcases List.mem_cons.mp hmem with rfl | hmem
      · omega
      · split at hmem
        · have := ih sum hmem
          omega
        · cases hmem

/-- The log never gets longer than it is and than the request reaches. -/
theorem mergeSums_le {commitIndex prev : Nat} (bound : Nat) {log entries : List RaftLogEntry}
    (hlog : Contiguous 0 log) (hentries : Contiguous prev entries) (hlength : log.length ≤ bound)
    (hreach : prev + entries.length ≤ bound) (hprev : prev ≤ log.length) :
    ∀ sum ∈ mergeSums commitIndex log entries, sum ≤ bound + 1 := by
  induction entries generalizing log prev with
  | nil =>
      intro sum hmem
      cases hmem
  | cons entry entries ih =>
      obtain ⟨hindex, hrest⟩ := contiguous_cons.mp hentries
      rw [List.length_cons] at hreach
      intro sum hmem
      unfold mergeSums at hmem
      cases hlookup : entryOf log entry.index with
      | some existing =>
          have hlt : prev < log.length := by
            rw [hindex, hlog.entryOf_succ] at hlookup
            exact (List.getElem?_eq_some_iff.mp hlookup).1
          simp only [hlookup] at hmem
          split at hmem
          · split at hmem
            · cases hmem
            · have htake : (log.take (entry.index - 1)).length = prev := by
                rw [List.length_take]
                omega
              refine ih ?_ hrest ?_ (by omega) ?_ sum hmem
              · refine (hlog.initial (List.take_prefix _ _)).append ?_
                rw [htake, Nat.zero_add]
                exact contiguous_cons.mpr ⟨hindex, Contiguous.nil _⟩
              · rw [List.length_append, htake, List.length_singleton]
                omega
              · rw [List.length_append, htake, List.length_singleton]
          · exact ih hlog hrest hlength (by omega) hlt sum hmem
      | none =>
          have hlength' : log.length = prev := by
            rw [hindex, hlog.entryOf_succ] at hlookup
            have := List.getElem?_eq_none_iff.mp hlookup
            omega
          have hlast : lastIndexOf log = prev := hlog.lastIndexOf.trans hlength'
          simp only [hlookup] at hmem
          rw [hlast, if_pos hindex] at hmem
          rcases List.mem_cons.mp hmem with rfl | hmem
          · omega
          · refine ih ?_ hrest ?_ (by omega) ?_ sum hmem
            · refine hlog.append ?_
              rw [hlength', Nat.zero_add]
              exact contiguous_cons.mpr ⟨hindex, Contiguous.nil _⟩
            · rw [List.length_append, List.length_singleton]
              omega
            · rw [List.length_append, List.length_singleton]
              omega

theorem SameLog.lastLogIndex_succ_lt {r r' : RaftConsensus} (h : SameLog r r')
    (hlog : Contiguous 0 r.log) (hlength : r.log.length < 2 ^ 63) :
    r'.lastLogIndex + 1 < 2 ^ 64 := by
  have hlast : r.lastLogIndex = r.log.length := hlog.lastIndexOf
  rw [h.lastLogIndex]
  omega

namespace RaftConsensus

variable {pf : Platform} {r : RaftConsensus}

theorem handleAppendEntriesSums_lt (hlog : Contiguous 0 r.log) {request : AppendEntriesRequest}
    {draw : Nat} (hlength : r.log.length < 2 ^ 63) (hentries : request.entries.length < 2 ^ 63) :
    ∀ sum ∈ r.handleAppendEntriesSums pf request draw, sum < 2 ^ 64 := by
  intro sum hmem
  have hkeeps := (r.receiveAppendEntriesAt_keeps request.term request.leaderId request.from
    request.now draw).1
  unfold handleAppendEntriesSums at hmem
  split at hmem
  · cases hmem
  rename_i r' hreceive
  rw [hreceive] at hkeeps
  have hlog' : r'.log = r.log := hkeeps
  split at hmem
  · cases hmem
  rename_i entries blocks hvalid
  have hcount : entries.length = request.entries.length := by
    rw [validateReplicatedEntries_entries hvalid, List.length_map]
  unfold appendEntriesSums termAt at hmem
  rw [hlog'] at hmem
  split at hmem
  · cases hmem
  rename_i hprev
  have hle := hlog.le_length_of_termOf (not_not.mp hprev)
  rcases List.mem_append.mp hmem with hmem | hmem
  · have := contiguitySums_le sum hmem
    omega
  · split at hmem
    · cases hmem
    · rename_i hcontiguous
      have hcontiguous : Contiguous request.prevLogIndex entries :=
        entriesAreContiguousAfter_iff.mp (by simpa using hcontiguous)
      have := mergeSums_le (r.log.length + entries.length) hlog hcontiguous
        (Nat.le_add_right _ _) (by omega) hle sum hmem
      omega

theorem onTickSums_lt_iff (hlog : Contiguous 0 r.log) (hlength : r.log.length < 2 ^ 63)
    (now : Instant) (knownPeers : List PeerId) :
    (∀ sum ∈ r.onTickSums now knownPeers, sum < 2 ^ 64) ↔
      ((RaftEvent.tick now knownPeers).StartsElection r → r.currentTerm < 2 ^ 64 - 1) := by
  have hknown : SameLog r (r.updateParticipants knownPeers) := ⟨rfl, rfl, rfl⟩
  have hsame := hknown.trans (startElectionAt_sameLog _ now)
  unfold onTickSums
  by_cases helection : (RaftEvent.tick now knownPeers).StartsElection r
  · have hrole : (r.updateParticipants knownPeers).role ≠ .leader := helection.1
    have htimeout : (r.updateParticipants knownPeers).leaderTimedOut now = true := helection.2
    simp only [if_neg hrole, if_pos htimeout]
    constructor
    · intro hsums _
      have hterm : r.currentTerm + 1 < 2 ^ 64 := hsums _ List.mem_cons_self
      omega
    · intro hterm sum hmem
      rcases List.mem_cons.mp hmem with rfl | hmem
      · show r.currentTerm + 1 < 2 ^ 64
        have := hterm helection
        omega
      · split at hmem
        · cases hmem
        · rename_i r' heq
          rw [heq] at hsame
          rw [List.mem_singleton.mp hmem]
          exact hsame.lastLogIndex_succ_lt hlog hlength
  · refine ⟨fun _ h => absurd h helection, ?_⟩
    intro _ sum hmem
    simp only at hmem
    split at hmem
    · cases hmem
    · rename_i hrole
      split at hmem
      · rename_i htimeout
        exact absurd ⟨hrole, htimeout⟩ helection
      · cases hmem

theorem onRequestVoteResponseSums_lt (hlog : Contiguous 0 r.log)
    (hlength : r.log.length < 2 ^ 63) (term : Nat) (voterId : PeerId) (voteGranted : Bool) :
    ∀ sum ∈ r.onRequestVoteResponseSums term voterId voteGranted, sum < 2 ^ 64 := by
  intro sum hmem
  have hsame := r.receiveVote_sameLog term voterId voteGranted
  unfold onRequestVoteResponseSums at hmem
  split at hmem
  · split at hmem
    · rename_i r' heq
      rw [heq] at hsame
      rw [List.mem_singleton.mp hmem]
      exact hsame.lastLogIndex_succ_lt hlog hlength
    · cases hmem
  · cases hmem

theorem onBlockCreatedSums_lt (hlog : Contiguous 0 r.log) (hlength : r.log.length < 2 ^ 63) :
    ∀ sum ∈ r.onBlockCreatedSums, sum < 2 ^ 64 := by
  intro sum hmem
  unfold onBlockCreatedSums at hmem
  split at hmem
  · split at hmem
    · cases hmem
    · rw [List.mem_singleton.mp hmem]
      exact (SameLog.refl r).lastLogIndex_succ_lt hlog hlength
  · cases hmem
  · cases hmem

/-- Only the term of an election can be too large. -/
theorem sums_lt_iff (hlog : Contiguous 0 r.log) {event : RaftEvent} (hfits : event.FitsVec r) :
    (∀ sum ∈ r.sums pf event, sum < 2 ^ 64) ↔
      (event.StartsElection r → r.currentTerm < 2 ^ 64 - 1) := by
  obtain ⟨hlength, hentries⟩ := hfits
  cases event with
  | tick now knownPeers => exact onTickSums_lt_iff hlog hlength now knownPeers
  | receive src body now draw =>
      cases body with
      | raftRequestVoteResponse term voteGranted =>
          exact ⟨fun _ h => h.elim,
            fun _ => onRequestVoteResponseSums_lt hlog hlength term src voteGranted⟩
      | raftAppendEntries term leaderId prevLogIndex prevLogTerm entries leaderCommit =>
          exact ⟨fun _ h => h.elim, fun _ => handleAppendEntriesSums_lt hlog hlength hentries⟩
      | _ => exact ⟨fun _ h => h.elim, fun _ sum hmem => by cases hmem⟩
  | blockCreated blockHash =>
      exact ⟨fun _ h => h.elim, fun _ => onBlockCreatedSums_lt hlog hlength⟩
  | _ => exact ⟨fun _ h => h.elim, fun _ sum hmem => by cases hmem⟩

-- ============================================================================
-- Runs
-- ============================================================================

/-- No sum leaves `u64` and no event takes the term back. -/
def CountersSound (pf : Platform) (r : RaftConsensus) (events : List RaftEvent) : Prop :=
  ∀ step ∈ r.steps pf events, (∀ sum ∈ step.1.sums pf step.2, sum < 2 ^ 64) ∧
    step.1.currentTerm ≤ (step.1.handle pf step.2).1.currentTerm

theorem steps_contiguous (pf : Platform) (hlog : Contiguous 0 r.log) (events : List RaftEvent) :
    ∀ step ∈ r.steps pf events, Contiguous 0 step.1.log := by
  induction events generalizing r with
  | nil =>
      intro step hstep
      cases hstep
  | cons event events ih =>
      intro step hstep
      rcases List.mem_cons.mp hstep with rfl | hstep
      · exact hlog
      · exact ih ((handle_recorded pf hlog event).advance hlog).contiguous step hstep

/-- A run from the empty log is free of overflow, and its terms never go back, exactly
    when no election is started in the last term. -/
theorem countersSound_iff (pf : Platform) (peerId : PeerId) (now : Instant) (draw : Nat)
    (events : List RaftEvent)
    (hfits : ∀ step ∈ (RaftConsensus.new peerId now draw).steps pf events,
      step.2.FitsVec step.1) :
    (RaftConsensus.new peerId now draw).CountersSound pf events ↔
      ∀ step ∈ (RaftConsensus.new peerId now draw).steps pf events,
        step.2.StartsElection step.1 → step.1.currentTerm < 2 ^ 64 - 1 := by
  have hcontiguous := steps_contiguous (r := RaftConsensus.new peerId now draw) pf
    (Contiguous.nil 0) events
  constructor
  · intro hsound step hstep
    exact (sums_lt_iff (hcontiguous step hstep) (hfits step hstep)).mp (hsound step hstep).1
  · intro hterm step hstep
    exact ⟨(sums_lt_iff (hcontiguous step hstep) (hfits step hstep)).mpr (hterm step hstep),
      handle_term_le pf (hterm step hstep)⟩

end RaftConsensus

namespace Reference

/-- A message of the given term, and a tick long after it. -/
def electionAfter (term : Nat) : List RaftEvent :=
  [.receive 2 (.raftAppendEntriesResponse term false 0) 0 0, .tick 20000 [2]]

end Reference

namespace RaftConsensus

/-- A peer that hears of term 7 stands for election in term 8. -/
theorem countersSound_electionAfter :
    let r := RaftConsensus.new 1 0 0
    let events := Reference.electionAfter 7
    (∀ step ∈ r.steps Reference.platform events, step.2.FitsVec step.1) ∧
      (r.handleAll Reference.platform events).1.currentTerm = 8 ∧
      r.CountersSound Reference.platform events := by
  intro r events
  have hfits : ∀ step ∈ r.steps Reference.platform events, step.2.FitsVec step.1 := by
    rintro step (_ | ⟨_, _ | ⟨_, hmem⟩⟩)
    · exact ⟨by decide, trivial⟩
    · exact ⟨by decide, trivial⟩
    · cases hmem
  refine ⟨hfits, by decide, (countersSound_iff _ _ _ _ _ hfits).mpr ?_⟩
  rintro step (_ | ⟨_, _ | ⟨_, hmem⟩⟩)
  · exact fun h => h.elim
  · exact fun _ => by decide
  · cases hmem

/-- The largest term is adopted from a message; the election after it overflows and
    goes back to term 0. -/
theorem countersSound_fails :
    let r := RaftConsensus.new 1 0 0
    let events := Reference.electionAfter (2 ^ 64 - 1)
    (∀ step ∈ r.steps Reference.platform events, step.2.FitsVec step.1) ∧
      (r.handleAll Reference.platform events).1.currentTerm = 0 ∧
      ¬ r.CountersSound Reference.platform events := by
  intro r events
  refine ⟨?_, by decide, ?_⟩
  · rintro step (_ | ⟨_, _ | ⟨_, hmem⟩⟩)
    · exact ⟨by decide, trivial⟩
    · exact ⟨by decide, trivial⟩
    · cases hmem
  · intro hsound
    obtain ⟨hsums, -⟩ := hsound _ (List.mem_cons_of_mem _ List.mem_cons_self)
    have hsum := hsums (2 ^ 64) (by decide)
    omega

end RaftConsensus

end Rustchain
