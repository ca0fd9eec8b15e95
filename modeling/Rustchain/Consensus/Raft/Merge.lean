/-
  Rustchain.Consensus.Raft.Merge

  The follower's merge in closed form.

  Log entries are looked up by their `index` field.  In a log whose entry number
  `k` carries index `k + 1` (`Contiguous 0`) these lookups are positional, and
  the loop of `append_entries` has one of three outcomes, decided by the first
  entry of the request whose term differs from the log's (`firstConflict`): no
  conflict, the request's surplus is appended; a conflict above the commit
  index, the log is cut there and the rest of the request appended; a conflict
  at or below the commit index, the log is left alone and the request refused.
-/

import Rustchain.Consensus.Raft.Replication

namespace Rustchain

-- ============================================================================
-- Contiguous entries
-- ============================================================================

/-- Entry number `k` carries index `n + k + 1`. -/
def Contiguous (n : Nat) (entries : List RaftLogEntry) : Prop :=
  ∀ k entry, entries[k]? = some entry → entry.index = n + k + 1

theorem Contiguous.nil (n : Nat) : Contiguous n [] := by
  intro k entry h
  simp at h

theorem contiguous_cons {n : Nat} {entry : RaftLogEntry} {entries : List RaftLogEntry} :
    Contiguous n (entry :: entries) ↔ entry.index = n + 1 ∧ Contiguous (n + 1) entries := by
  constructor
  · intro h
    refine ⟨h 0 entry rfl, ?_⟩
    intro k e he
    have := h (k + 1) e (by simpa using he)
    omega
  · rintro ⟨h0, h⟩ k e he
    cases k with
    | zero =>
        simp only [List.getElem?_cons_zero, Option.some.injEq] at he
        rw [← he, h0]
    | succ k =>
        have := h k e (by simpa using he)
        omega

theorem Contiguous.initial {n : Nat} {l l' : List RaftLogEntry} (h : Contiguous n l')
    (hp : l <+: l') : Contiguous n l := by
  obtain ⟨rest, rfl⟩ := hp
  intro k e he
  refine h k e ?_
  rw [List.getElem?_append_left]
  · exact he
  · exact (List.getElem?_eq_some_iff.mp he).1

theorem Contiguous.append {n : Nat} {l l' : List RaftLogEntry} (h : Contiguous n l)
    (h' : Contiguous (n + l.length) l') : Contiguous n (l ++ l') := by
  intro k e he
  rcases Nat.lt_or_ge k l.length with hk | hk
  · rw [List.getElem?_append_left hk] at he
    exact h k e he
  · rw [List.getElem?_append_right hk] at he
    have := h' _ e he
    omega

theorem Contiguous.concat {n : Nat} {l : List RaftLogEntry} (h : Contiguous n l)
    {entry : RaftLogEntry} (hentry : entry.index = n + l.length + 1) :
    Contiguous n (l ++ [entry]) :=
  h.append (contiguous_cons.mpr ⟨hentry, Contiguous.nil _⟩)

theorem Contiguous.drop {n : Nat} {l : List RaftLogEntry} (h : Contiguous n l) (k : Nat) :
    Contiguous (n + k) (l.drop k) := by
  intro j e he
  rw [List.getElem?_drop] at he
  have := h _ e he
  omega

/-- `entries_are_contiguous_after` tests exactly this. -/
theorem entriesAreContiguousAfter_iff {n : Nat} {entries : List RaftLogEntry} :
    entriesAreContiguousAfter n entries = true ↔ Contiguous n entries := by
  simp only [entriesAreContiguousAfter, List.all_eq_true, beq_iff_eq, Prod.forall]
  constructor
  · intro h k e he
    refine h e k ?_
    rw [List.mem_zipIdx_iff_getElem?]
    exact he
  · intro h e k he
    rw [List.mem_zipIdx_iff_getElem?] at he
    exact h k e he

-- ============================================================================
-- Lookups are positional
-- ============================================================================

/-- The index of the last entry, or the one before the first if there is none. -/
theorem Contiguous.getLast_index {prev : Nat} {entries : List RaftLogEntry}
    (h : Contiguous prev entries) :
    (entries.getLast?.map RaftLogEntry.index).getD prev = prev + entries.length := by
  rcases List.eq_nil_or_concat entries with rfl | ⟨x, e, hx⟩
  · rfl
  · rw [List.concat_eq_append] at hx
    subst hx
    have := h x.length e (by simp)
    simp only [List.getLast?_append, List.getLast?_singleton, Option.some_or, Option.map_some,
      Option.getD_some, List.length_append, List.length_singleton]
    omega

theorem Contiguous.lastIndexOf {log : List RaftLogEntry} (h : Contiguous 0 log) :
    lastIndexOf log = log.length :=
  h.getLast_index.trans (Nat.zero_add _)

theorem Contiguous.entryOf_succ {log : List RaftLogEntry} (h : Contiguous 0 log) (k : Nat) :
    entryOf log (k + 1) = log[k]? := by
  cases hk : log[k]? with
  | none =>
      refine List.find?_eq_none.mpr ?_
      intro e he
      obtain ⟨j, hj, hje⟩ := List.mem_iff_getElem.mp he
      have hindex := h j e (by rw [List.getElem?_eq_getElem hj, hje])
      have hlen := List.getElem?_eq_none_iff.mp hk
      simp only [beq_iff_eq]
      omega
  | some e =>
      obtain ⟨hlt, heq⟩ := List.getElem?_eq_some_iff.mp hk
      refine List.find?_eq_some_iff_getElem.mpr ⟨?_, k, hlt, heq, ?_⟩
      · have := h k e hk
        simp only [beq_iff_eq]
        omega
      · intro j hj
        have := h j log[j] (List.getElem?_eq_getElem (by omega))
        simp only [Bool.not_eq_eq_eq_not, Bool.not_true, beq_eq_false_iff_ne, ne_eq]
        omega

@[simp] theorem termOf_zero (log : List RaftLogEntry) : termOf log 0 = some 0 := rfl

theorem Contiguous.termOf_succ {log : List RaftLogEntry} (h : Contiguous 0 log) (k : Nat) :
    termOf log (k + 1) = log[k]?.map RaftLogEntry.term := by
  rw [termOf, if_neg (Nat.succ_ne_zero k), h.entryOf_succ]

/-- An index with a term lies within the log. -/
theorem Contiguous.le_length_of_termOf {log : List RaftLogEntry} (h : Contiguous 0 log)
    {index term : Nat} (ht : termOf log index = some term) : index ≤ log.length := by
  cases index with
  | zero => exact Nat.zero_le _
  | succ k =>
      rw [h.termOf_succ] at ht
      obtain ⟨e, he, -⟩ := Option.map_eq_some_iff.mp ht
      exact (List.getElem?_eq_some_iff.mp he).1

theorem Contiguous.exists_termOf {log : List RaftLogEntry} (h : Contiguous 0 log) {index : Nat}
    (hle : index ≤ log.length) : ∃ term, termOf log index = some term := by
  cases index with
  | zero => exact ⟨0, rfl⟩
  | succ k => exact ⟨log[k].term, by rw [h.termOf_succ, List.getElem?_eq_getElem hle]; rfl⟩

theorem Contiguous.filter_gt {n : Nat} {log : List RaftLogEntry} (h : Contiguous n log)
    (prev : Nat) : (log.filter fun entry => entry.index > prev) = log.drop (prev - n) := by
  induction log generalizing n with
  | nil => simp
  | cons e log ih =>
      obtain ⟨he, hlog⟩ := contiguous_cons.mp h
      rcases Nat.lt_or_ge n prev with hlt | hge
      · rw [List.filter_cons_of_neg (by simp; omega), ih hlog]
        rw [show prev - n = (prev - (n + 1)) + 1 by omega, List.drop_succ_cons]
      · rw [List.filter_cons_of_pos (by simp; omega), ih hlog]
        rw [show prev - n = 0 by omega, show prev - (n + 1) = 0 by omega]
        rfl

theorem Contiguous.entriesBetween {log : List RaftLogEntry} (h : Contiguous 0 log)
    (low high : Nat) : entriesBetween log low high = (log.take high).drop low := by
  have hle : (log.filter fun entry => entry.index ≤ high) = log.take high := by
    have hgen : ∀ n (l : List RaftLogEntry), Contiguous n l →
        (l.filter fun entry => entry.index ≤ high) = l.take (high - n) := by
      intro n l
      induction l generalizing n with
      | nil => simp
      | cons e l ih =>
          intro hl
          obtain ⟨he, hl⟩ := contiguous_cons.mp hl
          rcases Nat.lt_or_ge n high with hlt | hge
          · rw [List.filter_cons_of_pos (by simp; omega), ih _ hl]
            rw [show high - n = (high - (n + 1)) + 1 by omega, List.take_succ_cons]
          · rw [List.filter_cons_of_neg (by simp; omega), ih _ hl]
            rw [show high - n = 0 by omega, show high - (n + 1) = 0 by omega]
            simp
    exact hgen 0 log h
  have hsplit : Rustchain.entriesBetween log low high =
      (log.filter fun entry => entry.index ≤ high).filter fun entry => entry.index > low := by
    rw [List.filter_filter]
    refine List.filter_congr ?_
    intro e _
    simp
  rw [hsplit, hle]
  exact (h.initial (List.take_prefix _ _)).filter_gt low

-- ============================================================================
-- The merge loop
-- ============================================================================

/-- The position of the first entry whose term differs from its counterpart's. -/
def firstConflict : List RaftLogEntry → List RaftLogEntry → Option Nat
  | existing :: log, entry :: entries =>
    if existing.term ≠ entry.term then some 0 else (firstConflict log entries).map (· + 1)
  | _, _ => none

@[simp] theorem firstConflict_nil_left (entries : List RaftLogEntry) :
    firstConflict [] entries = none := by
  cases entries <;> rfl

@[simp] theorem firstConflict_nil_right (log : List RaftLogEntry) :
    firstConflict log [] = none := by
  cases log <;> rfl

theorem term_eq_of_firstConflict_none {log entries : List RaftLogEntry}
    (h : firstConflict log entries = none) {k : Nat} {existing entry : RaftLogEntry}
    (hlog : log[k]? = some existing) (hentries : entries[k]? = some entry) :
    existing.term = entry.term := by
  induction log generalizing entries k with
  | nil => simp at hlog
  | cons o log ih =>
      cases entries with
      | nil => simp at hentries
      | cons e entries =>
          rw [firstConflict] at h
          split at h
          · cases h
          · rename_i hterm
            cases k with
            | zero =>
                simp only [List.getElem?_cons_zero, Option.some.injEq] at hlog hentries
                rw [← hlog, ← hentries]
                exact not_not.mp hterm
            | succ k =>
                exact ih (Option.map_eq_none_iff.mp h) (by simpa using hlog)
                  (by simpa using hentries)

/-- At the first conflict the terms differ, before it they agree. -/
theorem firstConflict_eq_some {log entries : List RaftLogEntry} {k : Nat}
    (h : firstConflict log entries = some k) :
    (∃ existing entry, log[k]? = some existing ∧ entries[k]? = some entry ∧
      existing.term ≠ entry.term) ∧
    ∀ j, j < k → ∀ existing entry, log[j]? = some existing → entries[j]? = some entry →
      existing.term = entry.term := by
  induction log generalizing entries k with
  | nil => simp at h
  | cons o log ih =>
      cases entries with
      | nil => simp at h
      | cons e entries =>
          rw [firstConflict] at h
          split at h
          · rename_i hterm
            cases h
            exact ⟨⟨o, e, rfl, rfl, hterm⟩, fun j hj => absurd hj (Nat.not_lt_zero j)⟩
          · rename_i hterm
            obtain ⟨k', hk', rfl⟩ := Option.map_eq_some_iff.mp h
            obtain ⟨⟨o', e', h1, h2, h3⟩, hbefore⟩ := ih hk'
            refine ⟨⟨o', e', by simpa using h1, by simpa using h2, h3⟩, ?_⟩
            intro j hj existing entry hl he
            cases j with
            | zero =>
                simp only [List.getElem?_cons_zero, Option.some.injEq] at hl he
                rw [← hl, ← he]
                exact not_not.mp hterm
            | succ j =>
                exact hbefore j (by omega) existing entry (by simpa using hl) (by simpa using he)

/-- Entries that continue the log are appended one by one. -/
theorem mergeEntries_push (commitIndex : Nat) {log entries : List RaftLogEntry}
    (hlog : Contiguous 0 log) (hentries : Contiguous log.length entries)
    (discarded : List BlockHash) :
    mergeEntries commitIndex log discarded entries = (log ++ entries, some discarded) := by
  induction entries generalizing log with
  | nil => simp [mergeEntries]
  | cons e entries ih =>
      obtain ⟨he, hrest⟩ := contiguous_cons.mp hentries
      have hnone : entryOf log e.index = none := by
        rw [he, hlog.entryOf_succ]
        simp
      rw [mergeEntries, hnone, hlog.lastIndexOf]
      simp only
      rw [if_pos he]
      have hconcat : Contiguous 0 (log ++ [e]) := hlog.concat (by omega)
      rw [ih hconcat (by simpa using hrest)]
      simp

/-- The loop of `append_entries` in closed form. -/
theorem mergeEntries_eq (commitIndex : Nat) {log entries : List RaftLogEntry} {prev : Nat}
    (hlog : Contiguous 0 log) (hentries : Contiguous prev entries) (hprev : prev ≤ log.length)
    (discarded : List BlockHash) :
    mergeEntries commitIndex log discarded entries =
      match firstConflict (log.drop prev) entries with
      | none => (log ++ entries.drop (log.length - prev), some discarded)
      | some k =>
        if prev + k + 1 ≤ commitIndex then (log, none)
        else (log.take (prev + k) ++ entries.drop k,
          some (discarded ++ blockHashes (log.drop (prev + k)))) := by
  induction entries generalizing prev with
  | nil => simp [mergeEntries]
  | cons e entries ih =>
      obtain ⟨he, hrest⟩ := contiguous_cons.mp hentries
      rcases Nat.eq_or_lt_of_le hprev with heq | hlt
      · -- past the end of the log everything is appended
        subst heq
        rw [mergeEntries_push commitIndex hlog hentries]
        simp
      · have hdrop : log.drop prev = log[prev] :: log.drop (prev + 1) :=
          List.drop_eq_getElem_cons hlt
        have hentry : entryOf log e.index = some log[prev] := by
          rw [he, hlog.entryOf_succ, List.getElem?_eq_getElem hlt]
        rw [hdrop, mergeEntries, hentry, firstConflict]
        simp only
        by_cases hterm : log[prev].term ≠ e.term
        · rw [if_pos hterm, if_pos hterm]
          simp only [Nat.add_zero, List.drop_zero]
          rw [he]
          by_cases hc : prev + 1 ≤ commitIndex
          · rw [if_pos hc, if_pos hc]
          · rw [if_neg hc, if_neg hc]
            have hlen : (log.take prev ++ [e]).length = prev + 1 := by
              rw [List.length_append, List.length_take, Nat.min_eq_left hprev]
              rfl
            have hcut : Contiguous 0 (log.take prev ++ [e]) :=
              (hlog.initial (List.take_prefix _ _)).concat (by simp; omega)
            show mergeEntries commitIndex (log.take prev ++ [e])
              (discarded ++ blockHashes (log.drop prev)) entries = _
            rw [mergeEntries_push commitIndex hcut (by rw [hlen]; exact hrest)]
            simp
        · rw [if_neg hterm, if_neg hterm, ih hrest hlt]
          cases hconf : firstConflict (log.drop (prev + 1)) entries with
          | none =>
              simp only [Option.map_none]
              rw [show log.length - prev = (log.length - (prev + 1)) + 1 by omega,
                List.drop_succ_cons]
          | some k =>
              simp only [Option.map_some, List.drop_succ_cons]
              rw [show prev + (k + 1) = prev + 1 + k by omega]

-- ============================================================================
-- What the merged log holds
-- ============================================================================

/-- The term of the last entry of a request, or of the entry before it. -/
def lastTermFrom (prevTerm : Nat) (entries : List RaftLogEntry) : Nat :=
  (entries.getLast?.map RaftLogEntry.term).getD prevTerm

/-- A log with `entries` after its entry number `prev` has their last term at
    their last index. -/
theorem termOf_of_drop_prefix {log entries : List RaftLogEntry} {prev prevTerm : Nat}
    (hlog : Contiguous 0 log) (hprev : termOf log prev = some prevTerm)
    (hentries : entries <+: log.drop prev) :
    termOf log (prev + entries.length) = some (lastTermFrom prevTerm entries) := by
  rcases List.eq_nil_or_concat entries with rfl | ⟨x, e, hx⟩
  · exact hprev
  · rw [List.concat_eq_append] at hx
    subst hx
    obtain ⟨rest, hrest⟩ := hentries
    have hget : log[prev + x.length]? = some e := by
      rw [← List.getElem?_drop, ← hrest]
      simp
    rw [List.length_append, List.length_singleton, ← Nat.add_assoc, hlog.termOf_succ, hget]
    simp [lastTermFrom]

/-- A merge that succeeds leaves the request's last term at its last index. -/
theorem termOf_mergeEntries {commitIndex prev prevTerm : Nat}
    {log log' entries : List RaftLogEntry} {discarded discarded' : List BlockHash}
    (hlog : Contiguous 0 log) (hentries : Contiguous prev entries)
    (hprev : termOf log prev = some prevTerm)
    (h : mergeEntries commitIndex log discarded entries = (log', some discarded')) :
    Contiguous 0 log' ∧
      termOf log' (prev + entries.length) = some (lastTermFrom prevTerm entries) := by
  have hle : prev ≤ log.length := hlog.le_length_of_termOf hprev
  rw [mergeEntries_eq commitIndex hlog hentries hle] at h
  split at h
  · rename_i hnone
    cases h
    have hlog' : Contiguous 0 (log ++ entries.drop (log.length - prev)) := by
      refine hlog.append ?_
      have := hentries.drop (log.length - prev)
      rwa [show prev + (log.length - prev) = 0 + log.length by omega] at this
    refine ⟨hlog', ?_⟩
    rcases List.eq_nil_or_concat entries with rfl | ⟨x, e, hx⟩
    · simpa [lastTermFrom] using hprev
    rw [List.concat_eq_append] at hx
    subst hx
    -- the last entry is an old one of the same term, or was appended
    rw [List.length_append, List.length_singleton, ← Nat.add_assoc, hlog'.termOf_succ]
    rcases Nat.lt_or_ge (prev + x.length) log.length with hlt | hge
    · rw [List.getElem?_append_left hlt, List.getElem?_eq_getElem hlt]
      have hexisting : (log.drop prev)[x.length]? = some log[prev + x.length] := by
        rw [List.getElem?_drop, List.getElem?_eq_getElem hlt]
      have hterm : log[prev + x.length].term = e.term :=
        term_eq_of_firstConflict_none hnone hexisting (by simp)
      simp [lastTermFrom, hterm]
    · rw [List.getElem?_append_right hge, List.getElem?_drop]
      rw [show log.length - prev + (prev + x.length - log.length) = x.length by omega]
      simp [lastTermFrom]
  · rename_i k hk
    split at h
    · cases h
    · cases h
      obtain ⟨⟨o, e, ho, he, -⟩, -⟩ := firstConflict_eq_some hk
      have hk1 : k < entries.length := (List.getElem?_eq_some_iff.mp he).1
      have hk2 : prev + k < log.length := by
        rw [List.getElem?_drop] at ho
        exact (List.getElem?_eq_some_iff.mp ho).1
      have hlen : (log.take (prev + k)).length = prev + k := by
        rw [List.length_take]
        omega
      have hlog' : Contiguous 0 (log.take (prev + k) ++ entries.drop k) := by
        refine (hlog.initial (List.take_prefix _ _)).append ?_
        rw [hlen, Nat.zero_add]
        exact hentries.drop k
      refine ⟨hlog', ?_⟩
      obtain ⟨x, e', hx⟩ := (List.eq_nil_or_concat entries).resolve_left
        (List.ne_nil_of_length_pos (by omega))
      rw [List.concat_eq_append] at hx
      subst hx
      rw [List.length_append, List.length_singleton] at hk1 ⊢
      rw [← Nat.add_assoc, hlog'.termOf_succ, List.getElem?_append_right (by omega), hlen,
        List.getElem?_drop, show k + (prev + x.length - (prev + k)) = x.length by omega]
      simp [lastTermFrom]

/-- A refused merge leaves the log as it was. -/
theorem mergeEntries_none {commitIndex prev : Nat} {log log' entries : List RaftLogEntry}
    {discarded : List BlockHash} (hlog : Contiguous 0 log) (hentries : Contiguous prev entries)
    (hprev : prev ≤ log.length)
    (h : mergeEntries commitIndex log discarded entries = (log', none)) : log' = log := by
  rw [mergeEntries_eq commitIndex hlog hentries hprev] at h
  split at h
  · cases h
  · split at h
    · cases h
      rfl
    · cases h

-- ============================================================================
-- `append_entries`
-- ============================================================================

/-- `append_entries` refuses and changes nothing, or merges the entries, raises
    the commit index and returns the rollbacks, the staging and the commits. -/
theorem RaftConsensus.appendEntries_cases {r : RaftConsensus} (hlog : Contiguous 0 r.log)
    (prevLogIndex prevLogTerm : Nat) (entries : List RaftLogEntry) (leaderCommit : Nat) :
    r.appendEntries prevLogIndex prevLogTerm entries leaderCommit = (r, none) ∨
    ∃ log discarded r' effects,
      termOf r.log prevLogIndex = some prevLogTerm ∧ Contiguous prevLogIndex entries ∧
      mergeEntries r.commitIndex r.log [] entries = (log, some discarded) ∧
      r' = { r with log, commitIndex := max r.commitIndex (min leaderCommit (lastIndexOf log)) } ∧
      effects = discarded.map .rollbackBlock
        ++ (if (entries.filter fun entry => entry.index > r.commitIndex && !entry.isNoop).isEmpty
          then []
          else [.stageRaftEntries
            (entries.filter fun entry => entry.index > r.commitIndex && !entry.isNoop)])
        ++ r'.commitEffects r.commitIndex r'.commitIndex ∧
      r.appendEntries prevLogIndex prevLogTerm entries leaderCommit = (r', some effects) := by
  rw [RaftConsensus.appendEntries]
  by_cases hprev : r.termAt prevLogIndex ≠ some prevLogTerm
  · rw [if_pos hprev]
    exact Or.inl rfl
  rw [if_neg hprev]
  rw [not_not] at hprev
  by_cases hcontiguous : entriesAreContiguousAfter prevLogIndex entries = true
  · have hentries := entriesAreContiguousAfter_iff.mp hcontiguous
    simp only [hcontiguous, Bool.not_true, Bool.false_eq_true, if_false]
    cases hmerge : mergeEntries r.commitIndex r.log [] entries with
    | mk log result =>
        cases result with
        | none =>
            rw [mergeEntries_none hlog hentries (hlog.le_length_of_termOf hprev) hmerge]
            exact Or.inl rfl
        | some discarded =>
            exact Or.inr ⟨log, discarded, _, _, hprev, hentries, rfl, rfl, rfl, rfl⟩
  · simp only [hcontiguous]
    exact Or.inl rfl

end Rustchain
