/-
  Rustchain.RaftCore.Basic

  An abstract leader-based replicated log with its history.

  Nodes hold a term and a log of entries, every entry carrying the term it was
  created in.  Beside the current terms and logs the state records what no
  later step undoes: the logs with which nodes stood for election, the votes
  cast and the voters' logs at that moment, who was elected with which log and
  by whom, the log each term's leader has built so far, and which prefix of
  that log each node has acknowledged.  Messages, timers and roles do not occur:
  an implementation is related to this system by exhibiting, for each of its
  steps, a sequence of steps here.

  Nodes, entries and the term of an entry are arbitrary.
-/

import Mathlib.Data.Finset.Card
import Mathlib.Data.List.Infix
import Mathlib.Logic.Function.Basic
import Mathlib.Logic.Relation

namespace RaftCore

variable {N E : Type}

-- ============================================================================
-- Quorums
-- ============================================================================

/-- A majority of `P`. -/
def IsQuorum (P Q : Finset N) : Prop := Q ⊆ P ∧ P.card / 2 + 1 ≤ Q.card

/-- Two majorities share a member. -/
theorem IsQuorum.inter [DecidableEq N] {P Q R : Finset N} (hQ : IsQuorum P Q)
    (hR : IsQuorum P R) : ∃ n, n ∈ Q ∧ n ∈ R := by
  have hunion : (Q ∪ R).card ≤ P.card := Finset.card_le_card (Finset.union_subset hQ.1 hR.1)
  have hsum := Finset.card_union_add_card_inter Q R
  have hpos : 0 < (Q ∩ R).card := by
    have h1 := hQ.2
    have h2 := hR.2
    omega
  obtain ⟨n, hn⟩ := Finset.card_pos.mp hpos
  exact ⟨n, Finset.mem_inter.mp hn⟩

-- ============================================================================
-- Logs
-- ============================================================================

/-- The term of the last entry, 0 for the empty log. -/
def lastTerm (tm : E → Nat) (l : List E) : Nat := (l.getLast?.map tm).getD 0

/-- `l` is at least as up to date as `l'`. -/
def UpToDate (tm : E → Nat) (l l' : List E) : Prop :=
  lastTerm tm l' < lastTerm tm l ∨ (lastTerm tm l' = lastTerm tm l ∧ l'.length ≤ l.length)

theorem UpToDate.refl (tm : E → Nat) (l : List E) : UpToDate tm l l :=
  Or.inr ⟨rfl, Nat.le_refl _⟩

@[simp] theorem lastTerm_nil (tm : E → Nat) : lastTerm tm ([] : List E) = 0 := rfl

@[simp] theorem lastTerm_concat (tm : E → Nat) (l : List E) (e : E) :
    lastTerm tm (l ++ [e]) = tm e := by
  simp [lastTerm]

/-- The log after a leader's first `k` entries were merged into it: unchanged
    when it holds them already, cut down to them otherwise. -/
def merge [DecidableEq E] (old lead : List E) (k : Nat) : List E :=
  if lead.take k <+: old then old else lead.take k

theorem take_prefix_merge [DecidableEq E] (old lead : List E) (k : Nat) :
    lead.take k <+: merge old lead k := by
  unfold merge
  split
  · assumption
  · exact List.prefix_refl _

/-- Merging reads only the leader's first `k` entries. -/
theorem merge_congr [DecidableEq E] {old lead lead' : List E} {k : Nat}
    (h : lead.take k = lead'.take k) : merge old lead k = merge old lead' k := by
  rw [merge, merge, h]

/-- Merging keeps whatever the old log and the leader's log share. -/
theorem prefix_merge [DecidableEq E] {x old lead : List E} (hold : x <+: old)
    (hlead : x <+: lead) (k : Nat) : x <+: merge old lead k := by
  unfold merge
  split
  · exact hold
  · rename_i hnot
    rcases List.prefix_or_prefix_of_prefix hlead (List.take_prefix k lead) with h | h
    · exact h
    · exact absurd (h.trans hold) hnot

/-- Every prefix of a merged log is a prefix of the old log or of the leader's
    first `k` entries. -/
theorem prefix_of_prefix_merge [DecidableEq E] {x old lead : List E} {k : Nat}
    (h : x <+: merge old lead k) : x <+: old ∨ x <+: lead.take k := by
  unfold merge at h
  split at h
  · exact Or.inl h
  · exact Or.inr h

-- ============================================================================
-- States and steps
-- ============================================================================

/-- An election that took place: who won, with which log, by whose votes. -/
structure Election (N E : Type) where
  leader : N
  log : List E
  voters : Finset N

structure State (N E : Type) where
  term : N → Nat
  log : N → List E
  /-- The log with which a node stood for election in a term. -/
  stood : Nat → N → Option (List E)
  /-- Whom a node voted for in a term, and its log at that moment. -/
  vote : N → Nat → Option (N × List E)
  elected : Nat → Option (Election N E)
  /-- The log the leader of a term has built so far. -/
  lead : Nat → List E
  /-- `acked n t k`: in term `t`, node `n` held the leader's first `k` entries. -/
  acked : N → Nat → Nat → Prop

namespace State

/-- Nothing has happened yet. -/
def init : State N E where
  term := fun _ => 0
  log := fun _ => []
  stood := fun _ _ => none
  vote := fun _ _ => none
  elected := fun _ => none
  lead := fun _ => []
  acked := fun _ _ _ => False

variable [DecidableEq N]

def setTerm (s : State N E) (n : N) (t : Nat) : State N E :=
  { s with term := Function.update s.term n t }

def setVote (s : State N E) (n c : N) : State N E :=
  { s with
    vote := Function.update s.vote n
      (Function.update (s.vote n) (s.term n) (some (c, s.log n))) }

def setStood (s : State N E) (n : N) : State N E :=
  { s with
    stood := Function.update s.stood (s.term n)
      (Function.update (s.stood (s.term n)) n (some (s.log n))) }

def setElected (s : State N E) (n : N) (Q : Finset N) : State N E :=
  { s with
    elected := Function.update s.elected (s.term n) (some ⟨n, s.log n, Q⟩)
    lead := Function.update s.lead (s.term n) (s.log n) }

def setLog (s : State N E) (n : N) (l : List E) : State N E :=
  { s with log := Function.update s.log n l }

def setLead (s : State N E) (t : Nat) (l : List E) : State N E :=
  { s with lead := Function.update s.lead t l }

def setAcked (s : State N E) (n : N) (k : Nat) : State N E :=
  { s with acked := fun n' t' k' => s.acked n' t' k' ∨ (n' = n ∧ t' = s.term n ∧ k' ≤ k) }

end State

section Step

variable [DecidableEq N] [DecidableEq E] (tm : E → Nat) (P : Finset N)

/-- One step of node `n`. -/
inductive Step (n : N) : State N E → State N E → Prop where
  /-- The node moves to a term that is not older. -/
  | advance (s : State N E) (t : Nat) (ht : s.term n ≤ t) : Step n s (s.setTerm n t)
  /-- The node stands for election in its term, voting for itself. -/
  | stand (s : State N E) (hlog : ∀ e ∈ s.log n, tm e < s.term n)
      (hstood : s.stood (s.term n) n = none) (hvote : s.vote n (s.term n) = none) :
      Step n s ((s.setStood n).setVote n n)
  /-- The node votes for a candidate of its term whose log is up to date. -/
  | vote (s : State N E) (c : N) (l : List E) (hstood : s.stood (s.term n) c = some l)
      (hvote : s.vote n (s.term n) = none) (hup : UpToDate tm l (s.log n)) :
      Step n s (s.setVote n c)
  /-- A candidate whose log has not changed wins with a majority of the votes. -/
  | elect (s : State N E) (Q : Finset N) (hQ : IsQuorum P Q)
      (hstood : s.stood (s.term n) n = some (s.log n))
      (hvotes : ∀ v ∈ Q, ∃ l, s.vote v (s.term n) = some (n, l))
      (hnone : s.elected (s.term n) = none) : Step n s (s.setElected n Q)
  /-- The leader of a term appends an entry of that term. -/
  | append (s : State N E) (e : E) (el : Election N E)
      (hel : s.elected (s.term n) = some el) (hn : el.leader = n) (he : tm e = s.term n) :
      Step n s (((s.setLog n (s.log n ++ [e])).setLead (s.term n)
        (s.lead (s.term n) ++ [e])).setAcked n ((s.lead (s.term n)).length + 1))
  /-- The node merges the first entries of its term's leader and acknowledges them. -/
  | accept (s : State N E) (k : Nat) (el : Election N E)
      (hel : s.elected (s.term n) = some el) (hk : k ≤ (s.lead (s.term n)).length) :
      Step n s ((s.setLog n (merge (s.log n) (s.lead (s.term n)) k)).setAcked n k)

/-- A finite sequence of steps of node `n`. -/
def Steps (n : N) : State N E → State N E → Prop := Relation.ReflTransGen (Step tm P n)

end Step

end RaftCore
