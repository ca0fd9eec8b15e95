/-
  Rustchain.RaftCore.Safety

  What the invariant says about elections and committed entries.

  * A term has one winner: two majorities of votes cannot be for two nodes.
  * `Committed s t c`: the leader of `t` created entry number `c` in term `t`
    and a majority acknowledged it in that term.
  * Leader completeness: every later leader was elected with the committed
    prefix.  The induction is on the term of the later leader; its voters meet
    the acknowledging majority in a node whose log retained the prefix, and the
    up-to-date check carries it over to the winner.
  * Committed prefixes are pairwise comparable.
-/

import Rustchain.RaftCore.Invariant

namespace RaftCore

variable {N E : Type} [DecidableEq N] {tm : E → Nat} {P : Finset N} {s s' : State N E}

/-- A node with a majority of the votes of a term is that term's leader, if it
    has one. -/
theorem Inv.leader_unique (h : Inv tm P s) {t : Nat} {el : Election N E} {n : N} {Q : Finset N}
    (hel : s.elected t = some el) (hQ : IsQuorum P Q)
    (hvotes : ∀ v ∈ Q, ∃ l, s.vote v t = some (n, l)) : n = el.leader := by
  obtain ⟨v, hv1, hv2⟩ := hQ.inter (h.elected_ok t el hel).quorum
  obtain ⟨l, hl⟩ := hvotes v hv1
  obtain ⟨l', hl', -⟩ := (h.elected_ok t el hel).voter v hv2
  rw [hl] at hl'
  cases hl'
  rfl

omit [DecidableEq N] in
/-- An entry's term had a leader, and the entry's log starts that leader's. -/
theorem Inv.elected_of_mem (h : Inv tm P s) {l : List E} (hl : Valid tm s.lead l) {e : E}
    (he : e ∈ l) : ∃ el, s.elected (tm e) = some el := by
  obtain ⟨x, y, rfl⟩ := List.append_of_mem he
  have hp : x ++ [e] <+: s.lead (tm e) := hl x e ⟨y, by simp⟩
  cases hel : s.elected (tm e) with
  | some el => exact ⟨el, rfl⟩
  | none =>
      have hlen := hp.length_le
      rw [h.lead_nil _ hel] at hlen
      simp at hlen

/-- A list that holds `e` at place `j` starts with its first `j` elements and `e`. -/
theorem take_concat_starts {l : List E} {j : Nat} {e : E} (h : l[j]? = some e) :
    l.take j ++ [e] <+: l := by
  obtain ⟨hj, rfl⟩ := List.getElem?_eq_some_iff.mp h
  rw [← take_succ_eq_concat hj]
  exact List.take_prefix _ _

omit [DecidableEq N] in
/-- A node has acknowledged every entry of its own term in its log, by place. -/
theorem Inv.acked_of_getElem? (h : Inv tm P s) {n : N} {j : Nat} {e : E}
    (he : (s.log n)[j]? = some e) (ht : tm e = s.term n) : s.acked n (s.term n) (j + 1) := by
  have hj : j < (s.log n).length := (List.getElem?_eq_some_iff.mp he).1
  have hacked := h.own_acked n _ e (take_concat_starts he) ht
  rwa [List.length_take, Nat.min_eq_left (Nat.le_of_lt hj)] at hacked

/-- Two valid logs with the same term at place `k`, if `k` is not 0, share their
    first `k` entries. -/
theorem Valid.take_eq_of_term {lead : Nat → List E} {l l' : List E} (h : Valid tm lead l)
    (h' : Valid tm lead l') {k : Nat} {e e' : E} (he : l[k]? = some e) (he' : l'[k]? = some e')
    (hterm : tm e = tm e') : l.take (k + 1) = l'.take (k + 1) := by
  obtain ⟨hk, rfl⟩ := List.getElem?_eq_some_iff.mp he
  obtain ⟨hk', rfl⟩ := List.getElem?_eq_some_iff.mp he'
  exact h.eq_take h' hk hk' hterm

-- ============================================================================
-- Committed entries
-- ============================================================================

/-- Entry number `c` of the leader of `t` is of term `t` and acknowledged by a
    majority in that term. -/
def Committed (tm : E → Nat) (P : Finset N) (s : State N E) (t c : Nat) : Prop :=
  (∃ x e, x ++ [e] <+: s.lead t ∧ x.length + 1 = c ∧ tm e = t) ∧
    ∃ Q, IsQuorum P Q ∧ ∀ q ∈ Q, s.acked q t c

omit [DecidableEq N] in
theorem Committed.mono {t c : Nat} (h : Committed tm P s t c) (hext : Extends s s') :
    Committed tm P s' t c := by
  obtain ⟨⟨x, e, h1, h2, h3⟩, Q, h4, h5⟩ := h
  exact ⟨⟨x, e, h1.trans (hext.lead _), h2, h3⟩, Q, h4, fun q hq => hext.acked q _ c (h5 q hq)⟩

omit [DecidableEq N] in
/-- Only a term with a leader has committed entries. -/
theorem Inv.elected_of_committed (h : Inv tm P s) {t c : Nat} (hc : Committed tm P s t c) :
    ∃ el, s.elected t = some el := by
  obtain ⟨⟨x, e, hp, -, he⟩, -⟩ := hc
  have hmem : e ∈ s.lead t := hp.subset (by simp)
  rw [← he]
  exact h.elected_of_mem (h.lead_valid t) hmem

omit [DecidableEq N] in
/-- If the voter's log holds the committed prefix and the candidate's log is at
    least as up to date, the candidate's log holds it too, provided the leaders
    of the terms in between were elected with it. -/
theorem Inv.prefix_of_upToDate (h : Inv tm P s) {t c : Nat} {x : List E} {e : E}
    (hx : x ++ [e] <+: s.lead t) (hc : x.length + 1 = c) (he : tm e = t)
    {l lv : List E} (hl : Valid tm s.lead l) (hlv : Valid tm s.lead lv)
    (hpre : (s.lead t).take c <+: lv) (hup : UpToDate tm l lv)
    (hbetween : ∀ el, t < lastTerm tm l → s.elected (lastTerm tm l) = some el →
      (s.lead t).take c <+: el.log) :
    (s.lead t).take c <+: l := by
  have htake : (s.lead t).take c = x ++ [e] := by
    obtain ⟨rest, hrest⟩ := hx
    rw [← hrest, ← hc, List.take_left' (by simp)]
  have hmem : e ∈ lv := hpre.subset (by rw [htake]; simp)
  have hlast : t ≤ lastTerm tm lv := he ▸ hlv.le_lastTerm h.lead_le hmem
  have hlen : c ≤ lv.length := by
    have := hpre.length_le
    rw [htake, List.length_append, List.length_singleton] at this
    omega
  have hlvne : lv ≠ [] := List.ne_nil_of_mem hmem
  have hne : l ≠ [] := by
    rintro rfl
    have hpos : 0 < lv.length := List.length_pos_of_ne_nil hlvne
    rcases hup with hlt | ⟨-, hle⟩
    · simp at hlt
    · simp at hle
      exact hlvne hle
  have hlp := hl.prefix_lead hne
  have hlast' : lastTerm tm lv ≤ lastTerm tm l := by
    rcases hup with hlt | ⟨heq, -⟩
    · exact Nat.le_of_lt hlt
    · exact Nat.le_of_eq heq
  rcases Nat.eq_or_lt_of_le (hlast.trans hlast') with heq | hlt
  · -- both logs end in term `t`: the longer one contains the shorter
    have hlvt : lastTerm tm lv = t := by omega
    have hle : lv.length ≤ l.length := by
      rcases hup with hlt | ⟨-, hle⟩
      · omega
      · exact hle
    refine List.prefix_of_prefix_length_le (List.take_prefix c _) (heq ▸ hlp) ?_
    rw [List.length_take]
    omega
  · -- the candidate's last entry is of a later term, whose leader held the prefix
    obtain ⟨y, f, hyf⟩ := (List.eq_nil_or_concat l).resolve_left hne
    rw [List.concat_eq_append] at hyf
    have hfmem : f ∈ l := by rw [hyf]; simp
    have hfterm : tm f = lastTerm tm l := by rw [hyf, lastTerm_concat]
    obtain ⟨el, hel⟩ := h.elected_of_mem hl hfmem
    rw [hfterm] at hel
    have hcarried := (hbetween el hlt hel).trans (h.elected_ok _ el hel).log_starts
    rcases List.prefix_or_prefix_of_prefix hcarried hlp with hp | hp
    · exact hp
    · -- a log that ends before the prefix does has no entry of a later term
      have hfin : f ∈ s.lead t := List.mem_of_mem_take (hp.subset hfmem)
      have := h.lead_le t f hfin
      omega

/-- Leader completeness: every leader of a later term was elected with the
    committed prefix. -/
theorem Inv.leader_completeness (h : Inv tm P s) {t c : Nat} (hc : Committed tm P s t c) :
    ∀ u el, t < u → s.elected u = some el → (s.lead t).take c <+: el.log := by
  obtain ⟨⟨x, e, hx, hxc, he⟩, Q, hQ, hacks⟩ := hc
  intro u
  induction u using Nat.strong_induction_on with
  | _ u ih =>
      intro el htu hel
      have hok := h.elected_ok u el hel
      -- a voter of `u` that acknowledged the committed entry
      obtain ⟨q, hq1, hq2⟩ := hQ.inter hok.quorum
      obtain ⟨l, -, hup, hvalid, hretains⟩ := hok.voter q hq2
      have hpre : (s.lead t).take c <+: l :=
        hretains t c (hacks q hq1) htu fun t' el' h1 h2 hel' => ih t' h2 el' h1 hel'
      refine h.prefix_of_upToDate hx hxc he ((h.lead_valid u).initial hok.log_starts) hvalid
        hpre hup ?_
      intro el' hlt hel'
      -- the winner's entries are all older than its own term
      have hbelow : lastTerm tm el.log < u := by
        rcases List.eq_nil_or_concat el.log with hnil | ⟨y, f, hyf⟩
        · rw [hnil, lastTerm_nil]
          omega
        · rw [hyf, List.concat_eq_append, lastTerm_concat]
          exact hok.log_lt f (by rw [hyf]; simp)
      exact ih _ hbelow el' hlt hel'

-- ============================================================================
-- Committed prefixes
-- ============================================================================

/-- `l` is an initial part of a committed log. -/
def CommittedPrefix (tm : E → Nat) (P : Finset N) (s : State N E) (l : List E) : Prop :=
  l = [] ∨ ∃ t c, Committed tm P s t c ∧ l <+: (s.lead t).take c

omit [DecidableEq N] in
theorem CommittedPrefix.initial {l l' : List E} (h : CommittedPrefix tm P s l')
    (hp : l <+: l') : CommittedPrefix tm P s l := by
  rcases h with rfl | ⟨t, c, hc, hl⟩
  · exact Or.inl (List.prefix_nil.mp hp)
  · exact Or.inr ⟨t, c, hc, hp.trans hl⟩

omit [DecidableEq N] in
theorem CommittedPrefix.mono {l : List E} (h : CommittedPrefix tm P s l) (hext : Extends s s') :
    CommittedPrefix tm P s' l := by
  rcases h with rfl | ⟨t, c, hc, hl⟩
  · exact Or.inl rfl
  · exact Or.inr ⟨t, c, hc.mono hext, hl.trans ((hext.lead t).take c)⟩

/-- Two committed prefixes never disagree. -/
theorem Inv.committedPrefix_comparable (h : Inv tm P s) {l l' : List E}
    (hl : CommittedPrefix tm P s l) (hl' : CommittedPrefix tm P s l') : l <+: l' ∨ l' <+: l := by
  rcases hl with rfl | ⟨t, c, hc, hp⟩
  · exact Or.inl List.nil_prefix
  rcases hl' with rfl | ⟨t', c', hc', hp'⟩
  · exact Or.inr List.nil_prefix
  obtain ⟨el, hel⟩ := h.elected_of_committed hc
  obtain ⟨el', hel'⟩ := h.elected_of_committed hc'
  have h1 : l <+: s.lead t := hp.trans (List.take_prefix _ _)
  have h2 : l' <+: s.lead t' := hp'.trans (List.take_prefix _ _)
  rcases Nat.lt_trichotomy t t' with hlt | heq | hgt
  · have h3 := (h.leader_completeness hc t' el' hlt hel').trans (h.elected_ok t' el' hel').log_starts
    exact List.prefix_or_prefix_of_prefix (hp.trans h3) h2
  · exact List.prefix_or_prefix_of_prefix h1 (heq ▸ h2)
  · have h3 := (h.leader_completeness hc' t el hgt hel).trans (h.elected_ok t el hel).log_starts
    exact List.prefix_or_prefix_of_prefix h1 (hp'.trans h3)

end RaftCore
