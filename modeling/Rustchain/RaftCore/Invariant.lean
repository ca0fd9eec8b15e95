/-
  Rustchain.RaftCore.Invariant

  The inductive invariant of the abstract protocol.

  Its core is `Valid`: every prefix of a log that ends in an entry of term `t`
  is a prefix of the log the leader of `t` built.  Logs of different nodes are
  never compared with each other, only with the leader's log of a term, which
  only grows; agreement of two logs is a consequence (`Valid.eq_take`).

  The second part is retention: a prefix a node has acknowledged stays in its
  log as long as every leader elected since was elected with that prefix
  (`Carried`).  The condition is about elections that have taken place, so a
  later step can only make it harder to meet, and the statement is inductive
  without knowing what has been committed.
-/

import Rustchain.RaftCore.Basic

namespace RaftCore

variable {N E : Type} {tm : E → Nat} {P : Finset N}

-- ============================================================================
-- Valid logs
-- ============================================================================

/-- Every prefix of `l` that ends in an entry of term `t` is a prefix of the
    log of the leader of `t`. -/
def Valid (tm : E → Nat) (lead : Nat → List E) (l : List E) : Prop :=
  ∀ x e, x ++ [e] <+: l → x ++ [e] <+: lead (tm e)

theorem Valid.nil {lead : Nat → List E} : Valid tm lead [] := by
  intro x e h
  have hlen := h.length_le
  simp at hlen

theorem Valid.initial {lead : Nat → List E} {l l' : List E} (h : Valid tm lead l')
    (hp : l <+: l') : Valid tm lead l :=
  fun x e hx => h x e (hx.trans hp)

/-- Validity survives growth of the leaders' logs. -/
theorem Valid.mono {lead lead' : Nat → List E} {l : List E} (h : Valid tm lead l)
    (hlead : ∀ t, lead t <+: lead' t) : Valid tm lead' l :=
  fun x e hx => (h x e hx).trans (hlead _)

/-- A list that reaches past `k` splits before its entry number `k + 1`. -/
theorem take_succ_eq_concat {l : List E} {k : Nat} (hk : k < l.length) :
    l.take (k + 1) = l.take k ++ [l[k]] := by
  rw [List.take_add_one, List.getElem?_eq_getElem hk]
  rfl

/-- Two valid logs with an entry of the same term at the same place agree up
    to that place. -/
theorem Valid.eq_take {lead : Nat → List E} {l l' : List E} (h : Valid tm lead l)
    (h' : Valid tm lead l') {k : Nat} (hk : k < l.length) (hk' : k < l'.length)
    (hterm : tm l[k] = tm l'[k]) : l.take (k + 1) = l'.take (k + 1) := by
  have h1 : l.take (k + 1) <+: lead (tm l[k]) := by
    rw [take_succ_eq_concat hk]
    exact h _ _ (take_succ_eq_concat hk ▸ List.take_prefix _ _)
  have h2 : l'.take (k + 1) <+: lead (tm l[k]) := by
    rw [take_succ_eq_concat hk', hterm]
    exact h' _ _ (take_succ_eq_concat hk' ▸ List.take_prefix _ _)
  rcases List.prefix_or_prefix_of_prefix h1 h2 with hp | hp
  · exact hp.eq_of_length (by rw [List.length_take, List.length_take]; omega)
  · exact (hp.eq_of_length (by rw [List.length_take, List.length_take]; omega)).symm

/-- A nonempty valid log is a prefix of the log of the leader of its last term. -/
theorem Valid.prefix_lead {lead : Nat → List E} {l : List E} (h : Valid tm lead l)
    (hne : l ≠ []) : l <+: lead (lastTerm tm l) := by
  obtain ⟨x, e, hl⟩ := (List.eq_nil_or_concat l).resolve_left hne
  rw [List.concat_eq_append] at hl
  subst hl
  rw [lastTerm_concat]
  exact h x e (List.prefix_refl _)

/-- No entry of a valid log is newer than its last entry. -/
theorem Valid.le_lastTerm {lead : Nat → List E} {l : List E} (h : Valid tm lead l)
    (hlead : ∀ t, ∀ e ∈ lead t, tm e ≤ t) {e : E} (he : e ∈ l) : tm e ≤ lastTerm tm l :=
  hlead _ e ((h.prefix_lead (List.ne_nil_of_mem he)).subset he)

-- ============================================================================
-- Retention
-- ============================================================================

/-- Every leader elected in a term between `t` and `u`, both excluded, was
    elected with the first `k` entries of the leader of `t`. -/
def Carried (s : State N E) (t k u : Nat) : Prop :=
  ∀ t' el, t < t' → t' < u → s.elected t' = some el → (s.lead t).take k <+: el.log

/-- What a step never undoes. -/
structure Extends (s s' : State N E) : Prop where
  term : ∀ n, s.term n ≤ s'.term n
  lead : ∀ t, s.lead t <+: s'.lead t
  elected : ∀ t el, s.elected t = some el → s'.elected t = some el
  stood : ∀ t n l, s.stood t n = some l → s'.stood t n = some l
  vote : ∀ n t v, s.vote n t = some v → s'.vote n t = some v
  acked : ∀ n t k, s.acked n t k → s'.acked n t k

theorem Extends.refl (s : State N E) : Extends s s :=
  ⟨fun _ => Nat.le_refl _, fun _ => List.prefix_refl _, fun _ _ h => h, fun _ _ _ h => h,
    fun _ _ _ h => h, fun _ _ _ h => h⟩

theorem Extends.trans {s s' s'' : State N E} (h : Extends s s') (h' : Extends s' s'') :
    Extends s s'' :=
  ⟨fun n => (h.term n).trans (h'.term n), fun t => (h.lead t).trans (h'.lead t),
    fun t el hel => h'.elected t el (h.elected t el hel),
    fun t n l hl => h'.stood t n l (h.stood t n l hl),
    fun n t v hv => h'.vote n t v (h.vote n t v hv),
    fun n t k hk => h'.acked n t k (h.acked n t k hk)⟩

/-- The first `k` entries of a leader's log do not change once they are there. -/
theorem Extends.take_lead {s s' : State N E} (h : Extends s s') {t k : Nat}
    (hk : k ≤ (s.lead t).length) : (s'.lead t).take k = (s.lead t).take k := by
  obtain ⟨rest, hrest⟩ := h.lead t
  rw [← hrest, List.take_append_of_le_length hk]

/-- Later elections only add conditions. -/
theorem Carried.anti {s s' : State N E} (hext : Extends s s') {t k u u' : Nat}
    (hk : k ≤ (s.lead t).length) (hu : u ≤ u') (h : Carried s' t k u') : Carried s t k u := by
  intro t' el h1 h2 hel
  rw [← hext.take_lead hk]
  exact h t' el h1 (by omega) (hext.elected t' el hel)

/-- `l` holds every prefix that `n` acknowledged before term `u`, provided the
    leaders elected since, below term `u'`, carried it. -/
def Retains (s : State N E) (n : N) (u u' : Nat) (l : List E) : Prop :=
  ∀ t k, s.acked n t k → t < u → Carried s t k u' → (s.lead t).take k <+: l

-- ============================================================================
-- The invariant
-- ============================================================================

/-- What is known of a vote that `n` cast for `c` in term `t` with log `l`. -/
structure VoteOk (tm : E → Nat) (s : State N E) (n : N) (t : Nat) (c : N) (l : List E) : Prop where
  term_le : t ≤ s.term n
  valid : Valid tm s.lead l
  upToDate : ∃ lc, s.stood t c = some lc ∧ UpToDate tm lc l
  retains : Retains s n t (t + 1) l

/-- What is known of the election `el` of term `t`. -/
structure ElectedOk (tm : E → Nat) (P : Finset N) (s : State N E) (t : Nat)
    (el : Election N E) : Prop where
  term_le : t ≤ s.term el.leader
  log_starts : el.log <+: s.lead t
  log_lt : ∀ e ∈ el.log, tm e < t
  quorum : IsQuorum P el.voters
  voter : ∀ v ∈ el.voters, ∃ l, s.vote v t = some (el.leader, l) ∧ UpToDate tm el.log l ∧
    Valid tm s.lead l ∧ Retains s v t t l

structure Inv (tm : E → Nat) (P : Finset N) (s : State N E) : Prop where
  log_le : ∀ n, ∀ e ∈ s.log n, tm e ≤ s.term n
  lead_le : ∀ t, ∀ e ∈ s.lead t, tm e ≤ t
  log_valid : ∀ n, Valid tm s.lead (s.log n)
  lead_valid : ∀ t, Valid tm s.lead (s.lead t)
  lead_nil : ∀ t, s.elected t = none → s.lead t = []
  leader_log : ∀ n el, s.elected (s.term n) = some el → el.leader = n →
    s.log n = s.lead (s.term n)
  stood_ok : ∀ t n l, s.stood t n = some l → t ≤ s.term n ∧ ∀ e ∈ l, tm e < t
  vote_ok : ∀ n t c l, s.vote n t = some (c, l) → VoteOk tm s n t c l
  elected_ok : ∀ t el, s.elected t = some el → ElectedOk tm P s t el
  acked_le : ∀ n t k, s.acked n t k → t ≤ s.term n ∧ k ≤ (s.lead t).length
  acked_log : ∀ n, Retains s n (s.term n + 1) (s.term n + 1) (s.log n)
  /-- A node has acknowledged every entry of its own term in its log. -/
  own_acked : ∀ n x e, x ++ [e] <+: s.log n → tm e = s.term n →
    s.acked n (s.term n) (x.length + 1)

theorem Inv.init : Inv tm P (State.init : State N E) where
  log_le := by intro n e he; simp [State.init] at he
  lead_le := by intro t e he; simp [State.init] at he
  log_valid := fun n => Valid.nil
  lead_valid := fun t => Valid.nil
  lead_nil := fun t _ => rfl
  leader_log := fun n el hel _ => by simp [State.init] at hel
  stood_ok := fun t n l h => by simp [State.init] at h
  vote_ok := fun n t c l h => by simp [State.init] at h
  elected_ok := fun t el h => by simp [State.init] at h
  acked_le := fun n t k h => h.elim
  acked_log := fun n t k h => h.elim
  own_acked := fun n x e hx _ => by
    have hlen := hx.length_le
    simp [State.init] at hlen

/-- Retention of a fixed log carries over to an extension in which the node
    acknowledged nothing new before `u`. -/
theorem Retains.mono {s s' : State N E} (hext : Extends s s') {n : N} {u u' : Nat} {l : List E}
    (hle : ∀ t k, s.acked n t k → k ≤ (s.lead t).length)
    (hnew : ∀ t k, s'.acked n t k → t < u → s.acked n t k)
    (h : Retains s n u u' l) : Retains s' n u u' l := by
  intro t k hk ht hc
  have hold := hnew t k hk ht
  rw [hext.take_lead (hle t k hold)]
  exact h t k hold ht (Carried.anti hext (hle t k hold) (Nat.le_refl _) hc)

/-- The part of the invariant about votes and elections that already took
    place is kept by every step that acknowledges only in the current term. -/
theorem VoteOk.mono {s s' : State N E} (hinv : Inv tm P s) (hext : Extends s s') {n : N}
    {t : Nat} {c : N} {l : List E}
    (hnew : ∀ t' k, s'.acked n t' k → t' < s.term n → s.acked n t' k)
    (h : VoteOk tm s n t c l) : VoteOk tm s' n t c l where
  term_le := h.term_le.trans (hext.term n)
  valid := h.valid.mono hext.lead
  upToDate := by
    obtain ⟨lc, h1, h2⟩ := h.upToDate
    exact ⟨lc, hext.stood t c lc h1, h2⟩
  retains := h.retains.mono hext (fun t' k hk => (hinv.acked_le n t' k hk).2)
    (fun t' k hk ht' => hnew t' k hk (Nat.lt_of_lt_of_le ht' h.term_le))

theorem ElectedOk.mono {s s' : State N E} (hinv : Inv tm P s) (hext : Extends s s') {t : Nat}
    {el : Election N E}
    (hnew : ∀ n t' k, s'.acked n t' k → t' < s.term n → s.acked n t' k)
    (h : ElectedOk tm P s t el) : ElectedOk tm P s' t el where
  term_le := h.term_le.trans (hext.term _)
  log_starts := h.log_starts.trans (hext.lead t)
  log_lt := h.log_lt
  quorum := h.quorum
  voter := by
    intro v hv
    obtain ⟨l, h1, h2, h3, h4⟩ := h.voter v hv
    refine ⟨l, hext.vote v t _ h1, h2, h3.mono hext.lead, ?_⟩
    have hle : t ≤ s.term v := (hinv.vote_ok v t _ l h1).term_le
    exact h4.mono hext (fun t' k hk => (hinv.acked_le v t' k hk).2)
      (fun t' k hk ht' => hnew v t' k hk (Nat.lt_of_lt_of_le ht' hle))

/-- What a node has acknowledged is still in its log, in terms of a later state. -/
theorem Inv.retains_log {s s' : State N E} (h : Inv tm P s) (hext : Extends s s') {n : N}
    {t k u : Nat} (hk : s.acked n t k) (hu : s.term n + 1 ≤ u) (hc : Carried s' t k u) :
    (s'.lead t).take k <+: s.log n := by
  obtain ⟨hterm, hle⟩ := h.acked_le n t k hk
  rw [hext.take_lead hle]
  exact h.acked_log n t k hk (Nat.lt_succ_of_le hterm) (Carried.anti hext hle hu hc)

/-- A leader's log stays valid when it grows by an entry of its own term. -/
theorem Inv.valid_concat {s : State N E} (h : Inv tm P s) {lead : Nat → List E} {e : E}
    (hmono : ∀ t, s.lead t <+: lead t) (hgrows : lead (tm e) = s.lead (tm e) ++ [e]) :
    Valid tm lead (s.lead (tm e) ++ [e]) := by
  intro x f hx
  rcases List.prefix_concat_iff.mp hx with heq | hp
  · -- the whole of it is the term's new log itself
    have hlast : f = e := by
      have := congrArg List.getLast? heq
      simpa using this
    subst hlast
    rw [hgrows, heq]
  · exact ((h.lead_valid _).mono hmono) x f hp

-- ============================================================================
-- What each update keeps
-- ============================================================================

variable [DecidableEq N] {s : State N E}

theorem Extends.setTerm {n : N} {t : Nat} (ht : s.term n ≤ t) : Extends s (s.setTerm n t) := by
  refine ⟨?_, fun _ => List.prefix_refl _, fun _ _ h => h, fun _ _ _ h => h, fun _ _ _ h => h,
    fun _ _ _ h => h⟩
  intro m
  show s.term m ≤ Function.update s.term n t m
  rw [Function.update_apply]
  split
  · rename_i hm
    rw [hm]
    exact ht
  · exact Nat.le_refl _

/-- What a vote changes: the voter's entry for its current term. -/
theorem setVote_vote {n c m : N} {u : Nat} :
    (s.setVote n c).vote m u =
      if m = n ∧ u = s.term n then some (c, s.log n) else s.vote m u := by
  unfold State.setVote
  by_cases hm : m = n
  · subst hm
    by_cases hu : u = s.term m
    · subst hu
      simp
    · simp [hu]
  · simp [hm]

theorem Extends.setVote {n c : N} (hvote : s.vote n (s.term n) = none) :
    Extends s (s.setVote n c) := by
  refine ⟨fun _ => Nat.le_refl _, fun _ => List.prefix_refl _, fun _ _ h => h, fun _ _ _ h => h, ?_,
    fun _ _ _ h => h⟩
  intro m u v hv
  rw [setVote_vote, if_neg]
  · exact hv
  · rintro ⟨rfl, rfl⟩
    exact Option.some_ne_none _ (hv.symm.trans hvote)

/-- What standing for election changes: the candidate's entry for its term. -/
theorem setStood_stood {n m : N} {u : Nat} :
    (s.setStood n).stood u m =
      if m = n ∧ u = s.term n then some (s.log n) else s.stood u m := by
  unfold State.setStood
  by_cases hu : u = s.term n
  · subst hu
    by_cases hm : m = n
    · subst hm
      simp
    · simp [hm]
  · simp [hu]

theorem Extends.setStood {n : N} (hstood : s.stood (s.term n) n = none) :
    Extends s (s.setStood n) := by
  refine ⟨fun _ => Nat.le_refl _, fun _ => List.prefix_refl _, fun _ _ h => h, ?_, fun _ _ _ h => h,
    fun _ _ _ h => h⟩
  intro u m l hl
  rw [setStood_stood, if_neg]
  · exact hl
  · rintro ⟨rfl, rfl⟩
    exact Option.some_ne_none _ (hl.symm.trans hstood)

omit [DecidableEq N] in
theorem setElected_elected {n : N} {Q : Finset N} {u : Nat} :
    (s.setElected n Q).elected u =
      if u = s.term n then some ⟨n, s.log n, Q⟩ else s.elected u := by
  simp only [State.setElected, Function.update_apply]

omit [DecidableEq N] in
theorem setElected_lead {n : N} {Q : Finset N} {u : Nat} :
    (s.setElected n Q).lead u = if u = s.term n then s.log n else s.lead u := by
  simp only [State.setElected, Function.update_apply]

omit [DecidableEq N] in
/-- What is acknowledged now is acknowledged in the current term. -/
theorem setAcked_acked_of_lt {n m : N} {k u j : Nat} (hj : (s.setAcked n k).acked m u j)
    (hu : u < s.term m) : s.acked m u j := by
  rcases hj with hj | ⟨rfl, rfl, -⟩
  · exact hj
  · exact absurd hu (Nat.lt_irrefl _)

omit [DecidableEq N] in
theorem Extends.setElected {n : N} {Q : Finset N} (hnil : s.lead (s.term n) = [])
    (hnone : s.elected (s.term n) = none) : Extends s (s.setElected n Q) := by
  refine ⟨fun _ => Nat.le_refl _, ?_, ?_, fun _ _ _ h => h, fun _ _ _ h => h, fun _ _ _ h => h⟩
  · intro u
    rw [setElected_lead]
    split
    · rename_i hu
      rw [hu, hnil]
      exact List.nil_prefix
    · exact List.prefix_refl _
  · intro u el hel
    rw [setElected_elected, if_neg]
    · exact hel
    · rintro rfl
      exact Option.some_ne_none _ (hel.symm.trans hnone)

theorem Extends.append (s : State N E) (n : N) (e : E) :
    Extends s (((s.setLog n (s.log n ++ [e])).setLead (s.term n)
      (s.lead (s.term n) ++ [e])).setAcked n ((s.lead (s.term n)).length + 1)) := by
  refine ⟨fun _ => Nat.le_refl _, ?_, fun _ _ h => h, fun _ _ _ h => h, fun _ _ _ h => h,
    fun _ _ _ h => Or.inl h⟩
  intro u
  show s.lead u <+: Function.update s.lead (s.term n) (s.lead (s.term n) ++ [e]) u
  rw [Function.update_apply]
  split
  · rename_i hu
    rw [hu]
    exact List.prefix_append _ _
  · exact List.prefix_refl _

theorem Extends.accept (s : State N E) (n : N) (l : List E) (k : Nat) :
    Extends s ((s.setLog n l).setAcked n k) :=
  ⟨fun _ => Nat.le_refl _, fun _ => List.prefix_refl _, fun _ _ h => h, fun _ _ _ h => h,
    fun _ _ _ h => h, fun _ _ _ h => Or.inl h⟩

-- ============================================================================
-- Preservation, step by step
-- ============================================================================

/-- Moving to a newer term changes no log and casts no vote. -/
theorem Inv.advance (h : Inv tm P s) {n : N} {t : Nat} (ht : s.term n ≤ t) :
    Inv tm P (s.setTerm n t) := by
  have hext : Extends s (s.setTerm n t) := Extends.setTerm ht
  -- Only a node that really moves needs an argument, and its new term is one
  -- in which it has no entries yet.
  have hmove : ∀ m, (s.setTerm n t).term m = s.term m ∨
      (m = n ∧ s.term n < t ∧ (s.setTerm n t).term m = t) := by
    intro m
    by_cases hm : m = n
    · subst hm
      rcases Nat.eq_or_lt_of_le ht with heq | hlt
      · exact Or.inl (by simp [State.setTerm, heq])
      · exact Or.inr ⟨rfl, hlt, by simp [State.setTerm]⟩
    · exact Or.inl (by simp [State.setTerm, Function.update_of_ne hm])
  exact
    { log_le := fun m e he => (h.log_le m e he).trans (hext.term m)
      lead_le := h.lead_le
      log_valid := h.log_valid
      lead_valid := h.lead_valid
      lead_nil := h.lead_nil
      leader_log := by
        intro m el hel hm
        rcases hmove m with heq | ⟨rfl, hlt, heq⟩
        · rw [heq] at hel ⊢
          exact h.leader_log m el hel hm
        · -- nobody leads a term it has not reached
          rw [heq] at hel
          have := (h.elected_ok t el hel).term_le
          rw [hm] at this
          omega
      stood_ok := fun u m l hl =>
        ⟨(h.stood_ok u m l hl).1.trans (hext.term m), (h.stood_ok u m l hl).2⟩
      vote_ok := fun m u c l hv =>
        (h.vote_ok m u c l hv).mono h hext (fun _ _ h _ => h)
      elected_ok := fun u el hel => (h.elected_ok u el hel).mono h hext (fun _ _ _ h _ => h)
      acked_le := fun m u k hk =>
        ⟨(h.acked_le m u k hk).1.trans (hext.term m), (h.acked_le m u k hk).2⟩
      acked_log := fun m _ _ hk _ hc =>
        h.retains_log hext hk (Nat.succ_le_succ (hext.term m)) hc
      own_acked := by
        intro m x e hx he
        rcases hmove m with heq | ⟨rfl, hlt, heq⟩
        · rw [heq] at he ⊢
          exact h.own_acked m x e hx he
        · have hmem : e ∈ s.log m := hx.subset (by simp)
          have := h.log_le m e hmem
          rw [heq] at he
          omega }

/-- Casting a vote that was not cast yet, for a candidate that stood with a log
    at least as up to date. -/
theorem Inv.setVote (h : Inv tm P s) {n c : N} {l : List E}
    (hstood : s.stood (s.term n) c = some l) (hvote : s.vote n (s.term n) = none)
    (hup : UpToDate tm l (s.log n)) : Inv tm P (s.setVote n c) := by
  have hext : Extends s (s.setVote n c) := Extends.setVote hvote
  exact
    { log_le := h.log_le
      lead_le := h.lead_le
      log_valid := h.log_valid
      lead_valid := h.lead_valid
      lead_nil := h.lead_nil
      leader_log := h.leader_log
      stood_ok := h.stood_ok
      vote_ok := by
        intro m u c' l' hv
        rw [setVote_vote] at hv
        split at hv
        · rename_i hmu
          obtain ⟨rfl, rfl⟩ := hmu
          cases hv
          exact
            { term_le := Nat.le_refl _
              valid := h.log_valid m
              upToDate := ⟨l, hstood, hup⟩
              retains := fun t k hk ht hc => h.acked_log m t k hk (Nat.lt_succ_of_lt ht) hc }
        · exact (h.vote_ok m u c' l' hv).mono h hext (fun _ _ h _ => h)
      elected_ok := fun u el hel => (h.elected_ok u el hel).mono h hext (fun _ _ _ h _ => h)
      acked_le := h.acked_le
      acked_log := h.acked_log
      own_acked := h.own_acked }

/-- Recording a candidacy in a term in which the node has not stood yet. -/
theorem Inv.setStood (h : Inv tm P s) {n : N} (hlog : ∀ e ∈ s.log n, tm e < s.term n)
    (hstood : s.stood (s.term n) n = none) : Inv tm P (s.setStood n) := by
  have hext : Extends s (s.setStood n) := Extends.setStood hstood
  exact
    { log_le := h.log_le
      lead_le := h.lead_le
      log_valid := h.log_valid
      lead_valid := h.lead_valid
      lead_nil := h.lead_nil
      leader_log := h.leader_log
      stood_ok := by
        intro u m l hl
        rw [setStood_stood] at hl
        split at hl
        · rename_i hmu
          obtain ⟨rfl, rfl⟩ := hmu
          cases hl
          exact ⟨Nat.le_refl _, hlog⟩
        · exact h.stood_ok u m l hl
      vote_ok := fun m u c l hv =>
        (h.vote_ok m u c l hv).mono h hext (fun _ _ h _ => h)
      elected_ok := fun u el hel => (h.elected_ok u el hel).mono h hext (fun _ _ _ h _ => h)
      acked_le := h.acked_le
      acked_log := h.acked_log
      own_acked := h.own_acked }

omit [DecidableEq N] in
/-- The election of a winner. -/
theorem Inv.electedOk_setElected (h : Inv tm P s) {n : N} {Q : Finset N} (hQ : IsQuorum P Q)
    (hstood : s.stood (s.term n) n = some (s.log n))
    (hvotes : ∀ v ∈ Q, ∃ l, s.vote v (s.term n) = some (n, l))
    (hnone : s.elected (s.term n) = none) :
    ElectedOk tm P (s.setElected n Q) (s.term n) ⟨n, s.log n, Q⟩ := by
  have hext : Extends s (s.setElected n Q) := Extends.setElected (h.lead_nil _ hnone) hnone
  refine ⟨Nat.le_refl _, ?_, (h.stood_ok _ n _ hstood).2, hQ, ?_⟩
  · rw [setElected_lead, if_pos rfl]
  · intro v hv
    obtain ⟨l, hl⟩ := hvotes v hv
    have hok := h.vote_ok v _ n l hl
    obtain ⟨lc, hlc, hup⟩ := hok.upToDate
    rw [hstood] at hlc
    cases hlc
    refine ⟨l, hl, hup, hok.valid.mono hext.lead, ?_⟩
    intro t k hk ht hc
    have hle := (h.acked_le v t k hk).2
    rw [hext.take_lead hle]
    apply hok.retains t k hk ht
    -- the term itself had no leader when the votes were cast
    intro t' el' h1 h2 hel'
    rcases Nat.lt_succ_iff_lt_or_eq.mp h2 with h3 | h3
    · rw [← hext.take_lead hle]
      exact hc t' el' h1 h3 (hext.elected t' el' hel')
    · rw [h3, hnone] at hel'
      cases hel'

omit [DecidableEq N] in
/-- A winner takes its own log as the term's log; until then the term had none. -/
theorem Inv.elect (h : Inv tm P s) {n : N} {Q : Finset N} (hQ : IsQuorum P Q)
    (hstood : s.stood (s.term n) n = some (s.log n))
    (hvotes : ∀ v ∈ Q, ∃ l, s.vote v (s.term n) = some (n, l))
    (hnone : s.elected (s.term n) = none) : Inv tm P (s.setElected n Q) := by
  have hext : Extends s (s.setElected n Q) := Extends.setElected (h.lead_nil _ hnone) hnone
  exact
    { log_le := h.log_le
      lead_le := by
        intro u e he
        rw [setElected_lead] at he
        split at he
        · rename_i hu
          rw [hu]
          exact Nat.le_of_lt ((h.stood_ok _ n _ hstood).2 e he)
        · exact h.lead_le u e he
      log_valid := fun m => (h.log_valid m).mono hext.lead
      lead_valid := by
        intro u
        rw [setElected_lead]
        split
        · exact (h.log_valid n).mono hext.lead
        · exact (h.lead_valid u).mono hext.lead
      lead_nil := by
        intro u hu
        rw [setElected_elected] at hu
        split at hu
        · cases hu
        · rename_i hne
          rw [setElected_lead, if_neg hne]
          exact h.lead_nil u hu
      leader_log := by
        intro m el hel hm
        show s.log m = (s.setElected n Q).lead (s.term m)
        rw [setElected_lead]
        replace hel : (s.setElected n Q).elected (s.term m) = some el := hel
        rw [setElected_elected] at hel
        split at hel
        · rename_i heq
          cases hel
          rw [if_pos heq, ← hm]
        · rename_i hne
          rw [if_neg hne]
          exact h.leader_log m el hel hm
      stood_ok := h.stood_ok
      vote_ok := fun m u c l hv =>
        (h.vote_ok m u c l hv).mono h hext (fun _ _ h _ => h)
      elected_ok := by
        intro u el hel
        rw [setElected_elected] at hel
        split at hel
        · rename_i hu
          cases hel
          rw [hu]
          exact h.electedOk_setElected hQ hstood hvotes hnone
        · exact (h.elected_ok u el hel).mono h hext (fun _ _ _ h _ => h)
      acked_le := fun m u k hk =>
        ⟨(h.acked_le m u k hk).1, (h.acked_le m u k hk).2.trans (hext.lead u).length_le⟩
      acked_log := fun _ _ _ hk _ hc => h.retains_log hext hk (Nat.le_refl _) hc
      own_acked := h.own_acked }

/-- The leader of a term extends its own log and the term's log by one entry,
    and holds what it appended. -/
theorem Inv.append (h : Inv tm P s) {n : N} {e : E} {el : Election N E}
    (hel : s.elected (s.term n) = some el) (hn : el.leader = n) (he : tm e = s.term n) :
    Inv tm P (((s.setLog n (s.log n ++ [e])).setLead (s.term n)
      (s.lead (s.term n) ++ [e])).setAcked n ((s.lead (s.term n)).length + 1)) := by
  set s' := ((s.setLog n (s.log n ++ [e])).setLead (s.term n)
    (s.lead (s.term n) ++ [e])).setAcked n ((s.lead (s.term n)).length + 1) with hs'
  have hown : s.log n = s.lead (s.term n) := h.leader_log n el hel hn
  have hlog : ∀ m, s'.log m = if m = n then s.log n ++ [e] else s.log m := by
    intro m
    simp only [hs', State.setAcked, State.setLead, State.setLog, Function.update_apply]
  have hlead : ∀ u, s'.lead u =
      if u = s.term n then s.lead (s.term n) ++ [e] else s.lead u := by
    intro u
    simp only [hs', State.setAcked, State.setLead, State.setLog, Function.update_apply]
  have hext : Extends s s' := Extends.append s n e
  have hnew : ∀ m u k, s'.acked m u k → u < s.term m → s.acked m u k :=
    fun _ _ _ => setAcked_acked_of_lt
  have hvalid : Valid tm s'.lead (s.lead (s.term n) ++ [e]) := by
    rw [← he]
    exact h.valid_concat hext.lead (by rw [hlead, if_pos he, he])
  have hmem : ∀ {l : List E}, (∀ f ∈ l, tm f ≤ s.term n) → ∀ f ∈ l ++ [e], tm f ≤ s.term n := by
    intro l hl f hf
    rcases List.mem_append.mp hf with hf | hf
    · exact hl f hf
    · rw [List.mem_singleton.mp hf, he]
  exact
    { log_le := by
        intro m f hf
        rw [hlog] at hf
        split at hf
        · rename_i hm
          subst hm
          exact hmem (h.log_le m) f hf
        · exact h.log_le m f hf
      lead_le := by
        intro u f hf
        rw [hlead] at hf
        split at hf
        · rename_i hu
          subst hu
          exact hmem (h.lead_le _) f hf
        · exact h.lead_le u f hf
      log_valid := by
        intro m
        rw [hlog]
        split
        · rw [hown]
          exact hvalid
        · exact (h.log_valid m).mono hext.lead
      lead_valid := by
        intro u
        rw [hlead]
        split
        · exact hvalid
        · exact (h.lead_valid u).mono hext.lead
      lead_nil := by
        intro u hu
        have hne : u ≠ s.term n := by
          rintro rfl
          have : s.elected (s.term n) = none := hu
          rw [hel] at this
          cases this
        rw [hlead, if_neg hne]
        exact h.lead_nil u hu
      leader_log := by
        intro m el' hel' hm
        have hel'' : s.elected (s.term m) = some el' := hel'
        show s'.log m = s'.lead (s.term m)
        rw [hlog, hlead]
        by_cases hmn : m = n
        · subst hmn
          rw [if_pos rfl, if_pos rfl, hown]
        · -- two leaders of one term are the same node
          rw [if_neg hmn, if_neg]
          · exact h.leader_log m el' hel'' hm
          · intro heq
            rw [heq, hel] at hel''
            cases hel''
            exact hmn (hm.symm.trans hn)
      stood_ok := h.stood_ok
      vote_ok := fun m u c l hv =>
        (h.vote_ok m u c l hv).mono h hext (hnew m)
      elected_ok := fun u el' hel' => (h.elected_ok u el' hel').mono h hext hnew
      acked_le := by
        intro m u k hk
        rcases hk with hk | ⟨rfl, rfl, hle⟩
        · exact ⟨(h.acked_le m u k hk).1, (h.acked_le m u k hk).2.trans (hext.lead u).length_le⟩
        · refine ⟨Nat.le_refl _, ?_⟩
          show k ≤ (s'.lead (s.term m)).length
          rw [hlead, if_pos rfl, List.length_append, List.length_singleton]
          exact hle
      acked_log := by
        intro m u k hk _ hc
        rw [hlog]
        rcases hk with hk | ⟨rfl, rfl, -⟩
        · have hold := h.retains_log hext hk (Nat.le_refl _) hc
          split
          · rename_i hm
            rw [hm] at hold
            exact hold.trans (List.prefix_append _ _)
          · exact hold
        · show (s'.lead (s.term m)).take k <+: _
          rw [if_pos rfl, hlead, if_pos rfl, hown]
          exact List.take_prefix _ _
      own_acked := by
        intro m x f hx hf
        rw [hlog] at hx
        split at hx
        · rename_i hm
          subst hm
          refine Or.inr ⟨rfl, rfl, ?_⟩
          have hlen := hx.length_le
          rw [hown] at hlen
          simp only [List.length_append, List.length_singleton] at hlen
          omega
        · exact Or.inl (h.own_acked m x f hx hf) }

/-- Merging the leader's first `k` entries keeps every acknowledged prefix that
    the leader was elected with. -/
theorem Inv.accept [DecidableEq E] (h : Inv tm P s) {n : N} {k : Nat} {el : Election N E}
    (hel : s.elected (s.term n) = some el) (hk : k ≤ (s.lead (s.term n)).length) :
    Inv tm P ((s.setLog n (merge (s.log n) (s.lead (s.term n)) k)).setAcked n k) := by
  set s' := (s.setLog n (merge (s.log n) (s.lead (s.term n)) k)).setAcked n k with hs'
  have hlog : ∀ m, s'.log m =
      if m = n then merge (s.log n) (s.lead (s.term n)) k else s.log m := by
    intro m
    simp only [hs', State.setAcked, State.setLog, Function.update_apply]
  have hext : Extends s s' := Extends.accept s n _ k
  have hnew : ∀ m u j, s'.acked m u j → u < s.term m → s.acked m u j :=
    fun _ _ _ => setAcked_acked_of_lt
  have hmem : ∀ f ∈ merge (s.log n) (s.lead (s.term n)) k, tm f ≤ s.term n := by
    intro f hf
    unfold merge at hf
    split at hf
    · exact h.log_le n f hf
    · exact h.lead_le _ f (List.mem_of_mem_take hf)
  exact
    { log_le := by
        intro m f hf
        rw [hlog] at hf
        split at hf
        · rename_i hm
          subst hm
          exact hmem f hf
        · exact h.log_le m f hf
      lead_le := h.lead_le
      log_valid := by
        intro m
        rw [hlog]
        split
        · intro x f hx
          rcases prefix_of_prefix_merge hx with hp | hp
          · exact h.log_valid n x f hp
          · exact h.lead_valid _ x f (hp.trans (List.take_prefix _ _))
        · exact h.log_valid m
      lead_valid := h.lead_valid
      lead_nil := h.lead_nil
      leader_log := by
        intro m el' hel' hm
        rw [hlog]
        split
        · -- the leader's own log already holds what it would merge
          rename_i hmn
          subst hmn
          have hown := h.leader_log m el' hel' hm
          rw [merge, if_pos (hown ▸ List.take_prefix _ _)]
          exact hown
        · exact h.leader_log m el' hel' hm
      stood_ok := h.stood_ok
      vote_ok := fun m u c l hv =>
        (h.vote_ok m u c l hv).mono h hext (hnew m)
      elected_ok := fun u el' hel' => (h.elected_ok u el' hel').mono h hext hnew
      acked_le := by
        intro m u j hj
        rcases hj with hj | ⟨rfl, rfl, hle⟩
        · exact h.acked_le m u j hj
        · exact ⟨Nat.le_refl _, hle.trans hk⟩
      acked_log := by
        intro m u j hj hu hc
        rcases hj with hj | ⟨rfl, rfl, hle⟩
        · have hold := h.acked_log m u j hj hu hc
          rw [hlog]
          split
          · rename_i hm
            subst hm
            refine prefix_merge hold ?_ k
            -- the acknowledged prefix is part of the leader's log
            rcases Nat.lt_succ_iff_lt_or_eq.mp hu with hlt | heq
            · exact (hc _ el hlt (Nat.lt_succ_self _) hel).trans (h.elected_ok _ el hel).log_starts
            · rw [heq]
              exact List.take_prefix _ _
          · exact hold
        · rw [hlog, if_pos rfl]
          exact (List.take_prefix_take_left hle).trans (take_prefix_merge _ _ _)
      own_acked := by
        intro m x f hx hf
        rw [hlog] at hx
        split at hx
        · rename_i hm
          subst hm
          rcases prefix_of_prefix_merge hx with hp | hp
          · exact Or.inl (h.own_acked m x f hp hf)
          · refine Or.inr ⟨rfl, rfl, ?_⟩
            have hlen := hp.length_le
            simp only [List.length_append, List.length_singleton, List.length_take] at hlen
            omega
        · exact Or.inl (h.own_acked m x f hx hf) }

-- ============================================================================
-- Steps and runs
-- ============================================================================

section Runs

variable [DecidableEq E] {s' : State N E} {n : N}

/-- Every step keeps the invariant. -/
theorem Inv.step (h : Inv tm P s) (hs : Step tm P n s s') : Inv tm P s' := by
  cases hs with
  | advance t ht => exact h.advance ht
  | stand hlog hstood hvote =>
      refine (h.setStood hlog hstood).setVote (l := s.log n) ?_ hvote (UpToDate.refl _ _)
      rw [setStood_stood, if_pos ⟨rfl, rfl⟩]
  | vote c l hstood hvote hup => exact h.setVote hstood hvote hup
  | elect Q hQ hstood hvotes hnone => exact h.elect hQ hstood hvotes hnone
  | append e el hel hn he => exact h.append hel hn he
  | accept k el hel hk => exact h.accept hel hk

/-- No step undoes what the history records. -/
theorem Inv.step_extends (h : Inv tm P s) (hs : Step tm P n s s') : Extends s s' := by
  cases hs with
  | advance t ht => exact Extends.setTerm ht
  | stand hlog hstood hvote => exact (Extends.setStood hstood).trans (Extends.setVote hvote)
  | vote c l hstood hvote hup => exact Extends.setVote hvote
  | elect Q hQ hstood hvotes hnone => exact Extends.setElected (h.lead_nil _ hnone) hnone
  | append e el hel hn he => exact Extends.append s n e
  | accept k el hel hk => exact Extends.accept s n _ k

/-- The invariant holds in every state a run reaches. -/
theorem Inv.steps (h : Inv tm P s) (hs : Steps tm P n s s') : Inv tm P s' := by
  induction hs with
  | refl => exact h
  | tail _ hstep ih => exact ih.step hstep

theorem Inv.steps_extends (h : Inv tm P s) (hs : Steps tm P n s s') : Extends s s' := by
  induction hs with
  | refl => exact Extends.refl s
  | tail hpre hstep ih => exact ih.trans ((h.steps hpre).step_extends hstep)

/-- What the steps of `n` leave alone: the other nodes, and who was elected. -/
structure Frame (n : N) (s s' : State N E) : Prop where
  term : ∀ m, m ≠ n → s'.term m = s.term m
  log : ∀ m, m ≠ n → s'.log m = s.log m
  vote : ∀ m, m ≠ n → s'.vote m = s.vote m
  elected : ∀ t el, s'.elected t = some el → s.elected t = some el ∨ el.leader = n

theorem Step.frame (hs : Step tm P n s s') : Frame n s s' := by
  have hupdate : ∀ {V : Type} (f : N → V) (v : V) (m : N), m ≠ n → Function.update f n v m = f m :=
    fun f v m hm => Function.update_of_ne hm v f
  cases hs with
  | advance t ht =>
      exact ⟨fun m hm => hupdate _ _ m hm, fun _ _ => rfl, fun _ _ => rfl, fun _ _ h => Or.inl h⟩
  | stand hlog hstood hvote =>
      exact ⟨fun _ _ => rfl, fun _ _ => rfl, fun m hm => hupdate _ _ m hm, fun _ _ h => Or.inl h⟩
  | vote c l hstood hvote hup =>
      exact ⟨fun _ _ => rfl, fun _ _ => rfl, fun m hm => hupdate _ _ m hm, fun _ _ h => Or.inl h⟩
  | elect Q hQ hstood hvotes hnone =>
      refine ⟨fun _ _ => rfl, fun _ _ => rfl, fun _ _ => rfl, ?_⟩
      intro t el hel
      have hel' : Function.update s.elected (s.term n) (some ⟨n, s.log n, Q⟩) t = some el := hel
      rw [Function.update_apply] at hel'
      split at hel'
      · cases hel'
        exact Or.inr rfl
      · exact Or.inl hel'
  | append e el hel hn he =>
      exact ⟨fun _ _ => rfl, fun m hm => hupdate _ _ m hm, fun _ _ => rfl, fun _ _ h => Or.inl h⟩
  | accept k el hel hk =>
      exact ⟨fun _ _ => rfl, fun m hm => hupdate _ _ m hm, fun _ _ => rfl, fun _ _ h => Or.inl h⟩

theorem Steps.frame (hs : Steps tm P n s s') : Frame n s s' := by
  induction hs with
  | refl => exact ⟨fun _ _ => rfl, fun _ _ => rfl, fun _ _ => rfl, fun _ _ h => Or.inl h⟩
  | tail _ hstep ih =>
      refine ⟨fun m hm => (hstep.frame.term m hm).trans (ih.term m hm),
        fun m hm => (hstep.frame.log m hm).trans (ih.log m hm),
        fun m hm => (hstep.frame.vote m hm).trans (ih.vote m hm), ?_⟩
      intro t el hel
      rcases hstep.frame.elected t el hel with hel | hn
      · exact ih.elected t el hel
      · exact Or.inr hn

end Runs

end RaftCore
