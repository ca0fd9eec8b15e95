/-
  Rustchain.Cluster.Acknowledged

  What a success acknowledgement is worth.  The acknowledged index is computed
  from the request, and a stale request may be acknowledged after a newer one;
  still, as long as the follower stays in the term of the acknowledgement, its
  log begins with that many entries of the leader's.

  In the abstract state this is a property of the follower's log relative to
  the log its term's leader has built (`Held`): true when the acknowledgement
  is sent, and kept by every step, because a node that stays in its term only
  extends its log or merges more of its leader's.
-/

import Rustchain.Cluster.Safety

namespace Rustchain

open RaftCore

-- ============================================================================
-- Held prefixes
-- ============================================================================

/-- The leader of term `t` has built `m` entries and `n`, if still in that term,
    holds them. -/
structure Held (a : Abstract) (n : PeerId) (t m : Nat) : Prop where
  term_le : t ≤ a.term n
  le_length : m ≤ (a.lead t).length
  held : a.term n = t → (a.lead t).take m <+: a.log n

variable {P : Finset PeerId} {a a' : Abstract} {p n : PeerId} {t m : Nat} {pf : Platform}

/-- A step of a node keeps what its log shares with its leader's. -/
theorem prefix_log_of_step (hstep : RaftCore.Step RaftLogEntry.term P n a a')
    {x : List RaftLogEntry} (hlog : x <+: a.log n) (hlead : x <+: a.lead (a.term n)) :
    x <+: a'.log n := by
  cases hstep with
  | append e el hel hn he =>
      show x <+: Function.update a.log n (a.log n ++ [e]) n
      rw [Function.update_self]
      exact hlog.trans (List.prefix_append _ _)
  | accept k el hel hk =>
      show x <+: Function.update a.log n (merge (a.log n) (a.lead (a.term n)) k) n
      rw [Function.update_self]
      exact prefix_merge hlog hlead k
  | _ => exact hlog

theorem Held.step (hinv : Inv RaftLogEntry.term P a) (h : Held a n t m)
    (hstep : RaftCore.Step RaftLogEntry.term P p a a') : Held a' n t m := by
  have hext := hinv.step_extends hstep
  refine ⟨h.term_le.trans (hext.term n), h.le_length.trans (hext.lead t).length_le, ?_⟩
  intro hterm
  -- the node was in term `t` before the step already
  have hsame : a.term n = t := by
    have := h.term_le
    have := hext.term n
    omega
  rw [hext.take_lead h.le_length]
  by_cases hp : n = p
  · subst hp
    refine prefix_log_of_step hstep (h.held hsame) ?_
    rw [hsame]
    exact List.take_prefix _ _
  · rw [hstep.frame.log n hp]
    exact h.held hsame

theorem Held.steps (hinv : Inv RaftLogEntry.term P a) (h : Held a n t m)
    (hsteps : Steps RaftLogEntry.term P p a a') : Held a' n t m := by
  induction hsteps with
  | refl => exact h
  | tail hbefore hstep ih => exact Held.step (hinv.steps hbefore) ih hstep

-- ============================================================================
-- Runs
-- ============================================================================

namespace Cluster

/-- What every success acknowledgement on the network says is held. -/
def AcksHeld (c : Cluster) (a : Abstract) : Prop :=
  ∀ s ∈ c.sent, ∀ t m, s.message.body = .raftAppendEntriesResponse t true m →
    Held a s.message.from t m

variable {c c' c₀ c₁ c₂ : Cluster} {act : Action}

/-- An acknowledgement is held when it is sent. -/
theorem held_of_emits (hsim : ClusterSim P False False c' a') (hstep : Step pf P c act c') {s : Sent}
    (hs : s ∈ c'.sent) (hlog : s.log = (c.outcome pf act).1.log)
    {effect : ConsensusEffect} (hok : EffectOk P (· ∈ c.sent) (c.outcome pf act).1 effect)
    (hemits : Emits P act.peer effect s.message)
    (hbody : s.message.body = .raftAppendEntriesResponse t true m) :
    Held a' s.message.from t m := by
  have hmessage := hsim.sent s hs
  simp only [MessageSim, hbody] at hmessage
  obtain ⟨-, -, -, hmatch⟩ := hmessage
  obtain ⟨hle, hlead⟩ := hmatch trivial
  have hpeer := hsim.peers act.peer
  rw [hstep.peers, Function.update_self] at hpeer
  have hfrom : s.message.from = act.peer ∧ t = (c.outcome pf act).1.currentTerm := by
    generalize s.message = message at hemits hbody
    cases hemits with
    | broadcast body q hq hne =>
        rcases hok with ⟨rfl, -⟩ | hsingle
        · cases hbody
        · exact absurd ((Finset.mem_singleton.mp (hsingle hq)).trans hpeer.peerId) hne
    | send q body =>
        have hbody : body = .raftAppendEntriesResponse t true m := hbody
        subst hbody
        exact ⟨rfl, hok.1⟩
    | sendRaftAppendEntries q term prevLogIndex prevLogTerm replicated leaderCommit => cases hbody
  obtain ⟨hfrom, rfl⟩ := hfrom
  have hlen : (s.log.take m).length = m := by
    rw [List.length_take]
    omega
  have htake : (a'.lead (c.outcome pf act).1.currentTerm).take m = s.log.take m := by
    have := List.prefix_iff_eq_take.mp hlead
    rw [hlen] at this
    exact this.symm
  rw [hfrom]
  refine ⟨hpeer.term.ge, ?_, ?_⟩
  · have := hlead.length_le
    omega
  · intro _
    rw [htake, hpeer.log, hlog]
    exact List.take_prefix _ _

theorem AcksHeld.step (h : AcksHeld c a) (hsim : ClusterSim P False False c a)
    (hstep : Step pf P c act c') :
    ∃ a', AcksHeld c' a' ∧ ClusterSim P False False c' a' := by
  have hpeer := hsim.peers act.peer
  obtain ⟨-, heffects⟩ := hstep.outcome_ok (A := False) (B := False) hpeer.peerId hpeer.contiguous
    (fun h => h.elim) (fun h => h.elim)
  obtain ⟨a', hsteps, hsim'⟩ := hsim.step hstep (fun h => h.elim) (fun h => h.elim)
  refine ⟨a', ?_, hsim'⟩
  intro s hs t m hbody
  obtain ⟨new, hsent, hnew⟩ := hstep.sent
  rcases List.mem_append.mp (hsent ▸ hs) with hold | hs'
  · exact (h s hold t m hbody).steps hsim.inv hsteps
  · obtain ⟨hlog, effects, hok, effect, hmem, hemits⟩ := hnew s hs'
    exact held_of_emits hsim' hstep hs hlog (heffects effects hok effect hmem) hemits hbody

theorem AcksHeld.run (hinit : c₀.Initial) (hrun : Run pf P (fun _ _ => True) c₀ c₁) :
    ∃ a, AcksHeld c₁ a ∧ ClusterSim P False False c₁ a := by
  induction hrun with
  | refl =>
      refine ⟨State.init, ?_, ClusterSim.init hinit⟩
      intro s hs
      rw [hinit.1] at hs
      cases hs
  | tail _ hstep ih =>
      obtain ⟨a, hheld, hsim⟩ := ih
      obtain ⟨act, -, hstep⟩ := hstep
      exact hheld.step hsim hstep

/-- A message that was sent stays on the network. -/
theorem Run.sent_subset {ok : Cluster → Action → Prop} (hrun : Run pf P ok c c') :
    c.sent ⊆ c'.sent := by
  induction hrun with
  | refl => exact List.Subset.refl _
  | tail _ hstep ih =>
      obtain ⟨act, -, hstep⟩ := hstep
      obtain ⟨new, hsent, -⟩ := hstep.sent
      rw [hsent]
      exact List.Subset.trans ih (List.subset_append_left _ _)

/-- Success acknowledgements are truthful: from the state in which one was sent on,
    while the addressee leads its term and the sender stays in it, both logs reach
    the acknowledged index and agree on every entry up to it. -/
theorem run_ack_truthful (hinit : c₀.Initial) (hrun₁ : Run pf P (fun _ _ => True) c₀ c₁)
    {s : Sent} (hs : s ∈ c₁.sent) {t m : Nat}
    (hbody : s.message.body = .raftAppendEntriesResponse t true m)
    (hrun₂ : Run pf P (fun _ _ => True) c₁ c₂)
    (hleader : (c₂.peers s.message.to).role = .leader)
    (hleaderTerm : (c₂.peers s.message.to).currentTerm = t)
    (hterm : (c₂.peers s.message.from).currentTerm = t) :
    m ≤ (c₂.peers s.message.from).log.length ∧ m ≤ (c₂.peers s.message.to).log.length ∧
      ∀ i, 1 ≤ i → i ≤ m → ∃ entry, (c₂.peers s.message.from).logEntry i = some entry ∧
        (c₂.peers s.message.to).logEntry i = some entry := by
  obtain ⟨a, hheld, hsim⟩ := AcksHeld.run hinit (hrun₁.trans hrun₂)
  have hfrom := hsim.peers s.message.from
  have hto := hsim.peers s.message.to
  obtain ⟨-, hle, hprefix⟩ := hheld s (hrun₂.sent_subset hs) t m hbody
  have hprefix := hprefix (hfrom.term.trans hterm)
  -- the addressee's log is the log of the term
  have hlead := hto.log_eq_lead hsim.inv hleader
  rw [hleaderTerm] at hlead
  rw [hfrom.log, ← hlead] at hprefix
  rw [← hlead] at hle
  have hlen : ((c₂.peers s.message.to).log.take m).length = m := by
    rw [List.length_take]
    omega
  have hlen' := hprefix.length_le
  rw [hlen] at hlen'
  have htake := List.prefix_iff_eq_take.mp hprefix
  rw [hlen] at htake
  refine ⟨hlen', hle, ?_⟩
  intro i hi him
  exact logEntry_eq_of_take hfrom.contiguous hto.contiguous hlen' htake.symm hi him

/-- Peer 1 has acknowledged the no-op of leader 0. -/
def pairAcked : Cluster := scripted [0, 1] fresh (pairScript.take 5)

/-- Leader 0 has committed it and told peer 1 so. -/
def pairTold : Cluster := scripted [0, 1] pairAcked (pairScript.drop 5)

theorem run_ack_truthful_pair :
    ⟨⟨1, 0, .raftAppendEntriesResponse 1 true 1⟩, [.noop 1 1]⟩ ∈ pairAcked.sent ∧
      (pairTold.peers 0).role = .leader ∧ 1 ≤ (pairTold.peers 1).log.length ∧
      1 ≤ (pairTold.peers 0).log.length ∧
      ∀ i, 1 ≤ i → i ≤ 1 → ∃ entry, (pairTold.peers 1).logEntry i = some entry ∧
        (pairTold.peers 0).logEntry i = some entry := by
  have hs : ⟨⟨1, 0, .raftAppendEntriesResponse 1 true 1⟩, [.noop 1 1]⟩ ∈ pairAcked.sent := by
    decide +kernel
  have hleader : (pairTold.peers 0).role = .leader := by decide +kernel
  refine ⟨hs, hleader, ?_⟩
  exact run_ack_truthful fresh_initial (scripted_run [0, 1] fresh _) hs rfl
    (scripted_run [0, 1] pairAcked _) hleader (by decide +kernel) (by decide +kernel)

end Cluster

end Rustchain
