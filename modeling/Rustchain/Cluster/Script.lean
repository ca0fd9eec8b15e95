/-
  Rustchain.Cluster.Script

  Running a cluster.  A script names, line by line, who ticks at what time,
  which of the messages sent so far is delivered, and which blocks are created.
  Performing a line sends every message the effects turn into; a line that the
  cluster cannot perform, or that fails the condition of the run, is skipped.
  Whatever a script does is therefore a run (`script_run`).
-/

import Rustchain.Cluster.Changes
import Rustchain.Reference

namespace Rustchain

namespace Cluster

/-- One line of a script. -/
inductive Cue where
  | tick (p : PeerId) (now : Instant)
  | deliver (k : Nat) (now : Instant)
  | block (p : PeerId) (blockHash : BlockHash)

def Cue.action (members : List PeerId) (c : Cluster) : Cue → Option Action
  | tick p now => some (.tick p now (members.filter (· ≠ p)))
  | deliver k now => c.sent[k]?.map fun s => .deliver s now 0
  | block p blockHash => some (.blockCreated p blockHash)

/-- The messages peer `p` sends to execute an effect, each entry with the
    payload `payload` gives it. -/
def messagesOf (members : List PeerId) (payload : RaftLogEntry → RaftReplicatedBlock)
    (p : PeerId) : ConsensusEffect → List Message
  | .broadcast body =>
    (members.filter (· ≠ p)).map fun q => { «from» := p, «to» := q, body }
  | .send q body => [{ «from» := p, «to» := q, body }]
  | .sendRaftAppendEntries q term prevLogIndex prevLogTerm entries leaderCommit =>
    [{ «from» := p
       «to» := q
       body := .raftAppendEntries term p prevLogIndex prevLogTerm (entries.map payload)
        leaderCommit }]
  | _ => []

/-- The messages of a handler's outcome. -/
def sentBy (members : List PeerId) (payload : RaftLogEntry → RaftReplicatedBlock) (p : PeerId)
    (out : RaftConsensus × Except String (List ConsensusEffect)) : List Sent :=
  match out.2 with
  | .error _ => []
  | .ok effects => (effects.flatMap (messagesOf members payload p)).map (⟨·, out.1.log⟩)

section Perform

variable (pf : Platform) (members : List PeerId) (payload : RaftLogEntry → RaftReplicatedBlock)
  (ok : Cluster → Action → Prop) [∀ c act, Decidable (ok c act)]

def perform (c : Cluster) (cue : Cue) : Cluster :=
  match cue.action members c with
  | none => c
  | some act =>
    if act.peer ∈ members ∧ (c.peers act.peer).currentTerm < 2 ^ 64 - 1 ∧ ok c act then
      { peers := Function.update c.peers act.peer (c.outcome pf act).1
        sent := c.sent ++ sentBy members payload act.peer (c.outcome pf act) }
    else c

def script (c : Cluster) (cues : List Cue) : Cluster :=
  cues.foldl (perform pf members payload ok) c

end Perform

variable {pf : Platform} {members : List PeerId} {payload : RaftLogEntry → RaftReplicatedBlock}
  {ok : Cluster → Action → Prop} [∀ c act, Decidable (ok c act)]

omit [∀ c act, Decidable (ok c act)] in
theorem Cue.action_enabled {c : Cluster} {cue : Cue} {act : Action}
    (h : cue.action members c = some act) : act.Enabled members.toFinset c := by
  cases cue with
  | tick p now =>
      cases h
      intro q
      simp
  | deliver k now =>
      obtain ⟨s, hs, rfl⟩ := Option.map_eq_some_iff.mp h
      exact List.mem_of_getElem? hs
  | block p blockHash =>
      cases h
      trivial

theorem emits_of_mem_messagesOf (hpayload : ∀ entry, (payload entry).entry = entry) {p : PeerId}
    {effect : ConsensusEffect} {m : Message} (h : m ∈ messagesOf members payload p effect) :
    Emits members.toFinset p effect m := by
  cases effect with
  | broadcast body =>
      obtain ⟨q, hq, rfl⟩ := List.mem_map.mp h
      simp only [List.mem_filter, decide_eq_true_eq] at hq
      exact .broadcast body q (List.mem_toFinset.mpr hq.1) hq.2
  | send q body =>
      rw [List.mem_singleton.mp h]
      exact .send q body
  | sendRaftAppendEntries q term prevLogIndex prevLogTerm entries leaderCommit =>
      rw [List.mem_singleton.mp h]
      have hmap : (entries.map payload).map RaftReplicatedBlock.entry = entries := by
        rw [List.map_map]
        conv_rhs => rw [← List.map_id entries]
        exact List.map_congr_left fun entry _ => hpayload entry
      have hemits := Emits.sendRaftAppendEntries (P := members.toFinset) (p := p) q term prevLogIndex
        prevLogTerm (entries.map payload) leaderCommit
      rwa [hmap] at hemits
  | _ => simp [messagesOf] at h

/-- Performing a line is a step of the cluster. -/
theorem perform_step (hpayload : ∀ entry, (payload entry).entry = entry) {c : Cluster} {cue : Cue}
    {act : Action} (hact : cue.action members c = some act) (hmem : act.peer ∈ members)
    (hterm : (c.peers act.peer).currentTerm < 2 ^ 64 - 1) (hok : ok c act) :
    Step pf members.toFinset c act (perform pf members payload ok c cue) := by
  simp only [perform, hact]
  rw [if_pos ⟨hmem, hterm, hok⟩]
  refine ⟨List.mem_toFinset.mpr hmem, Cue.action_enabled hact, hterm, rfl, _, rfl, ?_⟩
  intro s hs
  rw [sentBy] at hs
  split at hs
  · simp at hs
  · rename_i effects heffects
    obtain ⟨m, hm, rfl⟩ := List.mem_map.mp hs
    obtain ⟨effect, heffect, hm⟩ := List.mem_flatMap.mp hm
    exact ⟨rfl, effects, heffects, effect, heffect, emits_of_mem_messagesOf hpayload hm⟩

theorem perform_run (hpayload : ∀ entry, (payload entry).entry = entry) (c : Cluster) (cue : Cue) :
    Run pf members.toFinset ok c (perform pf members payload ok c cue) := by
  cases hact : cue.action members c with
  | none =>
      simp only [perform, hact]
      exact .refl
  | some act =>
      by_cases hguard : act.peer ∈ members ∧ (c.peers act.peer).currentTerm < 2 ^ 64 - 1 ∧ ok c act
      · obtain ⟨hmem, hterm, hok⟩ := hguard
        exact .single ⟨act, hok, perform_step hpayload hact hmem hterm hok⟩
      · simp only [perform, hact]
        rw [if_neg hguard]
        exact .refl

/-- Every script is a run. -/
theorem script_run (hpayload : ∀ entry, (payload entry).entry = entry) (c : Cluster)
    (cues : List Cue) :
    Run pf members.toFinset ok c (script pf members payload ok c cues) := by
  induction cues generalizing c with
  | nil => exact .refl
  | cons cue cues ih => exact (perform_run hpayload c cue).trans (ih _)

omit [∀ c act, Decidable (ok c act)] in
/-- A run under a condition is a run under a weaker one. -/
theorem Run.weaken {P : Finset PeerId} {ok' : Cluster → Action → Prop} {c c' : Cluster}
    (h : Run pf P ok c c') (himp : ∀ c act, ok c act → ok' c act) : Run pf P ok' c c' := by
  induction h with
  | refl => exact .refl
  | tail _ hstep ih =>
      obtain ⟨act, hok, hstep⟩ := hstep
      exact ih.tail ⟨act, himp _ act hok, hstep⟩

-- ============================================================================
-- Scripts on the reference platform
-- ============================================================================

/-- All peers fresh, started at time 0 with the shortest election timeout. -/
def fresh : Cluster where
  peers p := RaftConsensus.new p 0 0
  sent := []

theorem fresh_initial : fresh.Initial := ⟨rfl, fun _ => ⟨0, 0, rfl⟩⟩

/-- No rejection is handled by a leader and no request reaches past what it
    carries: a test that is easy to run and implies both conditions. -/
def Orderly (c : Cluster) : Action → Bool
  | .deliver s _ _ =>
    match s.message.body with
    | .raftAppendEntriesResponse _ success _ => success
    | .raftAppendEntries _ _ prevLogIndex _ entries leaderCommit =>
      min leaderCommit (c.peers s.message.to).lastLogIndex ≤ prevLogIndex + entries.length
    | _ => true
  | _ => true

theorem Orderly.conditions {c : Cluster} {act : Action} (h : Orderly c act = true) :
    c.RejectionsTrue act ∧ c.CommitsCovered act := by
  cases act with
  | deliver s now draw =>
      simp only [RejectionsTrue, CommitsCovered, RejectionTrue, CommitCovered, Orderly] at h ⊢
      cases hbody : s.message.body with
      | raftAppendEntriesResponse term success matchIndex =>
          rw [hbody] at h
          simp only at h
          subst h
          exact ⟨trivial, trivial⟩
      | raftAppendEntries term leaderId prevLogIndex prevLogTerm entries leaderCommit =>
          rw [hbody] at h
          refine ⟨trivial, fun _ _ _ => Or.inl ?_⟩
          exact (of_decide_eq_true h).trans (Nat.le_max_left _ _)
      | _ => exact ⟨trivial, trivial⟩
  | _ => exact ⟨trivial, trivial⟩

/-- A script among `members` on the reference platform, kept orderly. -/
def orderly (members : List PeerId) (c : Cluster) (cues : List Cue) : Cluster :=
  script Reference.platform members Reference.payload (fun c act => Orderly c act = true) c cues

/-- A script among `members` on the reference platform. -/
def scripted (members : List PeerId) (c : Cluster) (cues : List Cue) : Cluster :=
  script Reference.platform members Reference.payload (fun _ _ => True) c cues

theorem orderly_run (members : List PeerId) (c : Cluster) (cues : List Cue) :
    Run Reference.platform members.toFinset
      (fun c act => c.RejectionsTrue act ∧ c.CommitsCovered act) c (orderly members c cues) :=
  Run.weaken (script_run (fun _ => rfl) c cues) fun _ _ => Orderly.conditions

/-- A line that passes its guard is a step. -/
theorem orderly_step (members : List PeerId) (c : Cluster) (cue : Cue)
    (h : (cue.action members c).any (fun act => decide (act.peer ∈ members ∧
      (c.peers act.peer).currentTerm < 2 ^ 64 - 1 ∧ Orderly c act = true)) = true) :
    ∃ act, (c.RejectionsTrue act ∧ c.CommitsCovered act) ∧
      Step Reference.platform members.toFinset c act (orderly members c [cue]) := by
  cases hact : cue.action members c with
  | none =>
      rw [hact] at h
      cases h
  | some act =>
      rw [hact, Option.any_some, decide_eq_true_eq] at h
      obtain ⟨hmem, hterm, hok⟩ := h
      refine ⟨act, Orderly.conditions hok, ?_⟩
      show Step Reference.platform members.toFinset c act (perform Reference.platform members
        Reference.payload (fun c act => Orderly c act = true) c cue)
      exact perform_step (fun _ => rfl) hact hmem hterm hok

theorem scripted_run (members : List PeerId) (c : Cluster) (cues : List Cue) :
    Run Reference.platform members.toFinset (fun _ _ => True) c (scripted members c cues) :=
  script_run (fun _ => rfl) c cues

theorem scripted_step (members : List PeerId) (c : Cluster) (cue : Cue)
    (h : (cue.action members c).any (fun act => decide (act.peer ∈ members ∧
      (c.peers act.peer).currentTerm < 2 ^ 64 - 1)) = true) :
    ∃ act, Step Reference.platform members.toFinset c act (scripted members c [cue]) := by
  cases hact : cue.action members c with
  | none =>
      rw [hact] at h
      cases h
  | some act =>
      rw [hact, Option.any_some, decide_eq_true_eq] at h
      refine ⟨act, ?_⟩
      show Step Reference.platform members.toFinset c act (perform Reference.platform members
        Reference.payload (fun _ _ => True) c cue)
      exact perform_step (fun _ => rfl) hact h.1 h.2 trivial

end Cluster
end Rustchain
