/-
  Rustchain.Consensus.Raft.History

  The life of one Raft peer: it is built on a store, handles whatever it
  receives, and may later be rebuilt on what it left in the store.

  Committed entries never change, the blocks are committed once each and in log
  order, and the store holds what memory holds, as long as saves succeed.  Each
  is what one event records (`RaftConsensus.handle_recorded`), carried through
  the run by induction on its events.
-/

import Rustchain.Consensus.Raft.Record
import Rustchain.Reference

namespace Rustchain

namespace RaftConsensus

/-- The events one after the other, with all the effects the handlers return. -/
def handleAll (pf : Platform) :
    RaftConsensus → List RaftEvent → RaftConsensus × List ConsensusEffect
  | r, [] => (r, [])
  | r, event :: events =>
    let (r', result) := r.handle pf event
    let (r'', effects) := r'.handleAll pf events
    (r'', result.toOption.getD [] ++ effects)

theorem handleAll_cons (pf : Platform) (r : RaftConsensus) (event : RaftEvent)
    (events : List RaftEvent) :
    r.handleAll pf (event :: events) =
      (((r.handle pf event).1.handleAll pf events).1,
        (r.handle pf event).2.toOption.getD [] ++
          ((r.handle pf event).1.handleAll pf events).2) := rfl

end RaftConsensus

-- ============================================================================
-- One event
-- ============================================================================

namespace Recorded

variable {pf : Platform} {same : Prop} {r : RaftConsensus}
  {out : RaftConsensus × Except String (List ConsensusEffect)}

theorem advance (h : Recorded pf same r out) (hlog : Contiguous 0 r.log) :
    Advance r.log r.commitIndex out.1.log out.1.commitIndex := by
  cases h with
  | keeps hkeeps =>
      show Advance r.log r.commitIndex _ _
      rw [hkeeps.log, hkeeps.commitIndex]
      exact Advance.refl hlog
  | saves hadvance =>
      rw [RaftConsensus.persistThen_fst]
      exact hadvance

/-- While saves succeed, the commits of an event are the blocks between the two
    commit indexes. -/
theorem commits (h : Recorded pf same r out) (hlog : Contiguous 0 r.log)
    (hsave : r.raftLogStore.SavesSucceed) :
    out.1.raftLogStore.SavesSucceed ∧
      commitHashes (out.2.toOption.getD []) =
        blockHashes (entriesBetween out.1.log r.commitIndex out.1.commitIndex) := by
  cases h with
  | @keeps r' result hkeeps hcommits =>
      constructor
      · show r'.raftLogStore.SavesSucceed
        rw [hkeeps.raftLogStore]
        exact hsave
      · have hnone : commitHashes (result.toOption.getD []) = [] := by
          cases result with
          | error e => rfl
          | ok effects => exact hcommits effects rfl
        rw [hnone, hkeeps.log, hkeeps.commitIndex, hlog.entriesBetween]
        simp [blockHashes]
  | @saves r' effects hadvance hstore hcommits hsame =>
      rw [← hstore] at hsave
      obtain ⟨hok, hsaves⟩ := AnyRaftLogStore.save_of_savesSucceed pf hsave r'.log r'.commitIndex
      rw [RaftConsensus.persistThen_fst, RaftConsensus.persistThen_snd, hok]
      exact ⟨hsaves, hcommits⟩

end Recorded

-- ============================================================================
-- Runs
-- ============================================================================

namespace RaftConsensus

variable {pf : Platform} {r : RaftConsensus}

/-- A run moves the log on. -/
theorem handleAll_advance (pf : Platform) (hlog : Contiguous 0 r.log) (events : List RaftEvent) :
    Advance r.log r.commitIndex (r.handleAll pf events).1.log
      (r.handleAll pf events).1.commitIndex := by
  induction events generalizing r with
  | nil => exact Advance.refl hlog
  | cons event events ih =>
      have hfirst := (handle_recorded pf hlog event).advance hlog
      rw [handleAll_cons]
      exact hfirst.trans (ih hfirst.contiguous)

end RaftConsensus

-- ============================================================================
-- Stores
-- ============================================================================

/-- A store as a peer may find it: empty, or left behind by a peer that was built
    on such a store and handled any events, whether its saves succeeded or not. -/
inductive Written (pf : Platform) : AnyRaftLogStore → Prop where
  | empty {store : AnyRaftLogStore} (h : store.IsEmpty) : Written pf store
  | reopened {store store' : AnyRaftLogStore} {peerId : PeerId} {commitIndex : Nat}
      {now : Instant} {draw : Nat} {r : RaftConsensus} (h : Written pf store)
      (hnew : RaftConsensus.newWithStorage pf peerId store commitIndex now draw = .ok r)
      (events : List RaftEvent)
      (hopen : AnyRaftLogStore.Reopens (r.handleAll pf events).1.raftLogStore store') :
      Written pf store'

/-- The entries of the loaded log carry their indexes and the commit index lies
    within it; a log without commit index is empty. -/
structure RaftLogState.Sound (state : RaftLogState) : Prop where
  contiguous : Contiguous 0 state.log
  commitIndex_le : ∀ commitIndex, state.commitIndex = some commitIndex →
    commitIndex ≤ state.log.length
  empty : state.commitIndex = none → state.log = []

/-- The store can be read, and what it holds is sound. -/
def StoreSound (pf : Platform) (store : AnyRaftLogStore) : Prop :=
  store.ReadsSucceed ∧ ∃ state, store.load pf = .ok state ∧ state.Sound

theorem RaftLogState.Sound.saved {log : List RaftLogEntry} {commitIndex : Nat}
    (hlog : Contiguous 0 log) (hle : commitIndex ≤ log.length) :
    RaftLogState.Sound { log, commitIndex := some commitIndex } := by
  refine ⟨hlog, ?_, fun h => by cases h⟩
  rintro _ ⟨⟩
  exact hle

theorem AnyRaftLogStore.IsEmpty.storeSound {pf : Platform} {store : AnyRaftLogStore}
    (h : store.IsEmpty) : StoreSound pf store := by
  refine ⟨h.readsSucceed, _, h.load pf, Contiguous.nil 0, ?_, fun _ => rfl⟩
  intro commitIndex hsaved
  cases hsaved

/-- A save of a sound log leaves a sound store, even when it fails. -/
theorem StoreSound.save {pf : Platform} (hpf : pf.Lawful) {store : AnyRaftLogStore}
    (h : StoreSound pf store) {log : List RaftLogEntry} {commitIndex : Nat}
    (hlog : Contiguous 0 log) (hle : commitIndex ≤ log.length) :
    StoreSound pf (store.save pf log commitIndex).1 := by
  obtain ⟨hreads, state, hload, hsound⟩ := h
  obtain ⟨hreads', hload'⟩ := AnyRaftLogStore.load_save hpf hreads log commitIndex
  refine ⟨hreads', ?_⟩
  split at hload'
  · exact ⟨_, hload', .saved hlog hle⟩
  · exact ⟨state, hload'.trans hload, hsound⟩

namespace RaftConsensus

variable {pf : Platform}

/-- A peer built on a sound store starts with what the store holds. -/
theorem newWithStorage_sound {store : AnyRaftLogStore} (h : StoreSound pf store)
    (peerId : PeerId) (commitIndex : Nat) (now : Instant) (draw : Nat) :
    ∃ r, newWithStorage pf peerId store commitIndex now draw = .ok r ∧
      r.raftLogStore = store ∧ Contiguous 0 r.log ∧ r.commitIndex ≤ r.log.length ∧
      (store.load pf = .ok { log := [], commitIndex := none } ∧ r.log = [] ∧ r.commitIndex = 0 ∨
        store.load pf = .ok { log := r.log, commitIndex := some r.commitIndex }) := by
  obtain ⟨-, ⟨log, saved⟩, hload, hsound⟩ := h
  have hlog : Contiguous 0 log := hsound.contiguous
  refine ⟨newWithLog peerId log (saved.getD commitIndex) store now draw, ?_, rfl, hlog, ?_, ?_⟩
  · rw [newWithStorage, hload]
  · show min (saved.getD commitIndex) (lastIndexOf log) ≤ log.length
    rw [hlog.lastIndexOf]
    exact Nat.min_le_right _ _
  · cases saved with
    | none =>
        have hempty : log = [] := hsound.empty rfl
        subst hempty
        exact Or.inl ⟨hload, rfl, Nat.min_zero _⟩
    | some saved =>
        have hle : saved ≤ log.length := hsound.commitIndex_le saved rfl
        refine Or.inr ?_
        show store.load pf = .ok { log, commitIndex := some (min saved (lastIndexOf log)) }
        rw [hlog.lastIndexOf, Nat.min_eq_left hle]
        exact hload

/-- One event keeps a store sound. -/
theorem handle_storeSound (hpf : pf.Lawful) {r : RaftConsensus} (hlog : Contiguous 0 r.log)
    (hle : r.commitIndex ≤ r.log.length) (hstore : StoreSound pf r.raftLogStore)
    (event : RaftEvent) : StoreSound pf (r.handle pf event).1.raftLogStore := by
  have hrecorded := handle_recorded pf hlog event
  generalize r.handle pf event = out at hrecorded
  cases hrecorded with
  | @keeps r' _ hkeeps _ =>
      show StoreSound pf r'.raftLogStore
      rw [hkeeps.raftLogStore]
      exact hstore
  | saves hadvance hsame _ _ =>
      rw [persistThen_fst]
      rw [← hsame] at hstore
      exact hstore.save hpf hadvance.contiguous (hadvance.take_eq hle).1

theorem handleAll_storeSound (hpf : pf.Lawful) {r : RaftConsensus} (hlog : Contiguous 0 r.log)
    (hle : r.commitIndex ≤ r.log.length) (hstore : StoreSound pf r.raftLogStore)
    (events : List RaftEvent) : StoreSound pf (r.handleAll pf events).1.raftLogStore := by
  induction events generalizing r with
  | nil => exact hstore
  | cons event events ih =>
      have hfirst := (handle_recorded pf hlog event).advance hlog
      rw [handleAll_cons]
      exact ih hfirst.contiguous (hfirst.take_eq hle).1 (handle_storeSound hpf hlog hle hstore event)

end RaftConsensus

/-- Whatever happened to a store, it is sound. -/
theorem Written.storeSound {pf : Platform} (hpf : pf.Lawful) {store : AnyRaftLogStore}
    (h : Written pf store) : StoreSound pf store := by
  induction h with
  | empty h => exact h.storeSound
  | @reopened store store' peerId commitIndex now draw r _ hnew events hopen ih =>
      obtain ⟨r', hnew', hstore, hlog, hle, -⟩ :=
        RaftConsensus.newWithStorage_sound ih peerId commitIndex now draw
      have heq : r' = r := Except.ok.inj (hnew'.symm.trans hnew)
      subst heq
      rw [← hstore] at ih
      obtain ⟨hreads, state, hload, hsound⟩ :=
        RaftConsensus.handleAll_storeSound hpf hlog hle ih events
      exact ⟨hopen.readsSucceed hreads, state, (hopen.load pf).trans hload, hsound⟩

-- ============================================================================
-- A peer on a file store
-- ============================================================================

namespace Reference

/-- A store whose file does not exist yet and whose saves meet the given errors. -/
def fileStore (saveError : Nat → Option SaveError) : FileRaftLogStore :=
  ⟨"data/peer1", none, none, 0, saveError⟩

/-- The disk is full after the first save. -/
def fullDisk (save : Nat) : Option SaveError :=
  if save = 0 then none else some (.write "No space left on device")

/-- Peer 1, built on such a store. -/
def storedPeer (saveError : Nat → Option SaveError) : RaftConsensus :=
  .newWithLog 1 [] 0 (.file (fileStore saveError)) 0 0

theorem storedPeer_built (saveError : Nat → Option SaveError) :
    Written platform (.file (fileStore saveError)) ∧
      RaftConsensus.newWithStorage platform 1 (.file (fileStore saveError)) 0 0 0 =
        .ok (storedPeer saveError) :=
  ⟨.empty ⟨rfl, rfl⟩, rfl⟩

theorem storedPeer_savesSucceed : (storedPeer fun _ => none).raftLogStore.SavesSucceed :=
  fun _ => rfl

/-- Peer 1 has no others, elects itself and creates a block. -/
def loneRun : List RaftEvent := [.tick 20000 [], .blockCreated 7]

/-- A request of leader 2 with its no-op of term 1. -/
def noopRequest : RaftEvent :=
  .receive 2 (.raftAppendEntries 1 2 0 0 [payload (.noop 1 1)] 0) 0 0

end Reference

-- ============================================================================
-- Committed history
-- ============================================================================

namespace RaftConsensus

section Built

variable {pf : Platform} {store : AnyRaftLogStore} {peerId : PeerId} {commitIndex : Nat}
  {now : Instant} {draw : Nat} {r : RaftConsensus}

/-- A peer built on a store that this code may have left starts with a log whose
    entries carry their indexes and a commit index within it. -/
theorem built_sound (hpf : pf.Lawful) (hstore : Written pf store)
    (hnew : newWithStorage pf peerId store commitIndex now draw = .ok r) :
    r.raftLogStore = store ∧ Contiguous 0 r.log ∧ r.commitIndex ≤ r.log.length ∧
      (store.load pf = .ok { log := [], commitIndex := none } ∧ r.log = [] ∧ r.commitIndex = 0 ∨
        store.load pf = .ok { log := r.log, commitIndex := some r.commitIndex }) := by
  obtain ⟨r', hnew', hsound⟩ :=
    newWithStorage_sound (hstore.storeSound hpf) peerId commitIndex now draw
  have heq : r' = r := Except.ok.inj (hnew'.symm.trans hnew)
  exact heq ▸ hsound

/-- Whatever a peer receives: entry number `k` of its log carries index `k + 1`,
    the commit index lies within the log and never falls, and no entry up to the
    commit index is ever changed or removed. -/
theorem committed_history_immutable (hpf : pf.Lawful) (hstore : Written pf store)
    (hnew : newWithStorage pf peerId store commitIndex now draw = .ok r)
    (events later : List RaftEvent) :
    let s := (r.handleAll pf events).1
    let s' := (s.handleAll pf later).1
    Contiguous 0 s.log ∧ s.commitIndex ≤ s.lastLogIndex ∧ s.commitIndex ≤ s'.commitIndex ∧
      s'.log.take s.commitIndex = s.log.take s.commitIndex := by
  obtain ⟨-, hlog, hle, -⟩ := built_sound hpf hstore hnew
  have hrun := handleAll_advance pf hlog events
  have hlater := handleAll_advance pf hrun.contiguous later
  have hle' := (hrun.take_eq hle).1
  refine ⟨hrun.contiguous, ?_, hlater.mono, (hlater.take_eq hle').2⟩
  rw [lastLogIndex, hrun.contiguous.lastIndexOf]
  exact hle'

end Built

theorem committed_history_immutable_loneRun :
    let s := ((Reference.storedPeer Reference.fullDisk).handleAll Reference.platform
      Reference.loneRun).1
    let s' := (s.handleAll Reference.platform [Reference.noopRequest]).1
    s.commitIndex = 2 ∧ Contiguous 0 s.log ∧ s.commitIndex ≤ s.lastLogIndex ∧
      s.commitIndex ≤ s'.commitIndex ∧ s'.log.take s.commitIndex = s.log.take s.commitIndex :=
  ⟨by decide +kernel, committed_history_immutable Reference.platform_lawful
    (Reference.storedPeer_built Reference.fullDisk).1
    (Reference.storedPeer_built Reference.fullDisk).2 Reference.loneRun [Reference.noopRequest]⟩

-- ============================================================================
-- Commits
-- ============================================================================

/-- The `CommitBlock` effects of a run name the blocks of the log between the first
    and the last commit index, each once and in log order. -/
theorem commitBlock_effects_in_log_order {pf : Platform} {r : RaftConsensus}
    (hlog : Contiguous 0 r.log)
    (hsave : r.raftLogStore.SavesSucceed) (events : List RaftEvent) :
    commitHashes (r.handleAll pf events).2 =
      blockHashes (entriesBetween (r.handleAll pf events).1.log r.commitIndex
        (r.handleAll pf events).1.commitIndex) := by
  induction events generalizing r with
  | nil =>
      show [] = blockHashes (entriesBetween r.log r.commitIndex r.commitIndex)
      rw [hlog.entriesBetween]
      simp [blockHashes]
  | cons event events ih =>
      have hevent := handle_recorded pf hlog event
      have hfirst := hevent.advance hlog
      obtain ⟨hsave', hcommits⟩ := hevent.commits hlog hsave
      have hrest := handleAll_advance pf hfirst.contiguous events
      rw [handleAll_cons]
      simp only
      rw [commitHashes_append, hcommits, ih hfirst.contiguous hsave',
        ← hfirst.entriesBetween_append hrest, blockHashes, blockHashes, blockHashes,
        List.filter_append, List.map_append]

theorem commitBlock_effects_loneRun :
    let out := (Reference.storedPeer fun _ => none).handleAll Reference.platform Reference.loneRun
    out.1.commitIndex = 2 ∧ blockHashes (entriesBetween out.1.log 0 2) = [7] ∧
      commitHashes out.2 = [7] := by
  intro out
  have hinOrder : commitHashes out.2 = blockHashes (entriesBetween out.1.log 0 out.1.commitIndex) :=
    commitBlock_effects_in_log_order (Contiguous.nil 0) Reference.storedPeer_savesSucceed
      Reference.loneRun
  have hindex : out.1.commitIndex = 2 := by decide +kernel
  have hblocks : blockHashes (entriesBetween out.1.log 0 2) = [7] := by decide +kernel
  rw [hindex] at hinOrder
  exact ⟨hindex, hblocks, hinOrder.trans hblocks⟩

-- ============================================================================
-- Store and memory
-- ============================================================================

/-- The store holds what memory holds: nothing was ever saved and the log is
    empty, or the store loads exactly the log and the commit index. -/
def Mirrors (pf : Platform) (r : RaftConsensus) : Prop :=
  r.raftLogStore.IsEmpty ∧ r.log = [] ∧ r.commitIndex = 0 ∨
    r.raftLogStore.load pf = .ok { log := r.log, commitIndex := some r.commitIndex }

section Mirrors

variable {pf : Platform} {r : RaftConsensus}

theorem handle_mirrors (hpf : pf.Lawful) (hlog : Contiguous 0 r.log)
    (hsave : r.raftLogStore.SavesSucceed) (hreads : r.raftLogStore.ReadsSucceed)
    (h : r.Mirrors pf) (event : RaftEvent) : (r.handle pf event).1.Mirrors pf := by
  have hrecorded := handle_recorded pf hlog event
  generalize r.handle pf event = out at hrecorded
  cases hrecorded with
  | @keeps r' _ hkeeps _ =>
      show r'.Mirrors pf
      rw [Mirrors, hkeeps.log, hkeeps.commitIndex, hkeeps.raftLogStore]
      exact h
  | @saves r' _ _ hstore _ _ =>
      rw [persistThen_fst]
      rw [← hstore] at hsave hreads
      have hload := (AnyRaftLogStore.load_save hpf hreads r'.log r'.commitIndex).2
      rw [(AnyRaftLogStore.save_of_savesSucceed pf hsave r'.log r'.commitIndex).1] at hload
      exact Or.inr hload

theorem handleAll_mirrors (hpf : pf.Lawful) (hlog : Contiguous 0 r.log)
    (hle : r.commitIndex ≤ r.log.length) (hsave : r.raftLogStore.SavesSucceed)
    (hstore : StoreSound pf r.raftLogStore) (h : r.Mirrors pf) (events : List RaftEvent) :
    (r.handleAll pf events).1.Mirrors pf := by
  induction events generalizing r with
  | nil => exact h
  | cons event events ih =>
      have hrecorded := handle_recorded pf hlog event
      have hfirst := hrecorded.advance hlog
      rw [handleAll_cons]
      exact ih hfirst.contiguous (hfirst.take_eq hle).1 (hrecorded.commits hlog hsave).1
        (handle_storeSound hpf hlog hle hstore event)
        (handle_mirrors hpf hlog hsave hstore.1 h event)

/-- A peer built on a store that mirrors memory has the same log and commit index. -/
theorem Mirrors.rebuilt (h : r.Mirrors pf) (hstore : StoreSound pf r.raftLogStore)
    (peerId : PeerId) (commitIndex : Nat) (now : Instant) (draw : Nat) :
    ∃ r', newWithStorage pf peerId r.raftLogStore commitIndex now draw = .ok r' ∧
      r'.raftLogStore = r.raftLogStore ∧ r'.log = r.log ∧ r'.commitIndex = r.commitIndex := by
  obtain ⟨r', hnew, hown, -, -, hload⟩ := newWithStorage_sound hstore peerId commitIndex now draw
  refine ⟨r', hnew, hown, ?_⟩
  rcases h with ⟨hempty, hlog, hcommit⟩ | hmirrors
  · rw [hempty.load pf] at hload
    rcases hload with ⟨-, hlog', hcommit'⟩ | hload
    · exact ⟨hlog'.trans hlog.symm, hcommit'.trans hcommit.symm⟩
    · cases congrArg RaftLogState.commitIndex (Except.ok.inj hload)
  · rw [hmirrors] at hload
    rcases hload with ⟨hload, -⟩ | hload
    · cases congrArg RaftLogState.commitIndex (Except.ok.inj hload)
    · have hstate := Except.ok.inj hload
      exact ⟨(congrArg RaftLogState.log hstate).symm,
        (Option.some.inj (congrArg RaftLogState.commitIndex hstate)).symm⟩

/-- As long as saves succeed, the store holds what memory holds after every event,
    and a peer built on it again has the same log and commit index. -/
theorem store_mirrors_memory {store : AnyRaftLogStore} {peerId : PeerId} {commitIndex : Nat}
    {now : Instant} {draw : Nat} (hpf : pf.Lawful) (hstore : Written pf store)
    (hnew : newWithStorage pf peerId store commitIndex now draw = .ok r)
    (hsave : store.SavesSucceed) (events : List RaftEvent) :
    let s := (r.handleAll pf events).1
    (s.raftLogStore.IsEmpty ∧ s.log = [] ∧ s.commitIndex = 0 ∨
      s.raftLogStore.load pf = .ok { log := s.log, commitIndex := some s.commitIndex }) ∧
    ∀ peerId commitIndex now draw, ∃ s',
      newWithStorage pf peerId s.raftLogStore commitIndex now draw = .ok s' ∧
        s'.log = s.log ∧ s'.commitIndex = s.commitIndex := by
  obtain ⟨hown, hlog, hle, hload⟩ := built_sound hpf hstore hnew
  have hsound := hstore.storeSound hpf
  subst hown
  have hmirrors : r.Mirrors pf := by
    rcases hload with ⟨hload, hempty⟩ | hload
    · exact Or.inl ⟨AnyRaftLogStore.isEmpty_of_load hsound.1 hload, hempty⟩
    · exact Or.inr hload
  have hrun := handleAll_mirrors hpf hlog hle hsave hsound hmirrors events
  refine ⟨hrun, ?_⟩
  intro peerId' commitIndex' now' draw'
  obtain ⟨s', hnew', -, hsame⟩ := hrun.rebuilt
    (handleAll_storeSound hpf hlog hle hsound events) peerId' commitIndex' now' draw'
  exact ⟨s', hnew', hsame⟩

end Mirrors

theorem store_mirrors_loneRun :
    let s := ((Reference.storedPeer fun _ => none).handleAll Reference.platform
      Reference.loneRun).1
    s.log.length = 2 ∧
    (s.raftLogStore.IsEmpty ∧ s.log = [] ∧ s.commitIndex = 0 ∨
      s.raftLogStore.load Reference.platform =
        .ok { log := s.log, commitIndex := some s.commitIndex }) ∧
    ∀ peerId commitIndex now draw, ∃ s',
      newWithStorage Reference.platform peerId s.raftLogStore commitIndex now draw = .ok s' ∧
        s'.log = s.log ∧ s'.commitIndex = s.commitIndex :=
  ⟨by decide +kernel, store_mirrors_memory Reference.platform_lawful
    (Reference.storedPeer_built _).1 (Reference.storedPeer_built _).2
    Reference.storedPeer_savesSucceed Reference.loneRun⟩

-- ============================================================================
-- Failed saves
-- ============================================================================

/-- The call returns the error of the save it attempted. -/
def FailsToSave (pf : Platform) (r : RaftConsensus) (event : RaftEvent) : Prop :=
  ∃ e, (r.handle pf event).2 = .error e ∧
    r.raftLogStore.save pf (r.handle pf event).1.log (r.handle pf event).1.commitIndex =
      ((r.handle pf event).1.raftLogStore, .error e)

/-- When the save of a call fails, log and commit index are what they were exactly
    if the call is a request that repeats entries of the log and asks for no
    higher commit index. -/
theorem failed_save_intact_iff {pf : Platform} {r : RaftConsensus} (hlog : Contiguous 0 r.log)
    (event : RaftEvent) (hfail : r.FailsToSave pf event) :
    (r.handle pf event).1.log = r.log ∧ (r.handle pf event).1.commitIndex = r.commitIndex ↔
      event.Repeats r := by
  obtain ⟨e, -, hsave⟩ := hfail
  have hrecorded := handle_recorded pf hlog event
  generalize r.handle pf event = out at hrecorded hsave
  cases hrecorded with
  | keeps hkeeps _ =>
      dsimp only at hsave
      rw [hkeeps.raftLogStore] at hsave
      exact absurd hsave (AnyRaftLogStore.save_ne_error pf _ _ _ e)
  | saves _ _ _ hsame =>
      rw [persistThen_fst]
      exact hsame

/-- A follower that hears the same request again. -/
theorem failed_save_intact_repeated :
    let r := ((Reference.storedPeer Reference.fullDisk).handleAll Reference.platform
      [.tick 0 [2], Reference.noopRequest]).1
    r.FailsToSave Reference.platform Reference.noopRequest ∧
      (r.handle Reference.platform Reference.noopRequest).1.log = r.log ∧
      (r.handle Reference.platform Reference.noopRequest).1.commitIndex = r.commitIndex := by
  intro r
  have hlog : Contiguous 0 r.log :=
    (handleAll_advance (r := Reference.storedPeer Reference.fullDisk) Reference.platform
      (Contiguous.nil 0) _).contiguous
  have hfail : r.FailsToSave Reference.platform Reference.noopRequest := ⟨_, rfl, rfl⟩
  refine ⟨hfail, (failed_save_intact_iff hlog Reference.noopRequest hfail).mpr ?_⟩
  show _ ∧ _
  decide +kernel

/-- A leader whose save fails has appended and committed its block all the same, and
    returns no effect. -/
theorem failed_save_commits_block :
    let r := ((Reference.storedPeer Reference.fullDisk).handle Reference.platform
      (.tick 20000 [])).1
    r.FailsToSave Reference.platform (.blockCreated 7) ∧
      ¬((r.handle Reference.platform (.blockCreated 7)).1.log = r.log ∧
        (r.handle Reference.platform (.blockCreated 7)).1.commitIndex = r.commitIndex) ∧
      r.commitIndex = 1 ∧ (r.handle Reference.platform (.blockCreated 7)).1.commitIndex = 2 := by
  refine ⟨⟨_, rfl, rfl⟩, ?_⟩
  decide +kernel

end RaftConsensus

end Rustchain
