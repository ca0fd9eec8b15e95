/-
  Rustchain.Synchronization

  How a peer fetches the blocks it lacks (`synchronization.rs`).

  The network is whatever the environment makes of it: every call of
  `known_peers` may return another list, every request may fail or be answered
  with anything.  What one call of `get_block_file` meets is a `Round`; a run meets
  one round after the other.  The random choices are part of the round.  A panic
  of the code is an outcome of its own.
-/

import Mathlib.Data.List.Perm.Subperm
import Rustchain.Peer.Approval

namespace Rustchain

-- ============================================================================
-- The environment
-- ============================================================================

/-- `choose_multiple`: that many elements of the slice without repetition, or all of
    them when there are fewer. -/
structure Sampler where
  choose : List PeerId → Nat → List PeerId
  subperm : ∀ peers amount, (choose peers amount).Subperm peers
  length : ∀ peers amount, (choose peers amount).length = min amount peers.length

/-- What one call of `get_block_file` meets. -/
structure Round where
  /-- What `known_peers` returns at its start. -/
  knownPeers : List PeerId
  sampler : Sampler
  /-- The answers to `GetBlockState`.  A peer left out of the answers counts as one
      whose request failed. -/
  blockState : PeerId → Except String BlockStorageState
  /-- The number that `random_range` draws, before it is brought into the range. -/
  draw : Nat
  /-- The answers to `GetBlock`. -/
  block : PeerId → Except String BlockFile

/-- What one call of `check_and_retrieve_missing_blocks` meets. -/
structure SyncNetwork where
  knownPeers : List PeerId
  /-- The answers to `GetLatestBlockState`. -/
  latestState : PeerId → Except String BlockStorageState
  round : Nat → Round

-- ============================================================================
-- The states of the peers
-- ============================================================================

structure PeersStates where
  states : HashMap PeerId BlockStorageState

namespace PeersStates

def getPeersForIndex (s : PeersStates) (index : Nat) : List PeerId :=
  (s.states.entries.filter fun e => e.2.blockHeight ≥ index).map Sigma.fst

def getMaxIndex (s : PeersStates) : Nat :=
  (s.states.entries.map fun e => e.2.blockHeight).max?.getD 0

end PeersStates

/-- `get_latest_indexes`: the answers that came. -/
def SyncNetwork.getLatestIndexes (network : SyncNetwork) : HashMap PeerId BlockStorageState :=
  network.knownPeers.foldl
    (fun results peerId =>
      match network.latestState peerId with
      | .ok state => results.insert peerId state
      | .error _ => results) ∅

/-- `block_states_match`: each answer is the one after it. -/
def blockStatesMatch : List BlockStorageState → Bool
  | a :: b :: states => a == b && blockStatesMatch (b :: states)
  | _ => true

-- ============================================================================
-- Fetching a block
-- ============================================================================

inductive Panic where
  /-- `random_range` on an empty range. -/
  | emptyRange
  | indexOutOfBounds
deriving DecidableEq, Repr

namespace Round

def numberOfPeers (round : Round) : Nat := min round.knownPeers.length 3

def peersToRequest (round : Round) (idx : Nat) (states : PeersStates) : List PeerId :=
  round.sampler.choose (states.getPeersForIndex idx) round.numberOfPeers

/-- The answers to `GetBlockState` that came.  Their order, which is that of a hash map
    in the source, makes no difference to whether they match. -/
def results (round : Round) (idx : Nat) (states : PeersStates) : List BlockStorageState :=
  (round.peersToRequest idx states).filterMap fun peer => (round.blockState peer).toOption

def getBlockFile (round : Round) (idx : Nat) (states : PeersStates) :
    Except Panic (Option BlockFile) :=
  let results := round.results idx states
  if results.length = round.numberOfPeers ∧ blockStatesMatch results then
    if round.numberOfPeers = 0 then .error .emptyRange
    else
      match (round.peersToRequest idx states)[round.draw % round.numberOfPeers]? with
      | none => .error .indexOutOfBounds
      | some randomPeer => .ok (round.block randomPeer).toOption
  else .ok none

end Round

-- ============================================================================
-- Fetching what is missing
-- ============================================================================

inductive SyncState where
  | success
  | fail
deriving DecidableEq, Repr

/-- A call of `get_block_file` in a run. -/
structure Attempt where
  idx : Nat
  round : Round

def Attempt.fetched (a : Attempt) (states : PeersStates) : Except Panic (Option BlockFile) :=
  a.round.getBlockFile a.idx states

section Retrieve

variable {σ : Type}

/-- The loop of `check_and_retrieve_missing_blocks`, with the calls of `get_block_file`
    it makes.  `applyBlock` works on a state of the caller.  The result is missing if
    the fuel runs out. -/
def retrieve (round : Nat → Round) (states : PeersStates)
    (applyBlock : σ → BlockFile → σ × Except String Unit) :
    Nat → Nat → Nat → Nat → σ → σ × List Attempt × Option (Except Panic SyncState)
  | 0, _, _, _, s => (s, [], none)
  | fuel + 1, n, idx, errorsCount, s =>
    if idx > states.getMaxIndex then (s, [], some (.ok .success))
    else if errorsCount = 3 then (s, [], some (.ok .fail))
    else
      let attempt : Attempt := { idx, round := round n }
      let (s, attempts, result) :=
        match attempt.fetched states with
        | .error panic => (s, [], some (.error panic))
        | .ok none => retrieve round states applyBlock fuel (n + 1) idx (errorsCount + 1) s
        | .ok (some blockFile) =>
          match applyBlock s blockFile with
          | (s, .ok ()) => retrieve round states applyBlock fuel (n + 1) (idx + 1) errorsCount s
          | (s, .error _) =>
            retrieve round states applyBlock fuel (n + 1) idx (errorsCount + 1) s
      (s, attempt :: attempts, result)

/-- `check_and_retrieve_missing_blocks`.  A fetch gets on by one index or uses up one of
    three errors, which bounds their number. -/
def checkAndRetrieveMissingBlocks (network : SyncNetwork) (peerHeight : Nat)
    (applyBlock : σ → BlockFile → σ × Except String Unit) (s : σ) :
    σ × List Attempt × Option (Except Panic SyncState) :=
  let states : PeersStates := ⟨network.getLatestIndexes⟩
  if peerHeight = states.getMaxIndex then (s, [], some (.ok .success))
  else
    retrieve network.round states applyBlock (states.getMaxIndex - peerHeight + 4) 0
      (peerHeight + 1) 0 s

/-- The fuel is enough. -/
theorem retrieve_isSome {round : Nat → Round} {states : PeersStates}
    {applyBlock : σ → BlockFile → σ × Except String Unit} {fuel n idx errorsCount : Nat} {s : σ}
    (herrors : errorsCount ≤ 3)
    (hfuel : states.getMaxIndex + 1 - idx + (3 - errorsCount) < fuel) :
    (retrieve round states applyBlock fuel n idx errorsCount s).2.2.isSome = true := by
  induction fuel generalizing n idx errorsCount s with
  | zero => omega
  | succ fuel ih =>
      unfold retrieve
      by_cases hdone : idx > states.getMaxIndex
      · rw [if_pos hdone]
        rfl
      rw [if_neg hdone]
      by_cases hfail : errorsCount = 3
      · rw [if_pos hfail]
        rfl
      rw [if_neg hfail]
      simp only
      split
      · rfl
      · exact ih (by omega) (by omega)
      · split
        · exact ih herrors (by omega)
        · exact ih (by omega) (by omega)

/-- A synchronization comes to an end. -/
theorem checkAndRetrieveMissingBlocks_isSome (network : SyncNetwork) (peerHeight : Nat)
    (applyBlock : σ → BlockFile → σ × Except String Unit) (s : σ) :
    (checkAndRetrieveMissingBlocks network peerHeight applyBlock s).2.2.isSome = true := by
  unfold checkAndRetrieveMissingBlocks
  simp only
  split
  · rfl
  · exact retrieve_isSome (by omega) (by omega)

end Retrieve

-- ============================================================================
-- What a fetch returns
-- ============================================================================

theorem eq_of_blockStatesMatch {states : List BlockStorageState}
    (h : blockStatesMatch states = true) {a b : BlockStorageState} (ha : a ∈ states) (hb : b ∈ states) : a = b := by
  have hhead : ∀ first rest, blockStatesMatch (first :: rest) = true → ∀ x ∈ rest, x = first := by
    intro first rest
    induction rest generalizing first with
    | nil =>
        intro _ x hx
        cases hx
    | cons second rest ih =>
        intro hmatch x hx
        rw [blockStatesMatch, Bool.and_eq_true, beq_iff_eq] at hmatch
        rcases List.mem_cons.mp hx with rfl | hx
        · exact hmatch.1.symm
        · exact (ih second hmatch.2 x hx).trans hmatch.1.symm
  cases states with
  | nil => cases ha
  | cons first rest =>
      have hfirst : ∀ x ∈ first :: rest, x = first := by
        intro x hx
        rcases List.mem_cons.mp hx with rfl | hx
        · rfl
        · exact hhead first rest h x hx
      rw [hfirst a ha, hfirst b hb]

namespace Round

variable {round : Round} {idx : Nat} {states : PeersStates}

theorem length_peersToRequest_le (round : Round) (idx : Nat) (states : PeersStates) :
    (round.peersToRequest idx states).length ≤ round.numberOfPeers := by
  rw [peersToRequest, round.sampler.length]
  exact Nat.min_le_left _ _

/-- As many answers as peers were to be asked: all of them were asked and answered. -/
theorem answered_of_length (h : (round.results idx states).length = round.numberOfPeers) :
    (round.peersToRequest idx states).length = round.numberOfPeers ∧
      ∀ peer ∈ round.peersToRequest idx states, ∃ state, round.blockState peer = .ok state := by
  have hle := round.length_peersToRequest_le idx states
  have hresults : (round.results idx states).length ≤ (round.peersToRequest idx states).length :=
    List.length_filterMap_le _ _
  have hlength : (round.peersToRequest idx states).length = round.numberOfPeers := by omega
  refine ⟨hlength, ?_⟩
  intro peer hmem
  have hall := List.filterMap_length_eq_length.mp (h.trans hlength.symm) peer hmem
  cases hstate : round.blockState peer with
  | ok state => exact ⟨state, rfl⟩
  | error e =>
      rw [hstate] at hall
      cases hall

/-- The peer that is asked for the block, once the states agree. -/
def asked (round : Round) (idx : Nat) (states : PeersStates) : Option PeerId :=
  if (round.results idx states).length = round.numberOfPeers ∧
      blockStatesMatch (round.results idx states) then
    (round.peersToRequest idx states)[round.draw % round.numberOfPeers]?
  else none

theorem mem_of_asked {peer : PeerId} (h : round.asked idx states = some peer) :
    peer ∈ round.peersToRequest idx states := by
  unfold asked at h
  split at h
  · exact List.mem_of_getElem? h
  · cases h

/-- The peers that were asked for their state all reported the same. -/
theorem blockState_of_asked {peer : PeerId} (h : round.asked idx states = some peer) :
    ∃ state, ∀ other ∈ round.peersToRequest idx states, round.blockState other = .ok state := by
  have hpeer := mem_of_asked h
  unfold asked at h
  split at h
  · rename_i hagree
    obtain ⟨-, hanswered⟩ := answered_of_length hagree.1
    have hresult : ∀ other ∈ round.peersToRequest idx states, ∀ state,
        round.blockState other = .ok state → state ∈ round.results idx states := by
      intro other hother state hstate
      refine List.mem_filterMap.mpr ⟨other, hother, ?_⟩
      rw [hstate]
      rfl
    obtain ⟨state, hstate⟩ := hanswered peer hpeer
    refine ⟨state, ?_⟩
    intro other hother
    obtain ⟨state', hstate'⟩ := hanswered other hother
    rw [hstate', eq_of_blockStatesMatch hagree.2 (hresult other hother state' hstate')
      (hresult peer hpeer state hstate)]
  · cases h

/-- Without a known peer the range is empty; otherwise the draw is in bounds. -/
theorem getBlockFile_eq (round : Round) (idx : Nat) (states : PeersStates) :
    round.getBlockFile idx states =
      if round.knownPeers = [] then .error .emptyRange
      else .ok ((round.asked idx states).bind fun peer => (round.block peer).toOption) := by
  unfold getBlockFile asked
  by_cases hknown : round.knownPeers = []
  · have hnumber : round.numberOfPeers = 0 := by
      rw [numberOfPeers, hknown]
      rfl
    have hpeers : round.peersToRequest idx states = [] := by
      have hle := round.length_peersToRequest_le idx states
      exact List.eq_nil_of_length_eq_zero (by omega)
    have hresults : round.results idx states = [] := by
      rw [results, hpeers]
      rfl
    rw [if_pos hknown]
    simp only [hresults, hnumber]
    rfl
  · have hpos : 0 < round.numberOfPeers := by
      have := List.length_pos_of_ne_nil hknown
      unfold numberOfPeers
      omega
    rw [if_neg hknown]
    simp only
    split
    · rename_i hagree
      have hlt : round.draw % round.numberOfPeers < (round.peersToRequest idx states).length := by
        rw [(answered_of_length hagree.1).1]
        exact Nat.mod_lt _ hpos
      rw [if_neg (by omega), List.getElem?_eq_getElem hlt]
      rfl
    · rfl

/-- A block comes back from the peer that was asked for it. -/
theorem getBlockFile_eq_some_iff {block : BlockFile} :
    round.getBlockFile idx states = .ok (some block) ↔
      ∃ peer, round.asked idx states = some peer ∧ round.block peer = .ok block := by
  rw [getBlockFile_eq]
  by_cases hknown : round.knownPeers = []
  · rw [if_pos hknown]
    constructor
    · intro h
      cases h
    · rintro ⟨peer, hpeer, -⟩
      have hmem := mem_of_asked hpeer
      have hle := round.length_peersToRequest_le idx states
      rw [numberOfPeers, hknown] at hle
      rw [List.eq_nil_of_length_eq_zero (Nat.le_zero.mp hle)] at hmem
      cases hmem
  · rw [if_neg hknown, Except.ok.injEq, Option.bind_eq_some_iff]
    refine exists_congr fun peer => and_congr_right fun _ => ?_
    cases round.block peer with
    | ok fetched =>
        show some fetched = some block ↔ _
        rw [Option.some.injEq, Except.ok.injEq]
    | error e =>
        show none = some block ↔ _
        simp only [reduceCtorEq]

theorem getBlockFile_ne_error_iff :
    (∀ panic, round.getBlockFile idx states ≠ .error panic) ↔ round.knownPeers ≠ [] := by
  rw [getBlockFile_eq]
  constructor
  · intro h hknown
    rw [if_pos hknown] at h
    exact h _ rfl
  · intro hknown panic
    rw [if_neg hknown]
    intro h
    cases h

/-- The block fetched has the index and the hash that all the peers reported exactly if
    the peer it came from reported them: the peers' answers are compared with each other
    and not with the block. -/
theorem getBlockFile_agreed_iff :
    (∀ block, round.getBlockFile idx states = .ok (some block) →
      ∀ peer ∈ round.peersToRequest idx states,
        round.blockState peer = .ok ⟨block.index, block.hash⟩) ↔
      ∀ peer block, round.asked idx states = some peer → round.block peer = .ok block →
        round.blockState peer = .ok ⟨block.index, block.hash⟩ := by
  constructor
  · intro h peer block hasked hblock
    exact h block (getBlockFile_eq_some_iff.mpr ⟨peer, hasked, hblock⟩) peer (mem_of_asked hasked)
  · intro h block hfetched other hother
    obtain ⟨peer, hasked, hblock⟩ := getBlockFile_eq_some_iff.mp hfetched
    obtain ⟨state, hstate⟩ := blockState_of_asked hasked
    rw [hstate other hother, ← hstate peer (mem_of_asked hasked)]
    exact h peer block hasked hblock

end Round

-- ============================================================================
-- Whole synchronizations
-- ============================================================================

/-- The calls of `get_block_file` that a synchronization makes. -/
def SyncNetwork.attempts {σ : Type} (network : SyncNetwork) (peerHeight : Nat)
    (applyBlock : σ → BlockFile → σ × Except String Unit) (s : σ) : List Attempt :=
  (checkAndRetrieveMissingBlocks network peerHeight applyBlock s).2.1

/-- Every block handed to `apply_block` is the one the queried peers agreed on, in exactly
    the synchronizations in which the peer asked for a block never answers with another
    one than it reported. -/
theorem fetched_agreed_iff {σ : Type} (network : SyncNetwork) (peerHeight : Nat)
    (applyBlock : σ → BlockFile → σ × Except String Unit) (s : σ) :
    let states : PeersStates := ⟨network.getLatestIndexes⟩
    (∀ a ∈ network.attempts peerHeight applyBlock s, ∀ block,
      a.fetched states = .ok (some block) → ∀ peer ∈ a.round.peersToRequest a.idx states,
        a.round.blockState peer = .ok ⟨block.index, block.hash⟩) ↔
      ∀ a ∈ network.attempts peerHeight applyBlock s, ∀ peer block,
        a.round.asked a.idx states = some peer → a.round.block peer = .ok block →
          a.round.blockState peer = .ok ⟨block.index, block.hash⟩ :=
  forall₂_congr fun _ _ => Round.getBlockFile_agreed_iff

/-- A synchronization does not panic exactly if there are known peers at each of its
    fetches. -/
theorem fetched_ne_panic_iff {σ : Type} (network : SyncNetwork) (peerHeight : Nat)
    (applyBlock : σ → BlockFile → σ × Except String Unit) (s : σ) :
    let states : PeersStates := ⟨network.getLatestIndexes⟩
    (∀ a ∈ network.attempts peerHeight applyBlock s, ∀ panic,
      a.fetched states ≠ .error panic) ↔
      ∀ a ∈ network.attempts peerHeight applyBlock s, a.round.knownPeers ≠ [] :=
  forall₂_congr fun _ _ => Round.getBlockFile_ne_error_iff

namespace Reference

def sampler : Sampler where
  choose peers amount := peers.take amount
  subperm peers amount := (List.take_sublist amount peers).subperm
  length _ _ := List.length_take

/-- Two peers report the empty first block; the first of them hands out another one. -/
def swappedRound : Round where
  knownPeers := [2, 3]
  sampler := sampler
  blockState _ := .ok ⟨1, (emptyBlock 1).hash⟩
  draw := 0
  block _ := .ok (firstBlock deposit)

def swappingNetwork : SyncNetwork where
  knownPeers := [2, 3]
  latestState _ := .ok ⟨1, (emptyBlock 1).hash⟩
  round _ := swappedRound

/-- The only peer is gone when the block is fetched. -/
def leavingNetwork : SyncNetwork where
  knownPeers := [2]
  latestState _ := .ok ⟨1, (emptyBlock 1).hash⟩
  round _ := { swappedRound with knownPeers := [] }

end Reference

/-- The block of the dishonest peer is fetched, and the peer commits it. -/
theorem fetched_swappedBlock :
    let apply := fun (p : Peer) (block : BlockFile) =>
      p.applySynchronizedBlock Reference.platform block
    let p := Reference.votingPeer [2, 3]
    let out := checkAndRetrieveMissingBlocks Reference.swappingNetwork 0 apply p
    let states : PeersStates := ⟨Reference.swappingNetwork.getLatestIndexes⟩
    out.2.2 = some (.ok .success) ∧
      out.1.effects.blockKeeper.blockStorageState =
        ⟨1, (Reference.firstBlock Reference.deposit).hash⟩ ∧
      ¬ ∀ a ∈ Reference.swappingNetwork.attempts 0 apply p, ∀ block,
        a.fetched states = .ok (some block) → ∀ peer ∈ a.round.peersToRequest a.idx states,
          a.round.blockState peer = .ok ⟨block.index, block.hash⟩ := by
  intro apply p out states
  refine ⟨by decide +kernel, by decide +kernel, ?_⟩
  intro h
  have hattempts : Reference.swappingNetwork.attempts 0 apply p =
      [⟨1, Reference.swappedRound⟩] := rfl
  have hagreed := h _ (hattempts ▸ List.mem_singleton_self _) _ rfl 2 (by decide +kernel)
  revert hagreed
  decide +kernel

/-- No answer of no peers is enough, and the range to draw from is empty. -/
theorem fetched_leavingNetwork :
    let apply := fun (p : Peer) (block : BlockFile) =>
      p.applySynchronizedBlock Reference.platform block
    let p := Reference.votingPeer [2]
    let states : PeersStates := ⟨Reference.leavingNetwork.getLatestIndexes⟩
    (checkAndRetrieveMissingBlocks Reference.leavingNetwork 0 apply p).2.2 =
        some (.error .emptyRange) ∧
      ¬ ∀ a ∈ Reference.leavingNetwork.attempts 0 apply p, ∀ panic,
        a.fetched states ≠ .error panic := by
  intro apply p states
  refine ⟨by decide +kernel, ?_⟩
  intro h
  have hattempts : Reference.leavingNetwork.attempts 0 apply p =
      [⟨1, Reference.leavingNetwork.round 0⟩] := rfl
  exact h _ (hattempts ▸ List.mem_singleton_self _) .emptyRange rfl

-- ============================================================================
-- The heights that are applied
-- ============================================================================

section Outcomes

variable {σ : Type}

/-- The attempts in turn, each with whether it was successful: the fetch brought a block,
    and `apply_block` returned `Ok`. -/
def outcomes (states : PeersStates) (applyBlock : σ → BlockFile → σ × Except String Unit) :
    σ → List Attempt → List (Attempt × Bool)
  | _, [] => []
  | s, attempt :: attempts =>
    match attempt.fetched states with
    | .ok (some blockFile) =>
      match applyBlock s blockFile with
      | (s, .ok ()) => (attempt, true) :: outcomes states applyBlock s attempts
      | (s, .error _) => (attempt, false) :: outcomes states applyBlock s attempts
    | .ok none | .error _ => (attempt, false) :: outcomes states applyBlock s attempts

/-- The state after `apply_block` was handed the fetched block of each attempt, in order. -/
def applyFetched (states : PeersStates) (applyBlock : σ → BlockFile → σ × Except String Unit) :
    σ → List Attempt → σ
  | s, [] => s
  | s, attempt :: attempts =>
    match attempt.fetched states with
    | .ok (some blockFile) => applyFetched states applyBlock (applyBlock s blockFile).1 attempts
    | .ok none | .error _ => applyFetched states applyBlock s attempts

/-- The heights of the successful attempts, in order. -/
def appliedHeights (outcomes : List (Attempt × Bool)) : List Nat :=
  (outcomes.filter Prod.snd).map fun outcome => outcome.1.idx

/-- How many attempts were unsuccessful. -/
def failures (outcomes : List (Attempt × Bool)) : Nat :=
  outcomes.countP fun outcome => !outcome.2

/-- Every attempt has an outcome. -/
theorem map_outcomes (states : PeersStates)
    (applyBlock : σ → BlockFile → σ × Except String Unit) (s : σ) (attempts : List Attempt) :
    (outcomes states applyBlock s attempts).map Prod.fst = attempts := by
  induction attempts generalizing s with
  | nil => rfl
  | cons attempt attempts ih =>
      unfold outcomes
      split
      · split
        · rw [List.map_cons, ih]
        · rw [List.map_cons, ih]
      · rw [List.map_cons, ih]
      · rw [List.map_cons, ih]

/-- Where the loop stands when it stops, seen from a state in which the block of height
    `idx` is the next and `errorsCount` attempts have failed. -/
structure Retrieved (maxIndex idx errorsCount : Nat) (outcomes : List (Attempt × Bool))
    (result : Option (Except Panic SyncState)) : Prop where
  heights : appliedHeights outcomes = List.range' idx (appliedHeights outcomes).length
  within : ∀ outcome ∈ outcomes, idx ≤ outcome.1.idx ∧ outcome.1.idx ≤ maxIndex
  bound : outcomes.length ≤ maxIndex + 1 - idx + (3 - errorsCount)
  stops : result = some (.ok .success) ∧ maxIndex < idx + (appliedHeights outcomes).length ∧
      (outcomes = [] ∨ idx + (appliedHeights outcomes).length = maxIndex + 1) ∨
    result = some (.ok .fail) ∧ idx + (appliedHeights outcomes).length ≤ maxIndex ∧
      errorsCount + failures outcomes = 3

/-- The loop stops with the last height. -/
theorem Retrieved.success {maxIndex idx : Nat} (errorsCount : Nat) (h : maxIndex < idx) :
    Retrieved maxIndex idx errorsCount [] (some (.ok .success)) :=
  ⟨rfl, fun _ hmem => absurd hmem List.not_mem_nil, Nat.zero_le _, Or.inl ⟨rfl, h, Or.inl rfl⟩⟩

/-- The loop stops with the third error. -/
theorem Retrieved.fail {maxIndex idx : Nat} (h : idx ≤ maxIndex) :
    Retrieved maxIndex idx 3 [] (some (.ok .fail)) :=
  ⟨rfl, fun _ hmem => absurd hmem List.not_mem_nil, Nat.zero_le _, Or.inr ⟨rfl, h, rfl⟩⟩

variable {maxIndex idx errorsCount : Nat} {attempt : Attempt} {rest : List (Attempt × Bool)}
  {result : Option (Except Panic SyncState)}

/-- An applied block gets the loop on to the next height. -/
theorem Retrieved.cons_applied (h : Retrieved maxIndex (idx + 1) errorsCount rest result)
    (hidx : attempt.idx = idx) (hle : idx ≤ maxIndex) :
    Retrieved maxIndex idx errorsCount ((attempt, true) :: rest) result := by
  subst hidx
  have hheights : appliedHeights ((attempt, true) :: rest) =
      attempt.idx :: appliedHeights rest := rfl
  have hfailures : failures ((attempt, true) :: rest) = failures rest :=
    List.countP_cons_of_neg (by simp)
  refine ⟨?_, ?_, ?_, ?_⟩
  · rw [hheights, List.length_cons, List.range'_succ, ← h.heights]
  · intro outcome hmem
    rcases List.mem_cons.mp hmem with rfl | hmem
    · exact ⟨Nat.le_refl _, hle⟩
    · have hwithin := h.within outcome hmem
      exact ⟨by omega, hwithin.2⟩
  · have hbound := h.bound
    rw [List.length_cons]
    omega
  · rw [hheights, hfailures, List.length_cons]
    rcases h.stops with ⟨hresult, hlt, hlast⟩ | ⟨hresult, hle', herrors⟩
    · refine Or.inl ⟨hresult, by omega, Or.inr ?_⟩
      rcases hlast with hnil | hlast
      · rw [hnil] at hlt ⊢
        change maxIndex < attempt.idx + 1 + 0 at hlt
        show attempt.idx + (0 + 1) = maxIndex + 1
        omega
      · omega
    · exact Or.inr ⟨hresult, by omega, herrors⟩

/-- A failed attempt uses up an error. -/
theorem Retrieved.cons_failed (h : Retrieved maxIndex idx (errorsCount + 1) rest result)
    (hidx : attempt.idx = idx) (hle : idx ≤ maxIndex) (herrors : errorsCount < 3) :
    Retrieved maxIndex idx errorsCount ((attempt, false) :: rest) result := by
  subst hidx
  have hheights : appliedHeights ((attempt, false) :: rest) = appliedHeights rest := rfl
  have hfailures : failures ((attempt, false) :: rest) = failures rest + 1 :=
    List.countP_cons_of_pos rfl
  refine ⟨h.heights, ?_, ?_, ?_⟩
  · intro outcome hmem
    rcases List.mem_cons.mp hmem with rfl | hmem
    · exact ⟨Nat.le_refl _, hle⟩
    · exact h.within outcome hmem
  · have hbound := h.bound
    rw [List.length_cons]
    omega
  · rw [hheights, hfailures]
    rcases h.stops with ⟨hresult, hlt, hlast⟩ | ⟨hresult, hle', htotal⟩
    · refine Or.inl ⟨hresult, hlt, Or.inr ?_⟩
      rcases hlast with hnil | hlast
      · -- nothing more was needed, yet this height was
        rw [hnil] at hlt
        change maxIndex < attempt.idx + 0 at hlt
        omega
      · exact hlast
    · exact Or.inr ⟨hresult, hle', by omega⟩

/-- The loop, from any point on. -/
theorem retrieve_retrieved {round : Nat → Round} {states : PeersStates}
    {applyBlock : σ → BlockFile → σ × Except String Unit} {fuel n : Nat} {s : σ}
    (herrors : errorsCount ≤ 3)
    (hfuel : states.getMaxIndex + 1 - idx + (3 - errorsCount) < fuel)
    (hfetch : ∀ a ∈ (retrieve round states applyBlock fuel n idx errorsCount s).2.1, ∀ panic,
      a.fetched states ≠ .error panic) :
    Retrieved states.getMaxIndex idx errorsCount
      (outcomes states applyBlock s
        (retrieve round states applyBlock fuel n idx errorsCount s).2.1)
      (retrieve round states applyBlock fuel n idx errorsCount s).2.2 := by
  induction fuel generalizing n idx errorsCount s with
  | zero => omega
  | succ fuel ih =>
      unfold retrieve at hfetch ⊢
      by_cases hdone : idx > states.getMaxIndex
      · rw [if_pos hdone]
        exact .success errorsCount hdone
      rw [if_neg hdone] at hfetch ⊢
      by_cases hfail : errorsCount = 3
      · rw [if_pos hfail, hfail]
        exact .fail (Nat.le_of_not_gt hdone)
      rw [if_neg hfail] at hfetch ⊢
      have hle : idx ≤ states.getMaxIndex := Nat.le_of_not_gt hdone
      cases hfetched : Attempt.fetched { idx, round := round n } states with
      | error panic => exact absurd hfetched (hfetch _ List.mem_cons_self panic)
      | ok fetched =>
          simp only [hfetched] at hfetch ⊢
          cases fetched with
          | none =>
              simp only [outcomes, hfetched]
              refine .cons_failed ?_ rfl hle (by omega)
              exact ih (by omega) (by omega) fun a ha => hfetch a (List.mem_cons_of_mem _ ha)
          | some blockFile =>
              rcases happly : applyBlock s blockFile with ⟨s', e | _⟩
              · simp only [happly, outcomes, hfetched] at hfetch ⊢
                refine .cons_failed ?_ rfl hle (by omega)
                exact ih (by omega) (by omega) fun a ha => hfetch a (List.mem_cons_of_mem _ ha)
              · simp only [happly, outcomes, hfetched] at hfetch ⊢
                refine .cons_applied ?_ rfl hle
                exact ih herrors (by omega) fun a ha => hfetch a (List.mem_cons_of_mem _ ha)

/-- The loop hands every fetched block to `apply_block`, once, and does nothing else to
    the state. -/
theorem retrieve_applies (round : Nat → Round) (states : PeersStates)
    (applyBlock : σ → BlockFile → σ × Except String Unit) (fuel n idx errorsCount : Nat) (s : σ) :
    (retrieve round states applyBlock fuel n idx errorsCount s).1 =
      applyFetched states applyBlock s
        (retrieve round states applyBlock fuel n idx errorsCount s).2.1 := by
  induction fuel generalizing n idx errorsCount s with
  | zero => rfl
  | succ fuel ih =>
      unfold retrieve
      by_cases hdone : idx > states.getMaxIndex
      · rw [if_pos hdone]
        rfl
      rw [if_neg hdone]
      by_cases hfail : errorsCount = 3
      · rw [if_pos hfail]
        rfl
      rw [if_neg hfail]
      cases hfetched : Attempt.fetched { idx, round := round n } states with
      | error panic => simp only [hfetched, applyFetched]
      | ok fetched =>
          cases fetched with
          | none =>
              simp only [hfetched, applyFetched]
              exact ih _ _ _ s
          | some blockFile =>
              rcases happly : applyBlock s blockFile with ⟨s', e | _⟩
              · simp only [happly, hfetched, applyFetched]
                exact ih _ _ _ s'
              · simp only [happly, hfetched, applyFetched]
                exact ih _ _ _ s'

/-- As long as no fetch panics, a synchronization stops after at most that many attempts,
    applies the blocks of the heights above its own one after the other, which makes the
    state it leaves, and succeeds exactly if it gets to the highest reported one.  No
    attempt is for a higher one, so the next height is always within `u32`. -/
theorem checkAndRetrieveMissingBlocks_gapFree (network : SyncNetwork) (peerHeight : Nat)
    (applyBlock : σ → BlockFile → σ × Except String Unit) (s : σ)
    (hfetch : ∀ a ∈ network.attempts peerHeight applyBlock s, ∀ panic,
      a.fetched ⟨network.getLatestIndexes⟩ ≠ .error panic) :
    let states : PeersStates := ⟨network.getLatestIndexes⟩
    let attempts := network.attempts peerHeight applyBlock s
    let heights := appliedHeights (outcomes states applyBlock s attempts)
    let result := (checkAndRetrieveMissingBlocks network peerHeight applyBlock s).2.2
    attempts.length ≤ states.getMaxIndex - peerHeight + 3 ∧
      (∀ a ∈ attempts, peerHeight < a.idx ∧ a.idx ≤ states.getMaxIndex) ∧
      (checkAndRetrieveMissingBlocks network peerHeight applyBlock s).1 =
        applyFetched states applyBlock s attempts ∧
      heights = List.range' (peerHeight + 1) heights.length ∧
      (result = some (.ok .success) ∨ result = some (.ok .fail)) ∧
      (result = some (.ok .success) ↔
        states.getMaxIndex ≤ peerHeight ∨ peerHeight + heights.length = states.getMaxIndex) ∧
      (result = some (.ok .fail) ↔
        failures (outcomes states applyBlock s attempts) = 3 ∧
          peerHeight + heights.length < states.getMaxIndex) := by
  intro states attempts heights result
  by_cases hsame : peerHeight = states.getMaxIndex
  · have hrun : checkAndRetrieveMissingBlocks network peerHeight applyBlock s =
        (s, [], some (.ok .success)) := if_pos hsame
    have hattempts : attempts = [] := congrArg (fun run => run.2.1) hrun
    have hresult : result = some (.ok .success) := congrArg (fun run => run.2.2) hrun
    have hheights : heights = [] := by
      show appliedHeights (outcomes states applyBlock s attempts) = []
      rw [hattempts]
      rfl
    rw [hresult, hattempts, hheights, hrun]
    refine ⟨Nat.zero_le _, fun a ha => absurd ha List.not_mem_nil, rfl, rfl, Or.inl rfl,
      iff_of_true rfl (Or.inl hsame.ge), iff_of_false (by simp) ?_⟩
    rintro ⟨hfailures, -⟩
    cases hfailures
  have hrun : checkAndRetrieveMissingBlocks network peerHeight applyBlock s =
      retrieve network.round states applyBlock (states.getMaxIndex - peerHeight + 4) 0
        (peerHeight + 1) 0 s := if_neg hsame
  have hretrieved : Retrieved states.getMaxIndex (peerHeight + 1) 0
      (outcomes states applyBlock s attempts) result := by
    show Retrieved _ _ _ (outcomes states applyBlock s
      (checkAndRetrieveMissingBlocks network peerHeight applyBlock s).2.1)
      (checkAndRetrieveMissingBlocks network peerHeight applyBlock s).2.2
    have hfetch' : ∀ a ∈ (checkAndRetrieveMissingBlocks network peerHeight applyBlock s).2.1,
        ∀ panic, a.fetched states ≠ .error panic := hfetch
    rw [hrun] at hfetch' ⊢
    exact retrieve_retrieved (by omega) (by omega) hfetch'
  have hmap : (outcomes states applyBlock s attempts).map Prod.fst = attempts :=
    map_outcomes states applyBlock s attempts
  have hlength : (appliedHeights (outcomes states applyBlock s attempts)).length =
      heights.length := rfl
  have hstops := hretrieved.stops
  rw [hlength] at hstops
  have happlied : (checkAndRetrieveMissingBlocks network peerHeight applyBlock s).1 =
      applyFetched states applyBlock s attempts := by
    show _ = applyFetched states applyBlock s
      (checkAndRetrieveMissingBlocks network peerHeight applyBlock s).2.1
    rw [hrun]
    exact retrieve_applies ..
  refine ⟨?_, ?_, happlied, hretrieved.heights, ?_, ?_, ?_⟩
  · have hbound := hretrieved.bound
    rw [← hmap, List.length_map]
    omega
  · intro a ha
    rw [← hmap] at ha
    obtain ⟨outcome, hmem, rfl⟩ := List.mem_map.mp ha
    exact hretrieved.within outcome hmem
  · rcases hstops with ⟨hresult, -⟩ | ⟨hresult, -⟩
    · exact Or.inl hresult
    · exact Or.inr hresult
  · rcases hstops with ⟨hresult, hlt, hlast⟩ | ⟨hresult, hle, -⟩
    · refine iff_of_true hresult ?_
      rcases hlast with hnil | hlast
      · have hnone : heights.length = 0 := by
          rw [← hlength, hnil]
          rfl
        exact Or.inl (by omega)
      · exact Or.inr (by omega)
    · refine iff_of_false (by rw [hresult]; simp) ?_
      omega
  · rcases hstops with ⟨hresult, hlt, -⟩ | ⟨hresult, hle, herrors⟩
    · refine iff_of_false (by rw [hresult]; simp) ?_
      omega
    · exact iff_of_true hresult ⟨by omega, by omega⟩

end Outcomes

namespace Reference

/-- Two peers hold two blocks.  At the first fetch they disagree, and at the third the
    block does not link. -/
def flakyNetwork : SyncNetwork where
  knownPeers := [2, 3]
  latestState _ := .ok ⟨2, (emptyBlock 2).hash⟩
  round n :=
    { swappedRound with
      blockState := fun peer =>
        if n = 0 then .ok ⟨1, BitVec.ofNat 256 peer⟩ else .ok ⟨1, (emptyBlock 1).hash⟩
      block := fun _ =>
        .ok (if n = 1 then emptyBlock 1 else if n = 2 then emptyBlock 5 else emptyBlock 2) }

end Reference

/-- The two failures do not keep the peer from getting both blocks. -/
theorem checkAndRetrieveMissingBlocks_flaky :
    let apply := fun (p : Peer) (block : BlockFile) =>
      p.applySynchronizedBlock Reference.platform block
    let p := Reference.votingPeer [2, 3]
    let attempts := Reference.flakyNetwork.attempts 0 apply p
    let states : PeersStates := ⟨Reference.flakyNetwork.getLatestIndexes⟩
    attempts.map Attempt.idx = [1, 1, 2, 2] ∧
      appliedHeights (outcomes states apply p attempts) = [1, 2] ∧
      (checkAndRetrieveMissingBlocks Reference.flakyNetwork 0 apply
        p).1.effects.blockKeeper.blockStorageState = ⟨2, (Reference.emptyBlock 2).hash⟩ ∧
      (checkAndRetrieveMissingBlocks Reference.flakyNetwork 0 apply p).2.2 =
        some (.ok .success) := by
  intro apply p attempts states
  have hheights : appliedHeights (outcomes states apply p attempts) = [1, 2] := by
    decide +kernel
  have hknown : ∀ a ∈ attempts, a.round.knownPeers ≠ [] := by decide +kernel
  obtain ⟨-, -, happlied, -, -, hsuccess, -⟩ := checkAndRetrieveMissingBlocks_gapFree
    Reference.flakyNetwork 0 apply p fun a ha => Round.getBlockFile_ne_error_iff.mpr (hknown a ha)
  have hstate : (applyFetched states apply p attempts).effects.blockKeeper.blockStorageState =
      ⟨2, (Reference.emptyBlock 2).hash⟩ := by
    decide +kernel
  refine ⟨by decide +kernel, hheights, happlied ▸ hstate, hsuccess.mpr (Or.inr ?_)⟩
  rw [show (0 : Nat) + _ = 2 from congrArg (0 + ·) (congrArg List.length hheights)]
  decide +kernel

end Rustchain
