/-
  Rustchain.Storage.Sequences

  Several blocks rolled back, staged or committed one after the other: when
  that succeeds, and what it leaves.
-/

import Rustchain.Storage.Changes
import Rustchain.Storage.Filenames

namespace Rustchain
namespace BlockKeeper

/-- The block store after the given blocks are rolled back one by one; a block that
    is not staged is passed over. -/
def rolledBack (pf : Platform) (k : BlockKeeper) (blockHashes : List BlockHash) : BlockKeeper :=
  blockHashes.foldl (fun k blockHash => (k.rollbackBlock pf blockHash).1) k

/-- Every entry's block is staged already, or its payload can be added to the block
    store when those before it have been. -/
def links (k : BlockKeeper) (blocks : HashMap BlockHash BlockFile) : List RaftLogEntry → Bool
  | [] => true
  | entry :: entries =>
    if entry.blockHash ∈ k.uncommitedBlocks then links k blocks entries
    else
      (blocks.lookup entry.blockHash).any fun block =>
        k.blockCanBeAdded block &&
          links { k with uncommitedBlocks := k.uncommitedBlocks.insert block.hash block } blocks
            entries

-- ============================================================================
-- Rolling back
-- ============================================================================

/-- `k'` is `k` after the given blocks were rolled back. -/
structure RollsBackAll (k k' : BlockKeeper) (blockHashes : List BlockHash) : Prop where
  dir : k'.dir = k.dir
  state : k'.blockStorageState = k.blockStorageState
  walk : k'.walk = k.walk
  kept : ∀ h ∈ k.uncommitedBlocks, h ∉ blockHashes → h ∈ k'.uncommitedBlocks
  staged : ∀ h b, k'.uncommitedBlocks.lookup h = some b →
    k.uncommitedBlocks.lookup h = some b ∨ b.hash = h

theorem rollbackBlock_rollsBack (pf : Platform) (k : BlockKeeper) (blockHash : BlockHash) :
    RollsBackAll k (k.rollbackBlock pf blockHash).1 [blockHash] := by
  rcases rollbackBlock_cases pf k blockHash with ⟨-, e, heq⟩ | ⟨block, -, -, hpacks⟩
  · rw [heq]
    exact ⟨rfl, rfl, rfl, fun _ h _ => h, fun _ _ h => Or.inl h⟩
  · refine ⟨hpacks.dir, hpacks.state, hpacks.walk, ?_, ?_⟩
    · intro h hmem hother
      exact hpacks.kept h (AList.mem_erase.mpr ⟨fun heq => hother (heq ▸ List.mem_cons_self), hmem⟩)
    · intro h b hlookup
      rcases hpacks.staged h b hlookup with hold | hnew
      · rw [HashMap.lookup_erase_ite] at hold
        split at hold
        · cases hold
        · exact Or.inl hold
      · exact Or.inr hnew.1

theorem rolledBack_rollsBack (pf : Platform) (k : BlockKeeper) (blockHashes : List BlockHash) :
    RollsBackAll k (k.rolledBack pf blockHashes) blockHashes := by
  induction blockHashes generalizing k with
  | nil => exact ⟨rfl, rfl, rfl, fun _ h _ => h, fun _ _ h => Or.inl h⟩
  | cons blockHash blockHashes ih =>
      have hfirst := rollbackBlock_rollsBack pf k blockHash
      have hrest := ih (k.rollbackBlock pf blockHash).1
      refine ⟨hrest.dir.trans hfirst.dir, hrest.state.trans hfirst.state,
        hrest.walk.trans hfirst.walk, ?_, ?_⟩
      · intro h hmem hother
        rw [List.mem_cons, not_or] at hother
        exact hrest.kept h (hfirst.kept h hmem (List.mem_singleton.not.mpr hother.1)) hother.2
      · intro h b hlookup
        rcases hrest.staged h b hlookup with hold | hnew
        · exact hfirst.staged h b hold
        · exact Or.inr hnew

-- ============================================================================
-- Staging
-- ============================================================================

/-- `k'` is `k` after the blocks of the entries were staged. -/
structure StagesAll (k k' : BlockKeeper) (blocks : HashMap BlockHash BlockFile)
    (entries : List RaftLogEntry) : Prop where
  dir : k'.dir = k.dir
  state : k'.blockStorageState = k.blockStorageState
  walk : k'.walk = k.walk
  mem : ∀ h, h ∈ k'.uncommitedBlocks ↔
    h ∈ k.uncommitedBlocks ∨ h ∈ entries.map RaftLogEntry.blockHash
  staged : ∀ h b, k'.uncommitedBlocks.lookup h = some b →
    k.uncommitedBlocks.lookup h = some b ∨ blocks.lookup h = some b

theorem StagesAll.nil (k : BlockKeeper) (blocks : HashMap BlockHash BlockFile) :
    StagesAll k k blocks [] :=
  ⟨rfl, rfl, rfl, fun _ => ⟨Or.inl, fun h => h.resolve_right List.not_mem_nil⟩,
    fun _ _ h => Or.inl h⟩

/-- An entry whose block is staged already changes nothing. -/
theorem StagesAll.cons_staged {k k' : BlockKeeper} {blocks : HashMap BlockHash BlockFile}
    {entry : RaftLogEntry} {entries : List RaftLogEntry}
    (hmem : entry.blockHash ∈ k.uncommitedBlocks) (h : StagesAll k k' blocks entries) :
    StagesAll k k' blocks (entry :: entries) := by
  refine ⟨h.dir, h.state, h.walk, ?_, h.staged⟩
  intro hash
  rw [h.mem, List.map_cons, List.mem_cons]
  constructor
  · rintro (hold | hnew)
    · exact Or.inl hold
    · exact Or.inr (Or.inr hnew)
  · rintro (hold | rfl | hnew)
    · exact Or.inl hold
    · exact Or.inl hmem
    · exact Or.inr hnew

theorem StagesAll.cons {k k' k'' : BlockKeeper} {blocks : HashMap BlockHash BlockFile}
    {entry : RaftLogEntry} {entries : List RaftLogEntry} {block : BlockFile}
    (hhash : block.hash = entry.blockHash) (hblock : blocks.lookup entry.blockHash = some block)
    (hfirst : Stages k k' block) (hrest : StagesAll k' k'' blocks entries) :
    StagesAll k k'' blocks (entry :: entries) := by
  refine ⟨hrest.dir.trans hfirst.dir, hrest.state.trans hfirst.state,
    hrest.walk.trans hfirst.walk, ?_, ?_⟩
  · intro h
    rw [hrest.mem, hfirst.uncommitedBlocks, AList.mem_insert, List.map_cons, List.mem_cons, hhash]
    tauto
  · intro h b hlookup
    rcases hrest.staged h b hlookup with hold | hnew
    · rw [hfirst.uncommitedBlocks, HashMap.lookup_insert_ite] at hold
      split at hold
      · rename_i heq
        cases hold
        rw [heq, hhash]
        exact Or.inr hblock
      · exact Or.inl hold
    · exact Or.inr hnew

/-- Whether blocks link depends on the tip, the staged blocks and their order only. -/
theorem links_congr {k k' : BlockKeeper} (hstate : k'.blockStorageState = k.blockStorageState)
    (hwalk : k'.walk = k.walk) (hstaged : k'.uncommitedBlocks = k.uncommitedBlocks)
    (blocks : HashMap BlockHash BlockFile) (entries : List RaftLogEntry) :
    k'.links blocks entries = k.links blocks entries := by
  induction entries generalizing k k' with
  | nil => rfl
  | cons entry entries ih =>
      have hadd : ∀ block, k'.blockCanBeAdded block = k.blockCanBeAdded block := by
        intro block
        unfold blockCanBeAdded
        rw [hstate, hwalk, hstaged]
      simp only [links, hstaged, hadd, ih hstate hwalk hstaged]
      congr 2
      funext block
      exact congrArg (k.blockCanBeAdded block && ·) (ih hstate hwalk rfl)

-- ============================================================================
-- Committing
-- ============================================================================

/-- The blocks can be committed one after the other: all are staged, none comes
    twice, and the writes ahead succeed. -/
structure Committable (k : BlockKeeper) (blockHashes : List BlockHash) : Prop where
  nodup : blockHashes.Nodup
  staged : ∀ h ∈ blockHashes, h ∈ k.uncommitedBlocks
  written : ∀ j < blockHashes.length, k.dir.writeFault (k.dir.writes + j) = none

/-- `k'` is `k` after the staged block was committed. -/
structure Commits (pf : Platform) (k k' : BlockKeeper) (blockHash : BlockHash)
    (block : BlockFile) : Prop where
  height : k'.blockStorageState.blockHeight = k.blockStorageState.blockHeight + 1
  tip : k'.blockStorageState.lastCommitedHash = blockHash
  writes : k'.dir.writes = k.dir.writes + 1
  writeFault : k'.dir.writeFault = k.dir.writeFault
  readError : k'.dir.readError = k.dir.readError
  files : k'.dir.files = k.dir.files.insert
    (BlockFile.blockFilenameForIndex (k.blockStorageState.blockHeight + 1)) (pf.encodeBlock block)
  uncommitedBlocks : k'.uncommitedBlocks = k.uncommitedBlocks.erase blockHash
  walk : k'.walk = k.walk
  created : k'.created = k.created
  received : k'.received = k.received

/-- A staged block is committed when its file can be written. -/
theorem commitBlock_commits (pf : Platform) {k : BlockKeeper} {blockHash : BlockHash}
    {block : BlockFile} (hlookup : k.uncommitedBlocks.lookup blockHash = some block)
    (hfault : k.dir.writeFault k.dir.writes = none) :
    (k.commitBlock pf blockHash).2 = .ok () ∧
      Commits pf k (k.commitBlock pf blockHash).1 blockHash block := by
  rcases commitBlock_cases pf k blockHash with ⟨hnone, -⟩ | ⟨block', hlookup', -, hok, heq⟩ |
    ⟨_, fault, _, -, hfault', -⟩
  · rw [hlookup] at hnone
    cases hnone
  · rw [hlookup] at hlookup'
    cases hlookup'
    rw [heq]
    exact ⟨hok, rfl, rfl, rfl, rfl, rfl, rfl, rfl, rfl, rfl, rfl⟩
  · rw [hfault] at hfault'
    cases hfault'

/-- `k'` is `k` after the given blocks were committed. -/
structure CommitsAll (pf : Platform) (k k' : BlockKeeper) (blockHashes : List BlockHash) :
    Prop where
  height : k'.blockStorageState.blockHeight = k.blockStorageState.blockHeight + blockHashes.length
  tip : k'.blockStorageState.lastCommitedHash =
    blockHashes.getLast?.getD k.blockStorageState.lastCommitedHash
  writeFault : k'.dir.writeFault = k.dir.writeFault
  readError : k'.dir.readError = k.dir.readError
  lookup : ∀ h, k'.uncommitedBlocks.lookup h =
    if h ∈ blockHashes then none else k.uncommitedBlocks.lookup h
  /-- The blocks are the files above the old height, in order. -/
  written : ∀ j (hj : j < blockHashes.length), ∃ block,
    k.uncommitedBlocks.lookup (blockHashes.get ⟨j, hj⟩) = some block ∧
      k'.dir.files.lookup
          (BlockFile.blockFilenameForIndex (k.blockStorageState.blockHeight + 1 + j)) =
        some (pf.encodeBlock block)
  /-- No other file changes. -/
  frame : ∀ filename, (∀ j < blockHashes.length, filename ≠
      BlockFile.blockFilenameForIndex (k.blockStorageState.blockHeight + 1 + j)) →
    k'.dir.files.lookup filename = k.dir.files.lookup filename

theorem CommitsAll.nil (pf : Platform) (k : BlockKeeper) : CommitsAll pf k k [] where
  height := rfl
  tip := rfl
  writeFault := rfl
  readError := rfl
  lookup := fun _ => (if_neg List.not_mem_nil).symm
  written := fun j hj => absurd hj (Nat.not_lt_zero j)
  frame := fun _ _ => rfl

/-- One block committed, and then the others. -/
theorem CommitsAll.cons {pf : Platform} {k k' k'' : BlockKeeper} {blockHash : BlockHash}
    {blockHashes : List BlockHash} {block : BlockFile}
    (hlookup : k.uncommitedBlocks.lookup blockHash = some block)
    (hfirst : Commits pf k k' blockHash block) (hrest : CommitsAll pf k' k'' blockHashes) :
    CommitsAll pf k k'' (blockHash :: blockHashes) where
  height := by
    rw [hrest.height, hfirst.height, List.length_cons]
    omega
  tip := by
    rw [hrest.tip, hfirst.tip, List.getLast?_cons]
    rfl
  writeFault := hrest.writeFault.trans hfirst.writeFault
  readError := hrest.readError.trans hfirst.readError
  lookup := by
    intro h
    rw [hrest.lookup, hfirst.uncommitedBlocks, HashMap.lookup_erase_ite]
    by_cases heq : h = blockHash
    · rw [if_pos heq, ite_self, if_pos (List.mem_cons.mpr (Or.inl heq))]
    · simp only [List.mem_cons, heq, false_or, if_false]
  written := by
    intro j hj
    cases j with
    | zero =>
        refine ⟨block, hlookup, ?_⟩
        rw [hrest.frame, hfirst.files]
        · exact AList.lookup_insert _
        · intro i _ hname
          have hindex := BlockFile.blockFilenameForIndex_injective hname
          rw [hfirst.height] at hindex
          omega
    | succ j =>
        obtain ⟨next, hnext, hfile⟩ := hrest.written j (Nat.lt_of_succ_lt_succ hj)
        refine ⟨next, ?_, ?_⟩
        · rw [hfirst.uncommitedBlocks, HashMap.lookup_erase_ite] at hnext
          split at hnext
          · cases hnext
          · exact hnext
        · rw [hfirst.height] at hfile
          rwa [show k.blockStorageState.blockHeight + 1 + (j + 1) =
            k.blockStorageState.blockHeight + 1 + 1 + j by omega]
  frame := by
    intro filename hother
    rw [hrest.frame, hfirst.files]
    · exact AList.lookup_insert_ne (hother 0 (Nat.zero_lt_succ _))
    · intro j hj
      rw [hfirst.height, show k.blockStorageState.blockHeight + 1 + 1 + j =
        k.blockStorageState.blockHeight + 1 + (j + 1) by omega]
      exact hother (j + 1) (Nat.succ_lt_succ hj)

/-- Whether a list of blocks can be committed, by its first block and the others. -/
theorem committable_cons_iff {pf : Platform} {k k' : BlockKeeper} {blockHash : BlockHash}
    {blockHashes : List BlockHash} {block : BlockFile}
    (hlookup : k.uncommitedBlocks.lookup blockHash = some block)
    (hfault : k.dir.writeFault k.dir.writes = none) (hfirst : Commits pf k k' blockHash block) :
    Committable k (blockHash :: blockHashes) ↔ Committable k' blockHashes := by
  have hmem : ∀ h, h ∈ k'.uncommitedBlocks ↔ h ≠ blockHash ∧ h ∈ k.uncommitedBlocks := by
    intro h
    rw [hfirst.uncommitedBlocks]
    exact AList.mem_erase
  constructor
  · rintro ⟨hnodup, hstaged, hwritten⟩
    obtain ⟨hnotin, hnodup⟩ := List.nodup_cons.mp hnodup
    refine ⟨hnodup, ?_, ?_⟩
    · intro h hh
      exact (hmem h).mpr ⟨fun heq => hnotin (heq ▸ hh), hstaged h (List.mem_cons_of_mem _ hh)⟩
    · intro j hj
      rw [hfirst.writeFault, hfirst.writes, Nat.add_assoc, Nat.add_comm 1 j]
      exact hwritten (j + 1) (Nat.succ_lt_succ hj)
  · rintro ⟨hnodup, hstaged, hwritten⟩
    refine ⟨List.nodup_cons.mpr ⟨?_, hnodup⟩, ?_, ?_⟩
    · exact fun hh => ((hmem blockHash).mp (hstaged blockHash hh)).1 rfl
    · intro h hh
      rcases List.mem_cons.mp hh with rfl | hh
      · exact AList.lookup_isSome.mp (Option.isSome_iff_exists.mpr ⟨block, hlookup⟩)
      · exact ((hmem h).mp (hstaged h hh)).2
    · intro j hj
      cases j with
      | zero => exact hfault
      | succ j =>
          have := hwritten j (Nat.lt_of_succ_lt_succ hj)
          rwa [hfirst.writeFault, hfirst.writes, Nat.add_assoc, Nat.add_comm 1 j] at this

end BlockKeeper
end Rustchain
