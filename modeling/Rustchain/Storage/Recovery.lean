/-
  Rustchain.Storage.Recovery

  The block files as a list of hashes, and what `BlockKeeper::new` finds of them:
  it takes the height from the last name in string order, which is the last
  block as long as the numbers have five digits.

  A block store that follows a log (`Follows`) has the committed blocks on disk,
  up to the commits still to be executed, and stages all blocks ahead of them.
-/

import Rustchain.Storage.Sequences

namespace Rustchain
namespace BlockKeeper

/-- The directory works and holds block files with these hashes, and nothing else. -/
structure OnDisk (pf : Platform) (k : BlockKeeper) (hashes : List BlockHash) : Prop where
  height : k.blockStorageState.blockHeight = hashes.length
  blocks : ∀ i (hi : i < hashes.length), ∃ b,
    k.dir.files.lookup (BlockFile.blockFilenameForIndex (i + 1)) = some (pf.encodeBlock b) ∧
      b.hash = hashes.get ⟨i, hi⟩
  names : ∀ filename ∈ k.dir.files, ∃ i < hashes.length,
    filename = BlockFile.blockFilenameForIndex (i + 1)
  readable : ∀ filename, k.dir.readError filename = none
  writable : ∀ j, k.dir.writeFault j = none

variable {pf : Platform} {k k' : BlockKeeper} {hashes : List BlockHash}

theorem new_onDisk (pf : Platform) (path : String) (mempoolSize : Nat)
    (walk : HashMap.Walk BlockHash BlockFile) :
    OnDisk pf (new pf (.empty path) mempoolSize walk) [] where
  height := rfl
  blocks := fun i hi => absurd hi (Nat.not_lt_zero i)
  names := fun _ h => absurd h List.not_mem_nil
  readable := fun _ => rfl
  writable := fun _ => rfl

theorem OnDisk.congr (h : OnDisk pf k hashes) (hdir : k'.dir = k.dir)
    (hstate : k'.blockStorageState = k.blockStorageState) : OnDisk pf k' hashes := by
  obtain ⟨hheight, hblocks, hnames, hreadable, hwritable⟩ := h
  rw [← hdir] at hblocks hnames hreadable hwritable
  exact ⟨by rw [hstate, hheight], hblocks, hnames, hreadable, hwritable⟩

/-- A block committed under its own hash is the next one. -/
theorem OnDisk.commits (h : OnDisk pf k hashes) {block : BlockFile}
    (hcommits : Commits pf k k' block.hash block) : OnDisk pf k' (hashes ++ [block.hash]) where
  height := by rw [hcommits.height, h.height, List.length_append, List.length_singleton]
  blocks := by
    intro i hi
    rw [List.length_append, List.length_singleton] at hi
    rw [hcommits.files, h.height]
    by_cases hlast : i = hashes.length
    · subst hlast
      refine ⟨block, AList.lookup_insert _, ?_⟩
      rw [List.get_eq_getElem, List.getElem_concat_length rfl]
    · have hi' : i < hashes.length := by omega
      obtain ⟨b, hfile, hhash⟩ := h.blocks i hi'
      refine ⟨b, ?_, ?_⟩
      · rw [AList.lookup_insert_ne, hfile]
        intro hname
        have := BlockFile.blockFilenameForIndex_injective hname
        omega
      · rw [hhash, List.get_eq_getElem, List.get_eq_getElem, List.getElem_append_left hi']
  names := by
    intro filename hmem
    rw [hcommits.files, h.height, AList.mem_insert] at hmem
    rw [List.length_append, List.length_singleton]
    rcases hmem with rfl | hmem
    · exact ⟨hashes.length, Nat.lt_succ_self _, rfl⟩
    · obtain ⟨i, hi, rfl⟩ := h.names filename hmem
      exact ⟨i, Nat.lt_succ_of_lt hi, rfl⟩
  readable := by
    rw [hcommits.readError]
    exact h.readable
  writable := by
    rw [hcommits.writeFault]
    exact h.writable

theorem OnDisk.commitsAll (h : OnDisk pf k hashes) {blockHashes : List BlockHash}
    (hown : ∀ h b, k.uncommitedBlocks.lookup h = some b → b.hash = h)
    (hcommits : CommitsAll pf k k' blockHashes) : OnDisk pf k' (hashes ++ blockHashes) where
  height := by rw [hcommits.height, h.height, List.length_append]
  blocks := by
    intro i hi
    rw [List.length_append] at hi
    by_cases hold : i < hashes.length
    · obtain ⟨b, hfile, hhash⟩ := h.blocks i hold
      refine ⟨b, ?_, ?_⟩
      · rw [hcommits.frame, hfile]
        intro j _ hname
        have := BlockFile.blockFilenameForIndex_injective hname
        rw [h.height] at this
        omega
      · rw [hhash, List.get_eq_getElem, List.get_eq_getElem, List.getElem_append_left hold]
    · have hnew : i - hashes.length < blockHashes.length := by omega
      obtain ⟨b, hlookup, hfile⟩ := hcommits.written (i - hashes.length) hnew
      refine ⟨b, ?_, ?_⟩
      · rw [h.height] at hfile
        rw [← hfile, show i + 1 = hashes.length + 1 + (i - hashes.length) by omega]
      · rw [hown _ b hlookup, List.get_eq_getElem, List.get_eq_getElem,
          List.getElem_append_right (Nat.le_of_not_lt hold)]
  names := by
    intro filename hmem
    rw [List.length_append]
    by_cases hnew : ∃ j < blockHashes.length, filename =
        BlockFile.blockFilenameForIndex (k.blockStorageState.blockHeight + 1 + j)
    · obtain ⟨j, hj, rfl⟩ := hnew
      refine ⟨hashes.length + j, by omega, ?_⟩
      rw [h.height, Nat.add_right_comm]
    · have hframe := hcommits.frame filename fun j hj heq => hnew ⟨j, hj, heq⟩
      rw [← AList.lookup_isSome, hframe, AList.lookup_isSome] at hmem
      obtain ⟨i, hi, rfl⟩ := h.names filename hmem
      exact ⟨i, by omega, rfl⟩
  readable := by
    rw [hcommits.readError]
    exact h.readable
  writable := by
    rw [hcommits.writeFault]
    exact h.writable

/-- A block file is read back. -/
theorem OnDisk.read (hpf : pf.Lawful) (h : OnDisk pf k hashes) {i : Nat} (hi : i < hashes.length) :
    ∃ b, BlockFile.readFromDiskByIndex pf k.dir (i + 1) = .ok b ∧ b.hash = hashes.get ⟨i, hi⟩ := by
  obtain ⟨b, hfile, hhash⟩ := h.blocks i hi
  refine ⟨b, ?_, hhash⟩
  simp only [BlockFile.readFromDiskByIndex, BlockFile.readFromDisk, hfile, h.readable,
    hpf.decode_encodeBlock]

-- ============================================================================
-- Opening the directory again
-- ============================================================================

/-- Every file is a block file. -/
theorem OnDisk.mem_listAllBlocks (h : OnDisk pf k hashes) (filename : String) :
    filename ∈ k.dir.listAllBlocks ↔ filename ∈ k.dir.files := by
  rw [BlockDir.listAllBlocks, List.mem_insertionSort, List.mem_filter, AList.mem_keys]
  refine ⟨And.left, fun hmem => ⟨hmem, ?_⟩⟩
  obtain ⟨i, -, rfl⟩ := h.names filename (AList.mem_keys.mpr hmem)
  exact BlockFile.isBlockFilename_blockFilenameForIndex _

/-- The last block has the last name, as long as all names have one length. -/
theorem OnDisk.getLast_listAllBlocks (h : OnDisk pf k hashes) (hfew : hashes.length ≤ 99999)
    {filename : String} (hlast : k.dir.listAllBlocks.getLast? = some filename) :
    filename = BlockFile.blockFilenameForIndex hashes.length ∧ hashes ≠ [] := by
  have hmem : filename ∈ k.dir.listAllBlocks := List.mem_of_getLast? hlast
  obtain ⟨i, hi, rfl⟩ := h.names filename ((h.mem_listAllBlocks filename).mp hmem)
  refine ⟨?_, List.ne_nil_of_length_pos (by omega)⟩
  by_contra hne
  have hlt : i + 1 < hashes.length := by
    have : i + 1 ≠ hashes.length := fun heq => hne (by rw [heq])
    omega
  -- The last block's own name is in the list and sorts after this one.
  have hname : BlockFile.blockFilenameForIndex hashes.length ∈ k.dir.listAllBlocks := by
    obtain ⟨b, hfile, -⟩ := h.blocks (hashes.length - 1) (by omega)
    rw [Nat.sub_add_cancel (by omega)] at hfile
    rw [h.mem_listAllBlocks]
    exact AList.lookup_isSome.mp (Option.isSome_iff_exists.mpr ⟨_, hfile⟩)
  have hsorted : k.dir.listAllBlocks.Pairwise (· ≤ ·) := List.pairwise_insertionSort (· ≤ ·) _
  obtain ⟨initial, hinitial⟩ := List.getLast?_eq_some_iff.mp hlast
  rw [hinitial] at hname hsorted
  have hless := BlockFile.blockFilenameForIndex_lt hlt hfew
  rcases List.mem_append.mp hname with hbefore | heq
  · have hle := (List.pairwise_append.mp hsorted).2.2 _ hbefore _ (List.mem_singleton_self _)
    exact absurd hle (not_le.mpr hless)
  · rw [List.mem_singleton.mp heq] at hless
    exact absurd hless (lt_irrefl _)

/-- A block store opened on the directory has the same blocks. -/
theorem OnDisk.reopened (hpf : pf.Lawful) (h : OnDisk pf k hashes) (hfew : hashes.length ≤ 99999)
    (mempoolSize : Nat) (walk : HashMap.Walk BlockHash BlockFile) :
    OnDisk pf (new pf k.dir mempoolSize walk) hashes := by
  refine ⟨?_, h.blocks, h.names, h.readable, h.writable⟩
  cases hlast : k.dir.listAllBlocks.getLast? with
  | none =>
      have hempty : hashes = [] := by
        by_contra hne
        have hpos := List.length_pos_of_ne_nil hne
        obtain ⟨b, hfile, -⟩ := h.blocks 0 hpos
        have hmem := (h.mem_listAllBlocks _).mpr
          (AList.lookup_isSome.mp (Option.isSome_iff_exists.mpr ⟨_, hfile⟩))
        rw [List.getLast?_eq_none_iff.mp hlast] at hmem
        exact absurd hmem List.not_mem_nil
      simp only [new, hlast, hempty, List.length_nil]
  | some filename =>
      obtain ⟨rfl, hne⟩ := h.getLast_listAllBlocks hfew hlast
      have hpos := List.length_pos_of_ne_nil hne
      obtain ⟨b, hread, -⟩ := h.read hpf (i := hashes.length - 1) (by omega)
      rw [Nat.sub_add_cancel hpos, BlockFile.readFromDiskByIndex] at hread
      simp only [new, hlast, hread, BlockFile.blockIndexOf_blockFilenameForIndex]

-- ============================================================================
-- Following a log
-- ============================================================================

/-- The block store follows a log whose committed blocks are `done`: all but the last
    ones, `commits`, are on disk, and these and the blocks `ahead` are staged. -/
structure Follows (pf : Platform) (k : BlockKeeper) (done commits ahead : List BlockHash) :
    Prop where
  disk : ∃ hashes, OnDisk pf k hashes ∧ hashes ++ commits = done
  staged : ∀ h ∈ commits ++ ahead, h ∈ k.uncommitedBlocks
  distinct : (commits ++ ahead).Nodup
  own : ∀ h b, k.uncommitedBlocks.lookup h = some b → b.hash = h

namespace Follows

variable {done commits ahead : List BlockHash}

/-- More is staged, and nothing else changes. -/
theorem congr (h : Follows pf k done commits ahead) (hdir : k'.dir = k.dir)
    (hstate : k'.blockStorageState = k.blockStorageState)
    (hkept : ∀ hash ∈ k.uncommitedBlocks, hash ∈ k'.uncommitedBlocks)
    (hown : ∀ hash b, k'.uncommitedBlocks.lookup hash = some b → b.hash = hash) :
    Follows pf k' done commits ahead where
  disk := by
    obtain ⟨hashes, hdisk, hdone⟩ := h.disk
    exact ⟨hashes, hdisk.congr hdir hstate, hdone⟩
  staged := fun hash hmem => hkept hash (h.staged hash hmem)
  distinct := h.distinct
  own := hown

theorem packs (h : Follows pf k done commits ahead) (hpacks : Packs pf k k') :
    Follows pf k' done commits ahead := by
  refine h.congr hpacks.dir hpacks.state hpacks.kept ?_
  intro hash b hlookup
  rcases hpacks.staged hash b hlookup with hold | ⟨hhash, -⟩
  · exact h.own hash b hold
  · exact hhash

theorem stages (h : Follows pf k done commits ahead) {block : BlockFile}
    (hstages : Stages k k' block) : Follows pf k' done commits ahead := by
  refine h.congr hstages.dir hstages.state ?_ ?_
  · intro hash hmem
    rw [hstages.uncommitedBlocks]
    exact (AList.mem_insert _).mpr (Or.inr hmem)
  · intro hash b hlookup
    rw [hstages.uncommitedBlocks, HashMap.lookup_insert_ite] at hlookup
    split at hlookup
    · rename_i heq
      cases hlookup
      exact heq.symm
    · exact h.own hash b hlookup

/-- The next commit is executed. -/
theorem commit {blockHash : BlockHash} (h : Follows pf k done (blockHash :: commits) ahead) :
    Follows pf (k.commitBlock pf blockHash).1 done commits ahead := by
  obtain ⟨hashes, hdisk, hdone⟩ := h.disk
  obtain ⟨hfresh, hdistinct⟩ := List.nodup_cons.mp h.distinct
  obtain ⟨block, hlookup⟩ := Option.isSome_iff_exists.mp
    (AList.lookup_isSome.mpr (h.staged blockHash List.mem_cons_self))
  have hhash := h.own blockHash block hlookup
  have hcommits := (commitBlock_commits pf hlookup (hdisk.writable k.dir.writes)).2
  subst hhash
  refine ⟨⟨hashes ++ [block.hash], hdisk.commits hcommits, ?_⟩, ?_, hdistinct, ?_⟩
  · rw [List.append_assoc]
    exact hdone
  · intro hash hmem
    rw [hcommits.uncommitedBlocks, AList.mem_erase]
    refine ⟨?_, h.staged hash (List.mem_cons_of_mem _ hmem)⟩
    rintro rfl
    exact hfresh hmem
  · intro hash b hlookup'
    rw [hcommits.uncommitedBlocks, HashMap.lookup_erase_ite] at hlookup'
    split at hlookup'
    · cases hlookup'
    · exact h.own hash b hlookup'

/-- All commits are executed. -/
theorem commitsAll (h : Follows pf k done commits ahead) (hcommits : CommitsAll pf k k' commits) :
    Follows pf k' done [] ahead := by
  obtain ⟨⟨hashes, hdisk, hdone⟩, hstaged, hdistinct, hown⟩ := h
  obtain ⟨-, hahead, hdisjoint⟩ := List.nodup_append.mp hdistinct
  refine ⟨⟨hashes ++ commits, hdisk.commitsAll hown hcommits, ?_⟩, ?_, hahead, ?_⟩
  · rw [List.append_nil, hdone]
  · intro hash hmem
    have hnot : hash ∉ commits := fun hin => hdisjoint hash hin hash hmem rfl
    rw [← AList.lookup_isSome, hcommits.lookup, if_neg hnot, AList.lookup_isSome]
    exact hstaged hash (List.mem_append_right _ hmem)
  · intro hash b hlookup
    rw [hcommits.lookup] at hlookup
    split at hlookup
    · cases hlookup
    · exact hown hash b hlookup

/-- Rolling back the last blocks ahead keeps the others staged. -/
theorem mem_rolledBack {kept dropped : List BlockHash}
    (h : Follows pf k done [] (kept ++ dropped)) {hash : BlockHash} (hmem : hash ∈ kept) :
    hash ∈ (k.rolledBack pf dropped).uncommitedBlocks := by
  have hdistinct : (kept ++ dropped).Nodup := h.distinct
  have hstaged : ∀ hash ∈ kept ++ dropped, hash ∈ k.uncommitedBlocks := h.staged
  have hnot : hash ∉ dropped :=
    fun hin => (List.nodup_append.mp hdistinct).2.2 hash hmem hash hin rfl
  exact (k.rolledBack_rollsBack pf dropped).kept hash
    (hstaged hash (List.mem_append_left _ hmem)) hnot

/-- The last blocks ahead are rolled back and others staged in their place. -/
theorem replace {kept dropped new : List BlockHash} {blocks : HashMap BlockHash BlockFile}
    {entries : List RaftLogEntry} (h : Follows pf k done [] (kept ++ dropped))
    (hstages : StagesAll (k.rolledBack pf dropped) k' blocks entries)
    (hblocks : ∀ hash b, blocks.lookup hash = some b → b.hash = hash)
    (hnew : ∀ hash ∈ new, hash ∈ entries.map RaftLogEntry.blockHash)
    (hdistinct : (kept ++ new).Nodup) : Follows pf k' done [] (kept ++ new) := by
  have hrolled := k.rolledBack_rollsBack pf dropped
  obtain ⟨hashes, hdisk, hdone⟩ := h.disk
  refine ⟨⟨hashes, hdisk.congr (hstages.dir.trans hrolled.dir) (hstages.state.trans hrolled.state),
    hdone⟩, ?_, hdistinct, ?_⟩
  · intro hash hmem
    rw [List.nil_append] at hmem
    rw [hstages.mem]
    rcases List.mem_append.mp hmem with hmem | hmem
    · exact Or.inl (h.mem_rolledBack hmem)
    · exact Or.inr (hnew hash hmem)
  · intro hash b hlookup
    rcases hstages.staged hash b hlookup with hold | hnew
    · rcases hrolled.staged hash b hold with hold | hhash
      · exact h.own hash b hold
      · exact hhash
    · exact hblocks hash b hnew

/-- Blocks ahead are committed by the log. -/
theorem advance {moved : List BlockHash} (h : Follows pf k done commits (moved ++ ahead)) :
    Follows pf k (done ++ moved) (commits ++ moved) ahead := by
  obtain ⟨⟨hashes, hdisk, hdone⟩, hstaged, hdistinct, hown⟩ := h
  rw [← List.append_assoc] at hstaged hdistinct
  exact ⟨⟨hashes, hdisk, by rw [← List.append_assoc, hdone]⟩, hstaged, hdistinct, hown⟩

/-- A staged block is appended to the log. -/
theorem append {blockHash : BlockHash} (h : Follows pf k done commits ahead)
    (hstaged : blockHash ∈ k.uncommitedBlocks) (hfresh : blockHash ∉ commits ++ ahead) :
    Follows pf k done commits (ahead ++ [blockHash]) := by
  obtain ⟨hdisk, hold, hdistinct, hown⟩ := h
  refine ⟨hdisk, ?_, ?_, hown⟩
  · intro hash hmem
    rw [← List.append_assoc, List.mem_append, List.mem_singleton] at hmem
    rcases hmem with hmem | rfl
    · exact hold hash hmem
    · exact hstaged
  · rw [← List.append_assoc, List.nodup_append]
    refine ⟨hdistinct, List.nodup_singleton _, ?_⟩
    rintro hash hmem _ hlast rfl
    rw [List.mem_singleton.mp hlast] at hmem
    exact hfresh hmem

/-- Nothing is ahead when the directory is opened again. -/
theorem reopened (hpf : pf.Lawful) (h : Follows pf k done [] []) (hfew : done.length ≤ 99999)
    (mempoolSize : Nat) (walk : HashMap.Walk BlockHash BlockFile) :
    Follows pf (new pf k.dir mempoolSize walk) done [] [] := by
  obtain ⟨hashes, hdisk, hdone⟩ := h.disk
  rw [List.append_nil] at hdone
  subst hdone
  refine ⟨⟨hashes, hdisk.reopened hpf hfew mempoolSize walk, List.append_nil _⟩, ?_,
    List.nodup_nil, ?_⟩
  · exact fun hash hmem => absurd hmem List.not_mem_nil
  · intro hash b hlookup
    cases hlookup

end Follows

end BlockKeeper
end Rustchain
