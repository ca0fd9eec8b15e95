/-
  Rustchain.Storage.Chain

  Block stores whose block files are a hash chain: when the operations of the
  store keep them one, and why two stores without forks agree.
-/

import Rustchain.Lib.HashChain
import Rustchain.Storage.Sequences

namespace Rustchain
namespace BlockKeeper

/-- The block files hold the chain, and the tip is its last block. -/
structure Holds (pf : Platform) (k : BlockKeeper) (chain : List BlockFile) : Prop where
  linked : HashChain.Linked BlockFile.hash BlockFile.previousHash emptyHash chain
  height : k.blockStorageState.blockHeight = chain.length
  tip : k.blockStorageState.lastCommitedHash = HashChain.tip BlockFile.hash emptyHash chain
  files : ∀ i (hi : i < chain.length),
    k.dir.files.lookup (BlockFile.blockFilenameForIndex (i + 1)) =
      some (pf.encodeBlock (chain.get ⟨i, hi⟩))

/-- The block store holds a chain of settled blocks, stages known blocks under their
    own hash, and its directory works. -/
structure ChainSound (pf : Platform) (settled known : BlockFile → Prop) (k : BlockKeeper) :
    Prop where
  chain : ∃ chain, Holds pf k chain ∧ ∀ b ∈ chain, settled b
  staged : ∀ h b, k.uncommitedBlocks.lookup h = some b → b.hash = h ∧ known b
  readable : ∀ filename, k.dir.readError filename = none
  writable : ∀ j, k.dir.writeFault j = none

theorem new_chainSound (pf : Platform) (settled known : BlockFile → Prop) (path : String)
    (mempoolSize : Nat) (walk : HashMap.Walk BlockHash BlockFile) :
    ChainSound pf settled known (new pf (.empty path) mempoolSize walk) where
  chain := ⟨[], ⟨trivial, rfl, rfl, fun i hi => absurd hi (Nat.not_lt_zero i)⟩,
    fun b hb => absurd hb List.not_mem_nil⟩
  staged := fun h b hlookup => by cases hlookup
  readable := fun _ => rfl
  writable := fun _ => rfl

variable {pf : Platform} {settled known : BlockFile → Prop} {k k' : BlockKeeper}

theorem ChainSound.mono {settled' known' : BlockFile → Prop} (h : ChainSound pf settled known k)
    (hsettled : ∀ b, settled b → settled' b) (hknown : ∀ b, known b → known' b) :
    ChainSound pf settled' known' k where
  chain := by
    obtain ⟨chain, hholds, hall⟩ := h.chain
    exact ⟨chain, hholds, fun b hb => hsettled b (hall b hb)⟩
  staged := fun hash b hlookup => (h.staged hash b hlookup).imp_right (hknown b)
  readable := h.readable
  writable := h.writable

/-- The directory and the tip are as before. -/
theorem Holds.congr {chain : List BlockFile} (h : Holds pf k chain) (hdir : k'.dir = k.dir)
    (hstate : k'.blockStorageState = k.blockStorageState) : Holds pf k' chain := by
  obtain ⟨hlinked, hheight, htip, hfiles⟩ := h
  refine ⟨hlinked, ?_, ?_, ?_⟩
  · rw [hstate, hheight]
  · rw [hstate, htip]
  · rw [hdir]
    exact hfiles

theorem ChainSound.congr (h : ChainSound pf settled known k) (hdir : k'.dir = k.dir)
    (hstate : k'.blockStorageState = k.blockStorageState)
    (hstaged : ∀ h b, k'.uncommitedBlocks.lookup h = some b → b.hash = h ∧ known b) :
    ChainSound pf settled known k' where
  chain := by
    obtain ⟨chain, hholds, hsettled⟩ := h.chain
    exact ⟨chain, hholds.congr hdir hstate, hsettled⟩
  staged := hstaged
  readable := by
    rw [hdir]
    exact h.readable
  writable := by
    rw [hdir]
    exact h.writable

/-- Packing stages new blocks, which have to be known. -/
theorem ChainSound.packs (h : ChainSound pf settled known k) (hpacks : Packs pf k k')
    (hcreated : ∀ b ∈ k'.created, known b) : ChainSound pf settled known k' := by
  refine h.congr hpacks.dir hpacks.state ?_
  intro hash b hlookup
  rcases hpacks.staged hash b hlookup with hold | ⟨hhash, hmem⟩
  · exact h.staged hash b hold
  · exact ⟨hhash, hcreated b hmem⟩

theorem ChainSound.stages (h : ChainSound pf settled known k) {block : BlockFile}
    (hstages : Stages k k' block) (hblock : known block) : ChainSound pf settled known k' := by
  refine h.congr hstages.dir hstages.state ?_
  rw [hstages.uncommitedBlocks]
  exact HashMap.forall_insert h.staged ⟨rfl, hblock⟩

theorem ChainSound.erase (h : ChainSound pf settled known k) (blockHash : BlockHash) :
    ChainSound pf settled known
      { k with uncommitedBlocks := k.uncommitedBlocks.erase blockHash } := by
  exact h.congr rfl rfl (HashMap.forall_erase h.staged blockHash)

/-- Committing a block on the tip extends the chain. -/
theorem Holds.commits {chain : List BlockFile} (h : Holds pf k chain) {block : BlockFile}
    (hcommits : Commits pf k k' block.hash block)
    (hparent : block.previousHash = k.blockStorageState.lastCommitedHash) :
    Holds pf k' (chain ++ [block]) where
  linked := h.linked.concat (hparent.trans h.tip)
  height := by rw [hcommits.height, h.height, List.length_append, List.length_singleton]
  tip := by rw [hcommits.tip, HashChain.tip_concat]
  files := by
    intro i hi
    rw [hcommits.files, h.height]
    rw [List.length_append, List.length_singleton] at hi
    by_cases hlast : i = chain.length
    · subst hlast
      rw [AList.lookup_insert, List.get_eq_getElem, List.getElem_concat_length rfl]
    · have hi' : i < chain.length := by omega
      rw [AList.lookup_insert_ne, h.files i hi', List.get_eq_getElem, List.get_eq_getElem,
        List.getElem_append_left hi']
      intro hname
      have := BlockFile.blockFilenameForIndex_injective hname
      omega

theorem ChainSound.commits (h : ChainSound pf settled known k) {blockHash : BlockHash}
    {block : BlockFile} (hlookup : k.uncommitedBlocks.lookup blockHash = some block)
    (hcommits : Commits pf k k' blockHash block)
    (hparent : block.previousHash = k.blockStorageState.lastCommitedHash)
    (hsettled : settled block) : ChainSound pf settled known k' := by
  obtain ⟨rfl, -⟩ := h.staged blockHash block hlookup
  refine ⟨?_, ?_, ?_, ?_⟩
  · obtain ⟨chain, hholds, hall⟩ := h.chain
    refine ⟨chain ++ [block], hholds.commits hcommits hparent, ?_⟩
    intro b hb
    rcases List.mem_append.mp hb with hb | hb
    · exact hall b hb
    · rw [List.mem_singleton.mp hb]
      exact hsettled
  · rw [hcommits.uncommitedBlocks]
    exact (h.erase block.hash).staged
  · rw [hcommits.readError]
    exact h.readable
  · rw [hcommits.writeFault]
    exact h.writable

/-- A block file of the chain is read back. -/
theorem Holds.read (hpf : pf.Lawful) {chain : List BlockFile} (h : Holds pf k chain)
    (hreadable : ∀ filename, k.dir.readError filename = none) {i : Nat} (hi : i < chain.length) :
    BlockFile.readFromDiskByIndex pf k.dir (i + 1) = .ok (chain.get ⟨i, hi⟩) := by
  simp only [BlockFile.readFromDiskByIndex, BlockFile.readFromDisk, h.files i hi, hreadable,
    hpf.decode_encodeBlock]

/-- The block files determine the chain. -/
theorem Holds.unique (hpf : pf.Lawful) (hreadable : ∀ filename, k.dir.readError filename = none)
    {chain chain' : List BlockFile} (h : Holds pf k chain) (h' : Holds pf k chain') :
    chain = chain' := by
  have hlength : chain.length = chain'.length := h.height.symm.trans h'.height
  refine List.ext_getElem hlength ?_
  intro i hi hi'
  have hread := h.read hpf hreadable hi
  rw [h'.read hpf hreadable hi'] at hread
  exact (Except.ok.inj hread).symm

/-- Two block stores that hold settled blocks without forks have, at every height both
    have reached, block files with the same hash. -/
theorem ChainSound.agree (hpf : pf.Lawful) {known' : BlockFile → Prop}
    (hforkless : HashChain.Forkless BlockFile.hash BlockFile.previousHash settled)
    (h : ChainSound pf settled known k) (h' : ChainSound pf settled known' k') {i : Nat}
    (hi : i < k.blockStorageState.blockHeight) (hi' : i < k'.blockStorageState.blockHeight) :
    ∃ b b', BlockFile.readFromDiskByIndex pf k.dir (i + 1) = .ok b ∧
      BlockFile.readFromDiskByIndex pf k'.dir (i + 1) = .ok b' ∧ b.hash = b'.hash := by
  obtain ⟨chain, hholds, hsettled⟩ := h.chain
  obtain ⟨chain', hholds', hsettled'⟩ := h'.chain
  rw [hholds.height] at hi
  rw [hholds'.height] at hi'
  exact ⟨_, _, hholds.read hpf h.readable hi, hholds'.read hpf h'.readable hi',
    hholds.linked.agree hforkless hholds'.linked hsettled hsettled' i hi hi'⟩

end BlockKeeper
end Rustchain
