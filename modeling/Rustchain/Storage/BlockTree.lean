/-
  Rustchain.Storage.BlockTree

  The known block tree: the committed tip with the staged blocks above it.

  `block_can_be_added` searches the parent of a block among the staged blocks by
  its height only, and looks at the hash of the first one it finds.  Several
  blocks of one height may be staged at once, and the map they are in is walked
  in any order.  So the answer is that of the tree as long as the parent has no
  sibling.
-/

import Rustchain.Storage.Operations

namespace Rustchain
namespace BlockKeeper

-- ============================================================================
-- The tree
-- ============================================================================

/-- The block extends the known block tree: it is new, and its parent is the last
    committed block or, above the next height, a staged one. -/
structure Extends (k : BlockKeeper) (block : BlockFile) : Prop where
  positive : 1 ≤ block.index
  new : block.hash ∉ k.uncommitedBlocks
  parent :
    block.index = k.blockStorageState.blockHeight + 1 ∧
        block.previousHash = k.blockStorageState.lastCommitedHash ∨
      block.index ≠ k.blockStorageState.blockHeight + 1 ∧
        ∃ staged ∈ k.uncommitedBlocks.values,
          staged.index + 1 = block.index ∧ staged.hash = block.previousHash

variable {k : BlockKeeper} {block : BlockFile}

/-- A staged block is refused, and it does not extend the tree. -/
theorem blockCanBeAdded_of_staged (hmem : block.hash ∈ k.uncommitedBlocks) :
    k.blockCanBeAdded block = true ↔ k.Extends block := by
  refine iff_of_false ?_ fun h => h.new hmem
  unfold blockCanBeAdded
  rw [if_pos hmem]
  split
  · simp
  · simp

/-- At the next height the parent is the tip. -/
theorem blockCanBeAdded_of_next (hnext : block.index = k.blockStorageState.blockHeight + 1) :
    k.blockCanBeAdded block = true ↔ k.Extends block := by
  by_cases hmem : block.hash ∈ k.uncommitedBlocks
  · exact blockCanBeAdded_of_staged hmem
  have hbelow : k.blockStorageState.blockHeight = block.index - 1 := by omega
  unfold blockCanBeAdded
  rw [if_neg (by omega), if_neg hmem, if_pos hbelow, beq_iff_eq]
  constructor
  · intro hparent
    exact ⟨by omega, hmem, Or.inl ⟨hnext, hparent⟩⟩
  · intro h
    rcases h.parent with ⟨-, hparent⟩ | ⟨hother, -⟩
    · exact hparent
    · exact absurd hnext hother

/-- At any other height the parent is searched among the staged blocks. -/
theorem blockCanBeAdded_of_search (hmem : block.hash ∉ k.uncommitedBlocks)
    (hother : block.index ≠ k.blockStorageState.blockHeight + 1) :
    (k.blockCanBeAdded block =
      ((k.walk.order k.uncommitedBlocks).find? fun staged => staged.index + 1 == block.index).any
        fun previous => block.previousHash == previous.hash) ∧
      (k.Extends block ↔ ∃ staged ∈ k.uncommitedBlocks.values,
        (staged.index + 1 == block.index) = true ∧ (block.previousHash == staged.hash) = true) := by
  constructor
  · unfold blockCanBeAdded
    by_cases hzero : block.index = 0
    · -- nothing is below height 0
      have hnone : ((k.walk.order k.uncommitedBlocks).find? fun staged =>
          staged.index + 1 == block.index) = none := by
        apply List.find?_eq_none.mpr
        intro staged _
        rw [hzero]
        simp
      rw [if_pos hzero, hnone]
      rfl
    · rw [if_neg hzero, if_neg hmem, if_neg (by omega)]
  · simp only [beq_iff_eq]
    constructor
    · intro h
      rcases h.parent with ⟨hnext, -⟩ | ⟨-, staged, hstaged, hindex, hhash⟩
      · exact absurd hnext hother
      · exact ⟨staged, hstaged, hindex, hhash.symm⟩
    · rintro ⟨staged, hstaged, hindex, hhash⟩
      exact ⟨by omega, hmem, Or.inr ⟨hother, staged, hstaged, hindex, hhash.symm⟩⟩

/-- `block_can_be_added` accepts the blocks that extend the tree, in every order in which
    the staged blocks may be walked, exactly if the block is staged itself, or is of the
    next height, or the staged blocks below it agree on whether they are its parent. -/
theorem blockCanBeAdded_extends_iff (k : BlockKeeper) (block : BlockFile) :
    (∀ walk : HashMap.Walk BlockHash BlockFile,
      { k with walk }.blockCanBeAdded block = true ↔ k.Extends block) ↔
      block.hash ∈ k.uncommitedBlocks ∨
        block.index = k.blockStorageState.blockHeight + 1 ∨
        (∀ staged ∈ k.uncommitedBlocks.values, staged.index + 1 = block.index →
          staged.hash ≠ block.previousHash) ∨
        ∀ staged ∈ k.uncommitedBlocks.values, staged.index + 1 = block.index →
          staged.hash = block.previousHash := by
  have hextends : ∀ walk, { k with walk }.Extends block ↔ k.Extends block :=
    fun _ => ⟨fun h => ⟨h.positive, h.new, h.parent⟩, fun h => ⟨h.positive, h.new, h.parent⟩⟩
  by_cases hmem : block.hash ∈ k.uncommitedBlocks
  · refine iff_of_true (fun walk => ?_) (Or.inl hmem)
    rw [← hextends walk]
    exact blockCanBeAdded_of_staged hmem
  by_cases hnext : block.index = k.blockStorageState.blockHeight + 1
  · refine iff_of_true (fun walk => ?_) (Or.inr (Or.inl hnext))
    rw [← hextends walk]
    exact blockCanBeAdded_of_next hnext
  have hsearch : ∀ walk : HashMap.Walk BlockHash BlockFile,
      ({ k with walk }.blockCanBeAdded block = true ↔ k.Extends block) ↔
        (((walk.order k.uncommitedBlocks).find? fun staged =>
            staged.index + 1 == block.index).any (fun previous =>
              block.previousHash == previous.hash) = true ↔
          ∃ staged ∈ k.uncommitedBlocks.values, (staged.index + 1 == block.index) = true ∧
            (block.previousHash == staged.hash) = true) := by
    intro walk
    obtain ⟨hadded, htree⟩ := blockCanBeAdded_of_search (k := { k with walk }) hmem hnext
    rw [hadded, ← hextends walk, htree]
  rw [forall_congr' hsearch, HashMap.Walk.any_find?_iff]
  simp only [hmem, hnext, false_or, beq_iff_eq, beq_eq_false_iff_ne, ne_eq,
    eq_comm (a := block.previousHash)]

end BlockKeeper

namespace Reference

open BlockKeeper

/-- Two blocks packed on the same tip. -/
def twoOnTip : List StoreOperation := [.addTransaction deposit, .addTransaction otherDeposit]

/-- A block on top of the first of them. -/
def childBlock : BlockFile := .create platform [] (firstBlock deposit).hash 2

end Reference

namespace BlockKeeper

open Reference

/-- The parent is staged, and another block is met first. -/
theorem blockCanBeAdded_sibling :
    let k := emptyStore.operateAll platform twoOnTip
    Throughout platform Allows emptyStore twoOnTip ∧ childBlock.verifyBlock platform = .ok () ∧
      k.Extends childBlock ∧ k.blockCanBeAdded childBlock = false ∧
      ¬ ∀ walk : HashMap.Walk BlockHash BlockFile,
        { k with walk }.blockCanBeAdded childBlock = true ↔ k.Extends childBlock := by
  intro k
  have hrefused : k.blockCanBeAdded childBlock = false := by decide +kernel
  have hextends : k.Extends childBlock := by
    refine ⟨by decide, by decide +kernel, Or.inr ⟨by decide +kernel, firstBlock deposit, ?_⟩⟩
    decide +kernel
  refine ⟨⟨trivial, trivial, trivial⟩, by decide +kernel, hextends, hrefused, ?_⟩
  intro h
  have haccepted := (h k.walk).mpr hextends
  rw [show { k with walk := k.walk } = k from rfl, hrefused] at haccepted
  cases haccepted

end BlockKeeper
end Rustchain
