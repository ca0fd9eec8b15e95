/-
  Rustchain.Lib.HashChain

  Chains of blocks, each of which names its parent by hash.

  If no two different blocks of a set have the same parent, then two chains
  over it with the same root agree wherever both have a block.
-/

import Mathlib.Data.List.Basic

namespace Rustchain
namespace HashChain

variable {B H : Type} (hash parent : B → H)

/-- Every block's parent is the block before it, the first one's the root. -/
def Linked (root : H) : List B → Prop
  | [] => True
  | b :: chain => parent b = root ∧ Linked (hash b) chain

/-- The hash of the last block, the root's for the empty chain. -/
def tip (root : H) : List B → H
  | [] => root
  | b :: chain => tip (hash b) chain

/-- No two blocks of the set with different hashes have the same parent. -/
def Forkless (known : B → Prop) : Prop :=
  ∀ a b, known a → known b → parent a = parent b → hash a = hash b

variable {hash parent}

/-- A chain is extended at its tip. -/
theorem Linked.concat {root : H} {chain : List B} (h : Linked hash parent root chain) {b : B}
    (hb : parent b = tip hash root chain) : Linked hash parent root (chain ++ [b]) := by
  induction chain generalizing root with
  | nil => exact ⟨hb, trivial⟩
  | cons first chain ih => exact ⟨h.1, ih h.2 hb⟩

theorem tip_concat (root : H) (chain : List B) (b : B) :
    tip hash root (chain ++ [b]) = hash b := by
  induction chain generalizing root with
  | nil => rfl
  | cons first chain ih => exact ih (hash first)

/-- The first block's parent is the root. -/
theorem Linked.parent_first {root : H} {chain : List B} (h : Linked hash parent root chain)
    (hpos : 0 < chain.length) : parent (chain.get ⟨0, hpos⟩) = root := by
  cases chain with
  | nil => exact absurd hpos (Nat.not_lt_zero 0)
  | cons b chain => exact h.1

/-- Every other block's parent is the block before it. -/
theorem Linked.parent_succ {root : H} {chain : List B} (h : Linked hash parent root chain)
    {i : Nat} (hi : i + 1 < chain.length) :
    parent (chain.get ⟨i + 1, hi⟩) = hash (chain.get ⟨i, Nat.lt_of_succ_lt hi⟩) := by
  induction chain generalizing root i with
  | nil => exact absurd hi (Nat.not_lt_zero _)
  | cons b chain ih =>
      cases i with
      | zero => exact h.2.parent_first (Nat.lt_of_succ_lt_succ hi)
      | succ i => exact ih h.2 (Nat.lt_of_succ_lt_succ hi)

/-- The tip of a chain is its last block. -/
theorem tip_eq_hash_last {root : H} {chain : List B} {i : Nat} (hi : i + 1 = chain.length) :
    tip hash root chain = hash (chain.get ⟨i, by omega⟩) := by
  rcases List.eq_nil_or_concat chain with rfl | ⟨l, b, hl⟩
  · exact absurd hi (Nat.succ_ne_zero i)
  · rw [List.concat_eq_append] at hl
    subst hl
    rw [List.length_append, List.length_singleton] at hi
    obtain rfl : i = l.length := by omega
    rw [tip_concat, List.get_eq_getElem, List.getElem_concat_length rfl]

/-- Without forks two chains agree wherever both have a block. -/
theorem Linked.agree {known : B → Prop} (hforkless : Forkless hash parent known) {root : H}
    {l m : List B} (hl : Linked hash parent root l) (hm : Linked hash parent root m)
    (hlknown : ∀ b ∈ l, known b) (hmknown : ∀ b ∈ m, known b) (i : Nat) (hil : i < l.length)
    (him : i < m.length) : hash (l.get ⟨i, hil⟩) = hash (m.get ⟨i, him⟩) := by
  induction l generalizing root m i with
  | nil => exact absurd hil (Nat.not_lt_zero i)
  | cons a l ih =>
      cases m with
      | nil => exact absurd him (Nat.not_lt_zero i)
      | cons b m =>
          have hfirst : hash a = hash b :=
            hforkless a b (hlknown a List.mem_cons_self) (hmknown b List.mem_cons_self)
              (hl.1.trans hm.1.symm)
          cases i with
          | zero => exact hfirst
          | succ i =>
              have hrest : Linked hash parent (hash a) m := by
                rw [hfirst]
                exact hm.2
              exact ih hl.2 hrest (fun c hc => hlknown c (List.mem_cons_of_mem a hc))
                (fun c hc => hmknown c (List.mem_cons_of_mem b hc)) i
                (Nat.lt_of_succ_lt_succ hil) (Nat.lt_of_succ_lt_succ him)

end HashChain
end Rustchain
