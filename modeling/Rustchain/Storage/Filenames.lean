/-
  Rustchain.Storage.Filenames

  The names of block files: each index has its own name, the name gives the
  index back, and the names of the first 99999 blocks sort as their indexes do.
-/

import Mathlib.Data.String.Basic
import Mathlib.Tactic.Ring
import Rustchain.Storage.BlockKeeper

namespace Rustchain
namespace BlockFile

open BlockDir

/-- The characters of a block file's name before the dot. -/
def stemOf (index : Nat) : List Char :=
  List.replicate (5 - (Nat.toDigits 10 index).length) '0' ++ Nat.toDigits 10 index

theorem blockFilenameForIndex_toList (index : Nat) :
    (blockFilenameForIndex index).toList = stemOf index ++ ".block".toList := by
  simp only [blockFilenameForIndex, stemOf, Nat.toString_eq_ofList_toDigits, String.toList_append,
    String.toList_ofList]

theorem isDigit_of_mem_stemOf {index : Nat} {c : Char} (h : c ∈ stemOf index) :
    c.isDigit = true := by
  rcases List.mem_append.mp h with h | h
  · rw [List.eq_of_mem_replicate h]
    rfl
  · exact Nat.isDigit_of_mem_toDigits (by decide) (by decide) h

theorem takeWhile_blockFilename (index : Nat) :
    (blockFilenameForIndex index).toList.takeWhile Char.isDigit = stemOf index := by
  rw [blockFilenameForIndex_toList,
    List.takeWhile_append_of_pos fun c h => isDigit_of_mem_stemOf h]
  exact List.append_nil _

/-- The stem reads as the index. -/
theorem ofDigitChars_stemOf (index : Nat) : Nat.ofDigitChars 10 (stemOf index) 0 = index := by
  rw [stemOf, Nat.ofDigitChars_append, Nat.ofDigitChars_replicate_zero, Nat.mul_zero,
    Nat.ofDigitChars_ten_toDigits]

/-- The name of a block file gives its index back. -/
theorem blockIndexOf_blockFilenameForIndex (index : Nat) :
    blockIndexOf (blockFilenameForIndex index) = index := by
  rw [blockIndexOf, takeWhile_blockFilename]
  exact ofDigitChars_stemOf index

theorem blockFilenameForIndex_injective : Function.Injective blockFilenameForIndex := by
  intro i j h
  rw [← blockIndexOf_blockFilenameForIndex i, h, blockIndexOf_blockFilenameForIndex]

theorem isBlockFilename_blockFilenameForIndex (index : Nat) :
    isBlockFilename (blockFilenameForIndex index) = true := by
  have hstem : stemOf index ≠ [] := by
    intro h
    exact Nat.toDigits_ne_nil (List.append_eq_nil_iff.mp h).2
  simp only [isBlockFilename, takeWhile_blockFilename, Bool.and_eq_true, Bool.not_eq_true',
    List.isEmpty_eq_false_iff]
  refine ⟨hstem, ?_⟩
  rw [blockFilenameForIndex_toList, List.drop_left]
  rfl

-- ============================================================================
-- The order of the names
-- ============================================================================

/-- The value of a digit. -/
theorem toNat_le_of_isDigit {c : Char} (h : c.isDigit = true) : 48 ≤ c.toNat ∧ c.toNat ≤ 57 := by
  rw [Char.isDigit, Bool.and_eq_true, decide_eq_true_iff, decide_eq_true_iff] at h
  exact ⟨UInt32.le_iff_toNat_le.mp h.1, UInt32.le_iff_toNat_le.mp h.2⟩

/-- Read from an accumulator, digits stay within one unit of it. -/
theorem ofDigitChars_bounds {digits : List Char} (h : ∀ c ∈ digits, c.isDigit = true) (acc : Nat) :
    acc * 10 ^ digits.length ≤ Nat.ofDigitChars 10 digits acc ∧
      Nat.ofDigitChars 10 digits acc < (acc + 1) * 10 ^ digits.length := by
  induction digits generalizing acc with
  | nil => simp
  | cons c digits ih =>
      obtain ⟨hlow, hhigh⟩ := ih (fun d hd => h d (List.mem_cons_of_mem c hd))
        (10 * acc + (c.toNat - 48))
      have hc := toNat_le_of_isDigit (h c List.mem_cons_self)
      rw [Nat.ofDigitChars_cons, List.length_cons, Nat.pow_succ]
      constructor
      · calc acc * (10 ^ digits.length * 10)
            = (10 * acc) * 10 ^ digits.length := by ring
          _ ≤ (10 * acc + (c.toNat - 48)) * 10 ^ digits.length :=
              Nat.mul_le_mul_right _ (Nat.le_add_right _ _)
          _ ≤ _ := hlow
      · calc Nat.ofDigitChars 10 digits (10 * acc + (c.toNat - 48))
            < (10 * acc + (c.toNat - 48) + 1) * 10 ^ digits.length := hhigh
          _ ≤ (10 * (acc + 1)) * 10 ^ digits.length :=
              Nat.mul_le_mul_right _ (by omega)
          _ = (acc + 1) * (10 ^ digits.length * 10) := by ring

/-- Of two numerals of one length the smaller number sorts first. -/
theorem append_lt_append_of_ofDigitChars_lt {l m : List Char} (hl : ∀ c ∈ l, c.isDigit = true)
    (hm : ∀ c ∈ m, c.isDigit = true) (hlength : l.length = m.length) (acc : Nat)
    (h : Nat.ofDigitChars 10 l acc < Nat.ofDigitChars 10 m acc) (rest : List Char) :
    l ++ rest < m ++ rest := by
  induction l generalizing m acc with
  | nil =>
      rw [List.length_eq_zero_iff.mp hlength.symm] at h
      exact absurd h (Nat.lt_irrefl _)
  | cons c l ih =>
      obtain ⟨d, m, rfl⟩ := List.exists_cons_of_length_eq_add_one hlength.symm
      have hltail : ∀ e ∈ l, e.isDigit = true := fun e he => hl e (List.mem_cons_of_mem c he)
      have hmtail : ∀ e ∈ m, e.isDigit = true := fun e he => hm e (List.mem_cons_of_mem d he)
      have htails : l.length = m.length := Nat.succ.inj hlength
      rw [Nat.ofDigitChars_cons, Nat.ofDigitChars_cons] at h
      rw [List.cons_append, List.cons_append, List.cons_lt_cons_iff]
      rcases lt_trichotomy c d with hcd | rfl | hdc
      · exact Or.inl hcd
      · exact Or.inr ⟨rfl, ih hltail hmtail htails _ h⟩
      · -- A larger first digit makes the first number the larger one.
        exfalso
        have hlow := (ofDigitChars_bounds hltail (10 * acc + (c.toNat - 48))).1
        have hhigh := (ofDigitChars_bounds hmtail (10 * acc + (d.toNat - 48))).2
        have hd := toNat_le_of_isDigit (hm d List.mem_cons_self)
        have hnat : d.toNat < c.toNat := Char.lt_def.mp hdc
        rw [← htails] at hhigh
        have hunit : (10 * acc + (d.toNat - 48) + 1) * 10 ^ l.length ≤
            (10 * acc + (c.toNat - 48)) * 10 ^ l.length :=
          Nat.mul_le_mul_right _ (by omega)
        exact absurd h (not_lt.mpr (le_trans hhigh.le (le_trans hunit hlow)))

theorem length_stemOf {index : Nat} (h : index ≤ 99999) : (stemOf index).length = 5 := by
  have hdigits : (Nat.toDigits 10 index).length ≤ 5 :=
    (Nat.length_toDigits_le_iff (by decide) (by decide)).mpr (by omega)
  rw [stemOf, List.length_append, List.length_replicate]
  omega

/-- The names of the first 99999 blocks sort as their indexes do. -/
theorem blockFilenameForIndex_lt {i j : Nat} (hij : i < j) (hj : j ≤ 99999) :
    blockFilenameForIndex i < blockFilenameForIndex j := by
  rw [String.lt_iff_toList_lt, blockFilenameForIndex_toList, blockFilenameForIndex_toList]
  apply append_lt_append_of_ofDigitChars_lt (fun c => isDigit_of_mem_stemOf)
    (fun c => isDigit_of_mem_stemOf) _ 0
  · rw [ofDigitChars_stemOf, ofDigitChars_stemOf]
    exact hij
  · rw [length_stemOf (le_trans hij.le hj), length_stemOf hj]

end BlockFile
end Rustchain
