/-
  Rustchain.Lib.Moves

  Amounts that move between the places of a ledger, and what undoing moves
  restores.

  A move takes its amount from a source, or from nowhere, and puts it at a
  target.  Undoing takes it back with a subtraction that stops at zero, so an
  undone move that finds too little at its target leaves an excess.  Excesses
  only add up: a list of moves is undone exactly if and only if none of them
  finds too little (`undoAll_eq_iff`), and that can be said of the balances
  before the first of them (`CoveredAll`).
-/

import Mathlib.Algebra.BigOperators.Group.Finset.Piecewise
import Mathlib.Algebra.BigOperators.Group.List.Basic
import Mathlib.Algebra.BigOperators.Ring.Finset
import Mathlib.Algebra.Order.Group.Int
import Mathlib.Algebra.Ring.Int.Defs

namespace Rustchain

structure Move (K : Type) where
  source : Option K
  target : K
  amount : ℕ

namespace Move

variable {K : Type} [DecidableEq K]

/-- The balances after a move. -/
def apply (m : Move K) (b : K → ℕ) (k : K) : ℕ :=
  b k - (if m.source = some k then m.amount else 0) + (if m.target = k then m.amount else 0)

/-- The balances after taking a move back, as far as its target has the amount. -/
def undo (m : Move K) (b : K → ℕ) (k : K) : ℕ :=
  b k - (if m.target = k then m.amount else 0) + (if m.source = some k then m.amount else 0)

/-- What a move adds to the balance of a place. -/
def net (m : Move K) (k : K) : ℤ :=
  (if m.target = k then (m.amount : ℤ) else 0) - (if m.source = some k then (m.amount : ℤ) else 0)

/-- The source of the move, if it has one, has the amount. -/
def Funded (m : Move K) (b : K → ℕ) : Prop := ∀ k, m.source = some k → m.amount ≤ b k

/-- The amount that comes from nowhere. -/
def minted (m : Move K) : ℕ := if m.source.isSome then 0 else m.amount

theorem apply_eq {m : Move K} {b : K → ℕ} (h : m.Funded b) (k : K) :
    (m.apply b k : ℤ) = b k + m.net k := by
  have hfunded := h k
  unfold apply net
  split
  · have hle := hfunded (by assumption)
    split <;> omega
  · split <;> omega

/-- An undone move leaves what its target lacks as an excess there. -/
theorem undo_eq (m : Move K) (b : K → ℕ) (k : K) :
    (m.undo b k : ℤ) = b k - m.net k + (if m.target = k then (m.amount - b k : ℕ) else 0) := by
  unfold undo net
  split <;> split <;> omega

theorem undo_eq_of_covered {m : Move K} {b : K → ℕ} (h : m.amount ≤ b m.target) (k : K) :
    (m.undo b k : ℤ) = b k - m.net k := by
  rw [undo_eq]
  split
  · rename_i htarget
    rw [htarget] at h
    omega
  · omega

theorem undo_apply {m : Move K} {b : K → ℕ} (h : m.Funded b) : m.undo (m.apply b) = b := by
  have hcovered : m.amount ≤ m.apply b m.target := by
    unfold apply
    rw [if_pos rfl]
    omega
  funext k
  have hundo := undo_eq_of_covered hcovered k
  rw [apply_eq h] at hundo
  omega

-- ============================================================================
-- Lists of moves
-- ============================================================================

def undoAll (moves : List (Move K)) (b : K → ℕ) : K → ℕ :=
  moves.foldl (fun b m => m.undo b) b

/-- What the moves add to the balance of a place. -/
def netAll (moves : List (Move K)) (k : K) : ℤ := (moves.map fun m => m.net k).sum

@[simp] theorem netAll_nil (k : K) : netAll [] k = 0 := rfl

@[simp] theorem netAll_cons (m : Move K) (moves : List (Move K)) (k : K) :
    netAll (m :: moves) k = m.net k + netAll moves k :=
  List.sum_cons

@[simp] theorem netAll_append (moves moves' : List (Move K)) (k : K) :
    netAll (moves ++ moves') k = netAll moves k + netAll moves' k := by
  rw [netAll, List.map_append, List.sum_append]
  rfl

theorem netAll_perm {moves moves' : List (Move K)} (h : moves.Perm moves') (k : K) :
    netAll moves k = netAll moves' k :=
  (h.map _).sum_eq

/-- When the moves are undone one after the other, every one of them finds its
    amount at its target, going by the balances before the first. -/
def CoveredAll (moves : List (Move K)) (b : K → ℤ) : Prop :=
  ∀ undone m left, moves = undone ++ m :: left →
    (m.amount : ℤ) ≤ b m.target - netAll undone m.target

theorem coveredAll_nil (b : K → ℤ) : CoveredAll [] b := by
  intro undone m left heq
  exact absurd heq.symm (List.append_ne_nil_of_right_ne_nil _ (List.cons_ne_nil _ _))

theorem coveredAll_cons {m : Move K} {moves : List (Move K)} {b : K → ℤ} :
    CoveredAll (m :: moves) b ↔
      (m.amount : ℤ) ≤ b m.target ∧ CoveredAll moves fun k => b k - m.net k := by
  constructor
  · intro h
    constructor
    · have hfirst := h [] m moves rfl
      rw [netAll_nil] at hfirst
      omega
    · intro undone other left heq
      have hlater := h (m :: undone) other left (by rw [heq]; rfl)
      rw [netAll_cons] at hlater
      show (other.amount : ℤ) ≤ b other.target - m.net other.target - netAll undone other.target
      omega
  · rintro ⟨hfirst, hrest⟩ undone other left heq
    cases undone with
    | nil =>
        cases heq
        rw [netAll_nil]
        omega
    | cons first undone =>
        rw [List.cons_append, List.cons.injEq] at heq
        obtain ⟨rfl, heq⟩ := heq
        have hlater : (other.amount : ℤ) ≤
            b other.target - m.net other.target - netAll undone other.target :=
          hrest undone other left heq
        rw [netAll_cons]
        omega

instance decidableCoveredAll :
    ∀ (moves : List (Move K)) (b : K → ℤ), Decidable (CoveredAll moves b)
  | [], b => .isTrue (coveredAll_nil b)
  | m :: moves, b =>
    have := decidableCoveredAll moves fun k => b k - m.net k
    decidable_of_iff _ coveredAll_cons.symm

/-- Undoing never takes more than the moves brought. -/
theorem le_undoAll (moves : List (Move K)) (b : K → ℕ) (k : K) :
    (b k : ℤ) - netAll moves k ≤ undoAll moves b k := by
  induction moves generalizing b with
  | nil =>
      show (b k : ℤ) - 0 ≤ b k
      omega
  | cons m moves ih =>
      have hrest := ih (m.undo b)
      have hstep := undo_eq m b k
      rw [netAll_cons]
      show (b k : ℤ) - (m.net k + netAll moves k) ≤ undoAll moves (m.undo b) k
      split at hstep <;> omega

/-- The moves are undone exactly if and only if each of them is covered. -/
theorem undoAll_eq_iff (moves : List (Move K)) (b : K → ℕ) :
    (∀ k, (undoAll moves b k : ℤ) = b k - netAll moves k) ↔
      CoveredAll moves fun k => (b k : ℤ) := by
  induction moves generalizing b with
  | nil =>
      refine iff_of_true (fun k => ?_) (coveredAll_nil _)
      show (b k : ℤ) = b k - 0
      omega
  | cons m moves ih =>
      rw [coveredAll_cons]
      constructor
      · intro hexact
        -- At the target the rest leaves no less than the excess of this move.
        have hcovered : m.amount ≤ b m.target := by
          have htarget : (undoAll moves (m.undo b) m.target : ℤ) =
              b m.target - netAll (m :: moves) m.target := hexact m.target
          have hrest := le_undoAll moves (m.undo b) m.target
          have hstep := undo_eq m b m.target
          rw [if_pos rfl] at hstep
          rw [netAll_cons] at htarget
          omega
        have hundo : (fun k => (b k : ℤ) - m.net k) = fun k => (m.undo b k : ℤ) := by
          funext k
          exact (undo_eq_of_covered hcovered k).symm
        refine ⟨by omega, ?_⟩
        rw [hundo, ← ih]
        intro k
        have hk : (undoAll moves (m.undo b) k : ℤ) = b k - netAll (m :: moves) k := hexact k
        rw [hk, undo_eq_of_covered hcovered, netAll_cons]
        omega
      · rintro ⟨hfirst, hrest⟩ k
        have hcovered : m.amount ≤ b m.target := by omega
        have hundo : (fun k => (b k : ℤ) - m.net k) = fun k => (m.undo b k : ℤ) := by
          funext k
          exact (undo_eq_of_covered hcovered k).symm
        rw [hundo, ← ih] at hrest
        show (undoAll moves (m.undo b) k : ℤ) = b k - netAll (m :: moves) k
        rw [hrest, undo_eq_of_covered hcovered, netAll_cons]
        omega

-- ============================================================================
-- Totals
-- ============================================================================

/-- Within a set of places a move adds what it brings from nowhere. -/
theorem sum_net_of_mem {m : Move K} {places : Finset K} (htarget : m.target ∈ places)
    (hsource : ∀ k, m.source = some k → k ∈ places) :
    ∑ k ∈ places, m.net k = m.minted := by
  have hin : ∑ k ∈ places, (if m.target = k then (m.amount : ℤ) else 0) = m.amount := by
    rw [Finset.sum_ite_eq, if_pos htarget]
  simp only [net, Finset.sum_sub_distrib, hin]
  cases hs : m.source with
  | none => simp [minted, hs]
  | some source => simp [minted, hs, hsource source hs]

/-- A move adds nothing to places it does not touch. -/
theorem sum_net_of_notMem {m : Move K} {places : Finset K} (htarget : m.target ∉ places)
    (hsource : ∀ k, m.source = some k → k ∉ places) :
    ∑ k ∈ places, m.net k = 0 := by
  apply Finset.sum_eq_zero
  intro k hk
  have hne : m.target ≠ k := fun h => htarget (h ▸ hk)
  have hne' : m.source ≠ some k := fun h => hsource k h hk
  rw [net, if_neg hne, if_neg hne', sub_zero]

theorem sum_apply {m : Move K} {b : K → ℕ} (h : m.Funded b) (places : Finset K) :
    ((∑ k ∈ places, m.apply b k : ℕ) : ℤ) =
      (∑ k ∈ places, b k : ℕ) + ∑ k ∈ places, m.net k := by
  rw [Nat.cast_sum, Nat.cast_sum, ← Finset.sum_add_distrib]
  exact Finset.sum_congr rfl fun k _ => apply_eq h k

/-- Undoing a move leaves what its target lacks in the total. -/
theorem sum_undo (m : Move K) (b : K → ℕ) (places : Finset K) :
    ((∑ k ∈ places, m.undo b k : ℕ) : ℤ) =
      (∑ k ∈ places, b k : ℕ) - ∑ k ∈ places, m.net k +
        if m.target ∈ places then ((m.amount - b m.target : ℕ) : ℤ) else 0 := by
  have hdeficit : ∑ k ∈ places, (if m.target = k then ((m.amount - b k : ℕ) : ℤ) else 0) =
      if m.target ∈ places then ((m.amount - b m.target : ℕ) : ℤ) else 0 :=
    Finset.sum_ite_eq _ _ _
  rw [Nat.cast_sum, Nat.cast_sum, ← hdeficit, ← Finset.sum_sub_distrib,
    ← Finset.sum_add_distrib]
  apply Finset.sum_congr rfl
  intro k _
  rw [undo_eq]
  push_cast
  rfl

end Move
end Rustchain
