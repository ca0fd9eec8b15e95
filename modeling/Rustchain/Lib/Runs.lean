/-
  Rustchain.Lib.Runs

  Systems that take actions, and the runs of a list of actions that can be taken.
-/

import Mathlib.Logic.Relation

namespace Rustchain
namespace Runs

variable {S A : Type} {step : S → A → S} {may : S → A → Prop} [∀ s a, Decidable (may s a)]

/-- Each of the actions may be taken when its turn comes. -/
def takesAll (step : S → A → S) (may : S → A → Prop) [∀ s a, Decidable (may s a)] :
    S → List A → Bool
  | _, [] => true
  | s, a :: as => decide (may s a) && takesAll step may (step s a) as

theorem reaches_foldl {s : S} {as : List A} (h : takesAll step may s as = true) :
    Relation.ReflTransGen (fun s s' => ∃ a, may s a ∧ s' = step s a) s (as.foldl step s) := by
  induction as generalizing s with
  | nil => exact .refl
  | cons a as ih =>
      simp only [takesAll, Bool.and_eq_true, decide_eq_true_eq] at h
      exact .head ⟨a, h.1, rfl⟩ (ih h.2)

end Runs
end Rustchain
