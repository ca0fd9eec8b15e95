/-
  Rustchain.Lib.Quorum

  Approval voting: a voter may vote for several candidates, and a candidate with
  a quorum of the votes is elected.

  At most one candidate is elected if nobody votes for a second one, or if those
  who vote for several are fewer than two quorums have in common.
-/

import Mathlib.Data.Finset.Card

namespace Rustchain
namespace Quorum

variable {V C : Type} {P : Finset V} {quorum : Nat} {candidates candidates' : Finset C}
  {votes votes' : V → C → Prop}

section

variable (P : Finset V) (quorum : Nat) (candidates : Finset C) (votes : V → C → Prop)
  [∀ v c, Decidable (votes v c)]

/-- Those who vote for the candidate. -/
def voters (c : C) : Finset V := P.filter fun v => votes v c

/-- The candidates anybody votes for. -/
def supported : Finset C := candidates.filter fun c => ∃ v ∈ P, votes v c

/-- Those who vote for more than one candidate. -/
def doubleVoters : Finset V := P.filter fun v => 1 < (candidates.filter (votes v)).card

/-- Only one candidate has votes, or too few vote for several to elect two. -/
def Decisive : Prop :=
  (supported P candidates votes).card ≤ 1 ∨
    (doubleVoters P candidates votes).card + P.card < 2 * quorum

instance : Decidable (Decisive P quorum candidates votes) :=
  inferInstanceAs (Decidable (_ ∨ _))

end

variable [∀ v c, Decidable (votes v c)] [∀ v c, Decidable (votes' v c)]

theorem mem_voters {v : V} {c : C} : v ∈ voters P votes c ↔ v ∈ P ∧ votes v c :=
  Finset.mem_filter

theorem mem_supported {c : C} :
    c ∈ supported P candidates votes ↔ c ∈ candidates ∧ ∃ v ∈ P, votes v c :=
  Finset.mem_filter

/-- Votes are only added. -/
theorem voters_mono (h : ∀ v ∈ P, ∀ c, votes v c → votes' v c) (c : C) :
    (voters P votes c).card ≤ (voters P votes' c).card := by
  apply Finset.card_le_card
  intro v hv
  obtain ⟨hmem, hvotes⟩ := mem_voters.mp hv
  exact mem_voters.mpr ⟨hmem, h v hmem c hvotes⟩

/-- Whoever votes for two candidates is a double voter. -/
theorem mem_doubleVoters {v : V} (hv : v ∈ P) {a b : C} (ha : a ∈ candidates)
    (hb : b ∈ candidates) (hva : votes v a) (hvb : votes v b) (hne : a ≠ b) :
    v ∈ doubleVoters P candidates votes := by
  refine Finset.mem_filter.mpr ⟨hv, Finset.one_lt_card.mpr ⟨a, ?_, b, ?_, hne⟩⟩
  · exact Finset.mem_filter.mpr ⟨ha, hva⟩
  · exact Finset.mem_filter.mpr ⟨hb, hvb⟩

/-- At most one candidate is elected. -/
theorem Decisive.elected_unique (h : Decisive P quorum candidates votes) (hquorum : 0 < quorum)
    {a b : C} (ha : a ∈ candidates) (hb : b ∈ candidates)
    (hvotersA : quorum ≤ (voters P votes a).card) (hvotersB : quorum ≤ (voters P votes b).card) :
    a = b := by
  classical
  by_contra hne
  have hsome : ∀ {c}, quorum ≤ (voters P votes c).card → ∃ v ∈ P, votes v c := by
    intro c hc
    obtain ⟨v, hv⟩ := Finset.card_pos.mp (hquorum.trans_le hc)
    exact ⟨v, mem_voters.mp hv⟩
  rcases h with hone | hfew
  · exact hne (Finset.card_le_one.mp hone a (mem_supported.mpr ⟨ha, hsome hvotersA⟩) b
      (mem_supported.mpr ⟨hb, hsome hvotersB⟩))
  · -- Whoever is in both quorums votes twice.
    have hboth : voters P votes a ∩ voters P votes b ⊆ doubleVoters P candidates votes := by
      intro v hv
      obtain ⟨hva, hvb⟩ := Finset.mem_inter.mp hv
      obtain ⟨hmem, hva⟩ := mem_voters.mp hva
      exact mem_doubleVoters hmem ha hb hva (mem_voters.mp hvb).2 hne
    have hall : voters P votes a ∪ voters P votes b ⊆ P :=
      Finset.union_subset (Finset.filter_subset _ _) (Finset.filter_subset _ _)
    have hcount := Finset.card_union_add_card_inter (voters P votes a) (voters P votes b)
    have hinter := Finset.card_le_card hboth
    have hunion := Finset.card_le_card hall
    omega

/-- No vote for one of the candidates is new. -/
theorem Decisive.mono (h : Decisive P quorum candidates votes)
    (hold : ∀ v ∈ P, ∀ c ∈ candidates', votes' v c → c ∈ candidates ∧ votes v c) :
    Decisive P quorum candidates' votes' := by
  apply h.imp
  · intro hone
    refine (Finset.card_le_card ?_).trans hone
    intro c hc
    obtain ⟨hmem, v, hv, hvotes⟩ := mem_supported.mp hc
    obtain ⟨hcandidate, hvoted⟩ := hold v hv c hmem hvotes
    exact mem_supported.mpr ⟨hcandidate, v, hv, hvoted⟩
  · intro hfew
    refine lt_of_le_of_lt (Nat.add_le_add_right (Finset.card_le_card ?_) _) hfew
    intro v hv
    obtain ⟨hmem, hmany⟩ := Finset.mem_filter.mp hv
    refine Finset.mem_filter.mpr ⟨hmem, hmany.trans_le (Finset.card_le_card ?_)⟩
    intro c hc
    obtain ⟨hcandidate, hvotes⟩ := Finset.mem_filter.mp hc
    exact Finset.mem_filter.mpr (hold v hmem c hcandidate hvotes)

end Quorum
end Rustchain
