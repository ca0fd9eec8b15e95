/-
  Rustchain.Lib.HashMap

  Unordered maps as association lists without repeated keys.

  Lookup, insertion and removal are Mathlib's (`AList`); this file adds what it
  lacks: keeping the entries whose key passes a test, the values of a map, and
  the order in which a program that walks an unordered map meets them.  That
  order is a parameter (`Walk`, `EntryWalk`), so what is proved holds for all of
  them.
-/

import Mathlib.Data.List.AList

namespace Rustchain

/-- An unordered map, by its entries. -/
abbrev HashMap (K V : Type) := AList fun _ : K => V

namespace HashMap

variable {K V : Type}

def values (m : HashMap K V) : List V := m.entries.map Sigma.snd

/-- The order in which a walk over a map meets its values.  It may depend on how
    the map came about, which the list of its entries records. -/
structure Walk (K V : Type) where
  order : HashMap K V → List V
  perm : ∀ m, (order m).Perm m.values

/-- The walk that meets the entries as they are listed. -/
def Walk.listed (K V : Type) : Walk K V := ⟨values, fun _ => .refl _⟩

/-- The order in which a walk over a map meets its entries. -/
structure EntryWalk (K V : Type) where
  order : HashMap K V → List (Σ _ : K, V)
  perm : ∀ m, (order m).Perm m.entries

/-- The walk that meets the values with `front` before all others. -/
def Walk.first (K : Type) (front : V → Bool) : Walk K V where
  order m := m.values.filter front ++ m.values.filter fun v => !front v
  perm m := List.filter_append_perm front m.values

theorem Walk.mem_order (walk : Walk K V) {m : HashMap K V} {v : V} :
    v ∈ walk.order m ↔ v ∈ m.values :=
  (walk.perm m).mem_iff

/-- The walk that meets such a value first finds one, if there is one. -/
theorem Walk.find?_first {m : HashMap K V} {front p : V → Bool}
    (himp : ∀ v ∈ m.values, front v = true → p v = true) {v : V} (hv : v ∈ m.values)
    (hfront : front v = true) :
    ∃ w, ((Walk.first K front).order m).find? p = some w ∧ front w = true := by
  have hmem : v ∈ m.values.filter front := List.mem_filter.mpr ⟨hv, hfront⟩
  obtain ⟨w, hw⟩ : ∃ w, (m.values.filter front).find? p = some w := by
    rw [← Option.isSome_iff_exists, List.find?_isSome]
    exact ⟨v, hmem, himp v hv hfront⟩
  refine ⟨w, ?_, (List.mem_filter.mp (List.mem_of_find?_eq_some hw)).2⟩
  show (m.values.filter front ++ _).find? p = some w
  rw [List.find?_append, hw]
  rfl

/-- Testing the first value found with `p` tells, for every order of the walk, whether
    a value passes both tests, exactly if the values with `p` agree on the test. -/
theorem Walk.any_find?_iff {m : HashMap K V} {p q : V → Bool} :
    (∀ walk : Walk K V, ((walk.order m).find? p).any q = true ↔
        ∃ v ∈ m.values, p v = true ∧ q v = true) ↔
      (∀ v ∈ m.values, p v = true → q v = false) ∨
        ∀ v ∈ m.values, p v = true → q v = true := by
  constructor
  · intro h
    by_contra hmixed
    rw [not_or] at hmixed
    obtain ⟨hpass, hfail⟩ := hmixed
    push Not at hpass hfail
    obtain ⟨v, hv, hp, hq⟩ := hpass
    obtain ⟨w, hw, hp', hq'⟩ := hfail
    -- a walk that meets the values that fail the test first
    have himp : ∀ v ∈ m.values, (p v && !q v) = true → p v = true :=
      fun _ _ hboth => (Bool.and_eq_true_iff.mp hboth).1
    obtain ⟨found, hfound, hfront⟩ := Walk.find?_first himp hw (by simp [hp', hq'])
    have htrue := (h (Walk.first K fun v => p v && !q v)).mpr
      ⟨v, hv, hp, by simpa using hq⟩
    rw [hfound, Option.any_some] at htrue
    simp [htrue] at hfront
  · intro hagree walk
    constructor
    · intro h
      obtain ⟨v, hfound, hq⟩ := (Option.any_eq_true _ _).mp h
      exact ⟨v, walk.mem_order.mp (List.mem_of_find?_eq_some hfound), List.find?_some hfound, hq⟩
    · rintro ⟨v, hv, hp, hq⟩
      have hall : ∀ v ∈ m.values, p v = true → q v = true := by
        rcases hagree with hnone | hall
        · rw [hnone v hv hp] at hq
          cases hq
        · exact hall
      obtain ⟨w, hw⟩ : ∃ w, (walk.order m).find? p = some w := by
        rw [← Option.isSome_iff_exists, List.find?_isSome]
        exact ⟨v, walk.mem_order.mpr hv, hp⟩
      rw [hw, Option.any_some]
      exact hall w (walk.mem_order.mp (List.mem_of_find?_eq_some hw)) (List.find?_some hw)

/-- The map with the entries that fail `p` removed. -/
def filterEntries (p : K → V → Bool) (m : HashMap K V) : HashMap K V :=
  ⟨m.entries.filter fun e => p e.1 e.2, m.nodupKeys.sublist List.filter_sublist⟩

/-- The map with the entries whose key fails `p` removed. -/
def retain (p : K → Bool) (m : HashMap K V) : HashMap K V :=
  ⟨m.entries.filter fun e => p e.1, m.nodupKeys.sublist List.filter_sublist⟩

variable [DecidableEq K]

theorem lookup_insert_ite (m : HashMap K V) (k : K) (v : V) (other : K) :
    (m.insert k v).lookup other = if other = k then some v else m.lookup other := by
  by_cases h : other = k
  · rw [if_pos h, h, AList.lookup_insert]
  · rw [if_neg h, AList.lookup_insert_ne h]

theorem lookup_erase_ite (m : HashMap K V) (k other : K) :
    (m.erase k).lookup other = if other = k then none else m.lookup other := by
  by_cases h : other = k
  · rw [if_pos h, h, AList.lookup_erase]
  · rw [if_neg h, AList.lookup_erase_ne h]

/-- What holds of all entries and of a new one holds of all entries then. -/
theorem forall_insert {P : K → V → Prop} {m : HashMap K V}
    (h : ∀ k v, m.lookup k = some v → P k v) {k : K} {v : V} (hnew : P k v) (other : K) (w : V)
    (hlookup : (m.insert k v).lookup other = some w) : P other w := by
  rw [lookup_insert_ite] at hlookup
  split at hlookup
  · rename_i heq
    subst heq
    cases hlookup
    exact hnew
  · exact h other w hlookup

/-- What holds of all entries holds of those that are left. -/
theorem forall_erase {P : K → V → Prop} {m : HashMap K V}
    (h : ∀ k v, m.lookup k = some v → P k v) (k other : K) (w : V)
    (hlookup : (m.erase k).lookup other = some w) : P other w := by
  rw [lookup_erase_ite] at hlookup
  split at hlookup
  · cases hlookup
  · exact h other w hlookup

theorem lookup_eq_some_iff {m : HashMap K V} {k : K} {v : V} :
    m.lookup k = some v ↔ (⟨k, v⟩ : Σ _ : K, V) ∈ m.entries :=
  List.mem_dlookup_iff m.nodupKeys

theorem lookup_filterEntries {p : K → V → Bool} {m : HashMap K V} {k : K} {v : V} :
    (filterEntries p m).lookup k = some v ↔ m.lookup k = some v ∧ p k v = true := by
  rw [lookup_eq_some_iff, lookup_eq_some_iff]
  exact List.mem_filter

/-- Retaining never invents an entry. -/
theorem lookup_of_lookup_retain {p : K → Bool} {m : HashMap K V} {k : K} {v : V}
    (h : (retain p m).lookup k = some v) : m.lookup k = some v := by
  have hmem : (⟨k, v⟩ : Σ _ : K, V) ∈ (retain p m).entries :=
    List.of_mem_dlookup (Option.mem_def.mpr h)
  exact Option.mem_def.mp (List.mem_dlookup m.nodupKeys (List.mem_filter.mp hmem).1)

theorem lookup_of_mem_values {m : HashMap K V} {v : V} (h : v ∈ m.values) :
    ∃ k, m.lookup k = some v := by
  obtain ⟨⟨k, w⟩, hmem, rfl⟩ := List.mem_map.mp h
  exact ⟨k, Option.mem_def.mp (List.mem_dlookup m.nodupKeys hmem)⟩

/-- An entry found after inserting others was there before or is one of them. -/
theorem lookup_foldl_insert {entries : List (Σ _ : K, V)} {m : HashMap K V} {k : K} {v : V}
    (h : (entries.foldl (fun m e => m.insert e.1 e.2) m).lookup k = some v) :
    m.lookup k = some v ∨ ⟨k, v⟩ ∈ entries := by
  induction entries generalizing m with
  | nil => exact Or.inl h
  | cons e entries ih =>
      rcases ih h with hold | hmem
      · rw [lookup_insert_ite] at hold
        split at hold
        · rename_i heq
          subst heq
          cases hold
          exact Or.inr List.mem_cons_self
        · exact Or.inl hold
      · exact Or.inr (List.mem_cons_of_mem e hmem)

/-- An entry found after erasing others was there before. -/
theorem lookup_foldl_erase {α : Type} {key : α → K} {l : List α} {m : HashMap K V} {k : K} {v : V}
    (h : (l.foldl (fun m a => m.erase (key a)) m).lookup k = some v) : m.lookup k = some v := by
  induction l generalizing m with
  | nil => exact h
  | cons a l ih =>
      have hold := ih h
      rw [lookup_erase_ite] at hold
      split at hold
      · cases hold
      · exact hold

end HashMap

end Rustchain
