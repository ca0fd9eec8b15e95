/-
  Rustchain.RestNetwork

  Requests to several peers at once (`network/rest_network.rs`).

  `send_to_all` spawns a request for each peer id, in the order of the list, and
  then awaits them.  The loop that spawns them ends at the first id that is not
  known: the ids after it are neither asked nor answered for.  A response whose
  body cannot be read ends the call with a panic.
-/

import Mathlib.Data.List.TakeWhile
import Rustchain.Data
import Rustchain.Lib.HashMap

namespace Rustchain
namespace RestNetwork

variable {A T : Type}

-- ============================================================================
-- One request
-- ============================================================================

/-- What awaiting a spawned request gives: the task failed, the request failed, or
    a response came, with the text of its body or the error that reading it meets. -/
inductive SendOutcome where
  | joinError (error : String)
  | requestError (error : String)
  | response (text : Except String String)

/-- The panic of a response whose body cannot be read. -/
structure UnreadableBody where
  error : String

/-- `deserialize_resp`, where `fromStr` is `serde_json::from_str`. -/
def deserializeResp (fromStr : String → Except String T) (text : Except String String) :
    Except UnreadableBody (Except String T) :=
  match text with
  | .error error => .error ⟨error⟩
  | .ok responseBody => .ok (fromStr responseBody)

/-- The result that `send_to_all` enters for an awaited request. -/
def SendOutcome.result (fromStr : String → Except String T) :
    SendOutcome → Except UnreadableBody (Except String T)
  | .response text => deserializeResp fromStr text
  | .requestError error => .ok (.error error)
  | .joinError error => .ok (.error error)

def SendOutcome.Readable : SendOutcome → Prop
  | .response (.error _) => False
  | _ => True

theorem SendOutcome.readable_iff (fromStr : String → Except String T) (outcome : SendOutcome) :
    outcome.Readable ↔ ∃ result, outcome.result fromStr = .ok result := by
  cases outcome with
  | joinError error => exact ⟨fun _ => ⟨_, rfl⟩, fun _ => trivial⟩
  | requestError error => exact ⟨fun _ => ⟨_, rfl⟩, fun _ => trivial⟩
  | response text =>
      cases text with
      | error error => exact ⟨fun h => h.elim, fun ⟨_, h⟩ => by cases h⟩
      | ok responseBody => exact ⟨fun _ => ⟨_, rfl⟩, fun _ => trivial⟩

-- ============================================================================
-- Requests to all
-- ============================================================================

/-- The first loop of `send_to_all`: the requests spawned, and the results entered
    for unknown ids.  The outcome of a request may depend on its position in the
    list, which the number counts, and on the address. -/
def spawnRequests (knownPeers : HashMap PeerId A) (send : Nat → A → SendOutcome) :
    Nat → List PeerId → HashMap PeerId SendOutcome →
      HashMap PeerId SendOutcome × HashMap PeerId (Except String T)
  | _, [], handles => (handles, ∅)
  | n, peerId :: peerIds, handles =>
    match knownPeers.lookup peerId with
    | none => (handles, AList.insert peerId (.error "Peer not found") ∅)
    | some addr =>
      spawnRequests knownPeers send (n + 1) peerIds (handles.insert peerId (send n addr))

/-- The second loop of `send_to_all`. -/
def awaitHandles (fromStr : String → Except String T) :
    List (Σ _ : PeerId, SendOutcome) → HashMap PeerId (Except String T) →
      Except UnreadableBody (HashMap PeerId (Except String T))
  | [], results => .ok results
  | ⟨peerId, outcome⟩ :: handles, results =>
    match outcome.result fromStr with
    | .error panic => .error panic
    | .ok result => awaitHandles fromStr handles (results.insert peerId result)

def sendToAll (knownPeers : HashMap PeerId A) (send : Nat → A → SendOutcome)
    (fromStr : String → Except String T) (walk : HashMap.EntryWalk PeerId SendOutcome)
    (peerIds : List PeerId) : Except UnreadableBody (HashMap PeerId (Except String T)) :=
  let spawned := spawnRequests knownPeers send 0 peerIds ∅
  awaitHandles fromStr (walk.order spawned.1) spawned.2

-- ============================================================================
-- Which requests are made
-- ============================================================================

/-- The ids for which a request is made: those before the first unknown one. -/
def asked (knownPeers : HashMap PeerId A) (peerIds : List PeerId) : List PeerId :=
  peerIds.takeWhile fun peerId => (knownPeers.lookup peerId).isSome

def firstUnknown (knownPeers : HashMap PeerId A) (peerIds : List PeerId) : Option PeerId :=
  peerIds.find? fun peerId => (knownPeers.lookup peerId).isNone

/-- The `n`-th id of the list is this one, and no later one is. -/
def LastAt (peerIds : List PeerId) (n : Nat) (peerId : PeerId) : Prop :=
  peerIds[n]? = some peerId ∧ peerId ∉ peerIds.drop (n + 1)

theorem lastAt_zero {head peerId : PeerId} {peerIds : List PeerId} :
    LastAt (head :: peerIds) 0 peerId ↔ head = peerId ∧ peerId ∉ peerIds := by
  simp [LastAt]

theorem lastAt_succ {head peerId : PeerId} {peerIds : List PeerId} {n : Nat} :
    LastAt (head :: peerIds) (n + 1) peerId ↔ LastAt peerIds n peerId := by
  simp [LastAt]

theorem LastAt.mem {peerIds : List PeerId} {n : Nat} {peerId : PeerId}
    (h : LastAt peerIds n peerId) : peerId ∈ peerIds :=
  List.mem_of_getElem? h.1

theorem exists_lastAt {peerIds : List PeerId} {peerId : PeerId} (h : peerId ∈ peerIds) :
    ∃ n, LastAt peerIds n peerId := by
  induction peerIds with
  | nil => cases h
  | cons head peerIds ih =>
      by_cases hlater : peerId ∈ peerIds
      · obtain ⟨n, hn⟩ := ih hlater
        exact ⟨n + 1, lastAt_succ.mpr hn⟩
      · obtain rfl : peerId = head := (List.mem_cons.mp h).resolve_right hlater
        exact ⟨0, lastAt_zero.mpr ⟨rfl, hlater⟩⟩

section Spawn

variable {knownPeers : HashMap PeerId A} {send : Nat → A → SendOutcome}

/-- The handles: for each id asked, that of the last request made for it. -/
theorem spawnRequests_handles (knownPeers : HashMap PeerId A) (send : Nat → A → SendOutcome)
    (peerId : PeerId) (outcome : SendOutcome) (peerIds : List PeerId) :
    ∀ (n : Nat) (handles : HashMap PeerId SendOutcome),
      (spawnRequests (T := T) knownPeers send n peerIds handles).1.lookup peerId = some outcome ↔
        (∃ i addr, LastAt (asked knownPeers peerIds) i peerId ∧
          knownPeers.lookup peerId = some addr ∧ send (n + i) addr = outcome) ∨
        peerId ∉ asked knownPeers peerIds ∧ handles.lookup peerId = some outcome := by
  induction peerIds with
  | nil => simp [spawnRequests, asked, LastAt]
  | cons head peerIds ih =>
      intro n handles
      cases hhead : knownPeers.lookup head with
      | none => simp [spawnRequests, asked, LastAt, hhead]
      | some addr =>
          have hasked : asked knownPeers (head :: peerIds) = head :: asked knownPeers peerIds := by
            simp [asked, hhead]
          simp only [spawnRequests, hhead, hasked]
          rw [ih, HashMap.lookup_insert_ite]
          constructor
          · rintro (⟨i, known, hlast, hknown, hsend⟩ | ⟨hnot, hlookup⟩)
            · rw [Nat.add_right_comm] at hsend
              exact Or.inl ⟨i + 1, known, lastAt_succ.mpr hlast, hknown, hsend⟩
            · split at hlookup
              · rename_i heq
                subst heq
                exact Or.inl ⟨0, addr, lastAt_zero.mpr ⟨rfl, hnot⟩, hhead, Option.some.inj hlookup⟩
              · rename_i hne
                exact Or.inr ⟨List.not_mem_cons_of_ne_of_not_mem hne hnot, hlookup⟩
          · rintro (⟨i, known, hlast, hknown, hsend⟩ | ⟨hnot, hlookup⟩)
            · cases i with
              | zero =>
                  obtain ⟨rfl, hnot⟩ := lastAt_zero.mp hlast
                  obtain rfl : addr = known := Option.some.inj (hhead.symm.trans hknown)
                  exact Or.inr ⟨hnot, by rw [if_pos rfl, ← hsend, Nat.add_zero]⟩
              | succ i =>
                  refine Or.inl ⟨i, known, lastAt_succ.mp hlast, hknown, ?_⟩
                  rw [Nat.add_right_comm]
                  exact hsend
            · rw [List.mem_cons, not_or] at hnot
              exact Or.inr ⟨hnot.2, by rw [if_neg hnot.1, hlookup]⟩

/-- The handles that `send_to_all` awaits. -/
theorem mem_spawnRequests {peerIds : List PeerId} {e : Σ _ : PeerId, SendOutcome} :
    e ∈ (spawnRequests (T := T) knownPeers send 0 peerIds ∅).1.entries ↔
      ∃ n addr, LastAt (asked knownPeers peerIds) n e.1 ∧
        knownPeers.lookup e.1 = some addr ∧ send n addr = e.2 := by
  have hhandles := spawnRequests_handles (T := T) knownPeers send e.1 e.2 peerIds 0 ∅
  simp only [Nat.zero_add, AList.lookup_empty, reduceCtorEq, and_false, or_false] at hhandles
  rw [← hhandles, HashMap.lookup_eq_some_iff]

/-- The results entered meanwhile: the refusal of the first unknown id. -/
theorem spawnRequests_results (peerIds : List PeerId) (peerId : PeerId) :
    ∀ (n : Nat) (handles : HashMap PeerId SendOutcome),
      (spawnRequests (T := T) knownPeers send n peerIds handles).2.lookup peerId =
        if firstUnknown knownPeers peerIds = some peerId then some (.error "Peer not found")
        else none := by
  induction peerIds with
  | nil => exact fun _ _ => rfl
  | cons head peerIds ih =>
      intro n handles
      cases hhead : knownPeers.lookup head with
      | none =>
          have hfirst : firstUnknown knownPeers (head :: peerIds) = some head := by
            simp [firstUnknown, hhead]
          simp only [spawnRequests, hhead, hfirst]
          rw [HashMap.lookup_insert_ite]
          simp only [Option.some.injEq, eq_comm, AList.lookup_empty]
      | some addr =>
          have hfirst : firstUnknown knownPeers (head :: peerIds) =
              firstUnknown knownPeers peerIds := by
            simp [firstUnknown, hhead]
          simp only [spawnRequests, hhead, hfirst]
          exact ih _ _

theorem firstUnknown_lookup {peerIds : List PeerId} {peerId : PeerId}
    (h : firstUnknown knownPeers peerIds = some peerId) :
    peerId ∈ peerIds ∧ knownPeers.lookup peerId = none :=
  ⟨List.mem_of_find?_eq_some h, by simpa using List.find?_some h⟩

theorem asked_getElem {peerIds : List PeerId} {n : Nat} {peerId : PeerId}
    (h : (asked knownPeers peerIds)[n]? = some peerId) : peerIds[n]? = some peerId := by
  obtain ⟨rest, hrest⟩ : asked knownPeers peerIds <+: peerIds := List.takeWhile_prefix _
  obtain ⟨hn, -⟩ := List.getElem?_eq_some_iff.mp h
  rw [← hrest, List.getElem?_append_left hn]
  exact h

theorem asked_lookup {peerIds : List PeerId} {peerId : PeerId}
    (h : peerId ∈ asked knownPeers peerIds) :
    peerId ∈ peerIds ∧ ∃ addr, knownPeers.lookup peerId = some addr := by
  have hsome : (knownPeers.lookup peerId).isSome = true :=
    List.mem_takeWhile_imp (p := fun peerId => (knownPeers.lookup peerId).isSome) h
  exact ⟨(List.takeWhile_subset _) h, Option.isSome_iff_exists.mp hsome⟩

end Spawn

-- ============================================================================
-- Awaiting the requests
-- ============================================================================

section Await

variable {fromStr : String → Except String T}

/-- Awaiting comes to an end exactly if every response can be read. -/
theorem awaitHandles_returns_iff (handles : List (Σ _ : PeerId, SendOutcome)) :
    ∀ results : HashMap PeerId (Except String T),
      (∃ results', awaitHandles fromStr handles results = .ok results') ↔
        ∀ e ∈ handles, e.2.Readable := by
  induction handles with
  | nil => simp [awaitHandles]
  | cons e handles ih =>
      intro results
      rw [List.forall_mem_cons, SendOutcome.readable_iff fromStr]
      cases hresult : e.2.result fromStr with
      | error panic => simp [awaitHandles, hresult]
      | ok result => simp [awaitHandles, hresult, ih]

/-- Every handle has its result entered, and nothing else changes. -/
theorem awaitHandles_results (handles : List (Σ _ : PeerId, SendOutcome))
    (hkeys : handles.NodupKeys) : ∀ {results results' : HashMap PeerId (Except String T)},
    awaitHandles fromStr handles results = .ok results' →
      (∀ e ∈ handles, ∃ result, e.2.result fromStr = .ok result ∧
        results'.lookup e.1 = some result) ∧
      ∀ peerId, peerId ∉ handles.keys → results'.lookup peerId = results.lookup peerId := by
  induction handles with
  | nil =>
      intro results results' h
      cases h
      exact ⟨fun e he => (List.not_mem_nil he).elim, fun _ _ => rfl⟩
  | cons e handles ih =>
      intro results results' h
      rw [List.nodupKeys_cons] at hkeys
      cases hresult : e.2.result fromStr with
      | error panic => simp [awaitHandles, hresult] at h
      | ok result =>
          simp only [awaitHandles, hresult] at h
          obtain ⟨hentered, hothers⟩ := ih hkeys.2 h
          constructor
          · intro e' he'
            rcases List.mem_cons.mp he' with rfl | he'
            · refine ⟨result, hresult, ?_⟩
              rw [hothers _ hkeys.1, AList.lookup_insert]
            · exact hentered e' he'
          · intro peerId hnot
            rw [List.keys_cons, List.mem_cons, not_or] at hnot
            rw [hothers _ hnot.2, AList.lookup_insert_ne hnot.1]

end Await

-- ============================================================================
-- An answer for every peer
-- ============================================================================

/-- The results answer for every id of the list: an unknown one is refused, and for a
    known one stands what a request made for it gave. -/
structure AnswersAll (knownPeers : HashMap PeerId A) (send : Nat → A → SendOutcome)
    (fromStr : String → Except String T) (peerIds : List PeerId)
    (results : HashMap PeerId (Except String T)) : Prop where
  keys : ∀ peerId, peerId ∈ results ↔ peerId ∈ peerIds
  unknown : ∀ peerId ∈ peerIds, knownPeers.lookup peerId = none →
    results.lookup peerId = some (.error "Peer not found")
  known : ∀ peerId ∈ peerIds, ∀ addr, knownPeers.lookup peerId = some addr →
    ∃ n result, peerIds[n]? = some peerId ∧ (send n addr).result fromStr = .ok result ∧
      results.lookup peerId = some result

variable {knownPeers : HashMap PeerId A} {send : Nat → A → SendOutcome}
  {fromStr : String → Except String T} {walk : HashMap.EntryWalk PeerId SendOutcome}
  {peerIds : List PeerId}

/-- `send_to_all` returns exactly if the responses to the last request for each id
    asked can be read. -/
theorem sendToAll_returns_iff (fromStr : String → Except String T)
    (walk : HashMap.EntryWalk PeerId SendOutcome) :
    (∃ results, sendToAll knownPeers send fromStr walk peerIds = .ok results) ↔
      ∀ n peerId addr, LastAt (asked knownPeers peerIds) n peerId →
        knownPeers.lookup peerId = some addr → (send n addr).Readable := by
  unfold sendToAll
  rw [awaitHandles_returns_iff]
  constructor
  · intro h n peerId addr hlast hknown
    apply h ⟨peerId, send n addr⟩
    exact (walk.perm _).mem_iff.mpr (mem_spawnRequests.mpr ⟨n, addr, hlast, hknown, rfl⟩)
  · intro h e he
    obtain ⟨n, addr, hlast, hknown, hsend⟩ :=
      mem_spawnRequests.mp ((walk.perm _).mem_iff.mp he)
    rw [← hsend]
    exact h n e.1 addr hlast hknown

/-- What `send_to_all` returns: the last result for each id asked, and a refusal of the
    first unknown one. -/
theorem sendToAll_results {results : HashMap PeerId (Except String T)}
    (h : sendToAll knownPeers send fromStr walk peerIds = .ok results) :
    (∀ n peerId addr, LastAt (asked knownPeers peerIds) n peerId →
      knownPeers.lookup peerId = some addr →
      ∃ result, (send n addr).result fromStr = .ok result ∧
        results.lookup peerId = some result) ∧
      ∀ peerId, peerId ∉ asked knownPeers peerIds → results.lookup peerId =
        if firstUnknown knownPeers peerIds = some peerId then some (.error "Peer not found")
        else none := by
  have hperm := walk.perm (spawnRequests (T := T) knownPeers send 0 peerIds ∅).1
  obtain ⟨hentered, hothers⟩ := awaitHandles_results _
    ((List.perm_nodupKeys hperm).mpr (AList.nodupKeys _)) h
  constructor
  · intro n peerId addr hlast hknown
    apply hentered ⟨peerId, send n addr⟩
    exact hperm.mem_iff.mpr (mem_spawnRequests.mpr ⟨n, addr, hlast, hknown, rfl⟩)
  · intro peerId hnot
    rw [hothers, spawnRequests_results]
    intro hkey
    obtain ⟨e, he, rfl⟩ := List.mem_map.mp hkey
    obtain ⟨n, addr, hlast, -⟩ := mem_spawnRequests.mp (hperm.mem_iff.mp he)
    exact hnot hlast.mem

/-- `send_to_all` answers for every peer exactly if no id of the list comes only after
    the first unknown one, and the responses it awaits can be read. -/
theorem sendToAll_answersAll_iff (knownPeers : HashMap PeerId A) (send : Nat → A → SendOutcome)
    (fromStr : String → Except String T) (walk : HashMap.EntryWalk PeerId SendOutcome)
    (peerIds : List PeerId) :
    (∃ results, sendToAll knownPeers send fromStr walk peerIds = .ok results ∧
        AnswersAll knownPeers send fromStr peerIds results) ↔
      (∀ peerId ∈ peerIds,
        peerId ∈ asked knownPeers peerIds ∨ firstUnknown knownPeers peerIds = some peerId) ∧
      ∀ n peerId addr, LastAt (asked knownPeers peerIds) n peerId →
        knownPeers.lookup peerId = some addr → (send n addr).Readable := by
  constructor
  · rintro ⟨results, hresults, hanswers⟩
    refine ⟨fun peerId hmem => ?_, (sendToAll_returns_iff fromStr walk).mp ⟨results, hresults⟩⟩
    by_cases hasked : peerId ∈ asked knownPeers peerIds
    · exact Or.inl hasked
    · -- an id that is neither asked nor refused has no answer
      have hlookup := (sendToAll_results hresults).2 peerId hasked
      split at hlookup
      · rename_i hfirst
        exact Or.inr hfirst
      · exact absurd ((hanswers.keys peerId).mpr hmem) (AList.lookup_eq_none.mp hlookup)
  · rintro ⟨hreached, hreadable⟩
    obtain ⟨results, hresults⟩ := (sendToAll_returns_iff fromStr walk).mpr hreadable
    obtain ⟨hasked, hothers⟩ := sendToAll_results hresults
    have hunknown : ∀ peerId ∈ peerIds, knownPeers.lookup peerId = none →
        results.lookup peerId = some (.error "Peer not found") := by
      intro peerId hmem hnone
      have hnot : peerId ∉ asked knownPeers peerIds := by
        intro h
        obtain ⟨-, addr, haddr⟩ := asked_lookup h
        rw [hnone] at haddr
        cases haddr
      rw [hothers peerId hnot, if_pos ((hreached peerId hmem).resolve_left hnot)]
    have hknown : ∀ peerId ∈ peerIds, ∀ addr, knownPeers.lookup peerId = some addr →
        ∃ n result, peerIds[n]? = some peerId ∧ (send n addr).result fromStr = .ok result ∧
          results.lookup peerId = some result := by
      intro peerId hmem addr haddr
      have hmem' : peerId ∈ asked knownPeers peerIds := by
        rcases hreached peerId hmem with h | h
        · exact h
        · rw [(firstUnknown_lookup h).2] at haddr
          cases haddr
      obtain ⟨n, hlast⟩ := exists_lastAt hmem'
      obtain ⟨result, hresult, hlookup⟩ := hasked n peerId addr hlast haddr
      exact ⟨n, result, asked_getElem hlast.1, hresult, hlookup⟩
    refine ⟨results, hresults, fun peerId => ⟨fun h => ?_, fun hmem => ?_⟩, hunknown, hknown⟩
    · by_contra hnot
      have hnone := hothers peerId fun h => hnot (asked_lookup h).1
      rw [if_neg fun h => hnot (firstUnknown_lookup h).1] at hnone
      exact AList.lookup_eq_none.mp hnone h
    · rw [← AList.lookup_isSome]
      cases haddr : knownPeers.lookup peerId with
      | none => rw [hunknown peerId hmem haddr, Option.isSome_some]
      | some addr =>
          obtain ⟨n, result, -, -, hlookup⟩ := hknown peerId hmem addr haddr
          rw [hlookup, Option.isSome_some]

/-- The peer after an unknown one is not asked. -/
theorem sendToAll_unknownFirst :
    let knownPeers : HashMap PeerId String := AList.insert 2 "10.0.0.2:80" ∅
    let send : Nat → String → SendOutcome := fun _ _ => .response (.ok "7")
    ∃ results : HashMap PeerId (Except String String),
      sendToAll knownPeers send .ok ⟨AList.entries, fun _ => .refl _⟩ [1, 2] = .ok results ∧
        2 ∉ results ∧ ¬AnswersAll knownPeers send .ok [1, 2] results := by
  intro knownPeers send
  have hnot : 2 ∉ (AList.insert 1 (.error "Peer not found") ∅ :
      HashMap PeerId (Except String String)) := by decide
  exact ⟨_, rfl, hnot, fun h => hnot ((h.keys 2).mpr (by decide))⟩

end RestNetwork
end Rustchain
