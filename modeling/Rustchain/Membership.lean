/-
  Rustchain.Membership

  How a peer gets to know the others (`RestNetwork::run`).

  At every tick the network registers the peer with the discovery server and
  asks for the peers it knows.  Five failures in a row end it at the tick after.
  The first answer wakes up who waits for the network to be ready, and only who
  waits by then: there is no second call.
-/

import Mathlib.Data.List.Induction
import Rustchain.Discovery

namespace Rustchain

variable {A : Type}

-- ============================================================================
-- The network checks
-- ============================================================================

def networkCheckTries : Nat := 5

/-- What one check meets at the discovery server: the answer to registering, and to the
    request for the peers that follows it. -/
structure Check (A : Type) where
  register : Except String Unit
  peers : Except String (List (Discovery.PeerWithAddr A))

/-- What comes of it; no peers are asked for if registering fails. -/
def Check.outcome (c : Check A) : Except String (List (Discovery.PeerWithAddr A)) :=
  match c.register with
  | .error e => .error e
  | .ok () => c.peers

structure RestNetwork (A : Type) where
  peerId : PeerId
  knownPeers : HashMap PeerId A
  failedChecks : Nat
  notifyWaiters : Bool
  /-- `wait_for_readiness` has been called. -/
  waiting : Bool
  /-- `wait_for_readiness` has returned. -/
  ready : Bool
  /-- What `run` has returned. -/
  result : Option String

namespace RestNetwork

def new (peerId : PeerId) : RestNetwork A :=
  { peerId
    knownPeers := ∅
    failedChecks := 0
    notifyWaiters := true
    waiting := false
    ready := false
    result := none }

/-- `update_peers`, for the peers that the discovery server answered with. -/
def updatePeers (n : RestNetwork A) (peers : List (Discovery.PeerWithAddr A)) : RestNetwork A :=
  { n with
    knownPeers := peers.foldl
      (fun knownPeers peer =>
        if peer.peerId ≠ n.peerId then knownPeers.insert peer.peerId peer.addr else knownPeers) ∅ }

inductive Action (A : Type) where
  | check (c : Check A)
  /-- The call of `wait_for_readiness`. -/
  | wait

/-- A turn of the loop of `run`. -/
def check (n : RestNetwork A) (c : Check A) : RestNetwork A :=
  if n.result.isSome then n
  else if n.failedChecks ≥ networkCheckTries then
    { n with
      result := some "Failed to register with discovery server too many times. Exiting." }
  else
    match c.outcome with
    | .ok peers =>
      { n.updatePeers peers with
        ready := n.ready || n.notifyWaiters && n.waiting
        notifyWaiters := false
        failedChecks := 0 }
    | .error _ => { n with failedChecks := n.failedChecks + 1 }

def step (n : RestNetwork A) : Action A → RestNetwork A
  | .check c => n.check c
  | .wait => { n with waiting := true }

def run (n : RestNetwork A) (actions : List (Action A)) : RestNetwork A := actions.foldl step n

section Turns

variable {n : RestNetwork A} {c : Check A}

theorem check_returned (h : n.result.isSome = true) : n.check c = n := if_pos h

theorem check_exhausted (hresult : n.result = none) (h : networkCheckTries ≤ n.failedChecks) :
    n.check c = { n with
      result := some "Failed to register with discovery server too many times. Exiting." } := by
  rw [check, if_neg (by simp [hresult]), if_pos h]

theorem check_answered (hresult : n.result = none) (h : n.failedChecks < networkCheckTries)
    {peers : List (Discovery.PeerWithAddr A)} (hc : c.outcome = .ok peers) :
    n.check c = { n.updatePeers peers with
      ready := n.ready || n.notifyWaiters && n.waiting
      notifyWaiters := false
      failedChecks := 0 } := by
  rw [check, if_neg (by simp [hresult]), if_neg (Nat.not_le_of_lt h), hc]

theorem check_failed (hresult : n.result = none) (h : n.failedChecks < networkCheckTries)
    {e : String} (hc : c.outcome = .error e) :
    n.check c = { n with failedChecks := n.failedChecks + 1 } := by
  rw [check, if_neg (by simp [hresult]), if_neg (Nat.not_le_of_lt h), hc]

end Turns

-- ============================================================================
-- When the network is ready
-- ============================================================================

def Action.isCheck : Action A → Bool
  | .check _ => true
  | .wait => false

/-- The call of `wait_for_readiness` and the first answer, in that order, with fewer than
    the given number of checks before the answer. -/
def Wakes (waiting : Bool) (tries : Nat) (actions : List (Action A)) : Prop :=
  ∃ before c after, actions = before ++ .check c :: after ∧ (∃ peers, c.outcome = .ok peers) ∧
    (∀ c, .check c ∈ before → ∃ e, c.outcome = .error e) ∧
    (waiting = true ∨ .wait ∈ before) ∧ before.countP Action.isCheck < tries

variable {n : RestNetwork A} {actions : List (Action A)}

/-- Whoever is not woken up by the first answer is not woken up at all. -/
theorem run_ready_of_notified (h : n.notifyWaiters = false ∨ n.result.isSome = true) :
    (n.run actions).ready = n.ready := by
  induction actions generalizing n with
  | nil => rfl
  | cons action actions ih =>
      show ((n.step action).run actions).ready = n.ready
      cases action with
      | wait => exact ih h
      | check c =>
          show ((n.check c).run actions).ready = n.ready
          by_cases hsome : n.result.isSome = true
          · rw [check_returned hsome]
            exact ih (Or.inr hsome)
          have hnone : n.result = none := by simpa using hsome
          have hnotified : n.notifyWaiters = false := h.resolve_right (by simp [hnone])
          by_cases htries : networkCheckTries ≤ n.failedChecks
          · rw [check_exhausted hnone htries]
            exact ih (Or.inr rfl)
          · cases houtcome : c.outcome with
            | ok peers =>
                rw [check_answered hnone (Nat.lt_of_not_le htries) houtcome]
                refine (ih (Or.inl rfl)).trans ?_
                simp [hnotified]
            | error e =>
                rw [check_failed hnone (Nat.lt_of_not_le htries) houtcome]
                exact ih (Or.inl hnotified)

theorem wakes_wait {waiting : Bool} {tries : Nat} :
    Wakes waiting tries (.wait :: actions) ↔ Wakes true tries actions := by
  constructor
  · rintro ⟨before, c, after, hsplit, hok, hfailed, -, hcount⟩
    cases before with
    | nil => cases hsplit
    | cons first before =>
        obtain ⟨rfl, rfl⟩ := List.cons.inj hsplit
        exact ⟨before, c, after, rfl, hok, fun c hc => hfailed c (List.mem_cons_of_mem _ hc),
          Or.inl rfl, hcount⟩
  · rintro ⟨before, c, after, rfl, hok, hfailed, -, hcount⟩
    refine ⟨.wait :: before, c, after, rfl, hok, ?_, Or.inr List.mem_cons_self, hcount⟩
    intro c hc
    rcases List.mem_cons.mp hc with hc | hc
    · cases hc
    · exact hfailed c hc

theorem wakes_failed {waiting : Bool} {tries : Nat} {c : Check A} {e : String}
    (hc : c.outcome = .error e) :
    Wakes waiting (tries + 1) (.check c :: actions) ↔ Wakes waiting tries actions := by
  constructor
  · rintro ⟨before, c', after, hsplit, hok, hfailed, hwaits, hcount⟩
    cases before with
    | nil =>
        cases hsplit
        obtain ⟨peers, hpeers⟩ := hok
        rw [hc] at hpeers
        cases hpeers
    | cons first before =>
        obtain ⟨rfl, rfl⟩ := List.cons.inj hsplit
        refine ⟨before, c', after, rfl, hok, fun c hc => hfailed c (List.mem_cons_of_mem _ hc),
          hwaits.imp_right fun hmem => ?_, ?_⟩
        · exact (List.mem_cons.mp hmem).resolve_left (by simp)
        · rw [List.countP_cons_of_pos rfl] at hcount
          exact Nat.lt_of_succ_lt_succ hcount
  · rintro ⟨before, c', after, rfl, hok, hfailed, hwaits, hcount⟩
    refine ⟨.check c :: before, c', after, rfl, hok, ?_, hwaits.imp_right (List.mem_cons_of_mem _),
      ?_⟩
    · intro other hother
      rcases List.mem_cons.mp hother with hother | hother
      · cases hother
        exact ⟨e, hc⟩
      · exact hfailed other hother
    · rw [List.countP_cons_of_pos rfl]
      exact Nat.succ_lt_succ hcount

theorem wakes_answered {waiting : Bool} {tries : Nat} {c : Check A}
    {peers : List (Discovery.PeerWithAddr A)} (hc : c.outcome = .ok peers) :
    Wakes waiting (tries + 1) (.check c :: actions) ↔ waiting = true := by
  constructor
  · rintro ⟨before, c', after, hsplit, -, hfailed, hwaits, -⟩
    cases before with
    | nil => exact hwaits.resolve_right List.not_mem_nil
    | cons first before =>
        obtain ⟨rfl, rfl⟩ := List.cons.inj hsplit
        obtain ⟨e, he⟩ := hfailed c List.mem_cons_self
        rw [hc] at he
        cases he
  · intro hwaiting
    exact ⟨[], c, actions, rfl, ⟨peers, hc⟩, fun _ h => absurd h List.not_mem_nil, Or.inl hwaiting,
      Nat.succ_pos _⟩

/-- From any point on before the first answer. -/
theorem run_ready (hnotify : n.notifyWaiters = true) (hready : n.ready = false)
    (hresult : n.result = none) (hle : n.failedChecks ≤ networkCheckTries) :
    (n.run actions).ready = true ↔
      Wakes n.waiting (networkCheckTries - n.failedChecks) actions := by
  induction actions generalizing n with
  | nil =>
      refine iff_of_false (by simp [run, hready]) ?_
      rintro ⟨before, c, after, hsplit, -⟩
      simp at hsplit
  | cons action actions ih =>
      show ((n.step action).run actions).ready = true ↔ _
      cases action with
      | wait =>
          rw [wakes_wait]
          exact ih (n := { n with waiting := true }) hnotify hready hresult hle
      | check c =>
          show ((n.check c).run actions).ready = true ↔ _
          by_cases hexhausted : networkCheckTries ≤ n.failedChecks
          · rw [check_exhausted hresult hexhausted, run_ready_of_notified (Or.inr rfl)]
            refine iff_of_false (by simp [hready]) ?_
            rintro ⟨before, c', after, -, -, -, -, hcount⟩
            omega
          · obtain ⟨tries, htries⟩ : ∃ tries, networkCheckTries - n.failedChecks = tries + 1 :=
              ⟨networkCheckTries - n.failedChecks - 1, by omega⟩
            rw [htries]
            cases houtcome : c.outcome with
            | ok peers =>
                rw [check_answered hresult (by omega) houtcome, wakes_answered houtcome,
                  run_ready_of_notified (Or.inl rfl)]
                simp [hready, hnotify]
            | error e =>
                rw [check_failed hresult (by omega) houtcome, wakes_failed houtcome]
                have hnext := ih (n := { n with failedChecks := n.failedChecks + 1 }) hnotify hready
                  hresult (by show n.failedChecks + 1 ≤ networkCheckTries; omega)
                have hleft : networkCheckTries - (n.failedChecks + 1) = tries := by omega
                simp only [hleft] at hnext
                exact hnext

/-- Whoever waits for the network to be ready is woken up exactly if it waited by the first
    answer of the discovery server, and this came within five checks.  One that comes to
    wait after the first answer waits for ever. -/
theorem run_ready_iff (peerId : PeerId) (actions : List (Action A)) :
    ((new peerId).run actions).ready = true ↔ ∃ before c after peers,
      actions = before ++ .check c :: after ∧ c.outcome = .ok peers ∧
        (∀ c, .check c ∈ before → ∃ e, c.outcome = .error e) ∧ .wait ∈ before ∧
        before.countP Action.isCheck < networkCheckTries := by
  rw [run_ready rfl rfl rfl (Nat.zero_le _)]
  constructor
  · rintro ⟨before, c, after, hsplit, ⟨peers, hpeers⟩, hfailed, hwaits, hcount⟩
    exact ⟨before, c, after, peers, hsplit, hpeers, hfailed,
      hwaits.resolve_left Bool.false_ne_true, hcount⟩
  · rintro ⟨before, c, after, peers, hsplit, hpeers, hfailed, hwaits, hcount⟩
    exact ⟨before, c, after, hsplit, ⟨peers, hpeers⟩, hfailed, Or.inr hwaits, hcount⟩

-- ============================================================================
-- When the checks end
-- ============================================================================

/-- Five failures in a row, and a check after them. -/
def Exhausts (answered : List Bool) : Prop :=
  ∃ rest, rest ≠ [] ∧ List.replicate networkCheckTries false ++ rest <:+ answered

/-- Whether each check of the run would be answered. -/
def answers (actions : List (Action A)) : List Bool :=
  actions.filterMap fun
    | .check c => some c.outcome.isOk
    | .wait => none

theorem exhausts_answered {k : Nat} (hk : k < networkCheckTries) (answered : List Bool) :
    Exhausts (List.replicate k false ++ true :: answered) ↔ Exhausts answered := by
  induction k with
  | zero =>
      constructor
      · rintro ⟨rest, hrest, hsuffix⟩
        rcases List.suffix_cons_iff.mp hsuffix with heq | hsuffix
        · cases heq
        · exact ⟨rest, hrest, hsuffix⟩
      · rintro ⟨rest, hrest, hsuffix⟩
        exact ⟨rest, hrest, hsuffix.trans (List.suffix_cons true answered)⟩
  | succ k ih =>
      rw [← ih (Nat.lt_of_succ_lt hk)]
      constructor
      · rintro ⟨rest, hrest, hsuffix⟩
        rcases List.suffix_cons_iff.mp hsuffix with heq | hsuffix
        · -- The answer is among the first five.
          have hget := congrArg (fun answered => answered[k + 1]?) heq
          rw [List.getElem?_append_left (by rw [List.length_replicate]; exact hk),
            List.getElem?_replicate, if_pos hk, List.getElem?_cons_succ] at hget
          change some false = (List.replicate k false ++ true :: answered)[k]? at hget
          rw [List.getElem?_append_right (by rw [List.length_replicate]), List.length_replicate,
            Nat.sub_self] at hget
          cases hget
        · exact ⟨rest, hrest, hsuffix⟩
      · rintro ⟨rest, hrest, hsuffix⟩
        exact ⟨rest, hrest, hsuffix.trans (List.suffix_cons false _)⟩

theorem run_of_returned (h : n.result.isSome = true) : (n.run actions).result = n.result := by
  induction actions generalizing n with
  | nil => rfl
  | cons action actions ih =>
      show ((n.step action).run actions).result = n.result
      cases action with
      | wait => exact ih h
      | check c =>
          show ((n.check c).run actions).result = n.result
          rw [check_returned h]
          exact ih h

/-- From any point on before the end. -/
theorem run_returns (hresult : n.result = none) (hle : n.failedChecks ≤ networkCheckTries) :
    (n.run actions).result.isSome = true ↔
      Exhausts (List.replicate n.failedChecks false ++ answers actions) := by
  induction actions generalizing n with
  | nil =>
      refine iff_of_false (by simp [run, hresult]) ?_
      rintro ⟨rest, hrest, hsuffix⟩
      have hlength := hsuffix.length_le
      simp only [List.length_append, List.length_replicate, answers, List.filterMap_nil,
        List.length_nil] at hlength
      exact hrest (List.eq_nil_of_length_eq_zero (by omega))
  | cons action actions ih =>
      cases action with
      | wait => exact ih (n := { n with waiting := true }) hresult hle
      | check c =>
          have hanswers : answers (.check c :: actions) = c.outcome.isOk :: answers actions := rfl
          show ((n.check c).run actions).result.isSome = true ↔ _
          rw [hanswers]
          by_cases hexhausted : networkCheckTries ≤ n.failedChecks
          · rw [check_exhausted hresult hexhausted, run_of_returned rfl]
            refine iff_of_true rfl ⟨c.outcome.isOk :: answers actions, List.cons_ne_nil _ _, ?_⟩
            have hfive : n.failedChecks = networkCheckTries := Nat.le_antisymm hle hexhausted
            simp only [hfive, List.suffix_refl]
          · have hlt : n.failedChecks < networkCheckTries := Nat.lt_of_not_le hexhausted
            cases houtcome : c.outcome with
            | ok peers =>
                rw [check_answered hresult hlt houtcome]
                have hnext := ih (n := { n.updatePeers peers with
                  ready := n.ready || n.notifyWaiters && n.waiting
                  notifyWaiters := false
                  failedChecks := 0 }) hresult (Nat.zero_le _)
                exact hnext.trans (exhausts_answered hlt _).symm
            | error e =>
                rw [check_failed hresult hlt houtcome,
                  ih (n := { n with failedChecks := n.failedChecks + 1 }) hresult hlt]
                have hone : List.replicate (n.failedChecks + 1) false ++ answers actions =
                    List.replicate n.failedChecks false ++ false :: answers actions := by
                  rw [List.replicate_succ', List.append_assoc, List.singleton_append]
                rw [hone]
                rfl

/-- The checks end exactly with the one that comes after five failures in a row. -/
theorem run_returns_iff (peerId : PeerId) (actions : List (Action A)) :
    ((new peerId).run actions).result.isSome = true ↔ Exhausts (answers actions) :=
  run_returns rfl (Nat.zero_le _)

end RestNetwork

-- ============================================================================
-- What the discovery server answers
-- ============================================================================

namespace Discovery

/-- The entries are registrations. -/
def Registered (knownPeers : KnownPeers A) (registered : List (Registration A)) : Prop :=
  ∀ q addr time, knownPeers.lookup q = some (addr, time) → ⟨q, addr, time⟩ ∈ registered

/-- The peers were read in the run: they are those the server knew then and found alive. -/
def ReadIn (clock : Instant) (actions : List (Action A)) (peers : KnownPeers A) : Prop :=
  ∃ before readAt later after s, actions = before ++ .read readAt later :: after ∧
    run (initial clock) before = some s ∧ Registered s.knownPeers s.registered ∧
    peers = filtered s.knownPeers readAt

/-- What the server knows was registered, and what it answers was read. -/
structure Sourced (clock : Instant) (actions : List (Action A)) (s : Server A) : Prop where
  known : Registered s.knownPeers s.registered
  writers : ∀ writer ∈ s.writers,
    ReadIn clock actions writer.peers ∧ Registered writer.peers s.registered
  responses : ∀ response ∈ s.responses, ∃ peers,
    ReadIn clock actions peers ∧ response = peersResponse peers

variable {clock : Instant} {actions : List (Action A)} {action : Action A} {s s' : Server A}
  {peers : KnownPeers A} {registered : List (Registration A)}

theorem Registered.mono (h : Registered peers registered) (r : Registration A) :
    Registered peers (registered ++ [r]) :=
  fun q addr time hlookup => List.mem_append_left _ (h q addr time hlookup)

theorem Registered.filtered (h : Registered peers registered) (readAt : PeerId → Instant) :
    Registered (filtered peers readAt) registered :=
  fun q addr time hlookup => h q addr time (HashMap.lookup_filterEntries.mp hlookup).1

theorem ReadIn.mono (h : ReadIn clock actions peers) (action : Action A) :
    ReadIn clock (actions ++ [action]) peers := by
  obtain ⟨before, readAt, later, after, s, rfl, hs⟩ := h
  exact ⟨before, readAt, later, after ++ [action], s, by simp, hs⟩

theorem run_concat (s : Server A) (actions : List (Action A)) (action : Action A) :
    run s (actions ++ [action]) = (run s actions).bind fun s => step s action := by
  induction actions generalizing s with
  | nil => simp [run]
  | cons first actions ih =>
      rw [List.cons_append, run, run, Option.bind_assoc]
      exact Option.bind_congr fun s _ => ih s

theorem Sourced.step (hrun : run (initial clock) actions = some s) (h : Sourced clock actions s)
    (hstep : step s action = some s') : Sourced clock (actions ++ [action]) s' := by
  have hwriters : ∀ writer ∈ s.writers,
      ReadIn clock (actions ++ [action]) writer.peers ∧ Registered writer.peers s.registered :=
    fun writer hmem => ⟨(h.writers writer hmem).1.mono action, (h.writers writer hmem).2⟩
  have hresponses : ∀ response ∈ s.responses, ∃ peers,
      ReadIn clock (actions ++ [action]) peers ∧ response = peersResponse peers := by
    intro response hmem
    obtain ⟨peers, hread, heq⟩ := h.responses response hmem
    exact ⟨peers, hread.mono action, heq⟩
  cases action with
  | advance later =>
      simp only [Discovery.step] at hstep
      split at hstep
      · cases hstep
        exact ⟨h.known, hwriters, hresponses⟩
      · cases hstep
  | register request =>
      cases hstep
      refine ⟨?_, fun writer hmem => ⟨(hwriters writer hmem).1, (hwriters writer hmem).2.mono _⟩,
        hresponses⟩
      intro q addr time hlookup
      simp only [registerPeer, HashMap.lookup_insert_ite] at hlookup
      split at hlookup
      · rename_i heq
        cases hlookup
        rw [heq]
        exact List.mem_append_right _ (List.mem_singleton_self _)
      · exact List.mem_append_left _ (h.known q addr time hlookup)
  | read readAt later =>
      simp only [Discovery.step] at hstep
      split at hstep
      · have hread : ReadIn clock (actions ++ [.read readAt later])
            (filtered s.knownPeers readAt) :=
          ⟨actions, readAt, later, [], s, rfl, hrun, h.known, rfl⟩
        split at hstep
        · cases hstep
          refine ⟨h.known, fun writer hmem => ?_, hresponses⟩
          rcases List.mem_append.mp hmem with hmem | hmem
          · exact hwriters writer hmem
          · rw [List.mem_singleton.mp hmem]
            exact ⟨hread, h.known.filtered readAt⟩
        · cases hstep
          refine ⟨h.known, hwriters, fun response hmem => ?_⟩
          rcases List.mem_append.mp hmem with hmem | hmem
          · exact hresponses response hmem
          · exact ⟨_, hread, List.mem_singleton.mp hmem⟩
      · cases hstep
  | write i =>
      simp only [Discovery.step] at hstep
      split at hstep
      · cases hstep
      · rename_i writer hwriter
        cases hstep
        obtain ⟨hread, hregistered⟩ := hwriters writer (List.mem_of_getElem? hwriter)
        refine ⟨hregistered, fun other hmem => hwriters other (List.mem_of_mem_eraseIdx hmem),
          fun response hmem => ?_⟩
        rcases List.mem_append.mp hmem with hmem | hmem
        · exact hresponses response hmem
        · exact ⟨_, hread, List.mem_singleton.mp hmem⟩

theorem run_sourced (hrun : run (initial clock) actions = some s) : Sourced clock actions s := by
  induction actions using List.reverseRecOn generalizing s with
  | nil =>
      cases hrun
      exact ⟨fun _ _ _ h => (by cases h), fun _ h => absurd h List.not_mem_nil,
        fun _ h => absurd h List.not_mem_nil⟩
  | append_singleton actions action ih =>
      rw [run_concat] at hrun
      obtain ⟨s₀, hbefore, hstep⟩ := Option.bind_eq_some_iff.mp hrun
      exact (ih hbefore).step hbefore hstep

end Discovery

-- ============================================================================
-- The peers that a network knows
-- ============================================================================

namespace RestNetwork

variable {n : RestNetwork A} {actions : List (Action A)}

@[simp] theorem step_peerId (n : RestNetwork A) (action : Action A) :
    (n.step action).peerId = n.peerId := by
  cases action with
  | wait => rfl
  | check c =>
      show (n.check c).peerId = n.peerId
      unfold check
      split
      · rfl
      split
      · rfl
      split <;> rfl

/-- The answer without the peer itself. -/
theorem lookup_updatePeers (n : RestNetwork A) {peers : Discovery.KnownPeers A} {q : PeerId}
    {addr : A} :
    (n.updatePeers (Discovery.peersResponse peers).peers).knownPeers.lookup q = some addr ↔
      q ≠ n.peerId ∧ ∃ time, peers.lookup q = some (addr, time) := by
  have hfold : ∀ (entries : List (Σ _ : PeerId, A × Instant)) (knownPeers : HashMap PeerId A),
      entries.NodupKeys →
      ((entries.map fun e => (⟨e.1, e.2.1⟩ : Discovery.PeerWithAddr A)).foldl
        (fun knownPeers peer =>
          if peer.peerId ≠ n.peerId then knownPeers.insert peer.peerId peer.addr else knownPeers)
        knownPeers).lookup q =
      if q = n.peerId then knownPeers.lookup q
      else (entries.dlookup q).elim (knownPeers.lookup q) fun entry => some entry.1 := by
    intro entries
    induction entries with
    | nil => simp
    | cons e entries ih =>
        intro knownPeers hkeys
        rw [List.nodupKeys_cons] at hkeys
        rw [List.map_cons, List.foldl_cons, ih _ hkeys.2]
        obtain ⟨peer, entry⟩ := e
        by_cases hself : q = n.peerId
        · rw [if_pos hself, if_pos hself]
          split
          · rename_i hpeer
            exact AList.lookup_insert_ne (by rw [hself]; exact Ne.symm hpeer)
          · rfl
        · rw [if_neg hself, if_neg hself]
          by_cases hq : q = peer
          · subst hq
            rw [List.dlookup_eq_none.mpr hkeys.1, List.dlookup_cons_eq, if_pos hself]
            exact AList.lookup_insert _
          · rw [List.dlookup_cons_ne _ _ hq]
            split
            · rw [AList.lookup_insert_ne hq]
            · rfl
  rw [updatePeers, Discovery.peersResponse, hfold _ _ peers.nodupKeys]
  show _ ↔ q ≠ n.peerId ∧ ∃ time, peers.entries.dlookup q = some (addr, time)
  by_cases hself : q = n.peerId
  · rw [if_pos hself]
    exact iff_of_false (by simp) fun h => h.1 hself
  · rw [if_neg hself]
    cases hentry : peers.entries.dlookup q with
    | none => simp
    | some entry =>
        obtain ⟨known, time⟩ := entry
        simp [hself]

/-- The peers known after a run are those of one of its answers, if there was one. -/
theorem run_knownPeers (n : RestNetwork A) (actions : List (Action A)) :
    (n.run actions).knownPeers = n.knownPeers ∨ ∃ c peers, .check c ∈ actions ∧
      c.outcome = .ok peers ∧ (n.run actions).knownPeers = (n.updatePeers peers).knownPeers := by
  induction actions generalizing n with
  | nil => exact Or.inl rfl
  | cons action actions ih =>
      have hupdate : ∀ peers, ((n.step action).updatePeers peers).knownPeers =
          (n.updatePeers peers).knownPeers := by
        intro peers
        simp only [updatePeers, step_peerId]
      rcases ih (n.step action) with hsame | ⟨c, peers, hmem, hpeers, hknown⟩
      · cases action with
        | wait => exact Or.inl hsame
        | check c =>
            change ((n.check c).run actions).knownPeers = (n.check c).knownPeers at hsame
            show ((n.check c).run actions).knownPeers = _ ∨ ∃ c' peers, _ ∧ _ ∧
              ((n.check c).run actions).knownPeers = _
            rw [hsame]
            unfold check
            split
            · exact Or.inl rfl
            split
            · exact Or.inl rfl
            split
            · rename_i peers houtcome
              exact Or.inr ⟨c, peers, List.mem_cons_self, houtcome, rfl⟩
            · exact Or.inl rfl
      · refine Or.inr ⟨c, peers, List.mem_cons_of_mem _ hmem, hpeers, ?_⟩
        rw [← hupdate]
        exact hknown

/-- Peers 1 and 2 register, and peer 1 asks. -/
def twoRegister : List (Discovery.Action String) :=
  [.register ⟨1, "10.0.0.1:80"⟩, .register ⟨2, "10.0.0.2:80"⟩, .read (fun _ => 5) 5]

/-- Peer 1 waits, and gets the answer at its first check. -/
def firstCheck : List (Action String) :=
  [.wait,
    .check { register := .ok (), peers := .ok [⟨2, "10.0.0.2:80"⟩, ⟨1, "10.0.0.1:80"⟩] }]

/-- It knows peer 2 then, and not itself. -/
example : ((new 1).run firstCheck).knownPeers.entries = [⟨2, "10.0.0.2:80"⟩] ∧
    ((new 1).run firstCheck).ready = true := by
  decide +kernel

end RestNetwork

end Rustchain
