/-
  Rustchain.Discovery

  The discovery server (`bin/discovery.rs`), as steps of concurrent requests.

  `register_peer` runs under the write lock.  `get_peers` filters the known peers
  under the read lock; if that dropped any, it lets go of the lock and writes the
  filtered map back in a second step.  What other requests do in between is
  overwritten: a peer that registers there is lost.  As long as no registration
  completes in that gap, every peer is known under the address it last
  registered for as long as that registration is alive.
-/

import Rustchain.Data
import Rustchain.Lib.HashMap

namespace Rustchain
namespace Discovery

-- ============================================================================
-- The handlers
-- ============================================================================

/-- `KEEP_ALIVE`, in milliseconds. -/
def keepAlive : Nat := 20000

/-- What `known_peers` has for each peer: its address, by type `A`, and the time of
    its last registration. -/
abbrev KnownPeers (A : Type) := HashMap PeerId (A × Instant)

structure RegisterRequest (A : Type) where
  peerId : PeerId
  addr : A

structure PeerWithAddr (A : Type) where
  peerId : PeerId
  addr : A

structure PeersResponse (A : Type) where
  peers : List (PeerWithAddr A)

variable {A : Type}

/-- The body of `register_peer`. -/
def registerPeer (knownPeers : KnownPeers A) (request : RegisterRequest A) (now : Instant) :
    KnownPeers A :=
  knownPeers.insert request.peerId (request.addr, now)

/-- The filter of `get_peers`.  The clock is read anew for each entry. -/
def filtered (knownPeers : KnownPeers A) (readAt : PeerId → Instant) : KnownPeers A :=
  knownPeers.filterEntries fun peer entry => readAt peer - entry.2 < keepAlive

/-- The answer of `get_peers`. -/
def peersResponse (peers : KnownPeers A) : PeersResponse A :=
  { peers := peers.entries.map fun e => { peerId := e.1, addr := e.2.1 } }

-- ============================================================================
-- Interleavings
-- ============================================================================

/-- A completed registration. -/
structure Registration (A : Type) where
  peerId : PeerId
  addr : A
  time : Instant

/-- A `get_peers` request that has filtered the peers and not yet written them
    back. -/
structure Writer (A : Type) where
  peers : KnownPeers A
  /-- How many registrations were complete when it read.  No step reads this. -/
  seen : Nat

structure Server (A : Type) where
  knownPeers : KnownPeers A
  clock : Instant
  writers : List (Writer A)
  /-- The answers given so far. -/
  responses : List (PeersResponse A)
  /-- The registrations completed so far, oldest first.  No step reads this. -/
  registered : List (Registration A)

inductive Action (A : Type) where
  | advance (later : Instant)
  | register (request : RegisterRequest A)
  /-- A `get_peers` request under the read lock. -/
  | read (readAt : PeerId → Instant) (later : Instant)
  /-- The `i`-th of the requests under way writes back. -/
  | write (i : Nat)

/-- `SharedState::default`. -/
def initial (clock : Instant) : Server A :=
  { knownPeers := ∅, clock, writers := [], responses := [], registered := [] }

/-- The clock is read between the start and the end of the step. -/
def ReadBetween (s : Server A) (readAt : PeerId → Instant) (later : Instant) : Prop :=
  s.clock ≤ later ∧ ∀ e ∈ s.knownPeers.entries, s.clock ≤ readAt e.1 ∧ readAt e.1 ≤ later

instance (s : Server A) (readAt : PeerId → Instant) (later : Instant) :
    Decidable (ReadBetween s readAt later) :=
  inferInstanceAs (Decidable (_ ∧ _))

/-- One step of one request, or of the clock; `none` if it cannot be taken. -/
def step (s : Server A) : Action A → Option (Server A)
  | .advance later => if s.clock ≤ later then some { s with clock := later } else none
  | .register request =>
    some { s with
      knownPeers := registerPeer s.knownPeers request s.clock
      registered := s.registered ++ [⟨request.peerId, request.addr, s.clock⟩] }
  | .read readAt later =>
    if ReadBetween s readAt later then
      let peers := filtered s.knownPeers readAt
      if peers.entries.length ≠ s.knownPeers.entries.length then
        some { s with
          clock := later
          writers := s.writers ++ [{ peers, seen := s.registered.length }] }
      else some { s with clock := later, responses := s.responses ++ [peersResponse peers] }
    else none
  | .write i =>
    match s.writers[i]? with
    | none => none
    | some writer =>
      some { s with
        knownPeers := writer.peers
        writers := s.writers.eraseIdx i
        responses := s.responses ++ [peersResponse writer.peers] }

def run (s : Server A) : List (Action A) → Option (Server A)
  | [] => some s
  | action :: actions => (step s action).bind fun s => run s actions

/-- No registration has completed since the request that writes back has read. -/
def Undisturbed (s : Server A) : Action A → Prop
  | .write i => ∀ writer, s.writers[i]? = some writer → writer.seen = s.registered.length
  | _ => True

/-- Every step of the run is undisturbed. -/
def UndisturbedRun (s : Server A) : List (Action A) → Prop
  | [] => True
  | action :: actions =>
    Undisturbed s action ∧ ∀ s', step s action = some s' → UndisturbedRun s' actions

/-- The latest registration of a peer. -/
def latest (registered : List (Registration A)) (peer : PeerId) : Option (Registration A) :=
  (registered.filter fun r => r.peerId = peer).getLast?

/-- Every peer whose latest registration is alive is known under that address. -/
def Covers (s : Server A) : Prop :=
  ∀ peer registration, latest s.registered peer = some registration →
    s.clock - registration.time < keepAlive →
      ∃ time, s.knownPeers.lookup peer = some (registration.addr, time)

-- ============================================================================
-- What the server and the requests under way know
-- ============================================================================

/-- The map has the registrations that are alive, with their own times. -/
def Lists (knownPeers : KnownPeers A) (registered : List (Registration A)) (clock : Instant) :
    Prop :=
  ∀ peer registration, latest registered peer = some registration →
    clock - registration.time < keepAlive →
      knownPeers.lookup peer = some (registration.addr, registration.time)

/-- The server lists all registrations, and each request under way those there were
    when it read. -/
structure UpToDate (s : Server A) : Prop where
  known : Lists s.knownPeers s.registered s.clock
  writers : ∀ writer ∈ s.writers, writer.seen ≤ s.registered.length ∧
    Lists writer.peers (s.registered.take writer.seen) s.clock

theorem latest_concat (registered : List (Registration A)) (r : Registration A) (peer : PeerId) :
    latest (registered ++ [r]) peer =
      if r.peerId = peer then some r else latest registered peer := by
  unfold latest
  rw [List.filter_append]
  split
  · rename_i heq
    rw [List.filter_singleton, decide_eq_true heq]
    exact List.getLast?_concat
  · rename_i hne
    rw [List.filter_singleton, decide_eq_false hne]
    exact congrArg List.getLast? (List.append_nil _)

/-- What is alive later is alive now. -/
theorem Lists.later {knownPeers : KnownPeers A} {registered : List (Registration A)}
    {clock later : Instant} (h : Lists knownPeers registered clock) (hle : clock ≤ later) :
    Lists knownPeers registered later := by
  intro peer registration hlatest halive
  apply h peer registration hlatest
  exact lt_of_le_of_lt (Nat.sub_le_sub_right hle _) halive

/-- The filter keeps what is alive at the end of the step. -/
theorem Lists.filtered {s : Server A} {readAt : PeerId → Instant} {later : Instant}
    (h : Lists s.knownPeers s.registered s.clock) (hread : ReadBetween s readAt later) :
    Lists (filtered s.knownPeers readAt) s.registered later := by
  intro peer registration hlatest halive
  have hknown := h.later hread.1 peer registration hlatest halive
  have htime := (hread.2 _ (HashMap.lookup_eq_some_iff.mp hknown)).2
  apply HashMap.lookup_filterEntries.mpr
  refine ⟨hknown, decide_eq_true ?_⟩
  show readAt peer - registration.time < keepAlive
  exact lt_of_le_of_lt (Nat.sub_le_sub_right htime _) halive

theorem Lists.register {s : Server A} (h : Lists s.knownPeers s.registered s.clock)
    (request : RegisterRequest A) :
    Lists (registerPeer s.knownPeers request s.clock)
      (s.registered ++ [⟨request.peerId, request.addr, s.clock⟩]) s.clock := by
  intro peer registration hlatest halive
  rw [latest_concat] at hlatest
  rw [registerPeer, HashMap.lookup_insert_ite]
  split at hlatest
  · rename_i heq
    cases hlatest
    rw [if_pos heq.symm]
  · rename_i hne
    rw [if_neg (Ne.symm hne)]
    exact h peer registration hlatest halive

theorem initial_upToDate (clock : Instant) : UpToDate (initial clock : Server A) where
  known := fun _ _ hlatest => by cases hlatest
  writers := fun _ hmem => absurd hmem List.not_mem_nil

/-- Time passes. -/
theorem UpToDate.later {s : Server A} (h : UpToDate s) {later : Instant} (hle : s.clock ≤ later) :
    UpToDate { s with clock := later } where
  known := h.known.later hle
  writers := fun writer hmem =>
    ⟨(h.writers writer hmem).1, (h.writers writer hmem).2.later hle⟩

theorem UpToDate.register {s : Server A} (h : UpToDate s) (request : RegisterRequest A) :
    UpToDate { s with
      knownPeers := registerPeer s.knownPeers request s.clock
      registered := s.registered ++ [⟨request.peerId, request.addr, s.clock⟩] } where
  known := h.known.register request
  writers := by
    intro writer hmem
    obtain ⟨hseen, hlists⟩ := h.writers writer hmem
    rw [List.length_append, List.take_append_of_le_length hseen]
    exact ⟨Nat.le_add_right_of_le hseen, hlists⟩

/-- A request that has read lists what there is. -/
theorem UpToDate.read {s : Server A} (h : UpToDate s) {readAt : PeerId → Instant}
    {later : Instant} (hread : ReadBetween s readAt later) :
    UpToDate { s with
      clock := later
      writers := s.writers ++
        [{ peers := Discovery.filtered s.knownPeers readAt, seen := s.registered.length }] } where
  known := h.known.later hread.1
  writers := by
    intro writer hmem
    rcases List.mem_append.mp hmem with hmem | hmem
    · exact (h.later hread.1).writers writer hmem
    · rw [List.mem_singleton.mp hmem, List.take_length]
      exact ⟨le_refl _, h.known.filtered hread⟩

/-- A step keeps everything up to date, if it writes back undisturbed. -/
theorem step_upToDate {s s' : Server A} {action : Action A} (h : UpToDate s)
    (hundisturbed : Undisturbed s action) (hstep : step s action = some s') : UpToDate s' := by
  cases action with
  | advance later =>
      simp only [step] at hstep
      split at hstep
      · rename_i hle
        cases hstep
        exact h.later hle
      · cases hstep
  | register request =>
      cases hstep
      exact h.register request
  | read readAt later =>
      simp only [step] at hstep
      split at hstep
      · rename_i hread
        split at hstep
        · cases hstep
          exact h.read hread
        · cases hstep
          exact ⟨(h.later hread.1).known, (h.later hread.1).writers⟩
      · cases hstep
  | write i =>
      simp only [step] at hstep
      split at hstep
      · cases hstep
      · rename_i writer hwriter
        cases hstep
        refine ⟨?_, fun other hmem => h.writers other (List.mem_of_mem_eraseIdx hmem)⟩
        have hlists := (h.writers writer (List.mem_of_getElem? hwriter)).2
        rw [hundisturbed writer hwriter, List.take_length] at hlists
        exact hlists

theorem run_upToDate {s s' : Server A} {actions : List (Action A)} (h : UpToDate s)
    (hundisturbed : UndisturbedRun s actions) (hrun : run s actions = some s') : UpToDate s' := by
  induction actions generalizing s with
  | nil =>
      cases hrun
      exact h
  | cons action actions ih =>
      obtain ⟨next, hstep, hrest⟩ := Option.bind_eq_some_iff.mp hrun
      exact ih (step_upToDate h hundisturbed.1 hstep) (hundisturbed.2 next hstep) hrest

/-- In every state of every interleaving in which no registration completes between
    the read of a `get_peers` request and its write, each peer whose latest
    registration is alive is known under the address it registered. -/
theorem run_covers {clock : Instant} {actions : List (Action A)} {s : Server A}
    (hrun : run (initial clock) actions = some s)
    (hundisturbed : UndisturbedRun (initial clock : Server A) actions) : Covers s := by
  have hfinal := run_upToDate (initial_upToDate clock) hundisturbed hrun
  intro peer registration hlatest halive
  exact ⟨registration.time, hfinal.known peer registration hlatest halive⟩

/-- Peer 1 registers and expires; a request reads, and peer 2 registers after it
    has written back. -/
def inTurn : List (Action String) :=
  [.register ⟨1, "10.0.0.1:80"⟩, .advance 20000, .read (fun _ => 20000) 20000, .write 0,
    .register ⟨2, "10.0.0.2:80"⟩]

/-- The same, but peer 2 registers before the request has written back. -/
def inTheGap : List (Action String) :=
  [.register ⟨1, "10.0.0.1:80"⟩, .advance 20000, .read (fun _ => 20000) 20000,
    .register ⟨2, "10.0.0.2:80"⟩, .write 0]

theorem run_covers_inTurn :
    ∃ s, run (initial 0) inTurn = some s ∧ UndisturbedRun (initial 0) inTurn ∧ Covers s := by
  have hundisturbed : UndisturbedRun (initial 0) inTurn := by
    refine ⟨trivial, fun _ h₁ => ⟨trivial, fun _ h₂ => ⟨trivial, fun _ h₃ => ⟨?_, fun _ h₄ =>
      ⟨trivial, fun _ _ => trivial⟩⟩⟩⟩⟩
    cases h₁
    cases h₂
    cases h₃
    intro writer hwriter
    cases hwriter
    rfl
  exact ⟨_, rfl, hundisturbed, run_covers rfl hundisturbed⟩

/-- Peer 2 has just registered and is not known. -/
theorem registration_lost_inTheGap :
    ∃ s, run (initial 0) inTheGap = some s ∧
      latest s.registered 2 = some ⟨2, "10.0.0.2:80", 20000⟩ ∧ s.clock = 20000 ∧
      s.knownPeers.lookup 2 = none ∧ ¬ Covers s := by
  refine ⟨_, rfl, rfl, rfl, rfl, ?_⟩
  intro hcovers
  obtain ⟨_, hlookup⟩ := hcovers 2 ⟨2, "10.0.0.2:80", 20000⟩ rfl (by decide)
  cases hlookup

end Discovery
end Rustchain
