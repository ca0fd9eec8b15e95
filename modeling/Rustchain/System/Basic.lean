/-
  Rustchain.System.Basic

  Whole peers and the network between them.

  The network keeps every call a peer made to it, so the messages that were
  sent are those of the calls of all peers.  A message may be delivered late,
  several times, in any order, or never.  Clients talk to any peer at any time.
-/

import Rustchain.Lib.Runs
import Rustchain.Peer.Basic

namespace Rustchain

/-- The messages a call of a peer that knows the given peers turns into: a broadcast
    goes to every one of them but the sender. -/
def NetworkCall.messages (knownPeers : List PeerId) : NetworkCall → List Message
  | .send message => [message]
  | .broadcast body src =>
    (knownPeers.filter (· ≠ src)).map fun dst => { «from» := src, «to» := dst, body }

/-- The peers of a system, by id. -/
structure System where
  peers : PeerId → Peer

namespace System

/-- The messages a peer has sent. -/
def sentBy (s : System) (p : PeerId) : List Message :=
  (s.peers p).effects.network.calls.flatMap
    (NetworkCall.messages (s.peers p).effects.network.knownPeers)

/-- What can happen in a system. -/
inductive Action where
  /-- A client hands a transaction to a peer. -/
  | client (p : PeerId) (clientTx : SignedTransaction) (now : Instant) (draw : Nat)
  | deliver (message : Message) (now : Instant) (draw : Nat)
  | tick (p : PeerId) (now : Instant)

namespace Action

/-- The peer that acts. -/
def peer : Action → PeerId
  | client p .. | tick p _ => p
  | deliver message .. => message.to

/-- What it meets; a client's message comes from peer 0. -/
def event : Action → Peer.Event
  | client p clientTx now draw =>
    .message { «from» := 0, «to» := p, body := .clientTransaction clientTx } now draw
  | deliver message now draw => .message message now draw
  | tick _ now => .tick now

/-- Only a message that was sent is delivered. -/
def Enabled (P : Finset PeerId) (s : System) : Action → Prop
  | deliver message .. => ∃ p ∈ P, message ∈ s.sentBy p
  | _ => True

end Action

/-- The system after the acting peer handled the event. -/
def step (pf : Platform) (s : System) (act : Action) : System :=
  { peers := Function.update s.peers act.peer ((s.peers act.peer).handle pf act.event) }

/-- A run of the peers of `P` all of whose steps meet `ok`. -/
def Run (pf : Platform) (P : Finset PeerId) (ok : System → Action → Prop) :
    System → System → Prop :=
  Relation.ReflTransGen fun s s' =>
    ∃ act, act.peer ∈ P ∧ act.Enabled P s ∧ ok s act ∧ s' = s.step pf act

/-- A run goes on with one more step. -/
theorem Run.snoc {pf : Platform} {P : Finset PeerId} {ok : System → Action → Prop} {s s' : System}
    (h : Run pf P ok s s') {act : Action} (hmem : act.peer ∈ P) (henabled : act.Enabled P s')
    (hok : ok s' act) : Run pf P ok s (s'.step pf act) :=
  h.tail ⟨act, hmem, henabled, hok, rfl⟩

instance (P : Finset PeerId) (s : System) : (act : Action) → Decidable (act.Enabled P s)
  | .client .. => inferInstanceAs (Decidable True)
  | .deliver message .. => inferInstanceAs (Decidable (∃ p ∈ P, message ∈ s.sentBy p))
  | .tick .. => inferInstanceAs (Decidable True)

/-- Actions taken one after the other. -/
def stepAll (pf : Platform) (s : System) (acts : List Action) : System := acts.foldl (step pf) s

/-- The actions are those of peers of `P`, can be taken and meet `ok`. -/
theorem run_stepAll {pf : Platform} {P : Finset PeerId} {ok : System → Action → Prop}
    [∀ s act, Decidable (ok s act)] {s : System} {acts : List Action}
    (h : Runs.takesAll (step pf) (fun s act => act.peer ∈ P ∧ act.Enabled P s ∧ ok s act) s acts =
      true) :
    Run pf P ok s (s.stepAll pf acts) := by
  refine Relation.ReflTransGen.mono ?_ _ _ (Runs.reaches_foldl h)
  rintro s s' ⟨act, ⟨hpeer, henabled, hok⟩, heq⟩
  exact ⟨act, hpeer, henabled, hok, heq⟩

/-- What holds at the start and is preserved by every step of a run holds at its end. -/
theorem Run.preserves {pf : Platform} {P : Finset PeerId} {ok : System → Action → Prop}
    {I : System → Prop}
    (hstep : ∀ s act, act.peer ∈ P → act.Enabled P s → ok s act → I s → I (s.step pf act))
    {s s' : System} (h : Run pf P ok s s') (hs : I s) : I s' := by
  induction h with
  | refl => exact hs
  | tail _ hlast ih =>
      obtain ⟨act, hpeer, henabled, hok, rfl⟩ := hlast
      exact hstep _ act hpeer henabled hok ih

end System
end Rustchain
