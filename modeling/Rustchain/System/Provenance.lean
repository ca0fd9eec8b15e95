/-
  Rustchain.System.Provenance

  Where the transactions of a system come from.

  A peer checks a block it is given for its hash and its sender's signature, not
  for its transactions, and whoever can reach a peer can have a block of forged
  ones added.  What keeps them out is that blocks go round among peers only.  So
  the events here are those that clients and the peers themselves cause, over all
  channels there are: client messages, peer messages, and blocks that are fetched
  from another peer's server by synchronization.
-/

import Rustchain.Peer.Outgoing
import Rustchain.Server
import Rustchain.System.Agreement

namespace Rustchain

/-- A signed transaction that a client hands in. -/
def SignedTransaction.Submitted (pf : Platform) (offered : SignedTransaction → Prop)
    (tx : SignedTransaction) : Prop :=
  tx.verify pf = .ok () ∧ offered tx

/-- A message of a call has the call's sender and body. -/
theorem NetworkCall.eq_of_mem_messages {knownPeers : List PeerId} {call : NetworkCall}
    {message : Message} (h : message ∈ call.messages knownPeers) :
    message = { «from» := call.sender, «to» := message.to, body := call.body } := by
  cases call with
  | send sent =>
      rw [List.mem_singleton.mp h]
      rfl
  | broadcast body src =>
      obtain ⟨dst, -, rfl⟩ := List.mem_map.mp h
      rfl

namespace System

/-- What a peer can meet in the system: a client hands in a transaction of `offered`,
    signed or not; something that a peer of `P` sent arrives, anywhere, late, or once
    more; a block is fetched from the server of a peer of `P`; time passes; discovery
    answers. -/
inductive Meets (pf : Platform) (P : Finset PeerId) (offered : SignedTransaction → Prop)
    (s : System) : Peer.Event → Prop where
  | client {clientTx : SignedTransaction} (hoffered : offered clientTx) (src dst : PeerId)
      (now : Instant) (draw : Nat) :
      Meets pf P offered s
        (.message { «from» := src, «to» := dst, body := .clientTransaction clientTx } now draw)
  | delivered {q : PeerId} (hq : q ∈ P) {call : NetworkCall}
      (hcall : call ∈ (s.peers q).effects.network.calls) (dst : PeerId) (now : Instant)
      (draw : Nat) :
      Meets pf P offered s
        (.message { «from» := call.sender, «to» := dst, body := call.body } now draw)
  | fetched {q : PeerId} (hq : q ∈ P) {index : Nat} {block : BlockFile}
      (hblock : (s.peers q).getBlock pf index = .ok block) :
      Meets pf P offered s (.synchronized block)
  | tick (now : Instant) : Meets pf P offered s (.tick now)
  | discovered (knownPeers : List PeerId) : Meets pf P offered s (.discovered knownPeers)

/-- One peer handles an event. -/
def after (pf : Platform) (s : System) (p : PeerId) (event : Peer.Event) : System :=
  { peers := Function.update s.peers p ((s.peers p).handle pf event) }

/-- The peers of `P` meet any number of events, one at a time. -/
def Evolves (pf : Platform) (P : Finset PeerId) (offered : SignedTransaction → Prop) :
    System → System → Prop :=
  Relation.ReflTransGen fun s s' =>
    ∃ p ∈ P, ∃ event, s.Meets pf P offered event ∧ s' = s.after pf p event

variable {pf : Platform} {P : Finset PeerId} {offered : SignedTransaction → Prop}
  {s s' : System} {p : PeerId}

theorem Evolves.snoc (h : Evolves pf P offered s s') (hp : p ∈ P) {event : Peer.Event}
    (hmeets : s'.Meets pf P offered event) : Evolves pf P offered s (s'.after pf p event) :=
  h.tail ⟨p, hp, event, hmeets, rfl⟩

-- ============================================================================
-- Runs without synchronization
-- ============================================================================

/-- Clients hand in transactions of `offered` only. -/
def Offers (offered : SignedTransaction → Prop) (_ : System) : Action → Prop
  | .client _ clientTx _ _ => offered clientTx
  | _ => True

theorem Run.evolves (h : Run pf P (Offers offered) s s') : Evolves pf P offered s s' := by
  induction h with
  | refl => exact .refl
  | tail _ hlast ih =>
      obtain ⟨act, hpeer, henabled, hoffers, rfl⟩ := hlast
      refine ih.snoc hpeer ?_
      cases act with
      | client p clientTx now draw => exact .client hoffers 0 p now draw
      | deliver message now draw =>
          obtain ⟨q, hq, hsent⟩ := henabled
          obtain ⟨call, hcall, hmessage⟩ := List.mem_flatMap.mp hsent
          show Meets pf P offered _ (.message message now draw)
          rw [NetworkCall.eq_of_mem_messages hmessage]
          exact .delivered hq hcall message.to now draw
      | tick p now => exact .tick now

-- ============================================================================
-- All that happens
-- ============================================================================

/-- Every peer stands behind what it holds and has sent. -/
def Vouches (pf : Platform) (P : Finset PeerId) (good : SignedTransaction → Prop) (s : System) :
    Prop :=
  ∀ p ∈ P, (s.peers p).Vouches pf good p

/-- What a peer meets comes with submitted transactions only. -/
theorem Vouches.bears (h : s.Vouches pf P (SignedTransaction.Submitted pf offered))
    {event : Peer.Event} (hmeets : s.Meets pf P offered event) :
    event.Bears pf (SignedTransaction.Submitted pf offered) := by
  cases hmeets with
  | client hoffered => exact fun hverify => ⟨hverify, hoffered⟩
  | delivered hq hcall => exact ((h _ hq).effects.calls _ hcall).bears
  | fetched hq hblock =>
      exact ((h _ hq).effects.store.dir.readFromDisk (Peer.getBlock_eq_ok_iff.mp hblock)).2
  | tick now => trivial
  | discovered knownPeers => trivial

theorem Vouches.after (hpf : pf.Lawful)
    (h : s.Vouches pf P (SignedTransaction.Submitted pf offered)) (hp : p ∈ P) {event : Peer.Event} (hmeets : s.Meets pf P offered event) :
    (s.after pf p event).Vouches pf P (SignedTransaction.Submitted pf offered) := by
  intro q hq
  by_cases hqp : q = p
  · subst hqp
    have hself : (s.after pf q event).peers q = (s.peers q).handle pf event :=
      Function.update_self ..
    rw [hself]
    exact (h q hp).handle hpf (h.bears hmeets)
  · have hother : (s.after pf p event).peers q = s.peers q := Function.update_of_ne hqp ..
    rw [hother]
    exact h q hq

theorem Vouches.evolves (hpf : pf.Lawful)
    (h : s.Vouches pf P (SignedTransaction.Submitted pf offered))
    (hrun : Evolves pf P offered s s') :
    s'.Vouches pf P (SignedTransaction.Submitted pf offered) := by
  induction hrun with
  | refl => exact h
  | tail _ hlast ih =>
      obtain ⟨p, hp, event, hmeets, rfl⟩ := hlast
      exact ih.after hpf hp hmeets

end System

namespace Reference

/-- A client hands its deposit to peer 1, which packs it and proposes the block to
    peer 2. -/
def agreed : System :=
  (twoVoters.step platform (.client 1 deposit 0 0)).step platform
    (.deliver (proposal 1 2 deposit) 0 0)

/-- The block of the deposit that peer 1 packed and peer 2 committed is fetched by
    peer 3. -/
def disseminated : System := agreed.after platform 3 (.synchronized (firstBlock deposit))

theorem twoVoters_startsSound (good : SignedTransaction → Prop) (p : PeerId) :
    (twoVoters.peers p).StartsSound platform good p :=
  ⟨_, _, _, _, _, rfl, empty_authentic good "data", Or.inl rfl⟩

theorem disseminated_evolves :
    System.Evolves platform {1, 2, 3} (· = deposit) twoVoters disseminated := by
  have hagreed : System.Run platform {1, 2, 3} (System.Offers (· = deposit)) twoVoters agreed := by
    refine (System.Run.snoc .refl ?_ ?_ ?_).snoc ?_ ?_ ?_
    · decide
    · trivial
    · rfl
    · decide
    · exact ⟨1, by decide, by decide +kernel⟩
    · trivial
  have hserved : (agreed.peers 2).getBlock platform 1 = .ok (firstBlock deposit) := by
    decide +kernel
  exact hagreed.evolves.snoc (by decide) (.fetched (by decide) hserved)

end Reference

namespace System

open Reference

end System
end Rustchain
