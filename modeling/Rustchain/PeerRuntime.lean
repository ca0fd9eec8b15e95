/-
  Rustchain.PeerRuntime

  The process of a peer (`peer_runtime.rs`), with the requests that its server
  takes for it.

  Requests put messages into a channel of bounded size, and one that finds it
  full is refused.  The loop of `run_peer` takes one thing at a time: the oldest
  message, a synchronization (voting peers) or a tick (Raft peers).  It starts
  when the network is ready, while requests are taken before that already.  A
  synchronization that panics ends the process.
-/

import Rustchain.Synchronization.CatchUp

namespace Rustchain

-- ============================================================================
-- The process
-- ============================================================================

inductive ConsensusMode where
  | voting
  | raft
deriving DecidableEq, Repr

structure PeerConfig where
  peerId : PeerId
  channelSize : Nat
  consensusMode : ConsensusMode

def defaultMempoolSize : Nat := 5

structure PeerRuntime where
  peer : Peer
  /-- The messages in the channel, oldest first. -/
  channel : List Message
  channelSize : Nat
  /-- `synchronization.is_some()`. -/
  synchronizes : Bool
  requiresConsensusTick : Bool
  /-- `wait_for_readiness` has returned. -/
  ready : Bool
  /-- A panic has ended the process. -/
  panicked : Bool

namespace PeerRuntime

/-- `run_peer` up to its loop, over a block directory and a log file. -/
def start (pf : Platform) (config : PeerConfig) (dir : BlockDir) (store : FileRaftLogStore)
    (walk : HashMap.Walk BlockHash BlockFile) (signingKey : SigningKey) (now : Instant)
    (draw : Nat) : Except String PeerRuntime :=
  let network : Network := { knownPeers := [], calls := [] }
  let peer : Except String Peer :=
    match config.consensusMode with
    | .voting =>
      .ok (Peer.startVoting pf config.peerId network dir defaultMempoolSize walk signingKey)
    | .raft =>
      Peer.startRaft pf config.peerId network dir store defaultMempoolSize walk signingKey now draw
  match peer with
  | .error e => .error e
  | .ok peer =>
    .ok
      { peer
        channel := []
        channelSize := config.channelSize
        synchronizes := config.consensusMode == .voting
        requiresConsensusTick := peer.consensus.requiresTick
        ready := false
        panicked := false }

-- ============================================================================
-- Requests
-- ============================================================================

/-- `on_message_received`: the channel's `try_send`. -/
def onMessageReceived (rt : PeerRuntime) (message : Message) : PeerRuntime × Except String Unit :=
  if rt.channel.length < rt.channelSize then
    ({ rt with channel := rt.channel ++ [message] }, .ok ())
  else (rt, .error "no available capacity")

def receiveClientMessage (rt : PeerRuntime) (body : MessageBody) :
    PeerRuntime × Except String Unit :=
  rt.onMessageReceived { «from» := 0, «to» := rt.peer.id, body }

/-- `POST /transactions`. -/
def handleClientTransaction (rt : PeerRuntime) (transaction : SignedTransaction) :
    PeerRuntime × String :=
  match rt.receiveClientMessage (.clientTransaction transaction) with
  | (rt, .ok ()) => (rt, "Transaction processed")
  | (rt, .error e) => (rt, e)

/-- `POST /handle`.  An error is a panic of the task that handles the request. -/
def handlePeerMessage (rt : PeerRuntime) (message : Message) : PeerRuntime × Except String Unit :=
  match rt.onMessageReceived message with
  | (rt, .ok ()) => (rt, .ok ())
  | (rt, .error e) => (rt, .error s!"Failed to process message: {e}")

-- ============================================================================
-- Steps
-- ============================================================================

inductive Action where
  | clientTransaction (transaction : SignedTransaction)
  | peerMessage (message : Message)
  /-- The network has an answer of the discovery server. -/
  | discovered (knownPeers : List PeerId)
  | ready
  | receive (now : Instant) (draw : Nat)
  | synchronize (network : SyncNetwork)
  | tick (now : Instant)

/-- One request or one turn of the loop; a turn that cannot be taken leaves everything as
    it is. -/
def step (pf : Platform) (rt : PeerRuntime) (action : Action) : PeerRuntime :=
  if rt.panicked then rt
  else
    match action with
    | .clientTransaction transaction => (rt.handleClientTransaction transaction).1
    | .peerMessage message => (rt.handlePeerMessage message).1
    | .discovered knownPeers => { rt with peer := rt.peer.handle pf (.discovered knownPeers) }
    | .ready => { rt with ready := true }
    | .receive now draw =>
      match rt.ready, rt.channel with
      | true, message :: channel =>
        { rt with channel, peer := (rt.peer.handleMessage pf message now draw).1 }
      | _, _ => rt
    | .synchronize network =>
      if rt.ready && rt.synchronizes then
        match rt.peer.synchronize pf network with
        | (peer, _, some (.error _)) => { rt with peer, panicked := true }
        | (peer, _, _) => { rt with peer }
      else rt
    | .tick now =>
      if rt.ready && rt.requiresConsensusTick then
        { rt with peer := (rt.peer.handleTick pf now).1 }
      else rt

def run (pf : Platform) (rt : PeerRuntime) (actions : List Action) : PeerRuntime :=
  actions.foldl (step pf) rt

/-- The message that the request has for the channel. -/
def requested (rt : PeerRuntime) : Action → Option Message
  | .clientTransaction transaction =>
    some { «from» := 0, «to» := rt.peer.id, body := .clientTransaction transaction }
  | .peerMessage message => some message
  | _ => none

/-- The message that the request puts into the channel. -/
def accepted (rt : PeerRuntime) (action : Action) : Option Message :=
  if rt.panicked ∨ rt.channelSize ≤ rt.channel.length then none else rt.requested action

/-- The messages that the requests of a run put into the channel. -/
def acceptedAll (pf : Platform) : PeerRuntime → List Action → List Message
  | _, [] => []
  | rt, action :: actions =>
    (rt.accepted action).toList ++ acceptedAll pf (rt.step pf action) actions

end PeerRuntime

-- ============================================================================
-- A synchronization in events of the peer
-- ============================================================================

namespace Peer

def Event.message? : Event → Option Message
  | .message m _ _ => some m
  | _ => none

/-- The messages among the events. -/
def messages (events : List Event) : List Message := events.filterMap Event.message?

/-- The loop of a synchronization hands blocks to the peer, and does nothing else to it. -/
theorem retrieve_run (pf : Platform) {round : Nat → Round} {states : PeersStates}
    {fuel n idx errorsCount : Nat} (p : Peer) :
    ∃ blocks : List BlockFile,
      (retrieve round states (fun p block => p.applySynchronizedBlock pf block) fuel n idx
        errorsCount p).1 = p.run pf (blocks.map .synchronized) := by
  induction fuel generalizing n idx errorsCount p with
  | zero => exact ⟨[], rfl⟩
  | succ fuel ih =>
      unfold retrieve
      split
      · exact ⟨[], rfl⟩
      split
      · exact ⟨[], rfl⟩
      cases hfetched : Attempt.fetched { idx, round := round n } states with
      | error panic =>
          simp only [hfetched]
          exact ⟨[], rfl⟩
      | ok fetched =>
          simp only [hfetched]
          cases fetched with
          | none => exact ih p
          | some block =>
              rcases happly : p.applySynchronizedBlock pf block with ⟨p', e | _⟩
              all_goals
                simp only [happly]
                obtain ⟨blocks, hrest⟩ := ih p'
                refine ⟨block :: blocks, hrest.trans ?_⟩
                rw [List.map_cons]
                show _ = ((p.applySynchronizedBlock pf block).1).run pf _
                rw [happly]

theorem synchronize_run (pf : Platform) (network : SyncNetwork) (p : Peer) :
    ∃ blocks : List BlockFile,
      (p.synchronize pf network).1 = p.run pf (blocks.map .synchronized) := by
  unfold synchronize checkAndRetrieveMissingBlocks
  simp only
  split
  · exact ⟨[], rfl⟩
  · exact retrieve_run pf p

end Peer

-- ============================================================================
-- What a run hands to the peer
-- ============================================================================

namespace PeerRuntime

/-- Ticks are for peers whose consensus requires them, synchronized blocks for those that
    synchronize, and before the network is ready the peer only hears who is known. -/
def Allows (rt rt' : PeerRuntime) : Peer.Event → Prop
  | .message .. => rt'.ready = true
  | .tick _ => rt'.ready = true ∧ rt.requiresConsensusTick = true
  | .synchronized _ => rt'.ready = true ∧ rt.synchronizes = true
  | .discovered _ => True

/-- From `rt` to `rt'` the peer handles the events, and the messages among them are taken
    from the channel in the order in which they were accepted. -/
structure Hands (pf : Platform) (rt rt' : PeerRuntime) (accepted : List Message)
    (events : List Peer.Event) : Prop where
  peer : rt'.peer = rt.peer.run pf events
  delivered : Peer.messages events ++ rt'.channel = rt.channel ++ accepted
  room : rt.channel.length ≤ rt.channelSize → rt'.channel.length ≤ rt'.channelSize
  channelSize : rt'.channelSize = rt.channelSize
  synchronizes : rt'.synchronizes = rt.synchronizes
  requiresConsensusTick : rt'.requiresConsensusTick = rt.requiresConsensusTick
  ready : rt.ready = true → rt'.ready = true
  allowed : ∀ event ∈ events, Allows rt rt' event

variable {pf : Platform} {rt rt' rt'' : PeerRuntime} {accepted' accepted'' : List Message}
  {events events' : List Peer.Event}

/-- Nothing that matters to the peer happens. -/
theorem Hands.refl (pf : Platform) (rt : PeerRuntime) : Hands pf rt rt [] [] where
  peer := rfl
  delivered := (List.append_nil _).symm
  room := id
  channelSize := rfl
  synchronizes := rfl
  requiresConsensusTick := rfl
  ready := id
  allowed := fun _ h => absurd h List.not_mem_nil

theorem Allows.congr {event : Peer.Event} (h : Allows rt' rt'' event)
    (hsynchronizes : rt'.synchronizes = rt.synchronizes)
    (htick : rt'.requiresConsensusTick = rt.requiresConsensusTick) : Allows rt rt'' event := by
  cases event with
  | message message now draw => exact h
  | tick now => exact ⟨h.1, htick ▸ h.2⟩
  | synchronized block => exact ⟨h.1, hsynchronizes ▸ h.2⟩
  | discovered knownPeers => trivial

theorem Allows.later {event : Peer.Event} (h : Allows rt rt' event)
    (hready : rt'.ready = true → rt''.ready = true) : Allows rt rt'' event := by
  cases event with
  | message message now draw => exact hready h
  | tick now => exact ⟨hready h.1, h.2⟩
  | synchronized block => exact ⟨hready h.1, h.2⟩
  | discovered knownPeers => trivial

theorem Hands.trans (h : Hands pf rt rt' accepted' events)
    (h' : Hands pf rt' rt'' accepted'' events') :
    Hands pf rt rt'' (accepted' ++ accepted'') (events ++ events') where
  peer := by
    rw [h'.peer, h.peer]
    exact List.foldl_append.symm
  delivered := by
    rw [Peer.messages, List.filterMap_append, List.append_assoc]
    change Peer.messages events ++ (Peer.messages events' ++ rt''.channel) = _
    rw [h'.delivered, ← List.append_assoc, h.delivered, List.append_assoc]
  room := fun hroom => h'.room (h.room hroom)
  channelSize := h'.channelSize.trans h.channelSize
  synchronizes := h'.synchronizes.trans h.synchronizes
  requiresConsensusTick := h'.requiresConsensusTick.trans h.requiresConsensusTick
  ready := h'.ready ∘ h.ready
  allowed := by
    intro event hmem
    rcases List.mem_append.mp hmem with hmem | hmem
    · exact (h.allowed event hmem).later h'.ready
    · exact (h'.allowed event hmem).congr h.synchronizes h.requiresConsensusTick

/-- A message that is put into the channel. -/
theorem onMessageReceived_hands (pf : Platform) (rt : PeerRuntime) (message : Message) :
    Hands pf rt (rt.onMessageReceived message).1
      (if rt.channelSize ≤ rt.channel.length then [] else [message]) [] := by
  unfold onMessageReceived
  split
  · rename_i hroom
    rw [if_neg (by omega)]
    refine { Hands.refl pf rt with delivered := rfl, room := fun _ => ?_ }
    rw [List.length_append, List.length_singleton]
    exact hroom
  · rw [if_pos (by omega)]
    exact .refl pf rt

@[simp] theorem handleClientTransaction_fst (rt : PeerRuntime) (transaction : SignedTransaction) :
    (rt.handleClientTransaction transaction).1 =
      (rt.onMessageReceived
        { «from» := 0, «to» := rt.peer.id, body := .clientTransaction transaction }).1 := by
  unfold handleClientTransaction receiveClientMessage
  split <;> simp_all

@[simp] theorem handlePeerMessage_fst (rt : PeerRuntime) (message : Message) :
    (rt.handlePeerMessage message).1 = (rt.onMessageReceived message).1 := by
  unfold handlePeerMessage
  split <;> simp_all

/-- A turn of the loop that only has the peer handle events. -/
theorem Hands.turn {pf : Platform} {rt : PeerRuntime} {peer : Peer} {events : List Peer.Event}
    (panicked : Bool) (hpeer : peer = rt.peer.run pf events)
    (hmessages : Peer.messages events = [])
    (hallowed : ∀ event ∈ events, Allows rt rt event) :
    Hands pf rt { rt with peer, panicked } [] events where
  peer := hpeer
  delivered := by
    rw [hmessages, List.append_nil, List.nil_append]
  room := id
  channelSize := rfl
  synchronizes := rfl
  requiresConsensusTick := rfl
  ready := id
  allowed := fun event hmem => (hallowed event hmem).later id

/-- What one request or turn hands to the peer. -/
theorem step_hands (pf : Platform) (rt : PeerRuntime) (action : Action) :
    ∃ events, Hands pf rt (rt.step pf action) (rt.accepted action).toList events := by
  by_cases hpanicked : rt.panicked = true
  · have hstep : rt.step pf action = rt := if_pos hpanicked
    have hnone : rt.accepted action = none := if_pos (Or.inl hpanicked)
    rw [hstep, hnone]
    exact ⟨[], .refl pf rt⟩
  have hrequest : ∀ message, rt.requested action = some message →
      (rt.accepted action).toList =
        if rt.channelSize ≤ rt.channel.length then [] else [message] := by
    intro message hmessage
    simp only [accepted, hmessage, or_iff_right hpanicked]
    split <;> rfl
  have hquiet : rt.requested action = none → (rt.accepted action).toList = [] := by
    intro hnone
    rw [accepted, hnone, ite_self]
    rfl
  unfold step
  rw [if_neg hpanicked]
  cases action with
  | clientTransaction transaction =>
      rw [hrequest _ rfl]
      show ∃ events, Hands pf rt (rt.handleClientTransaction transaction).1 _ events
      rw [handleClientTransaction_fst]
      exact ⟨[], onMessageReceived_hands pf rt _⟩
  | peerMessage message =>
      rw [hrequest _ rfl]
      show ∃ events, Hands pf rt (rt.handlePeerMessage message).1 _ events
      rw [handlePeerMessage_fst]
      exact ⟨[], onMessageReceived_hands pf rt message⟩
  | discovered knownPeers =>
      rw [hquiet rfl]
      refine ⟨[.discovered knownPeers], .turn rt.panicked rfl rfl ?_⟩
      intro event hmem
      rw [List.mem_singleton.mp hmem]
      trivial
  | ready =>
      rw [hquiet rfl]
      refine ⟨[], { Hands.refl pf rt with ready := fun _ => rfl, allowed := ?_ }⟩
      exact fun _ h => absurd h List.not_mem_nil
  | receive now draw =>
      rw [hquiet rfl]
      simp only
      split
      · rename_i message channel hready hchannel
        refine ⟨[.message message now draw], { Hands.refl pf rt with
          peer := rfl, delivered := ?_, room := ?_, allowed := ?_ }⟩
        · rw [hchannel]
          exact (List.append_nil _).symm
        · intro hroom
          rw [hchannel, List.length_cons] at hroom
          exact Nat.le_of_succ_le hroom
        · intro event hmem
          rw [List.mem_singleton.mp hmem]
          exact hready
      · exact ⟨[], .refl pf rt⟩
  | synchronize network =>
      rw [hquiet rfl]
      simp only
      split
      · rename_i hturn
        rw [Bool.and_eq_true] at hturn
        obtain ⟨blocks, hrun⟩ := rt.peer.synchronize_run pf network
        have hmessages : Peer.messages (blocks.map .synchronized) = [] := by
          rw [Peer.messages, List.filterMap_map, List.filterMap_eq_nil_iff]
          exact fun _ _ => rfl
        have hallowed : ∀ event ∈ blocks.map Peer.Event.synchronized, Allows rt rt event := by
          intro event hmem
          obtain ⟨block, -, rfl⟩ := List.mem_map.mp hmem
          exact hturn
        refine ⟨blocks.map .synchronized, ?_⟩
        split
        · rename_i hsynchronize
          rw [hsynchronize] at hrun
          exact .turn true hrun hmessages hallowed
        · rename_i hsynchronize
          rw [hsynchronize] at hrun
          exact .turn rt.panicked hrun hmessages hallowed
      · exact ⟨[], .refl pf rt⟩
  | tick now =>
      rw [hquiet rfl]
      simp only
      split
      · rename_i hturn
        rw [Bool.and_eq_true] at hturn
        refine ⟨[.tick now], .turn rt.panicked rfl rfl ?_⟩
        intro event hmem
        rw [List.mem_singleton.mp hmem]
        exact hturn
      · exact ⟨[], .refl pf rt⟩

/-- What a run hands to the peer. -/
theorem run_hands (pf : Platform) (rt : PeerRuntime) (actions : List Action) :
    ∃ events, Hands pf rt (rt.run pf actions) (rt.acceptedAll pf actions) events := by
  induction actions generalizing rt with
  | nil => exact ⟨[], .refl pf rt⟩
  | cons action actions ih =>
      obtain ⟨events, hfirst⟩ := step_hands pf rt action
      obtain ⟨events', hrest⟩ := ih (rt.step pf action)
      exact ⟨events ++ events', hfirst.trans hrest⟩

/-- A client is told that its transaction is processed exactly if there is room for it. -/
theorem handleClientTransaction_processed_iff (rt : PeerRuntime)
    (transaction : SignedTransaction) :
    (rt.handleClientTransaction transaction).2 = "Transaction processed" ↔
      ¬ rt.channelSize ≤ rt.channel.length := by
  unfold handleClientTransaction receiveClientMessage onMessageReceived
  by_cases hroom : rt.channel.length < rt.channelSize
  · rw [if_pos hroom]
    exact iff_of_true rfl (by omega)
  · rw [if_neg hroom]
    exact iff_of_false (by simp) (by omega)

theorem acceptedAll_append (pf : Platform) (rt : PeerRuntime) (before after : List Action) :
    rt.acceptedAll pf (before ++ after) =
      rt.acceptedAll pf before ++ (rt.run pf before).acceptedAll pf after := by
  induction before generalizing rt with
  | nil => rfl
  | cons action before ih =>
      rw [List.cons_append, acceptedAll, ih, acceptedAll, List.append_assoc]
      rfl

/-- What was put into the channel at some time was accepted. -/
theorem mem_acceptedAll {pf : Platform} {rt : PeerRuntime} {before after : List Action}
    {action : Action} {message : Message}
    (h : (rt.run pf before).accepted action = some message) :
    message ∈ rt.acceptedAll pf (before ++ action :: after) := by
  rw [acceptedAll_append, acceptedAll, h]
  exact List.mem_append_right _ List.mem_cons_self

theorem start_eq {pf : Platform} {config : PeerConfig} {dir : BlockDir} {store : FileRaftLogStore}
    {walk : HashMap.Walk BlockHash BlockFile} {signingKey : SigningKey} {now : Instant}
    {draw : Nat} {rt : PeerRuntime}
    (hstart : start pf config dir store walk signingKey now draw = .ok rt) :
    rt.channel = [] ∧ rt.channelSize = config.channelSize ∧ rt.ready = false ∧
      rt.panicked = false ∧ rt.synchronizes = (config.consensusMode == .voting) ∧
      rt.requiresConsensusTick = (config.consensusMode == .raft) := by
  unfold start at hstart
  cases hmode : config.consensusMode with
  | voting =>
      rw [hmode] at hstart
      cases hstart
      exact ⟨rfl, rfl, rfl, rfl, rfl, rfl⟩
  | raft =>
      rw [hmode] at hstart
      simp only [Peer.startRaft, ConsensusEngine.newRaftWithStorage] at hstart
      split at hstart
      · cases hstart
      · rename_i hpeer
        split at hpeer
        · cases hpeer
        · rename_i hconsensus
          split at hconsensus
          · cases hconsensus
          · cases hconsensus
            cases hpeer
            cases hstart
            exact ⟨rfl, rfl, rfl, rfl, rfl, rfl⟩

/-- Every run of a process comes down to events of its peer.  The messages among them are
    those that the requests put into the channel, each once and in that order, up to what
    still waits there; so a transaction whose client was told that it is processed is not
    lost.  The channel never holds more than it has room for.  Ticks come to Raft peers
    only, synchronized blocks to voting peers only, and none of this happens before the
    network is ready. -/
theorem run_delivers {pf : Platform} {config : PeerConfig} {dir : BlockDir}
    {store : FileRaftLogStore} {walk : HashMap.Walk BlockHash BlockFile}
    {signingKey : SigningKey} {now : Instant} {draw : Nat} {rt : PeerRuntime}
    (hstart : start pf config dir store walk signingKey now draw = .ok rt)
    (actions : List Action) :
    let rt' := rt.run pf actions
    ∃ events, rt'.peer = rt.peer.run pf events ∧
      Peer.messages events ++ rt'.channel = rt.acceptedAll pf actions ∧
      (∀ before transaction after, actions = before ++ .clientTransaction transaction :: after →
        (rt.run pf before).panicked = false →
        ((rt.run pf before).handleClientTransaction transaction).2 = "Transaction processed" →
          { «from» := 0
            «to» := (rt.run pf before).peer.id
            body := .clientTransaction transaction } ∈ Peer.messages events ++ rt'.channel) ∧
      rt'.channel.length ≤ config.channelSize ∧
      (∀ now, .tick now ∈ events → config.consensusMode = .raft ∧ rt'.ready = true) ∧
      (∀ block, .synchronized block ∈ events →
        config.consensusMode = .voting ∧ rt'.ready = true) ∧
      (rt'.ready = false → Peer.messages events = []) := by
  intro rt'
  obtain ⟨hchannel, hsize, -, -, hsynchronizes, htick⟩ := start_eq hstart
  obtain ⟨events, hhands⟩ := rt.run_hands pf actions
  have hdelivered := hhands.delivered
  rw [hchannel, List.nil_append] at hdelivered
  refine ⟨events, hhands.peer, hdelivered, ?_, ?_, ?_, ?_, ?_⟩
  · rintro before transaction after rfl halive hprocessed
    rw [hdelivered]
    refine mem_acceptedAll (if_neg ?_)
    rw [halive, not_or]
    exact ⟨Bool.false_ne_true,
      ((rt.run pf before).handleClientTransaction_processed_iff transaction).mp hprocessed⟩
  · rw [← hsize, ← hhands.channelSize]
    exact hhands.room (by rw [hchannel]; exact Nat.zero_le _)
  · intro now hmem
    obtain ⟨hready, hrequires⟩ := hhands.allowed _ hmem
    rw [htick, beq_iff_eq] at hrequires
    exact ⟨hrequires, hready⟩
  · intro block hmem
    obtain ⟨hready, hvoting⟩ := hhands.allowed _ hmem
    rw [hsynchronizes, beq_iff_eq] at hvoting
    exact ⟨hvoting, hready⟩
  · intro hnot
    rw [Peer.messages, List.filterMap_eq_nil_iff]
    intro event hmem
    have hallowed := hhands.allowed event hmem
    cases event with
    | message message now draw =>
        rw [show rt'.ready = true from hallowed] at hnot
        cases hnot
    | _ => rfl

end PeerRuntime

namespace Reference

/-- A voting peer whose channel has room for one message. -/
def narrow : PeerConfig := { peerId := 1, channelSize := 1, consensusMode := .voting }

def narrowRuntime : PeerRuntime where
  peer := .startVoting platform 1 { knownPeers := [], calls := [] } (.empty "data/peer_1") 5
    (.listed _ _) [1]
  channel := []
  channelSize := 1
  synchronizes := true
  requiresConsensusTick := false
  ready := false
  panicked := false

theorem narrow_started :
    PeerRuntime.start platform narrow (.empty "data/peer_1") (.empty "data/peer_1") (.listed _ _)
      [1] 0 0 = .ok narrowRuntime := rfl

/-- A transaction comes before the network is ready, and another one finds the channel
    full. -/
def submissions : List PeerRuntime.Action :=
  [.clientTransaction deposit, .clientTransaction otherDeposit, .ready, .receive 0 0]

end Reference

namespace PeerRuntime

open Reference

theorem run_delivers_narrow :
    (narrowRuntime.handleClientTransaction deposit).2 = "Transaction processed" ∧
      ((narrowRuntime.run platform [.clientTransaction deposit]).handleClientTransaction
        otherDeposit).2 = "no available capacity" ∧
      ∃ events, (narrowRuntime.run platform submissions).peer =
          narrowRuntime.peer.run platform events ∧
        Peer.messages events ++ (narrowRuntime.run platform submissions).channel =
          narrowRuntime.acceptedAll platform submissions ∧
        (narrowRuntime.run platform submissions).channel.length ≤ 1 := by
  obtain ⟨events, hpeer, hdelivered, -, hroom, -⟩ := run_delivers narrow_started submissions
  exact ⟨rfl, rfl, events, hpeer, hdelivered, hroom⟩

end PeerRuntime

-- ============================================================================
-- What ends the process
-- ============================================================================

/-- A synchronization panics exactly if one of its fetches finds nobody known. -/
theorem retrieve_panics_iff {σ : Type} {round : Nat → Round} {states : PeersStates}
    {applyBlock : σ → BlockFile → σ × Except String Unit} {fuel n idx errorsCount : Nat} {s : σ} :
    (∃ panic, (retrieve round states applyBlock fuel n idx errorsCount s).2.2 =
        some (.error panic)) ↔
      ∃ a ∈ (retrieve round states applyBlock fuel n idx errorsCount s).2.1,
        a.round.knownPeers = [] := by
  induction fuel generalizing n idx errorsCount s with
  | zero =>
      unfold retrieve
      simp
  | succ fuel ih =>
      unfold retrieve
      split
      · simp
      split
      · simp
      have hpanics : (∀ panic, (round n).getBlockFile idx states ≠ .error panic) ↔
          (round n).knownPeers ≠ [] := Round.getBlockFile_ne_error_iff
      cases hfetched : Attempt.fetched { idx, round := round n } states with
      | error panic =>
          have hnobody : (round n).knownPeers = [] := by
            by_contra hknown
            exact hpanics.mpr hknown panic hfetched
          simp only [hfetched]
          exact iff_of_true ⟨panic, rfl⟩ ⟨_, List.mem_singleton_self _, hnobody⟩
      | ok fetched =>
          have hknown : (round n).knownPeers ≠ [] := by
            refine hpanics.mp fun panic herror => ?_
            rw [show Attempt.fetched { idx, round := round n } states = .error panic from herror]
              at hfetched
            cases hfetched
          -- The rest of the run decides.
          have hrest : ∀ out : σ × List Attempt × Option (Except Panic SyncState),
              ((∃ panic, out.2.2 = some (.error panic)) ↔
                ∃ a ∈ out.2.1, a.round.knownPeers = []) →
              ((∃ panic, out.2.2 = some (.error panic)) ↔
                ∃ a ∈ ({ idx, round := round n } : Attempt) :: out.2.1,
                  a.round.knownPeers = []) := by
            intro out hout
            simp only [hout, List.mem_cons, exists_eq_or_imp, hknown, false_or]
          simp only [hfetched]
          cases fetched with
          | none => exact hrest _ ih
          | some block =>
              rcases happly : applyBlock s block with ⟨s', e | _⟩
              · simp only [happly]
                exact hrest _ ih
              · simp only [happly]
                exact hrest _ ih

theorem Peer.synchronize_panics_iff (pf : Platform) (network : SyncNetwork) (p : Peer) :
    (∃ panic, (p.synchronize pf network).2.2 = some (.error panic)) ↔
      ∃ a ∈ (p.synchronize pf network).2.1, a.round.knownPeers = [] := by
  unfold Peer.synchronize checkAndRetrieveMissingBlocks
  simp only
  split
  · simp
  · exact retrieve_panics_iff

namespace PeerRuntime

variable {pf : Platform} {rt : PeerRuntime}

/-- The action is a synchronization that the process makes, and at one of its fetches
    nobody is known. -/
def LosesPeers (pf : Platform) (rt : PeerRuntime) (action : Action) : Prop :=
  rt.ready = true ∧ rt.synchronizes = true ∧ ∃ network, action = .synchronize network ∧
    ∃ a ∈ (rt.peer.synchronize pf network).2.1, a.round.knownPeers = []

@[simp] theorem onMessageReceived_panicked (rt : PeerRuntime) (message : Message) :
    (rt.onMessageReceived message).1.panicked = rt.panicked := by
  unfold onMessageReceived
  split <;> rfl

theorem step_panics_iff (pf : Platform) (rt : PeerRuntime) (action : Action)
    (halive : rt.panicked = false) :
    (rt.step pf action).panicked = true ↔ rt.LosesPeers pf action := by
  -- Whatever else is done, the process goes on.
  have hother : (∀ network, action ≠ .synchronize network) →
      (rt.step pf action).panicked = false →
        ((rt.step pf action).panicked = true ↔ rt.LosesPeers pf action) := by
    intro hother hstep
    rw [hstep]
    refine iff_of_false Bool.false_ne_true ?_
    rintro ⟨-, -, network, hsynchronize, -⟩
    exact hother network hsynchronize
  have hstep : ∀ rt', (if rt.panicked then rt else rt') = rt' := fun rt' => if_neg (by simp [halive])
  cases action with
  | synchronize network =>
      have hpanics := rt.peer.synchronize_panics_iff pf network
      unfold step
      rw [hstep]
      simp only
      split
      · rename_i hturn
        rw [Bool.and_eq_true] at hturn
        have hloses : rt.LosesPeers pf (.synchronize network) ↔
            ∃ panic, (rt.peer.synchronize pf network).2.2 = some (.error panic) := by
          rw [hpanics]
          constructor
          · rintro ⟨-, -, _, ⟨⟩, hnobody⟩
            exact hnobody
          · exact fun hnobody => ⟨hturn.1, hturn.2, network, rfl, hnobody⟩
        rw [hloses]
        split
        · rename_i hsynchronize
          rw [hsynchronize]
          exact iff_of_true rfl ⟨_, rfl⟩
        · rename_i hnone hsynchronize
          rw [hsynchronize]
          refine iff_of_false (by simp [halive]) ?_
          rintro ⟨panic, hpanic⟩
          exact hnone panic hpanic
      · rename_i hturn
        refine iff_of_false (by simp [halive]) ?_
        rintro ⟨hready, hsynchronizes, -⟩
        exact hturn (by rw [hready, hsynchronizes]; rfl)
  | clientTransaction transaction =>
      refine hother (by simp) ?_
      rw [step, hstep]
      simp [halive]
  | peerMessage message =>
      refine hother (by simp) ?_
      rw [step, hstep]
      simp [halive]
  | discovered knownPeers =>
      refine hother (by simp) ?_
      rw [step, hstep]
      exact halive
  | ready =>
      refine hother (by simp) ?_
      rw [step, hstep]
      exact halive
  | receive now draw =>
      refine hother (by simp) ?_
      rw [step, hstep]
      split <;> exact halive
  | tick now =>
      refine hother (by simp) ?_
      rw [step, hstep]
      split <;> exact halive

/-- A process that has ended does nothing any more. -/
theorem run_of_panicked (pf : Platform) (hpanicked : rt.panicked = true) (actions : List Action) :
    rt.run pf actions = rt := by
  induction actions with
  | nil => rfl
  | cons action actions ih =>
      have hstep : rt.step pf action = rt := if_pos hpanicked
      rw [run, List.foldl_cons, hstep]
      exact ih

theorem run_panics (pf : Platform) (rt : PeerRuntime) (actions : List Action)
    (halive : rt.panicked = false) :
    (rt.run pf actions).panicked = true ↔ ∃ before action after,
      actions = before ++ action :: after ∧ (rt.run pf before).panicked = false ∧
        (rt.run pf before).LosesPeers pf action := by
  induction actions generalizing rt with
  | nil =>
      refine iff_of_false (by simp [run, halive]) ?_
      rintro ⟨before, action, after, hsplit, -⟩
      simp at hsplit
  | cons action actions ih =>
      cases hstep : (rt.step pf action).panicked with
      | true =>
          have hstopped : (rt.step pf action).run pf actions = rt.step pf action :=
            run_of_panicked pf hstep actions
          refine iff_of_true ?_
            ⟨[], action, actions, rfl, halive, (rt.step_panics_iff pf action halive).mp hstep⟩
          show ((rt.step pf action).run pf actions).panicked = true
          rw [hstopped]
          exact hstep
      | false =>
          show ((rt.step pf action).run pf actions).panicked = true ↔ _
          rw [ih _ hstep]
          constructor
          · rintro ⟨before, other, after, rfl, hbefore⟩
            exact ⟨action :: before, other, after, rfl, hbefore⟩
          · rintro ⟨before, other, after, hsplit, hbefore, hloses⟩
            cases before with
            | nil =>
                obtain ⟨rfl, rfl⟩ := List.cons.inj hsplit
                rw [(rt.step_panics_iff pf action halive).mpr hloses] at hstep
                cases hstep
            | cons first before =>
                obtain ⟨rfl, rfl⟩ := List.cons.inj hsplit
                exact ⟨before, other, after, rfl, hbefore, hloses⟩

end PeerRuntime

end Rustchain
