/-
  Rustchain.Peer.Refinement

  The block files of a Raft peer against its log, over the whole life of the
  peer: it handles messages and ticks, and may be rebuilt on its directory.

  Two state machines advance separately.  The commit index moves, and is saved,
  inside consensus; the blocks are written by effects, if they are staged in
  memory by then.  What keeps the two in step is that every block of the log
  above the commit index is staged (`Tracks`).  The peer loses that when a block
  of a request it accepts cannot be staged, and when it is rebuilt.
-/

import Rustchain.Consensus.Raft.Growth
import Rustchain.Consensus.Raft.History
import Rustchain.Peer.Acknowledge
import Rustchain.Storage.Recovery
import Rustchain.System.Basic

namespace Rustchain

-- ============================================================================
-- The log and its file
-- ============================================================================

@[simp] theorem blockHashes_append (entries entries' : List RaftLogEntry) :
    blockHashes (entries ++ entries') = blockHashes entries ++ blockHashes entries' := by
  simp only [blockHashes, List.filter_append, List.map_append]

/-- The log between two commit indexes, and what is above both. -/
theorem Advance.drop_eq {log log' : List RaftLogEntry} {commit commit' : Nat}
    (h : Advance log commit log' commit') (hle : commit ≤ log.length) :
    log'.drop commit = (log'.take commit').drop commit ++ log'.drop commit' := by
  obtain ⟨hwithin, -⟩ := h.take_eq hle
  have hlength : commit ≤ (log'.take commit').length := by
    rw [List.length_take]
    have := h.mono
    omega
  conv_lhs => rw [← List.take_append_drop commit' log', List.drop_append_of_le_length hlength]

theorem Advance.take_append {log log' : List RaftLogEntry} {commit commit' : Nat}
    (h : Advance log commit log' commit') (hle : commit ≤ log.length) :
    log'.take commit' = log.take commit ++ (log'.take commit').drop commit := by
  rw [← (h.take_eq hle).2, ← Nat.min_eq_left h.mono, ← List.take_take, Nat.min_eq_left h.mono,
    List.take_append_drop]

namespace RaftConsensus

variable {pf : Platform} {r r' : RaftConsensus}

/-- `ensure_no_uncommitted_block` passes when no block is above the commit index. -/
theorem ensureNoUncommittedBlock_iff (hlog : Contiguous 0 r.log) :
    r.ensureNoUncommittedBlock = .ok () ↔ blockHashes (r.log.drop r.commitIndex) = [] := by
  have habove : r.log.filter (fun entry => decide (r.commitIndex < entry.index)) =
      r.log.drop r.commitIndex := by
    have := hlog.filter_gt r.commitIndex
    simpa using this
  have hnone : (r.log.any fun entry => r.commitIndex < entry.index && !entry.isNoop) = false ↔
      blockHashes (r.log.drop r.commitIndex) = [] := by
    rw [← habove, blockHashes, List.map_eq_nil_iff, List.filter_filter, List.filter_eq_nil_iff,
      List.any_eq_false]
    simp only [Bool.and_eq_true, decide_eq_true_eq, Bool.not_eq_true']
    exact forall₂_congr fun entry _ => not_congr and_comm
  rw [← hnone, ensureNoUncommittedBlock]
  split
  · rename_i hany
    rw [hany]
    constructor
    · intro h
      cases h
    · intro h
      cases h
  · rename_i hany
    exact ⟨fun _ => by simpa using hany, fun _ => rfl⟩

/-- A Raft peer between two events, as long as saves succeed: the log is sound and its
    file holds what memory holds. -/
structure Stored (pf : Platform) (r : RaftConsensus) : Prop where
  contiguous : Contiguous 0 r.log
  within : r.commitIndex ≤ r.log.length
  mirrors : r.Mirrors pf
  file : ∃ store, r.raftLogStore = .file store
  saves : r.raftLogStore.SavesSucceed
  reads : r.raftLogStore.ReadsSucceed

namespace Stored

theorem congr (h : r.Stored pf) (hsame : SameLog r r') : r'.Stored pf := by
  obtain ⟨hcontiguous, hwithin, hmirrors, hfile, hsaves, hreads⟩ := h
  rw [Mirrors] at hmirrors
  rw [← hsame.log] at hcontiguous hwithin hmirrors
  rw [← hsame.commitIndex] at hwithin hmirrors
  rw [← hsame.raftLogStore] at hmirrors hfile hsaves hreads
  exact ⟨hcontiguous, hwithin, hmirrors, hfile, hsaves, hreads⟩

theorem storeSound (h : r.Stored pf) : StoreSound pf r.raftLogStore := by
  refine ⟨h.reads, ?_⟩
  rcases h.mirrors with ⟨hempty, -⟩ | hload
  · exact hempty.storeSound.2
  · exact ⟨_, hload, .saved h.contiguous h.within⟩

/-- Every handler keeps log and file sound. -/
theorem handle (hpf : pf.Lawful) (h : r.Stored pf) (event : RaftEvent) :
    (r.handle pf event).1.Stored pf := by
  have hrecorded := handle_recorded pf h.contiguous event
  have hadvance := hrecorded.advance h.contiguous
  have hsaves := (hrecorded.commits h.contiguous h.saves).1
  have hmirrors := handle_mirrors hpf h.contiguous h.saves h.reads h.mirrors event
  refine ⟨hadvance.contiguous, (hadvance.take_eq h.within).1, hmirrors, ?_, hsaves,
    (handle_storeSound hpf h.contiguous h.within h.storeSound event).1⟩
  obtain ⟨store, hfile⟩ := h.file
  generalize r.handle pf event = out at hrecorded
  cases hrecorded with
  | keeps hkeeps _ => exact ⟨store, hkeeps.raftLogStore.trans hfile⟩
  | saves _ hstore _ _ =>
      rw [persistThen_fst, hstore, hfile]
      exact ⟨_, rfl⟩

end Stored

end RaftConsensus

-- ============================================================================
-- The block store and the log
-- ============================================================================

/-- The block store follows the log of the Raft peer, up to the given commits. -/
structure Tracks (pf : Platform) (k : BlockKeeper) (r : RaftConsensus)
    (commits : List BlockHash) : Prop where
  raft : r.Stored pf
  keeper : k.Follows pf (blockHashes (r.log.take r.commitIndex)) commits
    (blockHashes (r.log.drop r.commitIndex))

namespace Tracks

variable {pf : Platform} {k : BlockKeeper} {r r' : RaftConsensus} {commits : List BlockHash}

theorem congr (h : Tracks pf k r commits) (hsame : SameLog r r') : Tracks pf k r' commits := by
  refine ⟨h.raft.congr hsame, ?_⟩
  rw [hsame.log, hsame.commitIndex]
  exact h.keeper

/-- The log grows by blocks that are staged, and the commit index moves. -/
theorem grows {same : Prop} {new : List BlockHash}
    {out : RaftConsensus × Except String (List ConsensusEffect)} (h : Tracks pf k r commits)
    (hgrows : Grows r new out) (hrecorded : Recorded pf same r out) (hstored : out.1.Stored pf)
    (hnew : k.Follows pf (blockHashes (r.log.take r.commitIndex)) commits
      (blockHashes (r.log.drop r.commitIndex) ++ new)) :
    Tracks pf k out.1 (commits ++ commitHashes (out.2.toOption.getD [])) := by
  obtain ⟨tail, hlog, rfl⟩ := hgrows.log
  have hadvance := hrecorded.advance h.raft.contiguous
  have hcommits := (hrecorded.commits h.raft.contiguous h.raft.saves).2
  rw [hadvance.contiguous.entriesBetween] at hcommits
  -- The blocks ahead are now those that are committed and those above.
  have hahead : blockHashes (r.log.drop r.commitIndex) ++ blockHashes tail =
      commitHashes (out.2.toOption.getD []) ++
        blockHashes (out.1.log.drop out.1.commitIndex) := by
    rw [hcommits, ← blockHashes_append, ← blockHashes_append, ← hadvance.drop_eq h.raft.within,
      hlog, List.drop_append_of_le_length h.raft.within]
  rw [hahead] at hnew
  refine ⟨hstored, ?_⟩
  rw [hadvance.take_append h.raft.within, blockHashes_append, ← hcommits]
  exact hnew.advance

/-- A handler that appends no block. -/
theorem grows_nil {same : Prop} {out : RaftConsensus × Except String (List ConsensusEffect)}
    (h : Tracks pf k r commits) (hgrows : Grows r [] out) (hrecorded : Recorded pf same r out)
    (hstored : out.1.Stored pf) :
    Tracks pf k out.1 (commits ++ commitHashes (out.2.toOption.getD [])) := by
  refine h.grows hgrows hrecorded hstored ?_
  rw [List.append_nil]
  exact h.keeper

/-- `on_block_created`, for a block that is staged. -/
theorem blockCreated (hpf : pf.Lawful) (h : Tracks pf k r []) {blockHash : BlockHash}
    (hstaged : blockHash ∈ k.uncommitedBlocks) :
    Tracks pf k (r.onBlockCreated pf blockHash).1
      (commitHashes ((r.onBlockCreated pf blockHash).2.toOption.getD [])) := by
  have hrecorded : Recorded pf False r (r.onBlockCreated pf blockHash) :=
    RaftConsensus.onBlockCreated_recorded h.raft.contiguous blockHash
  have hstored : (r.onBlockCreated pf blockHash).1.Stored pf :=
    h.raft.handle hpf (.blockCreated blockHash)
  rcases r.onBlockCreated_grows pf blockHash with hgrows | ⟨hnone, hgrows⟩
  · exact h.grows_nil hgrows hrecorded hstored
  · refine h.grows hgrows hrecorded hstored (h.keeper.append hstaged ?_)
    rw [(RaftConsensus.ensureNoUncommittedBlock_iff h.raft.contiguous).mp hnone]
    exact List.not_mem_nil

end Tracks

-- ============================================================================
-- Batches
-- ============================================================================

namespace PeerEffects

variable {pf : Platform}

/-- A client's transaction is packed; the block it completes is staged. -/
theorem stageClientTransaction_tracks {effects : PeerEffects} {r : RaftConsensus}
    (h : Tracks pf effects.blockKeeper r []) (clientTx : SignedTransaction) :
    Tracks pf (effects.stageClientTransaction pf clientTx).1.blockKeeper r [] ∧
      ∀ blockHash, (effects.stageClientTransaction pf clientTx).2 =
          .ok (.newBlockCreated blockHash) →
        blockHash ∈ (effects.stageClientTransaction pf clientTx).1.blockKeeper.uncommitedBlocks := by
  unfold stageClientTransaction
  split
  · exact ⟨h, fun _ heq => by cases heq⟩
  dsimp only
  split
  · exact ⟨h, fun _ heq => by cases heq⟩
  · refine ⟨⟨h.raft, h.keeper.packs (effects.blockKeeper.addTransaction_packs pf clientTx)⟩, ?_⟩
    intro blockHash heq
    obtain ⟨block, -, -, hlookup, -⟩ := BlockKeeper.addTransaction_created (Except.ok.inj heq)
    exact AList.lookup_isSome.mp (Option.isSome_iff_exists.mpr ⟨block, hlookup⟩)

/-- A batch of a Raft peer: plain effects, with commits that are due, or a client's
    transaction alone. -/
def Batch.Due (pf : Platform) (b : Batch) : Prop :=
  ∃ r, b.consensus = .raft r ∧
    ((∀ effect ∈ b.queue, effect.isPlain = true) ∧
        Tracks pf b.effects.blockKeeper r (commitHashes b.queue) ∨
      (∃ clientTx, b.queue = [.stageClientTransaction clientTx]) ∧
        Tracks pf b.effects.blockKeeper r [])

/-- A plain effect queues nothing; it leaves the block store alone or commits. -/
theorem executeEffect_plain (pf : Platform) (effects : PeerEffects) (consensus : ConsensusEngine)
    {effect : ConsensusEffect} (hplain : effect.isPlain = true) :
    (effects.executeEffect pf consensus effect).consensus = consensus ∧
      (effects.executeEffect pf consensus effect).queued = [] ∧
      (commitHashes [effect] = [] ∧
          (effects.executeEffect pf consensus effect).effects.blockKeeper = effects.blockKeeper ∨
        ∃ blockHash, effect = .commitBlock blockHash ∧
          (effects.executeEffect pf consensus effect).effects.blockKeeper =
            (effects.blockKeeper.commitBlock pf blockHash).1) := by
  cases effect with
  | send dst body => exact ⟨rfl, rfl, Or.inl ⟨rfl, rfl⟩⟩
  | broadcast body => exact ⟨rfl, rfl, Or.inl ⟨rfl, rfl⟩⟩
  | sendRaftAppendEntries dst term prevLogIndex prevLogTerm entries leaderCommit =>
      refine ⟨rfl, rfl, Or.inl ⟨rfl, ?_⟩⟩
      show (effects.sendRaftAppendEntries pf dst term prevLogIndex prevLogTerm entries
        leaderCommit).1.blockKeeper = _
      unfold sendRaftAppendEntries
      split <;> rfl
  | commitBlock blockHash =>
      refine ⟨rfl, rfl, Or.inr ⟨blockHash, rfl, ?_⟩⟩
      show (effects.commitBlock pf blockHash).1.blockKeeper = _
      unfold commitBlock
      split <;> simp_all
  | _ => cases hplain

/-- Every turn leaves the commits due that are still queued. -/
theorem Batch.Due.turn (hpf : pf.Lawful) (b : Batch) (effect : ConsensusEffect)
    (rest : List ConsensusEffect) (h : Batch.Due pf { b with queue := effect :: rest }) :
    ({ b with queue := rest }.turn pf effect).Due pf := by
  obtain ⟨r, hconsensus, ⟨hplain, htracks⟩ | ⟨⟨clientTx, hqueue⟩, htracks⟩⟩ := h
  · obtain ⟨hsame, hqueued, hkeeper⟩ := b.effects.executeEffect_plain pf b.consensus
      (hplain effect List.mem_cons_self)
    refine ⟨r, hsame.trans hconsensus, Or.inl ?_⟩
    have hrest : ({ b with queue := rest }.turn pf effect).queue = rest := by
      simp only [Batch.turn, hqueued, List.append_nil]
    rw [hrest]
    refine ⟨fun e he => hplain e (List.mem_cons_of_mem effect he), ?_⟩
    have hcommits : commitHashes (effect :: rest) = commitHashes [effect] ++ commitHashes rest :=
      commitHashes_append [effect] rest
    rcases hkeeper with ⟨hnone, hkeeper⟩ | ⟨blockHash, rfl, hkeeper⟩
    · rw [hcommits, hnone, List.nil_append] at htracks
      show Tracks pf (b.effects.executeEffect pf b.consensus effect).effects.blockKeeper r _
      rw [hkeeper]
      exact htracks
    · show Tracks pf (b.effects.executeEffect pf b.consensus
        (.commitBlock blockHash)).effects.blockKeeper r _
      rw [hkeeper]
      exact ⟨htracks.raft, htracks.keeper.commit⟩
  · -- The transaction is packed, and a block that is complete goes into the log.
    obtain ⟨rfl, rfl⟩ : effect = .stageClientTransaction clientTx ∧ rest = [] := by
      simpa using hqueue
    obtain ⟨hstage, hstaged⟩ := stageClientTransaction_tracks htracks clientTx
    obtain ⟨effects, consensus, queue, errors⟩ := b
    cases hconsensus
    simp only at hstage hstaged htracks
    simp only [Batch.turn, executeEffect]
    rcases hresult : effects.stageClientTransaction pf clientTx with
      ⟨effects', e | _ | blockHash⟩
    all_goals rw [hresult] at hstage hstaged
    · exact ⟨r, rfl, Or.inl ⟨fun _ h => absurd h List.not_mem_nil, hstage⟩⟩
    · exact ⟨r, rfl, Or.inl ⟨fun _ h => absurd h List.not_mem_nil, hstage⟩⟩
    · have hcreated := hstage.blockCreated hpf (hstaged blockHash rfl)
      have hgrows : ∀ queued, (r.onBlockCreated pf blockHash).2 = .ok queued →
          ∀ effect ∈ queued, effect.isPlain = true := by
        rcases r.onBlockCreated_grows pf blockHash with hgrows | ⟨-, hgrows⟩
        · exact hgrows.plain
        · exact hgrows.plain
      simp only [ConsensusEngine.onBlockCreated, ConsensusEngine.ofRaft]
      rcases hanswer : r.onBlockCreated pf blockHash with ⟨r', e | queued⟩
      all_goals rw [hanswer] at hcreated hgrows
      · exact ⟨r', rfl, Or.inl ⟨fun _ h => absurd h List.not_mem_nil, hcreated⟩⟩
      · exact ⟨r', rfl, Or.inl ⟨hgrows queued rfl, hcreated⟩⟩

/-- When the queue has run dry, nothing is due. -/
theorem executeAll_tracks (hpf : pf.Lawful) {effects : PeerEffects} {r : RaftConsensus}
    {queue : List ConsensusEffect}
    (h : Batch.Due pf { effects, consensus := .raft r, queue, errors := [] }) :
    ∃ r', (effects.executeAll pf (.raft r) queue).2.1 = .raft r' ∧
      Tracks pf (effects.executeAll pf (.raft r) queue).1.blockKeeper r' [] := by
  obtain ⟨b, ⟨r', hconsensus, hdue⟩, hempty, heq⟩ := executeAll_preserves (Batch.Due.turn hpf) h
  rw [heq]
  refine ⟨r', hconsensus, ?_⟩
  rw [hempty] at hdue
  rcases hdue with ⟨-, htracks⟩ | ⟨⟨_, hqueue⟩, -⟩
  · exact htracks
  · cases hqueue

end PeerEffects

-- ============================================================================
-- Events
-- ============================================================================

namespace Peer

/-- The block store of a Raft peer follows its log. -/
def Tracked (pf : Platform) (p : Peer) : Prop :=
  ∃ r, p.consensus = .raft r ∧ Tracks pf p.effects.blockKeeper r []

variable {pf : Platform} {p : Peer} {r : RaftConsensus}

/-- The answer of a handler that has appended blocks that are staged. -/
theorem answer_tracked (hpf : pf.Lawful) (p : Peer)
    (out : RaftConsensus × Except String (List ConsensusEffect))
    (hplain : ∀ queue, out.2 = .ok queue → ∀ effect ∈ queue, effect.isPlain = true)
    (h : Tracks pf p.effects.blockKeeper out.1 (commitHashes (out.2.toOption.getD []))) :
    (p.answer pf (ConsensusEngine.ofRaft out)).1.Tracked pf := by
  obtain ⟨r', e | queue⟩ := out
  · exact ⟨r', rfl, h⟩
  · obtain ⟨heffects, hconsensus⟩ := answer_ok pf p (.raft r') queue
    obtain ⟨r'', hraft, htracks⟩ := PeerEffects.executeAll_tracks hpf
      ⟨r', rfl, Or.inl ⟨hplain queue rfl, h⟩⟩
    refine ⟨r'', hconsensus.trans hraft, ?_⟩
    rw [ConsensusEngine.ofRaft, heffects]
    exact htracks

/-- Nothing is asked for. -/
theorem answer_nil_tracked (hpf : pf.Lawful) (p : Peer) (h : Tracks pf p.effects.blockKeeper r []) :
    (p.answer pf (.raft r, .ok [])).1.Tracked pf := by
  refine answer_tracked hpf p (r, .ok []) ?_ h
  intro queue heq effect hmem
  cases heq
  exact absurd hmem List.not_mem_nil

theorem processClientTransaction_tracked (hpf : pf.Lawful) (hconsensus : p.consensus = .raft r)
    (h : Tracks pf p.effects.blockKeeper r []) (clientTx : SignedTransaction) :
    (p.processClientTransaction pf clientTx).1.Tracked pf := by
  unfold processClientTransaction
  split
  · exact ⟨r, hconsensus, h⟩
  rw [hconsensus]
  simp only [ConsensusEngine.onClientTransaction]
  rcases hanswer : r.onClientTransaction clientTx with e | queue
  · exact ⟨r, rfl, h⟩
  · obtain ⟨heffects, hsame⟩ := answer_ok pf p (.raft r) queue
    have hdue : PeerEffects.Batch.Due pf
        { effects := p.effects, consensus := .raft r, queue, errors := [] } := by
      refine ⟨r, rfl, ?_⟩
      unfold RaftConsensus.onClientTransaction RaftConsensus.forwardClientTransaction at hanswer
      split at hanswer
      · split at hanswer
        · cases hanswer
        · cases hanswer
          exact Or.inr ⟨⟨clientTx, rfl⟩, h⟩
      all_goals
        split at hanswer
        · cases hanswer
        · cases hanswer
          refine Or.inl ⟨?_, h⟩
          intro effect hmem
          rw [List.mem_singleton.mp hmem]
          rfl
    obtain ⟨r', hraft, htracks⟩ := PeerEffects.executeAll_tracks hpf hdue
    refine ⟨r', hsame.trans hraft, ?_⟩
    rw [heffects]
    exact htracks

theorem synchronizeTransaction_tracked (hpf : pf.Lawful) (hconsensus : p.consensus = .raft r)
    (h : Tracks pf p.effects.blockKeeper r []) (verifiedTx : VerifiedTransaction) :
    (p.synchronizeTransaction pf verifiedTx).1.Tracked pf := by
  unfold synchronizeTransaction
  split
  · exact ⟨r, hconsensus, h⟩
  obtain ⟨hstage, hstaged⟩ := PeerEffects.stageClientTransaction_tracks h verifiedTx.clientTx
  rcases hresult : p.effects.stageClientTransaction pf verifiedTx.clientTx with
    ⟨effects, e | _ | blockHash⟩
  all_goals rw [hresult] at hstage hstaged
  · exact ⟨r, hconsensus, hstage⟩
  · exact ⟨r, hconsensus, hstage⟩
  · have hcreated := hstage.blockCreated hpf (hstaged blockHash rfl)
    simp only [hconsensus, ConsensusEngine.onBlockCreated]
    refine answer_tracked hpf { p with effects } _ ?_ hcreated
    rcases r.onBlockCreated_grows pf blockHash with hgrows | ⟨-, hgrows⟩
    · exact hgrows.plain
    · exact hgrows.plain

/-- A proposal may stage a block. -/
theorem processBlockProposal_tracked (hpf : pf.Lawful) (hconsensus : p.consensus = .raft r)
    (h : Tracks pf p.effects.blockKeeper r []) (blockHash : BlockHash) (blockFile : Bytes)
    (signature : Signature) (publicKey : VerifyingKey) (src : PeerId) :
    (p.processBlockProposal pf blockHash blockFile signature publicKey src).1.Tracked pf := by
  have hvalidated : Tracks pf
      (p.validateProposal pf blockHash blockFile signature publicKey).1.blockKeeper r [] := by
    unfold validateProposal
    split
    · rename_i block _
      unfold PeerEffects.stageExternalBlock
      split
      · exact h
      have hkeeper : (p.effects.applyBlockTransactions block).blockKeeper =
          p.effects.blockKeeper := rfl
      have hadded : Tracks pf (p.effects.blockKeeper.addExternalBlock pf block).1 r [] := by
        rcases BlockKeeper.addExternalBlock_cases pf p.effects.blockKeeper block with
          ⟨_, -, heq⟩ | ⟨-, -, hstages⟩
        · rw [heq]
          exact h
        · exact ⟨h.raft, h.keeper.stages hstages⟩
      simp only [hkeeper]
      split
      all_goals
        rename_i heq
        rw [heq] at hadded
        exact hadded
    · exact h
  unfold processBlockProposal
  split
  · exact ⟨r, hconsensus, h⟩
  split
  · rename_i effects _ heq
    rw [heq] at hvalidated
    exact ⟨r, hconsensus, hvalidated⟩
  · rename_i effects _ heq
    rw [heq] at hvalidated
    simp only [hconsensus, ConsensusEngine.onBlockProposalValidated]
    exact answer_nil_tracked hpf { p with effects } hvalidated

theorem processBlockVote_tracked (hpf : pf.Lawful) (hconsensus : p.consensus = .raft r)
    (h : Tracks pf p.effects.blockKeeper r []) (blockHash : BlockHash) (src : PeerId)
    (approve : Bool) : (p.processBlockVote pf blockHash src approve).1.Tracked pf := by
  unfold processBlockVote
  split
  · exact ⟨r, hconsensus, h⟩
  split
  · exact ⟨r, hconsensus, h⟩
  · simp only [hconsensus, ConsensusEngine.onBlockVote]
    exact answer_nil_tracked hpf p h

end Peer

/-- An accepted request fits the block store: after the rollbacks every block it brings
    is staged already or passes `block_can_be_added` in turn, and no block stands
    twice in the merged log above the commit index. -/
structure Accepted.Fits (pf : Platform) (k : BlockKeeper) (r : RaftConsensus) (a : Accepted) :
    Prop where
  linked : (k.rolledBack pf a.discarded).links a.blocks a.toStage = true
  distinct : (blockHashes (a.log.drop r.commitIndex)).Nodup

instance (pf : Platform) (k : BlockKeeper) (r : RaftConsensus) (a : Accepted) :
    Decidable (a.Fits pf k r) :=
  decidable_of_iff
    ((k.rolledBack pf a.discarded).links a.blocks a.toStage = true ∧
      (blockHashes (a.log.drop r.commitIndex)).Nodup)
    ⟨fun h => ⟨h.1, h.2⟩, fun h => ⟨h.linked, h.distinct⟩⟩

/-- What an accepted request does to the log, in terms of the blocks ahead. -/
theorem RaftConsensus.acceptance_splits {pf : Platform} {r : RaftConsensus}
    {request : AppendEntriesRequest} {draw : Nat} {a : Accepted}
    (hlog : Contiguous 0 r.log) (hwithin : r.commitIndex ≤ r.log.length)
    (h : r.acceptance pf request draw = some a) :
    Advance r.log r.commitIndex a.log a.commitIndex ∧
      a.toCommit = blockHashes ((a.log.take a.commitIndex).drop r.commitIndex) ∧
      ∃ kept new, blockHashes (r.log.drop r.commitIndex) = kept ++ a.discarded ∧
        blockHashes (a.log.drop r.commitIndex) = kept ++ new ∧
        ∀ hash ∈ new, hash ∈ a.toStage.map RaftLogEntry.blockHash := by
  obtain ⟨entries, blocks, log, discarded, -, hprev, hcontiguous, hmerge, rfl⟩ := acceptance_some h
  have hentries := entriesAreContiguousAfter_iff.mp hcontiguous
  have hadvance : Advance r.log r.commitIndex log
      (max r.commitIndex (min request.leaderCommit (lastIndexOf log))) :=
    Advance.of_mergeEntries hlog hentries hprev hmerge
  obtain ⟨n, new, hn, hle, rfl, rfl, hnew⟩ := mergeEntries_splits hlog hentries
    (hlog.le_length_of_termOf hprev) hwithin hmerge
  have hlength : (r.log.take n).length = n := by
    rw [List.length_take]
    omega
  refine ⟨hadvance, ?_, blockHashes ((r.log.take n).drop r.commitIndex), blockHashes new,
    ?_, ?_, ?_⟩
  · exact congrArg blockHashes (hadvance.contiguous.entriesBetween _ _)
  · show _ = _ ++ blockHashes (r.log.drop n)
    rw [← blockHashes_append, ← List.drop_append_of_le_length (by omega), List.take_append_drop]
  · show blockHashes ((r.log.take n ++ new).drop r.commitIndex) = _
    rw [List.drop_append_of_le_length (by omega), blockHashes_append]
  · intro hash hmem
    obtain ⟨entry, hentry, rfl⟩ := List.mem_map.mp hmem
    obtain ⟨hentry, hblock⟩ := List.mem_filter.mp hentry
    obtain ⟨hrequest, habove⟩ := hnew entry hentry
    refine List.mem_map_of_mem (List.mem_filter.mpr ⟨hrequest, ?_⟩)
    rw [hblock, Bool.and_true, decide_eq_true_eq]
    omega

namespace Peer

variable {pf : Platform} {p : Peer} {r : RaftConsensus}

/-- A request that fits is carried out without an error: what it commits is kept by the
    rollbacks or staged by it. -/
theorem clean_of_follows {k : BlockKeeper} {a : Accepted} {done kept new above : List BlockHash}
    (h : BlockKeeper.Follows pf k done [] (kept ++ a.discarded))
    (hlinked : (k.rolledBack pf a.discarded).links a.blocks a.toStage = true)
    (hnew : ∀ hash ∈ new, hash ∈ a.toStage.map RaftLogEntry.blockHash)
    (hsplit : kept ++ new = a.toCommit ++ above) (hdistinct : (kept ++ new).Nodup) :
    Clean pf k a := by
  refine ⟨hlinked, ?_, ?_, ?_⟩
  · rw [hsplit] at hdistinct
    exact (List.nodup_append.mp hdistinct).1
  · intro hash hmem
    have hmem' : hash ∈ kept ++ new := by
      rw [hsplit]
      exact List.mem_append_left _ hmem
    exact (List.mem_append.mp hmem').imp (fun hkept => h.mem_rolledBack hkept) (hnew hash)
  · obtain ⟨hashes, hdisk, -⟩ := h.disk
    exact fun j _ => hdisk.writable _

/-- A request that is accepted and fits. -/
theorem accepted_tracked (p : Peer) (h : Tracks pf p.effects.blockKeeper r [])
    {request : AppendEntriesRequest} {draw : Nat} {a : Accepted}
    (haccepted : r.acceptance pf request draw = some a) (hfits : a.Fits pf p.effects.blockKeeper r)
    {r' : RaftConsensus} (hstored : r'.Stored pf) (hsupplied : a.Supplied pf r')
    (hlog : r'.log = a.log) (hcommit : r'.commitIndex = a.commitIndex) (term matchIndex : Nat) :
    (p.answer pf (.raft r', .ok (a.effects ++
      [.send request.from (.raftAppendEntriesResponse term true matchIndex)]))).1.Tracked pf := by
  obtain ⟨hadvance, htoCommit, kept, new, hahead, hahead', hnew⟩ :=
    RaftConsensus.acceptance_splits h.raft.contiguous h.raft.within haccepted
  obtain ⟨hlinked, hdistinct⟩ := hfits
  have hfollows := h.keeper
  rw [hahead] at hfollows
  rw [hahead'] at hdistinct
  -- What is ahead is what is committed now and what is above.
  have hsplit : kept ++ new = a.toCommit ++ blockHashes (a.log.drop a.commitIndex) := by
    rw [htoCommit, ← blockHashes_append, ← hadvance.drop_eq h.raft.within, hahead']
  obtain ⟨⟨pendingBlocks, hraft⟩, -, -, hexecuted⟩ :=
    PeerEffects.accepted_batch hsupplied p.effects request.from term matchIndex
  obtain ⟨k, hstages, hcommits⟩ :=
    hexecuted (clean_of_follows hfollows hlinked hnew hsplit hdistinct)
  have hreplaced := hfollows.replace hstages
    (fun hash b hlookup => (hsupplied.payloads hash b hlookup).1) hnew hdistinct
  rw [hsplit] at hreplaced
  have hfinal := hreplaced.advance.commitsAll hcommits
  obtain ⟨heffects, hconsensus⟩ := answer_ok pf p (.raft r') (a.effects ++
    [.send request.from (.raftAppendEntriesResponse term true matchIndex)])
  refine ⟨{ r' with pendingBlocks }, hconsensus.trans hraft, hstored.congr ⟨rfl, rfl, rfl⟩, ?_⟩
  rw [heffects]
  show BlockKeeper.Follows pf _ (blockHashes (r'.log.take r'.commitIndex)) []
    (blockHashes (r'.log.drop r'.commitIndex))
  rw [hlog, hcommit, hadvance.take_append h.raft.within, blockHashes_append, ← htoCommit]
  exact hfinal

theorem handleAppendEntries_tracked (hpf : pf.Lawful) (p : Peer)
    (h : Tracks pf p.effects.blockKeeper r []) (request : AppendEntriesRequest) (draw : Nat)
    (hfits : ∀ a, r.acceptance pf request draw = some a → a.Fits pf p.effects.blockKeeper r) :
    (p.answer pf (ConsensusEngine.ofRaft (r.handleAppendEntries pf request draw))).1.Tracked
      pf := by
  have hstored : (r.handleAppendEntries pf request draw).1.Stored pf :=
    h.raft.handle hpf (.receive request.from (.raftAppendEntries request.term request.leaderId
      request.prevLogIndex request.prevLogTerm request.entries request.leaderCommit) request.now
      draw)
  have hanswers := r.handleAppendEntries_answers pf request draw
  cases haccepted : r.acceptance pf request draw with
  | none =>
      have hsame := RaftConsensus.handleAppendEntries_sameLog h.raft.contiguous h.raft.saves
        haccepted
      rw [haccepted] at hanswers
      rcases hresult : r.handleAppendEntries pf request draw with ⟨r', result⟩
      rw [hresult] at hanswers hsame
      rcases hanswers with ⟨e, rfl⟩ | ⟨term, matchIndex, rfl⟩
      · exact ⟨r', rfl, h.congr hsame⟩
      · refine answer_tracked hpf p _ ?_ (h.congr hsame)
        intro queue heq effect hmem
        cases heq
        rw [List.mem_singleton.mp hmem]
        rfl
  | some a =>
      rw [haccepted] at hanswers
      rcases hresult : r.handleAppendEntries pf request draw with ⟨r', result⟩
      rw [hresult] at hanswers hstored
      obtain ⟨⟨term, matchIndex, rfl⟩, hlog, hcommit, hpending, -⟩ := hanswers
      exact accepted_tracked p h haccepted (hfits a haccepted) hstored
        (RaftConsensus.acceptance_supplied haccepted hpending) hlog hcommit term matchIndex

-- ============================================================================
-- The life of a peer
-- ============================================================================

/-- What a Raft peer meets: a message, a tick, a change of the peers its network knows,
    or that it is stopped and built again. -/
inductive LifeEvent where
  | message (message : Message) (now : Instant) (draw : Nat)
  | tick (now : Instant)
  | discovered (knownPeers : List PeerId)
  | rebuilt (network : Network) (mempoolSize : Nat) (walk : HashMap.Walk BlockHash BlockFile)
      (signingKey : SigningKey) (now : Instant) (draw : Nat)

/-- A Raft peer is built again on its block directory and its log file. -/
def rebuild (pf : Platform) (p : Peer) (network : Network) (mempoolSize : Nat)
    (walk : HashMap.Walk BlockHash BlockFile) (signingKey : SigningKey) (now : Instant)
    (draw : Nat) : Option Peer :=
  match p.consensus with
  | .raft r =>
    match r.raftLogStore with
    | .file store =>
      (startRaft pf p.id network p.effects.blockKeeper.dir store mempoolSize walk signingKey now
        draw).toOption
    | .inMemory _ => none
  | .voting .. => none

def live (pf : Platform) (p : Peer) : LifeEvent → Option Peer
  | .message message now draw => some (p.handle pf (.message message now draw))
  | .tick now => some (p.handle pf (.tick now))
  | .discovered knownPeers => some (p.handle pf (.discovered knownPeers))
  | .rebuilt network mempoolSize walk signingKey now draw =>
    p.rebuild pf network mempoolSize walk signingKey now draw

/-- A life all of whose events meet `ok`. -/
def Life (pf : Platform) (ok : Peer → LifeEvent → Prop) : Peer → Peer → Prop :=
  Relation.ReflTransGen fun p p' => ∃ event, ok p event ∧ p.live pf event = some p'

/-- The peer can keep up with its log: a request that it accepts fits its block store,
    and it is rebuilt only while no block is above the commit index, and before its
    block numbers have six digits. -/
def KeepsUp (pf : Platform) (p : Peer) : LifeEvent → Prop
  | .message message now draw =>
    match message.body with
    | .raftAppendEntries term leaderId prevLogIndex prevLogTerm entries leaderCommit =>
      ∀ r a, p.consensus = .raft r →
        r.acceptance pf
          { term, leaderId, prevLogIndex, prevLogTerm, entries, leaderCommit
            «from» := message.from
            now } draw = some a →
        a.Fits pf p.effects.blockKeeper r
    | _ => True
  | .rebuilt .. => ∀ r, p.consensus = .raft r → r.ensureNoUncommittedBlock = .ok () ∧
      p.effects.blockKeeper.blockStorageState.blockHeight ≤ 99999
  | .tick _ | .discovered _ => True

theorem handleMessage_tracked (hpf : pf.Lawful) (h : p.Tracked pf) (message : Message)
    (now : Instant) (draw : Nat) (hok : p.KeepsUp pf (.message message now draw)) :
    (p.handle pf (.message message now draw)).Tracked pf := by
  obtain ⟨r, hconsensus, htracks⟩ := h
  obtain ⟨src, dst, body⟩ := message
  -- A message for consensus other than `AppendEntries`.
  have hother : (∀ term leaderId prevLogIndex prevLogTerm entries leaderCommit,
      body ≠ .raftAppendEntries term leaderId prevLogIndex prevLogTerm entries leaderCommit) →
      (p.answer pf (p.consensus.onMessage pf src body now draw)).1.Tracked pf := by
    intro hbody
    have hgrows := r.onMessage_grows pf src now draw hbody
    rw [hconsensus]
    refine answer_tracked hpf p (r.onMessage pf src body now draw) hgrows.plain ?_
    exact htracks.grows_nil hgrows
      (RaftConsensus.handle_recorded pf htracks.raft.contiguous (.receive src body now draw))
      (htracks.raft.handle hpf (.receive src body now draw))
  cases body with
  | clientTransaction clientTx =>
      exact processClientTransaction_tracked hpf hconsensus htracks clientTx
  | synchronization verifiedTx =>
      exact synchronizeTransaction_tracked hpf hconsensus htracks verifiedTx
  | blockProposal blockHash blockFile signature publicKey =>
      exact processBlockProposal_tracked hpf hconsensus htracks blockHash blockFile signature
        publicKey src
  | blockApproved blockHash =>
      exact processBlockVote_tracked hpf hconsensus htracks blockHash src true
  | blockReject blockHash =>
      exact processBlockVote_tracked hpf hconsensus htracks blockHash src false
  | raftAppendEntries term leaderId prevLogIndex prevLogTerm entries leaderCommit =>
      have htracked := handleAppendEntries_tracked hpf p htracks
        { term, leaderId, prevLogIndex, prevLogTerm, entries, leaderCommit, «from» := src, now }
        draw (hok r · hconsensus)
      show (p.answer pf (p.consensus.onMessage pf src _ now draw)).1.Tracked pf
      rw [hconsensus]
      exact htracked
  | raftRequestVote | raftRequestVoteResponse | raftAppendEntriesResponse =>
      refine hother ?_
      rintro _ _ _ _ _ _ ⟨⟩

theorem handleTick_tracked (hpf : pf.Lawful) (h : p.Tracked pf) (now : Instant) :
    (p.handle pf (.tick now)).Tracked pf := by
  obtain ⟨r, hconsensus, htracks⟩ := h
  have hgrows := r.onTick_grows pf now p.effects.knownPeers
  show (p.answer pf (p.consensus.onTick pf now p.effects.knownPeers)).1.Tracked pf
  rw [hconsensus]
  refine answer_tracked hpf p (r.onTick pf now p.effects.knownPeers) hgrows.plain ?_
  exact htracks.grows_nil hgrows
    (RaftConsensus.handle_recorded pf htracks.raft.contiguous (.tick now p.effects.knownPeers))
    (htracks.raft.handle hpf (.tick now p.effects.knownPeers))

/-- A peer that is rebuilt with no block above the commit index loses nothing. -/
theorem rebuild_tracked (hpf : pf.Lawful) (h : p.Tracked pf) {network : Network}
    {mempoolSize : Nat} {walk : HashMap.Walk BlockHash BlockFile} {signingKey : SigningKey}
    {now : Instant} {draw : Nat}
    (hok : p.KeepsUp pf (.rebuilt network mempoolSize walk signingKey now draw)) {p' : Peer}
    (hrebuilt : p.rebuild pf network mempoolSize walk signingKey now draw = some p') :
    p'.Tracked pf := by
  obtain ⟨r, hconsensus, htracks⟩ := h
  obtain ⟨hnone, hfew⟩ := hok r hconsensus
  obtain ⟨store, hfile⟩ := htracks.raft.file
  have hnothing := (RaftConsensus.ensureNoUncommittedBlock_iff htracks.raft.contiguous).mp hnone
  have hfollows := htracks.keeper
  rw [hnothing] at hfollows
  have hheight : (blockHashes (r.log.take r.commitIndex)).length ≤ 99999 := by
    obtain ⟨hashes, hdisk, hdone⟩ := hfollows.disk
    rw [List.append_nil] at hdone
    rw [← hdone, ← hdisk.height]
    exact hfew
  have hreopened := hfollows.reopened hpf hheight mempoolSize walk
  obtain ⟨r', hnew, hstore, hlog, hcommit⟩ := htracks.raft.mirrors.rebuilt
    htracks.raft.storeSound p.id
    (BlockKeeper.new pf p.effects.blockKeeper.dir mempoolSize walk).blockStorageState.blockHeight
    now draw
  rw [hfile] at hnew
  simp only [rebuild, hconsensus, hfile, startRaft, ConsensusEngine.newRaftWithStorage, hnew,
    Except.toOption, Option.some.injEq] at hrebuilt
  subst hrebuilt
  refine ⟨r', rfl, htracks.raft.congr ⟨hlog, hcommit, hstore⟩, ?_⟩
  rw [hlog, hcommit, hnothing]
  exact hreopened

theorem live_tracked (hpf : pf.Lawful) (h : p.Tracked pf) {event : LifeEvent} {p' : Peer}
    (hok : p.KeepsUp pf event) (hlive : p.live pf event = some p') : p'.Tracked pf := by
  cases event with
  | message message now draw =>
      cases hlive
      exact handleMessage_tracked hpf h message now draw hok
  | tick now =>
      cases hlive
      exact handleTick_tracked hpf h now
  | discovered knownPeers =>
      cases hlive
      exact h
  | rebuilt network mempoolSize walk signingKey now draw => exact rebuild_tracked hpf h hok hlive

theorem startRaft_tracked {id : PeerId} {network : Network} {path peerDir : String}
    {mempoolSize : Nat} {walk : HashMap.Walk BlockHash BlockFile} {signingKey : SigningKey}
    {now : Instant} {draw : Nat}
    (hstart : startRaft pf id network (.empty path) (.empty peerDir) mempoolSize walk signingKey now
      draw = .ok p) : p.Tracked pf := by
  cases hstart
  refine ⟨_, rfl, ⟨Contiguous.nil 0, Nat.le_refl 0, Or.inl ⟨⟨rfl, rfl⟩, rfl, rfl⟩, ⟨_, rfl⟩,
    fun _ => rfl, rfl⟩, ⟨[], BlockKeeper.new_onDisk pf path mempoolSize walk, rfl⟩, ?_,
    List.nodup_nil, ?_⟩
  · exact fun hash hmem => absurd hmem List.not_mem_nil
  · intro hash b hlookup
    cases hlookup

/-- The blocks of the committed log of a Raft peer, in log order. -/
def committedBlocks (p : Peer) : List BlockHash :=
  match p.consensus with
  | .raft r => blockHashes (r.log.take r.commitIndex)
  | .voting .. => []

/-- The block files are the committed blocks: their number is the height, and they have
    the same hashes in the same order. -/
def RefinesLog (pf : Platform) (p : Peer) : Prop :=
  p.effects.blockKeeper.blockStorageState.blockHeight = p.committedBlocks.length ∧
    ∀ i (hi : i < p.committedBlocks.length), ∃ b,
      BlockFile.readFromDiskByIndex pf p.effects.blockKeeper.dir (i + 1) = .ok b ∧
        b.hash = p.committedBlocks.get ⟨i, hi⟩

theorem Tracked.refinesLog (hpf : pf.Lawful) (h : p.Tracked pf) : p.RefinesLog pf := by
  obtain ⟨r, hconsensus, htracks⟩ := h
  obtain ⟨hashes, hdisk, hdone⟩ := htracks.keeper.disk
  have hcommitted : p.committedBlocks = hashes := by
    rw [committedBlocks, hconsensus]
    exact hdone.symm.trans (List.append_nil hashes)
  rw [RefinesLog, hcommitted]
  exact ⟨hdisk.height, fun i hi => hdisk.read hpf hi⟩

/-- The block files of a peer that can keep up are, after every event of its life, the
    blocks of its committed log. -/
theorem chain_refines_log (hpf : pf.Lawful) {id : PeerId} {network : Network}
    {path peerDir : String} {mempoolSize : Nat} {walk : HashMap.Walk BlockHash BlockFile}
    {signingKey : SigningKey} {now : Instant} {draw : Nat} {p' : Peer}
    (hstart : startRaft pf id network (.empty path) (.empty peerDir) mempoolSize walk signingKey now
      draw = .ok p) (hlife : Life pf (KeepsUp pf) p p') : p'.RefinesLog pf := by
  apply Tracked.refinesLog hpf
  induction hlife with
  | refl => exact startRaft_tracked hstart
  | tail _ hstep ih =>
      obtain ⟨event, hok, hlive⟩ := hstep
      exact live_tracked hpf ih hok hlive

end Peer

-- ----------------------------------------------------------------------------
-- Two peers
-- ----------------------------------------------------------------------------

namespace Reference

/-- A new Raft peer that packs every transaction at once. -/
def raftPeer (id : PeerId) (knownPeers : List PeerId) : Peer :=
  .new platform id { knownPeers, calls := [] }
    (.raft (.newWithLog id [] 0 (.file (.empty "data")) 0 0))
    (.new platform (.empty "data") 1 (.listed _ _)) [UInt8.ofNat id]

theorem raftPeer_started (id : PeerId) (knownPeers : List PeerId) :
    Peer.startRaft platform id { knownPeers, calls := [] } (.empty "data") (.empty "data") 1
      (.listed _ _) [UInt8.ofNat id] 0 0 = .ok (raftPeer id knownPeers) := rfl

/-- An entry as leader 1 sends it. -/
def replicated (entry : RaftLogEntry) (blockFile : Bytes) : RaftReplicatedBlock :=
  { entry, blockFile, signature := platform.sign [1] blockFile,
    publicKey := platform.verifyingKey [1] }

/-- The request with the no-op of leader 1 and the block it packs of the deposit. -/
def depositRequest (leaderCommit : Nat) : AppendEntriesRequest :=
  { term := 1
    leaderId := 1
    prevLogIndex := 0
    prevLogTerm := 0
    entries := [replicated (.noop 1 1) [],
      replicated { term := 1, index := 2, blockHash := (firstBlock deposit).hash }
        (platform.encodeBlock (firstBlock deposit))]
    leaderCommit
    «from» := 1
    now := 0 }

/-- A follower that has ticked once, so that it knows its leader. -/
def listeningFollower : Peer := (raftPeer 2 [1]).run platform [.tick 0]

/-- It is sent the block as committed, and is rebuilt. -/
def depositFollower : Peer :=
  ((listeningFollower.run platform [.message ((depositRequest 2).message 2) 0 0]).rebuild platform
    { knownPeers := [1], calls := [] } 1 (.listed _ _) [2] 0 0).getD (raftPeer 2 [1])

theorem depositRequest_fits :
    listeningFollower.KeepsUp platform (.message ((depositRequest 2).message 2) 0 0) := by
  intro r a hconsensus haccepted
  change r.acceptance platform (depositRequest 2) 0 = some a at haccepted
  have hfits : (match listeningFollower.consensus with
      | .raft r => (r.acceptance platform (depositRequest 2) 0).all fun a =>
          decide (a.Fits platform listeningFollower.effects.blockKeeper r)
      | .voting .. => true) = true := by
    decide +kernel
  rw [hconsensus] at hfits
  dsimp only at hfits
  rw [haccepted] at hfits
  exact of_decide_eq_true hfits

theorem depositFollower_life :
    Peer.Life platform (Peer.KeepsUp platform) (raftPeer 2 [1]) depositFollower := by
  have hrebuilt : ((listeningFollower.run platform
      [.message ((depositRequest 2).message 2) 0 0]).rebuild platform
      { knownPeers := [1], calls := [] } 1 (.listed _ _) [2] 0 0).isSome = true := by
    decide +kernel
  obtain ⟨rebuilt, hrebuilt⟩ := Option.isSome_iff_exists.mp hrebuilt
  refine ((Relation.ReflTransGen.single ⟨.tick 0, trivial, rfl⟩).tail
    ⟨.message ((depositRequest 2).message 2) 0 0, depositRequest_fits, rfl⟩).tail
    ⟨.rebuilt { knownPeers := [1], calls := [] } 1 (.listed _ _) [2] 0 0, ?_, ?_⟩
  · intro r hconsensus
    have hnone : (match (listeningFollower.run platform
        [.message ((depositRequest 2).message 2) 0 0]).consensus with
        | .raft r => r.ensureNoUncommittedBlock.isOk
        | .voting .. => true) = true := by
      decide +kernel
    refine ⟨?_, by decide +kernel⟩
    rw [show (listeningFollower.run platform
      [.message ((depositRequest 2).message 2) 0 0]).consensus = .raft r from hconsensus] at hnone
    dsimp only at hnone
    cases hensure : r.ensureNoUncommittedBlock with
    | ok _ => rfl
    | error e =>
        rw [hensure] at hnone
        cases hnone
  · rw [depositFollower, hrebuilt]
    exact hrebuilt

/-- Raft peers 1 and 2. -/
def raftPair : System where
  peers p := raftPeer p (if p = 1 then [2] else [1])

/-- Peer 1 is elected, packs a deposit, and sends the block to peer 2, which stages it
    and acknowledges it. -/
def replicatedPair : System :=
  raftPair.stepAll platform
    [.tick 2 0,
      .tick 1 20000,
      .deliver { «from» := 1, «to» := 2, body := .raftRequestVote 1 1 0 0 } 20000 0,
      .deliver { «from» := 2, «to» := 1, body := .raftRequestVoteResponse 1 true } 20000 0,
      .client 1 deposit 20000 0,
      .deliver ((depositRequest 0).message 2) 20000 0]

/-- Peer 2 is rebuilt. -/
def restartedPair : System where
  peers p :=
    if p = 2 then
      ((replicatedPair.peers 2).rebuild platform (replicatedPair.peers 2).effects.network 1
        (.listed _ _) [2] 20000 0).getD (replicatedPair.peers 2)
    else replicatedPair.peers p

/-- Peer 1 commits the block, and its next heartbeat says so. -/
def committedPair : System :=
  restartedPair.stepAll platform
    [.tick 2 20000,
      .deliver { «from» := 2, «to» := 1, body := .raftAppendEntriesResponse 1 true 2 } 20000 0,
      .tick 1 30000,
      .deliver { «from» := 1, «to» := 2, body := .raftAppendEntries 1 1 2 1 [] 2 } 30000 0]

end Reference

namespace Peer

open Reference

theorem chain_refines_log_follower :
    Life platform (KeepsUp platform) (raftPeer 2 [1]) depositFollower ∧
      depositFollower.committedBlocks = [(firstBlock deposit).hash] ∧
      depositFollower.RefinesLog platform :=
  ⟨depositFollower_life, by decide +kernel,
    chain_refines_log platform_lawful (raftPeer_started 2 [1]) depositFollower_life⟩

/-- A follower that is rebuilt while a block it acknowledged is staged has lost the block
    when the leader commits it. -/
theorem restart_loses_staged_block :
    (∀ p, ∃ knownPeers, startRaft platform p { knownPeers, calls := [] } (.empty "data")
        (.empty "data") 1 (.listed _ _) [UInt8.ofNat p] 0 0 = .ok (raftPair.peers p)) ∧
      System.Run platform {1, 2} (fun _ _ => True) raftPair replicatedPair ∧
      (replicatedPair.peers 2).rebuild platform (replicatedPair.peers 2).effects.network 1
        (.listed _ _) [2] 20000 0 = some (restartedPair.peers 2) ∧
      restartedPair.peers 1 = replicatedPair.peers 1 ∧
      System.Run platform {1, 2} (fun _ _ => True) restartedPair committedPair ∧
      (committedPair.peers 2).committedBlocks = [(firstBlock deposit).hash] ∧
      (committedPair.peers 2).effects.blockKeeper.blockStorageState.blockHeight = 0 ∧
      ¬ (committedPair.peers 2).RefinesLog platform := by
  have hcommitted : (committedPair.peers 2).committedBlocks = [(firstBlock deposit).hash] := by
    decide +kernel
  have hheight : (committedPair.peers 2).effects.blockKeeper.blockStorageState.blockHeight = 0 := by
    decide +kernel
  refine ⟨fun p => ⟨_, raftPeer_started p _⟩, System.run_stepAll (by decide +kernel), ?_, ?_,
    System.run_stepAll (by decide +kernel), hcommitted, hheight, ?_⟩
  · have hrebuilt : ((replicatedPair.peers 2).rebuild platform
        (replicatedPair.peers 2).effects.network 1 (.listed _ _) [2] 20000 0).isSome = true := by
      decide +kernel
    obtain ⟨rebuilt, hrebuilt⟩ := Option.isSome_iff_exists.mp hrebuilt
    have hself : restartedPair.peers 2 = ((replicatedPair.peers 2).rebuild platform
        (replicatedPair.peers 2).effects.network 1 (.listed _ _) [2] 20000 0).getD
          (replicatedPair.peers 2) := by
      simp only [restartedPair, if_pos]
    rw [hself, hrebuilt, Option.getD_some]
  · have hne : ¬ (1 : PeerId) = 2 := by decide
    simp only [restartedPair, if_neg hne]
  · rintro ⟨hlength, -⟩
    rw [hheight, hcommitted] at hlength
    cases hlength

end Peer

end Rustchain
