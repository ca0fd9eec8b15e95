/-
  Rustchain.Peer.Acknowledge

  What a Raft peer does with an `AppendEntries` request it accepts: it rolls
  back, stages, commits and acknowledges, in that order, whatever fails on the
  way.  That nothing fails is a condition on the peer before the request
  (`Clean`).
-/

import Rustchain.Consensus.Raft.Accept
import Rustchain.Peer.Basic
import Rustchain.Reference
import Rustchain.Storage.Sequences

namespace Rustchain

-- ============================================================================
-- The payloads of a request
-- ============================================================================

namespace RaftConsensus

/-- The blocks are found under their own hash, which is the hash of their contents. -/
def Payloads (pf : Platform) (blocks : HashMap BlockHash BlockFile) : Prop :=
  ∀ h b, blocks.lookup h = some b → b.hash = h ∧ b.verifyBlock pf = .ok ()

/-- A validated request brings a payload for each of its block entries. -/
theorem validateReplicatedEntries_payloads {pf : Platform} {replicated : List RaftReplicatedBlock}
    {entries : List RaftLogEntry} {blocks : HashMap BlockHash BlockFile}
    (h : validateReplicatedEntries pf replicated = .ok (entries, blocks)) :
    Payloads pf blocks ∧
      ∀ entry ∈ entries, entry.isNoop = false → entry.blockHash ∈ blocks := by
  induction replicated generalizing entries blocks with
  | nil =>
      cases h
      refine ⟨fun _ _ h => ?_, fun entry h => absurd h List.not_mem_nil⟩
      cases h
  | cons first rest ih =>
      obtain ⟨entries', blocks', hrest, rfl, hfirst⟩ := validateReplicatedEntries_cons h
      obtain ⟨hpayloads, hcovers⟩ := ih hrest
      rcases hfirst with ⟨hnoop, rfl⟩ | ⟨hnoop, block, hverify, rfl⟩
      · refine ⟨hpayloads, ?_⟩
        intro entry hmem hblock
        rcases List.mem_cons.mp hmem with rfl | hmem
        · rw [hnoop] at hblock
          cases hblock
        · exact hcovers entry hmem hblock
      · split
        · rename_i hknown
          refine ⟨hpayloads, ?_⟩
          intro entry hmem hblock
          rcases List.mem_cons.mp hmem with rfl | hmem
          · exact hknown
          · exact hcovers entry hmem hblock
        · obtain ⟨hhash, hcontents⟩ := BlockFile.verifyBlockVec_ok hverify
          refine ⟨?_, ?_⟩
          · exact HashMap.forall_insert hpayloads ⟨hhash, hcontents⟩
          · intro entry hmem hblock
            rcases List.mem_cons.mp hmem with rfl | hmem
            · exact (AList.mem_insert _).mpr (Or.inl rfl)
            · exact (AList.mem_insert _).mpr (Or.inr (hcovers entry hmem hblock))

/-- Payloads that are not there leave the pending blocks alone. -/
theorem keepPendingBlocks_lookup_of_none {pendingBlocks blocks : HashMap BlockHash BlockFile}
    {entries : List RaftLogEntry} {h : BlockHash} (hnone : blocks.lookup h = none) :
    (keepPendingBlocks pendingBlocks blocks entries).lookup h = pendingBlocks.lookup h := by
  induction entries generalizing pendingBlocks blocks with
  | nil => rfl
  | cons entry entries ih =>
      rw [keepPendingBlocks]
      split
      · rename_i block hblock
        split
        · exact ih hnone
        · have hne : h ≠ entry.blockHash := by
            rintro rfl
            rw [hnone] at hblock
            cases hblock
          rw [ih (by rw [HashMap.lookup_erase_ite, if_neg hne, hnone]),
            AList.lookup_insert_ne hne]
      · exact ih hnone

/-- The payload of every block entry becomes a pending block. -/
theorem keepPendingBlocks_lookup {pendingBlocks blocks : HashMap BlockHash BlockFile}
    {entries : List RaftLogEntry} {entry : RaftLogEntry} {block : BlockFile}
    (hmem : entry ∈ entries) (hnoop : entry.isNoop = false)
    (hblock : blocks.lookup entry.blockHash = some block) :
    (keepPendingBlocks pendingBlocks blocks entries).lookup entry.blockHash = some block := by
  induction entries generalizing pendingBlocks blocks with
  | nil => exact absurd hmem List.not_mem_nil
  | cons first entries ih =>
      rw [keepPendingBlocks]
      by_cases hsame : first.blockHash = entry.blockHash
      · -- The first entry with this hash takes the payload out of the request.
        rw [hsame, hblock]
        dsimp only
        split
        · rename_i hfirst
          rcases List.mem_cons.mp hmem with rfl | hmem
          · rw [hnoop] at hfirst
            cases hfirst
          · exact ih hmem hblock
        · rw [keepPendingBlocks_lookup_of_none (AList.lookup_erase _ _), AList.lookup_insert]
      · have hmem : entry ∈ entries := by
          rcases List.mem_cons.mp hmem with rfl | hmem
          · exact absurd rfl hsame
          · exact hmem
        split
        · split
          · exact ih hmem hblock
          · exact ih hmem (by rw [HashMap.lookup_erase_ite, if_neg (Ne.symm hsame), hblock])
        · exact ih hmem hblock

end RaftConsensus

-- ============================================================================
-- The batch of an accepted request
-- ============================================================================

namespace PeerEffects

section StageRaftEntries

variable (pf : Platform) {effects : PeerEffects} {r : RaftConsensus} {entry : RaftLogEntry}
  (entries : List RaftLogEntry)

/-- An entry whose block is staged is passed over. -/
theorem stageRaftEntries_staged (hnoop : entry.isNoop = false)
    (hstaged : entry.blockHash ∈ effects.blockKeeper.uncommitedBlocks) :
    effects.stageRaftEntries pf (.raft r) (entry :: entries) =
      effects.stageRaftEntries pf (.raft (r.takePendingBlock entry.blockHash).1) entries := by
  obtain ⟨block, hlookup⟩ := Option.isSome_iff_exists.mp (AList.lookup_isSome.mpr hstaged)
  simp [stageRaftEntries, hnoop, ConsensusEngine.takePendingRaftBlock,
    BlockKeeper.getUncommitedBlock, hlookup]

variable {block : BlockFile}

/-- A block that does not link ends the staging. -/
theorem stageRaftEntries_refused (hnoop : entry.isNoop = false)
    (hstaged : entry.blockHash ∉ effects.blockKeeper.uncommitedBlocks)
    (hpending : r.pendingBlocks.lookup entry.blockHash = some block)
    (hadd : effects.blockKeeper.blockCanBeAdded block = false) :
    ∃ e, effects.stageRaftEntries pf (.raft r) (entry :: entries) =
      (effects, .raft (r.takePendingBlock entry.blockHash).1, .error e) := by
  have hlookup := AList.lookup_eq_none.mpr hstaged
  simp [stageRaftEntries, hnoop, ConsensusEngine.takePendingRaftBlock,
    BlockKeeper.getUncommitedBlock, hlookup, RaftConsensus.takePendingBlock, hpending, hadd]

/-- A block that links is staged. -/
theorem stageRaftEntries_added (hnoop : entry.isNoop = false)
    (hstaged : entry.blockHash ∉ effects.blockKeeper.uncommitedBlocks)
    (hpending : r.pendingBlocks.lookup entry.blockHash = some block)
    (hverify : block.verifyBlock pf = .ok ())
    (hadd : effects.blockKeeper.blockCanBeAdded block = true) :
    effects.stageRaftEntries pf (.raft r) (entry :: entries) =
      { effects.applyBlockTransactions block with
        blockKeeper := (effects.blockKeeper.addExternalBlock pf block).1 }.stageRaftEntries pf
          (.raft (r.takePendingBlock entry.blockHash).1) entries := by
  have hlookup := AList.lookup_eq_none.mpr hstaged
  rcases BlockKeeper.addExternalBlock_cases pf effects.blockKeeper block with
    ⟨e, herror, -⟩ | ⟨-, hok, -⟩
  · rw [hverify] at herror
    cases herror
  rcases hresult : effects.blockKeeper.addExternalBlock pf block with ⟨k', result⟩
  rw [hresult] at hok
  cases hok
  have hkeeper : (effects.applyBlockTransactions block).blockKeeper = effects.blockKeeper := rfl
  simp [stageRaftEntries, hnoop, ConsensusEngine.takePendingRaftBlock,
    BlockKeeper.getUncommitedBlock, hlookup, RaftConsensus.takePendingBlock, hpending, hadd,
    hkeeper, hresult]

end StageRaftEntries

/-- What is to be staged is staged already or pending with its payload. -/
def Provided (k : BlockKeeper) (r : RaftConsensus) (blocks : HashMap BlockHash BlockFile)
    (entries : List RaftLogEntry) : Prop :=
  ∀ entry ∈ entries, entry.blockHash ∈ k.uncommitedBlocks ∨
    ∃ block, r.pendingBlocks.lookup entry.blockHash = some block ∧
      blocks.lookup entry.blockHash = some block

/-- Taking the payload of a block that is staged then leaves the others provided for. -/
theorem Provided.tail {k : BlockKeeper} (k' : BlockKeeper) {r : RaftConsensus}
    {blocks : HashMap BlockHash BlockFile} {entry : RaftLogEntry} {entries : List RaftLogEntry}
    (h : Provided k r blocks (entry :: entries))
    (hkept : ∀ hash ∈ k.uncommitedBlocks, hash ∈ k'.uncommitedBlocks)
    (hstaged : entry.blockHash ∈ k'.uncommitedBlocks) :
    Provided k' (r.takePendingBlock entry.blockHash).1 blocks entries := by
  intro other hmem
  by_cases hsame : other.blockHash = entry.blockHash
  · exact Or.inl (hsame ▸ hstaged)
  · rcases h other (List.mem_cons_of_mem entry hmem) with h | ⟨block, hlookup, hblock⟩
    · exact Or.inl (hkept _ h)
    · refine Or.inr ⟨block, ?_, hblock⟩
      rw [RaftConsensus.takePendingBlock, HashMap.lookup_erase_ite, if_neg hsame, hlookup]

/-- Staging the entries of a request: it succeeds exactly when the blocks link, and
    makes no network call. -/
theorem stageRaftEntries_links {pf : Platform} {blocks : HashMap BlockHash BlockFile}
    (hpayloads : RaftConsensus.Payloads pf blocks) {entries : List RaftLogEntry}
    (hnoop : ∀ entry ∈ entries, entry.isNoop = false) (effects : PeerEffects) (r : RaftConsensus)
    (hprovided : Provided effects.blockKeeper r blocks entries) :
    ∃ effects' pendingBlocks result,
      effects.stageRaftEntries pf (.raft r) entries =
        (effects', .raft { r with pendingBlocks }, result) ∧
      effects'.network = effects.network ∧
      (effects.blockKeeper.links blocks entries = false → ∃ e, result = .error e) ∧
      (effects.blockKeeper.links blocks entries = true → result = .ok () ∧
        BlockKeeper.StagesAll effects.blockKeeper effects'.blockKeeper blocks entries) := by
  induction entries generalizing effects r with
  | nil =>
      refine ⟨effects, r.pendingBlocks, .ok (), rfl, rfl, fun h => ?_, fun _ => ⟨rfl, .nil _ _⟩⟩
      cases h
  | cons entry entries ih =>
      have hentry := hnoop entry List.mem_cons_self
      have hothers : ∀ e ∈ entries, e.isNoop = false :=
        fun e he => hnoop e (List.mem_cons_of_mem entry he)
      by_cases hstaged : entry.blockHash ∈ effects.blockKeeper.uncommitedBlocks
      · obtain ⟨effects', pendingBlocks, result, heq, hnetwork, hfails, hstages⟩ :=
          ih hothers effects _ (hprovided.tail _ (fun _ h => h) hstaged)
        rw [stageRaftEntries_staged pf entries hentry hstaged, BlockKeeper.links, if_pos hstaged]
        exact ⟨effects', pendingBlocks, result, heq, hnetwork, hfails,
          fun h => ⟨(hstages h).1, (hstages h).2.cons_staged hstaged⟩⟩
      obtain ⟨block, hpending, hblock⟩ :=
        (hprovided entry List.mem_cons_self).resolve_left hstaged
      obtain ⟨hhash, hverify⟩ := hpayloads _ _ hblock
      rw [BlockKeeper.links, if_neg hstaged, hblock, Option.any_some]
      cases hadd : effects.blockKeeper.blockCanBeAdded block with
      | false =>
          obtain ⟨e, heq⟩ := stageRaftEntries_refused pf entries hentry hstaged hpending hadd
          refine ⟨effects, _, _, heq, rfl, fun _ => ⟨e, rfl⟩, fun h => ?_⟩
          cases h
      | true =>
          have hnext := stageRaftEntries_added pf entries hentry hstaged hpending hverify hadd
          have hfirst := BlockKeeper.addExternalBlock_stages effects.blockKeeper hverify
          generalize hresult : { effects.applyBlockTransactions block with
            blockKeeper := (effects.blockKeeper.addExternalBlock pf block).1 } = next at hnext
          have hkeeper : (effects.blockKeeper.addExternalBlock pf block).1 = next.blockKeeper := by
            rw [← hresult]
          have hsameNetwork : next.network = effects.network := by
            rw [← hresult]
            rfl
          rw [hkeeper] at hfirst
          have hprovided' := hprovided.tail next.blockKeeper
            (fun h hmem => by
              rw [hfirst.uncommitedBlocks]
              exact (AList.mem_insert _).mpr (Or.inr hmem))
            (by
              rw [hfirst.uncommitedBlocks, ← hhash]
              exact (AList.mem_insert _).mpr (Or.inl rfl))
          obtain ⟨effects', pendingBlocks, result, heq, hnetwork, hfails, hstages⟩ :=
            ih hothers next _ hprovided'
          have hlinks : next.blockKeeper.links blocks entries = BlockKeeper.links
              { effects.blockKeeper with
                uncommitedBlocks := effects.blockKeeper.uncommitedBlocks.insert block.hash block }
              blocks entries := by
            apply BlockKeeper.links_congr
            · exact hfirst.state
            · exact hfirst.walk
            · exact hfirst.uncommitedBlocks
          rw [hlinks] at hfails hstages
          exact ⟨effects', pendingBlocks, result, hnext.trans heq, hnetwork.trans hsameNetwork,
            hfails, fun h => ⟨(hstages h).1, (hstages h).2.cons hhash hblock hfirst⟩⟩

-- ----------------------------------------------------------------------------
-- Turn by turn
-- ----------------------------------------------------------------------------

/-- `b'` differs from `b` in the services other than the network only. -/
structure SameTalk (b b' : Batch) : Prop where
  network : b'.effects.network = b.effects.network
  consensus : b'.consensus = b.consensus

/-- A rollback never fails. -/
theorem rollbackBlock_ok (pf : Platform) (effects : PeerEffects) (blockHash : BlockHash) :
    (effects.rollbackBlock pf blockHash).2 = .ok () ∧
      (effects.rollbackBlock pf blockHash).1.blockKeeper =
        (effects.blockKeeper.rollbackBlock pf blockHash).1 ∧
      (effects.rollbackBlock pf blockHash).1.network = effects.network := by
  unfold rollbackBlock BlockKeeper.getUncommitedBlock
  rcases BlockKeeper.rollbackBlock_cases pf effects.blockKeeper blockHash with
    ⟨hnone, e, heq⟩ | ⟨block, hsome, hok, -⟩
  · rw [hnone, heq]
    exact ⟨rfl, rfl, rfl⟩
  · rw [hsome]
    rcases hresult : effects.blockKeeper.rollbackBlock pf blockHash with ⟨k', result⟩
    rw [hresult] at hok
    cases hok
    exact ⟨rfl, rfl, rfl⟩

theorem rollbacks_turns (pf : Platform) (blockHashes : List BlockHash) (b : Batch) :
    let b' := (blockHashes.map ConsensusEffect.rollbackBlock).foldl (Batch.turn pf) b
    SameTalk b b' ∧ b'.errors = b.errors ∧
      b'.effects.blockKeeper = b.effects.blockKeeper.rolledBack pf blockHashes := by
  induction blockHashes generalizing b with
  | nil => exact ⟨⟨rfl, rfl⟩, rfl, rfl⟩
  | cons blockHash blockHashes ih =>
      obtain ⟨hok, hkeeper, hnetwork⟩ := rollbackBlock_ok pf b.effects blockHash
      obtain ⟨hsame, herrors, hrest⟩ := ih (b.turn pf (.rollbackBlock blockHash))
      refine ⟨⟨hsame.network.trans hnetwork, hsame.consensus⟩, ?_, ?_⟩
      · rw [List.map_cons, List.foldl_cons, herrors]
        simp only [Batch.turn, executeEffect, hok, errorsOf, List.append_nil]
      · rw [List.map_cons, List.foldl_cons, hrest]
        exact congrArg (BlockKeeper.rolledBack pf · blockHashes) hkeeper

/-- A commit fails if its block is not staged or its file cannot be written. -/
theorem commitBlock_ok_or (pf : Platform) (effects : PeerEffects) (blockHash : BlockHash) :
    (effects.commitBlock pf blockHash).1.network = effects.network ∧
      ((∃ block, effects.blockKeeper.uncommitedBlocks.lookup blockHash = some block ∧
          effects.blockKeeper.dir.writeFault effects.blockKeeper.dir.writes = none ∧
          (effects.commitBlock pf blockHash).2 = .ok () ∧
          BlockKeeper.Commits pf effects.blockKeeper
            (effects.commitBlock pf blockHash).1.blockKeeper blockHash block) ∨
        ((blockHash ∉ effects.blockKeeper.uncommitedBlocks ∨
            effects.blockKeeper.dir.writeFault effects.blockKeeper.dir.writes ≠ none) ∧
          ∃ e, (effects.commitBlock pf blockHash).2 = .error e)) := by
  unfold commitBlock
  rcases BlockKeeper.commitBlock_cases pf effects.blockKeeper blockHash with
    ⟨hnone, e, heq⟩ | ⟨block, hlookup, hfault, -⟩ | ⟨block, fault, e, hlookup, hfault, herror, -⟩
  · rw [heq]
    exact ⟨rfl, Or.inr ⟨Or.inl (AList.lookup_eq_none.mp hnone), e, rfl⟩⟩
  · obtain ⟨hok, hcommits⟩ := BlockKeeper.commitBlock_commits pf hlookup hfault
    rcases hresult : effects.blockKeeper.commitBlock pf blockHash with ⟨k', result⟩
    rw [hresult] at hok hcommits
    cases hok
    exact ⟨rfl, Or.inl ⟨block, hlookup, hfault, rfl, hcommits⟩⟩
  · rcases hresult : effects.blockKeeper.commitBlock pf blockHash with ⟨k', result⟩
    rw [hresult] at herror
    cases herror
    exact ⟨rfl, Or.inr ⟨Or.inr (by rw [hfault]; exact Option.some_ne_none fault), e, rfl⟩⟩

theorem commits_turns (pf : Platform) (blockHashes : List BlockHash) (b : Batch) :
    let b' := (blockHashes.map ConsensusEffect.commitBlock).foldl (Batch.turn pf) b
    SameTalk b b' ∧
      (b'.errors = [] ↔ b.errors = [] ∧ b.effects.blockKeeper.Committable blockHashes) ∧
      (b.effects.blockKeeper.Committable blockHashes →
        BlockKeeper.CommitsAll pf b.effects.blockKeeper b'.effects.blockKeeper blockHashes) := by
  induction blockHashes generalizing b with
  | nil =>
      have hnil : b.effects.blockKeeper.Committable [] :=
        ⟨List.nodup_nil, fun h hh => absurd hh List.not_mem_nil,
          fun j hj => absurd hj (Nat.not_lt_zero j)⟩
      exact ⟨⟨rfl, rfl⟩, ⟨fun h => ⟨h, hnil⟩, And.left⟩, fun _ => .nil pf _⟩
  | cons blockHash blockHashes ih =>
      obtain ⟨hnetwork, hfirst⟩ := commitBlock_ok_or pf b.effects blockHash
      obtain ⟨hsame, herrors, hrest⟩ := ih (b.turn pf (.commitBlock blockHash))
      have htalk : SameTalk b
          (((blockHash :: blockHashes).map ConsensusEffect.commitBlock).foldl (Batch.turn pf) b) :=
        ⟨hsame.network.trans hnetwork, hsame.consensus⟩
      rcases hfirst with ⟨block, hlookup, hfault, hok, hcommits⟩ | ⟨hwhy, e, herror⟩
      · have hiff : b.effects.blockKeeper.Committable (blockHash :: blockHashes) ↔
            (b.turn pf (.commitBlock blockHash)).effects.blockKeeper.Committable blockHashes :=
          BlockKeeper.committable_cons_iff hlookup hfault hcommits
        have hturn : (b.turn pf (.commitBlock blockHash)).errors = b.errors := by
          simp only [Batch.turn, executeEffect, hok, errorsOf, List.append_nil]
        rw [hturn] at herrors
        refine ⟨htalk, ?_, ?_⟩
        · rw [hiff]
          exact herrors
        · intro h
          exact .cons hlookup hcommits (hrest (hiff.mp h))
      · -- The first commit fails, so there is an error whatever follows.
        have hnot : ¬b.effects.blockKeeper.Committable (blockHash :: blockHashes) := by
          intro h
          rcases hwhy with hwhy | hwhy
          · exact hwhy (h.staged blockHash List.mem_cons_self)
          · exact hwhy (h.written 0 (Nat.zero_lt_succ _))
        have hturn : (b.turn pf (.commitBlock blockHash)).errors = b.errors ++ [e] := by
          simp only [Batch.turn, executeEffect, herror, errorsOf]
        rw [hturn] at herrors
        refine ⟨htalk, ⟨fun h => ?_, fun h => absurd h.2 hnot⟩, fun h => absurd h hnot⟩
        exact absurd (herrors.mp h).1 (by simp)

end PeerEffects

-- ----------------------------------------------------------------------------
-- The whole batch
-- ----------------------------------------------------------------------------

/-- Nothing of an accepted request fails at a peer with this block store: every block
    links, every block to commit is staged by then and comes once, and the block
    files can be written. -/
structure Clean (pf : Platform) (k : BlockKeeper) (a : Accepted) : Prop where
  linked : (k.rolledBack pf a.discarded).links a.blocks a.toStage = true
  nodup : a.toCommit.Nodup
  staged : ∀ h ∈ a.toCommit, h ∈ (k.rolledBack pf a.discarded).uncommitedBlocks ∨
    h ∈ a.toStage.map RaftLogEntry.blockHash
  written : ∀ j < a.toCommit.length, k.dir.writeFault (k.dir.writes + j) = none

/-- The blocks of an accepted request come with their payloads. -/
structure Accepted.Supplied (pf : Platform) (a : Accepted) (r : RaftConsensus) : Prop where
  payloads : RaftConsensus.Payloads pf a.blocks
  blocks : ∀ entry ∈ a.toStage, entry.isNoop = false
  pending : ∀ entry ∈ a.toStage, ∃ block,
    r.pendingBlocks.lookup entry.blockHash = some block ∧
      a.blocks.lookup entry.blockHash = some block

namespace PeerEffects

/-- The staging part of the batch: one effect, or none. -/
theorem staging_turns {pf : Platform} {a : Accepted} {r : RaftConsensus} (h : a.Supplied pf r)
    (b : Batch) (hr : b.consensus = .raft r) :
    let b' := (if a.toStage.isEmpty then [] else [ConsensusEffect.stageRaftEntries a.toStage]).foldl
      (Batch.turn pf) b
    (∃ pendingBlocks, b'.consensus = .raft { r with pendingBlocks }) ∧
      b'.effects.network = b.effects.network ∧
      (b.effects.blockKeeper.links a.blocks a.toStage = false → b'.errors ≠ []) ∧
      (b.effects.blockKeeper.links a.blocks a.toStage = true → b'.errors = b.errors ∧
        BlockKeeper.StagesAll b.effects.blockKeeper b'.effects.blockKeeper a.blocks a.toStage) := by
  by_cases hempty : a.toStage.isEmpty = true
  · rw [if_pos hempty, List.isEmpty_iff.mp hempty]
    refine ⟨⟨r.pendingBlocks, hr⟩, rfl, fun h => ?_, fun _ => ⟨rfl, .nil _ _⟩⟩
    cases h
  · rw [if_neg hempty]
    obtain ⟨effects', pendingBlocks, result, heq, hnetwork, hfails, hstages⟩ :=
      stageRaftEntries_links h.payloads h.blocks b.effects r
        fun entry hmem => Or.inr (h.pending entry hmem)
    simp only [List.foldl_cons, List.foldl_nil, Batch.turn, executeEffect, hr, heq]
    refine ⟨⟨pendingBlocks, rfl⟩, hnetwork, ?_, ?_⟩
    · intro hlinks
      obtain ⟨e, rfl⟩ := hfails hlinks
      simp [errorsOf]
    · intro hlinks
      obtain ⟨rfl, hall⟩ := hstages hlinks
      exact ⟨List.append_nil _, hall⟩

/-- The effects of an accepted request queue nothing. -/
theorem accepted_generations (a : Accepted) (dst : PeerId) (body : MessageBody) :
    ∀ effect ∈ a.effects ++ [.send dst body], generationsOf effect = 0 := by
  intro effect hmem
  simp only [Accepted.effects, List.mem_append, List.mem_map, List.mem_singleton] at hmem
  rcases hmem with ((⟨_, _, rfl⟩ | hmem) | ⟨_, _, rfl⟩) | rfl
  · rfl
  · split at hmem
    · exact absurd hmem List.not_mem_nil
    · rw [List.mem_singleton.mp hmem]
      rfl
  · rfl
  · rfl

/-- What can be committed after the staging is what `Clean` says. -/
theorem committable_iff_clean {pf : Platform} {k staged : BlockKeeper} {a : Accepted}
    (hlinks : (k.rolledBack pf a.discarded).links a.blocks a.toStage = true)
    (hall : BlockKeeper.StagesAll (k.rolledBack pf a.discarded) staged a.blocks a.toStage) :
    staged.Committable a.toCommit ↔ Clean pf k a := by
  have hdir := (BlockKeeper.rolledBack_rollsBack pf k a.discarded).dir
  constructor
  · rintro ⟨hnodup, hmem, hwritten⟩
    rw [hall.dir, hdir] at hwritten
    exact ⟨hlinks, hnodup, fun h hh => (hall.mem h).mp (hmem h hh), hwritten⟩
  · rintro ⟨-, hnodup, hmem, hwritten⟩
    refine ⟨hnodup, fun h hh => (hall.mem h).mpr (hmem h hh), ?_⟩
    rw [hall.dir, hdir]
    exact hwritten

/-- The batch of an accepted request acknowledges it in any case.  It reports no
    error exactly when it is clean, and then leaves the block store rolled back,
    staged and committed as asked. -/
theorem accepted_batch {pf : Platform} {a : Accepted} {r : RaftConsensus} (h : a.Supplied pf r)
    (effects : PeerEffects) (dst : PeerId) (term matchIndex : Nat) :
    let out := effects.executeAll pf (.raft r)
      (a.effects ++ [.send dst (.raftAppendEntriesResponse term true matchIndex)])
    (∃ pendingBlocks, out.2.1 = .raft { r with pendingBlocks }) ∧
      (∃ src, out.1.network = effects.network.sendPeerMessage
        { «from» := src, «to» := dst,
          body := .raftAppendEntriesResponse term true matchIndex }) ∧
      (out.2.2 = .ok () ↔ Clean pf effects.blockKeeper a) ∧
      (Clean pf effects.blockKeeper a → ∃ k,
        BlockKeeper.StagesAll (effects.blockKeeper.rolledBack pf a.discarded) k a.blocks
          a.toStage ∧
        BlockKeeper.CommitsAll pf k out.1.blockKeeper a.toCommit) := by
  obtain ⟨last, hlast, heq⟩ := executeAll_flat pf effects (.raft r)
    (accepted_generations a dst (.raftAppendEntriesResponse term true matchIndex))
  rw [Accepted.effects, List.foldl_append, List.foldl_append, List.foldl_append] at hlast
  -- The batch after the rollbacks, after the staging and after the commits.
  generalize hrolled : (a.discarded.map ConsensusEffect.rollbackBlock).foldl (Batch.turn pf)
    { effects, consensus := .raft r, queue := [], errors := [] } = rolled at hlast
  generalize hstaged : (if a.toStage.isEmpty then []
    else [ConsensusEffect.stageRaftEntries a.toStage]).foldl (Batch.turn pf) rolled = staged at hlast
  generalize hcommitted : (a.toCommit.map ConsensusEffect.commitBlock).foldl (Batch.turn pf) staged =
    committed at hlast
  obtain ⟨hrolledTalk, hrolledErrors, hrolledKeeper⟩ := hrolled ▸ rollbacks_turns pf a.discarded
    { effects, consensus := .raft r, queue := [], errors := [] }
  obtain ⟨⟨pendingBlocks, hstagedRaft⟩, hstagedNetwork, hfails, hstages⟩ :=
    hstaged ▸ staging_turns h rolled hrolledTalk.consensus
  obtain ⟨hcommittedTalk, hcommittedErrors, hcommits⟩ :=
    hcommitted ▸ commits_turns pf a.toCommit staged
  have hack : last = committed.turn pf
      (.send dst (.raftAppendEntriesResponse term true matchIndex)) := hlast.symm
  have hlastErrors : last.errors = committed.errors := by
    rw [hack]
    exact List.append_nil _
  have hresult : (effects.executeAll pf (.raft r)
      (a.effects ++ [.send dst (.raftAppendEntriesResponse term true matchIndex)])).2.2 = .ok () ↔
        committed.errors = [] := by
    rw [heq, hlastErrors]
    dsimp only
    cases committed.errors <;> simp
  rw [hrolledKeeper] at hfails hstages
  have hcommittable := fun hlinks => committable_iff_clean hlinks (hstages hlinks).2
  refine ⟨⟨pendingBlocks, ?_⟩, ⟨committed.effects.peerId, ?_⟩, ?_, ?_⟩
  · rw [heq, hack]
    exact hcommittedTalk.consensus.trans hstagedRaft
  · rw [heq, hack]
    show committed.effects.network.sendPeerMessage _ = _
    rw [hcommittedTalk.network, hstagedNetwork, hrolledTalk.network]
  · rw [hresult, hcommittedErrors]
    cases hlinks : (effects.blockKeeper.rolledBack pf a.discarded).links a.blocks a.toStage with
    | false =>
        refine ⟨fun h => absurd h.1 (hfails hlinks), fun h => ?_⟩
        rw [h.linked] at hlinks
        cases hlinks
    | true =>
        rw [(hstages hlinks).1, hrolledErrors, hcommittable hlinks]
        exact ⟨And.right, fun h => ⟨rfl, h⟩⟩
  · intro hclean
    refine ⟨staged.effects.blockKeeper, (hstages hclean.linked).2, ?_⟩
    rw [heq, hack]
    exact hcommits ((hcommittable hclean.linked).mpr hclean)

end PeerEffects

/-- An accepted request supplies its blocks. -/
theorem RaftConsensus.acceptance_supplied {pf : Platform} {r r' : RaftConsensus}
    {request : AppendEntriesRequest} {draw : Nat} {a : Accepted}
    (h : r.acceptance pf request draw = some a)
    (hpending : r'.pendingBlocks = keepPendingBlocks r.pendingBlocks a.blocks a.toStage) :
    a.Supplied pf r' := by
  obtain ⟨entries, blocks, log, discarded, hvalid, -, -, -, rfl⟩ := acceptance_some h
  obtain ⟨hpayloads, hcovers⟩ := validateReplicatedEntries_payloads hvalid
  have hblocks : ∀ entry ∈ (r.acceptedAs request entries blocks log discarded).toStage,
      entry ∈ entries ∧ entry.isNoop = false := by
    intro entry hmem
    simpa [acceptedAs, and_assoc] using List.mem_filter.mp hmem |>.imp_right fun h =>
      (Bool.and_eq_true_iff.mp h).2
  refine ⟨hpayloads, fun entry hmem => (hblocks entry hmem).2, ?_⟩
  intro entry hmem
  obtain ⟨hentry, hnoop⟩ := hblocks entry hmem
  obtain ⟨block, hblock⟩ :=
    Option.isSome_iff_exists.mp (AList.lookup_isSome.mpr (hcovers entry hentry hnoop))
  refine ⟨block, ?_, hblock⟩
  rw [hpending]
  exact keepPendingBlocks_lookup hmem hnoop hblock

-- ============================================================================
-- The acknowledgement
-- ============================================================================

/-- The request as a message. -/
def AppendEntriesRequest.message (request : AppendEntriesRequest) (dst : PeerId) : Message :=
  { «from» := request.from
    «to» := dst
    body := .raftAppendEntries request.term request.leaderId request.prevLogIndex
      request.prevLogTerm request.entries request.leaderCommit }

/-- A `RaftAppendEntriesResponse` with `success = true`. -/
def MessageBody.isAcknowledgement : MessageBody → Bool
  | .raftAppendEntriesResponse _ success _ => success
  | _ => false

/-- Between `p` and `p'` an acknowledgement was sent. -/
def Acknowledges (p p' : Peer) : Prop :=
  ∃ call ∈ p'.effects.network.calls.drop p.effects.network.calls.length,
    call.body.isAcknowledgement = true

instance (p p' : Peer) : Decidable (Acknowledges p p') :=
  inferInstanceAs (Decidable (∃ call ∈ _, _))

/-- The block store holds the block: staged, or in a block file written since `k`. -/
def Holds (pf : Platform) (k k' : BlockKeeper) (blockHash : BlockHash) : Prop :=
  blockHash ∈ k'.uncommitedBlocks ∨
    ∃ index block, k.blockStorageState.blockHeight < index ∧
      index ≤ k'.blockStorageState.blockHeight ∧
      k'.dir.files.lookup (BlockFile.blockFilenameForIndex index) = some (pf.encodeBlock block) ∧
      (k.uncommitedBlocks.lookup blockHash = some block ∨ block.hash = blockHash)

/-- After a clean batch the block store holds the block of every staged entry. -/
theorem holds_of_stagesAll {pf : Platform} {k k' k'' : BlockKeeper} {a : Accepted}
    (hpayloads : RaftConsensus.Payloads pf a.blocks)
    (hstages : BlockKeeper.StagesAll (k.rolledBack pf a.discarded) k' a.blocks a.toStage)
    (hcommits : BlockKeeper.CommitsAll pf k' k'' a.toCommit) {entry : RaftLogEntry}
    (hmem : entry ∈ a.toStage) : Holds pf k k'' entry.blockHash := by
  have hrolled := k.rolledBack_rollsBack pf a.discarded
  have hstaged : entry.blockHash ∈ k'.uncommitedBlocks :=
    (hstages.mem _).mpr (Or.inr (List.mem_map_of_mem hmem))
  by_cases hcommitted : entry.blockHash ∈ a.toCommit
  · obtain ⟨⟨j, hj⟩, hget⟩ := List.get_of_mem hcommitted
    obtain ⟨block, hlookup, hfile⟩ := hcommits.written j hj
    have hheight : k'.blockStorageState.blockHeight = k.blockStorageState.blockHeight := by
      rw [hstages.state, hrolled.state]
    rw [hget] at hlookup
    refine Or.inr ⟨_, block, ?_, ?_, hfile, ?_⟩
    · omega
    · rw [hcommits.height]
      omega
    · rcases hstages.staged _ _ hlookup with hold | hnew
      · exact hrolled.staged _ _ hold
      · exact Or.inr (hpayloads _ _ hnew).1
  · left
    rw [← AList.lookup_isSome, hcommits.lookup, if_neg hcommitted]
    exact AList.lookup_isSome.mpr hstaged

namespace Peer

/-- Acknowledging means: the whole batch was executed without error, and the block of
    every entry above the old commit index is there. -/
def AcknowledgesStaged (pf : Platform) (p : Peer) (r : RaftConsensus)
    (request : AppendEntriesRequest) (outcome : Peer × Except String Unit) : Prop :=
  Acknowledges p outcome.1 → outcome.2 = .ok () ∧
    ∀ replicated ∈ request.entries, replicated.entry.isNoop = false →
      r.commitIndex < replicated.entry.index →
      Holds pf p.effects.blockKeeper outcome.1.effects.blockKeeper replicated.entry.blockHash

/-- A peer acknowledges an `AppendEntries` request only after staging exactly when
    every request it accepts is clean: `execute_all` goes on after an error, so the
    acknowledgement at the end of the batch is sent in any case. -/
theorem acknowledges_staged_iff (pf : Platform) (p : Peer) (r : RaftConsensus)
    (request : AppendEntriesRequest) (dst : PeerId) (draw : Nat) :
    AcknowledgesStaged pf p r request
        ({ p with consensus := .raft r }.handleMessage pf (request.message dst) request.now draw) ↔
      ∀ a, r.acceptance pf request draw = some a → Clean pf p.effects.blockKeeper a := by
  have hmessage : { p with consensus := .raft r }.handleMessage pf (request.message dst)
      request.now draw = { p with consensus := .raft r }.answer pf
        (ConsensusEngine.ofRaft (r.handleAppendEntries pf request draw)) := rfl
  have hanswers := r.handleAppendEntries_answers pf request draw
  rw [hmessage]
  rcases hresult : r.handleAppendEntries pf request draw with ⟨r', result⟩
  rw [hresult] at hanswers
  cases haccepted : r.acceptance pf request draw with
  | none =>
      -- The answer is an error or a refusal.
      rw [haccepted] at hanswers
      refine ⟨fun _ a h => (by cases h), fun _ hacknowledges => ?_⟩
      exfalso
      obtain ⟨call, hcall, hbody⟩ := hacknowledges
      rcases hanswers with ⟨e, rfl⟩ | ⟨term, matchIndex, rfl⟩
      · change call ∈ p.effects.network.calls.drop p.effects.network.calls.length at hcall
        rw [List.drop_length] at hcall
        cases hcall
      · rw [ConsensusEngine.ofRaft, (answer_ok pf _ _ _).1] at hcall
        change call ∈ (p.effects.network.calls ++ [_]).drop p.effects.network.calls.length at hcall
        rw [List.drop_left, List.mem_singleton] at hcall
        rw [hcall] at hbody
        cases hbody
  | some a =>
      rw [haccepted] at hanswers
      obtain ⟨⟨term, matchIndex, rfl⟩, -, -, hpending, -⟩ := hanswers
      have hsupplied := RaftConsensus.acceptance_supplied haccepted hpending
      obtain ⟨-, ⟨src, hnetwork⟩, hclean, hstages⟩ :=
        PeerEffects.accepted_batch hsupplied p.effects request.from term matchIndex
      rw [ConsensusEngine.ofRaft]
      dsimp only at hnetwork hclean hstages hsupplied ⊢
      generalize a.effects ++ [ConsensusEffect.send request.from
        (.raftAppendEntriesResponse term true matchIndex)] = queue at hnetwork hclean hstages ⊢
      have heffects := (answer_ok pf { p with consensus := .raft r } (.raft r') queue).1
      have hok := answer_result pf { p with consensus := .raft r } (.raft r') queue
      dsimp only at heffects hok
      have hacknowledges : Acknowledges p
          ({ p with consensus := .raft r }.answer pf (.raft r', .ok queue)).1 := by
        refine ⟨.send ⟨src, request.from, .raftAppendEntriesResponse term true matchIndex⟩, ?_, rfl⟩
        rw [heffects, hnetwork]
        simp only [Network.sendPeerMessage]
        rw [List.drop_left]
        exact List.mem_singleton_self _
      constructor
      · rintro hstaged a' h
        cases h
        exact hclean.mp (hok.symm.trans (hstaged hacknowledges).1)
      · rintro h -
        have hcleans := h a rfl
        refine ⟨hok.trans (hclean.mpr hcleans), ?_⟩
        intro replicated hmem hnoop hindex
        obtain ⟨k, hall, hcommits⟩ := hstages hcleans
        rw [heffects]
        apply holds_of_stagesAll hsupplied.payloads hall hcommits
        obtain ⟨entries, blocks, log, discarded, hvalid, -, -, -, rfl⟩ :=
          RaftConsensus.acceptance_some haccepted
        rw [RaftConsensus.acceptedAs, RaftConsensus.validateReplicatedEntries_entries hvalid]
        refine List.mem_filter.mpr ⟨List.mem_map_of_mem hmem, ?_⟩
        rw [hnoop, decide_eq_true hindex]
        rfl

end Peer

-- ----------------------------------------------------------------------------
-- A block that does not link
-- ----------------------------------------------------------------------------

namespace Reference

/-- A new Raft peer 1 that knows peer 2. -/
def followerPeer : Peer :=
  .new platform 1 { knownPeers := [2], calls := [] }
    (.raft ((RaftConsensus.new 1 0 0).updateParticipants [2]))
    (.new platform (.empty "data/peer_1") 1 (.listed _ _)) [1]

/-- Leader 2 replicates block number `n` as the first entry of the log. -/
def replication (n : Nat) (leaderCommit : Nat) : AppendEntriesRequest :=
  { term := 1
    leaderId := 2
    prevLogIndex := 0
    prevLogTerm := 0
    entries := [payload { term := 1, index := 1, blockHash := (emptyBlock n).hash }]
    leaderCommit
    «from» := 2
    now := 0 }

end Reference

namespace Peer

/-- The second block of a chain is refused by the block store of a peer without the
    first, and acknowledged. -/
theorem acknowledged_not_staged :
    let outcome := Reference.followerPeer.handleMessage Reference.platform
      ((Reference.replication 2 0).message 1) 0 0
    Acknowledges Reference.followerPeer outcome.1 ∧ outcome.2 ≠ .ok () ∧
      (Reference.emptyBlock 2).hash ∉ outcome.1.effects.blockKeeper.uncommitedBlocks ∧
      outcome.1.effects.blockKeeper.blockStorageState.blockHeight = 0 ∧
      ¬ AcknowledgesStaged Reference.platform Reference.followerPeer
        ((RaftConsensus.new 1 0 0).updateParticipants [2]) (Reference.replication 2 0) outcome := by
  intro outcome
  have hrun : Acknowledges Reference.followerPeer outcome.1 ∧ outcome.2 ≠ .ok () ∧
      (Reference.emptyBlock 2).hash ∉ outcome.1.effects.blockKeeper.uncommitedBlocks ∧
      outcome.1.effects.blockKeeper.blockStorageState.blockHeight = 0 := by
    decide +kernel
  obtain ⟨hacknowledges, hfails, hstaged, hheight⟩ := hrun
  exact ⟨hacknowledges, hfails, hstaged, hheight, fun h => hfails (h hacknowledges).1⟩

-- The first block of the chain is staged, or committed at once, before it is acknowledged.
example :
    let outcome := Reference.followerPeer.handleMessage Reference.platform
      ((Reference.replication 1 1).message 1) 0 0
    Acknowledges Reference.followerPeer outcome.1 ∧ outcome.2 = .ok () ∧
      outcome.1.effects.blockKeeper.blockStorageState.blockHeight = 1 := by
  decide +kernel

end Peer

end Rustchain
