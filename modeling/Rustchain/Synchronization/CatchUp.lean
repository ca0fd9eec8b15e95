/-
  Rustchain.Synchronization.CatchUp

  What a synchronization achieves among honest peers.

  The peers it asks answer from their own block stores, which grow in the
  meantime, and any request may fail.  If the blocks that peers hold are without
  forks, every block that arrives is the next one of the local chain: it can be
  refused only for being staged already.  So a synchronization that succeeds has
  caught up with every peer that reported its height, and one that fails had
  three fetches that brought nothing new.
-/

import Rustchain.Server
import Rustchain.Synchronization

namespace Rustchain

open BlockKeeper

-- ============================================================================
-- Chains of known blocks
-- ============================================================================

namespace BlockKeeper

/-- The block files are that chain of known blocks, each under its own index, and can be
    read. -/
structure HoldsKnown (pf : Platform) (known : BlockFile → Prop) (k : BlockKeeper)
    (chain : List BlockFile) : Prop where
  holds : Holds pf k chain
  indexed : ∀ i (hi : i < chain.length), (chain.get ⟨i, hi⟩).index = i + 1
  known : ∀ b ∈ chain, known b ∧ b.verifyBlock pf = .ok ()
  readable : ∀ filename, k.dir.readError filename = none

/-- The block goes on top of the chain. -/
structure ExtendedBy (pf : Platform) (known : BlockFile → Prop) (chain : List BlockFile)
    (b : BlockFile) : Prop where
  index : b.index = chain.length + 1
  parent : b.previousHash = HashChain.tip BlockFile.hash emptyHash chain
  known : known b
  verified : b.verifyBlock pf = .ok ()

variable {pf : Platform} {known : BlockFile → Prop} {k k' : BlockKeeper}
  {chain chain' : List BlockFile}

/-- A file of the chain is handed out as it is. -/
theorem HoldsKnown.getBlock (hpf : pf.Lawful) (h : k.HoldsKnown pf known chain) {i : Nat}
    (hi : i < chain.length) :
    k.createBlockStorageView.getBlock pf (i + 1) = .ok (chain.get ⟨i, hi⟩) :=
  h.holds.read hpf h.readable hi

/-- Without forks, the next block of a longer chain goes on top of the shorter one. -/
theorem HoldsKnown.next
    (hforkless : HashChain.Forkless BlockFile.hash BlockFile.previousHash known)
    (h : k.HoldsKnown pf known chain) (h' : k'.HoldsKnown pf known chain')
    (hi : chain.length < chain'.length) :
    ExtendedBy pf known chain (chain'.get ⟨chain.length, hi⟩) := by
  obtain ⟨hknown, hverified⟩ := h'.known _ (chain'.get_mem ⟨chain.length, hi⟩)
  refine ⟨h'.indexed _ hi, ?_, hknown, hverified⟩
  rcases Nat.eq_zero_or_pos chain.length with hzero | hpos
  · have hnil : chain = [] := List.eq_nil_of_length_eq_zero hzero
    subst hnil
    exact h'.holds.linked.parent_first hi
  · obtain ⟨i, hlast⟩ : ∃ i, i + 1 = chain.length := ⟨chain.length - 1, by omega⟩
    have hnext : i + 1 < chain'.length := by omega
    have hsame : chain'.get ⟨chain.length, hi⟩ = chain'.get ⟨i + 1, hnext⟩ := by
      simp only [List.get_eq_getElem, hlast]
    rw [hsame, HashChain.tip_eq_hash_last hlast, h'.holds.linked.parent_succ hnext]
    exact (h.holds.linked.agree hforkless h'.holds.linked (fun b hb => (h.known b hb).1)
      (fun b hb => (h'.known b hb).1) i (by omega) (by omega)).symm

/-- Without forks, the hashes of the shorter chain are the first of the longer one. -/
theorem HoldsKnown.starts
    (hforkless : HashChain.Forkless BlockFile.hash BlockFile.previousHash known)
    (h : k.HoldsKnown pf known chain) (h' : k'.HoldsKnown pf known chain')
    (hle : chain.length ≤ chain'.length) :
    chain.map BlockFile.hash <+: chain'.map BlockFile.hash := by
  rw [List.prefix_iff_eq_take]
  refine List.ext_getElem ?_ ?_
  · simp only [List.length_map, List.length_take]
    omega
  · intro i hi _
    rw [List.length_map] at hi
    rw [List.getElem_take, List.getElem_map, List.getElem_map]
    exact h.holds.linked.agree hforkless h'.holds.linked (fun b hb => (h.known b hb).1)
      (fun b hb => (h'.known b hb).1) i hi (by omega)

theorem HoldsKnown.commits (h : k.HoldsKnown pf known chain) {b : BlockFile}
    (hcommits : Commits pf k k' b.hash b) (hextended : ExtendedBy pf known chain b) :
    k'.HoldsKnown pf known (chain ++ [b]) where
  holds := h.holds.commits hcommits (hextended.parent.trans h.holds.tip.symm)
  indexed := by
    intro i hi
    rw [List.length_append, List.length_singleton] at hi
    by_cases hlast : i = chain.length
    · subst hlast
      rw [List.get_eq_getElem, List.getElem_concat_length rfl, hextended.index]
    · have hi' : i < chain.length := by omega
      rw [List.get_eq_getElem, List.getElem_append_left hi']
      exact h.indexed i hi'
  known := by
    intro block hmem
    rcases List.mem_append.mp hmem with hmem | hmem
    · exact h.known block hmem
    · rw [List.mem_singleton.mp hmem]
      exact ⟨hextended.known, hextended.verified⟩
  readable := by
    rw [hcommits.readError]
    exact h.readable

end BlockKeeper

-- ============================================================================
-- Applying the next block
-- ============================================================================

namespace Peer

variable {pf : Platform} {known : BlockFile → Prop} {p p' p'' : Peer}
  {chain added added' : List BlockFile} {b : BlockFile}

/-- The blocks were added to the chain of the peer, and their transactions were run. -/
structure Adds (pf : Platform) (known : BlockFile → Prop) (chain : List BlockFile) (p p' : Peer)
    (added : List BlockFile) : Prop where
  holds : p'.effects.blockKeeper.HoldsKnown pf known (chain ++ added)
  writable : ∀ j, p'.effects.blockKeeper.dir.writeFault j = none
  staged : ∀ h, p'.effects.blockKeeper.uncommitedBlocks.lookup h =
    p.effects.blockKeeper.uncommitedBlocks.lookup h
  ledger : p'.effects.transactionProcessor =
    (added.flatMap BlockFile.transactions).foldl (fun tp tx => (tp.processTransaction tx).1)
      p.effects.transactionProcessor

theorem Adds.refl (hholds : p.effects.blockKeeper.HoldsKnown pf known chain)
    (hwritable : ∀ j, p.effects.blockKeeper.dir.writeFault j = none) :
    Adds pf known chain p p [] := by
  refine ⟨?_, hwritable, fun _ => rfl, rfl⟩
  rw [List.append_nil]
  exact hholds

theorem Adds.trans (h : Adds pf known chain p p' added)
    (h' : Adds pf known (chain ++ added) p' p'' added') :
    Adds pf known chain p p'' (added ++ added') := by
  refine ⟨?_, h'.writable, fun hash => (h'.staged hash).trans (h.staged hash), ?_⟩
  · rw [← List.append_assoc]
    exact h'.holds
  · rw [h'.ledger, h.ledger, List.flatMap_append, List.foldl_append]

/-- A block that is staged is refused. -/
theorem applySynchronizedBlock_staged (pf : Platform)
    (hstaged : b.hash ∈ p.effects.blockKeeper.uncommitedBlocks) :
    ∃ e, p.applySynchronizedBlock pf b = (p, .error e) := by
  have hrefused : p.effects.blockKeeper.blockCanBeAdded b = false := by
    unfold blockCanBeAdded
    split
    · rfl
    · rfl
  unfold applySynchronizedBlock PeerEffects.applySynchronizedBlock
  rw [if_pos (by simp [hrefused])]
  exact ⟨_, rfl⟩

/-- A block that can be added and passes its check is committed when its file can be
    written. -/
theorem applySynchronizedBlock_commits
    (hadd : p.effects.blockKeeper.blockCanBeAdded b = true) (hverify : b.verifyBlock pf = .ok ())
    (hwrite : p.effects.blockKeeper.dir.writeFault p.effects.blockKeeper.dir.writes = none) :
    ∃ k k', Stages p.effects.blockKeeper k b ∧ Commits pf k k' b.hash b ∧
      p.applySynchronizedBlock pf b =
        ({ p with effects := { p.effects.applyBlockTransactions b with
            blockKeeper := k'
            lastCompletedBlock := b.hash } }, .ok ()) := by
  have hstages := addExternalBlock_stages p.effects.blockKeeper hverify
  rcases addExternalBlock_cases pf p.effects.blockKeeper b with ⟨e, hwrong, -⟩ | ⟨-, hok, -⟩
  · rw [hverify] at hwrong
    cases hwrong
  obtain ⟨k, hk⟩ : ∃ k, p.effects.blockKeeper.addExternalBlock pf b = (k, .ok ()) :=
    ⟨_, Prod.ext rfl hok⟩
  rw [hk] at hstages
  have hlookup : k.uncommitedBlocks.lookup b.hash = some b := by
    rw [hstages.uncommitedBlocks, AList.lookup_insert]
  have hfault : k.dir.writeFault k.dir.writes = none := by
    rw [hstages.dir]
    exact hwrite
  obtain ⟨hcommitted, hcommits⟩ := commitBlock_commits pf hlookup hfault
  obtain ⟨k', hk'⟩ : ∃ k', k.commitBlock pf b.hash = (k', .ok ()) := ⟨_, Prod.ext rfl hcommitted⟩
  rw [hk'] at hcommits
  refine ⟨k, k', hstages, hcommits, ?_⟩
  unfold applySynchronizedBlock PeerEffects.applySynchronizedBlock
  rw [if_neg (by simp [hadd])]
  simp only [PeerEffects.applyBlockTransactions, hk, hk']

/-- Any other block that goes on top of the chain is added to it. -/
theorem applySynchronizedBlock_extends
    (hholds : p.effects.blockKeeper.HoldsKnown pf known chain)
    (hwritable : ∀ j, p.effects.blockKeeper.dir.writeFault j = none)
    (hextended : ExtendedBy pf known chain b)
    (hstaged : b.hash ∉ p.effects.blockKeeper.uncommitedBlocks) :
    ∃ p', p.applySynchronizedBlock pf b = (p', .ok ()) ∧ Adds pf known chain p p' [b] := by
  have hadd : p.effects.blockKeeper.blockCanBeAdded b = true := by
    have hheight := hholds.holds.height
    have hindex := hextended.index
    unfold blockCanBeAdded
    rw [if_neg (by omega), if_neg hstaged, if_pos (by omega), beq_iff_eq, hextended.parent,
      hholds.holds.tip]
  obtain ⟨k, k', hstages, hcommits, heq⟩ :=
    applySynchronizedBlock_commits hadd hextended.verified (hwritable _)
  refine ⟨_, heq, ?_⟩
  have hkept : k.HoldsKnown pf known chain :=
    ⟨hholds.holds.congr hstages.dir hstages.state, hholds.indexed, hholds.known, by
      rw [hstages.dir]
      exact hholds.readable⟩
  refine ⟨hkept.commits hcommits hextended, ?_, ?_, ?_⟩
  · rw [hcommits.writeFault, hstages.dir]
    exact hwritable
  · intro hash
    rw [hcommits.uncommitedBlocks, hstages.uncommitedBlocks, HashMap.lookup_erase_ite,
      HashMap.lookup_insert_ite]
    split
    · rename_i heq
      rw [heq]
      exact (AList.lookup_eq_none.mpr hstaged).symm
    · rfl
  · simp [PeerEffects.applyBlockTransactions]

end Peer

-- ============================================================================
-- Honest peers
-- ============================================================================

/-- The other peers answer from block stores that hold chains of known blocks: `source` is
    what they have when they report their height, and a block comes from what the store
    of the peer has become by then.  Any request may fail, and what is reported of a
    single block is open. -/
structure SyncNetwork.Honest (pf : Platform) (known : BlockFile → Prop)
    (source : PeerId → BlockKeeper) (network : SyncNetwork) (attempts : List Attempt) : Prop where
  latest : ∀ q state, network.latestState q = .ok state →
    state = (source q).createBlockStorageView.getLatestState
  block : ∀ a ∈ attempts, ∀ q b, a.round.block q = .ok b →
    ∃ (k : BlockKeeper) (chain : List BlockFile), Continues (source q) k ∧ k.HoldsKnown pf known chain ∧
      k.createBlockStorageView.getBlock pf a.idx = .ok b

namespace SyncNetwork

variable {network : SyncNetwork}

/-- The states are answers of known peers. -/
theorem lookup_getLatestIndexes {q : PeerId} {state : BlockStorageState} :
    network.getLatestIndexes.lookup q = some state ↔
      q ∈ network.knownPeers ∧ network.latestState q = .ok state := by
  -- `insertOk` is the body of the loop: it enters the answers that came.
  have hfold : ∀ insertOk : HashMap PeerId BlockStorageState → PeerId →
        HashMap PeerId BlockStorageState,
      (∀ results peer e, network.latestState peer = .error e → insertOk results peer = results) →
      (∀ results peer state, network.latestState peer = .ok state →
        insertOk results peer = results.insert peer state) →
      ∀ (peers : List PeerId) (results : HashMap PeerId BlockStorageState),
        (∀ q state, results.lookup q = some state → network.latestState q = .ok state) →
        ((peers.foldl insertOk results).lookup q = some state ↔
          results.lookup q = some state ∨ q ∈ peers ∧ network.latestState q = .ok state) := by
    intro insertOk herror hok peers
    induction peers with
    | nil => simp
    | cons peer peers ih =>
        intro results hresults
        rw [List.foldl_cons]
        cases hanswer : network.latestState peer with
        | error e =>
            rw [herror results peer e hanswer, ih results hresults, List.mem_cons]
            refine or_congr_right ⟨fun h => ⟨Or.inr h.1, h.2⟩, ?_⟩
            rintro ⟨rfl | hmem, hstate⟩
            · rw [hanswer] at hstate
              cases hstate
            · exact ⟨hmem, hstate⟩
        | ok answer =>
            rw [hok results peer answer hanswer, ih _ (HashMap.forall_insert hresults hanswer),
              HashMap.lookup_insert_ite, List.mem_cons]
            by_cases hq : q = peer
            · subst hq
              rw [if_pos rfl, hanswer, Option.some.injEq, Except.ok.injEq]
              constructor
              · rintro (heq | ⟨-, heq⟩)
                · exact Or.inr ⟨Or.inl rfl, heq⟩
                · exact Or.inr ⟨Or.inl rfl, heq⟩
              · rintro (hold | ⟨-, heq⟩)
                · have hsame := hresults q state hold
                  rw [hanswer] at hsame
                  exact Or.inl (Except.ok.inj hsame)
                · exact Or.inl heq
            · rw [if_neg hq]
              refine or_congr_right (and_congr_left fun _ => ?_)
              rw [or_iff_right hq]
  unfold getLatestIndexes
  refine (hfold _ ?_ ?_ network.knownPeers ∅ fun q state h => by cases h).trans (or_iff_right ?_)
  · intro results peer e herror
    simp only [herror]
  · intro results peer state hok
    simp only [hok]
  · intro h
    cases h

/-- Every height that is reported is at most the highest one. -/
theorem le_getMaxIndex {states : PeersStates} {q : PeerId} {state : BlockStorageState}
    (h : states.states.lookup q = some state) : state.blockHeight ≤ states.getMaxIndex := by
  have hmem : state.blockHeight ∈ states.states.entries.map fun e => e.2.blockHeight := by
    rw [HashMap.lookup_eq_some_iff] at h
    exact List.mem_map.mpr ⟨_, h, rfl⟩
  unfold PeersStates.getMaxIndex
  cases hmax : (states.states.entries.map fun e => e.2.blockHeight).max? with
  | none =>
      rw [List.max?_eq_none_iff] at hmax
      rw [hmax] at hmem
      cases hmem
  | some highest => exact (List.max?_eq_some_iff.mp hmax).2 _ hmem

variable {pf : Platform} {known : BlockFile → Prop} {source : PeerId → BlockKeeper}
  {attempts : List Attempt}

/-- A fetch brings the block of a chain of known blocks. -/
theorem Honest.fetched (hpf : pf.Lawful) (h : network.Honest pf known source attempts)
    {a : Attempt} (ha : a ∈ attempts) (hpos : 0 < a.idx) {b : BlockFile}
    (hfetched : a.fetched ⟨network.getLatestIndexes⟩ = .ok (some b)) :
    ∃ (k : BlockKeeper) (chain : List BlockFile), k.HoldsKnown pf known chain ∧
      ∃ hidx : a.idx - 1 < chain.length, b = chain.get ⟨a.idx - 1, hidx⟩ := by
  obtain ⟨q, hasked, hblock⟩ := Round.getBlockFile_eq_some_iff.mp hfetched
  obtain ⟨k, chain, hcontinues, hholds, hserved⟩ := h.block a ha q b hblock
  -- The peer has reported that height, and has not gone back.
  have hrequested := Round.mem_of_asked hasked
  have hchosen := (a.round.sampler.subperm _ _).subset hrequested
  obtain ⟨⟨q', state⟩, hentry, rfl⟩ := List.mem_map.mp hchosen
  obtain ⟨hmem, hheight⟩ := List.mem_filter.mp hentry
  have hlookup := HashMap.lookup_eq_some_iff.mpr hmem
  have hstate := h.latest _ _ (lookup_getLatestIndexes.mp hlookup).2
  have hreached : a.idx ≤ chain.length := by
    have hle : a.idx ≤ state.blockHeight := of_decide_eq_true hheight
    rw [hstate] at hle
    rw [← hholds.holds.height]
    exact hle.trans hcontinues.height
  have hidx : a.idx - 1 < chain.length := by omega
  refine ⟨k, chain, hholds, hidx, ?_⟩
  have hread := hholds.getBlock hpf hidx
  rw [Nat.sub_add_cancel hpos, hserved] at hread
  exact Except.ok.inj hread

end SyncNetwork

-- ============================================================================
-- The loop
-- ============================================================================

/-- The attempt brings nothing that the peer does not have staged. -/
def Attempt.Unusable (states : PeersStates) (p : Peer) (a : Attempt) : Prop :=
  ∀ b, a.fetched states = .ok (some b) → b.hash ∈ p.effects.blockKeeper.uncommitedBlocks

namespace Peer

/-- What the loop of a synchronization makes of the peer `p`, whose chain is `chain` and for
    which `errorsCount` attempts have failed: it adds blocks to the chain, and all other
    attempts are unusable ones. -/
structure Retrieves (pf : Platform) (known : BlockFile → Prop) (states : PeersStates)
    (chain : List BlockFile) (errorsCount : Nat) (p : Peer)
    (out : Peer × List Attempt × Option (Except Panic SyncState)) (added : List BlockFile)
    (wasted : List Attempt) : Prop where
  adds : Adds pf known chain p out.1 added
  sublist : wasted.Sublist out.2.1
  unusable : ∀ a ∈ wasted, a.Unusable states p
  attempts : out.2.1.length = added.length + wasted.length
  success : out.2.2 = some (.ok .success) → states.getMaxIndex ≤ chain.length + added.length
  fail : out.2.2 = some (.ok .fail) → errorsCount + wasted.length = 3

variable {pf : Platform} {known : BlockFile → Prop} {states : PeersStates}
  {chain added : List BlockFile} {wasted : List Attempt} {errorsCount : Nat} {p p' : Peer}
  {out : Peer × List Attempt × Option (Except Panic SyncState)} {a : Attempt} {b : BlockFile}

/-- An attempt that adds a block. -/
theorem Retrieves.cons_added (h : Retrieves pf known states (chain ++ [b]) errorsCount p' out
    added wasted) (hadds : Adds pf known chain p p' [b]) :
    Retrieves pf known states chain errorsCount p (out.1, a :: out.2.1, out.2.2) (b :: added)
      wasted := by
  refine ⟨hadds.trans h.adds, h.sublist.cons a, ?_, ?_, ?_, h.fail⟩
  · intro a ha b hfetched
    have hstaged := h.unusable a ha b hfetched
    rw [← AList.lookup_isSome] at hstaged ⊢
    rw [← hadds.staged]
    exact hstaged
  · rw [List.length_cons, List.length_cons, h.attempts]
    omega
  · intro hsuccess
    have hreached := h.success hsuccess
    rw [List.length_append, List.length_singleton] at hreached
    rw [List.length_cons]
    omega

/-- An attempt that does not. -/
theorem Retrieves.cons_unusable
    (h : Retrieves pf known states chain (errorsCount + 1) p out added wasted)
    (ha : a.Unusable states p) :
    Retrieves pf known states chain errorsCount p (out.1, a :: out.2.1, out.2.2) added
      (a :: wasted) := by
  refine ⟨h.adds, h.sublist.cons_cons a, List.forall_mem_cons.mpr ⟨ha, h.unusable⟩, ?_,
    h.success, ?_⟩
  · rw [List.length_cons, List.length_cons, h.attempts]
    omega
  · intro hfail
    have hcount := h.fail hfail
    rw [List.length_cons]
    omega

/-- The loop, from any point on. -/
theorem retrieve_retrieves (hforkless : HashChain.Forkless BlockFile.hash BlockFile.previousHash
      known) {round : Nat → Round} {fuel n : Nat}
    (hholds : p.effects.blockKeeper.HoldsKnown pf known chain)
    (hwritable : ∀ j, p.effects.blockKeeper.dir.writeFault j = none)
    (hfetched : ∀ a ∈ (retrieve round states (fun p block => p.applySynchronizedBlock pf block)
        fuel n (chain.length + 1) errorsCount p).2.1, ∀ b, a.fetched states = .ok (some b) →
      0 < a.idx → ∃ (k : BlockKeeper) (chain : List BlockFile), k.HoldsKnown pf known chain ∧
        ∃ hidx : a.idx - 1 < chain.length, b = chain.get ⟨a.idx - 1, hidx⟩) :
    ∃ added wasted, Retrieves pf known states chain errorsCount p
      (retrieve round states (fun p block => p.applySynchronizedBlock pf block) fuel n
        (chain.length + 1) errorsCount p) added wasted := by
  have hnone : ∀ p, ∀ a ∈ ([] : List Attempt), a.Unusable states p :=
    fun _ _ h => absurd h List.not_mem_nil
  induction fuel generalizing n errorsCount p chain with
  | zero =>
      refine ⟨[], [], .refl hholds hwritable, List.nil_sublist _, hnone p, rfl, ?_, ?_⟩
      · rintro ⟨⟩
      · rintro ⟨⟩
  | succ fuel ih =>
      unfold retrieve at hfetched ⊢
      by_cases hdone : chain.length + 1 > states.getMaxIndex
      · rw [if_pos hdone]
        refine ⟨[], [], .refl hholds hwritable, List.nil_sublist _, hnone p, rfl, ?_, ?_⟩
        · exact fun _ => Nat.le_of_lt_succ hdone
        · rintro ⟨⟩
      rw [if_neg hdone] at hfetched ⊢
      by_cases hfail : errorsCount = 3
      · rw [if_pos hfail]
        refine ⟨[], [], .refl hholds hwritable, List.nil_sublist _, hnone p, rfl, ?_, ?_⟩
        · rintro ⟨⟩
        · exact fun _ => hfail
      rw [if_neg hfail] at hfetched ⊢
      cases hattempt : Attempt.fetched { idx := chain.length + 1, round := round n } states with
      | error panic =>
          simp only [hattempt]
          refine ⟨[], [_], .refl hholds hwritable, List.Sublist.refl _, ?_, rfl, ?_, ?_⟩
          · intro a ha b hb
            rw [List.mem_singleton.mp ha, hattempt] at hb
            cases hb
          · rintro ⟨⟩
          · rintro ⟨⟩
      | ok fetched =>
          simp only [hattempt] at hfetched ⊢
          cases fetched with
          | none =>
              obtain ⟨added, wasted, hrest⟩ := ih hholds hwritable
                fun a ha => hfetched a (List.mem_cons_of_mem _ ha)
              refine ⟨added, _, hrest.cons_unusable fun b hb => ?_⟩
              rw [hattempt] at hb
              cases hb
          | some b =>
              -- What arrives goes on top of the chain.
              have hextended : ExtendedBy pf known chain b := by
                obtain ⟨k, chain', hholds', hidx, hb⟩ :=
                  hfetched _ List.mem_cons_self b hattempt (Nat.succ_pos _)
                rw [hb]
                exact hholds.next hforkless hholds' hidx
              by_cases hstaged : b.hash ∈ p.effects.blockKeeper.uncommitedBlocks
              · obtain ⟨e, happly⟩ := applySynchronizedBlock_staged pf hstaged
                simp only [happly] at hfetched ⊢
                obtain ⟨added, wasted, hrest⟩ := ih hholds hwritable
                  fun a ha => hfetched a (List.mem_cons_of_mem _ ha)
                refine ⟨added, _, hrest.cons_unusable fun b' hb' => ?_⟩
                rw [hattempt] at hb'
                cases hb'
                exact hstaged
              · obtain ⟨p', happly, hadds⟩ :=
                  applySynchronizedBlock_extends hholds hwritable hextended hstaged
                simp only [happly] at hfetched ⊢
                have hlength : (chain ++ [b]).length = chain.length + 1 := List.length_append
                rw [← hlength] at hfetched ⊢
                obtain ⟨added, wasted, hrest⟩ := ih hadds.holds hadds.writable
                  fun a ha => hfetched a (List.mem_cons_of_mem _ ha)
                exact ⟨_, wasted, hrest.cons_added hadds⟩

/-- The synchronization of `run_peer`. -/
def synchronize (pf : Platform) (network : SyncNetwork) (p : Peer) :
    Peer × List Attempt × Option (Except Panic SyncState) :=
  checkAndRetrieveMissingBlocks network p.effects.blockKeeper.blockStorageState.blockHeight
    (fun p block => p.applySynchronizedBlock pf block) p

end Peer

namespace Reference

/-- The store of a lone peer that was handed a deposit. -/
def holder : BlockKeeper := ((votingPeer []).run platform [submission deposit]).effects.blockKeeper

/-- Two peers that hold what the lone peer does. -/
def sharingNetwork : SyncNetwork where
  knownPeers := [2, 3]
  latestState _ := .ok holder.createBlockStorageView.getLatestState
  round _ :=
    { swappedRound with
      blockState := fun _ => .ok holder.createBlockStorageView.getLatestState
      block := fun _ => holder.createBlockStorageView.getBlock platform 1 }

theorem holder_holds :
    holder.HoldsKnown platform (· = firstBlock deposit) [firstBlock deposit] where
  holds :=
    { linked := ⟨by decide +kernel, trivial⟩
      height := by decide +kernel
      tip := by decide +kernel
      files := by decide +kernel }
  indexed := by decide +kernel
  known := by
    intro b hb
    rw [List.mem_singleton.mp hb]
    exact ⟨rfl, by decide +kernel⟩
  readable := fun _ => rfl

end Reference

namespace Peer

open Reference

end Peer

end Rustchain
