/-
  Rustchain.Storage.ArrivalOrder

  The block a mempool makes does not depend on the order of arrival.

  The mempool is a map by transaction id, and a block holds its values sorted by
  id.  So neither the order in which the transactions came, nor how often one
  came again, nor the order in which the map is walked shows in the block.
-/

import Mathlib.Data.Finset.Card
import Rustchain.Storage.Operations
import Rustchain.Storage.Transactions

namespace Rustchain

-- ============================================================================
-- Sorting by id
-- ============================================================================

namespace SignedTransaction

theorem pairwise_sorted (txs : List SignedTransaction) :
    (txs.insertionSort fun a b => a.txId ≤ b.txId).Pairwise fun a b => a.txId ≤ b.txId := by
  have htotal : Std.Total fun a b : SignedTransaction => a.txId ≤ b.txId :=
    ⟨fun a b => le_total a.txId b.txId⟩
  have htrans : IsTrans SignedTransaction fun a b => a.txId ≤ b.txId :=
    ⟨fun a b c hab hbc => le_trans hab hbc⟩
  exact List.pairwise_insertionSort _ _

/-- A list in the order of ids, all of them different, is the sorted list. -/
theorem eq_sorted {txs block : List SignedTransaction} (hperm : txs.Perm block)
    (hnodup : (txs.map txId).Nodup) (hsorted : block.Pairwise fun a b => a.txId ≤ b.txId) :
    block = txs.insertionSort fun a b => a.txId ≤ b.txId := by
  have hperm' := hperm.symm.trans
    (List.perm_insertionSort (fun a b : SignedTransaction => a.txId ≤ b.txId) txs).symm
  apply hperm'.eq_of_pairwise ?_ hsorted (pairwise_sorted txs)
  intro a b ha hb hab hba
  have ha' : a ∈ txs := hperm.mem_iff.mpr ha
  have hb' : b ∈ txs := (List.mem_insertionSort _).mp hb
  exact List.inj_on_of_nodup_map hnodup ha' hb' (le_antisymm hab hba)

theorem sorted_congr {txs txs' : List SignedTransaction} (hperm : txs.Perm txs')
    (hnodup : (txs'.map txId).Nodup) :
    (txs.insertionSort fun a b => a.txId ≤ b.txId) =
      txs'.insertionSort fun a b => a.txId ≤ b.txId :=
  eq_sorted (hperm.symm.trans (List.perm_insertionSort _ txs).symm) hnodup (pairwise_sorted txs)

end SignedTransaction

namespace BlockKeeper

-- ============================================================================
-- The order of the walk
-- ============================================================================

/-- `create_new_block`, with the transactions met in any order. -/
def createNewBlockIn (pf : Platform) (k : BlockKeeper)
    (walk : HashMap.Walk String SignedTransaction)
    (transactionsMap : HashMap String SignedTransaction) : BlockKeeper × BlockHash :=
  let transactions := (walk.order transactionsMap).insertionSort fun a b => a.txId ≤ b.txId
  let block := BlockFile.create pf transactions k.blockStorageState.lastCommitedHash
    (k.blockStorageState.blockHeight + 1)
  ({ k with
      previousHash := block.hash
      uncommitedBlocks := k.uncommitedBlocks.insert block.hash block
      pendingTransactions := transactionsMap.entries.foldl
        (fun m e => m.insert e.1 e.2) k.pendingTransactions
      created := k.created ++ [block] }, block.hash)

/-- `add_transaction`, with the mempool walked in any order. -/
def addTransactionIn (pf : Platform) (k : BlockKeeper)
    (walk : HashMap.Walk String SignedTransaction) (transaction : SignedTransaction) :
    BlockKeeper × BlockStatus :=
  let mempool := k.mempool.insert transaction.txId transaction
  if mempool.entries.length ≥ k.mempoolSize then
    let (k, blockHash) := { k with mempool := ∅ }.createNewBlockIn pf walk mempool
    (k, .newBlockCreated blockHash)
  else ({ k with mempool }, .addedToMempool)

/-- The order of the walk shows nowhere in the keeper. -/
theorem addTransactionIn_eq (pf : Platform) {k : BlockKeeper} (hkeyed : OwnIds k.mempool)
    (walk : HashMap.Walk String SignedTransaction) (tx : SignedTransaction) :
    k.addTransactionIn pf walk tx = k.addTransaction pf tx := by
  have hsorted : ∀ m : HashMap String SignedTransaction, OwnIds m →
      ((walk.order m).insertionSort fun a b => a.txId ≤ b.txId) =
        m.values.insertionSort fun a b => a.txId ≤ b.txId :=
    fun m hm => SignedTransaction.sorted_congr (walk.perm m) (Once.nodup_txIds hm)
  simp only [addTransactionIn, addTransaction, createNewBlockIn, createNewBlock,
    hsorted _ (hkeyed.insert tx)]

/-- The transaction that fills the mempool creates a block of all of it. -/
theorem addTransactionIn_full (pf : Platform) {k : BlockKeeper}
    (walk : HashMap.Walk String SignedTransaction) (tx : SignedTransaction)
    (hfull : (k.mempool.insert tx.txId tx).entries.length ≥ k.mempoolSize)
    {block : BlockFile}
    (hblock : block = .create pf ((walk.order (k.mempool.insert tx.txId tx)).insertionSort
        fun a b => a.txId ≤ b.txId)
      k.blockStorageState.lastCommitedHash (k.blockStorageState.blockHeight + 1)) :
    (k.addTransactionIn pf walk tx).2 = .newBlockCreated block.hash ∧
      (k.addTransactionIn pf walk tx).1.getUncommitedBlock block.hash = some block ∧
      (k.addTransactionIn pf walk tx).1.created = k.created ++ [block] := by
  unfold addTransactionIn
  rw [if_pos hfull, hblock]
  exact ⟨rfl, AList.lookup_insert _, rfl⟩

-- ============================================================================
-- Transactions one after the other
-- ============================================================================

/-- Adds transactions one after the other; the answers in that order. -/
def feed (pf : Platform) (walk : HashMap.Walk String SignedTransaction) (k : BlockKeeper) :
    List SignedTransaction → BlockKeeper × List BlockStatus
  | [] => (k, [])
  | tx :: txs =>
    let added := k.addTransactionIn pf walk tx
    let rest := feed pf walk added.1 txs
    (rest.1, added.2 :: rest.2)

theorem addTransaction_keyed (pf : Platform) {k : BlockKeeper} (hkeyed : OwnIds k.mempool)
    (tx : SignedTransaction) : OwnIds (k.addTransaction pf tx).1.mempool := by
  unfold addTransaction
  simp only
  split
  · exact fun id tx h => by cases h
  · exact hkeyed.insert tx

/-- Fed in any order of the walk, the keeper is the one `add_transaction` leaves. -/
theorem feed_eq_addTransaction (pf : Platform) (walk : HashMap.Walk String SignedTransaction)
    (txs : List SignedTransaction) : ∀ k : BlockKeeper, OwnIds k.mempool →
      (k.feed pf walk txs).1 = txs.foldl (fun k tx => (k.addTransaction pf tx).1) k := by
  induction txs with
  | nil => exact fun k _ => rfl
  | cons tx txs ih =>
      intro k hkeyed
      rw [List.foldl_cons, ← ih _ (addTransaction_keyed pf hkeyed tx), feed,
        addTransactionIn_eq pf hkeyed walk tx]

theorem feed_append (pf : Platform) (walk : HashMap.Walk String SignedTransaction)
    (txs txs' : List SignedTransaction) : ∀ k : BlockKeeper,
    k.feed pf walk (txs ++ txs') =
      (((k.feed pf walk txs).1.feed pf walk txs').1,
        (k.feed pf walk txs).2 ++ ((k.feed pf walk txs).1.feed pf walk txs').2) := by
  induction txs with
  | nil => exact fun k => rfl
  | cons tx txs ih =>
      intro k
      simp only [List.cons_append, feed, ih]

/-- The mempool after transactions that fit into it. -/
def collect (m : HashMap String SignedTransaction) (txs : List SignedTransaction) :
    HashMap String SignedTransaction :=
  txs.foldl (fun m tx => m.insert tx.txId tx) m

theorem collect_keyed {m : HashMap String SignedTransaction} (h : OwnIds m)
    (txs : List SignedTransaction) : OwnIds (collect m txs) := by
  induction txs generalizing m with
  | nil => exact h
  | cons tx txs ih => exact ih (h.insert tx)

/-- A collected transaction was there before or is one of the list. -/
theorem lookup_collect {txs : List SignedTransaction} {m : HashMap String SignedTransaction}
    {id : String} {tx : SignedTransaction} (h : (collect m txs).lookup id = some tx) :
    m.lookup id = some tx ∨ tx ∈ txs := by
  induction txs generalizing m with
  | nil => exact Or.inl h
  | cons other txs ih =>
      rcases ih h with hold | hmem
      · rw [HashMap.lookup_insert_ite] at hold
        split at hold
        · cases hold
          exact Or.inr List.mem_cons_self
        · exact Or.inl hold
      · exact Or.inr (List.mem_cons_of_mem _ hmem)

theorem mem_collect {txs : List SignedTransaction} {m : HashMap String SignedTransaction}
    {id : String} : id ∈ collect m txs ↔ id ∈ m ∨ id ∈ txs.map SignedTransaction.txId := by
  induction txs generalizing m with
  | nil => simp [collect]
  | cons tx txs ih =>
      rw [List.map_cons, List.mem_cons, ← or_assoc, or_comm (a := id ∈ m), ← AList.mem_insert]
      exact ih

theorem length_le_collect (txs : List SignedTransaction) :
    ∀ m : HashMap String SignedTransaction,
      m.entries.length ≤ (collect m txs).entries.length := by
  induction txs with
  | nil => exact fun m => le_refl _
  | cons tx txs ih =>
      intro m
      have hinsert : m.keys.length ≤ (m.insert tx.txId tx).keys.length := by
        rw [AList.keys_insert, List.length_cons, List.length_erase]
        split <;> omega
      simp only [AList.keys, List.keys, List.length_map] at hinsert
      exact hinsert.trans (ih _)

/-- As long as the mempool stays below its size, transactions only collect in it. -/
theorem feed_collect (pf : Platform) (walk : HashMap.Walk String SignedTransaction)
    (txs : List SignedTransaction) : ∀ k : BlockKeeper,
    (collect k.mempool txs).entries.length < k.mempoolSize →
      k.feed pf walk txs = ({ k with mempool := collect k.mempool txs },
        List.replicate txs.length .addedToMempool) := by
  induction txs with
  | nil => exact fun k _ => rfl
  | cons tx txs ih =>
      intro k hlt
      have hbelow : (k.mempool.insert tx.txId tx).entries.length < k.mempoolSize :=
        lt_of_le_of_lt (length_le_collect txs _) hlt
      have hadded : k.addTransactionIn pf walk tx =
          ({ k with mempool := k.mempool.insert tx.txId tx }, .addedToMempool) := by
        unfold addTransactionIn
        rw [if_neg (not_le.mpr hbelow)]
      simp only [feed, hadded]
      rw [ih { k with mempool := k.mempool.insert tx.txId tx } hlt]
      rfl

-- ============================================================================
-- A set of transactions
-- ============================================================================

variable {S : Finset SignedTransaction}

/-- The list feeds the set: it is of transactions of the set, with repetitions, and
    the one that completes the set comes last. -/
structure Feeds (S : Finset SignedTransaction) (txs : List SignedTransaction) : Prop where
  mem : ∀ tx, tx ∈ txs ↔ tx ∈ S
  last : ∃ before final, txs = before ++ [final] ∧ final ∉ before

/-- What is collected of transactions with different ids are these transactions. -/
theorem values_collect (hids : Set.InjOn SignedTransaction.txId S) {txs : List SignedTransaction}
    (hsub : ∀ tx ∈ txs, tx ∈ S) :
    (collect ∅ txs).values.Nodup ∧ ∀ tx, tx ∈ (collect ∅ txs).values ↔ tx ∈ txs := by
  have hkeyed : OwnIds (collect ∅ txs) := collect_keyed (fun id tx h => by cases h) txs
  have hold : ∀ tx ∈ (collect ∅ txs).values, tx ∈ txs := by
    intro tx hmem
    obtain ⟨id, hlookup⟩ := HashMap.lookup_of_mem_values hmem
    rcases lookup_collect hlookup with h | h
    · cases h
    · exact h
  refine ⟨(Once.nodup_txIds hkeyed).of_map, fun tx => ⟨hold tx, fun htx => ?_⟩⟩
  have hid : tx.txId ∈ (collect ∅ txs).values.map SignedTransaction.txId := by
    rw [Once.txIds_values hkeyed, ← AList.mem_keys]
    exact mem_collect.mpr (Or.inr (List.mem_map_of_mem htx))
  obtain ⟨own, hown, heq⟩ := List.mem_map.mp hid
  rw [← hids (hsub own (hold own hown)) (hsub tx htx) heq]
  exact hown

/-- The last transaction completes the mempool, and no earlier one does. -/
theorem Feeds.length (hids : Set.InjOn SignedTransaction.txId S)
    {before : List SignedTransaction} {final : SignedTransaction}
    (hmem : ∀ tx, tx ∈ before ++ [final] ↔ tx ∈ S) (hnew : final ∉ before) :
    (collect ∅ before).entries.length < S.card ∧
      (collect ∅ (before ++ [final])).values.Perm S.toList := by
  have hbefore : ∀ tx ∈ before, tx ∈ S :=
    fun tx htx => (hmem tx).mp (List.mem_append_left _ htx)
  have hfinal : final ∈ S := (hmem final).mp (by simp)
  obtain ⟨hnodup, hvalues⟩ := values_collect hids hbefore
  obtain ⟨hnodup', hvalues'⟩ := values_collect hids fun tx htx => (hmem tx).mp htx
  constructor
  · have hsub : final :: (collect ∅ before).values ⊆ S.toList := by
      intro tx htx
      rw [Finset.mem_toList]
      rcases List.mem_cons.mp htx with rfl | htx
      · exact hfinal
      · exact hbefore tx ((hvalues tx).mp htx)
    have hcons : (final :: (collect ∅ before).values).Nodup :=
      List.nodup_cons.mpr ⟨fun h => hnew ((hvalues final).mp h), hnodup⟩
    have hle := (List.subperm_of_subset hcons hsub).length_le
    rw [List.length_cons, HashMap.values, List.length_map, Finset.length_toList] at hle
    exact hle
  · rw [List.perm_ext_iff_of_nodup hnodup' S.nodup_toList]
    intro tx
    rw [hvalues', hmem, Finset.mem_toList]

/-- Feeding the list creates this block, with its last transaction and not before.  The
    order of the walk does not show in the keeper. -/
structure CreatesAtEnd (pf : Platform) (walk : HashMap.Walk String SignedTransaction)
    (k : BlockKeeper) (txs : List SignedTransaction) (block : BlockFile) : Prop where
  statuses : (k.feed pf walk txs).2 =
    List.replicate (txs.length - 1) .addedToMempool ++ [.newBlockCreated block.hash]
  staged : (k.feed pf walk txs).1.getUncommitedBlock block.hash = some block
  created : (k.feed pf walk txs).1.created = k.created ++ [block]
  keeper : (k.feed pf walk txs).1 = txs.foldl (fun k tx => (k.addTransaction pf tx).1) k

/-- The block that a set of transactions makes on a keeper. -/
theorem feed_creates (pf : Platform) (hids : Set.InjOn SignedTransaction.txId S) {k : BlockKeeper}
    (hsize : k.mempoolSize = S.card) (hempty : k.mempool = ∅) {txs : List SignedTransaction}
    (hfeeds : Feeds S txs) (walk : HashMap.Walk String SignedTransaction) :
    CreatesAtEnd pf walk k txs
      (.create pf (S.toList.insertionSort fun a b => a.txId ≤ b.txId)
        k.blockStorageState.lastCommitedHash (k.blockStorageState.blockHeight + 1)) := by
  obtain ⟨before, final, rfl, hnew⟩ := hfeeds.last
  obtain ⟨hlt, hperm⟩ := Feeds.length hids hfeeds.mem hnew
  have hbefore : k.feed pf walk before = ({ k with mempool := collect ∅ before },
      List.replicate before.length .addedToMempool) := by
    rw [feed_collect pf walk before k (by rw [hempty, hsize]; exact hlt), hempty]
  have hfull : (collect ∅ (before ++ [final])).entries.length ≥ k.mempoolSize := by
    have hlength := hperm.length_eq
    rw [HashMap.values, List.length_map, Finset.length_toList] at hlength
    rw [hsize, hlength]
  have hsorted := SignedTransaction.sorted_congr ((walk.perm _).trans hperm)
    ((hperm.map SignedTransaction.txId).nodup_iff.mp
      (Once.nodup_txIds (collect_keyed (fun id tx h => by cases h) _)))
  have hcollect : (collect ∅ before).insert final.txId final = collect ∅ (before ++ [final]) := by
    rw [collect, collect, List.foldl_append]
    rfl
  obtain ⟨hstatus, hstaged, hcreated⟩ :=
    addTransactionIn_full pf (k := { k with mempool := collect ∅ before }) walk final
      (by rw [hcollect]; exact hfull) (by rw [hcollect, hsorted])
  constructor
  · rw [feed_append, hbefore, List.length_append]
    exact congrArg (List.replicate before.length _ ++ [·]) hstatus
  · rw [feed_append, hbefore]
    exact hstaged
  · rw [feed_append, hbefore]
    exact hcreated
  · exact feed_eq_addTransaction pf walk _ k (by rw [hempty]; exact fun id tx h => by cases h)

/-- Two keepers on the same tip, fed the same transactions in any orders, with any
    repetitions and any orders of their walks, create the same block. -/
theorem feed_orderIndependent (pf : Platform) (S : Finset SignedTransaction)
    (hids : Set.InjOn SignedTransaction.txId S) (k₁ k₂ : BlockKeeper)
    (hsize₁ : k₁.mempoolSize = S.card) (hsize₂ : k₂.mempoolSize = S.card)
    (hempty₁ : k₁.mempool = ∅) (hempty₂ : k₂.mempool = ∅)
    (hstate : k₁.blockStorageState = k₂.blockStorageState)
    (txs₁ txs₂ : List SignedTransaction) (hfeeds₁ : Feeds S txs₁) (hfeeds₂ : Feeds S txs₂)
    (walk₁ walk₂ : HashMap.Walk String SignedTransaction) :
    ∃ block, CreatesAtEnd pf walk₁ k₁ txs₁ block ∧ CreatesAtEnd pf walk₂ k₂ txs₂ block ∧
      block.index = k₁.blockStorageState.blockHeight + 1 ∧
      block.previousHash = k₁.blockStorageState.lastCommitedHash ∧
      ∀ tx, tx ∈ block.transactions ↔ tx ∈ S := by
  have hcreates := feed_creates pf hids hsize₁ hempty₁ hfeeds₁ walk₁
  have hcreates' := feed_creates pf hids hsize₂ hempty₂ hfeeds₂ walk₂
  rw [← hstate] at hcreates'
  refine ⟨_, hcreates, hcreates', rfl, rfl, fun tx => ?_⟩
  exact (List.mem_insertionSort _).trans Finset.mem_toList

end BlockKeeper

namespace Reference

open BlockKeeper

/-- An empty block store that packs two transactions into a block. -/
def pairStore (path : String) : BlockKeeper := .new platform (.empty path) 2 (.listed _ _)

/-- The walk over a map from its last entry to its first. -/
def backwards : HashMap.Walk String SignedTransaction where
  order m := m.values.reverse
  perm m := List.reverse_perm m.values

theorem feeds_pair : Feeds {deposit, otherDeposit} [deposit, otherDeposit] :=
  ⟨by simp, [deposit], otherDeposit, rfl, by decide⟩

theorem feeds_pair_again :
    Feeds {deposit, otherDeposit} [otherDeposit, otherDeposit, deposit] := by
  refine ⟨fun tx => ?_, [otherDeposit, otherDeposit], deposit, rfl, by decide⟩
  simp only [List.mem_cons, List.not_mem_nil, or_false, Finset.mem_insert, Finset.mem_singleton]
  tauto

end Reference

namespace BlockKeeper

open Reference

theorem feed_orderIndependent_pair :
    ∃ block, CreatesAtEnd platform (.listed _ _) (pairStore "one") [deposit, otherDeposit] block ∧
      CreatesAtEnd platform backwards (pairStore "two") [otherDeposit, otherDeposit, deposit]
        block ∧
      block.index = 1 ∧ block.previousHash = emptyHash ∧
      ∀ tx, tx ∈ block.transactions ↔ tx ∈ ({deposit, otherDeposit} : Finset _) := by
  refine feed_orderIndependent platform {deposit, otherDeposit} ?_ (pairStore "one")
    (pairStore "two") (by decide) (by decide) rfl rfl rfl _ _ feeds_pair feeds_pair_again _ _
  intro a ha b hb hid
  have hne : deposit.txId ≠ otherDeposit.txId := by decide
  simp only [Finset.coe_insert, Finset.coe_singleton, Set.mem_insert_iff,
    Set.mem_singleton_iff] at ha hb
  rcases ha with rfl | rfl <;> rcases hb with rfl | rfl
  · rfl
  · exact absurd hid hne
  · exact absurd hid.symm hne
  · rfl

end BlockKeeper
end Rustchain
