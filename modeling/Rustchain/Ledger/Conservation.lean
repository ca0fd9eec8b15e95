/-
  Rustchain.Ledger.Conservation

  Coins are conserved as long as every transaction is rolled back while the
  account it credited still has the coins.

  `rollback_transaction` subtracts with saturation.  If the coins have moved on,
  it takes less from the credited account than it gives back to the sender (or
  than the `AddCoin` had created), and nothing later takes the difference away:
  the excess over the coins created by applied transactions never shrinks.
-/

import Rustchain.Ledger.Balances

namespace Rustchain
namespace TransactionProcessor

-- ============================================================================
-- What a rollback undoes
-- ============================================================================

/-- The transactions that rolling back one after the other undoes: those that
    are applied, each of them once. -/
def undone (applied : Finset String) : List SignedTransaction → List SignedTransaction
  | [] => []
  | tx :: txs =>
    if tx.txId ∈ applied then tx :: undone (applied.erase tx.txId) txs else undone applied txs

/-- No balance outgrows its type while the transactions are rolled back one after
    the other. -/
def RefundsFit : TransactionProcessor → List SignedTransaction → Prop
  | _, [] => True
  | tp, tx :: txs =>
    (tx.txId ∈ tp.appliedTransactions → tp.RefundFits tx) ∧
      RefundsFit (tp.rollbackTransaction tx) txs

instance decidableRefundsFit :
    ∀ (txs : List SignedTransaction) (tp : TransactionProcessor), Decidable (tp.RefundsFit txs)
  | [], _ => .isTrue trivial
  | tx :: txs, tp =>
    have := decidableRefundsFit txs (tp.rollbackTransaction tx)
    inferInstanceAs (Decidable (_ ∧ _))

/-- Every applied transaction of the set has its accounts. -/
def AllStanding (tp : TransactionProcessor) (known : Finset SignedTransaction) : Prop :=
  ∀ tx ∈ known, tx.txId ∈ tp.appliedTransactions → tp.Standing tx

theorem AllStanding.rollbackTransaction {tp : TransactionProcessor}
    {known : Finset SignedTransaction} (h : tp.AllStanding known) (tx : SignedTransaction) :
    (tp.rollbackTransaction tx).AllStanding known := by
  intro other hknown happlied
  rw [appliedTransactions_rollbackTransaction] at happlied
  apply (h other hknown (Finset.mem_of_mem_erase happlied)).mono
  intro id assetType htype
  rw [assetTypeOf_rollbackTransaction]
  exact htype

/-- Rolling back one after the other undoes the moves of what is undone. -/
theorem balanceOf_foldl_rollbackTransaction {known : Finset SignedTransaction}
    {txs : List SignedTransaction} {tp : TransactionProcessor} (hstanding : tp.AllStanding known)
    (hknown : ∀ tx ∈ txs, tx ∈ known) (hfits : tp.RefundsFit txs) :
    (txs.foldl rollbackTransaction tp).balanceOf =
      Move.undoAll ((undone tp.appliedTransactions txs).map SignedTransaction.move)
        tp.balanceOf := by
  induction txs generalizing tp with
  | nil => rfl
  | cons tx txs ih =>
      have hrest := ih (hstanding.rollbackTransaction tx)
        (fun other hmem => hknown other (List.mem_cons_of_mem tx hmem)) hfits.2
      rw [List.foldl_cons, hrest, appliedTransactions_rollbackTransaction, undone]
      by_cases happlied : tx.txId ∈ tp.appliedTransactions
      · have hfirst : (tp.rollbackTransaction tx).balanceOf = tx.move.undo tp.balanceOf := by
          funext id
          exact balanceOf_rollbackTransaction happlied
            (hstanding tx (hknown tx List.mem_cons_self) happlied) (hfits.1 happlied) id
        rw [if_pos happlied, hfirst]
        rfl
      · rw [if_neg happlied, Finset.erase_eq_of_notMem happlied, rollbackTransaction,
          if_pos happlied]

-- ============================================================================
-- Coins held and coins created
-- ============================================================================

/-- The accounts of an asset type. -/
def holders (tp : TransactionProcessor) (assetType : AssetType) : Finset String :=
  tp.accounts.keys.toFinset.filter fun id => tp.assetTypeOf id = some assetType

/-- The coins of an asset type in all accounts. -/
def held (tp : TransactionProcessor) (assetType : AssetType) : ℕ :=
  ∑ id ∈ tp.holders assetType, tp.balanceOf id

/-- The coins of an asset type created by the applied `AddCoin`s of a set of
    transactions. -/
def created (tp : TransactionProcessor) (known : Finset SignedTransaction)
    (assetType : AssetType) : ℕ :=
  ∑ tx ∈ known with
    tx.isSend = false ∧ tx.assetType = assetType ∧ tx.txId ∈ tp.appliedTransactions,
    tx.amount.toNat

/-- The coins held beyond those created. -/
def excess (tp : TransactionProcessor) (known : Finset SignedTransaction)
    (assetType : AssetType) : ℤ :=
  (tp.held assetType : ℤ) - tp.created known assetType

theorem mem_holders {tp : TransactionProcessor} {assetType : AssetType} {id : String} :
    id ∈ tp.holders assetType ↔ tp.assetTypeOf id = some assetType := by
  rw [holders, Finset.mem_filter, List.mem_toFinset, ← AList.mem_keys]
  refine ⟨fun h => h.2, fun h => ⟨?_, h⟩⟩
  obtain ⟨account, hacc, -⟩ := Option.map_eq_some_iff.mp h
  have hsome : (tp.accounts.lookup id).isSome = true := by
    rw [show tp.accounts.lookup id = some account from hacc]
    rfl
  exact AList.lookup_isSome.mp hsome

/-- A move between accounts of the transaction's type adds to that type alone. -/
theorem sum_net_holders {tp : TransactionProcessor} {tx : SignedTransaction}
    (h : tp.Standing tx) (assetType : AssetType) :
    ∑ id ∈ tp.holders assetType, tx.move.net id =
      if tx.isSend = false ∧ tx.assetType = assetType then (tx.amount.toNat : ℤ) else 0 := by
  by_cases htype : tx.assetType = assetType
  · have hminted : (tx.move.minted : ℤ) = if tx.isSend = false then (tx.amount.toNat : ℤ) else 0 := by
      cases hsend : tx.isSend <;> simp [Move.minted, SignedTransaction.move, hsend]
    rw [Move.sum_net_of_mem, hminted]
    · simp only [htype, and_true]
    · rw [mem_holders, ← htype]
      exact h.credited
    · intro id hsource
      obtain ⟨hsend, rfl⟩ := SignedTransaction.move_source_eq.mp hsource
      rw [mem_holders, ← htype]
      exact h.signer hsend
  · rw [if_neg (fun hboth => htype hboth.2)]
    have hother : ∀ id, tp.assetTypeOf id = some tx.assetType → id ∉ tp.holders assetType := by
      intro id hid hmem
      rw [mem_holders, hid, Option.some.injEq] at hmem
      exact htype hmem
    apply Move.sum_net_of_notMem
    · exact hother _ h.credited
    · intro id hsource
      obtain ⟨hsend, rfl⟩ := SignedTransaction.move_source_eq.mp hsource
      exact hother _ (h.signer hsend)

/-- One more applied transaction, or one less. -/
theorem created_insert {tp tp' : TransactionProcessor} {known : Finset SignedTransaction}
    {tx : SignedTransaction} (hids : Set.InjOn SignedTransaction.txId (known : Set SignedTransaction))
    (hknown : tx ∈ known) (hnew : tx.txId ∉ tp.appliedTransactions)
    (happlied : tp'.appliedTransactions = insert tx.txId tp.appliedTransactions)
    (assetType : AssetType) :
    (tp'.created known assetType : ℤ) = tp.created known assetType +
      if tx.isSend = false ∧ tx.assetType = assetType then (tx.amount.toNat : ℤ) else 0 := by
  -- Only the transaction itself has its id, so only its own term changes.
  have hterm : ∀ other ∈ known,
      (if other.isSend = false ∧ other.assetType = assetType ∧
          other.txId ∈ tp'.appliedTransactions then other.amount.toNat else 0) =
        (if other.isSend = false ∧ other.assetType = assetType ∧
          other.txId ∈ tp.appliedTransactions then other.amount.toNat else 0) +
        if tx = other then
          if tx.isSend = false ∧ tx.assetType = assetType then tx.amount.toNat else 0
        else 0 := by
    intro other hother
    simp only [happlied, Finset.mem_insert]
    by_cases heq : tx = other
    · subst heq
      simp only [hnew, and_true, or_false, and_false, if_true, if_false, zero_add]
    · have hid : other.txId ≠ tx.txId := fun hid => heq (hids hother hknown hid).symm
      simp only [hid, false_or, if_neg heq, add_zero]
  unfold created
  rw [Finset.sum_filter, Finset.sum_filter, Finset.sum_congr rfl hterm, Finset.sum_add_distrib,
    Finset.sum_ite_eq, if_pos hknown]
  push_cast
  rfl

/-- Accounts that have not come about yet hold nothing. -/
theorem sum_holders_of_kept {tp tp' : TransactionProcessor}
    (hkept : ∀ id assetType, tp.assetTypeOf id = some assetType →
      tp'.assetTypeOf id = some assetType) (assetType : AssetType) :
    ∑ id ∈ tp'.holders assetType, tp.balanceOf id = tp.held assetType := by
  symm
  apply Finset.sum_subset
  · intro id hmem
    exact mem_holders.mpr (hkept id assetType (mem_holders.mp hmem))
  · intro id hmem hnot
    apply balanceOf_of_assetTypeOf_eq_none
    cases htype : tp.assetTypeOf id with
    | none => rfl
    | some other =>
        have hsame := (hkept id other htype).symm.trans (mem_holders.mp hmem)
        rw [Option.some.injEq] at hsame
        exact absurd (mem_holders.mpr (hsame ▸ htype)) hnot

/-- A transaction changes nothing or is applied for the first time. -/
theorem processTransaction_eq_or (tp : TransactionProcessor) (tx : SignedTransaction) :
    (tp.processTransaction tx).1 = tp ∨
      tx.txId ∉ tp.appliedTransactions ∧ tp.Accepts tx ∧
        (tp.processTransaction tx).1.appliedTransactions =
          insert tx.txId tp.appliedTransactions := by
  by_cases hnew : tx.txId ∈ tp.appliedTransactions
  · rw [processTransaction, if_pos hnew]
    exact Or.inl rfl
  rcases processTransaction_cases hnew with ⟨-, e, heq⟩ | ⟨haccepts, -, happlied, -⟩
  · rw [heq]
    exact Or.inl rfl
  · exact Or.inr ⟨hnew, haccepts, happlied⟩

theorem appliedTransactions_subset_processTransaction (tp : TransactionProcessor)
    (tx : SignedTransaction) :
    tp.appliedTransactions ⊆ (tp.processTransaction tx).1.appliedTransactions := by
  rcases tp.processTransaction_eq_or tx with heq | ⟨-, -, heq⟩
  · rw [heq]
  · rw [heq]
    exact Finset.subset_insert _ _

/-- An accepted transaction is applied. -/
theorem mem_appliedTransactions_of_ok {tp : TransactionProcessor} {tx : SignedTransaction}
    (h : (tp.processTransaction tx).2 = .ok ()) :
    tx.txId ∈ (tp.processTransaction tx).1.appliedTransactions := by
  by_cases hnew : tx.txId ∈ tp.appliedTransactions
  · rw [processTransaction, if_pos hnew]
    exact hnew
  · rcases processTransaction_cases hnew with ⟨-, e, heq⟩ | ⟨-, -, happlied, -⟩
    · rw [heq] at h
      cases h
    · rw [happlied]
      exact Finset.mem_insert_self _ _

theorem appliedTransactions_subset_foldl (txs : List SignedTransaction)
    (tp : TransactionProcessor) :
    tp.appliedTransactions ⊆
      (txs.foldl (fun tp tx => (tp.processTransaction tx).1) tp).appliedTransactions := by
  induction txs generalizing tp with
  | nil => exact Finset.Subset.refl _
  | cons tx txs ih =>
      exact (appliedTransactions_subset_processTransaction tp tx).trans (ih _)

theorem AllAccepted.mem_appliedTransactions {txs : List SignedTransaction}
    {tp : TransactionProcessor} (h : tp.AllAccepted txs) {tx : SignedTransaction}
    (hmem : tx ∈ txs) :
    tx.txId ∈
      (txs.foldl (fun tp tx => (tp.processTransaction tx).1) tp).appliedTransactions := by
  induction txs generalizing tp with
  | nil => cases hmem
  | cons first txs ih =>
      obtain ⟨hok, hrest⟩ := allAccepted_cons.mp h
      rcases List.mem_cons.mp hmem with rfl | hmem
      · exact appliedTransactions_subset_foldl txs _ (mem_appliedTransactions_of_ok hok)
      · exact ih hrest hmem

/-- Processing a transaction, whatever becomes of it, keeps the excess. -/
theorem excess_processTransaction {tp : TransactionProcessor} {known : Finset SignedTransaction}
    {tx : SignedTransaction} (hids : Set.InjOn SignedTransaction.txId (known : Set SignedTransaction))
    (hknown : tx ∈ known)
    (hfits : tx.txId ∉ tp.appliedTransactions → tp.Accepts tx → tp.CreditFits tx)
    (assetType : AssetType) :
    (tp.processTransaction tx).1.excess known assetType = tp.excess known assetType := by
  rcases processTransaction_eq_or tp tx with hnoop | ⟨hnew, haccepts, happlied⟩
  · rw [hnoop]
  have hkept : ∀ id other, tp.assetTypeOf id = some other →
      (tp.processTransaction tx).1.assetTypeOf id = some other :=
    fun _ _ => assetTypeOf_processTransaction
  have hheld : ((tp.processTransaction tx).1.held assetType : ℤ) = tp.held assetType +
      ∑ id ∈ (tp.processTransaction tx).1.holders assetType, tx.move.net id := by
    rw [← sum_holders_of_kept hkept, ← Move.sum_apply haccepts.funded_move, held]
    congr 1
    exact Finset.sum_congr rfl fun id _ =>
      balanceOf_processTransaction hnew haccepts (hfits hnew haccepts) id
  rw [sum_net_holders (standing_processTransaction hnew haccepts)] at hheld
  rw [excess, excess, hheld, created_insert hids hknown hnew happlied]
  omega

/-- Rolling an applied transaction back adds what its credited account lacks. -/
theorem excess_rollbackTransaction {tp : TransactionProcessor}
    {known : Finset SignedTransaction} {tx : SignedTransaction}
    (hids : Set.InjOn SignedTransaction.txId (known : Set SignedTransaction))
    (hknown : tx ∈ known) (happlied : tx.txId ∈ tp.appliedTransactions)
    (hstanding : tp.Standing tx) (hfits : tp.RefundFits tx) (assetType : AssetType) :
    (tp.rollbackTransaction tx).excess known assetType = tp.excess known assetType +
      if tx.assetType = assetType then
        ((tx.amount.toNat - tp.balanceOf tx.credited : ℕ) : ℤ)
      else 0 := by
  have hholders : (tp.rollbackTransaction tx).holders assetType = tp.holders assetType := by
    ext id
    rw [mem_holders, mem_holders, assetTypeOf_rollbackTransaction]
  have hnew : tx.txId ∉ (tp.rollbackTransaction tx).appliedTransactions := by
    rw [appliedTransactions_rollbackTransaction]
    exact Finset.notMem_erase _ _
  have hinsert : tp.appliedTransactions =
      insert tx.txId (tp.rollbackTransaction tx).appliedTransactions := by
    rw [appliedTransactions_rollbackTransaction, Finset.insert_erase happlied]
  have hcreated := created_insert hids hknown hnew hinsert assetType
  have hmem : tx.move.target ∈ tp.holders assetType ↔ tx.assetType = assetType := by
    show tx.credited ∈ tp.holders assetType ↔ tx.assetType = assetType
    rw [mem_holders, hstanding.credited, Option.some.injEq]
  have hheld : ((tp.rollbackTransaction tx).held assetType : ℤ) = tp.held assetType -
      (∑ id ∈ tp.holders assetType, tx.move.net id) +
        if tx.assetType = assetType then
          ((tx.amount.toNat - tp.balanceOf tx.credited : ℕ) : ℤ)
        else 0 := by
    have hsum := Move.sum_undo tx.move tp.balanceOf (tp.holders assetType)
    rw [if_congr hmem rfl rfl] at hsum
    rw [held, hholders, held]
    refine Eq.trans ?_ hsum
    congr 1
    exact Finset.sum_congr rfl fun id _ =>
      balanceOf_rollbackTransaction happlied hstanding hfits id
  rw [sum_net_holders hstanding] at hheld
  rw [excess, excess, hheld]
  omega

/-- Every transaction that is rolled back finds its amount in the account it
    credited, going by the balances before the first of them. -/
def RefundsCovered (tp : TransactionProcessor) (txs : List SignedTransaction) : Prop :=
  Move.CoveredAll ((undone tp.appliedTransactions txs).map SignedTransaction.move)
    fun id => (tp.balanceOf id : ℤ)

instance (tp : TransactionProcessor) (txs : List SignedTransaction) :
    Decidable (tp.RefundsCovered txs) :=
  inferInstanceAs (Decidable (Move.CoveredAll _ _))

theorem refundsCovered_cons_of_notMem {tp : TransactionProcessor} {tx : SignedTransaction}
    (hnew : tx.txId ∉ tp.appliedTransactions) (txs : List SignedTransaction) :
    tp.RefundsCovered (tx :: txs) ↔ tp.RefundsCovered txs := by
  rw [RefundsCovered, RefundsCovered, undone, if_neg hnew]

/-- A covered transaction leaves the balances that the rest is judged by. -/
theorem refundsCovered_cons {tp : TransactionProcessor} {tx : SignedTransaction}
    (happlied : tx.txId ∈ tp.appliedTransactions) (hstanding : tp.Standing tx)
    (hfits : tp.RefundFits tx) (txs : List SignedTransaction) :
    tp.RefundsCovered (tx :: txs) ↔
      tx.amount.toNat ≤ tp.balanceOf tx.credited ∧
        (tp.rollbackTransaction tx).RefundsCovered txs := by
  have hfirst : tp.RefundsCovered (tx :: txs) ↔ tx.amount.toNat ≤ tp.balanceOf tx.credited ∧
      Move.CoveredAll ((undone (tp.appliedTransactions.erase tx.txId) txs).map
        SignedTransaction.move) fun id => (tp.balanceOf id : ℤ) - tx.move.net id := by
    rw [RefundsCovered, undone, if_pos happlied, List.map_cons, Move.coveredAll_cons]
    exact and_congr_left' Int.ofNat_le
  rw [hfirst, RefundsCovered, appliedTransactions_rollbackTransaction]
  apply and_congr_right
  intro hle
  have hbalances : (fun id => (tp.balanceOf id : ℤ) - tx.move.net id) =
      fun id => ((tp.rollbackTransaction tx).balanceOf id : ℤ) := by
    funext id
    rw [balanceOf_rollbackTransaction happlied hstanding hfits, Move.undo_eq_of_covered hle]
  rw [hbalances]

/-- Rolling back never lowers the excess, and keeps it if and only if every
    transaction rolled back is covered. -/
theorem excess_foldl_rollbackTransaction {known : Finset SignedTransaction}
    {txs : List SignedTransaction} {tp : TransactionProcessor}
    (hids : Set.InjOn SignedTransaction.txId (known : Set SignedTransaction))
    (hstanding : tp.AllStanding known) (hknown : ∀ tx ∈ txs, tx ∈ known)
    (hfits : tp.RefundsFit txs) :
    (∀ assetType, tp.excess known assetType ≤
        (txs.foldl rollbackTransaction tp).excess known assetType) ∧
      ((∀ assetType, (txs.foldl rollbackTransaction tp).excess known assetType =
          tp.excess known assetType) ↔ tp.RefundsCovered txs) := by
  induction txs generalizing tp with
  | nil => exact ⟨fun _ => le_refl _, iff_of_true (fun _ => rfl) (Move.coveredAll_nil _)⟩
  | cons tx txs ih =>
      have htx := hknown tx List.mem_cons_self
      obtain ⟨hgrows, hiff⟩ := ih (hstanding.rollbackTransaction tx)
        (fun other hmem => hknown other (List.mem_cons_of_mem tx hmem)) hfits.2
      rw [List.foldl_cons]
      by_cases happlied : tx.txId ∈ tp.appliedTransactions
      · have hstep := excess_rollbackTransaction hids htx happlied (hstanding tx htx happlied)
          (hfits.1 happlied)
        rw [refundsCovered_cons happlied (hstanding tx htx happlied) (hfits.1 happlied), ← hiff]
        refine ⟨fun assetType => ?_, ?_⟩
        · have hlater := hgrows assetType
          rw [hstep] at hlater
          split at hlater <;> omega
        constructor
        · -- The excess never falls, so what it gained here would be left in the end.
          intro hsame
          have hle : tx.amount.toNat ≤ tp.balanceOf tx.credited := by
            have hlater := hgrows tx.assetType
            have hfinal := hsame tx.assetType
            rw [hstep, if_pos rfl] at hlater
            omega
          refine ⟨hle, fun assetType => ?_⟩
          rw [hsame, hstep, Nat.sub_eq_zero_of_le hle]
          simp
        · rintro ⟨hle, hlater⟩ assetType
          rw [hlater, hstep, Nat.sub_eq_zero_of_le hle]
          simp
      · have hskip : tp.rollbackTransaction tx = tp := by
          rw [rollbackTransaction, if_pos happlied]
        rw [hskip] at hgrows hiff ⊢
        exact ⟨hgrows, hiff.trans (refundsCovered_cons_of_notMem happlied txs).symm⟩

-- ============================================================================
-- Runs
-- ============================================================================

/-- A call that changes the ledger. -/
inductive Call where
  | processTransaction (tx : SignedTransaction)
  | rollbackTransactions (txs : List SignedTransaction)

def Call.transactions : Call → List SignedTransaction
  | processTransaction tx => [tx]
  | rollbackTransactions txs => txs

def call (tp : TransactionProcessor) : Call → TransactionProcessor
  | .processTransaction tx => (tp.processTransaction tx).1
  | .rollbackTransactions txs => tp.rollbackTransactions txs

def callAll (tp : TransactionProcessor) (calls : List Call) : TransactionProcessor :=
  calls.foldl call tp

/-- No balance outgrows its type during the call. -/
def CallFits (tp : TransactionProcessor) : Call → Prop
  | .processTransaction tx =>
    tx.txId ∉ tp.appliedTransactions → tp.Accepts tx → tp.CreditFits tx
  | .rollbackTransactions txs => tp.RefundsFit txs.reverse

/-- The transactions that the call rolls back, last first, are covered. -/
def CallCovered (tp : TransactionProcessor) : Call → Prop
  | .processTransaction _ => True
  | .rollbackTransactions txs => tp.RefundsCovered txs.reverse

/-- A condition on every call of a run, in the state it is made in. -/
def EveryCall (P : TransactionProcessor → Call → Prop) : TransactionProcessor → List Call → Prop
  | _, [] => True
  | tp, c :: calls => P tp c ∧ EveryCall P (tp.call c) calls

/-- All transactions that occur in the calls. -/
def known (calls : List Call) : Finset SignedTransaction :=
  (calls.flatMap Call.transactions).toFinset

/-- For each asset type, the coins held are those created. -/
def Conserved (tp : TransactionProcessor) (known : Finset SignedTransaction) : Prop :=
  ∀ assetType, tp.held assetType = tp.created known assetType

theorem everyCall_append {P : TransactionProcessor → Call → Prop} {tp : TransactionProcessor}
    {calls calls' : List Call} :
    EveryCall P tp (calls ++ calls') ↔
      EveryCall P tp calls ∧ EveryCall P (tp.callAll calls) calls' := by
  induction calls generalizing tp with
  | nil => exact (iff_of_eq (true_and _)).symm
  | cons c calls ih =>
      show P tp c ∧ EveryCall P (tp.call c) (calls ++ calls') ↔
        (P tp c ∧ EveryCall P (tp.call c) calls) ∧ EveryCall P ((tp.call c).callAll calls) calls'
      rw [ih, and_assoc]

theorem AllStanding.call {tp : TransactionProcessor} {known : Finset SignedTransaction}
    (hids : Set.InjOn SignedTransaction.txId (known : Set SignedTransaction))
    (h : tp.AllStanding known) {c : Call} (hknown : ∀ tx ∈ c.transactions, tx ∈ known) :
    (tp.call c).AllStanding known := by
  cases c with
  | processTransaction tx =>
      intro other hother happlied
      rcases processTransaction_eq_or tp tx with hnoop | ⟨hnew, haccepts, hinsert⟩
      · have hcall : tp.call (.processTransaction tx) = tp := hnoop
        rw [hcall] at happlied ⊢
        exact h other hother happlied
      · have hmem := hinsert ▸ happlied
        rcases Finset.mem_insert.mp hmem with hid | hold
        · cases hids hother (hknown tx List.mem_cons_self) hid
          exact standing_processTransaction hnew haccepts
        · exact (h other hother hold).mono fun _ _ => assetTypeOf_processTransaction
  | rollbackTransactions txs =>
      have hfold : ∀ (l : List SignedTransaction) (tp : TransactionProcessor),
          tp.AllStanding known →
            (l.foldl TransactionProcessor.rollbackTransaction tp).AllStanding known := by
        intro l
        induction l with
        | nil => exact fun _ h => h
        | cons tx l ih => exact fun tp h => ih _ (h.rollbackTransaction tx)
      exact hfold txs.reverse tp h

/-- A call never lowers the excess, and keeps it if and only if what it rolls
    back is covered. -/
theorem excess_call {tp : TransactionProcessor} {known : Finset SignedTransaction}
    (hids : Set.InjOn SignedTransaction.txId (known : Set SignedTransaction))
    (hstanding : tp.AllStanding known) {c : Call} (hknown : ∀ tx ∈ c.transactions, tx ∈ known)
    (hfits : tp.CallFits c) :
    (∀ assetType, tp.excess known assetType ≤ (tp.call c).excess known assetType) ∧
      ((∀ assetType, (tp.call c).excess known assetType = tp.excess known assetType) ↔
        tp.CallCovered c) := by
  cases c with
  | processTransaction tx =>
      have hsame := excess_processTransaction hids (hknown tx List.mem_cons_self) hfits
      exact ⟨fun assetType => (hsame assetType).ge, iff_of_true hsame trivial⟩
  | rollbackTransactions txs =>
      exact excess_foldl_rollbackTransaction hids hstanding
        (fun tx hmem => hknown tx (List.mem_reverse.mp hmem)) hfits

/-- A run never lowers the excess, and keeps it if and only if everything it
    rolls back is covered. -/
theorem excess_callAll {known : Finset SignedTransaction}
    (hids : Set.InjOn SignedTransaction.txId (known : Set SignedTransaction))
    {calls : List Call} {tp : TransactionProcessor} (hstanding : tp.AllStanding known)
    (hknown : ∀ c ∈ calls, ∀ tx ∈ c.transactions, tx ∈ known)
    (hfits : EveryCall CallFits tp calls) :
    (∀ assetType, tp.excess known assetType ≤ (tp.callAll calls).excess known assetType) ∧
      ((∀ assetType, (tp.callAll calls).excess known assetType = tp.excess known assetType) ↔
        EveryCall CallCovered tp calls) := by
  induction calls generalizing tp with
  | nil => exact ⟨fun _ => le_refl _, iff_of_true (fun _ => rfl) trivial⟩
  | cons c calls ih =>
      have hc := hknown c List.mem_cons_self
      obtain ⟨hgrows, hiff⟩ := excess_call hids hstanding hc hfits.1
      obtain ⟨hgrows', hiff'⟩ := ih (hstanding.call hids hc)
        (fun other hmem => hknown other (List.mem_cons_of_mem c hmem)) hfits.2
      refine ⟨fun assetType => (hgrows assetType).trans (hgrows' assetType), ?_⟩
      show (∀ assetType, ((tp.call c).callAll calls).excess known assetType =
          tp.excess known assetType) ↔
        tp.CallCovered c ∧ EveryCall CallCovered (tp.call c) calls
      rw [← hiff, ← hiff']
      constructor
      · intro hsame
        have hfirst : ∀ assetType, (tp.call c).excess known assetType =
            tp.excess known assetType := by
          intro assetType
          have hlater := hgrows' assetType
          rw [hsame] at hlater
          exact le_antisymm hlater (hgrows assetType)
        exact ⟨hfirst, fun assetType => (hsame assetType).trans (hfirst assetType).symm⟩
      · rintro ⟨hfirst, hlater⟩ assetType
        rw [hlater, hfirst]

theorem excess_default (known : Finset SignedTransaction) (assetType : AssetType) :
    default.excess known assetType = 0 := by
  have hheld : default.held assetType = 0 := rfl
  have hcreated : default.created known assetType = 0 := by
    simp [created, default]
  rw [excess, hheld, hcreated]
  rfl

theorem conserved_iff_excess {tp : TransactionProcessor} {known : Finset SignedTransaction} :
    tp.Conserved known ↔ ∀ assetType, tp.excess known assetType = 0 := by
  apply forall_congr'
  intro assetType
  rw [excess]
  omega

/-- Coins are conserved in every state of a run if and only if every rollback of
    the run finds the coins it takes back. -/
theorem conserved_iff_covered {calls : List Call}
    (hids : Set.InjOn SignedTransaction.txId (known calls : Set SignedTransaction))
    (hfits : EveryCall CallFits default calls) :
    (∀ made left, calls = made ++ left → (default.callAll made).Conserved (known calls)) ↔
      EveryCall CallCovered default calls := by
  have hstanding : default.AllStanding (known calls) := by
    intro tx _ happlied
    exact absurd happlied (Finset.notMem_empty _)
  have hknown : ∀ c ∈ calls, ∀ tx ∈ c.transactions, tx ∈ known calls := by
    intro c hc tx htx
    exact List.mem_toFinset.mpr (List.mem_flatMap.mpr ⟨c, hc, htx⟩)
  constructor
  · intro hconserved
    have hend := conserved_iff_excess.mp (hconserved calls [] (List.append_nil calls).symm)
    rw [← (excess_callAll hids hstanding hknown hfits).2]
    intro assetType
    rw [hend, excess_default]
  · rintro hcovered made left rfl
    have hmade := (excess_callAll hids hstanding
      (fun c hc => hknown c (List.mem_append_left left hc)) (everyCall_append.mp hfits).1).2.mpr
        (everyCall_append.mp hcovered).1
    rw [conserved_iff_excess]
    intro assetType
    rw [hmade, excess_default]

/-- A deposit, a payment of all of it, and the rollback of both. -/
def unwoundCalls : List Call :=
  [.processTransaction Reference.deposit, .processTransaction Reference.payment,
    .rollbackTransactions [Reference.deposit, Reference.payment]]

/-- The same, but only the deposit is rolled back. -/
def spentCalls : List Call :=
  [.processTransaction Reference.deposit, .processTransaction Reference.payment,
    .rollbackTransactions [Reference.deposit]]

theorem conserved_unwoundCalls :
    EveryCall CallCovered default unwoundCalls ∧
      ∀ made left, unwoundCalls = made ++ left →
        (default.callAll made).Conserved (known unwoundCalls) := by
  have hids : ∀ a ∈ known unwoundCalls, ∀ b ∈ known unwoundCalls, a.txId = b.txId → a = b := by
    decide +kernel
  have hfits : EveryCall CallFits default unwoundCalls :=
    ⟨fun _ _ => by decide +kernel, fun _ _ => by decide +kernel,
      ⟨fun _ => by decide +kernel, fun _ => by decide +kernel, trivial⟩, trivial⟩
  have hcovered : EveryCall CallCovered default unwoundCalls := by
    refine ⟨trivial, trivial, ?_, trivial⟩
    show TransactionProcessor.RefundsCovered _ _
    decide +kernel
  exact ⟨hcovered,
    (conserved_iff_covered (fun a ha b hb => hids a ha b hb) hfits).mpr hcovered⟩

/-- Rolling back a deposit whose coins have moved on leaves ten coins that no
    applied transaction created. -/
theorem not_conserved_spentCalls :
    Set.InjOn SignedTransaction.txId (known spentCalls : Set SignedTransaction) ∧
      EveryCall CallFits default spentCalls ∧
      (default.callAll spentCalls).held .btc = 10 ∧
      (default.callAll spentCalls).created (known spentCalls) .btc = 0 := by
  have hids : ∀ a ∈ known spentCalls, ∀ b ∈ known spentCalls, a.txId = b.txId → a = b := by
    decide +kernel
  have hfits : EveryCall CallFits default spentCalls :=
    ⟨fun _ _ => by decide +kernel, fun _ _ => by decide +kernel,
      ⟨fun _ => by decide +kernel, trivial⟩, trivial⟩
  exact ⟨fun a ha b hb => hids a ha b hb, hfits, by decide +kernel, by decide +kernel⟩

end TransactionProcessor
end Rustchain
