import Opolys.Consensus.RefinerAlike
import Opolys.Execution.Dispatcher

/-!
# Transactions and the order of the active set

A transaction does the same to two ledgers that differ only in the order of their active
sets, down to the text of its error.
-/

namespace Opolys

open Effect (Agree Both Lockstep)

/-- Two ledgers that differ at most in the order of their active sets. -/
def Ledger.Alike (a b : Ledger) : Prop :=
  ∃ refiners, a.refiners.Alike refiners ∧ b = { a with refiners }

namespace TransactionDispatcher

variable {a b : Ledger}

theorem bondAssay_alike (h : a.Alike b) (amount totalIssued : FlakeAmount) :
    bondAssay amount b.refiners totalIssued = bondAssay amount a.refiners totalIssued := by
  obtain ⟨refiners, hr, rfl⟩ := h
  unfold bondAssay
  rw [hr.totalBondedStake_eq]

theorem unbondAssay_alike (h : a.Alike b) (amount totalIssued : FlakeAmount) :
    unbondAssay amount b.refiners totalIssued = unbondAssay amount a.refiners totalIssued := by
  obtain ⟨refiners, hr, rfl⟩ := h
  unfold unbondAssay
  rw [hr.totalBondedStake_eq]

theorem applyTransfer_alike (h : a.Alike b) (tx : Transaction) (sender recipient : ObjectId)
    (amount : FlakeAmount) :
    Lockstep Ledger.Alike (applyTransfer tx sender recipient amount)
      (applyTransfer tx sender recipient amount) a b := by
  obtain ⟨refiners, hr, rfl⟩ := h
  unfold applyTransfer
  refine Agree.bind (R := fun _ _ => Ledger.Alike) (Agree.within ?_) fun _ _ _ _ h =>
    Agree.pure ⟨rfl, h⟩
  refine (Agree.refl _ a.accounts).mono ?_ ?_
  · rintro _ _ accounts _ ⟨-, rfl⟩
    exact ⟨refiners, hr, rfl⟩
  · rintro _ _ accounts _ ⟨rfl, rfl⟩
    exact ⟨rfl, refiners, hr, rfl⟩

theorem settleBond_alike (h : a.Alike b) (sender : ObjectId) (totalNeeded : FlakeAmount)
    {bonded bonded' : Except String RefinerSet} (hbonded : Both RefinerSet.Alike bonded bonded') :
    Lockstep Ledger.Alike (settleBond sender totalNeeded bonded)
      (settleBond sender totalNeeded bonded') a b := by
  obtain ⟨refiners, hr, rfl⟩ := h
  cases hbonded with
  | ok hr' => exact Agree.modify_bind (Agree.pure ⟨rfl, _, hr', rfl⟩)
  | error message =>
    unfold settleBond
    refine Agree.get_bind ?_
    cases AccountStore.credit a.accounts sender totalNeeded with
    | error e => exact Agree.throw ⟨rfl, refiners, hr, rfl⟩
    | ok refunded => exact Agree.modify_bind (Agree.throw ⟨rfl, refiners, hr, rfl⟩)

theorem applyBond_alike (h : a.Alike b) (tx : Transaction) (sender : ObjectId)
    (stake : FlakeAmount) (context : ExecutionContext) :
    Lockstep Ledger.Alike (applyBond tx sender stake context)
      (applyBond tx sender stake context) a b := by
  unfold applyBond
  refine Agree.ensure_bind Iff.rfl (fun _ => ⟨rfl, h⟩) fun _ => Agree.get_bind ?_
  dsimp only
  rw [bondAssay_alike h]
  refine Agree.ofExcept_bind (Both.refl _) (fun _ => ⟨rfl, h⟩) ?_
  rintro totalNeeded _ rfl
  refine Agree.get_bind (Agree.get_bind ?_)
  obtain ⟨refiners, hr, rfl⟩ := h
  refine Agree.ensure_bind Iff.rfl (fun _ => ⟨rfl, refiners, hr, rfl⟩) fun _ => Agree.get_bind ?_
  refine Agree.ofExcept_bind (Both.refl _) (fun _ => ⟨rfl, refiners, hr, rfl⟩) ?_
  rintro debited _ rfl
  have hpaid : Ledger.Alike { a with accounts := debited } { accounts := debited, refiners } :=
    ⟨refiners, hr, rfl⟩
  refine Agree.modify_bind (Agree.get_bind (Agree.bind (settleBond_alike hpaid sender totalNeeded
    (hr.bond _ _ _ _ _)) ?_))
  rintro ⟨⟩ ⟨⟩ t t' ⟨-, refiners', hr', rfl⟩
  exact Agree.modify_bind (Agree.pure ⟨rfl, refiners', hr', rfl⟩)

theorem applyUnbond_alike (h : a.Alike b) (tx : Transaction) (sender : ObjectId)
    (amount : FlakeAmount) (context : ExecutionContext) :
    Lockstep Ledger.Alike (applyUnbond tx sender amount context)
      (applyUnbond tx sender amount context) a b := by
  unfold applyUnbond
  refine Agree.get_bind (Agree.ensure_bind ?_ (fun _ => ⟨rfl, h⟩) fun _ => ?_)
  · obtain ⟨refiners, hr, rfl⟩ := h
    rw [hr.getRefiner_eq]
  refine Agree.ensure_bind Iff.rfl (fun _ => ⟨rfl, h⟩) fun _ => Agree.get_bind ?_
  dsimp only
  rw [unbondAssay_alike h]
  refine Agree.ofExcept_bind (Both.refl _) (fun _ => ⟨rfl, h⟩) ?_
  rintro totalFee _ rfl
  refine Agree.get_bind (Agree.get_bind ?_)
  obtain ⟨refiners, hr, rfl⟩ := h
  refine Agree.ensure_bind Iff.rfl (fun _ => ⟨rfl, refiners, hr, rfl⟩) fun _ => Agree.get_bind ?_
  refine Agree.ofExcept_bind (hr.unbondAmount _ _ _) (fun _ => ⟨rfl, refiners, hr, rfl⟩) ?_
  rintro ⟨refiners', unbonded⟩ ⟨refiners'', _⟩ ⟨hr', rfl⟩
  refine Agree.modify_bind (Agree.ensure_bind Iff.rfl (fun _ => ⟨rfl, _, hr', rfl⟩) fun _ => ?_)
  exact Agree.modify_bind (Agree.modify_bind (Agree.pure ⟨rfl, _, hr', rfl⟩))

theorem applyAction_alike (h : a.Alike b) (tx : Transaction) (context : ExecutionContext) :
    Lockstep Ledger.Alike (applyAction tx context) (applyAction tx context) a b := by
  unfold applyAction
  cases tx.action with
  | transfer recipient amount => exact applyTransfer_alike h tx _ recipient amount
  | refinerBond amount => exact applyBond_alike h tx _ amount context
  | refinerUnbond amount => exact applyUnbond_alike h tx _ amount context

theorem rememberKey_alike (h : a.Alike b) (tx : Transaction) :
    (rememberKey tx a).Alike (rememberKey tx b) := by
  obtain ⟨refiners, hr, rfl⟩ := h
  unfold rememberKey
  split <;> exact ⟨refiners, hr, rfl⟩

theorem dispatch_alike (h : a.Alike b) (P : Primitives) (tx : Transaction)
    (context : ExecutionContext) (expectedChainId : UInt64) :
    Lockstep Ledger.Alike (dispatch P tx context expectedChainId)
      (dispatch P tx context expectedChainId) a b := by
  have haccounts : b.accounts = a.accounts := by
    obtain ⟨refiners, -, rfl⟩ := h
    rfl
  unfold dispatch
  refine Agree.ofExcept_bind (Both.refl _) (fun _ => ⟨rfl, h⟩) fun _ _ _ => ?_
  refine Agree.ensure_bind Iff.rfl (fun _ => ⟨rfl, h⟩) fun _ => Agree.get_bind ?_
  rw [haccounts]
  refine Agree.require_bind (R := Eq) ?_ ⟨rfl, h⟩ ?_
  · cases a.accounts.getAccount tx.sender <;> constructor
    rfl
  · rintro account _ rfl
    refine Agree.ensure_bind Iff.rfl (fun _ => ⟨rfl, h⟩) fun _ => ?_
    refine Agree.ensure_bind Iff.rfl (fun _ => ⟨rfl, h⟩) fun _ => ?_
    refine Agree.bind (applyAction_alike h tx context) ?_
    rintro charged _ t t' ⟨rfl, h'⟩
    exact Agree.modify_bind (Agree.pure ⟨rfl, rememberKey_alike h' tx⟩)

/-- A transaction has the same outcome on two ledgers that are alike. -/
theorem applyTransaction_alike (h : a.Alike b) (P : Primitives) (tx : Transaction)
    (context : ExecutionContext) (expectedChainId : UInt64) :
    (applyTransaction P tx context expectedChainId b).1 =
        (applyTransaction P tx context expectedChainId a).1 ∧
      (applyTransaction P tx context expectedChainId a).2.Alike
        (applyTransaction P tx context expectedChainId b).2 := by
  have hagree := dispatch_alike h P tx context expectedChainId
  unfold Lockstep Agree at hagree
  unfold applyTransaction
  cases ha : dispatch P tx context expectedChainId a <;>
    cases hb : dispatch P tx context expectedChainId b <;> rw [ha, hb] at hagree
  · obtain ⟨rfl, h'⟩ := hagree
    exact ⟨rfl, h'⟩
  · exact hagree.elim
  · exact hagree.elim
  · obtain ⟨rfl, h'⟩ := hagree
    exact ⟨rfl, h'⟩

end TransactionDispatcher

end Opolys
