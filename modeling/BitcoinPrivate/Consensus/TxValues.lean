import BitcoinPrivate.Consensus.TxVerify
import BitcoinPrivate.Library.Guards

/-!
The value pools of a transaction. `CheckTransaction`, `GetValueOut`,
`GetJoinSplitValueIn` and `CheckTxInputs` each add amounts one at a time and
check the running total after each addition. Every one of these loops succeeds
exactly when each amount and each running total is in `MoneyRange`, and then
returns the plain sum. Since each total is checked before the next amount,
which is itself at most `MAX_MONEY`, is added, no total leaves the range of
`int64`.
-/
namespace BitcoinPrivate

/-- Each amount, and each running total from `acc` after each amount, is in
    `MoneyRange`. -/
def RangeChecked (acc : CAmount) (amounts : List CAmount) : Prop :=
  (∀ x ∈ amounts, MoneyRange x) ∧ ∀ s ∈ (amounts.scanl (· + ·) acc).tail, MoneyRange s

@[simp] theorem RangeChecked_nil (acc : CAmount) : RangeChecked acc [] := by
  simp [RangeChecked]

@[simp] theorem RangeChecked_cons (acc x : CAmount) (amounts : List CAmount) :
    RangeChecked acc (x :: amounts) ↔ MoneyRange x ∧ MoneyRange (acc + x) ∧ RangeChecked (acc + x) amounts := by
  simp only [RangeChecked,List.forall_mem_cons,List.scanl_cons,List.tail_cons]
  cases amounts <;> simp [List.scanl_cons]; tauto

theorem MoneyRange_iff (x : CAmount) : MoneyRange x ↔ 0 ≤ x ∧ x ≤ MAX_MONEY := by
  simp [MoneyRange]

/-- A total in `MoneyRange` fits in an `int64`. -/
theorem MoneyRange_fits {x : CAmount} (range : MoneyRange x) : FitsInt64 x := by
  rw [MoneyRange_iff] at range
  have small : MAX_MONEY < 2 ^ 63 := by decide
  unfold FitsInt64
  unfold CAmount at *
  omega

namespace CTransaction

theorem valueOutputs_eq_ok {acc r : CAmount} {outs : List CTxOut} :
    valueOutputs acc outs = .ok r ↔ RangeChecked acc (outs.map (·.nValue)) ∧ r = acc + (outs.map (·.nValue)).sum := by
  induction outs generalizing acc with
  | nil => simp [valueOutputs,eq_comm]
  | cons out rest ih =>
    rw [List.map_cons,RangeChecked_cons,List.sum_cons,← add_assoc,and_assoc,and_assoc,← ih]
    simp only [valueOutputs]
    by_cases checked : MoneyRange out.nValue ∧ MoneyRange (acc + out.nValue)
    · simp [checked]
    · simp only [Bool.and_eq_true,checked,if_false,reduceCtorEq,false_iff]
      exact fun ranged => checked ⟨ranged.1,ranged.2.1⟩

theorem valueVpubOld_eq_ok {acc r : CAmount} {jss : List JSDescription} :
    valueVpubOld acc jss = .ok r ↔ RangeChecked acc (jss.map (·.vpub_old)) ∧ r = acc + (jss.map (·.vpub_old)).sum := by
  induction jss generalizing acc with
  | nil => simp [valueVpubOld,eq_comm]
  | cons js rest ih =>
    rw [List.map_cons,RangeChecked_cons,List.sum_cons,← add_assoc,and_assoc,and_assoc,← ih]
    simp only [valueVpubOld]
    by_cases checked : MoneyRange js.vpub_old ∧ MoneyRange (acc + js.vpub_old)
    · simp [checked]
    · simp only [Bool.and_eq_true,checked,if_false,reduceCtorEq,false_iff]
      exact fun ranged => checked ⟨ranged.1,ranged.2.1⟩

theorem valueVpubNew_eq_ok {acc r : CAmount} {jss : List JSDescription} :
    valueVpubNew acc jss = .ok r ↔ RangeChecked acc (jss.map (·.vpub_new)) ∧ r = acc + (jss.map (·.vpub_new)).sum := by
  induction jss generalizing acc with
  | nil => simp [valueVpubNew,eq_comm]
  | cons js rest ih =>
    rw [List.map_cons,RangeChecked_cons,List.sum_cons,← add_assoc,and_assoc,and_assoc,← ih]
    simp only [valueVpubNew]
    by_cases checked : MoneyRange js.vpub_new ∧ MoneyRange (acc + js.vpub_new)
    · simp [checked]
    · simp only [Bool.and_eq_true,checked,if_false,reduceCtorEq,false_iff]
      exact fun ranged => checked ⟨ranged.1,ranged.2.1⟩

end CTransaction

/-- The output loop of `CheckTransaction` accepts exactly what `GetValueOut`'s
    does: its separate sign and size checks are the two halves of
    `MoneyRange`. -/
theorem checkOutputs_eq_ok {acc r : CAmount} {outs : List CTxOut} :
    checkOutputs acc outs = .ok r ↔ RangeChecked acc (outs.map (·.nValue)) ∧ r = acc + (outs.map (·.nValue)).sum := by
  induction outs generalizing acc with
  | nil => simp [checkOutputs,eq_comm]
  | cons out rest ih =>
    rw [List.map_cons,RangeChecked_cons,List.sum_cons,← add_assoc,and_assoc,and_assoc,← ih,MoneyRange_iff]
    simp only [checkOutputs]
    by_cases negative : out.nValue < 0
    · simp only [negative,if_true,reduceCtorEq,false_iff]
      rintro ⟨⟨nonneg,-⟩,-⟩
      unfold CAmount at *
      omega
    by_cases large : MAX_MONEY < out.nValue
    · simp only [negative,large,if_true,if_false,reduceCtorEq,false_iff]
      rintro ⟨⟨-,le⟩,-⟩
      unfold CAmount at *
      omega
    have first : 0 ≤ out.nValue ∧ out.nValue ≤ MAX_MONEY := by
      unfold CAmount at *
      omega
    by_cases total : MoneyRange (acc + out.nValue)
    · simp [negative,large,total,first]
    · simp [negative,large,total]

/-- The joinsplit loop of `CheckTransaction` checks the running totals of
    `vpub_old` after the outputs and of `vpub_new`. -/
theorem checkJoinSplitValues_ok {valueOut valueIn : CAmount} {jss : List JSDescription}
    (accepted : checkJoinSplitValues valueOut valueIn jss = .ok ()) :
    RangeChecked valueOut (jss.map (·.vpub_old)) ∧ RangeChecked valueIn (jss.map (·.vpub_new)) := by
  induction jss generalizing valueOut valueIn with
  | nil => simp
  | cons js rest ih =>
    simp only [checkJoinSplitValues] at accepted
    split_ifs at accepted with oldNegative newNegative oldLarge newLarge both outTotal inTotal
    have outTotal : MoneyRange (valueOut + js.vpub_old) := by simpa using outTotal
    have inTotal : MoneyRange js.vpub_new ∧ MoneyRange (valueIn + js.vpub_new) := by simpa using inTotal
    have old : MoneyRange js.vpub_old := by
      rw [MoneyRange_iff]
      unfold CAmount at *
      omega
    obtain ⟨restOld,restNew⟩ := ih accepted
    simp only [List.map_cons,RangeChecked_cons]
    exact ⟨⟨old,outTotal,restOld⟩,⟨inTotal.1,inTotal.2,restNew⟩⟩

/-- The input loop of `CheckTxInputs` returns the total of the coins its inputs
    spend. -/
theorem Consensus.spendInputs_ok {inputs : CCoinsView} {tx : CTransaction} {nSpendHeight : Int}
    {fCoinbaseMustBeProtected : Bool} {forkStartHeight forkHeightRange : Nat} {acc r : CAmount} {vin : List CTxIn}
    (accepted : Consensus.spendInputs inputs tx nSpendHeight fCoinbaseMustBeProtected forkStartHeight forkHeightRange
      acc vin = .ok r) :
    RangeChecked acc (vin.map fun txin => (inputs.AccessCoin txin.prevout).out.nValue) ∧
      r = acc + (vin.map fun txin => (inputs.AccessCoin txin.prevout).out.nValue).sum := by
  induction vin generalizing acc with
  | nil =>
    cases accepted
    simp
  | cons txin rest ih =>
    simp only [Consensus.spendInputs] at accepted
    split_ifs at accepted with premature protected_ outOfRange
    have outOfRange : MoneyRange (inputs.AccessCoin txin.prevout).out.nValue ∧
        MoneyRange (acc + (inputs.AccessCoin txin.prevout).out.nValue) := by simpa using outOfRange
    obtain ⟨checked,total⟩ := ih accepted
    simp only [List.map_cons,RangeChecked_cons,List.sum_cons]
    exact ⟨⟨outOfRange.1,outOfRange.2,checked⟩,by rw [total,add_assoc]⟩

/-- The two value loops of an accepted `CheckTransaction`. -/
theorem CheckTransaction_values {tx : CTransaction} {fCheckDuplicateInputs : Bool}
    (accepted : CheckTransaction tx fCheckDuplicateInputs = .ok ()) :
    ∃ valueOut, checkOutputs 0 tx.vout = .ok valueOut ∧ checkJoinSplitValues valueOut 0 tx.vjoinsplit = .ok () := by
  simp only [CheckTransaction,Guards.bind_eq_ok,Guards.ite_throw_eq_ok] at accepted
  obtain ⟨-,-,-,-,valueOut,outputs,_,joinsplits,-⟩ := accepted
  exact ⟨valueOut,outputs,joinsplits⟩

/-- The steps of an accepted `CheckTxInputs`: the fee is the input total, with
    `vpub_new`, less `GetValueOut`, and is in `MoneyRange`. -/
theorem CheckTxInputs_fee {combine : uint256 → uint256 → uint256} {tx : CTransaction} {inputs : CCoinsView}
    {nSpendHeight : Int} {fCoinbaseMustBeProtected : Bool} {forkStartHeight forkHeightRange : Nat} {txfee : CAmount}
    (accepted : Consensus.CheckTxInputs combine tx inputs nSpendHeight fCoinbaseMustBeProtected forkStartHeight
      forkHeightRange = .ok txfee) :
    ∃ nValueIn jsIn valueOut,
      Consensus.spendInputs inputs tx nSpendHeight fCoinbaseMustBeProtected forkStartHeight forkHeightRange 0 tx.vin =
        .ok nValueIn ∧ tx.GetJoinSplitValueIn = .ok jsIn ∧ tx.GetValueOut = .ok valueOut ∧
      txfee = nValueIn + jsIn - valueOut ∧ MoneyRange txfee := by
  simp only [Consensus.CheckTxInputs,Guards.bind_eq_ok,Guards.ite_throw_eq_ok] at accepted
  obtain ⟨-,-,-,-,nValueIn,spent,jsIn,jsOk,-,valueOut,outOk,-,fee,done⟩ := accepted
  cases done
  exact ⟨nValueIn,jsIn,valueOut,spent,jsOk,outOk,rfl,by simpa using fee⟩

/-- What `CheckTransaction` guarantees of the value pools: every running total
    of its two loops is in `MoneyRange`, `GetValueOut` and `GetJoinSplitValueIn`
    return the sums, and the fee that `CheckTxInputs` then returns is the inputs'
    and `vpub_new`'s total less the outputs' and `vpub_old`'s, in `MoneyRange`. -/
theorem checked_transaction_values {tx : CTransaction} {fCheckDuplicateInputs : Bool}
    (accepted : CheckTransaction tx fCheckDuplicateInputs = .ok ()) :
    RangeChecked 0 (tx.vout.map (·.nValue)) ∧
      RangeChecked (tx.vout.map (·.nValue)).sum (tx.vjoinsplit.map (·.vpub_old)) ∧
      RangeChecked 0 (tx.vjoinsplit.map (·.vpub_new)) ∧
      tx.GetValueOut = .ok ((tx.vout.map (·.nValue)).sum + (tx.vjoinsplit.map (·.vpub_old)).sum) ∧
      tx.GetJoinSplitValueIn = .ok (tx.vjoinsplit.map (·.vpub_new)).sum ∧
      ∀ (combine : uint256 → uint256 → uint256) (inputs : CCoinsView) (nSpendHeight : Int)
        (fCoinbaseMustBeProtected : Bool) (forkStartHeight forkHeightRange : Nat) (txfee : CAmount),
        Consensus.CheckTxInputs combine tx inputs nSpendHeight fCoinbaseMustBeProtected forkStartHeight
          forkHeightRange = .ok txfee →
        txfee = (tx.vin.map fun txin => (inputs.AccessCoin txin.prevout).out.nValue).sum +
            (tx.vjoinsplit.map (·.vpub_new)).sum - (tx.vout.map (·.nValue)).sum -
            (tx.vjoinsplit.map (·.vpub_old)).sum ∧ MoneyRange txfee := by
  obtain ⟨valueOut,outputs,joinsplits⟩ := CheckTransaction_values accepted
  obtain ⟨outChecked,rfl⟩ := checkOutputs_eq_ok.mp outputs
  obtain ⟨oldChecked,newChecked⟩ := checkJoinSplitValues_ok joinsplits
  rw [zero_add] at oldChecked
  have valueOut : tx.GetValueOut = .ok ((tx.vout.map (·.nValue)).sum + (tx.vjoinsplit.map (·.vpub_old)).sum) := by
    have outs := CTransaction.valueOutputs_eq_ok.mpr ⟨outChecked,rfl⟩
    rw [zero_add] at outs
    simp only [CTransaction.GetValueOut,outs]
    exact CTransaction.valueVpubOld_eq_ok.mpr ⟨oldChecked,rfl⟩
  have valueIn : tx.GetJoinSplitValueIn = .ok (tx.vjoinsplit.map (·.vpub_new)).sum := by
    have loop := CTransaction.valueVpubNew_eq_ok.mpr ⟨newChecked,rfl⟩
    rw [zero_add] at loop
    exact loop
  refine ⟨outChecked,oldChecked,newChecked,valueOut,valueIn,?_⟩
  intro combine inputs nSpendHeight fCoinbaseMustBeProtected forkStartHeight forkHeightRange txfee inputsOk
  obtain ⟨nValueIn,jsIn,value,spent,jsOk,outOk,rfl,fee⟩ := CheckTxInputs_fee inputsOk
  rw [valueIn,Except.ok.injEq] at jsOk
  rw [valueOut,Except.ok.injEq] at outOk
  obtain ⟨-,rfl⟩ := Consensus.spendInputs_ok spent
  subst jsOk outOk
  exact ⟨by ring,fee⟩

theorem checked_transaction_values_of_joinsplit_payment :
    CheckTransaction (unauthorizedJoinSplit default) true = .ok () ∧
      (unauthorizedJoinSplit default).GetValueOut = .ok COIN ∧
      (unauthorizedJoinSplit default).GetJoinSplitValueIn = .ok COIN := by
  have accepted := CheckTransaction_unauthorizedJoinSplit default
  obtain ⟨-,-,-,valueOut,valueIn,-⟩ := checked_transaction_values accepted
  exact ⟨accepted,valueOut.trans rfl,valueIn.trans rfl⟩

end BitcoinPrivate
