import BitcoinPrivate.Coins.CoinsView

/-!
The transaction checks of `consensus/tx_verify.cpp`. A failed check returns its
reject reason; a passed one returns what the source writes back (the fee, for
`CheckTxInputs`).

The only code that would verify a joinsplit's Ed25519 signature and zk-SNARK
proofs is in `consensus/joinsplit.cpp`, which no build compiles and no caller
names, so it is not modelled. The checks that are made read neither the
signature nor the proofs, which the lemmas at the end state: whatever stands in
them, a joinsplit is accepted and its `vpub_new` credited as input.
-/
namespace BitcoinPrivate

def MIN_TX_VERSION : Int32 := 1

def MAX_BLOCK_WEIGHT : Nat := 8000000

def WITNESS_SCALE_FACTOR : Nat := 4

def COINBASE_MATURITY : Int := 100

/-- The output loop of `CheckTransaction`. -/
def checkOutputs (nValueOut : CAmount) : List CTxOut → Except String CAmount
  | [] => .ok nValueOut
  | txout :: rest =>
    if txout.nValue < 0 then .error "bad-txns-vout-negative"
    else if MAX_MONEY < txout.nValue then .error "bad-txns-vout-toolarge"
    else if !MoneyRange (nValueOut + txout.nValue) then .error "bad-txns-txouttotal-toolarge"
    else checkOutputs (nValueOut + txout.nValue) rest

/-- The joinsplit loop of `CheckTransaction`: `vpub_old` is counted with the
    outputs and `vpub_new` with the inputs. -/
def checkJoinSplitValues (nValueOut nValueIn : CAmount) : List JSDescription → Except String Unit
  | [] => .ok ()
  | joinsplit :: rest =>
    if joinsplit.vpub_old < 0 then .error "bad-txns-vpub_old-negative"
    else if joinsplit.vpub_new < 0 then .error "bad-txns-vpub_new-negative"
    else if MAX_MONEY < joinsplit.vpub_old then .error "bad-txns-vpub_old-toolarge"
    else if MAX_MONEY < joinsplit.vpub_new then .error "bad-txns-vpub_new-toolarge"
    else if joinsplit.vpub_new ≠ 0 ∧ joinsplit.vpub_old ≠ 0 then .error "bad-txns-vpubs-both-nonzero"
    else if !MoneyRange (nValueOut + joinsplit.vpub_old) then .error "bad-txns-txouttotal-toolarge"
    else if !MoneyRange joinsplit.vpub_new || !MoneyRange (nValueIn + joinsplit.vpub_new) then
      .error "bad-txns-txintotal-toolarge"
    else checkJoinSplitValues (nValueOut + joinsplit.vpub_old) (nValueIn + joinsplit.vpub_new) rest

/-- A duplicate check: each element goes into a `std::set`, and one that is
    already there rejects with `reason`. -/
def checkDuplicates {α : Type} [DecidableEq α] (reason : String) (seen : List α) : List α → Except String Unit
  | [] => .ok ()
  | x :: rest => if x ∈ seen then .error reason else checkDuplicates reason (x :: seen) rest

/-- The coinbase branch of `CheckTransaction`, and the null-prevout check of the other. -/
def checkCoinbase (tx : CTransaction) : Except String Unit :=
  if tx.IsCoinBase then
    if 0 < tx.vjoinsplit.length then .error "bad-cb-has-joinsplits"
    else
      match tx.vin with
      | txin :: _ =>
        if txin.scriptSig.length < 2 || 100 < txin.scriptSig.length then .error "bad-cb-length" else .ok ()
      | [] => .ok ()
  else if tx.vin.any (·.prevout.IsNull) then .error "bad-txns-prevout-null"
  else .ok ()

/-- `CheckTransaction`. -/
def CheckTransaction (tx : CTransaction) (fCheckDuplicateInputs : Bool) : Except String Unit := do
  if tx.nVersion < MIN_TX_VERSION then throw "bad-txns-version-too-low"
  if tx.vin.isEmpty && tx.vjoinsplit.isEmpty then throw "bad-txns-vin-empty"
  if tx.vout.isEmpty && tx.vjoinsplit.isEmpty then throw "bad-txns-vout-empty"
  if MAX_BLOCK_WEIGHT < GetSerializeSize tx * WITNESS_SCALE_FACTOR then throw "bad-txns-oversize"
  let nValueOut ← checkOutputs 0 tx.vout
  checkJoinSplitValues nValueOut 0 tx.vjoinsplit
  if fCheckDuplicateInputs then
    checkDuplicates "bad-txns-inputs-duplicate" [] (tx.vin.map (·.prevout))
    checkDuplicates "bad-joinsplits-nullifiers-duplicate" [] (tx.vjoinsplit.flatMap (·.nullifiers.toList))
  checkCoinbase tx

namespace Consensus

section

variable (inputs : CCoinsView) (tx : CTransaction) (nSpendHeight : Int) (fCoinbaseMustBeProtected : Bool)
  (forkStartHeight forkHeightRange : Nat)

/-- The input loop of `CheckTxInputs`: the maturity of spent coinbases, their
    protection outside the fork range, and the range of the input total. -/
def spendInputs (nValueIn : CAmount) : List CTxIn → Except String CAmount
  | [] => .ok nValueIn
  | txin :: rest =>
    let coin := inputs.AccessCoin txin.prevout
    if coin.fCoinBase && decide (nSpendHeight - coin.nHeight < COINBASE_MATURITY) then
      .error "bad-txns-premature-spend-of-coinbase"
    else if coin.fCoinBase && fCoinbaseMustBeProtected &&
        (decide (coin.nHeight ≤ forkStartHeight) || decide (forkStartHeight + forkHeightRange < coin.nHeight)) &&
        !tx.vout.isEmpty then
      .error "bad-txns-coinbase-spend-has-transparent-outputs"
    else if !MoneyRange coin.out.nValue || !MoneyRange (nValueIn + coin.out.nValue) then
      .error "bad-txns-inputvalues-outofrange"
    else spendInputs (nValueIn + coin.out.nValue) rest

end

/-- `Consensus::CheckTxInputs`, which returns the fee. Its failed joinsplit
    requirements give no reject reason; the text is the one it logs. The
    exceptions of `GetJoinSplitValueIn` and `GetValueOut` pass through. -/
def CheckTxInputs (combine : uint256 → uint256 → uint256) (tx : CTransaction) (inputs : CCoinsView)
    (nSpendHeight : Int) (fCoinbaseMustBeProtected : Bool) (forkStartHeight forkHeightRange : Nat) :
    Except String CAmount := do
  if !inputs.HaveInputs tx then throw "bad-txns-inputs-missingorspent"
  if !(← inputs.HaveJoinSplitRequirements combine tx) then throw "CheckInputs(): JoinSplit requirements not met"
  let nValueIn ← spendInputs inputs tx nSpendHeight fCoinbaseMustBeProtected forkStartHeight forkHeightRange 0 tx.vin
  let joinSplitValueIn ← tx.GetJoinSplitValueIn
  let nValueIn := nValueIn + joinSplitValueIn
  if !MoneyRange joinSplitValueIn || !MoneyRange nValueIn then throw "bad-txns-inputvalues-outofrange"
  let value_out ← tx.GetValueOut
  if nValueIn < value_out then throw "bad-txns-in-belowout"
  let txfee_aux := nValueIn - value_out
  if !MoneyRange txfee_aux then throw "bad-txns-fee-outofrange"
  return txfee_aux

end Consensus

/-! ## What the checks do not read -/

/-- The transaction with another joinsplit signature and other proofs. -/
def CTransaction.reauthorize (tx : CTransaction) (sig : joinsplit_sig_t) (proof : JSDescription → ZCProof) :
    CTransaction :=
  { tx with joinSplitSig := sig, vjoinsplit := tx.vjoinsplit.map fun js => { js with proof := proof js } }

section Reauthorize

variable (tx : CTransaction) (sig : joinsplit_sig_t) (proof : JSDescription → ZCProof)

@[simp] theorem reauthorize_vin : (tx.reauthorize sig proof).vin = tx.vin := rfl

@[simp] theorem reauthorize_vout : (tx.reauthorize sig proof).vout = tx.vout := rfl

@[simp] theorem reauthorize_nVersion : (tx.reauthorize sig proof).nVersion = tx.nVersion := rfl

@[simp] theorem reauthorize_IsCoinBase : (tx.reauthorize sig proof).IsCoinBase = tx.IsCoinBase := rfl

theorem reauthorize_vjoinsplit :
    (tx.reauthorize sig proof).vjoinsplit = tx.vjoinsplit.map fun js => { js with proof := proof js } := rfl

@[simp] theorem reauthorize_vjoinsplit_length :
    (tx.reauthorize sig proof).vjoinsplit.length = tx.vjoinsplit.length := by
  simp [reauthorize_vjoinsplit]

@[simp] theorem reauthorize_vjoinsplit_isEmpty :
    (tx.reauthorize sig proof).vjoinsplit.isEmpty = tx.vjoinsplit.isEmpty := by
  simp [reauthorize_vjoinsplit]

@[simp] theorem reauthorize_nullifiers :
    ((tx.reauthorize sig proof).vjoinsplit.flatMap fun js => js.nullifiers.toList) =
      tx.vjoinsplit.flatMap fun js => js.nullifiers.toList := by
  simp [reauthorize_vjoinsplit,List.flatMap_map]

theorem GetSerializeSize_reauthorize : GetSerializeSize (tx.reauthorize sig proof) = GetSerializeSize tx := by
  simp [GetSerializeSize,SerializeTransaction,serJoinSplits_length]

theorem checkJoinSplitValues_reauthorize (nValueOut nValueIn : CAmount) :
    checkJoinSplitValues nValueOut nValueIn (tx.reauthorize sig proof).vjoinsplit =
      checkJoinSplitValues nValueOut nValueIn tx.vjoinsplit := by
  rw [reauthorize_vjoinsplit]
  induction tx.vjoinsplit generalizing nValueOut nValueIn with
  | nil => rfl
  | cons js rest ih => simp only [List.map_cons,checkJoinSplitValues,ih]

theorem CheckTransaction_reauthorize (fCheckDuplicateInputs : Bool) :
    CheckTransaction (tx.reauthorize sig proof) fCheckDuplicateInputs = CheckTransaction tx fCheckDuplicateInputs := by
  have coinbase : checkCoinbase (tx.reauthorize sig proof) = checkCoinbase tx := by
    simp [checkCoinbase]
  simp only [CheckTransaction,GetSerializeSize_reauthorize,checkJoinSplitValues_reauthorize,coinbase,
    reauthorize_vin,reauthorize_vout,reauthorize_nVersion,reauthorize_vjoinsplit_isEmpty,reauthorize_nullifiers]

theorem GetValueOut_reauthorize : (tx.reauthorize sig proof).GetValueOut = tx.GetValueOut := by
  have loop : ∀ nValueOut : CAmount,
      CTransaction.valueVpubOld nValueOut (tx.reauthorize sig proof).vjoinsplit =
        CTransaction.valueVpubOld nValueOut tx.vjoinsplit := by
    rw [reauthorize_vjoinsplit]
    induction tx.vjoinsplit with
    | nil => intro nValueOut; rfl
    | cons js rest ih => intro nValueOut; simp only [List.map_cons,CTransaction.valueVpubOld,ih]
  simp only [CTransaction.GetValueOut,reauthorize_vout,loop]

theorem GetJoinSplitValueIn_reauthorize : (tx.reauthorize sig proof).GetJoinSplitValueIn = tx.GetJoinSplitValueIn := by
  have loop : ∀ nValue : CAmount,
      CTransaction.valueVpubNew nValue (tx.reauthorize sig proof).vjoinsplit =
        CTransaction.valueVpubNew nValue tx.vjoinsplit := by
    rw [reauthorize_vjoinsplit]
    induction tx.vjoinsplit with
    | nil => intro nValue; rfl
    | cons js rest ih => intro nValue; simp only [List.map_cons,CTransaction.valueVpubNew,ih]
  simp only [CTransaction.GetJoinSplitValueIn,loop]

theorem HaveJoinSplitRequirements_reauthorize (combine : uint256 → uint256 → uint256) (view : CCoinsView) :
    view.HaveJoinSplitRequirements combine (tx.reauthorize sig proof) = view.HaveJoinSplitRequirements combine tx := by
  have loop : ∀ intermediates,
      view.joinSplitRequirements combine intermediates (tx.reauthorize sig proof).vjoinsplit =
        view.joinSplitRequirements combine intermediates tx.vjoinsplit := by
    rw [reauthorize_vjoinsplit]
    induction tx.vjoinsplit with
    | nil => intro intermediates; rfl
    | cons js rest ih => intro intermediates; simp only [List.map_cons,CCoinsView.joinSplitRequirements,ih]
  simp only [CCoinsView.HaveJoinSplitRequirements,loop]

theorem CheckTxInputs_reauthorize (combine : uint256 → uint256 → uint256) (inputs : CCoinsView)
    (nSpendHeight : Int) (fCoinbaseMustBeProtected : Bool) (forkStartHeight forkHeightRange : Nat) :
    Consensus.CheckTxInputs combine (tx.reauthorize sig proof) inputs nSpendHeight fCoinbaseMustBeProtected
        forkStartHeight forkHeightRange =
      Consensus.CheckTxInputs combine tx inputs nSpendHeight fCoinbaseMustBeProtected forkStartHeight
        forkHeightRange := by
  have spent : ∀ (nValueIn : CAmount) (txins : List CTxIn),
      Consensus.spendInputs inputs (tx.reauthorize sig proof) nSpendHeight fCoinbaseMustBeProtected forkStartHeight
          forkHeightRange nValueIn txins =
        Consensus.spendInputs inputs tx nSpendHeight fCoinbaseMustBeProtected forkStartHeight forkHeightRange
          nValueIn txins := by
    intro nValueIn txins
    induction txins generalizing nValueIn with
    | nil => rfl
    | cons txin rest ih => simp only [Consensus.spendInputs,reauthorize_vout,ih]
  have haveInputs : inputs.HaveInputs (tx.reauthorize sig proof) = inputs.HaveInputs tx := by
    simp [CCoinsView.HaveInputs]
  simp only [Consensus.CheckTxInputs,haveInputs,HaveJoinSplitRequirements_reauthorize,spent,reauthorize_vin,
    GetJoinSplitValueIn_reauthorize,GetValueOut_reauthorize]

end Reauthorize

/-- The chainstate after genesis as a `CCoinsViewDB` answers it: no coins, no
    nullifiers, and the empty root, which `GetAnchorAt` always answers with the
    empty tree, as the only anchor. -/
def genesisView (combine : uint256 → uint256 → uint256) (hashGenesisBlock : uint256) : CCoinsView where
  GetCoin _ := none
  GetNullifier _ := false
  GetAnchorAt rt :=
    if rt = ZCIncrementalMerkleTree.empty_root combine then some Zcash.IncrementalMerkleTree.empty else none
  GetBestBlock := hashGenesisBlock
  GetBestAnchor := ZCIncrementalMerkleTree.empty_root combine
  unspent := by
    intro _ _ found
    cases found

/-- A transaction with no transparent input that pays one coin out of the
    `vpub_new` of one joinsplit; its signature, key and proof are zero bytes. -/
def unauthorizedJoinSplit (anchor : uint256) : CTransaction where
  vin := []
  vout := [⟨COIN,[]⟩]
  nVersion := 2
  nLockTime := 0
  vjoinsplit := [{
    vpub_old := 0
    vpub_new := COIN
    anchor := anchor
    nullifiers := #v[⟨List.replicate 31 0 ++ [1],rfl⟩,⟨List.replicate 31 0 ++ [2],rfl⟩]
    commitments := #v[default,default]
    ephemeralKey := default
    randomSeed := default
    macs := #v[default,default]
    proof := default
    ciphertexts := #v[default,default] }]
  joinSplitPubKey := default
  joinSplitSig := default

theorem CheckTransaction_unauthorizedJoinSplit (anchor : uint256) :
    CheckTransaction (unauthorizedJoinSplit anchor) true = .ok () := by
  have size : GetSerializeSize (unauthorizedJoinSplit anchor) = 1918 := by
    simp [GetSerializeSize,SerializeTransaction,serJoinSplits_length,serVector_length,unauthorizedJoinSplit,
      CTxOut.Serialize,serScript,WriteCompactSize,ser_writedata8]
  simp only [CheckTransaction,size]
  rfl

theorem HaveJoinSplitRequirements_unauthorizedJoinSplit (combine : uint256 → uint256 → uint256)
    (hashGenesisBlock : uint256) :
    (genesisView combine hashGenesisBlock).HaveJoinSplitRequirements combine
      (unauthorizedJoinSplit (ZCIncrementalMerkleTree.empty_root combine)) = .ok true := by
  simp [CCoinsView.HaveJoinSplitRequirements,CCoinsView.joinSplitRequirements,genesisView,unauthorizedJoinSplit]
  rfl

theorem unauthorized_joinsplit_credited (combine : uint256 → uint256 → uint256) (hashGenesisBlock : uint256)
    (sig : joinsplit_sig_t) (proof : JSDescription → ZCProof) (nSpendHeight : Int) (fCoinbaseMustBeProtected : Bool)
    (forkStartHeight forkHeightRange : Nat) :
    let tx := (unauthorizedJoinSplit (ZCIncrementalMerkleTree.empty_root combine)).reauthorize sig proof
    CheckTransaction tx true = .ok () ∧
      Consensus.CheckTxInputs combine tx (genesisView combine hashGenesisBlock) nSpendHeight fCoinbaseMustBeProtected
        forkStartHeight forkHeightRange = .ok 0 ∧
      tx.GetJoinSplitValueIn = .ok COIN ∧ tx.GetValueOut = .ok COIN := by
  dsimp only
  rw [CheckTransaction_reauthorize,CheckTxInputs_reauthorize,GetJoinSplitValueIn_reauthorize,GetValueOut_reauthorize]
  refine ⟨CheckTransaction_unauthorizedJoinSplit _,?_,rfl,rfl⟩
  simp only [Consensus.CheckTxInputs,HaveJoinSplitRequirements_unauthorizedJoinSplit]
  rfl

end BitcoinPrivate
