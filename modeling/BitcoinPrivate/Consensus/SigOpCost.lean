import BitcoinPrivate.Validation.ScriptFlags
import BitcoinPrivate.Consensus.TxVerify

/-!
The signature operation cost of `consensus/tx_verify.cpp`, which `ConnectBlock`
bounds by `MAX_BLOCK_SIGOPS_COST`: the legacy count of every script of the
transaction, the accurate count of pay-to-script-hash redeem scripts, and the
witness count of `CountWitnessSigOps`. The cost of an input counts the scripts
the input is expected to run. The fork-claiming path of `VerifyScript` runs a
witness script that none of the three counts sees: the script is a push of the
`scriptSig`, the witness is empty, and the output is no pay-to-script-hash.
-/
namespace BitcoinPrivate

/-- `GetLegacySigOpCount`: the inaccurate counts of every `scriptSig` and every
    output script. -/
def GetLegacySigOpCount (tx : CTransaction) : Nat :=
  (tx.vin.map fun txin => CScript.GetSigOpCount txin.scriptSig false).sum +
    (tx.vout.map fun txout => CScript.GetSigOpCount txout.scriptPubKey false).sum

/-- The loop of `GetP2SHSigOpCount`: the redeem script counts of the inputs
    that spend pay-to-script-hash outputs; `none` where a coin is spent, which
    the source asserts it is not. -/
def p2shSigOps (inputs : CCoinsView) (nSigOps : Nat) : List CTxIn → Option Nat
  | [] => some nSigOps
  | txin :: rest =>
    let coin := inputs.AccessCoin txin.prevout
    if coin.IsSpent then none
    else if coin.out.scriptPubKey.IsPayToScriptHash then
      p2shSigOps inputs (nSigOps + CScript.GetSigOpCountWithScriptSig coin.out.scriptPubKey txin.scriptSig) rest
    else p2shSigOps inputs nSigOps rest

/-- `GetP2SHSigOpCount`. -/
def GetP2SHSigOpCount (tx : CTransaction) (inputs : CCoinsView) : Option Nat :=
  if tx.IsCoinBase then some 0 else p2shSigOps inputs 0 tx.vin

/-- The witness loop of `GetTransactionSigOpCost`. -/
def witnessSigOps (inputs : CCoinsView) (flags : UInt32) (nSigOps : Int) : List (CTxIn × CScriptWitness) → Option Int
  | [] => some nSigOps
  | (txin,scriptWitness) :: rest => do
    let coin := inputs.AccessCoin txin.prevout
    if coin.IsSpent then none
    let n ← CountWitnessSigOps txin.scriptSig coin.out.scriptPubKey scriptWitness flags
    witnessSigOps inputs flags (nSigOps + n) rest

/-- `GetTransactionSigOpCost` of a transaction with its witnesses; `none` where
    an assert fails. -/
def GetTransactionSigOpCost (tx : CMutableTransaction) (inputs : CCoinsView) (flags : UInt32) : Option Int := do
  let nSigOps : Int := GetLegacySigOpCount tx.toTransaction * WITNESS_SCALE_FACTOR
  if tx.toTransaction.IsCoinBase then return nSigOps
  let nSigOps ← if flags &&& SCRIPT_VERIFY_P2SH != 0 then do
      let nP2SH ← GetP2SHSigOpCount tx.toTransaction inputs
      pure (nSigOps + nP2SH * WITNESS_SCALE_FACTOR)
    else pure nSigOps
  witnessSigOps inputs flags nSigOps tx.vin

/-! ## A spend through the fork-claiming path -/

/-- A witness script that calls `CheckSig` once, whatever the answer. -/
def claimWitnessScript : CScript := [OP_CHECKSIG,OP_DROP,OP_1]

/-- A compressed public key. -/
def claimPubKey : valtype := 0x02 :: List.replicate 32 0x11

/-- The `scriptSig` of the claim: the empty signature, the key, and the witness
    script, all pushed. -/
def claimScriptSig : CScript := [OP_0] ++ CScript.pushData claimPubKey ++ CScript.pushData claimWitnessScript

/-- The pay-to-witness-script-hash output of the witness script,
    `CScript() << OP_0 << ToByteVector(hash)`. -/
def claimScriptPubKey (crypto : ScriptCrypto) : CScript :=
  OP_0 :: CScript.pushData (crypto.SHA256 claimWitnessScript).toList

/-- The outpoint the claim spends. -/
def claimOutpoint : COutPoint := ⟨⟨List.replicate 31 0 ++ [1],by simp⟩,0⟩

/-- A view with one coin, at the claimed outpoint. -/
def claimView (crypto : ScriptCrypto) : CCoinsView where
  GetCoin outpoint := if outpoint = claimOutpoint then some ⟨⟨COIN,claimScriptPubKey crypto⟩,false,1⟩ else none
  GetNullifier _ := false
  GetAnchorAt _ := none
  GetBestBlock := default
  GetBestAnchor := default
  unspent := by
    intro outpoint coin found
    by_cases at_claim : outpoint = claimOutpoint
    · simp only [at_claim,if_true,Option.some.injEq] at found
      subst found
      rfl
    · simp [at_claim] at found

/-- The transaction of the claim: the one input with an empty witness, and an
    output that pays to `OP_1`. -/
def claimSpend : CMutableTransaction where
  nVersion := 2
  vin := [(⟨claimOutpoint,claimScriptSig,0xFFFFFFFF⟩,⟨[]⟩)]
  vout := [⟨COIN,[OP_1]⟩]
  nLockTime := 0
  vjoinsplit := []
  joinSplitPubKey := default
  joinSplitSig := default


/-- Chain parameters under which every height past zero is past the fork, with
    CSV and segwit active. -/
def postForkParams : ScriptFlagsParams := ⟨0,0,0,true,true⟩

/-- The flags of a block past the fork. -/
def postForkFlags : UInt32 :=
  SCRIPT_VERIFY_P2SH ||| SCRIPT_VERIFY_DERSIG ||| SCRIPT_VERIFY_CHECKLOCKTIMEVERIFY ||| SCRIPT_VERIFY_FORKID |||
    SCRIPT_VERIFY_WITNESS_FORK ||| SCRIPT_VERIFY_CHECKSEQUENCEVERIFY ||| SCRIPT_VERIFY_WITNESS ||| SCRIPT_VERIFY_NULLDUMMY

/-- The fork path takes the stack of the `scriptSig`, bottom first, as the
    witness: the script is its last item, and the rest its stack. -/
theorem witnessV0Script_claim (crypto : ScriptCrypto) :
    witnessV0Script crypto ⟨[[],claimPubKey,claimWitnessScript]⟩ (crypto.SHA256 claimWitnessScript).toList =
      .ok ([claimPubKey,[]],claimWitnessScript) := by
  simp [witnessV0Script,WITNESS_V0_SCRIPTHASH_SIZE]
  rfl

/-- The witness script calls `CheckSig` once and leaves true, whatever the
    checker answers. -/
theorem EvalScript_claimWitnessScript (crypto : ScriptCrypto) (checker : BaseSignatureChecker) :
    EvalScript crypto [claimPubKey,[]] claimWitnessScript postForkFlags checker .BASE = .ok ([vchTrue],1) := by
  have checkSig : EvalStep crypto postForkFlags checker .BASE claimWitnessScript ⟨[claimPubKey,[]],[],[],0,0⟩
      (OP_CHECKSIG,[]) =
      (evalCheckSig crypto postForkFlags checker .BASE claimWitnessScript OP_CHECKSIG ⟨[claimPubKey,[]],[],[],1,0⟩) >>=
        fun s => if s.stack.length + s.altstack.length > MAX_STACK_SIZE then throw .SCRIPT_ERR_STACK_SIZE else pure s :=
    rfl
  have called := evalCheckSig_empty crypto checker claimWitnessScript
    (show (⟨[claimPubKey,[]],[],[],1,0⟩ : ScriptState).stack = claimPubKey :: [] :: [] from rfl)
    (show CheckPubKeyEncoding claimPubKey postForkFlags .BASE = .ok () from rfl)
  have ops : ScriptOps claimWitnessScript = ([(OP_CHECKSIG,[]),(OP_DROP,[]),(OP_1,[])],true) := rfl
  simp only [EvalScript,ops,List.foldlM_cons,checkSig,called]
  rfl

/-- `VerifyScript` accepts the claim under the flags past the fork, with one
    call to `CheckSig`: the output script leaves the program on top, true for a
    hash that is not all zeros, and the fork path runs the witness script. -/
theorem VerifyScript_claim (crypto : ScriptCrypto) (checker : BaseSignatureChecker)
    (hashTrue : CastToBool (crypto.SHA256 claimWitnessScript).toList = true) :
    (VerifyScript crypto claimScriptSig (claimScriptPubKey crypto) ⟨[]⟩ postForkFlags checker).run = some (.ok 1) := by
  have sized : (crypto.SHA256 claimWitnessScript).toList.length = 32 := by simp
  have sigRun : EvalScript crypto [] claimScriptSig postForkFlags checker .BASE =
      .ok ([claimWitnessScript,claimPubKey,[]],0) := rfl
  have keyRun : EvalScript crypto [claimWitnessScript,claimPubKey,[]]
      (OP_0 :: CScript.pushData (crypto.SHA256 claimWitnessScript).toList) postForkFlags checker .BASE =
      .ok ([(crypto.SHA256 claimWitnessScript).toList,[],claimWitnessScript,claimPubKey,[]],0) :=
    EvalScript_witnessProgram sized crypto postForkFlags checker (by decide)
  simp +decide only [VerifyScript,claimScriptPubKey,sigRun,keyRun,liftM_ok_bind,topIsTrue,hashTrue,verifyWitnessBlock,
    IsWitnessProgram_witnessProgram sized,IsPayToScriptHash_witnessProgram sized,VerifyWitnessProgram,List.reverse_cons,
    List.reverse_nil,List.nil_append,List.cons_append,witnessV0Script_claim,Guards.ok_bind,EvalScript_claimWitnessScript,
    if_true,if_false,liftM_pure_bind]
  rfl

/-- `GetTransactionSigOpCost` counts nothing for the claim: its scripts hold no
    `CHECKSIG` outside pushes, its output is no pay-to-script-hash, and the
    witness count reads the empty witness. -/
theorem GetTransactionSigOpCost_claim (crypto : ScriptCrypto) :
    GetTransactionSigOpCost claimSpend (claimView crypto) postForkFlags = some 0 := by
  have sized : (crypto.SHA256 claimWitnessScript).toList.length = 32 := by simp
  have program : (claimScriptPubKey crypto).IsWitnessProgram = some (0,(crypto.SHA256 claimWitnessScript).toList) :=
    IsWitnessProgram_witnessProgram sized
  have notP2SH : (claimScriptPubKey crypto).IsPayToScriptHash = false := IsPayToScriptHash_witnessProgram sized
  have legacy : GetLegacySigOpCount claimSpend.toTransaction = 0 := rfl
  have coinbase : claimSpend.toTransaction.IsCoinBase = false := rfl
  have vin : claimSpend.vin = [(⟨claimOutpoint,claimScriptSig,0xFFFFFFFF⟩,⟨[]⟩)] := rfl
  have coin : (claimView crypto).AccessCoin claimOutpoint = ⟨⟨COIN,claimScriptPubKey crypto⟩,false,1⟩ := by
    simp [CCoinsView.AccessCoin,claimView]
  have unspent : Coin.IsSpent ⟨⟨COIN,claimScriptPubKey crypto⟩,false,1⟩ = false := rfl
  -- the witness count reads the real witness, which is empty
  have counted : WitnessSigOps 0 (crypto.SHA256 claimWitnessScript).toList ⟨[]⟩ = 0 := by
    simp [WitnessSigOps,WITNESS_V0_KEYHASH_SIZE,WITNESS_V0_SCRIPTHASH_SIZE]
  have witness : CountWitnessSigOps claimScriptSig (claimScriptPubKey crypto) ⟨[]⟩ postForkFlags = some 0 := by
    rw [CountWitnessSigOps,if_neg (by decide),if_neg (by decide),program]
    exact congrArg some counted
  have p2sh : GetP2SHSigOpCount claimSpend.toTransaction (claimView crypto) = some 0 := by
    rw [GetP2SHSigOpCount,coinbase]
    simp [p2shSigOps,claimSpend,CMutableTransaction.toTransaction,coin,unspent,notP2SH]
  simp +decide only [GetTransactionSigOpCost,legacy,p2sh,vin,witnessSigOps,coin,unspent,witness,if_false,if_true]

/-- Under the flags `GetBlockScriptFlags` gives a block past the fork, the claim
    passes `VerifyScript` with one call to `CheckSig`, and
    `GetTransactionSigOpCost` attributes no sigop to it: the sigop limit does not
    bound the checks of the fork path. -/
theorem claim_spend_checks_uncounted (crypto : ScriptCrypto) (checker : BaseSignatureChecker)
    (hashTrue : CastToBool (crypto.SHA256 claimWitnessScript).toList = true) :
    GetBlockScriptFlags 1 postForkParams = some postForkFlags ∧
      (VerifyScript crypto claimScriptSig (claimScriptPubKey crypto) ⟨[]⟩ postForkFlags checker).run = some (.ok 1) ∧
      GetTransactionSigOpCost claimSpend (claimView crypto) postForkFlags = some 0 :=
  ⟨by decide,VerifyScript_claim crypto checker hashTrue,GetTransactionSigOpCost_claim crypto⟩

/-- Hash functions that answer a constant of ones, and a checker that rejects
    every signature. -/
def constantCrypto : ScriptCrypto := ⟨fun _ => Vector.replicate 20 1,fun _ => Vector.replicate 20 1,
  fun _ => Vector.replicate 32 1,fun _ => true⟩

def rejectingChecker : BaseSignatureChecker := ⟨fun _ _ _ _ _ => false,fun _ => false,fun _ => false⟩

theorem claim_spend_checks_uncounted_of_constant_hash :
    CastToBool (constantCrypto.SHA256 claimWitnessScript).toList = true ∧
      GetBlockScriptFlags 1 postForkParams = some postForkFlags ∧
      (VerifyScript constantCrypto claimScriptSig (claimScriptPubKey constantCrypto) ⟨[]⟩ postForkFlags
        rejectingChecker).run = some (.ok 1) ∧
      GetTransactionSigOpCost claimSpend (claimView constantCrypto) postForkFlags = some 0 :=
  ⟨by decide,claim_spend_checks_uncounted constantCrypto rejectingChecker (by decide)⟩

end BitcoinPrivate
