import BitcoinPrivate.Primitives.Serialize
import BitcoinPrivate.Library.Guards

/-!
`SignatureHash` of `script/interpreter.cpp`: the byte string an input signature
covers, and its double-SHA-256, which is the argument `Hash256`. The legacy
(`BASE`) string is the transaction as `CTransactionSignatureSerializer` writes
it, with the joinsplits and their key, followed by the hash type with the fork
id in its second byte. The `WITNESS_V0` string is the one of BIP143, built from
hashes of the inputs and outputs.

`SignatureHash` throws `std::logic_error` on a bad input index; `none` is
undefined behaviour: an input read out of bounds, or a `forkid << 8` that is
negative or does not fit 32 bits.
-/
namespace BitcoinPrivate
open LittleEndian

inductive SigVersion
  | BASE
  | WITNESS_V0
  deriving DecidableEq, Repr

def SIGHASH_ALL : Int32 := 1

def SIGHASH_NONE : Int32 := 2

def SIGHASH_SINGLE : Int32 := 3

def SIGHASH_FORKID : Int32 := 0x40

def SIGHASH_ANYONECANPAY : Int32 := 0x80

def FORKID_NONE : Int32 := 0

def FORKID_BTCP : Int32 := 42

def FORKID_IN_USE : Int32 := FORKID_BTCP

/-- `NOT_AN_INPUT`, `UINT_MAX`. -/
def NOT_AN_INPUT : UInt32 := 0xFFFFFFFF

/-- `UsesForkId`, after the conversion of the `int` to `uint32_t`, which keeps its bits. -/
def UsesForkId (nHashType : Int32) : Bool := nHashType &&& SIGHASH_FORKID != 0

/-- `CTransactionSignatureSerializer`: the transaction, the script code, the
    signed input and the flags its constructor reads off the hash type. -/
structure CTransactionSignatureSerializer where
  txTo : CTransaction
  scriptCode : CScript
  nIn : UInt32
  fAnyoneCanPay : Bool
  fHashSingle : Bool
  fHashNone : Bool

namespace CTransactionSignatureSerializer

/-- The constructor. -/
def new (txTo : CTransaction) (scriptCode : CScript) (nIn : UInt32) (nHashType : Int32) :
    CTransactionSignatureSerializer :=
  ⟨txTo,scriptCode,nIn,nHashType &&& SIGHASH_ANYONECANPAY != 0,nHashType &&& 0x1f == SIGHASH_SINGLE,
    nHashType &&& 0x1f == SIGHASH_NONE⟩

variable (self : CTransactionSignatureSerializer)

def SerializeScriptCode : List UInt8 := WriteCompactSize self.scriptCode.length ++ self.scriptCode

/-- `SerializeInput`: other inputs go without their script, and without their
    sequence under `SIGHASH_SINGLE` and `SIGHASH_NONE`. -/
def SerializeInput (nInput : UInt32) : Option (List UInt8) :=
  let nInput := if self.fAnyoneCanPay then self.nIn else nInput
  match self.txTo.vin[nInput.toNat]? with
  | none => none
  | some txin =>
    some (txin.prevout.Serialize ++ (if nInput ≠ self.nIn then serScript [] else self.SerializeScriptCode) ++
      if nInput ≠ self.nIn && (self.fHashSingle || self.fHashNone) then serInt32 0 else serUInt32 txin.nSequence)

/-- `SerializeOutput`: under `SIGHASH_SINGLE` the outputs before the signed
    input's are null. -/
def SerializeOutput (nOutput : UInt32) : Option (List UInt8) :=
  if self.fHashSingle && nOutput ≠ self.nIn then some CTxOut.null.Serialize
  else self.txTo.vout[nOutput.toNat]?.map CTxOut.Serialize

/-- The joinsplit part of `Serialize`: the joinsplits and their key, with a null
    signature in place of the one that signs them. -/
def SerializeJoinSplits : List UInt8 :=
  if 2 ≤ self.txTo.nVersion then
    serVector JSDescription.Serialize self.txTo.vjoinsplit ++
      if 0 < self.txTo.vjoinsplit.length then
        self.txTo.joinSplitPubKey.Serialize ++ (default : joinsplit_sig_t).Serialize
      else []
  else []

/-- `Serialize` up to the joinsplits: the version, the inputs, the outputs and
    the lock time. -/
def SerializeTransparent : Option (List UInt8) := do
  let nInputs := if self.fAnyoneCanPay then 1 else self.txTo.vin.length
  let inputs ← (List.range nInputs).mapM fun nInput => self.SerializeInput (UInt32.ofNat nInput)
  let nOutputs :=
    if self.fHashNone then 0 else if self.fHashSingle then (self.nIn + 1).toNat else self.txTo.vout.length
  let outputs ← (List.range nOutputs).mapM fun nOutput => self.SerializeOutput (UInt32.ofNat nOutput)
  return serInt32 self.txTo.nVersion ++ WriteCompactSize nInputs ++ inputs.flatten ++ WriteCompactSize nOutputs ++
    outputs.flatten ++ serUInt32 self.txTo.nLockTime

/-- `Serialize`. -/
def Serialize : Option (List UInt8) := self.SerializeTransparent.map (· ++ self.SerializeJoinSplits)

end CTransactionSignatureSerializer

section

variable (Hash256 : List UInt8 → uint256)

def GetPrevoutHash (txTo : CTransaction) : uint256 := Hash256 (txTo.vin.flatMap fun txin => txin.prevout.Serialize)

def GetSequenceHash (txTo : CTransaction) : uint256 := Hash256 (txTo.vin.flatMap fun txin => serUInt32 txin.nSequence)

def GetOutputsHash (txTo : CTransaction) : uint256 := Hash256 (txTo.vout.flatMap CTxOut.Serialize)

/-- The byte string `SignatureHash` hashes. The cache of precomputed hashes is
    left out: it holds the same three hashes of the same transaction. -/
def SignatureHashPreimage (scriptCode : CScript) (txTo : CTransaction) (nIn : UInt32) (nHashType forkid : Int32)
    (amount : CAmount) (sigversion : SigVersion) : Option (Except String (List UInt8)) :=
  if txTo.vin.length ≤ nIn.toNat ∧ nIn ≠ NOT_AN_INPUT then some (.error "input index is out of range")
  else
    match sigversion with
    | .WITNESS_V0 =>
      let fAnyoneCanPay := nHashType &&& SIGHASH_ANYONECANPAY != 0
      let baseType := nHashType &&& 0x1f
      let hashPrevouts := if !fAnyoneCanPay then GetPrevoutHash Hash256 txTo else default
      let hashSequence :=
        if !fAnyoneCanPay && baseType != SIGHASH_SINGLE && baseType != SIGHASH_NONE then GetSequenceHash Hash256 txTo
        else default
      let hashOutputs :=
        if baseType != SIGHASH_SINGLE && baseType != SIGHASH_NONE then GetOutputsHash Hash256 txTo
        else
          match txTo.vout[nIn.toNat]? with
          | some txout => if baseType == SIGHASH_SINGLE then Hash256 txout.Serialize else default
          | none => default
      (txTo.vin[nIn.toNat]?).map fun txin =>
        .ok (serInt32 txTo.nVersion ++ hashPrevouts.Serialize ++ hashSequence.Serialize ++ txin.prevout.Serialize ++
          serScript scriptCode ++ serInt64 amount ++ serUInt32 txin.nSequence ++ hashOutputs.Serialize ++
          serUInt32 txTo.nLockTime ++ serInt32 nHashType)
    | .BASE =>
      if nHashType &&& 0x1f == SIGHASH_SINGLE ∧ txTo.vout.length ≤ nIn.toNat then
        some (.error "no matching output for SIGHASH_SINGLE")
      -- a non-negative int may be shifted while the result fits an unsigned int
      else if UsesForkId nHashType ∧ ¬(0 ≤ forkid.toInt ∧ forkid.toInt < 2^24) then none
      else
        let nForkHashType := if UsesForkId nHashType then nHashType ||| forkid <<< 8 else nHashType
        (CTransactionSignatureSerializer.new txTo scriptCode nIn nHashType).Serialize.map fun txTmp =>
          .ok (txTmp ++ serInt32 nForkHashType)

/-- `SignatureHash`. -/
def SignatureHash (scriptCode : CScript) (txTo : CTransaction) (nIn : UInt32) (nHashType forkid : Int32)
    (amount : CAmount) (sigversion : SigVersion) : Option (Except String uint256) :=
  (SignatureHashPreimage Hash256 scriptCode txTo nIn nHashType forkid amount sigversion).map (·.map Hash256)

end

/-! ## What the legacy string commits to -/

namespace CTransactionSignatureSerializer

variable (self : CTransactionSignatureSerializer)

theorem SerializeInput_isSome (input : self.nIn.toNat < self.txTo.vin.length) {nInput : Nat}
    (within : self.fAnyoneCanPay = false → nInput < self.txTo.vin.length) :
    (self.SerializeInput (UInt32.ofNat nInput)).isSome := by
  -- the input read is the signed one or the loop's own, both inside vin
  have inside : (if self.fAnyoneCanPay then self.nIn else UInt32.ofNat nInput).toNat < self.txTo.vin.length := by
    cases anyone : self.fAnyoneCanPay
    · have loop := within anyone
      simp only [Bool.false_eq_true,if_false]
      exact lt_of_le_of_lt (Nat.mod_le _ _) loop
    · exact input
  simp only [SerializeInput,List.getElem?_eq_getElem inside]
  rfl

theorem SerializeOutput_isSome {nOutput : Nat} (within : nOutput < self.txTo.vout.length) :
    (self.SerializeOutput (UInt32.ofNat nOutput)).isSome := by
  have inside : (UInt32.ofNat nOutput).toNat < self.txTo.vout.length := lt_of_le_of_lt (Nat.mod_le _ _) within
  unfold SerializeOutput
  split_ifs
  · rfl
  · rw [List.getElem?_eq_getElem inside]
    rfl

theorem SerializeTransparent_isSome (input : self.nIn.toNat < self.txTo.vin.length)
    (single : self.fHashSingle = true → self.nIn.toNat < self.txTo.vout.length) : self.SerializeTransparent.isSome := by
  have inputs := @Guards.mapM_isSome _ _ (fun nInput => self.SerializeInput (UInt32.ofNat nInput))
    (List.range (if self.fAnyoneCanPay then 1 else self.txTo.vin.length))
    fun nInput mem => self.SerializeInput_isSome input fun anyone => by
      simpa [anyone] using List.mem_range.mp mem
  have outputs := @Guards.mapM_isSome _ _ (fun nOutput => self.SerializeOutput (UInt32.ofNat nOutput))
    (List.range (if self.fHashNone then 0 else if self.fHashSingle then (self.nIn + 1).toNat
      else self.txTo.vout.length))
    fun nOutput mem => self.SerializeOutput_isSome (by
      have below := List.mem_range.mp mem
      -- under SIGHASH_SINGLE the loop ends at the signed input's output
      split_ifs at below with none hashSingle
      · omega
      · have signed := single hashSingle
        have wrap : (self.nIn + 1).toNat ≤ self.nIn.toNat + 1 := by
          simp only [UInt32.toNat_add,UInt32.reduceToNat]
          omega
        omega
      · exact below)
  obtain ⟨inputBytes,inputsSerialized⟩ := Option.isSome_iff_exists.mp inputs
  obtain ⟨outputBytes,outputsSerialized⟩ := Option.isSome_iff_exists.mp outputs
  simp only [SerializeTransparent]
  rw [inputsSerialized]
  dsimp only [bind,Option.bind]
  rw [outputsSerialized]
  rfl

/-- The serializer of the same transaction with other joinsplits and key. -/
def withJoinSplits (vjoinsplit : List JSDescription) (joinSplitPubKey : uint256) :
    CTransactionSignatureSerializer :=
  { self with txTo := { self.txTo with vjoinsplit := vjoinsplit, joinSplitPubKey := joinSplitPubKey } }

theorem SerializeTransparent_withJoinSplits (vjoinsplit : List JSDescription) (joinSplitPubKey : uint256) :
    (self.withJoinSplits vjoinsplit joinSplitPubKey).SerializeTransparent = self.SerializeTransparent := rfl

/-- The joinsplit part determines the joinsplits, and their key when there are any. -/
theorem joinSplits_inj {vjoinsplit vjoinsplit' : List JSDescription} {joinSplitPubKey joinSplitPubKey' : uint256}
    (fits : ∀ js ∈ vjoinsplit, js.AmountsFit) (fits' : ∀ js ∈ vjoinsplit', js.AmountsFit)
    (same : serVector JSDescription.Serialize vjoinsplit ++
        (if 0 < vjoinsplit.length then joinSplitPubKey.Serialize ++ (default : joinsplit_sig_t).Serialize else []) =
      serVector JSDescription.Serialize vjoinsplit' ++
        (if 0 < vjoinsplit'.length then joinSplitPubKey'.Serialize ++ (default : joinsplit_sig_t).Serialize else [])) :
    vjoinsplit = vjoinsplit' ∧ (0 < vjoinsplit.length → joinSplitPubKey = joinSplitPubKey') := by
  -- a joinsplit takes 1802 bytes, more than the length prefix and the key can make up
  have count : vjoinsplit.length = vjoinsplit'.length := by
    have lengths := congrArg List.length same
    simp only [List.length_append,serVector_length,JSDescription.Serialize_length,List.map_const',
      List.sum_replicate,smul_eq_mul] at lengths
    have short := WriteCompactSize_length_le vjoinsplit.length
    have nonempty := WriteCompactSize_length_pos vjoinsplit.length
    have short_other := WriteCompactSize_length_le vjoinsplit'.length
    have nonempty_other := WriteCompactSize_length_pos vjoinsplit'.length
    split_ifs at lengths <;> simp at lengths <;> omega
  simp only [serVector,count,List.append_assoc,List.append_cancel_left_eq] at same
  obtain ⟨flat,keys⟩ := List.append_inj same (by simp [List.length_flatMap,JSDescription.Serialize_length,count])
  have serialized := @flatten_inj 1802 (vjoinsplit.map JSDescription.Serialize) (vjoinsplit'.map JSDescription.Serialize)
    (by simp [JSDescription.Serialize_length]) (by simp [JSDescription.Serialize_length]) (by decide) (by simp [count])
    (by simpa [List.flatMap_def] using flat)
  refine ⟨map_inj_of_injOn (fun _ _ fit fit_other => JSDescription.Serialize_inj fit fit_other) fits fits' serialized,
    fun some => ?_⟩
  have some_other : 0 < vjoinsplit'.length := count ▸ some
  rw [if_pos some_other,if_pos some_other] at keys
  exact base_blob.Serialize_inj (List.append_cancel_right keys)

end CTransactionSignatureSerializer

/-- A non-negative `int` has the value of its bits. -/
theorem toBitVec_toNat_of_nonneg {x : Int32} (nonneg : 0 ≤ x.toInt) : (x.toBitVec.toNat : Int) = x.toInt := by
  have cond := BitVec.toInt_eq_toNat_cond x.toBitVec
  have bound := x.toBitVec.isLt
  have same : x.toInt = x.toBitVec.toInt := rfl
  split_ifs at cond <;> omega

/-- `nHashType | forkid << 8` keeps a one-byte hash type below the fork id. -/
theorem forkHashType_ushiftRight {nHashType forkid : Int32} (hashType : 0 ≤ nHashType.toInt ∧ nHashType.toInt < 256)
    (fork : 0 ≤ forkid.toInt ∧ forkid.toInt < 2^24) : (nHashType ||| forkid <<< 8).toBitVec >>> 8 = forkid.toBitVec := by
  have low : nHashType.toBitVec.toNat < 2^8 := by
    have := toBitVec_toNat_of_nonneg hashType.1
    omega
  have small : forkid.toBitVec.toNat < 2^24 := by
    have := toBitVec_toNat_of_nonneg fork.1
    omega
  ext i inside
  have high : nHashType.toBitVec.getLsbD (8 + i) = false := by
    rw [BitVec.getLsbD]
    exact Nat.testBit_eq_false_of_lt (lt_of_lt_of_le low (Nat.pow_le_pow_right (by norm_num) (by omega)))
  simp
  rw [high,Bool.false_or]
  -- bits of the fork id shifted past the top are zero anyway
  by_cases kept : 8 + i < 32
  · simp [kept,BitVec.getLsbD_eq_getElem inside]
  · have top : forkid.toBitVec[i] = false := by
      rw [BitVec.getElem_eq_testBit_toNat]
      exact Nat.testBit_eq_false_of_lt (lt_of_lt_of_le small (Nat.pow_le_pow_right (by norm_num) (by omega)))
    simp [kept,top]

section

variable (Hash256 : List UInt8 → uint256)

/-- The legacy string of a signed input: the serializer's transparent part, the
    joinsplit part and the hash type with the fork id. -/
theorem SignatureHashPreimage_BASE (scriptCode : CScript) {txTo : CTransaction} {nIn : UInt32}
    {nHashType : Int32} (forkid : Int32) (amount : CAmount) (input : nIn.toNat < txTo.vin.length)
    (single : (nHashType &&& 0x1f == SIGHASH_SINGLE) = true → nIn.toNat < txTo.vout.length)
    (fork : UsesForkId nHashType = true → 0 ≤ forkid.toInt ∧ forkid.toInt < 2^24) :
    ∃ body, (CTransactionSignatureSerializer.new txTo scriptCode nIn nHashType).SerializeTransparent = some body ∧
      SignatureHashPreimage Hash256 scriptCode txTo nIn nHashType forkid amount .BASE =
        some (.ok (body ++ (CTransactionSignatureSerializer.new txTo scriptCode nIn nHashType).SerializeJoinSplits ++
          serInt32 (if UsesForkId nHashType then nHashType ||| forkid <<< 8 else nHashType))) := by
  obtain ⟨body,serialized⟩ := Option.isSome_iff_exists.mp
    (CTransactionSignatureSerializer.SerializeTransparent_isSome
      (CTransactionSignatureSerializer.new txTo scriptCode nIn nHashType) input single)
  refine ⟨body,serialized,?_⟩
  have inRange : ¬(txTo.vin.length ≤ nIn.toNat ∧ nIn ≠ NOT_AN_INPUT) := fun ⟨out,_⟩ => by omega
  have matched : ¬((nHashType &&& 0x1f == SIGHASH_SINGLE) = true ∧ txTo.vout.length ≤ nIn.toNat) :=
    fun ⟨hashSingle,out⟩ => by have := single hashSingle; omega
  have defined : ¬(UsesForkId nHashType = true ∧ ¬(0 ≤ forkid.toInt ∧ forkid.toInt < 2^24)) :=
    fun ⟨uses,out⟩ => out (fork uses)
  simp only [SignatureHashPreimage,if_neg inRange,if_neg matched,if_neg defined,
    CTransactionSignatureSerializer.Serialize,serialized,Option.map_some]

/-- The legacy string commits to the fork id, and to the joinsplits with their
    key where there are joinsplits. -/
theorem BASE_commits_to_forkid_and_joinsplits (scriptCode : CScript) (txTo : CTransaction) (nIn : UInt32)
    (amount : CAmount) (nHashType : Int32) (input : nIn.toNat < txTo.vin.length)
    (hashType : 0 ≤ nHashType.toInt ∧ nHashType.toInt < 256)
    (single : (nHashType &&& 0x1f == SIGHASH_SINGLE) = true → nIn.toNat < txTo.vout.length) :
    (UsesForkId nHashType = true → ∀ forkid forkid' : Int32,
      0 ≤ forkid.toInt ∧ forkid.toInt < 2^24 → 0 ≤ forkid'.toInt ∧ forkid'.toInt < 2^24 → forkid ≠ forkid' →
      ∃ preimage preimage',
        SignatureHashPreimage Hash256 scriptCode txTo nIn nHashType forkid amount .BASE = some (.ok preimage) ∧
        SignatureHashPreimage Hash256 scriptCode txTo nIn nHashType forkid' amount .BASE = some (.ok preimage') ∧
        preimage ≠ preimage') ∧
    (∀ (forkid : Int32) (vjoinsplit : List JSDescription) (joinSplitPubKey : uint256),
      0 ≤ forkid.toInt ∧ forkid.toInt < 2^24 → 2 ≤ txTo.nVersion →
      (∀ js ∈ txTo.vjoinsplit, js.AmountsFit) → (∀ js ∈ vjoinsplit, js.AmountsFit) →
      vjoinsplit ≠ txTo.vjoinsplit ∨ (txTo.vjoinsplit ≠ [] ∧ joinSplitPubKey ≠ txTo.joinSplitPubKey) →
      ∃ preimage preimage',
        SignatureHashPreimage Hash256 scriptCode txTo nIn nHashType forkid amount .BASE = some (.ok preimage) ∧
        SignatureHashPreimage Hash256 scriptCode { txTo with vjoinsplit := vjoinsplit, joinSplitPubKey := joinSplitPubKey }
          nIn nHashType forkid amount .BASE = some (.ok preimage') ∧
        preimage ≠ preimage') := by
  constructor
  · intro uses forkid forkid' fork fork' differ
    obtain ⟨body,serialized,preimage⟩ := SignatureHashPreimage_BASE Hash256 scriptCode forkid amount input single fun _ => fork
    obtain ⟨body',serialized',preimage'⟩ :=
      SignatureHashPreimage_BASE Hash256 scriptCode forkid' amount input single fun _ => fork'
    have bodies : body = body' := Option.some.inj (serialized.symm.trans serialized')
    refine ⟨_,_,preimage,preimage',fun same => differ ?_⟩
    rw [bodies,if_pos uses,if_pos uses] at same
    -- the two strings differ in the second byte of the hash type, where the fork id goes
    have types := congrArg (fun x : Int32 => x.toBitVec >>> 8) (serInt32_inj (List.append_cancel_left same))
    simp only [forkHashType_ushiftRight hashType fork,forkHashType_ushiftRight hashType fork'] at types
    exact Int32.toBitVec_inj.mp types
  · intro forkid vjoinsplit joinSplitPubKey fork version fits fits' differ
    obtain ⟨body,serialized,preimage⟩ := SignatureHashPreimage_BASE Hash256 scriptCode forkid amount input single fun _ => fork
    obtain ⟨body',serialized',preimage'⟩ :=
      @SignatureHashPreimage_BASE Hash256 scriptCode { txTo with vjoinsplit := vjoinsplit, joinSplitPubKey := joinSplitPubKey }
        nIn nHashType forkid amount input single fun _ => fork
    -- the serializer reads the same inputs and outputs
    have bodies : body = body' := Option.some.inj (serialized.symm.trans serialized')
    refine ⟨_,_,preimage,preimage',fun same => ?_⟩
    rw [bodies] at same
    have sections := List.append_cancel_left (List.append_cancel_right same)
    simp only [CTransactionSignatureSerializer.SerializeJoinSplits,CTransactionSignatureSerializer.new,version,
      if_true] at sections
    obtain ⟨same_joinsplits,same_key⟩ := CTransactionSignatureSerializer.joinSplits_inj fits fits' sections
    rcases differ with other | ⟨present,other⟩
    · exact other same_joinsplits.symm
    · exact other (same_key (List.length_pos_iff.mpr present)).symm

/-- The `WITNESS_V0` string of an input in range is written, and it is one
    string whatever the fork id and whatever the joinsplits and their key: BIP143
    hashes neither. -/
theorem WITNESS_V0_ignores_forkid_and_joinsplits (scriptCode : CScript) {txTo : CTransaction} {nIn : UInt32}
    (nHashType : Int32) (amount : CAmount) (input : nIn.toNat < txTo.vin.length) :
    (∃ preimage, SignatureHashPreimage Hash256 scriptCode txTo nIn nHashType FORKID_BTCP amount .WITNESS_V0 =
      some (.ok preimage)) ∧
    ∀ (forkid : Int32) (vjoinsplit : List JSDescription) (joinSplitPubKey : uint256),
      SignatureHashPreimage Hash256 scriptCode { txTo with vjoinsplit := vjoinsplit, joinSplitPubKey := joinSplitPubKey }
        nIn nHashType forkid amount .WITNESS_V0 =
      SignatureHashPreimage Hash256 scriptCode txTo nIn nHashType FORKID_BTCP amount .WITNESS_V0 := by
  have inRange : ¬(txTo.vin.length ≤ nIn.toNat ∧ nIn ≠ NOT_AN_INPUT) := fun ⟨out,_⟩ => by omega
  refine ⟨?_,fun _ _ _ => rfl⟩
  simp only [SignatureHashPreimage,if_neg inRange,List.getElem?_eq_getElem input,Option.map_some]
  exact ⟨_,rfl⟩

/-- Signature hashes of both versions of an input in range: the legacy string
    commits to the fork id and to the joinsplits (with their key where there are
    joinsplits), and the `WITNESS_V0` string is one string for every fork id and
    every joinsplit section. -/
theorem SignatureHash_commits_only_in_BASE (scriptCode : CScript) (txTo : CTransaction) (nIn : UInt32)
    (amount : CAmount) (nHashType : Int32) (input : nIn.toNat < txTo.vin.length)
    (hashType : 0 ≤ nHashType.toInt ∧ nHashType.toInt < 256)
    (single : (nHashType &&& 0x1f == SIGHASH_SINGLE) = true → nIn.toNat < txTo.vout.length) :
    ((UsesForkId nHashType = true → ∀ forkid forkid' : Int32,
      0 ≤ forkid.toInt ∧ forkid.toInt < 2^24 → 0 ≤ forkid'.toInt ∧ forkid'.toInt < 2^24 → forkid ≠ forkid' →
      ∃ preimage preimage',
        SignatureHashPreimage Hash256 scriptCode txTo nIn nHashType forkid amount .BASE = some (.ok preimage) ∧
        SignatureHashPreimage Hash256 scriptCode txTo nIn nHashType forkid' amount .BASE = some (.ok preimage') ∧
        preimage ≠ preimage') ∧
    (∀ (forkid : Int32) (vjoinsplit : List JSDescription) (joinSplitPubKey : uint256),
      0 ≤ forkid.toInt ∧ forkid.toInt < 2^24 → 2 ≤ txTo.nVersion →
      (∀ js ∈ txTo.vjoinsplit, js.AmountsFit) → (∀ js ∈ vjoinsplit, js.AmountsFit) →
      vjoinsplit ≠ txTo.vjoinsplit ∨ (txTo.vjoinsplit ≠ [] ∧ joinSplitPubKey ≠ txTo.joinSplitPubKey) →
      ∃ preimage preimage',
        SignatureHashPreimage Hash256 scriptCode txTo nIn nHashType forkid amount .BASE = some (.ok preimage) ∧
        SignatureHashPreimage Hash256 scriptCode { txTo with vjoinsplit := vjoinsplit, joinSplitPubKey := joinSplitPubKey }
          nIn nHashType forkid amount .BASE = some (.ok preimage') ∧
        preimage ≠ preimage')) ∧
    (∃ preimage, SignatureHashPreimage Hash256 scriptCode txTo nIn nHashType FORKID_BTCP amount .WITNESS_V0 =
      some (.ok preimage)) ∧
    ∀ (forkid : Int32) (vjoinsplit : List JSDescription) (joinSplitPubKey : uint256),
      SignatureHashPreimage Hash256 scriptCode { txTo with vjoinsplit := vjoinsplit, joinSplitPubKey := joinSplitPubKey }
        nIn nHashType forkid amount .WITNESS_V0 =
      SignatureHashPreimage Hash256 scriptCode txTo nIn nHashType FORKID_BTCP amount .WITNESS_V0 :=
  ⟨BASE_commits_to_forkid_and_joinsplits Hash256 scriptCode txTo nIn amount nHashType input hashType single,
    WITNESS_V0_ignores_forkid_and_joinsplits Hash256 scriptCode nHashType amount input⟩

/-- A version-2 transfer with one input, one output and no joinsplits. -/
def unsignedTransfer : CTransaction :=
  ⟨[⟨⟨default,0⟩,[],0xffffffff⟩],[⟨COIN,[0x51]⟩],2,0,[],default,default⟩

/-- The input of `unsignedTransfer` signed with `SIGHASH_ALL | SIGHASH_FORKID`;
    as a version 0 witness spend its string is the same for `FORKID_BTCP` and
    `FORKID_NONE`. -/
theorem SignatureHash_commits_only_in_BASE_at_unsignedTransfer :
    (0 : UInt32).toNat < unsignedTransfer.vin.length ∧ (0 ≤ (0x41 : Int32).toInt ∧ (0x41 : Int32).toInt < 256) ∧
    (((0x41 : Int32) &&& 0x1f == SIGHASH_SINGLE) = true → (0 : UInt32).toNat < unsignedTransfer.vout.length) ∧
    ((UsesForkId 0x41 = true → ∀ forkid forkid' : Int32,
      0 ≤ forkid.toInt ∧ forkid.toInt < 2^24 → 0 ≤ forkid'.toInt ∧ forkid'.toInt < 2^24 → forkid ≠ forkid' →
      ∃ preimage preimage',
        SignatureHashPreimage (fun _ => default) [] unsignedTransfer 0 0x41 forkid 0 .BASE = some (.ok preimage) ∧
        SignatureHashPreimage (fun _ => default) [] unsignedTransfer 0 0x41 forkid' 0 .BASE = some (.ok preimage') ∧
        preimage ≠ preimage') ∧
    (∀ (forkid : Int32) (vjoinsplit : List JSDescription) (joinSplitPubKey : uint256),
      0 ≤ forkid.toInt ∧ forkid.toInt < 2^24 → 2 ≤ unsignedTransfer.nVersion →
      (∀ js ∈ unsignedTransfer.vjoinsplit, js.AmountsFit) → (∀ js ∈ vjoinsplit, js.AmountsFit) →
      vjoinsplit ≠ unsignedTransfer.vjoinsplit ∨
        (unsignedTransfer.vjoinsplit ≠ [] ∧ joinSplitPubKey ≠ unsignedTransfer.joinSplitPubKey) →
      ∃ preimage preimage',
        SignatureHashPreimage (fun _ => default) [] unsignedTransfer 0 0x41 forkid 0 .BASE = some (.ok preimage) ∧
        SignatureHashPreimage (fun _ => default) []
          { unsignedTransfer with vjoinsplit := vjoinsplit, joinSplitPubKey := joinSplitPubKey }
          0 0x41 forkid 0 .BASE = some (.ok preimage') ∧
        preimage ≠ preimage')) ∧
    (∃ preimage, SignatureHashPreimage (fun _ => default) [] unsignedTransfer 0 0x41 FORKID_BTCP 0 .WITNESS_V0 =
      some (.ok preimage)) ∧
    ∀ (forkid : Int32) (vjoinsplit : List JSDescription) (joinSplitPubKey : uint256),
      SignatureHashPreimage (fun _ => default) []
        { unsignedTransfer with vjoinsplit := vjoinsplit, joinSplitPubKey := joinSplitPubKey }
        0 0x41 forkid 0 .WITNESS_V0 =
      SignatureHashPreimage (fun _ => default) [] unsignedTransfer 0 0x41 FORKID_BTCP 0 .WITNESS_V0 :=
  have input : (0 : UInt32).toNat < unsignedTransfer.vin.length := by decide
  have hashType : 0 ≤ (0x41 : Int32).toInt ∧ (0x41 : Int32).toInt < 256 := by decide
  have single : ((0x41 : Int32) &&& 0x1f == SIGHASH_SINGLE) = true → (0 : UInt32).toNat < unsignedTransfer.vout.length :=
    by decide
  ⟨input,hashType,single,SignatureHash_commits_only_in_BASE (fun _ => default) [] unsignedTransfer 0 0 0x41 input hashType
    single⟩

end

end BitcoinPrivate
