import BitcoinPrivate.Primitives.Unserialize

/-!
`UnserializeTransaction` and the serialization of `primitives/transaction.h`
with witnesses: the integers, scripts and witness stacks, inputs and outputs,
joinsplits with the compressed points of their proofs, and the transaction
behind its optional dummy version and flags byte. A transaction that the
source's types can hold, and whose vectors `ReadCompactSize` accepts, reads
back from its bytes in either stream; and the reader accepts bytes that are
not any transaction's serialization.
-/
namespace BitcoinPrivate
open LittleEndian StreamReader

/-! ## Integers and byte strings -/

/-- `int32_t`, two's complement. -/
def unserializeInt32 : Reader UInt8 Int32 := (fun n => (UInt32.ofNat n).toInt32) <$> ser_readdata32

def unserializeUInt32 : Reader UInt8 UInt32 := UInt32.ofNat <$> ser_readdata32

/-- `int64_t`, two's complement; `CAmount` is one. -/
def unserializeInt64 : Reader UInt8 Int := (fun n : Nat => if n < 2^63 then (n : Int) else n - 2^64) <$> ser_readdata64

/-- A vector or `prevector` of bytes: the length, then the bytes. -/
def unserializeBytes : Reader UInt8 (List UInt8) := do
  let nSize ← ReadCompactSize
  take endOfData nSize

theorem ser_readdata_reads {w n : Nat} (small : n < 256^w) : Reads (ser_readdata w) n (leBytes n w) := by
  intro rest
  rw [ser_readdata_run,Nat.mod_eq_of_lt small]

theorem unserializeInt32_reads (a : Int32) : Reads unserializeInt32 a (serInt32 a) := by
  have small : a.toUInt32.toNat < 256^4 := by simpa using a.toUInt32.toNat_lt
  have read := (ser_readdata_reads small).map fun n => (UInt32.ofNat n).toInt32
  simpa [unserializeInt32,ser_readdata32,serInt32,ser_writedata32] using read

theorem unserializeUInt32_reads (a : UInt32) : Reads unserializeUInt32 a (serUInt32 a) := by
  have small : a.toNat < 256^4 := by simpa using a.toNat_lt
  have read := (ser_readdata_reads small).map UInt32.ofNat
  simpa [unserializeUInt32,ser_readdata32,serUInt32,ser_writedata32] using read

theorem unserializeInt64_reads {a : Int} (fits : FitsInt64 a) : Reads unserializeInt64 a (serInt64 a) := by
  have small : (a % 2^64).toNat < 256^8 := by omega
  have read := (ser_readdata_reads small).map fun n : Nat => if n < 2^63 then (n : Int) else n - 2^64
  unfold FitsInt64 at fits
  have value : (if (a % 2^64).toNat < 2^63 then ((a % 2^64).toNat : Int) else (a % 2^64).toNat - 2^64) = a := by
    split_ifs <;> omega
  rwa [value] at read

theorem unserializeBytes_reads {bs : List UInt8} (short : bs.length ≤ MAX_SIZE) :
    Reads unserializeBytes bs (serVector (fun b => [b]) bs) := by
  have whole := (ReadCompactSize_reads short).bind (f := take endOfData) (Reads.take endOfData bs)
  simpa [unserializeBytes,serVector] using whole

/-! ## Inputs, outputs and joinsplits -/

def COutPoint.Unserialize : Reader UInt8 COutPoint := do
  let hash ← base_blob.Unserialize 32
  let n ← unserializeUInt32
  pure ⟨hash,n⟩

def CTxIn.Unserialize : Reader UInt8 CTxIn := do
  let prevout ← COutPoint.Unserialize
  let scriptSig ← unserializeBytes
  let nSequence ← unserializeUInt32
  pure ⟨prevout,scriptSig,nSequence⟩

def CTxOut.Unserialize : Reader UInt8 CTxOut := do
  let nValue ← unserializeInt64
  let scriptPubKey ← unserializeBytes
  pure ⟨nValue,scriptPubKey⟩

theorem COutPoint.Unserialize_reads (o : COutPoint) : Reads COutPoint.Unserialize o o.Serialize := by
  intro rest
  simp only [COutPoint.Serialize,COutPoint.Unserialize,List.append_assoc]
  rw [run_bind_ok (base_blob.Unserialize_reads o.hash _),run_bind_ok (unserializeUInt32_reads o.n rest)]
  rfl

theorem CTxIn.Unserialize_reads {txin : CTxIn} (short : txin.scriptSig.length ≤ MAX_SIZE) :
    Reads CTxIn.Unserialize txin txin.Serialize := by
  intro rest
  simp only [CTxIn.Serialize,CTxIn.Unserialize,serScript,List.append_assoc]
  rw [run_bind_ok (COutPoint.Unserialize_reads txin.prevout _),run_bind_ok (unserializeBytes_reads short _),
    run_bind_ok (unserializeUInt32_reads txin.nSequence rest)]
  rfl

theorem CTxOut.Unserialize_reads {txout : CTxOut} (fits : FitsInt64 txout.nValue)
    (short : txout.scriptPubKey.length ≤ MAX_SIZE) : Reads CTxOut.Unserialize txout txout.Serialize := by
  intro rest
  simp only [CTxOut.Serialize,CTxOut.Unserialize,serScript,List.append_assoc]
  rw [run_bind_ok (unserializeInt64_reads fits _),run_bind_ok (unserializeBytes_reads short rest)]
  rfl

/-! ## The proof's compressed points -/

def G1_PREFIX_MASK : Nat := 0x02

def G2_PREFIX_MASK : Nat := 0x0a

/-- `CompressedG1`: a point of G1 as the parity of `y` and the coordinate `x`. -/
structure CompressedG1 where
  y_lsb : Bool
  x : base_blob 32
  deriving DecidableEq, Repr

/-- `CompressedG2`: a point of G2 as the order of `y` and the coordinate `x`. -/
structure CompressedG2 where
  y_gt : Bool
  x : base_blob 64
  deriving DecidableEq, Repr

/-- The lead byte a point's `SerializationOp` writes: the prefix, with the low
    bit set for the flag. -/
def leadingByte (prefixMask : Nat) (flag : Bool) : Nat := if flag then prefixMask ||| 1 else prefixMask

/-- The lead byte a point's `SerializationOp` reads: every bit but the lowest
    must be the prefix's (the source masks with `~1`), and the lowest is the flag. -/
def readLeadingByte (prefixMask : Nat) (message : String) : Reader UInt8 Bool := do
  let leadingByte ← ser_readdata8
  if leadingByte &&& 254 ≠ prefixMask then throw message
  pure (leadingByte &&& 1 = 1)

def CompressedG1.Serialize (p : CompressedG1) : List UInt8 :=
  ser_writedata8 (leadingByte G1_PREFIX_MASK p.y_lsb) ++ p.x.Serialize

def CompressedG2.Serialize (p : CompressedG2) : List UInt8 :=
  ser_writedata8 (leadingByte G2_PREFIX_MASK p.y_gt) ++ p.x.Serialize

def CompressedG1.Unserialize : Reader UInt8 CompressedG1 := do
  let y_lsb ← readLeadingByte G1_PREFIX_MASK "lead byte of G1 point not recognized"
  let x ← base_blob.Unserialize 32
  pure ⟨y_lsb,x⟩

def CompressedG2.Unserialize : Reader UInt8 CompressedG2 := do
  let y_gt ← readLeadingByte G2_PREFIX_MASK "lead byte of G2 point not recognized"
  let x ← base_blob.Unserialize 64
  pure ⟨y_gt,x⟩

/-- A prefix whose low bit is clear reads back with either flag. -/
theorem readLeadingByte_reads {prefixMask : Nat} (message : String) (flag : Bool)
    (clear : prefixMask &&& 254 = prefixMask ∧ prefixMask &&& 1 = 0 ∧ (prefixMask ||| 1) &&& 254 = prefixMask ∧
      (prefixMask ||| 1) &&& 1 = 1 ∧ prefixMask ||| 1 < 256) :
    Reads (readLeadingByte prefixMask message) flag (ser_writedata8 (leadingByte prefixMask flag)) := by
  obtain ⟨masked,low,masked',low',small⟩ := clear
  have fits : prefixMask < 256 := lt_of_le_of_lt Nat.left_le_or small
  intro rest
  cases flag with
  | false =>
    rw [readLeadingByte,leadingByte,if_neg Bool.false_ne_true,run_bind_ok (ser_readdata8_reads fits rest)]
    simp [masked,low]
    rfl
  | true =>
    rw [readLeadingByte,leadingByte,if_pos rfl,run_bind_ok (ser_readdata8_reads small rest)]
    simp [masked',low']
    rfl

theorem CompressedG1.Unserialize_reads (p : CompressedG1) : Reads CompressedG1.Unserialize p p.Serialize := by
  intro rest
  rw [CompressedG1.Serialize,List.append_assoc,CompressedG1.Unserialize,
    run_bind_ok (readLeadingByte_reads _ p.y_lsb (by decide) _),run_bind_ok (base_blob.Unserialize_reads p.x rest)]
  rfl

theorem CompressedG2.Unserialize_reads (p : CompressedG2) : Reads CompressedG2.Unserialize p p.Serialize := by
  intro rest
  rw [CompressedG2.Serialize,List.append_assoc,CompressedG2.Unserialize,
    run_bind_ok (readLeadingByte_reads _ p.y_gt (by decide) _),run_bind_ok (base_blob.Unserialize_reads p.x rest)]
  rfl

/-- `ZCProof`: the eight compressed points of a proof. -/
structure ZCProofPoints where
  g_A : CompressedG1
  g_A_prime : CompressedG1
  g_B : CompressedG2
  g_B_prime : CompressedG1
  g_C : CompressedG1
  g_C_prime : CompressedG1
  g_K : CompressedG1
  g_H : CompressedG1
  deriving DecidableEq, Repr

namespace ZCProofPoints

def Serialize (p : ZCProofPoints) : List UInt8 :=
  p.g_A.Serialize ++ p.g_A_prime.Serialize ++ p.g_B.Serialize ++ p.g_B_prime.Serialize ++ p.g_C.Serialize ++
    p.g_C_prime.Serialize ++ p.g_K.Serialize ++ p.g_H.Serialize

theorem Serialize_length (p : ZCProofPoints) : p.Serialize.length = 296 := by
  simp [Serialize,CompressedG1.Serialize,CompressedG2.Serialize,ser_writedata8]

/-- The proof's bytes, which is what `JSDescription` holds of it here. -/
def toProof (p : ZCProofPoints) : ZCProof := ⟨p.Serialize,p.Serialize_length⟩

def Unserialize : Reader UInt8 ZCProofPoints := do
  let g_A ← CompressedG1.Unserialize
  let g_A_prime ← CompressedG1.Unserialize
  let g_B ← CompressedG2.Unserialize
  let g_B_prime ← CompressedG1.Unserialize
  let g_C ← CompressedG1.Unserialize
  let g_C_prime ← CompressedG1.Unserialize
  let g_K ← CompressedG1.Unserialize
  let g_H ← CompressedG1.Unserialize
  pure ⟨g_A,g_A_prime,g_B,g_B_prime,g_C,g_C_prime,g_K,g_H⟩

theorem Unserialize_reads (p : ZCProofPoints) : Reads Unserialize p p.Serialize := by
  intro rest
  simp only [Serialize,Unserialize,List.append_assoc]
  rw [run_bind_ok (p.g_A.Unserialize_reads _),run_bind_ok (p.g_A_prime.Unserialize_reads _),
    run_bind_ok (p.g_B.Unserialize_reads _),run_bind_ok (p.g_B_prime.Unserialize_reads _),
    run_bind_ok (p.g_C.Unserialize_reads _),run_bind_ok (p.g_C_prime.Unserialize_reads _),
    run_bind_ok (p.g_K.Unserialize_reads _),run_bind_ok (p.g_H.Unserialize_reads rest)]
  rfl

end ZCProofPoints

/-- `std::array`: its `N` elements in order. -/
def unserializeArray {α : Type} (r : Reader UInt8 α) (N : Nat) : Reader UInt8 (Vector α N) := replicateVector r N

def JSDescription.Unserialize : Reader UInt8 JSDescription := do
  let vpub_old ← unserializeInt64
  let vpub_new ← unserializeInt64
  let anchor ← base_blob.Unserialize 32
  let nullifiers ← unserializeArray (base_blob.Unserialize 32) ZC_NUM_JS_INPUTS
  let commitments ← unserializeArray (base_blob.Unserialize 32) ZC_NUM_JS_OUTPUTS
  let ephemeralKey ← base_blob.Unserialize 32
  let randomSeed ← base_blob.Unserialize 32
  let macs ← unserializeArray (base_blob.Unserialize 32) ZC_NUM_JS_INPUTS
  let proof ← ZCProofPoints.Unserialize
  let ciphertexts ← unserializeArray (base_blob.Unserialize 601) ZC_NUM_JS_OUTPUTS
  pure ⟨vpub_old,vpub_new,anchor,nullifiers,commitments,ephemeralKey,randomSeed,macs,proof.toProof,ciphertexts⟩

/-- What every `JSDescription` of the source is: its amounts are `int64_t`, and
    its proof is the bytes of eight compressed points. -/
structure JSDescription.Representable (js : JSDescription) : Prop where
  amounts : js.AmountsFit
  proof : ∃ p : ZCProofPoints, js.proof = p.toProof

theorem unserializeArray_blob_reads {W N : Nat} (xs : Vector (base_blob W) N) :
    Reads (unserializeArray (base_blob.Unserialize W) N) xs (serArray base_blob.Serialize xs) :=
  Reads.replicateVector xs fun b _ => base_blob.Unserialize_reads b

theorem JSDescription.Unserialize_reads {js : JSDescription} (representable : js.Representable) :
    Reads JSDescription.Unserialize js js.Serialize := by
  obtain ⟨⟨fits_old,fits_new⟩,p,proof⟩ := representable
  intro rest
  have proof_bytes : js.proof.Serialize = p.Serialize := by rw [proof]; rfl
  simp only [JSDescription.Serialize,JSDescription.Unserialize,proof_bytes,List.append_assoc]
  rw [run_bind_ok (unserializeInt64_reads fits_old _),run_bind_ok (unserializeInt64_reads fits_new _),
    run_bind_ok (base_blob.Unserialize_reads js.anchor _),run_bind_ok (unserializeArray_blob_reads js.nullifiers _),
    run_bind_ok (unserializeArray_blob_reads js.commitments _),run_bind_ok (base_blob.Unserialize_reads js.ephemeralKey _),
    run_bind_ok (base_blob.Unserialize_reads js.randomSeed _),run_bind_ok (unserializeArray_blob_reads js.macs _),
    run_bind_ok (p.Unserialize_reads _),run_bind_ok (unserializeArray_blob_reads js.ciphertexts rest),← proof]
  rfl

/-! ## The transaction -/

/-- `CScriptWitness`: the data an input's witness pushes. -/
structure CScriptWitness where
  stack : List (List UInt8)
  deriving DecidableEq, Repr

/-- `CScriptWitness::IsNull`. -/
def CScriptWitness.IsNull (w : CScriptWitness) : Bool := w.stack.isEmpty

def CScriptWitness.Serialize (w : CScriptWitness) : List UInt8 := serVector (serVector fun b => [b]) w.stack

/-- `CMutableTransaction`: the fields of `CTransaction`, each input with its
    `scriptWitness`. -/
structure CMutableTransaction where
  nVersion : Int32
  vin : List (CTxIn × CScriptWitness)
  vout : List CTxOut
  nLockTime : UInt32
  vjoinsplit : List JSDescription
  joinSplitPubKey : uint256
  joinSplitSig : joinsplit_sig_t
  deriving DecidableEq, Repr

namespace CMutableTransaction

/-- The transaction without its witnesses. -/
def toTransaction (tx : CMutableTransaction) : CTransaction :=
  ⟨tx.vin.map Prod.fst,tx.vout,tx.nVersion,tx.nLockTime,tx.vjoinsplit,tx.joinSplitPubKey,tx.joinSplitSig⟩

/-- `HasWitness`. -/
def HasWitness (tx : CMutableTransaction) : Bool := tx.vin.any fun txin => !txin.2.IsNull

/-- The transaction with every witness stack cleared. -/
def clearWitness (tx : CMutableTransaction) : CMutableTransaction :=
  { tx with vin := tx.vin.map fun txin => (txin.1,⟨[]⟩) }

/-- `SerializeTransaction` into a stream that allows witnesses when `fAllowWitness`. -/
def Serialize (fAllowWitness : Bool) (tx : CMutableTransaction) : List UInt8 :=
  let flags : Nat := if fAllowWitness && tx.HasWitness then 1 else 0
  (if flags ≠ 0 then serInt32 0 ++ ser_writedata8 flags else []) ++ serInt32 tx.nVersion ++
    serVector CTxIn.Serialize (tx.vin.map Prod.fst) ++ serVector CTxOut.Serialize tx.vout ++
    (if flags &&& 1 ≠ 0 then (tx.vin.map Prod.snd).flatMap CScriptWitness.Serialize else []) ++
    serUInt32 tx.nLockTime ++ serJoinSplits tx.toTransaction

/-- Without witnesses the format is the one transaction ids use. -/
theorem Serialize_no_witness (tx : CMutableTransaction) : tx.Serialize false = SerializeTransaction tx.toTransaction := by
  simp [Serialize,SerializeTransaction,toTransaction]

end CMutableTransaction

/-- The version field of `UnserializeTransaction`: a zero (dummy) version is
    followed by the flags byte and the real version. -/
def unserializeVersion : Reader UInt8 (Nat × Int32) := do
  let nVersion ← unserializeInt32
  if nVersion = 0 then do
    let flags ← ser_readdata8
    let nVersion ← unserializeInt32
    pure (flags,nVersion)
  else pure (0,nVersion)

/-- One input's witness stack, cleared again when witnesses are not allowed. -/
def unserializeWitness (fAllowWitness : Bool) : Reader UInt8 (List (List UInt8)) := do
  let stack ← unserializeVector unserializeBytes
  pure (if fAllowWitness then stack else [])

/-- The witness section of `UnserializeTransaction`: when `flags & 1`, a stack
    for each of the `n` inputs. Returns the flags left and the stacks. -/
def unserializeWitnesses (fAllowWitness : Bool) (flags n : Nat) : Reader UInt8 (Nat × List (List (List UInt8))) :=
  if flags &&& 1 ≠ 0 then do
    let witness ← replicateM (unserializeWitness fAllowWitness) n
    pure (flags ^^^ 1,witness)
  else pure (flags,List.replicate n [])

/-- The joinsplit section: from version 2 the joinsplits, and behind a non-empty
    `vjoinsplit` the key and the signature; otherwise they keep their zero defaults. -/
def unserializeJoinSplits (nVersion : Int32) : Reader UInt8 (List JSDescription × uint256 × joinsplit_sig_t) :=
  if 2 ≤ nVersion then do
    let vjoinsplit ← unserializeVector JSDescription.Unserialize
    if 0 < vjoinsplit.length then do
      let joinSplitPubKey ← base_blob.Unserialize 32
      let joinSplitSig ← base_blob.Unserialize 64
      pure (vjoinsplit,joinSplitPubKey,joinSplitSig)
    else pure (vjoinsplit,default,default)
  else pure ([],default,default)

/-- `UnserializeTransaction` after the version field, given the flags and the
    version read there. -/
def unserializeAfterVersion (fAllowWitness : Bool) (version : Nat × Int32) : Reader UInt8 CMutableTransaction := do
  let vin ← unserializeVector CTxIn.Unserialize
  let vout ← unserializeVector CTxOut.Unserialize
  let witnesses ← unserializeWitnesses fAllowWitness version.1 vin.length
  if witnesses.1 ≠ 0 then throw "Unknown transaction optional data"
  let nLockTime ← unserializeUInt32
  let joinsplits ← unserializeJoinSplits version.2
  pure ⟨version.2,vin.zip (witnesses.2.map CScriptWitness.mk),vout,nLockTime,joinsplits.1,joinsplits.2.1,
    joinsplits.2.2⟩

/-- `UnserializeTransaction` from a stream that allows witnesses when `fAllowWitness`. -/
def UnserializeTransaction (fAllowWitness : Bool) : Reader UInt8 CMutableTransaction :=
  unserializeVersion >>= unserializeAfterVersion fAllowWitness

theorem unserializeVersion_plain {nVersion : Int32} (real : nVersion ≠ 0) :
    Reads unserializeVersion (0,nVersion) (serInt32 nVersion) := by
  intro rest
  rw [unserializeVersion,run_bind_ok (unserializeInt32_reads nVersion rest),if_neg real]
  rfl

theorem unserializeVersion_flagged {flags : Nat} (small : flags < 256) (nVersion : Int32) :
    Reads unserializeVersion (flags,nVersion) (serInt32 0 ++ ser_writedata8 flags ++ serInt32 nVersion) := by
  intro rest
  rw [List.append_assoc,List.append_assoc,unserializeVersion,run_bind_ok (unserializeInt32_reads 0 _),if_pos rfl,
    run_bind_ok (ser_readdata8_reads small _),run_bind_ok (unserializeInt32_reads nVersion rest)]
  rfl

/-- Every vector a witness holds is short enough for `ReadCompactSize`. -/
def CScriptWitness.WithinMaxSize (w : CScriptWitness) : Prop :=
  w.stack.length ≤ MAX_SIZE ∧ ∀ item ∈ w.stack, item.length ≤ MAX_SIZE

theorem unserializeWitness_reads (fAllowWitness : Bool) {w : CScriptWitness} (short : w.WithinMaxSize) :
    Reads (unserializeWitness fAllowWitness) (if fAllowWitness then w.stack else []) w.Serialize := by
  obtain ⟨few,items⟩ := short
  intro rest
  rw [CScriptWitness.Serialize,unserializeWitness,
    run_bind_ok (unserializeVector_reads (fun item mem => unserializeBytes_reads (items item mem)) few rest)]
  rfl

theorem unserializeWitnesses_none (fAllowWitness : Bool) (n : Nat) :
    Reads (unserializeWitnesses fAllowWitness 0 n) (0,List.replicate n []) [] := by
  intro rest
  rfl

theorem unserializeWitnesses_flagged (fAllowWitness : Bool) (ws : List CScriptWitness)
    (short : ∀ w ∈ ws, w.WithinMaxSize) :
    Reads (unserializeWitnesses fAllowWitness 1 ws.length)
      (0,ws.map fun w => if fAllowWitness then w.stack else []) (ws.flatMap CScriptWitness.Serialize) := by
  intro rest
  have each := Reads.replicateM (r := unserializeWitness fAllowWitness) (g := fun w => if fAllowWitness then w.stack else [])
    fun w mem => unserializeWitness_reads fAllowWitness (short w mem)
  rw [unserializeWitnesses,if_pos (by decide),run_bind_ok (each rest)]
  rfl

theorem unserializeJoinSplits_reads (tx : CTransaction) (representable : ∀ js ∈ tx.vjoinsplit, js.Representable)
    (short : tx.vjoinsplit.length ≤ MAX_SIZE) (no_joinsplits : tx.nVersion < 2 → tx.vjoinsplit = [])
    (unsigned : tx.vjoinsplit = [] → tx.joinSplitPubKey = default ∧ tx.joinSplitSig = default) :
    Reads (unserializeJoinSplits tx.nVersion) (tx.vjoinsplit,tx.joinSplitPubKey,tx.joinSplitSig) (serJoinSplits tx) := by
  intro rest
  by_cases late : 2 ≤ tx.nVersion
  · have vector := unserializeVector_reads (fun js mem => JSDescription.Unserialize_reads (representable js mem)) short
    rw [serJoinSplits,if_pos late,unserializeJoinSplits,if_pos late,List.append_assoc,run_bind_ok (vector _)]
    cases empty : tx.vjoinsplit.isEmpty with
    | true =>
      have none := List.isEmpty_iff.mp empty
      obtain ⟨pk,sig⟩ := unsigned none
      simp only [none,List.length_nil,Nat.lt_irrefl,if_false,pk,sig]
      rfl
    | false =>
      have some : 0 < tx.vjoinsplit.length := List.length_pos_iff.mpr (by simpa using empty)
      simp only [some,if_true,Bool.false_eq_true,if_false,List.append_assoc]
      rw [run_bind_ok (base_blob.Unserialize_reads tx.joinSplitPubKey _),
        run_bind_ok (base_blob.Unserialize_reads tx.joinSplitSig rest)]
      rfl
  · obtain ⟨pk,sig⟩ := unsigned (no_joinsplits (Int32.not_le.mp late))
    rw [serJoinSplits,if_neg late,unserializeJoinSplits,if_neg late,no_joinsplits (Int32.not_le.mp late),pk,sig]
    rfl

namespace CMutableTransaction

/-- What every transaction of the source is, beyond this model's types: its
    amounts are `int64_t` values and its proofs the bytes of compressed points. -/
structure Representable (tx : CMutableTransaction) : Prop where
  outputs : ∀ txout ∈ tx.vout, FitsInt64 txout.nValue
  joinsplits : ∀ js ∈ tx.vjoinsplit, js.Representable

/-- Every vector of the transaction is short enough for `ReadCompactSize`. -/
structure WithinMaxSize (tx : CMutableTransaction) : Prop where
  vin : tx.vin.length ≤ MAX_SIZE
  scriptSig : ∀ txin ∈ tx.vin, txin.1.scriptSig.length ≤ MAX_SIZE
  scriptWitness : ∀ txin ∈ tx.vin, txin.2.WithinMaxSize
  vout : tx.vout.length ≤ MAX_SIZE
  scriptPubKey : ∀ txout ∈ tx.vout, txout.scriptPubKey.length ≤ MAX_SIZE
  vjoinsplit : tx.vjoinsplit.length ≤ MAX_SIZE

end CMutableTransaction

open CMutableTransaction in
/-- The fields after the version read back from their bytes, whatever the
    witness section reads. -/
theorem unserializeAfterVersion_reads (fAllowWitness : Bool) {tx : CMutableTransaction} (representable : tx.Representable)
    (short : tx.WithinMaxSize) (no_joinsplits : tx.nVersion < 2 → tx.vjoinsplit = [])
    (unsigned : tx.vjoinsplit = [] → tx.joinSplitPubKey = default ∧ tx.joinSplitSig = default)
    {flags : Nat} {witness : List (List (List UInt8))} {bytes : List UInt8}
    (section_reads : Reads (unserializeWitnesses fAllowWitness flags tx.vin.length) (0,witness) bytes) :
    Reads (unserializeAfterVersion fAllowWitness (flags,tx.nVersion))
      { tx with vin := (tx.vin.map Prod.fst).zip (witness.map CScriptWitness.mk) }
      (serVector CTxIn.Serialize (tx.vin.map Prod.fst) ++ serVector CTxOut.Serialize tx.vout ++ bytes ++
        serUInt32 tx.nLockTime ++ serJoinSplits tx.toTransaction) := by
  have inputs : Reads (unserializeVector CTxIn.Unserialize) (tx.vin.map Prod.fst) (serVector CTxIn.Serialize (tx.vin.map Prod.fst)) :=
    unserializeVector_reads (fun txin mem => by
      obtain ⟨pair,pair_mem,rfl⟩ := List.mem_map.mp mem
      exact CTxIn.Unserialize_reads (short.scriptSig pair pair_mem)) (by simpa using short.vin)
  have outputs := unserializeVector_reads
    (fun txout mem => CTxOut.Unserialize_reads (representable.outputs txout mem) (short.scriptPubKey txout mem)) short.vout
  have joinsplits : Reads (unserializeJoinSplits tx.nVersion) (tx.vjoinsplit,tx.joinSplitPubKey,tx.joinSplitSig)
      (serJoinSplits tx.toTransaction) :=
    unserializeJoinSplits_reads tx.toTransaction representable.joinsplits short.vjoinsplit no_joinsplits unsigned
  intro rest
  simp only [unserializeAfterVersion,List.append_assoc]
  rw [run_bind_ok (inputs _),run_bind_ok (outputs _),List.length_map,run_bind_ok (section_reads _),
    if_neg (by simp),run_bind_ok (unserializeUInt32_reads tx.nLockTime _),run_bind_ok (joinsplits rest)]
  rfl

namespace CMutableTransaction

theorem map_clear_of_null :
    ∀ {vin : List (CTxIn × CScriptWitness)}, (∀ txin ∈ vin, txin.2.IsNull = true) → vin.map (fun txin => (txin.1,⟨[]⟩)) = vin
  | [], _ => rfl
  | ⟨txin,⟨stack⟩⟩ :: vin, null => by
    have empty : stack = [] := by simpa [CScriptWitness.IsNull] using null _ List.mem_cons_self
    rw [List.map_cons,empty,map_clear_of_null fun x mem => null x (List.mem_cons_of_mem _ mem)]

theorem clearWitness_of_not_HasWitness {tx : CMutableTransaction} (plain : tx.HasWitness = false) :
    tx.clearWitness = tx := by
  have null : ∀ txin ∈ tx.vin, txin.2.IsNull = true := by simpa [HasWitness] using plain
  rw [clearWitness,map_clear_of_null null]

/-- The inputs the reader pairs with empty stacks, when no witness is read. -/
theorem zip_empty_witness (vin : List (CTxIn × CScriptWitness)) :
    (vin.map Prod.fst).zip ((List.replicate vin.length []).map CScriptWitness.mk) = vin.map fun txin => (txin.1,⟨[]⟩) := by
  induction vin with
  | nil => rfl
  | cons txin vin ih => rw [List.map_cons,List.length_cons,List.replicate_succ,List.map_cons,List.zip_cons_cons,ih,List.map_cons]

/-- The inputs the reader pairs with the stacks it read, each kept or cleared. -/
theorem zip_witness (fAllowWitness : Bool) (vin : List (CTxIn × CScriptWitness)) :
    (vin.map Prod.fst).zip (((vin.map Prod.snd).map fun w => if fAllowWitness then w.stack else []).map CScriptWitness.mk) =
      if fAllowWitness then vin else vin.map fun txin => (txin.1,⟨[]⟩) := by
  induction vin with
  | nil => cases fAllowWitness <;> rfl
  | cons txin vin ih =>
    rw [List.map_cons,List.map_cons,List.map_cons,List.map_cons,List.zip_cons_cons,ih]
    cases fAllowWitness <;> rfl

/-- Read without the witness flag, the inputs come back with empty stacks: the
    transaction itself where witnesses are allowed, since it has none to write. -/
theorem unflagged_vin {fAllowWitness : Bool} {tx : CMutableTransaction} (unflagged : (fAllowWitness && tx.HasWitness) = false) :
    { tx with vin := (tx.vin.map Prod.fst).zip ((List.replicate tx.vin.length []).map CScriptWitness.mk) } =
      if fAllowWitness then tx else tx.clearWitness := by
  rw [zip_empty_witness]
  cases allowed : fAllowWitness
  · rfl
  · rw [allowed,Bool.true_and] at unflagged
    exact clearWitness_of_not_HasWitness unflagged

end CMutableTransaction

open CMutableTransaction in
/-- The bytes of a transaction with a witness, flag and stacks included, read as
    it in either stream, its stacks cleared where witnesses are not allowed. -/
theorem UnserializeTransaction_flagged (fAllowWitness : Bool) {tx : CMutableTransaction} (representable : tx.Representable)
    (short : tx.WithinMaxSize) (no_joinsplits : tx.nVersion < 2 → tx.vjoinsplit = [])
    (unsigned : tx.vjoinsplit = [] → tx.joinSplitPubKey = default ∧ tx.joinSplitSig = default)
    (has : tx.HasWitness = true) :
    Reads (UnserializeTransaction fAllowWitness) (if fAllowWitness then tx else tx.clearWitness) (tx.Serialize true) := by
  have short_witness : ∀ w ∈ tx.vin.map Prod.snd, w.WithinMaxSize := fun w mem => by
    obtain ⟨txin,txin_mem,rfl⟩ := List.mem_map.mp mem
    exact short.scriptWitness txin txin_mem
  have section_reads := unserializeWitnesses_flagged fAllowWitness (tx.vin.map Prod.snd) short_witness
  rw [List.length_map] at section_reads
  have body := unserializeAfterVersion_reads fAllowWitness representable short no_joinsplits unsigned section_reads
  have whole := (unserializeVersion_flagged (by decide : 1 < 256) tx.nVersion).bind body
  rw [zip_witness] at whole
  have decoded : { tx with vin := if fAllowWitness then tx.vin else tx.vin.map fun txin => (txin.1,⟨[]⟩) } =
      if fAllowWitness then tx else tx.clearWitness := by
    cases fAllowWitness <;> rfl
  rw [decoded] at whole
  simpa [UnserializeTransaction,Serialize,has,List.append_assoc] using whole

open CMutableTransaction in
/-- A transaction reads back from the bytes it is written to, its witnesses
    kept where the stream allows them and cleared where it does not. -/
theorem UnserializeTransaction_reads (fAllowWitness : Bool) {tx : CMutableTransaction} (representable : tx.Representable)
    (short : tx.WithinMaxSize) (version : tx.nVersion ≠ 0) (no_joinsplits : tx.nVersion < 2 → tx.vjoinsplit = [])
    (unsigned : tx.vjoinsplit = [] → tx.joinSplitPubKey = default ∧ tx.joinSplitSig = default) :
    Reads (UnserializeTransaction fAllowWitness) (if fAllowWitness then tx else tx.clearWitness)
      (tx.Serialize fAllowWitness) := by
  cases flagged : (fAllowWitness && tx.HasWitness)
  · -- no flags: the plain format, every stack read as empty
    have body := unserializeAfterVersion_reads fAllowWitness representable short no_joinsplits unsigned
      (unserializeWitnesses_none fAllowWitness tx.vin.length)
    have whole := (unserializeVersion_plain version).bind body
    rw [unflagged_vin flagged] at whole
    simpa [UnserializeTransaction,Serialize,flagged,List.append_assoc] using whole
  · -- the flag: a dummy version, the flags byte, and a stack for each input
    obtain ⟨allowed,has⟩ := Bool.and_eq_true_iff.mp flagged
    subst allowed
    exact UnserializeTransaction_flagged true representable short no_joinsplits unsigned has

/-- A zero dummy version followed by a zero flags byte reads, before the bytes
    of any transaction written without the flag, as that transaction. -/
theorem UnserializeTransaction_zero_flags (fAllowWitness : Bool) {tx : CMutableTransaction}
    (representable : tx.Representable) (short : tx.WithinMaxSize) (no_joinsplits : tx.nVersion < 2 → tx.vjoinsplit = [])
    (unsigned : tx.vjoinsplit = [] → tx.joinSplitPubKey = default ∧ tx.joinSplitSig = default)
    (unflagged : (fAllowWitness && tx.HasWitness) = false) :
    Reads (UnserializeTransaction fAllowWitness) (if fAllowWitness then tx else tx.clearWitness)
      (serInt32 0 ++ ser_writedata8 0 ++ tx.Serialize fAllowWitness) := by
  have body := unserializeAfterVersion_reads fAllowWitness representable short no_joinsplits unsigned
    (unserializeWitnesses_none fAllowWitness tx.vin.length)
  have whole := (unserializeVersion_flagged (by decide : 0 < 256) tx.nVersion).bind body
  rw [CMutableTransaction.unflagged_vin unflagged] at whole
  simpa [UnserializeTransaction,CMutableTransaction.Serialize,unflagged,List.append_assoc] using whole

open CMutableTransaction in
/-- Written into either stream, a transaction reads back from exactly its bytes:
    unchanged where witnesses are allowed, its witness stacks cleared where
    they are not. -/
theorem transaction_encoding_round_trips (tx : CMutableTransaction) (representable : tx.Representable)
    (short : tx.WithinMaxSize) (version : tx.nVersion ≠ 0) (no_joinsplits : tx.nVersion < 2 → tx.vjoinsplit = [])
    (unsigned : tx.vjoinsplit = [] → tx.joinSplitPubKey = default ∧ tx.joinSplitSig = default) (rest : List UInt8) :
    (UnserializeTransaction true).run (tx.Serialize true ++ rest) = .ok (tx,rest) ∧
      (UnserializeTransaction false).run (tx.Serialize false ++ rest) = .ok (tx.clearWitness,rest) :=
  ⟨UnserializeTransaction_reads true representable short version no_joinsplits unsigned rest,
    UnserializeTransaction_reads false representable short version no_joinsplits unsigned rest⟩

theorem unserializeJoinSplits_below_two {nVersion : Int32} (below : nVersion < 2) {s s' : List UInt8}
    {joinsplits : List JSDescription × uint256 × joinsplit_sig_t}
    (read : (unserializeJoinSplits nVersion).run s = .ok (joinsplits,s')) : joinsplits.1 = [] := by
  rw [unserializeJoinSplits,if_neg (Int32.not_le.mpr below)] at read
  cases read
  rfl

/-- Whatever bytes it is given, the reader produces transactions that carry
    joinsplits only from version 2: the premise of the bound on the number of
    transactions of a block. -/
theorem UnserializeTransaction_versioned {fAllowWitness : Bool} {s rest : List UInt8} {tx : CMutableTransaction}
    (read : (UnserializeTransaction fAllowWitness).run s = .ok (tx,rest)) : tx.toTransaction.JoinSplitsVersioned := by
  obtain ⟨version,s₁,-,after⟩ := run_bind_eq_ok.mp read
  simp only [unserializeAfterVersion,run_bind_eq_ok] at after
  obtain ⟨vin,s₂,-,vout,s₃,-,witnesses,s₄,-,tail⟩ := after
  split at tail
  · -- the optional data the reader does not know ends it with an error
    rw [run_bind_error rfl] at tail
    cases tail
  · obtain ⟨nLockTime,s₅,-,joined⟩ := run_bind_eq_ok.mp tail
    obtain ⟨joinsplits,s₆,section_read,built⟩ := run_bind_eq_ok.mp joined
    cases built
    exact fun below => unserializeJoinSplits_below_two below section_read

/-- A version-1 spend of one input with a one-item witness. -/
def witnessSpend : CMutableTransaction :=
  ⟨1,[(⟨COutPoint.null,[],0xFFFFFFFF⟩,⟨[[1]]⟩)],[⟨COIN,[OP_RETURN]⟩],0,[],default,default⟩

theorem witnessSpend_representable : witnessSpend.Representable :=
  ⟨by simp [witnessSpend,FitsInt64,COIN],by simp [witnessSpend]⟩

theorem witnessSpend_withinMaxSize : witnessSpend.WithinMaxSize :=
  ⟨by decide,by simp [witnessSpend,MAX_SIZE],by simp [witnessSpend,CScriptWitness.WithinMaxSize,MAX_SIZE],by decide,
    by simp [witnessSpend,MAX_SIZE],by decide⟩

theorem witness_spend_round_trips :
    (UnserializeTransaction true).run (witnessSpend.Serialize true) = .ok (witnessSpend,[]) ∧
      (UnserializeTransaction false).run (witnessSpend.Serialize false) = .ok (witnessSpend.clearWitness,[]) := by
  have both := transaction_encoding_round_trips witnessSpend witnessSpend_representable witnessSpend_withinMaxSize
    (by decide) (fun _ => rfl) (fun _ => ⟨rfl,rfl⟩) []
  simpa using both

theorem CTxIn.Unserialize_too_long {txin : CTxIn} (long : MAX_SIZE < txin.scriptSig.length)
    (fits : txin.scriptSig.length < 2^64) (rest : List UInt8) :
    CTxIn.Unserialize.run (txin.Serialize ++ rest) = .error "ReadCompactSize(): size too large" := by
  have size := ReadCompactSize_run fits (txin.scriptSig.flatMap (fun b => [b]) ++ (serUInt32 txin.nSequence ++ rest))
  rw [if_neg (Nat.not_le.mpr long)] at size
  simp only [CTxIn.Serialize,CTxIn.Unserialize,serScript,serVector,List.append_assoc]
  rw [run_bind_ok (COutPoint.Unserialize_reads txin.prevout _),unserializeBytes,bind_assoc,run_bind_error size]

/-- An input whose `scriptSig` is a byte longer than `MAX_SIZE`. -/
def oversizedInput : CTxIn := ⟨COutPoint.null,List.replicate (MAX_SIZE + 1) 0,0xFFFFFFFF⟩

/-- A version-1 transaction spending the oversized input. -/
def oversizedScriptTx : CMutableTransaction := ⟨1,[(oversizedInput,⟨[]⟩)],[],0,[],default,default⟩

/-- The oversized input is written in either stream, and its bytes are refused. -/
theorem oversized_script_does_not_read_back :
    oversizedScriptTx.Representable ∧ oversizedScriptTx.nVersion ≠ 0 ∧ oversizedScriptTx.vjoinsplit = [] ∧
      oversizedScriptTx.joinSplitPubKey = default ∧ oversizedScriptTx.joinSplitSig = default ∧
      (UnserializeTransaction true).run (oversizedScriptTx.Serialize true) = .error "ReadCompactSize(): size too large" ∧
      (UnserializeTransaction false).run (oversizedScriptTx.Serialize false) = .error "ReadCompactSize(): size too large" := by
  have representable : oversizedScriptTx.Representable := ⟨by simp [oversizedScriptTx],by simp [oversizedScriptTx]⟩
  have input := unserializeVector_head_error oversizedInput [] (by decide)
    (CTxIn.Unserialize_too_long (by simp [oversizedInput]) (by rw [oversizedInput,List.length_replicate]; decide))
  have refused : ∀ fAllowWitness, (UnserializeTransaction fAllowWitness).run (oversizedScriptTx.Serialize fAllowWitness) =
      .error "ReadCompactSize(): size too large" := by
    intro fAllowWitness
    have unflagged : (fAllowWitness && oversizedScriptTx.HasWitness) = false := by
      simp [oversizedScriptTx,CMutableTransaction.HasWitness,CScriptWitness.IsNull]
    have bytes : oversizedScriptTx.Serialize fAllowWitness = serInt32 1 ++ (serVector CTxIn.Serialize [oversizedInput] ++
        (serVector CTxOut.Serialize [] ++ (serUInt32 0 ++ serJoinSplits oversizedScriptTx.toTransaction))) := by
      simp only [CMutableTransaction.Serialize,unflagged,Bool.false_eq_true,if_false,ne_eq,not_true_eq_false,
        Nat.zero_and,List.append_nil,List.append_assoc,List.nil_append]
      rfl
    rw [bytes,UnserializeTransaction,run_bind_ok (unserializeVersion_plain (by decide) _),unserializeAfterVersion,
      run_bind_error (input _)]
  exact ⟨representable,by decide,rfl,rfl,rfl,refused true,refused false⟩

/-- The empty version-1 transaction. -/
def emptyTransaction : CMutableTransaction := ⟨1,[],[],0,[],default,default⟩

/-- Byte strings the decoder accepts that are not what the transaction it
    yields serializes to: a zero dummy version and a zero flags byte before the
    bytes of the empty transaction, in either stream; and the witness bytes of a
    witness spend, read where witnesses are not allowed. -/
theorem transaction_decoding_not_canonical :
    (UnserializeTransaction true).run (serInt32 0 ++ ser_writedata8 0 ++ emptyTransaction.Serialize true) =
        .ok (emptyTransaction,[]) ∧
      (UnserializeTransaction false).run (serInt32 0 ++ ser_writedata8 0 ++ emptyTransaction.Serialize false) =
        .ok (emptyTransaction,[]) ∧
      emptyTransaction.Serialize true ≠ serInt32 0 ++ ser_writedata8 0 ++ emptyTransaction.Serialize true ∧
      emptyTransaction.Serialize false ≠ serInt32 0 ++ ser_writedata8 0 ++ emptyTransaction.Serialize false ∧
      (UnserializeTransaction false).run (witnessSpend.Serialize true) = .ok (witnessSpend.clearWitness,[]) ∧
      witnessSpend.clearWitness.Serialize false ≠ witnessSpend.Serialize true := by
  have representable : emptyTransaction.Representable := ⟨by simp [emptyTransaction],by simp [emptyTransaction]⟩
  have short : emptyTransaction.WithinMaxSize :=
    ⟨by decide,by simp [emptyTransaction],by simp [emptyTransaction],by decide,by simp [emptyTransaction],by decide⟩
  have zero_flags : ∀ fAllowWitness, (UnserializeTransaction fAllowWitness).run
      (serInt32 0 ++ ser_writedata8 0 ++ emptyTransaction.Serialize fAllowWitness) = .ok (emptyTransaction,[]) := by
    intro fAllowWitness
    have read := UnserializeTransaction_zero_flags fAllowWitness representable short (fun _ => rfl) (fun _ => ⟨rfl,rfl⟩)
      (by cases fAllowWitness <;> rfl) []
    have cleared : emptyTransaction.clearWitness = emptyTransaction := rfl
    cases fAllowWitness <;> simpa [cleared] using read
  have dropped := UnserializeTransaction_flagged false witnessSpend_representable witnessSpend_withinMaxSize
    (fun _ => rfl) (fun _ => ⟨rfl,rfl⟩) (by decide) []
  exact ⟨zero_flags true,zero_flags false,by decide,by decide,by simpa using dropped,by decide⟩

end BitcoinPrivate
