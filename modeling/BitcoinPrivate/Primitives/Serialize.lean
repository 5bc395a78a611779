import BitcoinPrivate.Library.LittleEndian
import BitcoinPrivate.Primitives.Transaction

/-!
The serialization of `serialize.h` for the transaction data: fixed-width
integers little-endian, vectors behind their `CompactSize` length, `std::array`
and blobs as their elements in order. `SerializeTransaction` is the format without
witness data (`SERIALIZE_TRANSACTION_NO_WITNESS`), the one transaction ids and the
consensus size limit use.
-/
namespace BitcoinPrivate
open LittleEndian

def ser_writedata8 (obj : Nat) : List UInt8 := leBytes obj 1

def ser_writedata16 (obj : Nat) : List UInt8 := leBytes obj 2

def ser_writedata32 (obj : Nat) : List UInt8 := leBytes obj 4

def ser_writedata64 (obj : Nat) : List UInt8 := leBytes obj 8

/-- `WriteCompactSize`. -/
def WriteCompactSize (nSize : Nat) : List UInt8 :=
  if nSize < 253 then ser_writedata8 nSize
  else if nSize ≤ 0xffff then ser_writedata8 253 ++ ser_writedata16 nSize
  else if nSize ≤ 0xffffffff then ser_writedata8 254 ++ ser_writedata32 nSize
  else ser_writedata8 255 ++ ser_writedata64 nSize

/-- `GetSizeOfCompactSize`. -/
def GetSizeOfCompactSize (nSize : Nat) : Nat :=
  if nSize < 253 then 1
  else if nSize ≤ 0xffff then 1 + 2
  else if nSize ≤ 0xffffffff then 1 + 4
  else 1 + 8

/-- `int32_t`, two's complement. -/
def serInt32 (a : Int32) : List UInt8 := ser_writedata32 a.toUInt32.toNat

def serUInt32 (a : UInt32) : List UInt8 := ser_writedata32 a.toNat

/-- `int64_t`, two's complement; `CAmount` is one. -/
def serInt64 (a : Int) : List UInt8 := ser_writedata64 (a % 2^64).toNat

def base_blob.Serialize {WIDTH : Nat} (b : base_blob WIDTH) : List UInt8 := b.data

/-- A vector: its length, then its elements. -/
def serVector {α : Type} (f : α → List UInt8) (xs : List α) : List UInt8 :=
  WriteCompactSize xs.length ++ xs.flatMap f

/-- `boost::optional`: the discriminant `0x01` and the value, or `0x00`. -/
def serOptional {α : Type} (f : α → List UInt8) : Option α → List UInt8
  | some a => ser_writedata8 1 ++ f a
  | none => ser_writedata8 0

/-- `std::array`: the elements, no length. -/
def serArray {α : Type} {N : Nat} (f : α → List UInt8) (xs : Vector α N) : List UInt8 := xs.toList.flatMap f

/-- `CScript`, a `prevector` of bytes. -/
def serScript (script : CScript) : List UInt8 := serVector (fun b => [b]) script

def COutPoint.Serialize (o : COutPoint) : List UInt8 := o.hash.Serialize ++ serUInt32 o.n

def CTxIn.Serialize (txin : CTxIn) : List UInt8 :=
  txin.prevout.Serialize ++ serScript txin.scriptSig ++ serUInt32 txin.nSequence

def CTxOut.Serialize (txout : CTxOut) : List UInt8 := serInt64 txout.nValue ++ serScript txout.scriptPubKey

def JSDescription.Serialize (js : JSDescription) : List UInt8 :=
  serInt64 js.vpub_old ++ serInt64 js.vpub_new ++ js.anchor.Serialize ++
    serArray base_blob.Serialize js.nullifiers ++ serArray base_blob.Serialize js.commitments ++
    js.ephemeralKey.Serialize ++ js.randomSeed.Serialize ++ serArray base_blob.Serialize js.macs ++
    js.proof.Serialize ++ serArray base_blob.Serialize js.ciphertexts

/-- The joinsplit section: present from version 2, with the key and signature
    only behind a non-empty `vjoinsplit`. -/
def serJoinSplits (tx : CTransaction) : List UInt8 :=
  if 2 ≤ tx.nVersion then
    serVector JSDescription.Serialize tx.vjoinsplit ++
      if tx.vjoinsplit.isEmpty then [] else tx.joinSplitPubKey.Serialize ++ tx.joinSplitSig.Serialize
  else []

/-- `SerializeTransaction` without witness data. -/
def SerializeTransaction (tx : CTransaction) : List UInt8 :=
  serInt32 tx.nVersion ++ serVector CTxIn.Serialize tx.vin ++ serVector CTxOut.Serialize tx.vout ++
    serUInt32 tx.nLockTime ++ serJoinSplits tx

/-- `GetSerializeSize(tx, PROTOCOL_VERSION | SERIALIZE_TRANSACTION_NO_WITNESS)`. -/
def GetSerializeSize (tx : CTransaction) : Nat := (SerializeTransaction tx).length

@[simp] theorem base_blob.Serialize_length {WIDTH : Nat} (b : base_blob WIDTH) : b.Serialize.length = WIDTH :=
  b.size

@[simp] theorem serInt64_length (a : Int) : (serInt64 a).length = 8 := by simp [serInt64,ser_writedata64]

@[simp] theorem serInt32_length (a : Int32) : (serInt32 a).length = 4 := by simp [serInt32,ser_writedata32]

@[simp] theorem serUInt32_length (a : UInt32) : (serUInt32 a).length = 4 := by simp [serUInt32,ser_writedata32]

theorem WriteCompactSize_length_of_lt {nSize : Nat} (small : nSize < 253) : (WriteCompactSize nSize).length = 1 := by
  simp [WriteCompactSize,small,ser_writedata8]

theorem WriteCompactSize_length_le (nSize : Nat) : (WriteCompactSize nSize).length ≤ 9 := by
  unfold WriteCompactSize
  split_ifs <;> simp [ser_writedata8,ser_writedata16,ser_writedata32,ser_writedata64]

theorem length_WriteCompactSize (nSize : Nat) : (WriteCompactSize nSize).length = GetSizeOfCompactSize nSize := by
  unfold WriteCompactSize GetSizeOfCompactSize
  split_ifs <;> simp [ser_writedata8,ser_writedata16,ser_writedata32,ser_writedata64]

theorem serVector_length {α : Type} (f : α → List UInt8) (xs : List α) :
    (serVector f xs).length = (WriteCompactSize xs.length).length + (xs.map fun x => (f x).length).sum := by
  simp [serVector,List.length_flatMap]

theorem serArray_blob_length {W N : Nat} (xs : Vector (base_blob W) N) :
    (serArray base_blob.Serialize xs).length = N * W := by
  simp [serArray,List.length_flatMap]

/-- A joinsplit always takes the same number of bytes. -/
theorem JSDescription.Serialize_length (js : JSDescription) : js.Serialize.length = 1802 := by
  simp only [JSDescription.Serialize,List.length_append,serInt64_length,base_blob.Serialize_length,serArray_blob_length]
  simp [ZC_NUM_JS_INPUTS,ZC_NUM_JS_OUTPUTS]

/-- The joinsplit section's size depends on the version and the number of
    joinsplits only. -/
theorem serJoinSplits_length (tx : CTransaction) :
    (serJoinSplits tx).length =
      if 2 ≤ tx.nVersion then
        (WriteCompactSize tx.vjoinsplit.length).length + tx.vjoinsplit.length * 1802 +
          if tx.vjoinsplit.isEmpty then 0 else 96
      else 0 := by
  by_cases version : 2 ≤ tx.nVersion
  · cases empty : tx.vjoinsplit.isEmpty <;> simp [serJoinSplits,version,empty,serVector_length,JSDescription.Serialize_length]
  · simp [serJoinSplits,version]

/-! ## The fixed-width encodings lose nothing -/

/-- The values an `int64_t` holds: a `CAmount` of the source is one. -/
def FitsInt64 (a : Int) : Prop := -2^63 ≤ a ∧ a < 2^63

/-- A joinsplit's amounts are `int64_t` values. -/
def JSDescription.AmountsFit (js : JSDescription) : Prop := FitsInt64 js.vpub_old ∧ FitsInt64 js.vpub_new

theorem base_blob.Serialize_inj {WIDTH : Nat} {a b : base_blob WIDTH} (same : a.Serialize = b.Serialize) : a = b := by
  obtain ⟨data,size⟩ := a
  obtain ⟨data',size'⟩ := b
  simp only [base_blob.Serialize] at same
  subst same
  rfl

theorem serInt64_inj {a b : Int} (fits : FitsInt64 a) (fits' : FitsInt64 b) (same : serInt64 a = serInt64 b) : a = b := by
  have low := leBytes_inj (w := 8) (by unfold FitsInt64 at fits; omega) (by unfold FitsInt64 at fits'; omega) same
  unfold FitsInt64 at fits fits'
  omega

theorem serInt32_inj {a b : Int32} (same : serInt32 a = serInt32 b) : a = b := by
  have bound : ∀ x : Int32, x.toUInt32.toNat < 256^4 := fun x => by
    simpa using UInt32.toNat_lt x.toUInt32
  have bits := leBytes_inj (w := 4) (bound a) (bound b) same
  exact Int32.toBitVec_inj.mp (congrArg UInt32.toBitVec (UInt32.toNat_inj.mp bits))

theorem WriteCompactSize_length_pos (nSize : Nat) : 0 < (WriteCompactSize nSize).length := by
  unfold WriteCompactSize
  split_ifs <;> simp [ser_writedata8]

theorem serArray_blob_inj {W N : Nat} (wide : 0 < W) {xs ys : Vector (base_blob W) N}
    (same : serArray base_blob.Serialize xs = serArray base_blob.Serialize ys) : xs = ys := by
  simp only [serArray,List.flatMap_def] at same
  have blobs := flatten_inj (w := W) (by simp) (by simp) wide (by simp) same
  apply Vector.toList_inj.mp
  exact List.map_injective_iff.mpr (fun _ _ => base_blob.Serialize_inj) blobs

/-- A joinsplit's bytes determine it. -/
theorem JSDescription.Serialize_inj {js js' : JSDescription} (fits : js.AmountsFit) (fits' : js'.AmountsFit)
    (same : js.Serialize = js'.Serialize) : js = js' := by
  obtain ⟨vpub_old,vpub_new,anchor,nullifiers,commitments,ephemeralKey,randomSeed,macs,proof,ciphertexts⟩ := js
  obtain ⟨vpub_old',vpub_new',anchor',nullifiers',commitments',ephemeralKey',randomSeed',macs',proof',
    ciphertexts'⟩ := js'
  obtain ⟨fits_old,fits_new⟩ := fits
  obtain ⟨fits_old',fits_new'⟩ := fits'
  dsimp only at fits_old fits_new fits_old' fits_new'
  simp only [JSDescription.Serialize] at same
  -- peel the fields off from the last, each of a fixed width
  obtain ⟨same,same_ciphertexts⟩ := List.append_inj' same (by simp [serArray_blob_length])
  obtain ⟨same,same_proof⟩ := List.append_inj' same (by simp)
  obtain ⟨same,same_macs⟩ := List.append_inj' same (by simp [serArray_blob_length])
  obtain ⟨same,same_randomSeed⟩ := List.append_inj' same (by simp)
  obtain ⟨same,same_ephemeralKey⟩ := List.append_inj' same (by simp)
  obtain ⟨same,same_commitments⟩ := List.append_inj' same (by simp [serArray_blob_length])
  obtain ⟨same,same_nullifiers⟩ := List.append_inj' same (by simp [serArray_blob_length])
  obtain ⟨same,same_anchor⟩ := List.append_inj' same (by simp)
  obtain ⟨same_vpub_old,same_vpub_new⟩ := List.append_inj' same (by simp)
  rw [serInt64_inj fits_old fits_old' same_vpub_old,serInt64_inj fits_new fits_new' same_vpub_new,
    base_blob.Serialize_inj same_anchor,serArray_blob_inj (by decide) same_nullifiers,
    serArray_blob_inj (by decide) same_commitments,base_blob.Serialize_inj same_ephemeralKey,
    base_blob.Serialize_inj same_randomSeed,serArray_blob_inj (by decide) same_macs,
    base_blob.Serialize_inj same_proof,serArray_blob_inj (by decide) same_ciphertexts]

/-! ## The least size of a transaction -/

theorem CTxIn.Serialize_length_ge (txin : CTxIn) : 41 ≤ txin.Serialize.length := by
  have script := WriteCompactSize_length_pos txin.scriptSig.length
  simp only [CTxIn.Serialize,COutPoint.Serialize,serScript,serVector,List.length_append,base_blob.Serialize_length,
    serUInt32_length]
  omega

theorem CTxOut.Serialize_length_ge (txout : CTxOut) : 9 ≤ txout.Serialize.length := by
  have script := WriteCompactSize_length_pos txout.scriptPubKey.length
  simp only [CTxOut.Serialize,serScript,serVector,List.length_append,serInt64_length]
  omega

/-- A vector that is not empty takes its length's byte and at least one element. -/
theorem serVector_length_ge {α : Type} {f : α → List UInt8} {xs : List α} {n : Nat} (nonempty : xs ≠ [])
    (each : ∀ x, n ≤ (f x).length) : 1 + n ≤ (serVector f xs).length := by
  obtain ⟨x,mem⟩ := List.exists_mem_of_ne_nil xs nonempty
  have one := WriteCompactSize_length_pos xs.length
  have element : n ≤ (xs.map fun x => (f x).length).sum :=
    (each x).trans (List.le_sum_of_mem (List.mem_map_of_mem mem))
  rw [serVector_length]
  omega

/-- The joinsplits of a transaction travel from version 2 only, so a
    transaction read from bytes below version 2 has none. -/
def CTransaction.JoinSplitsVersioned (tx : CTransaction) : Prop := tx.nVersion < 2 → tx.vjoinsplit = []

instance : DecidablePred CTransaction.JoinSplitsVersioned := fun _ => inferInstanceAs (Decidable (_ → _))

/-- A transaction that spends and pays, through inputs and outputs or through
    joinsplits it can carry, takes sixty bytes at least: the size that
    `MIN_TRANSACTION_WEIGHT` counts on. -/
theorem GetSerializeSize_ge {tx : CTransaction} (versioned : tx.JoinSplitsVersioned)
    (spends : tx.vin ≠ [] ∨ tx.vjoinsplit ≠ []) (pays : tx.vout ≠ [] ∨ tx.vjoinsplit ≠ []) :
    60 ≤ GetSerializeSize tx := by
  have vin := WriteCompactSize_length_pos tx.vin.length
  have vout := WriteCompactSize_length_pos tx.vout.length
  simp only [GetSerializeSize,SerializeTransaction,List.length_append,serInt32_length,serUInt32_length]
  by_cases joinsplits : tx.vjoinsplit = []
  · -- no joinsplit: an input and an output at least
    have inputs := serVector_length_ge (spends.resolve_right (not_not.mpr joinsplits)) CTxIn.Serialize_length_ge
    have outputs := serVector_length_ge (pays.resolve_right (not_not.mpr joinsplits)) CTxOut.Serialize_length_ge
    omega
  · -- a joinsplit is carried from version 2, at 1802 bytes
    have version : 2 ≤ tx.nVersion := by
      by_contra below
      exact joinsplits (versioned (Int32.not_le.mp below))
    have carried : 1802 ≤ (serJoinSplits tx).length := by
      rw [serJoinSplits_length,if_pos version]
      have : 1 ≤ tx.vjoinsplit.length := List.length_pos_iff.mpr joinsplits
      omega
    omega

end BitcoinPrivate
