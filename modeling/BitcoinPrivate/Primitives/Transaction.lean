import Mathlib

/-!
The transaction data of `primitives/transaction.h` and `primitives/joinsplit.h`,
with the amounts of `amount.h`. Fixed-size byte arrays (`uint256`, the joinsplit
signature, the ciphertexts and the serialized zk-SNARK proof) are lists of bytes
that carry their length; `CAmount` is an `Int`, since every sum the modelled code
forms is range-checked before it could leave `int64_t`; a script is its bytes.
-/
namespace BitcoinPrivate

/-- `base_blob<BITS>`: `WIDTH` opaque bytes. -/
structure base_blob (WIDTH : Nat) where
  data : List UInt8
  size : data.length = WIDTH
  deriving DecidableEq, Repr

namespace base_blob

variable {WIDTH : Nat}

/-- The blob of zero bytes, `uint256()`. -/
def null : base_blob WIDTH := ⟨List.replicate WIDTH 0,by simp⟩

instance : Inhabited (base_blob WIDTH) := ⟨null⟩

/-- `IsNull()`: every byte is zero. -/
def IsNull (b : base_blob WIDTH) : Bool := b.data.all (· == 0)

theorem IsNull_null : (null : base_blob WIDTH).IsNull = true := by simp [IsNull,null]

end base_blob

/-- `uint256`. -/
abbrev uint256 := base_blob 32

/-- `CAmount`: an amount of satoshis. -/
abbrev CAmount := Int

def COIN : CAmount := 100000000

def MAX_MONEY : CAmount := 21000000 * COIN

/-- `MoneyRange`. -/
def MoneyRange (nValue : CAmount) : Bool := decide (0 ≤ nValue ∧ nValue ≤ MAX_MONEY)

/-- `CScript`: the bytes of a script. -/
abbrev CScript := List UInt8

def OP_RETURN : UInt8 := 0x6a

def MAX_SCRIPT_SIZE : Nat := 10000

/-- `CScript::IsUnspendable`. -/
def CScript.IsUnspendable (script : CScript) : Bool :=
  script.head? == some OP_RETURN || MAX_SCRIPT_SIZE < script.length

/-- `COutPoint`: a transaction id and an output index. -/
structure COutPoint where
  hash : uint256
  n : UInt32
  deriving DecidableEq, Repr

/-- `COutPoint()`: the null outpoint a coinbase input names. -/
def COutPoint.null : COutPoint := ⟨default,0xFFFFFFFF⟩

/-- `COutPoint::IsNull`. -/
def COutPoint.IsNull (o : COutPoint) : Bool := o.hash.IsNull && o.n == 0xFFFFFFFF

/-- `CTxIn`, without the witness, which only the witness serialization reads. -/
structure CTxIn where
  prevout : COutPoint
  scriptSig : CScript
  nSequence : UInt32
  deriving DecidableEq, Repr

/-- `CTxOut`. -/
structure CTxOut where
  nValue : CAmount
  scriptPubKey : CScript
  deriving DecidableEq, Repr

/-- `CTxOut()`: the null output. -/
def CTxOut.null : CTxOut := ⟨-1,[]⟩

/-- `CTxOut::IsNull`. -/
def CTxOut.IsNull (o : CTxOut) : Bool := o.nValue == -1

def ZC_NUM_JS_INPUTS : Nat := 2

def ZC_NUM_JS_OUTPUTS : Nat := 2

/-- `ZCNoteEncryption::Ciphertext`: 585 plaintext and 16 authentication bytes. -/
abbrev Ciphertext := base_blob 601

/-- `libzcash::ZCProof`, as its serialization: seven compressed G1 points of 33
    bytes and one compressed G2 point of 65 bytes. -/
abbrev ZCProof := base_blob 296

/-- `JSDescription`. -/
structure JSDescription where
  vpub_old : CAmount
  vpub_new : CAmount
  anchor : uint256
  nullifiers : Vector uint256 ZC_NUM_JS_INPUTS
  commitments : Vector uint256 ZC_NUM_JS_OUTPUTS
  ephemeralKey : uint256
  randomSeed : uint256
  macs : Vector uint256 ZC_NUM_JS_INPUTS
  proof : ZCProof
  ciphertexts : Vector Ciphertext ZC_NUM_JS_OUTPUTS
  deriving DecidableEq, Repr

/-- `CTransaction::joinsplit_sig_t`. -/
abbrev joinsplit_sig_t := base_blob 64

/-- `CTransaction`, without the memory-only hashes. -/
structure CTransaction where
  vin : List CTxIn
  vout : List CTxOut
  nVersion : Int32
  nLockTime : UInt32
  vjoinsplit : List JSDescription
  joinSplitPubKey : uint256
  joinSplitSig : joinsplit_sig_t
  deriving DecidableEq, Repr

namespace CTransaction

/-- `IsCoinBase`: one input, naming the null outpoint. -/
def IsCoinBase (tx : CTransaction) : Bool :=
  match tx.vin with
  | [txin] => txin.prevout.IsNull
  | _ => false

/-- The loop of `GetValueOut` over the outputs. -/
def valueOutputs (nValueOut : CAmount) : List CTxOut → Except String CAmount
  | [] => .ok nValueOut
  | tx_out :: rest =>
    if MoneyRange tx_out.nValue && MoneyRange (nValueOut + tx_out.nValue) then
      valueOutputs (nValueOut + tx_out.nValue) rest
    else .error "GetValueOut: value out of range"

/-- The loop of `GetValueOut` over the joinsplits: `vpub_old` leaves the
    transparent pool as an output does. -/
def valueVpubOld (nValueOut : CAmount) : List JSDescription → Except String CAmount
  | [] => .ok nValueOut
  | js :: rest =>
    if MoneyRange js.vpub_old && MoneyRange (nValueOut + js.vpub_old) then
      valueVpubOld (nValueOut + js.vpub_old) rest
    else .error "CTransaction::GetValueOut(): value out of range"

/-- `GetValueOut`. -/
def GetValueOut (tx : CTransaction) : Except String CAmount := do
  let nValueOut ← valueOutputs 0 tx.vout
  valueVpubOld nValueOut tx.vjoinsplit

/-- The loop of `GetJoinSplitValueIn`: `vpub_new` enters the transparent pool as
    an input does. -/
def valueVpubNew (nValue : CAmount) : List JSDescription → Except String CAmount
  | [] => .ok nValue
  | js :: rest =>
    if MoneyRange js.vpub_new && MoneyRange (nValue + js.vpub_new) then
      valueVpubNew (nValue + js.vpub_new) rest
    else .error "CTransaction::GetJoinSplitValueIn(): value out of range"

/-- `GetJoinSplitValueIn`. -/
def GetJoinSplitValueIn (tx : CTransaction) : Except String CAmount := valueVpubNew 0 tx.vjoinsplit

end CTransaction

end BitcoinPrivate
