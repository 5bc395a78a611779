import BitcoinPrivate.Script.Script
import BitcoinPrivate.Script.SignatureHash
import BitcoinPrivate.Primitives.TransactionCodec

/-!
The script interpreter of `script/interpreter.cpp`: `EvalScript`, one step per
instruction, and `VerifyScript`, which runs the signature script, the output
script, and then a witness program or a pay-to-script-hash redeem script.
BTCP adds `SCRIPT_VERIFY_WITNESS_FORK`, under which a version 0 witness program
with an empty witness is claimed from the `scriptSig`: the stack the `scriptSig`
leaves is the witness, and the program runs as a legacy (`BASE`) script.

The stacks are lists with the top first: `stacktop(-1)` is the head. The
signature checker is any three functions, and the hash functions are arguments.
The runs also count the calls to `CheckSig`, which the source does not: that
count is what the sigop limit is meant to bound. `VerifyScript` returns `none`
where one of its `assert`s fails.
-/
namespace BitcoinPrivate

/-- `ScriptError`, without `SCRIPT_ERR_OK`, which is success here, and the
    errors that nothing in the interpreter sets. -/
inductive ScriptError
  | SCRIPT_ERR_UNKNOWN_ERROR
  | SCRIPT_ERR_EVAL_FALSE
  | SCRIPT_ERR_OP_RETURN
  | SCRIPT_ERR_SCRIPT_SIZE
  | SCRIPT_ERR_PUSH_SIZE
  | SCRIPT_ERR_OP_COUNT
  | SCRIPT_ERR_STACK_SIZE
  | SCRIPT_ERR_SIG_COUNT
  | SCRIPT_ERR_PUBKEY_COUNT
  | SCRIPT_ERR_VERIFY
  | SCRIPT_ERR_EQUALVERIFY
  | SCRIPT_ERR_CHECKMULTISIGVERIFY
  | SCRIPT_ERR_CHECKSIGVERIFY
  | SCRIPT_ERR_NUMEQUALVERIFY
  | SCRIPT_ERR_BAD_OPCODE
  | SCRIPT_ERR_DISABLED_OPCODE
  | SCRIPT_ERR_INVALID_STACK_OPERATION
  | SCRIPT_ERR_INVALID_ALTSTACK_OPERATION
  | SCRIPT_ERR_UNBALANCED_CONDITIONAL
  | SCRIPT_ERR_NEGATIVE_LOCKTIME
  | SCRIPT_ERR_UNSATISFIED_LOCKTIME
  | SCRIPT_ERR_SIG_HASHTYPE
  | SCRIPT_ERR_SIG_DER
  | SCRIPT_ERR_MINIMALDATA
  | SCRIPT_ERR_SIG_PUSHONLY
  | SCRIPT_ERR_SIG_HIGH_S
  | SCRIPT_ERR_SIG_NULLDUMMY
  | SCRIPT_ERR_PUBKEYTYPE
  | SCRIPT_ERR_CLEANSTACK
  | SCRIPT_ERR_MINIMALIF
  | SCRIPT_ERR_SIG_NULLFAIL
  | SCRIPT_ERR_DISCOURAGE_UPGRADABLE_NOPS
  | SCRIPT_ERR_DISCOURAGE_UPGRADABLE_WITNESS_PROGRAM
  | SCRIPT_ERR_WITNESS_PROGRAM_WRONG_LENGTH
  | SCRIPT_ERR_WITNESS_PROGRAM_WITNESS_EMPTY
  | SCRIPT_ERR_WITNESS_PROGRAM_MISMATCH
  | SCRIPT_ERR_WITNESS_MALLEATED
  | SCRIPT_ERR_WITNESS_MALLEATED_P2SH
  | SCRIPT_ERR_WITNESS_UNEXPECTED
  | SCRIPT_ERR_WITNESS_PUBKEYTYPE
  | SCRIPT_ERR_OP_CODESEPARATOR
  deriving DecidableEq, Repr

def SCRIPT_VERIFY_P2SH : UInt32 := (1 : UInt32) <<< 0
def SCRIPT_VERIFY_STRICTENC : UInt32 := (1 : UInt32) <<< 1
def SCRIPT_VERIFY_DERSIG : UInt32 := (1 : UInt32) <<< 2
def SCRIPT_VERIFY_LOW_S : UInt32 := (1 : UInt32) <<< 3
def SCRIPT_VERIFY_NULLDUMMY : UInt32 := (1 : UInt32) <<< 4
def SCRIPT_VERIFY_SIGPUSHONLY : UInt32 := (1 : UInt32) <<< 5
def SCRIPT_VERIFY_MINIMALDATA : UInt32 := (1 : UInt32) <<< 6
def SCRIPT_VERIFY_DISCOURAGE_UPGRADABLE_NOPS : UInt32 := (1 : UInt32) <<< 7
def SCRIPT_VERIFY_CLEANSTACK : UInt32 := (1 : UInt32) <<< 8
def SCRIPT_VERIFY_CHECKLOCKTIMEVERIFY : UInt32 := (1 : UInt32) <<< 9
def SCRIPT_VERIFY_CHECKSEQUENCEVERIFY : UInt32 := (1 : UInt32) <<< 10
def SCRIPT_VERIFY_WITNESS : UInt32 := (1 : UInt32) <<< 11
def SCRIPT_VERIFY_DISCOURAGE_UPGRADABLE_WITNESS_PROGRAM : UInt32 := (1 : UInt32) <<< 12
def SCRIPT_VERIFY_MINIMALIF : UInt32 := (1 : UInt32) <<< 13
def SCRIPT_VERIFY_NULLFAIL : UInt32 := (1 : UInt32) <<< 14
def SCRIPT_VERIFY_WITNESS_PUBKEYTYPE : UInt32 := (1 : UInt32) <<< 15
def SCRIPT_VERIFY_CONST_SCRIPTCODE : UInt32 := (1 : UInt32) <<< 16
def SCRIPT_VERIFY_FORKID : UInt32 := (1 : UInt32) <<< 17
def SCRIPT_VERIFY_WITNESS_FORK : UInt32 := (1 : UInt32) <<< 18

def WITNESS_V0_SCRIPTHASH_SIZE : Nat := 32

def WITNESS_V0_KEYHASH_SIZE : Nat := 20

/-- `CTxIn::SEQUENCE_LOCKTIME_DISABLE_FLAG`. -/
def SEQUENCE_LOCKTIME_DISABLE_FLAG : Nat := 1 <<< 31

/-- `CPubKey::COMPRESSED_PUBLIC_KEY_SIZE`. -/
def COMPRESSED_PUBLIC_KEY_SIZE : Nat := 33

/-- `CPubKey::PUBLIC_KEY_SIZE`. -/
def PUBLIC_KEY_SIZE : Nat := 65

/-- What the interpreter takes from outside this model: the hash functions of
    `crypto/`, and `CPubKey::CheckLowS`, which libsecp256k1 decides. -/
structure ScriptCrypto where
  RIPEMD160 : List UInt8 → Vector UInt8 20
  SHA1 : List UInt8 → Vector UInt8 20
  SHA256 : List UInt8 → Vector UInt8 32
  CheckLowS : List UInt8 → Bool

namespace ScriptCrypto

/-- `CHash160`: RIPEMD-160 of SHA-256. -/
def Hash160 (crypto : ScriptCrypto) (b : List UInt8) : Vector UInt8 20 := crypto.RIPEMD160 (crypto.SHA256 b).toList

/-- `CHash256`: SHA-256 twice. -/
def Hash256 (crypto : ScriptCrypto) (b : List UInt8) : Vector UInt8 32 := crypto.SHA256 (crypto.SHA256 b).toList

end ScriptCrypto

/-- `BaseSignatureChecker`: the three questions the interpreter asks about the
    transaction. A `CScriptNum` argument is its value. -/
structure BaseSignatureChecker where
  CheckSig : valtype → valtype → CScript → Int32 → SigVersion → Bool
  CheckLockTime : Int → Bool
  CheckSequence : Int → Bool

/-! ## Elements and encodings -/

/-- `CastToBool`: some byte is not zero, other than a sign bit alone in the last
    byte (negative zero). -/
def CastToBool : valtype → Bool
  | [] => false
  | [b] => b != 0 && b != 0x80
  | b :: rest => b != 0 || CastToBool rest

def vchTrue : valtype := [1]

def vchFalse : valtype := []

/-- `IsCompressedOrUncompressedPubKey`. -/
def IsCompressedOrUncompressedPubKey (vchPubKey : valtype) : Bool :=
  if vchPubKey.length < COMPRESSED_PUBLIC_KEY_SIZE then false
  else if vchPubKey[0]? == some 0x04 then vchPubKey.length == PUBLIC_KEY_SIZE
  else if vchPubKey[0]? == some 0x02 || vchPubKey[0]? == some 0x03 then vchPubKey.length == COMPRESSED_PUBLIC_KEY_SIZE
  else false

/-- `IsCompressedPubKey`. -/
def IsCompressedPubKey (vchPubKey : valtype) : Bool :=
  vchPubKey.length == COMPRESSED_PUBLIC_KEY_SIZE && (vchPubKey[0]? == some 0x02 || vchPubKey[0]? == some 0x03)

/-- `IsValidSignatureEncoding`: strict DER, `0x30 len 0x02 lenR R 0x02 lenS S`,
    and the hash type byte. Every index it reads lies inside the signature once
    the checks before it pass. -/
def IsValidSignatureEncoding (sig : valtype) : Bool :=
  let at_ (i : Nat) : UInt8 := sig.getD i 0
  if sig.length < 9 then false
  else if sig.length > 73 then false
  else if at_ 0 != 0x30 then false
  else if (at_ 1).toNat != sig.length - 3 then false
  else
    let lenR := (at_ 3).toNat
    if 5 + lenR ≥ sig.length then false
    else
      let lenS := (at_ (5 + lenR)).toNat
      if lenR + lenS + 7 != sig.length then false
      else if at_ 2 != 0x02 then false
      else if lenR == 0 then false
      else if at_ 4 &&& 0x80 != 0 then false
      else if lenR > 1 && at_ 4 == 0x00 && at_ 5 &&& 0x80 == 0 then false
      else if at_ (lenR + 4) != 0x02 then false
      else if lenS == 0 then false
      else if at_ (lenR + 6) &&& 0x80 != 0 then false
      else if lenS > 1 && at_ (lenR + 6) == 0x00 && at_ (lenR + 7) &&& 0x80 == 0 then false
      else true

/-- `GetHashType`: the last byte of a signature. -/
def GetHashType (vchSig : valtype) : UInt32 := (vchSig.getLast?.map UInt8.toUInt32).getD 0

/-- `IsLowDERSignature`. -/
def IsLowDERSignature (crypto : ScriptCrypto) (vchSig : valtype) : Except ScriptError Unit :=
  if !IsValidSignatureEncoding vchSig then throw .SCRIPT_ERR_SIG_DER
  else if !crypto.CheckLowS vchSig.dropLast then throw .SCRIPT_ERR_SIG_HIGH_S
  else pure ()

/-- `IsDefinedHashtypeSignature`: the hash type without `ANYONECANPAY` and
    `FORKID` is `ALL`, `NONE` or `SINGLE`. -/
def IsDefinedHashtypeSignature (vchSig : valtype) : Bool :=
  if vchSig.isEmpty then false
  else
    let nHashType := (GetHashType vchSig &&& ~~~(SIGHASH_ANYONECANPAY ||| SIGHASH_FORKID).toUInt32).toUInt8
    !((nHashType.toNat : Int) < SIGHASH_ALL.toInt || (nHashType.toNat : Int) > SIGHASH_SINGLE.toInt)

/-- `CheckSignatureEncoding`. The empty signature passes. -/
def CheckSignatureEncoding (crypto : ScriptCrypto) (vchSig : valtype) (flags : UInt32) : Except ScriptError Unit :=
  if vchSig.isEmpty then pure ()
  else if flags &&& (SCRIPT_VERIFY_DERSIG ||| SCRIPT_VERIFY_LOW_S ||| SCRIPT_VERIFY_STRICTENC) != 0 &&
      !IsValidSignatureEncoding vchSig then throw .SCRIPT_ERR_SIG_DER
  else if flags &&& SCRIPT_VERIFY_LOW_S != 0 then IsLowDERSignature crypto vchSig >>= fun _ => rest
  else rest
where
  rest : Except ScriptError Unit :=
    if flags &&& SCRIPT_VERIFY_STRICTENC != 0 && !IsDefinedHashtypeSignature vchSig then throw .SCRIPT_ERR_SIG_HASHTYPE
    else if flags &&& SCRIPT_VERIFY_FORKID != 0 && !UsesForkId (GetHashType vchSig).toInt32 then
      throw .SCRIPT_ERR_SIG_HASHTYPE
    else pure ()

/-- `CheckPubKeyEncoding`. -/
def CheckPubKeyEncoding (vchPubKey : valtype) (flags : UInt32) (sigversion : SigVersion) : Except ScriptError Unit :=
  if flags &&& SCRIPT_VERIFY_STRICTENC != 0 && !IsCompressedOrUncompressedPubKey vchPubKey then
    throw .SCRIPT_ERR_PUBKEYTYPE
  -- Only compressed keys are accepted in segwit
  else if flags &&& SCRIPT_VERIFY_WITNESS_PUBKEYTYPE != 0 && sigversion == .WITNESS_V0 &&
      !IsCompressedPubKey vchPubKey then throw .SCRIPT_ERR_WITNESS_PUBKEYTYPE
  else pure ()

/-- `CheckMinimalPush`: the push opcode is the shortest one for its data. -/
def CheckMinimalPush (data : valtype) (opcode : opcodetype) : Bool :=
  if data.isEmpty then opcode == OP_0
  else if data.length == 1 && 1 ≤ data.getD 0 0 && data.getD 0 0 ≤ 16 then false
  else if data.length == 1 && data.getD 0 0 == 0x81 then false
  else if data.length ≤ 75 then opcode.toNat == data.length
  else if data.length ≤ 255 then opcode == OP_PUSHDATA1
  else if data.length ≤ 65535 then opcode == OP_PUSHDATA2
  else true

/-! ## One instruction -/

/-- The state of `EvalScript` between two instructions: the stack and the
    alternate stack, top first; `vfExec`, innermost conditional first;
    `nOpCount`; and the number of `CheckSig` calls so far. -/
structure ScriptState where
  stack : List valtype
  altstack : List valtype
  vfExec : List Bool
  nOpCount : Nat
  nSigChecks : Nat

/-- A `CScriptNum` built inside `EvalScript`, whose `catch` turns the
    `scriptnum_error` into `SCRIPT_ERR_UNKNOWN_ERROR`. -/
def scriptNum (vch : valtype) (fRequireMinimal : Bool) (nMaxNumSize : Nat) : Except ScriptError Int :=
  match CScriptNum.ofVch vch fRequireMinimal nMaxNumSize with
  | none => throw .SCRIPT_ERR_UNKNOWN_ERROR
  | some bn => pure bn

/-- `fRequireMinimal`. -/
def requireMinimal (flags : UInt32) : Bool := flags &&& SCRIPT_VERIFY_MINIMALDATA != 0

/-- The `forkid` the interpreter hands to `CheckSig`. -/
def forkidOf (flags : UInt32) : Int32 := if flags &&& SCRIPT_VERIFY_FORKID != 0 then FORKID_IN_USE else 0

/-- The blocks of the `switch` of `EvalScript`, one for each group of `case`
    labels, and the `default`. -/
inductive OpcodeBlock
  | pushValue | nop | checkLockTimeVerify | checkSequenceVerify | zenReplay | upgradableNop
  | ifNotIf | elseBranch | endIf | verify | opReturn
  | toAltStack | fromAltStack | twoDrop | twoDup | threeDup | twoOver | twoRot | twoSwap | ifDup
  | depth | drop | dup | nip | over | pickRoll | rot | swap | tuck | size | equal
  | unaryNumeric | binaryNumeric | within | hash | checkSig | checkMultiSig | badOpcode
  deriving DecidableEq, Repr

/-- The block of the `switch` that an opcode jumps to. `OP_RETURN` comes first
    because its name is shared with the transaction model, where it is no pattern. -/
def OpcodeBlock.of (opcode : opcodetype) : OpcodeBlock :=
  if opcode == OP_RETURN then .opReturn else
  match opcode with
  | OP_1NEGATE | OP_1 | OP_2 | OP_3 | OP_4 | OP_5 | OP_6 | OP_7 | OP_8 | OP_9 | OP_10 | OP_11 | OP_12
  | OP_13 | OP_14 | OP_15 | OP_16 => .pushValue
  | OP_NOP => .nop
  | OP_CHECKLOCKTIMEVERIFY => .checkLockTimeVerify
  | OP_CHECKSEQUENCEVERIFY => .checkSequenceVerify
  | OP_ZENREPLAY => .zenReplay
  | OP_NOP1 | OP_NOP4 | OP_NOP6 | OP_NOP7 | OP_NOP8 | OP_NOP9 | OP_NOP10 => .upgradableNop
  | OP_IF | OP_NOTIF => .ifNotIf
  | OP_ELSE => .elseBranch
  | OP_ENDIF => .endIf
  | OP_VERIFY => .verify
  | OP_TOALTSTACK => .toAltStack
  | OP_FROMALTSTACK => .fromAltStack
  | OP_2DROP => .twoDrop
  | OP_2DUP => .twoDup
  | OP_3DUP => .threeDup
  | OP_2OVER => .twoOver
  | OP_2ROT => .twoRot
  | OP_2SWAP => .twoSwap
  | OP_IFDUP => .ifDup
  | OP_DEPTH => .depth
  | OP_DROP => .drop
  | OP_DUP => .dup
  | OP_NIP => .nip
  | OP_OVER => .over
  | OP_PICK | OP_ROLL => .pickRoll
  | OP_ROT => .rot
  | OP_SWAP => .swap
  | OP_TUCK => .tuck
  | OP_SIZE => .size
  | OP_EQUAL | OP_EQUALVERIFY => .equal
  | OP_1ADD | OP_1SUB | OP_NEGATE | OP_ABS | OP_NOT | OP_0NOTEQUAL => .unaryNumeric
  | OP_ADD | OP_SUB | OP_BOOLAND | OP_BOOLOR | OP_NUMEQUAL | OP_NUMEQUALVERIFY | OP_NUMNOTEQUAL | OP_LESSTHAN
  | OP_GREATERTHAN | OP_LESSTHANOREQUAL | OP_GREATERTHANOREQUAL | OP_MIN | OP_MAX => .binaryNumeric
  | OP_WITHIN => .within
  | OP_RIPEMD160 | OP_SHA1 | OP_SHA256 | OP_HASH160 | OP_HASH256 => .hash
  | OP_CHECKSIG | OP_CHECKSIGVERIFY => .checkSig
  | OP_CHECKMULTISIG | OP_CHECKMULTISIGVERIFY => .checkMultiSig
  | _ => .badOpcode

/-- The inner `switch` of the one-operand numeric block. -/
def unaryNumeric (opcode : opcodetype) (bn : Int) : Int :=
  match opcode with
  | OP_1ADD => bn + 1
  | OP_1SUB => bn - 1
  | OP_NEGATE => -bn
  | OP_ABS => if bn < 0 then -bn else bn
  | OP_NOT => if bn == 0 then 1 else 0
  | OP_0NOTEQUAL => if bn != 0 then 1 else 0
  | _ => bn

/-- The inner `switch` of the two-operand numeric block; the `default` keeps the
    initial `bn(0)`. -/
def binaryNumeric (opcode : opcodetype) (bn1 bn2 : Int) : Int :=
  match opcode with
  | OP_ADD => bn1 + bn2
  | OP_SUB => bn1 - bn2
  | OP_BOOLAND => if bn1 != 0 && bn2 != 0 then 1 else 0
  | OP_BOOLOR => if bn1 != 0 || bn2 != 0 then 1 else 0
  | OP_NUMEQUAL | OP_NUMEQUALVERIFY => if bn1 == bn2 then 1 else 0
  | OP_NUMNOTEQUAL => if bn1 != bn2 then 1 else 0
  | OP_LESSTHAN => if bn1 < bn2 then 1 else 0
  | OP_GREATERTHAN => if bn1 > bn2 then 1 else 0
  | OP_LESSTHANOREQUAL => if bn1 ≤ bn2 then 1 else 0
  | OP_GREATERTHANOREQUAL => if bn1 ≥ bn2 then 1 else 0
  | OP_MIN => if bn1 < bn2 then bn1 else bn2
  | OP_MAX => if bn1 > bn2 then bn1 else bn2
  | _ => 0

/-- The hash block: the digest of the element, in a buffer of 20 or 32 bytes. -/
def digestOf (crypto : ScriptCrypto) (opcode : opcodetype) (vch : valtype) : valtype :=
  if opcode == OP_RIPEMD160 then (crypto.RIPEMD160 vch).toList
  else if opcode == OP_SHA1 then (crypto.SHA1 vch).toList
  else if opcode == OP_SHA256 then (crypto.SHA256 vch).toList
  else if opcode == OP_HASH160 then (crypto.Hash160 vch).toList
  else if opcode == OP_HASH256 then (crypto.Hash256 vch).toList
  else List.replicate 32 0

/-- `OP_CHECKLOCKTIMEVERIFY`: a `NOP2` unless enabled; else the top element, a
    number of up to five bytes, must be a lock time the checker accepts. -/
def evalCheckLockTimeVerify (flags : UInt32) (checker : BaseSignatureChecker) (s : ScriptState) :
    Except ScriptError ScriptState :=
  if flags &&& SCRIPT_VERIFY_CHECKLOCKTIMEVERIFY == 0 then pure s
  else
    match s.stack with
    | [] => throw .SCRIPT_ERR_INVALID_STACK_OPERATION
    | top :: _ => do
      let nLockTime ← scriptNum top (requireMinimal flags) 5
      if nLockTime < 0 then throw .SCRIPT_ERR_NEGATIVE_LOCKTIME
      if !checker.CheckLockTime nLockTime then throw .SCRIPT_ERR_UNSATISFIED_LOCKTIME
      pure s

/-- `OP_CHECKSEQUENCEVERIFY`: a `NOP3` unless enabled, and a `NOP` on a sequence
    with the disable flag. -/
def evalCheckSequenceVerify (flags : UInt32) (checker : BaseSignatureChecker) (s : ScriptState) :
    Except ScriptError ScriptState :=
  if flags &&& SCRIPT_VERIFY_CHECKSEQUENCEVERIFY == 0 then pure s
  else
    match s.stack with
    | [] => throw .SCRIPT_ERR_INVALID_STACK_OPERATION
    | top :: _ => do
      let nSequence ← scriptNum top (requireMinimal flags) 5
      if nSequence < 0 then throw .SCRIPT_ERR_NEGATIVE_LOCKTIME
      if nSequence.toNat &&& SEQUENCE_LOCKTIME_DISABLE_FLAG != 0 then return s
      if !checker.CheckSequence nSequence then throw .SCRIPT_ERR_UNSATISFIED_LOCKTIME
      pure s

/-- `OP_IF` and `OP_NOTIF`: in an executed branch, pop the condition, which
    `MINIMALIF` asks to be empty or `[1]` in witness scripts; in a branch that is
    not executed, open a branch that is not either. -/
def evalIf (flags : UInt32) (sigversion : SigVersion) (fExec : Bool) (opcode : opcodetype) (s : ScriptState) :
    Except ScriptError ScriptState := do
  let (fValue,stack) ← if fExec then
      match s.stack with
      | [] => throw .SCRIPT_ERR_UNBALANCED_CONDITIONAL
      | vch :: stack => do
        if sigversion == .WITNESS_V0 && flags &&& SCRIPT_VERIFY_MINIMALIF != 0 then
          if vch.length > 1 then throw .SCRIPT_ERR_MINIMALIF
          if vch.length == 1 && vch != [1] then throw .SCRIPT_ERR_MINIMALIF
        pure (if opcode == OP_NOTIF then !CastToBool vch else CastToBool vch,stack)
    else pure (false,s.stack)
  pure { s with stack, vfExec := fValue :: s.vfExec }

/-- `OP_PICK` and `OP_ROLL`: copy, or move, the element `n` below the top. -/
def evalPickRoll (flags : UInt32) (opcode : opcodetype) (s : ScriptState) : Except ScriptError ScriptState :=
  match s.stack with
  | top :: second :: rest => do
    let n := CScriptNum.getint (← scriptNum top (requireMinimal flags) nDefaultMaxNumSize)
    let stack := second :: rest
    if n < 0 then throw .SCRIPT_ERR_INVALID_STACK_OPERATION
    match stack[n.toNat]? with
    | none => throw .SCRIPT_ERR_INVALID_STACK_OPERATION
    | some vch => pure { s with stack := vch :: if opcode == OP_ROLL then stack.eraseIdx n.toNat else stack }
  | _ => throw .SCRIPT_ERR_INVALID_STACK_OPERATION

/-- The one-operand numeric block. -/
def evalUnaryNumeric (flags : UInt32) (opcode : opcodetype) (s : ScriptState) : Except ScriptError ScriptState :=
  match s.stack with
  | [] => throw .SCRIPT_ERR_INVALID_STACK_OPERATION
  | top :: stack => do
    let bn ← scriptNum top (requireMinimal flags) nDefaultMaxNumSize
    pure { s with stack := CScriptNum.serialize (unaryNumeric opcode bn) :: stack }

/-- The two-operand numeric block; `OP_NUMEQUALVERIFY` pops its result again. -/
def evalBinaryNumeric (flags : UInt32) (opcode : opcodetype) (s : ScriptState) : Except ScriptError ScriptState :=
  match s.stack with
  | x2 :: x1 :: stack => do
    let bn1 ← scriptNum x1 (requireMinimal flags) nDefaultMaxNumSize
    let bn2 ← scriptNum x2 (requireMinimal flags) nDefaultMaxNumSize
    let bn := binaryNumeric opcode bn1 bn2
    if opcode == OP_NUMEQUALVERIFY then
      if CastToBool (CScriptNum.serialize bn) then pure { s with stack } else throw .SCRIPT_ERR_NUMEQUALVERIFY
    else pure { s with stack := CScriptNum.serialize bn :: stack }
  | _ => throw .SCRIPT_ERR_INVALID_STACK_OPERATION

/-- `OP_WITHIN`: `min ≤ x < max`. -/
def evalWithin (flags : UInt32) (s : ScriptState) : Except ScriptError ScriptState :=
  match s.stack with
  | x3 :: x2 :: x1 :: stack => do
    let bn1 ← scriptNum x1 (requireMinimal flags) nDefaultMaxNumSize
    let bn2 ← scriptNum x2 (requireMinimal flags) nDefaultMaxNumSize
    let bn3 ← scriptNum x3 (requireMinimal flags) nDefaultMaxNumSize
    pure { s with stack := (if bn2 ≤ bn1 && bn1 < bn3 then vchTrue else vchFalse) :: stack }
  | _ => throw .SCRIPT_ERR_INVALID_STACK_OPERATION

/-- `OP_CHECKSIG` and `OP_CHECKSIGVERIFY`: one call to `CheckSig`, after the
    encoding checks; under `NULLFAIL` only the empty signature may fail. -/
def evalCheckSig (crypto : ScriptCrypto) (flags : UInt32) (checker : BaseSignatureChecker) (sigversion : SigVersion)
    (script : CScript) (opcode : opcodetype) (s : ScriptState) : Except ScriptError ScriptState :=
  match s.stack with
  | vchPubKey :: vchSig :: stack => do
    CheckSignatureEncoding crypto vchSig flags
    CheckPubKeyEncoding vchPubKey flags sigversion
    let fSuccess := checker.CheckSig vchSig vchPubKey script (forkidOf flags) sigversion
    if !fSuccess && flags &&& SCRIPT_VERIFY_NULLFAIL != 0 && !vchSig.isEmpty then throw .SCRIPT_ERR_SIG_NULLFAIL
    let s := { s with nSigChecks := s.nSigChecks + 1 }
    if opcode == OP_CHECKSIGVERIFY then
      if fSuccess then pure { s with stack } else throw .SCRIPT_ERR_CHECKSIGVERIFY
    else pure { s with stack := (if fSuccess then vchTrue else vchFalse) :: stack }
  | _ => throw .SCRIPT_ERR_INVALID_STACK_OPERATION

/-- The signature loop of `OP_CHECKMULTISIG` over the signatures and the keys
    still to match, in order: whether it succeeds, and the `CheckSig` calls it
    makes, one per key tried. It stops as failed once more signatures are left
    than keys; it never starts so, since the count of signatures is at most the
    count of keys. -/
def multisigLoop (crypto : ScriptCrypto) (flags : UInt32) (checker : BaseSignatureChecker) (sigversion : SigVersion)
    (script : CScript) : List valtype → List valtype → Except ScriptError (Bool × Nat)
  | [], _ => pure (true,0)
  | _ :: _, [] => pure (false,0)
  | vchSig :: sigs, vchPubKey :: keys => do
    CheckSignatureEncoding crypto vchSig flags
    CheckPubKeyEncoding vchPubKey flags sigversion
    let fOk := checker.CheckSig vchSig vchPubKey script (forkidOf flags) sigversion
    let sigs := if fOk then sigs else vchSig :: sigs
    if sigs.length > keys.length then pure (false,1)
    else do
      let (fSuccess,nSigChecks) ← multisigLoop crypto flags checker sigversion script sigs keys
      pure (fSuccess,nSigChecks + 1)

/-- `OP_CHECKMULTISIG` and `OP_CHECKMULTISIGVERIFY`, on the stack
    `nKeys key… nSigs sig… dummy` from the top. The keys count towards
    `nOpCount`; after the loop, `NULLFAIL` asks a failed check to have empty
    signatures and `NULLDUMMY` an empty dummy. -/
def evalCheckMultiSig (crypto : ScriptCrypto) (flags : UInt32) (checker : BaseSignatureChecker)
    (sigversion : SigVersion) (script : CScript) (opcode : opcodetype) (s : ScriptState) :
    Except ScriptError ScriptState := do
  let fRequireMinimal := requireMinimal flags
  let top ← match s.stack with
    | [] => throw .SCRIPT_ERR_INVALID_STACK_OPERATION
    | top :: _ => pure top
  let nKeysCount := CScriptNum.getint (← scriptNum top fRequireMinimal nDefaultMaxNumSize)
  if nKeysCount < 0 || nKeysCount > MAX_PUBKEYS_PER_MULTISIG then throw .SCRIPT_ERR_PUBKEY_COUNT
  let nKeys := nKeysCount.toNat
  let s := { s with nOpCount := s.nOpCount + nKeys }
  if s.nOpCount > MAX_OPS_PER_SCRIPT then throw .SCRIPT_ERR_OP_COUNT
  -- the count of signatures is `stacktop(-i)` for `i = nKeys + 2`
  let countSigs ← match s.stack[nKeys + 1]? with
    | none => throw .SCRIPT_ERR_INVALID_STACK_OPERATION
    | some countSigs => pure countSigs
  let nSigsCount := CScriptNum.getint (← scriptNum countSigs fRequireMinimal nDefaultMaxNumSize)
  if nSigsCount < 0 || nSigsCount > nKeysCount then throw .SCRIPT_ERR_SIG_COUNT
  let nSigs := nSigsCount.toNat
  -- `i` is now `nKeys + nSigs + 3`: the dummy must be there too
  if s.stack.length < nKeys + nSigs + 3 then throw .SCRIPT_ERR_INVALID_STACK_OPERATION
  let keys := (s.stack.drop 1).take nKeys
  let sigs := (s.stack.drop (nKeys + 2)).take nSigs
  let (fSuccess,nSigChecks) ← multisigLoop crypto flags checker sigversion script sigs keys
  let s := { s with nSigChecks := s.nSigChecks + nSigChecks }
  -- the clean-up pops `i - 1` items, of which the first `ikey2 = nKeys + 2` are no signatures
  if !fSuccess && flags &&& SCRIPT_VERIFY_NULLFAIL != 0 && sigs.any (!·.isEmpty) then throw .SCRIPT_ERR_SIG_NULLFAIL
  match s.stack.drop (nKeys + nSigs + 2) with
  | [] => throw .SCRIPT_ERR_INVALID_STACK_OPERATION
  | dummy :: stack =>
    if flags &&& SCRIPT_VERIFY_NULLDUMMY != 0 && !dummy.isEmpty then throw .SCRIPT_ERR_SIG_NULLDUMMY
    if opcode == OP_CHECKMULTISIGVERIFY then
      if fSuccess then pure { s with stack } else throw .SCRIPT_ERR_CHECKMULTISIGVERIFY
    else pure { s with stack := (if fSuccess then vchTrue else vchFalse) :: stack }

/-- The `switch` of `EvalScript`: what an instruction that runs does to the state. -/
def EvalOpcode (crypto : ScriptCrypto) (flags : UInt32) (checker : BaseSignatureChecker) (sigversion : SigVersion)
    (script : CScript) (fExec : Bool) (opcode : opcodetype) (s : ScriptState) : Except ScriptError ScriptState :=
  match OpcodeBlock.of opcode with
  | .pushValue => pure { s with stack := CScriptNum.serialize (opcode.toNat - (OP_1.toNat - 1) : Int) :: s.stack }
  | .nop => pure s
  | .checkLockTimeVerify => evalCheckLockTimeVerify flags checker s
  | .checkSequenceVerify => evalCheckSequenceVerify flags checker s
  | .zenReplay =>
    match s.stack with
    | [_,_] => pure { s with stack := [] }
    | _ =>
      if flags &&& SCRIPT_VERIFY_DISCOURAGE_UPGRADABLE_NOPS != 0 then throw .SCRIPT_ERR_DISCOURAGE_UPGRADABLE_NOPS
      else pure s
  | .upgradableNop =>
    if flags &&& SCRIPT_VERIFY_DISCOURAGE_UPGRADABLE_NOPS != 0 then throw .SCRIPT_ERR_DISCOURAGE_UPGRADABLE_NOPS
    else pure s
  | .ifNotIf => evalIf flags sigversion fExec opcode s
  | .elseBranch =>
    match s.vfExec with
    | [] => throw .SCRIPT_ERR_UNBALANCED_CONDITIONAL
    | fValue :: vfExec => pure { s with vfExec := (!fValue) :: vfExec }
  | .endIf =>
    match s.vfExec with
    | [] => throw .SCRIPT_ERR_UNBALANCED_CONDITIONAL
    | _ :: vfExec => pure { s with vfExec }
  | .verify =>
    match s.stack with
    | [] => throw .SCRIPT_ERR_INVALID_STACK_OPERATION
    | top :: stack => if CastToBool top then pure { s with stack } else throw .SCRIPT_ERR_VERIFY
  | .opReturn => throw .SCRIPT_ERR_OP_RETURN
  | .toAltStack =>
    match s.stack with
    | [] => throw .SCRIPT_ERR_INVALID_STACK_OPERATION
    | top :: stack => pure { s with stack, altstack := top :: s.altstack }
  | .fromAltStack =>
    match s.altstack with
    | [] => throw .SCRIPT_ERR_INVALID_ALTSTACK_OPERATION
    | top :: altstack => pure { s with stack := top :: s.stack, altstack }
  | .twoDrop =>
    match s.stack with
    | _ :: _ :: stack => pure { s with stack }
    | _ => throw .SCRIPT_ERR_INVALID_STACK_OPERATION
  | .twoDup =>
    match s.stack with
    | x2 :: x1 :: stack => pure { s with stack := x2 :: x1 :: x2 :: x1 :: stack }
    | _ => throw .SCRIPT_ERR_INVALID_STACK_OPERATION
  | .threeDup =>
    match s.stack with
    | x3 :: x2 :: x1 :: stack => pure { s with stack := x3 :: x2 :: x1 :: x3 :: x2 :: x1 :: stack }
    | _ => throw .SCRIPT_ERR_INVALID_STACK_OPERATION
  | .twoOver =>
    match s.stack with
    | x4 :: x3 :: x2 :: x1 :: stack => pure { s with stack := x2 :: x1 :: x4 :: x3 :: x2 :: x1 :: stack }
    | _ => throw .SCRIPT_ERR_INVALID_STACK_OPERATION
  | .twoRot =>
    match s.stack with
    | x6 :: x5 :: x4 :: x3 :: x2 :: x1 :: stack => pure { s with stack := x2 :: x1 :: x6 :: x5 :: x4 :: x3 :: stack }
    | _ => throw .SCRIPT_ERR_INVALID_STACK_OPERATION
  | .twoSwap =>
    match s.stack with
    | x4 :: x3 :: x2 :: x1 :: stack => pure { s with stack := x2 :: x1 :: x4 :: x3 :: stack }
    | _ => throw .SCRIPT_ERR_INVALID_STACK_OPERATION
  | .ifDup =>
    match s.stack with
    | [] => throw .SCRIPT_ERR_INVALID_STACK_OPERATION
    | vch :: stack => pure { s with stack := if CastToBool vch then vch :: vch :: stack else vch :: stack }
  | .depth => pure { s with stack := CScriptNum.serialize s.stack.length :: s.stack }
  | .drop =>
    match s.stack with
    | [] => throw .SCRIPT_ERR_INVALID_STACK_OPERATION
    | _ :: stack => pure { s with stack }
  | .dup =>
    match s.stack with
    | [] => throw .SCRIPT_ERR_INVALID_STACK_OPERATION
    | vch :: stack => pure { s with stack := vch :: vch :: stack }
  | .nip =>
    match s.stack with
    | x2 :: _ :: stack => pure { s with stack := x2 :: stack }
    | _ => throw .SCRIPT_ERR_INVALID_STACK_OPERATION
  | .over =>
    match s.stack with
    | x2 :: x1 :: stack => pure { s with stack := x1 :: x2 :: x1 :: stack }
    | _ => throw .SCRIPT_ERR_INVALID_STACK_OPERATION
  | .pickRoll => evalPickRoll flags opcode s
  | .rot =>
    match s.stack with
    | x3 :: x2 :: x1 :: stack => pure { s with stack := x1 :: x3 :: x2 :: stack }
    | _ => throw .SCRIPT_ERR_INVALID_STACK_OPERATION
  | .swap =>
    match s.stack with
    | x2 :: x1 :: stack => pure { s with stack := x1 :: x2 :: stack }
    | _ => throw .SCRIPT_ERR_INVALID_STACK_OPERATION
  | .tuck =>
    match s.stack with
    | x2 :: x1 :: stack => pure { s with stack := x2 :: x1 :: x2 :: stack }
    | _ => throw .SCRIPT_ERR_INVALID_STACK_OPERATION
  | .size =>
    match s.stack with
    | [] => throw .SCRIPT_ERR_INVALID_STACK_OPERATION
    | vch :: stack => pure { s with stack := CScriptNum.serialize vch.length :: vch :: stack }
  | .equal =>
    match s.stack with
    | x2 :: x1 :: stack =>
      if opcode == OP_EQUALVERIFY then
        if x1 == x2 then pure { s with stack } else throw .SCRIPT_ERR_EQUALVERIFY
      else pure { s with stack := (if x1 == x2 then vchTrue else vchFalse) :: stack }
    | _ => throw .SCRIPT_ERR_INVALID_STACK_OPERATION
  | .unaryNumeric => evalUnaryNumeric flags opcode s
  | .binaryNumeric => evalBinaryNumeric flags opcode s
  | .within => evalWithin flags s
  | .hash =>
    match s.stack with
    | [] => throw .SCRIPT_ERR_INVALID_STACK_OPERATION
    | vch :: stack => pure { s with stack := digestOf crypto opcode vch :: stack }
  | .checkSig => evalCheckSig crypto flags checker sigversion script opcode s
  | .checkMultiSig => evalCheckMultiSig crypto flags checker sigversion script opcode s
  | .badOpcode => throw .SCRIPT_ERR_BAD_OPCODE

/-- The opcodes `EvalScript` refuses wherever they stand, executed or not. -/
def disabledOpcodes : List opcodetype :=
  [OP_CAT,OP_SUBSTR,OP_LEFT,OP_RIGHT,OP_INVERT,OP_AND,OP_OR,OP_XOR,OP_2MUL,OP_2DIV,OP_MUL,OP_DIV,OP_MOD,
    OP_LSHIFT,OP_RSHIFT,OP_CODESEPARATOR]

/-- One pass of the loop of `EvalScript`, on an instruction and its push data. A
    push runs where the branch is executed, an opcode where it is or where it
    opens or closes a branch; every pass ends with the stack size limit. -/
def EvalStep (crypto : ScriptCrypto) (flags : UInt32) (checker : BaseSignatureChecker) (sigversion : SigVersion)
    (script : CScript) (s : ScriptState) (instr : opcodetype × valtype) : Except ScriptError ScriptState := do
  let (opcode,vchPushValue) := instr
  let fExec := !s.vfExec.contains false
  if vchPushValue.length > MAX_SCRIPT_ELEMENT_SIZE then throw .SCRIPT_ERR_PUSH_SIZE
  -- `OP_RESERVED` does not count towards the opcode limit
  let s := if opcode > OP_16 then { s with nOpCount := s.nOpCount + 1 } else s
  if opcode > OP_16 && s.nOpCount > MAX_OPS_PER_SCRIPT then throw .SCRIPT_ERR_OP_COUNT
  if disabledOpcodes.contains opcode then throw .SCRIPT_ERR_DISABLED_OPCODE
  if opcode == OP_CODESEPARATOR && sigversion == .BASE && flags &&& SCRIPT_VERIFY_CONST_SCRIPTCODE != 0 then
    throw .SCRIPT_ERR_OP_CODESEPARATOR
  let s ← if fExec && opcode ≤ OP_PUSHDATA4 then
      if requireMinimal flags && !CheckMinimalPush vchPushValue opcode then throw .SCRIPT_ERR_MINIMALDATA
      else pure { s with stack := vchPushValue :: s.stack }
    else if fExec || (OP_IF ≤ opcode && opcode ≤ OP_ENDIF) then
      EvalOpcode crypto flags checker sigversion script fExec opcode s
    else pure s
  if s.stack.length + s.altstack.length > MAX_STACK_SIZE then throw .SCRIPT_ERR_STACK_SIZE
  pure s

/-- `EvalScript`: the stack it leaves, and the `CheckSig` calls it makes. A read
    that fails stops the loop with `SCRIPT_ERR_BAD_OPCODE`, after the
    instructions before it. -/
def EvalScript (crypto : ScriptCrypto) (stack : List valtype) (script : CScript) (flags : UInt32)
    (checker : BaseSignatureChecker) (sigversion : SigVersion) : Except ScriptError (List valtype × Nat) := do
  if script.length > MAX_SCRIPT_SIZE then throw .SCRIPT_ERR_SCRIPT_SIZE
  let s ← (ScriptOps script).1.foldlM (EvalStep crypto flags checker sigversion script) ⟨stack,[],[],0,0⟩
  if !(ScriptOps script).2 then throw .SCRIPT_ERR_BAD_OPCODE
  if !s.vfExec.isEmpty then throw .SCRIPT_ERR_UNBALANCED_CONDITIONAL
  pure (s.stack,s.nSigChecks)

/-! ## Witness programs and `VerifyScript` -/

/-- The script and the initial stack of a version 0 witness program: a script
    whose SHA-256 is the 32-byte program, the last item of the witness, or the
    pay-to-pubkey-hash script of a 20-byte program with a witness of two items. -/
def witnessV0Script (crypto : ScriptCrypto) (witness : CScriptWitness) (program : List UInt8) :
    Except ScriptError (List valtype × CScript) :=
  if program.length == WITNESS_V0_SCRIPTHASH_SIZE then
    match witness.stack.getLast? with
    | none => throw .SCRIPT_ERR_WITNESS_PROGRAM_WITNESS_EMPTY
    | some scriptPubKey =>
      if (crypto.SHA256 scriptPubKey).toList != program then throw .SCRIPT_ERR_WITNESS_PROGRAM_MISMATCH
      else pure (witness.stack.dropLast.reverse,scriptPubKey)
  else if program.length == WITNESS_V0_KEYHASH_SIZE then
    if witness.stack.length != 2 then throw .SCRIPT_ERR_WITNESS_PROGRAM_MISMATCH
    else pure (witness.stack.reverse,[OP_DUP,OP_HASH160] ++ CScript.pushData program ++ [OP_EQUALVERIFY,OP_CHECKSIG])
  else throw .SCRIPT_ERR_WITNESS_PROGRAM_WRONG_LENGTH

/-- `VerifyWitnessProgram`: the `CheckSig` calls of the witness script, which
    runs as a legacy script on the fork-claiming path and must leave one true
    element. Versions above 0 pass. -/
def VerifyWitnessProgram (crypto : ScriptCrypto) (witness : CScriptWitness) (witversion : Nat) (program : List UInt8)
    (flags : UInt32) (checker : BaseSignatureChecker) (isForkClaim : Bool) : Except ScriptError Nat :=
  if witversion == 0 then do
    let (stack,scriptPubKey) ← witnessV0Script crypto witness program
    -- Disallow stack item size > MAX_SCRIPT_ELEMENT_SIZE in witness stack
    if stack.any (·.length > MAX_SCRIPT_ELEMENT_SIZE) then throw .SCRIPT_ERR_PUSH_SIZE
    let (stack,nSigChecks) ← EvalScript crypto stack scriptPubKey flags checker (if isForkClaim then .BASE else .WITNESS_V0)
    -- Scripts inside witness implicitly require cleanstack behaviour
    match stack with
    | [top] => if CastToBool top then pure nSigChecks else throw .SCRIPT_ERR_EVAL_FALSE
    | _ => throw .SCRIPT_ERR_CLEANSTACK
  else if flags &&& SCRIPT_VERIFY_DISCOURAGE_UPGRADABLE_WITNESS_PROGRAM != 0 then
    throw .SCRIPT_ERR_DISCOURAGE_UPGRADABLE_WITNESS_PROGRAM
  else pure 0

/-- The witness block of `VerifyScript`, once for the output script and once for
    the redeem script: `none` if the script is not a witness program or the
    witness flags are off, else the `CheckSig` calls of the program. With
    `WITNESS_FORK`, a version 0 program with an empty witness takes the
    `claimStack` as its witness and escapes the malleability check. -/
def verifyWitnessBlock (crypto : ScriptCrypto) (flags : UInt32) (checker : BaseSignatureChecker)
    (witness : CScriptWitness) (program : CScript) (claimStack : List valtype) (malleated : Bool)
    (malleatedError : ScriptError) : Except ScriptError (Option Nat) :=
  if flags &&& SCRIPT_VERIFY_WITNESS != 0 || flags &&& SCRIPT_VERIFY_WITNESS_FORK != 0 then
    match program.IsWitnessProgram with
    | none => pure none
    | some (witversion,witnessprogram) => do
      let useForkClaiming := flags &&& SCRIPT_VERIFY_WITNESS_FORK != 0 && witversion == 0 && witness.IsNull
      if !useForkClaiming && malleated then throw malleatedError
      let nSigChecks ← VerifyWitnessProgram crypto (if useForkClaiming then ⟨claimStack.reverse⟩ else witness)
        witversion witnessprogram flags checker useForkClaiming
      pure (some nSigChecks)
  else pure none

/-- `stack.resize(1)`, which keeps the bottom element. -/
def resizeOne (stack : List valtype) : List valtype := [stack.getLast?.getD []]

/-- The check after an evaluation: a stack whose top is true. -/
def topIsTrue : List valtype → Except ScriptError Unit
  | [] => throw .SCRIPT_ERR_EVAL_FALSE
  | top :: _ => if CastToBool top then pure () else throw .SCRIPT_ERR_EVAL_FALSE

/-- An `assert` that fails. -/
def abort {α : Type} : ExceptT ScriptError Option α := ExceptT.lift none

/-- The pay-to-script-hash block of `VerifyScript`: the redeem script, the last
    item the push-only `scriptSig` leaves, runs on the rest of that stack; it may
    be a witness program in turn. The stack, whether a witness program ran, and
    the `CheckSig` calls. -/
def verifyP2SH (crypto : ScriptCrypto) (scriptSig : CScript) (witness : CScriptWitness) (flags : UInt32)
    (checker : BaseSignatureChecker) (stackCopy : List valtype) :
    ExceptT ScriptError Option (List valtype × Bool × Nat) := do
  if !scriptSig.IsPushOnly then throw .SCRIPT_ERR_SIG_PUSHONLY
  match stackCopy with
  | [] => abort
  | pubKeySerialized :: stack =>
    let witStack := if flags &&& SCRIPT_VERIFY_WITNESS_FORK != 0 then stack else []
    let (stack,nRedeem) ← EvalScript crypto stack pubKeySerialized flags checker .BASE
    topIsTrue stack
    let redeemWitness ← verifyWitnessBlock crypto flags checker witness pubKeySerialized witStack
      (scriptSig != CScript.pushData pubKeySerialized) .SCRIPT_ERR_WITNESS_MALLEATED_P2SH
    match redeemWitness with
    | none => pure (stack,false,nRedeem)
    | some nWitness => pure (resizeOne stack,true,nRedeem + nWitness)

/-- `VerifyScript`, with the `CheckSig` calls of the whole verification. A null
    witness pointer is the empty witness. -/
def VerifyScript (crypto : ScriptCrypto) (scriptSig scriptPubKey : CScript) (witness : CScriptWitness)
    (flags : UInt32) (checker : BaseSignatureChecker) : ExceptT ScriptError Option Nat := do
  if flags &&& SCRIPT_VERIFY_SIGPUSHONLY != 0 && !scriptSig.IsPushOnly then throw .SCRIPT_ERR_SIG_PUSHONLY
  let (stack,nSig) ← EvalScript crypto [] scriptSig flags checker .BASE
  let stackCopy := if flags &&& SCRIPT_VERIFY_P2SH != 0 || flags &&& SCRIPT_VERIFY_WITNESS_FORK != 0 then stack else []
  let (stack,nPubKey) ← EvalScript crypto stack scriptPubKey flags checker .BASE
  topIsTrue stack
  -- Bare witness programs
  let bareWitness ← verifyWitnessBlock crypto flags checker witness scriptPubKey stackCopy (!scriptSig.isEmpty)
    .SCRIPT_ERR_WITNESS_MALLEATED
  let (stack,hadWitness,nWitness) := match bareWitness with
    | none => (stack,false,0)
    | some nWitness => (resizeOne stack,true,nWitness)
  -- Additional validation for spend-to-script-hash transactions
  let (stack,hadWitness,nP2SH) ← if flags &&& SCRIPT_VERIFY_P2SH != 0 && scriptPubKey.IsPayToScriptHash then
      verifyP2SH crypto scriptSig witness flags checker stackCopy
    else pure (stack,hadWitness,0)
  if flags &&& SCRIPT_VERIFY_CLEANSTACK != 0 then
    if flags &&& SCRIPT_VERIFY_P2SH == 0 || flags &&& SCRIPT_VERIFY_WITNESS == 0 then abort
    if stack.length != 1 then throw .SCRIPT_ERR_CLEANSTACK
  if flags &&& SCRIPT_VERIFY_WITNESS != 0 then
    if flags &&& SCRIPT_VERIFY_P2SH == 0 then abort
    if !hadWitness && !witness.IsNull then throw .SCRIPT_ERR_WITNESS_UNEXPECTED
  pure (nSig + nPubKey + nWitness + nP2SH)

/-! ## Witness sigops -/

/-- `WitnessSigOps`: one for a key-hash program, the accurate count of the
    witness script for a script-hash program. -/
def WitnessSigOps (witversion : Nat) (witprogram : List UInt8) (witness : CScriptWitness) : Nat :=
  if witversion == 0 then
    if witprogram.length == WITNESS_V0_KEYHASH_SIZE then 1
    else if witprogram.length == WITNESS_V0_SCRIPTHASH_SIZE then
      match witness.stack.getLast? with
      | some subscript => CScript.GetSigOpCount subscript true
      | none => 0
    else 0
  else 0

/-- `CountWitnessSigOps`: the sigops of a witness program spent bare or through
    pay-to-script-hash, counted from the real witness, and only under
    `SCRIPT_VERIFY_WITNESS`; `none` where its assert fails. -/
def CountWitnessSigOps (scriptSig scriptPubKey : CScript) (witness : CScriptWitness) (flags : UInt32) : Option Nat :=
  if flags &&& SCRIPT_VERIFY_WITNESS == 0 then some 0
  else if flags &&& SCRIPT_VERIFY_P2SH == 0 then none
  else
    match scriptPubKey.IsWitnessProgram with
    | some (witversion,witnessprogram) => some (WitnessSigOps witversion witnessprogram witness)
    | none =>
      if scriptPubKey.IsPayToScriptHash && scriptSig.IsPushOnly then
        match CScript.IsWitnessProgram (CScript.lastPushData scriptSig) with
        | some (witversion,witnessprogram) => some (WitnessSigOps witversion witnessprogram witness)
        | none => some 0
      else some 0


/-! ## Steps of the interpreter -/

/-- A push in an executed branch: the data goes onto the stack, within the
    limits on its size and on the stack's. -/
theorem EvalStep_push (crypto : ScriptCrypto) (flags : UInt32) (checker : BaseSignatureChecker) (sigversion : SigVersion)
    (script : CScript) {s : ScriptState} {opcode : opcodetype} {data : valtype} (executing : s.vfExec = [])
    (isPush : opcode ≤ OP_PUSHDATA4) (fits : data.length ≤ MAX_SCRIPT_ELEMENT_SIZE)
    (minimal : CheckMinimalPush data opcode = true) (room : s.stack.length + 1 + s.altstack.length ≤ MAX_STACK_SIZE) :
    EvalStep crypto flags checker sigversion script s (opcode,data) = .ok { s with stack := data :: s.stack } := by
  have small : opcode.toNat ≤ 0x4e := UInt8.le_iff_toNat_le.mp isPush
  -- a push is below every opcode the loop counts, disables or treats apart
  have notOp : ¬ opcode > OP_16 := fun above => by
    have := UInt8.lt_iff_toNat_lt.mp above
    simp only [OP_16,UInt8.reduceToNat] at this
    omega
  have enabled : opcode ∉ disabledOpcodes := fun mem => by
    have above : ∀ o ∈ disabledOpcodes, 0x4e < o.toNat := by decide +kernel
    have := above opcode mem
    omega
  have kept : opcode ≠ OP_CODESEPARATOR := fun same => by
    rw [same] at small
    exact absurd small (by decide)
  simp [EvalStep,executing,isPush,notOp,enabled,kept,minimal,Nat.not_lt.mpr fits,Nat.not_lt.mpr room]
  rfl

/-- `OP_CHECKSIG` on the empty signature: the encodings pass, `CheckSig` is
    called once, and its answer goes onto the stack; `NULLFAIL` spares the empty
    signature. -/
theorem evalCheckSig_empty (crypto : ScriptCrypto) {flags : UInt32} (checker : BaseSignatureChecker)
    {sigversion : SigVersion} (script : CScript) {vchPubKey : valtype} {stack : List valtype} {s : ScriptState}
    (top : s.stack = vchPubKey :: [] :: stack) (key : CheckPubKeyEncoding vchPubKey flags sigversion = .ok ()) :
    evalCheckSig crypto flags checker sigversion script OP_CHECKSIG s =
      .ok { s with
        stack := (if checker.CheckSig [] vchPubKey script (forkidOf flags) sigversion then vchTrue else vchFalse) :: stack
        nSigChecks := s.nSigChecks + 1 } := by
  rw [evalCheckSig,top]
  have verify : OP_CHECKSIG ≠ OP_CHECKSIGVERIFY := by decide
  simp [CheckSignatureEncoding,key,verify,pure,Except.pure,bind,Except.bind]

/-- The output script `OP_0 <program>` of a 32-byte program pushes the empty
    vector and the program. -/
theorem EvalScript_witnessProgram {program : List UInt8} (sized : program.length = 32) (crypto : ScriptCrypto)
    {stack : List valtype} (flags : UInt32) (checker : BaseSignatureChecker) (short : stack.length + 2 ≤ MAX_STACK_SIZE) :
    EvalScript crypto stack (OP_0 :: CScript.pushData program) flags checker .BASE = .ok (program :: [] :: stack,0) := by
  have long : (OP_0 :: CScript.pushData program).length = 34 := by simp +decide [CScript.pushData,sized]
  have nonempty : program ≠ [] := List.ne_nil_of_length_pos (by omega)
  rw [EvalScript,ScriptOps_witnessProgram sized,long]
  simp only [List.foldlM_cons,List.foldlM_nil]
  rw [EvalStep_push crypto flags checker .BASE _ rfl (by decide) (by decide) rfl (by simp; omega)]
  rw [Guards.ok_bind,EvalStep_push crypto flags checker .BASE _ rfl (by decide) (by simp [sized,MAX_SCRIPT_ELEMENT_SIZE])
    (by simp [CheckMinimalPush,sized,nonempty]) (by simp; omega)]
  rfl

/-- `VerifyScript` goes on past a step of `EvalScript` that succeeds. -/
theorem liftM_ok_bind {ε α β : Type} (a : α) (f : α → ExceptT ε Option β) :
    (liftM (Except.ok a : Except ε α) >>= f : ExceptT ε Option β) = f a := rfl

theorem liftM_pure_bind {ε α β : Type} (a : α) (f : α → ExceptT ε Option β) :
    (liftM (pure a : Except ε α) >>= f : ExceptT ε Option β) = f a := rfl

end BitcoinPrivate
