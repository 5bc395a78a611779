import BitcoinPrivate.Primitives.Transaction
import BitcoinPrivate.Library.LittleEndian

/-!
Scripts as `script/script.h` and `script/script.cpp` read them: the opcodes,
`GetScriptOp`, which reads one instruction with the data it pushes, `CScriptNum`,
the numbers of the interpreter, and the shapes that `VerifyScript` and the sigop
counts look for. A `CScriptNum` is its `m_value`, an `Int`: every number the
interpreter builds comes from at most five bytes or is the sum or difference of
two such, so the `int64_t` never wraps and its asserts never fire.
-/
namespace BitcoinPrivate
open LittleEndian

/-- `valtype`: an element of the interpreter's stack. -/
abbrev valtype := List UInt8

/-- `opcodetype`: a script byte read as an instruction. -/
abbrev opcodetype := UInt8

@[match_pattern] def OP_0 : opcodetype := 0x00
@[match_pattern] def OP_PUSHDATA1 : opcodetype := 0x4c
@[match_pattern] def OP_PUSHDATA2 : opcodetype := 0x4d
@[match_pattern] def OP_PUSHDATA4 : opcodetype := 0x4e
@[match_pattern] def OP_1NEGATE : opcodetype := 0x4f
@[match_pattern] def OP_1 : opcodetype := 0x51
@[match_pattern] def OP_2 : opcodetype := 0x52
@[match_pattern] def OP_3 : opcodetype := 0x53
@[match_pattern] def OP_4 : opcodetype := 0x54
@[match_pattern] def OP_5 : opcodetype := 0x55
@[match_pattern] def OP_6 : opcodetype := 0x56
@[match_pattern] def OP_7 : opcodetype := 0x57
@[match_pattern] def OP_8 : opcodetype := 0x58
@[match_pattern] def OP_9 : opcodetype := 0x59
@[match_pattern] def OP_10 : opcodetype := 0x5a
@[match_pattern] def OP_11 : opcodetype := 0x5b
@[match_pattern] def OP_12 : opcodetype := 0x5c
@[match_pattern] def OP_13 : opcodetype := 0x5d
@[match_pattern] def OP_14 : opcodetype := 0x5e
@[match_pattern] def OP_15 : opcodetype := 0x5f
@[match_pattern] def OP_16 : opcodetype := 0x60
@[match_pattern] def OP_NOP : opcodetype := 0x61
@[match_pattern] def OP_IF : opcodetype := 0x63
@[match_pattern] def OP_NOTIF : opcodetype := 0x64
@[match_pattern] def OP_ELSE : opcodetype := 0x67
@[match_pattern] def OP_ENDIF : opcodetype := 0x68
@[match_pattern] def OP_VERIFY : opcodetype := 0x69
@[match_pattern] def OP_TOALTSTACK : opcodetype := 0x6b
@[match_pattern] def OP_FROMALTSTACK : opcodetype := 0x6c
@[match_pattern] def OP_2DROP : opcodetype := 0x6d
@[match_pattern] def OP_2DUP : opcodetype := 0x6e
@[match_pattern] def OP_3DUP : opcodetype := 0x6f
@[match_pattern] def OP_2OVER : opcodetype := 0x70
@[match_pattern] def OP_2ROT : opcodetype := 0x71
@[match_pattern] def OP_2SWAP : opcodetype := 0x72
@[match_pattern] def OP_IFDUP : opcodetype := 0x73
@[match_pattern] def OP_DEPTH : opcodetype := 0x74
@[match_pattern] def OP_DROP : opcodetype := 0x75
@[match_pattern] def OP_DUP : opcodetype := 0x76
@[match_pattern] def OP_NIP : opcodetype := 0x77
@[match_pattern] def OP_OVER : opcodetype := 0x78
@[match_pattern] def OP_PICK : opcodetype := 0x79
@[match_pattern] def OP_ROLL : opcodetype := 0x7a
@[match_pattern] def OP_ROT : opcodetype := 0x7b
@[match_pattern] def OP_SWAP : opcodetype := 0x7c
@[match_pattern] def OP_TUCK : opcodetype := 0x7d
@[match_pattern] def OP_CAT : opcodetype := 0x7e
@[match_pattern] def OP_SUBSTR : opcodetype := 0x7f
@[match_pattern] def OP_LEFT : opcodetype := 0x80
@[match_pattern] def OP_RIGHT : opcodetype := 0x81
@[match_pattern] def OP_SIZE : opcodetype := 0x82
@[match_pattern] def OP_INVERT : opcodetype := 0x83
@[match_pattern] def OP_AND : opcodetype := 0x84
@[match_pattern] def OP_OR : opcodetype := 0x85
@[match_pattern] def OP_XOR : opcodetype := 0x86
@[match_pattern] def OP_EQUAL : opcodetype := 0x87
@[match_pattern] def OP_EQUALVERIFY : opcodetype := 0x88
@[match_pattern] def OP_1ADD : opcodetype := 0x8b
@[match_pattern] def OP_1SUB : opcodetype := 0x8c
@[match_pattern] def OP_2MUL : opcodetype := 0x8d
@[match_pattern] def OP_2DIV : opcodetype := 0x8e
@[match_pattern] def OP_NEGATE : opcodetype := 0x8f
@[match_pattern] def OP_ABS : opcodetype := 0x90
@[match_pattern] def OP_NOT : opcodetype := 0x91
@[match_pattern] def OP_0NOTEQUAL : opcodetype := 0x92
@[match_pattern] def OP_ADD : opcodetype := 0x93
@[match_pattern] def OP_SUB : opcodetype := 0x94
@[match_pattern] def OP_MUL : opcodetype := 0x95
@[match_pattern] def OP_DIV : opcodetype := 0x96
@[match_pattern] def OP_MOD : opcodetype := 0x97
@[match_pattern] def OP_LSHIFT : opcodetype := 0x98
@[match_pattern] def OP_RSHIFT : opcodetype := 0x99
@[match_pattern] def OP_BOOLAND : opcodetype := 0x9a
@[match_pattern] def OP_BOOLOR : opcodetype := 0x9b
@[match_pattern] def OP_NUMEQUAL : opcodetype := 0x9c
@[match_pattern] def OP_NUMEQUALVERIFY : opcodetype := 0x9d
@[match_pattern] def OP_NUMNOTEQUAL : opcodetype := 0x9e
@[match_pattern] def OP_LESSTHAN : opcodetype := 0x9f
@[match_pattern] def OP_GREATERTHAN : opcodetype := 0xa0
@[match_pattern] def OP_LESSTHANOREQUAL : opcodetype := 0xa1
@[match_pattern] def OP_GREATERTHANOREQUAL : opcodetype := 0xa2
@[match_pattern] def OP_MIN : opcodetype := 0xa3
@[match_pattern] def OP_MAX : opcodetype := 0xa4
@[match_pattern] def OP_WITHIN : opcodetype := 0xa5
@[match_pattern] def OP_RIPEMD160 : opcodetype := 0xa6
@[match_pattern] def OP_SHA1 : opcodetype := 0xa7
@[match_pattern] def OP_SHA256 : opcodetype := 0xa8
@[match_pattern] def OP_HASH160 : opcodetype := 0xa9
@[match_pattern] def OP_HASH256 : opcodetype := 0xaa
@[match_pattern] def OP_CODESEPARATOR : opcodetype := 0xab
@[match_pattern] def OP_CHECKSIG : opcodetype := 0xac
@[match_pattern] def OP_CHECKSIGVERIFY : opcodetype := 0xad
@[match_pattern] def OP_CHECKMULTISIG : opcodetype := 0xae
@[match_pattern] def OP_CHECKMULTISIGVERIFY : opcodetype := 0xaf
@[match_pattern] def OP_NOP1 : opcodetype := 0xb0
@[match_pattern] def OP_CHECKLOCKTIMEVERIFY : opcodetype := 0xb1
@[match_pattern] def OP_CHECKSEQUENCEVERIFY : opcodetype := 0xb2
@[match_pattern] def OP_NOP4 : opcodetype := 0xb3
@[match_pattern] def OP_ZENREPLAY : opcodetype := 0xb4
@[match_pattern] def OP_NOP6 : opcodetype := 0xb5
@[match_pattern] def OP_NOP7 : opcodetype := 0xb6
@[match_pattern] def OP_NOP8 : opcodetype := 0xb7
@[match_pattern] def OP_NOP9 : opcodetype := 0xb8
@[match_pattern] def OP_NOP10 : opcodetype := 0xb9
@[match_pattern] def OP_INVALIDOPCODE : opcodetype := 0xff

def MAX_SCRIPT_ELEMENT_SIZE : Nat := 520

def MAX_OPS_PER_SCRIPT : Nat := 201

def MAX_PUBKEYS_PER_MULTISIG : Nat := 20

def MAX_STACK_SIZE : Nat := 1000

/-! ## Reading instructions -/

/-- The size of the data a push instruction carries: the opcode itself below
    `OP_PUSHDATA1`, else the 1, 2 or 4 little-endian bytes after it. -/
def pushSize (opcode : opcodetype) (pc : List UInt8) : Option (Nat × List UInt8) :=
  if opcode < OP_PUSHDATA1 then some (opcode.toNat,pc)
  else if opcode == OP_PUSHDATA1 then if pc.length < 1 then none else some (leValue (pc.take 1),pc.drop 1)
  else if opcode == OP_PUSHDATA2 then if pc.length < 2 then none else some (leValue (pc.take 2),pc.drop 2)
  else if opcode == OP_PUSHDATA4 then if pc.length < 4 then none else some (leValue (pc.take 4),pc.drop 4)
  else some (0,pc)

/-- `GetScriptOp`: the instruction at the front of the bytes, the data it pushes
    and the bytes after it; `none` where the source returns false. -/
def GetScriptOp : List UInt8 → Option (opcodetype × valtype × List UInt8)
  | [] => none
  | opcode :: pc =>
    if opcode ≤ OP_PUSHDATA4 then
      match pushSize opcode pc with
      | none => none
      | some (nSize,pc) => if pc.length < nSize then none else some (opcode,pc.take nSize,pc.drop nSize)
    else some (opcode,[],pc)

/-- A loop of `GetOp` from the front of the bytes: the instructions it reads, and
    whether it reached the end (`false`: a read failed). A read consumes at least a
    byte, so the fuel `ScriptOps` gives, the length, never runs out. -/
def readOps : Nat → List UInt8 → List (opcodetype × valtype) × Bool
  | _, [] => ([],true)
  | 0, _ :: _ => ([],false)
  | fuel+1, pc@(_ :: _) =>
    match GetScriptOp pc with
    | none => ([],false)
    | some (opcode,data,pc) =>
      let (ops,complete) := readOps fuel pc
      ((opcode,data) :: ops,complete)

/-- The instructions of a script, and whether every one of them reads. -/
def ScriptOps (script : CScript) : List (opcodetype × valtype) × Bool := readOps script.length script

/-! ## Numbers -/

/-- `CScriptNum::nDefaultMaxNumSize`. -/
def nDefaultMaxNumSize : Nat := 4

namespace CScriptNum

/-- `set_vch`: the bytes little endian, the top bit of the last byte the sign. -/
def set_vch (vch : valtype) : Int :=
  match vch.getLast? with
  | none => 0
  | some last =>
    if last &&& 0x80 != 0 then -((leValue vch - 0x80 * 256^(vch.length-1) : Nat) : Int)
    else leValue vch

/-- The test of the constructor with `fRequireMinimal`: the last byte, without
    its sign bit, is zero, and does not hold the sign of a second-to-last byte
    whose top bit is set. -/
def nonMinimal (vch : valtype) : Bool :=
  match vch.reverse with
  | [] => false
  | [last] => last &&& 0x7f == 0
  | last :: second :: _ => last &&& 0x7f == 0 && second &&& 0x80 == 0

/-- The constructor from a stack element; `none` where it throws `scriptnum_error`. -/
def ofVch (vch : valtype) (fRequireMinimal : Bool) (nMaxNumSize : Nat) : Option Int :=
  if vch.length > nMaxNumSize then none
  else if fRequireMinimal && nonMinimal vch then none
  else some (set_vch vch)

/-- The bytes of the `uint64_t` loop of `serialize`, least significant first, for
    at most `fuel` bytes: eight for the 64-bit absolute value. -/
def absBytes : Nat → Nat → List UInt8
  | 0, _ => []
  | fuel+1, absvalue => if absvalue = 0 then [] else UInt8.ofNat (absvalue % 256) :: absBytes fuel (absvalue / 256)

/-- `serialize`: the shortest little-endian bytes with the sign in the top bit
    of the last byte, which gets a byte of its own where the top bit of the
    magnitude is set. -/
def serialize (value : Int) : valtype :=
  if value = 0 then [] else
  let neg := value < 0
  let result := absBytes 8 value.natAbs
  match result.getLast? with
  | none => []
  | some back =>
    if back &&& 0x80 != 0 then result ++ [if neg then 0x80 else 0]
    else if neg then result.dropLast ++ [back ||| 0x80]
    else result

/-- `getint`: the value clamped to the range of `int`. -/
def getint (m_value : Int) : Int :=
  if m_value > 2^31 - 1 then 2^31 - 1 else if m_value < -2^31 then -2^31 else m_value

end CScriptNum

/-! ## Shapes of scripts -/

namespace CScript

/-- `DecodeOP_N`, at `OP_0` or one of `OP_1` to `OP_16`, as every call has it. -/
def DecodeOP_N (opcode : opcodetype) : Nat :=
  if opcode == OP_0 then 0 else opcode.toNat - (OP_1.toNat - 1)

/-- `operator<<(const std::vector<unsigned char>&)` on the empty script: the
    shortest push of the bytes. -/
def pushData (b : valtype) : CScript :=
  (if b.length < OP_PUSHDATA1.toNat then [UInt8.ofNat b.length]
   else if b.length ≤ 0xff then [OP_PUSHDATA1,UInt8.ofNat b.length]
   else if b.length ≤ 0xffff then OP_PUSHDATA2 :: leBytes b.length 2
   else OP_PUSHDATA4 :: leBytes b.length 4) ++ b

/-- `IsPayToScriptHash`: `OP_HASH160`, a push of 20 bytes and `OP_EQUAL`. -/
def IsPayToScriptHash (script : CScript) : Bool :=
  script.length == 23 && script[0]? == some OP_HASH160 && script[1]? == some 0x14 && script[22]? == some OP_EQUAL

/-- `IsWitnessProgram`: the version and the program of a script that is a
    version opcode followed by one push of 2 to 40 bytes. -/
def IsWitnessProgram (script : CScript) : Option (Nat × List UInt8) :=
  if script.length < 4 || script.length > 42 then none
  else
    match script with
    | version :: size :: _ =>
      if version != OP_0 && (version < OP_1 || version > OP_16) then none
      else if size.toNat + 2 == script.length then some (DecodeOP_N version,script.drop 2)
      else none
    | _ => none

/-- `IsPushOnly`: every instruction reads and is a push, `OP_RESERVED` included. -/
def IsPushOnly (script : CScript) : Bool :=
  (ScriptOps script).2 && (ScriptOps script).1.all fun (opcode,_) => opcode ≤ OP_16

/-- The loop of `GetSigOpCount(bool)` over the instructions that read, with the
    opcode before them. -/
def countSigOps (fAccurate : Bool) (lastOpcode : opcodetype) : List (opcodetype × valtype) → Nat
  | [] => 0
  | (opcode,_) :: ops =>
    (if opcode == OP_CHECKSIG || opcode == OP_CHECKSIGVERIFY then 1
     else if opcode == OP_CHECKMULTISIG || opcode == OP_CHECKMULTISIGVERIFY then
       if fAccurate && OP_1 ≤ lastOpcode && lastOpcode ≤ OP_16 then DecodeOP_N lastOpcode else MAX_PUBKEYS_PER_MULTISIG
     else 0) + countSigOps fAccurate opcode ops

/-- `GetSigOpCount(bool fAccurate)`: every `CHECKSIG` counts one, every
    `CHECKMULTISIG` twenty, or with `fAccurate` the key count pushed just before
    it. The count stops at the first instruction that does not read. -/
def GetSigOpCount (script : CScript) (fAccurate : Bool) : Nat :=
  countSigOps fAccurate OP_INVALIDOPCODE (ScriptOps script).1

/-- The data of the last instruction, which is the last item a push-only script
    pushes: what `GetOp` left in its data argument after the loop. -/
def lastPushData (scriptSig : CScript) : valtype :=
  ((ScriptOps scriptSig).1.getLast?.map Prod.snd).getD []

/-- `GetSigOpCount(const CScript& scriptSig)`: for pay-to-script-hash, the
    accurate count of the redeem script that the push-only `scriptSig` pushes
    last, and 0 if it is not push-only. -/
def GetSigOpCountWithScriptSig (scriptPubKey scriptSig : CScript) : Nat :=
  if !scriptPubKey.IsPayToScriptHash then scriptPubKey.GetSigOpCount true
  else if !(ScriptOps scriptSig).2 || (ScriptOps scriptSig).1.any (fun (opcode,_) => opcode > OP_16) then 0
  else GetSigOpCount (lastPushData scriptSig) true

end CScript

/-! ## A version 0 program of 32 bytes -/

section
variable {program : List UInt8} (sized : program.length = 32)
include sized

/-- The output script `OP_0 <program>` reads as the two pushes. -/
theorem ScriptOps_witnessProgram : ScriptOps (OP_0 :: CScript.pushData program) = ([(OP_0,[]),(32,program)],true) := by
  have whole : program.take 32 = program := List.take_of_length_le (by omega)
  have consumed : program.drop 32 = [] := List.drop_of_length_le (by omega)
  have zero : OP_0.toNat = 0 := rfl
  simp +decide [ScriptOps,CScript.pushData,readOps,GetScriptOp,pushSize,sized,zero,whole,consumed]

theorem IsWitnessProgram_witnessProgram :
    CScript.IsWitnessProgram (OP_0 :: CScript.pushData program) = some (0,program) := by
  simp +decide [CScript.IsWitnessProgram,CScript.pushData,sized,CScript.DecodeOP_N]

theorem IsPayToScriptHash_witnessProgram : CScript.IsPayToScriptHash (OP_0 :: CScript.pushData program) = false := by
  simp [CScript.IsPayToScriptHash,CScript.pushData,sized]

end

end BitcoinPrivate
