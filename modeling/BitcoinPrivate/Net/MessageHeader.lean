import BitcoinPrivate.Primitives.TransactionCodec

/-!
The message header of `protocol.h`: four bytes of network magic, a command of
twelve characters padded with zeros, the payload's size and the first four
bytes of the payload's hash. The header a sender builds (`ofCommand`) reads
back from its 24 bytes (`parse_Serialize`); it passes `IsValid` exactly when
the characters of its command are printable and its size is at most
`MAX_SIZE` (`IsValid_ofCommand`), and `GetCommand` gives the command back cut
at its first zero and at twelve characters (`GetCommand_ofCommand`).
-/
namespace BitcoinPrivate.Net
open StreamReader

def MESSAGE_START_SIZE : Nat := 4
def COMMAND_SIZE : Nat := 12
def MESSAGE_SIZE_SIZE : Nat := 4
def CHECKSUM_SIZE : Nat := 4
def HEADER_SIZE : Nat := MESSAGE_START_SIZE + COMMAND_SIZE + MESSAGE_SIZE_SIZE + CHECKSUM_SIZE

/-- `MAX_PROTOCOL_MESSAGE_LENGTH` of `net.h`. -/
def MAX_PROTOCOL_MESSAGE_LENGTH : Nat := 8 * 1000 * 1000

/-- `strncpy(dest, src, n)` into a zeroed `dest`: the bytes of `src` before its
    first zero, at most `n` of them, then zeros. -/
def strncpy (src : List UInt8) (n : Nat) : Vector UInt8 n :=
  ⟨(((src.takeWhile (· != 0)).take n).rightpad n 0).toArray,by simp [List.rightpad]⟩

/-- `CMessageHeader`; `char` arrays are bytes. -/
structure CMessageHeader where
  pchMessageStart : Vector UInt8 MESSAGE_START_SIZE
  pchCommand : Vector UInt8 COMMAND_SIZE
  nMessageSize : UInt32
  pchChecksum : Vector UInt8 CHECKSUM_SIZE
  deriving DecidableEq, Repr

namespace CMessageHeader

/-- `CMessageHeader(pchMessageStartIn)`: `nMessageSize = -1` as unsigned. -/
def init (pchMessageStartIn : Vector UInt8 MESSAGE_START_SIZE) : CMessageHeader :=
  ⟨pchMessageStartIn,Vector.replicate COMMAND_SIZE 0,0xFFFFFFFF,Vector.replicate CHECKSUM_SIZE 0⟩

/-- `CMessageHeader(pchMessageStartIn, pszCommand, nMessageSizeIn)`. -/
def ofCommand (pchMessageStartIn : Vector UInt8 MESSAGE_START_SIZE) (pszCommand : List UInt8) (nMessageSizeIn : UInt32) :
    CMessageHeader :=
  ⟨pchMessageStartIn,strncpy pszCommand COMMAND_SIZE,nMessageSizeIn,Vector.replicate CHECKSUM_SIZE 0⟩

/-- `GetCommand`: the command up to its first zero (`strnlen`). -/
def GetCommand (hdr : CMessageHeader) : List UInt8 := hdr.pchCommand.toList.takeWhile (· != 0)

/-- The command loop of `IsValid`. `char` is signed in the source: a byte of
    `0x80` or more is negative there and fails `*p1 < ' '`, as it fails
    `*p1 > 0x7E` here. -/
def commandValid : List UInt8 → Bool
  | [] => true
  | c :: rest =>
    if c == 0 then rest.all (· == 0)
    else if c < 0x20 || 0x7E < c then false
    else commandValid rest

/-- `IsValid`: the magic, the command, and `nMessageSize ≤ MAX_SIZE`. -/
def IsValid (hdr : CMessageHeader) (pchMessageStartIn : Vector UInt8 MESSAGE_START_SIZE) : Bool :=
  hdr.pchMessageStart == pchMessageStartIn && commandValid hdr.pchCommand.toList && hdr.nMessageSize.toNat ≤ MAX_SIZE

/-- `SerializationOp` when writing: the arrays as raw bytes, then the size and
    the checksum. -/
def Serialize (hdr : CMessageHeader) : List UInt8 :=
  hdr.pchMessageStart.toList ++ hdr.pchCommand.toList ++ serUInt32 hdr.nMessageSize ++ hdr.pchChecksum.toList

/-- `SerializationOp` when reading. -/
def Unserialize : Reader UInt8 CMessageHeader := do
  let pchMessageStart ← takeVector endOfData MESSAGE_START_SIZE
  let pchCommand ← takeVector endOfData COMMAND_SIZE
  let nMessageSize ← unserializeUInt32
  let pchChecksum ← takeVector endOfData CHECKSUM_SIZE
  pure ⟨pchMessageStart,pchCommand,nMessageSize,pchChecksum⟩

/-- `hdrbuf >> hdr`: the header read off a buffer, if one is read. -/
def parse (hdrbuf : List UInt8) : Option CMessageHeader :=
  match Unserialize.run hdrbuf with
  | .ok (hdr,_) => some hdr
  | .error _ => none

theorem Unserialize_reads (hdr : CMessageHeader) : Reads Unserialize hdr hdr.Serialize := by
  have start := Reads.takeVector endOfData hdr.pchMessageStart
  have command := Reads.takeVector endOfData hdr.pchCommand
  have size := unserializeUInt32_reads hdr.nMessageSize
  have checksum := Reads.takeVector endOfData hdr.pchChecksum
  rw [Serialize,List.append_assoc,List.append_assoc]
  exact start.bind (command.bind (size.bind (checksum.bind_pure rfl)))

@[simp] theorem length_Serialize (hdr : CMessageHeader) : hdr.Serialize.length = HEADER_SIZE := by
  simp only [Serialize,List.length_append,Vector.length_toList,serUInt32,ser_writedata32,LittleEndian.leBytes_length]
  rfl

theorem parse_Serialize (hdr : CMessageHeader) : parse hdr.Serialize = some hdr := by
  have read := Unserialize_reads hdr []
  rw [List.append_nil] at read
  rw [parse,read]

/-! ## Commands made by `strncpy` -/

/-- A byte the command loop accepts in front of the first zero. -/
def printable (c : UInt8) : Bool := !(c < 0x20 || 0x7E < c)

theorem commandValid_append_zeros : ∀ (cmd : List UInt8), (∀ c ∈ cmd, c ≠ 0) → ∀ k,
    commandValid (cmd ++ List.replicate k 0) = cmd.all printable
  | [], _, 0 => rfl
  | [], _, k+1 => by
    rw [List.nil_append,List.replicate_succ,commandValid]
    simp
  | c :: cmd, nonzero, k => by
    have head : (c == 0) = false := by simpa using nonzero c List.mem_cons_self
    rw [List.cons_append,commandValid,if_neg (by simp [head]),List.all_cons,printable,
      commandValid_append_zeros cmd (fun c' mem => nonzero c' (List.mem_cons_of_mem c mem)) k]
    by_cases bad : (c < 0x20 || 0x7E < c) = true
    · rw [if_pos bad,bad]
      rfl
    · rw [if_neg bad,Bool.eq_false_iff.mpr bad]
      rfl

/-- The bytes `strncpy` copies: the command before its first zero, at most `n`. -/
def copied (pszCommand : List UInt8) (n : Nat) : List UInt8 := (pszCommand.takeWhile (· != 0)).take n

theorem copied_ne_zero {pszCommand : List UInt8} {n : Nat} : ∀ c ∈ copied pszCommand n, c ≠ 0 := by
  intro c mem
  have := List.mem_takeWhile_imp (List.mem_of_mem_take mem)
  simpa using this

theorem length_copied_le (pszCommand : List UInt8) (n : Nat) : (copied pszCommand n).length ≤ n := by
  simp [copied]

theorem toList_strncpy (pszCommand : List UInt8) (n : Nat) :
    (strncpy pszCommand n).toList = copied pszCommand n ++ List.replicate (n - (copied pszCommand n).length) 0 := by
  simp [strncpy,List.rightpad,copied,Vector.toList]

theorem takeWhile_append_zeros : ∀ (cmd : List UInt8), (∀ c ∈ cmd, c ≠ 0) → ∀ k,
    (cmd ++ List.replicate k 0).takeWhile (· != 0) = cmd
  | [], _, 0 => rfl
  | [], _, k+1 => by simp [List.replicate_succ]
  | c :: cmd, nonzero, k => by
    have head : (c != 0) = true := by simpa using nonzero c List.mem_cons_self
    rw [List.cons_append,List.takeWhile_cons_of_pos (p := fun x => x != 0) head,
      takeWhile_append_zeros cmd (fun c' mem => nonzero c' (List.mem_cons_of_mem c mem)) k]

/-- The command a receiver reads is the one the sender gave, cut at its first
    zero and at twelve characters. -/
theorem GetCommand_ofCommand (pchMessageStartIn : Vector UInt8 MESSAGE_START_SIZE) (pszCommand : List UInt8)
    (nMessageSizeIn : UInt32) :
    (ofCommand pchMessageStartIn pszCommand nMessageSizeIn).GetCommand = copied pszCommand COMMAND_SIZE := by
  rw [GetCommand,ofCommand,toList_strncpy]
  exact takeWhile_append_zeros _ copied_ne_zero _

theorem commandValid_strncpy (pszCommand : List UInt8) (n : Nat) :
    commandValid (strncpy pszCommand n).toList = (copied pszCommand n).all printable := by
  rw [toList_strncpy]
  exact commandValid_append_zeros _ copied_ne_zero _

/-- A header a sender builds, with any checksum, is valid at its own magic
    exactly when its command is printable and its size is at most `MAX_SIZE`. -/
theorem IsValid_ofCommand (pchMessageStartIn : Vector UInt8 MESSAGE_START_SIZE) (pszCommand : List UInt8)
    (nMessageSizeIn : UInt32) (checksum : Vector UInt8 CHECKSUM_SIZE) :
    { ofCommand pchMessageStartIn pszCommand nMessageSizeIn with pchChecksum := checksum }.IsValid pchMessageStartIn =
      ((copied pszCommand COMMAND_SIZE).all printable && decide (nMessageSizeIn.toNat ≤ MAX_SIZE)) := by
  simp only [IsValid,ofCommand,beq_self_eq_true,Bool.true_and,commandValid_strncpy]
  rfl

end CMessageHeader

end BitcoinPrivate.Net
