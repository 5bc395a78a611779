import BitcoinPrivate.Primitives.Unserialize

/-!
`VARINT` of `serialize.h`: a number as base-128 digits, most significant
first, each digit but the last with its high bit set. A digit before the last
stands for one more than it shows, so the writer takes one off the rest
before each further digit (`(n >> 7) - 1`) and the reader adds it back. The
reader of an integer type whose largest value is `max` refuses a number that
would not fit. A number up to `max` reads back from its digits
(`ReadVarInt_WriteVarInt`), whatever the reader accepts is the digits of what
it returns (`readVarIntFrom_canonical`), and at the width of a type the reader's
checks come before any shift or increment that would wrap (`readVarIntWord_eq`).
-/
namespace BitcoinPrivate
open StreamReader

/-- The loop of `WriteVarInt`: `tmp` holds the digits made so far, the last
    made first, which is the order the `do`-`while` writes them in. -/
def writeVarIntLoop (n len : Nat) (tmp : List UInt8) : List UInt8 :=
  let tmp := ((n &&& 0x7F) ||| (if len ≠ 0 then 0x80 else 0x00)).toUInt8 :: tmp
  if n ≤ 0x7F then tmp else writeVarIntLoop ((n >>> 7) - 1) (len + 1) tmp
termination_by n
decreasing_by
  rw [Nat.shiftRight_eq_div_pow]
  omega

/-- `WriteVarInt`. -/
def WriteVarInt (n : Nat) : List UInt8 := writeVarIntLoop n 0 []

/-- The loop of `GetSizeOfVarInt`, with `nRet` digits counted. -/
def getSizeOfVarIntLoop (n nRet : Nat) : Nat :=
  let nRet := nRet + 1
  if n ≤ 0x7F then nRet else getSizeOfVarIntLoop ((n >>> 7) - 1) nRet
termination_by n
decreasing_by rw [Nat.shiftRight_eq_div_pow]; omega

/-- `GetSizeOfVarInt`. -/
def GetSizeOfVarInt (n : Nat) : Nat := getSizeOfVarIntLoop n 0

/-- The loop of `ReadVarInt` for an integer type whose largest value is `max`,
    with `n` read so far: a byte whose high bit is set adds one and goes on. -/
def readVarIntFrom (max n : Nat) : List UInt8 → Except String (Nat × List UInt8)
  | [] => .error endOfData
  | chData :: s =>
    if n > max >>> 7 then .error "ReadVarInt(): size too large"
    else
      let n := (n <<< 7) ||| (chData.toNat &&& 0x7F)
      if chData.toNat &&& 0x80 ≠ 0 then
        if n = max then .error "ReadVarInt(): size too large" else readVarIntFrom max (n + 1) s
      else .ok (n,s)

/-- `ReadVarInt` for an integer type whose largest value is `max`. -/
def ReadVarInt (max : Nat) : Reader UInt8 Nat := fun s => readVarIntFrom max 0 s

/-- The loop of `ReadVarInt` at an integer type of `w` bits, whose shift and
    increment keep the low `w` bits. -/
def readVarIntWord (w n : Nat) : List UInt8 → Except String (Nat × List UInt8)
  | [] => .error endOfData
  | chData :: s =>
    if n > (2^w - 1) >>> 7 then .error "ReadVarInt(): size too large"
    else
      let n := ((n <<< 7) ||| (chData.toNat &&& 0x7F)) % 2^w
      if chData.toNat &&& 0x80 ≠ 0 then
        if n = 2^w - 1 then .error "ReadVarInt(): size too large" else readVarIntWord w ((n + 1) % 2^w) s
      else .ok (n,s)

/-! ## The digits -/

/-- The digit of `r` with the high bit `flag`. -/
theorem digit_flagged : ∀ r < 128, ((r ||| 0x80).toUInt8.toNat &&& 0x7F) = r ∧ ((r ||| 0x80).toUInt8.toNat &&& 0x80) ≠ 0 := by
  decide

theorem digit_last : ∀ r < 128, ((r ||| 0x00).toUInt8.toNat &&& 0x7F) = r ∧ ((r ||| 0x00).toUInt8.toNat &&& 0x80) = 0 := by
  decide

/-- The digits below the top are the rest's, less one, with the low seven bits after them. -/
theorem shiftRight_seven_or (m : Nat) : ((m >>> 7) <<< 7) ||| (m &&& 0x7F) = m := by
  rw [← Nat.shiftLeft_add_eq_or_of_lt (by rw [show (0x7F : Nat) = 2^7 - 1 by rfl,Nat.and_two_pow_sub_one_eq_mod]; omega),
    show (0x7F : Nat) = 2^7 - 1 by rfl,Nat.and_two_pow_sub_one_eq_mod,Nat.shiftLeft_eq,Nat.shiftRight_eq_div_pow]
  omega

/-- The loop puts its digits in front of those made before it. -/
theorem writeVarIntLoop_append (n len : Nat) (tmp : List UInt8) :
    writeVarIntLoop n len tmp = writeVarIntLoop n len [] ++ tmp := by
  rw [writeVarIntLoop.eq_1 n len tmp,writeVarIntLoop.eq_1 n len []]
  generalize ((n &&& 0x7F) ||| (if len ≠ 0 then 0x80 else 0x00)).toUInt8 = digit
  split_ifs with last
  · rfl
  · rw [writeVarIntLoop_append ((n >>> 7) - 1) (len + 1) (digit :: tmp),
      writeVarIntLoop_append ((n >>> 7) - 1) (len + 1) [digit],List.append_assoc]
    rfl
termination_by n
decreasing_by all_goals rw [Nat.shiftRight_eq_div_pow]; omega

theorem and_seven_bits (m : Nat) : m &&& 0x7F = m % 128 := Nat.and_two_pow_sub_one_eq_mod m 7

/-- The digits of a number below `max` written after the first, all flagged,
    leave one more than they carry to go on with. The induction follows the
    writer's loop. -/
theorem readVarIntFrom_flagged {max : Nat} (m len : Nat) (below : m < max) (rest : List UInt8) :
    readVarIntFrom max 0 (writeVarIntLoop m (len + 1) [] ++ rest) = readVarIntFrom max (m + 1) rest := by
  rw [writeVarIntLoop.eq_1 m (len + 1) [],if_pos (Nat.add_one_ne_zero len),and_seven_bits]
  obtain ⟨low,flag⟩ := digit_flagged (m % 128) (Nat.mod_lt _ (by norm_num))
  split_ifs with last
  · rw [List.cons_append,List.nil_append,readVarIntFrom,if_neg (Nat.not_lt_zero _)]
    dsimp only
    rw [Nat.zero_shiftLeft,Nat.zero_or,low,if_pos flag,Nat.mod_eq_of_lt (show m < 128 by omega),if_neg (by omega)]
  · -- the digits of the rest, less one, come first
    have high : (m >>> 7) - 1 + 1 = m >>> 7 := by rw [Nat.shiftRight_eq_div_pow]; omega
    have fits : ¬m >>> 7 > max >>> 7 := by
      rw [Nat.shiftRight_eq_div_pow,Nat.shiftRight_eq_div_pow]
      exact Nat.not_lt.mpr (Nat.div_le_div_right below.le)
    rw [writeVarIntLoop_append,List.append_assoc,List.singleton_append,
      readVarIntFrom_flagged ((m >>> 7) - 1) (len + 1) (by rw [Nat.shiftRight_eq_div_pow]; omega),high,
      readVarIntFrom,if_neg fits]
    dsimp only
    rw [low,if_pos flag,← and_seven_bits,shiftRight_seven_or,if_neg (by omega)]
termination_by m
decreasing_by rw [Nat.shiftRight_eq_div_pow]; omega

/-- A number below 128 is one digit. -/
theorem WriteVarInt_of_lt {n : Nat} (small : n < 128) : WriteVarInt n = [n.toUInt8] := by
  rw [WriteVarInt,writeVarIntLoop.eq_1 n 0 [],if_neg (show ¬(0 : Nat) ≠ 0 by decide),Nat.or_zero,and_seven_bits,
    if_pos (show n ≤ 0x7F by omega),Nat.mod_eq_of_lt small]

/-- A number up to the largest value of the integer type reads back from its
    `VARINT` digits. -/
theorem ReadVarInt_WriteVarInt {max n : Nat} (fits : n ≤ max) : Reads (ReadVarInt max) n (WriteVarInt n) := by
  intro rest
  show readVarIntFrom max 0 (WriteVarInt n ++ rest) = .ok (n,rest)
  rw [WriteVarInt,writeVarIntLoop.eq_1 n 0 [],if_neg (show ¬(0 : Nat) ≠ 0 by decide),Nat.or_zero,and_seven_bits]
  obtain ⟨low,flag⟩ := digit_last (n % 128) (Nat.mod_lt _ (by norm_num))
  rw [Nat.or_zero] at low flag
  split_ifs with last
  · show readVarIntFrom max 0 ((n % 128).toUInt8 :: rest) = .ok (n,rest)
    rw [readVarIntFrom,if_neg (Nat.not_lt_zero _)]
    dsimp only
    rw [Nat.zero_shiftLeft,Nat.zero_or,low,if_neg (not_not.mpr flag),Nat.mod_eq_of_lt (show n < 128 by omega)]
  · have high : (n >>> 7) - 1 + 1 = n >>> 7 := by rw [Nat.shiftRight_eq_div_pow]; omega
    have within : ¬n >>> 7 > max >>> 7 := by
      rw [Nat.shiftRight_eq_div_pow,Nat.shiftRight_eq_div_pow]
      exact Nat.not_lt.mpr (Nat.div_le_div_right fits)
    show readVarIntFrom max 0 (writeVarIntLoop ((n >>> 7) - 1) (0 + 1) [(n % 128).toUInt8] ++ rest) = .ok (n,rest)
    rw [writeVarIntLoop_append,List.append_assoc,List.singleton_append,
      readVarIntFrom_flagged ((n >>> 7) - 1) 0 (by rw [Nat.shiftRight_eq_div_pow]; omega),high,
      readVarIntFrom,if_neg within]
    dsimp only
    rw [low,if_neg (not_not.mpr flag),← and_seven_bits,shiftRight_seven_or]


/-! ## Sizes -/

theorem length_writeVarIntLoop (n len : Nat) (tmp : List UInt8) :
    (writeVarIntLoop n len tmp).length = getSizeOfVarIntLoop n tmp.length := by
  rw [writeVarIntLoop.eq_1,getSizeOfVarIntLoop.eq_1]
  generalize ((n &&& 0x7F) ||| (if len ≠ 0 then 0x80 else 0x00)).toUInt8 = digit
  split_ifs
  · rfl
  · rw [length_writeVarIntLoop]
    rfl
termination_by n
decreasing_by rw [Nat.shiftRight_eq_div_pow]; omega

theorem length_WriteVarInt (n : Nat) : (WriteVarInt n).length = GetSizeOfVarInt n :=
  length_writeVarIntLoop n 0 []

/-! ## One form for each number -/

/-- Past the first digit, the loop flags every digit whatever the count. -/
theorem writeVarIntLoop_succ (m len : Nat) (tmp : List UInt8) :
    writeVarIntLoop m (len + 1) tmp = writeVarIntLoop m 1 tmp := by
  rw [writeVarIntLoop.eq_1 m (len + 1),writeVarIntLoop.eq_1 m 1,if_pos (Nat.add_one_ne_zero len),
    if_pos one_ne_zero]
  split_ifs
  · rfl
  · rw [writeVarIntLoop_succ _ (len + 1),writeVarIntLoop_succ _ 1]
termination_by m
decreasing_by all_goals rw [Nat.shiftRight_eq_div_pow]; omega

theorem shiftLeft_seven_or {a low : Nat} (small : low < 128) : (a <<< 7) ||| low = a * 128 + low := by
  rw [← Nat.shiftLeft_add_eq_or_of_lt (by omega),Nat.shiftLeft_eq]

theorem flagged_digit_of_lt {low : Nat} (small : low < 128) :
    writeVarIntLoop low 1 [] = [(low ||| 0x80).toUInt8] := by
  rw [writeVarIntLoop.eq_1,if_pos one_ne_zero,and_seven_bits,Nat.mod_eq_of_lt small,if_pos (by omega)]

theorem flagged_digits (m : Nat) {low : Nat} (small : low < 128) :
    writeVarIntLoop ((m + 1) * 128 + low) 1 [] = writeVarIntLoop m 1 [] ++ [(low ||| 0x80).toUInt8] := by
  have high : ((m + 1) * 128 + low) >>> 7 - 1 = m := by rw [Nat.shiftRight_eq_div_pow]; omega
  rw [writeVarIntLoop.eq_1,if_pos one_ne_zero,and_seven_bits,if_neg (by omega),high,writeVarIntLoop_succ,
    writeVarIntLoop_append,show ((m + 1) * 128 + low) % 128 = low by omega]

theorem WriteVarInt_digits (m : Nat) {low : Nat} (small : low < 128) :
    WriteVarInt ((m + 1) * 128 + low) = writeVarIntLoop m 1 [] ++ [low.toUInt8] := by
  have high : ((m + 1) * 128 + low) >>> 7 - 1 = m := by rw [Nat.shiftRight_eq_div_pow]; omega
  rw [WriteVarInt,writeVarIntLoop.eq_1,if_neg (show ¬(0 : Nat) ≠ 0 by decide),Nat.or_zero,and_seven_bits,
    if_neg (show ¬(m + 1) * 128 + low ≤ 0x7F by omega),high,
    writeVarIntLoop_append,show ((m + 1) * 128 + low) % 128 = low by omega]

set_option maxRecDepth 4000 in
theorem byte_flagged (b : UInt8) (flag : b.toNat &&& 0x80 ≠ 0) : ((b.toNat &&& 0x7F) ||| 0x80).toUInt8 = b := by
  have same := (show ∀ r < 256, r &&& 0x80 ≠ 0 → (r &&& 0x7F) ||| 0x80 = r by decide) b.toNat b.toNat_lt flag
  rw [same]
  exact UInt8.ofNat_toNat

set_option maxRecDepth 4000 in
theorem byte_last (b : UInt8) (clear : ¬b.toNat &&& 0x80 ≠ 0) : b.toNat &&& 0x7F = b.toNat := by
  exact (show ∀ r < 256, ¬r &&& 0x80 ≠ 0 → r &&& 0x7F = r by decide) b.toNat b.toNat_lt clear

/-- The flagged digits a reader at `n` has gone past. -/
def readSoFar : Nat → List UInt8
  | 0 => []
  | m + 1 => writeVarIntLoop m 1 []

/-- What the reader accepts, after what it has read so far, is the writer's
    form of what it returns. The induction runs along the bytes read. -/
theorem readVarIntFrom_canonical {max : Nat} : ∀ {s : List UInt8} {a n : Nat} {rest : List UInt8},
    readVarIntFrom max a s = .ok (n,rest) → ∃ pre, s = pre ++ rest ∧ readSoFar a ++ pre = WriteVarInt n
  | [],_,_,_,read => by cases read
  | b :: s,a,n,rest,read => by
    have low : b.toNat &&& 0x7F < 128 := by rw [and_seven_bits]; omega
    rw [readVarIntFrom] at read
    dsimp only at read
    by_cases above : a > max >>> 7
    · rw [if_pos above] at read
      cases read
    rw [if_neg above] at read
    by_cases flag : b.toNat &&& 0x80 ≠ 0
    · -- a digit before the last: the rest is read from one more
      rw [if_pos flag] at read
      by_cases top : (a <<< 7 ||| b.toNat &&& 0x7F) = max
      · rw [if_pos top] at read
        cases read
      rw [if_neg top] at read
      obtain ⟨pre,rfl,sofar⟩ := readVarIntFrom_canonical read
      refine ⟨b :: pre,rfl,?_⟩
      rw [← sofar,readSoFar,shiftLeft_seven_or low,← List.singleton_append,← List.append_assoc]
      congr 1
      cases a with
      | zero => rw [Nat.zero_mul,Nat.zero_add,flagged_digit_of_lt low,byte_flagged b flag]; rfl
      | succ m => rw [flagged_digits m low,byte_flagged b flag]; rfl
    · -- the last digit
      rw [if_neg flag] at read
      obtain ⟨rfl,rfl⟩ := Prod.mk.inj (Except.ok.inj read)
      refine ⟨[b],rfl,?_⟩
      have small : b.toNat < 128 := by rw [← byte_last b flag]; exact low
      have same : b.toNat.toUInt8 = b := UInt8.ofNat_toNat
      rw [shiftLeft_seven_or low,byte_last b flag]
      cases a with
      | zero => rw [Nat.zero_mul,Nat.zero_add,WriteVarInt_of_lt small,readSoFar,List.nil_append,same]
      | succ m => rw [WriteVarInt_digits m small,readSoFar,same]

/-! ## No overflow at a fixed width -/

theorem shifted_le_max {w a low : Nat} (wide : 7 ≤ w) (fits : a ≤ (2^w - 1) >>> 7) (small : low < 128) :
    a * 128 + low ≤ 2^w - 1 := by
  have split : 2^w = 128 * 2^(w - 7) := by
    rw [← show 2^7 = 128 from rfl,← pow_add,Nat.add_sub_cancel' wide]
  have positive := Nat.two_pow_pos (w - 7)
  rw [Nat.shiftRight_eq_div_pow,split] at fits
  rw [split]
  omega

/-- At a width of seven bits or more, the reader computes in the type what it
    computes on numbers: the checks throw before a shift or an increment would
    leave the type. -/
theorem readVarIntWord_eq {w : Nat} (wide : 7 ≤ w) : ∀ (s : List UInt8) (n : Nat),
    readVarIntWord w n s = readVarIntFrom (2^w - 1) n s
  | [],_ => rfl
  | b :: s,n => by
    have low : b.toNat &&& 0x7F < 128 := by rw [and_seven_bits]; omega
    rw [readVarIntWord,readVarIntFrom]
    dsimp only
    by_cases above : n > (2^w - 1) >>> 7
    · rw [if_pos above,if_pos above]
    have fits := shifted_le_max wide (Nat.le_of_not_lt above) low
    have positive := Nat.two_pow_pos w
    rw [if_neg above,if_neg above,shiftLeft_seven_or low,Nat.mod_eq_of_lt (by omega)]
    by_cases flag : b.toNat &&& 0x80 ≠ 0
    · rw [if_pos flag,if_pos flag]
      by_cases top : n * 128 + (b.toNat &&& 0x7F) = 2^w - 1
      · rw [if_pos top,if_pos top]
      · rw [if_neg top,if_neg top,Nat.mod_eq_of_lt (by omega),readVarIntWord_eq wide s]
    · rw [if_neg flag,if_neg flag]

theorem readVarIntFrom_le {w : Nat} (wide : 7 ≤ w) : ∀ {s : List UInt8} {a n : Nat} {rest : List UInt8},
    readVarIntFrom (2^w - 1) a s = .ok (n,rest) → n ≤ 2^w - 1
  | [],_,_,_,read => by cases read
  | b :: s,a,n,rest,read => by
    have low : b.toNat &&& 0x7F < 128 := by rw [and_seven_bits]; omega
    rw [readVarIntFrom] at read
    dsimp only at read
    by_cases above : a > (2^w - 1) >>> 7
    · rw [if_pos above] at read
      cases read
    rw [if_neg above,shiftLeft_seven_or low] at read
    by_cases flag : b.toNat &&& 0x80 ≠ 0
    · rw [if_pos flag] at read
      by_cases top : a * 128 + (b.toNat &&& 0x7F) = 2^w - 1
      · rw [if_pos top] at read
        cases read
      · rw [if_neg top] at read
        exact readVarIntFrom_le wide read
    · rw [if_neg flag] at read
      obtain ⟨rfl,rfl⟩ := Prod.mk.inj (Except.ok.inj read)
      exact shifted_le_max wide (Nat.le_of_not_lt above) low
/-- `VARINT` and `CompactSize` are bijective codes. At every width a number of
    the type reads back from its `VARINT` digits, which are `GetSizeOfVarInt` of
    them, and whatever the reader accepts is those digits; every unsigned integer
    type has eight bits or more, and there the reader computes without wrapping
    and returns a value of the type. A size up to `MAX_SIZE` reads back from its
    `CompactSize` bytes, `GetSizeOfCompactSize` of them; whatever the reader
    accepts is that form, and a size behind a wider marker than it needs is
    refused. -/
theorem varint_compact_size_bijective :
    (∀ w n : Nat, n < 2^w →
      Reads (ReadVarInt (2^w - 1)) n (WriteVarInt n) ∧ (WriteVarInt n).length = GetSizeOfVarInt n) ∧
    (∀ (w : Nat) (s rest : List UInt8) (n : Nat), (ReadVarInt (2^w - 1)).run s = .ok (n,rest) →
      s = WriteVarInt n ++ rest) ∧
    (∀ w : Nat, 8 ≤ w → ∀ (s rest : List UInt8) (n : Nat),
      readVarIntWord w 0 s = (ReadVarInt (2^w - 1)).run s ∧
        ((ReadVarInt (2^w - 1)).run s = .ok (n,rest) → n < 2^w)) ∧
    (∀ n : Nat, n ≤ MAX_SIZE →
      Reads ReadCompactSize n (WriteCompactSize n) ∧ (WriteCompactSize n).length = GetSizeOfCompactSize n) ∧
    (∀ (s rest : List UInt8) (n : Nat), ReadCompactSize.run s = .ok (n,rest) → s = WriteCompactSize n ++ rest) ∧
    ∀ (marker w least v : Nat), ((marker,w,least) = (253,2,253) ∨ (marker,w,least) = (254,4,0x10000) ∨
      (marker,w,least) = (255,8,0x100000000)) → v < least → ∀ rest : List UInt8,
      ReadCompactSize.run (ser_writedata8 marker ++ LittleEndian.leBytes v w ++ rest) =
        .error "non-canonical ReadCompactSize()" := by
  refine ⟨fun w n fits => ⟨ReadVarInt_WriteVarInt (by omega),length_WriteVarInt n⟩,?_,?_,
    fun n small => ⟨ReadCompactSize_reads small,length_WriteCompactSize n⟩,
    fun s rest n read => ReadCompactSize_canonical read,
    fun marker w least v form small rest => ReadCompactSize_non_canonical form small rest⟩
  · intro w s rest n read
    obtain ⟨pre,rfl,sofar⟩ := readVarIntFrom_canonical read
    rw [← sofar]
    rfl
  · intro w wide s rest n
    have positive := Nat.two_pow_pos w
    exact ⟨readVarIntWord_eq (by omega) s 0,fun read => by have := readVarIntFrom_le (by omega) read; omega⟩

end BitcoinPrivate
