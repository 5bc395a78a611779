import BitcoinPrivate.Library.ByteFloat

/-!
The compact form of `arith_uint256.cpp`: a 256-bit number as an exponent byte
and a mantissa of 23 bits, with the bit between them as a sign. `GetCompact`
takes the number's top three bytes, a byte fewer where their top bit would be
the sign, and `SetCompact` shifts the mantissa back into place. Both are the
base-256 floating point of `ByteFloat` on the number's value
(`GetCompact_eq`, `SetCompact_toNat`), so a number reads back from its compact
form rounded down to the form's unit and its compact form reads back exactly.
-/
namespace BitcoinPrivate
open ByteFloat

/-- `arith_uint256`: a number of 256 bits, whose shifts are those of
    `base_uint`, which lose the bits shifted out. -/
abbrev arith_uint256 := BitVec 256

/-- The 32-bit word `pn[i]`. -/
def pn (x : arith_uint256) (i : Nat) : UInt32 := (x >>> (32 * i)).toNat.toUInt32

/-- The inner loop of `bits` on a word that is not zero: its bits from `nbits`
    down to bit 1, and bit 0 where none of those is set. -/
def highBit (w : UInt32) : Nat → Nat
  | 0 => 1
  | nbits+1 => if w &&& (1 <<< (nbits + 1).toUInt32) ≠ 0 then nbits + 2 else highBit w nbits

/-- The outer loop of `bits`: the words below `pos`, from the top. -/
def bitsBelow (x : arith_uint256) : Nat → Nat
  | 0 => 0
  | pos+1 => if pn x pos ≠ 0 then 32 * pos + highBit (pn x pos) 31 else bitsBelow x pos

/-- `base_uint::bits`: the position of the highest bit set, counted from one. -/
def bits (x : arith_uint256) : Nat := bitsBelow x 8

/-- `base_uint::GetLow64`. -/
def GetLow64 (x : arith_uint256) : UInt64 := (pn x 0).toUInt64 ||| ((pn x 1).toUInt64 <<< 32)

/-- `arith_uint256::SetCompact`: the number, and whether the form is negative
    and whether it overflows. For an exponent of at most three the word is
    shifted down first, and the two flags read the shifted word. -/
def SetCompact (nCompact : UInt32) : arith_uint256 × Bool × Bool :=
  let nSize := (nCompact >>> 24).toNat
  let nWord := nCompact &&& 0x007fffff
  let nWord := if nSize ≤ 3 then nWord >>> (8 * (3 - nSize)).toUInt32 else nWord
  let value : arith_uint256 :=
    if nSize ≤ 3 then BitVec.ofNat 256 nWord.toNat else BitVec.ofNat 256 nWord.toNat <<< (8 * (nSize - 3))
  let fNegative := nWord != 0 && nCompact &&& 0x00800000 != 0
  let fOverflow := nWord != 0 &&
    (decide (nSize > 34) || nWord > 0xff && decide (nSize > 33) || nWord > 0xffff && decide (nSize > 32))
  (value,fNegative,fOverflow)

/-- `arith_uint256::GetCompact`. -/
def GetCompact (x : arith_uint256) (fNegative : Bool) : Except String UInt32 := do
  let nSize := (bits x + 7) / 8
  let nCompact : UInt32 :=
    if nSize ≤ 3 then (GetLow64 x <<< (8 * (3 - nSize)).toUInt64).toUInt32
    else (GetLow64 (x >>> (8 * (nSize - 3)))).toUInt32
  -- The 0x00800000 bit denotes the sign.
  -- Thus, if it is already set, divide the mantissa by 256 and increase the exponent.
  let (nCompact,nSize) := if nCompact &&& 0x00800000 ≠ 0 then (nCompact >>> 8,nSize + 1) else (nCompact,nSize)
  if nCompact &&& ~~~0x007fffff ≠ 0 then throw "Assertion (nCompact & ~0x007fffff) == 0 failed"
  if ¬nSize < 256 then throw "Assertion nSize < 256 failed"
  let nCompact := nCompact ||| (nSize <<< 24).toUInt32
  pure (nCompact ||| if fNegative && nCompact &&& 0x007fffff != 0 then 0x00800000 else 0)

/-! ## `bits` is the bit length -/

theorem and_two_pow_ne_zero (n k : Nat) : n &&& 2^k ≠ 0 ↔ n / 2^k % 2 = 1 := by
  rw [Nat.and_two_pow,Nat.testBit_eq_decide_div_mod_eq]
  by_cases one : n / 2^k % 2 = 1 <;> simp [one]

/-- Bit `k` of a word, tested with the mask `1 << k`. -/
theorem and_shiftLeft_ne_zero (w : UInt32) {k : Nat} (lt : k < 32) :
    w &&& (1 <<< k.toUInt32) ≠ 0 ↔ w.toNat / 2^k % 2 = 1 := by
  have mask : (1 <<< k.toUInt32 : UInt32).toNat = 2^k := by
    rw [UInt32.toNat_shiftLeft,UInt32.toNat_one,Nat.toUInt32,UInt32.toNat_ofNat',
      Nat.mod_eq_of_lt (show k < 2^32 by omega),Nat.mod_eq_of_lt lt,Nat.one_shiftLeft]
    exact Nat.mod_eq_of_lt (Nat.pow_lt_pow_right (by norm_num) lt)
  rw [← and_two_pow_ne_zero,← mask,← UInt32.toNat_and,Ne,Ne,← UInt32.toNat_inj,UInt32.toNat_zero]

theorem size_eq_add_of_div {n k : Nat} (high : n / 2^k ≠ 0) : n.size = k + (n / 2^k).size := by
  have positive : 0 < (n / 2^k).size := Nat.size_pos.mpr (Nat.pos_of_ne_zero high)
  have top : n / 2^k < 2^(n / 2^k).size := Nat.lt_size_self _
  have bottom : 2^((n / 2^k).size - 1) ≤ n / 2^k := Nat.lt_size.mp (by omega)
  apply le_antisymm
  · rw [Nat.size_le,pow_add]
    rw [Nat.div_lt_iff_lt_mul (Nat.two_pow_pos k)] at top
    rwa [Nat.mul_comm]
  · have lower : 2^(k + ((n / 2^k).size - 1)) ≤ n := by
      rw [pow_add,Nat.mul_comm]
      exact (Nat.le_div_iff_mul_le (Nat.two_pow_pos k)).mp bottom
    have := Nat.lt_size.mpr lower
    omega

/-- The inner loop finds the highest bit set of a word below `2^(nbits + 1)`. -/
theorem highBit_eq_size (w : UInt32) {nbits : Nat} (lt : nbits < 32) (nonzero : w.toNat ≠ 0)
    (below : w.toNat < 2^(nbits + 1)) : highBit w nbits = w.toNat.size := by
  induction nbits with
  | zero =>
    have one : w.toNat = 1 := by omega
    rw [highBit,one,Nat.size_one]
  | succ nbits ih =>
    have half : w.toNat / 2^(nbits + 1) < 2 := by
      rw [Nat.div_lt_iff_lt_mul (Nat.two_pow_pos _),← Nat.pow_succ']
      exact below
    rw [highBit]
    split_ifs with set
    · -- bit `nbits + 1` is the highest
      rw [and_shiftLeft_ne_zero w lt,Nat.mod_eq_of_lt half] at set
      have one : 1 ≤ w.toNat / 2^(nbits + 1) := by
        generalize w.toNat / 2^(nbits + 1) = q at half set ⊢
        omega
      have lower : 2^(nbits + 1) ≤ w.toNat := by
        simpa using (Nat.le_div_iff_mul_le (Nat.two_pow_pos (nbits + 1))).mp one
      have := Nat.lt_size.mpr lower
      have := Nat.size_le.mpr below
      omega
    · rw [and_shiftLeft_ne_zero w lt,Nat.mod_eq_of_lt half] at set
      have clear : w.toNat < 2^(nbits + 1) :=
        Nat.lt_of_div_eq_zero (Nat.two_pow_pos (nbits + 1)) (by
          generalize w.toNat / 2^(nbits + 1) = q at half set ⊢
          omega)
      exact ih (by omega) clear

theorem toNat_pn (x : arith_uint256) (i : Nat) : (pn x i).toNat = x.toNat / 2^(32 * i) % 2^32 := by
  rw [pn,Nat.toUInt32,UInt32.toNat_ofNat',BitVec.toNat_ushiftRight,Nat.shiftRight_eq_div_pow]

/-- The outer loop finds the highest word that is not zero. -/
theorem bitsBelow_eq_size (x : arith_uint256) {pos : Nat} (below : x.toNat < 2^(32 * pos)) :
    bitsBelow x pos = x.toNat.size := by
  induction pos with
  | zero =>
    have zero : x.toNat = 0 := by simpa using below
    rw [bitsBelow,zero,Nat.size_zero]
  | succ pos ih =>
    have word : (pn x pos).toNat = x.toNat / 2^(32 * pos) := by
      rw [toNat_pn,Nat.mod_eq_of_lt]
      rw [Nat.div_lt_iff_lt_mul (Nat.two_pow_pos _),← pow_add]
      exact lt_of_lt_of_le below (Nat.pow_le_pow_right (by norm_num) (by omega))
    rw [bitsBelow]
    split_ifs with set
    · have high : x.toNat / 2^(32 * pos) ≠ 0 := by
        rw [← word,Ne,← UInt32.toNat_zero,UInt32.toNat_inj]
        exact set
      rw [highBit_eq_size _ (by norm_num) (by rwa [word]) (UInt32.toNat_lt _),word,← size_eq_add_of_div high]
    · have zero : pn x pos = 0 := by simpa using set
      have clear : x.toNat < 2^(32 * pos) := by
        refine Nat.lt_of_div_eq_zero (Nat.two_pow_pos _) ?_
        rw [← word,zero,UInt32.toNat_zero]
      exact ih clear

theorem bits_eq_size (x : arith_uint256) : bits x = x.toNat.size := bitsBelow_eq_size x x.isLt

theorem toNat_GetLow64 (x : arith_uint256) : (GetLow64 x).toNat = x.toNat % 2^64 := by
  have low := UInt32.toNat_lt (pn x 0)
  have high := UInt32.toNat_lt (pn x 1)
  rw [GetLow64,UInt64.toNat_or,UInt64.toNat_shiftLeft,UInt32.toNat_toUInt64,UInt32.toNat_toUInt64,
    show (32 : UInt64).toNat % 64 = 32 from rfl,Nat.shiftLeft_eq,Nat.mod_eq_of_lt (by omega),Nat.or_comm,
    ← Nat.shiftLeft_eq,← Nat.shiftLeft_add_eq_or_of_lt low,Nat.shiftLeft_eq,toNat_pn,toNat_pn]
  omega

/-! ## The compact form's words -/

/-- The sign bit of a word of three bytes is set where the word is at least `2^23`. -/
theorem sign_ne_zero {t : UInt32} (small : t.toNat < 2^24) : t &&& 0x00800000 ≠ 0 ↔ 2^23 ≤ t.toNat := by
  have half : t.toNat / 2^23 < 2 := Nat.div_lt_of_lt_mul (show t.toNat < 2^23 * 2 by omega)
  have key : 1 ≤ t.toNat / 2^23 ↔ 2^23 ≤ t.toNat := by
    rw [Nat.le_div_iff_mul_le (Nat.two_pow_pos 23),Nat.one_mul]
  rw [Ne,← UInt32.toNat_inj,UInt32.toNat_and,UInt32.toNat_zero,show (0x00800000 : UInt32).toNat = 2^23 from rfl,
    ← Ne,and_two_pow_ne_zero,Nat.mod_eq_of_lt half,← key]
  omega

/-- A mantissa below `2^23` has no bit outside the mask `0x007fffff`. -/
theorem and_not_mantissa {m : UInt32} (small : m.toNat < 2^23) : m &&& ~~~0x007fffff = 0 := by
  rw [show (~~~0x007fffff : UInt32) = 0xff800000 by decide,← UInt32.toNat_inj,UInt32.toNat_and,UInt32.toNat_zero,
    show (0xff800000 : UInt32).toNat = 2^23 * 511 from rfl]
  apply Nat.eq_of_testBit_eq
  intro i
  rw [Nat.testBit_and,Nat.zero_testBit,Nat.testBit_two_pow_mul]
  by_cases low : i < 23
  · simp [low]
  · simp [Nat.testBit_lt_two_pow (lt_of_lt_of_le small (Nat.pow_le_pow_right (by norm_num) (by omega : 23 ≤ i)))]

/-- The exponent goes above a mantissa of three bytes. -/
theorem or_exponent {m : UInt32} {s : Nat} (small : m.toNat < 2^24) (byte : s < 256) :
    (m ||| (s <<< 24).toUInt32).toNat = m.toNat + s * 2^24 := by
  rw [UInt32.toNat_or,Nat.toUInt32,UInt32.toNat_ofNat',Nat.shiftLeft_eq,Nat.mod_eq_of_lt (by omega),Nat.or_comm,
    ← Nat.shiftLeft_eq,← Nat.shiftLeft_add_eq_or_of_lt small,Nat.shiftLeft_eq]
  omega

/-- The word `GetCompact` takes first is the number's top three bytes. -/
theorem topWord_toNat (x : arith_uint256) :
    (if byteSize x.toNat ≤ 3 then (GetLow64 x <<< (8 * (3 - byteSize x.toNat)).toUInt64).toUInt32
      else (GetLow64 (x >>> (8 * (byteSize x.toNat - 3)))).toUInt32).toNat = topBytes x.toNat (byteSize x.toNat) := by
  have top := topBytes_lt x.toNat
  have bytes := lt_pow_byteSize x.toNat
  unfold topBytes at top ⊢
  split_ifs with small
  · rw [if_pos small] at top
    have shift : (8 * (3 - byteSize x.toNat)).toUInt64.toNat % 64 = 8 * (3 - byteSize x.toNat) := by
      rw [Nat.toUInt64,UInt64.toNat_ofNat',Nat.mod_eq_of_lt (by omega),Nat.mod_eq_of_lt (by omega)]
    have low : x.toNat % 2^64 = x.toNat := Nat.mod_eq_of_lt (lt_of_lt_of_le bytes (by
      rw [pow_byte]; exact Nat.pow_le_pow_right (by norm_num) (by omega)))
    rw [UInt64.toNat_toUInt32,UInt64.toNat_shiftLeft,toNat_GetLow64,shift,low,Nat.shiftLeft_eq,← pow_byte,
      Nat.mod_eq_of_lt (lt_trans top (by norm_num)),Nat.mod_eq_of_lt (lt_trans top (by norm_num))]
  · rw [if_neg small] at top
    rw [UInt64.toNat_toUInt32,toNat_GetLow64,BitVec.toNat_ushiftRight,Nat.shiftRight_eq_div_pow,← pow_byte,
      Nat.mod_eq_of_lt (lt_trans top (by norm_num)),Nat.mod_eq_of_lt (lt_trans top (by norm_num))]

/-- `GetCompact` of a number that is not negative is its `ByteFloat` form. -/
theorem GetCompact_eq (x : arith_uint256) :
    GetCompact x false = .ok (UInt32.ofNat ((encode x.toNat).2 + (encode x.toNat).1 * 2^24)) := by
  have word := topWord_toNat x
  have top := topBytes_lt x.toNat
  have size : byteSize x.toNat ≤ 32 := byteSize_le x.isLt
  unfold GetCompact
  rw [bits_eq_size,show (x.toNat.size + 7) / 8 = byteSize x.toNat from rfl]
  dsimp only
  generalize (if byteSize x.toNat ≤ 3 then (GetLow64 x <<< (8 * (3 - byteSize x.toNat)).toUInt64).toUInt32
      else (GetLow64 (x >>> (8 * (byteSize x.toNat - 3)))).toUInt32) = t at word ⊢
  rw [← word] at top
  by_cases sign : 2^23 ≤ t.toNat
  · -- the sign bit is set: a byte fewer, the exponent one more
    have set : t &&& 0x00800000 ≠ 0 := (sign_ne_zero top).mpr sign
    have shifted : (t >>> 8).toNat = t.toNat / 256 := by
      rw [UInt32.toNat_shiftRight,show (8 : UInt32).toNat % 32 = 8 from rfl,Nat.shiftRight_eq_div_pow]
    have mantissa : (t >>> 8).toNat < 2^23 := by omega
    have form : encode x.toNat = (byteSize x.toNat + 1,t.toNat / 256) := by
      unfold encode
      rw [if_neg (show ¬topBytes x.toNat (byteSize x.toNat) < 2^23 by omega),← word]
    rw [if_pos set]
    dsimp only
    rw [and_not_mantissa mantissa,if_neg (show ¬((0 : UInt32) ≠ 0) from not_not.mpr rfl),
      if_neg (show ¬¬byteSize x.toNat + 1 < 256 from not_not.mpr (by omega))]
    simp only [Bool.false_and,Bool.false_eq_true,if_false,UInt32.or_zero,form]
    congr 1
    apply UInt32.toNat_inj.mp
    rw [or_exponent (by omega) (by omega),UInt32.toNat_ofNat_of_lt' (by unfold UInt32.size; omega),shifted]
  · have clear : ¬t &&& 0x00800000 ≠ 0 := fun set => sign ((sign_ne_zero top).mp set)
    have form : encode x.toNat = (byteSize x.toNat,t.toNat) := by
      unfold encode
      rw [if_pos (show topBytes x.toNat (byteSize x.toNat) < 2^23 by omega),← word]
    rw [if_neg clear]
    dsimp only
    rw [and_not_mantissa (by omega),if_neg (show ¬((0 : UInt32) ≠ 0) from not_not.mpr rfl),
      if_neg (show ¬¬byteSize x.toNat < 256 from not_not.mpr (by omega))]
    simp only [Bool.false_and,Bool.false_eq_true,if_false,UInt32.or_zero,form]
    congr 1
    apply UInt32.toNat_inj.mp
    rw [or_exponent (by omega) (by omega),UInt32.toNat_ofNat_of_lt' (by unfold UInt32.size; omega)]

/-- `SetCompact` of a form whose mantissa is below the sign bit decodes it;
    neither flag is set where the exponent is at most 33, and an exponent of
    33 has a mantissa of two bytes. -/
theorem SetCompact_of_form {s m : Nat} (mantissa : m < 2^23) (exponent : s ≤ 33) (top : s = 33 → m < 2^16) :
    SetCompact (UInt32.ofNat (m + s * 2^24)) = (BitVec.ofNat 256 (decode s m),false,false) := by
  have code : (UInt32.ofNat (m + s * 2^24)).toNat = m + s * 2^24 :=
    UInt32.toNat_ofNat_of_lt' (by unfold UInt32.size; omega)
  have size : (UInt32.ofNat (m + s * 2^24) >>> 24).toNat = s := by
    rw [UInt32.toNat_shiftRight,code,show (24 : UInt32).toNat % 32 = 24 from rfl,Nat.shiftRight_eq_div_pow]
    omega
  have word : (UInt32.ofNat (m + s * 2^24) &&& 0x007fffff).toNat = m := by
    rw [UInt32.toNat_and,code,show (0x007fffff : UInt32).toNat = 2^23 - 1 from rfl,Nat.and_two_pow_sub_one_eq_mod]
    omega
  have sign : UInt32.ofNat (m + s * 2^24) &&& 0x00800000 = 0 := by
    apply UInt32.toNat_inj.mp
    rw [UInt32.toNat_and,code,show (0x00800000 : UInt32).toNat = 2^23 from rfl,UInt32.toNat_zero]
    refine Decidable.of_not_not fun set => ?_
    rw [← Ne,and_two_pow_ne_zero] at set
    omega
  unfold SetCompact
  dsimp only
  rw [size,sign]
  generalize UInt32.ofNat (m + s * 2^24) &&& 0x007fffff = w at word
  by_cases small : s ≤ 3
  · -- the word is shifted down into place, and no flag can be set
    have shifted : (w >>> (8 * (3 - s)).toUInt32).toNat = m / 256^(3 - s) := by
      rw [UInt32.toNat_shiftRight,word,Nat.toUInt32,UInt32.toNat_ofNat',Nat.mod_eq_of_lt (show 8 * (3 - s) < 2^32 by omega),
        Nat.mod_eq_of_lt (show 8 * (3 - s) < 32 by omega),Nat.shiftRight_eq_div_pow,pow_byte]
    simp only [if_pos small,decode]
    rw [shifted]
    simp [show ¬s > 34 by omega,show ¬s > 33 by omega,show ¬s > 32 by omega]
  · -- the word is shifted up; only an exponent of 33 could overflow, which has two bytes
    have shiftedUp : BitVec.ofNat 256 w.toNat <<< (8 * (s - 3)) = BitVec.ofNat 256 (m * 256^(s - 3)) := by
      apply BitVec.eq_of_toNat_eq
      rw [BitVec.toNat_shiftLeft,BitVec.toNat_ofNat,BitVec.toNat_ofNat,word,Nat.mod_eq_of_lt (show m < 2^256 by omega),
        Nat.shiftLeft_eq,pow_byte]
    simp [small,shiftedUp,decode,show ¬s > 34 by omega,show ¬s > 33 by omega]
    intro _ big
    by_contra beyond
    have two := top (by omega)
    rw [UInt32.lt_iff_toNat_lt,word,show (65535 : UInt32).toNat = 65535 from rfl] at big
    omega

/-- The compact form of a 256-bit number has the exponent `bits / 8 + 1` (the
    `(bits + 7) / 8` bytes of `GetCompact`, one more where the top byte's top
    bit would be the sign), and reads back with neither flag, as the number
    itself where its exponent is at most three and else rounded down to a
    multiple of its unit, so never above it and keeping its top 16 to 23 bits;
    and the compact form of what is read back is the form it was read from. -/
theorem compact_encoding_round_trips (x : arith_uint256) :
    ∃ c, GetCompact x false = .ok c ∧ (c >>> 24).toNat = (if x = 0 then 0 else bits x / 8 + 1) ∧
      (SetCompact c).2.1 = false ∧ (SetCompact c).2.2 = false ∧
      (SetCompact c).1.toNat = (if (c >>> 24).toNat ≤ 3 then x.toNat
        else x.toNat / 256^((c >>> 24).toNat - 3) * 256^((c >>> 24).toNat - 3)) ∧
      (SetCompact c).1.toNat ≤ x.toNat ∧ GetCompact (SetCompact c).1 false = .ok c := by
  have fits : x.toNat < 2^(8 * 32) := x.isLt
  obtain ⟨exponent,top⟩ := encode_exponent_le fits
  have read := SetCompact_of_form (encode_mantissa_lt x.toNat) exponent top
  have size : (UInt32.ofNat ((encode x.toNat).2 + (encode x.toNat).1 * 2^24) >>> 24).toNat = (encode x.toNat).1 := by
    rw [UInt32.toNat_shiftRight,UInt32.toNat_ofNat_of_lt' (by have := encode_mantissa_lt x.toNat; unfold UInt32.size; omega),
      show (24 : UInt32).toNat % 32 = 24 from rfl,Nat.shiftRight_eq_div_pow]
    have := encode_mantissa_lt x.toNat
    omega
  -- what is read back is the decoded form, which is no more than the number
  have value : decode (encode x.toNat).1 (encode x.toNat).2 ≤ x.toNat := by
    rw [decode_encode]
    split_ifs
    · exact le_rfl
    · exact Nat.div_mul_le_self _ _
  have exact : (BitVec.ofNat 256 (decode (encode x.toNat).1 (encode x.toNat).2)).toNat =
      decode (encode x.toNat).1 (encode x.toNat).2 := by
    rw [BitVec.toNat_ofNat,Nat.mod_eq_of_lt (lt_of_le_of_lt value x.isLt)]
  refine ⟨_,GetCompact_eq x,?_,by rw [read],by rw [read],?_,?_,?_⟩
  · -- the exponent counts the bytes of the number's `bits`, one more where the top one is full
    rw [size,encode_exponent,bits_eq_size]
    simp [BitVec.toNat_eq]
  · rw [read,size,exact,decode_encode]
  · rw [read,exact]
    exact value
  · rw [read,GetCompact_eq,exact,encode_decode_encode]


/-- The compact form of a number reads back, with neither flag, as the number
    rounded down to its form. -/
theorem SetCompact_GetCompact (x : arith_uint256) :
    ∃ c, GetCompact x false = .ok c ∧ SetCompact c = (BitVec.ofNat 256 (rounded x.toNat),false,false) := by
  obtain ⟨exponent,top⟩ := encode_exponent_le (show x.toNat < 2^(8 * 32) from x.isLt)
  exact ⟨_,GetCompact_eq x,SetCompact_of_form (encode_mantissa_lt x.toNat) exponent top⟩

theorem toNat_rounded (x : arith_uint256) : (BitVec.ofNat 256 (rounded x.toNat)).toNat = rounded x.toNat := by
  rw [BitVec.toNat_ofNat,Nat.mod_eq_of_lt (lt_of_le_of_lt (rounded_le _) x.isLt)]

end BitcoinPrivate
