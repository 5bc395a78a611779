import Mathlib

/-!
Bech32 (`bech32.cpp`). A string is its bytes. `PolyMod` folds the remainder
of the values modulo the BCH generator over GF(32), one value at a time;
`Encode` writes the human-readable part, the separator `1` and the values
with a checksum of six more, and `Decode` reads them back and checks the
checksum.

The loop of `PolyMod` is linear in exclusive or (`polymodStep_xor`), so the
remainder of a sum of strings is the sum of their remainders. The checksum is
chosen so that the remainder comes out as one, and one changed value adds the
remainder of a single value followed by zeros, which is never zero because
the loop sends no remainder but zero to zero (`polymodStep_ne_zero`). So a
string decodes to what it encodes, and a string with one character replaced
does not decode.
-/
namespace BitcoinPrivate.bech32

/-- `CHARSET`: the character set for encoding, as bytes. -/
def CHARSET : List UInt8 :=
  ['q', 'p', 'z', 'r', 'y', '9', 'x', '8', 'g', 'f', '2', 't', 'v', 'd', 'w', '0',
   's', '3', 'j', 'n', '5', '4', 'k', 'h', 'c', 'e', '6', 'm', 'u', 'a', '7', 'l'].map (·.toNat.toUInt8)

/-- `CHARSET_REV`: the value of each character below 128 in the set, `-1` for the others. -/
def CHARSET_REV : List Int := [
    -1, -1, -1, -1, -1, -1, -1, -1, -1, -1, -1, -1, -1, -1, -1, -1,
    -1, -1, -1, -1, -1, -1, -1, -1, -1, -1, -1, -1, -1, -1, -1, -1,
    -1, -1, -1, -1, -1, -1, -1, -1, -1, -1, -1, -1, -1, -1, -1, -1,
    15, -1, 10, 17, 21, 20, 26, 30,  7,  5, -1, -1, -1, -1, -1, -1,
    -1, 29, -1, 24, 13, 25,  9,  8, 23, -1, 18, 22, 31, 27, 19, -1,
     1,  0,  3, 16, 11, 28, 12, 14,  6,  4,  2, -1, -1, -1, -1, -1,
    -1, 29, -1, 24, 13, 25,  9,  8, 23, -1, 18, 22, 31, 27, 19, -1,
     1,  0,  3, 16, 11, 28, 12, 14,  6,  4,  2, -1, -1, -1, -1, -1]

/-- One round of the loop of `PolyMod`: the remainder `c` times `x`, plus `v_i`,
    with `c0` times `x^6 mod g(x)` added for the coefficient `c0` shifted out. -/
def polymodStep (c : UInt32) (v_i : UInt8) : UInt32 :=
  let c0 : UInt8 := (c >>> 25).toUInt8
  let c := ((c &&& 0x1ffffff) <<< 5) ^^^ v_i.toUInt32
  let c := if c0 &&& 1 != 0 then c ^^^ 0x3b6a57b2 else c
  let c := if c0 &&& 2 != 0 then c ^^^ 0x26508e6d else c
  let c := if c0 &&& 4 != 0 then c ^^^ 0x1ea119fa else c
  let c := if c0 &&& 8 != 0 then c ^^^ 0x3d4233dd else c
  if c0 &&& 16 != 0 then c ^^^ 0x2a1462b3 else c

/-- `PolyMod`: the remainder of the polynomial with an implicit `1` in front. -/
def PolyMod (v : List UInt8) : UInt32 := v.foldl polymodStep 1

/-- `LowerCase`. -/
def LowerCase (c : UInt8) : UInt8 := if c ≥ 0x41 ∧ c ≤ 0x5a then (c - 0x41) + 0x61 else c

/-- `ExpandHRP`: the high bits of each character, a zero, and the low five bits of each. -/
def ExpandHRP (hrp : List UInt8) : List UInt8 :=
  hrp.map (fun c : UInt8 => c >>> 5) ++ [0] ++ hrp.map (fun c : UInt8 => c &&& 0x1f)

/-- `VerifyChecksum`. -/
def VerifyChecksum (hrp values : List UInt8) : Bool := PolyMod (ExpandHRP hrp ++ values) == 1

/-- The six five-bit groups of `mod`, the highest first. -/
def groups (mod : UInt32) : List UInt8 :=
  (List.range 6).map fun i => ((mod >>> (5 * (5 - i)).toUInt32) &&& 31).toUInt8

/-- `CreateChecksum`: what to put in six zeroes after the values to make the remainder one. -/
def CreateChecksum (hrp values : List UInt8) : List UInt8 :=
  let enc := ExpandHRP hrp ++ values ++ List.replicate 6 0
  groups (PolyMod enc ^^^ 1)

/-- `CHARSET[c]`. A value of more than five bits reads past the character set,
    at its terminating zero or beyond: a zero byte here. -/
def charOf (c : UInt8) : UInt8 := CHARSET.getD c.toNat 0

/-- `Encode`. -/
def Encode (hrp values : List UInt8) : List UInt8 :=
  let checksum := CreateChecksum hrp values
  let combined := values ++ checksum
  hrp ++ [0x31] ++ combined.map charOf

/-- One round of the first loop of `Decode`: a lower or an upper case letter
    sets its flag, and a byte outside 33..126 returns the empty result. -/
def caseStep (flags : Bool × Bool) (c : UInt8) : Option (Bool × Bool) :=
  if c ≥ 0x61 ∧ c ≤ 0x7a then some (true, flags.2)
  else if c ≥ 0x41 ∧ c ≤ 0x5a then some (flags.1, true)
  else if c < 33 ∨ c > 126 then none
  else some flags

/-- The first loop of `Decode`: whether there are lower and upper case letters. -/
def caseOf (str : List UInt8) : Option (Bool × Bool) := str.foldlM caseStep (false, false)

/-- `str.rfind(c)`: the last position of `c`, `none` for `npos`. -/
def rfind (str : List UInt8) (c : UInt8) : Option Nat :=
  (str.reverse.findIdx? (· == c)).map (str.length - 1 - ·)

/-- The value of a character of the data part, `none` where `CHARSET_REV` has `-1`. -/
def valueOf (c : UInt8) : Option UInt8 :=
  let rev := CHARSET_REV.getD c.toNat (-1)
  if rev = -1 then none else some rev.toNat.toUInt8

/-- `Decode`; `([], [])` is the empty result. -/
def Decode (str : List UInt8) : List UInt8 × List UInt8 :=
  match caseOf str with
  | none => ([], [])
  | some (lower, upper) =>
    if lower && upper then ([], []) else
    match rfind str 0x31 with
    | none => ([], [])
    | some pos =>
      if str.length > 90 ∨ pos = 0 ∨ pos + 7 > str.length then ([], []) else
      match (str.drop (pos + 1)).mapM valueOf with
      | none => ([], [])
      | some values =>
        let hrp := (str.take pos).map LowerCase
        if !VerifyChecksum hrp values then ([], [])
        else (hrp, values.take (values.length - 6))

/-! ## The loop is linear -/

/-- `c0` times `k(x) = x^6 mod g(x)`: the constants the loop adds for the bits of `c0`. -/
def timesK (c0 : UInt8) : UInt32 :=
  (if c0 &&& 1 != 0 then 0x3b6a57b2 else 0) ^^^ (if c0 &&& 2 != 0 then 0x26508e6d else 0) ^^^
    (if c0 &&& 4 != 0 then 0x1ea119fa else 0) ^^^ (if c0 &&& 8 != 0 then 0x3d4233dd else 0) ^^^
    (if c0 &&& 16 != 0 then 0x2a1462b3 else 0)

theorem ite_xor_eq (p : Prop) [Decidable p] (c g : UInt32) : (if p then c ^^^ g else c) = c ^^^ (if p then g else 0) := by
  split_ifs <;> simp

theorem polymodStep_eq (c : UInt32) (v_i : UInt8) :
    polymodStep c v_i = ((c &&& 0x1ffffff) <<< 5) ^^^ v_i.toUInt32 ^^^ timesK (c >>> 25).toUInt8 := by
  simp only [polymodStep, timesK]
  simp only [ite_xor_eq]
  ac_rfl

theorem and_mask_ne_zero (x : UInt8) {k : UInt8} {j : Nat} (mask : k.toNat = 2^j) :
    (x &&& k != 0) = x.toNat.testBit j := by
  apply Bool.eq_iff_iff.mpr
  rw [bne_iff_ne, Ne, ← UInt8.toNat_inj, UInt8.toNat_and, mask, UInt8.toNat_zero, Nat.and_two_pow]
  cases x.toNat.testBit j <;> simp

theorem xor_bit (p q : UInt8) {k : UInt8} {j : Nat} (mask : k.toNat = 2^j) :
    ((p ^^^ q) &&& k != 0) = ((p &&& k != 0) ^^ (q &&& k != 0)) := by
  rw [and_mask_ne_zero _ mask, and_mask_ne_zero _ mask, and_mask_ne_zero _ mask, UInt8.toNat_xor, Nat.testBit_xor]

theorem ite_xor_cond (a b : Bool) (g : UInt32) :
    (if (a ^^ b) = true then g else 0) = (if a = true then g else 0) ^^^ (if b = true then g else 0) := by
  cases a <;> cases b <;> simp

theorem timesK_xor (p q : UInt8) : timesK (p ^^^ q) = timesK p ^^^ timesK q := by
  simp only [timesK, xor_bit p q (j := 0) (k := 1) rfl, xor_bit p q (j := 1) (k := 2) rfl,
    xor_bit p q (j := 2) (k := 4) rfl, xor_bit p q (j := 3) (k := 8) rfl, xor_bit p q (j := 4) (k := 16) rfl,
    ite_xor_cond]
  ac_rfl

theorem and_xor_distrib (a b c : UInt32) : (a ^^^ b) &&& c = (a &&& c) ^^^ (b &&& c) := by
  apply UInt32.toBitVec_inj.mp
  simp only [UInt32.toBitVec_and, UInt32.toBitVec_xor]
  ext i
  simp [Bool.and_xor_distrib_right]

/-- The remainder of a sum is the sum of the remainders. -/
theorem polymodStep_xor (a b : UInt32) (x y : UInt8) :
    polymodStep (a ^^^ b) (x ^^^ y) = polymodStep a x ^^^ polymodStep b y := by
  simp only [polymodStep_eq, and_xor_distrib, UInt32.shiftLeft_xor, UInt32.shiftRight_xor, UInt32.toUInt8_xor,
    UInt8.toUInt32_xor, timesK_xor]
  ac_rfl

theorem foldl_xor : ∀ (a b : UInt32) (xs ys : List UInt8), xs.length = ys.length →
    (List.zipWith (· ^^^ ·) xs ys).foldl polymodStep (a ^^^ b) = xs.foldl polymodStep a ^^^ ys.foldl polymodStep b
  | _, _, [], [], _ => rfl
  | a, b, x :: xs, y :: ys, same => by
    rw [List.zipWith_cons_cons, List.foldl_cons, List.foldl_cons, List.foldl_cons, polymodStep_xor]
    exact foldl_xor _ _ xs ys (by simpa using same)

/-! ## Remainders below `2^30` -/

theorem timesK_lt (c0 : UInt8) : (timesK c0).toNat < 2^30 := by
  have term : ∀ (p : Prop) [Decidable p] (g : UInt32), g.toNat < 2^30 → (if p then g else 0).toNat < 2^30 := by
    intro p _ g small
    split_ifs
    · exact small
    · simp
  unfold timesK
  simp only [UInt32.toNat_xor]
  repeat' apply Nat.xor_lt_two_pow
  all_goals exact term _ _ (by decide)

theorem toNat_shifted (c : UInt32) : ((c &&& 0x1ffffff) <<< 5).toNat = c.toNat % 2^25 * 32 := by
  rw [UInt32.toNat_shiftLeft, UInt32.toNat_and, show (0x1ffffff : UInt32).toNat = 2^25 - 1 from rfl,
    Nat.and_two_pow_sub_one_eq_mod, Nat.shiftLeft_eq, show (5 : UInt32).toNat % 32 = 5 from rfl]
  omega

theorem toNat_c0 (c : UInt32) : ((c >>> 25).toUInt8).toNat = c.toNat / 2^25 := by
  have := c.toNat_lt
  rw [UInt32.toNat_toUInt8, UInt32.toNat_shiftRight, show (25 : UInt32).toNat % 32 = 25 from rfl,
    Nat.shiftRight_eq_div_pow]
  omega

theorem polymodStep_lt (c : UInt32) {v_i : UInt8} (digit : v_i.toNat < 32) :
    (polymodStep c v_i).toNat < 2^30 := by
  rw [polymodStep_eq, UInt32.toNat_xor, UInt32.toNat_xor, toNat_shifted, UInt8.toNat_toUInt32]
  exact Nat.xor_lt_two_pow (Nat.xor_lt_two_pow (by omega) (by omega)) (timesK_lt _)

theorem shiftLeft_xor_eq_add {a b k : Nat} (small : b < 2^k) : (a <<< k) ^^^ b = (a <<< k) + b := by
  rw [Nat.shiftLeft_add_eq_or_of_lt small]
  apply Nat.eq_of_testBit_eq
  intro i
  rw [Nat.testBit_xor, Nat.testBit_or]
  by_cases low : i < k
  · simp [Nat.testBit_shiftLeft, show ¬k ≤ i by omega]
  · have high : b.testBit i = false :=
      Nat.testBit_lt_two_pow (lt_of_lt_of_le small (Nat.pow_le_pow_right (by norm_num) (by omega)))
    simp [high]

/-- Below `2^25` nothing is shifted out: the remainder times 32 plus the value. -/
theorem polymodStep_small {c : UInt32} {v_i : UInt8} (low : c.toNat < 2^25) (digit : v_i.toNat < 32) :
    (polymodStep c v_i).toNat = c.toNat * 32 + v_i.toNat := by
  have c0 : (c >>> 25).toUInt8 = 0 := UInt8.toNat_inj.mp (by rw [toNat_c0 c, UInt8.toNat_zero]; omega)
  rw [polymodStep_eq, c0, show timesK 0 = 0 by decide, UInt32.xor_zero, UInt32.toNat_xor, toNat_shifted,
    UInt8.toNat_toUInt32, Nat.mod_eq_of_lt low, show c.toNat * 32 = c.toNat <<< 5 by rw [Nat.shiftLeft_eq],
    shiftLeft_xor_eq_add (by omega)]

/-- The low five bits of `{c0}k(x)` are `{18}c0`, zero only for `c0 = 0`. -/
theorem timesK_low_eq_zero : ∀ n < 32, (timesK (UInt8.ofNat n)).toNat % 32 = 0 → n = 0 := by
  decide

/-- Multiplying by `x` modulo `g(x)` sends no remainder but zero to zero. -/
theorem polymodStep_ne_zero {c : UInt32} (small : c.toNat < 2^30) (nonzero : c ≠ 0) : polymodStep c 0 ≠ 0 := by
  intro zero
  rw [polymodStep_eq, show (0 : UInt8).toUInt32 = 0 from rfl, UInt32.xor_zero, ← UInt32.toNat_inj, UInt32.toNat_xor,
    toNat_shifted, UInt32.toNat_zero, Nat.xor_eq_zero_iff] at zero
  have top : c.toNat / 2^25 = 0 := by
    apply timesK_low_eq_zero _ (by omega)
    rw [← toNat_c0, UInt8.ofNat_toNat, ← zero]
    omega
  rw [show (c >>> 25).toUInt8 = 0 from UInt8.toNat_inj.mp (by rw [toNat_c0, top]; rfl),
    show timesK 0 = 0 by decide, UInt32.toNat_zero] at zero
  exact nonzero (UInt32.toNat_inj.mp (by rw [UInt32.toNat_zero]; omega))

theorem foldl_lt : ∀ (xs : List UInt8) (c : UInt32), c.toNat < 2^30 → (∀ v ∈ xs, v.toNat < 32) →
    (xs.foldl polymodStep c).toNat < 2^30
  | [], _, small, _ => small
  | x :: xs, c, _, digits =>
    foldl_lt xs _ (polymodStep_lt c (digits x (by simp))) (fun v mem => digits v (by simp [mem]))

theorem foldl_zero_replicate : ∀ k, (List.replicate k 0).foldl polymodStep 0 = 0
  | 0 => rfl
  | k+1 => by rw [List.replicate_succ, List.foldl_cons, show polymodStep 0 0 = 0 by decide, foldl_zero_replicate k]

/-- Zeros after a remainder that is not zero never bring it to zero. -/
theorem foldl_replicate_ne_zero : ∀ (k : Nat) (c : UInt32), c.toNat < 2^30 → c ≠ 0 →
    (List.replicate k 0).foldl polymodStep c ≠ 0
  | 0, _, _, nonzero => nonzero
  | k+1, c, small, nonzero => by
    rw [List.replicate_succ, List.foldl_cons]
    exact foldl_replicate_ne_zero k _ (polymodStep_lt c (by decide)) (polymodStep_ne_zero small nonzero)

theorem toNat_group (m : UInt32) {s : Nat} (small : s < 32) :
    ((m >>> s.toUInt32) &&& 31).toUInt8.toNat = m.toNat / 2^s % 32 := by
  have := m.toNat_lt
  rw [UInt32.toNat_toUInt8, UInt32.toNat_and, UInt32.toNat_shiftRight, show (31 : UInt32).toNat = 2^5 - 1 from rfl,
    Nat.and_two_pow_sub_one_eq_mod, Nat.shiftRight_eq_div_pow, Nat.toUInt32, UInt32.toNat_ofNat',
    Nat.mod_eq_of_lt (show s < 2^32 by omega), Nat.mod_eq_of_lt small]
  omega

/-- A remainder that leaves room for the values is shifted up five bits a value. -/
theorem foldl_horner : ∀ (xs : List UInt8) (c : UInt32), (∀ v ∈ xs, v.toNat < 32) → 5 * xs.length ≤ 30 →
    c.toNat < 2^(30 - 5 * xs.length) →
    (xs.foldl polymodStep c).toNat = xs.foldl (fun acc v => acc * 32 + v.toNat) c.toNat
  | [], _, _, _, _ => rfl
  | x :: xs, c, digits, short, room => by
    have digit := digits x (by simp)
    simp only [List.length_cons] at short room
    have split : 2^(30 - 5 * xs.length) = 2^(30 - 5 * (xs.length + 1)) * 32 := by
      rw [show 30 - 5 * xs.length = 30 - 5 * (xs.length + 1) + 5 by omega, pow_add]
      rfl
    have low : c.toNat < 2^25 :=
      lt_of_lt_of_le room (Nat.pow_le_pow_right (by norm_num) (by omega))
    rw [List.foldl_cons, List.foldl_cons, foldl_horner xs _ (fun v mem => digits v (by simp [mem])) (by omega)
      (by rw [polymodStep_small low digit, split]; omega), polymodStep_small low digit]

/-- From zero, the six groups of a remainder below `2^30` build it back. -/
theorem foldl_groups {m : UInt32} (small : m.toNat < 2^30) : (groups m).foldl polymodStep 0 = m := by
  have digits : ∀ v ∈ groups m, v.toNat < 32 := by
    simp only [groups, List.mem_map, List.mem_range]
    rintro v ⟨i, lt, rfl⟩
    rw [toNat_group m (by omega)]
    omega
  apply UInt32.toNat_inj.mp
  rw [foldl_horner _ 0 digits (by simp [groups]) (by simp [groups])]
  simp only [groups, show List.range 6 = [0, 1, 2, 3, 4, 5] from rfl, List.map_cons, List.map_nil, List.foldl_cons,
    List.foldl_nil, Nat.reduceSub, Nat.reduceMul]
  rw [toNat_group m (show 25 < 32 by norm_num), toNat_group m (show 20 < 32 by norm_num),
    toNat_group m (show 15 < 32 by norm_num), toNat_group m (show 10 < 32 by norm_num),
    toNat_group m (show 5 < 32 by norm_num), toNat_group m (show 0 < 32 by norm_num), UInt32.toNat_zero]
  omega

/-! ## The checksum -/

theorem ExpandHRP_digits (hrp : List UInt8) : ∀ v ∈ ExpandHRP hrp, v.toNat < 32 := by
  intro v mem
  simp only [ExpandHRP, List.mem_append, List.mem_map, List.mem_singleton] at mem
  rcases mem with (⟨c, -, rfl⟩ | rfl) | ⟨c, -, rfl⟩
  · have := c.toNat_lt
    rw [UInt8.toNat_shiftRight, show (5 : UInt8).toNat % 8 = 5 from rfl, Nat.shiftRight_eq_div_pow]
    omega
  · decide
  · rw [UInt8.toNat_and, show (0x1f : UInt8).toNat = 2^5 - 1 from rfl, Nat.and_two_pow_sub_one_eq_mod]
    omega

theorem zipWith_replicate_xor : ∀ xs : List UInt8, List.zipWith (· ^^^ ·) (List.replicate xs.length 0) xs = xs
  | [] => rfl
  | x :: xs => by rw [List.length_cons, List.replicate_succ, List.zipWith_cons_cons, UInt8.zero_xor, zipWith_replicate_xor xs]

theorem zipWith_self_xor : ∀ xs : List UInt8, List.zipWith (· ^^^ ·) xs xs = List.replicate xs.length 0
  | [] => rfl
  | x :: xs => by rw [List.zipWith_cons_cons, UInt8.xor_self, zipWith_self_xor xs, List.length_cons, List.replicate_succ]

theorem polymodStep_zero_left (v_i : UInt8) : polymodStep 0 v_i = v_i.toUInt32 := by
  rw [polymodStep_eq, show timesK ((0 : UInt32) >>> 25).toUInt8 = 0 by decide]
  simp

/-- The checksum makes the remainder one. -/
theorem PolyMod_CreateChecksum (hrp values : List UInt8) (digits : ∀ v ∈ values, v.toNat < 32) :
    PolyMod (ExpandHRP hrp ++ values ++ CreateChecksum hrp values) = 1 := by
  have allDigits : ∀ v ∈ ExpandHRP hrp ++ values, v.toNat < 32 := by
    intro v mem
    rcases List.mem_append.mp mem with inHrp | inValues
    · exact ExpandHRP_digits hrp v inHrp
    · exact digits v inValues
  have small : (PolyMod (ExpandHRP hrp ++ values)).toNat < 2^30 := foldl_lt _ 1 (by decide) allDigits
  set c := PolyMod (ExpandHRP hrp ++ values)
  set zeros := (List.replicate 6 0).foldl polymodStep c
  have mod : PolyMod (ExpandHRP hrp ++ values ++ List.replicate 6 0) = zeros := List.foldl_append
  have modSmall : (zeros ^^^ 1).toNat < 2^30 := by
    rw [UInt32.toNat_xor]
    exact Nat.xor_lt_two_pow (foldl_lt _ c small (by simp)) (by decide)
  unfold CreateChecksum
  dsimp only
  rw [mod]
  calc PolyMod (ExpandHRP hrp ++ values ++ groups (zeros ^^^ 1))
      = (List.zipWith (· ^^^ ·) (List.replicate 6 0) (groups (zeros ^^^ 1))).foldl polymodStep (c ^^^ 0) := by
        rw [show 6 = (groups (zeros ^^^ 1)).length by simp [groups], zipWith_replicate_xor, UInt32.xor_zero]
        exact List.foldl_append
    _ = zeros ^^^ (groups (zeros ^^^ 1)).foldl polymodStep 0 := foldl_xor _ _ _ _ (by simp [groups])
    _ = zeros ^^^ (zeros ^^^ 1) := by rw [foldl_groups modSmall]
    _ = 1 := by rw [← UInt32.xor_assoc, UInt32.xor_self, UInt32.zero_xor]

/-- One changed value changes the remainder by that of the difference followed by zeros. -/
theorem PolyMod_ne_of_change (pre post : List UInt8) {a b : UInt8} (differ : a ≠ b) :
    PolyMod (pre ++ a :: post) ≠ PolyMod (pre ++ b :: post) := by
  intro same
  unfold PolyMod at same
  rw [List.foldl_append, List.foldl_append, List.foldl_cons, List.foldl_cons] at same
  set c := pre.foldl polymodStep 1
  have difference : polymodStep c a ^^^ polymodStep c b = (a ^^^ b).toUInt32 := by
    rw [← polymodStep_xor, UInt32.xor_self, polymodStep_zero_left]
  have small : (a ^^^ b).toUInt32.toNat < 2^30 := by
    have := (a ^^^ b).toNat_lt
    rw [UInt8.toNat_toUInt32]
    omega
  have nonzero : (a ^^^ b).toUInt32 ≠ 0 := by
    intro zero
    apply differ
    have value := congrArg UInt32.toNat zero
    rw [UInt8.toNat_toUInt32, UInt8.toNat_xor, UInt32.toNat_zero, Nat.xor_eq_zero_iff] at value
    exact UInt8.toNat_inj.mp value
  have sum := foldl_xor (polymodStep c a) (polymodStep c b) post post rfl
  rw [zipWith_self_xor, same, UInt32.xor_self, difference] at sum
  exact foldl_replicate_ne_zero post.length _ small nonzero sum

/-! ## Decoding -/

theorem charset_facts : ∀ n < 32, 33 ≤ CHARSET.getD n 0 ∧ CHARSET.getD n 0 ≤ 126 ∧
    ¬(0x41 ≤ CHARSET.getD n 0 ∧ CHARSET.getD n 0 ≤ 0x5a) ∧ CHARSET.getD n 0 ≠ 0x31 ∧
    valueOf (CHARSET.getD n 0) = some (UInt8.ofNat n) := by
  decide

/-- A string of printable bytes and no capital passes the first loop with no upper case flag. -/
theorem caseOf_printable : ∀ (str : List UInt8) (lower : Bool), (∀ c ∈ str, 33 ≤ c ∧ c ≤ 126 ∧ ¬(0x41 ≤ c ∧ c ≤ 0x5a)) →
    ∃ lower', str.foldlM caseStep (lower, false) = some (lower', false)
  | [], lower, _ => ⟨lower, rfl⟩
  | c :: str, lower, printable => by
    obtain ⟨above, below, small⟩ := printable c (by simp)
    have rest : ∀ c ∈ str, 33 ≤ c ∧ c ≤ 126 ∧ ¬(0x41 ≤ c ∧ c ≤ 0x5a) := fun c mem => printable c (by simp [mem])
    rw [List.foldlM_cons]
    unfold caseStep
    by_cases letter : c ≥ 0x61 ∧ c ≤ 0x7a
    · rw [if_pos letter]
      exact caseOf_printable str true rest
    · have inside : ¬(c < 33 ∨ c > 126) := by
        simp only [UInt8.lt_iff_toNat_lt, UInt8.le_iff_toNat_le] at above below ⊢
        simp at above below ⊢
        omega
      rw [if_neg letter, if_neg small, if_neg inside]
      exact caseOf_printable str lower rest

theorem rfind_separator {hrp tail : List UInt8} (absent : ∀ c ∈ tail, c ≠ 0x31) :
    rfind (hrp ++ [0x31] ++ tail) 0x31 = some hrp.length := by
  have missing : tail.reverse.findIdx? (· == 0x31) = none :=
    List.findIdx?_eq_none_iff.mpr fun c mem => by simpa using absent c (List.mem_reverse.mp mem)
  unfold rfind
  rw [List.reverse_append, List.reverse_append, List.findIdx?_append, missing]
  simp only [Option.none_or, Option.map_map, List.length_reverse, List.length_append, List.length_singleton,
    Option.map_eq_some_iff]
  exact ⟨0, by simp [List.findIdx?_cons], by simp⟩

theorem mapM_valueOf : ∀ values : List UInt8, (∀ v ∈ values, v.toNat < 32) →
    (values.map charOf).mapM valueOf = some values
  | [], _ => rfl
  | v :: values, digits => by
    have value : valueOf (charOf v) = some v := by
      rw [charOf, (charset_facts v.toNat (digits v (by simp))).2.2.2.2, UInt8.ofNat_toNat]
    rw [List.map_cons, List.mapM_cons, value, mapM_valueOf values (fun v mem => digits v (by simp [mem]))]
    rfl

/-- A string of the form `Encode` writes decodes as its checksum says. -/
theorem Decode_eq {hrp values : List UInt8} (nonempty : hrp ≠ [])
    (printable : ∀ c ∈ hrp, 33 ≤ c ∧ c ≤ 126 ∧ ¬(0x41 ≤ c ∧ c ≤ 0x5a)) (digits : ∀ v ∈ values, v.toNat < 32)
    (checksum : 6 ≤ values.length) (fits : hrp.length + values.length + 1 ≤ 90) :
    Decode (hrp ++ [0x31] ++ values.map charOf) =
      if VerifyChecksum hrp values then (hrp, values.take (values.length - 6)) else ([], []) := by
  have tailFacts : ∀ c ∈ values.map charOf,
      (33 ≤ c ∧ c ≤ 126 ∧ ¬(0x41 ≤ c ∧ c ≤ 0x5a)) ∧ c ≠ 0x31 := by
    simp only [List.mem_map]
    rintro c ⟨v, mem, rfl⟩
    obtain ⟨above, below, small, separator, -⟩ := charset_facts v.toNat (digits v mem)
    exact ⟨⟨above, below, small⟩, separator⟩
  have bytes : ∀ c ∈ hrp ++ [0x31] ++ values.map charOf,
      33 ≤ c ∧ c ≤ 126 ∧ ¬(0x41 ≤ c ∧ c ≤ 0x5a) := by
    intro c mem
    simp only [List.mem_append, List.mem_singleton] at mem
    rcases mem with (inHrp | rfl) | inTail
    · exact printable c inHrp
    · decide
    · exact (tailFacts c inTail).1
  obtain ⟨lower, case⟩ := caseOf_printable _ false bytes
  have lowered : hrp.map LowerCase = hrp := by
    rw [List.map_congr_left (g := id) fun c mem => by unfold LowerCase; rw [if_neg (printable c mem).2.2]; rfl,
      List.map_id]
  unfold Decode
  rw [caseOf, case]
  simp only [Bool.and_false, Bool.false_eq_true, if_false]
  rw [rfind_separator fun c mem => (tailFacts c mem).2]
  dsimp only
  have lengths : (hrp ++ [0x31] ++ values.map charOf).length =
      hrp.length + 1 + values.length := by
    simp only [List.length_append, List.length_singleton, List.length_map]
  rw [if_neg (by rw [lengths]; have := List.length_pos_of_ne_nil nonempty; omega)]
  rw [show hrp.length + 1 = (hrp ++ [0x31]).length by simp, List.drop_left, mapM_valueOf values digits]
  rw [List.append_assoc, List.take_left, lowered]
  dsimp only
  cases VerifyChecksum hrp values <;> rfl

/-! ## Round trip and error detection -/

theorem CreateChecksum_digits (hrp values : List UInt8) : ∀ v ∈ CreateChecksum hrp values, v.toNat < 32 := by
  simp only [CreateChecksum, groups, List.mem_map, List.mem_range]
  rintro v ⟨i, lt, rfl⟩
  rw [toNat_group _ (by omega)]
  omega

theorem length_CreateChecksum (hrp values : List UInt8) : (CreateChecksum hrp values).length = 6 := by
  simp [CreateChecksum, groups]

theorem bech32_round_trip_and_error_detection (hrp d : List UInt8) (nonempty : hrp ≠ [])
    (printable : ∀ c ∈ hrp, 33 ≤ c ∧ c ≤ 126 ∧ ¬(0x41 ≤ c ∧ c ≤ 0x5a)) (digits : ∀ v ∈ d, v.toNat < 32)
    (fits : hrp.length + d.length + 7 ≤ 90) :
    Decode (Encode hrp d) = (hrp, d) ∧
    ∀ i c, hrp.length < i → i < (Encode hrp d).length → c ∈ CHARSET → c ≠ (Encode hrp d).getD i 0 →
      Decode ((Encode hrp d).set i c) = ([], []) := by
  have combinedDigits : ∀ v ∈ d ++ CreateChecksum hrp d, v.toNat < 32 := by
    intro v mem
    rcases List.mem_append.mp mem with inData | inChecksum
    · exact digits v inData
    · exact CreateChecksum_digits hrp d v inChecksum
  have length : (d ++ CreateChecksum hrp d).length = d.length + 6 := by
    rw [List.length_append, length_CreateChecksum]
  have verified : PolyMod (ExpandHRP hrp ++ (d ++ CreateChecksum hrp d)) = 1 := by
    rw [← List.append_assoc, PolyMod_CreateChecksum hrp d digits]
  have encoded : Encode hrp d = hrp ++ [0x31] ++ (d ++ CreateChecksum hrp d).map charOf := rfl
  constructor
  · rw [encoded, Decode_eq nonempty printable combinedDigits (by omega) (by omega),
      if_pos (by simp [VerifyChecksum, verified]), length, Nat.add_sub_cancel, List.take_left]
  · intro i c after inside member differ
    generalize d ++ CreateChecksum hrp d = combined at combinedDigits length verified encoded
    rw [encoded] at inside differ ⊢
    obtain ⟨w, wlt, rfl⟩ : ∃ w, w < 32 ∧ CHARSET.getD w 0 = c := by
      obtain ⟨w, wlt, at_w⟩ := List.mem_iff_getElem.mp member
      exact ⟨w, wlt, by rw [List.getD_eq_getElem _ _ wlt, at_w]⟩
    obtain ⟨k, rfl⟩ : ∃ k, i = (hrp ++ [0x31]).length + k := ⟨i - (hrp ++ [0x31]).length, by simp; omega⟩
    simp only [List.length_append, List.length_singleton, List.length_map] at inside
    have klt : k < combined.length := by omega
    -- the character replaced is that of the value at k
    have old : (hrp ++ [0x31] ++ combined.map charOf).getD ((hrp ++ [0x31]).length + k) 0 =
        charOf combined[k] := by
      rw [List.getD_append_right _ _ _ _ (by omega), Nat.add_sub_cancel_left,
        List.getD_eq_getElem _ _ (by simpa using klt), List.getElem_map]
    rw [old] at differ
    have changed : CHARSET.getD w 0 = charOf (UInt8.ofNat w) := by
      rw [charOf, UInt8.toNat_ofNat_of_lt' (by change w < 256; omega)]
    rw [List.set_append_right _ _ (by omega), Nat.add_sub_cancel_left, changed, ← List.map_set]
    have setDigits : ∀ v ∈ combined.set k (UInt8.ofNat w), v.toNat < 32 := by
      intro v mem
      rcases List.mem_or_eq_of_mem_set mem with old | rfl
      · exact combinedDigits v old
      · rw [UInt8.toNat_ofNat_of_lt' (by change w < 256; omega)]
        exact wlt
    rw [Decode_eq nonempty printable setDigits (by rw [List.length_set]; omega) (by rw [List.length_set]; omega),
      if_neg]
    -- the one value changed changes the remainder away from one
    intro ok
    have same : PolyMod (ExpandHRP hrp ++ combined.set k (UInt8.ofNat w)) = PolyMod (ExpandHRP hrp ++ combined) := by
      simp only [VerifyChecksum, beq_iff_eq] at ok
      rw [ok, verified]
    rw [List.set_eq_take_append_cons_drop, if_pos klt] at same
    conv at same => rhs; rw [← List.take_append_drop k combined, List.drop_eq_getElem_cons klt]
    rw [← List.append_assoc, ← List.append_assoc] at same
    exact PolyMod_ne_of_change _ _ (fun eq => differ (by rw [changed, eq])) same

set_option maxRecDepth 10000 in
theorem bech32_round_trip_for_bc :
    ([0x62, 0x63] : List UInt8) ≠ [] ∧
      (∀ c ∈ ([0x62, 0x63] : List UInt8), 33 ≤ c ∧ c ≤ 126 ∧ ¬(0x41 ≤ c ∧ c ≤ 0x5a)) ∧
      (∀ v ∈ ([0, 1, 2] : List UInt8), v.toNat < 32) ∧
      Decode (Encode [0x62, 0x63] [0, 1, 2]) = ([0x62, 0x63], [0, 1, 2]) :=
  ⟨by decide, by decide, by decide,
    (bech32_round_trip_and_error_detection [0x62, 0x63] [0, 1, 2] (by decide) (by decide) (by decide) (by decide)).1⟩

end BitcoinPrivate.bech32
