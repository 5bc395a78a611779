import Mathlib

/-!
Numbers as a floating point of base 256: an exponent that counts bytes and a
mantissa of three bytes whose top bit stays clear. The mantissa is the top
three bytes of the number, shifted into place, or, where the top bit of those
is set, the top two bytes with the exponent one more. Decoding gives the
number rounded down to a multiple of the exponent's unit, or the number itself
for an exponent of at most three (`decode_encode`), and a decoded number
encodes as the form it came from (`encode_decode_encode`).
-/
namespace BitcoinPrivate.ByteFloat

/-- The number of bytes of `n`. -/
def byteSize (n : Nat) : Nat := (n.size + 7) / 8

/-- The top three bytes of a number of `size` bytes, shifted into place. -/
def topBytes (n size : Nat) : Nat := if size ≤ 3 then n * 256^(3 - size) else n / 256^(size - 3)

/-- The exponent and the mantissa of `n`. -/
def encode (n : Nat) : Nat × Nat :=
  if topBytes n (byteSize n) < 2^23 then (byteSize n,topBytes n (byteSize n))
  else (byteSize n + 1,topBytes n (byteSize n) / 256)

/-- The number an exponent and a mantissa stand for. -/
def decode (s m : Nat) : Nat := if s ≤ 3 then m / 256^(3 - s) else m * 256^(s - 3)

theorem pow_byte (k : Nat) : 256^k = 2^(8 * k) := by
  rw [pow_mul]
  norm_num

theorem pow_byte_add {a b c : Nat} (sum : a + b = c) : 256^a * 256^b = 256^c := by
  rw [← pow_add,sum]

theorem pow_byte_pos (k : Nat) : 0 < 256^k := Nat.pow_pos (by norm_num)

/-- A number that is not zero has its top byte in byte `byteSize n - 1`. -/
theorem byteSize_bounds {n : Nat} (nonzero : n ≠ 0) : 256^(byteSize n - 1) ≤ n ∧ n < 256^(byteSize n) := by
  have top : n < 2^n.size := Nat.lt_size_self n
  have positive : 0 < n.size := Nat.size_pos.mpr (Nat.pos_of_ne_zero nonzero)
  have bottom : 2^(n.size - 1) ≤ n := Nat.lt_size.mp (by omega)
  rw [pow_byte,pow_byte]
  constructor
  · exact le_trans (Nat.pow_le_pow_right (by norm_num) (by unfold byteSize; omega)) bottom
  · exact lt_of_lt_of_le top (Nat.pow_le_pow_right (by norm_num) (by unfold byteSize; omega))

theorem byteSize_pos {n : Nat} (nonzero : n ≠ 0) : 0 < byteSize n := by
  have positive : 0 < n.size := Nat.size_pos.mpr (Nat.pos_of_ne_zero nonzero)
  unfold byteSize
  omega

theorem byteSize_le {n w : Nat} (fits : n < 2^(8 * w)) : byteSize n ≤ w := by
  have := Nat.size_le.mpr fits
  unfold byteSize
  omega

theorem byteSize_zero : byteSize 0 = 0 := by simp [byteSize]

theorem lt_pow_byteSize (n : Nat) : n < 256^(byteSize n) := by
  by_cases zero : n = 0
  · simp [zero]
  · exact (byteSize_bounds zero).2

/-- The top bytes of a number that is not zero have a byte above the lowest two. -/
theorem topBytes_bounds {n : Nat} (nonzero : n ≠ 0) :
    2^16 ≤ topBytes n (byteSize n) ∧ topBytes n (byteSize n) < 2^24 := by
  obtain ⟨bottom,top⟩ := byteSize_bounds nonzero
  have positive := byteSize_pos nonzero
  unfold topBytes
  split_ifs with small
  · -- shifted up by the bytes it lacks of three
    have lower : 256^2 ≤ n * 256^(3 - byteSize n) := calc
      256^2 = 256^(byteSize n - 1) * 256^(3 - byteSize n) := (pow_byte_add (by omega)).symm
      _ ≤ n * 256^(3 - byteSize n) := Nat.mul_le_mul_right _ bottom
    have upper : n * 256^(3 - byteSize n) < 256^3 := calc
      n * 256^(3 - byteSize n) < 256^(byteSize n) * 256^(3 - byteSize n) :=
        Nat.mul_lt_mul_of_pos_right top (pow_byte_pos _)
      _ = 256^3 := pow_byte_add (by omega)
    exact ⟨by simpa using lower,by simpa using upper⟩
  · -- shifted down by the bytes it has beyond three
    have lower : 256^2 ≤ n / 256^(byteSize n - 3) := by
      rw [Nat.le_div_iff_mul_le (pow_byte_pos _),pow_byte_add (show 2 + (byteSize n - 3) = byteSize n - 1 by omega)]
      exact bottom
    have upper : n / 256^(byteSize n - 3) < 256^3 := by
      rw [Nat.div_lt_iff_lt_mul (pow_byte_pos _),pow_byte_add (show 3 + (byteSize n - 3) = byteSize n by omega)]
      exact top
    exact ⟨by simpa using lower,by simpa using upper⟩

theorem encode_zero : encode 0 = (0,0) := by simp [encode,topBytes,byteSize_zero]

theorem topBytes_lt (n : Nat) : topBytes n (byteSize n) < 2^24 := by
  by_cases zero : n = 0
  · simp [zero,topBytes,byteSize_zero]
  · exact (topBytes_bounds zero).2

theorem encode_mantissa_lt (n : Nat) : (encode n).2 < 2^23 := by
  by_cases zero : n = 0
  · simp [zero,encode_zero]
  have top := (topBytes_bounds zero).2
  unfold encode
  split_ifs with low
  · exact low
  · exact Nat.div_lt_of_lt_mul (by omega)

/-- The mantissa of a number that is not zero fills at least two bytes but its top bit. -/
theorem encode_mantissa_ge {n : Nat} (nonzero : n ≠ 0) : 2^15 ≤ (encode n).2 := by
  have bottom := (topBytes_bounds nonzero).1
  unfold encode
  split_ifs with low
  · exact le_trans (by norm_num) bottom
  · exact (Nat.le_div_iff_mul_le (by norm_num)).mpr (by omega)

/-- A number of `w` bytes has an exponent of at most `w + 1`, and of `w + 1`
    only with a mantissa of two bytes. -/
theorem encode_exponent_le {n w : Nat} (fits : n < 2^(8 * w)) :
    (encode n).1 ≤ w + 1 ∧ ((encode n).1 = w + 1 → (encode n).2 < 2^16) := by
  by_cases zero : n = 0
  · simp [zero,encode_zero]
  have size := byteSize_le fits
  have top := (topBytes_bounds zero).2
  unfold encode
  split_ifs with low
  · exact ⟨by omega,fun same => absurd same (by omega)⟩
  · exact ⟨by omega,fun _ => Nat.div_lt_of_lt_mul (by omega)⟩

theorem topBytes_lt_iff {n : Nat} (positive : 0 < byteSize n) :
    topBytes n (byteSize n) < 2^23 ↔ n < 2^(8 * byteSize n - 1) := by
  unfold topBytes
  split_ifs with small
  · -- the sign bit of the mantissa is the top bit of the number, moved up
    have split : 2^23 = 2^(8 * byteSize n - 1) * 256^(3 - byteSize n) := by
      rw [pow_byte,← pow_add]
      congr 1
      omega
    rw [split]
    exact Nat.mul_lt_mul_right (pow_byte_pos _)
  · have split : 2^(8 * byteSize n - 1) = 2^23 * 256^(byteSize n - 3) := by
      rw [pow_byte,← pow_add]
      congr 1
      omega
    rw [split,Nat.div_lt_iff_lt_mul (pow_byte_pos _)]

/-- The exponent of a number that is not zero counts its bytes, one more where
    its top bit is the top bit of a byte: `n.size / 8 + 1`. -/
theorem encode_exponent (n : Nat) : (encode n).1 = if n = 0 then 0 else n.size / 8 + 1 := by
  by_cases zero : n = 0
  · simp [zero,encode_zero]
  rw [if_neg zero]
  have positive : 0 < n.size := Nat.size_pos.mpr (Nat.pos_of_ne_zero zero)
  have top : n < 2^n.size := Nat.lt_size_self n
  have bottom : 2^(n.size - 1) ≤ n := Nat.lt_size.mp (by omega)
  have bytes : byteSize n = (n.size + 7) / 8 := rfl
  unfold encode
  split_ifs with low
  · -- the top byte's top bit is clear: the number has fewer bits than its bytes
    have below := lt_of_le_of_lt bottom ((topBytes_lt_iff (byteSize_pos zero)).mp low)
    have bits := (Nat.pow_lt_pow_iff_right (by norm_num)).mp below
    omega
  · have above := lt_of_le_of_lt (Nat.not_lt.mp ((topBytes_lt_iff (byteSize_pos zero)).not.mp low)) top
    have bits := (Nat.pow_lt_pow_iff_right (by norm_num)).mp above
    omega

/-- A number whose exponent is at most three decodes exactly, any other
    rounded down to a multiple of the exponent's unit. -/
theorem decode_encode (n : Nat) :
    decode (encode n).1 (encode n).2 =
      if (encode n).1 ≤ 3 then n else n / 256^((encode n).1 - 3) * 256^((encode n).1 - 3) := by
  by_cases zero : n = 0
  · simp [zero,encode_zero,decode]
  unfold encode
  by_cases low : topBytes n (byteSize n) < 2^23
  · rw [if_pos low]
    unfold decode topBytes
    by_cases small : byteSize n ≤ 3
    · simp only [if_pos small]
      exact Nat.mul_div_cancel n (pow_byte_pos _)
    · simp only [if_neg small]
  · -- the sign bit was set: one byte fewer, and the exponent one more
    rw [if_neg low]
    unfold decode topBytes
    by_cases small : byteSize n + 1 ≤ 3
    · have shift : 3 - byteSize n = (3 - (byteSize n + 1)) + 1 := by omega
      simp only [if_pos small,if_pos (show byteSize n ≤ 3 by omega)]
      rw [shift,pow_succ,← Nat.mul_assoc,Nat.mul_div_cancel _ (by norm_num),Nat.mul_div_cancel _ (pow_byte_pos _)]
    · simp only [if_neg small]
      by_cases three : byteSize n ≤ 3
      · have exactly : byteSize n = 3 := by omega
        simp [exactly]
      · have shift : byteSize n + 1 - 3 = (byteSize n - 3) + 1 := by omega
        rw [if_neg three,Nat.div_div_eq_div_mul,← pow_succ,shift]

theorem size_mul_pow_byte {m : Nat} (nonzero : m ≠ 0) (k : Nat) : (m * 256^k).size = m.size + 8 * k := by
  rw [pow_byte,← Nat.shiftLeft_eq,Nat.size_shiftLeft nonzero]

/-- A mantissa of two bytes and its top bit, or more, shifted up by `k` bytes
    encodes as itself with the exponent `k + 3`. -/
theorem encode_mul_pow_byte {m k : Nat} (lo : 2^15 ≤ m) (hi : m < 2^23) (positive : 0 < k) :
    encode (m * 256^k) = (k + 3,m) := by
  have nonzero : m ≠ 0 := by omega
  have above : 15 < m.size := Nat.lt_size.mpr lo
  have below : m.size ≤ 23 := Nat.size_le.mpr hi
  have size := size_mul_pow_byte nonzero k
  by_cases wide : 2^16 ≤ m
  · have bytes : byteSize (m * 256^k) = k + 3 := by
      have : 16 < m.size := Nat.lt_size.mpr wide
      unfold byteSize
      omega
    have top : topBytes (m * 256^k) (k + 3) = m := by
      unfold topBytes
      rw [if_neg (show ¬k + 3 ≤ 3 by omega),show k + 3 - 3 = k by omega,Nat.mul_div_cancel _ (pow_byte_pos k)]
    unfold encode
    rw [bytes,top,if_pos hi]
  · -- two bytes only: the top three bytes have the sign bit, which moves a byte up
    have bytes : byteSize (m * 256^k) = k + 2 := by
      have : m.size ≤ 16 := Nat.size_le.mpr (by omega)
      unfold byteSize
      omega
    have top : topBytes (m * 256^k) (k + 2) = m * 256 := by
      unfold topBytes
      split_ifs with small
      · obtain rfl : k = 1 := by omega
        simp
      · have split : m * 256^k = m * 256 * 256^(k - 1) := by
          rw [Nat.mul_assoc,← pow_succ',show k - 1 + 1 = k by omega]
        rw [show k + 2 - 3 = k - 1 by omega,split,Nat.mul_div_cancel _ (pow_byte_pos _)]
    unfold encode
    rw [bytes,top,if_neg (show ¬m * 256 < 2^23 by omega),Nat.mul_div_cancel _ (by norm_num)]

/-- The form of a decoded number is the form it was decoded from. -/
theorem encode_decode_encode (n : Nat) : encode (decode (encode n).1 (encode n).2) = encode n := by
  by_cases zero : n = 0
  · simp [zero,encode_zero,decode]
  by_cases small : (encode n).1 ≤ 3
  · rw [decode_encode,if_pos small]
  · have shifted : decode (encode n).1 (encode n).2 = (encode n).2 * 256^((encode n).1 - 3) := by
      unfold decode
      rw [if_neg small]
    rw [shifted,encode_mul_pow_byte (encode_mantissa_ge zero) (encode_mantissa_lt n) (by omega),
      show (encode n).1 - 3 + 3 = (encode n).1 by omega]

/-! ## Rounding down to a form -/

/-- The number the form of `n` stands for. -/
def rounded (n : Nat) : Nat := decode (encode n).1 (encode n).2

/-- A mantissa below the sign bit, shifted up by whole bytes. -/
def Representable (r : Nat) : Prop := ∃ m k, m < 2^23 ∧ r = m * 256^k

theorem rounded_le (n : Nat) : rounded n ≤ n := by
  rw [rounded,decode_encode]
  split_ifs
  · exact le_rfl
  · exact Nat.div_mul_le_self _ _

theorem representable_rounded (n : Nat) : Representable (rounded n) := by
  have mantissa := encode_mantissa_lt n
  unfold rounded decode
  split_ifs
  · exact ⟨_,0,lt_of_le_of_lt (Nat.div_le_self _ _) mantissa,by rw [pow_zero,Nat.mul_one]⟩
  · exact ⟨_,_,mantissa,rfl⟩

/-- Rounding goes down to the largest form below the number. -/
theorem le_rounded {r n : Nat} (rep : Representable r) (le : r ≤ n) : r ≤ rounded n := by
  obtain ⟨m,k,mantissa,rfl⟩ := rep
  by_cases small : (encode n).1 ≤ 3
  · rw [rounded,decode_encode,if_pos small]
    exact le
  have nonzero : n ≠ 0 := fun zero => small (by simp [zero,encode_zero])
  by_cases coarse : (encode n).1 - 3 ≤ k
  · -- a multiple of the form's unit
    have multiple : m * 256^k = m * 256^(k - ((encode n).1 - 3)) * 256^((encode n).1 - 3) := by
      rw [Nat.mul_assoc,pow_byte_add (show k - ((encode n).1 - 3) + ((encode n).1 - 3) = k by omega)]
    rw [rounded,decode_encode,if_neg small,multiple]
    exact Nat.mul_le_mul_right _ ((Nat.le_div_iff_mul_le (pow_byte_pos _)).mpr (by rw [← multiple]; exact le))
  · -- finer than the unit, and so below its smallest mantissa
    have form : rounded n = (encode n).2 * 256^((encode n).1 - 3) := by
      rw [rounded,decode,if_neg small]
    calc m * 256^k ≤ 2^23 * 256^k := Nat.mul_le_mul_right _ mantissa.le
      _ = 2^15 * 256^(k + 1) := by rw [pow_succ]; ring
      _ ≤ 2^15 * 256^((encode n).1 - 3) := Nat.mul_le_mul_left _ (Nat.pow_le_pow_right (by norm_num) (by omega))
      _ ≤ (encode n).2 * 256^((encode n).1 - 3) := Nat.mul_le_mul_right _ (encode_mantissa_ge nonzero)
      _ = rounded n := form.symm

theorem rounded_mono {a b : Nat} (le : a ≤ b) : rounded a ≤ rounded b :=
  le_rounded (representable_rounded a) (le_trans (rounded_le a) le)

end BitcoinPrivate.ByteFloat
