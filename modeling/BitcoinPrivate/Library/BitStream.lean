import Mathlib

/-!
Streams of bits, most significant first. A list of bits carries a number, and
the `w` low bits of a number read back as the list; a stream cut into whole
chunks of one length and flattened again is the stream, when the length
divides it. Bytes are chunks of eight bits. And the two facts of an
accumulator of fixed width that takes bits in at the bottom and gives them
out from the top.
-/
namespace BitcoinPrivate.BitStream

variable {α : Type}

/-- The number a list of bits carries, most significant first. -/
def ofBits : List Bool → Nat
  | [] => 0
  | b :: bits => b.toNat * 2^bits.length + ofBits bits

/-- The `w` low bits of `n`, most significant first. -/
def toBits : Nat → Nat → List Bool
  | 0, _ => []
  | w+1, n => n.testBit w :: toBits w n

/-- The whole chunks of `L` items at the front of a list; the rest is dropped. -/
def chunks (L : Nat) (xs : List α) : List (List α) :=
  if _ : 0 < L ∧ L ≤ xs.length then xs.take L :: chunks L (xs.drop L) else []
termination_by xs.length
decreasing_by simp only [List.length_drop]; omega

/-- The bits of bytes, eight a byte. -/
def bytesToBits (bytes : List UInt8) : List Bool := bytes.flatMap fun b => toBits 8 b.toNat

/-- The bytes of whole chunks of eight bits. -/
def bitsToBytes (bits : List Bool) : List UInt8 := (chunks 8 bits).map fun c => UInt8.ofNat (ofBits c)

/-! ## Numbers -/

@[simp] theorem length_toBits (w n : Nat) : (toBits w n).length = w := by
  induction w with
  | zero => rfl
  | succ w ih => simp [toBits,ih]

theorem length_flatMap_toBits (w : Nat) (ns : List Nat) : (ns.flatMap (toBits w)).length = w * ns.length := by
  simp [List.length_flatMap,Nat.mul_comm]

theorem ofBits_append (xs ys : List Bool) : ofBits (xs ++ ys) = ofBits xs * 2^ys.length + ofBits ys := by
  induction xs with
  | nil => simp [ofBits]
  | cons x xs ih =>
    simp only [List.cons_append,ofBits,ih,List.length_append,pow_add]
    ring

theorem ofBits_lt (bits : List Bool) : ofBits bits < 2^bits.length := by
  induction bits with
  | nil => simp [ofBits]
  | cons b bits ih =>
    have one := Bool.toNat_le b
    have room := Nat.mul_le_mul_right (2^bits.length) one
    rw [ofBits,List.length_cons,pow_succ]
    omega

theorem ofBits_toBits (w n : Nat) : ofBits (toBits w n) = n % 2^w := by
  induction w with
  | zero => simp [toBits,ofBits,Nat.mod_one]
  | succ w ih =>
    rw [toBits,ofBits,ih,length_toBits,Nat.toNat_testBit,Nat.mod_pow_succ]
    ring

/-- `toBits w` reads only the bits below `w`. -/
theorem toBits_congr {m n : Nat} : ∀ {w : Nat}, (∀ i < w, m.testBit i = n.testBit i) → toBits w m = toBits w n
  | 0, _ => rfl
  | w+1, same => by
    rw [toBits,toBits,same w (Nat.lt_succ_self w),toBits_congr fun i below => same i (by omega)]

theorem toBits_ofBits (bits : List Bool) : toBits bits.length (ofBits bits) = bits := by
  induction bits with
  | nil => rfl
  | cons b bits ih =>
    -- the first bit stands above the number the rest carries
    have top : ofBits (b :: bits) = 2^bits.length * b.toNat + ofBits bits := by
      rw [ofBits,Nat.mul_comm]
    have bit := Nat.testBit_two_pow_mul_add b.toNat (ofBits_lt bits)
    have rest : toBits bits.length (2^bits.length * b.toNat + ofBits bits) = toBits bits.length (ofBits bits) :=
      toBits_congr fun i below => by rw [bit,if_pos below]
    rw [List.length_cons,toBits,top,bit,if_neg (Nat.lt_irrefl _),Nat.sub_self,Nat.testBit_zero,rest,ih]
    cases b <;> rfl

theorem toBits_mod_two_pow (w n : Nat) : toBits w (n % 2^w) = toBits w n :=
  toBits_congr fun i below => by rw [Nat.testBit_mod_two_pow,decide_eq_true below,Bool.true_and]

/-! ## Chunks -/

theorem chunks_of_le {L : Nat} {xs : List α} (positive : 0 < L) (long : L ≤ xs.length) :
    chunks L xs = xs.take L :: chunks L (xs.drop L) := by
  rw [chunks,dif_pos ⟨positive,long⟩]

theorem chunks_of_lt {L : Nat} {xs : List α} (short : xs.length < L) : chunks L xs = [] := by
  rw [chunks,dif_neg (by omega)]

theorem chunks_append_of_le {L : Nat} {xs ys : List α} (positive : 0 < L) (long : L ≤ xs.length) :
    chunks L (xs ++ ys) = xs.take L :: chunks L (xs.drop L ++ ys) := by
  rw [chunks_of_le positive (by simp; omega),List.take_append_of_le_length long,
    List.drop_append_of_le_length long]

theorem length_of_mem_chunks {L : Nat} {c : List α} : ∀ {xs : List α}, c ∈ chunks L xs → c.length = L
  | xs, mem => by
    by_cases whole : 0 < L ∧ L ≤ xs.length
    · rw [chunks_of_le whole.1 whole.2,List.mem_cons] at mem
      rcases mem with rfl | rest
      · simp [whole.2]
      · exact length_of_mem_chunks rest
    · rw [chunks,dif_neg whole] at mem
      cases mem
termination_by xs => xs.length
decreasing_by simp only [List.length_drop]; omega

/-- A stream whose length the chunk length divides is the flattening of its chunks. -/
theorem flatten_chunks {L : Nat} (positive : 0 < L) : ∀ {xs : List α}, L ∣ xs.length → (chunks L xs).flatten = xs
  | xs, divides => by
    by_cases long : L ≤ xs.length
    · have rest : L ∣ (xs.drop L).length := by
        rw [List.length_drop]
        exact Nat.dvd_sub divides (Nat.dvd_refl L)
      rw [chunks_of_le positive long,List.flatten_cons,flatten_chunks positive rest,List.take_append_drop]
    · obtain ⟨k,length⟩ := divides
      have empty : xs.length = 0 := by
        rcases k with _ | k
        · simpa using length
        · rw [length,Nat.mul_succ] at long
          omega
      rw [chunks_of_lt (show xs.length < L by omega),List.flatten_nil,eq_comm,← List.length_eq_zero_iff]
      exact empty
termination_by xs => xs.length
decreasing_by simp only [List.length_drop]; omega

/-- Chunks of the chunk length flattened are cut back into the same chunks. -/
theorem chunks_flatten {L : Nat} (positive : 0 < L) :
    ∀ {cs : List (List α)}, (∀ c ∈ cs, c.length = L) → chunks L cs.flatten = cs
  | [], _ => chunks_of_lt (by simpa using positive)
  | c :: cs, lengths => by
    have first := lengths c List.mem_cons_self
    rw [List.flatten_cons,chunks_append_of_le positive (by omega),List.take_of_length_le (by omega),
      List.drop_of_length_le (by omega),List.nil_append,
      chunks_flatten positive fun c' mem => lengths c' (List.mem_cons_of_mem c mem)]

theorem length_chunks {L : Nat} (positive : 0 < L) (xs : List α) : (chunks L xs).length = xs.length / L := by
  by_cases long : L ≤ xs.length
  · rw [chunks_of_le positive long,List.length_cons,length_chunks positive (xs.drop L),List.length_drop,
      Nat.div_eq_sub_div positive long]
  · rw [chunks_of_lt (show xs.length < L by omega),Nat.div_eq_of_lt (show xs.length < L by omega)]
    rfl
termination_by xs.length
decreasing_by simp only [List.length_drop]; omega

/-! ## Bytes -/

@[simp] theorem length_bytesToBits (bytes : List UInt8) : (bytesToBits bytes).length = 8 * bytes.length := by
  induction bytes with
  | nil => rfl
  | cons b bytes ih =>
    simp only [bytesToBits,List.flatMap_cons,List.length_append,length_toBits] at ih ⊢
    rw [ih,List.length_cons]
    ring

theorem bitsToBytes_bytesToBits (bytes : List UInt8) : bitsToBytes (bytesToBits bytes) = bytes := by
  have byte : ∀ b : UInt8, UInt8.ofNat (ofBits (toBits 8 b.toNat)) = b := by
    intro b
    rw [ofBits_toBits,Nat.mod_eq_of_lt b.toNat_lt,UInt8.ofNat_toNat]
  rw [bitsToBytes,bytesToBits,List.flatMap_def,
    chunks_flatten (by norm_num) (by simp),List.map_map]
  conv_rhs => rw [← List.map_id bytes]
  exact List.map_congr_left fun b _ => byte b

theorem bytesToBits_bitsToBytes {bits : List Bool} (whole : 8 ∣ bits.length) : bytesToBits (bitsToBytes bits) = bits := by
  have chunk : ∀ c ∈ chunks 8 bits, toBits 8 (UInt8.ofNat (ofBits c)).toNat = c := by
    intro c mem
    have eight := length_of_mem_chunks mem
    rw [UInt8.toNat_ofNat',← eight,toBits_mod_two_pow,toBits_ofBits]
  rw [bytesToBits,bitsToBytes,List.flatMap_map,List.flatMap_def,List.map_congr_left chunk,List.map_id',
    flatten_chunks (by norm_num) whole]

/-- The first byte of a stream of at least `n+1` bytes, then the rest. -/
theorem bitsToBytes_take_succ {n : Nat} {bits : List Bool} (long : 8 * (n + 1) ≤ bits.length) :
    bitsToBytes (bits.take (8 * (n + 1))) = UInt8.ofNat (ofBits (bits.take 8)) :: bitsToBytes ((bits.drop 8).take (8 * n)) := by
  rw [bitsToBytes,chunks_of_le (by norm_num) (by simp; omega),List.take_take,List.drop_take,List.map_cons,
    Nat.min_eq_left (by omega),show 8 * (n + 1) - 8 = 8 * n by omega]
  rfl

/-! ## An accumulator of width `width` -/

/-- Shifting `k` bits into the bottom of an accumulator: the bits `a` above
    them that were at the bottom before move up, where they stay below the width. -/
theorem shiftIn_mod {x v k a width : Nat} (small : v < 2^k) (fits : a + k ≤ width) :
    ((x <<< k) % 2^width ||| v) % 2^(a + k) = x % 2^a * 2^k + v := by
  apply Nat.eq_of_testBit_eq
  intro i
  rw [Nat.mul_comm,Nat.testBit_two_pow_mul_add _ small]
  simp only [Nat.testBit_mod_two_pow,Nat.testBit_or,Nat.testBit_shiftLeft]
  by_cases low : i < k
  · simp [low,show i < a + k by omega,show ¬k ≤ i by omega]
  · have high : v.testBit i = false := Nat.testBit_lt_two_pow (lt_of_lt_of_le small (Nat.pow_le_pow_right (by norm_num) (by omega)))
    by_cases inside : i < a + k
    · simp [low,high,inside,show i < width by omega,show i - k < a by omega,show k ≤ i by omega]
    · simp [low,high,inside,show ¬i - k < a by omega]

/-- The top `L` bits of the `r + L` bottom bits of an accumulator, and the
    `r` below them. -/
theorem shiftRight_mod_of_ofBits {x r : Nat} {top rest : List Bool} (length : rest.length = r)
    (carries : x % 2^(r + top.length) = ofBits (top ++ rest)) :
    (x >>> r) % 2^top.length = ofBits top ∧ x % 2^r = ofBits rest := by
  have low : ofBits rest < 2^r := length ▸ ofBits_lt rest
  rw [ofBits_append,length] at carries
  constructor
  · calc (x >>> r) % 2^top.length
        = x % (2^r * 2^top.length) / 2^r := by rw [Nat.shiftRight_eq_div_pow,Nat.mod_mul_right_div_self]
      _ = (ofBits rest + ofBits top * 2^r) / 2^r := by rw [← Nat.pow_add,carries,Nat.add_comm]
      _ = ofBits top := by rw [Nat.add_mul_div_right _ _ (by positivity),Nat.div_eq_of_lt low,Nat.zero_add]
  · rw [← Nat.mod_mod_of_dvd x (Nat.pow_dvd_pow 2 (Nat.le_add_right r top.length)),carries,
      Nat.mul_add_mod_of_lt low]

/-- Masking the bits below `L` commutes with a shift down. -/
theorem shiftRight_and_mask (x s L : Nat) : (x >>> s) &&& ((2^L - 1) >>> s) = (x % 2^L) >>> s := by
  apply Nat.eq_of_testBit_eq
  intro i
  simp only [Nat.testBit_and,Nat.testBit_shiftRight,Nat.testBit_two_pow_sub_one,Nat.testBit_mod_two_pow]
  cases x.testBit (s + i) <;> simp

/-- The bits of `e` from byte `k` up: those from byte `k+1` up, and byte `k`
    masked to the `L` bits `e` has. -/
theorem shiftLeft_or_byte {e L k : Nat} (small : e < 2^L) (narrow : L ≤ 32) :
    (e >>> (8 * k + 8) <<< (8 * k + 8)) |||
        ((((e >>> (8 * k)) % 2^8 &&& ((2^L - 1) >>> (8 * k) &&& (2^8 - 1))) <<< (8 * k)) % 2^32) =
      e >>> (8 * k) <<< (8 * k) := by
  apply Nat.eq_of_testBit_eq
  intro i
  simp only [Nat.testBit_or,Nat.testBit_shiftLeft,Nat.testBit_shiftRight,Nat.testBit_mod_two_pow,Nat.testBit_and,
    Nat.testBit_two_pow_sub_one]
  -- the bits of byte `k` that the mask keeps are all the bits `e` has there
  by_cases high : L ≤ i
  · have zero : e.testBit i = false :=
      Nat.testBit_lt_two_pow (lt_of_lt_of_le small (Nat.pow_le_pow_right (by norm_num) high))
    by_cases above : 8 * k ≤ i
    · by_cases top : 8 * k + 8 ≤ i
      · simp [above,top,Nat.add_sub_cancel' above,Nat.add_sub_cancel' top,zero]
      · simp [above,top,Nat.add_sub_cancel' above,zero]
    · simp [above,show ¬8 * k + 8 ≤ i by omega]
  · by_cases above : 8 * k ≤ i
    · by_cases top : 8 * k + 8 ≤ i
      · simp [above,top,Nat.add_sub_cancel' above,Nat.add_sub_cancel' top]
        omega
      · simp [above,top,Nat.add_sub_cancel' above,show i - 8 * k < 8 by omega,show i < 32 by omega,
          show i < L by omega]
    · simp [above,show ¬8 * k + 8 ≤ i by omega]

/-- An invariant of a loop over `s, s+1, ..., s+n-1`, indexed by the steps taken. -/
theorem foldl_range'_induction {β : Type} {f : β → Nat → β} {init : β} {s : Nat} (P : Nat → β → Prop)
    (start : P 0 init) : ∀ {n : Nat}, (∀ j < n, ∀ v, P j v → P (j + 1) (f v (s + j))) →
      P n ((List.range' s n).foldl f init)
  | 0, _ => start
  | n+1, step => by
    rw [List.range'_1_concat,List.foldl_append,List.foldl_cons,List.foldl_nil]
    exact step n (by omega) _ (foldl_range'_induction P start fun j below => step j (by omega))

end BitcoinPrivate.BitStream
