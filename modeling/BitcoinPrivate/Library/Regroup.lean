import BitcoinPrivate.Library.BitStream

/-!
Regrouping a stream of bits: values of `w` bits laid end to end, and the
values of `w` bits that the whole chunks of a stream carry. A stream is cut
once into whole chunks and a tail shorter than a chunk, and only one such cut
exists (`append_inj_of_dvd`). Regrouping one way and back is the identity:
whole chunks flatten back to the stream, and a tail of zero bits shorter than
a chunk adds no chunk. Padding with zero bits up to a multiple of the width,
and what that padding is when the stream itself came from whole values of
another width.
-/
namespace BitcoinPrivate.BitStream

variable {α : Type}

/-- Values of `w` bits laid end to end, most significant first. -/
def bitsOf (w : Nat) (xs : List Nat) : List Bool := xs.flatMap (toBits w)

/-- The values of `w` bits that the whole chunks of a stream carry. -/
def valuesOf (w : Nat) (bits : List Bool) : List Nat := (chunks w bits).map ofBits

/-- Zero bits after a stream, up to the next multiple of `w`. -/
def padBits (w : Nat) (bits : List Bool) : List Bool :=
  bits ++ List.replicate ((w - bits.length % w) % w) false

/-! ## Bits of values -/

@[simp] theorem bitsOf_nil (w : Nat) : bitsOf w [] = [] := rfl

@[simp] theorem bitsOf_cons (w x : Nat) (xs : List Nat) : bitsOf w (x :: xs) = toBits w x ++ bitsOf w xs :=
  List.flatMap_cons

@[simp] theorem length_bitsOf (w : Nat) (xs : List Nat) : (bitsOf w xs).length = w * xs.length :=
  length_flatMap_toBits w xs

theorem toBits_zero : ∀ w : Nat, toBits w 0 = List.replicate w false
  | 0 => rfl
  | w+1 => by rw [toBits,Nat.zero_testBit,toBits_zero w,List.replicate_succ]

/-- The `a + b` low bits of `x`: the `a` above the bottom `b`, then those. -/
theorem toBits_add (a b x : Nat) : toBits (a + b) x = toBits a (x >>> b) ++ toBits b x := by
  induction a with
  | zero => rw [Nat.zero_add,toBits,List.nil_append]
  | succ a ih =>
    rw [show a + 1 + b = (a + b) + 1 by omega,toBits,ih,toBits,List.cons_append,Nat.testBit_shiftRight,Nat.add_comm b a]

@[simp] theorem ofBits_replicate_false (n : Nat) : ofBits (List.replicate n false) = 0 := by
  rw [← toBits_zero,ofBits_toBits,Nat.zero_mod]

/-- A stream that carries zero is all zero bits. -/
theorem eq_replicate_of_ofBits_eq_zero {bits : List Bool} (zero : ofBits bits = 0) :
    bits = List.replicate bits.length false := by
  rw [← toBits_zero,← zero,toBits_ofBits]

/-! ## Whole chunks and a short tail -/

theorem chunks_append_of_dvd {L : Nat} (positive : 0 < L) :
    ∀ {xs ys : List α}, L ∣ xs.length → chunks L (xs ++ ys) = chunks L xs ++ chunks L ys
  | xs, ys, whole => by
    by_cases long : L ≤ xs.length
    · have rest : L ∣ (xs.drop L).length := by
        rw [List.length_drop]
        exact Nat.dvd_sub whole (Nat.dvd_refl L)
      rw [chunks_append_of_le positive long,chunks_of_le positive long,chunks_append_of_dvd positive rest,
        List.cons_append]
    · have empty : xs = [] := List.eq_nil_of_length_eq_zero (Nat.eq_zero_of_dvd_of_lt whole (by omega))
      subst empty
      have none : chunks L ([] : List α) = [] := chunks_of_lt (by simpa using positive)
      rw [List.nil_append,none,List.nil_append]
termination_by xs => xs.length
decreasing_by simp only [List.length_drop]; omega

theorem bitsToBytes_append_of_dvd {done : List Bool} (whole : 8 ∣ done.length) (rest : List Bool) :
    bitsToBytes (done ++ rest) = bitsToBytes done ++ bitsToBytes rest := by
  rw [bitsToBytes,bitsToBytes,bitsToBytes,chunks_append_of_dvd (by norm_num) whole,List.map_append]

/-- Every stream is whole chunks and then a tail shorter than one. -/
theorem exists_whole_append_short {L : Nat} (positive : 0 < L) (bits : List α) :
    ∃ done rest, bits = done ++ rest ∧ L ∣ done.length ∧ rest.length < L := by
  refine ⟨bits.take (L * (bits.length / L)),bits.drop (L * (bits.length / L)),(List.take_append_drop _ _).symm,?_,?_⟩
  · rw [List.length_take,Nat.min_eq_left (Nat.mul_div_le bits.length L)]
    exact Nat.dvd_mul_right L _
  · rw [List.length_drop,← Nat.mod_eq_sub_mul_div]
    exact Nat.mod_lt _ positive

theorem length_mod_of_dvd {L : Nat} {done rest : List α} (whole : L ∣ done.length) (short : rest.length < L) :
    (done ++ rest).length % L = rest.length := by
  obtain ⟨k,length⟩ := whole
  rw [List.length_append,length,Nat.mul_add_mod,Nat.mod_eq_of_lt short]

/-- The cut into whole chunks and a short tail is unique. -/
theorem append_inj_of_dvd {L : Nat} {done rest done' rest' : List α} (same : done ++ rest = done' ++ rest')
    (whole : L ∣ done.length) (whole' : L ∣ done'.length) (short : rest.length < L) (short' : rest'.length < L) :
    done = done' ∧ rest = rest' := by
  have tails : rest.length = rest'.length := by
    rw [← length_mod_of_dvd whole short,← length_mod_of_dvd whole' short',same]
  have lengths := congrArg List.length same
  simp only [List.length_append] at lengths
  exact List.append_inj same (by omega)

/-! ## Values of whole chunks -/

theorem valuesOf_of_lt {w : Nat} {bits : List Bool} (short : bits.length < w) : valuesOf w bits = [] := by
  rw [valuesOf,chunks_of_lt short,List.map_nil]

theorem valuesOf_of_le {w : Nat} {bits : List Bool} (positive : 0 < w) (long : w ≤ bits.length) :
    valuesOf w bits = ofBits (bits.take w) :: valuesOf w (bits.drop w) := by
  rw [valuesOf,chunks_of_le positive long,List.map_cons]
  rfl

theorem valuesOf_of_length_eq {w : Nat} {bits : List Bool} (positive : 0 < w) (exact : bits.length = w) :
    valuesOf w bits = [ofBits bits] := by
  rw [valuesOf,chunks_of_le positive (by omega),List.take_of_length_le (by omega),List.drop_of_length_le (by omega),
    chunks_of_lt (by simpa using positive)]
  rfl

theorem valuesOf_append_of_dvd {w : Nat} {done rest : List Bool} (positive : 0 < w) (whole : w ∣ done.length) :
    valuesOf w (done ++ rest) = valuesOf w done ++ valuesOf w rest := by
  rw [valuesOf,chunks_append_of_dvd positive whole,List.map_append]
  rfl

/-- A tail shorter than a chunk adds no value. -/
theorem valuesOf_append_short {w : Nat} {done rest : List Bool} (positive : 0 < w) (whole : w ∣ done.length)
    (short : rest.length < w) : valuesOf w (done ++ rest) = valuesOf w done := by
  rw [valuesOf_append_of_dvd positive whole,valuesOf_of_lt short,List.append_nil]

theorem lt_of_mem_valuesOf {w x : Nat} {bits : List Bool} (mem : x ∈ valuesOf w bits) : x < 2^w := by
  obtain ⟨c,inside,rfl⟩ := List.mem_map.mp mem
  rw [← length_of_mem_chunks inside]
  exact ofBits_lt c

theorem bitsOf_valuesOf {w : Nat} {bits : List Bool} (positive : 0 < w) (whole : w ∣ bits.length) :
    bitsOf w (valuesOf w bits) = bits := by
  have chunk : ∀ c ∈ chunks w bits, toBits w (ofBits c) = c := by
    intro c mem
    rw [← length_of_mem_chunks mem,toBits_ofBits]
  rw [bitsOf,valuesOf,List.flatMap_map,List.flatMap_def,List.map_congr_left chunk,List.map_id',
    flatten_chunks positive whole]

theorem valuesOf_bitsOf {w : Nat} (positive : 0 < w) {xs : List Nat} (narrow : ∀ x ∈ xs, x < 2^w) :
    valuesOf w (bitsOf w xs) = xs := by
  have value : ∀ x ∈ xs, ofBits (toBits w x) = x := by
    intro x mem
    rw [ofBits_toBits,Nat.mod_eq_of_lt (narrow x mem)]
  rw [valuesOf,bitsOf,List.flatMap_def,chunks_flatten positive (by simp),List.map_map]
  conv_rhs => rw [← List.map_id xs]
  exact List.map_congr_left value

/-! ## Padding -/

/-- The padding count brings a length to a multiple of `w`. -/
theorem dvd_add_pad {w : Nat} (positive : 0 < w) (n : Nat) : w ∣ n + (w - n % w) % w := by
  have below := Nat.mod_lt n positive
  rw [Nat.dvd_iff_mod_eq_zero]
  by_cases whole : n % w = 0
  · rw [whole,Nat.sub_zero,Nat.mod_self,Nat.add_zero,whole]
  · rw [Nat.mod_eq_of_lt (show w - n % w < w by omega),Nat.add_mod,Nat.mod_eq_of_lt (show w - n % w < w by omega),
      show n % w + (w - n % w) = w by omega,Nat.mod_self]

theorem dvd_length_padBits {w : Nat} (positive : 0 < w) (bits : List Bool) : w ∣ (padBits w bits).length := by
  rw [padBits,List.length_append,List.length_replicate]
  exact dvd_add_pad positive _

/-- Padding leaves whole chunks in front as they are. -/
theorem padBits_append_of_dvd {w : Nat} {done : List Bool} (whole : w ∣ done.length) (rest : List Bool) :
    padBits w (done ++ rest) = done ++ padBits w rest := by
  obtain ⟨k,length⟩ := whole
  rw [padBits,padBits,List.length_append,length,Nat.mul_add_mod,List.append_assoc]

/-- Whole chunks padded: the padding fills the last chunk the tail began. -/
theorem padBits_append_short {w : Nat} {done rest : List Bool} (whole : w ∣ done.length) (short : rest.length < w) :
    padBits w (done ++ rest) = done ++ rest ++ List.replicate ((w - rest.length) % w) false := by
  rw [padBits,length_mod_of_dvd whole short]

/-- The number of zero bits that pad whole chunks of `w` cut short by fewer
    than `w` bits is the number cut off. -/
theorem pad_length_of_dvd_add {w n r : Nat} (short : r < w) (whole : w ∣ n + r) : (w - n % w) % w = r := by
  have below := Nat.mod_lt n (show 0 < w by omega)
  have sum : w ∣ n % w + r := by
    have split := Nat.mod_add_div n w
    have shifted : n % w + r = n + r - w * (n / w) := by omega
    rw [shifted]
    exact Nat.dvd_sub whole (Nat.dvd_mul_right w _)
  by_cases empty : n % w + r < w
  · have zero := Nat.eq_zero_of_dvd_of_lt sum empty
    rw [show n % w = 0 by omega,show r = 0 by omega,Nat.sub_zero,Nat.mod_self]
  · have full : n % w + r = w := by
      have excess : w ∣ n % w + r - w := Nat.dvd_sub sum (Nat.dvd_refl w)
      have zero := Nat.eq_zero_of_dvd_of_lt excess (by omega)
      omega
    rw [show w - n % w = r by omega,Nat.mod_eq_of_lt short]

/-! ## An accumulator that is masked -/

/-- Shifting `k` bits into the bottom of an accumulator masked to `width` bits:
    the `a` bits above them are the bottom bits from before. -/
theorem shiftIn_and_mask {x v k a width : Nat} (small : v < 2^k) (fits : a + k ≤ width) :
    ((x <<< k ||| v) &&& (2^width - 1)) % 2^(a + k) = x % 2^a * 2^k + v := by
  apply Nat.eq_of_testBit_eq
  intro i
  rw [Nat.mul_comm,Nat.testBit_two_pow_mul_add _ small]
  simp only [Nat.testBit_mod_two_pow,Nat.testBit_and,Nat.testBit_or,Nat.testBit_shiftLeft,Nat.testBit_two_pow_sub_one]
  by_cases low : i < k
  · simp [low,show i < a + k by omega,show i < width by omega,show ¬k ≤ i by omega]
  · have high : v.testBit i = false := Nat.testBit_lt_two_pow (lt_of_lt_of_le small (Nat.pow_le_pow_right (by norm_num) (by omega)))
    by_cases inside : i < a + k
    · simp [low,high,inside,show i < width by omega,show i - k < a by omega,show k ≤ i by omega]
    · simp [low,high,inside,show ¬i - k < a by omega]

/-- Shifting an accumulator up to `w` bits and masking it there: its bottom
    `b` bits, followed by zeros. -/
theorem shiftLeft_mod_of_le {x b w : Nat} (le : b ≤ w) : (x <<< (w - b)) % 2^w = x % 2^b * 2^(w - b) := by
  rw [Nat.shiftLeft_eq,show 2^w = 2^b * 2^(w - b) by rw [← Nat.pow_add,Nat.add_sub_cancel' le],
    Nat.mul_mod_mul_right]

end BitcoinPrivate.BitStream
