import BitcoinPrivate.Library.Regroup

/-!
`ConvertBits` of `utilstrencodings.h`, and base64 and base32 of
`utilstrencodings.cpp`. A string is its bytes; a C string is the bytes before
its terminating NUL.

`ConvertBits` regroups values of `frombits` bits into values of `tobits`
bits through an accumulator masked to `frombits + tobits - 1` bits. Along the
input, the values of the whole chunks of the bits read so far are out, and the
accumulator holds the tail below a chunk at its bottom (`Carries`, carried by
`convertStep_carries` and `foldl_convertStep_carries`). So with padding the
output is the values of the input bits padded with zeros to whole chunks, and
without it the values of the whole chunks, accepted when the tail is shorter
than an input value and zero. Regrouping one way with padding and back without
it is the identity, and what the second way accepts is what the first way
gives.

The encoders and the decoders are each one definition for both radixes,
`encodeWith` and `decodeWith`, over an alphabet and the table that reads it
back (`RadixCode`).
-/
namespace BitcoinPrivate
open BitStream

/-! ## ConvertBits -/

/-- The inner loop of `ConvertBits`: while `bits` is at least `tobits`, the
    top `tobits` of them go out. A turn takes `tobits` bits, so `bits` turns
    are enough for a positive `tobits` (`fuel`); for `tobits = 0` the source
    does not stop. -/
def drainBits (tobits acc : Nat) : (fuel bits : Nat) → List Nat → Nat × List Nat
  | 0, bits, out => (bits, out)
  | fuel+1, bits, out =>
    if bits ≥ tobits then
      drainBits tobits acc fuel (bits - tobits) (out ++ [(acc >>> (bits - tobits)) &&& (2^tobits - 1)])
    else (bits, out)

/-- A turn of the outer loop of `ConvertBits` on the value `v`. The state is
    the accumulator `acc`, the number `bits` of its bits not out yet, and the
    values given to `outfn` so far. -/
def convertStep (frombits tobits : Nat) (state : Nat × Nat × List Nat) (v : Nat) : Nat × Nat × List Nat :=
  let acc := ((state.1 <<< frombits) ||| v) &&& (2^(frombits + tobits - 1) - 1)
  let drained := drainBits tobits acc (state.2.1 + frombits) (state.2.1 + frombits) state.2.2
  (acc, drained.1, drained.2)

/-- `ConvertBits<frombits, tobits, pad>`: what it returns, and the values it
    calls `outfn` with. -/
def ConvertBits (frombits tobits : Nat) (pad : Bool) (input : List Nat) : Bool × List Nat :=
  let state := input.foldl (convertStep frombits tobits) (0,0,[])
  let acc := state.1
  let bits := state.2.1
  let maxv := 2^tobits - 1
  if pad then (true,if bits ≠ 0 then state.2.2 ++ [(acc <<< (tobits - bits)) &&& maxv] else state.2.2)
  else if bits ≥ frombits ∨ (acc <<< (tobits - bits)) &&& maxv ≠ 0 then (false,state.2.2)
  else (true,state.2.2)

/-! ## What ConvertBits computes -/

/-- The inner loop gives out the values of the whole chunks of the bits the
    accumulator holds at its bottom, and keeps the tail. -/
theorem drainBits_eq {tobits acc : Nat} (positive : 0 < tobits) :
    ∀ {fuel : Nat} {bits : List Bool} (out : List Nat), bits.length ≤ fuel → acc % 2^bits.length = ofBits bits →
      drainBits tobits acc fuel bits.length out = (bits.length % tobits,out ++ valuesOf tobits bits)
  | 0, bits, out, enough, _ => by
    have empty : bits = [] := List.eq_nil_of_length_eq_zero (by omega)
    subst empty
    rw [drainBits,List.length_nil,Nat.zero_mod,valuesOf_of_lt positive,List.append_nil]
  | fuel+1, bits, out, enough, carries => by
    by_cases long : tobits ≤ bits.length
    · have whole : acc % 2^((bits.drop tobits).length + (bits.take tobits).length) =
          ofBits (bits.take tobits ++ bits.drop tobits) := by
        rw [Nat.add_comm,← List.length_append,List.take_append_drop]
        exact carries
      obtain ⟨top,rest⟩ := shiftRight_mod_of_ofBits rfl whole
      rw [List.length_take,Nat.min_eq_left long,List.length_drop] at top
      rw [List.length_drop] at rest
      have next := drainBits_eq positive (out ++ [ofBits (bits.take tobits)])
        (show (bits.drop tobits).length ≤ fuel by rw [List.length_drop]; omega) (by rw [List.length_drop]; exact rest)
      rw [List.length_drop] at next
      rw [drainBits,if_pos long,Nat.and_two_pow_sub_one_eq_mod,top,next,valuesOf_of_le positive long,
        ← Nat.mod_eq_sub_mod long,List.append_assoc,List.singleton_append]
    · rw [drainBits,if_neg long,Nat.mod_eq_of_lt (by omega),valuesOf_of_lt (by omega),List.append_nil]

/-- The state of `ConvertBits` after the bits `done ++ rest`: the values of the
    whole chunks `done` are out, and the accumulator holds the tail `rest` at
    its bottom. -/
structure Carries (tobits : Nat) (done rest : List Bool) (state : Nat × Nat × List Nat) : Prop where
  whole : tobits ∣ done.length
  short : rest.length < tobits
  bits_eq : state.2.1 = rest.length
  out_eq : state.2.2 = valuesOf tobits done
  acc_mod : state.1 % 2^rest.length = ofBits rest

theorem carries_start {tobits : Nat} (positive : 0 < tobits) : Carries tobits [] [] (0,0,[]) where
  whole := Nat.dvd_zero tobits
  short := positive
  bits_eq := rfl
  out_eq := (valuesOf_of_lt positive).symm
  acc_mod := rfl

/-- A turn of the outer loop takes the bits of one more value in. -/
theorem convertStep_carries {frombits tobits v : Nat} {done rest : List Bool} {state : Nat × Nat × List Nat}
    (carries : Carries tobits done rest state) (narrow : v < 2^frombits) :
    ∃ done' rest', done ++ rest ++ toBits frombits v = done' ++ rest' ∧
      Carries tobits done' rest' (convertStep frombits tobits state v) := by
  have positive : 0 < tobits := Nat.lt_of_le_of_lt (Nat.zero_le _) carries.short
  -- the accumulator now holds the tail and the new value below it
  have shifted : (((state.1 <<< frombits) ||| v) &&& (2^(frombits + tobits - 1) - 1)) %
      2^(rest ++ toBits frombits v).length = ofBits (rest ++ toBits frombits v) := by
    have fits : rest.length + frombits ≤ frombits + tobits - 1 := by have := carries.short; omega
    rw [List.length_append,length_toBits,shiftIn_and_mask narrow fits,carries.acc_mod,ofBits_append,length_toBits,
      ofBits_toBits,Nat.mod_eq_of_lt narrow]
  obtain ⟨chunk,tail,split,whole,short⟩ := exists_whole_append_short positive (rest ++ toBits frombits v)
  have drained := drainBits_eq positive state.2.2 (le_refl _) shifted
  have length : state.2.1 + frombits = (rest ++ toBits frombits v).length := by
    rw [List.length_append,length_toBits,carries.bits_eq]
  refine ⟨done ++ chunk,tail,by rw [List.append_assoc,split,List.append_assoc],?_⟩
  have held : (((state.1 <<< frombits) ||| v) &&& (2^(frombits + tobits - 1) - 1)) % 2^(tail.length + chunk.length) =
      ofBits (chunk ++ tail) := by
    rw [show tail.length + chunk.length = (chunk ++ tail).length by rw [List.length_append,Nat.add_comm],← split]
    exact shifted
  constructor
  · rw [List.length_append]
    exact Nat.dvd_add carries.whole whole
  · exact short
  · simp only [convertStep]
    rw [length,drained,split,length_mod_of_dvd whole short]
  · simp only [convertStep]
    rw [length,drained,carries.out_eq,split,valuesOf_append_short positive whole short,
      valuesOf_append_of_dvd positive carries.whole]
  · exact (shiftRight_mod_of_ofBits rfl held).2

/-- The outer loop, by induction along the input. -/
theorem foldl_convertStep_carries {frombits tobits : Nat} :
    ∀ (input : List Nat) {done rest : List Bool} {state : Nat × Nat × List Nat},
      Carries tobits done rest state → (∀ v ∈ input, v < 2^frombits) →
      ∃ done' rest', done ++ rest ++ bitsOf frombits input = done' ++ rest' ∧
        Carries tobits done' rest' (input.foldl (convertStep frombits tobits) state)
  | [], done, rest, _, carries, _ => ⟨done,rest,by rw [bitsOf_nil,List.append_nil],carries⟩
  | v :: input, _, _, _, carries, narrow => by
    obtain ⟨done1,rest1,first,carries1⟩ := convertStep_carries carries (narrow v List.mem_cons_self)
    obtain ⟨done',rest',later,carries'⟩ :=
      foldl_convertStep_carries input carries1 fun v' mem => narrow v' (List.mem_cons_of_mem v mem)
    refine ⟨done',rest',?_,carries'⟩
    rw [bitsOf_cons,← List.append_assoc,first,later]

theorem convert_carries {frombits tobits : Nat} (positive : 0 < tobits) {input : List Nat}
    (narrow : ∀ v ∈ input, v < 2^frombits) :
    ∃ done rest, bitsOf frombits input = done ++ rest ∧
      Carries tobits done rest (input.foldl (convertStep frombits tobits) (0,0,[])) := by
  simpa using foldl_convertStep_carries input (carries_start positive) narrow

/-- The last value out with padding: the tail followed by zeros. -/
theorem padded_value {tobits acc : Nat} {rest : List Bool} (short : rest.length < tobits)
    (acc_mod : acc % 2^rest.length = ofBits rest) :
    (acc <<< (tobits - rest.length)) &&& (2^tobits - 1) =
      ofBits (rest ++ List.replicate (tobits - rest.length) false) := by
  rw [Nat.and_two_pow_sub_one_eq_mod,shiftLeft_mod_of_le (le_of_lt short),acc_mod,ofBits_append,
    ofBits_replicate_false,List.length_replicate,Nat.add_zero]

/-- With padding: the values of the input bits padded with zeros to whole chunks. -/
theorem ConvertBits_pad {frombits tobits : Nat} (positive : 0 < tobits) {input : List Nat}
    (narrow : ∀ v ∈ input, v < 2^frombits) :
    ConvertBits frombits tobits true input = (true,valuesOf tobits (padBits tobits (bitsOf frombits input))) := by
  obtain ⟨done,rest,split,carries⟩ := convert_carries positive narrow
  unfold ConvertBits
  generalize input.foldl (convertStep frombits tobits) (0,0,[]) = state at carries
  rw [split,padBits_append_short carries.whole carries.short,if_pos rfl,carries.bits_eq,carries.out_eq]
  by_cases empty : rest.length = 0
  · rw [List.eq_nil_of_length_eq_zero empty,if_neg (by simp),List.length_nil,Nat.sub_zero,Nat.mod_self,
      List.replicate_zero,List.append_nil,List.append_nil]
  · have full : (rest ++ List.replicate (tobits - rest.length) false).length = tobits := by
      rw [List.length_append,List.length_replicate]
      have := carries.short
      omega
    rw [if_pos empty,padded_value carries.short carries.acc_mod,Nat.mod_eq_of_lt (by omega),List.append_assoc,
      valuesOf_append_of_dvd positive carries.whole,valuesOf_of_length_eq positive full]

/-- Without padding: the values of the whole chunks, accepted when the tail is
    shorter than an input value and zero. -/
theorem ConvertBits_no_pad {frombits tobits : Nat} (positive : 0 < tobits) {input : List Nat}
    (narrow : ∀ v ∈ input, v < 2^frombits) :
    ∃ done rest, bitsOf frombits input = done ++ rest ∧ tobits ∣ done.length ∧ rest.length < tobits ∧
      ConvertBits frombits tobits false input =
        (decide (rest.length < frombits ∧ ofBits rest = 0),valuesOf tobits done) := by
  obtain ⟨done,rest,split,carries⟩ := convert_carries positive narrow
  refine ⟨done,rest,split,carries.whole,carries.short,?_⟩
  unfold ConvertBits
  generalize input.foldl (convertStep frombits tobits) (0,0,[]) = state at carries
  have last := padded_value carries.short carries.acc_mod
  rw [ofBits_append,ofBits_replicate_false,List.length_replicate,Nat.add_zero] at last
  have zero : ofBits rest * 2^(tobits - rest.length) ≠ 0 ↔ ofBits rest ≠ 0 := by
    simp
  rw [if_neg (by decide),carries.bits_eq,carries.out_eq,last]
  by_cases accepted : rest.length < frombits ∧ ofBits rest = 0
  · rw [if_neg (by rw [zero]; omega),decide_eq_true accepted]
  · rw [if_pos (by rw [zero]; omega),decide_eq_false accepted]

theorem lt_of_mem_ConvertBits_no_pad {frombits tobits x : Nat} (positive : 0 < tobits) {input : List Nat}
    (narrow : ∀ v ∈ input, v < 2^frombits) (mem : x ∈ (ConvertBits frombits tobits false input).2) : x < 2^tobits := by
  obtain ⟨done,rest,-,-,-,result⟩ := ConvertBits_no_pad positive narrow
  rw [result] at mem
  exact lt_of_mem_valuesOf mem

/-- Regrouping with padding and back without it gives the input back. -/
theorem ConvertBits_round_trip {frombits tobits : Nat} (positive : 0 < tobits) (le : tobits ≤ frombits)
    {input : List Nat} (narrow : ∀ v ∈ input, v < 2^frombits) :
    ConvertBits tobits frombits false (ConvertBits frombits tobits true input).2 = (true,input) := by
  rw [ConvertBits_pad positive narrow]
  dsimp only
  have narrow' : ∀ y ∈ valuesOf tobits (padBits tobits (bitsOf frombits input)), y < 2^tobits :=
    fun y mem => lt_of_mem_valuesOf mem
  obtain ⟨done,rest,split,whole,short,result⟩ := ConvertBits_no_pad (show 0 < frombits by omega) narrow'
  rw [bitsOf_valuesOf positive (dvd_length_padBits positive _),padBits] at split
  -- the padding is fewer than `tobits` zeros, so no whole value of `frombits`
  have pad : ((tobits - (bitsOf frombits input).length % tobits) % tobits) < tobits := Nat.mod_lt _ positive
  obtain ⟨same,zeros⟩ := append_inj_of_dvd split (by rw [length_bitsOf]; exact Nat.dvd_mul_right _ _) whole
    (by rw [List.length_replicate]; omega) short
  rw [result,← same,← zeros,valuesOf_bitsOf (by omega) narrow,List.length_replicate,ofBits_replicate_false]
  simp only [pad,and_self,decide_true]

/-- What regrouping without padding accepts is what regrouping back with
    padding gives. -/
theorem ConvertBits_canonical {frombits tobits : Nat} (from_pos : 0 < frombits) (positive : 0 < tobits)
    {input output : List Nat} (narrow : ∀ v ∈ input, v < 2^frombits)
    (accepted : ConvertBits frombits tobits false input = (true,output)) :
    ConvertBits tobits frombits true output = (true,input) := by
  obtain ⟨done,rest,split,whole,short,result⟩ := ConvertBits_no_pad positive narrow
  rw [accepted,Prod.mk.injEq] at result
  obtain ⟨valid,values⟩ := result
  obtain ⟨tail_short,tail_zero⟩ := of_decide_eq_true valid.symm
  have narrow' : ∀ x ∈ output, x < 2^tobits := fun x mem => lt_of_mem_valuesOf (values ▸ mem)
  rw [ConvertBits_pad from_pos narrow',values,bitsOf_valuesOf positive whole,padBits]
  have total : frombits ∣ done.length + rest.length := by
    rw [← List.length_append,← split,length_bitsOf]
    exact Nat.dvd_mul_right _ _
  rw [pad_length_of_dvd_add tail_short total,← eq_replicate_of_ofBits_eq_zero tail_zero,← split,
    valuesOf_bitsOf from_pos narrow]

/-! ## Base64 and base32 -/

/-- `ToLower`. -/
def ToLower (c : UInt8) : UInt8 := if c ≥ 0x41 ∧ c ≤ 0x5a then (c - 0x41) + 0x61 else c

/-- The loop `while (str.size() % k) str += '='` of the encoders. -/
def padWithEquals (k : Nat) (str : List UInt8) : List UInt8 := str ++ List.replicate ((k - str.length % k) % k) 0x3d

/-- The encoders, over the alphabet of values of `tobits` bits. -/
def encodeWith (alphabet : List UInt8) (tobits k : Nat) (pch : List UInt8) : List UInt8 :=
  padWithEquals k ((ConvertBits 8 tobits true (pch.map UInt8.toNat)).2.map fun v => alphabet.getD v 0)

/-- The second loop of the decoders, over what the first one left: it passes
    over `'='` up to the terminating NUL, and stops with `valid = false` at any
    other character. What `valid` is then, and how many it passed over. -/
def skipPadding : List UInt8 → Bool × Nat
  | [] => (true,0)
  | c :: p =>
    if c = 0 then (true,0)
    else if c ≠ 0x3d then (false,0)
    else ((skipPadding p).1,(skipPadding p).2 + 1)

/-- Whether the first loop of the decoders reads `c`: it is not the
    terminating NUL, and the table has it. -/
def readsDigit (table : List Int) (c : UInt8) : Bool := c != 0 && table.getD c.toNat (-1) != -1

/-- The value the table gives `c`. -/
def digitValue (table : List Int) (c : UInt8) : Nat := (table.getD c.toNat (-1)).toNat

/-- The decoders, with the table of the values of `frombits` bits: the bytes
    returned and `*pfInvalid`. The first loop reads while `readsDigit`; `p - e`
    is then the number of characters it read and the second loop passed, and
    `p - q` the number the second loop passed. -/
def decodeWith (table : List Int) (frombits k : Nat) (p : List UInt8) : List UInt8 × Bool :=
  let val := (p.takeWhile (readsDigit table)).map (digitValue table)
  let converted := ConvertBits frombits 8 false val
  let padding := if converted.1 then skipPadding (p.dropWhile (readsDigit table)) else (false,0)
  let valid := padding.1 && (val.length + padding.2) % k == 0 && padding.2 < k
  (converted.2.map UInt8.ofNat,!valid)

/-- `pbase64`, as bytes. -/
def pbase64 : List UInt8 :=
  ['A', 'B', 'C', 'D', 'E', 'F', 'G', 'H', 'I', 'J', 'K', 'L', 'M', 'N', 'O', 'P',
   'Q', 'R', 'S', 'T', 'U', 'V', 'W', 'X', 'Y', 'Z', 'a', 'b', 'c', 'd', 'e', 'f',
   'g', 'h', 'i', 'j', 'k', 'l', 'm', 'n', 'o', 'p', 'q', 'r', 's', 't', 'u', 'v',
   'w', 'x', 'y', 'z', '0', '1', '2', '3', '4', '5', '6', '7', '8', '9', '+', '/'].map (·.toNat.toUInt8)

/-- `decode64_table`, with `-1` for the characters it does not have. -/
def decode64_table : List Int := [
    (-1 : Int), (-1 : Int), (-1 : Int), (-1 : Int), (-1 : Int), (-1 : Int), (-1 : Int), (-1 : Int), (-1 : Int), (-1 : Int), (-1 : Int), (-1 : Int), (-1 : Int), (-1 : Int), (-1 : Int), (-1 : Int), (-1 : Int), (-1 : Int), (-1 : Int), (-1 : Int),
    (-1 : Int), (-1 : Int), (-1 : Int), (-1 : Int), (-1 : Int), (-1 : Int), (-1 : Int), (-1 : Int), (-1 : Int), (-1 : Int), (-1 : Int), (-1 : Int), (-1 : Int), (-1 : Int), (-1 : Int), (-1 : Int), (-1 : Int), (-1 : Int), (-1 : Int), (-1 : Int),
    (-1 : Int), (-1 : Int), (-1 : Int), 62, (-1 : Int), (-1 : Int), (-1 : Int), 63, 52, 53, 54, 55, 56, 57, 58, 59, 60, 61, (-1 : Int), (-1 : Int),
    (-1 : Int), (-1 : Int), (-1 : Int), (-1 : Int), (-1 : Int),  0,  1,  2,  3,  4,  5,  6,  7,  8,  9, 10, 11, 12, 13, 14,
    15, 16, 17, 18, 19, 20, 21, 22, 23, 24, 25, (-1 : Int), (-1 : Int), (-1 : Int), (-1 : Int), (-1 : Int), (-1 : Int), 26, 27, 28,
    29, 30, 31, 32, 33, 34, 35, 36, 37, 38, 39, 40, 41, 42, 43, 44, 45, 46, 47, 48,
    49, 50, 51, (-1 : Int), (-1 : Int), (-1 : Int), (-1 : Int), (-1 : Int), (-1 : Int), (-1 : Int), (-1 : Int), (-1 : Int), (-1 : Int), (-1 : Int), (-1 : Int), (-1 : Int), (-1 : Int), (-1 : Int), (-1 : Int), (-1 : Int),
    (-1 : Int), (-1 : Int), (-1 : Int), (-1 : Int), (-1 : Int), (-1 : Int), (-1 : Int), (-1 : Int), (-1 : Int), (-1 : Int), (-1 : Int), (-1 : Int), (-1 : Int), (-1 : Int), (-1 : Int), (-1 : Int), (-1 : Int), (-1 : Int), (-1 : Int), (-1 : Int),
    (-1 : Int), (-1 : Int), (-1 : Int), (-1 : Int), (-1 : Int), (-1 : Int), (-1 : Int), (-1 : Int), (-1 : Int), (-1 : Int), (-1 : Int), (-1 : Int), (-1 : Int), (-1 : Int), (-1 : Int), (-1 : Int), (-1 : Int), (-1 : Int), (-1 : Int), (-1 : Int),
    (-1 : Int), (-1 : Int), (-1 : Int), (-1 : Int), (-1 : Int), (-1 : Int), (-1 : Int), (-1 : Int), (-1 : Int), (-1 : Int), (-1 : Int), (-1 : Int), (-1 : Int), (-1 : Int), (-1 : Int), (-1 : Int), (-1 : Int), (-1 : Int), (-1 : Int), (-1 : Int),
    (-1 : Int), (-1 : Int), (-1 : Int), (-1 : Int), (-1 : Int), (-1 : Int), (-1 : Int), (-1 : Int), (-1 : Int), (-1 : Int), (-1 : Int), (-1 : Int), (-1 : Int), (-1 : Int), (-1 : Int), (-1 : Int), (-1 : Int), (-1 : Int), (-1 : Int), (-1 : Int),
    (-1 : Int), (-1 : Int), (-1 : Int), (-1 : Int), (-1 : Int), (-1 : Int), (-1 : Int), (-1 : Int), (-1 : Int), (-1 : Int), (-1 : Int), (-1 : Int), (-1 : Int), (-1 : Int), (-1 : Int), (-1 : Int), (-1 : Int), (-1 : Int), (-1 : Int), (-1 : Int),
    (-1 : Int), (-1 : Int), (-1 : Int), (-1 : Int), (-1 : Int), (-1 : Int), (-1 : Int), (-1 : Int), (-1 : Int), (-1 : Int), (-1 : Int), (-1 : Int), (-1 : Int), (-1 : Int), (-1 : Int), (-1 : Int)]

/-- `pbase32`, as bytes. -/
def pbase32 : List UInt8 :=
  ['a', 'b', 'c', 'd', 'e', 'f', 'g', 'h', 'i', 'j', 'k', 'l', 'm', 'n', 'o', 'p',
   'q', 'r', 's', 't', 'u', 'v', 'w', 'x', 'y', 'z', '2', '3', '4', '5', '6', '7'].map (·.toNat.toUInt8)

/-- `decode32_table`, with `-1` for the characters it does not have. -/
def decode32_table : List Int := [
    (-1 : Int), (-1 : Int), (-1 : Int), (-1 : Int), (-1 : Int), (-1 : Int), (-1 : Int), (-1 : Int), (-1 : Int), (-1 : Int), (-1 : Int), (-1 : Int), (-1 : Int), (-1 : Int), (-1 : Int), (-1 : Int), (-1 : Int), (-1 : Int), (-1 : Int), (-1 : Int),
    (-1 : Int), (-1 : Int), (-1 : Int), (-1 : Int), (-1 : Int), (-1 : Int), (-1 : Int), (-1 : Int), (-1 : Int), (-1 : Int), (-1 : Int), (-1 : Int), (-1 : Int), (-1 : Int), (-1 : Int), (-1 : Int), (-1 : Int), (-1 : Int), (-1 : Int), (-1 : Int),
    (-1 : Int), (-1 : Int), (-1 : Int), (-1 : Int), (-1 : Int), (-1 : Int), (-1 : Int), (-1 : Int), (-1 : Int), (-1 : Int), 26, 27, 28, 29, 30, 31, (-1 : Int), (-1 : Int), (-1 : Int), (-1 : Int),
    (-1 : Int), (-1 : Int), (-1 : Int), (-1 : Int), (-1 : Int),  0,  1,  2,  3,  4,  5,  6,  7,  8,  9, 10, 11, 12, 13, 14,
    15, 16, 17, 18, 19, 20, 21, 22, 23, 24, 25, (-1 : Int), (-1 : Int), (-1 : Int), (-1 : Int), (-1 : Int), (-1 : Int),  0,  1,  2,
     3,  4,  5,  6,  7,  8,  9, 10, 11, 12, 13, 14, 15, 16, 17, 18, 19, 20, 21, 22,
    23, 24, 25, (-1 : Int), (-1 : Int), (-1 : Int), (-1 : Int), (-1 : Int), (-1 : Int), (-1 : Int), (-1 : Int), (-1 : Int), (-1 : Int), (-1 : Int), (-1 : Int), (-1 : Int), (-1 : Int), (-1 : Int), (-1 : Int), (-1 : Int),
    (-1 : Int), (-1 : Int), (-1 : Int), (-1 : Int), (-1 : Int), (-1 : Int), (-1 : Int), (-1 : Int), (-1 : Int), (-1 : Int), (-1 : Int), (-1 : Int), (-1 : Int), (-1 : Int), (-1 : Int), (-1 : Int), (-1 : Int), (-1 : Int), (-1 : Int), (-1 : Int),
    (-1 : Int), (-1 : Int), (-1 : Int), (-1 : Int), (-1 : Int), (-1 : Int), (-1 : Int), (-1 : Int), (-1 : Int), (-1 : Int), (-1 : Int), (-1 : Int), (-1 : Int), (-1 : Int), (-1 : Int), (-1 : Int), (-1 : Int), (-1 : Int), (-1 : Int), (-1 : Int),
    (-1 : Int), (-1 : Int), (-1 : Int), (-1 : Int), (-1 : Int), (-1 : Int), (-1 : Int), (-1 : Int), (-1 : Int), (-1 : Int), (-1 : Int), (-1 : Int), (-1 : Int), (-1 : Int), (-1 : Int), (-1 : Int), (-1 : Int), (-1 : Int), (-1 : Int), (-1 : Int),
    (-1 : Int), (-1 : Int), (-1 : Int), (-1 : Int), (-1 : Int), (-1 : Int), (-1 : Int), (-1 : Int), (-1 : Int), (-1 : Int), (-1 : Int), (-1 : Int), (-1 : Int), (-1 : Int), (-1 : Int), (-1 : Int), (-1 : Int), (-1 : Int), (-1 : Int), (-1 : Int),
    (-1 : Int), (-1 : Int), (-1 : Int), (-1 : Int), (-1 : Int), (-1 : Int), (-1 : Int), (-1 : Int), (-1 : Int), (-1 : Int), (-1 : Int), (-1 : Int), (-1 : Int), (-1 : Int), (-1 : Int), (-1 : Int), (-1 : Int), (-1 : Int), (-1 : Int), (-1 : Int),
    (-1 : Int), (-1 : Int), (-1 : Int), (-1 : Int), (-1 : Int), (-1 : Int), (-1 : Int), (-1 : Int), (-1 : Int), (-1 : Int), (-1 : Int), (-1 : Int), (-1 : Int), (-1 : Int), (-1 : Int), (-1 : Int)]

/-- `EncodeBase64`. -/
def EncodeBase64 (pch : List UInt8) : List UInt8 := encodeWith pbase64 6 4 pch

/-- `DecodeBase64`. -/
def DecodeBase64 (p : List UInt8) : List UInt8 × Bool := decodeWith decode64_table 6 4 p

/-- `EncodeBase32`. -/
def EncodeBase32 (pch : List UInt8) : List UInt8 := encodeWith pbase32 5 8 pch

/-- `DecodeBase32`. -/
def DecodeBase32 (p : List UInt8) : List UInt8 × Bool := decodeWith decode32_table 5 8 p

/-! ## The codecs -/

/-- An alphabet of the values of `width` bits and the table that reads it
    back. A character the table has, read and written again, is `fold` of it. -/
structure RadixCode (alphabet : List UInt8) (table : List Int) (width : Nat) (fold : UInt8 → UInt8) : Prop where
  width_pos : 0 < width
  width_le : width ≤ 8
  table_alphabet : ∀ v < 2^width, table.getD (alphabet.getD v 0).toNat (-1) = v
  alphabet_table : ∀ n < 256, table.getD n (-1) ≠ -1 →
    0 ≤ table.getD n (-1) ∧ table.getD n (-1) < 2^width ∧ alphabet.getD (table.getD n (-1)).toNat 0 = fold (UInt8.ofNat n)
  nul_absent : table.getD 0 (-1) = -1
  equals_absent : table.getD 0x3d (-1) = -1
  fold_equals : fold 0x3d = 0x3d

theorem skipPadding_replicate : ∀ n : Nat, skipPadding (List.replicate n 0x3d) = (true,n)
  | 0 => rfl
  | n+1 => by rw [List.replicate_succ,skipPadding,if_neg (by decide),if_neg (by decide),skipPadding_replicate n]

/-- Where the second loop gets to the end of a C string, it passed over `'='` only. -/
theorem eq_replicate_of_skipPadding : ∀ {q : List UInt8}, (∀ c ∈ q, c ≠ 0) → (skipPadding q).1 = true →
    q = List.replicate (skipPadding q).2 0x3d
  | [], _, _ => rfl
  | c :: q, nul_free, ended => by
    have nonzero := nul_free c List.mem_cons_self
    by_cases equals : c = 0x3d
    · rw [skipPadding,if_neg nonzero,if_neg (not_not.mpr equals)] at ended ⊢
      rw [eq_replicate_of_skipPadding (fun c' mem => nul_free c' (List.mem_cons_of_mem c mem)) ended,
        skipPadding_replicate,equals,List.replicate_succ]
    · rw [skipPadding,if_neg nonzero,if_pos equals] at ended
      cases ended

theorem map_toNat_ofNat {xs : List Nat} (bytes : ∀ x ∈ xs, x < 2^8) : (xs.map UInt8.ofNat).map UInt8.toNat = xs := by
  rw [List.map_map]
  conv_rhs => rw [← List.map_id xs]
  exact List.map_congr_left fun x mem => by
    rw [Function.comp_apply,UInt8.toNat_ofNat',Nat.mod_eq_of_lt (bytes x mem),id]

theorem map_ofNat_toNat (pch : List UInt8) : (pch.map UInt8.toNat).map UInt8.ofNat = pch := by
  rw [List.map_map]
  conv_rhs => rw [← List.map_id pch]
  exact List.map_congr_left fun c _ => UInt8.ofNat_toNat

theorem bytes_narrow (pch : List UInt8) : ∀ v ∈ pch.map UInt8.toNat, v < 2^8 := by
  intro v mem
  obtain ⟨c,_,rfl⟩ := List.mem_map.mp mem
  exact c.toNat_lt

section Codec

variable {alphabet : List UInt8} {table : List Int} {width : Nat} {fold : UInt8 → UInt8}

/-- A written character is read back as its value. -/
theorem readsDigit_alphabet (code : RadixCode alphabet table width fold) {v : Nat} (small : v < 2^width) :
    readsDigit table (alphabet.getD v 0) = true ∧ digitValue table (alphabet.getD v 0) = v := by
  have back := code.table_alphabet v small
  have nonzero : alphabet.getD v 0 ≠ 0 := by
    intro zero
    rw [zero,UInt8.toNat_zero,code.nul_absent] at back
    omega
  refine ⟨?_,?_⟩
  · rw [readsDigit,back]
    simpa using nonzero
  · rw [digitValue,back,Int.toNat_natCast]

/-- A character read and written again is its `fold`. -/
theorem alphabet_digitValue (code : RadixCode alphabet table width fold) {c : UInt8} (read : readsDigit table c = true) :
    digitValue table c < 2^width ∧ alphabet.getD (digitValue table c) 0 = fold c := by
  have present : table.getD c.toNat (-1) ≠ -1 := by
    rw [readsDigit,Bool.and_eq_true,bne_iff_ne,bne_iff_ne] at read
    exact read.2
  obtain ⟨nonneg,small,written⟩ := code.alphabet_table c.toNat c.toNat_lt present
  rw [UInt8.ofNat_toNat] at written
  exact ⟨by rw [digitValue,Int.toNat_lt nonneg]; exact_mod_cast small,written⟩

theorem readsDigit_equals (code : RadixCode alphabet table width fold) : readsDigit table 0x3d = false := by
  rw [readsDigit,show (0x3d : UInt8).toNat = 0x3d from rfl,code.equals_absent]
  rfl

/-- A decoder reads back what its encoder writes, and accepts it. -/
theorem decodeWith_encodeWith (code : RadixCode alphabet table width fold) {k : Nat} (positive : 0 < k)
    (pch : List UInt8) : decodeWith table width k (encodeWith alphabet width k pch) = (pch,false) := by
  have narrow : ∀ v ∈ (ConvertBits 8 width true (pch.map UInt8.toNat)).2, v < 2^width := by
    rw [ConvertBits_pad code.width_pos (bytes_narrow pch)]
    exact fun v mem => lt_of_mem_valuesOf mem
  have back := ConvertBits_round_trip code.width_pos code.width_le (bytes_narrow pch)
  unfold decodeWith encodeWith padWithEquals
  dsimp only
  generalize (ConvertBits 8 width true (pch.map UInt8.toNat)).2 = values at narrow back ⊢
  have digits : ∀ c ∈ values.map fun v => alphabet.getD v 0, readsDigit table c = true := by
    intro c mem
    obtain ⟨v,inside,rfl⟩ := List.mem_map.mp mem
    exact (readsDigit_alphabet code (narrow v inside)).1
  have read : (values.map fun v => alphabet.getD v 0).map (digitValue table) = values := by
    rw [List.map_map]
    conv_rhs => rw [← List.map_id values]
    exact List.map_congr_left fun v inside => (readsDigit_alphabet code (narrow v inside)).2
  have equals := readsDigit_equals code
  have absent : ¬(false = true) := Bool.false_ne_true
  rw [List.takeWhile_append_of_pos digits,List.takeWhile_replicate,equals,if_neg absent,List.append_nil,
    List.dropWhile_append_of_pos digits,List.dropWhile_replicate,equals,if_neg absent,read,back,
    if_pos rfl,skipPadding_replicate,List.length_map,map_ofNat_toNat]
  have whole := Nat.dvd_iff_mod_eq_zero.mp (dvd_add_pad positive values.length)
  simp [whole,Nat.mod_lt _ positive]

/-- What a decoder accepts in a C string, its encoder writes again, with each
    character folded. -/
theorem encodeWith_decodeWith (code : RadixCode alphabet table width fold) {k : Nat}
    {p : List UInt8} (nul_free : ∀ c ∈ p, c ≠ 0) (accepted : (decodeWith table width k p).2 = false) :
    encodeWith alphabet width k (decodeWith table width k p).1 = p.map fold := by
  have split : p = p.takeWhile (readsDigit table) ++ p.dropWhile (readsDigit table) :=
    List.takeWhile_append_dropWhile.symm
  have narrow : ∀ v ∈ (p.takeWhile (readsDigit table)).map (digitValue table), v < 2^width := by
    intro v mem
    obtain ⟨c,inside,rfl⟩ := List.mem_map.mp mem
    exact (alphabet_digitValue code (List.mem_takeWhile_imp inside)).1
  have written : ((p.takeWhile (readsDigit table)).map (digitValue table)).map (fun v => alphabet.getD v 0) =
      (p.takeWhile (readsDigit table)).map fold := by
    rw [List.map_map]
    exact List.map_congr_left fun c inside => (alphabet_digitValue code (List.mem_takeWhile_imp inside)).2
  have rest_nul_free : ∀ c ∈ p.dropWhile (readsDigit table), c ≠ 0 :=
    fun c mem => nul_free c (split ▸ List.mem_append_right _ mem)
  unfold decodeWith at accepted ⊢
  dsimp only at accepted ⊢
  generalize (p.takeWhile (readsDigit table)).map (digitValue table) = val at narrow written accepted ⊢
  by_cases converted : (ConvertBits width 8 false val).1 = true
  · rw [if_pos converted] at accepted
    simp only [Bool.not_eq_false',Bool.and_eq_true,beq_iff_eq,decide_eq_true_eq] at accepted
    obtain ⟨⟨ended,whole⟩,few⟩ := accepted
    have canonical := ConvertBits_canonical code.width_pos (by norm_num) narrow (Prod.ext converted rfl)
    have bytes : ∀ x ∈ (ConvertBits width 8 false val).2, x < 2^8 :=
      fun x mem => lt_of_mem_ConvertBits_no_pad (by norm_num) narrow mem
    have pads := eq_replicate_of_skipPadding rest_nul_free ended
    unfold encodeWith padWithEquals
    rw [map_toNat_ofNat bytes,canonical]
    dsimp only
    rw [List.length_map,written,pad_length_of_dvd_add few (Nat.dvd_of_mod_eq_zero whole)]
    conv_rhs => rw [split,List.map_append,pads,List.map_replicate,code.fold_equals]
  · rw [if_neg converted] at accepted
    simp at accepted

end Codec

/-! ## Base64 and base32 -/

set_option maxRecDepth 4000 in
theorem base64_code : RadixCode pbase64 decode64_table 6 id where
  width_pos := by decide
  width_le := by decide
  table_alphabet := by decide +kernel
  alphabet_table := by decide +kernel
  nul_absent := rfl
  equals_absent := rfl
  fold_equals := rfl

set_option maxRecDepth 4000 in
theorem base32_code : RadixCode pbase32 decode32_table 5 ToLower where
  width_pos := by decide
  width_le := by decide
  table_alphabet := by decide +kernel
  alphabet_table := by decide +kernel
  nul_absent := rfl
  equals_absent := rfl
  fold_equals := rfl

/-- Base64 and base32 read back what they write and accept it; what they accept
    in a C string they write again, base32 in lower case; and regrouping with
    padding, then back without it, gives the input. -/
theorem radix_codecs_inverse :
    (∀ v : List UInt8, DecodeBase64 (EncodeBase64 v) = (v,false) ∧ DecodeBase32 (EncodeBase32 v) = (v,false)) ∧
    (∀ s : List UInt8, (∀ c ∈ s, c ≠ 0) → (DecodeBase64 s).2 = false → EncodeBase64 (DecodeBase64 s).1 = s) ∧
    (∀ s : List UInt8, (∀ c ∈ s, c ≠ 0) → (DecodeBase32 s).2 = false →
      EncodeBase32 (DecodeBase32 s).1 = s.map ToLower) ∧
    (∀ frombits tobits : Nat, 1 ≤ tobits → tobits ≤ frombits → frombits ≤ 8 → ∀ input : List Nat,
      (∀ x ∈ input, x < 2^frombits) →
        ConvertBits tobits frombits false (ConvertBits frombits tobits true input).2 = (true,input)) := by
  refine ⟨fun v => ⟨decodeWith_encodeWith base64_code (by decide) v,decodeWith_encodeWith base32_code (by decide) v⟩,
    ?_,?_,?_⟩
  · intro s nul_free accepted
    rw [EncodeBase64,DecodeBase64,encodeWith_decodeWith base64_code nul_free accepted,List.map_id]
  · intro s nul_free accepted
    exact encodeWith_decodeWith base32_code nul_free accepted
  · intro frombits tobits positive le _ input narrow
    exact ConvertBits_round_trip positive le narrow

example : EncodeBase64 [0x4d,0x61,0x6e] = [0x54,0x57,0x46,0x75] ∧ EncodeBase64 [0x4d] = [0x54,0x51,0x3d,0x3d] ∧
    DecodeBase64 [0x54,0x51,0x3d,0x3d] = ([0x4d],false) ∧ DecodeBase64 [0x54,0x52,0x3d,0x3d] = ([0x4d],true) := by
  decide

end BitcoinPrivate
