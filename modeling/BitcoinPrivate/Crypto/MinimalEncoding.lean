import BitcoinPrivate.Crypto.Equihash
import BitcoinPrivate.Library.BitStream

/-!
The minimal encoding of Equihash solutions in `equihash.cpp`. `CompressArray`
packs the low `bit_len` bits of each element of `(bit_len+7)/8 + byte_pad`
bytes into one big-endian stream of bits, and `GetMinimalFromIndices` packs a
solution's indices that way; `ExpandArray` and `GetIndicesFromMinimal` cut the
stream back into elements. Both loops keep the bits not yet written at the
bottom of a 32-bit accumulator, so each is a regrouping of one stream of bits:
`ExpandArray` from bytes into chunks of `bit_len` (`ExpandArray_eq`), and
`CompressArray` from chunks of `bit_len` into bytes (`compressFrom_eq`). The
round trips follow from the two regroupings undoing each other, for the widths
the asserts of the two loops allow.
-/
namespace BitcoinPrivate.Equihash
open LittleEndian BitStream

/-- The fold of `CompressArray` over the bytes of one element: the
    accumulator shifted up by `bit_len`, with the low `bit_len` bits of the
    element's bytes after `byte_pad` put in below, big-endian. -/
def compressElement (bit_len byte_pad : Nat) (input : List UInt8) (acc_value : UInt32) : UInt32 :=
  let in_width := (bit_len + 7) / 8 + byte_pad
  let bit_len_mask : UInt32 := ((1 : UInt32) <<< bit_len.toUInt32) - 1
  (List.range' byte_pad (in_width - byte_pad)).foldl (fun acc_value x =>
    acc_value ||| (((input.getD x 0).toUInt32 &&& ((bit_len_mask >>> (8 * (in_width - x - 1)).toUInt32) &&& 0xFF)) <<<
      (8 * (in_width - x - 1)).toUInt32))
    (acc_value <<< bit_len.toUInt32)

/-- The loop of `CompressArray` over the `out_len` bytes still to write, with
    `acc_bits` bits waiting in the accumulator and `input` the elements not yet
    read. -/
def compressFrom (bit_len byte_pad : Nat) : Nat → List UInt8 → Nat → UInt32 → List UInt8
  | 0, _, _, _ => []
  | out_len+1, input, acc_bits, acc_value =>
    let in_width := (bit_len + 7) / 8 + byte_pad
    -- When we have fewer than 8 bits left in the accumulator, read the next input element.
    let (input,acc_bits,acc_value) :=
      if acc_bits < 8 then (input.drop in_width,acc_bits + bit_len,compressElement bit_len byte_pad input acc_value)
      else (input,acc_bits,acc_value)
    ((acc_value >>> (acc_bits - 8).toUInt32) &&& 0xFF).toUInt8 ::
      compressFrom bit_len byte_pad out_len input (acc_bits - 8) acc_value

/-- `CompressArray`, with its asserts. -/
def CompressArray (input : List UInt8) (out_len bit_len byte_pad : Nat) : Except String (List UInt8) := do
  if bit_len < 8 then throw "Assertion bit_len >= 8 failed"
  if 8 * 4 < 7 + bit_len then throw "Assertion 8*sizeof(uint32_t) >= 7+bit_len failed"
  let in_width := (bit_len + 7) / 8 + byte_pad
  if out_len ≠ bit_len * input.length / (8 * in_width) then
    throw "Assertion out_len == bit_len*in_len/(8*in_width) failed"
  pure (compressFrom bit_len byte_pad out_len input 0 0)

/-- `GetMinimalFromIndices`: the indices as four big-endian bytes each, packed
    `cBitLen+1` bits an index. -/
def GetMinimalFromIndices (indices : List eh_index) (cBitLen : Nat) : Except String (List UInt8) := do
  if 4 < ((cBitLen + 1) + 7) / 8 then throw "Assertion ((cBitLen+1)+7)/8 <= sizeof(eh_index) failed"
  let lenIndices := indices.length * 4
  let minLen := (cBitLen + 1) * lenIndices / (8 * 4)
  let bytePad := 4 - ((cBitLen + 1) + 7) / 8
  let array := indices.flatMap EhIndexToArray
  CompressArray array minLen (cBitLen + 1) bytePad

/-- The bytes of the element `e` in the layout of both loops: `byte_pad` zeros,
    then the `(bit_len+7)/8` bytes of `e`, most significant first. -/
def elementBytes (bit_len byte_pad e : Nat) : List UInt8 :=
  List.replicate byte_pad 0 ++ (leBytes e ((bit_len + 7) / 8)).reverse

@[simp] theorem length_elementBytes (bit_len byte_pad e : Nat) :
    (elementBytes bit_len byte_pad e).length = (bit_len + 7) / 8 + byte_pad := by
  simp [elementBytes,Nat.add_comm]

/-! ## The accumulator in `UInt32` -/

theorem toNat_shift {n : Nat} (small : n < 32) : n.toUInt32.toNat % 32 = n := by
  rw [UInt32.toNat_ofNat',Nat.mod_eq_of_lt (show n < 2^32 by omega),Nat.mod_eq_of_lt small]

theorem toNat_mask {bit_len : Nat} (narrow : bit_len < 32) :
    (((1 : UInt32) <<< bit_len.toUInt32) - 1).toNat = 2^bit_len - 1 := by
  have small : 2^bit_len < 2^32 := Nat.pow_lt_pow_right (by norm_num) narrow
  have pos : 0 < 2^bit_len := by positivity
  rw [UInt32.toNat_sub,UInt32.toNat_shiftLeft,toNat_shift narrow,UInt32.toNat_one,Nat.one_shiftLeft,
    Nat.mod_eq_of_lt small]
  generalize 2^bit_len = p at small pos ⊢
  omega

/-- The byte at `k` bytes from the bottom of the element above the low
    `acc_bits` bits, masked to `bit_len` bits. -/
theorem expandByte_eq {bit_len acc_bits k : Nat} (fits : acc_bits + 8 * k < 32) (narrow : bit_len < 32)
    (acc_value : UInt32) :
    ((acc_value >>> (acc_bits + 8 * k).toUInt32) &&&
        (((((1 : UInt32) <<< bit_len.toUInt32) - 1) >>> (8 * k).toUInt32) &&& 0xFF)).toUInt8 =
      UInt8.ofNat ((acc_value.toNat >>> acc_bits) % 2^bit_len / 256^k % 256) := by
  apply UInt8.toNat_inj.mp
  have masked : (acc_value.toNat >>> (acc_bits + 8 * k)) &&& ((2^bit_len - 1) >>> (8 * k) &&& 255) =
      (acc_value.toNat >>> acc_bits) % 2^bit_len / 256^k % 256 := by
    rw [← Nat.and_assoc,Nat.shiftRight_add,shiftRight_and_mask,show (255 : Nat) = 2^8 - 1 by rfl,
      Nat.and_two_pow_sub_one_eq_mod,Nat.shiftRight_eq_div_pow,Nat.pow_mul]
  rw [UInt32.toNat_toUInt8,UInt32.toNat_and,UInt32.toNat_and,UInt32.toNat_shiftRight,UInt32.toNat_shiftRight,
    toNat_shift fits,toNat_shift (by omega),toNat_mask narrow,show (0xFF : UInt32).toNat = 255 from rfl,masked,
    UInt8.toNat_ofNat']

/-- One element as `ExpandArray` writes it: the `bit_len` bits above the low
    `acc_bits` of the accumulator, in the layout of both loops. -/
theorem expandElement_eq {bit_len byte_pad acc_bits : Nat} (narrow : bit_len ≤ 25) (low : acc_bits < 8)
    (acc_value : UInt32) :
    expandElement bit_len byte_pad acc_bits acc_value =
      elementBytes bit_len byte_pad ((acc_value.toNat >>> acc_bits) % 2^bit_len) := by
  rw [expandElement,elementBytes]
  congr 1
  apply List.ext_getElem (by simp)
  intro j inside inside'
  simp only [List.length_map,List.length_range'] at inside
  -- the `j`-th byte written is the `(W-1-j)`-th of the element from the bottom
  have offset : (bit_len + 7) / 8 + byte_pad - (byte_pad + j) - 1 = (bit_len + 7) / 8 - 1 - j := by omega
  have byte := @getD_leBytes ((acc_value.toNat >>> acc_bits) % 2^bit_len) _ _
    (show (bit_len + 7) / 8 - 1 - j < (bit_len + 7) / 8 by omega)
  rw [List.getD_eq_getElem _ _ (by simp; omega)] at byte
  simp only [List.getElem_map,List.getElem_range',List.getElem_reverse,Nat.one_mul,offset,leBytes_length,byte]
  exact expandByte_eq (by omega) (by omega) acc_value

/-- A byte shifted into the accumulator: the pending bits, then the byte's. -/
theorem shiftByte_carries {pending : List Bool} {acc_value : UInt32} (fits : pending.length + 8 ≤ 32)
    (carries : acc_value.toNat % 2^pending.length = ofBits pending) (b : UInt8) :
    ((acc_value <<< 8) ||| b.toUInt32).toNat % 2^(pending.length + 8) = ofBits (pending ++ toBits 8 b.toNat) := by
  rw [UInt32.toNat_or,UInt32.toNat_shiftLeft,show (8 : UInt32).toNat % 32 = 8 from rfl,UInt8.toNat_toUInt32,
    shiftIn_mod b.toNat_lt fits,ofBits_append,carries,length_toBits,ofBits_toBits,Nat.mod_eq_of_lt b.toNat_lt]

/-- The loop of `ExpandArray`: with the bits `pending` waiting at the bottom of
    the accumulator, it writes the whole chunks of `bit_len` bits of the
    pending bits and then the input's. The induction is on the input bytes. -/
theorem expandFrom_eq {bit_len byte_pad : Nat} (wide : 8 ≤ bit_len) (narrow : bit_len ≤ 25) :
    ∀ (input : List UInt8) (pending : List Bool) (acc_value : UInt32), pending.length < bit_len →
      acc_value.toNat % 2^pending.length = ofBits pending →
      expandFrom bit_len byte_pad input pending.length acc_value =
        (chunks bit_len (pending ++ bytesToBits input)).flatMap fun c => elementBytes bit_len byte_pad (ofBits c)
  | [], pending, _, short, _ => by
    rw [expandFrom,bytesToBits,List.flatMap_nil,List.append_nil,chunks_of_lt short]
    rfl
  | b :: input, pending, acc_value, short, carries => by
    have shifted := shiftByte_carries (by omega) carries b
    have stream : pending ++ bytesToBits (b :: input) = (pending ++ toBits 8 b.toNat) ++ bytesToBits input := by
      simp [bytesToBits]
    have length : (pending ++ toBits 8 b.toNat).length = pending.length + 8 := by simp
    rw [expandFrom,stream]
    split_ifs with full
    · -- an element is complete: it is the first `bit_len` bits of the pending ones and the byte's
      generalize pending ++ toBits 8 b.toNat = bits at shifted length
      have carries' : ((acc_value <<< 8) ||| b.toUInt32).toNat % 2^((bits.drop bit_len).length + (bits.take bit_len).length) =
          ofBits (bits.take bit_len ++ bits.drop bit_len) := by
        rw [List.take_append_drop,List.length_take,List.length_drop,length,Nat.min_eq_left (by omega),
          Nat.sub_add_cancel (by omega),shifted]
      obtain ⟨element,remaining⟩ := shiftRight_mod_of_ofBits rfl carries'
      rw [List.length_take_of_le (by omega)] at element
      rw [chunks_append_of_le (by omega) (by omega),List.flatMap_cons,
        show pending.length + 8 - bit_len = (bits.drop bit_len).length by simp [length],
        expandElement_eq narrow (by simp [length]; omega),element,
        expandFrom_eq wide narrow input _ _ (by simp [length]; omega) remaining]
    · rw [← length,expandFrom_eq wide narrow input _ _ (by omega) (length ▸ shifted)]

theorem ExpandArray_eq {bit_len byte_pad : Nat} (wide : 8 ≤ bit_len) (narrow : bit_len ≤ 25) (input : List UInt8) :
    ExpandArray input bit_len byte_pad =
      (chunks bit_len (bytesToBits input)).flatMap fun c => elementBytes bit_len byte_pad (ofBits c) :=
  expandFrom_eq wide narrow input [] 0 (by simp; omega) rfl

/-- The byte at offset `byte_pad + j` of an element is its byte `j` from the top. -/
theorem getD_elementBytes {bit_len byte_pad e j : Nat} (inside : j < (bit_len + 7) / 8) (rest : List UInt8) :
    (elementBytes bit_len byte_pad e ++ rest).getD (byte_pad + j) 0 =
      UInt8.ofNat (e / 256^((bit_len + 7) / 8 - 1 - j) % 256) := by
  rw [elementBytes,List.append_assoc,List.getD_append_right _ _ _ _ (by simp),List.length_replicate,
    Nat.add_sub_cancel_left,List.getD_append _ _ _ _ (by simpa using inside),List.getD_eq_getElem _ _ (by simpa using inside),
    List.getElem_reverse,← List.getD_eq_getElem _ 0,leBytes_length,getD_leBytes (by omega)]

/-- `CompressArray` reads an element of the layout of both loops: the
    accumulator shifted up by `bit_len`, and the element below. The fold is over
    the bytes read, with the bits of the element from byte `W - j` up put in
    after `j` of them. -/
theorem compressElement_eq {bit_len byte_pad e : Nat} (wide : 8 ≤ bit_len) (narrow : bit_len ≤ 25)
    (small : e < 2^bit_len) (rest : List UInt8) (acc_value : UInt32) :
    (compressElement bit_len byte_pad (elementBytes bit_len byte_pad e ++ rest) acc_value).toNat =
      (acc_value.toNat <<< bit_len) % 2^32 ||| e := by
  have room : e < 2^(8 * ((bit_len + 7) / 8)) := lt_of_lt_of_le small (Nat.pow_le_pow_right (by norm_num) (by omega))
  rw [compressElement,Nat.add_sub_cancel,show (acc_value.toNat <<< bit_len) % 2^32 ||| e = (acc_value.toNat <<< bit_len) % 2^32 |||
    (e >>> (8 * ((bit_len + 7) / 8 - (bit_len + 7) / 8)) <<< (8 * ((bit_len + 7) / 8 - (bit_len + 7) / 8))) by simp]
  refine foldl_range'_induction (fun j (v : UInt32) => v.toNat = (acc_value.toNat <<< bit_len) % 2^32 |||
      (e >>> (8 * ((bit_len + 7) / 8 - j)) <<< (8 * ((bit_len + 7) / 8 - j)))) ?_ ?_
  · rw [UInt32.toNat_shiftLeft,toNat_shift (by omega),Nat.sub_zero,Nat.shiftRight_eq_div_pow,Nat.div_eq_of_lt room,
      Nat.zero_shiftLeft,Nat.or_zero]
  · intro j inside v carries
    -- the `j`-th byte read is byte `k` of the element from the bottom
    obtain ⟨k,offset⟩ : ∃ k, (bit_len + 7) / 8 - 1 - j = k := ⟨_,rfl⟩
    have down : (bit_len + 7) / 8 + byte_pad - (byte_pad + j) - 1 = k := by omega
    have up : (bit_len + 7) / 8 - j = k + 1 := by omega
    have next : (bit_len + 7) / 8 - (j + 1) = k := by omega
    have byte : e / 256^k % 256 % 2^8 = (e >>> (8 * k)) % 2^8 := by
      rw [Nat.shiftRight_eq_div_pow,Nat.pow_mul]
      norm_num
    rw [up,Nat.mul_succ] at carries
    rw [getD_elementBytes inside,offset,down,next,UInt32.toNat_or,UInt32.toNat_shiftLeft,UInt32.toNat_and,
      UInt32.toNat_and,UInt32.toNat_shiftRight,toNat_shift (by omega),toNat_mask (by omega),UInt8.toNat_toUInt32,
      UInt8.toNat_ofNat',show (255 : UInt32).toNat = 2^8 - 1 from rfl,carries,Nat.or_assoc,byte,
      shiftLeft_or_byte small (by omega)]

/-- An element read into the accumulator: the pending bits, then the element's. -/
theorem readElement_carries {bit_len byte_pad e : Nat} (wide : 8 ≤ bit_len) (narrow : bit_len ≤ 25)
    (small : e < 2^bit_len) {pending : List Bool} {acc_value : UInt32} (low : pending.length < 8)
    (carries : acc_value.toNat % 2^pending.length = ofBits pending) (rest : List UInt8) :
    (compressElement bit_len byte_pad (elementBytes bit_len byte_pad e ++ rest) acc_value).toNat %
        2^(pending.length + bit_len) = ofBits (pending ++ toBits bit_len e) := by
  rw [compressElement_eq wide narrow small,shiftIn_mod small (by omega),carries,ofBits_append,length_toBits,
    ofBits_toBits,Nat.mod_eq_of_lt small]

/-- The byte written from the top of the pending bits, and the bits left. -/
theorem emitByte {pending : List Bool} {acc_value : UInt32} (full : 8 ≤ pending.length) (fits : pending.length ≤ 32)
    (carries : acc_value.toNat % 2^pending.length = ofBits pending) :
    ((acc_value >>> (pending.length - 8).toUInt32) &&& 0xFF).toUInt8 = UInt8.ofNat (ofBits (pending.take 8)) ∧
      acc_value.toNat % 2^(pending.drop 8).length = ofBits (pending.drop 8) := by
  have split : acc_value.toNat % 2^((pending.drop 8).length + (pending.take 8).length) =
      ofBits (pending.take 8 ++ pending.drop 8) := by
    rw [List.take_append_drop,List.length_drop,List.length_take,Nat.min_eq_left full,Nat.sub_add_cancel full,carries]
  obtain ⟨top,rest⟩ := shiftRight_mod_of_ofBits rfl split
  refine ⟨?_,rest⟩
  apply UInt8.toNat_inj.mp
  rw [List.length_take,Nat.min_eq_left full,List.length_drop] at top
  rw [UInt32.toNat_toUInt8,UInt32.toNat_and,UInt32.toNat_shiftRight,toNat_shift (by omega),
    show (0xFF : UInt32).toNat = 2^8 - 1 from rfl,Nat.and_two_pow_sub_one_eq_mod,Nat.mod_mod,top,UInt8.toNat_ofNat',
    Nat.mod_eq_of_lt (by simpa [Nat.min_eq_left full] using ofBits_lt (pending.take 8))]

/-- The loop of `CompressArray` over elements of the layout of both loops: with
    the bits `pending` waiting at the bottom of the accumulator, it writes the
    bytes of the pending bits and then the elements', as many as it is asked
    for while the elements last. The induction is on the bytes to write. -/
theorem compressFrom_eq {bit_len byte_pad : Nat} (wide : 8 ≤ bit_len) (narrow : bit_len ≤ 25) :
    ∀ (out_len : Nat) (elements : List Nat) (pending : List Bool) (acc_value : UInt32),
      (∀ e ∈ elements, e < 2^bit_len) → pending.length < bit_len →
      acc_value.toNat % 2^pending.length = ofBits pending →
      8 * out_len ≤ pending.length + bit_len * elements.length →
      compressFrom bit_len byte_pad out_len (elements.flatMap (elementBytes bit_len byte_pad)) pending.length acc_value =
        bitsToBytes ((pending ++ elements.flatMap (toBits bit_len)).take (8 * out_len))
  | 0, _, _, _, _, _, _, _ => by
    rw [Nat.mul_zero,List.take_zero,bitsToBytes,chunks_of_lt (by simp)]
    rfl
  | out_len+1, elements, pending, acc_value, small, short, carries, enough => by
    rw [compressFrom]
    by_cases low : pending.length < 8
    · -- fewer than eight bits wait: the next element is read first
      cases elements with
      | nil => simp at enough; omega
      | cons e elements =>
        have small' : e < 2^bit_len := small e List.mem_cons_self
        have read := @readElement_carries bit_len byte_pad e wide narrow small' pending acc_value low carries
          (elements.flatMap (elementBytes bit_len byte_pad))
        rw [List.flatMap_cons,if_pos low]
        dsimp only
        generalize compressElement bit_len byte_pad _ acc_value = acc_value' at read ⊢
        have length : (pending ++ toBits bit_len e).length = pending.length + bit_len := by simp
        rw [← length] at read ⊢
        obtain ⟨byte,remaining⟩ := emitByte (by omega) (by omega) read
        have full : 8 ≤ (pending ++ toBits bit_len e).length := by omega
        rw [List.length_cons,Nat.mul_add_one bit_len] at enough
        have long : 8 * (out_len + 1) ≤ (pending ++ toBits bit_len e ++ elements.flatMap (toBits bit_len)).length := by
          rw [List.length_append,length_flatMap_toBits,length]
          omega
        rw [byte,List.drop_left' (by simp),List.flatMap_cons,← List.append_assoc,bitsToBytes_take_succ long,
          List.take_append_of_le_length full,List.drop_append_of_le_length full,← List.length_drop,
          compressFrom_eq wide narrow out_len elements _ _ (fun e' mem => small e' (List.mem_cons_of_mem e mem))
            (by rw [List.length_drop,length]; omega) remaining (by rw [List.length_drop,length]; omega)]
    · -- eight bits or more wait: the next byte is written from them
      rw [if_neg low]
      dsimp only
      obtain ⟨byte,remaining⟩ := emitByte (by omega) (by omega) carries
      have full : 8 ≤ pending.length := by omega
      have long : 8 * (out_len + 1) ≤ (pending ++ elements.flatMap (toBits bit_len)).length := by
        rw [List.length_append,length_flatMap_toBits]
        omega
      rw [byte,bitsToBytes_take_succ long,List.take_append_of_le_length full,List.drop_append_of_le_length full,
        ← List.length_drop,compressFrom_eq wide narrow out_len elements _ _ small (by rw [List.length_drop]; omega)
          remaining (by rw [List.length_drop]; omega)]

/-! ## The two arrays as regroupings of one stream -/

/-- `CompressArray` of elements in the layout of both loops, with the output
    length its assert asks for: the bytes of the elements' bits. -/
theorem CompressArray_eq {bit_len byte_pad : Nat} (wide : 8 ≤ bit_len) (narrow : bit_len ≤ 25) {elements : List Nat}
    (small : ∀ e ∈ elements, e < 2^bit_len) :
    CompressArray (elements.flatMap (elementBytes bit_len byte_pad)) (bit_len * elements.length / 8) bit_len byte_pad =
      .ok (bitsToBytes ((elements.flatMap (toBits bit_len)).take (8 * (bit_len * elements.length / 8)))) := by
  have positive : 0 < (bit_len + 7) / 8 + byte_pad := by omega
  have sized : bit_len * (elements.flatMap (elementBytes bit_len byte_pad)).length / (8 * ((bit_len + 7) / 8 + byte_pad)) =
      bit_len * elements.length / 8 := by
    have count : (elements.flatMap (elementBytes bit_len byte_pad)).length =
        ((bit_len + 7) / 8 + byte_pad) * elements.length := by
      simp [List.length_flatMap,Nat.mul_comm]
    rw [count,Nat.mul_left_comm,Nat.mul_comm 8,Nat.mul_div_mul_left _ _ positive]
  have loop := @compressFrom_eq bit_len byte_pad wide narrow (bit_len * elements.length / 8) elements [] 0 small
    (by simp; omega) rfl
    (by simp only [List.length_nil,Nat.zero_add]; omega)
  simp only [CompressArray,show ¬bit_len < 8 by omega,show ¬8 * 4 < 7 + bit_len by omega,sized,ne_eq,not_true_eq_false,
    if_false]
  exact congrArg Except.ok loop

theorem EhIndexToArray_eq_elementBytes {bit_len : Nat} (narrow : bit_len ≤ 32) {i : eh_index}
    (small : i.toNat < 2^bit_len) : EhIndexToArray i = elementBytes bit_len (4 - (bit_len + 7) / 8) i.toNat := by
  have room : i.toNat < 256^((bit_len + 7) / 8) := by
    calc i.toNat < 2^bit_len := small
      _ ≤ 2^(8 * ((bit_len + 7) / 8)) := Nat.pow_le_pow_right (by norm_num) (by omega)
      _ = 256^((bit_len + 7) / 8) := by rw [Nat.pow_mul]
  rw [EhIndexToArray,elementBytes,show 4 = (bit_len + 7) / 8 + (4 - (bit_len + 7) / 8) by omega,leBytes_add,
    Nat.div_eq_of_lt room,leBytes_zero,List.reverse_append,List.reverse_replicate,Nat.add_sub_cancel_left]

theorem ArrayToEhIndex_EhIndexToArray (i : eh_index) : ArrayToEhIndex (EhIndexToArray i) = i := by
  have four : (leBytes i.toNat 4).reverse.length = 4 := by simp
  rw [ArrayToEhIndex,EhIndexToArray,List.take_of_length_le (by omega),List.reverse_reverse,leValue_leBytes,
    Nat.mod_eq_of_lt (lt_of_lt_of_eq i.toNat_lt (by norm_num))]
  exact UInt32.ofNat_toNat

/-- Indices written as four bytes each read back. -/
theorem arrayToEhIndices_flatMap : ∀ indices : List eh_index, arrayToEhIndices (indices.flatMap EhIndexToArray) = indices
  | [] => rfl
  | i :: indices => by
    obtain ⟨b0,b1,b2,b3,bytes⟩ := List.length_eq_four.mp (length_EhIndexToArray i)
    have first := ArrayToEhIndex_EhIndexToArray i
    rw [bytes] at first
    rw [List.flatMap_cons,bytes]
    show ArrayToEhIndex [b0,b1,b2,b3] :: arrayToEhIndices (indices.flatMap EhIndexToArray) = i :: indices
    rw [first,arrayToEhIndices_flatMap indices]

/-- `GetMinimalFromIndices` of indices of `cBitLen+1` bits: the bytes of their
    bits, as many whole bytes as they fill. -/
theorem GetMinimalFromIndices_eq {cBitLen : Nat} (wide : 8 ≤ cBitLen + 1) (narrow : cBitLen + 1 ≤ 25)
    {indices : List eh_index} (small : ∀ i ∈ indices, i.toNat < 2^(cBitLen + 1)) :
    GetMinimalFromIndices indices cBitLen =
      .ok (bitsToBytes ((indices.flatMap fun i => toBits (cBitLen + 1) i.toNat).take
        (8 * ((cBitLen + 1) * indices.length / 8)))) := by
  have array : indices.flatMap EhIndexToArray =
      (indices.map UInt32.toNat).flatMap (elementBytes (cBitLen + 1) (4 - ((cBitLen + 1) + 7) / 8)) := by
    rw [List.flatMap_map]
    exact List.flatMap_congr fun i mem => EhIndexToArray_eq_elementBytes (by omega) (small i mem)
  have minLen : (cBitLen + 1) * (indices.length * 4) / (8 * 4) = (cBitLen + 1) * (indices.map UInt32.toNat).length / 8 := by
    rw [List.length_map,← Nat.mul_assoc,Nat.mul_div_mul_right _ _ (by norm_num)]
  have packed := @CompressArray_eq (cBitLen + 1) (4 - ((cBitLen + 1) + 7) / 8) wide narrow (indices.map UInt32.toNat)
    (by simpa using small)
  rw [List.length_map] at packed
  simp only [GetMinimalFromIndices,show ¬4 < ((cBitLen + 1) + 7) / 8 by omega,if_false,array,minLen]
  rw [List.length_map,packed,List.flatMap_map]

/-- `GetIndicesFromMinimal` for indices of `cBitLen+1` bits: the whole chunks of
    that many bits of the minimal bytes. -/
theorem GetIndicesFromMinimal_eq {cBitLen : Nat} (wide : 8 ≤ cBitLen + 1) (narrow : cBitLen + 1 ≤ 25)
    (minimal : List UInt8) :
    GetIndicesFromMinimal minimal cBitLen = (chunks (cBitLen + 1) (bytesToBits minimal)).map fun c => (ofBits c).toUInt32 := by
  have element : ∀ c ∈ chunks (cBitLen + 1) (bytesToBits minimal),
      elementBytes (cBitLen + 1) (4 - ((cBitLen + 1) + 7) / 8) (ofBits c) = EhIndexToArray (ofBits c).toUInt32 := by
    intro c mem
    have small : ofBits c < 2^(cBitLen + 1) := length_of_mem_chunks mem ▸ ofBits_lt c
    have value : (ofBits c).toUInt32.toNat = ofBits c :=
      UInt32.toNat_ofNat_of_lt' (lt_of_lt_of_le small (Nat.pow_le_pow_right (show 0 < 2 by norm_num)
        (show cBitLen + 1 ≤ 32 by omega)))
    rw [EhIndexToArray_eq_elementBytes (by omega) (value ▸ small),value]
  rw [GetIndicesFromMinimal,ExpandArray_eq wide narrow,List.flatMap_congr element,← List.flatMap_map,
    arrayToEhIndices_flatMap]

/-! ## The round trips -/

/-- Indices of `cBitLen+1` bits that fill whole bytes read back from their
    minimal encoding. -/
theorem indices_round_trip {cBitLen : Nat} (wide : 8 ≤ cBitLen + 1) (narrow : cBitLen + 1 ≤ 25)
    {indices : List eh_index} (small : ∀ i ∈ indices, i.toNat < 2^(cBitLen + 1))
    (whole : indices.length * (cBitLen + 1) % 8 = 0) :
    ∃ minimal, GetMinimalFromIndices indices cBitLen = .ok minimal ∧ GetIndicesFromMinimal minimal cBitLen = indices := by
  have stream : (indices.flatMap fun i => toBits (cBitLen + 1) i.toNat) =
      (indices.map fun i => toBits (cBitLen + 1) i.toNat).flatten := List.flatMap_def
  have length : (indices.flatMap fun i => toBits (cBitLen + 1) i.toNat).length = (cBitLen + 1) * indices.length := by
    rw [← List.flatMap_map,length_flatMap_toBits,List.length_map]
  have bytes : 8 * ((cBitLen + 1) * indices.length / 8) = (cBitLen + 1) * indices.length := by
    rw [Nat.mul_comm (cBitLen + 1)]
    omega
  refine ⟨bitsToBytes (indices.flatMap fun i => toBits (cBitLen + 1) i.toNat),?_,?_⟩
  · rw [GetMinimalFromIndices_eq wide narrow small,bytes,← length,List.take_length]
  · have index : ∀ i ∈ indices, (ofBits (toBits (cBitLen + 1) i.toNat)).toUInt32 = i := by
      intro i mem
      rw [ofBits_toBits,Nat.mod_eq_of_lt (small i mem)]
      exact UInt32.ofNat_toNat
    rw [GetIndicesFromMinimal_eq wide narrow,bytesToBits_bitsToBytes (by rw [length,Nat.mul_comm]; omega),stream,
      chunks_flatten (by omega) (by simp),List.map_map]
    exact (List.map_congr_left index).trans (List.map_id' indices)

/-- Minimal bytes whose bits are whole indices are encoded again as they were. -/
theorem minimal_round_trip {cBitLen : Nat} (wide : 8 ≤ cBitLen + 1) (narrow : cBitLen + 1 ≤ 25)
    {minimal : List UInt8} (whole : 8 * minimal.length % (cBitLen + 1) = 0) :
    GetMinimalFromIndices (GetIndicesFromMinimal minimal cBitLen) cBitLen = .ok minimal := by
  have divides : cBitLen + 1 ∣ (bytesToBits minimal).length := by
    rw [length_bytesToBits]
    exact Nat.dvd_of_mod_eq_zero whole
  have chunk : ∀ c ∈ chunks (cBitLen + 1) (bytesToBits minimal), (ofBits c).toUInt32.toNat = ofBits c := by
    intro c mem
    have small : ofBits c < 2^(cBitLen + 1) := length_of_mem_chunks mem ▸ ofBits_lt c
    exact UInt32.toNat_ofNat_of_lt' (lt_of_lt_of_le small (Nat.pow_le_pow_right (show 0 < 2 by norm_num)
      (show cBitLen + 1 ≤ 32 by omega)))
  have small : ∀ i ∈ GetIndicesFromMinimal minimal cBitLen, i.toNat < 2^(cBitLen + 1) := by
    rw [GetIndicesFromMinimal_eq wide narrow]
    intro i mem
    obtain ⟨c,inChunks,rfl⟩ := List.mem_map.mp mem
    rw [chunk c inChunks,← length_of_mem_chunks inChunks]
    exact ofBits_lt c
  -- the indices' bits are the chunks of the minimal bytes' bits again
  have stream : ((GetIndicesFromMinimal minimal cBitLen).flatMap fun i => toBits (cBitLen + 1) i.toNat) =
      bytesToBits minimal := by
    rw [GetIndicesFromMinimal_eq wide narrow,List.flatMap_map,List.flatMap_def,
      List.map_congr_left fun c mem => by rw [chunk c mem,← length_of_mem_chunks mem,toBits_ofBits],List.map_id',
      flatten_chunks (by omega) divides]
  have count : 8 * ((cBitLen + 1) * (GetIndicesFromMinimal minimal cBitLen).length / 8) = (bytesToBits minimal).length := by
    rw [GetIndicesFromMinimal_eq wide narrow,List.length_map,length_chunks (by omega),
      Nat.mul_div_cancel' divides,length_bytesToBits]
    omega
  rw [GetMinimalFromIndices_eq wide narrow small,stream,count,List.take_length,bitsToBytes_bytesToBits]

/-- `CompressArray` undoes `ExpandArray` on input whose bits are whole elements. -/
theorem CompressArray_ExpandArray {bit_len byte_pad : Nat} (wide : 8 ≤ bit_len) (narrow : bit_len ≤ 25)
    {input : List UInt8} (whole : 8 * input.length % bit_len = 0) :
    CompressArray (ExpandArray input bit_len byte_pad) input.length bit_len byte_pad = .ok input := by
  have divides : bit_len ∣ (bytesToBits input).length := by
    rw [length_bytesToBits]
    exact Nat.dvd_of_mod_eq_zero whole
  have small : ∀ e ∈ (chunks bit_len (bytesToBits input)).map ofBits, e < 2^bit_len := by
    intro e mem
    obtain ⟨c,inChunks,rfl⟩ := List.mem_map.mp mem
    exact length_of_mem_chunks inChunks ▸ ofBits_lt c
  have count : bit_len * ((chunks bit_len (bytesToBits input)).map ofBits).length / 8 = input.length := by
    rw [List.length_map,length_chunks (by omega),Nat.mul_div_cancel' divides,length_bytesToBits]
    omega
  have stream : ((chunks bit_len (bytesToBits input)).map ofBits).flatMap (toBits bit_len) = bytesToBits input := by
    rw [List.flatMap_map,List.flatMap_def,
      List.map_congr_left fun c mem => by rw [← length_of_mem_chunks mem,toBits_ofBits],List.map_id',
      flatten_chunks (by omega) divides]
  have packed := @CompressArray_eq bit_len byte_pad wide narrow _ small
  rw [count,stream,← length_bytesToBits,List.take_length,bitsToBytes_bytesToBits,List.flatMap_map] at packed
  rw [ExpandArray_eq wide narrow]
  exact packed

/-- For indices of 8 to 25 bits: indices below the width that fill whole bytes
    read back from their minimal encoding, minimal bytes whose bits are whole
    indices are encoded again as they were, and `CompressArray` undoes
    `ExpandArray` on input whose bits are whole elements, for every padding. -/
theorem minimal_encoding_round_trips :
    (∀ (cBitLen : Nat) (indices : List eh_index), 8 ≤ cBitLen + 1 → cBitLen + 1 ≤ 25 →
      (∀ i ∈ indices, i.toNat < 2^(cBitLen + 1)) → indices.length * (cBitLen + 1) % 8 = 0 →
      ∃ minimal, GetMinimalFromIndices indices cBitLen = .ok minimal ∧ GetIndicesFromMinimal minimal cBitLen = indices) ∧
    (∀ (cBitLen : Nat) (minimal : List UInt8), 8 ≤ cBitLen + 1 → cBitLen + 1 ≤ 25 →
      8 * minimal.length % (cBitLen + 1) = 0 →
      GetMinimalFromIndices (GetIndicesFromMinimal minimal cBitLen) cBitLen = .ok minimal) ∧
    (∀ (bit_len byte_pad : Nat) (input : List UInt8), 8 ≤ bit_len → bit_len ≤ 25 → 8 * input.length % bit_len = 0 →
      CompressArray (ExpandArray input bit_len byte_pad) input.length bit_len byte_pad = .ok input) :=
  ⟨fun _ _ wide narrow small whole => indices_round_trip wide narrow small whole,
    fun _ _ wide narrow whole => minimal_round_trip wide narrow whole,
    fun _ _ _ wide narrow whole => CompressArray_ExpandArray wide narrow whole⟩

theorem minimal_encoding_round_trips_at_eight_bits :
    (∀ i ∈ [1,200], (i : eh_index).toNat < 2^(7 + 1)) ∧
      ∃ minimal, GetMinimalFromIndices [1,200] 7 = .ok minimal ∧ GetIndicesFromMinimal minimal 7 = [1,200] :=
  ⟨by simp,minimal_encoding_round_trips.1 7 [1,200] (by decide) (by decide) (by simp) (by decide)⟩

/-- Below 8 bits an index, or above 25, the claim's bound on the byte width
    holds but `CompressArray` stops at one of its asserts. -/
theorem minimal_encoding_asserts_outside_widths :
    ((0 + 1) + 7) / 8 ≤ 4 ∧ (List.replicate 8 (0 : eh_index)).length * (0 + 1) % 8 = 0 ∧
      GetMinimalFromIndices (List.replicate 8 0) 0 = .error "Assertion bit_len >= 8 failed" ∧
    ((25 + 1) + 7) / 8 ≤ 4 ∧ (List.replicate 4 (0 : eh_index)).length * (25 + 1) % 8 = 0 ∧
      GetMinimalFromIndices (List.replicate 4 0) 25 = .error "Assertion 8*sizeof(uint32_t) >= 7+bit_len failed" :=
  ⟨by decide,by decide,rfl,by decide,by decide,rfl⟩

end BitcoinPrivate.Equihash
