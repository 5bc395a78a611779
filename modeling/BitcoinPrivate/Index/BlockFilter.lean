import BitcoinPrivate.Primitives.BitStreams
import BitcoinPrivate.Primitives.Unserialize

/-!
The Golomb-coded set filters of `blockfilter.cpp`. SipHash is any function of
the two keys and the element.

`GolombRiceEncode` writes the Golomb-Rice code of a value (`riceCode`) through
a `BitStreamWriter`, and `GolombRiceDecode` reads it back through a
`BitStreamReader`. `MapIntoRange` is the top word of the product, the portable
branch computing it from 32-bit halves.
-/
namespace BitcoinPrivate
open BitStream

/-! ## Golomb-Rice coding -/

/-- The Golomb-Rice code of `x` with parameter `P`: the quotient `x >>> P` in
    unary, ones ended by a zero, then the `P` low bits. -/
def riceCode (P x : Nat) : List Bool := List.replicate (x >>> P) true ++ false :: toBits P x

/-- The loop of `GolombRiceEncode` over the quotient: `q` ones, at most 64 at a
    time. A turn writes one at least, so `q` turns are enough (`fuel`). -/
def writeOnes : (fuel : Nat) → BitStreamWriter → UInt64 → Except String BitStreamWriter
  | 0, w, _ => pure w
  | fuel+1, w, q =>
    if q > 0 then do
      let nbits := if q ≤ 64 then q.toNat else 64
      let w ← w.Write (~~~0) nbits
      writeOnes fuel w (q - nbits.toUInt64)
    else pure w

/-- `GolombRiceEncode`. -/
def GolombRiceEncode (bitwriter : BitStreamWriter) (P : UInt8) (x : UInt64) : Except String BitStreamWriter := do
  let q := x >>> P.toUInt64
  let bitwriter ← writeOnes q.toNat bitwriter q
  let bitwriter ← bitwriter.Write 0 1
  bitwriter.Write x P.toNat

/-- The loop of `GolombRiceDecode` over the quotient: ones up to a zero. A turn
    reads a bit, so with one turn more than there are bits the reads run out
    first (`fuel`). -/
def readOnes : (fuel : Nat) → BitStreamReader → UInt64 → Except String (UInt64 × BitStreamReader)
  | 0, _, _ => throw vectorReaderEndOfData
  | fuel+1, r, q => do
    let read ← r.Read 1
    if read.1 = 1 then readOnes fuel read.2 (q + 1) else pure (q,read.2)

/-- `GolombRiceDecode`. -/
def GolombRiceDecode (bitreader : BitStreamReader) (P : UInt8) : Except String (UInt64 × BitStreamReader) := do
  let quotient ← readOnes (bitreader.remaining.length + 1) bitreader 0
  let remainder ← quotient.2.Read P.toNat
  pure ((quotient.1 <<< P.toUInt64) + remainder.1,remainder.2)

theorem toBits_ones : ∀ {n : Nat}, n ≤ 64 → toBits n (2^64 - 1) = List.replicate n true
  | 0, _ => rfl
  | n+1, le => by
    rw [toBits,Nat.testBit_two_pow_sub_one,decide_eq_true (by omega),toBits_ones (by omega),List.replicate_succ]

theorem toNat_shiftRight_small (x : UInt64) {P : UInt8} (narrow : P.toNat < 64) :
    (x >>> P.toUInt64).toNat = x.toNat >>> P.toNat := by
  rw [UInt64.toNat_shiftRight,UInt8.toNat_toUInt64,Nat.mod_eq_of_lt narrow]

/-- The loop over the quotient writes that many ones. -/
theorem writeOnes_spec : ∀ {fuel : Nat} {w : BitStreamWriter} {q : UInt64}, w.Valid → q.toNat ≤ fuel →
    ∃ w', writeOnes fuel w q = .ok w' ∧ w'.Valid ∧ w'.written = w.written ++ List.replicate q.toNat true
  | 0, w, q, valid, enough => by
    refine ⟨w,rfl,valid,?_⟩
    rw [Nat.le_zero.mp enough,List.replicate_zero,List.append_nil]
  | fuel+1, w, q, valid, enough => by
    by_cases positive : q > 0
    · rw [writeOnes,if_pos positive]
      have count : (if q ≤ 64 then q.toNat else 64) ≤ 64 ∧ 0 < (if q ≤ 64 then q.toNat else 64) ∧
          (if q ≤ 64 then q.toNat else 64) ≤ q.toNat := by
        have pos : 0 < q.toNat := positive
        split_ifs with small
        · rw [UInt64.le_iff_toNat_le,show (64 : UInt64).toNat = 64 from rfl] at small
          exact ⟨small,pos,le_refl _⟩
        · rw [UInt64.le_iff_toNat_le,show (64 : UInt64).toNat = 64 from rfl] at small
          exact ⟨le_refl _,by norm_num,by omega⟩
      generalize (if q ≤ 64 then q.toNat else 64) = nbits at count ⊢
      obtain ⟨narrow,taken,within⟩ := count
      obtain ⟨w1,write,valid1,ones⟩ := BitStreamWriter.Write_spec (~~~0) valid narrow
      have small : nbits.toUInt64.toNat = nbits := by
        rw [Nat.toUInt64_eq,UInt64.toNat_ofNat',Nat.mod_eq_of_lt (by omega)]
      have left : (q - nbits.toUInt64).toNat = q.toNat - nbits := by
        rw [UInt64.toNat_sub_of_le _ _ (UInt64.le_iff_toNat_le.mpr (le_of_eq_of_le small within)),small]
      have shorter : (q - nbits.toUInt64).toNat ≤ fuel := by
        rw [left]
        omega
      obtain ⟨w',loop,valid',rest⟩ := writeOnes_spec valid1 shorter
      refine ⟨w',by dsimp only; rw [write]; exact loop,valid',?_⟩
      rw [rest,ones,left,show (~~~(0 : UInt64)).toNat = 2^64 - 1 from rfl,toBits_ones narrow,List.append_assoc,
        ← List.replicate_add,Nat.add_sub_cancel' within]
    · have zero : q.toNat = 0 := by
        have : ¬0 < q.toNat := positive
        omega
      refine ⟨w,by rw [writeOnes,if_neg positive]; rfl,valid,?_⟩
      rw [zero,List.replicate_zero,List.append_nil]

/-- `GolombRiceEncode` writes the Golomb-Rice code of the value. -/
theorem GolombRiceEncode_spec {w : BitStreamWriter} (valid : w.Valid) {P : UInt8} (narrow : P.toNat < 64) (x : UInt64) :
    ∃ w', GolombRiceEncode w P x = .ok w' ∧ w'.Valid ∧ w'.written = w.written ++ riceCode P.toNat x.toNat := by
  have enough : (x >>> P.toUInt64).toNat ≤ (x >>> P.toUInt64).toNat := le_refl _
  obtain ⟨w1,ones,valid1,written1⟩ := writeOnes_spec valid enough
  obtain ⟨w2,stop,valid2,written2⟩ := BitStreamWriter.Write_spec 0 valid1 (show 1 ≤ 64 by norm_num)
  obtain ⟨w3,low,valid3,written3⟩ := BitStreamWriter.Write_spec x valid2 (show P.toNat ≤ 64 by omega)
  refine ⟨w3,?_,valid3,?_⟩
  · dsimp only [GolombRiceEncode]
    rw [ones]
    dsimp only [bind,Except.bind]
    rw [stop]
    exact low
  · rw [written3,written2,written1,toNat_shiftRight_small x narrow,riceCode,UInt64.toNat_zero,toBits,toBits,
      Nat.zero_testBit,List.append_assoc,List.append_assoc,List.singleton_append]

/-- The loop over the quotient counts the ones before the first zero, and reads
    the zero too. -/
theorem readOnes_spec (rest : List Bool) : ∀ (m : Nat) {fuel : Nat} {r : BitStreamReader} {q : UInt64}, r.m_offset ≤ 8 →
    r.remaining = List.replicate m true ++ false :: rest → m < fuel → q.toNat + m < 2^64 →
    ∃ q' r', readOnes fuel r q = .ok (q',r') ∧ q'.toNat = q.toNat + m ∧ r'.m_offset ≤ 8 ∧ r'.remaining = rest
  | _, 0, _, _, _, _, more, _ => absurd more (Nat.not_lt_zero _)
  | 0, fuel+1, r, q, le, bits, _, _ => by
    obtain ⟨v,r1,read,value,le1,rest1⟩ := BitStreamReader.Read_spec le (show 1 ≤ 64 by norm_num) (by rw [bits]; simp)
    rw [bits,List.replicate_zero,List.nil_append] at value rest1
    have zero : v ≠ 1 := by
      intro one
      rw [one] at value
      simp [ofBits] at value
    refine ⟨q,r1,?_,by omega,le1,by simpa using rest1⟩
    rw [readOnes,read]
    dsimp only [bind,Except.bind]
    rw [if_neg zero]
    rfl
  | m+1, fuel+1, r, q, le, bits, more, room => by
    obtain ⟨v,r1,read,value,le1,rest1⟩ := BitStreamReader.Read_spec le (show 1 ≤ 64 by norm_num)
      (by rw [bits,List.length_append,List.length_replicate,List.length_cons]; omega)
    rw [bits,List.replicate_succ,List.cons_append] at value rest1
    have one : v = 1 := by
      apply UInt64.toNat_inj.mp
      simpa [ofBits] using value
    have next : (q + 1).toNat = q.toNat + 1 := by
      rw [UInt64.toNat_add,show (1 : UInt64).toNat = 1 from rfl,Nat.mod_eq_of_lt (by omega)]
    obtain ⟨q',r',loop,q_eq,le',rest'⟩ := readOnes_spec rest m le1 (by simpa using rest1) (show m < fuel by omega)
      (by rw [next]; omega)
    refine ⟨q',r',?_,by rw [q_eq,next]; omega,le',rest'⟩
    rw [readOnes,read]
    dsimp only [bind,Except.bind]
    rw [if_pos one]
    exact loop

/-- `GolombRiceDecode` reads back a Golomb-Rice code. -/
theorem GolombRiceDecode_spec {r : BitStreamReader} (le : r.m_offset ≤ 8) {P : UInt8} (narrow : P.toNat < 64) {x : UInt64}
    {rest : List Bool} (bits : r.remaining = riceCode P.toNat x.toNat ++ rest) :
    ∃ r', GolombRiceDecode r P = .ok (x,r') ∧ r'.m_offset ≤ 8 ∧ r'.remaining = rest := by
  have quotient_le : x.toNat >>> P.toNat ≤ x.toNat := Nat.shiftRight_le _ _
  have code : r.remaining = List.replicate (x.toNat >>> P.toNat) true ++ false :: (toBits P.toNat x.toNat ++ rest) := by
    rw [bits,riceCode,List.append_assoc,List.cons_append]
  have enough : x.toNat >>> P.toNat < r.remaining.length + 1 := by
    rw [code,List.length_append,List.length_replicate,List.length_cons]
    omega
  obtain ⟨q,r1,ones,q_eq,le1,rest1⟩ := readOnes_spec _ _ le code enough
    (by rw [UInt64.toNat_zero,Nat.zero_add]; exact lt_of_le_of_lt quotient_le x.toNat_lt)
  obtain ⟨v,r2,low,v_eq,le2,rest2⟩ := BitStreamReader.Read_spec le1 (show P.toNat ≤ 64 by omega) (by rw [rest1]; simp)
  rw [rest1,List.take_left' (length_toBits _ _),ofBits_toBits] at v_eq
  rw [rest1,List.drop_left' (length_toBits _ _)] at rest2
  have value : (q <<< P.toUInt64) + v = x := by
    apply UInt64.toNat_inj.mp
    have whole : x.toNat / 2^P.toNat * 2^P.toNat ≤ x.toNat := Nat.div_mul_le_self _ _
    rw [UInt64.toNat_add,UInt64.toNat_shiftLeft,UInt8.toNat_toUInt64,Nat.mod_eq_of_lt narrow,q_eq,v_eq,UInt64.toNat_zero,Nat.zero_add,
      Nat.shiftLeft_eq,Nat.shiftRight_eq_div_pow,Nat.mod_eq_of_lt (lt_of_le_of_lt whole x.toNat_lt),Nat.div_add_mod',
      Nat.mod_eq_of_lt x.toNat_lt]
  refine ⟨r2,?_,le2,rest2⟩
  unfold GolombRiceDecode
  rw [ones]
  dsimp only [bind,Except.bind]
  rw [low]
  dsimp only
  rw [value]
  rfl

/-! ## MapIntoRange -/

/-- `MapIntoRange`, its portable branch: the top word of `x * n` put together
    from the products of the 32-bit halves. -/
def MapIntoRange (x n : UInt64) : UInt64 :=
  let x_hi := x >>> 32
  let x_lo := x &&& 0xFFFFFFFF
  let n_hi := n >>> 32
  let n_lo := n &&& 0xFFFFFFFF
  let ac := x_hi * n_hi
  let ad := x_hi * n_lo
  let bc := x_lo * n_hi
  let bd := x_lo * n_lo
  let mid34 := (bd >>> 32) + (bc &&& 0xFFFFFFFF) + (ad &&& 0xFFFFFFFF)
  let upper64 := ac + (bc >>> 32) + (ad >>> 32) + (mid34 >>> 32)
  upper64

theorem toNat_high_half (y : UInt64) : (y >>> 32).toNat = y.toNat / 2^32 := by
  rw [UInt64.toNat_shiftRight,show (32 : UInt64).toNat % 64 = 32 from rfl,Nat.shiftRight_eq_div_pow]

theorem toNat_low_half (y : UInt64) : (y &&& 0xFFFFFFFF).toNat = y.toNat % 2^32 := by
  rw [UInt64.toNat_and,show (0xFFFFFFFF : UInt64).toNat = 2^32 - 1 from rfl,Nat.and_two_pow_sub_one_eq_mod]

/-- The product of two halves does not wrap. -/
theorem toNat_mul_halves {a b : UInt64} (ha : a.toNat < 2^32) (hb : b.toNat < 2^32) :
    (a * b).toNat = a.toNat * b.toNat ∧ a.toNat * b.toNat ≤ (2^32 - 1) * (2^32 - 1) := by
  have bound : a.toNat * b.toNat ≤ (2^32 - 1) * (2^32 - 1) := Nat.mul_le_mul (by omega) (by omega)
  exact ⟨by rw [UInt64.toNat_mul,Nat.mod_eq_of_lt (lt_of_le_of_lt bound (by norm_num))],bound⟩

/-- The portable branch computes the top word of the product exactly. -/
theorem MapIntoRange_eq (x n : UInt64) : (MapIntoRange x n).toNat = x.toNat * n.toNat / 2^64 := by
  have x_hi : (x >>> 32).toNat < 2^32 := by rw [toNat_high_half]; have := x.toNat_lt; omega
  have n_hi : (n >>> 32).toNat < 2^32 := by rw [toNat_high_half]; have := n.toNat_lt; omega
  have x_lo : (x &&& 0xFFFFFFFF).toNat < 2^32 := by rw [toNat_low_half]; exact Nat.mod_lt _ (by norm_num)
  have n_lo : (n &&& 0xFFFFFFFF).toNat < 2^32 := by rw [toNat_low_half]; exact Nat.mod_lt _ (by norm_num)
  obtain ⟨ac,ac_le⟩ := toNat_mul_halves x_hi n_hi
  obtain ⟨ad,ad_le⟩ := toNat_mul_halves x_hi n_lo
  obtain ⟨bc,bc_le⟩ := toNat_mul_halves x_lo n_hi
  obtain ⟨bd,bd_le⟩ := toNat_mul_halves x_lo n_lo
  -- the product by halves
  have expand : x.toNat * n.toNat = (x >>> 32).toNat * (n >>> 32).toNat * 2^64 +
      ((x >>> 32).toNat * (n &&& 0xFFFFFFFF).toNat + (x &&& 0xFFFFFFFF).toNat * (n >>> 32).toNat) * 2^32 +
      (x &&& 0xFFFFFFFF).toNat * (n &&& 0xFFFFFFFF).toNat := by
    rw [toNat_high_half,toNat_high_half,toNat_low_half,toNat_low_half]
    conv_lhs => rw [← Nat.div_add_mod x.toNat (2^32),← Nat.div_add_mod n.toNat (2^32)]
    ring
  have total : x.toNat * n.toNat < 2^128 :=
    lt_of_lt_of_le (Nat.mul_lt_mul'' x.toNat_lt n.toNat_lt) (by norm_num)
  unfold MapIntoRange
  dsimp only
  simp only [UInt64.toNat_add,toNat_high_half,toNat_low_half,ac,ad,bc,bd]
  simp only [toNat_high_half,toNat_low_half] at expand ac_le ad_le bc_le bd_le
  generalize x.toNat * n.toNat = product at expand total ⊢
  generalize x.toNat / 2^32 * (n.toNat / 2^32) = AC at expand ac_le ⊢
  generalize x.toNat / 2^32 * (n.toNat % 2^32) = AD at expand ad_le ⊢
  generalize x.toNat % 2^32 * (n.toNat / 2^32) = BC at expand bc_le ⊢
  generalize x.toNat % 2^32 * (n.toNat % 2^32) = BD at expand bd_le ⊢
  omega

/-! ## The filter -/

/-- `GCSFilter::Element`. -/
abbrev Element := List UInt8

/-- `GCSFilter::ElementSet`, a `std::set`: its elements, each once. The filter
    sorts their hashes, so the order they come in does not matter. -/
structure ElementSet where
  elements : List Element
  nodup : elements.Nodup

/-- `GCSFilter`. -/
structure GCSFilter where
  m_siphash_k0 : UInt64
  m_siphash_k1 : UInt64
  m_P : UInt8
  m_M : UInt32
  m_N : UInt32
  m_F : UInt64
  m_encoded : List UInt8
deriving DecidableEq, Repr

/-- `ReadCompactSize` over a `VectorReader`: the reads of the model in
    `Unserialize`, whose bytes run out with `VectorReader`'s message. -/
def readCompactSizeVector (s : List UInt8) : Except String (Nat × List UInt8) :=
  (ReadCompactSize.run s).mapError fun e => if e = endOfData then vectorReaderEndOfData else e

namespace GCSFilter

/-- The constructor of an empty filter, whose fields the other two then set. -/
def ofParams (siphash_k0 siphash_k1 : UInt64) (P : UInt8) (M : UInt32) : GCSFilter :=
  { m_siphash_k0 := siphash_k0, m_siphash_k1 := siphash_k1, m_P := P, m_M := M, m_N := 0, m_F := 0, m_encoded := [] }

/-- `GetN`. -/
def GetN (f : GCSFilter) : UInt32 := f.m_N

/-- `GetEncoded`. -/
def GetEncoded (f : GCSFilter) : List UInt8 := f.m_encoded

/-- The loop of the decoding constructor: `N` codes read and dropped. -/
def decodeCount (P : UInt8) : Nat → BitStreamReader → Except String BitStreamReader
  | 0, bitreader => pure bitreader
  | i+1, bitreader => do
    let decoded ← GolombRiceDecode bitreader P
    decodeCount P i decoded.2

/-- The constructor that reconstructs a filter from an encoding. -/
def ofEncoded (siphash_k0 siphash_k1 : UInt64) (P : UInt8) (M : UInt32) (encoded_filter : List UInt8) :
    Except String GCSFilter := do
  let (N,stream) ← readCompactSizeVector encoded_filter
  let m_N := N.toUInt32
  if m_N.toNat ≠ N then throw "N must be <2^32"
  let m_F := m_N.toUInt64 * M.toUInt64
  let bitreader ← decodeCount P m_N.toNat { m_istream := stream, m_buffer := 0, m_offset := 8 }
  if bitreader.m_istream ≠ [] then throw "encoded_filter contains excess data"
  pure { ofParams siphash_k0 siphash_k1 P M with m_N := m_N, m_F := m_F, m_encoded := encoded_filter }

/-- The loop of the building constructor: each hash's difference from the one
    before, Golomb-Rice coded. -/
def encodeDeltas (P : UInt8) : UInt64 → List UInt64 → BitStreamWriter → Except String BitStreamWriter
  | _, [], bitwriter => pure bitwriter
  | last_value, value :: values, bitwriter => do
    let bitwriter ← GolombRiceEncode bitwriter P (value - last_value)
    encodeDeltas P value values bitwriter

/-- The inner loop of `MatchInternal` at a decoded value, over the queries from
    `hashes_index` on: `inl` is what the function returns, `inr` the queries
    left at the `break`. -/
def scanHashes (value : UInt64) : List UInt64 → Bool ⊕ List UInt64
  | [] => .inl false
  | element_hash :: rest =>
    if element_hash = value then .inl true
    else if element_hash > value then .inr (element_hash :: rest)
    else scanHashes value rest

/-- The outer loop of `MatchInternal`, over the `N` values the deltas add up to. -/
def matchLoop (P : UInt8) : Nat → BitStreamReader → UInt64 → List UInt64 → Except String Bool
  | 0, _, _, _ => pure false
  | i+1, bitreader, value, element_hashes => do
    let decoded ← GolombRiceDecode bitreader P
    let value := value + decoded.1
    match scanHashes value element_hashes with
    | .inl found => pure found
    | .inr element_hashes => matchLoop P i decoded.2 value element_hashes

/-- `MatchInternal` over sorted hashes; the `assert` on `N` is an error. -/
def MatchInternal (f : GCSFilter) (element_hashes : List UInt64) : Except String Bool := do
  let (N,stream) ← readCompactSizeVector f.m_encoded
  if N ≠ f.m_N.toNat then throw "assert(N == m_N)"
  matchLoop f.m_P f.m_N.toNat { m_istream := stream, m_buffer := 0, m_offset := 8 } 0 element_hashes

section Hashing

variable (siphash : UInt64 → UInt64 → Element → UInt64)

/-- `HashToRange`: the SipHash of the element under the filter's keys, mapped
    into `[0, F)`. -/
def HashToRange (f : GCSFilter) (element : Element) : UInt64 :=
  MapIntoRange (siphash f.m_siphash_k0 f.m_siphash_k1 element) f.m_F

/-- `BuildHashedSet`: the hashes of the elements, sorted. -/
def BuildHashedSet (f : GCSFilter) (elements : ElementSet) : List UInt64 :=
  (elements.elements.map (f.HashToRange siphash)).mergeSort fun a b => decide (a ≤ b)

/-- The constructor that builds a filter from a set of elements. -/
def ofElements (siphash_k0 siphash_k1 : UInt64) (P : UInt8) (M : UInt32) (elements : ElementSet) :
    Except String GCSFilter := do
  let N := elements.elements.length
  let m_N := N.toUInt32
  if m_N.toNat ≠ N then throw "N must be <2^32"
  let filter := { ofParams siphash_k0 siphash_k1 P M with m_N := m_N, m_F := m_N.toUInt64 * M.toUInt64 }
  let stream := WriteCompactSize m_N.toNat
  if elements.elements = [] then return { filter with m_encoded := stream }
  let bitwriter ← encodeDeltas P 0 (filter.BuildHashedSet siphash elements)
    { m_ostream := stream, m_buffer := 0, m_offset := 0 }
  pure { filter with m_encoded := bitwriter.Flush.m_ostream }

/-- `Match`. -/
def Match (f : GCSFilter) (element : Element) : Except String Bool :=
  f.MatchInternal [f.HashToRange siphash element]

/-- `MatchAny`. -/
def MatchAny (f : GCSFilter) (elements : ElementSet) : Except String Bool :=
  f.MatchInternal (f.BuildHashedSet siphash elements)

end Hashing

end GCSFilter

/-! ## What a filter encodes -/

namespace GCSFilter

/-- The differences the building constructor codes: each value less the one
    before it, from `last_value`. -/
def deltasFrom : UInt64 → List UInt64 → List UInt64
  | _, [] => []
  | last_value, value :: values => (value - last_value) :: deltasFrom value values

@[simp] theorem length_deltasFrom : ∀ (last_value : UInt64) (values : List UInt64),
    (deltasFrom last_value values).length = values.length
  | _, [] => rfl
  | _, _ :: values => by rw [deltasFrom,List.length_cons,List.length_cons,length_deltasFrom _ values]

/-- The Golomb-Rice codes of values, one after another. -/
def riceCodes (P : Nat) (xs : List UInt64) : List Bool := xs.flatMap fun x => riceCode P x.toNat

theorem riceCodes_cons (P : Nat) (x : UInt64) (xs : List UInt64) :
    riceCodes P (x :: xs) = riceCode P x.toNat ++ riceCodes P xs := rfl

/-- The encoding of a filter over sorted values: their number, then the codes of
    their deltas padded with zeros to a whole byte. -/
def encoding (P : Nat) (values : List UInt64) : List UInt8 :=
  WriteCompactSize values.length ++ bitsToBytes (padBits 8 (riceCodes P (deltasFrom 0 values)))

/-- A filter encodes sorted values: its count is theirs and its bytes are their
    encoding. -/
structure Encodes (f : GCSFilter) (values : List UInt64) : Prop where
  sorted : values.Pairwise (· ≤ ·)
  count : f.m_N.toNat = values.length
  encoded : f.m_encoded = encoding f.m_P.toNat values

/-- The loop of the building constructor writes the codes of the deltas. -/
theorem encodeDeltas_spec {P : UInt8} (narrow : P.toNat < 64) : ∀ (last_value : UInt64) (values : List UInt64)
    {w : BitStreamWriter}, w.Valid →
    ∃ w', encodeDeltas P last_value values w = .ok w' ∧ w'.Valid ∧
      w'.written = w.written ++ riceCodes P.toNat (deltasFrom last_value values)
  | _, [], w, valid => ⟨w,rfl,valid,by rw [deltasFrom,riceCodes,List.flatMap_nil,List.append_nil]⟩
  | last_value, value :: values, w, valid => by
    obtain ⟨w1,code,valid1,written1⟩ := GolombRiceEncode_spec valid narrow (value - last_value)
    obtain ⟨w',loop,valid',written'⟩ := encodeDeltas_spec narrow value values valid1
    refine ⟨w',?_,valid',?_⟩
    · rw [encodeDeltas,code]
      exact loop
    · rw [written',written1,deltasFrom,riceCodes_cons,List.append_assoc]

/-- The loop of the decoding constructor reads one code for each count. -/
theorem decodeCount_spec {P : UInt8} (narrow : P.toNat < 64) (rest : List Bool) :
    ∀ (xs : List UInt64) {r : BitStreamReader}, r.m_offset ≤ 8 → r.remaining = riceCodes P.toNat xs ++ rest →
    ∃ r', decodeCount P xs.length r = .ok r' ∧ r'.m_offset ≤ 8 ∧ r'.remaining = rest
  | [], r, le, bits => ⟨r,rfl,le,by rw [bits]; rfl⟩
  | x :: xs, r, le, bits => by
    rw [riceCodes_cons,List.append_assoc] at bits
    obtain ⟨r1,code,le1,rest1⟩ := GolombRiceDecode_spec le narrow bits
    obtain ⟨r',loop,le',rest'⟩ := decodeCount_spec narrow rest xs le1 rest1
    refine ⟨r',?_,le',rest'⟩
    rw [List.length_cons,decodeCount,code]
    exact loop

/-! ## The merge scan -/

/-- What the inner loop of `MatchInternal` finds at a value: the value among the
    queries, or all of them below it, or the queries above it left at the
    `break`, all those it passed being below it. -/
def ScanSpec (value : UInt64) (element_hashes : List UInt64) : Bool ⊕ List UInt64 → Prop
  | .inl true => value ∈ element_hashes
  | .inl false => ∀ h ∈ element_hashes, h < value
  | .inr left => left <:+ element_hashes ∧ (∀ h ∈ left, value < h) ∧ ∀ h ∈ element_hashes, h ∉ left → h < value

/-- A query below the value, which the inner loop passes. -/
theorem ScanSpec.cons {value h : UInt64} {hs : List UInt64} (below : h < value) :
    ∀ {result : Bool ⊕ List UInt64}, ScanSpec value hs result → ScanSpec value (h :: hs) result
  | .inl true, found => List.mem_cons_of_mem h found
  | .inl false, all => by
    intro x mem
    rcases List.mem_cons.mp mem with same | later
    · rw [same]
      exact below
    · exact all x later
  | .inr _, ⟨suffix,above,passed⟩ => by
    refine ⟨suffix.trans (List.suffix_cons h hs),above,?_⟩
    intro x mem out
    rcases List.mem_cons.mp mem with same | later
    · rw [same]
      exact below
    · exact passed x later out

theorem scanHashes_spec (value : UInt64) : ∀ {hs : List UInt64}, hs.Pairwise (· ≤ ·) →
    ScanSpec value hs (scanHashes value hs)
  | [], _ => fun _ absent => absurd absent List.not_mem_nil
  | h :: hs, sorted => by
    obtain ⟨least,sorted⟩ := List.pairwise_cons.mp sorted
    unfold scanHashes
    split_ifs with found above
    · show value ∈ h :: hs
      rw [found]
      exact List.mem_cons_self
    · refine ⟨List.suffix_refl _,?_,fun x mem out => absurd mem out⟩
      intro x mem
      rcases List.mem_cons.mp mem with same | later
      · rw [same]
        exact above
      · exact UInt64.lt_of_lt_of_le above (least x later)
    · exact ScanSpec.cons (UInt64.lt_iff_le_and_ne.mpr ⟨UInt64.not_lt.mp above,found⟩) (scanHashes_spec value sorted)

/-- Below the least of sorted values, nothing is among them. -/
theorem not_mem_of_lt_least {value h : UInt64} {values : List UInt64} (least : ∀ x ∈ values, value ≤ x)
    (below : h < value) : h ∉ value :: values := by
  intro mem
  rcases List.mem_cons.mp mem with same | later
  · rw [same] at below
    exact UInt64.lt_irrefl _ below
  · exact UInt64.lt_irrefl _ (UInt64.lt_of_lt_of_le below (least h later))

/-- The outer loop of `MatchInternal`, over the codes of sorted values, finds
    whether one of sorted queries is among them. The deltas add back up to the
    values whatever wraps. -/
theorem matchLoop_spec {P : UInt8} (narrow : P.toNat < 64) (rest : List Bool) :
    ∀ (last_value : UInt64) (values : List UInt64) {element_hashes : List UInt64} {r : BitStreamReader},
    values.Pairwise (· ≤ ·) → element_hashes.Pairwise (· ≤ ·) → r.m_offset ≤ 8 →
    r.remaining = riceCodes P.toNat (deltasFrom last_value values) ++ rest →
    matchLoop P values.length r last_value element_hashes = .ok (decide (∃ h ∈ element_hashes, h ∈ values))
  | _, [], hs, _, _, _, _, _ => by
    rw [decide_eq_false (by simp)]
    rfl
  | last_value, value :: values, hs, r, sorted, queries, le, bits => by
    obtain ⟨least,sorted⟩ := List.pairwise_cons.mp sorted
    rw [deltasFrom,riceCodes_cons,List.append_assoc] at bits
    obtain ⟨r1,code,le1,rest1⟩ := GolombRiceDecode_spec le narrow bits
    have sum : last_value + (value - last_value) = value := by simp
    rw [List.length_cons,matchLoop,code]
    dsimp only [bind,Except.bind]
    rw [sum]
    have scan := scanHashes_spec value queries
    generalize scanHashes value hs = result at scan ⊢
    rcases result with (_ | _) | left
    · have none : ¬∃ h ∈ hs, h ∈ value :: values := fun ⟨h,mem,found⟩ => not_mem_of_lt_least least (scan h mem) found
      rw [decide_eq_false none]
      rfl
    · rw [decide_eq_true ⟨value,scan,List.mem_cons_self⟩]
      rfl
    · obtain ⟨suffix,above,passed⟩ := scan
      have same : (∃ h ∈ left, h ∈ values) ↔ ∃ h ∈ hs, h ∈ value :: values := by
        constructor
        · rintro ⟨h,mem,found⟩
          exact ⟨h,suffix.subset mem,List.mem_cons_of_mem value found⟩
        · rintro ⟨h,mem,found⟩
          by_cases kept : h ∈ left
          · rcases List.mem_cons.mp found with same | later
            · exact absurd (above h kept) (by rw [same]; exact UInt64.lt_irrefl value)
            · exact ⟨h,kept,later⟩
          · exact absurd found (not_mem_of_lt_least least (passed h mem kept))
      rw [← decide_eq_decide.mpr same]
      exact matchLoop_spec narrow rest value values sorted (queries.sublist suffix.sublist) le1 rest1


/-! ## Reading an encoding -/

/-- A count written by `WriteCompactSize` reads back over a `VectorReader` up to
    `MAX_SIZE`, and is refused past it. -/
theorem readCompactSizeVector_run {nSize : Nat} (fits : nSize < 2^64) (rest : List UInt8) :
    readCompactSizeVector (WriteCompactSize nSize ++ rest) =
      if nSize ≤ MAX_SIZE then .ok (nSize,rest) else .error "ReadCompactSize(): size too large" := by
  rw [readCompactSizeVector,ReadCompactSize_run fits]
  split_ifs
  · rfl
  · show Except.error (if "ReadCompactSize(): size too large" = endOfData then vectorReaderEndOfData
      else "ReadCompactSize(): size too large") = _
    rw [if_neg (by unfold endOfData; decide)]

/-- The codes after the count, as a reader at their start sees them: the codes,
    then fewer zeros than a byte. -/
theorem remaining_codes (P : Nat) (values : List UInt64) :
    ∃ pad < 8, BitStreamReader.remaining ⟨bitsToBytes (padBits 8 (riceCodes P (deltasFrom 0 values))),0,8⟩ =
      riceCodes P (deltasFrom 0 values) ++ List.replicate pad false := by
  refine ⟨(8 - (riceCodes P (deltasFrom 0 values)).length % 8) % 8,Nat.mod_lt _ (by norm_num),?_⟩
  rw [BitStreamReader.remaining_start,bytesToBits_bitsToBytes (dvd_length_padBits (by norm_num) _),padBits]

/-- The header of an encoding reads back as the count when it is at most `MAX_SIZE`. -/
theorem read_encoding {f : GCSFilter} {values : List UInt64} (encodes : f.Encodes values) (small : values.length ≤ MAX_SIZE) :
    readCompactSizeVector f.m_encoded =
      .ok (f.m_N.toNat,bitsToBytes (padBits 8 (riceCodes f.m_P.toNat (deltasFrom 0 values)))) := by
  rw [encodes.encoded,encoding,readCompactSizeVector_run (by unfold MAX_SIZE at small; omega),if_pos small,encodes.count]

/-- Past `MAX_SIZE` the header of an encoding is refused. -/
theorem read_encoding_too_large {f : GCSFilter} {values : List UInt64} (encodes : f.Encodes values)
    (large : MAX_SIZE < values.length) :
    readCompactSizeVector f.m_encoded = .error "ReadCompactSize(): size too large" := by
  have fits : values.length < 2^64 := by
    have := f.m_N.toNat_lt
    rw [encodes.count] at this
    omega
  rw [encodes.encoded,encoding,readCompactSizeVector_run fits,if_neg (Nat.not_le.mpr large)]

/-- `MatchInternal` of a filter over sorted values finds whether one of sorted
    queries is among them. -/
theorem MatchInternal_spec {f : GCSFilter} {values : List UInt64} (encodes : f.Encodes values)
    (narrow : f.m_P.toNat < 64) (small : values.length ≤ MAX_SIZE) {element_hashes : List UInt64}
    (queries : element_hashes.Pairwise (· ≤ ·)) :
    f.MatchInternal element_hashes = .ok (decide (∃ h ∈ element_hashes, h ∈ values)) := by
  obtain ⟨pad,_,bits⟩ := remaining_codes f.m_P.toNat values
  unfold MatchInternal
  rw [read_encoding encodes small]
  dsimp only [bind,Except.bind]
  rw [if_neg (not_not.mpr rfl),encodes.count]
  exact matchLoop_spec narrow _ 0 values encodes.sorted queries (Nat.le_refl 8) bits

/-- Past `MAX_SIZE`, `MatchInternal` throws instead of matching. -/
theorem MatchInternal_too_large {f : GCSFilter} {values : List UInt64} (encodes : f.Encodes values)
    (large : MAX_SIZE < values.length) (element_hashes : List UInt64) :
    f.MatchInternal element_hashes = .error "ReadCompactSize(): size too large" := by
  unfold MatchInternal
  rw [read_encoding_too_large encodes large]
  rfl

/-- The decoding constructor gives back a filter from its encoding, up to `MAX_SIZE`
    values: the padding is the excess data its check allows. -/
theorem ofEncoded_spec {f : GCSFilter} {values : List UInt64} (encodes : f.Encodes values)
    (narrow : f.m_P.toNat < 64) (small : values.length ≤ MAX_SIZE) (range : f.m_F = f.m_N.toUInt64 * f.m_M.toUInt64) :
    ofEncoded f.m_siphash_k0 f.m_siphash_k1 f.m_P f.m_M f.m_encoded = .ok f := by
  obtain ⟨pad,short,bits⟩ := remaining_codes f.m_P.toNat values
  obtain ⟨r',decoded,_,rest'⟩ := decodeCount_spec narrow _ _ (Nat.le_refl 8) bits
  rw [length_deltasFrom,← encodes.count] at decoded
  have used : r'.m_istream = [] := BitStreamReader.istream_eq_nil_of_length_lt (by rw [rest']; simpa using short)
  have same : f.m_N.toNat.toUInt32 = f.m_N := by rw [Nat.toUInt32_eq,UInt32.ofNat_toNat]
  unfold ofEncoded
  rw [read_encoding encodes small]
  dsimp only [bind,Except.bind]
  rw [same,if_neg (not_not.mpr rfl),decoded]
  dsimp only
  rw [if_neg (not_not.mpr used),← range]
  rfl

/-- Past `MAX_SIZE`, the decoding constructor refuses a filter's own encoding. -/
theorem ofEncoded_too_large {f : GCSFilter} {values : List UInt64} (encodes : f.Encodes values)
    (large : MAX_SIZE < values.length) :
    ofEncoded f.m_siphash_k0 f.m_siphash_k1 f.m_P f.m_M f.m_encoded = .error "ReadCompactSize(): size too large" := by
  unfold ofEncoded
  rw [read_encoding_too_large encodes large]
  rfl


theorem encoding_nil (P : Nat) : encoding P [] = WriteCompactSize 0 := by
  have empty : bitsToBytes (padBits 8 (riceCodes P (deltasFrom 0 []))) = [] := by
    show bitsToBytes (padBits 8 []) = []
    rw [bitsToBytes,chunks_of_lt (show (padBits 8 []).length < 8 by decide)]
    rfl
  rw [encoding,empty,List.append_nil]
  rfl

/-! ## Building and matching -/

section Hashing

variable (siphash : UInt64 → UInt64 → Element → UInt64)

theorem mem_BuildHashedSet {f : GCSFilter} {elements : ElementSet} {x : UInt64} :
    x ∈ f.BuildHashedSet siphash elements ↔ ∃ e ∈ elements.elements, f.HashToRange siphash e = x := by
  rw [BuildHashedSet,List.mem_mergeSort,List.mem_map]

theorem BuildHashedSet_of_nil {f : GCSFilter} {elements : ElementSet} (empty : elements.elements = []) :
    f.BuildHashedSet siphash elements = [] := by
  rw [BuildHashedSet,empty,List.map_nil,List.mergeSort_nil]

theorem length_BuildHashedSet (f : GCSFilter) (elements : ElementSet) :
    (f.BuildHashedSet siphash elements).length = elements.elements.length := by
  rw [BuildHashedSet,List.length_mergeSort,List.length_map]

theorem sorted_BuildHashedSet (f : GCSFilter) (elements : ElementSet) :
    (f.BuildHashedSet siphash elements).Pairwise (· ≤ ·) := by
  have trans : ∀ a b c : UInt64, decide (a ≤ b) = true → decide (b ≤ c) = true → decide (a ≤ c) = true :=
    fun _ _ _ ab bc => decide_eq_true (UInt64.le_trans (of_decide_eq_true ab) (of_decide_eq_true bc))
  have total : ∀ a b : UInt64, (decide (a ≤ b) || decide (b ≤ a)) = true := by
    intro a b
    rcases UInt64.le_total a b with le | ge
    · simp [le]
    · simp [ge]
  exact (@List.pairwise_mergeSort _ (fun a b => decide (a ≤ b)) trans total _).imp of_decide_eq_true

/-- The building constructor, below `2^32` elements, gives a filter over the
    sorted hashes of the elements, whatever the keys and the hash. -/
theorem ofElements_spec (siphash_k0 siphash_k1 : UInt64) {P : UInt8} (narrow : P.toNat < 64) (M : UInt32)
    {elements : ElementSet} (fits : elements.elements.length < 2^32) :
    ∃ f, ofElements siphash siphash_k0 siphash_k1 P M elements = .ok f ∧
      f.m_siphash_k0 = siphash_k0 ∧ f.m_siphash_k1 = siphash_k1 ∧ f.m_P = P ∧ f.m_M = M ∧
      f.m_F = f.m_N.toUInt64 * f.m_M.toUInt64 ∧ f.Encodes (f.BuildHashedSet siphash elements) := by
  have small : elements.elements.length.toUInt32.toNat = elements.elements.length := by
    rw [Nat.toUInt32_eq,UInt32.toNat_ofNat',Nat.mod_eq_of_lt fits]
  unfold ofElements
  dsimp only
  rw [if_neg (not_not.mpr small)]
  by_cases empty : elements.elements = []
  · rw [if_pos empty]
    refine ⟨_,rfl,rfl,rfl,rfl,rfl,rfl,sorted_BuildHashedSet siphash _ _,by rw [small,length_BuildHashedSet],?_⟩
    dsimp only
    rw [BuildHashedSet_of_nil siphash empty,encoding_nil,small,empty]
    rfl
  · rw [if_neg empty]
    -- the loop runs on the filter before its encoding is set, which hashes alike
    obtain ⟨w',loop,valid',written'⟩ := encodeDeltas_spec narrow 0
      (BuildHashedSet siphash { ofParams siphash_k0 siphash_k1 P M with
        m_N := elements.elements.length.toUInt32, m_F := elements.elements.length.toUInt32.toUInt64 * M.toUInt64 } elements)
      (BitStreamWriter.valid_start (WriteCompactSize elements.elements.length.toUInt32.toNat))
    rw [BitStreamWriter.written_start] at written'
    erw [loop]
    refine ⟨_,rfl,rfl,rfl,rfl,rfl,rfl,sorted_BuildHashedSet siphash _ _,by rw [small,length_BuildHashedSet],?_⟩
    dsimp only
    rw [BitStreamWriter.Flush_ostream valid' written',encoding,length_BuildHashedSet,small]
    rfl

/-- `Match` of a filter over sorted values is whether the element's hash is among them. -/
theorem Match_spec {f : GCSFilter} {values : List UInt64} (encodes : f.Encodes values)
    (narrow : f.m_P.toNat < 64) (small : values.length ≤ MAX_SIZE) (element : Element) :
    f.Match siphash element = .ok (decide (f.HashToRange siphash element ∈ values)) := by
  have single : (∃ h ∈ [f.HashToRange siphash element], h ∈ values) ↔ f.HashToRange siphash element ∈ values := by
    simp
  rw [Match,MatchInternal_spec encodes narrow small (List.pairwise_singleton _ _),decide_eq_decide.mpr single]

/-- `MatchAny` of a filter over sorted values is whether one of the hashes of
    the elements is among them. -/
theorem MatchAny_spec {f : GCSFilter} {values : List UInt64} (encodes : f.Encodes values)
    (narrow : f.m_P.toNat < 64) (small : values.length ≤ MAX_SIZE) (elements : ElementSet) :
    f.MatchAny siphash elements = .ok (decide (∃ h ∈ f.BuildHashedSet siphash elements, h ∈ values)) :=
  MatchInternal_spec encodes narrow small (sorted_BuildHashedSet siphash f elements)

end Hashing

end GCSFilter

/-! ## No false negatives, and the encoding reads back -/

open GCSFilter in
/-- Up to `MAX_SIZE` elements, for every key, hash, `P < 64` and `M`: a built
    filter matches each of its elements and every set that meets them; read
    back from its encoding it is the same filter, with the same count and the
    same answers; and `MapIntoRange` is the top word of the product. -/
theorem gcs_filter_round_trip (siphash : UInt64 → UInt64 → Element → UInt64) (siphash_k0 siphash_k1 : UInt64)
    (P : UInt8) (M : UInt32) (E : ElementSet) (narrow : P.toNat < 64) (small : E.elements.length ≤ MAX_SIZE) :
    ∃ F, ofElements siphash siphash_k0 siphash_k1 P M E = .ok F ∧
      (∀ e ∈ E.elements, F.Match siphash e = .ok true) ∧
      (∀ Q : ElementSet, (∃ e ∈ Q.elements, e ∈ E.elements) → F.MatchAny siphash Q = .ok true) ∧
      (∃ F', ofEncoded siphash_k0 siphash_k1 P M F.GetEncoded = .ok F' ∧ F'.GetN = F.GetN ∧
        (∀ e, F'.Match siphash e = F.Match siphash e) ∧ ∀ Q, F'.MatchAny siphash Q = F.MatchAny siphash Q) ∧
      ∀ x n : UInt64, (MapIntoRange x n).toNat = x.toNat * n.toNat / 2^64 := by
  obtain ⟨F,build,k0,k1,P_eq,M_eq,range,encodes⟩ :=
    ofElements_spec siphash siphash_k0 siphash_k1 narrow M (show E.elements.length < 2^32 by unfold MAX_SIZE at small; omega)
  have narrow' : F.m_P.toNat < 64 := by rw [P_eq]; exact narrow
  have small' : (F.BuildHashedSet siphash E).length ≤ MAX_SIZE := by rw [length_BuildHashedSet]; exact small
  have decoded : ofEncoded siphash_k0 siphash_k1 P M F.GetEncoded = .ok F := by
    rw [← k0,← k1,← P_eq,← M_eq]
    exact ofEncoded_spec encodes narrow' small' range
  have hashed : ∀ {Q : ElementSet} {e : Element}, e ∈ Q.elements → F.HashToRange siphash e ∈ F.BuildHashedSet siphash Q :=
    fun mem => (mem_BuildHashedSet siphash).mpr ⟨_,mem,rfl⟩
  refine ⟨F,build,?_,?_,⟨F,decoded,rfl,fun _ => rfl,fun _ => rfl⟩,MapIntoRange_eq⟩
  · intro e mem
    rw [Match_spec siphash encodes narrow' small' e,decide_eq_true (hashed mem)]
  · rintro Q ⟨e,inQ,inE⟩
    rw [MatchAny_spec siphash encodes narrow' small' Q,decide_eq_true ⟨_,hashed inQ,hashed inE⟩]

/-- One element, under the basic filter's parameters and a constant hash. -/
def oneElement : ElementSet := ⟨[[0x51]],List.nodup_singleton _⟩

open GCSFilter in
theorem gcs_filter_round_trip_basic :
    (19 : UInt8).toNat < 64 ∧ oneElement.elements.length ≤ MAX_SIZE ∧
    ∃ F, ofElements (fun _ _ _ => 0) 0 0 19 784931 oneElement = .ok F ∧
      (∀ e ∈ oneElement.elements, F.Match (fun _ _ _ => 0) e = .ok true) ∧
      (∀ Q : ElementSet, (∃ e ∈ Q.elements, e ∈ oneElement.elements) → F.MatchAny (fun _ _ _ => 0) Q = .ok true) ∧
      (∃ F', ofEncoded 0 0 19 784931 F.GetEncoded = .ok F' ∧ F'.GetN = F.GetN ∧
        (∀ e, F'.Match (fun _ _ _ => 0) e = F.Match (fun _ _ _ => 0) e) ∧
        ∀ Q, F'.MatchAny (fun _ _ _ => 0) Q = F.MatchAny (fun _ _ _ => 0) Q) ∧
      ∀ x n : UInt64, (MapIntoRange x n).toNat = x.toNat * n.toNat / 2^64 :=
  ⟨by decide,by decide,gcs_filter_round_trip _ _ _ _ _ _ (by decide) (by decide)⟩

/-- `MAX_SIZE + 1` elements, the strings of zero bytes of each length up to
    `MAX_SIZE`. -/
def oversizedElements : ElementSet :=
  ⟨(List.range (MAX_SIZE + 1)).map fun n => List.replicate n 0,
    List.nodup_range.map fun m n same => by simpa using congrArg List.length same⟩

open GCSFilter in
/-- Fewer than `2^32` elements, yet more than `MAX_SIZE`: the filter is built,
    but `ReadCompactSize` refuses its count, so every `Match` throws and so does
    the decoding constructor on its encoding. -/
theorem oversized_filter_unreadable :
    oversizedElements.elements.length < 2^32 ∧
    ∀ (siphash : UInt64 → UInt64 → Element → UInt64) (siphash_k0 siphash_k1 : UInt64) (P : UInt8) (M : UInt32),
      P.toNat < 64 → ∃ F, ofElements siphash siphash_k0 siphash_k1 P M oversizedElements = .ok F ∧
        (∀ e ∈ oversizedElements.elements, F.Match siphash e = .error "ReadCompactSize(): size too large") ∧
        ofEncoded siphash_k0 siphash_k1 P M F.GetEncoded = .error "ReadCompactSize(): size too large" := by
  have length : oversizedElements.elements.length = MAX_SIZE + 1 := by simp [oversizedElements]
  have fits : oversizedElements.elements.length < 2^32 := by
    rw [length]
    unfold MAX_SIZE
    norm_num
  refine ⟨fits,?_⟩
  intro siphash siphash_k0 siphash_k1 P M narrow
  obtain ⟨F,build,k0,k1,P_eq,M_eq,_,encodes⟩ := ofElements_spec siphash siphash_k0 siphash_k1 narrow M fits
  have large : MAX_SIZE < (F.BuildHashedSet siphash oversizedElements).length := by
    rw [length_BuildHashedSet,length]
    omega
  refine ⟨F,build,fun e _ => MatchInternal_too_large encodes large _,?_⟩
  rw [GetEncoded,← k0,← k1,← P_eq,← M_eq]
  exact ofEncoded_too_large encodes large

end BitcoinPrivate
