import BitcoinPrivate.Library.Regroup

/-!
`BitStreamWriter` and `BitStreamReader` of `streams.h`: bits most significant
first, through a one-byte buffer, over a stream of bytes.

A writer stands for the bits it has written: the bytes it gave the stream, then
the top `m_offset` bits of its buffer (`written`); its buffer is zero below
them (`Valid`). `Write` adds the `nbits` low bits of the data to those, and
`Flush` pads them with zeros to a whole byte. A reader stands for the bits it
has not read: the buffer's below `m_offset`, then the stream's (`remaining`);
`Read` takes the first `nbits` of them. The loops of both are proved one turn
at a time, a turn taking the bits up to the next byte boundary.
-/
namespace BitcoinPrivate
open BitStream

/-- `VectorReader::read`'s message at the end of the data. -/
def vectorReaderEndOfData : String := "VectorReader::read(): end of data"

/-- `BitStreamWriter`, with the bytes written to its stream so far. -/
structure BitStreamWriter where
  m_ostream : List UInt8
  m_buffer : UInt8
  m_offset : Nat
deriving DecidableEq, Repr

/-- `BitStreamReader`, with the bytes of its stream not read yet. -/
structure BitStreamReader where
  m_istream : List UInt8
  m_buffer : UInt8
  m_offset : Nat
deriving DecidableEq, Repr

namespace BitStreamWriter

/-- `Flush`. -/
def Flush (w : BitStreamWriter) : BitStreamWriter :=
  if w.m_offset = 0 then w else { m_ostream := w.m_ostream ++ [w.m_buffer], m_buffer := 0, m_offset := 0 }

/-- A turn of the loop of `Write` into the buffer: the top bits of the `nbits`
    left, up to the end of the buffer. -/
def fillBuffer (data : UInt64) (nbits : Nat) (w : BitStreamWriter) : BitStreamWriter :=
  { w with
    m_buffer := w.m_buffer ||| ((data <<< (64 - nbits).toUInt64) >>> (64 - 8 + w.m_offset).toUInt64).toUInt8
    m_offset := w.m_offset + min (8 - w.m_offset) nbits }

/-- The loop of `Write`, flushing a full buffer after each turn. A turn takes a
    bit at least, so `nbits` turns are enough (`fuel`). -/
def writeLoop (data : UInt64) : (fuel nbits : Nat) → BitStreamWriter → BitStreamWriter
  | 0, _, w => w
  | fuel+1, nbits, w =>
    if nbits > 0 then
      let filled := fillBuffer data nbits w
      writeLoop data fuel (nbits - min (8 - w.m_offset) nbits) (if filled.m_offset = 8 then filled.Flush else filled)
    else w

/-- `Write`. -/
def Write (w : BitStreamWriter) (data : UInt64) (nbits : Nat) : Except String BitStreamWriter :=
  if nbits > 64 then throw "nbits must be between 0 and 64" else pure (writeLoop data nbits nbits w)

/-- The bits written: the bytes out, then the top `m_offset` bits of the buffer. -/
def written (w : BitStreamWriter) : List Bool :=
  bytesToBits w.m_ostream ++ toBits w.m_offset (w.m_buffer.toNat >>> (8 - w.m_offset))

/-- The offset is inside the buffer, and the buffer is zero below it. -/
structure Valid (w : BitStreamWriter) : Prop where
  offset_lt : w.m_offset < 8
  aligned : 2^(8 - w.m_offset) ∣ w.m_buffer.toNat

end BitStreamWriter

namespace BitStreamReader

/-- `if (m_offset == 8) { m_istream >> m_buffer; m_offset = 0; }` -/
def refill (r : BitStreamReader) : Except String BitStreamReader :=
  if r.m_offset = 8 then
    match r.m_istream with
    | [] => throw vectorReaderEndOfData
    | b :: rest => pure { m_istream := rest, m_buffer := b, m_offset := 0 }
  else pure r

/-- A turn of the loop of `Read` from the buffer: its bits from the offset,
    up to its end or to the `nbits` left, shifted in below `data`. -/
def takeBits (nbits : Nat) (r : BitStreamReader) (data : UInt64) : UInt64 × BitStreamReader :=
  let bits := min (8 - r.m_offset) nbits
  ((data <<< bits.toUInt64) ||| ((r.m_buffer <<< r.m_offset.toUInt8) >>> (8 - bits).toUInt8).toUInt64,
    { r with m_offset := r.m_offset + bits })

/-- The loop of `Read`, reading a byte into the buffer first when it is used
    up. `nbits` turns are enough (`fuel`). -/
def readLoop : (fuel nbits : Nat) → BitStreamReader → UInt64 → Except String (UInt64 × BitStreamReader)
  | 0, _, r, data => pure (data,r)
  | fuel+1, nbits, r, data =>
    if nbits > 0 then do
      let r ← r.refill
      readLoop fuel (nbits - min (8 - r.m_offset) nbits) (takeBits nbits r data).2 (takeBits nbits r data).1
    else pure (data,r)

/-- `Read`. -/
def Read (r : BitStreamReader) (nbits : Nat) : Except String (UInt64 × BitStreamReader) :=
  if nbits > 64 then throw "nbits must be between 0 and 64" else readLoop nbits nbits r 0

/-- The bits not read yet: those of the buffer from the offset, then the stream's. -/
def remaining (r : BitStreamReader) : List Bool := (toBits 8 r.m_buffer.toNat).drop r.m_offset ++ bytesToBits r.m_istream

end BitStreamReader

/-! ## Bits of a byte and of a word -/

theorem toNat_toUInt64_small {n : Nat} (small : n < 64) : n.toUInt64.toNat % 64 = n := by
  rw [Nat.toUInt64_eq,UInt64.toNat_ofNat',Nat.mod_eq_of_lt (show n < 2^64 by omega),Nat.mod_eq_of_lt small]

theorem toNat_toUInt8_small {n : Nat} (small : n < 8) : n.toUInt8.toNat % 8 = n := by
  rw [Nat.toUInt8_eq,UInt8.toNat_ofNat',Nat.mod_eq_of_lt (show n < 2^8 by omega),Nat.mod_eq_of_lt small]

/-- The bits of `x` from `s` to `s + t`. -/
theorem mod_pow_add_div_pow (x s t : Nat) : x % 2^(s + t) / 2^s = x / 2^s % 2^t := by
  rw [Nat.pow_add,Nat.mod_mul_right_div_self]

/-- The low bits below a value shifted up, then those of the value. -/
theorem toBits_mul_pow_add {T C bits : Nat} (small : C < 2^bits) (o : Nat) :
    toBits (o + bits) (T * 2^bits + C) = toBits o T ++ toBits bits C := by
  have top : (T * 2^bits + C) >>> bits = T := by
    rw [Nat.shiftRight_eq_div_pow,Nat.mul_comm,Nat.mul_add_div (by positivity),Nat.div_eq_of_lt small,Nat.add_zero]
  rw [toBits_add,top,← toBits_mod_two_pow bits (T * 2^bits + C),Nat.mul_add_mod_of_lt small]

/-- The `bits` bits a turn of `Write` puts into the buffer at offset `o`: the
    top `bits` of the `nbits` left, above the `8 - o - bits` bits still free. -/
theorem toNat_writeChunk (data : UInt64) {nbits o : Nat} (positive : 0 < nbits) (le : nbits ≤ 64) (inside : o < 8) :
    (((data <<< (64 - nbits).toUInt64) >>> (64 - 8 + o).toUInt64).toUInt8).toNat =
      data.toNat >>> (nbits - min (8 - o) nbits) % 2^(min (8 - o) nbits) * 2^(8 - o - min (8 - o) nbits) := by
  rw [UInt64.toNat_toUInt8,UInt64.toNat_shiftRight,UInt64.toNat_shiftLeft,toNat_toUInt64_small (by omega),
    toNat_toUInt64_small (by omega),Nat.shiftLeft_eq,Nat.shiftRight_eq_div_pow,Nat.shiftRight_eq_div_pow]
  have low : data.toNat * 2^(64 - nbits) % 2^64 = data.toNat % 2^nbits * 2^(64 - nbits) := by
    rw [show (2:Nat)^64 = 2^nbits * 2^(64 - nbits) by rw [← Nat.pow_add,Nat.add_sub_cancel' le],Nat.mul_mod_mul_right]
  have byte : 2^(8 - o) ≤ 2^8 := Nat.pow_le_pow_right (by norm_num) (by omega)
  rw [low]
  by_cases short : nbits ≤ 8 - o
  · -- all the bits left fit into the buffer
    rw [Nat.min_eq_right short,Nat.sub_self,pow_zero,Nat.div_one,
      show 64 - nbits = (8 - o - nbits) + (64 - 8 + o) by omega,Nat.pow_add,← Nat.mul_assoc,
      Nat.mul_div_cancel _ (by positivity)]
    apply Nat.mod_eq_of_lt
    calc data.toNat % 2^nbits * 2^(8 - o - nbits) < 2^nbits * 2^(8 - o - nbits) :=
          Nat.mul_lt_mul_of_pos_right (Nat.mod_lt _ (by positivity)) (by positivity)
      _ = 2^(8 - o) := by rw [← Nat.pow_add,Nat.add_sub_cancel' short]
      _ ≤ 2^8 := byte
  · -- the buffer fills up with the top `8 - o` of them
    rw [Nat.min_eq_left (by omega),Nat.sub_self,pow_zero,Nat.mul_one,
      show 64 - 8 + o = (nbits - (8 - o)) + (64 - nbits) by omega,Nat.pow_add,
      Nat.mul_div_mul_right _ _ (by positivity),
      show (2:Nat)^nbits = 2^((nbits - (8 - o)) + (8 - o)) by rw [Nat.sub_add_cancel (by omega)],mod_pow_add_div_pow]
    exact Nat.mod_eq_of_lt (lt_of_lt_of_le (Nat.mod_lt _ (by positivity)) byte)

/-- The `bits` bits a turn of `Read` takes from the buffer at offset `o`. -/
theorem toNat_readChunk (buffer : UInt8) {o bits : Nat} (positive : 0 < bits) (fits : o + bits ≤ 8) :
    ((buffer <<< o.toUInt8) >>> (8 - bits).toUInt8).toUInt64.toNat = ofBits (((toBits 8 buffer.toNat).drop o).take bits) := by
  have bottom : (toBits 8 buffer.toNat).drop o = toBits (8 - o) buffer.toNat := by
    rw [show toBits 8 buffer.toNat = toBits (o + (8 - o)) buffer.toNat by rw [Nat.add_sub_cancel' (by omega)],toBits_add,
      List.drop_left' (length_toBits _ _)]
  have next : (toBits (8 - o) buffer.toNat).take bits = toBits bits (buffer.toNat >>> (8 - o - bits)) := by
    rw [show 8 - o = bits + (8 - o - bits) by omega,toBits_add,List.take_left' (length_toBits _ _),
      show bits + (8 - o - bits) - bits = 8 - o - bits by omega]
  rw [bottom,next,ofBits_toBits,UInt8.toNat_toUInt64,UInt8.toNat_shiftRight,UInt8.toNat_shiftLeft,
    toNat_toUInt8_small (by omega),toNat_toUInt8_small (by omega),Nat.shiftLeft_eq,Nat.shiftRight_eq_div_pow,
    Nat.shiftRight_eq_div_pow,
    show (2:Nat)^8 = 2^(8 - o) * 2^o by rw [← Nat.pow_add,Nat.sub_add_cancel (by omega)],Nat.mul_mod_mul_right,
    show 8 - bits = (8 - o - bits) + o by omega,Nat.pow_add,Nat.mul_div_mul_right _ _ (by positivity),
    show (2:Nat)^(8 - o) = 2^((8 - o - bits) + bits) by rw [Nat.sub_add_cancel (by omega)],mod_pow_add_div_pow]

/-! ## Writing -/

namespace BitStreamWriter

theorem written_of_buffer {w : BitStreamWriter} {T : Nat} (buffer : w.m_buffer.toNat = T * 2^(8 - w.m_offset)) :
    w.written = bytesToBits w.m_ostream ++ toBits w.m_offset T := by
  rw [written,buffer,Nat.shiftRight_eq_div_pow,Nat.mul_div_cancel _ (by positivity)]

theorem bytesToBits_append_byte (bytes : List UInt8) (b : UInt8) :
    bytesToBits (bytes ++ [b]) = bytesToBits bytes ++ toBits 8 b.toNat := by
  rw [bytesToBits,List.flatMap_append,List.flatMap_singleton]
  rfl

/-- A turn puts the next bits of the data after those written. -/
theorem fillBuffer_spec (data : UInt64) {w : BitStreamWriter} (valid : w.Valid) {nbits : Nat} (positive : 0 < nbits)
    (le : nbits ≤ 64) :
    (fillBuffer data nbits w).m_offset ≤ 8 ∧
      2^(8 - (fillBuffer data nbits w).m_offset) ∣ (fillBuffer data nbits w).m_buffer.toNat ∧
      (fillBuffer data nbits w).written =
        w.written ++ toBits (min (8 - w.m_offset) nbits) (data.toNat >>> (nbits - min (8 - w.m_offset) nbits)) := by
  obtain ⟨inside,T,buffer⟩ := valid
  obtain ⟨bits,bits_eq⟩ : ∃ bits, bits = min (8 - w.m_offset) nbits := ⟨_,rfl⟩
  have offset : (fillBuffer data nbits w).m_offset = w.m_offset + bits := by rw [bits_eq]; rfl
  have stream : (fillBuffer data nbits w).m_ostream = w.m_ostream := rfl
  have filled : (fillBuffer data nbits w).m_buffer.toNat =
      2^(8 - w.m_offset) * T ||| data.toNat >>> (nbits - bits) % 2^bits * 2^(8 - w.m_offset - bits) := by
    rw [← buffer,bits_eq,← toNat_writeChunk data positive le inside]
    exact UInt8.toNat_or _ _
  have fits : w.m_offset + bits ≤ 8 := by omega
  have C_lt : data.toNat >>> (nbits - bits) % 2^bits < 2^bits := Nat.mod_lt _ (by positivity)
  rw [← bits_eq,← toBits_mod_two_pow bits (data.toNat >>> (nbits - bits))]
  generalize data.toNat >>> (nbits - bits) % 2^bits = C at filled C_lt ⊢
  have pow_split : (2:Nat)^(8 - w.m_offset) = 2^bits * 2^(8 - (w.m_offset + bits)) := by
    rw [← Nat.pow_add]
    congr 1
    omega
  have sum : (fillBuffer data nbits w).m_buffer.toNat = (T * 2^bits + C) * 2^(8 - (fillBuffer data nbits w).m_offset) := by
    have small : C * 2^(8 - w.m_offset - bits) < 2^(8 - w.m_offset) := by
      rw [pow_split,show 8 - w.m_offset - bits = 8 - (w.m_offset + bits) by omega]
      exact Nat.mul_lt_mul_of_pos_right C_lt (by positivity)
    rw [filled,offset,Nat.mul_comm (2^(8 - w.m_offset)) T,← Nat.shiftLeft_eq,← Nat.shiftLeft_add_eq_or_of_lt small,
      Nat.shiftLeft_eq,pow_split,show 8 - w.m_offset - bits = 8 - (w.m_offset + bits) by omega]
    ring
  refine ⟨by omega,Dvd.intro_left _ sum.symm,?_⟩
  rw [written_of_buffer sum,written_of_buffer (show w.m_buffer.toNat = T * 2^(8 - w.m_offset) by rw [buffer,Nat.mul_comm]),
    offset,stream,toBits_mul_pow_add C_lt,List.append_assoc]

theorem valid_start (m_ostream : List UInt8) : Valid { m_ostream := m_ostream, m_buffer := 0, m_offset := 0 } :=
  ⟨Nat.zero_lt_succ 7,Nat.dvd_zero _⟩

/-- A full buffer goes out whole. -/
theorem Flush_full {w : BitStreamWriter} (full : w.m_offset = 8) : (Flush w).Valid ∧ (Flush w).written = w.written := by
  have flushed : Flush w = { m_ostream := w.m_ostream ++ [w.m_buffer], m_buffer := 0, m_offset := 0 } := by
    rw [Flush,if_neg (by omega)]
  rw [flushed]
  refine ⟨valid_start _,?_⟩
  rw [written,written,bytesToBits_append_byte,full,Nat.sub_self,Nat.shiftRight_zero,toBits,List.append_nil]

/-- `Flush` pads the bits written with zeros to a whole byte. -/
theorem Flush_spec {w : BitStreamWriter} (valid : w.Valid) : (Flush w).Valid ∧ (Flush w).written = padBits 8 w.written := by
  obtain ⟨inside,T,buffer⟩ := valid
  have buffer' : w.m_buffer.toNat = T * 2^(8 - w.m_offset) := by rw [buffer,Nat.mul_comm]
  have whole : 8 ∣ (bytesToBits w.m_ostream).length := by
    rw [length_bytesToBits]
    exact Nat.dvd_mul_right 8 _
  rw [written_of_buffer buffer',padBits_append_short whole (by rw [length_toBits]; exact inside),length_toBits]
  by_cases empty : w.m_offset = 0
  · have same : Flush w = w := by rw [Flush,if_pos empty]
    rw [same,written_of_buffer buffer',empty,Nat.sub_zero,Nat.mod_self,List.replicate_zero,List.append_nil]
    exact ⟨⟨inside,T,buffer⟩,rfl⟩
  · have flushed : Flush w = { m_ostream := w.m_ostream ++ [w.m_buffer], m_buffer := 0, m_offset := 0 } := by
      rw [Flush,if_neg empty]
    have byte : toBits 8 w.m_buffer.toNat = toBits w.m_offset T ++ List.replicate (8 - w.m_offset) false := by
      rw [show toBits 8 w.m_buffer.toNat = toBits (w.m_offset + (8 - w.m_offset)) (T * 2^(8 - w.m_offset) + 0) by
          rw [Nat.add_sub_cancel' (le_of_lt inside),Nat.add_zero,buffer'],
        toBits_mul_pow_add (by positivity),toBits_zero]
    rw [flushed,Nat.mod_eq_of_lt (show 8 - w.m_offset < 8 by omega)]
    refine ⟨valid_start _,?_⟩
    rw [written,bytesToBits_append_byte,byte,toBits,List.append_nil,List.append_assoc]

/-- With no bits in the buffer, the bits written are the bytes out: at the
    start, and after `Flush`. -/
theorem written_of_offset_zero {w : BitStreamWriter} (empty : w.m_offset = 0) : w.written = bytesToBits w.m_ostream := by
  rw [written,empty,toBits,List.append_nil]

theorem written_start (m_ostream : List UInt8) :
    written { m_ostream := m_ostream, m_buffer := 0, m_offset := 0 } = bytesToBits m_ostream :=
  written_of_offset_zero rfl

theorem Flush_offset (w : BitStreamWriter) : (Flush w).m_offset = 0 := by
  unfold Flush
  split_ifs with empty
  · exact empty
  · rfl

/-- A writer that wrote bits after whole bytes flushes to those bytes, then the
    bits padded to whole bytes. -/
theorem Flush_ostream {w : BitStreamWriter} (valid : w.Valid) {header : List UInt8} {bits : List Bool}
    (after : w.written = bytesToBits header ++ bits) : (Flush w).m_ostream = header ++ bitsToBytes (padBits 8 bits) := by
  have whole : 8 ∣ (bytesToBits header).length := by
    rw [length_bytesToBits]
    exact Nat.dvd_mul_right 8 _
  have out : bytesToBits (Flush w).m_ostream = bytesToBits header ++ padBits 8 bits := by
    rw [← written_of_offset_zero (Flush_offset w),(Flush_spec valid).2,after,padBits_append_of_dvd whole]
  rw [← bitsToBytes_bytesToBits (Flush w).m_ostream,out,bitsToBytes_append_of_dvd whole,bitsToBytes_bytesToBits]

/-- The loop of `Write` puts the `nbits` low bits of the data after those written. -/
theorem writeLoop_spec (data : UInt64) : ∀ {fuel nbits : Nat} {w : BitStreamWriter}, w.Valid → nbits ≤ fuel → nbits ≤ 64 →
    (writeLoop data fuel nbits w).Valid ∧ (writeLoop data fuel nbits w).written = w.written ++ toBits nbits data.toNat
  | 0, nbits, w, valid, enough, _ => by
    rw [Nat.le_zero.mp enough]
    exact ⟨valid,by rw [writeLoop,toBits,List.append_nil]⟩
  | fuel+1, nbits, w, valid, enough, le => by
    by_cases positive : 0 < nbits
    · obtain ⟨offset_le,aligned,filled⟩ := fillBuffer_spec data valid positive le
      have turn : (if (fillBuffer data nbits w).m_offset = 8 then (fillBuffer data nbits w).Flush
          else fillBuffer data nbits w).Valid ∧
          (if (fillBuffer data nbits w).m_offset = 8 then (fillBuffer data nbits w).Flush
            else fillBuffer data nbits w).written = (fillBuffer data nbits w).written := by
        split_ifs with full
        · exact Flush_full full
        · exact ⟨⟨by omega,aligned⟩,rfl⟩
      have taken : 0 < min (8 - w.m_offset) nbits := by have := valid.offset_lt; omega
      have rest := writeLoop_spec data turn.1 (show nbits - min (8 - w.m_offset) nbits ≤ fuel by omega) (by omega)
      rw [writeLoop,if_pos positive]
      refine ⟨rest.1,?_⟩
      rw [rest.2,turn.2,filled,List.append_assoc,← toBits_add,Nat.add_sub_cancel' (Nat.min_le_right _ _)]
    · rw [Nat.eq_zero_of_not_pos positive]
      exact ⟨by rw [writeLoop,if_neg (by omega)]; exact valid,by rw [writeLoop,if_neg (by omega),toBits,List.append_nil]⟩

/-- `Write` of at most 64 bits puts the `nbits` low bits of the data after those written. -/
theorem Write_spec (data : UInt64) {w : BitStreamWriter} (valid : w.Valid) {nbits : Nat} (le : nbits ≤ 64) :
    ∃ w', w.Write data nbits = .ok w' ∧ w'.Valid ∧ w'.written = w.written ++ toBits nbits data.toNat := by
  refine ⟨_,by rw [Write,if_neg (by omega)]; rfl,writeLoop_spec data valid (le_refl nbits) le⟩

end BitStreamWriter

/-! ## Reading -/

namespace BitStreamReader

theorem length_remaining {r : BitStreamReader} : r.remaining.length = (8 - r.m_offset) + 8 * r.m_istream.length := by
  rw [remaining,List.length_append,List.length_drop,length_toBits,length_bytesToBits]

/-- A reader at its start has the bits of its stream left. -/
theorem remaining_start (m_istream : List UInt8) :
    ({ m_istream := m_istream, m_buffer := 0, m_offset := 8 } : BitStreamReader).remaining = bytesToBits m_istream := by
  rw [remaining,List.drop_of_length_le (by rw [length_toBits]),List.nil_append]

/-- Fewer bits left than a byte: the stream is used up. -/
theorem istream_eq_nil_of_length_lt {r : BitStreamReader} (short : r.remaining.length < 8) : r.m_istream = [] := by
  rw [length_remaining] at short
  exact List.eq_nil_of_length_eq_zero (by omega)

/-- A used-up buffer takes the next byte; the bits not read stay the same. -/
theorem refill_spec {r : BitStreamReader} (le : r.m_offset ≤ 8) (some : 0 < r.remaining.length) :
    ∃ r', r.refill = .ok r' ∧ r'.m_offset < 8 ∧ r'.remaining = r.remaining := by
  by_cases full : r.m_offset = 8
  · rw [length_remaining,full] at some
    obtain ⟨b,rest,stream⟩ := List.exists_cons_of_length_pos (show 0 < r.m_istream.length by omega)
    refine ⟨{ m_istream := rest, m_buffer := b, m_offset := 0 },by rw [refill,if_pos full,stream]; rfl,Nat.zero_lt_succ 7,?_⟩
    rw [remaining,remaining,full,stream,List.drop_zero,List.drop_of_length_le (by rw [length_toBits]),List.nil_append]
    rfl
  · exact ⟨r,by rw [refill,if_neg full]; rfl,by omega,rfl⟩

/-- A turn takes the next bits, up to the end of the buffer, in below the data. -/
theorem takeBits_spec {nbits : Nat} {r : BitStreamReader} {data : UInt64} (inside : r.m_offset < 8) (positive : 0 < nbits)
    (small : data.toNat < 2^(64 - nbits)) (le : nbits ≤ 64) :
    (takeBits nbits r data).1.toNat =
        data.toNat * 2^(min (8 - r.m_offset) nbits) + ofBits (r.remaining.take (min (8 - r.m_offset) nbits)) ∧
      (takeBits nbits r data).2.m_offset ≤ 8 ∧
      (takeBits nbits r data).2.remaining = r.remaining.drop (min (8 - r.m_offset) nbits) := by
  obtain ⟨bits,bits_eq⟩ : ∃ bits, bits = min (8 - r.m_offset) nbits := ⟨_,rfl⟩
  have taken : 0 < bits := by omega
  have fits : r.m_offset + bits ≤ 8 := by omega
  have buffered : bits ≤ ((toBits 8 r.m_buffer.toNat).drop r.m_offset).length := by
    rw [List.length_drop,length_toBits]
    omega
  have chunk : ((r.m_buffer <<< r.m_offset.toUInt8) >>> (8 - bits).toUInt8).toUInt64.toNat =
      ofBits (r.remaining.take bits) := by
    rw [toNat_readChunk r.m_buffer taken fits,remaining,List.take_append_of_le_length buffered]
  have room : data.toNat * 2^bits < 2^64 :=
    calc data.toNat * 2^bits < 2^(64 - nbits) * 2^bits := Nat.mul_lt_mul_of_pos_right small (by positivity)
      _ ≤ 2^64 := by rw [← Nat.pow_add]; exact Nat.pow_le_pow_right (by norm_num) (by omega)
  have below : ofBits (r.remaining.take bits) < 2^bits :=
    lt_of_lt_of_le (ofBits_lt _) (Nat.pow_le_pow_right (by norm_num) (by rw [List.length_take]; omega))
  rw [← bits_eq]
  refine ⟨?_,by show r.m_offset + min (8 - r.m_offset) nbits ≤ 8; omega,?_⟩
  · show ((data <<< (min (8 - r.m_offset) nbits).toUInt64) |||
      ((r.m_buffer <<< r.m_offset.toUInt8) >>> (8 - min (8 - r.m_offset) nbits).toUInt8).toUInt64).toNat = _
    rw [← bits_eq,UInt64.toNat_or,chunk,UInt64.toNat_shiftLeft,toNat_toUInt64_small (by omega),Nat.mod_eq_of_lt
      (by rw [Nat.shiftLeft_eq]; exact room),← Nat.shiftLeft_add_eq_or_of_lt below,Nat.shiftLeft_eq]
  · show (toBits 8 r.m_buffer.toNat).drop (r.m_offset + min (8 - r.m_offset) nbits) ++ bytesToBits r.m_istream = _
    rw [← bits_eq,remaining,List.drop_append_of_le_length buffered,List.drop_drop,Nat.add_comm]

/-- The loop of `Read` takes the first `nbits` bits not read, in below the data. -/
theorem readLoop_spec : ∀ {fuel nbits : Nat} {r : BitStreamReader} {data : UInt64}, r.m_offset ≤ 8 → nbits ≤ fuel →
    nbits ≤ 64 → nbits ≤ r.remaining.length → data.toNat < 2^(64 - nbits) →
    ∃ v r', readLoop fuel nbits r data = .ok (v,r') ∧ v.toNat = data.toNat * 2^nbits + ofBits (r.remaining.take nbits) ∧
      r'.m_offset ≤ 8 ∧ r'.remaining = r.remaining.drop nbits
  | 0, nbits, r, data, le, enough, _, _, _ => by
    rw [Nat.le_zero.mp enough]
    exact ⟨data,r,rfl,by simp [ofBits],le,rfl⟩
  | fuel+1, nbits, r, data, le, enough, narrow, available, small => by
    by_cases positive : 0 < nbits
    · obtain ⟨r1,refilled,inside,same⟩ := refill_spec le (by omega)
      obtain ⟨value,offset,rest⟩ := takeBits_spec inside positive small narrow
      obtain ⟨bits,bits_eq⟩ : ∃ bits, bits = min (8 - r1.m_offset) nbits := ⟨_,rfl⟩
      rw [← bits_eq] at value rest
      have taken : 0 < bits := by omega
      have step_small : (takeBits nbits r1 data).1.toNat < 2^(64 - (nbits - bits)) := by
        have below : ofBits (r1.remaining.take bits) < 2^bits :=
          lt_of_lt_of_le (ofBits_lt _) (Nat.pow_le_pow_right (by norm_num) (by rw [List.length_take]; omega))
        calc (takeBits nbits r1 data).1.toNat < (data.toNat + 1) * 2^bits := by rw [value,Nat.succ_mul]; omega
          _ ≤ 2^(64 - nbits) * 2^bits := Nat.mul_le_mul_right _ small
          _ = 2^(64 - (nbits - bits)) := by rw [← Nat.pow_add]; congr 1; omega
      obtain ⟨v,r',loop,v_eq,offset',rest'⟩ := readLoop_spec offset (show nbits - bits ≤ fuel by omega) (by omega)
        (by rw [rest,List.length_drop,same]; omega) step_small
      refine ⟨v,r',?_,?_,offset',?_⟩
      · rw [readLoop,if_pos positive,refilled]
        show readLoop fuel (nbits - min (8 - r1.m_offset) nbits) (takeBits nbits r1 data).2 (takeBits nbits r1 data).1 = _
        rw [← bits_eq]
        exact loop
      · have split : r.remaining.take nbits = r.remaining.take bits ++ (r.remaining.drop bits).take (nbits - bits) := by
          rw [← List.take_add,Nat.add_sub_cancel' (by omega)]
        have length : ((r.remaining.drop bits).take (nbits - bits)).length = nbits - bits := by
          rw [List.length_take,List.length_drop]
          omega
        rw [v_eq,value,rest,same,split,ofBits_append,length,Nat.add_mul,Nat.mul_assoc,← Nat.pow_add,
          Nat.add_sub_cancel' (by omega),Nat.add_assoc]
      · rw [rest',rest,same,List.drop_drop,Nat.add_sub_cancel' (by omega)]
    · rw [Nat.eq_zero_of_not_pos positive]
      exact ⟨data,r,by rw [readLoop,if_neg (by omega)]; rfl,by simp [ofBits],le,rfl⟩

/-- `Read` of at most 64 bits, where there are that many, takes the first `nbits` bits not read. -/
theorem Read_spec {r : BitStreamReader} (le : r.m_offset ≤ 8) {nbits : Nat} (narrow : nbits ≤ 64)
    (available : nbits ≤ r.remaining.length) :
    ∃ v r', r.Read nbits = .ok (v,r') ∧ v.toNat = ofBits (r.remaining.take nbits) ∧ r'.m_offset ≤ 8 ∧
      r'.remaining = r.remaining.drop nbits := by
  obtain ⟨v,r',loop,v_eq,offset,rest⟩ := readLoop_spec le (le_refl nbits) narrow available
    (show (0 : UInt64).toNat < 2^(64 - nbits) by positivity)
  refine ⟨v,r',by rw [Read,if_neg (by omega)]; exact loop,by rw [v_eq]; simp,offset,rest⟩

end BitStreamReader

end BitcoinPrivate
