import BitcoinPrivate.Library.StreamReader
import BitcoinPrivate.Primitives.Serialize

/-!
The reading side of `serialize.h`: the fixed-width integers, `ReadCompactSize`
with its canonical-form and `MAX_SIZE` checks, `boost::optional`, vectors and
blobs, each with the round trip of its writer in `Serialize`. A stream that ends
early throws `CDataStream::read`'s message.
-/
namespace BitcoinPrivate
open LittleEndian StreamReader

def endOfData : String := "CDataStream::read(): end of data"

/-- The `w` bytes of a little-endian integer. -/
def ser_readdata (w : Nat) : Reader UInt8 Nat := leValue <$> take endOfData w

def ser_readdata8 : Reader UInt8 Nat := ser_readdata 1

def ser_readdata16 : Reader UInt8 Nat := ser_readdata 2

def ser_readdata32 : Reader UInt8 Nat := ser_readdata 4

def ser_readdata64 : Reader UInt8 Nat := ser_readdata 8

def MAX_SIZE : Nat := 0x02000000

/-- The payload after a marker byte, refused below the least value that needs
    the marker. -/
def readCanonical (least : Nat) (r : Reader UInt8 Nat) : Reader UInt8 Nat := do
  let nSizeRet ← r
  if nSizeRet < least then throw "non-canonical ReadCompactSize()"
  pure nSizeRet

/-- The branches of `ReadCompactSize` on the first byte. -/
def readCompactSizePayload (chSize : Nat) : Reader UInt8 Nat :=
  if chSize < 253 then pure chSize
  else if chSize = 253 then readCanonical 253 ser_readdata16
  else if chSize = 254 then readCanonical 0x10000 ser_readdata32
  else readCanonical 0x100000000 ser_readdata64

/-- `ReadCompactSize`. -/
def ReadCompactSize : Reader UInt8 Nat := do
  let chSize ← ser_readdata8
  let nSizeRet ← readCompactSizePayload chSize
  if MAX_SIZE < nSizeRet then throw "ReadCompactSize(): size too large"
  pure nSizeRet

theorem ser_readdata_run (w n : Nat) (rest : List UInt8) :
    (ser_readdata w).run (leBytes n w ++ rest) = .ok (n % 256^w,rest) := by
  have read := (Reads.take endOfData (leBytes n w)).map leValue rest
  rwa [leBytes_length,leValue_leBytes] at read

theorem readCanonical_run {least w n : Nat} (lo : least ≤ n) (hi : n < 256^w) (rest : List UInt8) :
    (readCanonical least (ser_readdata w)).run (leBytes n w ++ rest) = .ok (n,rest) := by
  have read := ser_readdata_run w n rest
  rw [Nat.mod_eq_of_lt hi] at read
  simp only [readCanonical]
  rw [run_bind_ok read,if_neg (Nat.not_lt.mpr lo)]
  rfl

/-- The marker and the payload give back the size written, at every width. -/
theorem readCompactSizePayload_run {nSize : Nat} (fits : nSize < 2^64) (rest : List UInt8) :
    (ser_readdata8 >>= readCompactSizePayload).run (WriteCompactSize nSize ++ rest) = .ok (nSize,rest) := by
  unfold WriteCompactSize
  split_ifs with small medium large
  · have read := ser_readdata_run 1 nSize rest
    rw [Nat.mod_eq_of_lt (by omega)] at read
    rw [ser_writedata8,ser_readdata8,run_bind_ok read]
    simp only [readCompactSizePayload,if_pos small]
    rfl
  · have marker := ser_readdata_run 1 253 (ser_writedata16 nSize ++ rest)
    rw [ser_writedata8,List.append_assoc,ser_readdata8,run_bind_ok marker]
    simp only [readCompactSizePayload]
    exact readCanonical_run (by omega) (by omega) rest
  · have marker := ser_readdata_run 1 254 (ser_writedata32 nSize ++ rest)
    rw [ser_writedata8,List.append_assoc,ser_readdata8,run_bind_ok marker]
    simp only [readCompactSizePayload]
    exact readCanonical_run (by omega) (by omega) rest
  · have marker := ser_readdata_run 1 255 (ser_writedata64 nSize ++ rest)
    rw [ser_writedata8,List.append_assoc,ser_readdata8,run_bind_ok marker]
    simp only [readCompactSizePayload]
    exact readCanonical_run (by omega) (by omega) rest

/-- A size written by `WriteCompactSize` reads back, up to `MAX_SIZE`; past it
    the reader refuses it. -/
theorem ReadCompactSize_run {nSize : Nat} (fits : nSize < 2^64) (rest : List UInt8) :
    ReadCompactSize.run (WriteCompactSize nSize ++ rest) =
      if nSize ≤ MAX_SIZE then .ok (nSize,rest) else .error "ReadCompactSize(): size too large" := by
  have payload := readCompactSizePayload_run fits rest
  rw [ReadCompactSize,← bind_assoc,run_bind_ok payload]
  by_cases small : nSize ≤ MAX_SIZE
  · simp [small,Nat.not_lt.mpr small]
    rfl
  · simp [small,Nat.lt_of_not_le small]
    rfl


/-- `Unserialize` of a `boost::optional`. -/
def unserializeOptional {α : Type} (r : Reader UInt8 α) : Reader UInt8 (Option α) := do
  let discriminant ← ser_readdata8
  if discriminant = 0 then pure none
  else if discriminant = 1 then do
    let object ← r
    pure (some object)
  else throw "non-canonical optional discriminant"

/-- `Unserialize` of a `std::vector`: the length, then that many elements. The
    source reads them in blocks of at most 5 MB, which bounds what it allocates
    ahead and nothing else. -/
def unserializeVector {α : Type} (r : Reader UInt8 α) : Reader UInt8 (List α) := do
  let nSize ← ReadCompactSize
  replicateM r nSize

/-- `Unserialize` of a `base_blob`: its bytes. -/
def base_blob.Unserialize (WIDTH : Nat) : Reader UInt8 (base_blob WIDTH) := do
  let v ← takeVector endOfData WIDTH
  pure ⟨v.toList,by simp⟩

theorem ser_readdata8_reads {n : Nat} (small : n < 256) : Reads ser_readdata8 n (ser_writedata8 n) := by
  intro rest
  have read := ser_readdata_run 1 n rest
  rwa [Nat.pow_one,Nat.mod_eq_of_lt small] at read

theorem unserializeOptional_reads {α : Type} {r : Reader UInt8 α} {f : α → List UInt8} :
    ∀ {o : Option α}, (∀ a ∈ o, Reads r a (f a)) → Reads (unserializeOptional r) o (serOptional f o)
  | none, _ => by
    intro rest
    rw [serOptional,unserializeOptional,run_bind_ok (ser_readdata8_reads (by decide) rest)]
    rfl
  | some a, each => by
    intro rest
    have object := each a rfl
    rw [serOptional,List.append_assoc,unserializeOptional,run_bind_ok (ser_readdata8_reads (by decide) _)]
    simp only [one_ne_zero,if_false,if_true]
    rw [run_bind_ok (object rest)]
    rfl

theorem ReadCompactSize_reads {nSize : Nat} (small : nSize ≤ MAX_SIZE) :
    Reads ReadCompactSize nSize (WriteCompactSize nSize) := by
  intro rest
  rw [ReadCompactSize_run (by unfold MAX_SIZE at small; omega),if_pos small]

theorem unserializeVector_reads {α : Type} {r : Reader UInt8 α} {f : α → List UInt8} {xs : List α}
    (each : ∀ a ∈ xs, Reads r a (f a)) (short : xs.length ≤ MAX_SIZE) :
    Reads (unserializeVector r) xs (serVector f xs) :=
  by simpa [unserializeVector,serVector] using (ReadCompactSize_reads short).bind (f := replicateM r) (Reads.replicateM (g := id) each)

/-- A vector whose first element is refused is refused. -/
theorem unserializeVector_head_error {α : Type} {r : Reader UInt8 α} {f : α → List UInt8} (x : α) (xs : List α)
    (short : (x :: xs).length ≤ MAX_SIZE) {e : String} (fails : ∀ rest, r.run (f x ++ rest) = .error e)
    (rest : List UInt8) : (unserializeVector r).run (serVector f (x :: xs) ++ rest) = .error e := by
  rw [serVector,List.append_assoc,unserializeVector,run_bind_ok (ReadCompactSize_reads short _),List.length_cons,
    replicateM,List.flatMap_cons,List.append_assoc,run_bind_error (fails _)]

theorem base_blob.Unserialize_reads {WIDTH : Nat} (b : base_blob WIDTH) :
    Reads (base_blob.Unserialize WIDTH) b b.Serialize := by
  intro rest
  have read := Reads.takeVector endOfData (⟨b.data.toArray,by simp [b.size]⟩ : Vector UInt8 WIDTH) rest
  simp only [Vector.toList] at read
  rw [base_blob.Serialize,base_blob.Unserialize,run_bind_ok read]
  rfl

/-! ## `ReadCompactSize` accepts one form only -/

theorem ser_readdata_inv {w v : Nat} {s s' : List UInt8} (read : (ser_readdata w).run s = .ok (v,s')) :
    ∃ bytes, s = bytes ++ s' ∧ bytes.length = w ∧ v = leValue bytes := by
  rw [ser_readdata,StateT.run_map] at read
  by_cases enough : w ≤ s.length
  · have taken : (take endOfData w : Reader UInt8 (List UInt8)).run s = .ok (s.take w,s.drop w) := if_pos enough
    rw [taken] at read
    obtain ⟨rfl,rfl⟩ := Prod.mk.inj (Except.ok.inj read)
    exact ⟨s.take w,(List.take_append_drop w s).symm,by simpa using enough,rfl⟩
  · have short : (take endOfData w : Reader UInt8 (List UInt8)).run s = .error endOfData := if_neg enough
    rw [short] at read
    cases read

/-- A payload read at a marker: its bytes, which stand for a value at least the least one. -/
theorem readCanonical_inv {least w v : Nat} {s s' : List UInt8}
    (read : (readCanonical least (ser_readdata w)).run s = .ok (v,s')) :
    ∃ bytes, s = bytes ++ s' ∧ bytes.length = w ∧ v = leValue bytes ∧ least ≤ v := by
  obtain ⟨n,s₁,payload,checked⟩ := run_bind_eq_ok.mp read
  obtain ⟨bytes,rfl,width,rfl⟩ := ser_readdata_inv payload
  by_cases small : leValue bytes < least
  · rw [if_pos small] at checked
    cases checked
  · rw [if_neg small] at checked
    obtain ⟨rfl,rfl⟩ := Prod.mk.inj (Except.ok.inj checked)
    exact ⟨bytes,rfl,width,rfl,Nat.le_of_not_lt small⟩

theorem ser_writedata8_toNat (b : UInt8) : ser_writedata8 b.toNat = [b] := by
  rw [ser_writedata8,leBytes,leBytes,Nat.mod_eq_of_lt b.toNat_lt,UInt8.ofNat_toNat]

/-- The payload's bytes at their width are the writer's. -/
theorem leBytes_of_readCanonical {bytes : List UInt8} {w : Nat} (width : bytes.length = w) :
    leBytes (leValue bytes) w = bytes := by
  rw [← width,leBytes_leValue]

/-- What `ReadCompactSize` accepts is the one form `WriteCompactSize` writes. -/
theorem ReadCompactSize_canonical {s rest : List UInt8} {nSize : Nat} (read : ReadCompactSize.run s = .ok (nSize,rest)) :
    s = WriteCompactSize nSize ++ rest := by
  obtain ⟨chSize,s₁,marker,payload⟩ := run_bind_eq_ok.mp read
  obtain ⟨n,s₂,value,checked⟩ := run_bind_eq_ok.mp payload
  have same : n = nSize ∧ s₂ = rest := by
    by_cases large : MAX_SIZE < n
    · rw [if_pos large] at checked
      cases checked
    · rw [if_neg large] at checked
      exact Prod.mk.inj (Except.ok.inj checked)
  obtain ⟨rfl,rfl⟩ := same
  obtain ⟨byte,rfl,one,rfl⟩ := ser_readdata_inv marker
  obtain ⟨b,rfl⟩ := List.length_eq_one_iff.mp one
  have code : leValue [b] = b.toNat := by simp [leValue]
  rw [code] at value
  have below := b.toNat_lt
  change b.toNat < 256 at below
  unfold readCompactSizePayload at value
  split_ifs at value with small medium large
  · obtain ⟨rfl,rfl⟩ := Prod.mk.inj (Except.ok.inj value)
    rw [WriteCompactSize,if_pos small,ser_writedata8_toNat]
  · obtain ⟨bytes,rfl,width,rfl,least⟩ := readCanonical_inv value
    have fits := leValue_lt bytes
    rw [width] at fits
    rw [WriteCompactSize,if_neg (by omega),if_pos (by omega),← medium,ser_writedata8_toNat,ser_writedata16,
      leBytes_of_readCanonical width]
    rfl
  · obtain ⟨bytes,rfl,width,rfl,least⟩ := readCanonical_inv value
    have fits := leValue_lt bytes
    rw [width] at fits
    rw [WriteCompactSize,if_neg (by omega),if_neg (by omega),if_pos (by omega),← large,ser_writedata8_toNat,
      ser_writedata32,leBytes_of_readCanonical width]
    rfl
  · obtain ⟨bytes,rfl,width,rfl,least⟩ := readCanonical_inv value
    rw [WriteCompactSize,if_neg (by omega),if_neg (by omega),if_neg (by omega),
      show (255 : Nat) = b.toNat by omega,ser_writedata8_toNat,ser_writedata64,leBytes_of_readCanonical width]
    rfl
theorem readCanonical_small {least w v : Nat} (small : v < least) (fits : v < 256^w) (rest : List UInt8) :
    (readCanonical least (ser_readdata w)).run (leBytes v w ++ rest) = .error "non-canonical ReadCompactSize()" := by
  have read := ser_readdata_run w v rest
  rw [Nat.mod_eq_of_lt fits] at read
  simp only [readCanonical]
  rw [run_bind_ok read,if_pos small]
  rfl

/-- A size written behind a wider marker than it needs is refused. -/
theorem ReadCompactSize_non_canonical {marker w least v : Nat}
    (form : (marker,w,least) = (253,2,253) ∨ (marker,w,least) = (254,4,0x10000) ∨
      (marker,w,least) = (255,8,0x100000000))
    (small : v < least) (rest : List UInt8) :
    ReadCompactSize.run (ser_writedata8 marker ++ leBytes v w ++ rest) = .error "non-canonical ReadCompactSize()" := by
  have read := ser_readdata8_reads (show marker < 256 by rcases form with h | h | h <;> simp at h <;> omega)
    (leBytes v w ++ rest)
  rw [ReadCompactSize,List.append_assoc,run_bind_ok read]
  rcases form with form | form | form <;> simp only [Prod.mk.injEq] at form <;> obtain ⟨rfl,rfl,rfl⟩ := form
  · have payload : (readCompactSizePayload 253).run (leBytes v 2 ++ rest) = .error "non-canonical ReadCompactSize()" := by
      rw [readCompactSizePayload,if_neg (by decide),if_pos rfl]
      exact readCanonical_small small (by omega) rest
    rw [run_bind_error payload]
  · have payload : (readCompactSizePayload 254).run (leBytes v 4 ++ rest) = .error "non-canonical ReadCompactSize()" := by
      rw [readCompactSizePayload,if_neg (by decide),if_neg (by decide),if_pos rfl]
      exact readCanonical_small small (by omega) rest
    rw [run_bind_error payload]
  · have payload : (readCompactSizePayload 255).run (leBytes v 8 ++ rest) = .error "non-canonical ReadCompactSize()" := by
      rw [readCompactSizePayload,if_neg (by decide),if_neg (by decide),if_neg (by decide)]
      exact readCanonical_small small (by omega) rest
    rw [run_bind_error payload]
end BitcoinPrivate
