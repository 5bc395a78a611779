import BitcoinPrivate.Library.AlignedBlocks
import BitcoinPrivate.Library.LittleEndian

/-!
The Equihash solution verifier, `Equihash<N,K>::IsValidSolution`. A solution
packs `2^K` indices of `CollisionBitLength+1` bits each; an index names `N/8`
bytes of the hash output `GenerateHash` gives for it, expanded into a row of
`K+1` collision fields of whole bytes. The verifier pairs rows off level by
level: two neighbours must agree on their next field, come in the order of
their index lists and share no index, and their merge keeps the XOR of the
fields after it and both index lists. One row is left after the last level,
and its remaining field must be zero.
-/
namespace BitcoinPrivate.Equihash
open LittleEndian

abbrev eh_index := UInt32

section Sizes

variable (N K : Nat)

def IndicesPerHashOutput : Nat := 512 / N
def HashOutput : Nat := IndicesPerHashOutput N * N / 8
def CollisionBitLength : Nat := N / (K+1)
def CollisionByteLength : Nat := (CollisionBitLength N K + 7) / 8
def HashLength : Nat := (K+1) * CollisionByteLength N K
def SolutionWidth : Nat := 2^K * (CollisionBitLength N K + 1) / 8

end Sizes

/-- The `(bit_len+7)/8 + byte_pad` bytes `ExpandArray` writes for one element:
    `byte_pad` zeros, then the `bit_len` bits of `acc_value` above its low
    `acc_bits`, big-endian. -/
def expandElement (bit_len byte_pad acc_bits : Nat) (acc_value : UInt32) : List UInt8 :=
  let out_width := (bit_len + 7) / 8 + byte_pad
  let bit_len_mask : UInt32 := ((1 : UInt32) <<< bit_len.toUInt32) - 1
  List.replicate byte_pad 0 ++ (List.range' byte_pad (out_width - byte_pad)).map fun x =>
    ((acc_value >>> (acc_bits + 8 * (out_width - x - 1)).toUInt32) &&&
      ((bit_len_mask >>> (8 * (out_width - x - 1)).toUInt32) &&& 0xFF)).toUInt8

/-- The loop of `ExpandArray` over the input bytes still to read, with
    `acc_bits` bits waiting in the accumulator. -/
def expandFrom (bit_len byte_pad : Nat) : List UInt8 → Nat → UInt32 → List UInt8
  | [], _, _ => []
  | b :: input, acc_bits, acc_value =>
    let acc_value := (acc_value <<< 8) ||| b.toUInt32
    if bit_len ≤ acc_bits + 8 then
      expandElement bit_len byte_pad (acc_bits + 8 - bit_len) acc_value ++
        expandFrom bit_len byte_pad input (acc_bits + 8 - bit_len) acc_value
    else expandFrom bit_len byte_pad input (acc_bits + 8) acc_value

/-- The bytes `ExpandArray` writes: the input cut into `bit_len`-bit elements.
    Its asserts (`8 ≤ bit_len ≤ 25` and the output length) hold at every call
    the verifier makes. -/
def ExpandArray (input : List UInt8) (bit_len byte_pad : Nat) : List UInt8 :=
  expandFrom bit_len byte_pad input 0 0

/-- `htobe32` into memory: the four bytes of the index, most significant first. -/
def EhIndexToArray (i : eh_index) : List UInt8 := (leBytes i.toNat 4).reverse

def ArrayToEhIndex (array : List UInt8) : eh_index := (leValue (array.take 4).reverse).toUInt32

/-- The indices of an array, four bytes each. -/
def arrayToEhIndices : List UInt8 → List eh_index
  | b0 :: b1 :: b2 :: b3 :: array => ArrayToEhIndex [b0,b1,b2,b3] :: arrayToEhIndices array
  | _ => []

def GetIndicesFromMinimal (minimal : List UInt8) (cBitLen : Nat) : List eh_index :=
  let bytePad := 4 - ((cBitLen + 1) + 7) / 8
  arrayToEhIndices (ExpandArray minimal (cBitLen + 1) bytePad)

/-- The row of index `i`: its `N/8` bytes of the hash output of
    `i / IndicesPerHashOutput`, expanded into `CollisionBitLength`-bit fields. -/
def hashRow (N K : Nat) (GenerateHash : eh_index → Vector UInt8 (HashOutput N)) (i : eh_index) : List UInt8 :=
  let tmpHash := (GenerateHash (i.toNat / IndicesPerHashOutput N).toUInt32).toList
  ExpandArray ((tmpHash.drop (i.toNat % IndicesPerHashOutput N * N / 8)).take (N / 8)) (CollisionBitLength N K) 0

/-- A row of the verifier: the hash bytes still to collide, then the indices
    below it, which the source stores big-endian after them. -/
structure FullStepRow where
  hash : List UInt8
  indices : List eh_index

namespace FullStepRow

/-- The bytes the source keeps the indices in. -/
def indexBytes (row : FullStepRow) : List UInt8 := row.indices.flatMap EhIndexToArray

/-- `memcmp(hash+len, a.hash+len, lenIndices) < 0`. -/
def IndicesBefore (row a : FullStepRow) : Bool := decide (row.indexBytes < a.indexBytes)

def IsZero (row : FullStepRow) (len : Nat) : Bool := (row.hash.take len).all (· == 0)

/-- The merge constructor: the XOR of the two hashes from `trim` up to `len`,
    then the index lists, the one that sorts first in front. -/
def merge (a b : FullStepRow) (len trim : Nat) : FullStepRow where
  hash := ((List.zipWith (· ^^^ ·) a.hash b.hash).take len).drop trim
  indices := if a.IndicesBefore b then a.indices ++ b.indices else b.indices ++ a.indices

end FullStepRow

def HasCollision (a b : FullStepRow) (l : Nat) : Bool := a.hash.take l == b.hash.take l

def DistinctIndices (a b : FullStepRow) : Bool :=
  a.indices.all fun i => b.indices.all fun j => EhIndexToArray i != EhIndexToArray j

/-- One pass of the verifier's `while` loop: rows `X[i]`, `X[i+1]` for even
    `i`, each pair checked and merged, or `none` where a check fails. -/
def collideRows (CollisionByteLength len : Nat) : List FullStepRow → Except String (Option (List FullStepRow))
  | [] => .ok (some [])
  | [_] => .error "X[i+1] past the end of X"
  | a :: b :: X =>
    if !HasCollision a b CollisionByteLength then .ok none
    else if b.IndicesBefore a then .ok none
    else if !DistinctIndices a b then .ok none
    else (collideRows CollisionByteLength len X).map (Option.map (a.merge b len CollisionByteLength :: ·))

/-- The three checks the loop makes on a pair, in the source's order. -/
def pairPasses (c : Nat) (a b : FullStepRow) : Bool :=
  HasCollision a b c && !b.IndicesBefore a && DistinctIndices a b

theorem collideRows_cons_cons (c len : Nat) (a b : FullStepRow) (X : List FullStepRow) :
    collideRows c len (a :: b :: X) =
      if pairPasses c a b then (collideRows c len X).map (Option.map (a.merge b len c :: ·)) else .ok none := by
  rw [collideRows,pairPasses]
  by_cases collide : HasCollision a b c <;> by_cases before : b.IndicesBefore a <;>
    by_cases distinct : DistinctIndices a b <;> simp [collide,before,distinct]

private theorem map_cons_eq_ok_some {α : Type} {r : Except String (Option (List α))} {x : α} {Xc : List α}
    (mapped : r.map (Option.map (x :: ·)) = .ok (some Xc)) : ∃ Xs, r = .ok (some Xs) ∧ Xc = x :: Xs := by
  rcases r with e | _ | Xs <;> simp [Except.map] at mapped ⊢
  exact mapped.symm

theorem collideRows_length {c len : Nat} :
    ∀ {X Xc : List FullStepRow}, collideRows c len X = .ok (some Xc) → Xc.length = X.length / 2
  | [], Xc, passed => by
    simp only [collideRows,Except.ok.injEq,Option.some.injEq] at passed
    simp [← passed]
  | [_], _, passed => by simp [collideRows] at passed
  | a :: b :: X, Xc, passed => by
    rw [collideRows_cons_cons] at passed
    by_cases pass : pairPasses c a b
    · rw [if_pos pass] at passed
      obtain ⟨Xs,rest,rfl⟩ := map_cons_eq_ok_some passed
      simp only [List.length_cons,collideRows_length rest]
      omega
    · simp [pass] at passed

/-- The verifier's `while (X.size() > 1)` loop, with the length of the hash
    part of its rows; the rows and that length at the end, or `none` where a
    check fails. -/
def collideLevels (CollisionByteLength hashLen : Nat) (X : List FullStepRow) :
    Except String (Option (List FullStepRow × Nat)) :=
  if _more : 1 < X.length then
    match _passed : collideRows CollisionByteLength hashLen X with
    | .ok (some Xc) => collideLevels CollisionByteLength (hashLen - CollisionByteLength) Xc
    | .ok none => .ok none
    | .error e => .error e
  else .ok (some (X,hashLen))
termination_by X.length
decreasing_by
  rw [collideRows_length _passed]
  omega

def IsValidSolution (N K : Nat) (GenerateHash : eh_index → Vector UInt8 (HashOutput N)) (soln : List UInt8) :
    Except String Bool :=
  if soln.length ≠ SolutionWidth N K then pure false else do
    let X := (GetIndicesFromMinimal soln (CollisionBitLength N K)).map fun i =>
      FullStepRow.mk (hashRow N K GenerateHash i) [i]
    match ← collideLevels (CollisionByteLength N K) (HashLength N K) X with
    | none => pure false
    | some ([row],hashLen) => pure (row.IsZero hashLen)
    | some _ => throw "assert(X.size() == 1)"

/-- The instantiations of `Equihash<N,K>` the source compiles. -/
def supportedParameters : List (Nat × Nat) := [(96,3),(200,9),(96,5),(48,5)]

/-- The sizes the verifier's lengths rest on: fields of at least a byte and
    indices that fit `eh_index`, `N` made of whole fields and whole bytes, and
    a solution of whole indices. -/
structure Parameters (N K : Nat) : Prop where
  wide : 8 ≤ CollisionBitLength N K
  index_bytes : (CollisionBitLength N K + 1 + 7) / 8 ≤ 4
  fields : N = (K+1) * CollisionBitLength N K
  whole_bytes : N % 8 = 0
  one_output : 0 < IndicesPerHashOutput N
  whole_solution : 8 * SolutionWidth N K = 2^K * (CollisionBitLength N K + 1)

theorem parameters_of_supported {N K : Nat} (supported : (N,K) ∈ supportedParameters) : Parameters N K := by
  simp only [supportedParameters,List.mem_cons,Prod.mk.injEq,List.not_mem_nil,or_false] at supported
  rcases supported with ⟨rfl,rfl⟩ | ⟨rfl,rfl⟩ | ⟨rfl,rfl⟩ | ⟨rfl,rfl⟩ <;> constructor <;> decide

theorem length_expandElement (bit_len byte_pad acc_bits : Nat) (acc_value : UInt32) :
    (expandElement bit_len byte_pad acc_bits acc_value).length = (bit_len + 7) / 8 + byte_pad := by
  simp only [expandElement,List.length_append,List.length_replicate,List.length_map,List.length_range']
  omega

/-- Every `bit_len` bits read make one element; fewer than `bit_len` wait in
    the accumulator between bytes. -/
theorem length_expandFrom {bit_len byte_pad : Nat} (wide : 8 ≤ bit_len) :
    ∀ (input : List UInt8) (acc_bits : Nat) (acc_value : UInt32), acc_bits < bit_len →
      (expandFrom bit_len byte_pad input acc_bits acc_value).length =
        ((bit_len + 7) / 8 + byte_pad) * ((acc_bits + 8 * input.length) / bit_len)
  | [], acc_bits, _, below => by simp [expandFrom,Nat.div_eq_of_lt below]
  | b :: input, acc_bits, acc_value, below => by
    simp only [expandFrom]
    split_ifs with full
    · have element : (acc_bits + 8 * (input.length + 1)) / bit_len =
          (acc_bits + 8 - bit_len + 8 * input.length) / bit_len + 1 := by
        rw [Nat.div_eq_sub_div (by omega) (by omega)]
        congr 2
        omega
      rw [List.length_append,length_expandElement,length_expandFrom wide input _ _ (by omega),
        List.length_cons,element,Nat.mul_succ,Nat.add_comm]
    · rw [length_expandFrom wide input _ _ (by omega),List.length_cons]
      congr 2
      omega

theorem length_ExpandArray {bit_len byte_pad : Nat} (wide : 8 ≤ bit_len) (input : List UInt8) :
    (ExpandArray input bit_len byte_pad).length = ((bit_len + 7) / 8 + byte_pad) * (8 * input.length / bit_len) := by
  rw [ExpandArray,length_expandFrom wide input 0 0 (by omega),Nat.zero_add]

theorem length_arrayToEhIndices : ∀ array : List UInt8, (arrayToEhIndices array).length = array.length / 4
  | _ :: _ :: _ :: _ :: array => by
    simp only [arrayToEhIndices,List.length_cons,length_arrayToEhIndices array]
    omega
  | [] | [_] | [_,_] | [_,_,_] => by simp [arrayToEhIndices]

/-- A solution of the right width packs `2^K` indices. -/
theorem length_GetIndicesFromMinimal {N K : Nat} (fit : Parameters N K) {soln : List UInt8}
    (sized : soln.length = SolutionWidth N K) : (GetIndicesFromMinimal soln (CollisionBitLength N K)).length = 2^K := by
  have four : (CollisionBitLength N K + 1 + 7) / 8 + (4 - (CollisionBitLength N K + 1 + 7) / 8) = 4 := by
    have := fit.index_bytes
    omega
  rw [GetIndicesFromMinimal,length_arrayToEhIndices,length_ExpandArray (by have := fit.wide; omega),four,sized,
    fit.whole_solution,Nat.mul_div_cancel _ (Nat.succ_pos _)]
  omega

/-- Every row has `HashLength` bytes: its `N/8` bytes lie inside the hash output. -/
theorem length_hashRow {N K : Nat} (fit : Parameters N K) (GenerateHash : eh_index → Vector UInt8 (HashOutput N))
    (i : eh_index) : (hashRow N K GenerateHash i).length = HashLength N K := by
  obtain ⟨n,rfl⟩ : ∃ n, N = 8 * n := ⟨N / 8,by have := fit.whole_bytes; omega⟩
  have offset : i.toNat % IndicesPerHashOutput (8*n) * (8*n) / 8 = i.toNat % IndicesPerHashOutput (8*n) * n := by
    rw [Nat.mul_left_comm,Nat.mul_div_cancel_left _ (by norm_num)]
  have inside : i.toNat % IndicesPerHashOutput (8*n) * n + n ≤ HashOutput (8*n) := by
    have below := Nat.mod_lt i.toNat fit.one_output
    have room := Nat.mul_le_mul_right n (Nat.succ_le_of_lt below)
    rw [HashOutput,Nat.mul_left_comm,Nat.mul_div_cancel_left _ (by norm_num)]
    rwa [Nat.succ_mul] at room
  have slice : ∀ v : Vector UInt8 (HashOutput (8*n)),
      ((v.toList.drop (i.toNat % IndicesPerHashOutput (8*n) * (8*n) / 8)).take (8*n / 8)).length = n := by
    intro v
    simp only [List.length_take,List.length_drop,Vector.length_toList,offset,
      Nat.mul_div_cancel_left n (by norm_num : 0 < 8)]
    generalize i.toNat % IndicesPerHashOutput (8*n) * n = start at inside ⊢
    omega
  have whole : 8 * n / CollisionBitLength (8*n) K = K + 1 :=
    Nat.div_eq_of_eq_mul_left (by have := fit.wide; omega) fit.fields
  rw [hashRow,length_ExpandArray fit.wide,slice,Nat.add_zero,whole,HashLength,CollisionByteLength,Nat.mul_comm]

@[simp] theorem length_EhIndexToArray (i : eh_index) : (EhIndexToArray i).length = 4 := by
  simp [EhIndexToArray]

private theorem toNat_lt_bytes (i : eh_index) : i.toNat < 256^4 := lt_of_lt_of_eq i.toNat_lt (by norm_num)

theorem EhIndexToArray_inj {i j : eh_index} : EhIndexToArray i = EhIndexToArray j ↔ i = j := by
  constructor
  · intro same
    exact UInt32.toNat_inj.mp (leBytes_inj (toNat_lt_bytes i) (toNat_lt_bytes j) (List.reverse_inj.mp same))
  · rintro rfl
    rfl

theorem EhIndexToArray_lt_iff {i j : eh_index} : EhIndexToArray i < EhIndexToArray j ↔ i < j := by
  rw [EhIndexToArray,EhIndexToArray,reverse_leBytes_lt_iff (toNat_lt_bytes i) (toNat_lt_bytes j),
    UInt32.lt_iff_toNat_lt]

/-- Index lists whose first indices differ compare as those do. -/
theorem IndicesBefore_of_head_ne {a b : FullStepRow} {x y : eh_index} {xs ys : List eh_index}
    (left : a.indices = x :: xs) (right : b.indices = y :: ys) (ne : x ≠ y) : a.IndicesBefore b = decide (x < y) := by
  have differ : EhIndexToArray x ≠ EhIndexToArray y := fun same => ne (EhIndexToArray_inj.mp same)
  simp only [FullStepRow.IndicesBefore,FullStepRow.indexBytes,left,right,List.flatMap_cons,decide_eq_decide]
  rw [append_lt_append_iff (by simp)]
  simp [differ,EhIndexToArray_lt_iff]

theorem DistinctIndices_iff {a b : FullStepRow} :
    DistinctIndices a b = true ↔ ∀ i ∈ a.indices, ∀ j ∈ b.indices, i ≠ j := by
  simp [DistinctIndices,EhIndexToArray_inj]

theorem HasCollision_iff {a b : FullStepRow} {l : Nat} : HasCollision a b l = true ↔ a.hash.take l = b.hash.take l := by
  simp [HasCollision]

theorem IsZero_iff {row : FullStepRow} {len : Nat} : row.IsZero len = true ↔ ∀ x ∈ row.hash.take len, x = 0 := by
  simp [FullStepRow.IsZero]

/-- A pass over rows laid out pair by pair merges every pair, or stops at the
    first that fails. -/
theorem collideRows_flatMap (c len : Nat) :
    ∀ P : List (FullStepRow × FullStepRow), collideRows c len (P.flatMap fun p => [p.1,p.2]) =
      .ok (if P.all (fun p => pairPasses c p.1 p.2) then some (P.map fun p => p.1.merge p.2 len c) else none)
  | [] => rfl
  | (a,b) :: P => by
    rw [List.flatMap_cons,List.cons_append,List.cons_append,List.nil_append,collideRows_cons_cons,
      collideRows_flatMap c len P]
    by_cases pass : pairPasses c a b <;> by_cases rest : P.all (fun p => pairPasses c p.1 p.2) <;>
      simp [pass,rest,Except.map]

theorem collideLevels_of_length_le_one {c hashLen : Nat} {X : List FullStepRow} (last : X.length ≤ 1) :
    collideLevels c hashLen X = .ok (some (X,hashLen)) := by
  rw [collideLevels,dif_neg (by omega)]

theorem collideLevels_of_collideRows {c hashLen : Nat} {X Xc : List FullStepRow} (more : 1 < X.length)
    (passed : collideRows c hashLen X = .ok (some Xc)) : collideLevels c hashLen X = collideLevels c (hashLen - c) Xc := by
  rw [collideLevels,dif_pos more]
  split <;> simp_all

theorem collideLevels_of_collideRows_none {c hashLen : Nat} {X : List FullStepRow} (more : 1 < X.length)
    (failed : collideRows c hashLen X = .ok none) : collideLevels c hashLen X = .ok none := by
  rw [collideLevels,dif_pos more]
  split <;> simp_all

end BitcoinPrivate.Equihash
