import BitcoinPrivate.Script.Interpreter

/-!
The strict DER grammar of BIP66 that `IsValidSignatureEncoding` checks: a
signature is `0x30 len 0x02 lenR R 0x02 lenS S hashtype`, with `R` and `S` the
shortest big-endian two's-complement encodings of integers that are not
negative. The checks of the source accept exactly that grammar, and none of
their reads falls outside the signature: the function with every read checked
against the size computes the same answer (`signature_encoding_matches_der`).
-/
namespace BitcoinPrivate
open LittleEndian StreamReader

/-- A DER integer: not negative, and with a leading zero byte only where the
    next byte would make it negative. -/
def IsShortestInteger : List UInt8 → Bool
  | [] => false
  | [b] => b.toNat < 0x80
  | b :: c :: _ => b.toNat < 0x80 && (b != 0 || 0x80 ≤ c.toNat)

/-- The signature of the grammar with the integers `R` and `S` and the hash type `h`. -/
def derSignature (R S : List UInt8) (h : UInt8) : List UInt8 :=
  [0x30, UInt8.ofNat (R.length + S.length + 4), 0x02, UInt8.ofNat R.length] ++ R ++
    [0x02, UInt8.ofNat S.length] ++ S ++ [h]

/-- The padding test `len > 1 && sig[start] == 0x00 && !(sig[start + 1] & 0x80)`
    with its reads checked, each made only as far as `&&` evaluates. -/
def checkedPadding (sig : valtype) (len start : Nat) : Option Bool := do
  if len > 1 then
    if (← sig[start]?) == 0x00 then return (← sig[start + 1]?) &&& 0x80 == 0
  return false

/-- `IsValidSignatureEncoding` with each read of `sig` checked against its size,
    as `sig.at(i)` would check it: `none` where a read falls outside. -/
def checkedSignatureEncoding (sig : valtype) : Option Bool := do
  if sig.length < 9 then return false
  if sig.length > 73 then return false
  if (← sig[0]?) != 0x30 then return false
  if (← sig[1]?).toNat != sig.length - 3 then return false
  let lenR := (← sig[3]?).toNat
  if 5 + lenR ≥ sig.length then return false
  let lenS := (← sig[5 + lenR]?).toNat
  if lenR + lenS + 7 != sig.length then return false
  if (← sig[2]?) != 0x02 then return false
  if lenR == 0 then return false
  if (← sig[4]?) &&& 0x80 != 0 then return false
  if (← checkedPadding sig lenR 4) then return false
  if (← sig[lenR + 4]?) != 0x02 then return false
  if lenS == 0 then return false
  if (← sig[lenR + 6]?) &&& 0x80 != 0 then return false
  if (← checkedPadding sig lenS (lenR + 6)) then return false
  return true

theorem ite_false_eq_true {c : Prop} [Decidable c] {b : Bool} :
    (if c then false else b) = true ↔ ¬c ∧ b = true := by
  by_cases c <;> simp [*]

/-- The tests of the source on an integer followed by `rest`. -/
theorem IsShortestInteger_iff (R rest : List UInt8) : IsShortestInteger R = true ↔
    R ≠ [] ∧ (R ++ rest).getD 0 0 &&& 0x80 = 0 ∧
      (R.length > 1 ∧ (R ++ rest).getD 0 0 = 0 → (R ++ rest).getD 1 0 &&& 0x80 ≠ 0) := by
  match R with
  | [] => simp [IsShortestInteger]
  | [b] => simp [IsShortestInteger, and_high_eq_zero_iff]
  | b :: c :: t =>
    simp only [IsShortestInteger, and_high_eq_zero_iff, List.cons_append, List.getD_cons_zero, List.getD_cons_succ,
      List.length_cons]
    by_cases zero : b = 0 <;> simp [zero, and_high_eq_zero_iff]

theorem derSignature_of_valid {sig : valtype} (valid : IsValidSignatureEncoding sig = true) :
    ∃ R S h, 1 ≤ R.length ∧ 1 ≤ S.length ∧ R.length + S.length ≤ 66 ∧
      IsShortestInteger R ∧ IsShortestInteger S ∧ sig = derSignature R S h := by
  unfold IsValidSignatureEncoding at valid
  simp only [ite_false_eq_true] at valid
  obtain ⟨short, long, tag, total, inside, sum, kind, zeroR, negR, padR, kindS, zeroS, negS, padS, -⟩ := valid
  simp only [bne_iff_ne, ne_eq, not_not, beq_iff_eq, Bool.and_eq_true, decide_eq_true_eq, not_and,
    Nat.add_comm 5] at *
  -- cut the signature at the fields the checks read: header, R, two bytes, S, hash type
  obtain ⟨b0, b1, b2, b3, rest, rfl⟩ : ∃ b0 b1 b2 b3 rest, sig = b0 :: b1 :: b2 :: b3 :: rest := by
    match sig, short with
    | b0 :: b1 :: b2 :: b3 :: rest, _ => exact ⟨b0, b1, b2, b3, rest, rfl⟩
  simp only [List.getD_cons_zero, List.getD_cons_succ, List.length_cons] at *
  obtain ⟨R, rest, rfl, lenR⟩ := exists_append_of_le (show b3.toNat ≤ rest.length by omega)
  have byteR := eq_ofNat_of_toNat_eq lenR.symm
  simp only [← lenR, List.length_append, List.getD_append_right, Nat.le_add_right, le_refl, Nat.sub_self,
    Nat.add_sub_cancel_left] at *
  obtain ⟨c0, rest, rfl⟩ := List.exists_cons_of_length_pos (show 0 < rest.length by omega)
  obtain ⟨c1, rest, rfl⟩ := List.exists_cons_of_length_pos
    (show 0 < rest.length by simp only [List.length_cons] at inside; omega)
  simp only [List.getD_cons_zero, List.getD_cons_succ, List.length_cons] at *
  obtain ⟨S, rest, rfl, lenS⟩ := exists_append_of_le (show c1.toNat ≤ rest.length by omega)
  have byteS := eq_ofNat_of_toNat_eq lenS.symm
  obtain ⟨h, rfl⟩ := List.length_eq_one_iff.mp (show rest.length = 1 by simp at sum; omega)
  simp only [← lenS, List.length_append, List.length_cons, List.length_nil] at *
  refine ⟨R, S, h, by omega, by omega, by omega,
    (IsShortestInteger_iff R (c0 :: c1 :: (S ++ [h]))).mpr ⟨?_, negR, padR⟩,
    (IsShortestInteger_iff S [h]).mpr ⟨?_, negS, padS⟩, ?_⟩
  · exact List.ne_nil_of_length_pos (by omega)
  · exact List.ne_nil_of_length_pos (by omega)
  · have byte1 := eq_ofNat_of_toNat_eq (show b1.toNat = R.length + S.length + 4 by omega)
    subst tag kind byteR kindS byteS byte1
    simp [derSignature]

theorem valid_derSignature {R S : List UInt8} {h : UInt8} (fits : R.length + S.length ≤ 66)
    (shortR : IsShortestInteger R) (shortS : IsShortestInteger S) :
    IsValidSignatureEncoding (derSignature R S h) = true := by
  obtain ⟨nonemptyR, negR, padR⟩ := (IsShortestInteger_iff R (0x02 :: UInt8.ofNat S.length :: (S ++ [h]))).mp shortR
  obtain ⟨nonemptyS, negS, padS⟩ := (IsShortestInteger_iff S [h]).mp shortS
  have lengthR : (UInt8.ofNat R.length).toNat = R.length := by simp; omega
  have lengthS : (UInt8.ofNat S.length).toNat = S.length := by simp; omega
  have total : (UInt8.ofNat (R.length + S.length + 4)).toNat = R.length + S.length + 4 := by simp; omega
  unfold IsValidSignatureEncoding derSignature
  simp only [List.cons_append, List.nil_append, List.append_assoc, List.length_cons, List.length_append,
    List.getD_cons_zero, List.getD_cons_succ, lengthR, lengthS, total, Nat.add_comm 5, List.getD_append_right,
    le_refl, Nat.le_add_right, Nat.add_sub_cancel_left, Nat.sub_self, ite_false_eq_true]
  simp only [bne_iff_ne, ne_eq, not_not, beq_iff_eq, Bool.and_eq_true, decide_eq_true_eq, not_and, List.length_nil]
  have posR := List.length_pos_of_ne_nil nonemptyR
  have posS := List.length_pos_of_ne_nil nonemptyS
  exact ⟨by omega, by omega, trivial, by omega, by omega, by omega, trivial, by omega, negR, padR,
    trivial, by omega, negS, padS, trivial⟩

theorem checkedPadding_eq {sig : valtype} {len start : Nat} (inside : start + len ≤ sig.length) :
    checkedPadding sig len start = some (decide (len > 1) && sig.getD start 0 == 0 && sig.getD (start + 1) 0 &&& 0x80 == 0) := by
  unfold checkedPadding
  by_cases wide : len > 1
  · rw [getElem?_eq_getD (d := 0) (by omega), getElem?_eq_getD (d := 0) (by omega)]
    by_cases zero : sig.getD start 0 = 0 <;> simp [wide, zero, -List.getD_eq_getElem?_getD]
  · simp [wide]

theorem checkedSignatureEncoding_eq (sig : valtype) :
    checkedSignatureEncoding sig = some (IsValidSignatureEncoding sig) := by
  unfold checkedSignatureEncoding IsValidSignatureEncoding
  by_cases short : sig.length < 9
  · simp [short]
  -- the header and the first two bytes of R lie below the least size
  have reads : ∀ i < 9, sig[i]? = some (sig.getD i 0) := fun i small => getElem?_eq_getD (d := 0) (by omega)
  simp only [if_neg short, reads 0 (by omega), reads 1 (by omega), reads 2 (by omega), reads 3 (by omega),
    reads 4 (by omega), Option.pure_def, Option.bind_eq_bind, Option.bind_some]
  generalize (sig.getD 3 0).toNat = lenR
  by_cases inside : 5 + lenR ≥ sig.length
  · simp only [if_pos inside, apply_ite (f := some)]
  -- the length of S and the bytes of R lie inside once the check on 5 + lenR passes
  rw [getElem?_eq_getD (d := 0) (show 5 + lenR < sig.length by omega), getElem?_eq_getD (d := 0) (show lenR + 4 < sig.length by omega),
    checkedPadding_eq (show 4 + lenR ≤ sig.length by omega)]
  simp only [if_neg inside, Option.bind_some]
  generalize (sig.getD (5 + lenR) 0).toNat = lenS
  by_cases sum : lenR + lenS + 7 = sig.length
  · by_cases zeroS : lenS = 0
    · simp only [if_pos (show (lenS == 0) = true by simpa using zeroS), apply_ite (f := some)]
    -- and the bytes of S once the total and lenS pass
    rw [getElem?_eq_getD (d := 0) (show lenR + 6 < sig.length by omega),
      checkedPadding_eq (show lenR + 6 + lenS ≤ sig.length by omega)]
    simp only [Option.bind_some, apply_ite (f := some), Nat.add_assoc, Nat.reduceAdd]
  · simp only [if_pos (show (lenR + lenS + 7 != sig.length) = true by simpa using sum), apply_ite (f := some)]
/-- Strict DER: the checks accept exactly the signatures of the grammar, and
    every read they make lies inside the signature. -/
theorem signature_encoding_matches_der (sig : valtype) :
    (IsValidSignatureEncoding sig = true ↔ ∃ R S h, 1 ≤ R.length ∧ 1 ≤ S.length ∧ R.length + S.length ≤ 66 ∧
      IsShortestInteger R = true ∧ IsShortestInteger S = true ∧ sig = derSignature R S h) ∧
    checkedSignatureEncoding sig = some (IsValidSignatureEncoding sig) := by
  refine ⟨⟨derSignature_of_valid, ?_⟩, checkedSignatureEncoding_eq sig⟩
  rintro ⟨R, S, h, -, -, fits, shortR, shortS, rfl⟩
  exact valid_derSignature fits shortR shortS

example : IsValidSignatureEncoding (derSignature [0x00, 0x80] [0x7f] 0x01) = true := by decide
example : IsValidSignatureEncoding (derSignature [0x00, 0x7f] [0x7f] 0x01) = false := by decide

end BitcoinPrivate
