import Mathlib
import BitcoinPrivate.Library.DigitArray

/-!
`ParseFixedPoint` of `utilstrencodings.cpp`, which reads a decimal amount with
an optional fraction and exponent into an `int64_t` with `decimals` digits after
the point. A string is its bytes.

The source's signed arithmetic is checked: an `int` or `int64_t` operation whose
value leaves its type overflows, which the language leaves undefined, and the
model stops there with an error (`signed`). `false` is `none`.

The parse is shown to be a recognizer of the grammar followed by the amount of
the literal it recognizes (`parseChars_eq`), so that it never overflows, and the
amount is shown to be the literal's exact value with `decimals` places wherever
that is an integer in range (`Literal.amount_exact`).
-/
namespace BitcoinPrivate

/-- `UPPER_BOUND`: `10^18 - 1`, the largest number all of whose 18 decimal
    digits may be any. -/
def UPPER_BOUND : Int := 1000000000000000000 - 1

/-- `IsDigit`. -/
def IsDigit (c : UInt8) : Bool := 0x30 ≤ c && c ≤ 0x39

/-- A signed operation on `bits`-bit integers: its value, or past the type's
    range an overflow. -/
def signed (bits : Nat) (x : Int) : Except String Int :=
  if -2^(bits - 1) ≤ x ∧ x < 2^(bits - 1) then .ok x else .error "signed integer overflow"

/-- The loops `for (int i=0; more(i); ++i)` that multiply the mantissa by ten,
    returning false where it `overflow`s: the one of `ProcessMantissaDigit` and
    the one that scales the result. From `i`, with `fuel` turns at most. -/
def scaleMantissa (more overflow : Int → Bool) : (fuel : Nat) → (i mantissa : Int) → OptionT (Except String) Int
  | 0, _, mantissa => pure mantissa
  | fuel + 1, i, mantissa =>
    if more i then
      if overflow mantissa then failure
      else do
        let mantissa ← signed 64 (mantissa * 10)
        let i ← signed 32 (i + 1)
        scaleMantissa more overflow fuel i mantissa
    else pure mantissa

/-- `ProcessMantissaDigit`, on the digits it is called with: a zero is put off
    in `mantissa_tzeros`; another digit first multiplies in the zeros put off
    and its own place. The new `mantissa` and `mantissa_tzeros`. -/
def ProcessMantissaDigit (ch : UInt8) (mantissa mantissa_tzeros : Int) : OptionT (Except String) (Int × Int) :=
  if ch = 0x30 then do
    let mantissa_tzeros ← signed 32 (mantissa_tzeros + 1)
    pure (mantissa, mantissa_tzeros)
  else do
    let mantissa ← scaleMantissa (· ≤ mantissa_tzeros) (· > UPPER_BOUND / 10) (mantissa_tzeros + 1).toNat 0 mantissa
    let mantissa ← signed 64 (mantissa + (ch.toNat - 0x30 : Int))
    pure (mantissa, 0)

/-- A loop `while (ptr < end && IsDigit(val[ptr]))` over the mantissa's digits,
    from `mantissa`, `mantissa_tzeros` and `point_ofs`; the one after the point
    counts the digits in `point_ofs`. Those three after it, and what follows
    the digits. -/
def mantissaDigits (point : Bool) : List UInt8 → Int × Int × Int → OptionT (Except String) ((Int × Int × Int) × List UInt8)
  | [], state => pure (state, [])
  | c :: rest, (mantissa, mantissa_tzeros, point_ofs) =>
    if IsDigit c then do
      let (mantissa, mantissa_tzeros) ← ProcessMantissaDigit c mantissa mantissa_tzeros
      let point_ofs ← if point then signed 32 (point_ofs + 1) else pure point_ofs
      mantissaDigits point rest (mantissa, mantissa_tzeros, point_ofs)
    else pure ((mantissa, mantissa_tzeros, point_ofs), c :: rest)

/-- The loop over the exponent's digits, from `exponent`: it after the loop,
    and what follows the digits. -/
def exponentDigits : List UInt8 → Int → OptionT (Except String) (Int × List UInt8)
  | [], exponent => pure (exponent, [])
  | c :: rest, exponent =>
    if IsDigit c then
      if exponent > UPPER_BOUND / 10 then failure
      else do
        let exponent ← signed 64 (exponent * 10)
        let exponent ← signed 64 (exponent + c.toNat)
        let exponent ← signed 64 (exponent - 0x30)
        exponentDigits rest exponent
    else pure (exponent, c :: rest)

/-- The integer part of `ParseFixedPoint`: a single `'0'`, passed, or digits
    from a non-zero one on, read into the mantissa. -/
def parseInteger : List UInt8 → OptionT (Except String) ((Int × Int) × List UInt8)
  | [] => failure
  | c :: rest =>
    if c = 0x30 then pure ((0, 0), rest)
    else if 0x31 ≤ c ∧ c ≤ 0x39 then do
      let ((mantissa, mantissa_tzeros, _), rest) ← mantissaDigits false (c :: rest) (0, 0, 0)
      pure ((mantissa, mantissa_tzeros), rest)
    else failure

/-- The fraction of `ParseFixedPoint`: after a `'.'`, at least one digit, read
    into the mantissa and counted in `point_ofs`. -/
def parseFraction (mantissa mantissa_tzeros : Int) : List UInt8 → OptionT (Except String) ((Int × Int × Int) × List UInt8)
  | [] => pure ((mantissa, mantissa_tzeros, 0), [])
  | c :: rest =>
    if c = 0x2e then
      match rest with
      | d :: _ => if IsDigit d then mantissaDigits true rest (mantissa, mantissa_tzeros, 0) else failure
      | [] => failure
    else pure ((mantissa, mantissa_tzeros, 0), c :: rest)

/-- The sign of an exponent: `exponent_sign` and what follows it. -/
def exponentSign : List UInt8 → Bool × List UInt8
  | [] => (false, [])
  | c :: rest => if c = 0x2b then (false, rest) else if c = 0x2d then (true, rest) else (false, c :: rest)

/-- The exponent of `ParseFixedPoint`: after an `'e'` or `'E'` and a sign, at
    least one digit. `exponent_sign` and `exponent`. -/
def parseExponent : List UInt8 → OptionT (Except String) ((Bool × Int) × List UInt8)
  | [] => pure ((false, 0), [])
  | c :: rest =>
    if c = 0x65 ∨ c = 0x45 then
      match exponentSign rest with
      | (exponent_sign, d :: more) =>
        if IsDigit d then do
          let (exponent, rest) ← exponentDigits (d :: more) 0
          pure ((exponent_sign, exponent), rest)
        else failure
      | (_, []) => failure
    else pure ((false, 0), c :: rest)

/-- The sign of the mantissa: `mantissa_sign` and what follows it. -/
def mantissaSign : List UInt8 → Bool × List UInt8
  | [] => (false, [])
  | c :: rest => if c = 0x2d then (true, rest) else (false, c :: rest)

/-- `if (sign) x = -x;` on an `int64_t`. -/
def negateIf (sign : Bool) (x : Int) : Except String Int :=
  if sign then signed 64 (-x) else pure x

/-- The block that converts to one 64-bit fixed-point value: the exponent
    takes `decimals`, and the mantissa is scaled by it. -/
def toFixedPoint (mantissa exponent : Int) (decimals : Int32) : OptionT (Except String) Int := do
  let exponent ← signed 64 (exponent + decimals.toInt)
  if exponent < 0 then failure
  if exponent ≥ 18 then failure
  let mantissa ← scaleMantissa (· < exponent) (fun m => m > UPPER_BOUND / 10 || m < -(UPPER_BOUND / 10))
    exponent.toNat 0 mantissa
  if mantissa > UPPER_BOUND ∨ mantissa < -UPPER_BOUND then failure
  pure mantissa

/-- The end of `ParseFixedPoint`: the exponent and the mantissa take their
    signs, and the value is converted. -/
def finalize (mantissa_sign : Bool) (mantissa mantissa_tzeros point_ofs : Int) (exponent_sign : Bool) (exponent : Int)
    (decimals : Int32) : OptionT (Except String) Int := do
  let exponent ← negateIf exponent_sign exponent
  let exponent ← signed 64 (exponent - point_ofs)
  let exponent ← signed 64 (exponent + mantissa_tzeros)
  let mantissa ← negateIf mantissa_sign mantissa
  toFixedPoint mantissa exponent decimals

/-- `ParseFixedPoint` on the characters before `end`. -/
def parseChars (val : List UInt8) (decimals : Int32) : OptionT (Except String) Int := do
  let (mantissa_sign, val) := mantissaSign val
  let ((mantissa, mantissa_tzeros), val) ← parseInteger val
  let ((mantissa, mantissa_tzeros, point_ofs), val) ← parseFraction mantissa mantissa_tzeros val
  let ((exponent_sign, exponent), val) ← parseExponent val
  if val ≠ [] then failure
  finalize mantissa_sign mantissa mantissa_tzeros point_ofs exponent_sign exponent decimals

/-- `ParseFixedPoint(val, decimals, amount_out)`: `none` where it returns false,
    and otherwise what it stores in `*amount_out`. `int end = val.size()`
    narrows the size to an `int`, and the parse reads the characters before
    `end`. -/
def ParseFixedPoint (val : List UInt8) (decimals : Int32) : Except String (Option Int) :=
  (parseChars (val.take (Int32.ofNat val.length).toNatClampNeg) decimals).run

/-! ## Literals

What `ParseFixedPoint` accepts is the grammar
`-?(0|[1-9][0-9]*)(\.[0-9]+)?([eE][+-]?[0-9]+)?`. A literal of it is given by
its parts (`Literal`); `recognize` splits a string into them, as the parse
reads it. -/

/-- A literal by its parts: the minus sign, the integer's digits, the
    fraction's digits, and the exponent's letter, sign and digits. -/
structure Literal where
  negative : Bool
  integer : List UInt8
  fraction : Option (List UInt8)
  exponent : Option (UInt8 × Option UInt8 × List UInt8)

namespace Literal

/-- The literal's text. -/
def text (lit : Literal) : List UInt8 :=
  (if lit.negative then [0x2d] else []) ++ lit.integer ++ (lit.fraction.map (0x2e :: ·)).getD [] ++
    (lit.exponent.map fun (e, sign, ds) => e :: (sign.toList ++ ds)).getD []

/-- The grammar's conditions on the parts. -/
structure WellFormed (lit : Literal) : Prop where
  integer : lit.integer = [0x30] ∨ ∃ c ds, lit.integer = c :: ds ∧ 0x31 ≤ c ∧ c ≤ 0x39 ∧ ∀ d ∈ ds, IsDigit d
  fraction : ∀ ds ∈ lit.fraction, ds ≠ [] ∧ ∀ d ∈ ds, IsDigit d
  exponent : ∀ x ∈ lit.exponent, (x.1 = 0x65 ∨ x.1 = 0x45) ∧ (∀ s ∈ x.2.1, s = 0x2b ∨ s = 0x2d) ∧
    x.2.2 ≠ [] ∧ ∀ d ∈ x.2.2, IsDigit d

end Literal

/-- The integer part: a single `'0'`, or digits from a non-zero one on. -/
def recognizeInteger : List UInt8 → Option (List UInt8 × List UInt8)
  | [] => none
  | c :: rest =>
    if c = 0x30 then some ([c], rest)
    else if 0x31 ≤ c ∧ c ≤ 0x39 then some (c :: rest.takeWhile IsDigit, rest.dropWhile IsDigit)
    else none

/-- The fraction, after a `'.'`: at least one digit. -/
def recognizeFraction : List UInt8 → Option (Option (List UInt8) × List UInt8)
  | [] => some (none, [])
  | c :: rest =>
    if c = 0x2e then
      match rest with
      | d :: _ => if IsDigit d then some (some (rest.takeWhile IsDigit), rest.dropWhile IsDigit) else none
      | [] => none
    else some (none, c :: rest)

/-- The sign of an exponent, where it has one, and what follows it. -/
def recognizeSign : List UInt8 → Option UInt8 × List UInt8
  | [] => (none, [])
  | s :: more => if s = 0x2b ∨ s = 0x2d then (some s, more) else (none, s :: more)

/-- The exponent, after an `'e'` or `'E'` and a sign: at least one digit. -/
def recognizeExponent : List UInt8 → Option (Option (UInt8 × Option UInt8 × List UInt8) × List UInt8)
  | [] => some (none, [])
  | c :: rest =>
    if c = 0x65 ∨ c = 0x45 then
      match recognizeSign rest with
      | (sign, d :: more) =>
        if IsDigit d then some (some (c, sign, (d :: more).takeWhile IsDigit), (d :: more).dropWhile IsDigit) else none
      | (_, []) => none
    else some (none, c :: rest)

/-- The parts of `val`, where it is a literal. -/
def recognize (val : List UInt8) : Option Literal := do
  let (negative, val) := mantissaSign val
  let (integer, val) ← recognizeInteger val
  let (fraction, val) ← recognizeFraction val
  let (exponent, val) ← recognizeExponent val
  if val = [] then some ⟨negative, integer, fraction, exponent⟩ else none

/-! ## What the parse computes

`ProcessMantissaDigit` reads the digits into a significand and a count of the
zeros that end it (`readDigit`). The parse is the significand scaled by the
exponent, the point's offset, those zeros and `decimals`, where the exponent's
digits, the scale and the result are in range (`Literal.amount`); the guards
of the source test exactly these ranges. -/

/-- A digit's value. -/
def decimalDigit (c : UInt8) : Nat := c.toNat - 0x30

/-- Reading a digit into a significand and the zeros put off after it. -/
def readDigit (state : Nat × Nat) (k : Nat) : Nat × Nat :=
  if k = 0 then (state.1, state.2 + 1) else (state.1 * 10 ^ (state.2 + 1) + k, 0)

/-- Reading digits, from a significand and the zeros put off after it. -/
def readAll (state : Nat × Nat) (ds : List UInt8) : Nat × Nat := (ds.map decimalDigit).foldl readDigit state

/-- The value of decimal digits. -/
def digitsValue (ds : List UInt8) : Nat := Nat.ofDigits 10 (ds.map decimalDigit).reverse

namespace Literal

/-- The digits the parse reads into the mantissa: the integer's, unless it is
    the single `'0'` it passes, and the fraction's. -/
def readDigits (lit : Literal) : List UInt8 :=
  (if lit.integer = [0x30] then [] else lit.integer) ++ lit.fraction.getD []

/-- The significand of the digits read, and the zeros that end them. -/
def significand (lit : Literal) : Nat × Nat := readAll (0, 0) lit.readDigits

/-- `point_ofs`: the number of the fraction's digits. -/
def pointOfs (lit : Literal) : Nat := (lit.fraction.getD []).length

/-- The value of the exponent's digits. -/
def exponentDigits (lit : Literal) : Nat := (lit.exponent.map fun x => digitsValue x.2.2).getD 0

/-- The exponent, with its sign. -/
def exponentValue (lit : Literal) : Int :=
  if lit.exponent.bind (·.2.1) = some 0x2d then -(lit.exponentDigits : Int) else lit.exponentDigits

/-- The amount the parse computes from the parts with `decimals` places. -/
def amount (lit : Literal) (decimals : Int) : Option Int :=
  let k := lit.exponentValue - lit.pointOfs + lit.significand.2 + decimals
  if lit.significand.1 ≤ UPPER_BOUND ∧ lit.exponentDigits ≤ UPPER_BOUND ∧ 0 ≤ k ∧ k < 18 ∧
      lit.significand.1 * 10 ^ k.toNat ≤ UPPER_BOUND then
    some ((if lit.negative then -1 else 1) * lit.significand.1 * 10 ^ k.toNat)
  else none

/-- The number the literal denotes. -/
def value (lit : Literal) : ℚ :=
  (if lit.negative then -1 else 1) * (digitsValue (lit.integer ++ lit.fraction.getD []) : ℚ) *
    10 ^ (lit.exponentValue - lit.pointOfs)

end Literal

/-! ## The checked operations

`signed` is the identity on values in range; the lemmas below remove it from a
`do` block once its bounds are shown. -/

theorem UPPER_BOUND_eq : UPPER_BOUND = 999999999999999999 := rfl

theorem UPPER_BOUND_div_ten : UPPER_BOUND / 10 = 99999999999999999 := rfl

/-- An operation whose value is in its type's range does not overflow. -/
theorem signed_ok {bits : Nat} {x : Int} (low : -2^(bits - 1) ≤ x) (high : x < 2^(bits - 1)) : signed bits x = .ok x :=
  if_pos ⟨low, high⟩

theorem signed_bind {bits : Nat} {x : Int} {β : Type} (low : -2^(bits - 1) ≤ x) (high : x < 2^(bits - 1))
    (f : Int → OptionT (Except String) β) : (liftM (signed bits x) >>= f : OptionT (Except String) β) = f x := by
  rw [signed_ok low high]
  rfl

theorem lift_ok_bind {m : Except String Int} {x : Int} {β : Type} (ok : m = .ok x) (f : Int → OptionT (Except String) β) :
    (liftM m >>= f : OptionT (Except String) β) = f x := by
  rw [ok]
  rfl

theorem failure_bind {α β : Type} (f : α → OptionT (Except String) β) : (failure >>= f : OptionT (Except String) β) = failure := rfl

theorem negateIf_ok (sign : Bool) {x : Int} (low : -2^63 < x) (high : x < 2^63) :
    negateIf sign x = .ok (if sign then -x else x) := by
  cases sign
  · rfl
  · exact signed_ok (by norm_num at high ⊢; omega) (by norm_num at low ⊢; omega)

theorem signed_out_of_range {s : Int} (sign : s = 1 ∨ s = -1) {v bound : Int} (nonneg : 0 ≤ v) (positive : 0 ≤ bound) :
    (s * v > bound ∨ s * v < -bound) ↔ bound < v := by
  rcases sign with rfl | rfl <;> omega

/-! ## Reading digits

`readDigit` keeps three facts that the proofs below use: the significand only
grows, the significand and the zeros put off after it stand for the digits read
(`readAll_value`), and past the first non-zero digit the significand has no
trailing zero. -/

theorem digit_toNat {c : UInt8} (digit : IsDigit c = true) : 48 ≤ c.toNat ∧ c.toNat ≤ 57 := by
  simp only [IsDigit, Bool.and_eq_true, decide_eq_true_eq, UInt8.le_iff_toNat_le] at digit
  exact ⟨digit.1, digit.2⟩

theorem le_readDigit (state : Nat × Nat) (k : Nat) : state.1 ≤ (readDigit state k).1 := by
  unfold readDigit
  split
  · exact le_refl _
  · exact le_add_right (Nat.le_mul_of_pos_right _ (by positivity))

theorem readDigit_le (state : Nat × Nat) (k : Nat) : (readDigit state k).2 ≤ state.2 + 1 := by
  unfold readDigit
  split <;> simp

/-- Reading a digit shifts the number that the significand and its put-off zeros stand for. -/
theorem readDigit_value (state : Nat × Nat) (k : Nat) :
    (readDigit state k).1 * 10 ^ (readDigit state k).2 = 10 * (state.1 * 10 ^ state.2) + k := by
  unfold readDigit
  split
  · subst k
    simp only [pow_succ]
    ring
  · simp only [pow_zero, mul_one, pow_succ]
    ring

theorem readAll_cons (state : Nat × Nat) (c : UInt8) (ds : List UInt8) :
    readAll state (c :: ds) = readAll (readDigit state (decimalDigit c)) ds := by
  rw [readAll, List.map_cons, List.foldl_cons, readAll]

/-- Reading on only makes the significand larger. -/
theorem le_readAll : ∀ (state : Nat × Nat) (ds : List UInt8), state.1 ≤ (readAll state ds).1
  | _, [] => le_refl _
  | state, c :: ds => by
    rw [readAll_cons]
    exact (le_readDigit state (decimalDigit c)).trans (le_readAll (readDigit state (decimalDigit c)) ds)

/-- The zeros put off are at most the digits read. -/
theorem readAll_zeros_le : ∀ (state : Nat × Nat) (ds : List UInt8), (readAll state ds).2 ≤ state.2 + ds.length
  | state, [] => le_refl _
  | state, c :: ds => by
    rw [readAll_cons]
    have rest := readAll_zeros_le (readDigit state (decimalDigit c)) ds
    have first := readDigit_le state (decimalDigit c)
    simp only [List.length_cons]
    omega

theorem readAll_append (state : Nat × Nat) (a b : List UInt8) : readAll state (a ++ b) = readAll (readAll state a) b := by
  simp only [readAll, List.map_append, List.foldl_append]

theorem digitsValue_cons (c : UInt8) (ds : List UInt8) :
    digitsValue (c :: ds) = decimalDigit c * 10 ^ ds.length + digitsValue ds := by
  rw [digitsValue, digitsValue, List.map_cons, List.reverse_cons, Nat.ofDigits_append, List.length_reverse,
    List.length_map, Nat.ofDigits_singleton]
  ring

/-- The significand and its put-off zeros stand for the digits read. -/
theorem readAll_value : ∀ (state : Nat × Nat) (ds : List UInt8),
    (readAll state ds).1 * 10 ^ (readAll state ds).2 = state.1 * 10 ^ state.2 * 10 ^ ds.length + digitsValue ds
  | state, [] => by simp [readAll, digitsValue]
  | state, c :: ds => by
    rw [readAll_cons, readAll_value _ ds, readDigit_value, digitsValue_cons, List.length_cons, pow_succ]
    ring

/-- Past the first non-zero digit the significand ends in one, so it has no trailing zero. -/
theorem readAll_trailing : ∀ (state : Nat × Nat) (ds : List UInt8), (∀ c ∈ ds, IsDigit c = true) →
    (state.1 = 0 ∨ state.1 % 10 ≠ 0) → (readAll state ds).1 = 0 ∨ (readAll state ds).1 % 10 ≠ 0
  | state, [], _, h => h
  | state, c :: ds, digits, h => by
    rw [readAll_cons]
    apply readAll_trailing _ ds (fun d mem => digits d (List.mem_cons_of_mem c mem))
    have small := digit_toNat (digits c List.mem_cons_self)
    unfold readDigit
    split
    · exact h
    · right
      simp only [decimalDigit] at *
      rw [show state.1 * 10 ^ (state.2 + 1) = state.1 * 10 ^ state.2 * 10 by ring]
      omega

theorem readAll_zero : ∀ (state : Nat × Nat) (ds : List UInt8), (readAll state ds).1 = 0 →
    (readAll state ds).2 = state.2 + ds.length
  | state, [], _ => rfl
  | state, c :: ds, zero => by
    rw [readAll_cons] at zero ⊢
    rw [readAll_zero _ ds zero, List.length_cons]
    by_cases blank : decimalDigit c = 0
    · simp only [readDigit, blank, ↓reduceIte]
      omega
    · -- a non-zero digit leaves a non-zero significand, which reading only grows
      have first : 0 < (readDigit state (decimalDigit c)).1 := by
        simp only [readDigit, blank, ↓reduceIte]
        omega
      have grows := le_readAll (readDigit state (decimalDigit c)) ds
      omega

theorem foldl_digits (ds : List UInt8) : (ds.map decimalDigit).foldl (fun e k => 10 * e + k) 0 = digitsValue ds := by
  rw [DigitArray.foldl_mulAdd_eq, digitsValue]
  simp

theorem takeWhile_length_le (L : List UInt8) : (L.takeWhile IsDigit).length ≤ L.length :=
  (List.takeWhile_sublist _).length_le

theorem takeWhile_dropWhile_length (L : List UInt8) :
    (L.takeWhile IsDigit).length + (L.dropWhile IsDigit).length = L.length := by
  rw [← List.length_append, List.takeWhile_append_dropWhile]

/-- Digits up to a character that is not one are what `takeWhile IsDigit` takes. -/
theorem digits_append {ds rest : List UInt8} (digits : ∀ d ∈ ds, IsDigit d = true)
    (stop : ∀ c ∈ rest.head?, IsDigit c = false) :
    (ds ++ rest).takeWhile IsDigit = ds ∧ (ds ++ rest).dropWhile IsDigit = rest := by
  rw [List.takeWhile_append_of_pos digits, List.dropWhile_append_of_pos digits]
  cases rest with
  | nil => simp
  | cons c more =>
    have notDigit := stop c rfl
    simp [notDigit]

theorem letter_not_digit {c : UInt8} (letter : c = 0x2e ∨ c = 0x65 ∨ c = 0x45) : IsDigit c = false := by
  rcases letter with rfl | rfl | rfl <;> decide

/-- A significand without trailing zeros, scaled by a power of ten, is an
    integer only for a power that is not negative. -/
theorem scale_nonneg {M : Nat} (trailing : M % 10 ≠ 0) {s : Int} (sign : s = 1 ∨ s = -1) {k N : Int}
    (integral : (s : ℚ) * M * 10 ^ k = N) : 0 ≤ k := by
  by_contra negative
  obtain ⟨j, rfl⟩ : ∃ j : Nat, k = -((j + 1 : Nat) : Int) := ⟨(-k - 1).toNat, by omega⟩
  rw [zpow_neg, zpow_natCast, ← div_eq_mul_inv, div_eq_iff (by positivity)] at integral
  have cast : s * (M : Int) = N * 10 ^ (j + 1) := by exact_mod_cast integral
  -- so ten divides the significand
  have divides : (10 : Int) ∣ M := by
    have : (10 : Int) ∣ s * M := cast ▸ Dvd.dvd.mul_left (dvd_pow_self 10 (Nat.succ_ne_zero j)) N
    rcases sign with rfl | rfl
    · simpa using this
    · simpa using this
  omega

/-! ## The loops

Each loop of the source is its specification wherever its counters stay below
`2^31`: the guards fire exactly where the value leaves the range, and before any
operation could overflow. -/

/-- The scaling loop, where its counter runs `n` turns and cannot overflow:
    the mantissa times `10^n`, unless its guard fires at some turn first. -/
theorem scaleMantissa_eq {more overflow : Int → Bool} :
    ∀ (n : Nat) (i m : Int), 0 ≤ i → i + n < 2^31 → (∀ j : Nat, j ≤ n → more (i + j) = decide (j < n)) →
      (∀ j < n, overflow (m * 10^j) = false → -2^63 ≤ m * 10^(j+1) ∧ m * 10^(j+1) < 2^63) →
      scaleMantissa more overflow n i m = if ∃ j < n, overflow (m * 10^j) = true then failure else pure (m * 10^n)
  | 0, i, m, _, _, _, _ => by simp [scaleMantissa]
  | n + 1, i, m, low, high, turns, safe => by
    have first : more i = true := by simpa using turns 0 (by omega)
    rw [scaleMantissa, if_pos first]
    by_cases overflows : overflow m = true
    · rw [if_pos overflows, if_pos ⟨0, by omega, by simpa using overflows⟩]
    · have fits := safe 0 (by omega) (by simpa using overflows)
      have next := @scaleMantissa_eq more overflow n (i + 1) (m * 10) (by omega) (by omega)
        (fun j le => by rw [show i + 1 + j = i + (j + 1 : Nat) by push_cast; ring, turns (j + 1) (by omega)]; simp)
        (fun j lt ok => by
          have shifted : m * 10 * 10 ^ j = m * 10 ^ (j + 1) := by ring
          have := safe (j + 1) (by omega) (by rwa [shifted] at ok)
          rwa [show m * 10 * 10 ^ (j + 1) = m * 10 ^ (j + 1 + 1) by ring])
      rw [if_neg overflows, signed_bind (by simpa using fits.1) (by simpa using fits.2),
        signed_bind (by omega) (by push_cast at high; omega), next]
      -- one turn done: the overflows left to look for are those of the later turns
      have later : (∃ j < n, overflow (m * 10 * 10 ^ j) = true) ↔ ∃ j < n + 1, overflow (m * 10 ^ j) = true := by
        constructor
        · rintro ⟨j, lt, hit⟩
          exact ⟨j + 1, by omega, by rwa [show m * 10 ^ (j + 1) = m * 10 * 10 ^ j by ring]⟩
        · rintro ⟨j, lt, hit⟩
          cases j with
          | zero => exact absurd (by simpa using hit) overflows
          | succ j => exact ⟨j, by omega, by rwa [show m * 10 * 10 ^ j = m * 10 ^ (j + 1) by ring]⟩
      simp only [later, show m * 10 * 10 ^ n = m * 10 ^ (n + 1) by ring]

/-- The mantissa only grows by the scaling, so an early overflow is one at the end. -/
theorem overflow_at_end {M n j : Nat} (early : j < n) (exceeds : UPPER_BOUND / 10 < (M : Int) * 10 ^ j) :
    UPPER_BOUND < (M : Int) * 10 ^ n := by
  have ub := UPPER_BOUND_eq
  have grow : (M : Int) * 10 ^ (j + 1) ≤ M * 10 ^ n := by gcongr <;> omega
  rw [pow_succ, ← mul_assoc] at grow
  omega

theorem scaleMantissa_digit {m t : Nat} (small : t + 1 < 2^31) :
    scaleMantissa (· ≤ (t : Int)) (· > UPPER_BOUND / 10) ((t : Int) + 1).toNat 0 m =
      if (m * 10 ^ t : Int) > UPPER_BOUND / 10 then failure else pure ((m : Int) * 10 ^ (t + 1)) := by
  have turns : ((t : Int) + 1).toNat = t + 1 := by omega
  rw [turns, scaleMantissa_eq (t + 1) 0 m (le_refl _) (by push_cast; omega)
    (fun j _ => by simp only [zero_add, Nat.cast_le, decide_eq_decide]; omega)
    (fun j _ ok => by
      have below : (m : Int) * 10 ^ j ≤ UPPER_BOUND / 10 := by simpa using ok
      have nonneg : (0 : Int) ≤ m * 10 ^ j := by positivity
      have ub := UPPER_BOUND_div_ten
      rw [show (m : Int) * 10 ^ (j + 1) = m * 10 ^ j * 10 by ring]
      norm_num
      constructor <;> omega)]
  -- the mantissa only grows, so the last turn is the first to overflow
  have last : (∃ j < t + 1, decide ((m : Int) * 10 ^ j > UPPER_BOUND / 10) = true) ↔ (m * 10 ^ t : Int) > UPPER_BOUND / 10 := by
    constructor
    · rintro ⟨j, lt, hit⟩
      have grows : (m : Int) * 10 ^ j ≤ m * 10 ^ t :=
        mul_le_mul_of_nonneg_left (pow_le_pow_right₀ (by norm_num) (by omega)) (by positivity)
      simp only [decide_eq_true_eq] at hit
      exact lt_of_lt_of_le hit grows
    · intro hit
      exact ⟨t, by omega, by simpa using hit⟩
  simp only [last]

/-- `ProcessMantissaDigit` is `readDigit` wherever the mantissa stays in
    range, and returns false where it leaves it. -/
theorem ProcessMantissaDigit_eq {c : UInt8} (digit : IsDigit c = true) {M T : Nat} (bounded : (M : Int) ≤ UPPER_BOUND)
    (small : T + 1 < 2^31) :
    ProcessMantissaDigit c M T = if ((readDigit (M, T) (decimalDigit c)).1 : Int) ≤ UPPER_BOUND then
      pure (((readDigit (M, T) (decimalDigit c)).1 : Int), ((readDigit (M, T) (decimalDigit c)).2 : Int)) else failure := by
  have range := digit_toNat digit
  by_cases zero : c = 0x30
  · have nothing : decimalDigit c = 0 := by simp [decimalDigit, zero]
    rw [ProcessMantissaDigit, if_pos zero, nothing, readDigit, if_pos rfl, if_pos bounded,
      signed_bind (by omega) (by push_cast; omega)]
    simp
  · have k : 1 ≤ decimalDigit c ∧ decimalDigit c ≤ 9 := by
      have : c.toNat ≠ 48 := fun eq => zero (UInt8.toNat_inj.mp (by simpa using eq))
      simp only [decimalDigit]
      omega
    have read : readDigit (M, T) (decimalDigit c) = (M * 10 ^ (T + 1) + decimalDigit c, 0) := if_neg (by omega)
    rw [ProcessMantissaDigit, if_neg zero, scaleMantissa_digit small, read]
    have ub := UPPER_BOUND_div_ten
    have ub' := UPPER_BOUND_eq
    have place : ((M * 10 ^ (T + 1) + decimalDigit c : Nat) : Int) = M * 10 ^ T * 10 + decimalDigit c := by
      push_cast
      ring
    have value : (c.toNat : Int) - 48 = decimalDigit c := by
      simp only [decimalDigit]
      omega
    -- the loop overflows exactly where the digit would take the mantissa past `UPPER_BOUND`
    by_cases overflows : (M : Int) * 10 ^ T > UPPER_BOUND / 10
    · rw [if_pos overflows, if_neg (by rw [place]; omega)]
      rfl
    · have nonneg : (0 : Int) ≤ M * 10 ^ T := by positivity
      have scaled : (M : Int) * 10 ^ (T + 1) = M * 10 ^ T * 10 := by ring
      rw [if_neg overflows, if_pos (by rw [place]; omega), pure_bind, value, scaled,
        signed_bind (by push_cast; omega) (by push_cast; omega), place]
      rfl

/-- The loop over the mantissa's digits reads them all, or returns false
    where the significand leaves the range. -/
theorem mantissaDigits_eq (point : Bool) : ∀ (L : List UInt8) (M T P : Nat), (M : Int) ≤ UPPER_BOUND →
    T + (L.takeWhile IsDigit).length < 2^31 → P + (L.takeWhile IsDigit).length < 2^31 →
    mantissaDigits point L (M, T, P) =
      if ((readAll (M, T) (L.takeWhile IsDigit)).1 : Int) ≤ UPPER_BOUND then
        pure ((((readAll (M, T) (L.takeWhile IsDigit)).1 : Int), ((readAll (M, T) (L.takeWhile IsDigit)).2 : Int),
          ((P + if point then (L.takeWhile IsDigit).length else 0 : Nat) : Int)), L.dropWhile IsDigit)
      else failure
  | [], M, T, P, bounded, _, _ => by simp [mantissaDigits, readAll, bounded]
  | c :: L, M, T, P, bounded, zeros, count => by
    by_cases digit : IsDigit c = true
    · rw [List.takeWhile_cons_of_pos digit, List.dropWhile_cons_of_pos digit, List.length_cons] at *
      rw [mantissaDigits, if_pos digit, ProcessMantissaDigit_eq digit bounded (by omega), readAll_cons]
      by_cases fits : ((readDigit (M, T) (decimalDigit c)).1 : Int) ≤ UPPER_BOUND
      · rw [if_pos fits, pure_bind]
        have zeros' : (readDigit (M, T) (decimalDigit c)).2 + (L.takeWhile IsDigit).length < 2^31 := by
          have := readDigit_le (M, T) (decimalDigit c)
          simp only at this
          omega
        cases point with
        | true =>
          have next := mantissaDigits_eq true L _ _ (P + 1) fits zeros' (by omega)
          have count' : P + 1 + (L.takeWhile IsDigit).length = P + ((L.takeWhile IsDigit).length + 1) := by omega
          simp only [↓reduceIte, count', Prod.mk.eta] at next
          dsimp only
          rw [if_pos rfl, signed_bind (by omega) (by push_cast; omega)]
          exact_mod_cast next
        | false =>
          have next := mantissaDigits_eq false L _ _ P fits zeros' (by omega)
          rw [Prod.mk.eta] at next
          simpa using next
      · have beyond := le_readAll (readDigit (M, T) (decimalDigit c)) (L.takeWhile IsDigit)
        rw [if_neg fits, if_neg (by omega)]
        rfl
    · rw [List.takeWhile_cons_of_neg digit, List.dropWhile_cons_of_neg digit]
      simp [mantissaDigits, digit, readAll, bounded]

/-- The loop over the exponent's digits is their value, where it is in range. -/
theorem exponentDigits_eq : ∀ (L : List UInt8) (E : Nat), (E : Int) ≤ UPPER_BOUND →
    exponentDigits L E =
      if ((((L.takeWhile IsDigit).map decimalDigit).foldl (fun e k => 10 * e + k) E : Nat) : Int) ≤ UPPER_BOUND then
        pure (((((L.takeWhile IsDigit).map decimalDigit).foldl (fun e k => 10 * e + k) E : Nat) : Int), L.dropWhile IsDigit)
      else failure
  | [], E, bounded => by simp [exponentDigits, bounded]
  | c :: L, E, bounded => by
    have ub := UPPER_BOUND_div_ten
    have ub' := UPPER_BOUND_eq
    by_cases digit : IsDigit c = true
    · have range := digit_toNat digit
      have grows := DigitArray.le_foldl_mulAdd (A := 10) (by norm_num) ((L.takeWhile IsDigit).map decimalDigit)
        (10 * E + decimalDigit c)
      rw [List.takeWhile_cons_of_pos digit, List.dropWhile_cons_of_pos digit, List.map_cons, List.foldl_cons,
        exponentDigits, if_pos digit]
      -- the guard returns false exactly where the next digit takes the exponent past `UPPER_BOUND`
      by_cases overflows : (E : Int) > UPPER_BOUND / 10
      · rw [if_pos overflows, if_neg (by simp only [decimalDigit] at grows ⊢; omega)]
      · have next := exponentDigits_eq L (10 * E + decimalDigit c) (by simp only [decimalDigit]; push_cast; omega)
        rw [if_neg overflows, signed_bind (by omega) (by omega), signed_bind (by omega) (by omega),
          signed_bind (by omega) (by omega)]
        have value : (E : Int) * 10 + c.toNat - 48 = ((10 * E + decimalDigit c : Nat) : Int) := by
          simp only [decimalDigit]
          push_cast
          omega
        rw [value]
        exact next
    · rw [List.takeWhile_cons_of_neg digit, List.dropWhile_cons_of_neg digit]
      simp [exponentDigits, digit, bounded]

/-! ## The phases of the parse -/

/-- The integer part: what `recognizeInteger` splits off, read. -/
theorem parseInteger_eq (L : List UInt8) (short : L.length < 2^31) :
    parseInteger L = match recognizeInteger L with
      | none => failure
      | some (integer, rest) =>
        if ((readAll (0, 0) (if integer = [0x30] then [] else integer)).1 : Int) ≤ UPPER_BOUND then
          pure ((((readAll (0, 0) (if integer = [0x30] then [] else integer)).1 : Int),
            ((readAll (0, 0) (if integer = [0x30] then [] else integer)).2 : Int)), rest)
        else failure := by
  cases L with
  | nil => rfl
  | cons c rest =>
    by_cases zero : c = 0x30
    · subst zero
      simp [parseInteger, recognizeInteger, readAll, UPPER_BOUND]
    · by_cases leading : 0x31 ≤ c ∧ c ≤ 0x39
      · have digit : IsDigit c = true := by
          simp only [IsDigit, UInt8.le_iff_toNat_le, Bool.and_eq_true, decide_eq_true_eq] at leading ⊢
          simp only [UInt8.reduceToNat] at leading ⊢
          omega
        have loop := mantissaDigits_eq false (c :: rest) 0 0 0 (show ((0 : Nat) : Int) ≤ UPPER_BOUND by decide)
          (by have := takeWhile_length_le (c :: rest); omega) (by have := takeWhile_length_le (c :: rest); omega)
        rw [List.takeWhile_cons_of_pos digit, List.dropWhile_cons_of_pos digit] at loop
        simp only [Nat.cast_zero] at loop
        have integer : c :: rest.takeWhile IsDigit ≠ [0x30] := by simp [zero]
        simp only [parseInteger, recognizeInteger, if_neg zero, if_pos leading, loop, if_neg integer]
        split <;> rfl
      · simp [parseInteger, recognizeInteger, zero, leading]

/-- The fraction: what `recognizeFraction` splits off, read after the
    integer's digits; without a fraction nothing is read. -/
theorem parseFraction_eq (M T : Nat) (L : List UInt8) (bounded : (M : Int) ≤ UPPER_BOUND) (short : T + L.length < 2^31) :
    parseFraction M T L = match recognizeFraction L with
      | none => failure
      | some (fraction, rest) =>
        if ((readAll (M, T) (fraction.getD [])).1 : Int) ≤ UPPER_BOUND then
          pure ((((readAll (M, T) (fraction.getD [])).1 : Int), ((readAll (M, T) (fraction.getD [])).2 : Int),
            ((fraction.getD []).length : Int)), rest)
        else failure := by
  -- without a fraction the digits read are none, and the mantissa is in range already
  have nothing : ∀ rest : List UInt8, (pure (((M : Int), (T : Int), 0), rest) : OptionT (Except String) _) =
      if ((readAll (M, T) ([] : List UInt8)).1 : Int) ≤ UPPER_BOUND then
        pure ((((readAll (M, T) ([] : List UInt8)).1 : Int), ((readAll (M, T) ([] : List UInt8)).2 : Int),
          (([] : List UInt8).length : Int)), rest)
      else failure := fun rest => (if_pos bounded).symm
  cases L with
  | nil => exact nothing []
  | cons c rest =>
    by_cases point : c = 0x2e
    · cases rest with
      | nil => simp [parseFraction, recognizeFraction, point]
      | cons d more =>
        by_cases digit : IsDigit d = true
        · have loop := mantissaDigits_eq true (d :: more) M T 0 bounded
            (by have := takeWhile_length_le (d :: more); simp only [List.length_cons] at short this ⊢; omega)
            (by have := takeWhile_length_le (d :: more); simp only [List.length_cons] at short this ⊢; omega)
          simp only [↓reduceIte, Nat.cast_zero, zero_add] at loop
          simp only [parseFraction, recognizeFraction, point, ↓reduceIte, digit, loop, Option.getD_some]
        · simp [parseFraction, recognizeFraction, point, digit]
    · simp only [parseFraction, recognizeFraction, point, ↓reduceIte, Option.getD_none]
      exact nothing _

theorem exponentSign_eq (rest : List UInt8) :
    exponentSign rest = (decide ((recognizeSign rest).1 = some 0x2d), (recognizeSign rest).2) := by
  cases rest with
  | nil => rfl
  | cons s more =>
    by_cases plus : s = 0x2b
    · simp [exponentSign, recognizeSign, plus]
    · by_cases minus : s = 0x2d
      · simp [exponentSign, recognizeSign, minus]
      · simp [exponentSign, recognizeSign, plus, minus]

/-- The exponent: what `recognizeExponent` splits off, with its sign and value. -/
theorem parseExponent_eq (L : List UInt8) :
    parseExponent L = match recognizeExponent L with
      | none => failure
      | some (exponent, rest) =>
        if (((exponent.map fun x => digitsValue x.2.2).getD 0 : Nat) : Int) ≤ UPPER_BOUND then
          pure ((decide (exponent.bind (·.2.1) = some 0x2d), (((exponent.map fun x => digitsValue x.2.2).getD 0 : Nat) : Int)),
            rest)
        else failure := by
  cases L with
  | nil => rfl
  | cons c rest =>
    by_cases letter : c = 0x65 ∨ c = 0x45
    · rw [parseExponent, recognizeExponent, if_pos letter, if_pos letter, exponentSign_eq]
      rcases recognizeSign rest with ⟨sign, _ | ⟨d, more⟩⟩
      · rfl
      · by_cases digit : IsDigit d = true
        · have loop := exponentDigits_eq (d :: more) 0 (show ((0 : Nat) : Int) ≤ UPPER_BOUND by decide)
          rw [foldl_digits, Nat.cast_zero] at loop
          simp only [digit, ↓reduceIte, loop, Option.map_some, Option.getD_some, Option.bind_some]
          split <;> rfl
        · simp [digit]
    · simp [parseExponent, recognizeExponent, letter, UPPER_BOUND]

/-- The conversion: the mantissa scaled by the exponent, where the exponent
    is from 0 to 17 and the scaled mantissa is in range. -/
theorem toFixedPoint_eq {s : Int} (sign : s = 1 ∨ s = -1) (M : Nat) (x : Int) (decimals : Int32)
    (low : -2^62 ≤ x) (high : x < 2^62) :
    toFixedPoint (s * M) x decimals =
      let k := x + decimals.toInt
      if 0 ≤ k ∧ k < 18 ∧ (M : Int) * 10 ^ k.toNat ≤ UPPER_BOUND then pure (s * M * 10 ^ k.toNat) else failure := by
  have ub := UPPER_BOUND_eq
  have d1 := decimals.le_toInt
  have d2 := decimals.toInt_lt
  -- the scaling's overflow guard, and the range check after it, on the mantissa with its sign
  have guard : ∀ j : Nat, (decide (s * M * 10 ^ j > UPPER_BOUND / 10) || decide (s * M * 10 ^ j < -(UPPER_BOUND / 10))) =
      decide (UPPER_BOUND / 10 < (M : Int) * 10 ^ j) := fun j => by
    rw [mul_assoc, Bool.eq_iff_iff, Bool.or_eq_true, decide_eq_true_iff, decide_eq_true_iff, decide_eq_true_iff]
    exact signed_out_of_range sign (by positivity) (by rw [ub]; norm_num)
  unfold toFixedPoint
  rw [signed_bind (by norm_num at d1 ⊢; omega) (by norm_num at d2 ⊢; omega)]
  dsimp only
  by_cases negative : x + decimals.toInt < 0
  · rw [if_pos negative, failure_bind, if_neg (by omega)]
  · by_cases large : x + decimals.toInt ≥ 18
    · rw [if_neg negative, if_pos large, failure_bind, if_neg (by omega)]
    · rw [if_neg negative, if_neg large]
      obtain ⟨n, exponent⟩ : ∃ n : Nat, x + decimals.toInt = n := ⟨(x + decimals.toInt).toNat, by omega⟩
      have few : n < 18 := by omega
      rw [exponent, Int.toNat_natCast]
      rw [scaleMantissa_eq n 0 (s * M) (le_refl _) (by omega) (fun j _ => by simp)
        (fun j _ ok => by
          rw [guard, decide_eq_false_iff_not, not_lt] at ok
          have nonneg : (0 : Int) ≤ M * 10 ^ j := by positivity
          rw [mul_assoc, pow_succ 10 j, ← mul_assoc (M : Int)]
          rcases sign with rfl | rfl <;> constructor <;> omega)]
      simp only [guard, decide_eq_true_eq]
      by_cases early : ∃ j < n, UPPER_BOUND / 10 < (M : Int) * 10 ^ j
      · obtain ⟨j, lt, exceeds⟩ := early
        rw [if_pos ⟨j, lt, exceeds⟩, failure_bind, if_neg (by have := overflow_at_end lt exceeds; omega)]
      · rw [if_neg early, pure_bind, mul_assoc]
        have check := signed_out_of_range sign (v := (M : Int) * 10 ^ n) (by positivity)
          (show (0 : Int) ≤ UPPER_BOUND by rw [ub]; norm_num)
        by_cases fits : (M : Int) * 10 ^ n ≤ UPPER_BOUND
        · rw [if_neg (by rw [check]; omega), if_pos ⟨by omega, by omega, fits⟩]
        · rw [if_pos (by rw [check]; omega), failure_bind, if_neg (by omega)]

/-- The end of the parse, for a mantissa and an exponent read in range. -/
theorem finalize_eq (neg esign : Bool) (M T P E : Nat) (decimals : Int32) (bounded : (M : Int) ≤ UPPER_BOUND)
    (exponentBounded : (E : Int) ≤ UPPER_BOUND) (zeros : T < 2^31) (point : P < 2^31) :
    finalize neg M T P esign E decimals =
      let k := (if esign then -(E : Int) else E) - P + T + decimals.toInt
      if 0 ≤ k ∧ k < 18 ∧ (M : Int) * 10 ^ k.toNat ≤ UPPER_BOUND then
        pure ((if neg then -1 else 1) * (M : Int) * 10 ^ k.toNat)
      else failure := by
  have ub := UPPER_BOUND_eq
  -- the exponent with its sign is in range, and the point's offset and the zeros are below `2^31`
  obtain ⟨low, high⟩ : -UPPER_BOUND ≤ (if esign then -(E : Int) else E) ∧ (if esign then -(E : Int) else E) ≤ UPPER_BOUND := by
    cases esign <;> simp only [Bool.false_eq_true, ↓reduceIte, neg_le_neg_iff] <;> omega
  have signedM : (if neg then -(M : Int) else M) = (if neg then -1 else 1) * M := by cases neg <;> simp
  unfold finalize
  rw [lift_ok_bind (negateIf_ok esign (by omega) (by omega)),
    signed_bind (by norm_num; omega) (by norm_num; omega), signed_bind (by norm_num; omega) (by norm_num; omega),
    lift_ok_bind (negateIf_ok neg (by omega) (by omega)), signedM,
    toFixedPoint_eq (by cases neg <;> simp) M _ decimals (by omega) (by omega)]

/-! ## The amount of a literal -/

namespace Literal

theorem significand_eq (lit : Literal) :
    lit.significand = readAll (readAll (0, 0) (if lit.integer = [0x30] then [] else lit.integer)) (lit.fraction.getD []) :=
  readAll_append _ _ _

theorem amount_eq_none_of_significand {lit : Literal} {d : Int} (exceeds : UPPER_BOUND < (lit.significand.1 : Int)) :
    lit.amount d = none :=
  if_neg fun fits => absurd fits.1 (not_le.mpr exceeds)

theorem amount_eq_none_of_exponent {lit : Literal} {d : Int} (exceeds : UPPER_BOUND < (lit.exponentDigits : Int)) :
    lit.amount d = none :=
  if_neg fun fits => absurd fits.2.1 (not_le.mpr exceeds)

/-- The amount, as the conditions under which it is the scaled significand. -/
theorem amount_eq_some {lit : Literal} {d N : Int} :
    lit.amount d = some N ↔
      let k := lit.exponentValue - lit.pointOfs + lit.significand.2 + d
      ((lit.significand.1 : Int) ≤ UPPER_BOUND ∧ (lit.exponentDigits : Int) ≤ UPPER_BOUND ∧ 0 ≤ k ∧ k < 18 ∧
        (lit.significand.1 : Int) * 10 ^ k.toNat ≤ UPPER_BOUND) ∧
      (if lit.negative then -1 else 1) * (lit.significand.1 : Int) * 10 ^ k.toNat = N := by
  unfold amount
  dsimp only
  rw [ite_eq_iff]
  simp only [Option.some.injEq, reduceCtorEq, and_false, or_false]

/-- The digits read stand for the literal's digits: the significand and the
    zeros put off after it. -/
theorem digitsValue_eq (lit : Literal) :
    digitsValue (lit.integer ++ lit.fraction.getD []) = lit.significand.1 * 10 ^ lit.significand.2 := by
  have read := readAll_value (0, 0) lit.readDigits
  simp only [pow_zero, mul_one, zero_mul, zero_add] at read
  rw [significand, read, readDigits]
  split
  · rename_i zero
    rw [zero, List.singleton_append, digitsValue_cons, List.nil_append]
    simp [decimalDigit]
  · rfl

theorem value_eq (lit : Literal) :
    lit.value = (if lit.negative then -1 else 1) * (lit.significand.1 : ℚ) *
      10 ^ (lit.exponentValue - lit.pointOfs + lit.significand.2) := by
  rw [value, digitsValue_eq, zpow_add₀ (by norm_num), zpow_natCast]
  push_cast
  ring

theorem readDigits_digits {lit : Literal} (wf : lit.WellFormed) : ∀ c ∈ lit.readDigits, IsDigit c = true := by
  intro c mem
  simp only [readDigits, List.mem_append] at mem
  rcases mem with integer | fraction
  · split at integer
    · simp at integer
    · rcases wf.integer with zero | ⟨first, ds, split, low, high, digits⟩
      · contradiction
      · rw [split, List.mem_cons] at integer
        rcases integer with rfl | mem
        · simp only [IsDigit, Bool.and_eq_true, decide_eq_true_eq, UInt8.le_iff_toNat_le] at low high ⊢
          simp only [UInt8.reduceToNat] at low high ⊢
          omega
        · exact digits c mem
  · cases h : lit.fraction with
    | none => simp [h] at fraction
    | some ds =>
      rw [h, Option.getD_some] at fraction
      exact (wf.fraction ds h).2 c fraction

theorem significand_trailing {lit : Literal} (wf : lit.WellFormed) :
    lit.significand.1 = 0 ∨ lit.significand.1 % 10 ≠ 0 :=
  readAll_trailing (0, 0) lit.readDigits (readDigits_digits wf) (Or.inl rfl)

/-- A zero significand comes of the single `'0'` and zeros after the point. -/
theorem significand_zero {lit : Literal} (wf : lit.WellFormed) (zero : lit.significand.1 = 0) :
    lit.integer = [0x30] ∧ lit.significand.2 = lit.pointOfs := by
  rcases wf.integer with single | ⟨c, ds, split, low, _, _⟩
  · have puts := readAll_zero (0, 0) lit.readDigits zero
    refine ⟨single, ?_⟩
    simp only [readDigits, single, ↓reduceIte, List.nil_append] at puts
    simp only [significand, readDigits, pointOfs, single, ↓reduceIte, List.nil_append]
    omega
  · -- a leading digit of one to nine makes the significand non-zero
    have nonzero : decimalDigit c ≠ 0 := by
      simp only [decimalDigit, UInt8.le_iff_toNat_le, UInt8.reduceToNat] at low ⊢
      omega
    have notZero : lit.integer ≠ [0x30] := by
      rw [split]
      intro same
      simp only [List.cons.injEq] at same
      exact nonzero (by rw [same.1]; rfl)
    have grows := le_readAll (readDigit (0, 0) (decimalDigit c)) (ds ++ lit.fraction.getD [])
    rw [← readAll_cons, ← List.cons_append, ← split] at grows
    simp only [significand, readDigits, notZero, ↓reduceIte, readDigit, nonzero] at zero grows
    omega

theorem readDigits_length_le (lit : Literal) : lit.readDigits.length ≤ lit.text.length := by
  simp only [readDigits, text, List.length_append]
  have integer : (if lit.integer = [0x30] then [] else lit.integer).length ≤ lit.integer.length := by split <;> simp
  have fraction : (lit.fraction.getD []).length ≤ ((lit.fraction.map (0x2e :: ·)).getD []).length := by
    cases lit.fraction <;> simp
  omega

theorem pointOfs_le (lit : Literal) : lit.pointOfs ≤ lit.text.length := by
  have := readDigits_length_le lit
  simp only [readDigits, List.length_append] at this
  exact le_trans (Nat.le_add_left _ _) this

/-- The exponent's digits are in range wherever the scale is: the point's
    offset and the put-off zeros are bounded by the text. -/
theorem exponentDigits_le {lit : Literal} (decimals : Int32) (short : lit.text.length < 2^31)
    (low : 0 ≤ lit.exponentValue - lit.pointOfs + lit.significand.2 + decimals.toInt)
    (high : lit.exponentValue - lit.pointOfs + lit.significand.2 + decimals.toInt < 18) :
    (lit.exponentDigits : Int) ≤ UPPER_BOUND := by
  have ub := UPPER_BOUND_eq
  have zeros := readAll_zeros_le (0, 0) lit.readDigits
  have digits := readDigits_length_le lit
  have point := pointOfs_le lit
  have d1 := decimals.le_toInt
  have d2 := decimals.toInt_lt
  have signed : lit.exponentValue = -(lit.exponentDigits : Int) ∨ lit.exponentValue = lit.exponentDigits := by
    unfold exponentValue
    split <;> simp
  simp only [significand] at low high
  rcases signed with e | e <;> rw [e] at low high <;> omega

/-- The amount is exact. A non-zero literal has one where its value with
    `decimals` places is an integer of at most 18 digits; a zero one where the
    exponent and `decimals` make a scale from 0 to 17. -/
theorem amount_exact (lit : Literal) (wf : lit.WellFormed) (short : lit.text.length < 2^31) (decimals : Int32) (N : Int) :
    lit.amount decimals.toInt = some N ↔
      if lit.value = 0 then N = 0 ∧ 0 ≤ lit.exponentValue + decimals.toInt ∧ lit.exponentValue + decimals.toInt < 18
      else lit.value * 10 ^ decimals.toInt = N ∧ |N| ≤ 10 ^ 18 - 1 := by
  have ub : UPPER_BOUND = 10 ^ 18 - 1 := rfl
  have sign : (if lit.negative then -1 else 1 : Int) = 1 ∨ (if lit.negative then -1 else 1 : Int) = -1 := by
    cases lit.negative <;> simp
  rcases Nat.eq_zero_or_pos lit.significand.1 with zero | positive
  · -- a zero literal: its zeros put off are the point's offset, so the scale is the exponent's
    obtain ⟨_, zeros⟩ := significand_zero wf zero
    have value_zero : lit.value = 0 := by
      rw [value_eq, zero]
      simp
    rw [if_pos value_zero]
    have scale : lit.exponentValue - lit.pointOfs + lit.significand.2 + decimals.toInt =
        lit.exponentValue + decimals.toInt := by
      rw [zeros]
      ring
    rw [amount_eq_some]
    dsimp only
    rw [scale, zero]
    constructor
    · rintro ⟨⟨_, _, low, high, _⟩, rfl⟩
      exact ⟨by simp, low, high⟩
    · rintro ⟨rfl, low, high⟩
      have small := exponentDigits_le decimals short (by rw [scale]; exact low) (by rw [scale]; exact high)
      exact ⟨⟨by rw [ub]; norm_num, small, low, high, by rw [ub]; norm_num⟩, by simp⟩
  · -- a non-zero literal: its significand has no trailing zero
    have trailing := (significand_trailing wf).resolve_left (by omega)
    have cast_sign : ((if lit.negative then -1 else 1 : Int) : ℚ) = if lit.negative then -1 else 1 := by
      cases lit.negative <;> simp
    have value_ne : lit.value ≠ 0 := by
      have nonzero : (lit.significand.1 : ℚ) ≠ 0 := by exact_mod_cast positive.ne'
      have power : (10 : ℚ) ^ (lit.exponentValue - lit.pointOfs + lit.significand.2) ≠ 0 := zpow_ne_zero _ (by norm_num)
      rw [value_eq]
      cases lit.negative <;> simp [nonzero, power]
    have value_scaled : lit.value * 10 ^ decimals.toInt = ((if lit.negative then -1 else 1 : Int) : ℚ) *
        lit.significand.1 * 10 ^ (lit.exponentValue - lit.pointOfs + lit.significand.2 + decimals.toInt) := by
      rw [value_eq, zpow_add₀ (by norm_num : (10 : ℚ) ≠ 0) (lit.exponentValue - lit.pointOfs + lit.significand.2),
        cast_sign]
      ring
    have magnitude : ∀ v : Int, |(if lit.negative then -1 else 1 : Int) * v| = |v| := fun v => by
      rcases sign with h | h <;> rw [h] <;> simp
    rw [if_neg value_ne, amount_eq_some, value_scaled]
    dsimp only
    constructor
    · rintro ⟨⟨_, _, low, _, bounded⟩, rfl⟩
      refine ⟨?_, ?_⟩
      · push_cast
        rw [← zpow_natCast, Int.toNat_of_nonneg low]
      · rw [mul_assoc, magnitude, abs_of_nonneg (by positivity), ← ub]
        exact bounded
    · rintro ⟨integral, small⟩
      have low := scale_nonneg trailing sign integral
      obtain ⟨n, scale⟩ : ∃ n : Nat, lit.exponentValue - lit.pointOfs + lit.significand.2 + decimals.toInt = n :=
        ⟨_, (Int.toNat_of_nonneg low).symm⟩
      rw [scale, zpow_natCast] at integral
      have exact : (if lit.negative then -1 else 1 : Int) * lit.significand.1 * 10 ^ n = N := by exact_mod_cast integral
      rw [← exact, mul_assoc, magnitude, abs_of_nonneg (by positivity), ← ub] at small
      -- the scaled significand is in range, so the significand and the power are
      have power : 10 ^ n ≤ (lit.significand.1 : Int) * 10 ^ n := le_mul_of_one_le_left (by positivity) (by omega)
      have few : n < 18 := by
        by_contra many
        have : (10 : Int) ^ 18 ≤ 10 ^ n := pow_le_pow_right₀ (by norm_num) (by omega)
        rw [ub] at small
        omega
      have fits : (lit.significand.1 : Int) ≤ UPPER_BOUND :=
        le_trans (le_mul_of_one_le_right (by positivity) (one_le_pow₀ (by norm_num))) small
      refine ⟨⟨fits, exponentDigits_le decimals short low (by omega), low, by omega, ?_⟩, ?_⟩
      · rw [scale, Int.toNat_natCast]
        exact small
      · rw [scale, Int.toNat_natCast, exact]

end Literal

/-! ## The recognizer and the grammar

`recognize` accepts exactly the texts of the literals of the grammar, and splits
each into its own parts. -/

theorem mantissaSign_text (V : List UInt8) : (if (mantissaSign V).1 then [0x2d] else []) ++ (mantissaSign V).2 = V := by
  cases V with
  | nil => rfl
  | cons c rest =>
    simp only [mantissaSign]
    split <;> simp_all

theorem mantissaSign_length (V : List UInt8) : (mantissaSign V).2.length ≤ V.length := by
  cases V with
  | nil => exact le_refl _
  | cons c rest =>
    simp only [mantissaSign]
    split <;> simp

theorem mantissaSign_complete (negative : Bool) {L : List UInt8} (stop : ∀ c ∈ L.head?, c ≠ 0x2d) :
    mantissaSign ((if negative then [0x2d] else []) ++ L) = (negative, L) := by
  cases negative with
  | true => rfl
  | false =>
    cases L with
    | nil => rfl
    | cons c more => simp [mantissaSign, stop c rfl]

theorem recognizeInteger_length {L integer rest : List UInt8} (h : recognizeInteger L = some (integer, rest)) :
    integer.length + rest.length ≤ L.length := by
  cases L with
  | nil => simp [recognizeInteger] at h
  | cons c more =>
    simp only [recognizeInteger] at h
    split_ifs at h with zero leading
    · cases h
      simp only [List.length_cons, List.length_nil]
      omega
    · cases h
      have := takeWhile_dropWhile_length more
      simp only [List.length_cons]
      omega

theorem recognizeInteger_sound {L integer rest : List UInt8} (h : recognizeInteger L = some (integer, rest)) :
    integer ++ rest = L ∧
      (integer = [0x30] ∨ ∃ c ds, integer = c :: ds ∧ 0x31 ≤ c ∧ c ≤ 0x39 ∧ ∀ d ∈ ds, IsDigit d) := by
  cases L with
  | nil => simp [recognizeInteger] at h
  | cons c more =>
    simp only [recognizeInteger] at h
    split_ifs at h with zero leading
    · cases h
      exact ⟨rfl, Or.inl (by rw [zero])⟩
    · cases h
      exact ⟨by simp, Or.inr ⟨c, _, rfl, leading.1, leading.2, fun d mem => List.mem_takeWhile_imp mem⟩⟩

theorem recognizeInteger_complete {integer : List UInt8}
    (wf : integer = [0x30] ∨ ∃ c ds, integer = c :: ds ∧ 0x31 ≤ c ∧ c ≤ 0x39 ∧ ∀ d ∈ ds, IsDigit d)
    {rest : List UInt8} (stop : ∀ c ∈ rest.head?, c = 0x2e ∨ c = 0x65 ∨ c = 0x45) :
    recognizeInteger (integer ++ rest) = some (integer, rest) := by
  rcases wf with rfl | ⟨c, ds, rfl, low, high, digits⟩
  · simp [recognizeInteger]
  · have notZero : c ≠ 0x30 := by
      rintro rfl
      simp at low
    obtain ⟨taken, dropped⟩ := digits_append digits (fun c mem => letter_not_digit (stop c mem))
    simp only [List.cons_append, recognizeInteger, notZero, ↓reduceIte, low, high, and_self, taken, dropped]

theorem recognizeFraction_length {L rest : List UInt8} {fraction : Option (List UInt8)}
    (h : recognizeFraction L = some (fraction, rest)) : (fraction.getD []).length + rest.length ≤ L.length := by
  cases L with
  | nil =>
    cases h
    exact le_refl _
  | cons c more =>
    simp only [recognizeFraction] at h
    split_ifs at h with point
    · rcases more with _ | ⟨d, ds⟩
      · cases h
      · dsimp only at h
        split_ifs at h
        cases h
        have := takeWhile_dropWhile_length (d :: ds)
        simp only [Option.getD_some, List.length_cons] at this ⊢
        omega
    · cases h
      simp

theorem recognizeFraction_sound {L rest : List UInt8} {fraction : Option (List UInt8)}
    (h : recognizeFraction L = some (fraction, rest)) :
    (fraction.map (0x2e :: ·)).getD [] ++ rest = L ∧ ∀ ds ∈ fraction, ds ≠ [] ∧ ∀ d ∈ ds, IsDigit d := by
  cases L with
  | nil =>
    cases h
    simp
  | cons c more =>
    simp only [recognizeFraction] at h
    split_ifs at h with point
    · rcases more with _ | ⟨d, ds⟩
      · cases h
      · dsimp only at h
        split_ifs at h with digit
        cases h
        refine ⟨by simp [point], fun found mem => ?_⟩
        rw [Option.mem_some_iff] at mem
        subst mem
        exact ⟨by simp [digit], fun d mem => List.mem_takeWhile_imp mem⟩
    · cases h
      simp

theorem recognizeFraction_complete {fraction : Option (List UInt8)} (wf : ∀ ds ∈ fraction, ds ≠ [] ∧ ∀ d ∈ ds, IsDigit d)
    {rest : List UInt8} (stop : ∀ c ∈ rest.head?, c = 0x65 ∨ c = 0x45) :
    recognizeFraction ((fraction.map (0x2e :: ·)).getD [] ++ rest) = some (fraction, rest) := by
  rcases fraction with _ | ⟨_ | ⟨d, ds⟩⟩
  · rcases rest with _ | ⟨c, more⟩
    · rfl
    · have letter := stop c rfl
      have : c ≠ 0x2e := by rintro rfl; simp at letter
      simp [recognizeFraction, this]
  · simp at wf
  · obtain ⟨_, digits⟩ := wf _ rfl
    have digit : IsDigit d = true := digits d List.mem_cons_self
    obtain ⟨taken, dropped⟩ := digits_append digits
      (fun c mem => letter_not_digit (Or.inr (stop c mem)))
    simp only [Option.map_some, Option.getD_some, List.cons_append, recognizeFraction, ↓reduceIte, digit]
    rw [← List.cons_append, taken, dropped]

theorem recognizeSign_sound (L : List UInt8) :
    (recognizeSign L).1.toList ++ (recognizeSign L).2 = L ∧ ∀ s ∈ (recognizeSign L).1, s = 0x2b ∨ s = 0x2d := by
  cases L with
  | nil => simp [recognizeSign]
  | cons s more =>
    simp only [recognizeSign]
    split
    · rename_i sign
      exact ⟨rfl, fun t mem => by rw [Option.mem_some_iff] at mem; rw [← mem]; exact sign⟩
    · simp

theorem recognizeSign_complete {sign : Option UInt8} (signs : ∀ s ∈ sign, s = 0x2b ∨ s = 0x2d) {d : UInt8}
    (digit : IsDigit d = true) (ds : List UInt8) : recognizeSign (sign.toList ++ d :: ds) = (sign, d :: ds) := by
  cases sign with
  | none =>
    have : ¬(d = 0x2b ∨ d = 0x2d) := by rintro (rfl | rfl) <;> simp [IsDigit] at digit
    simp [recognizeSign, this]
  | some s => simp [recognizeSign, signs s rfl]

theorem recognizeExponent_sound {L rest : List UInt8} {exponent : Option (UInt8 × Option UInt8 × List UInt8)}
    (h : recognizeExponent L = some (exponent, rest)) :
    (exponent.map fun (e, sign, ds) => e :: (sign.toList ++ ds)).getD [] ++ rest = L ∧
      ∀ x ∈ exponent, (x.1 = 0x65 ∨ x.1 = 0x45) ∧ (∀ s ∈ x.2.1, s = 0x2b ∨ s = 0x2d) ∧ x.2.2 ≠ [] ∧
        ∀ d ∈ x.2.2, IsDigit d := by
  cases L with
  | nil =>
    cases h
    simp
  | cons c more =>
    simp only [recognizeExponent] at h
    split_ifs at h with letter
    · obtain ⟨text, signs⟩ := recognizeSign_sound more
      rcases hS : recognizeSign more with ⟨sign, _ | ⟨d, ds⟩⟩
      · rw [hS] at h
        cases h
      · rw [hS] at h text signs
        dsimp only at h text signs
        split_ifs at h with digit
        cases h
        refine ⟨by simp [← text], fun x mem => ?_⟩
        rw [Option.mem_some_iff] at mem
        subst mem
        exact ⟨letter, signs, by simp [digit], fun d mem => List.mem_takeWhile_imp mem⟩
    · cases h
      simp

theorem exponentText_head {exponent : Option (UInt8 × Option UInt8 × List UInt8)}
    (wf : ∀ x ∈ exponent, (x.1 = 0x65 ∨ x.1 = 0x45) ∧ (∀ s ∈ x.2.1, s = 0x2b ∨ s = 0x2d) ∧ x.2.2 ≠ [] ∧
      ∀ d ∈ x.2.2, IsDigit d) :
    ∀ c ∈ ((exponent.map fun (e, sign, ds) => e :: (sign.toList ++ ds)).getD []).head?, c = 0x65 ∨ c = 0x45 := by
  rcases exponent with _ | ⟨e, sign, ds⟩
  · simp
  · intro c mem
    simp only [Option.map_some, Option.getD_some, List.head?_cons, Option.mem_some_iff] at mem
    rw [← mem]
    exact (wf _ rfl).1

theorem recognizeExponent_complete {exponent : Option (UInt8 × Option UInt8 × List UInt8)}
    (wf : ∀ x ∈ exponent, (x.1 = 0x65 ∨ x.1 = 0x45) ∧ (∀ s ∈ x.2.1, s = 0x2b ∨ s = 0x2d) ∧ x.2.2 ≠ [] ∧
      ∀ d ∈ x.2.2, IsDigit d) :
    recognizeExponent ((exponent.map fun (e, sign, ds) => e :: (sign.toList ++ ds)).getD []) = some (exponent, []) := by
  rcases exponent with _ | ⟨e, sign, _ | ⟨d, ds⟩⟩
  · rfl
  · simp at wf
  · obtain ⟨letter, signs, _, digits⟩ := wf _ rfl
    have digit : IsDigit d = true := digits d List.mem_cons_self
    obtain ⟨taken, dropped⟩ := digits_append digits (show ∀ c ∈ ([] : List UInt8).head?, IsDigit c = false by simp)
    simp only [List.append_nil] at taken dropped
    simp only [Option.map_some, Option.getD_some, recognizeExponent, if_pos letter,
      recognizeSign_complete signs digit, digit, ↓reduceIte, taken, dropped]

/-- What `recognize` splits a string into is a literal of the grammar, with that string as its text. -/
theorem recognize_sound {val : List UInt8} {lit : Literal} (h : recognize val = some lit) :
    lit.WellFormed ∧ lit.text = val := by
  unfold recognize at h
  have signText := mantissaSign_text val
  generalize mantissaSign val = split at signText h
  obtain ⟨negative, L⟩ := split
  dsimp only at h signText
  simp only [Option.bind_eq_bind, Option.bind_eq_some_iff] at h
  obtain ⟨⟨integer, L1⟩, hI, ⟨fraction, L2⟩, hF, ⟨exponent, L3⟩, hE, last⟩ := h
  dsimp only at hF hE last
  split_ifs at last with ends
  cases last
  subst ends
  obtain ⟨integerText, integerWf⟩ := recognizeInteger_sound hI
  obtain ⟨fractionText, fractionWf⟩ := recognizeFraction_sound hF
  obtain ⟨exponentText, exponentWf⟩ := recognizeExponent_sound hE
  refine ⟨⟨integerWf, fractionWf, exponentWf⟩, ?_⟩
  rw [← signText, ← integerText, ← fractionText, ← exponentText, List.append_nil]
  simp only [Literal.text, List.append_assoc]

/-- `recognize` reads every literal of the grammar back from its text. -/
theorem recognize_complete {lit : Literal} (wf : lit.WellFormed) : recognize lit.text = some lit := by
  obtain ⟨negative, integer, fraction, exponent⟩ := lit
  obtain ⟨integerWf, fractionWf, exponentWf⟩ := wf
  dsimp only at integerWf fractionWf exponentWf
  -- what follows the integer starts with the point, the exponent's letter, or nothing
  have afterInteger : ∀ c ∈ ((fraction.map (0x2e :: ·)).getD [] ++
      (exponent.map fun (e, sign, ds) => e :: (sign.toList ++ ds)).getD []).head?, c = 0x2e ∨ c = 0x65 ∨ c = 0x45 := by
    rcases fraction with _ | ds
    · exact fun c mem => Or.inr (exponentText_head exponentWf c (by simpa using mem))
    · intro c mem
      simp only [Option.map_some, Option.getD_some, List.cons_append, List.head?_cons, Option.mem_some_iff] at mem
      exact Or.inl mem.symm
  have integerHead : ∀ c ∈ (integer ++ (fraction.map (0x2e :: ·)).getD [] ++
      (exponent.map fun (e, sign, ds) => e :: (sign.toList ++ ds)).getD []).head?, c ≠ 0x2d := by
    rcases integerWf with rfl | ⟨c, ds, rfl, low, _, _⟩
    · simp
    · intro d mem
      simp only [List.cons_append, List.head?_cons, Option.mem_some_iff] at mem
      rintro rfl
      rw [mem] at low
      simp at low
  unfold recognize Literal.text
  simp only [List.append_assoc] at integerHead ⊢
  rw [mantissaSign_complete negative integerHead]
  dsimp only
  rw [recognizeInteger_complete integerWf afterInteger]
  simp only [Option.bind_eq_bind, Option.bind_some]
  rw [recognizeFraction_complete fractionWf (exponentText_head exponentWf)]
  simp only [Option.bind_some]
  rw [recognizeExponent_complete exponentWf]
  rfl

theorem recognize_eq_some_iff {val : List UInt8} {lit : Literal} : recognize val = some lit ↔ lit.WellFormed ∧ lit.text = val :=
  ⟨recognize_sound, fun ⟨wf, text⟩ => text ▸ recognize_complete wf⟩

/-! ## The parse refines the recognizer -/

theorem finalize_amount (lit : Literal) (decimals : Int32) (fits : (lit.significand.1 : Int) ≤ UPPER_BOUND)
    (exponentFits : (lit.exponentDigits : Int) ≤ UPPER_BOUND) (zeros : lit.significand.2 < 2^31)
    (point : lit.pointOfs < 2^31) :
    (finalize lit.negative lit.significand.1 lit.significand.2 lit.pointOfs
      (decide (lit.exponent.bind (·.2.1) = some 0x2d)) lit.exponentDigits decimals).run = .ok (lit.amount decimals.toInt) := by
  have signed : (if decide (lit.exponent.bind (·.2.1) = some 0x2d) then -(lit.exponentDigits : Int) else lit.exponentDigits) =
      lit.exponentValue := by
    simp only [decide_eq_true_eq, Literal.exponentValue]
  rw [finalize_eq _ _ _ _ _ _ _ fits exponentFits zeros point]
  unfold Literal.amount
  dsimp only
  rw [signed]
  by_cases scaled : 0 ≤ lit.exponentValue - lit.pointOfs + lit.significand.2 + decimals.toInt ∧
      lit.exponentValue - lit.pointOfs + lit.significand.2 + decimals.toInt < 18 ∧
      (lit.significand.1 : Int) * 10 ^ (lit.exponentValue - lit.pointOfs + lit.significand.2 + decimals.toInt).toNat ≤
        UPPER_BOUND
  · have all : (lit.significand.1 : Int) ≤ UPPER_BOUND ∧ (lit.exponentDigits : Int) ≤ UPPER_BOUND ∧ _ :=
      ⟨fits, exponentFits, scaled⟩
    rw [if_pos scaled, if_pos all]
    rfl
  · rw [if_neg scaled, if_neg fun all => scaled all.2.2]
    rfl

/-- A literal the rest of the string ends with has no amount, so the string has none. -/
theorem bind_ending_none {lit : Literal} {rest : List UInt8} {d : Int} (none_of : lit.amount d = none) :
    ((if rest = [] then some lit else none).bind fun lit => lit.amount d) = none := by
  split
  · exact none_of
  · rfl

/-- Where no exponent gives the parts read so far an amount, the string has none. -/
theorem bind_exponent_none {negative : Bool} {integer : List UInt8} {fraction : Option (List UInt8)} {L : List UInt8}
    {d : Int} (none_of : ∀ exponent, (⟨negative, integer, fraction, exponent⟩ : Literal).amount d = none) :
    (((recognizeExponent L).bind fun part =>
        if part.2 = [] then some (⟨negative, integer, fraction, part.1⟩ : Literal) else none).bind
      fun lit => lit.amount d) = none := by
  rcases recognizeExponent L with _ | ⟨exponent, rest⟩
  · rfl
  · exact bind_ending_none (none_of exponent)

/-- The parse of a string shorter than `2^31` is the recognizer followed by
    the amount: it never overflows, and it returns false exactly where the string
    is no literal or the literal has no amount. -/
theorem parseChars_eq (V : List UInt8) (decimals : Int32) (short : V.length < 2^31) :
    (parseChars V decimals).run = .ok ((recognize V).bind (·.amount decimals.toInt)) := by
  have signLength := mantissaSign_length V
  unfold parseChars recognize
  generalize mantissaSign V = split at signLength
  obtain ⟨negative, L⟩ := split
  dsimp only at signLength ⊢
  rw [parseInteger_eq L (by omega)]
  rcases hI : recognizeInteger L with _ | ⟨integer, L1⟩
  · rfl
  have lengthI := recognizeInteger_length hI
  dsimp only
  by_cases fitsI : ((readAll (0, 0) (if integer = [0x30] then [] else integer)).1 : Int) ≤ UPPER_BOUND
  swap
  · rw [if_neg fitsI, failure_bind]
    simp only [Option.bind_eq_bind, Option.bind_some]
    -- every literal of the rest has these integer digits, whose significand is out of range already
    rcases recognizeFraction L1 with _ | ⟨fraction, L2⟩
    · rfl
    have grows := le_readAll (readAll (0, 0) (if integer = [0x30] then [] else integer)) (fraction.getD [])
    simp only [Option.bind_some]
    rw [bind_exponent_none fun _ =>
      Literal.amount_eq_none_of_significand (by rw [Literal.significand_eq]; dsimp only; omega)]
    rfl
  rw [if_pos fitsI, pure_bind]
  dsimp only
  have zerosI := readAll_zeros_le (0, 0) (if integer = [0x30] then [] else integer)
  have readI : (if integer = [0x30] then [] else integer).length ≤ integer.length := by split <;> simp
  rw [parseFraction_eq _ _ L1 fitsI (by dsimp only at zerosI; omega)]
  simp only [Option.bind_eq_bind, Option.bind_some, Prod.mk.eta]
  rcases hF : recognizeFraction L1 with _ | ⟨fraction, L2⟩
  · rfl
  have lengthF := recognizeFraction_length hF
  simp only [Option.bind_some]
  by_cases fitsF :
      ((readAll (readAll (0, 0) (if integer = [0x30] then [] else integer)) (fraction.getD [])).1 : Int) ≤ UPPER_BOUND
  swap
  · rw [if_neg fitsF, failure_bind,
      bind_exponent_none fun _ => Literal.amount_eq_none_of_significand (by rw [Literal.significand_eq]; dsimp only; omega)]
    rfl
  rw [if_pos fitsF, pure_bind]
  dsimp only
  rw [parseExponent_eq L2]
  rcases hE : recognizeExponent L2 with _ | ⟨exponent, L3⟩
  · rfl
  simp only [Option.bind_some]
  by_cases fitsE : (((exponent.map fun x => digitsValue x.2.2).getD 0 : Nat) : Int) ≤ UPPER_BOUND
  swap
  · rw [if_neg fitsE, failure_bind,
      bind_ending_none (Literal.amount_eq_none_of_exponent (by unfold Literal.exponentDigits; dsimp only; omega))]
    rfl
  rw [if_pos fitsE, pure_bind]
  dsimp only
  by_cases ends : L3 = []
  swap
  · simp only [ne_eq, ends, not_false_eq_true, ↓reduceIte, failure_bind, Option.bind_none]
    rfl
  simp only [ends, ne_eq, not_true_eq_false, ↓reduceIte, Option.bind_some]
  have zerosF := readAll_zeros_le (readAll (0, 0) (if integer = [0x30] then [] else integer)) (fraction.getD [])
  have accepted := finalize_amount ⟨negative, integer, fraction, exponent⟩ decimals
    (by rw [Literal.significand_eq]; exact fitsF) fitsE
    (by rw [Literal.significand_eq]; dsimp only at zerosI ⊢; omega) (by dsimp only [Literal.pointOfs]; omega)
  rw [Literal.significand_eq] at accepted
  exact accepted

/-- `ParseFixedPoint` on every string: the parse of the characters before
    `end`. -/
theorem ParseFixedPoint_eq (val : List UInt8) (decimals : Int32) :
    ParseFixedPoint val decimals =
      .ok ((recognize (val.take (Int32.ofNat val.length).toNatClampNeg)).bind (·.amount decimals.toInt)) :=
  parseChars_eq _ decimals (lt_of_le_of_lt (List.length_take_le _ _) (Int32.toNatClampNeg_lt _))

/-! ## Exactness -/

/-- `ParseFixedPoint` returns on every input without overflow, and on a string
    shorter than `2^31` it accepts exactly the literals of the grammar whose
    amount is representable, with that amount. -/
theorem ParseFixedPoint_exact (val : List UInt8) (decimals : Int32) :
    (∃ r, ParseFixedPoint val decimals = .ok r) ∧
    (val.length < 2^31 → ∀ N : Int, (ParseFixedPoint val decimals = .ok (some N) ↔
      ∃ lit : Literal, lit.WellFormed ∧ lit.text = val ∧
        if lit.value = 0 then N = 0 ∧ 0 ≤ lit.exponentValue + decimals.toInt ∧ lit.exponentValue + decimals.toInt < 18
        else lit.value * 10 ^ decimals.toInt = N ∧ |N| ≤ 10 ^ 18 - 1)) := by
  refine ⟨⟨_, ParseFixedPoint_eq val decimals⟩, fun short N => ?_⟩
  -- below 2^31 characters the narrowing to an int keeps the whole string
  have whole : val.take (Int32.ofNat val.length).toNatClampNeg = val := by
    rw [Int32.toNatClampNeg_ofNat_of_lt short, List.take_length]
  rw [ParseFixedPoint_eq, whole, Except.ok.injEq, Option.bind_eq_some_iff]
  constructor
  · rintro ⟨lit, recognized, accepted⟩
    obtain ⟨wf, text⟩ := recognize_sound recognized
    exact ⟨lit, wf, text, (Literal.amount_exact lit wf (text ▸ short) decimals N).mp accepted⟩
  · rintro ⟨lit, wf, text, exact⟩
    exact ⟨lit, text ▸ recognize_complete wf, (Literal.amount_exact lit wf (text ▸ short) decimals N).mpr exact⟩

theorem ParseFixedPoint_exact_one_and_a_half : ParseFixedPoint [0x31, 0x2e, 0x35] 8 = .ok (some 150000000) :=
  ((ParseFixedPoint_exact [0x31, 0x2e, 0x35] 8).2 (by decide) 150000000).mpr
    ⟨⟨false, [0x31], some [0x35], none⟩, ⟨Or.inr ⟨0x31, [], rfl, by decide, by decide, by simp⟩, by simp [IsDigit], by simp⟩,
      rfl, by
        have value : (⟨false, [0x31], some [0x35], none⟩ : Literal).value = 3 / 2 := by
          have digits : digitsValue [0x31, 0x35] = 15 := by decide
          norm_num [Literal.value, Literal.exponentValue, Literal.exponentDigits, Literal.pointOfs, digits]
        have eight : (8 : Int32).toInt = 8 := rfl
        rw [value, eight]
        norm_num⟩

end BitcoinPrivate
