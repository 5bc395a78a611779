import BitcoinPrivate.Script.Script

/-!
The bytes of a `CScriptNum`. `serialize` writes the magnitude little endian in
its shortest form and puts the sign in the top bit of the last byte, or in a
byte of its own where the magnitude needs that bit (`signMagnitude`); `set_vch`
reads such bytes back as the signed magnitude, and the test of
`fRequireMinimal` passes exactly the strings that have that form with a
shortest magnitude (`signMagnitude_of_minimal`). So every 64-bit value but the
least reads back from its bytes, and every accepted string of at most eight
bytes is the bytes of the value it reads as.
-/
namespace BitcoinPrivate.CScriptNum
open LittleEndian

/-- The end of `serialize`: the magnitude bytes `result` with the sign `neg`. -/
def signMagnitude (result : List UInt8) (neg : Prop) [Decidable neg] : valtype :=
  match result.getLast? with
  | none => []
  | some back =>
    if back &&& 0x80 != 0 then result ++ [if neg then 0x80 else 0]
    else if neg then result.dropLast ++ [back ||| 0x80]
    else result

theorem serialize_eq (value : Int) : serialize value = signMagnitude (absBytes 8 value.natAbs) (value < 0) := by
  unfold serialize signMagnitude
  by_cases zero : value = 0
  · simp [zero, absBytes]
  · exact if_neg zero

/-! ## The magnitude -/

theorem absBytes_zero : ∀ fuel, absBytes fuel 0 = []
  | 0 => rfl
  | _+1 => by simp [absBytes]

theorem leValue_absBytes : ∀ {fuel m : Nat}, m < 256^fuel → leValue (absBytes fuel m) = m
  | 0, m, fits => by simp at fits; simp [fits, absBytes, leValue]
  | fuel+1, m, fits => by
    by_cases zero : m = 0
    · simp [zero, absBytes, leValue]
    · rw [absBytes, if_neg zero, leValue, leValue_absBytes (by rw [pow_succ] at fits; omega)]
      simp
      omega

/-- The last byte of a magnitude is not zero. -/
theorem getLast?_absBytes : ∀ {fuel m : Nat}, m < 256^fuel → (absBytes fuel m).getLast? ≠ some 0
  | 0, _, _ => by simp [absBytes]
  | fuel+1, m, fits => by
    have above : m / 256 < 256^fuel := by rw [pow_succ] at fits; omega
    by_cases zero : m = 0
    · simp [zero, absBytes]
    rw [absBytes, if_neg zero]
    cases rest : absBytes fuel (m / 256) with
    | nil =>
      -- nothing above the lowest byte, which is then the whole number
      have low : m / 256 = 0 := by rw [← leValue_absBytes above, rest, leValue]
      simp only [List.getLast?_singleton, ne_eq, Option.some.injEq]
      intro byte
      have := congrArg UInt8.toNat byte
      simp at this
      omega
    | cons c rest' =>
      rw [List.getLast?_cons_cons, ← rest]
      exact getLast?_absBytes above

theorem length_absBytes_le : ∀ (fuel m : Nat), (absBytes fuel m).length ≤ fuel
  | 0, _ => by simp [absBytes]
  | fuel+1, m => by
    unfold absBytes
    split_ifs
    · simp
    · simpa using length_absBytes_le fuel (m / 256)

theorem leValue_pos : ∀ {M : List UInt8}, M ≠ [] → M.getLast? ≠ some 0 → 0 < leValue M
  | [b], _, top => by
    have nonzero : b.toNat ≠ 0 := fun zero =>
      top (by rw [List.getLast?_singleton, show b = 0 from UInt8.toNat_inj.mp (by rw [zero]; rfl)])
    simp only [leValue]
    omega
  | b :: c :: rest, _, top => by
    rw [List.getLast?_cons_cons] at top
    have := leValue_pos (List.cons_ne_nil c rest) top
    simp only [leValue] at *
    omega

/-- Bytes whose last is not zero are the magnitude of their value. -/
theorem absBytes_leValue : ∀ {M : List UInt8} {fuel : Nat}, M.getLast? ≠ some 0 → M.length ≤ fuel →
    absBytes fuel (leValue M) = M
  | [], fuel, _, _ => absBytes_zero fuel
  | b :: rest, fuel+1, top, fits => by
    have restTop : rest.getLast? ≠ some 0 := by
      cases rest with
      | nil => simp
      | cons c rest => rwa [List.getLast?_cons_cons] at top
    have nonzero := leValue_pos (List.cons_ne_nil b rest) top
    have byte := b.toNat_lt
    have low : (b.toNat + 256 * leValue rest) % 256 = b.toNat := by omega
    have high : (b.toNat + 256 * leValue rest) / 256 = leValue rest := by omega
    rw [leValue] at nonzero ⊢
    rw [absBytes, if_neg (by omega), low, high, UInt8.ofNat_toNat,
      absBytes_leValue restTop (by simpa using fits)]

/-! ## The sign bit -/

theorem and_low_and_high (b : UInt8) : b &&& 0x7f &&& 0x80 = 0 := by
  rw [and_high_eq_zero_iff, toNat_and_low]
  omega

theorem and_low_or_high {b : UInt8} (high : b &&& 0x80 ≠ 0) : b &&& 0x7f ||| 0x80 = b := by
  rw [Ne, and_high_eq_zero_iff] at high
  have low : (b &&& 0x7f).toNat < 0x80 := by rw [toNat_and_low]; omega
  have := b.toNat_lt
  apply UInt8.toNat_inj.mp
  rw [toNat_or_high low, toNat_and_low]
  omega

theorem and_low_of_low {b : UInt8} (low : b &&& 0x80 = 0) : b &&& 0x7f = b := by
  rw [and_high_eq_zero_iff] at low
  apply UInt8.toNat_inj.mp
  rw [toNat_and_low]
  omega

theorem or_high_and_low {b : UInt8} (low : b.toNat < 0x80) : (b ||| 0x80) &&& 0x7f = b := by
  apply UInt8.toNat_inj.mp
  rw [toNat_and_low, toNat_or_high low]
  omega

theorem or_high_and_high {b : UInt8} (low : b.toNat < 0x80) : (b ||| 0x80) &&& 0x80 ≠ 0 := by
  rw [Ne, and_high_eq_zero_iff, toNat_or_high low]
  omega

/-- A byte that is zero but for its top bit is a sign byte. -/
theorem eq_of_and_low_eq_zero {b : UInt8} (zero : b &&& 0x7f = 0) : b = 0 ∨ b = 0x80 := by
  have value := congrArg UInt8.toNat zero
  rw [toNat_and_low, UInt8.toNat_zero] at value
  have := b.toNat_lt
  rcases (show b.toNat = 0 ∨ b.toNat = 0x80 by omega) with low | high
  · exact Or.inl (UInt8.toNat_inj.mp (low.trans UInt8.toNat_zero.symm))
  · exact Or.inr (UInt8.toNat_inj.mp high)

/-! ## The sign -/

theorem signMagnitude_concat (init : List UInt8) (back : UInt8) (neg : Prop) [Decidable neg] :
    signMagnitude (init ++ [back]) neg =
      if back &&& 0x80 != 0 then init ++ [back] ++ [if neg then 0x80 else 0]
      else if neg then init ++ [back ||| 0x80] else init ++ [back] := by
  simp only [signMagnitude, List.getLast?_concat, List.dropLast_concat]

theorem set_vch_concat (init : List UInt8) (last : UInt8) :
    set_vch (init ++ [last]) =
      if last &&& 0x80 != 0 then -((leValue init + 256^init.length * last.toNat - 0x80 * 256^init.length : Nat) : Int)
      else ((leValue init + 256^init.length * last.toNat : Nat) : Int) := by
  simp only [set_vch, List.getLast?_concat, leValue_append, List.length_append, List.length_singleton,
    Nat.add_sub_cancel, leValue, Nat.mul_zero, Nat.add_zero]

theorem nonMinimal_concat (init : List UInt8) (last : UInt8) :
    nonMinimal (init ++ [last]) = (last &&& 0x7f == 0 && init.getLast?.all (· &&& 0x80 == 0)) := by
  rcases List.eq_nil_or_concat' init with rfl | ⟨init, second, rfl⟩
  · simp [nonMinimal]
  · simp [nonMinimal]

/-- The bytes read back as the magnitude with its sign. -/
theorem set_vch_signMagnitude (M : List UInt8) (neg : Prop) [Decidable neg] :
    set_vch (signMagnitude M neg) = if neg then -(leValue M : Int) else leValue M := by
  rcases List.eq_nil_or_concat' M with rfl | ⟨init, back, rfl⟩
  · simp [signMagnitude, set_vch, leValue]
  rw [signMagnitude_concat, leValue_append]
  simp only [leValue, Nat.mul_zero, Nat.add_zero]
  by_cases high : back &&& 0x80 = 0
  · -- the sign goes into the top bit of the last byte
    have low := (and_high_eq_zero_iff back).mp high
    by_cases sign : neg
    · rw [if_neg (by simpa using high), if_pos sign, set_vch_concat, if_pos (by simpa using or_high_and_high low),
        if_pos sign, toNat_or_high low, Nat.mul_add]
      omega
    · rw [if_neg (by simpa using high), if_neg sign, set_vch_concat, if_neg (by simpa using high), if_neg sign]
  · -- the sign gets a byte of its own
    rw [if_pos (by simpa using high), set_vch_concat, leValue_append]
    simp only [leValue, Nat.mul_zero, Nat.add_zero, List.length_append, List.length_singleton]
    by_cases sign : neg
    · rw [if_pos sign, if_pos sign, if_pos (by decide), show (0x80 : UInt8).toNat = 0x80 from rfl]
      omega
    · rw [if_neg sign, if_neg sign, if_neg (by decide)]
      simp

/-- The sign never makes a magnitude fail the test of `fRequireMinimal`. -/
theorem nonMinimal_signMagnitude {M : List UInt8} (top : M.getLast? ≠ some 0) (neg : Prop) [Decidable neg] :
    nonMinimal (signMagnitude M neg) = false := by
  rcases List.eq_nil_or_concat' M with rfl | ⟨init, back, rfl⟩
  · simp [signMagnitude, nonMinimal]
  have nonzero : back ≠ 0 := fun zero => top (by rw [List.getLast?_concat, zero])
  rw [signMagnitude_concat]
  by_cases high : back &&& 0x80 = 0
  · have low := (and_high_eq_zero_iff back).mp high
    rw [if_neg (by simpa using high)]
    by_cases sign : neg
    · rw [if_pos sign, nonMinimal_concat, or_high_and_low low]
      simp [nonzero]
    · rw [if_neg sign, nonMinimal_concat, and_low_of_low high]
      simp [nonzero]
  · rw [if_pos (by simpa using high), nonMinimal_concat, List.getLast?_concat]
    simp [high]

/-- Below `2^63` the sign fits in eight bytes. -/
theorem length_signMagnitude_le {M : List UInt8} (fits : M.length ≤ 8) (small : leValue M < 2^63)
    (neg : Prop) [Decidable neg] : (signMagnitude M neg).length ≤ 8 := by
  rcases List.eq_nil_or_concat' M with rfl | ⟨init, back, rfl⟩
  · simp [signMagnitude]
  rw [signMagnitude_concat]
  by_cases high : back &&& 0x80 = 0
  · rw [if_neg (by simpa using high)]
    split_ifs <;> simpa using fits
  · -- a magnitude with its top bit set has at most seven bytes
    rw [if_pos (by simpa using high)]
    have top : 0x80 ≤ back.toNat := by rw [and_high_eq_zero_iff] at high; omega
    rw [leValue_append] at small
    simp only [List.length_append, List.length_singleton] at fits ⊢
    have short : init.length < 7 := by
      by_contra long
      rw [show init.length = 7 by omega] at small
      simp only [leValue, Nat.mul_zero, Nat.add_zero] at small
      omega
    omega

/-- The strings that pass the test of `fRequireMinimal` are magnitudes whose
    last byte is not zero, with a sign. -/
theorem signMagnitude_of_minimal {vch : valtype} (minimal : nonMinimal vch = false) :
    ∃ M : List UInt8, ∃ neg : Bool, M.getLast? ≠ some 0 ∧ M.length ≤ vch.length ∧ vch = signMagnitude M neg := by
  rcases List.eq_nil_or_concat' vch with rfl | ⟨init, last, rfl⟩
  · exact ⟨[], false, by simp, by simp, by simp [signMagnitude]⟩
  rw [nonMinimal_concat] at minimal
  by_cases low : last &&& 0x7f = 0
  · -- the last byte carries the sign only, so the byte before it has its top bit set
    rcases List.eq_nil_or_concat' init with rfl | ⟨init, second, rfl⟩
    · simp [low] at minimal
    have high : second &&& 0x80 ≠ 0 := by simpa [low] using minimal
    have nonzero : second ≠ 0 := by rintro rfl; exact high (by decide)
    refine ⟨init ++ [second], last == 0x80, by simpa using nonzero, by simp, ?_⟩
    rw [signMagnitude_concat, if_pos (by simpa using high)]
    rcases eq_of_and_low_eq_zero low with rfl | rfl <;> rfl
  · -- the last byte carries the sign and the top of the magnitude
    refine ⟨init ++ [last &&& 0x7f], last &&& 0x80 != 0, by simpa using low, by simp, ?_⟩
    rw [signMagnitude_concat, if_neg (by simpa using and_low_and_high last)]
    by_cases high : last &&& 0x80 = 0
    · rw [if_neg (by simpa using high), and_low_of_low high]
    · rw [if_pos (by simpa using high), and_low_or_high high]

theorem signMagnitude_congr (M : List UInt8) {p q : Prop} [Decidable p] [Decidable q] (same : p ↔ q) :
    signMagnitude M p = signMagnitude M q := by
  simp only [signMagnitude, same]

/-! ## The round trips -/

/-- The value an accepted string reads as, serialized, is the string. -/
theorem serialize_set_vch {vch : valtype} (fits : vch.length ≤ 8) (minimal : nonMinimal vch = false) :
    serialize (set_vch vch) = vch := by
  obtain ⟨M, neg, top, shorter, rfl⟩ := signMagnitude_of_minimal minimal
  rw [set_vch_signMagnitude, serialize_eq]
  have magnitude : (if neg = true then -(leValue M : Int) else leValue M).natAbs = leValue M := by
    split_ifs <;> simp
  rw [magnitude, absBytes_leValue top (by omega)]
  rcases List.eq_nil_or_concat' M with rfl | ⟨init, back, rfl⟩
  · simp [signMagnitude]
  · -- a magnitude that is not empty is not zero, so its sign is the sign of the value
    have positive := leValue_pos (by simp) top
    apply signMagnitude_congr
    cases neg with
    | false => simp
    | true => simpa using positive

/-- A value of a 64-bit integer but the least reads back from its bytes. -/
theorem ofVch_serialize {v : Int} (above : -2^63 < v) (below : v < 2^63) :
    (serialize v).length ≤ 8 ∧ ofVch (serialize v) true 8 = some v := by
  have fits : v.natAbs < 256^8 := by omega
  have value := leValue_absBytes fits
  have top := getLast?_absBytes fits
  have length : (serialize v).length ≤ 8 := by
    rw [serialize_eq]
    exact length_signMagnitude_le (length_absBytes_le 8 _) (by omega) _
  refine ⟨length, ?_⟩
  unfold ofVch
  rw [if_neg (by omega), serialize_eq, nonMinimal_signMagnitude top, set_vch_signMagnitude, value]
  simp only [Bool.and_false, Bool.false_eq_true, if_false, Option.some.injEq]
  split_ifs <;> omega

theorem script_number_round_trips :
    (∀ v : Int, -2^63 < v → v < 2^63 → (serialize v).length ≤ 8 ∧ ofVch (serialize v) true 8 = some v) ∧
    (∀ vch : valtype, vch.length ≤ 8 → ∀ n, ofVch vch true 8 = some n → serialize n = vch) := by
  refine ⟨fun v above below => ofVch_serialize above below, ?_⟩
  intro vch fits n accepted
  unfold ofVch at accepted
  rw [if_neg (by omega)] at accepted
  by_cases minimal : nonMinimal vch = true
  · simp [minimal] at accepted
  · rw [Bool.not_eq_true] at minimal
    simp only [minimal, Bool.and_false, Bool.false_eq_true, if_false, Option.some.injEq] at accepted
    rw [← accepted]
    exact serialize_set_vch fits minimal

example : serialize (-255) = [0xff, 0x80] := by decide
example : ofVch [0x80] true 8 = none := by decide

end BitcoinPrivate.CScriptNum
