import Mathlib

/-!
Arrays of bits kept in bytes, least significant first: bit `p` is the place
`p % 8` of byte `p / 8`. Reading a place with a mask of one shifted bit is that
bit of the byte's number (`and_bit_ne_zero`), and or-ing a shifted bit into its
byte sets that bit of the array and no other (`bit_modify_or`). C code spells
the byte `p >> 3` and the place `7 & p`; `setBits` sets the bits of a list of
places one after another, and keeps every bit that was set.
-/
namespace BitcoinPrivate.ByteBits

/-- Bit `p` of the array; `false` past its end. -/
def bit (bytes : List UInt8) (p : Nat) : Bool := (bytes.getD (p / 8) 0).toNat.testBit (p % 8)

theorem toNat_one_shiftLeft {j : Nat} (place : j < 8) : ((1 : UInt8) <<< j.toUInt8).toNat = 2^j := by
  rw [UInt8.toNat_shiftLeft,Nat.toUInt8,UInt8.toNat_ofNat',Nat.mod_eq_of_lt (show j < 2^8 by omega),
    Nat.mod_eq_of_lt place,show UInt8.toNat 1 = 1 from rfl,Nat.one_shiftLeft,Nat.mod_eq_of_lt (Nat.pow_lt_pow_right (by decide) place)]

/-- A bit shifted to its place, as a number. -/
theorem toNat_bit_shiftLeft (b : Bool) {j : Nat} (place : j < 8) :
    ((if b then 1 else 0 : UInt8) <<< j.toUInt8).toNat = b.toNat * 2^j := by
  cases b
  · simp
  · rw [if_pos rfl,toNat_one_shiftLeft place,Bool.toNat_true,Nat.one_mul]

/-- The test of one place of a byte is that bit of its number. -/
theorem and_bit_ne_zero (x : UInt8) {j : Nat} (place : j < 8) :
    ((x &&& (1 <<< j.toUInt8)) != 0) = x.toNat.testBit j := by
  have tested : (x &&& (1 <<< j.toUInt8)).toNat = (x.toNat.testBit j).toNat * 2^j := by
    rw [UInt8.toNat_and,toNat_one_shiftLeft place,Nat.and_two_pow]
  cases bit : x.toNat.testBit j
  · rw [bit,Bool.toNat_false,Nat.zero_mul] at tested
    simp [← UInt8.toNat_inj,tested]
  · rw [bit,Bool.toNat_true,Nat.one_mul] at tested
    simp [← UInt8.toNat_inj,tested]

/-- The mask test of bit `p` at its byte is the bit. -/
theorem getD_and_ne_zero (bytes : List UInt8) (p : Nat) :
    ((bytes.getD (p / 8) 0 &&& (1 <<< (p % 8).toUInt8)) != 0) = bit bytes p :=
  and_bit_ne_zero _ (Nat.mod_lt _ (by decide))

theorem bit_of_le_length {bytes : List UInt8} {p : Nat} (past : bytes.length * 8 ≤ p) : bit bytes p = false := by
  rw [bit,List.getD_eq_default _ _ (by omega)]
  simp

/-- Or-ing `b` shifted to the place of bit `p` into its byte sets bit `p`
    where `b` is set, and changes no other bit. -/
theorem bit_modify_or {bytes : List UInt8} {p : Nat} (inside : p < bytes.length * 8) (b : Bool) (q : Nat) :
    bit (bytes.modify (p / 8) (· ||| ((if b then 1 else 0 : UInt8) <<< (p % 8).toUInt8))) q =
      (bit bytes q || (b && decide (q = p))) := by
  by_cases past : bytes.length * 8 ≤ q
  · rw [bit_of_le_length (by rw [List.length_modify]; exact past),bit_of_le_length past,decide_eq_false (by omega)]
    simp
  · have byte : q / 8 < bytes.length := by omega
    rw [bit,bit,List.getD_eq_getElem?_getD,List.getD_eq_getElem?_getD,List.getElem?_modify,
      List.getElem?_eq_getElem byte]
    simp only [Option.map_eq_map,Option.map_some,Option.getD_some]
    by_cases same : p / 8 = q / 8
    · have place : p % 8 < 8 := Nat.mod_lt _ (by decide)
      rw [if_pos same,UInt8.toNat_or,Nat.testBit_or,toNat_bit_shiftLeft _ place]
      by_cases here : q = p
      · subst here
        cases b <;> simp
      · have elsewhere : p % 8 ≠ q % 8 := by omega
        cases b <;> simp [elsewhere,here]
    · rw [if_neg same]
      have other : q ≠ p := fun eq => same (by rw [eq])
      simp [other]

/-- Or-ing a set bit at the place of bit `p`. -/
theorem bit_modify_or_one {bytes : List UInt8} {p : Nat} (inside : p < bytes.length * 8) (q : Nat) :
    bit (bytes.modify (p / 8) (· ||| ((1 : UInt8) <<< (p % 8).toUInt8))) q = (bit bytes q || decide (q = p)) := by
  have := bit_modify_or inside true q
  rwa [if_pos rfl,Bool.true_and] at this

/-- An or into any byte keeps every bit that was set. -/
theorem bit_modify_or_of_bit {bytes : List UInt8} {q : Nat} (set : bit bytes q = true) (j : Nat) (m : UInt8) :
    bit (bytes.modify j (· ||| m)) q = true := by
  rw [bit,List.getD_eq_getElem?_getD] at set
  rw [bit,List.getD_eq_getElem?_getD,List.getElem?_modify]
  cases byte : bytes[q / 8]? with
  | none => simp [byte] at set
  | some b =>
    rw [byte,Option.getD_some] at set
    by_cases same : j = q / 8
    · simp [same,Nat.testBit_or,set]
    · simp [same,set]

theorem bit_of_forall_eq_ff {bytes : List UInt8} (ones : ∀ b ∈ bytes, b = 0xff) {p : Nat} (inside : p < bytes.length * 8) :
    bit bytes p = true := by
  have byte : p / 8 < bytes.length := by omega
  rw [bit,List.getD_eq_getElem _ _ byte,ones _ (List.getElem_mem byte),show (0xff : UInt8).toNat = 2^8 - 1 from rfl,
    Nat.testBit_two_pow_sub_one]
  simpa using Nat.mod_lt p (by decide : 8 > 0)

theorem bit_of_forall_eq_zero {bytes : List UInt8} (zeros : ∀ b ∈ bytes, b = 0) (p : Nat) : bit bytes p = false := by
  have byte : bytes.getD (p / 8) 0 = 0 := by
    rw [List.getD_eq_getElem?_getD]
    cases found : bytes[p / 8]? with
    | none => rfl
    | some b => exact zeros b (List.mem_of_getElem? found)
  rw [bit,byte]
  simp

/-- The byte of bit `p` as C spells it. -/
theorem shiftRight_three (p : Nat) : p >>> 3 = p / 8 := Nat.shiftRight_eq_div_pow p 3

/-- The place of bit `p` in its byte as C spells it. -/
theorem seven_and (p : Nat) : 7 &&& p = p % 8 := by
  rw [Nat.and_comm]
  exact Nat.and_two_pow_sub_one_eq_mod p 3

/-- Sets the bits at the places `ps`, one after another. -/
def setBits (bytes : List UInt8) (ps : List Nat) : List UInt8 :=
  ps.foldl (fun bytes p => bytes.modify (p / 8) (· ||| ((1 : UInt8) <<< (p % 8).toUInt8))) bytes

theorem setBits_cons (bytes : List UInt8) (p : Nat) (ps : List Nat) :
    setBits bytes (p :: ps) = setBits (bytes.modify (p / 8) (· ||| ((1 : UInt8) <<< (p % 8).toUInt8))) ps := rfl

@[simp] theorem length_setBits (bytes : List UInt8) (ps : List Nat) : (setBits bytes ps).length = bytes.length := by
  induction ps generalizing bytes with
  | nil => rfl
  | cons p ps ih => rw [setBits_cons,ih,List.length_modify]

/-- Setting places inside the array sets exactly those bits. -/
theorem bit_setBits {bytes : List UInt8} {ps : List Nat} (inside : ∀ p ∈ ps, p < bytes.length * 8) (q : Nat) :
    bit (setBits bytes ps) q = (bit bytes q || decide (q ∈ ps)) := by
  induction ps generalizing bytes with
  | nil => simp [setBits]
  | cons p ps ih =>
    have rest : ∀ p' ∈ ps, p' < (bytes.modify (p / 8) (· ||| ((1 : UInt8) <<< (p % 8).toUInt8))).length * 8 := by
      intro p' mem
      rw [List.length_modify]
      exact inside p' (List.mem_cons_of_mem p mem)
    rw [setBits_cons,ih rest,bit_modify_or_one (inside p List.mem_cons_self)]
    simp [Bool.or_assoc]

theorem bit_setBits_of_bit {bytes : List UInt8} {q : Nat} (set : bit bytes q = true) (ps : List Nat) :
    bit (setBits bytes ps) q = true := by
  induction ps generalizing bytes with
  | nil => exact set
  | cons p ps ih => exact ih (bit_modify_or_of_bit set _ _)

end BitcoinPrivate.ByteBits
