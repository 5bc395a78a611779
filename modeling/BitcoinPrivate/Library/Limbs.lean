import Mathlib

/-!
Numbers as lists of 32-bit words, lowest word first: the words are the digits
of the number in base `2^32` (`Nat.ofDigits`). A list of `n` words stands for a
number below `2^(32 * n)`. The lemmas split such a number at a word, read a bit
of it off its word, change one word, and keep the low words of a sum whose
carry leaves the top.
-/
namespace BitcoinPrivate.Limbs

/-- The number the words stand for. -/
def value (l : List UInt32) : Nat := Nat.ofDigits (2^32) (l.map UInt32.toNat)

@[simp] theorem value_nil : value [] = 0 := rfl

@[simp] theorem value_cons (w : UInt32) (ws : List UInt32) : value (w :: ws) = w.toNat + 2^32 * value ws := by
  simp [value,Nat.ofDigits_cons]

theorem value_append (a b : List UInt32) : value (a ++ b) = value a + 2^(32 * a.length) * value b := by
  simp [value,Nat.ofDigits_append,pow_mul]

theorem value_lt (l : List UInt32) : value l < 2^(32 * l.length) := by
  have below := Nat.ofDigits_lt_base_pow_length (b := 2^32) (l := l.map UInt32.toNat) (by norm_num)
    (by simpa using fun w _ => UInt32.toNat_lt w)
  simpa [value,pow_mul] using below

@[simp] theorem value_replicate_zero (n : Nat) : value (List.replicate n 0) = 0 := by
  simp [value,List.map_replicate,Nat.ofDigits_replicate_zero]

/-- A sum whose low part fits below `2^a` keeps that part in its remainder. -/
theorem add_mul_mod {t a : Nat} (small : t < 2^a) (S b : Nat) :
    (t + 2^a * S) % 2^(a + b) = t + 2^a * (S % 2^b) := by
  have split : t + 2^a * S = (t + 2^a * (S % 2^b)) + 2^(a + b) * (S / 2^b) := by
    conv_lhs => rw [← Nat.mod_add_div S (2^b)]
    rw [pow_add]
    ring
  have below : t + 2^a * (S % 2^b) < 2^(a + b) := by
    have rest : S % 2^b + 1 ≤ 2^b := Nat.mod_lt _ (Nat.two_pow_pos b)
    calc t + 2^a * (S % 2^b) < 2^a * (S % 2^b + 1) := by rw [Nat.mul_add_one]; omega
      _ ≤ 2^a * 2^b := Nat.mul_le_mul_left _ rest
      _ = 2^(a + b) := (pow_add 2 a b).symm
  rw [split,Nat.add_mul_mod_self_left,Nat.mod_eq_of_lt below]

/-- The word case of `add_mul_mod`: a word below a sum of `k` more words. -/
theorem cons_mod {low : Nat} (small : low < 2^32) (S k : Nat) :
    (low + 2^32 * S) % 2^(32 * (k + 1)) = low + 2^32 * (S % 2^(32 * k)) := by
  rw [show 32 * (k + 1) = 32 + 32 * k by ring]
  exact add_mul_mod small S (32 * k)

theorem value_take_succ (l : List UInt32) (n : Nat) :
    value (l.take (n + 1)) = value (l.take n) + 2^(32 * n) * (l.getD n 0).toNat := by
  by_cases inside : n < l.length
  · rw [List.take_add_one,List.getElem?_eq_getElem inside,value_append,List.length_take,Nat.min_eq_left inside.le,
      List.getD_eq_getElem _ _ inside]
    simp
  · rw [List.take_of_length_le (by omega),List.take_of_length_le (by omega),
      List.getD_eq_default _ _ (by omega)]
    simp

theorem value_take_lt (l : List UInt32) (n : Nat) : value (l.take n) < 2^(32 * n) :=
  lt_of_lt_of_le (value_lt _) (Nat.pow_le_pow_right (by norm_num) (by simp))

theorem value_take (l : List UInt32) (n : Nat) : value (l.take n) = value l % 2^(32 * n) := by
  conv_rhs => rw [← List.take_append_drop n l,value_append]
  by_cases inside : n ≤ l.length
  · rw [List.length_take,Nat.min_eq_left inside,Nat.add_mul_mod_self_left,Nat.mod_eq_of_lt]
    have := value_lt (l.take n)
    rwa [List.length_take,Nat.min_eq_left inside] at this
  · rw [List.drop_of_length_le (by omega),value_nil,Nat.mul_zero,Nat.add_zero,Nat.mod_eq_of_lt]
    exact lt_of_lt_of_le (value_lt _) (Nat.pow_le_pow_right (by norm_num) (by simp))

/-! ## Bits of words and of the number -/

theorem testBit_word_high (w : UInt32) {b : Nat} (hb : 32 ≤ b) : w.toNat.testBit b = false :=
  Nat.testBit_lt_two_pow (lt_of_lt_of_le (UInt32.toNat_lt w) (Nat.pow_le_pow_right (by norm_num) hb))

theorem testBit_shiftLeft_word (w : UInt32) {sh b : Nat} (hsh : sh < 32) (hb : b < 32) :
    (w <<< sh.toUInt32).toNat.testBit b = (decide (sh ≤ b) && w.toNat.testBit (b - sh)) := by
  rw [UInt32.toNat_shiftLeft,Nat.toUInt32,UInt32.toNat_ofNat',Nat.mod_eq_of_lt (by omega : sh < 2^32),
    Nat.mod_eq_of_lt hsh,Nat.testBit_mod_two_pow,Nat.testBit_shiftLeft]
  simp [hb]

theorem testBit_shiftRight_word (w : UInt32) {sh : Nat} (hsh : sh < 32) (b : Nat) :
    (w >>> sh.toUInt32).toNat.testBit b = w.toNat.testBit (b + sh) := by
  rw [UInt32.toNat_shiftRight,Nat.toUInt32,UInt32.toNat_ofNat',Nat.mod_eq_of_lt (by omega : sh < 2^32),
    Nat.mod_eq_of_lt hsh,Nat.testBit_shiftRight,Nat.add_comm]

/-- Setting a clear bit adds its power of two. -/
theorem or_two_pow_of_testBit {w b : Nat} (clear : w.testBit b = false) : w ||| 2^b = w + 2^b := by
  have digit : w / 2^b % 2 = 0 := by
    rw [Nat.testBit_eq_decide_div_mod_eq] at clear
    simpa using clear
  have low : w % 2^(b + 1) < 2^b := by
    rw [pow_succ,Nat.mod_mul,digit,Nat.mul_zero,Nat.add_zero]
    exact Nat.mod_lt _ (Nat.two_pow_pos b)
  have split := Nat.div_add_mod w (2^(b + 1))
  have double : 2^(b + 1) = 2^b + 2^b := by rw [pow_succ]; ring
  have carried : 2^b + w % 2^(b + 1) < 2^(b + 1) := by omega
  calc w ||| 2^b = (2^(b + 1) * (w / 2^(b + 1)) ||| w % 2^(b + 1)) ||| 2^b := by
        rw [← Nat.two_pow_add_eq_or_of_lt (Nat.mod_lt _ (Nat.two_pow_pos _)),split]
    _ = 2^(b + 1) * (w / 2^(b + 1)) ||| (2^b * 1 ||| w % 2^(b + 1)) := by
        rw [Nat.mul_one,Nat.or_assoc,Nat.or_comm (w % 2^(b + 1))]
    _ = w + 2^b := by
        rw [← Nat.two_pow_add_eq_or_of_lt low,← Nat.two_pow_add_eq_or_of_lt (by rw [Nat.mul_one]; exact carried)]
        omega

theorem value_eq_zero_iff : ∀ l : List UInt32, value l = 0 ↔ ∀ w ∈ l, w = 0
  | [] => by simp
  | w :: ws => by
    rw [value_cons,List.forall_mem_cons,← value_eq_zero_iff ws,← UInt32.toNat_inj,UInt32.toNat_zero]
    omega

/-- Bit `m` of the number is bit `m % 32` of word `m / 32`. -/
theorem testBit_value : ∀ (l : List UInt32) (m : Nat), (value l).testBit m = (l.getD (m / 32) 0).toNat.testBit (m % 32)
  | [],m => by simp
  | w :: ws,m => by
    rw [value_cons,Nat.add_comm,Nat.testBit_two_pow_mul_add _ (UInt32.toNat_lt w)]
    by_cases low : m < 32
    · rw [if_pos low,Nat.div_eq_of_lt low,Nat.mod_eq_of_lt low]
      rfl
    · rw [if_neg low,testBit_value ws (m - 32),show m / 32 = (m - 32) / 32 + 1 by omega,List.getD_cons_succ,
        show m % 32 = (m - 32) % 32 by omega]

/-- Changing word `i` changes the number by the change of the word, in its place. -/
theorem value_modify (f : UInt32 → UInt32) :
    ∀ (l : List UInt32) (i : Nat), i < l.length →
      value (l.modify i f) + 2^(32 * i) * (l.getD i 0).toNat = value l + 2^(32 * i) * (f (l.getD i 0)).toNat
  | [],_,inside => absurd inside (by simp)
  | w :: ws,0,_ => by simp [List.modify]; ring
  | w :: ws,i + 1,inside => by
    have rest := value_modify f ws i (by simpa using inside)
    rw [List.modify_succ_cons,value_cons,value_cons,List.getD_cons_succ,show 32 * (i + 1) = 32 + 32 * i by ring,pow_add]
    calc w.toNat + 2^32 * value (ws.modify i f) + 2^32 * 2^(32 * i) * (ws.getD i 0).toNat
        = w.toNat + 2^32 * (value (ws.modify i f) + 2^(32 * i) * (ws.getD i 0).toNat) := by ring
      _ = w.toNat + 2^32 * (value ws + 2^(32 * i) * (f (ws.getD i 0)).toNat) := by rw [rest]
      _ = w.toNat + 2^32 * value ws + 2^32 * 2^(32 * i) * (f (ws.getD i 0)).toNat := by ring

theorem getD_modify (f : UInt32 → UInt32) (l : List UInt32) (i j : Nat) :
    (l.modify i f).getD j 0 = if i = j ∧ j < l.length then f (l.getD j 0) else l.getD j 0 := by
  simp only [List.getD_eq_getElem?_getD,List.getElem?_modify]
  by_cases inside : j < l.length
  · rw [List.getElem?_eq_getElem inside]
    by_cases same : i = j <;> simp [same,inside]
  · rw [List.getElem?_eq_none (by omega)]
    simp [inside]

end BitcoinPrivate.Limbs
