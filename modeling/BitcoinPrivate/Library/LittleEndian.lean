import Mathlib

/-!
Little-endian byte strings of natural numbers. A fixed width of bytes carries a
number modulo `256^w`, so two numbers below the bound have the same bytes only
when they are equal; and a list of byte strings of one fixed width determines
the list it was flattened from. The top bit of a byte, where formats keep a
sign or a flag, is read through the byte's value.
-/
namespace BitcoinPrivate.LittleEndian

/-- The `w` low bytes of `n`, least significant first. -/
def leBytes (n : Nat) : Nat → List UInt8
  | 0 => []
  | w+1 => UInt8.ofNat (n % 256) :: leBytes (n / 256) w

/-- The number the bytes carry, least significant first. -/
def leValue : List UInt8 → Nat
  | [] => 0
  | b :: bs => b.toNat + 256 * leValue bs

theorem leValue_append (a b : List UInt8) : leValue (a ++ b) = leValue a + 256^a.length * leValue b := by
  induction a with
  | nil => simp [leValue]
  | cons x xs ih =>
    simp only [List.cons_append, leValue, ih, List.length_cons, pow_succ]
    ring

theorem leValue_lt : ∀ bytes : List UInt8, leValue bytes < 256^bytes.length
  | [] => by simp [leValue]
  | b :: bs => by
    have low := b.toNat_lt
    have high := leValue_lt bs
    rw [leValue, List.length_cons, pow_succ]
    change b.toNat < 256 at low
    omega

@[simp] theorem leBytes_length (n w : Nat) : (leBytes n w).length = w := by
  induction w generalizing n with
  | zero => rfl
  | succ w ih => simp [leBytes,ih]

theorem leValue_leBytes (n w : Nat) : leValue (leBytes n w) = n % 256^w := by
  induction w generalizing n with
  | zero => simp [leBytes,leValue,Nat.mod_one]
  | succ w ih =>
    have low : (UInt8.ofNat (n % 256)).toNat = n % 256 := by simp
    rw [leBytes,leValue,low,ih,pow_succ,Nat.mul_comm (256^w) 256,Nat.mod_mul]

/-- The `k`-th byte of `n`. -/
theorem getD_leBytes : ∀ {n w k : Nat}, k < w → (leBytes n w).getD k 0 = UInt8.ofNat (n / 256^k % 256)
  | n, w+1, 0, _ => by simp [leBytes]
  | n, w+1, k+1, inside => by
    rw [leBytes,List.getD_cons_succ,getD_leBytes (by omega),Nat.div_div_eq_div_mul,pow_succ,Nat.mul_comm (256^k)]

/-- The bytes of a wider width: those of the narrower, then those of what is
    above them. -/
theorem leBytes_add (n a b : Nat) : leBytes n (a + b) = leBytes n a ++ leBytes (n / 256^a) b := by
  induction a generalizing n with
  | zero => simp [leBytes]
  | succ a ih =>
    rw [Nat.add_right_comm,leBytes,leBytes,ih,Nat.div_div_eq_div_mul,pow_succ,Nat.mul_comm (256^a)]
    rfl

/-- Bytes are the bytes of the number they carry, at their own width. -/
theorem leBytes_leValue : ∀ bytes : List UInt8, leBytes (leValue bytes) bytes.length = bytes
  | [] => rfl
  | b :: bs => by
    have low := b.toNat_lt
    change b.toNat < 256 at low
    rw [leValue,List.length_cons,leBytes,show (b.toNat + 256 * leValue bs) % 256 = b.toNat by omega,
      show (b.toNat + 256 * leValue bs) / 256 = leValue bs by omega,leBytes_leValue bs,UInt8.ofNat_toNat]

theorem leBytes_zero (w : Nat) : leBytes 0 w = List.replicate w 0 := by
  induction w with
  | zero => rfl
  | succ w ih => rw [leBytes,ih]; rfl

/-- Equal bytes carry equal numbers below the width's bound. -/
theorem leBytes_inj {n m w : Nat} (small : n < 256^w) (small' : m < 256^w) (same : leBytes n w = leBytes m w) :
    n = m := by
  have values := congrArg leValue same
  rwa [leValue_leBytes,leValue_leBytes,Nat.mod_eq_of_lt small,Nat.mod_eq_of_lt small'] at values

/-- Flattening byte strings of one width loses nothing. -/
theorem flatten_inj {w : Nat} :
    ∀ {xs ys : List (List UInt8)}, (∀ x ∈ xs, x.length = w) → (∀ y ∈ ys, y.length = w) → 0 < w →
      xs.length = ys.length → xs.flatten = ys.flatten → xs = ys
  | [], [], _, _, _, _, _ => rfl
  | x :: xs, y :: ys, wide, wide', positive, lengths, same => by
    have first : x.length = y.length := by
      rw [wide x List.mem_cons_self,wide' y List.mem_cons_self]
    rw [List.flatten_cons,List.flatten_cons] at same
    obtain ⟨head,tail⟩ := List.append_inj same first
    rw [head,flatten_inj (fun z mem => wide z (List.mem_cons_of_mem x mem))
      (fun z mem => wide' z (List.mem_cons_of_mem y mem)) positive (by simpa using lengths) tail]

/-- A map injective on the elements it meets loses nothing. -/
theorem map_inj_of_injOn {α β : Type} {f : α → β} {P : α → Prop} (inj : ∀ x y, P x → P y → f x = f y → x = y) :
    ∀ {xs ys : List α}, (∀ x ∈ xs, P x) → (∀ y ∈ ys, P y) → xs.map f = ys.map f → xs = ys
  | [], [], _, _, _ => rfl
  | [], _ :: _, _, _, same => by simp at same
  | _ :: _, [], _, _, same => by simp at same
  | x :: xs, y :: ys, fits, fits', same => by
    simp only [List.map_cons,List.cons.injEq] at same
    rw [inj x y (fits x List.mem_cons_self) (fits' y List.mem_cons_self) same.1,
      map_inj_of_injOn inj (fun z mem => fits z (List.mem_cons_of_mem x mem))
        (fun z mem => fits' z (List.mem_cons_of_mem y mem)) same.2]

/-- Of two lists that start with parts of one length, the first difference is
    in those parts or after them. -/
theorem append_lt_append_iff {α : Type} [LT α] :
    ∀ {A B C D : List α}, A.length = B.length → (A ++ C < B ++ D ↔ A < B ∨ A = B ∧ C < D)
  | [], [], _, _, _ => by simp [List.not_lt_nil]
  | a :: A, b :: B, C, D, same => by
    rw [List.cons_append,List.cons_append,List.cons_lt_cons_iff,List.cons_lt_cons_iff,
      append_lt_append_iff (by simpa using same),List.cons.injEq]
    tauto

/-- Read most significant byte first, the bytes of two numbers below the
    width's bound compare as the numbers do. -/
theorem reverse_leBytes_lt_iff : ∀ {w n m : Nat}, n < 256^w → m < 256^w →
    ((leBytes n w).reverse < (leBytes m w).reverse ↔ n < m)
  | 0, n, m, small, small' => by
    simp only [pow_zero,Nat.lt_one_iff] at small small'
    simp [leBytes,small,small',List.not_lt_nil]
  | w+1, n, m, small, small' => by
    have high : n / 256 < 256^w := by rw [pow_succ] at small; omega
    have high' : m / 256 < 256^w := by rw [pow_succ] at small'; omega
    have same : leBytes (n / 256) w = leBytes (m / 256) w ↔ n / 256 = m / 256 :=
      ⟨leBytes_inj high high',fun eq => eq ▸ rfl⟩
    have low : UInt8.ofNat (n % 256) < UInt8.ofNat (m % 256) ↔ n % 256 < m % 256 := by
      simp [UInt8.lt_iff_toNat_lt]
    rw [leBytes,leBytes,List.reverse_cons,List.reverse_cons,append_lt_append_iff (by simp),
      reverse_leBytes_lt_iff high high',List.reverse_inj,same,List.cons_lt_cons_iff,low]
    simp only [List.not_lt_nil,and_false,or_false]
    omega

/-! ## The top bit of a byte -/

theorem and_high_eq_zero_iff (b : UInt8) : b &&& 0x80 = 0 ↔ b.toNat < 0x80 := by
  have small := b.toNat_lt
  rw [← UInt8.toNat_inj, UInt8.toNat_and, UInt8.toNat_zero, show (0x80 : UInt8).toNat = 2^7 from rfl,
    Nat.and_two_pow, Nat.testBit_eq_decide_div_mod_eq]
  by_cases top : b.toNat / 2^7 % 2 = 1 <;> simp <;> omega

theorem toNat_and_low (b : UInt8) : (b &&& 0x7f).toNat = b.toNat % 0x80 := by
  rw [UInt8.toNat_and, show (0x7f : UInt8).toNat = 2^7 - 1 from rfl, Nat.and_two_pow_sub_one_eq_mod]

theorem toNat_or_high {b : UInt8} (low : b.toNat < 0x80) : (b ||| 0x80).toNat = b.toNat + 0x80 := by
  rw [UInt8.toNat_or, show (0x80 : UInt8).toNat = 1 <<< 7 from rfl, Nat.or_comm,
    ← Nat.shiftLeft_add_eq_or_of_lt low]
  omega

theorem eq_ofNat_of_toNat_eq {b : UInt8} {n : Nat} (same : b.toNat = n) : b = UInt8.ofNat n := by
  rw [← same, UInt8.ofNat_toNat]

end BitcoinPrivate.LittleEndian
