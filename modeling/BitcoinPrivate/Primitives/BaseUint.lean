import BitcoinPrivate.Library.Limbs
import BitcoinPrivate.Primitives.ArithUint256

/-!
`base_uint` of arith_uint256.h and arith_uint256.cpp word by word: the `WIDTH`
words `pn`, lowest first, and the loops of its operators over them. Each
operator computes the operation on the numbers the words stand for, modulo
`2^(32 * WIDTH)`: the carries of the sums and products run from word to word
and the last is dropped, the shifts move words and bits between neighbouring
words, and the division subtracts the divisor shifted to each bit from the top.
The division's loop keeps the invariant of long division (`divLoop_spec`):
the remainder and the divisor times the quotient make up the dividend, and the
remainder is below twice the shifted divisor.
-/
namespace BitcoinPrivate
open Limbs

/-- `base_uint<BITS>`: the `WIDTH = BITS / 32` words `pn`, lowest first. -/
structure base_uint (WIDTH : Nat) where
  pn : List UInt32
  length_pn : pn.length = WIDTH
  deriving DecidableEq

namespace base_uint
variable {WIDTH : Nat}

/-- The number the words stand for. -/
def value (a : base_uint WIDTH) : Nat := Limbs.value a.pn

theorem value_lt (a : base_uint WIDTH) : a.value < 2^(32 * WIDTH) := by
  have := Limbs.value_lt a.pn
  rwa [a.length_pn] at this

theorem ext_pn {a b : base_uint WIDTH} (same : a.pn = b.pn) : a = b := by
  cases a
  cases b
  simp only at same
  subst same
  rfl

/-! ## The loops over the words -/

/-- The loop of `operator+=`, from the lowest word, with the carry. -/
def addWords (carry : UInt64) : List UInt32 → List UInt32 → List UInt32
  | a :: as,b :: bs =>
    let n := carry + a.toUInt64 + b.toUInt64
    (n &&& 0xffffffff).toUInt32 :: addWords (n >>> 32) as bs
  | _,_ => []

/-- The loop of the prefix `operator++`: words wrap to zero until one does not. -/
def incrementWords : List UInt32 → List UInt32
  | [] => []
  | w :: ws => if w + 1 = 0 then 0 :: incrementWords ws else (w + 1) :: ws

/-- The loop of `operator*=(uint32_t)`. -/
def mulWords (b32 : UInt32) (carry : UInt64) : List UInt32 → List UInt32
  | [] => []
  | a :: as =>
    let n := carry + b32.toUInt64 * a.toUInt64
    (n &&& 0xffffffff).toUInt32 :: mulWords b32 (n >>> 32) as

/-- The inner loop of `operator*=(const base_uint&)`: the row of `pn[j]`
    added into the words of the product from word `j` on, as long as they last. -/
def mulRow (m : UInt32) (carry : UInt64) : List UInt32 → List UInt32 → List UInt32
  | a :: as,b :: bs =>
    let n := carry + a.toUInt64 + m.toUInt64 * b.toUInt64
    (n &&& 0xffffffff).toUInt32 :: mulRow m (n >>> 32) as bs
  | as,_ => as

/-- The outer loop of `operator*=(const base_uint&)` after row `j`. -/
def mulRows (x y : List UInt32) (a : List UInt32) (j : Nat) : List UInt32 :=
  a.take j ++ mulRow (x.getD j 0) 0 (a.drop j) y

/-- The body of the loop of `operator<<=` at word `i` of `a`, shifted by `k`
    words and `shift` bits: its low part goes into word `i + k` and, for a
    shift that is not one of whole words, its high part into word `i + k + 1`,
    while they are among the `WIDTH` words, as many as `a` has. -/
def shiftLeftWord (a : List UInt32) (k shift : Nat) (pn : List UInt32) (i : Nat) : List UInt32 :=
  let pn := if i + k + 1 < a.length ∧ shift ≠ 0 then pn.modify (i + k + 1) (· ||| (a.getD i 0 >>> (32 - shift).toUInt32))
    else pn
  if i + k < a.length then pn.modify (i + k) (· ||| (a.getD i 0 <<< shift.toUInt32)) else pn

/-- The body of the loop of `operator>>=` at word `i` of `a`: its high part
    goes into word `i - k` and, for a shift that is not one of whole words, its
    low part into word `i - k - 1`, where those are words. -/
def shiftRightWord (a : List UInt32) (k shift : Nat) (pn : List UInt32) (i : Nat) : List UInt32 :=
  let pn := if k + 1 ≤ i ∧ shift ≠ 0 then pn.modify (i - k - 1) (· ||| (a.getD i 0 <<< (32 - shift).toUInt32)) else pn
  if k ≤ i then pn.modify (i - k) (· ||| (a.getD i 0 >>> shift.toUInt32)) else pn

theorem length_foldl_of_length {f : List UInt32 → Nat → List UInt32} (keeps : ∀ pn i, (f pn i).length = pn.length) :
    ∀ (is : List Nat) (pn : List UInt32), (is.foldl f pn).length = pn.length
  | [],_ => rfl
  | i :: is,pn => by rw [List.foldl_cons,length_foldl_of_length keeps is,keeps]

theorem length_shiftLeftWord (a : List UInt32) (k shift : Nat) (pn : List UInt32) (i : Nat) :
    (shiftLeftWord a k shift pn i).length = pn.length := by
  unfold shiftLeftWord
  split_ifs <;> simp

theorem length_shiftRightWord (a : List UInt32) (k shift : Nat) (pn : List UInt32) (i : Nat) :
    (shiftRightWord a k shift pn i).length = pn.length := by
  unfold shiftRightWord
  split_ifs <;> simp

/-! ## The operators -/

instance : Zero (base_uint WIDTH) := ⟨⟨List.replicate WIDTH 0,by simp⟩⟩

/-- `base_uint(uint64_t b)`: the low and the high half in the two lowest words. -/
def ofUInt64 (b : UInt64) : base_uint WIDTH :=
  ⟨(List.range WIDTH).map fun i => if i = 0 then b.toUInt32 else if i = 1 then (b >>> 32).toUInt32 else 0,by simp⟩

theorem length_addWords : ∀ (carry : UInt64) (as bs : List UInt32), as.length = bs.length →
    (addWords carry as bs).length = as.length
  | _,[],[],_ => rfl
  | _,[],_ :: _,same => absurd same (by simp)
  | _,_ :: _,[],same => absurd same (by simp)
  | carry,a :: as,b :: bs,same => by
    simp only [addWords,List.length_cons]
    rw [length_addWords _ as bs (by simpa using same)]

theorem length_incrementWords : ∀ ws : List UInt32, (incrementWords ws).length = ws.length
  | [] => rfl
  | w :: ws => by
    unfold incrementWords
    split <;> simp [length_incrementWords ws]

theorem length_mulWords (b32 : UInt32) : ∀ (carry : UInt64) (as : List UInt32), (mulWords b32 carry as).length = as.length
  | _,[] => rfl
  | carry,a :: as => by simp [mulWords,length_mulWords b32 _ as]

theorem length_mulRow (m : UInt32) : ∀ (carry : UInt64) (as bs : List UInt32), (mulRow m carry as bs).length = as.length
  | _,[],_ => by simp [mulRow]
  | _,_ :: _,[] => by simp [mulRow]
  | carry,a :: as,b :: bs => by simp [mulRow,length_mulRow m _ as bs]

theorem length_mulRows (x y a : List UInt32) {j : Nat} (inside : j ≤ a.length) :
    (mulRows x y a j).length = a.length := by
  simp [mulRows,length_mulRow]
  omega

theorem length_foldl_mulRows (x y : List UInt32) :
    ∀ (js : List Nat) (a : List UInt32), (∀ j ∈ js, j ≤ a.length) → (js.foldl (mulRows x y) a).length = a.length
  | [],_,_ => rfl
  | j :: js,a,inside => by
    have first := length_mulRows x y a (inside j (by simp))
    rw [List.foldl_cons,length_foldl_mulRows x y js _ (fun j' mem => first ▸ inside j' (by simp [mem])),first]

/-- `operator+=`. -/
def add (a b : base_uint WIDTH) : base_uint WIDTH :=
  ⟨addWords 0 a.pn b.pn,by rw [length_addWords _ _ _ (a.length_pn.trans b.length_pn.symm),a.length_pn]⟩

instance : Add (base_uint WIDTH) := ⟨add⟩

/-- The prefix `operator++`. -/
def increment (a : base_uint WIDTH) : base_uint WIDTH := ⟨incrementWords a.pn,by rw [length_incrementWords,a.length_pn]⟩

/-- `operator~`. -/
def complement (a : base_uint WIDTH) : base_uint WIDTH := ⟨a.pn.map (~~~·),by simp [a.length_pn]⟩

instance : Complement (base_uint WIDTH) := ⟨complement⟩

/-- The unary `operator-`: the complement, incremented. -/
def neg (a : base_uint WIDTH) : base_uint WIDTH := increment (complement a)

/-- `operator-=`: the sum with the negation. -/
def sub (a b : base_uint WIDTH) : base_uint WIDTH := a + neg b

instance : Sub (base_uint WIDTH) := ⟨sub⟩

/-- `operator*=(uint32_t)`. -/
def mulWord (a : base_uint WIDTH) (b32 : UInt32) : base_uint WIDTH :=
  ⟨mulWords b32 0 a.pn,by rw [length_mulWords,a.length_pn]⟩

/-- `operator*=(const base_uint&)`: the rows of `pn[j]` for every `j`, into a
    product that starts at zero. -/
def mul (a b : base_uint WIDTH) : base_uint WIDTH :=
  ⟨(List.range WIDTH).foldl (mulRows a.pn b.pn) (List.replicate WIDTH 0),by
    rw [length_foldl_mulRows _ _ _ _ (fun j mem => by simp at mem; simp; omega),List.length_replicate]⟩

instance : Mul (base_uint WIDTH) := ⟨mul⟩

/-- `operator<<=`: `shift / 32` whole words and `shift % 32` bits. -/
def shiftLeft (a : base_uint WIDTH) (shift : Nat) : base_uint WIDTH :=
  ⟨(List.range WIDTH).foldl (shiftLeftWord a.pn (shift / 32) (shift % 32)) (List.replicate WIDTH 0),by
    rw [length_foldl_of_length (length_shiftLeftWord _ _ _),List.length_replicate]⟩

/-- `operator>>=`. -/
def shiftRight (a : base_uint WIDTH) (shift : Nat) : base_uint WIDTH :=
  ⟨(List.range WIDTH).foldl (shiftRightWord a.pn (shift / 32) (shift % 32)) (List.replicate WIDTH 0),by
    rw [length_foldl_of_length (length_shiftRightWord _ _ _),List.length_replicate]⟩

instance : HShiftLeft (base_uint WIDTH) Nat (base_uint WIDTH) := ⟨shiftLeft⟩

instance : HShiftRight (base_uint WIDTH) Nat (base_uint WIDTH) := ⟨shiftRight⟩

/-- The loop of `CompareTo`, from word `i - 1` down. -/
def compareFrom (a b : List UInt32) : Nat → Int
  | 0 => 0
  | i + 1 => if a.getD i 0 < b.getD i 0 then -1 else if a.getD i 0 > b.getD i 0 then 1 else compareFrom a b i

def CompareTo (a b : base_uint WIDTH) : Int := compareFrom a.pn b.pn WIDTH

/-- The outer loop of `bits`, from word `pos - 1` down; the inner loop is `highBit`. -/
def bitsFrom (pn : List UInt32) : Nat → Nat
  | 0 => 0
  | pos + 1 => if pn.getD pos 0 ≠ 0 then 32 * pos + highBit (pn.getD pos 0) 31 else bitsFrom pn pos

/-- `bits`: the position of the highest bit set, counted from one. -/
def bits (a : base_uint WIDTH) : Nat := bitsFrom a.pn WIDTH

/-- `pn[shift / 32] |= (1 << (shift & 31))`: bit `shift` of the quotient. The
    shift is of an `int`; at 31 it is the sign bit, which the `uint32_t` word
    takes as `2^31` (as `size()` of the incremental tree adds it, `shiftedOne`). -/
def setBit (q : base_uint WIDTH) (shift : Nat) : base_uint WIDTH :=
  ⟨q.pn.modify (shift / 32) (· ||| (1 : UInt32) <<< (shift &&& 31).toUInt32),by simp [q.length_pn]⟩

/-- One pass of the loop of `operator/=` at bit `shift`: the divisor, shifted
    there, is subtracted where it fits, and the quotient gets the bit. -/
def divStep (shift : Nat) (num div q : base_uint WIDTH) : base_uint WIDTH × base_uint WIDTH :=
  if CompareTo num div ≥ 0 then (num - div,setBit q shift) else (num,q)

/-- The loop of `operator/=` from bit `shift` down to bit zero, halving the
    divisor after each pass: the remainder and the quotient. -/
def divLoop (div : base_uint WIDTH) : Nat → base_uint WIDTH × base_uint WIDTH → base_uint WIDTH × base_uint WIDTH
  | 0,r => divStep 0 r.1 div r.2
  | shift + 1,r => divLoop (div >>> 1) shift (divStep (shift + 1) r.1 div r.2)

/-- `operator/=`: the divisor is shifted up to the dividend's top bit, and the
    loop runs from there. -/
def divide (a b : base_uint WIDTH) : Except String (base_uint WIDTH) :=
  let num_bits := bits a
  let div_bits := bits b
  if div_bits = 0 then throw "Division by zero"
  else if div_bits > num_bits then pure 0
  else
    let shift := num_bits - div_bits
    pure (divLoop (b <<< shift) shift (a,0)).2

/-- `EqualTo(uint64_t b)`: the words above the two lowest are zero, and those
    two are the halves of `b`. -/
def EqualTo (a : base_uint WIDTH) (b : UInt64) : Bool :=
  (List.range (WIDTH - 2)).all (fun i => a.pn.getD (i + 2) 0 == 0) &&
    (a.pn.getD 1 0).toUInt64 == b >>> 32 && (a.pn.getD 0 0).toUInt64 == b &&& 0xffffffff

/-! ## What the loops compute -/

/-- The low word and the carry of a sum of at most 64 bits. -/
theorem low_high (n : UInt64) : ((n &&& 0xffffffff).toUInt32).toNat = n.toNat % 2^32 ∧
    (n >>> 32).toNat = n.toNat / 2^32 := by
  constructor
  · rw [UInt64.toNat_toUInt32,UInt64.toNat_and,show (0xffffffff : UInt64).toNat = 2^32 - 1 from rfl,
      Nat.and_two_pow_sub_one_eq_mod,Nat.mod_mod_of_dvd _ (by norm_num)]
  · rw [UInt64.toNat_shiftRight,show (32 : UInt64).toNat % 64 = 32 from rfl,Nat.shiftRight_eq_div_pow]

theorem value_addWords : ∀ (carry : UInt64) (as bs : List UInt32), as.length = bs.length → carry.toNat < 2^32 →
    Limbs.value (addWords carry as bs) = (Limbs.value as + Limbs.value bs + carry.toNat) % 2^(32 * as.length)
  | carry,[],[],_,_ => by simp [addWords,Nat.mod_one]
  | _,[],_ :: _,same,_ => absurd same (by simp)
  | _,_ :: _,[],same,_ => absurd same (by simp)
  | carry,a :: as,b :: bs,same,small => by
    have ha := UInt32.toNat_lt a
    have hb := UInt32.toNat_lt b
    have sum : (carry + a.toUInt64 + b.toUInt64).toNat = carry.toNat + a.toNat + b.toNat := by
      rw [UInt64.toNat_add,UInt64.toNat_add,UInt32.toNat_toUInt64,UInt32.toNat_toUInt64]
      omega
    obtain ⟨low,high⟩ := low_high (carry + a.toUInt64 + b.toUInt64)
    rw [sum] at low high
    simp only [addWords,value_cons,List.length_cons]
    rw [value_addWords _ as bs (by simpa using same) (by rw [high]; omega),low,high,← cons_mod (Nat.mod_lt _ (by norm_num))]
    congr 1
    omega

theorem value_incrementWords : ∀ ws : List UInt32,
    Limbs.value (incrementWords ws) = (Limbs.value ws + 1) % 2^(32 * ws.length)
  | [] => by simp [incrementWords]
  | w :: ws => by
    have rest := Limbs.value_lt ws
    have hw := UInt32.toNat_lt w
    unfold incrementWords
    split_ifs with wraps
    · -- the word was all ones: it wraps to zero and the one carries on
      have top : w.toNat = 2^32 - 1 := by
        have := congrArg UInt32.toNat wraps
        rw [UInt32.toNat_add,UInt32.toNat_one,UInt32.toNat_zero] at this
        omega
      rw [value_cons,value_cons,value_incrementWords ws,List.length_cons,top,UInt32.toNat_zero,
        show 2^32 - 1 + 2^32 * Limbs.value ws + 1 = 0 + 2^32 * (Limbs.value ws + 1) by omega,cons_mod (by norm_num)]
    · have next : (w + 1).toNat = w.toNat + 1 := by
        rw [UInt32.toNat_add,UInt32.toNat_one]
        apply Nat.mod_eq_of_lt
        by_contra above
        exact wraps (UInt32.toNat_inj.mp (by rw [UInt32.toNat_add,UInt32.toNat_one,UInt32.toNat_zero]; omega))
      have below : w.toNat + 1 + 2^32 * Limbs.value ws < 2^(32 * (ws.length + 1)) := by
        have low : w.toNat + 1 < 2^32 := next ▸ UInt32.toNat_lt (w + 1)
        rw [show 32 * (ws.length + 1) = 32 + 32 * ws.length by ring,pow_add]
        calc w.toNat + 1 + 2^32 * Limbs.value ws < 2^32 * (Limbs.value ws + 1) := by omega
          _ ≤ 2^32 * 2^(32 * ws.length) := Nat.mul_le_mul_left _ rest
      rw [value_cons,value_cons,next,List.length_cons,Nat.mod_eq_of_lt (by omega)]
      omega

theorem value_complementWords : ∀ ws : List UInt32,
    Limbs.value (ws.map (~~~·)) = 2^(32 * ws.length) - 1 - Limbs.value ws
  | [] => rfl
  | w :: ws => by
    have rest := Limbs.value_lt ws
    have hw := UInt32.toNat_lt w
    rw [List.map_cons,value_cons,value_cons,value_complementWords ws,UInt32.toNat_not,List.length_cons,
      show 32 * (ws.length + 1) = 32 + 32 * ws.length by ring,pow_add]
    simp only [UInt32.size]
    generalize 2^(32 * ws.length) = P at rest ⊢
    rw [Nat.mul_sub,Nat.mul_sub]
    have : 2^32 * Limbs.value ws ≤ 2^32 * P - 2^32 := by
      rw [← Nat.mul_sub_one]
      exact Nat.mul_le_mul_left _ (by omega)
    omega

theorem value_mulWords (b32 : UInt32) : ∀ (carry : UInt64) (as : List UInt32), carry.toNat < 2^32 →
    Limbs.value (mulWords b32 carry as) = (Limbs.value as * b32.toNat + carry.toNat) % 2^(32 * as.length)
  | carry,[],_ => by simp [mulWords,Nat.mod_one]
  | carry,a :: as,small => by
    have ha := UInt32.toNat_lt a
    have hb := UInt32.toNat_lt b32
    have product : b32.toNat * a.toNat ≤ (2^32 - 1) * (2^32 - 1) := Nat.mul_le_mul (by omega) (by omega)
    have sum : (carry + b32.toUInt64 * a.toUInt64).toNat = carry.toNat + b32.toNat * a.toNat := by
      rw [UInt64.toNat_add,UInt64.toNat_mul,UInt32.toNat_toUInt64,UInt32.toNat_toUInt64,
        Nat.mod_eq_of_lt (by omega : b32.toNat * a.toNat < 2^64)]
      omega
    obtain ⟨low,high⟩ := low_high (carry + b32.toUInt64 * a.toUInt64)
    rw [sum] at low high
    simp only [mulWords,value_cons,List.length_cons]
    rw [value_mulWords b32 _ as (by rw [high]; omega),low,high,← cons_mod (Nat.mod_lt _ (by norm_num))]
    congr 1
    have split := Nat.div_add_mod (carry.toNat + b32.toNat * a.toNat) (2^32)
    rw [Nat.add_mul]
    linarith

theorem value_mulRow (m : UInt32) : ∀ (carry : UInt64) (as bs : List UInt32), as.length ≤ bs.length → carry.toNat < 2^32 →
    Limbs.value (mulRow m carry as bs) = (Limbs.value as + m.toNat * Limbs.value bs + carry.toNat) % 2^(32 * as.length)
  | carry,[],_,_,_ => by simp [mulRow,Nat.mod_one]
  | _,_ :: _,[],short,_ => absurd short (by simp)
  | carry,a :: as,b :: bs,short,small => by
    have ha := UInt32.toNat_lt a
    have hb := UInt32.toNat_lt b
    have hm := UInt32.toNat_lt m
    have product : m.toNat * b.toNat ≤ (2^32 - 1) * (2^32 - 1) := Nat.mul_le_mul (by omega) (by omega)
    have sum : (carry + a.toUInt64 + m.toUInt64 * b.toUInt64).toNat = carry.toNat + a.toNat + m.toNat * b.toNat := by
      rw [UInt64.toNat_add,UInt64.toNat_add,UInt64.toNat_mul,UInt32.toNat_toUInt64,UInt32.toNat_toUInt64,
        UInt32.toNat_toUInt64,Nat.mod_eq_of_lt (by omega : m.toNat * b.toNat < 2^64)]
      omega
    obtain ⟨low,high⟩ := low_high (carry + a.toUInt64 + m.toUInt64 * b.toUInt64)
    rw [sum] at low high
    simp only [mulRow,value_cons,List.length_cons]
    rw [value_mulRow m _ as bs (by simpa using short) (by rw [high]; omega),low,high,
      ← cons_mod (Nat.mod_lt _ (by norm_num))]
    congr 1
    have split := Nat.div_add_mod (carry.toNat + a.toNat + m.toNat * b.toNat) (2^32)
    linarith

/-- Row `j` adds `pn[j]` times `b`, in place `j`, to the product so far. -/
theorem value_mulRows (x y a : List UInt32) {j : Nat} (inside : j < a.length) (wide : y.length = a.length) :
    Limbs.value (mulRows x y a j) = (Limbs.value a + 2^(32 * j) * ((x.getD j 0).toNat * Limbs.value y)) % 2^(32 * a.length) := by
  have low := Limbs.value_lt (a.take j)
  rw [List.length_take,Nat.min_eq_left inside.le] at low
  have whole := value_append (a.take j) (a.drop j)
  rw [List.take_append_drop,List.length_take,Nat.min_eq_left inside.le] at whole
  unfold mulRows
  rw [value_append,List.length_take,Nat.min_eq_left inside.le,
    value_mulRow _ _ _ _ (by simp [wide]) (by simp),List.length_drop,UInt64.toNat_zero,Nat.add_zero,
    ← add_mul_mod low,show 32 * j + 32 * (a.length - j) = 32 * a.length by omega,whole]
  congr 1
  ring

theorem value_foldl_mulRows (x y : List UInt32) {n : Nat} (wide : y.length = n) :
    ∀ j, j ≤ n → Limbs.value ((List.range j).foldl (mulRows x y) (List.replicate n 0)) =
      Limbs.value (x.take j) * Limbs.value y % 2^(32 * n)
  | 0,_ => by simp
  | j + 1,inside => by
    have length : ((List.range j).foldl (mulRows x y) (List.replicate n 0)).length = n := by
      rw [length_foldl_mulRows _ _ _ _ (fun j' mem => by simp at mem; simp; omega),List.length_replicate]
    rw [List.range_succ,List.foldl_append,List.foldl_cons,List.foldl_nil,
      value_mulRows _ _ _ (by omega) (by rw [length,wide]),length,value_foldl_mulRows x y wide j (by omega),
      value_take_succ,Nat.mod_add_mod]
    congr 1
    ring

theorem value_add (a b : base_uint WIDTH) : (a + b).value = (a.value + b.value) % 2^(32 * WIDTH) := by
  show Limbs.value (addWords 0 a.pn b.pn) = _
  rw [value_addWords _ _ _ (a.length_pn.trans b.length_pn.symm) (by simp),a.length_pn]
  rfl

theorem value_increment (a : base_uint WIDTH) : (increment a).value = (a.value + 1) % 2^(32 * WIDTH) := by
  show Limbs.value (incrementWords a.pn) = _
  rw [value_incrementWords,a.length_pn]
  rfl

theorem value_complement (a : base_uint WIDTH) : (~~~a).value = 2^(32 * WIDTH) - 1 - a.value := by
  show Limbs.value (a.pn.map (~~~·)) = _
  rw [value_complementWords,a.length_pn]
  rfl

theorem value_neg (a : base_uint WIDTH) : (neg a).value = (2^(32 * WIDTH) - a.value) % 2^(32 * WIDTH) := by
  have below := a.value_lt
  unfold neg
  rw [value_increment]
  show ((~~~a).value + 1) % _ = _
  rw [value_complement]
  congr 1
  omega

/-- A difference that does not go below zero is exact. -/
theorem value_sub {a b : base_uint WIDTH} (le : b.value ≤ a.value) : (a - b).value = a.value - b.value := by
  have below := a.value_lt
  show (a + neg b).value = _
  rw [value_add,value_neg,Nat.add_mod_mod,show a.value + (2^(32 * WIDTH) - b.value) = (a.value - b.value) + 2^(32 * WIDTH) by
    have := b.value_lt; omega,Nat.add_mod_right,Nat.mod_eq_of_lt (by omega)]

theorem value_mulWord (a : base_uint WIDTH) (b32 : UInt32) : (mulWord a b32).value = a.value * b32.toNat % 2^(32 * WIDTH) := by
  show Limbs.value (mulWords b32 0 a.pn) = _
  rw [value_mulWords _ _ _ (by simp),a.length_pn,UInt64.toNat_zero,Nat.add_zero]
  rfl

theorem value_mul (a b : base_uint WIDTH) : (a * b).value = a.value * b.value % 2^(32 * WIDTH) := by
  show Limbs.value ((List.range WIDTH).foldl (mulRows a.pn b.pn) (List.replicate WIDTH 0)) = _
  rw [value_foldl_mulRows _ _ b.length_pn WIDTH le_rfl,List.take_of_length_le (le_of_eq a.length_pn)]
  rfl

/-! ## The shifts, bit by bit -/

theorem testBit_getD_modify_or (pn : List UInt32) (t : UInt32) (i j b : Nat) :
    ((pn.modify i (· ||| t)).getD j 0).toNat.testBit b = true ↔
      (pn.getD j 0).toNat.testBit b = true ∨ (j = i ∧ j < pn.length ∧ t.toNat.testBit b = true) := by
  rw [getD_modify]
  split_ifs with here
  · rw [UInt32.toNat_or,Nat.testBit_or,Bool.or_eq_true]
    simp [here]
  · constructor
    · exact Or.inl
    · rintro (old | ⟨same,inside,_⟩)
      · exact old
      · exact absurd ⟨same.symm,inside⟩ here

/-- One pass of the loop of `operator<<=` sets the bits of its two parts in their words. -/
theorem testBit_shiftLeftWord (a pn : List UInt32) (k sh i j b : Nat) (same : pn.length = a.length) :
    ((shiftLeftWord a k sh pn i).getD j 0).toNat.testBit b = true ↔
      (pn.getD j 0).toNat.testBit b = true ∨
        (j = i + k + 1 ∧ j < a.length ∧ sh ≠ 0 ∧ (a.getD i 0 >>> (32 - sh).toUInt32).toNat.testBit b = true) ∨
        (j = i + k ∧ j < a.length ∧ (a.getD i 0 <<< sh.toUInt32).toNat.testBit b = true) := by
  have lengthHigh : (if i + k + 1 < a.length ∧ sh ≠ 0 then pn.modify (i + k + 1) (· ||| (a.getD i 0 >>> (32 - sh).toUInt32))
      else pn).length = a.length := by
    split_ifs <;> simp [same]
  unfold shiftLeftWord
  by_cases high : i + k + 1 < a.length ∧ sh ≠ 0
  · have whole := high.2
    by_cases low : i + k < a.length
    · rw [if_pos low,testBit_getD_modify_or,lengthHigh,if_pos high,testBit_getD_modify_or,same]
      grind
    · have missed : ¬(j = i + k ∧ j < a.length) := fun ⟨at_low,inside⟩ => low (at_low ▸ inside)
      rw [if_neg low,if_pos high,testBit_getD_modify_or,same]
      grind
  · have missed : ¬(j = i + k + 1 ∧ j < a.length ∧ sh ≠ 0) := fun ⟨at_high,inside,whole⟩ => high ⟨at_high ▸ inside,whole⟩
    by_cases low : i + k < a.length
    · rw [if_pos low,testBit_getD_modify_or,lengthHigh,if_neg high]
      grind
    · have missedLow : ¬(j = i + k ∧ j < a.length) := fun ⟨at_low,inside⟩ => low (at_low ▸ inside)
      rw [if_neg low,if_neg high]
      grind

theorem testBit_shiftLeftWords (a : List UInt32) (k sh j b : Nat) : ∀ n,
    (((List.range n).foldl (shiftLeftWord a k sh) (List.replicate a.length 0)).getD j 0).toNat.testBit b = true ↔
      ∃ i < n, (j = i + k + 1 ∧ j < a.length ∧ sh ≠ 0 ∧ (a.getD i 0 >>> (32 - sh).toUInt32).toNat.testBit b = true) ∨
        (j = i + k ∧ j < a.length ∧ (a.getD i 0 <<< sh.toUInt32).toNat.testBit b = true)
  | 0 => by simp
  | n + 1 => by
    have length := length_foldl_of_length (length_shiftLeftWord a k sh) (List.range n) (List.replicate a.length 0)
    rw [List.range_succ,List.foldl_append,List.foldl_cons,List.foldl_nil,
      testBit_shiftLeftWord _ _ _ _ _ _ _ (by rw [length,List.length_replicate]),testBit_shiftLeftWords a k sh j b n]
    constructor
    · rintro (⟨i,lt,hit⟩ | high | low)
      · exact ⟨i,by omega,hit⟩
      · exact ⟨n,by omega,Or.inl high⟩
      · exact ⟨n,by omega,Or.inr low⟩
    · rintro ⟨i,lt,hit⟩
      by_cases last : i = n
      · subst last
        exact Or.inr hit
      · exact Or.inl ⟨i,by omega,hit⟩

theorem value_shiftLeft (a : base_uint WIDTH) (s : Nat) : (a <<< s).value = a.value * 2^s % 2^(32 * WIDTH) := by
  apply Nat.eq_of_testBit_eq
  intro m
  have words := a.length_pn
  have start : List.replicate WIDTH (0 : UInt32) = List.replicate a.pn.length 0 := by rw [words]
  show (Limbs.value ((List.range WIDTH).foldl (shiftLeftWord a.pn (s / 32) (s % 32)) (List.replicate WIDTH 0))).testBit m = _
  rw [testBit_value,Nat.testBit_mod_two_pow,← Nat.shiftLeft_eq,Nat.testBit_shiftLeft,value,testBit_value,start,
    Bool.eq_iff_iff,testBit_shiftLeftWords,words]
  simp only [Bool.and_eq_true,decide_eq_true_eq]
  constructor
  · rintro ⟨i,lt,⟨at_word,inside,whole,bit⟩ | ⟨at_word,inside,bit⟩⟩
    · -- the high part of word `i`: bits below the shift, from the word below
      rw [testBit_shiftRight_word _ (by omega)] at bit
      have low : m % 32 < s % 32 := by
        by_contra above
        rw [testBit_word_high _ (by omega)] at bit
        exact absurd bit (by simp)
      refine ⟨by omega,by omega,?_⟩
      rw [show (m - s) / 32 = i by omega,show (m - s) % 32 = m % 32 + (32 - s % 32) by omega]
      exact bit
    · rw [testBit_shiftLeft_word _ (by omega) (by omega)] at bit
      simp only [Bool.and_eq_true,decide_eq_true_eq] at bit
      refine ⟨by omega,by omega,?_⟩
      rw [show (m - s) / 32 = i by omega,show (m - s) % 32 = m % 32 - s % 32 by omega]
      exact bit.2
  · rintro ⟨inside,above,bit⟩
    by_cases low : m % 32 < s % 32
    · -- a bit below the shift comes from the high part of the word below
      refine ⟨(m - s) / 32,by omega,Or.inl ⟨by omega,by omega,by omega,?_⟩⟩
      rw [testBit_shiftRight_word _ (by omega),show m % 32 + (32 - s % 32) = (m - s) % 32 by omega]
      exact bit
    · refine ⟨(m - s) / 32,by omega,Or.inr ⟨by omega,by omega,?_⟩⟩
      rw [testBit_shiftLeft_word _ (by omega) (by omega),show m % 32 - s % 32 = (m - s) % 32 by omega,bit]
      simp [show s % 32 ≤ m % 32 by omega]

/-- One pass of the loop of `operator>>=` sets the bits of its two parts in their words. -/
theorem testBit_shiftRightWord (a pn : List UInt32) (k sh i j b : Nat) (same : pn.length = a.length) :
    ((shiftRightWord a k sh pn i).getD j 0).toNat.testBit b = true ↔
      (pn.getD j 0).toNat.testBit b = true ∨
        (i = j + k + 1 ∧ j < a.length ∧ sh ≠ 0 ∧ (a.getD i 0 <<< (32 - sh).toUInt32).toNat.testBit b = true) ∨
        (i = j + k ∧ j < a.length ∧ (a.getD i 0 >>> sh.toUInt32).toNat.testBit b = true) := by
  have lengthLow : (if k + 1 ≤ i ∧ sh ≠ 0 then pn.modify (i - k - 1) (· ||| (a.getD i 0 <<< (32 - sh).toUInt32))
      else pn).length = a.length := by
    split_ifs <;> simp [same]
  unfold shiftRightWord
  by_cases low : k + 1 ≤ i ∧ sh ≠ 0
  · have whole := low.2
    have place : j = i - k - 1 ↔ i = j + k + 1 := by omega
    by_cases high : k ≤ i
    · have placeHigh : j = i - k ↔ i = j + k := by omega
      rw [if_pos high,testBit_getD_modify_or,lengthLow,if_pos low,testBit_getD_modify_or,same,place,placeHigh]
      grind
    · rw [if_neg high,if_pos low,testBit_getD_modify_or,same,place]
      have missed : ¬i = j + k := by omega
      grind
  · have missed : ¬(i = j + k + 1 ∧ j < a.length ∧ sh ≠ 0) := fun ⟨at_low,_,whole⟩ => low ⟨by omega,whole⟩
    by_cases high : k ≤ i
    · have placeHigh : j = i - k ↔ i = j + k := by omega
      rw [if_pos high,testBit_getD_modify_or,lengthLow,if_neg low,placeHigh]
      grind
    · have missedHigh : ¬i = j + k := by omega
      rw [if_neg high,if_neg low]
      grind

theorem testBit_shiftRightWords (a : List UInt32) (k sh j b : Nat) : ∀ n,
    (((List.range n).foldl (shiftRightWord a k sh) (List.replicate a.length 0)).getD j 0).toNat.testBit b = true ↔
      ∃ i < n, (i = j + k + 1 ∧ j < a.length ∧ sh ≠ 0 ∧ (a.getD i 0 <<< (32 - sh).toUInt32).toNat.testBit b = true) ∨
        (i = j + k ∧ j < a.length ∧ (a.getD i 0 >>> sh.toUInt32).toNat.testBit b = true)
  | 0 => by simp
  | n + 1 => by
    have length := length_foldl_of_length (length_shiftRightWord a k sh) (List.range n) (List.replicate a.length 0)
    rw [List.range_succ,List.foldl_append,List.foldl_cons,List.foldl_nil,
      testBit_shiftRightWord _ _ _ _ _ _ _ (by rw [length,List.length_replicate]),testBit_shiftRightWords a k sh j b n]
    constructor
    · rintro (⟨i,lt,hit⟩ | low | high)
      · exact ⟨i,by omega,hit⟩
      · exact ⟨n,by omega,Or.inl low⟩
      · exact ⟨n,by omega,Or.inr high⟩
    · rintro ⟨i,lt,hit⟩
      by_cases last : i = n
      · subst last
        exact Or.inr hit
      · exact Or.inl ⟨i,by omega,hit⟩

theorem value_shiftRight (a : base_uint WIDTH) (s : Nat) : (a >>> s).value = a.value / 2^s := by
  apply Nat.eq_of_testBit_eq
  intro m
  have words := a.length_pn
  have start : List.replicate WIDTH (0 : UInt32) = List.replicate a.pn.length 0 := by rw [words]
  show (Limbs.value ((List.range WIDTH).foldl (shiftRightWord a.pn (s / 32) (s % 32)) (List.replicate WIDTH 0))).testBit m = _
  rw [testBit_value,Nat.testBit_div_two_pow,value,testBit_value,start,Bool.eq_iff_iff,testBit_shiftRightWords,words]
  constructor
  · rintro ⟨i,lt,⟨at_word,inside,whole,bit⟩ | ⟨at_word,inside,bit⟩⟩
    · -- the low part of word `i`: the top bits of the word below it
      rw [testBit_shiftLeft_word _ (by omega) (by omega)] at bit
      simp only [Bool.and_eq_true,decide_eq_true_eq] at bit
      rw [show (m + s) / 32 = i by omega,show (m + s) % 32 = m % 32 - (32 - s % 32) by omega]
      exact bit.2
    · rw [testBit_shiftRight_word _ (by omega)] at bit
      have low : m % 32 + s % 32 < 32 := by
        by_contra above
        rw [testBit_word_high _ (by omega)] at bit
        exact absurd bit (by simp)
      rw [show (m + s) / 32 = i by omega,show (m + s) % 32 = m % 32 + s % 32 by omega]
      exact bit
  · intro bit
    have inside : (m + s) / 32 < WIDTH := by
      by_contra beyond
      rw [List.getD_eq_default _ _ (by omega),UInt32.toNat_zero,Nat.zero_testBit] at bit
      exact absurd bit (by simp)
    by_cases low : m % 32 + s % 32 < 32
    · refine ⟨(m + s) / 32,inside,Or.inr ⟨by omega,by omega,?_⟩⟩
      rw [testBit_shiftRight_word _ (by omega),show m % 32 + s % 32 = (m + s) % 32 by omega]
      exact bit
    · -- a bit that the shift carries past the word boundary comes from the word above
      refine ⟨(m + s) / 32,inside,Or.inl ⟨by omega,by omega,by omega,?_⟩⟩
      rw [testBit_shiftLeft_word _ (by omega) (by omega),show m % 32 - (32 - s % 32) = (m + s) % 32 by omega,bit]
      simp [show 32 - s % 32 ≤ m % 32 by omega]

/-! ## Comparison and bit length -/

/-- The comparison from the top word decides the order of the numbers below it. -/
theorem compareFrom_eq (a b : List UInt32) : ∀ n, compareFrom a b n =
    if Limbs.value (a.take n) < Limbs.value (b.take n) then -1
    else if Limbs.value (b.take n) < Limbs.value (a.take n) then 1 else 0
  | 0 => by simp [compareFrom]
  | n + 1 => by
    have ha := value_take_lt a n
    have hb := value_take_lt b n
    rw [compareFrom,value_take_succ,value_take_succ,compareFrom_eq a b n]
    generalize Limbs.value (a.take n) = A at ha ⊢
    generalize Limbs.value (b.take n) = B at hb ⊢
    generalize 2^(32 * n) = P at ha hb ⊢
    by_cases lt : a.getD n 0 < b.getD n 0
    · -- the top words decide: the words below cannot make up a difference of one
      rw [UInt32.lt_iff_toNat_lt] at lt
      have less : A + P * (a.getD n 0).toNat < B + P * (b.getD n 0).toNat := calc
        A + P * (a.getD n 0).toNat < P * ((a.getD n 0).toNat + 1) := by rw [Nat.mul_add_one]; omega
        _ ≤ P * (b.getD n 0).toNat := Nat.mul_le_mul_left _ lt
        _ ≤ B + P * (b.getD n 0).toNat := Nat.le_add_left _ _
      rw [if_pos (UInt32.lt_iff_toNat_lt.mpr lt),if_pos less]
    · by_cases gt : a.getD n 0 > b.getD n 0
      · rw [gt_iff_lt,UInt32.lt_iff_toNat_lt] at gt
        have more : B + P * (b.getD n 0).toNat < A + P * (a.getD n 0).toNat := calc
          B + P * (b.getD n 0).toNat < P * ((b.getD n 0).toNat + 1) := by rw [Nat.mul_add_one]; omega
          _ ≤ P * (a.getD n 0).toNat := Nat.mul_le_mul_left _ gt
          _ ≤ A + P * (a.getD n 0).toNat := Nat.le_add_left _ _
        rw [if_neg lt,if_pos (UInt32.lt_iff_toNat_lt.mpr gt),if_neg (by omega),if_pos more]
      · -- equal top words: the words below decide
        have same : a.getD n 0 = b.getD n 0 := by
          rw [UInt32.lt_iff_toNat_lt] at lt
          rw [gt_iff_lt,UInt32.lt_iff_toNat_lt] at gt
          exact UInt32.toNat_inj.mp (by omega)
        rw [if_neg lt,if_neg gt,same]
        by_cases below : A < B
        · rw [if_pos below,if_pos (by omega)]
        · by_cases above : B < A
          · rw [if_neg below,if_pos above,if_neg (by omega),if_pos (by omega)]
          · rw [if_neg below,if_neg above,if_neg (by omega),if_neg (by omega)]

theorem CompareTo_eq (a b : base_uint WIDTH) :
    CompareTo a b = if a.value < b.value then -1 else if b.value < a.value then 1 else 0 := by
  unfold CompareTo
  rw [compareFrom_eq,List.take_of_length_le (le_of_eq a.length_pn),List.take_of_length_le (le_of_eq b.length_pn)]
  rfl

theorem CompareTo_nonneg_iff (a b : base_uint WIDTH) : CompareTo a b ≥ 0 ↔ b.value ≤ a.value := by
  rw [CompareTo_eq]
  split_ifs <;> omega

/-- The loop of `bits` finds the bit length of the words below `pos`. -/
theorem bitsFrom_eq (l : List UInt32) : ∀ pos, bitsFrom l pos = (Limbs.value (l.take pos)).size
  | 0 => by simp [bitsFrom]
  | pos + 1 => by
    have below := value_take_lt l pos
    rw [bitsFrom,value_take_succ]
    split_ifs with set
    · have nonzero : (l.getD pos 0).toNat ≠ 0 := fun zero => set (UInt32.toNat_inj.mp (by rw [zero,UInt32.toNat_zero]))
      have top : (Limbs.value (l.take pos) + 2^(32 * pos) * (l.getD pos 0).toNat) / 2^(32 * pos) = (l.getD pos 0).toNat := by
        rw [Nat.add_mul_div_left _ _ (Nat.two_pow_pos _),Nat.div_eq_of_lt below,Nat.zero_add]
      have split := size_eq_add_of_div (show (Limbs.value (l.take pos) + 2^(32 * pos) * (l.getD pos 0).toNat) /
        2^(32 * pos) ≠ 0 by rw [top]; exact nonzero)
      rw [highBit_eq_size _ (by norm_num) nonzero (UInt32.toNat_lt _),split,top]
    · have zero : l.getD pos 0 = 0 := by simpa using set
      rw [zero,UInt32.toNat_zero,Nat.mul_zero,Nat.add_zero,bitsFrom_eq l pos]

theorem bits_eq (a : base_uint WIDTH) : bits a = a.value.size := by
  unfold bits
  rw [bitsFrom_eq,List.take_of_length_le (le_of_eq a.length_pn)]
  rfl

/-! ## Division -/

@[simp] theorem value_zero : (0 : base_uint WIDTH).value = 0 := value_replicate_zero WIDTH

/-- Setting a clear bit of the quotient adds its power of two. -/
theorem value_setBit {q : base_uint WIDTH} {shift : Nat} (inside : shift < 32 * WIDTH)
    (clear : q.value.testBit shift = false) : (setBit q shift).value = q.value + 2^shift := by
  have word : shift / 32 < q.pn.length := by rw [q.length_pn]; omega
  have and31 : shift &&& 31 = shift % 32 := Nat.and_two_pow_sub_one_eq_mod shift 5
  have mask : ((1 : UInt32) <<< (shift &&& 31).toUInt32).toNat = 2^(shift % 32) := by
    rw [and31,UInt32.toNat_shiftLeft,UInt32.toNat_one,Nat.toUInt32,UInt32.toNat_ofNat',
      Nat.mod_eq_of_lt (show shift % 32 < 2^32 by omega),Nat.mod_eq_of_lt (show shift % 32 < 32 by omega),
      Nat.one_shiftLeft,Nat.mod_eq_of_lt (Nat.pow_lt_pow_right (by norm_num) (by omega))]
  have bitClear : (q.pn.getD (shift / 32) 0).toNat.testBit (shift % 32) = false := by rw [← testBit_value]; exact clear
  have change := value_modify (· ||| (1 : UInt32) <<< (shift &&& 31).toUInt32) q.pn (shift / 32) word
  rw [UInt32.toNat_or,mask,or_two_pow_of_testBit bitClear,Nat.mul_add,← pow_add,
    show 32 * (shift / 32) + shift % 32 = shift by omega] at change
  show Limbs.value (q.pn.modify (shift / 32) _) = _
  unfold value
  omega

/-- One pass keeps the invariant of long division: the remainder and the
    divisor times the quotient make the dividend, the remainder stays below
    twice the shifted divisor before the pass and below it after, and the
    quotient has no bit at or below the pass's. -/
theorem divStep_spec {D A shift : Nat} (num div q : base_uint WIDTH) (divEq : div.value = D * 2^shift)
    (sum : num.value + D * q.value = A) (below : num.value < 2 * (D * 2^shift)) (clear : q.value % 2^(shift + 1) = 0)
    (inside : shift < 32 * WIDTH) :
    (divStep shift num div q).1.value + D * (divStep shift num div q).2.value = A ∧
      (divStep shift num div q).1.value < D * 2^shift ∧ (divStep shift num div q).2.value % 2^shift = 0 := by
  have lower : q.value % 2^shift = 0 := by
    rw [← Nat.mod_mod_of_dvd q.value (pow_dvd_pow 2 (Nat.le_succ shift)),clear,Nat.zero_mod]
  unfold divStep
  split_ifs with fits
  · -- the shifted divisor fits: subtract it, and set the quotient's bit
    rw [CompareTo_nonneg_iff,divEq] at fits
    have bitClear : q.value.testBit shift = false := by
      have := Nat.testBit_mod_two_pow q.value (shift + 1) shift
      rw [clear,Nat.zero_testBit] at this
      simpa using this.symm
    rw [value_sub (by rw [divEq]; exact fits),value_setBit inside bitClear,divEq,Nat.mul_add]
    refine ⟨by omega,by omega,?_⟩
    rw [Nat.add_mod_right,lower]
  · rw [CompareTo_nonneg_iff,divEq] at fits
    exact ⟨sum,Nat.lt_of_not_le fits,lower⟩

/-- The loop keeps the invariant of long division down to bit zero, where the
    remainder is below the divisor. -/
theorem divLoop_spec {D A : Nat} : ∀ (shift : Nat) (div : base_uint WIDTH) (r : base_uint WIDTH × base_uint WIDTH),
    div.value = D * 2^shift → r.1.value + D * r.2.value = A → r.1.value < 2 * (D * 2^shift) →
      r.2.value % 2^(shift + 1) = 0 → shift < 32 * WIDTH →
      (divLoop div shift r).1.value + D * (divLoop div shift r).2.value = A ∧ (divLoop div shift r).1.value < D
  | 0,div,r,divEq,sum,below,clear,inside => by
    obtain ⟨sum',below',_⟩ := divStep_spec r.1 div r.2 divEq sum below clear inside
    show (divStep 0 r.1 div r.2).1.value + D * (divStep 0 r.1 div r.2).2.value = A ∧ (divStep 0 r.1 div r.2).1.value < D
    exact ⟨sum',by simpa using below'⟩
  | shift + 1,div,r,divEq,sum,below,clear,inside => by
    obtain ⟨sum',below',clear'⟩ := divStep_spec r.1 div r.2 divEq sum below clear inside
    have halved : (div >>> 1).value = D * 2^shift := by
      rw [value_shiftRight,divEq,pow_succ,pow_one,← Nat.mul_assoc,Nat.mul_div_cancel _ (by norm_num)]
    have double : D * 2^(shift + 1) = 2 * (D * 2^shift) := by rw [pow_succ]; ring
    exact divLoop_spec shift (div >>> 1) _ halved sum' (by rw [← double]; exact below') clear' (by omega)

/-- `operator/=` is the quotient rounded down, and throws for a divisor of zero. -/
theorem divide_spec (a b : base_uint WIDTH) :
    (b.value = 0 → divide a b = .error "Division by zero") ∧
      (b.value ≠ 0 → ∃ q, divide a b = .ok q ∧ q.value = a.value / b.value) := by
  have sizeA : a.value.size ≤ 32 * WIDTH := Nat.size_le.mpr a.value_lt
  constructor
  · intro zero
    unfold divide
    rw [if_pos (by rw [bits_eq,zero,Nat.size_zero])]
    rfl
  · intro nonzero
    have sizeB : 0 < b.value.size := Nat.size_pos.mpr (Nat.pos_of_ne_zero nonzero)
    have topB : 2^(b.value.size - 1) ≤ b.value := Nat.lt_size.mp (by omega)
    have topA := Nat.lt_size_self a.value
    unfold divide
    simp only [bits_eq]
    rw [if_neg (by omega)]
    split_ifs with short
    · -- the divisor has more bits: the quotient is zero
      refine ⟨0,rfl,?_⟩
      rw [value_zero,eq_comm,Nat.div_eq_zero_iff_lt (Nat.pos_of_ne_zero nonzero)]
      exact lt_of_lt_of_le topA (le_trans (Nat.pow_le_pow_right (by norm_num) (by omega)) topB)
    · refine ⟨_,rfl,?_⟩
      have shifted : b.value * 2^(a.value.size - b.value.size) < 2^(32 * WIDTH) := calc
        b.value * 2^(a.value.size - b.value.size) < 2^b.value.size * 2^(a.value.size - b.value.size) :=
          Nat.mul_lt_mul_of_pos_right (Nat.lt_size_self _) (Nat.two_pow_pos _)
        _ = 2^a.value.size := by rw [← pow_add]; congr 1; omega
        _ ≤ 2^(32 * WIDTH) := Nat.pow_le_pow_right (by norm_num) sizeA
      have start : a.value < 2 * (b.value * 2^(a.value.size - b.value.size)) := calc
        a.value < 2^a.value.size := topA
        _ = 2 * (2^(b.value.size - 1) * 2^(a.value.size - b.value.size)) := by
          rw [← pow_add,← pow_succ']; congr 1; omega
        _ ≤ 2 * (b.value * 2^(a.value.size - b.value.size)) :=
          Nat.mul_le_mul_left _ (Nat.mul_le_mul_right _ topB)
      obtain ⟨sum,rest⟩ := divLoop_spec (D := b.value) (A := a.value) (a.value.size - b.value.size)
        (b <<< (a.value.size - b.value.size)) (a,0)
        (by rw [value_shiftLeft,Nat.mod_eq_of_lt shifted]) (by simp) start (by simp) (by omega)
      exact ((Nat.div_mod_unique (Nat.pos_of_ne_zero nonzero)).mpr ⟨sum,rest⟩).1.symm

/-! ## Numbers of 64 bits, and equality with them -/

theorem value_ofUInt64 (b : UInt64) (wide : 2 ≤ WIDTH) : (ofUInt64 b : base_uint WIDTH).value = b.toNat := by
  obtain ⟨n,rfl⟩ : ∃ n, WIDTH = n + 2 := ⟨WIDTH - 2,by omega⟩
  have high : ((b >>> 32).toUInt32).toNat = b.toNat / 2^32 := by
    rw [UInt64.toNat_toUInt32,UInt64.toNat_shiftRight,show (32 : UInt64).toNat % 64 = 32 from rfl,
      Nat.shiftRight_eq_div_pow,Nat.mod_eq_of_lt (Nat.div_lt_of_lt_mul (by simpa using b.toNat_lt))]
  have rest : ((List.range n).map fun i => if i + 2 = 0 then b.toUInt32 else if i + 2 = 1 then (b >>> 32).toUInt32
      else (0 : UInt32)) = List.replicate n 0 := by
    simp [List.map_const']
  show Limbs.value ((List.range (n + 2)).map _) = _
  rw [List.range_succ_eq_map,List.range_succ_eq_map,List.map_cons,List.map_map,List.map_cons,List.map_map]
  simp only [Function.comp_def,Nat.succ_eq_add_one,Nat.zero_add] at rest ⊢
  rw [rest]
  simp only [if_true,if_false,show (0 + 1 = 0) = False by simp,value_cons,
    value_replicate_zero,UInt64.toNat_toUInt32,high]
  simp
  omega

theorem EqualTo_zero_iff (a : base_uint WIDTH) (wide : 2 ≤ WIDTH) : EqualTo a 0 = true ↔ a.value = 0 := by
  rw [value,value_eq_zero_iff]
  unfold EqualTo
  simp only [Bool.and_eq_true,List.all_eq_true,List.mem_range,beq_iff_eq,UInt64.zero_shiftRight,UInt64.zero_and]
  constructor
  · rintro ⟨⟨above,one⟩,zero⟩ w mem
    obtain ⟨i,inside,rfl⟩ := List.getElem_of_mem mem
    rw [← List.getD_eq_getElem _ 0 inside]
    rw [a.length_pn] at inside
    rcases (show i = 0 ∨ i = 1 ∨ 2 ≤ i by omega) with rfl | rfl | far
    · exact UInt32.toNat_inj.mp (by simpa using congrArg UInt64.toNat zero)
    · exact UInt32.toNat_inj.mp (by simpa using congrArg UInt64.toNat one)
    · have := above (i - 2) (by omega)
      rwa [show i - 2 + 2 = i by omega] at this
  · intro zero
    have each : ∀ i, a.pn.getD i 0 = 0 := fun i => by
      rw [List.getD_eq_getElem?_getD]
      cases lookup : a.pn[i]? with
      | none => rfl
      | some w => exact zero w (List.mem_of_getElem? lookup)
    simp only [List.getD_eq_getElem?_getD] at each
    simp [each]

end base_uint

/-! ## The proof of a block -/

/-- The words of a 256-bit number. -/
def ofArith (x : arith_uint256) : base_uint 8 := ⟨(List.range 8).map (pn x),by simp⟩

theorem value_range_pn (x : arith_uint256) : ∀ n, Limbs.value ((List.range n).map (pn x)) = x.toNat % 2^(32 * n)
  | 0 => by simp [Nat.mod_one]
  | n + 1 => by
    rw [List.range_succ,List.map_append,value_append,value_range_pn x n,List.length_map,List.length_range,
      List.map_cons,List.map_nil,value_cons,value_nil,Nat.mul_zero,Nat.add_zero,toNat_pn,
      show 32 * (n + 1) = 32 * n + 32 by ring,pow_add,Nat.mod_mul]

theorem value_ofArith (x : arith_uint256) : (ofArith x).value = x.toNat := by
  show Limbs.value ((List.range 8).map (pn x)) = _
  rw [value_range_pn,Nat.mod_eq_of_lt x.isLt]

/-- `GetBlockProof` of chain.cpp for a block's `nBits`: the work of a target,
    `2^256 / (bnTarget + 1)`, computed as `~bnTarget / (bnTarget + 1) + 1`. -/
def GetBlockProof (nBits : UInt32) : Except String (base_uint 8) :=
  let (target,fNegative,fOverflow) := SetCompact nBits
  let bnTarget := ofArith target
  if fNegative || fOverflow || base_uint.EqualTo bnTarget 0 then pure 0
  else do
    let quotient ← base_uint.divide (~~~bnTarget) (bnTarget + base_uint.ofUInt64 1)
    pure (quotient + base_uint.ofUInt64 1)

/-- A target that `SetCompact` decodes is not all ones: shifted up, it is a
    multiple of a byte. -/
theorem SetCompact_add_one_lt (nCompact : UInt32) : (SetCompact nCompact).1.toNat + 1 < 2^256 := by
  unfold SetCompact
  dsimp only
  split_ifs with small
  · rw [BitVec.toNat_ofNat]
    have := UInt32.toNat_lt ((nCompact &&& 0x007fffff) >>> (8 * (3 - (nCompact >>> 24).toNat)).toUInt32)
    have : ((nCompact &&& 0x007fffff) >>> (8 * (3 - (nCompact >>> 24).toNat)).toUInt32).toNat % 2^256 < 2^32 :=
      lt_of_le_of_lt (Nat.mod_le _ _) this
    omega
  · rw [BitVec.toNat_shiftLeft,BitVec.toNat_ofNat,Nat.shiftLeft_eq]
    generalize ((nCompact &&& 0x007fffff).toNat % 2^256) = w
    have byte : w * 2^(8 * ((nCompact >>> 24).toNat - 3)) % 2^256 % 256 = 0 := by
      rw [Nat.mod_mod_of_dvd _ (by norm_num),Nat.mul_mod,Nat.pow_mod]
      obtain ⟨k,hk⟩ : ∃ k, 8 * ((nCompact >>> 24).toNat - 3) = 8 + k := ⟨8 * ((nCompact >>> 24).toNat - 3) - 8,by omega⟩
      rw [hk,pow_add]
      norm_num
    have := Nat.mod_lt (w * 2^(8 * ((nCompact >>> 24).toNat - 3))) (show 0 < 2^256 by norm_num)
    omega

/-- The work of a target, as `GetBlockProof` computes it without wrapping. -/
theorem GetBlockProof_eq (nBits : UInt32) (positive : (SetCompact nBits).2.1 = false)
    (bounded : (SetCompact nBits).2.2 = false) (nonzero : 0 < (SetCompact nBits).1.toNat) :
    ∃ p, GetBlockProof nBits = .ok p ∧ p.value = 2^256 / ((SetCompact nBits).1.toNat + 1) := by
  have below := SetCompact_add_one_lt nBits
  unfold GetBlockProof
  generalize SetCompact nBits = r at positive bounded nonzero below
  obtain ⟨t,negative,overflow⟩ := r
  simp only at positive bounded nonzero below ⊢
  subst positive bounded
  have target := value_ofArith t
  have notZero : base_uint.EqualTo (ofArith t) 0 = false := by
    rw [Bool.eq_false_iff,Ne,base_uint.EqualTo_zero_iff _ (by norm_num),target]
    omega
  have one : (base_uint.ofUInt64 1 : base_uint 8).value = 1 := by
    rw [base_uint.value_ofUInt64 _ (by norm_num)]
    rfl
  have divisor : (ofArith t + base_uint.ofUInt64 1).value = t.toNat + 1 := by
    rw [base_uint.value_add,target,one,Nat.mod_eq_of_lt (show t.toNat + 1 < 2^(32 * 8) by norm_num; omega)]
  obtain ⟨q,quotient,exact⟩ := (base_uint.divide_spec (~~~ofArith t) (ofArith t + base_uint.ofUInt64 1)).2
    (by rw [divisor]; omega)
  have quotientLt : q.value + 1 < 2^(32 * 8) := by
    have := q.value_lt
    rw [exact,divisor,base_uint.value_complement,target]
    have : (2^(32 * 8) - 1 - t.toNat) / (t.toNat + 1) ≤ 2^(32 * 8) - 1 - t.toNat := Nat.div_le_self _ _
    omega
  refine ⟨q + base_uint.ofUInt64 1,?_,?_⟩
  · simp only [Bool.false_or,notZero,Bool.false_eq_true,if_false,quotient]
    rfl
  · rw [base_uint.value_add,one,Nat.mod_eq_of_lt (by simpa using quotientLt),exact,divisor,base_uint.value_complement,
      target,show 2^(32 * 8) - 1 - t.toNat = 2^256 - (t.toNat + 1) * 1 by norm_num; omega,Nat.sub_mul_div]
    have : 1 ≤ 2^256 / (t.toNat + 1) := (Nat.le_div_iff_mul_le (by omega)).mpr (by omega)
    omega

/- The target of the compact form 0x1d00ffff, 0xffff shifted up by 26 bytes,
   has the work 0x100010001. -/
set_option maxRecDepth 20000 in
example : (GetBlockProof 0x1d00ffff).map base_uint.value = .ok 0x100010001 := by decide

theorem arith_uint256_exact_modulo (a b : base_uint 8) (b32 : UInt32) (s : Nat) :
    (a * b).value = a.value * b.value % 2^256 ∧ (base_uint.mulWord a b32).value = a.value * b32.toNat % 2^256 ∧
      (a <<< s).value = a.value * 2^s % 2^256 ∧ (a >>> s).value = a.value / 2^s ∧
      (b.value ≠ 0 → ∃ q, base_uint.divide a b = .ok q ∧ q.value = a.value / b.value) ∧
      (b.value = 0 → base_uint.divide a b = .error "Division by zero") ∧
      base_uint.CompareTo a b = (if a.value < b.value then -1 else if b.value < a.value then 1 else 0) ∧
      base_uint.bits a = a.value.size ∧
      ∀ nBits : UInt32, (SetCompact nBits).2.1 = false → (SetCompact nBits).2.2 = false → 0 < (SetCompact nBits).1.toNat →
        ∃ p, GetBlockProof nBits = .ok p ∧ p.value = 2^256 / ((SetCompact nBits).1.toNat + 1) := by
  obtain ⟨zero,nonzero⟩ := base_uint.divide_spec a b
  exact ⟨base_uint.value_mul a b,base_uint.value_mulWord a b32,base_uint.value_shiftLeft a s,
    base_uint.value_shiftRight a s,nonzero,zero,base_uint.CompareTo_eq a b,base_uint.bits_eq a,GetBlockProof_eq⟩

end BitcoinPrivate
