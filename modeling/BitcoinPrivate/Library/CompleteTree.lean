import Mathlib

/-!
Roots of complete binary trees whose leaves are a list padded on the right with
a null leaf, for an arbitrary combining function. The `j`-th aligned block of
`2^i` leaves has root `node i j`; a block lying past the end of the list is the
empty root of its height, and a block lying inside the list keeps its root when
leaves are appended. The root of a whole tree is the fold of one leaf through
the roots of the blocks beside its path (`node_path`).
-/
namespace BitcoinPrivate.CompleteTree

variable {H : Type*} (combine : H → H → H) (null : H)

/-- The root of the complete tree of the given depth whose leaves are the list,
    padded with `null` up to `2^depth` leaves. -/
def root : Nat → List H → H
  | 0, xs => xs.headD null
  | d+1, xs => combine (root d (xs.take (2^d))) (root d (xs.drop (2^d)))

/-- The root of the complete tree of the given depth with only null leaves. -/
def emptyRoot : Nat → H
  | 0 => null
  | d+1 => combine (emptyRoot d) (emptyRoot d)

/-- The root of the `j`-th aligned block of `2^i` leaves. -/
def node (i j : Nat) (xs : List H) : H :=
  root combine null i ((xs.drop (j * 2^i)).take (2^i))

/-- Folds a leaf at position `k` up through the roots beside its path: at level
    `i` the current subtree is a right child exactly when bit `i` of `k` is set. -/
def pathRoot (leaf : H) (k : Nat) (sib : Nat → H) : Nat → H
  | 0 => leaf
  | i+1 =>
    if k.testBit i then combine (sib i) (pathRoot leaf k sib i)
    else combine (pathRoot leaf k sib i) (sib i)

/-- The index, among the blocks of `2^i` leaves, of the block beside the one
    that holds leaf `k`. -/
def sibling (k i : Nat) : Nat := if k.testBit i then k / 2^i - 1 else k / 2^i + 1

variable {combine null}

theorem root_nil : ∀ d, root combine null d ([] : List H) = emptyRoot combine null d
  | 0 => rfl
  | d+1 => by simp [root,emptyRoot,root_nil d]

/-- Only the first `2^d` leaves reach the root of a tree of depth `d`. -/
theorem root_take (d : Nat) (xs : List H) : root combine null d (xs.take (2^d)) = root combine null d xs := by
  induction d generalizing xs with
  | zero => cases xs <;> rfl
  | succ d ih =>
    have half : 2^d ≤ 2^(d+1) := Nat.pow_le_pow_right (by norm_num) (Nat.le_succ d)
    have rest : 2^(d+1) - 2^d = 2^d := by rw [Nat.pow_succ]; omega
    simp only [root,List.take_take,Nat.min_eq_left half,List.drop_take,rest,ih]

theorem node_zero (j : Nat) (xs : List H) : node combine null 0 j xs = xs.getD j null := by
  simp [node,root,List.headD_eq_head?_getD,List.head?_take,List.head?_drop,List.getD_eq_getElem?_getD]

/-- A parent block is the combination of its two halves. -/
theorem node_succ (i j : Nat) (xs : List H) :
    node combine null (i+1) j xs = combine (node combine null i (2*j) xs) (node combine null i (2*j+1) xs) := by
  have half : 2^i ≤ 2^(i+1) := Nat.pow_le_pow_right (by norm_num) (Nat.le_succ i)
  have rest : 2^(i+1) - 2^i = 2^i := by rw [Nat.pow_succ]; omega
  have left : j * 2^(i+1) = 2*j * 2^i := by rw [Nat.pow_succ]; ring
  have right : 2*j * 2^i + 2^i = (2*j+1) * 2^i := by ring
  simp only [node,root,List.take_take,Nat.min_eq_left half,List.drop_take,rest,List.drop_drop,left,right]

theorem root_eq_node (d : Nat) (xs : List H) : root combine null d xs = node combine null d 0 xs := by
  simp [node,root_take]

/-- A block past the end of the list has only null leaves. -/
theorem node_of_length_le {i j : Nat} {xs : List H} (past : xs.length ≤ j * 2^i) :
    node combine null i j xs = emptyRoot combine null i := by
  simp [node,List.drop_eq_nil_of_le past,root_nil]

/-- A block inside the list keeps its root when leaves are appended. -/
theorem node_append {i j : Nat} {xs : List H} (inside : (j+1) * 2^i ≤ xs.length) (ys : List H) :
    node combine null i j (xs ++ ys) = node combine null i j xs := by
  have start : j * 2^i ≤ xs.length := le_trans (Nat.mul_le_mul_right _ (Nat.le_succ j)) inside
  have fits : 2^i ≤ (xs.drop (j * 2^i)).length := by
    rw [List.length_drop]; rw [Nat.succ_mul] at inside; omega
  simp only [node,List.drop_append_of_le_length start,List.take_append_of_le_length fits]

theorem div_two_pow_succ (k i : Nat) :
    k / 2^i = 2 * (k / 2^(i+1)) + (if k.testBit i then 1 else 0) := by
  have halve : k / 2^(i+1) = k / 2^i / 2 := by rw [Nat.div_div_eq_div_mul,pow_succ]
  have bit : (if k.testBit i then 1 else 0) = k / 2^i % 2 := by
    rw [Nat.testBit_eq_decide_div_mod_eq]
    rcases Nat.mod_two_eq_zero_or_one (k / 2^i) with parity | parity <;> simp [parity]
  rw [bit,halve]
  omega

/-- The block of height `i` holding leaf `k` is the fold of leaf `k` through
    the blocks beside its path below height `i`. -/
theorem node_path (k : Nat) (xs : List H) (i : Nat) :
    node combine null i (k / 2^i) xs =
      pathRoot combine (xs.getD k null) k (fun l => node combine null l (sibling k l) xs) i := by
  induction i with
  | zero => simp [node_zero,pathRoot]
  | succ i ih =>
    have split := div_two_pow_succ k i
    rw [node_succ,pathRoot,← ih]
    by_cases bit : k.testBit i
    · simp only [bit,if_true] at split ⊢
      have left : sibling k i = 2 * (k / 2^(i+1)) := by simp [sibling,bit]; omega
      rw [left,split]
    · simp only [bit,if_false,Bool.false_eq_true,Nat.add_zero] at split ⊢
      have right : sibling k i = 2 * (k / 2^(i+1)) + 1 := by simp [sibling,bit]; omega
      rw [right,split]

/-- The root of a whole tree through the path of any of its leaves. -/
theorem root_path {d k : Nat} (inside : k < 2^d) (xs : List H) :
    root combine null d xs =
      pathRoot combine (xs.getD k null) k (fun l => node combine null l (sibling k l) xs) d := by
  rw [root_eq_node,← node_path,Nat.div_eq_of_lt inside]

theorem pathRoot_congr {leaf : H} {k : Nat} {sib sib' : Nat → H} :
    ∀ {d : Nat}, (∀ l < d, sib l = sib' l) → pathRoot combine leaf k sib d = pathRoot combine leaf k sib' d
  | 0, _ => rfl
  | d+1, same => by
    simp only [pathRoot,pathRoot_congr (fun l lt => same l (Nat.lt_succ_of_lt lt)),same d (Nat.lt_succ_self d)]

/-- Null leaves appended past the end change no root. -/
theorem root_append_replicate (d : Nat) (xs : List H) (r : Nat) :
    root combine null d (xs ++ List.replicate r null) = root combine null d xs := by
  induction d generalizing xs r with
  | zero => cases xs <;> cases r <;> rfl
  | succ d ih =>
    simp only [root]
    by_cases short : xs.length ≤ 2^d
    · rw [List.take_append,List.take_of_length_le short,List.take_replicate,List.drop_append,
        List.drop_eq_nil_of_le short,List.drop_replicate,List.nil_append,ih]
      have padding := ih [] (r - (2^d - xs.length))
      rw [List.nil_append] at padding
      rw [padding]
    · have inside : 2^d ≤ xs.length := by omega
      rw [List.take_append_of_le_length inside,List.drop_append_of_le_length inside,ih]

/-- How many levels below `l` have their bit of `k` clear. -/
def zeroRank (k : Nat) : Nat → Nat
  | 0 => 0
  | l+1 => zeroRank k l + if k.testBit l then 0 else 1

variable (combine) in
/-- Folds a leaf up through (position bit, sibling) pairs, the lowest level first. -/
def foldLevels (leaf : H) (levels : List (Bool × H)) : H :=
  levels.foldl (fun h e => if e.1 then combine e.2 h else combine h e.2) leaf

theorem foldLevels_append (leaf : H) (lower upper : List (Bool × H)) :
    foldLevels combine leaf (lower ++ upper) = foldLevels combine (foldLevels combine leaf lower) upper := by
  simp [foldLevels,List.foldl_append]

theorem foldLevels_range (leaf : H) (k : Nat) (sib : Nat → H) (d : Nat) :
    foldLevels combine leaf ((List.range d).map fun l => (k.testBit l,sib l)) = pathRoot combine leaf k sib d := by
  induction d with
  | zero => rfl
  | succ d ih =>
    rw [List.range_succ,List.map_append,foldLevels_append,ih]
    simp [foldLevels,pathRoot]

/-- Bits above the length of a number are clear. -/
theorem testBit_of_lt {k d : Nat} (small : k < 2^d) {l : Nat} (above : d ≤ l) : k.testBit l = false :=
  Nat.testBit_eq_false_of_lt (lt_of_lt_of_le small (Nat.pow_le_pow_right (by norm_num) above))

/-! The levels whose bit of `k` is clear are where the blocks right of leaf `k`
start: the one at level `l` starts `zeroSum k l` leaves after leaf `k`, and
`zeroRank k l` counts the blocks below it. -/

theorem zeroRank_succ_of_testBit {k l : Nat} (bit : k.testBit l = true) : zeroRank k (l+1) = zeroRank k l := by
  simp [zeroRank,bit]

theorem zeroRank_succ_of_not_testBit {k l : Nat} (bit : k.testBit l = false) :
    zeroRank k (l+1) = zeroRank k l + 1 := by
  simp [zeroRank,bit]

theorem zeroRank_mono (k : Nat) : Monotone (zeroRank k) :=
  monotone_nat_of_le_succ fun l => by simp [zeroRank]

/-- Past a clear level the rank has grown. -/
theorem zeroRank_lt_of_lt {k l l' : Nat} (bit : k.testBit l = false) (lt : l < l') : zeroRank k l < zeroRank k l' :=
  calc zeroRank k l < zeroRank k (l+1) := by rw [zeroRank_succ_of_not_testBit bit]; omega
    _ ≤ zeroRank k l' := zeroRank_mono k lt

/-- A clear level is determined by its rank. -/
theorem eq_of_zeroRank_eq {k l l' : Nat} (bit : k.testBit l = false) (bit' : k.testBit l' = false)
    (same : zeroRank k l = zeroRank k l') : l = l' := by
  rcases Nat.lt_trichotomy l l' with lt | eq | gt
  · exact absurd same (zeroRank_lt_of_lt bit lt).ne
  · exact eq
  · exact absurd same.symm (zeroRank_lt_of_lt bit' gt).ne

/-- Above the last set bit every level is clear and counts once. -/
theorem zeroRank_add_of_clear {k d : Nat} (clear : ∀ l, d ≤ l → k.testBit l = false) :
    ∀ s, zeroRank k (d+s) = zeroRank k d + s
  | 0 => rfl
  | s+1 => by
    rw [← Nat.add_assoc,zeroRank_succ_of_not_testBit (clear _ (by omega)),zeroRank_add_of_clear clear s]
    omega

/-- How many leaves the blocks at the clear levels below `l` hold. -/
def zeroSum (k : Nat) : Nat → Nat
  | 0 => 0
  | l+1 => zeroSum k l + if k.testBit l then 0 else 2^l

theorem zeroSum_succ_of_testBit {k l : Nat} (bit : k.testBit l = true) : zeroSum k (l+1) = zeroSum k l := by
  simp [zeroSum,bit]

theorem zeroSum_succ_of_not_testBit {k l : Nat} (bit : k.testBit l = false) :
    zeroSum k (l+1) = zeroSum k l + 2^l := by
  simp [zeroSum,bit]

theorem zeroSum_mono (k : Nat) : Monotone (zeroSum k) :=
  monotone_nat_of_le_succ fun l => by simp [zeroSum]

/-- The block of `2^l` leaves after the one holding leaf `k` starts `zeroSum k l`
    leaves after leaf `k`. -/
theorem div_add_one_mul (k l : Nat) : (k / 2^l + 1) * 2^l = k + 1 + zeroSum k l := by
  induction l with
  | zero => simp [zeroSum]
  | succ l ih =>
    have split := div_two_pow_succ k l
    have doubled : (k / 2^(l+1) + 1) * 2^(l+1) = (2 * (k / 2^(l+1)) + 2) * 2^l := by rw [pow_succ]; ring
    rw [doubled]
    cases bit : k.testBit l with
    | true =>
      rw [zeroSum_succ_of_testBit bit,← ih]
      simp only [bit,if_true] at split
      rw [split]
    | false =>
      rw [zeroSum_succ_of_not_testBit bit,← Nat.add_assoc,← ih]
      simp only [bit,Bool.false_eq_true,if_false,Nat.add_zero] at split
      rw [split]
      ring

/-- Below `2^d`, the blocks right of leaf `k` fill the tree of depth `d`. -/
theorem add_zeroSum_of_lt {k d : Nat} (small : k < 2^d) : k + 1 + zeroSum k d = 2^d := by
  rw [← div_add_one_mul,Nat.div_eq_of_lt small,zero_add,one_mul]

/-- Between two levels of one rank every bit is set, so no block starts there. -/
theorem zeroSum_eq_of_zeroRank_eq {k l l' : Nat} (le : l ≤ l') (same : zeroRank k l = zeroRank k l') :
    zeroSum k l = zeroSum k l' := by
  induction l', le using Nat.le_induction with
  | base => rfl
  | succ l' le ih =>
    have below := zeroRank_mono k le
    have bit : k.testBit l' = true := by
      by_contra clear
      rw [zeroRank_succ_of_not_testBit (Bool.eq_false_iff.mpr clear)] at same
      omega
    rw [zeroRank_succ_of_testBit bit] at same
    rw [zeroSum_succ_of_testBit bit]
    exact ih same

/-- A clear level's block is the one after the block holding leaf `k`. -/
theorem sibling_of_not_testBit {k l : Nat} (bit : k.testBit l = false) : sibling k l = k / 2^l + 1 := by
  simp [sibling,bit]

/-- A block right of leaf `k` starts `zeroSum k l` leaves after it. -/
theorem sibling_mul_of_not_testBit {k l : Nat} (bit : k.testBit l = false) :
    sibling k l * 2^l = k + 1 + zeroSum k l := by
  rw [sibling_of_not_testBit bit,div_add_one_mul]

theorem lt_of_zeroRank_lt {k l l' : Nat} (lt : zeroRank k l < zeroRank k l') : l < l' := by
  by_contra le
  exact absurd (zeroRank_mono k (Nat.le_of_not_lt le)) (Nat.not_le_of_lt lt)

theorem lt_of_zeroSum_lt {k l l' : Nat} (lt : zeroSum k l < zeroSum k l') : l < l' := by
  by_contra le
  exact absurd (zeroSum_mono k (Nat.le_of_not_lt le)) (Nat.not_le_of_lt lt)

/-- A higher block starts past the end of a lower one. -/
theorem zeroSum_add_le_of_lt {k l l' : Nat} (bit : k.testBit l = false) (lt : l < l') :
    zeroSum k l + 2^l ≤ zeroSum k l' := by
  rw [← zeroSum_succ_of_not_testBit bit]
  exact zeroSum_mono k lt

/-- The next block starts where the one below it ends. -/
theorem zeroSum_of_zeroRank_succ {k l l' : Nat} (bit : k.testBit l = false)
    (rank : zeroRank k l' = zeroRank k l + 1) : zeroSum k l' = zeroSum k l + 2^l := by
  have above : l < l' := lt_of_zeroRank_lt (k := k) (by omega)
  rw [← zeroSum_succ_of_not_testBit bit]
  exact (zeroSum_eq_of_zeroRank_eq above (by rw [zeroRank_succ_of_not_testBit bit,rank])).symm

end BitcoinPrivate.CompleteTree
