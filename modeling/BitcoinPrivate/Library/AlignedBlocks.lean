import Mathlib.Data.List.Basic
import Mathlib.Data.List.Nodup
import Mathlib.Tactic.Ring

/-!
Aligned blocks of a list: at level `i` the list is cut into blocks of `2^i`
items, block `j` starting at item `j * 2^i`. A block of level `i+1` is its two
halves of level `i`, so a property that splits over the halves of every block,
with a condition on each pair of halves, holds of a block exactly when the
condition holds at every pair inside it (`split_iff_pairs`).
-/
namespace BitcoinPrivate.AlignedBlocks

variable {α β : Type*}

/-- The `j`-th block of `2^i` items. -/
def block (i j : Nat) (xs : List α) : List α := (xs.drop (j * 2^i)).take (2^i)

theorem block_succ (i j : Nat) (xs : List α) :
    block (i+1) j xs = block i (2*j) xs ++ block i (2*j+1) xs := by
  have double : 2^(i+1) = 2^i + 2^i := by rw [Nat.pow_succ]; omega
  have left : j * 2^(i+1) = 2*j * 2^i := by rw [Nat.pow_succ]; ring
  have right : 2*j * 2^i + 2^i = (2*j+1) * 2^i := by ring
  rw [block,block,block,left,double,List.take_add,List.drop_drop,right]

theorem block_zero {j : Nat} {xs : List α} (inside : j < xs.length) : block 0 j xs = [xs[j]] := by
  simp [block,List.take_one,List.head?_drop,List.getElem?_eq_getElem inside]

theorem length_block_zero_le (j : Nat) (xs : List α) : (block 0 j xs).length ≤ 1 := by
  simp [block]

/-- The one block of a level at least as long as the list is the whole list. -/
theorem block_of_length_le {d : Nat} {xs : List α} (short : xs.length ≤ 2^d) : block d 0 xs = xs := by
  simp [block,List.take_of_length_le short]

theorem length_block {i j : Nat} {xs : List α} (inside : (j+1) * 2^i ≤ xs.length) :
    (block i j xs).length = 2^i := by
  have start : j * 2^i + 2^i ≤ xs.length := by rwa [Nat.succ_mul] at inside
  simp only [block,List.length_take,List.length_drop]
  omega

theorem block_map (f : α → β) (i j : Nat) (xs : List α) : block i j (xs.map f) = (block i j xs).map f := by
  simp [block,List.map_take,List.map_drop]

theorem block_ne_nil {i j : Nat} {xs : List α} (inside : j * 2^i < xs.length) : block i j xs ≠ [] := by
  simp only [block,ne_eq,List.take_eq_nil_iff,List.drop_eq_nil_iff,not_or]
  exact ⟨(Nat.two_pow_pos i).ne',by omega⟩

/-- Consecutive items of an even range, two by two. -/
theorem map_range_two_mul (f : Nat → α) :
    ∀ m, (List.range (2*m)).map f = ((List.range m).map fun j => (f (2*j),f (2*j+1))).flatMap fun p => [p.1,p.2]
  | 0 => rfl
  | m+1 => by
    have even : 2*(m+1) = 2*m + 1 + 1 := by ring
    rw [even,List.range_succ,List.range_succ,List.range_succ,List.map_append,List.map_append,
      List.map_append,List.flatMap_append,← map_range_two_mul f m]
    simp

/-- A property of blocks that splits over the halves of each block, with a
    condition `Q i j` on the halves of block `j` of level `i+1`, holds of block
    `j` of level `d` exactly when the condition holds at every pair of halves
    below it: at level `i+1`, the blocks `k` with `k / 2^(d-1-i) = j`. -/
theorem split_iff_pairs {P Q : Nat → Nat → Prop} (leaf : ∀ j, P 0 j)
    (split : ∀ i j, P (i+1) j ↔ P i (2*j) ∧ P i (2*j+1) ∧ Q i j) :
    ∀ d j, P d j ↔ ∀ i < d, ∀ k, k / 2^(d-1-i) = j → Q i k := by
  intro d
  induction d with
  | zero => simp [leaf]
  | succ d ih =>
    intro j
    -- a block of level `i+1` below block `j` lies below one of its halves
    have halve : ∀ i < d, ∀ k, k / 2^(d+1-1-i) = k / 2^(d-1-i) / 2 := by
      intro i below k
      rw [Nat.div_div_eq_div_mul,← Nat.pow_succ]
      congr 2
      omega
    rw [split,ih,ih]
    constructor
    · rintro ⟨left,right,here⟩ i below k above
      rcases Nat.lt_succ_iff_lt_or_eq.mp below with below | rfl
      · rw [halve i below] at above
        rcases (by omega : k / 2^(d-1-i) = 2*j ∨ k / 2^(d-1-i) = 2*j+1) with half | half
        · exact left i below k half
        · exact right i below k half
      · simp only [Nat.add_sub_cancel,Nat.sub_self,pow_zero,Nat.div_one] at above
        exact above ▸ here
    · intro all
      refine ⟨fun i below k half => all i (by omega) k ?_,fun i below k half => all i (by omega) k ?_,
        all d (by omega) j (by simp)⟩
      · rw [halve i below,half]
        omega
      · rw [halve i below,half]
        omega

theorem nodup_block_zero (j : Nat) (xs : List α) : (block 0 j xs).Nodup := by
  have short := length_block_zero_le j xs
  match h : block 0 j xs, short with
  | [], _ => exact List.nodup_nil
  | [x], _ => exact List.nodup_singleton x
  | _ :: _ :: _, short => simp at short

/-- A list of at most `2^d` items has no repeats exactly when the two halves of
    every aligned block share no item. -/
theorem nodup_iff_halves_disjoint (d : Nat) {xs : List α} (short : xs.length ≤ 2^d) :
    xs.Nodup ↔ ∀ i < d, ∀ j < 2^(d-1-i), ∀ x ∈ block i (2*j) xs, ∀ y ∈ block i (2*j+1) xs, x ≠ y := by
  have tree := split_iff_pairs (P := fun i j => (block i j xs).Nodup)
    (Q := fun i j => ∀ x ∈ block i (2*j) xs, ∀ y ∈ block i (2*j+1) xs, x ≠ y)
    (fun j => nodup_block_zero j xs) (fun i j => by rw [block_succ,List.nodup_append]) d 0
  rw [block_of_length_le short] at tree
  rw [tree]
  simp only [Nat.div_eq_zero_iff_lt (Nat.two_pow_pos _)]

end BitcoinPrivate.AlignedBlocks
