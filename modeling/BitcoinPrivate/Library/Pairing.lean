import Mathlib

/-!
Pairing the items of a list off greedily: the first item with the first later
item equal to it, then the same again on what is left. Every item is paired
off exactly when every value occurs an even number of times
(`pairOff_eq_length_iff`).
-/
namespace BitcoinPrivate.Pairing

variable {α : Type} [DecidableEq α]

/-- The number of items the greedy pairing pairs off. -/
def pairOff : List α → Nat
  | [] => 0
  | a :: l => if a ∈ l then 2 + pairOff (l.erase a) else pairOff l
termination_by l => l.length
decreasing_by
  · have := List.length_erase_le (a := a) (l := l)
    simp only [List.length_cons]
    omega
  · simp

theorem pairOff_cons_of_mem {a : α} {l : List α} (mem : a ∈ l) : pairOff (a :: l) = 2 + pairOff (l.erase a) := by
  rw [pairOff,if_pos mem]

theorem pairOff_cons_of_not_mem {a : α} {l : List α} (fresh : a ∉ l) : pairOff (a :: l) = pairOff l := by
  rw [pairOff,if_neg fresh]

theorem pairOff_le_length (l : List α) : pairOff l ≤ l.length := by
  fun_induction pairOff l with
  | case1 => simp
  | case2 a l mem ih =>
    rw [List.length_erase_of_mem mem] at ih
    have := List.length_pos_of_mem mem
    simp only [List.length_cons]
    omega
  | case3 a l fresh ih =>
    simp only [List.length_cons]
    omega

/-- Pairing off the first item and its partner takes two from its value's count. -/
theorem count_cons_erase {a : α} {l : List α} (mem : a ∈ l) (v : α) :
    (a :: l).count v = (l.erase a).count v + if v = a then 2 else 0 := by
  have present := List.count_pos_iff.mpr mem
  rw [List.count_cons,List.count_erase]
  by_cases same : v = a
  · subst same
    simp only [beq_self_eq_true,if_true]
    omega
  · simp [same,Ne.symm same]

theorem pairOff_eq_length_iff (l : List α) : pairOff l = l.length ↔ ∀ v, Even (l.count v) := by
  fun_induction pairOff l with
  | case1 => simp
  | case2 a l mem ih =>
    have shorter : (l.erase a).length + 1 = l.length := by
      rw [List.length_erase_of_mem mem]
      have := List.length_pos_of_mem mem
      omega
    have counts : (∀ v, Even ((a :: l).count v)) ↔ ∀ v, Even ((l.erase a).count v) := by
      refine forall_congr' fun v => ?_
      rw [count_cons_erase mem v]
      split_ifs <;> simp [Nat.even_add]
    rw [counts,← ih,List.length_cons,← shorter]
    omega
  | case3 a l fresh ih =>
    have bound := pairOff_le_length l
    have odd : ¬Even ((a :: l).count a) := by
      rw [List.count_cons_self,List.count_eq_zero_of_not_mem fresh]
      decide
    simp only [List.length_cons]
    constructor
    · intro paired
      omega
    · intro even
      exact absurd (even a) odd

end BitcoinPrivate.Pairing
