import BitcoinPrivate.Library.Pairing

/-!
`IsProbablyDuplicate` of `equihash.tcc`, the solver's test that the truncated
indices of a candidate come in equal pairs. The loop walks the indices in order
and pairs each one not yet paired with the first later one that equals it and
is not yet paired, counting two for each pair; the test passes when every index
was counted. From the position the walk has reached on, the indices not yet
paired are what the greedy pairing of `Pairing` still has to pair (`scan_count`),
so the test passes exactly when every value occurs an even number of times.
-/
namespace BitcoinPrivate.Equihash
open Pairing

abbrev eh_trunc := UInt8

/-- The inner loop of `IsProbablyDuplicate` over the positions `ys`: the first
    one not yet paired whose index equals that of `z` is marked, and two are
    counted. -/
def findPartner (indices : List eh_trunc) (z : Nat) (checked_index : List Bool) : List Nat → List Bool × Nat
  | [] => (checked_index,0)
  | y :: ys =>
    if !checked_index.getD y false && indices.getD z 0 == indices.getD y 0 then (checked_index.set y true,2)
    else findPartner indices z checked_index ys

/-- A pass of the outer loop at `z`: the marks and `count_checked`. -/
def scanStep (indices : List eh_trunc) (lenIndices : Nat) (state : List Bool × Nat) (z : Nat) : List Bool × Nat :=
  if !state.1.getD z false then
    let (checked_index,paired) := findPartner indices z state.1 (List.range' (z + 1) (lenIndices - (z + 1)))
    (checked_index,state.2 + paired)
  else state

def IsProbablyDuplicate (MAX_INDICES : Nat) (indices : List eh_trunc) (lenIndices : Nat) : Except String Bool :=
  if lenIndices ≤ MAX_INDICES then
    let count_checked :=
      ((List.range lenIndices).foldl (scanStep indices lenIndices) (List.replicate MAX_INDICES false,0)).2
    pure (count_checked == lenIndices)
  else throw "assert(lenIndices <= MAX_INDICES)"

/-- The indices at the positions `ys` that are not yet paired. -/
def unpaired (indices : List eh_trunc) (checked_index : List Bool) : List Nat → List eh_trunc
  | [] => []
  | y :: ys =>
    if checked_index.getD y false then unpaired indices checked_index ys
    else indices.getD y 0 :: unpaired indices checked_index ys

/-! ## The inner loop -/

theorem getD_set_of_ne {checked_index : List Bool} {y y' : Nat} (other : y' ≠ y) (b : Bool) :
    (checked_index.set y b).getD y' false = checked_index.getD y' false := by
  simp [List.getD_eq_getElem?_getD,Ne.symm other]

theorem getD_set_self {checked_index : List Bool} {y : Nat} (inside : y < checked_index.length) (b : Bool) :
    (checked_index.set y b).getD y false = b := by
  simp [List.getD_eq_getElem?_getD,inside]

theorem unpaired_set_of_not_mem (indices : List eh_trunc) (checked_index : List Bool) {y : Nat} (b : Bool) :
    ∀ {ys : List Nat}, y ∉ ys → unpaired indices (checked_index.set y b) ys = unpaired indices checked_index ys
  | [],_ => rfl
  | y' :: ys,fresh => by
    have other : y' ≠ y := fun same => fresh (by rw [same]; exact List.mem_cons_self)
    simp only [unpaired,getD_set_of_ne other,
      unpaired_set_of_not_mem indices checked_index b (fun mem => fresh (List.mem_cons_of_mem _ mem))]

theorem length_findPartner (indices : List eh_trunc) (z : Nat) (checked_index : List Bool) :
    ∀ ys : List Nat, (findPartner indices z checked_index ys).1.length = checked_index.length
  | [] => rfl
  | y :: ys => by
    unfold findPartner
    split_ifs
    · exact List.length_set
    · exact length_findPartner indices z checked_index ys

/-- The inner loop marks nothing outside the positions it looks at. -/
theorem findPartner_frame (indices : List eh_trunc) (z : Nat) (checked_index : List Bool) :
    ∀ {ys : List Nat} {y' : Nat}, y' ∉ ys →
      (findPartner indices z checked_index ys).1.getD y' false = checked_index.getD y' false
  | [],_,_ => rfl
  | y :: ys,y',fresh => by
    unfold findPartner
    split_ifs
    · exact getD_set_of_ne (fun same => fresh (by rw [same]; exact List.mem_cons_self)) true
    · exact findPartner_frame indices z checked_index (fun mem => fresh (List.mem_cons_of_mem _ mem))

/-- The inner loop takes the index of `z` out of those not yet paired, and
    counts two where it was there. -/
theorem findPartner_spec (indices : List eh_trunc) (z : Nat) (checked_index : List Bool) :
    ∀ {ys : List Nat}, ys.Nodup → (∀ y ∈ ys, y < checked_index.length) →
      unpaired indices (findPartner indices z checked_index ys).1 ys =
          (unpaired indices checked_index ys).erase (indices.getD z 0) ∧
        (findPartner indices z checked_index ys).2 =
          if indices.getD z 0 ∈ unpaired indices checked_index ys then 2 else 0
  | [],_,_ => ⟨rfl,rfl⟩
  | y :: ys,distinct,inside => by
    obtain ⟨fresh,distinct⟩ := List.nodup_cons.mp distinct
    obtain ⟨rest,counted⟩ :=
      findPartner_spec indices z checked_index distinct (fun y' mem => inside y' (List.mem_cons_of_mem _ mem))
    have kept := findPartner_frame indices z checked_index fresh
    by_cases mark : checked_index.getD y false = true
    · -- paired before: passed over
      have skip : findPartner indices z checked_index (y :: ys) = findPartner indices z checked_index ys := by
        rw [findPartner,mark,Bool.not_true,Bool.false_and,if_neg (by decide)]
      simp only [skip,unpaired,kept,mark,if_true]
      exact ⟨rest,counted⟩
    have open_ : checked_index.getD y false = false := by simpa using mark
    by_cases same : indices.getD z 0 = indices.getD y 0
    · -- the partner: the first of its value among those not yet paired
      have found : findPartner indices z checked_index (y :: ys) = (checked_index.set y true,2) := by
        rw [findPartner,open_,same,Bool.not_false,beq_self_eq_true,Bool.and_self,if_pos rfl]
      simp only [found,unpaired,getD_set_self (inside y List.mem_cons_self),open_,if_true,
        unpaired_set_of_not_mem indices checked_index true fresh,same,Bool.false_eq_true,if_false,List.erase_cons_head,
        List.mem_cons_self]
      exact ⟨trivial,trivial⟩
    · have skip : findPartner indices z checked_index (y :: ys) = findPartner indices z checked_index ys := by
        rw [findPartner,open_,Bool.not_false,Bool.true_and,if_neg (fun found => same (beq_iff_eq.mp found))]
      simp only [skip,unpaired,kept,open_,Bool.false_eq_true,if_false,rest,List.mem_cons,counted]
      exact ⟨(List.erase_cons_tail (by simpa using Ne.symm same)).symm,by simp only [same,false_or]⟩

/-! ## The outer loop -/

/-- From position `z` on, the walk counts what the greedy pairing of the indices
    not yet paired there counts. The induction runs along the positions. -/
theorem scan_count (indices : List eh_trunc) (lenIndices : Nat) :
    ∀ (n z : Nat) (checked_index : List Bool) (count_checked : Nat), z + n = lenIndices →
      lenIndices ≤ checked_index.length →
      ((List.range' z n).foldl (scanStep indices lenIndices) (checked_index,count_checked)).2 =
        count_checked + pairOff (unpaired indices checked_index (List.range' z n))
  | 0,_,_,_,_,_ => by simp [unpaired,pairOff]
  | n + 1,z,checked_index,count_checked,ends,fits => by
    rw [List.range'_succ,List.foldl_cons]
    by_cases mark : checked_index.getD z false = true
    · -- paired as a later partner: passed over
      have pass : scanStep indices lenIndices (checked_index,count_checked) z = (checked_index,count_checked) := by
        rw [scanStep,mark,Bool.not_true,if_neg (by decide)]
      rw [pass,scan_count indices lenIndices n (z + 1) checked_index count_checked (by omega) fits]
      simp only [unpaired,mark,if_true]
    have open_ : checked_index.getD z false = false := by simpa using mark
    obtain ⟨erased,counted⟩ := findPartner_spec indices z checked_index (List.nodup_range' (s := z + 1) (n := n))
      (fun y mem => by rw [List.mem_range'_1] at mem; omega)
    have pass : scanStep indices lenIndices (checked_index,count_checked) z =
        ((findPartner indices z checked_index (List.range' (z + 1) n)).1,
          count_checked + (findPartner indices z checked_index (List.range' (z + 1) n)).2) := by
      rw [scanStep,open_,Bool.not_false,if_pos rfl,show lenIndices - (z + 1) = n by omega]
    rw [pass,scan_count indices lenIndices n (z + 1) _ _ (by omega) (by rw [length_findPartner]; exact fits),erased,
      counted]
    simp only [unpaired,open_,Bool.false_eq_true,if_false]
    by_cases present : indices.getD z 0 ∈ unpaired indices checked_index (List.range' (z + 1) n)
    · rw [if_pos present,pairOff_cons_of_mem present]
      omega
    · rw [if_neg present,pairOff_cons_of_not_mem present,List.erase_of_not_mem present]
      omega

/-- Before the walk nothing is paired. -/
theorem unpaired_replicate_false (indices : List eh_trunc) (MAX_INDICES : Nat) :
    ∀ ys : List Nat, unpaired indices (List.replicate MAX_INDICES false) ys = ys.map fun y => indices.getD y 0
  | [] => rfl
  | y :: ys => by
    have open_ : (List.replicate MAX_INDICES false).getD y false = false := by
      rw [List.getD_eq_getElem?_getD,List.getElem?_replicate]
      split <;> rfl
    simp only [unpaired,open_,Bool.false_eq_true,if_false,unpaired_replicate_false indices MAX_INDICES ys,
      List.map_cons]

theorem map_getD_range (indices : List eh_trunc) : (List.range indices.length).map (fun y => indices.getD y 0) = indices :=
  List.ext_getElem (by simp) fun i _ inside => by
    rw [List.getElem_map,List.getElem_range,List.getD_eq_getElem _ _ inside]

theorem IsProbablyDuplicate_eq (MAX_INDICES : Nat) (indices : List eh_trunc) (fits : indices.length ≤ MAX_INDICES) :
    IsProbablyDuplicate MAX_INDICES indices indices.length = .ok (pairOff indices == indices.length) := by
  have walk := scan_count indices indices.length indices.length 0 (List.replicate MAX_INDICES false) 0 (by omega)
    (by simpa using fits)
  rw [unpaired_replicate_false,← List.range_eq_range',map_getD_range,Nat.zero_add] at walk
  unfold IsProbablyDuplicate
  rw [if_pos fits]
  dsimp only
  rw [walk]
  rfl

/-- The test passes exactly when every value occurs an even number of times. -/
theorem duplicate_test_iff_even_counts (MAX_INDICES : Nat) (indices : List eh_trunc)
    (fits : indices.length ≤ MAX_INDICES) :
    ∃ b, IsProbablyDuplicate MAX_INDICES indices indices.length = .ok b ∧
      (b = true ↔ ∀ v, Even (indices.count v)) :=
  ⟨_,IsProbablyDuplicate_eq MAX_INDICES indices fits,by rw [beq_iff_eq]; exact pairOff_eq_length_iff indices⟩

theorem duplicate_test_at_three_one_one_three :
    [3,1,1,3].length ≤ 4 ∧ ∃ b, IsProbablyDuplicate 4 [3,1,1,3] [3,1,1,3].length = .ok b ∧
      (b = true ↔ ∀ v, Even (([3,1,1,3] : List eh_trunc).count v)) :=
  ⟨by decide,duplicate_test_iff_even_counts 4 [3,1,1,3] (by decide)⟩

example : IsProbablyDuplicate 4 [0,1,2,3] 4 = .ok false ∧ IsProbablyDuplicate 4 [0,1,1,3] 4 = .ok false ∧
    IsProbablyDuplicate 4 [3,1,1,3] 4 = .ok true := by
  decide

end BitcoinPrivate.Equihash
