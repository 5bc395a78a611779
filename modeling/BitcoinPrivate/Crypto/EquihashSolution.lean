import BitcoinPrivate.Crypto.Equihash

/-!
Equihash's definition of a solution, and the verifier against it. The `2^K`
indices are distinct; at every level `r` each aligned block of `2^r` rows XORs
to zero on its first `r` collision fields, and all rows XOR to zero; and at
every level the left block of a pair starts with the smaller index. After `r`
passes the verifier holds one row per block of level `r` (`levelRow`): the
XOR of the block's rows past its first `r` fields, and the block's indices in
order. A pass checks each pair of halves and merges it into the block above.
-/
namespace BitcoinPrivate.Equihash
open AlignedBlocks

/-- The byte at position `p` of the XOR of the rows. -/
def xorByte (rows : List (List UInt8)) (p : Nat) : UInt8 := rows.foldr (fun row acc => row.getD p 0 ^^^ acc) 0

theorem xorByte_append (A B : List (List UInt8)) (p : Nat) : xorByte (A ++ B) p = xorByte A p ^^^ xorByte B p := by
  induction A with
  | nil => simp [xorByte]
  | cons row A ih =>
    simp only [List.cons_append,xorByte,List.foldr_cons] at ih ⊢
    rw [ih,UInt8.xor_assoc]

theorem xorByte_block_succ (r j : Nat) (rows : List (List UInt8)) (p : Nat) :
    xorByte (block (r+1) j rows) p = xorByte (block r (2*j) rows) p ^^^ xorByte (block r (2*j+1) rows) p := by
  rw [block_succ,xorByte_append]

/-- Equihash's definition of a solution with indices `idx` and their rows,
    for `K` levels of `c`-byte collision fields in rows of `L` bytes. -/
structure IsSolution (K c L : Nat) (idx : List eh_index) (rows : List (List UInt8)) : Prop where
  distinct : idx.Nodup
  collide : ∀ r, 1 ≤ r → r ≤ K → ∀ j < 2^(K-r), ∀ p < r * c, xorByte (block r j rows) p = 0
  zero : ∀ p < L, xorByte rows p = 0
  ordered : ∀ r, 1 ≤ r → r ≤ K → ∀ j < 2^(K-r),
    (block (r-1) (2*j) idx).headD 0 < (block (r-1) (2*j+1) idx).headD 0

section Levels

variable (c L : Nat) (idx : List eh_index) (rows : List (List UInt8))

/-- What the verifier checks of the two halves of block `j` of level `r+1`. -/
def PairPasses (r j : Nat) : Prop :=
  (∀ q < c, xorByte (block r (2*j) rows) (r*c + q) = xorByte (block r (2*j+1) rows) (r*c + q)) ∧
  (∀ x ∈ block r (2*j) idx, ∀ y ∈ block r (2*j+1) idx, x ≠ y) ∧
  (block r (2*j) idx).headD 0 < (block r (2*j+1) idx).headD 0

instance (r j : Nat) : Decidable (PairPasses c idx rows r j) := inferInstanceAs (Decidable (_ ∧ _ ∧ _))

/-- The verifier's row for block `j` of level `r`. -/
def levelRow (r j : Nat) : FullStepRow where
  hash := (List.range (L - r*c)).map fun q => xorByte (block r j rows) (r*c + q)
  indices := block r j idx

def levelRows (K r : Nat) : List FullStepRow := (List.range (2^(K-r))).map (levelRow c L idx rows r)

/-- Every pair of halves at every level passes. -/
def AllPairsPass (K : Nat) : Prop := ∀ r < K, ∀ j < 2^(K-1-r), PairPasses c idx rows r j

instance (K : Nat) : Decidable (AllPairsPass c idx rows K) :=
  inferInstanceAs (Decidable (∀ r < K, ∀ j < 2^(K-1-r), PairPasses c idx rows r j))

end Levels

theorem pair_inside {K r j : Nat} (level : r < K) (inside : j < 2^(K-1-r)) : (2*j+1) * 2^r < 2^K := by
  have split : 2^K = 2 * 2^(K-1-r) * 2^r := by
    rw [← pow_succ',← pow_add]
    congr 1
    omega
  rw [split]
  exact Nat.mul_lt_mul_of_pos_right (by omega) (Nat.two_pow_pos r)

section Pass

variable {K c L : Nat} {idx : List eh_index} {rows : List (List UInt8)}

/-- The first `c` bytes of a level row are its next collision field. -/
theorem take_levelRow_hash {r j : Nat} (wide : c ≤ L - r*c) :
    (levelRow c L idx rows r j).hash.take c = (List.range c).map fun q => xorByte (block r j rows) (r*c + q) := by
  rw [levelRow,← List.map_take,List.take_range,Nat.min_eq_left wide]

/-- Both halves under a block of the levels above the leaves hold indices. -/
theorem halves_cons (count : idx.length = 2^K) {r j : Nat} (level : r < K) (inside : j < 2^(K-1-r)) :
    (∃ x xs, block r (2*j) idx = x :: xs) ∧ ∃ y ys, block r (2*j+1) idx = y :: ys := by
  have right := pair_inside level inside
  refine ⟨List.exists_cons_of_ne_nil (block_ne_nil ?_),List.exists_cons_of_ne_nil (block_ne_nil ?_)⟩
  · rw [count]
    exact lt_of_le_of_lt (Nat.mul_le_mul_right _ (Nat.le_succ _)) right
  · rwa [count]

theorem pairPasses_levelRow (count : idx.length = 2^K) {r j : Nat} (level : r < K) (inside : j < 2^(K-1-r))
    (wide : c ≤ L - r*c) :
    pairPasses c (levelRow c L idx rows r (2*j)) (levelRow c L idx rows r (2*j+1)) = true ↔
      PairPasses c idx rows r j := by
  obtain ⟨⟨x,xs,left_cons⟩,⟨y,ys,right_cons⟩⟩ := halves_cons count level inside
  have collide : HasCollision (levelRow c L idx rows r (2*j)) (levelRow c L idx rows r (2*j+1)) c = true ↔
      ∀ q < c, xorByte (block r (2*j) rows) (r*c + q) = xorByte (block r (2*j+1) rows) (r*c + q) := by
    rw [HasCollision_iff,take_levelRow_hash wide,take_levelRow_hash wide,List.map_inj_left]
    simp
  have left_indices : (levelRow c L idx rows r (2*j)).indices = x :: xs := left_cons
  have right_indices : (levelRow c L idx rows r (2*j+1)).indices = y :: ys := right_cons
  simp only [pairPasses,Bool.and_eq_true,Bool.not_eq_true',collide,DistinctIndices_iff,PairPasses]
  rw [left_indices,right_indices,left_cons,right_cons,List.headD_cons,List.headD_cons]
  constructor
  · rintro ⟨⟨same,before⟩,distinct⟩
    have differ : x ≠ y := distinct x List.mem_cons_self y List.mem_cons_self
    rw [IndicesBefore_of_head_ne right_indices left_indices differ.symm,decide_eq_false_iff_not,
      UInt32.not_lt] at before
    exact ⟨same,distinct,UInt32.lt_of_le_of_ne before differ⟩
  · rintro ⟨same,distinct,ordered⟩
    rw [IndicesBefore_of_head_ne right_indices left_indices (UInt32.ne_of_lt ordered).symm]
    exact ⟨⟨same,by simpa using UInt32.le_of_lt ordered⟩,distinct⟩

/-- A pair of halves that passes merges into the row of the block above. -/
theorem merge_levelRow (count : idx.length = 2^K) {r j : Nat} (level : r < K) (inside : j < 2^(K-1-r))
    (pass : PairPasses c idx rows r j) :
    (levelRow c L idx rows r (2*j)).merge (levelRow c L idx rows r (2*j+1)) (L - r*c) c =
      levelRow c L idx rows (r+1) j := by
  obtain ⟨⟨x,xs,left_cons⟩,⟨y,ys,right_cons⟩⟩ := halves_cons count level inside
  obtain ⟨-,-,ordered⟩ := pass
  rw [left_cons,right_cons,List.headD_cons,List.headD_cons] at ordered
  have before : (levelRow c L idx rows r (2*j)).IndicesBefore (levelRow c L idx rows r (2*j+1)) = true := by
    rw [IndicesBefore_of_head_ne left_cons right_cons (UInt32.ne_of_lt ordered)]
    simpa using ordered
  have fields : L - (r+1)*c = L - r*c - c := by rw [Nat.succ_mul,Nat.sub_sub]
  simp only [FullStepRow.merge,before,if_true]
  congr 1
  · apply List.ext_getElem
    · simp [levelRow,fields]
    · intro q inside₁ inside₂
      have shift : (r+1)*c + q = r*c + (c + q) := by rw [Nat.succ_mul]; omega
      simp [levelRow,xorByte_block_succ,shift,Nat.add_comm c q]
  · exact (block_succ r j idx).symm

/-- One pass over the rows of level `r` checks every pair of halves and, where
    all pass, gives the rows of level `r+1`. -/
theorem collideRows_levelRows (count : idx.length = 2^K) {r : Nat} (level : r < K) (wide : c ≤ L - r*c) :
    collideRows c (L - r*c) (levelRows c L idx rows K r) =
      .ok (if ∀ j < 2^(K-1-r), PairPasses c idx rows r j then some (levelRows c L idx rows K (r+1)) else none) := by
  have halves : 2^(K-r) = 2 * 2^(K-1-r) := by
    rw [← pow_succ']
    congr 1
    omega
  rw [levelRows,halves,map_range_two_mul,collideRows_flatMap]
  have passes : ((List.range (2^(K-1-r))).map fun j =>
      (levelRow c L idx rows r (2*j),levelRow c L idx rows r (2*j+1))).all (fun p => pairPasses c p.1 p.2) = true ↔
      ∀ j < 2^(K-1-r), PairPasses c idx rows r j := by
    simp only [List.all_map,List.all_eq_true,List.mem_range,Function.comp_apply]
    exact forall₂_congr fun j inside => pairPasses_levelRow count level inside wide
  by_cases all : ∀ j < 2^(K-1-r), PairPasses c idx rows r j
  · rw [if_pos (passes.mpr all),if_pos all,List.map_map,levelRows,(by omega : K - (r+1) = K - 1 - r)]
    congr 2
    apply List.map_congr_left
    intro j mem
    exact merge_levelRow count level (List.mem_range.mp mem) (all j (List.mem_range.mp mem))
  · rw [if_neg (fun passed => all (passes.mp passed)),if_neg all]

theorem length_levelRows (K r : Nat) : (levelRows c L idx rows K r).length = 2^(K-r) := by
  simp [levelRows]

/-- The passes from level `r` on reach the one row of level `K` exactly when
    every pair from level `r` up passes. -/
theorem collideLevels_levelRows (count : idx.length = 2^K) (shape : L = (K+1)*c) :
    ∀ n r, r + n = K → collideLevels c (L - r*c) (levelRows c L idx rows K r) =
      .ok (if ∀ r' < K, r ≤ r' → ∀ j < 2^(K-1-r'), PairPasses c idx rows r' j
        then some (levelRows c L idx rows K K,L - K*c) else none)
  | 0, r, top => by
    rw [Nat.add_zero] at top
    subst top
    rw [collideLevels_of_length_le_one (by simp [length_levelRows]),if_pos (fun r' below above => by omega)]
  | n+1, r, below => by
    have level : r < K := by omega
    have wide : c ≤ L - r*c := by
      rw [shape,← Nat.sub_mul]
      exact Nat.le_mul_of_pos_left c (by omega)
    have more : 1 < (levelRows c L idx rows K r).length := by
      rw [length_levelRows]
      exact Nat.one_lt_two_pow (by omega)
    have next : L - r*c - c = L - (r+1)*c := by rw [Nat.succ_mul,Nat.sub_sub]
    by_cases here : ∀ j < 2^(K-1-r), PairPasses c idx rows r j
    · have pass : collideRows c (L - r*c) (levelRows c L idx rows K r) = _ := collideRows_levelRows count level wide
      rw [if_pos here] at pass
      rw [collideLevels_of_collideRows more pass,next,collideLevels_levelRows count shape n (r+1) (by omega)]
      have up : (∀ r' < K, r+1 ≤ r' → ∀ j < 2^(K-1-r'), PairPasses c idx rows r' j) ↔
          ∀ r' < K, r ≤ r' → ∀ j < 2^(K-1-r'), PairPasses c idx rows r' j := by
        constructor
        · intro above r' below' at_least
          rcases Nat.eq_or_lt_of_le at_least with rfl | strictly
          · exact here
          · exact above r' below' strictly
        · exact fun all r' below' above => all r' below' (by omega)
      simp only [up]
    · have fail : collideRows c (L - r*c) (levelRows c L idx rows K r) = _ := collideRows_levelRows count level wide
      rw [if_neg here] at fail
      rw [collideLevels_of_collideRows_none more fail,if_neg (fun all => here (all r level le_rfl))]

end Pass

section Verifier

variable {K c L : Nat} {idx : List eh_index} {rows : List (List UInt8)}

/-- The rows the verifier starts from are those of level 0. -/
theorem levelRows_zero {row : eh_index → List UInt8} (count : idx.length = 2^K) (widths : ∀ i, (row i).length = L) :
    idx.map (fun i => FullStepRow.mk (row i) [i]) = levelRows c L idx (idx.map row) K 0 := by
  apply List.ext_getElem
  · simp [levelRows,count]
  · intro j inside _
    have here : j < idx.length := by simpa using inside
    have hash : (List.range L).map (fun q => xorByte [row idx[j]] q) = row idx[j] := by
      apply List.ext_getElem
      · simp [widths]
      · intro q _ below
        simp [xorByte,List.getElem?_eq_getElem below]
    simp only [List.getElem_map,levelRows,List.getElem_range,levelRow,Nat.zero_mul,Nat.sub_zero,Nat.zero_add,
      block_map,block_zero here,List.map_cons,List.map_nil,hash]

/-- The last row's remaining field is the last field of the XOR of all rows. -/
theorem IsZero_levelRow_top (short : rows.length ≤ 2^K) (shape : L = (K+1)*c) :
    (levelRow c L idx rows K 0).IsZero (L - K*c) = true ↔ ∀ q < c, xorByte rows (K*c + q) = 0 := by
  have rest : L - K*c = c := by rw [shape,Nat.succ_mul]; omega
  rw [IsZero_iff,levelRow,rest,block_of_length_le short,List.take_of_length_le (by simp)]
  simp

/-- The verifier never fails an assertion, and accepts exactly when the width
    is right, every pair of halves at every level passes, and the last field of
    the XOR of all rows is zero. -/
theorem IsValidSolution_eq {N K : Nat} (fit : Parameters N K) (GenerateHash : eh_index → Vector UInt8 (HashOutput N))
    (soln : List UInt8) :
    IsValidSolution N K GenerateHash soln = .ok (decide (soln.length = SolutionWidth N K ∧
      AllPairsPass (CollisionByteLength N K) (GetIndicesFromMinimal soln (CollisionBitLength N K))
        ((GetIndicesFromMinimal soln (CollisionBitLength N K)).map (hashRow N K GenerateHash)) K ∧
      ∀ q < CollisionByteLength N K, xorByte ((GetIndicesFromMinimal soln (CollisionBitLength N K)).map
        (hashRow N K GenerateHash)) (K * CollisionByteLength N K + q) = 0)) := by
  by_cases sized : soln.length = SolutionWidth N K
  · rw [IsValidSolution,if_neg (not_not.mpr sized)]
    set idx := GetIndicesFromMinimal soln (CollisionBitLength N K)
    set rows := idx.map (hashRow N K GenerateHash) with rows_def
    set c := CollisionByteLength N K
    have count : idx.length = 2^K := length_GetIndicesFromMinimal fit sized
    have initial : idx.map (fun i => FullStepRow.mk (hashRow N K GenerateHash i) [i]) =
        levelRows c (HashLength N K) idx rows K 0 := levelRows_zero count (length_hashRow fit GenerateHash)
    have loop : collideLevels c (HashLength N K - 0 * c) (levelRows c (HashLength N K) idx rows K 0) = _ :=
      collideLevels_levelRows (c := c) (L := HashLength N K) count rfl K 0 (Nat.zero_add K)
    have last : levelRows c (HashLength N K) idx rows K K = [levelRow c (HashLength N K) idx rows K 0] := by
      simp [levelRows]
    have levels : (∀ r' < K, 0 ≤ r' → ∀ j < 2^(K-1-r'), PairPasses c idx rows r' j) ↔ AllPairsPass c idx rows K := by
      simp [AllPairsPass]
    rw [Nat.zero_mul,Nat.sub_zero] at loop
    simp only [initial,loop,levels,last]
    by_cases pass : AllPairsPass c idx rows K
    · have top : (levelRow c (HashLength N K) idx rows K 0).IsZero (HashLength N K - K*c) = true ↔ _ :=
        IsZero_levelRow_top (by rw [rows_def,List.length_map,count]) rfl
      simp only [sized,pass,true_and,if_true]
      exact congrArg Except.ok (Bool.eq_iff_iff.mpr (top.trans decide_eq_true_iff.symm))
    · simp only [sized,pass,false_and,and_false,if_false]
      rfl
  · rw [IsValidSolution,if_pos sized]
    simp only [sized,false_and,decide_false]
    rfl

end Verifier

/-- Pairs of halves agree on their next field at every level exactly when every
    aligned block XORs to zero on its first `r` fields. -/
theorem collide_levels_iff (rows : List (List UInt8)) (K c : Nat) :
    (∀ r < K, ∀ j < 2^(K-1-r), ∀ q < c,
      xorByte (block r (2*j) rows) (r*c + q) = xorByte (block r (2*j+1) rows) (r*c + q)) ↔
      ∀ r ≤ K, ∀ j < 2^(K-r), ∀ p < r * c, xorByte (block r j rows) p = 0 := by
  constructor
  · intro pairs r
    -- the first `r` fields of a block are its halves' first `r-1` and the pair's collision
    induction r with
    | zero => intro _ j _ p below; simp at below
    | succ r ih =>
      intro level j inside p below
      have halves : 2^(K-r) = 2 * 2^(K-(r+1)) := by rw [← pow_succ']; congr 1; omega
      rw [xorByte_block_succ]
      by_cases early : p < r * c
      · rw [ih (by omega) (2*j) (by omega) p early,ih (by omega) (2*j+1) (by omega) p early]
        rfl
      · obtain ⟨q,rfl⟩ : ∃ q, p = r*c + q := ⟨p - r*c,by omega⟩
        rw [pairs r (by omega) j (by rwa [(by omega : K - 1 - r = K - (r+1))]) q
          (by rw [Nat.succ_mul] at below; omega),UInt8.xor_self]
  · intro zero r level j inside q below
    have cleared := zero (r+1) level j (by rwa [(by omega : K - (r+1) = K - 1 - r)]) (r*c + q)
      (by rw [Nat.succ_mul]; omega)
    rwa [xorByte_block_succ,UInt8.xor_eq_zero_iff] at cleared

/-- The verifier's pair checks, with the last field, are Equihash's definition. -/
theorem AllPairsPass_iff_IsSolution {K c : Nat} {idx : List eh_index} {rows : List (List UInt8)}
    (count : idx.length ≤ 2^K) (short : rows.length ≤ 2^K) :
    (AllPairsPass c idx rows K ∧ ∀ q < c, xorByte rows (K*c + q) = 0) ↔ IsSolution K c ((K+1)*c) idx rows := by
  have collide := collide_levels_iff rows K c
  have distinct := nodup_iff_halves_disjoint K count
  have whole : ∀ p, xorByte (block K 0 rows) p = xorByte rows p := by rw [block_of_length_le short]; exact fun _ => rfl
  constructor
  · rintro ⟨pairs,top⟩
    have zeros := collide.mp fun r below j inside => (pairs r below j inside).1
    refine ⟨distinct.mpr fun r below j inside => (pairs r below j inside).2.1,
      fun r _ le j inside => zeros r le j inside,fun p below => ?_,fun r one le j inside => ?_⟩
    · by_cases early : p < K*c
      · rw [← whole]
        exact zeros K le_rfl 0 (by simp) p early
      · obtain ⟨q,rfl⟩ : ∃ q, p = K*c + q := ⟨p - K*c,by omega⟩
        exact top q (by rw [Nat.succ_mul] at below; omega)
    · exact (pairs (r-1) (by omega) j (by rwa [(by omega : K - 1 - (r-1) = K - r)])).2.2
  · rintro ⟨nodup,zeros,zero,ordered⟩
    have collided := collide.mpr fun r le j inside p below =>
      zeros r (Nat.one_le_iff_ne_zero.mpr (by rintro rfl; simp at below)) le j inside p below
    refine ⟨fun r below j inside => ⟨collided r below j inside,distinct.mp nodup r below j inside,?_⟩,
      fun q below => zero (K*c + q) (by rw [Nat.succ_mul]; omega)⟩
    simpa using ordered (r+1) (by omega) below j (by rwa [(by omega : K - (r+1) = K - 1 - r)])

/-- `Equihash<N,K>::IsValidSolution` against its definition: for every
    supported `(N,K)`, every hash function and every byte string, the
    solution packs `2^K` indices when its width is right, and the verifier
    accepts exactly a solution of the right width whose indices and rows meet
    the definition. -/
theorem IsValidSolution_iff_solution {N K : Nat} (supported : (N,K) ∈ supportedParameters)
    (GenerateHash : eh_index → Vector UInt8 (HashOutput N)) (soln : List UInt8) :
    (soln.length = SolutionWidth N K → (GetIndicesFromMinimal soln (CollisionBitLength N K)).length = 2^K) ∧
    (IsValidSolution N K GenerateHash soln = .ok true ↔ soln.length = SolutionWidth N K ∧
      IsSolution K (CollisionByteLength N K) (HashLength N K) (GetIndicesFromMinimal soln (CollisionBitLength N K))
        ((GetIndicesFromMinimal soln (CollisionBitLength N K)).map (hashRow N K GenerateHash))) := by
  have fit := parameters_of_supported supported
  refine ⟨length_GetIndicesFromMinimal fit,?_⟩
  rw [IsValidSolution_eq fit,Except.ok.injEq,decide_eq_true_iff]
  constructor
  · rintro ⟨sized,pairs,top⟩
    have count := length_GetIndicesFromMinimal fit sized
    exact ⟨sized,(AllPairsPass_iff_IsSolution count.le (by rw [List.length_map,count])).mp ⟨pairs,top⟩⟩
  · rintro ⟨sized,solution⟩
    have count := length_GetIndicesFromMinimal fit sized
    exact ⟨sized,(AllPairsPass_iff_IsSolution count.le (by rw [List.length_map,count])).mpr solution⟩

theorem verifier_matches_definition_at_48_5 : ((48,5) ∈ supportedParameters) ∧
    ((List.replicate 36 0).length = SolutionWidth 48 5 →
      (GetIndicesFromMinimal (List.replicate 36 0) (CollisionBitLength 48 5)).length = 2^5) ∧
    (IsValidSolution 48 5 (fun _ => Vector.replicate (HashOutput 48) 0) (List.replicate 36 0) = .ok true ↔
      (List.replicate 36 0).length = SolutionWidth 48 5 ∧
      IsSolution 5 (CollisionByteLength 48 5) (HashLength 48 5)
        (GetIndicesFromMinimal (List.replicate 36 0) (CollisionBitLength 48 5))
        ((GetIndicesFromMinimal (List.replicate 36 0) (CollisionBitLength 48 5)).map
          (hashRow 48 5 (fun _ => Vector.replicate (HashOutput 48) 0)))) :=
  ⟨by decide,IsValidSolution_iff_solution (by decide) (fun _ => Vector.replicate (HashOutput 48) 0) (List.replicate 36 0)⟩

end BitcoinPrivate.Equihash
