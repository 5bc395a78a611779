import BitcoinPrivate.Zcash.TreeRefinement

/-!
The witness of `IncrementalMerkleTree.cpp` refines the complete tree as well. A
witness of leaf `k` of the leaves `xs`, after the leaves `ys` (those of `xs`
followed by the ones appended since), keeps in `filled` the roots of the complete
blocks right of leaf `k`, lowest first, and in `cursor` the tree that fills the next
block (`IncrementalWitness.Holds`). The block at a clear level `l` of `k` starts
`zeroSum k l` leaves after leaf `k`, and `next_depth` finds it by its rank
`zeroRank k l`. The `partial_path` of such a witness is the filler queue that turns
the witnessed tree's root into the root over all of `ys` (`Holds.root_eq`).
-/
namespace BitcoinPrivate.Zcash
open CompleteTree

namespace IncrementalWitness

variable {Hash : Type} [Inhabited Hash] (combine : Hash → Hash → Hash)

/-- The cursor of a witness of leaf `k` after the leaves `ys`: with no cursor the
    completed blocks end with `ys`; a cursor holds the leaves of `ys` past them,
    fewer than the next block has. -/
def CursorHolds (k : Nat) (ys : List Hash) (w : IncrementalWitness Hash) : Prop :=
  match w.cursor with
  | none => ys.length = k + 1 + zeroSum k (w.tree.next_depth w.filled.length)
  | some c =>
    w.cursor_depth = w.tree.next_depth w.filled.length ∧
    k + 1 + zeroSum k w.cursor_depth < ys.length ∧
    ys.length < k + 1 + zeroSum k w.cursor_depth + 2^w.cursor_depth ∧
    IncrementalMerkleTree.Holds combine (ys.drop (k + 1 + zeroSum k w.cursor_depth)) c

/-- The witness of leaf `k` of `xs` has seen the leaves `ys`. -/
structure Holds (Depth k : Nat) (xs ys : List Hash) (w : IncrementalWitness Hash) : Prop where
  tree : IncrementalMerkleTree.Holds combine xs w.tree
  length : xs.length = k + 1
  grown : xs <+: ys
  fits : ys.length ≤ 2^Depth
  filled : ∀ j < w.filled.length,
    w.filled.getD j default = node combine default (w.tree.next_depth j) (sibling k (w.tree.next_depth j)) ys
  cursor : CursorHolds combine k ys w

variable {combine}

theorem cursorHolds_none {k : Nat} {ys : List Hash} {w : IncrementalWitness Hash} (none : w.cursor = none) :
    CursorHolds combine k ys w ↔ ys.length = k + 1 + zeroSum k (w.tree.next_depth w.filled.length) := by
  simp [CursorHolds,none]

theorem cursorHolds_some {k : Nat} {ys : List Hash} {w : IncrementalWitness Hash} {c : IncrementalMerkleTree Hash}
    (some : w.cursor = some c) :
    CursorHolds combine k ys w ↔
      w.cursor_depth = w.tree.next_depth w.filled.length ∧
      k + 1 + zeroSum k w.cursor_depth < ys.length ∧
      ys.length < k + 1 + zeroSum k w.cursor_depth + 2^w.cursor_depth ∧
      IncrementalMerkleTree.Holds combine (ys.drop (k + 1 + zeroSum k w.cursor_depth)) c := by
  simp [CursorHolds,some]

/-- The witness of the last leaf of a tree has seen the tree's leaves. -/
theorem witness_holds {Depth k : Nat} {xs : List Hash} {t : IncrementalMerkleTree Hash}
    (holds : IncrementalMerkleTree.Holds combine xs t) (length : xs.length = k + 1) (fits : xs.length ≤ 2^Depth) :
    Holds combine Depth k xs xs t.witness := by
  obtain ⟨bit,rank⟩ := IncrementalMerkleTree.next_depth_spec holds length 0
  -- the first block right of leaf `k` starts right after it
  have first : zeroSum k (t.next_depth 0) = 0 :=
    (zeroSum_eq_of_zeroRank_eq (Nat.zero_le _) (by rw [rank]; rfl)).symm
  refine ⟨holds,length,List.prefix_refl xs,fits,by simp [IncrementalMerkleTree.witness],?_⟩
  rw [cursorHolds_none rfl]
  simp [IncrementalMerkleTree.witness,first,length]

section Holds

variable {Depth k : Nat} {xs ys : List Hash} {w : IncrementalWitness Hash}

/-- The level of the `j`-th block right of leaf `k` is clear and of rank `j`. -/
theorem Holds.next_depth (holds : Holds combine Depth k xs ys w) (j : Nat) :
    k.testBit (w.tree.next_depth j) = false ∧ zeroRank k (w.tree.next_depth j) = j :=
  IncrementalMerkleTree.next_depth_spec holds.tree holds.length j

/-- A clear level of rank `j` is the level of the `j`-th block. -/
theorem Holds.next_depth_eq (holds : Holds combine Depth k xs ys w) {l : Nat} (bit : k.testBit l = false) :
    w.tree.next_depth (zeroRank k l) = l :=
  eq_of_zeroRank_eq (holds.next_depth _).1 bit (holds.next_depth _).2

/-- The next block starts where the block before it ends. -/
theorem Holds.zeroSum_succ (holds : Holds combine Depth k xs ys w) (j : Nat) :
    zeroSum k (w.tree.next_depth (j+1)) = zeroSum k (w.tree.next_depth j) + 2^(w.tree.next_depth j) := by
  obtain ⟨bit,rank⟩ := holds.next_depth j
  obtain ⟨-,rank'⟩ := holds.next_depth (j+1)
  exact zeroSum_of_zeroRank_succ bit (by rw [rank,rank'])

/-- The completed blocks end within the leaves seen. -/
theorem Holds.completed_le (holds : Holds combine Depth k xs ys w) :
    k + 1 + zeroSum k (w.tree.next_depth w.filled.length) ≤ ys.length := by
  have cursor := holds.cursor
  cases current : w.cursor with
  | none => rw [cursorHolds_none current] at cursor; omega
  | some c =>
    obtain ⟨depth,start,-,-⟩ := (cursorHolds_some current).mp cursor
    rw [← depth]
    omega

/-- Each filled block ends before the blocks still to fill. -/
theorem Holds.filled_le (holds : Holds combine Depth k xs ys w) {j : Nat} (lt : j < w.filled.length) :
    (sibling k (w.tree.next_depth j) + 1) * 2^(w.tree.next_depth j) ≤ ys.length := by
  obtain ⟨bit,rank⟩ := holds.next_depth j
  obtain ⟨-,rank'⟩ := holds.next_depth w.filled.length
  have above : w.tree.next_depth j < w.tree.next_depth w.filled.length :=
    lt_of_zeroRank_lt (k := k) (by rw [rank,rank']; exact lt)
  have ends := zeroSum_add_le_of_lt bit above
  have start := sibling_mul_of_not_testBit bit
  have completed := holds.completed_le
  rw [Nat.add_mul,start,one_mul]
  omega

/-- The leaves seen never reach past the tree of depth `Depth`. -/
theorem Holds.total (holds : Holds combine Depth k xs ys w) : k + 1 + zeroSum k Depth = 2^Depth := by
  have small : k < 2^Depth := by
    have := holds.grown.length_le
    have := holds.fits
    rw [holds.length] at *
    omega
  exact add_zeroSum_of_lt small

/-- A cursor below the top holds a block inside the tree. -/
theorem Holds.cursor_depth_lt (holds : Holds combine Depth k xs ys w) {c : IncrementalMerkleTree Hash}
    (current : w.cursor = some c) : w.cursor_depth < Depth := by
  obtain ⟨-,start,-,-⟩ := (cursorHolds_some current).mp holds.cursor
  have total := holds.total
  have fits := holds.fits
  exact lt_of_zeroSum_lt (k := k) (by omega)

/-- The filler queue of a witness: at each clear level the root of the block
    right of leaf `k`, complete, partial or empty. -/
theorem Holds.partial_path_getD (holds : Holds combine Depth k xs ys w) {l : Nat} (bit : k.testBit l = false) :
    (w.partial_path combine).getD (zeroRank k l) (IncrementalMerkleTree.empty_root combine l) =
      node combine default l (sibling k l) ys := by
  have level := holds.next_depth_eq bit
  have start := sibling_mul_of_not_testBit bit
  obtain ⟨current,rank⟩ := holds.next_depth w.filled.length
  rcases Nat.lt_trichotomy (zeroRank k l) w.filled.length with lt | eq | gt
  · -- a filled block
    rw [partial_path,List.getD_append _ _ _ _ lt,List.getD_eq_getElem _ _ lt,← List.getD_eq_getElem _ default lt,
      holds.filled _ lt,level]
  · -- the block being filled: the cursor's, or the next one to start
    rw [← eq,level] at current
    cases cursor : w.cursor with
    | none =>
      have ended := (cursorHolds_none cursor).mp holds.cursor
      rw [← eq,level] at ended
      rw [partial_path,cursor,List.append_nil,List.getD_eq_default _ _ (by omega),
        node_of_length_le (by rw [start]; omega)]
      rfl
    | some c =>
      obtain ⟨depth,started,within,cursorHolds⟩ := (cursorHolds_some cursor).mp holds.cursor
      rw [← eq,level] at depth
      rw [depth] at started within cursorHolds
      have deep : 1 ≤ l := by
        by_contra flat
        rw [show l = 0 by omega] at within started
        rw [pow_zero] at within
        omega
      have cursorRoot := IncrementalMerkleTree.root_holds cursorHolds deep (by simp; omega)
      rw [partial_path,cursor,List.getD_append_right _ _ _ _ (by omega),eq,Nat.sub_self,depth]
      simp only [List.getD_cons_zero]
      rw [cursorRoot,node,start,root_take]
  · -- a block past the leaves seen
    have above := lt_of_zeroRank_lt (k := k) (show zeroRank k _ < zeroRank k l by rw [rank]; exact gt)
    have ends := zeroSum_add_le_of_lt current above
    have completed : ys.length ≤ k + 1 + zeroSum k (w.tree.next_depth w.filled.length) +
        2^(w.tree.next_depth w.filled.length) := by
      cases cursor : w.cursor with
      | none =>
        rw [(cursorHolds_none cursor).mp holds.cursor]
        exact Nat.le_add_right _ _
      | some c =>
        obtain ⟨depth,-,within,-⟩ := (cursorHolds_some cursor).mp holds.cursor
        rw [depth] at within
        omega
    have short : (w.partial_path combine).length ≤ zeroRank k l := by
      cases cursor : w.cursor <;> simp [partial_path,cursor] <;> omega
    rw [List.getD_eq_default _ _ short,node_of_length_le (by rw [start]; omega)]
    rfl

/-- A witness's root is the root of the complete tree over the leaves it has seen. -/
theorem Holds.root_eq (holds : Holds combine Depth k xs ys w) (deep : 1 ≤ Depth) :
    w.root combine Depth = CompleteTree.root combine default Depth ys := by
  have total := holds.total
  have length := holds.length
  obtain ⟨zs,appended⟩ := holds.grown
  have inside : k < 2^Depth := by omega
  have fewer := IncrementalMerkleTree.parents_length_lt holds.tree holds.length deep
    (by have := holds.grown.length_le; have := holds.fits; omega)
  have leaf : xs.getD k default = ys.getD k default := by
    rw [← appended,List.getD_append _ _ _ _ (by omega)]
  rw [root,IncrementalMerkleTree.root_eq_pathRoot holds.tree holds.length fewer,root_path inside,leaf]
  apply pathRoot_congr
  intro l _
  cases bit : k.testBit l with
  | true =>
    -- a left sibling lies among the witnessed tree's own leaves
    have positive : 1 ≤ k / 2^l := by
      by_contra zero
      have small : k < 2^l := (Nat.div_eq_zero_iff_lt (Nat.two_pow_pos l)).mp (Nat.lt_one_iff.mp (Nat.lt_of_not_le zero))
      rw [Nat.testBit_eq_false_of_lt small] at bit
      cases bit
    have below : (sibling k l + 1) * 2^l ≤ xs.length := by
      have block : (sibling k l + 1) * 2^l = k / 2^l * 2^l := by
        simp only [sibling,bit,if_true]
        rw [Nat.sub_add_cancel positive]
      rw [block]
      exact le_trans (Nat.div_mul_le_self k (2^l)) (by omega)
    simp [IncrementalMerkleTree.fillerSibling,bit,← appended,node_append below]
  | false =>
    -- a right sibling comes from the partial path
    simp only [IncrementalMerkleTree.fillerSibling,bit,Bool.false_eq_true,if_false]
    exact holds.partial_path_getD bit

/-- Recording the root of the block being filled keeps every filled root right. -/
theorem filled_push {k : Nat} {ys : List Hash} {lev : Nat → Nat} {filled : List Hash} {r : Hash}
    (old : ∀ j < filled.length, filled.getD j default = node combine default (lev j) (sibling k (lev j)) ys)
    (new : r = node combine default (lev filled.length) (sibling k (lev filled.length)) ys) :
    ∀ j < (filled ++ [r]).length,
      (filled ++ [r]).getD j default = node combine default (lev j) (sibling k (lev j)) ys := by
  intro j lt
  rw [List.length_append,List.length_singleton] at lt
  rcases Nat.lt_or_ge j filled.length with before | last
  · rw [List.getD_append _ _ _ _ before,old j before]
  · have at_end : j = filled.length := by omega
    subst at_end
    simp [new]

/-- Appending to a witness whose tree is not full succeeds, and the witness has
    seen one more leaf. -/
theorem Holds.append (holds : Holds combine Depth k xs ys w) (deep : 1 ≤ Depth) (room : ys.length < 2^Depth)
    (x : Hash) : ∃ w', w.append combine Depth x = .ok w' ∧ Holds combine Depth k xs (ys ++ [x]) w' := by
  have total := holds.total
  have grown : xs <+: ys ++ [x] := holds.grown.trans (List.prefix_append ys [x])
  have fits : (ys ++ [x]).length ≤ 2^Depth := by simp; omega
  have kept : ∀ j < w.filled.length, w.filled.getD j default =
      node combine default (w.tree.next_depth j) (sibling k (w.tree.next_depth j)) (ys ++ [x]) := by
    intro j lt
    rw [holds.filled j lt,node_append (holds.filled_le lt)]
  obtain ⟨bit,rank⟩ := holds.next_depth w.filled.length
  have start := sibling_mul_of_not_testBit bit
  have next := holds.zeroSum_succ w.filled.length
  cases cursor : w.cursor with
  | none =>
    have ended := (cursorHolds_none cursor).mp holds.cursor
    -- the next block starts where the leaves seen end, inside the tree
    have inside : w.tree.next_depth w.filled.length < Depth := lt_of_zeroSum_lt (k := k) (by omega)
    by_cases single : w.tree.next_depth w.filled.length = 0
    · -- a block of one leaf is filled at once
      refine ⟨⟨w.tree,w.filled ++ [x],none,0⟩,?_,?_⟩
      · simp [IncrementalWitness.append,cursor,single,Nat.one_le_iff_ne_zero.mp deep]
      · refine ⟨holds.tree,holds.length,grown,fits,filled_push kept ?_,?_⟩
        · have position : sibling k 0 = ys.length := by
            rw [single,pow_zero,Nat.mul_one] at start
            rw [start,ended,single]
          rw [single,node_zero,position]
          simp
        · rw [cursorHolds_none rfl]
          simp only [List.length_append,List.length_singleton]
          rw [next,single,ended,single,pow_zero]
          omega
    · -- a higher block starts a cursor
      refine ⟨⟨w.tree,w.filled,some ⟨some x,none,[]⟩,w.tree.next_depth w.filled.length⟩,?_,?_⟩
      · simp [IncrementalWitness.append,cursor,single,Nat.not_le.mpr inside,IncrementalMerkleTree.append,
          IncrementalMerkleTree.is_complete,IncrementalMerkleTree.empty]
      · refine ⟨holds.tree,holds.length,grown,fits,kept,?_⟩
        have twice : 2 ≤ 2^(w.tree.next_depth w.filled.length) := by
          calc 2 = 2^1 := by norm_num
            _ ≤ 2^(w.tree.next_depth w.filled.length) := Nat.pow_le_pow_right (by norm_num) (by omega)
        refine (cursorHolds_some rfl).mpr ⟨rfl,?_,?_,?_⟩
        · simp; omega
        · simp; omega
        · rw [← ended,List.drop_left]
          exact (IncrementalMerkleTree.holds_of_length (k := 0) (by simp)).mpr
            ⟨by simp,by simp,IncrementalMerkleTree.parentsSpec_nil.mpr rfl⟩
  | some c =>
    obtain ⟨depth,started,within,cursorHolds⟩ := (cursorHolds_some cursor).mp holds.cursor
    have inside := holds.cursor_depth_lt cursor
    have levelDeep : 1 ≤ w.cursor_depth := by
      by_contra flat
      rw [show w.cursor_depth = 0 by omega] at within started
      rw [pow_zero] at within
      omega
    have dropped : (ys ++ [x]).drop (k + 1 + zeroSum k w.cursor_depth) =
        ys.drop (k + 1 + zeroSum k w.cursor_depth) ++ [x] := List.drop_append_of_le_length (by omega)
    have below : (ys.drop (k + 1 + zeroSum k w.cursor_depth)).length < 2^Depth := by simp; omega
    -- the cursor takes the leaf
    obtain ⟨c',appended,cursorHolds'⟩ := IncrementalMerkleTree.append_holds cursorHolds deep below x
    have complete := IncrementalMerkleTree.is_complete_iff cursorHolds' levelDeep (by simp; omega)
    by_cases full : (ys.drop (k + 1 + zeroSum k w.cursor_depth) ++ [x]).length = 2^w.cursor_depth
    · -- the cursor's block is complete: its root is recorded
      refine ⟨⟨w.tree,w.filled ++ [c'.root combine w.cursor_depth []],none,w.cursor_depth⟩,?_,?_⟩
      · simp [IncrementalWitness.append,cursor,appended,complete.mpr full,bind,Except.bind,pure,Except.pure]
      · refine ⟨holds.tree,holds.length,grown,fits,filled_push kept ?_,?_⟩
        · rw [IncrementalMerkleTree.root_holds cursorHolds' levelDeep (by omega),← dropped,node,start,← depth,
            root_take]
        · rw [cursorHolds_none rfl]
          simp only [List.length_append,List.length_singleton] at full ⊢
          rw [next,← depth]
          simp at full
          omega
    · -- the cursor keeps filling its block
      refine ⟨⟨w.tree,w.filled,some c',w.cursor_depth⟩,?_,?_⟩
      · have notFull : c'.is_complete w.cursor_depth = false := by
          rw [← Bool.not_eq_true,complete]
          exact full
        simp [IncrementalWitness.append,cursor,appended,notFull,bind,Except.bind,pure,Except.pure]
      · refine ⟨holds.tree,holds.length,grown,fits,kept,?_⟩
        refine (cursorHolds_some rfl).mpr ⟨depth,?_,?_,by rw [dropped]; exact cursorHolds'⟩
        · simp; omega
        · simp at full ⊢
          omega

/-- Appending to a witness whose tree is full throws. -/
theorem Holds.append_full (holds : Holds combine Depth k xs ys w) (full : ys.length = 2^Depth) (x : Hash) :
    w.append combine Depth x = .error "tree is full" := by
  have total := holds.total
  cases cursor : w.cursor with
  | none =>
    have ended := (cursorHolds_none cursor).mp holds.cursor
    -- the blocks right of leaf `k` are all complete: the next one is past the top
    have top : Depth ≤ w.tree.next_depth w.filled.length := by
      by_contra below
      have := zeroSum_add_le_of_lt (holds.next_depth w.filled.length).1 (Nat.lt_of_not_le below)
      have := Nat.two_pow_pos (w.tree.next_depth w.filled.length)
      omega
    simp [IncrementalWitness.append,cursor,top]
  | some c =>
    -- a cursor's block is inside the tree, so the tree is not full
    obtain ⟨depth,-,within,-⟩ := (cursorHolds_some cursor).mp holds.cursor
    have ends := zeroSum_add_le_of_lt (holds.next_depth w.filled.length).1
      (show w.tree.next_depth w.filled.length < Depth from depth ▸ holds.cursor_depth_lt cursor)
    rw [← depth] at ends
    omega

/-- Appending the leaves of a list that fits, in order, to a witness. -/
theorem Holds.appendAll (holds : Holds combine Depth k xs ys w) (deep : 1 ≤ Depth) :
    ∀ (zs : List Hash), ys.length + zs.length ≤ 2^Depth →
      ∃ w', w.appendAll combine Depth zs = .ok w' ∧ Holds combine Depth k xs (ys ++ zs) w' := by
  intro zs
  induction zs generalizing ys w with
  | nil => intro _; exact ⟨w,rfl,by simpa using holds⟩
  | cons z zs ih =>
    intro fits
    obtain ⟨next,appended,nextHolds⟩ := holds.append deep (by simp at fits; omega) z
    obtain ⟨last,rest,lastHolds⟩ := ih nextHolds (by simp at fits ⊢; omega)
    refine ⟨last,?_,by simpa using lastHolds⟩
    simp only [IncrementalWitness.appendAll,List.foldlM_cons,appended] at rest ⊢
    exact rest

/-- A witness throws exactly when its tree has seen `2^Depth` leaves. -/
theorem Holds.append_error_iff (holds : Holds combine Depth k xs ys w) (deep : 1 ≤ Depth) (x : Hash) :
    w.append combine Depth x = .error "tree is full" ↔ ys.length = 2^Depth := by
  constructor
  · intro thrown
    by_contra notFull
    obtain ⟨w',appended,-⟩ := holds.append deep (by have := holds.fits; omega) x
    rw [appended] at thrown
    cases thrown
  · intro full
    exact holds.append_full full x

end Holds

open IncrementalMerkleTree in
/-- A witness taken of the last leaf of a tree, then given every leaf appended to
    the tree, stays sound: its root is the tree's, its element is the leaf, the
    index of its path is the leaf's position while it fits in 64 bits, its path
    folds from the leaf up to its root, and it throws that the tree is full exactly
    when the tree does. -/
theorem witness_refines {Depth : Nat} (deep : 1 ≤ Depth) (bytes : Hash → List UInt8) {L : List Hash}
    (nonempty : L ≠ []) {T : IncrementalMerkleTree Hash}
    (built : IncrementalMerkleTree.appendAll combine Depth empty L = .ok T)
    (M : List Hash) (fits : L.length + M.length ≤ 2^Depth) :
    ∃ w T', T.witness.appendAll combine Depth M = .ok w ∧ T.appendAll combine Depth M = .ok T' ∧
      w.root combine Depth = T'.root combine Depth [] ∧
      w.element = .ok (L.getLast nonempty) ∧
      (∃ p, w.path combine Depth bytes = .ok p ∧
        (Depth ≤ 64 → convertVectorToInt p.index = .ok (L.length - 1)) ∧
        ∃ sibs : List Hash, sibs.length = Depth ∧
          p.authentication_path = (sibs.map fun h => convertBytesVectorToVector (bytes h)).reverse ∧
          foldLevels combine (L.getLast nonempty) (p.index.reverse.zip sibs) = w.root combine Depth) ∧
      (∀ x, w.append combine Depth x = .error "tree is full" ↔
        T'.append combine Depth x = .error "tree is full") := by
  obtain ⟨k,length⟩ : ∃ k, L.length = k + 1 := ⟨L.length - 1,by have := List.length_pos_of_ne_nil nonempty; omega⟩
  have within : L.length ≤ 2^Depth := by omega
  -- the tree holds `L`, and after `M` both it and the witness hold `L ++ M`
  obtain ⟨T₀,built₀,holds⟩ := appendAll_holds holds_empty deep L (by simpa using within)
  rw [built,Except.ok.injEq] at built₀
  subst built₀
  rw [List.nil_append] at holds
  obtain ⟨T',grownT,holdsT'⟩ := appendAll_holds holds deep M fits
  obtain ⟨w,grownW,holdsW⟩ := (witness_holds holds length within).appendAll deep M fits
  have leaf : L.getLast nonempty = L.getD k default := by
    simp [List.getLast_eq_getElem,length,List.getD_eq_getElem?_getD]
  have fewer := parents_length_lt holdsW.tree length deep within
  have inside : k < 2^Depth := by omega
  refine ⟨w,T',grownW,grownT,?_,?_,?_,?_⟩
  · rw [holdsW.root_eq deep,root_holds holdsT' deep (by simpa using fits)]
  · rw [element,last_holds holdsW.tree length,leaf]
  · refine ⟨_,path_holds holdsW.tree length fewer bytes (w.partial_path combine),?_,?_⟩
    · -- the index is the bits of `k`, most significant first
      intro small
      have bits : (List.range Depth).map (Prod.fst ∘ pathLevel combine L k (w.partial_path combine)) =
          (List.range Depth).map k.testBit := rfl
      rw [convertVectorToInt,if_neg (by simp; omega)]
      dsimp only
      rw [List.map_map,bits,bitsValue_testBit,Nat.mod_eq_of_lt inside,length,Nat.add_sub_cancel]
    · -- the siblings fold the leaf up its path to the witness's root
      refine ⟨((List.range Depth).map (pathLevel combine L k (w.partial_path combine))).map Prod.snd,by simp,
        by simp [List.map_map],?_⟩
      have levels : (List.range Depth).map (pathLevel combine L k (w.partial_path combine)) =
          (List.range Depth).map fun l => (k.testBit l,fillerSibling combine L k (w.partial_path combine) l) := rfl
      rw [List.reverse_reverse,List.zip_map',leaf]
      simp only [Prod.mk.eta,List.map_id']
      rw [levels,foldLevels_range,root,root_eq_pathRoot holdsW.tree length fewer]
  · intro x
    rw [holdsW.append_error_iff deep x,append_error_iff holdsT' deep (by simpa using fits) x]

open IncrementalMerkleTree in
/-- At the depths the source instantiates the witness at, the index of a path
    has at most 29 bits, so it reads back as the leaf's position: the witness is
    sound in every part. -/
theorem witness_refines_instantiated {Depth : Nat} (instantiated : Instantiated Depth) (bytes : Hash → List UInt8)
    {L : List Hash} (nonempty : L ≠ []) {T : IncrementalMerkleTree Hash}
    (built : IncrementalMerkleTree.appendAll combine Depth empty L = .ok T)
    (M : List Hash) (fits : L.length + M.length ≤ 2^Depth) :
    ∃ w T', T.witness.appendAll combine Depth M = .ok w ∧ T.appendAll combine Depth M = .ok T' ∧
      w.root combine Depth = T'.root combine Depth [] ∧
      w.element = .ok (L.getLast nonempty) ∧
      (∃ p, w.path combine Depth bytes = .ok p ∧
        convertVectorToInt p.index = .ok (L.length - 1) ∧
        ∃ sibs : List Hash, sibs.length = Depth ∧
          p.authentication_path = (sibs.map fun h => convertBytesVectorToVector (bytes h)).reverse ∧
          foldLevels combine (L.getLast nonempty) (p.index.reverse.zip sibs) = w.root combine Depth) ∧
      (∀ x, w.append combine Depth x = .error "tree is full" ↔
        T'.append combine Depth x = .error "tree is full") := by
  obtain ⟨deep,shallow⟩ := instantiated.bounds
  obtain ⟨w,T',grownW,grownT,root,element,⟨p,path,index,folds⟩,full⟩ :=
    witness_refines deep bytes nonempty built M fits
  exact ⟨w,T',grownW,grownT,root,element,⟨p,path,index (by omega),folds⟩,full⟩

theorem witness_refines_at_testing_depth :
    Instantiated INCREMENTAL_MERKLE_TREE_DEPTH_TESTING ∧ ([1,2] : List Nat) ≠ [] ∧
    IncrementalMerkleTree.appendAll (fun a b : Nat => a + b) INCREMENTAL_MERKLE_TREE_DEPTH_TESTING
      IncrementalMerkleTree.empty [1,2] = .ok ⟨some 1,some 2,[]⟩ ∧
    [1,2].length + [3].length ≤ 2^INCREMENTAL_MERKLE_TREE_DEPTH_TESTING ∧
    ∃ w T', (⟨some 1,some 2,[]⟩ : IncrementalMerkleTree Nat).witness.appendAll (fun a b => a + b)
        INCREMENTAL_MERKLE_TREE_DEPTH_TESTING [3] = .ok w ∧
      (⟨some 1,some 2,[]⟩ : IncrementalMerkleTree Nat).appendAll (fun a b => a + b)
        INCREMENTAL_MERKLE_TREE_DEPTH_TESTING [3] = .ok T' ∧
      w.root (fun a b => a + b) INCREMENTAL_MERKLE_TREE_DEPTH_TESTING =
        T'.root (fun a b => a + b) INCREMENTAL_MERKLE_TREE_DEPTH_TESTING [] ∧
      w.element = .ok ([1,2].getLast (by simp)) ∧
      (∃ p, w.path (fun a b => a + b) INCREMENTAL_MERKLE_TREE_DEPTH_TESTING (fun _ => []) = .ok p ∧
        convertVectorToInt p.index = .ok ([1,2].length - 1) ∧
        ∃ sibs : List Nat, sibs.length = INCREMENTAL_MERKLE_TREE_DEPTH_TESTING ∧
          p.authentication_path = (sibs.map fun h => convertBytesVectorToVector ((fun _ => []) h)).reverse ∧
          foldLevels (fun a b => a + b) ([1,2].getLast (by simp)) (p.index.reverse.zip sibs) =
            w.root (fun a b => a + b) INCREMENTAL_MERKLE_TREE_DEPTH_TESTING) ∧
      (∀ x, w.append (fun a b => a + b) INCREMENTAL_MERKLE_TREE_DEPTH_TESTING x = .error "tree is full" ↔
        T'.append (fun a b => a + b) INCREMENTAL_MERKLE_TREE_DEPTH_TESTING x = .error "tree is full") :=
  have testing : Instantiated INCREMENTAL_MERKLE_TREE_DEPTH_TESTING := .inr rfl
  have built : IncrementalMerkleTree.appendAll (fun a b : Nat => a + b) INCREMENTAL_MERKLE_TREE_DEPTH_TESTING
      IncrementalMerkleTree.empty [1,2] = .ok ⟨some 1,some 2,[]⟩ := by rfl
  have fits : [1,2].length + [3].length ≤ 2^INCREMENTAL_MERKLE_TREE_DEPTH_TESTING := by decide
  ⟨testing,by simp,built,fits,witness_refines_instantiated testing (fun _ => []) (by simp) built [3] fits⟩

end IncrementalWitness

end BitcoinPrivate.Zcash
