import BitcoinPrivate.Zcash.IncrementalMerkleTree

/-!
The incremental tree refines the complete tree of `CompleteTree`. A tree holding
the leaves `xs` with `n = k+1` leaves keeps the pair of leaves around leaf `k` in
`left` and `right`, and in `parents` the binary counter `k / 2` of complete pairs:
parent `i` is present exactly when bit `i` of the counter is set, and then holds
the complete block of `2^(i+1)` leaves just before the block of the counter
(`Holds`). Appending a leaf is an increment of that counter (`carry_spec`), and
every root the tree computes is the fold of leaf `k` through its path, with the
stored parents as the left siblings and the filler queue as the right ones
(`root_eq_pathRoot`).
-/
namespace BitcoinPrivate.Zcash
open CompleteTree

namespace IncrementalMerkleTree

variable {Hash : Type} [Inhabited Hash] (combine : Hash → Hash → Hash)

/-- From parent `i` up, the parents hold the counter `m`: parent `i` is present
    exactly when `m` is odd, holding block `m-1` of `2^(i+1)` leaves. -/
def ParentsSpec (xs : List Hash) : Nat → Nat → List (Option Hash) → Prop
  | m, _, [] => m = 0
  | m, i, p :: ps =>
    0 < m ∧ p = (if m % 2 = 1 then some (node combine default (i+1) (m-1) xs) else none) ∧
      ParentsSpec xs (m/2) (i+1) ps

/-- The tree holds exactly the leaves `xs`. -/
def Holds (xs : List Hash) (t : IncrementalMerkleTree Hash) : Prop :=
  if xs.length = 0 then t = empty else
  t.left = some (xs.getD (2 * ((xs.length-1) / 2)) default) ∧
  t.right = (if (xs.length-1) % 2 = 1 then some (xs.getD (xs.length-1) default) else none) ∧
  ParentsSpec combine xs ((xs.length-1) / 2) 0 t.parents

variable {combine}

theorem parentsSpec_nil {xs : List Hash} {m i : Nat} : ParentsSpec combine xs m i [] ↔ m = 0 := Iff.rfl

theorem parentsSpec_cons {xs : List Hash} {m i : Nat} {p : Option Hash} {ps : List (Option Hash)} :
    ParentsSpec combine xs m i (p :: ps) ↔
      0 < m ∧ p = (if m % 2 = 1 then some (node combine default (i+1) (m-1) xs) else none) ∧
        ParentsSpec combine xs (m/2) (i+1) ps := Iff.rfl

/-- The counter fits in as many bits as there are parents. -/
theorem ParentsSpec.lt_pow {xs : List Hash} :
    ∀ {m i : Nat} {ps : List (Option Hash)}, ParentsSpec combine xs m i ps → m < 2^ps.length
  | _, _, [], spec => by rw [parentsSpec_nil.mp spec]; simp
  | m, _, _ :: _, spec => by
    have rest := (parentsSpec_cons.mp spec).2.2.lt_pow
    rw [List.length_cons,pow_succ]
    omega

/-- The last parent is present, so the counter needs every parent. -/
theorem ParentsSpec.pow_le {xs : List Hash} :
    ∀ {m i : Nat} {ps : List (Option Hash)}, ParentsSpec combine xs m i ps → ps ≠ [] → 2^(ps.length-1) ≤ m
  | _, _, [], _, nonempty => absurd rfl nonempty
  | m, _, _ :: [], spec, _ => by have := (parentsSpec_cons.mp spec).1; simp; omega
  | m, _, _ :: q :: qs, spec, _ => by
    have rest := (parentsSpec_cons.mp spec).2.2.pow_le (List.cons_ne_nil q qs)
    simp only [List.length_cons,Nat.add_sub_cancel] at rest ⊢
    rw [pow_succ]
    omega

/-- Every parent is present exactly when the counter is all ones. -/
theorem ParentsSpec.all_isSome {xs : List Hash} :
    ∀ {m i : Nat} {ps : List (Option Hash)}, ParentsSpec combine xs m i ps →
      (ps.all Option.isSome ↔ m + 1 = 2^ps.length)
  | _, _, [], spec => by simp [parentsSpec_nil.mp spec]
  | m, _, p :: ps, spec => by
    obtain ⟨positive,entry,rest⟩ := parentsSpec_cons.mp spec
    have restAll := rest.all_isSome
    rw [List.all_cons,Bool.and_eq_true,restAll,entry,List.length_cons,pow_succ]
    by_cases odd : m % 2 = 1
    · simp only [odd,if_true,Option.isSome_some,true_and]; omega
    · simp only [odd,if_false,Option.isSome_none,Bool.false_eq_true,false_and,false_iff]; omega

/-- Complete blocks keep their roots when leaves are appended. -/
theorem ParentsSpec.append {xs : List Hash} (ys : List Hash) :
    ∀ {m i : Nat} {ps : List (Option Hash)}, m * 2^(i+1) ≤ xs.length →
      ParentsSpec combine xs m i ps → ParentsSpec combine (xs ++ ys) m i ps
  | _, _, [], _, spec => spec
  | m, i, p :: ps, fits, spec => by
    obtain ⟨positive,entry,rest⟩ := parentsSpec_cons.mp spec
    have inside : (m - 1 + 1) * 2^(i+1) ≤ xs.length := by rw [Nat.sub_add_cancel positive]; exact fits
    have restFits : m / 2 * 2^(i+1+1) ≤ xs.length := by
      have regroup : m / 2 * 2^(i+1+1) = m / 2 * 2 * 2^(i+1) := by rw [pow_succ]; ring
      rw [regroup]
      exact le_trans (Nat.mul_le_mul_right _ (Nat.div_mul_le_self m 2)) fits
    refine parentsSpec_cons.mpr ⟨positive,?_,rest.append ys restFits⟩
    rw [entry,node_append inside]

/-- The carry of `append` increments the counter: the carried value is the block
    of the counter, and each present parent merges into it. -/
theorem carry_spec {zs : List Hash} :
    ∀ {fuel m i : Nat} {ps : List (Option Hash)} {c : Hash}, ParentsSpec combine zs m i ps →
      c = node combine default (i+1) m zs → ps.length < fuel →
        ParentsSpec combine zs (m+1) i (carry combine fuel ps c)
  | 0, _, _, _, _, _, _, short => absurd short (Nat.not_lt_zero _)
  | _+1, m, i, [], c, spec, carried, _ => by
    rw [parentsSpec_nil.mp spec] at carried ⊢
    exact parentsSpec_cons.mpr ⟨by omega,by simp [carried],parentsSpec_nil.mpr rfl⟩
  | _+1, m, i, none :: ps, c, spec, carried, _ => by
    obtain ⟨positive,entry,rest⟩ := parentsSpec_cons.mp spec
    have even : m % 2 = 0 := by by_contra odd; simp [Nat.mod_two_ne_zero.mp odd] at entry
    have half : (m+1) / 2 = m / 2 := by omega
    refine parentsSpec_cons.mpr ⟨by omega,?_,half ▸ rest⟩
    simp [carried,show (m+1) % 2 = 1 by omega]
  | fuel+1, m, i, some p :: ps, c, spec, carried, short => by
    obtain ⟨positive,entry,rest⟩ := parentsSpec_cons.mp spec
    have odd : m % 2 = 1 := by by_contra even; simp [even] at entry
    have stored : p = node combine default (i+1) (m-1) zs := by simpa [odd] using entry
    have merged : combine p c = node combine default (i+1+1) (m/2) zs := by
      rw [node_succ,stored,carried,show 2 * (m/2) = m-1 by omega,show m-1+1 = m by omega]
    have half : (m+1) / 2 = m / 2 + 1 := by omega
    refine parentsSpec_cons.mpr ⟨by omega,by simp [show (m+1) % 2 = 0 by omega],?_⟩
    rw [half]
    exact carry_spec rest merged (by simp at short; omega)

theorem holds_nil {t : IncrementalMerkleTree Hash} : Holds combine [] t ↔ t = empty := by simp [Holds]

/-- A tree holding `k+1` leaves: the pair around leaf `k` and the counter `k / 2`. -/
theorem holds_of_length {xs : List Hash} {k : Nat} (length : xs.length = k+1) {t : IncrementalMerkleTree Hash} :
    Holds combine xs t ↔
      t.left = some (xs.getD (2 * (k/2)) default) ∧
      t.right = (if k % 2 = 1 then some (xs.getD k default) else none) ∧
      ParentsSpec combine xs (k/2) 0 t.parents := by
  simp [Holds,length]

theorem holds_empty : Holds combine [] (empty : IncrementalMerkleTree Hash) := holds_nil.mpr rfl

/-- A tree holding leaves is complete at a depth exactly when it holds as many
    leaves as a tree of that depth has. -/
theorem is_complete_iff {xs : List Hash} {t : IncrementalMerkleTree Hash} (holds : Holds combine xs t)
    {depth : Nat} (deep : 1 ≤ depth) (fits : xs.length ≤ 2^depth) :
    t.is_complete depth = true ↔ xs.length = 2^depth := by
  cases length : xs.length with
  | zero =>
    have noLeaf : xs = [] := List.eq_nil_of_length_eq_zero length
    subst noLeaf
    rw [holds_nil.mp holds]
    simp [is_complete,empty,(Nat.two_pow_pos depth).ne]
  | succ k =>
    obtain ⟨leftIs,rightIs,spec⟩ := (holds_of_length length).mp holds
    have full := spec.all_isSome
    have below := spec.lt_pow
    have above := spec.pow_le
    have powers : 2^depth = 2 * 2^(depth-1) := by rw [← pow_succ']; congr 1; omega
    simp only [is_complete,leftIs,rightIs,Option.isSome_some,Bool.true_and,Bool.and_eq_true,
      beq_iff_eq,full]
    by_cases odd : k % 2 = 1
    · simp only [odd,if_true,Option.isSome_some,true_and]
      constructor
      · rintro ⟨count,ones⟩
        subst count
        rw [Nat.add_sub_cancel] at powers
        omega
      · intro total
        have ones : k / 2 + 1 = 2^(depth-1) := by omega
        have atLeast : depth - 1 ≤ t.parents.length := by
          by_contra short
          have : 2^t.parents.length < 2^(depth-1) := Nat.pow_lt_pow_right (by norm_num) (by omega)
          omega
        have atMost : t.parents.length ≤ depth - 1 := by
          by_cases none : t.parents = []
          · simp [none]
          · have low := above none
            by_contra long
            have : 2^(depth-1) ≤ 2^(t.parents.length-1) := Nat.pow_le_pow_right (by norm_num) (by omega)
            omega
        have same : t.parents.length = depth - 1 := le_antisymm atMost atLeast
        exact ⟨by omega,by rw [same]; exact ones⟩
    · simp only [odd,if_false,Option.isSome_none,Bool.false_eq_true,false_and,false_iff]
      omega

/-- Trees that fit in a depth have fewer parents than the depth. -/
theorem parents_length_lt {xs : List Hash} {t : IncrementalMerkleTree Hash} (holds : Holds combine xs t)
    {k : Nat} (length : xs.length = k+1) {depth : Nat} (deep : 1 ≤ depth) (fits : xs.length ≤ 2^depth) :
    t.parents.length < depth := by
  obtain ⟨-,-,spec⟩ := (holds_of_length length).mp holds
  by_cases none : t.parents = []
  · simp [none]; omega
  · have low := spec.pow_le none
    have high : k / 2 < 2^(depth-1) := by
      have : 2^depth = 2 * 2^(depth-1) := by rw [← pow_succ']; congr 1; omega
      omega
    by_contra long
    have : 2^(depth-1) ≤ 2^(t.parents.length-1) := Nat.pow_le_pow_right (by norm_num) (by omega)
    omega

/-- Appending to a tree that is not full succeeds and holds one more leaf. -/
theorem append_holds {xs : List Hash} {t : IncrementalMerkleTree Hash} (holds : Holds combine xs t)
    {Depth : Nat} (deep : 1 ≤ Depth) (room : xs.length < 2^Depth) (x : Hash) :
    ∃ t', t.append combine Depth x = .ok t' ∧ Holds combine (xs ++ [x]) t' := by
  have notFull : t.is_complete Depth = false := by
    rw [← Bool.not_eq_true,is_complete_iff holds deep (le_of_lt room)]
    omega
  cases length : xs.length with
  | zero =>
    have noLeaf : xs = [] := List.eq_nil_of_length_eq_zero length
    subst noLeaf
    rw [holds_nil.mp holds]
    refine ⟨⟨some x,none,[]⟩,by simp [append,is_complete,empty],?_⟩
    exact (holds_of_length (k := 0) (by simp)).mpr ⟨by simp,by simp,parentsSpec_nil.mpr rfl⟩
  | succ k =>
    obtain ⟨leftIs,rightIs,spec⟩ := (holds_of_length length).mp holds
    have longer : (xs ++ [x]).length = k+1+1 := by simp [length]
    have early : ∀ {j : Nat}, j ≤ k → (xs ++ [x]).getD j default = xs.getD j default := by
      intro j le
      simp [List.getD_eq_getElem?_getD,List.getElem?_append_left (show j < xs.length by omega)]
    have fresh : (xs ++ [x]).getD (k+1) default = x := by
      simp [List.getD_eq_getElem?_getD,length]
    have moved := spec.append [x] (by simp only [zero_add,pow_one]; omega)
    by_cases odd : k % 2 = 1
    · -- both leaves are present: the pair is carried into the parents
      rw [if_pos odd] at rightIs
      have pair : combine (xs.getD (2 * (k/2)) default) (xs.getD k default) =
          node combine default (0+1) (k/2) (xs ++ [x]) := by
        rw [node_succ,node_zero,node_zero,early (by omega),show 2 * (k/2) + 1 = k by omega,early le_rfl]
      have fuel := parents_length_lt holds length deep (le_of_lt room)
      refine ⟨⟨some x,none,carry combine Depth t.parents
        (combine (xs.getD (2 * (k/2)) default) (xs.getD k default))⟩,?_,?_⟩
      · simp [append,notFull,leftIs,rightIs]
      · refine (holds_of_length longer).mpr ⟨?_,?_,?_⟩
        · simp only [show 2 * ((k+1)/2) = k+1 by omega,fresh]
        · simp [show (k+1) % 2 = 0 by omega]
        · rw [show (k+1)/2 = k/2 + 1 by omega]
          exact carry_spec moved pair fuel
    · -- only the left leaf is present: the new leaf becomes the right one
      rw [if_neg odd] at rightIs
      refine ⟨{ t with right := some x },by simp [append,notFull,leftIs,rightIs],?_⟩
      refine (holds_of_length longer).mpr ⟨?_,?_,?_⟩
      · simp only [leftIs,show (k+1)/2 = k/2 by omega,early (show 2 * (k/2) ≤ k by omega)]
      · simp only [show (k+1) % 2 = 1 by omega,if_true,fresh]
      · rw [show (k+1)/2 = k/2 by omega]
        exact moved

/-- Appending to a full tree throws. -/
theorem append_full {xs : List Hash} {t : IncrementalMerkleTree Hash} (holds : Holds combine xs t)
    {Depth : Nat} (deep : 1 ≤ Depth) (full : xs.length = 2^Depth) (x : Hash) :
    t.append combine Depth x = .error "tree is full" := by
  have complete : t.is_complete Depth = true := (is_complete_iff holds deep (le_of_eq full)).mpr full
  simp [append,complete]

/-- Appending throws exactly when the tree holds `2^Depth` leaves. -/
theorem append_error_iff {xs : List Hash} {t : IncrementalMerkleTree Hash} (holds : Holds combine xs t)
    {Depth : Nat} (deep : 1 ≤ Depth) (fits : xs.length ≤ 2^Depth) (x : Hash) :
    t.append combine Depth x = .error "tree is full" ↔ xs.length = 2^Depth := by
  constructor
  · intro thrown
    by_contra notFull
    obtain ⟨t',appended,-⟩ := append_holds holds deep (by omega) x
    rw [appended] at thrown
    cases thrown
  · intro full
    exact append_full holds deep full x

/-- Appending the leaves of a list that fits, in order, from a tree that holds
    `xs` gives the tree that holds both. -/
theorem appendAll_holds {xs : List Hash} {t : IncrementalMerkleTree Hash} (holds : Holds combine xs t)
    {Depth : Nat} (deep : 1 ≤ Depth) :
    ∀ (ys : List Hash), xs.length + ys.length ≤ 2^Depth →
      ∃ t', appendAll combine Depth t ys = .ok t' ∧ Holds combine (xs ++ ys) t' := by
  intro ys
  induction ys generalizing xs t with
  | nil => intro _; exact ⟨t,rfl,by simpa using holds⟩
  | cons y ys ih =>
    intro fits
    obtain ⟨next,appended,nextHolds⟩ := append_holds holds deep (by simp at fits; omega) y
    obtain ⟨last,rest,lastHolds⟩ := ih nextHolds (by simp at fits ⊢; omega)
    refine ⟨last,?_,by simpa using lastHolds⟩
    simp only [appendAll,List.foldlM_cons,appended] at rest ⊢
    exact rest

variable (combine) in
/-- The sibling at level `l` of leaf `k` when the right siblings come from the
    filler queue `q`: a set bit takes the stored left block, a clear bit the
    queue entry of its rank, or the empty root once the queue is used up. -/
def fillerSibling (xs : List Hash) (k : Nat) (q : List Hash) (l : Nat) : Hash :=
  if k.testBit l then node combine default l (sibling k l) xs else q.getD (zeroRank k l) (empty_root combine l)

theorem fillerNext_drop (q : List Hash) (z d : Nat) :
    fillerNext combine (q.drop z) d = (q.getD z (empty_root combine d),q.drop (z+1)) := by
  cases rest : q.drop z with
  | nil =>
    have short : q.length ≤ z := List.drop_eq_nil_iff.mp rest
    simp [fillerNext,List.getD_eq_getElem?_getD,List.getElem?_eq_none short,List.drop_eq_nil_of_le (by omega : q.length ≤ z+1)]
  | cons h tail =>
    have front := congrArg List.head? rest
    have after := congrArg List.tail rest
    rw [List.head?_drop] at front
    rw [List.tail_drop] at after
    simp [fillerNext,List.getD_eq_getElem?_getD,front,after]

theorem testBit_succ_of_div {k m i : Nat} (counter : m = k / 2^(i+1)) : k.testBit (i+1) = decide (m % 2 = 1) := by
  rw [Nat.testBit_eq_decide_div_mod_eq,counter]

theorem div_succ_of_div {k m i : Nat} (counter : m = k / 2^(i+1)) : m / 2 = k / 2^(i+1+1) := by
  rw [counter,Nat.div_div_eq_div_mul,← pow_succ]

/-- The parents loop of `root` folds the path through the stored left siblings
    and the filler's right siblings. -/
theorem rootParents_path {xs : List Hash} {k : Nat} (q : List Hash) (leaf : Hash) :
    ∀ {m i : Nat} {ps : List (Option Hash)} {r : Hash} {queue : List Hash}, ParentsSpec combine xs m i ps →
      m = k / 2^(i+1) → r = pathRoot combine leaf k (fillerSibling combine xs k q) (i+1) →
      queue = q.drop (zeroRank k (i+1)) →
      rootParents combine r queue (i+1) ps =
        (pathRoot combine leaf k (fillerSibling combine xs k q) (i+1+ps.length),
          q.drop (zeroRank k (i+1+ps.length)),i+1+ps.length)
  | _, _, [], r, _, _, _, current, rest => by simp [rootParents,current,rest]
  | m, i, p :: ps, r, queue, spec, counter, current, rest => by
    obtain ⟨positive,entry,later⟩ := parentsSpec_cons.mp spec
    have bit := testBit_succ_of_div counter
    have shifted := div_succ_of_div counter
    have lengths : i+1+(p :: ps).length = i+1+1+ps.length := by simp; omega
    rw [lengths]
    by_cases odd : m % 2 = 1
    · -- a present parent is the left sibling at this level
      have stored : p = some (node combine default (i+1) (m-1) xs) := by simpa [odd] using entry
      have next : combine (node combine default (i+1) (m-1) xs) r =
          pathRoot combine leaf k (fillerSibling combine xs k q) (i+1+1) := by
        simp [pathRoot,fillerSibling,bit,odd,sibling,← counter,current]
      have rank : zeroRank k (i+1+1) = zeroRank k (i+1) := by simp [zeroRank,bit,odd]
      rw [stored,rootParents]
      exact rootParents_path q leaf later shifted next (by rw [rank,rest])
    · -- an absent parent takes its right sibling from the filler
      have absent : p = none := by simpa [odd] using entry
      have next : combine r (q.getD (zeroRank k (i+1)) (empty_root combine (i+1))) =
          pathRoot combine leaf k (fillerSibling combine xs k q) (i+1+1) := by
        simp [pathRoot,fillerSibling,bit,odd,current]
      have rank : zeroRank k (i+1+1) = zeroRank k (i+1) + 1 := by simp [zeroRank,bit,odd]
      rw [absent,rootParents,rest,fillerNext_drop]
      exact rootParents_path q leaf later shifted next (by rw [rank])

/-- Past the parents every bit of `k` is clear, and `root` fills the path with
    right siblings from the filler. -/
theorem rootFill_path {xs : List Hash} {k : Nat} (q : List Hash) (leaf : Hash) :
    ∀ (n : Nat) {d : Nat} {r : Hash} {queue : List Hash}, (∀ l, d ≤ l → k.testBit l = false) →
      r = pathRoot combine leaf k (fillerSibling combine xs k q) d → queue = q.drop (zeroRank k d) →
      rootFill combine r queue d n = pathRoot combine leaf k (fillerSibling combine xs k q) (d+n)
  | 0, _, _, _, _, current, _ => current
  | n+1, d, r, queue, clear, current, rest => by
    have bit := clear d le_rfl
    have next : combine r (q.getD (zeroRank k d) (empty_root combine d)) =
        pathRoot combine leaf k (fillerSibling combine xs k q) (d+1) := by
      simp [pathRoot,fillerSibling,bit,current]
    have rank : zeroRank k (d+1) = zeroRank k d + 1 := by simp [zeroRank,bit]
    rw [rootFill,rest,fillerNext_drop,rootFill_path q leaf n (fun l above => clear l (by omega)) next (by rw [rank])]
    congr 1
    omega

/-- Every root a tree computes is the fold of its last leaf through its path:
    the stored parents on the left, the filler queue on the right. -/
theorem root_eq_pathRoot {xs : List Hash} {t : IncrementalMerkleTree Hash} (holds : Holds combine xs t)
    {k : Nat} (length : xs.length = k+1) {depth : Nat} (deep : t.parents.length < depth) (q : List Hash) :
    t.root combine depth q = pathRoot combine (xs.getD k default) k (fillerSibling combine xs k q) depth := by
  obtain ⟨leftIs,rightIs,spec⟩ := (holds_of_length length).mp holds
  have top : ∀ l, 1 + t.parents.length ≤ l → k.testBit l = false := by
    have small : k < 2^(t.parents.length+1) := by have := spec.lt_pow; rw [pow_succ]; omega
    exact fun l above => testBit_of_lt small (by omega)
  have bit0 : k.testBit 0 = decide (k % 2 = 1) := by simp [Nat.testBit_eq_decide_div_mod_eq]
  have finish : ∀ (r : Hash) (queue : List Hash),
      combine (xs.getD (2 * (k/2)) default) r = pathRoot combine (xs.getD k default) k (fillerSibling combine xs k q) 1 →
      queue = q.drop (zeroRank k 1) →
      rootFill combine (rootParents combine (combine (xs.getD (2 * (k/2)) default) r) queue 1 t.parents).1
        (rootParents combine (combine (xs.getD (2 * (k/2)) default) r) queue 1 t.parents).2.1
        (rootParents combine (combine (xs.getD (2 * (k/2)) default) r) queue 1 t.parents).2.2
        (depth - (rootParents combine (combine (xs.getD (2 * (k/2)) default) r) queue 1 t.parents).2.2) =
      pathRoot combine (xs.getD k default) k (fillerSibling combine xs k q) depth := by
    intro r queue current rest
    rw [rootParents_path (k := k) q _ spec (by simp) (by simpa using current) rest]
    dsimp only
    rw [rootFill_path q _ _ top rfl rfl]
    congr 1
    omega
  by_cases odd : k % 2 = 1
  · -- the last leaf is the right one, its sibling the left one
    have rightSome : t.right = some (xs.getD k default) := by simp [rightIs,odd]
    simp only [root,leftIs,rightSome]
    refine finish _ _ ?_ (by simp [zeroRank,bit0,odd])
    simp [pathRoot,fillerSibling,sibling,bit0,odd,node_zero,show 2 * (k/2) = k-1 by omega]
  · -- the last leaf is the left one, its sibling comes from the filler
    have rightNone : t.right = none := by simp [rightIs,odd]
    have first := @fillerNext_drop _ _ combine q 0 0
    rw [List.drop_zero] at first
    simp only [root,leftIs,rightNone,first]
    refine finish _ _ ?_ (by simp [zeroRank,bit0,odd])
    simp [pathRoot,fillerSibling,zeroRank,bit0,odd,show 2 * (k/2) = k by omega]

theorem rootFill_empty (n : Nat) : ∀ (d : Nat),
    rootFill combine (empty_root combine d) [] d n = empty_root combine (d+n) := by
  induction n with
  | zero => intro d; rfl
  | succ n ih =>
    intro d
    rw [rootFill,show (fillerNext combine [] d) = (empty_root combine d,[]) from rfl]
    rw [show combine (empty_root combine d) (empty_root combine d) = empty_root combine (d+1) from rfl,ih]
    congr 1
    omega

/-- With no filler, the root of a tree is the root of the complete tree over its
    leaves. -/
theorem root_holds {xs : List Hash} {t : IncrementalMerkleTree Hash} (holds : Holds combine xs t)
    {Depth : Nat} (deep : 1 ≤ Depth) (fits : xs.length ≤ 2^Depth) :
    t.root combine Depth [] = CompleteTree.root combine default Depth xs := by
  cases length : xs.length with
  | zero =>
    have noLeaf : xs = [] := List.eq_nil_of_length_eq_zero length
    subst noLeaf
    rw [holds_nil.mp holds,root_nil]
    have start := @rootFill_empty _ _ combine (Depth-1) 1
    rw [show 1 + (Depth-1) = Depth by omega] at start
    simp only [root,empty,rootParents,fillerNext]
    exact start
  | succ k =>
    rw [root_eq_pathRoot holds length (parents_length_lt holds length deep fits),root_path (d := Depth) (k := k) (by omega)]
    apply pathRoot_congr
    intro l _
    by_cases bit : k.testBit l
    · simp [fillerSibling,bit]
    · have past : xs.length ≤ sibling k l * 2^l := by
        have := Nat.lt_mul_div_succ k (Nat.two_pow_pos l)
        simp only [sibling,bit,Bool.false_eq_true,if_false]
        rw [Nat.mul_comm] at this
        omega
      simp [fillerSibling,bit,node_of_length_le past,empty_root]

/-- What the present parents of the counter `m` from parent `i` up add to the
    sum of `size()`: `2^(j+1)` for each parent `j`, and for parent 30, whose
    `1 << 31` is `INT_MIN`, the `2^64 - 2^32` more that make it `2^64 - 2^31`. -/
def parentsTerm (m i : Nat) : Nat := m * 2^(i+1) + if 2^(30-i) ≤ m then 2^64 - 2^32 else 0

/-- One parent up, the room left below a bound of `2^k` halves. -/
theorem two_pow_sub_succ {k i : Nat} (below : i < k) : 2^(k-i) = 2 * 2^(k-(i+1)) := by
  rw [← pow_succ']
  congr 1
  omega

/-- The shifts of `size()` stay defined from parent `i` up exactly when the
    counter needs no parent past 30, and one parent up that is the half counter. -/
theorem fits_half {m i : Nat} (low : i ≤ 30) : m / 2 < 2^(31-(i+1)) ↔ m < 2^(31-i) := by
  rw [two_pow_sub_succ (show i < 31 by omega)]
  omega

theorem fits_half_of_even {m i : Nat} (even : m % 2 = 0) : m / 2 < 2^(31-(i+1)) ↔ m < 2^(31-i) := by
  by_cases low : i ≤ 30
  · exact fits_half low
  · rw [show 31 - (i+1) = 0 by omega,show 31 - i = 0 by omega]
    omega

/-- An absent parent adds nothing: the rest is the half counter's, one parent up. -/
theorem parentsTerm_absent {m i : Nat} (even : m % 2 = 0) (fits : m < 2^(31-i)) :
    parentsTerm m i = parentsTerm (m/2) (i+1) := by
  by_cases low : i ≤ 29
  · have halves : 2^(30-i) = 2 * 2^(30-(i+1)) := two_pow_sub_succ (by omega)
    have split : m * 2^(i+1) = m/2 * 2^(i+1+1) := by
      rw [pow_succ 2 (i+1)]
      nth_rewrite 1 [show m = 2 * (m/2) by omega]
      ring
    rw [parentsTerm,parentsTerm,split,halves]
    congr 1
    split_ifs <;> omega
  · -- past parent 29 the counter of an even `m` that fits is zero
    have small : 2^(31-i) ≤ 2^1 := Nat.pow_le_pow_right (by norm_num) (by omega)
    obtain rfl : m = 0 := by omega
    simp [parentsTerm]

/-- A present parent adds its defined shift, and the rest is the half counter's. -/
theorem parentsTerm_present {m i : Nat} (odd : m % 2 = 1) (fits : m < 2^(31-i)) :
    ∃ term, shiftedOne (i+1) = some term ∧ parentsTerm m i = term + parentsTerm (m/2) (i+1) := by
  rcases (show i ≤ 29 ∨ i = 30 ∨ 31 ≤ i by omega) with low | top | high
  · have halves : 2^(30-i) = 2 * 2^(30-(i+1)) := two_pow_sub_succ (by omega)
    have split : m * 2^(i+1) = 2^(i+1) + m/2 * 2^(i+1+1) := by
      rw [pow_succ 2 (i+1)]
      nth_rewrite 1 [show m = 2 * (m/2) + 1 by omega]
      ring
    refine ⟨2^(i+1),if_pos (by omega),?_⟩
    rw [parentsTerm,parentsTerm,split,halves,Nat.add_assoc]
    congr 2
    split_ifs <;> omega
  · -- parent 30 adds `INT_MIN`, and the counter ends there
    subst top
    obtain rfl : m = 1 := by
      have : 2^(31-30) = 2 := by norm_num
      omega
    exact ⟨2^64 - 2^31,rfl,by norm_num [parentsTerm]⟩
  · have : 2^(31-i) = 1 := by rw [show 31 - i = 0 by omega,pow_zero]
    omega

theorem shiftedOne_low {n term : Nat} (shifted : shiftedOne n = some term) : n ≤ 31 := by
  unfold shiftedOne at shifted
  split_ifs at shifted <;> omega

theorem sizeParents_spec {xs : List Hash} : ∀ {m i : Nat} {ps : List (Option Hash)} {ret : Nat}, ret < 2^64 →
    ParentsSpec combine xs m i ps →
      sizeParents ret i ps = if m < 2^(31-i) then some ((ret + parentsTerm m i) % 2^64) else none
  | _, _, [], ret, small, spec => by
    simp [sizeParents,parentsSpec_nil.mp spec,parentsTerm]
    omega
  | m, i, p :: ps, ret, small, spec => by
    obtain ⟨positive,entry,rest⟩ := parentsSpec_cons.mp spec
    by_cases odd : m % 2 = 1
    · -- a present parent adds `1 << (i+1)`, where the shift is defined
      rw [show p = some (node combine default (i+1) (m-1) xs) by simpa [odd] using entry,sizeParents]
      by_cases fits : m < 2^(31-i)
      · obtain ⟨term,shifted,split⟩ := parentsTerm_present odd fits
        have low := shiftedOne_low shifted
        rw [shifted,Option.bind_some,sizeParents_spec (Nat.mod_lt _ (by norm_num)) rest,if_pos fits,
          if_pos ((fits_half (by omega)).mpr fits),split,Nat.mod_add_mod,Nat.add_assoc]
      · cases shifted : shiftedOne (i+1) with
        | none => rw [if_neg fits]; rfl
        | some term =>
          have low := shiftedOne_low shifted
          rw [Option.bind_some,sizeParents_spec (Nat.mod_lt _ (by norm_num)) rest,if_neg fits,
            if_neg (mt (fits_half (by omega)).mp fits)]
    · -- an absent parent adds nothing
      have even : m % 2 = 0 := by omega
      rw [show p = none by simpa [odd] using entry,sizeParents,sizeParents_spec small rest]
      by_cases fits : m < 2^(31-i)
      · rw [if_pos fits,if_pos ((fits_half_of_even even).mpr fits),parentsTerm_absent even fits]
      · rw [if_neg fits,if_neg (mt (fits_half_of_even even).mp fits)]

/-- `size()` counts the leaves up to `2^31`; up to `2^32` the `INT_MIN` that
    parent 30 adds wraps the `size_t` sum to `2^32` less; past that a shift is as
    wide as the `int` and undefined. -/
theorem size_holds {xs : List Hash} {t : IncrementalMerkleTree Hash} (holds : Holds combine xs t) :
    t.size = if xs.length ≤ 2^31 then some xs.length
      else if xs.length ≤ 2^32 then some ((xs.length + (2^64 - 2^32)) % 2^64) else none := by
  cases length : xs.length with
  | zero =>
    have noLeaf : xs = [] := List.eq_nil_of_length_eq_zero length
    subst noLeaf
    simp [holds_nil.mp holds,size,empty,sizeParents]
  | succ k =>
    obtain ⟨leftIs,rightIs,spec⟩ := (holds_of_length length).mp holds
    have leaves : (if (some (xs.getD (2 * (k/2)) default)).isSome then 1 else 0) +
        (if (if k % 2 = 1 then some (xs.getD k default) else none).isSome then 1 else 0) = 1 + k % 2 := by
      split_ifs <;> simp_all
    rw [size,leftIs,rightIs,leaves,sizeParents_spec (by omega) spec,parentsTerm]
    norm_num only
    -- the ranges of the counter against the ranges of the leaves
    split_ifs <;> first | omega | exact congrArg some (by omega) | rfl

/-- `last()` is the last leaf held. -/
theorem last_holds {xs : List Hash} {t : IncrementalMerkleTree Hash} (holds : Holds combine xs t)
    {k : Nat} (length : xs.length = k+1) : t.last = .ok (xs.getD k default) := by
  obtain ⟨leftIs,rightIs,-⟩ := (holds_of_length length).mp holds
  by_cases odd : k % 2 = 1
  · simp [last,rightIs,odd]
  · simp [last,rightIs,odd,leftIs,show 2 * (k/2) = k by omega]

/-- The parents loop of `next_depth` finds the clear level of rank
    `zeroRank k (i+1) + skip`. -/
theorem nextDepthParents_spec {xs : List Hash} {k : Nat} :
    ∀ (skip : Nat) {m i : Nat} {ps : List (Option Hash)}, ParentsSpec combine xs m i ps → m = k / 2^(i+1) →
      k.testBit (nextDepthParents skip (i+1) ps) = false ∧
        zeroRank k (nextDepthParents skip (i+1) ps) = zeroRank k (i+1) + skip
  | skip, m, i, [], spec, counter => by
    have small : k < 2^(i+1) := by
      rw [parentsSpec_nil.mp spec] at counter
      exact (Nat.div_eq_zero_iff_lt (Nat.two_pow_pos _)).mp counter.symm
    have clear : ∀ l, i+1 ≤ l → k.testBit l = false := fun l above => testBit_of_lt small above
    rw [nextDepthParents]
    exact ⟨clear _ (by omega),zeroRank_add_of_clear clear skip⟩
  | skip, m, i, p :: ps, spec, counter => by
    obtain ⟨positive,entry,rest⟩ := parentsSpec_cons.mp spec
    have bit := testBit_succ_of_div counter
    have shifted := div_succ_of_div counter
    by_cases odd : m % 2 = 1
    · -- a present parent is a filled level
      have stored : p = some (node combine default (i+1) (m-1) xs) := by simpa [odd] using entry
      have rank := zeroRank_succ_of_testBit (show k.testBit (i+1) = true by simp [bit,odd])
      rw [stored,nextDepthParents]
      obtain ⟨clear,ranked⟩ := nextDepthParents_spec skip rest shifted
      exact ⟨clear,by rw [ranked,rank]⟩
    · -- an absent parent is a clear level: found, or one fewer to skip
      have absent : p = none := by simpa [odd] using entry
      have clearHere : k.testBit (i+1) = false := by simp [bit,odd]
      rw [absent,nextDepthParents]
      by_cases found : skip = 0
      · simp [found,clearHere]
      · rw [if_neg found]
        obtain ⟨clear,ranked⟩ := nextDepthParents_spec (skip-1) rest shifted
        exact ⟨clear,by rw [ranked,zeroRank_succ_of_not_testBit clearHere]; omega⟩

/-- `next_depth(skip)` is the clear level of `k` of rank `skip`: the height of
    the `skip`-th subtree right of leaf `k`. -/
theorem next_depth_spec {xs : List Hash} {t : IncrementalMerkleTree Hash} (holds : Holds combine xs t)
    {k : Nat} (length : xs.length = k+1) (skip : Nat) :
    k.testBit (t.next_depth skip) = false ∧ zeroRank k (t.next_depth skip) = skip := by
  obtain ⟨leftIs,rightIs,spec⟩ := (holds_of_length length).mp holds
  have bit0 : k.testBit 0 = decide (k % 2 = 1) := by simp [Nat.testBit_eq_decide_div_mod_eq]
  by_cases odd : k % 2 = 1
  · -- the right leaf is present: level 0 is filled
    have rank : zeroRank k (0+1) = 0 := by simp [zeroRank,bit0,odd]
    obtain ⟨clear,ranked⟩ := nextDepthParents_spec (k := k) skip spec (by simp)
    simp only [next_depth,leftIs,rightIs,odd,if_true,Option.isNone_some,Bool.false_and,Bool.false_eq_true,
      if_false]
    exact ⟨clear,by rw [ranked,rank]; omega⟩
  · -- the right slot is free: level 0 is the first clear level
    have rank : zeroRank k (0+1) = 1 := by simp [zeroRank,bit0,odd]
    by_cases first : skip = 0
    · subst first
      simp [next_depth,leftIs,rightIs,odd,bit0,zeroRank]
    · obtain ⟨clear,ranked⟩ := nextDepthParents_spec (k := k) (skip-1) spec (by simp)
      simp only [next_depth,leftIs,rightIs,odd,if_false,Option.isNone_some,Option.isNone_none,Bool.false_and,
        Bool.true_and,Bool.false_eq_true,beq_iff_eq,first,if_true]
      exact ⟨clear,by rw [ranked,rank]; omega⟩

variable (combine) in
/-- The entry of `path` at level `l` for leaf `k`: its position bit and the
    sibling taken from the stored parents or the filler queue `q`. -/
def pathLevel (xs : List Hash) (k : Nat) (q : List Hash) (l : Nat) : Bool × Hash :=
  (k.testBit l,fillerSibling combine xs k q l)

/-- The parents loop of `path` emits the levels of the parents in order. -/
theorem pathParents_levels {xs : List Hash} {k : Nat} (q : List Hash) :
    ∀ {m i : Nat} {ps : List (Option Hash)} {queue : List Hash}, ParentsSpec combine xs m i ps →
      m = k / 2^(i+1) → queue = q.drop (zeroRank k (i+1)) →
      pathParents combine queue (i+1) ps =
        ((List.range' (i+1) ps.length).map (pathLevel combine xs k q),
          q.drop (zeroRank k (i+1+ps.length)),i+1+ps.length)
  | _, _, [], _, _, _, rest => by simp [pathParents,rest]
  | m, i, p :: ps, queue, spec, counter, rest => by
    obtain ⟨positive,entry,later⟩ := parentsSpec_cons.mp spec
    have bit := testBit_succ_of_div counter
    have shifted := div_succ_of_div counter
    have lengths : i+1+(p :: ps).length = i+1+1+ps.length := by simp; omega
    rw [lengths,List.length_cons,List.range'_succ,List.map_cons]
    by_cases odd : m % 2 = 1
    · -- a present parent is the left sibling
      have stored : p = some (node combine default (i+1) (m-1) xs) := by simpa [odd] using entry
      have level : pathLevel combine xs k q (i+1) = (true,node combine default (i+1) (m-1) xs) := by
        simp [pathLevel,fillerSibling,bit,odd,sibling,← counter]
      have rank : zeroRank k (i+1+1) = zeroRank k (i+1) := by simp [zeroRank,bit,odd]
      have tail := pathParents_levels q later shifted (show queue = q.drop (zeroRank k (i+1+1)) by rw [rank,rest])
      simp only [stored,pathParents,tail,level]
    · -- an absent parent takes its right sibling from the filler
      have absent : p = none := by simpa [odd] using entry
      have level : pathLevel combine xs k q (i+1) = (false,q.getD (zeroRank k (i+1)) (empty_root combine (i+1))) := by
        simp [pathLevel,fillerSibling,bit,odd]
      have rank : zeroRank k (i+1+1) = zeroRank k (i+1) + 1 := by simp [zeroRank,bit,odd]
      have tail := pathParents_levels q later shifted
        (show q.drop (zeroRank k (i+1) + 1) = q.drop (zeroRank k (i+1+1)) by rw [rank])
      simp only [absent,pathParents,rest,fillerNext_drop,tail,level]

/-- The `while (d < Depth)` loop of `path` emits the clear levels above the parents. -/
theorem pathFill_levels {xs : List Hash} {k : Nat} (q : List Hash) :
    ∀ (n : Nat) {d : Nat} {queue : List Hash}, (∀ l, d ≤ l → k.testBit l = false) →
      queue = q.drop (zeroRank k d) →
      pathFill combine queue d n = (List.range' d n).map (pathLevel combine xs k q)
  | 0, _, _, _, _ => rfl
  | n+1, d, queue, clear, rest => by
    have bit := clear d le_rfl
    have level : pathLevel combine xs k q d = (false,q.getD (zeroRank k d) (empty_root combine d)) := by
      simp [pathLevel,fillerSibling,bit]
    have rank : zeroRank k (d+1) = zeroRank k d + 1 := zeroRank_succ_of_not_testBit bit
    rw [pathFill,rest,fillerNext_drop,List.range'_succ,List.map_cons,level,
      pathFill_levels q n (fun l above => clear l (by omega)) (by rw [rank])]

/-- `path` lists the levels of leaf `k` from the root down: each position bit of
    `k` and the bits of the sibling beside the path. -/
theorem path_holds {xs : List Hash} {t : IncrementalMerkleTree Hash} (holds : Holds combine xs t)
    {k : Nat} (length : xs.length = k+1) {Depth : Nat} (deep : t.parents.length < Depth)
    (bytes : Hash → List UInt8) (q : List Hash) :
    t.path combine Depth bytes q =
      .ok ⟨(((List.range Depth).map (pathLevel combine xs k q)).map
              fun e => convertBytesVectorToVector (bytes e.2)).reverse,
            (((List.range Depth).map (pathLevel combine xs k q)).map Prod.fst).reverse⟩ := by
  obtain ⟨leftIs,rightIs,spec⟩ := (holds_of_length length).mp holds
  have top : ∀ l, 1 + t.parents.length ≤ l → k.testBit l = false := by
    have small : k < 2^(t.parents.length+1) := by have := spec.lt_pow; rw [pow_succ]; omega
    exact fun l above => testBit_of_lt small (by omega)
  have bit0 : k.testBit 0 = decide (k % 2 = 1) := by simp [Nat.testBit_eq_decide_div_mod_eq]
  -- the levels are the first one, those of the parents, and the filled ones above
  have split : (List.range Depth).map (pathLevel combine xs k q) =
      pathLevel combine xs k q 0 :: ((List.range' 1 t.parents.length).map (pathLevel combine xs k q) ++
        (List.range' (0+1+t.parents.length) (Depth - (0+1+t.parents.length))).map (pathLevel combine xs k q)) := by
    have joined : List.range' 1 t.parents.length ++
        List.range' (0+1+t.parents.length) (Depth - (0+1+t.parents.length)) = List.range' 1 (Depth - 1) := by
      rw [show 0+1+t.parents.length = 1 + 1 * t.parents.length by omega,List.range'_append]
      congr 1
      omega
    obtain ⟨r,total⟩ : ∃ r, Depth = r + 1 := ⟨Depth - 1,by omega⟩
    rw [← List.map_append,joined,List.range_eq_range',total,List.range'_succ,List.map_cons]
    simp
  have finish : ∀ (first : Bool × Hash) (queue : List Hash), first = pathLevel combine xs k q 0 →
      queue = q.drop (zeroRank k (0+1)) →
      (Except.ok (let up := pathParents combine queue 1 t.parents
        let levels := first :: up.1 ++ pathFill combine up.2.1 up.2.2 (Depth - up.2.2)
        ⟨(levels.map fun e => convertBytesVectorToVector (bytes e.2)).reverse,(levels.map Prod.fst).reverse⟩) :
          Except String MerklePath) =
      .ok ⟨(((List.range Depth).map (pathLevel combine xs k q)).map
              fun e => convertBytesVectorToVector (bytes e.2)).reverse,
            (((List.range Depth).map (pathLevel combine xs k q)).map Prod.fst).reverse⟩ := by
    intro first queue isFirst rest
    rw [pathParents_levels (k := k) q spec (by simp) rest]
    dsimp only
    rw [pathFill_levels q _ top rfl,split,isFirst]
    rfl
  by_cases odd : k % 2 = 1
  · -- the last leaf is the right one, its sibling the left one
    have rightSome : t.right = some (xs.getD k default) := by simp [rightIs,odd]
    simp only [path,leftIs,rightSome]
    refine finish _ _ ?_ (by simp [zeroRank,bit0,odd])
    simp [pathLevel,fillerSibling,sibling,bit0,odd,node_zero,show 2 * (k/2) = k-1 by omega]
  · -- the last leaf is the left one, its sibling comes from the filler
    have rightNone : t.right = none := by simp [rightIs,odd]
    have first := @fillerNext_drop _ _ combine q 0 0
    rw [List.drop_zero] at first
    simp only [path,leftIs,rightNone,first]
    refine finish _ _ ?_ (by simp [zeroRank,bit0,odd])
    simp [pathLevel,fillerSibling,zeroRank,bit0,odd]

/-- The tree built by appending, one by one from the empty tree, the leaves of a
    list that fits refines the complete tree over the list padded with `Hash()`:
    the same root; `size()` counts up to `2^31` leaves;
    `last()` is the last leaf; the next append throws exactly when the tree is full. -/
theorem appendAll_refines {Depth : Nat} (deep : 1 ≤ Depth) (L : List Hash) (fits : L.length ≤ 2^Depth) :
    ∃ t, appendAll combine Depth empty L = .ok t ∧
      t.root combine Depth [] =
        CompleteTree.root combine default Depth (L ++ List.replicate (2^Depth - L.length) default) ∧
      (L.length ≤ 2^31 → t.size = some L.length) ∧
      (∀ x, L.getLast? = some x → t.last = .ok x) ∧
      (∀ x, t.append combine Depth x = .error "tree is full" ↔ L.length = 2^Depth) := by
  obtain ⟨t,built,holds⟩ := appendAll_holds holds_empty deep L (by simpa using fits)
  rw [List.nil_append] at holds
  refine ⟨t,built,?_,?_,?_,?_⟩
  · rw [root_append_replicate,root_holds holds deep fits]
  · intro small
    rw [size_holds holds,if_pos small]
  · intro x final
    obtain ⟨k,length⟩ : ∃ k, L.length = k+1 := by
      cases L with
      | nil => simp at final
      | cons y ys => exact ⟨ys.length,by simp⟩
    have inside : k < L.length := by omega
    rw [List.getLast?_eq_getElem?,length,Nat.add_sub_cancel,List.getElem?_eq_getElem inside] at final
    rw [last_holds holds length,List.getD_eq_getElem?_getD,List.getElem?_eq_getElem inside,Option.getD_some,
      Option.some.inj final]
  · exact append_error_iff holds deep fits

example :
    ∃ t, appendAll (fun a b : Nat => a + b) 2 empty [1,2,3] = .ok t ∧
      t.root (fun a b : Nat => a + b) 2 [] =
        CompleteTree.root (fun a b : Nat => a + b) default 2 ([1,2,3] ++ List.replicate (2^2 - [1,2,3].length) default) ∧
      ([1,2,3].length ≤ 2^31 → t.size = some [1,2,3].length) ∧
      (∀ x, [1,2,3].getLast? = some x → t.last = .ok x) ∧
      (∀ x, t.append (fun a b : Nat => a + b) 2 x = .error "tree is full" ↔ [1,2,3].length = 2^2) :=
  appendAll_refines (by decide) [1,2,3] (by decide)

/-- At the depths the source instantiates the tree at, at most `2^29` leaves fit,
    so every shift of `size()` is defined and the refinement is whole: the same
    root, `size()` counts the leaves, `last()` is the last leaf, and the next
    append throws exactly when the tree is full. -/
theorem appendAll_refines_instantiated {Depth : Nat} (instantiated : Instantiated Depth) (L : List Hash)
    (fits : L.length ≤ 2^Depth) :
    ∃ t, appendAll combine Depth empty L = .ok t ∧
      t.root combine Depth [] =
        CompleteTree.root combine default Depth (L ++ List.replicate (2^Depth - L.length) default) ∧
      t.size = some L.length ∧
      (∀ x, L.getLast? = some x → t.last = .ok x) ∧
      (∀ x, t.append combine Depth x = .error "tree is full" ↔ L.length = 2^Depth) := by
  obtain ⟨deep,shallow⟩ := instantiated.bounds
  obtain ⟨t,built,root,size,last,full⟩ := appendAll_refines deep L fits
  have small : L.length ≤ 2^31 := calc
    L.length ≤ 2^Depth := fits
    _ ≤ 2^31 := Nat.pow_le_pow_right (by norm_num) (by omega)
  exact ⟨t,built,root,size small,last,full⟩

theorem appendAll_refines_at_testing_depth :
    Instantiated INCREMENTAL_MERKLE_TREE_DEPTH_TESTING ∧ [1,2,3].length ≤ 2^INCREMENTAL_MERKLE_TREE_DEPTH_TESTING ∧
    ∃ t, appendAll (fun a b : Nat => a + b) INCREMENTAL_MERKLE_TREE_DEPTH_TESTING empty [1,2,3] = .ok t ∧
      t.root (fun a b : Nat => a + b) INCREMENTAL_MERKLE_TREE_DEPTH_TESTING [] =
        CompleteTree.root (fun a b : Nat => a + b) default INCREMENTAL_MERKLE_TREE_DEPTH_TESTING
          ([1,2,3] ++ List.replicate (2^INCREMENTAL_MERKLE_TREE_DEPTH_TESTING - [1,2,3].length) default) ∧
      t.size = some [1,2,3].length ∧
      (∀ x, [1,2,3].getLast? = some x → t.last = .ok x) ∧
      (∀ x, t.append (fun a b : Nat => a + b) INCREMENTAL_MERKLE_TREE_DEPTH_TESTING x = .error "tree is full" ↔
        [1,2,3].length = 2^INCREMENTAL_MERKLE_TREE_DEPTH_TESTING) :=
  have testing : Instantiated INCREMENTAL_MERKLE_TREE_DEPTH_TESTING := .inr rfl
  have fits : [1,2,3].length ≤ 2^INCREMENTAL_MERKLE_TREE_DEPTH_TESTING := by decide
  ⟨testing,fits,appendAll_refines_instantiated testing [1,2,3] fits⟩

end IncrementalMerkleTree

end BitcoinPrivate.Zcash
