import Mathlib.Data.Nat.Log
import Mathlib.Logic.Function.Basic
import BitcoinPrivate.Validation.CheckBlock

/-!
`ComputeMerkleRoot` of `consensus/merkle.cpp`, over any hash type with the
hash of a pair, `SHA256D64`, as an argument. The code works on one vector: at
each level it tests the pairs at even positions for equal hashes, pushes the
last hash again when the level is odd, hashes the pairs in place, writing the
hash of pair `i` over entry `i`, and cuts the vector to half. The root it
returns is the root of the tree whose odd levels have their last node
doubled (`merkleRoot`), and when the hash of a pair is injective, two different
leaf lists of one depth with one root cannot both pass the mutation test
(CVE-2012-2459): the doubled node of the one is an equal pair of the other.
-/
namespace BitcoinPrivate.Merkle

section
variable {α : Type} (hash64 : α → α → α)

/-! ## The tree the code is meant to hash -/

/-- One level of the tree above `hashes`: the last node doubled when the level
    is odd, then each pair hashed. -/
def merkleLevel : List α → List α
  | a :: b :: rest => hash64 a b :: merkleLevel rest
  | [a] => [hash64 a a]
  | [] => []

@[simp]
theorem length_merkleLevel : ∀ hashes : List α, (merkleLevel hash64 hashes).length = (hashes.length + 1) / 2
  | a :: b :: rest => by simp only [merkleLevel,List.length_cons,length_merkleLevel rest]; omega
  | [_] => by simp [merkleLevel]
  | [] => by simp [merkleLevel]

/-- The hashes of the pairs at even positions; a last odd entry has none. -/
def hashPairs : List α → List α
  | a :: b :: rest => hash64 a b :: hashPairs rest
  | _ => []

@[simp]
theorem length_hashPairs : ∀ hashes : List α, (hashPairs hash64 hashes).length = hashes.length / 2
  | a :: b :: rest => by simp only [hashPairs,List.length_cons,length_hashPairs rest]; omega
  | [_] => by simp [hashPairs]
  | [] => by simp [hashPairs]

theorem hashPairs_append_pair (a b : α) :
    ∀ hashes : List α, hashes.length % 2 = 0 → hashPairs hash64 (hashes ++ [a,b]) = hashPairs hash64 hashes ++ [hash64 a b]
  | c :: d :: rest, even => by
    simp only [List.cons_append,hashPairs,List.cons.injEq,true_and]
    exact hashPairs_append_pair a b rest (by simp only [List.length_cons] at even; omega)
  | [_], odd => by simp at odd
  | [], _ => rfl

theorem getLastD_of_ne_nil {hashes : List α} (nonempty : hashes ≠ []) (a b : α) : hashes.getLastD a = hashes.getLastD b := by
  simp only [List.getLastD_eq_getLast?,List.getLast?_eq_some_getLast nonempty,Option.getD_some]

theorem merkleLevel_eq_nil {hash64 : α → α → α} {hashes : List α} : merkleLevel hash64 hashes = [] ↔ hashes = [] := by
  rw [← List.length_eq_zero_iff,length_merkleLevel,← List.length_eq_zero_iff]
  omega

/-- The depth of the level above is one less. -/
theorem clog_merkleLevel {hashes : List α} (long : 1 < hashes.length) :
    Nat.clog 2 (merkleLevel hash64 hashes).length + 1 = Nat.clog 2 hashes.length := by
  rw [Nat.clog_of_two_le (by decide) long,length_merkleLevel]
  rfl

/-- A list of depth zero, not empty, is one leaf. -/
theorem eq_singleton_of_clog_eq_zero {leaves : List α} (zero : Nat.clog 2 leaves.length = 0) (nonempty : leaves ≠ []) :
    ∃ a, leaves = [a] := by
  match leaves, zero with
  | [a], _ => exact ⟨a,rfl⟩
  | [], _ => exact absurd rfl nonempty
  | _ :: _ :: _, zero => exact absurd zero (Nat.clog_pos (by decide) (by simp)).ne'

theorem one_lt_length_of_clog_eq_succ {leaves : List α} {depth : Nat} (succ : Nat.clog 2 leaves.length = depth + 1) :
    1 < leaves.length := by
  by_contra short
  rw [Nat.clog_of_right_le_one (by omega)] at succ
  cases succ

/-! ## The hash of the pairs in place -/

variable [Inhabited α]

/-- `SHA256D64(out, in, blocks)` with `out` and `in` both the start of the
    vector: block `i` reads the entries `2i` and `2i+1` and writes the hash of
    the pair over entry `i`, the blocks in order. -/
def SHA256D64 (hashes : List α) : Nat → List α
  | 0 => hashes
  | blocks+1 =>
    let v := SHA256D64 hashes blocks
    v.set blocks (hash64 (v.getD (2*blocks) default) (v.getD (2*blocks+1) default))

@[simp]
theorem length_SHA256D64 (hashes : List α) (blocks : Nat) :
    (SHA256D64 hash64 hashes blocks).length = hashes.length := by
  induction blocks with
  | zero => rfl
  | succ blocks ih => simp [SHA256D64,ih]

/-- The vector after the first `blocks` blocks of `SHA256D64` in place: the
    hashes of the first `blocks` pairs, then the entries from `blocks` on, which
    no block has written yet. -/
theorem SHA256D64_eq (hashes : List α) :
    ∀ blocks, 2 * blocks ≤ hashes.length →
      SHA256D64 hash64 hashes blocks = hashPairs hash64 (hashes.take (2 * blocks)) ++ hashes.drop blocks
  | 0, _ => by simp [SHA256D64,hashPairs]
  | blocks+1, fits => by
    have ih := SHA256D64_eq hashes blocks (by omega)
    have written : (hashPairs hash64 (hashes.take (2 * blocks))).length = blocks := by
      simp only [length_hashPairs,List.length_take]; omega
    -- block `blocks` reads entries `2 blocks` and `2 blocks + 1`, past every entry written
    have unwritten : ∀ k, blocks ≤ k → (SHA256D64 hash64 hashes blocks).getD k default = hashes.getD k default := by
      intro k past
      rw [ih,List.getD_eq_getElem?_getD,List.getElem?_append_right (by omega),List.getElem?_drop,written,
        List.getD_eq_getElem?_getD,show blocks + (k - blocks) = k by omega]
    have pair : hashes.take (2 * (blocks+1)) = hashes.take (2 * blocks) ++ [hashes[2*blocks],hashes[2*blocks+1]] := by
      rw [Nat.mul_succ,List.take_add,List.drop_eq_getElem_cons (show 2 * blocks < hashes.length by omega),
        List.drop_eq_getElem_cons (show 2 * blocks + 1 < hashes.length by omega)]
      rfl
    simp only [SHA256D64]
    rw [unwritten _ (by omega),unwritten _ (by omega),ih,List.set_append,if_neg (by omega),written,Nat.sub_self,
      List.drop_eq_getElem_cons (show blocks < hashes.length by omega),List.set_cons_zero,pair,
      hashPairs_append_pair _ _ _ _ (by simp; omega),List.getD_eq_getElem _ _ (by omega),
      List.getD_eq_getElem _ _ (by omega)]
    simp

/-- `SHA256D64` in place over an even level, cut to half, is the list of the
    hashes of its pairs. -/
theorem SHA256D64_halve {hashes : List α} (even : hashes.length % 2 = 0) :
    (SHA256D64 hash64 hashes (hashes.length / 2)).take (hashes.length / 2) = hashPairs hash64 hashes := by
  rw [SHA256D64_eq hash64 hashes _ (by omega),show 2 * (hashes.length / 2) = hashes.length by omega,List.take_length]
  exact List.take_left' (length_hashPairs hash64 hashes)

/-- One pass of the loop of `ComputeMerkleRoot` on the level `hashes`: the last
    hash pushed again when the level is odd, the pairs hashed in place, and the
    vector cut to half. -/
def hashLevel (hashes : List α) : List α :=
  let hashes := if hashes.length % 2 = 1 then hashes ++ [hashes.getLastD default] else hashes
  (SHA256D64 hash64 hashes (hashes.length / 2)).take (hashes.length / 2)

/-- The level with its last hash pushed again when it is odd is even. -/
theorem length_pad (hashes : List α) :
    (if hashes.length % 2 = 1 then hashes ++ [hashes.getLastD default] else hashes).length =
      hashes.length + hashes.length % 2 := by
  split
  · simp only [List.length_append,List.length_singleton]; omega
  · omega

theorem length_hashLevel (hashes : List α) : (hashLevel hash64 hashes).length = (hashes.length + 1) / 2 := by
  simp only [hashLevel,List.length_take,length_SHA256D64,length_pad]
  omega

/-- The level the loop hashes, with its last hash pushed again when it is odd,
    gives the level of the tree. -/
theorem hashPairs_pad : ∀ hashes : List α,
    hashPairs hash64 (if hashes.length % 2 = 1 then hashes ++ [hashes.getLastD default] else hashes) =
      merkleLevel hash64 hashes
  | a :: b :: rest => by
    have ih := hashPairs_pad rest
    by_cases odd : rest.length % 2 = 1
    · have nonempty : rest ≠ [] := by rintro rfl; simp at odd
      have odd' : (a :: b :: rest).length % 2 = 1 := by simp only [List.length_cons]; omega
      rw [if_pos odd']
      rw [if_pos odd] at ih
      simp only [List.getLastD_cons,List.cons_append,hashPairs,merkleLevel,getLastD_of_ne_nil nonempty b default,ih]
    · have even' : ¬(a :: b :: rest).length % 2 = 1 := by simp only [List.length_cons]; omega
      rw [if_neg even']
      rw [if_neg odd] at ih
      simp only [hashPairs,merkleLevel,ih]
  | [a] => by simp [hashPairs,merkleLevel]
  | [] => by simp [hashPairs,merkleLevel]

/-- A pass of the loop computes the level of the tree above. -/
theorem hashLevel_eq (hashes : List α) : hashLevel hash64 hashes = merkleLevel hash64 hashes := by
  have even : (if hashes.length % 2 = 1 then hashes ++ [hashes.getLastD default] else hashes).length % 2 = 0 := by
    rw [length_pad]; omega
  rw [hashLevel,SHA256D64_halve hash64 even,hashPairs_pad]

/-- The root of the tree of `leaves`: the null hash of no leaf, the leaf alone,
    and otherwise the root of the level above. -/
def merkleRoot : List α → α
  | [] => default
  | [a] => a
  | a :: b :: rest => merkleRoot (merkleLevel hash64 (a :: b :: rest))
termination_by leaves => leaves.length
decreasing_by
  have shorter := length_merkleLevel hash64 (a :: b :: rest)
  simp only [List.length_cons] at shorter ⊢
  omega

/-! ## The loop -/

variable [DecidableEq α]

/-- The test of `ComputeMerkleRoot` on one level: a pair at `pos` and `pos + 1`,
    `pos` even, of equal hashes. -/
def levelMutated : List α → Bool
  | a :: b :: rest => a == b || levelMutated rest
  | _ => false

/-- The loop of `ComputeMerkleRoot` from the level `hashes`, with the flag
    `mutation` of the levels below: the last level, of at most one hash, and
    the flag. -/
def computeLevels (hashes : List α) (mutation : Bool) : List α × Bool :=
  if 1 < hashes.length then computeLevels (hashLevel hash64 hashes) (mutation || levelMutated hashes)
  else (hashes,mutation)
termination_by hashes.length
decreasing_by rw [length_hashLevel]; omega

/-- `ComputeMerkleRoot` with the flag it writes to `mutated`; the null hash of
    an empty list. -/
def ComputeMerkleRoot (hashes : List α) : α × Bool :=
  let (hashes,mutation) := computeLevels hash64 hashes false
  (hashes.headD default,mutation)

/-- One pass of the loop: the flag takes the test of the level, and the level
    becomes the level of the tree above it. -/
theorem computeLevels_step {hashes : List α} (long : 1 < hashes.length) (mutation : Bool) :
    computeLevels hash64 hashes mutation =
      computeLevels hash64 (merkleLevel hash64 hashes) (mutation || levelMutated hashes) := by
  rw [computeLevels,if_pos long,hashLevel_eq]

theorem computeLevels_short {hashes : List α} (short : hashes.length ≤ 1) (mutation : Bool) :
    computeLevels hash64 hashes mutation = (hashes,mutation) := by
  rw [computeLevels,if_neg (by omega)]

/-- The loop keeps the flag it starts with, and otherwise does not depend on it. -/
theorem computeLevels_mutation (hashes : List α) (mutation : Bool) :
    computeLevels hash64 hashes mutation =
      ((computeLevels hash64 hashes false).1,mutation || (computeLevels hash64 hashes false).2) := by
  induction hashes using merkleRoot.induct hash64 generalizing mutation with
  | case1 => simp [computeLevels_short]
  | case2 a => simp [computeLevels_short]
  | case3 a b rest ih =>
    have long : 1 < (a :: b :: rest).length := by simp
    rw [computeLevels_step hash64 long,computeLevels_step hash64 long,ih,ih (false || _)]
    simp [Bool.or_assoc]

/-- A leaf list of at least two: the root and the flag of the level above,
    with the test of the leaves. -/
theorem ComputeMerkleRoot_step {hashes : List α} (long : 1 < hashes.length) :
    ComputeMerkleRoot hash64 hashes =
      ((ComputeMerkleRoot hash64 (merkleLevel hash64 hashes)).1,
        levelMutated hashes || (ComputeMerkleRoot hash64 (merkleLevel hash64 hashes)).2) := by
  simp only [ComputeMerkleRoot,computeLevels_step hash64 long,Bool.false_or]
  rw [computeLevels_mutation hash64 _ (levelMutated hashes)]

theorem ComputeMerkleRoot_short {hashes : List α} (short : hashes.length ≤ 1) :
    ComputeMerkleRoot hash64 hashes = (hashes.headD default,false) := by
  simp only [ComputeMerkleRoot,computeLevels_short hash64 short]

/-- The root the code computes is the root of the tree. -/
theorem ComputeMerkleRoot_root (hashes : List α) :
    (ComputeMerkleRoot hash64 hashes).1 = merkleRoot hash64 hashes := by
  induction hashes using merkleRoot.induct hash64 with
  | case1 => simp [ComputeMerkleRoot_short,merkleRoot]
  | case2 a => simp [ComputeMerkleRoot_short,merkleRoot]
  | case3 a b rest ih =>
    rw [ComputeMerkleRoot_step hash64 (by simp),merkleRoot]
    exact ih

omit [Inhabited α] in
/-- Two levels with one level above, under an injective hash of pairs: equal,
    or one of them holds an equal pair at an even position, the one whose last
    two hashes the other's doubled last hash stands for. -/
theorem eq_or_levelMutated_of_merkleLevel_eq (inj : Function.Injective2 hash64) :
    ∀ {hashes₁ hashes₂ : List α}, merkleLevel hash64 hashes₁ = merkleLevel hash64 hashes₂ →
      hashes₁ = hashes₂ ∨ levelMutated hashes₁ = true ∨ levelMutated hashes₂ = true
  | a :: b :: rest₁, c :: d :: rest₂, same => by
    simp only [merkleLevel,List.cons.injEq] at same
    obtain ⟨⟨rfl,rfl⟩,above⟩ := And.intro (inj same.1) same.2
    rcases eq_or_levelMutated_of_merkleLevel_eq inj above with rfl | mutated | mutated
    · exact .inl rfl
    · simp [levelMutated,mutated]
    · simp [levelMutated,mutated]
  | a :: b :: rest₁, [c], same => by
    simp only [merkleLevel,List.cons.injEq,merkleLevel_eq_nil] at same
    obtain ⟨⟨rfl,rfl⟩,rfl⟩ := And.intro (inj same.1) same.2
    simp [levelMutated]
  | [a], c :: d :: rest₂, same => by
    simp only [merkleLevel,List.cons.injEq] at same
    obtain ⟨⟨rfl,rfl⟩,rest⟩ := And.intro (inj same.1) same.2
    rw [eq_comm,merkleLevel_eq_nil] at rest
    subst rest
    simp [levelMutated]
  | [a], [c], same => by
    simp only [merkleLevel,List.cons.injEq,and_true] at same
    exact .inl (by rw [(inj same).1])
  | [], [], _ => .inl rfl
  | [], _ :: _, same => by
    have lengths := congrArg List.length same
    simp only [length_merkleLevel,List.length_cons,List.length_nil] at lengths
    omega
  | _ :: _, [], same => by
    have lengths := congrArg List.length same
    simp only [length_merkleLevel,List.length_cons,List.length_nil] at lengths
    omega

/-- Two different leaf lists of one depth with one root, under an injective hash
    of pairs: the mutation test fires on one of them. The induction is on the
    depth; at the first level, from the top, where the two differ, the levels
    above agree, so one of the two levels has an equal pair. -/
theorem mutated_of_same_root (inj : Function.Injective2 hash64) :
    ∀ (depth : Nat) {leaves₁ leaves₂ : List α}, Nat.clog 2 leaves₁.length = depth →
      Nat.clog 2 leaves₂.length = depth → leaves₁ ≠ [] → leaves₂ ≠ [] → leaves₁ ≠ leaves₂ →
      (ComputeMerkleRoot hash64 leaves₁).1 = (ComputeMerkleRoot hash64 leaves₂).1 →
      (ComputeMerkleRoot hash64 leaves₁).2 = true ∨ (ComputeMerkleRoot hash64 leaves₂).2 = true
  | 0, leaves₁, leaves₂, depth₁, depth₂, nonempty₁, nonempty₂, differ, same => by
    -- depth zero leaves one leaf on each side, and the roots are the leaves
    obtain ⟨a,rfl⟩ := eq_singleton_of_clog_eq_zero depth₁ nonempty₁
    obtain ⟨b,rfl⟩ := eq_singleton_of_clog_eq_zero depth₂ nonempty₂
    have single : ∀ c : α, ComputeMerkleRoot hash64 [c] = (c,false) := fun c =>
      ComputeMerkleRoot_short hash64 (le_refl 1)
    rw [single,single] at same
    exact absurd (congrArg (· :: []) same) differ
  | depth+1, leaves₁, leaves₂, depth₁, depth₂, nonempty₁, nonempty₂, differ, same => by
    have long₁ := one_lt_length_of_clog_eq_succ depth₁
    have long₂ := one_lt_length_of_clog_eq_succ depth₂
    rw [ComputeMerkleRoot_step hash64 long₁,ComputeMerkleRoot_step hash64 long₂] at same ⊢
    by_cases above : merkleLevel hash64 leaves₁ = merkleLevel hash64 leaves₂
    · rcases eq_or_levelMutated_of_merkleLevel_eq hash64 inj above with equal | mutated | mutated
      · exact absurd equal differ
      · simp [mutated]
      · simp [mutated]
    · have nonempty : ∀ {leaves : List α}, 1 < leaves.length → merkleLevel hash64 leaves ≠ [] := by
        intro leaves long' empty
        rw [merkleLevel_eq_nil] at empty
        subst empty
        cases long'
      rcases mutated_of_same_root inj depth (by have := clog_merkleLevel hash64 long₁; omega)
          (by have := clog_merkleLevel hash64 long₂; omega) (nonempty long₁) (nonempty long₂) above same
        with mutated | mutated
      · simp [mutated]
      · simp [mutated]

/-- `ComputeMerkleRoot` computes the root of the tree of its leaves, whose odd
    levels have their last node doubled; and when the hash of a pair is
    injective, of two different leaf lists of one depth with one root, at least
    one is reported mutated. -/
theorem ComputeMerkleRoot_detects_mutation :
    (∀ leaves : List α, (ComputeMerkleRoot hash64 leaves).1 = merkleRoot hash64 leaves) ∧
      (Function.Injective2 hash64 → ∀ leaves₁ leaves₂ : List α, leaves₁ ≠ [] → leaves₂ ≠ [] →
        Nat.clog 2 leaves₁.length = Nat.clog 2 leaves₂.length → leaves₁ ≠ leaves₂ →
        (ComputeMerkleRoot hash64 leaves₁).1 = (ComputeMerkleRoot hash64 leaves₂).1 →
        (ComputeMerkleRoot hash64 leaves₁).2 = true ∨ (ComputeMerkleRoot hash64 leaves₂).2 = true) :=
  ⟨ComputeMerkleRoot_root hash64,fun inj _ _ nonempty₁ nonempty₂ depth differ same =>
    mutated_of_same_root hash64 inj _ depth rfl nonempty₁ nonempty₂ differ same⟩

end

/-! ## The merkle check of `CheckBlock` -/

/-- `BlockMerkleRoot`: the root of the hashes of the block's transactions. -/
def BlockMerkleRoot (hash64 : uint256 → uint256 → uint256) (GetHash : CTransaction → uint256) (block : CBlock) :
    uint256 × Bool :=
  ComputeMerkleRoot hash64 (block.vtx.map GetHash)

theorem merkle_of_CheckBlock {CheckBlockHeader : CBlockHeader → Except String Unit}
    {BlockMerkleRoot : CBlock → uint256 × Bool} {GetLegacySigOpCount : CTransaction → Nat} {block : CBlock}
    (accepted : CheckBlock CheckBlockHeader BlockMerkleRoot GetLegacySigOpCount true block = .ok ()) :
    block.vtx ≠ [] ∧ (BlockMerkleRoot block).1 = block.header.hashMerkleRoot ∧ (BlockMerkleRoot block).2 = false := by
  simp only [CheckBlock,if_true,Guards.bind_eq_ok] at accepted
  obtain ⟨_,-,checks⟩ := accepted
  rw [Guards.ite_throw_eq_ok,Guards.ite_throw_eq_ok] at checks
  obtain ⟨root,unmutated,rest⟩ := checks
  obtain ⟨_,transactions,-⟩ := Guards.bind_eq_ok.mp rest
  obtain ⟨_,sized,-⟩ := Guards.bind_eq_ok.mp transactions
  refine ⟨?_,(not_not.mp root).symm,by simpa using unmutated⟩
  -- `checkBlockSize` refuses a block without transactions
  rintro empty
  simp [checkBlockSize,empty] at sized

end BitcoinPrivate.Merkle
