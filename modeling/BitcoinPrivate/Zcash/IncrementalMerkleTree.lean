import BitcoinPrivate.Library.CompleteTree

/-!
The incremental note-commitment tree of `zcash/IncrementalMerkleTree.cpp` and its
witness. The template parameter `Depth` is an argument of each operation, the
hash type is any type whose default value is `Hash()`, and `Hash::combine` is the
argument `combine`. Thrown exceptions are `Except.error` with the text the source
throws; the source reads `EmptyMerkleRoots` only at depths below `Depth`, so the
array bound never fails and the empty roots are computed directly.

The source instantiates both templates at `INCREMENTAL_MERKLE_TREE_DEPTH` and
`INCREMENTAL_MERKLE_TREE_DEPTH_TESTING` only (`Instantiated`).
-/
namespace BitcoinPrivate

/-- `INCREMENTAL_MERKLE_TREE_DEPTH`. -/
def INCREMENTAL_MERKLE_TREE_DEPTH : Nat := 29

/-- `INCREMENTAL_MERKLE_TREE_DEPTH_TESTING`. -/
def INCREMENTAL_MERKLE_TREE_DEPTH_TESTING : Nat := 4

end BitcoinPrivate

namespace BitcoinPrivate.Zcash

/-- The depths of the `template class` lines of `IncrementalMerkleTree.cpp`. -/
def Instantiated (Depth : Nat) : Prop :=
  Depth = INCREMENTAL_MERKLE_TREE_DEPTH ∨ Depth = INCREMENTAL_MERKLE_TREE_DEPTH_TESTING

instance : DecidablePred Instantiated := fun _ => inferInstanceAs (Decidable (_ ∨ _))

theorem Instantiated.bounds {Depth : Nat} (instantiated : Instantiated Depth) : 1 ≤ Depth ∧ Depth ≤ 29 := by
  rcases instantiated with rfl | rfl <;> decide

/-- `MerklePath`: the sibling hashes as bit vectors and the position bits, both
    from the root down. -/
structure MerklePath where
  authentication_path : List (List Bool)
  index : List Bool
  deriving DecidableEq, Repr

/-- `IncrementalMerkleTree`: the last pair of leaves and the collapsed left
    subtrees ordered toward the root. -/
structure IncrementalMerkleTree (Hash : Type) where
  left : Option Hash
  right : Option Hash
  parents : List (Option Hash)
  deriving DecidableEq, Repr

/-- `IncrementalWitness`: a tree frozen at the witnessed leaf, the roots of the
    subtrees completed after it, and the subtree being filled. -/
structure IncrementalWitness (Hash : Type) where
  tree : IncrementalMerkleTree Hash
  filled : List Hash
  cursor : Option (IncrementalMerkleTree Hash)
  cursor_depth : Nat
  deriving DecidableEq, Repr

/-- `convertBytesVectorToVector`: the bits of each byte, most significant first. -/
def convertBytesVectorToVector (bytes : List UInt8) : List Bool :=
  bytes.flatMap fun c => (List.range 8).map fun j => c.toNat.testBit (7 - j)

/-- The value of a bit vector read most significant bit first. -/
def bitsValue (v : List Bool) : Nat := v.foldl (fun acc b => 2 * acc + if b then 1 else 0) 0

theorem bitsValue_foldl (v : List Bool) (acc : Nat) :
    v.foldl (fun acc b => 2 * acc + if b then 1 else 0) acc = acc * 2^v.length + bitsValue v := by
  induction v generalizing acc with
  | nil => simp [bitsValue]
  | cons b v ih =>
    have unfolded : bitsValue (b :: v) = (2 * 0 + if b then 1 else 0) * 2^v.length + bitsValue v := ih _
    rw [List.foldl_cons,ih,unfolded,List.length_cons,pow_succ]
    ring

/-- The leading bit of a vector weighs `2` to the length of the rest. -/
theorem bitsValue_cons (b : Bool) (v : List Bool) :
    bitsValue (b :: v) = (if b then 2^v.length else 0) + bitsValue v := by
  rw [bitsValue,List.foldl_cons,bitsValue_foldl]
  cases b <;> simp

/-- The low `d` bits of `k`, most significant first, read back as `k % 2^d`. -/
theorem bitsValue_testBit (k d : Nat) : bitsValue ((List.range d).map k.testBit).reverse = k % 2^d := by
  induction d with
  | zero => simp [bitsValue,Nat.mod_one]
  | succ d ih =>
    rw [List.range_succ,List.map_append,List.reverse_append,List.map_singleton,List.reverse_singleton,
      List.singleton_append,bitsValue_cons,ih,List.length_reverse,List.length_map,List.length_range,Nat.mod_pow_succ,
      Nat.testBit_eq_decide_div_mod_eq]
    rcases Nat.mod_two_eq_zero_or_one (k / 2^d) with parity | parity
    · simp [parity]
    · simp [parity]
      ring

/-- `convertVectorToInt`: setting bit `size-1-i` for every true entry `i` gives
    the vector's value read most significant bit first. -/
def convertVectorToInt (v : List Bool) : Except String Nat :=
  if 64 < v.length then .error "boolean vector can't be larger than 64 bits"
  else .ok (bitsValue v)

namespace IncrementalMerkleTree

variable {Hash : Type} [Inhabited Hash] (combine : Hash → Hash → Hash)

/-- The tree with no leaf. -/
def empty : IncrementalMerkleTree Hash := ⟨none,none,[]⟩

/-- `EmptyMerkleRoots::empty_root`: `Hash()` at depth 0, then two copies combined. -/
def empty_root (d : Nat) : Hash := CompleteTree.emptyRoot combine default d

/-- `PathFiller::next`: the front of the filler queue, or the empty root of the
    level once the queue is used up. -/
def fillerNext (queue : List Hash) (d : Nat) : Hash × List Hash :=
  match queue with
  | h :: rest => (h,rest)
  | [] => (empty_root combine d,[])

/-- The parents loop of `root`: a present parent is a left sibling, an absent one
    takes its right sibling from the filler. Returns the root so far, the filler
    left and the next level. -/
def rootParents (r : Hash) (queue : List Hash) (d : Nat) : List (Option Hash) → Hash × List Hash × Nat
  | [] => (r,queue,d)
  | some p :: ps => rootParents (combine p r) queue (d+1) ps
  | none :: ps => rootParents (combine r (fillerNext combine queue d).1) (fillerNext combine queue d).2 (d+1) ps

/-- The `while (d < depth)` loop of `root`, run for `n` more levels. -/
def rootFill (r : Hash) (queue : List Hash) (d : Nat) : Nat → Hash
  | 0 => r
  | n+1 => rootFill (combine r (fillerNext combine queue d).1) (fillerNext combine queue d).2 (d+1) n

/-- `root(depth, filler_hashes)`; `root()` is `root Depth []`. -/
def root (t : IncrementalMerkleTree Hash) (depth : Nat) (filler : List Hash) : Hash :=
  let leftStep : Hash × List Hash := match t.left with
    | some l => (l,filler)
    | none => fillerNext combine filler 0
  let rightStep : Hash × List Hash := match t.right with
    | some r => (r,leftStep.2)
    | none => fillerNext combine leftStep.2 0
  let up := rootParents combine (combine leftStep.1 rightStep.1) rightStep.2 1 t.parents
  rootFill combine up.1 up.2.1 up.2.2 (depth - up.2.2)

/-- `last()`. -/
def last (t : IncrementalMerkleTree Hash) : Except String Hash :=
  match t.right, t.left with
  | some r, _ => .ok r
  | none, some l => .ok l
  | none, none => .error "tree has no cursor"

/-- The `int` value `1 << n` as a `size_t` sum adds it: `2^n` up to `n = 30`;
    at `n = 31` the sign bit, `INT_MIN`, which converts to `2^64 - 2^31` (the bit
    `base_uint` sets in a word with the same shift, `setBit`); a shift as wide
    as the `int` is undefined, returned as `none`. -/
def shiftedOne (n : Nat) : Option Nat :=
  if n ≤ 30 then some (2^n) else if n = 31 then some (2^64 - 2^31) else none

/-- The parents loop of `size()`: a present parent `i` adds `1 << (i+1)` to the
    `size_t` sum. -/
def sizeParents (ret i : Nat) : List (Option Hash) → Option Nat
  | [] => some ret
  | none :: ps => sizeParents ret (i+1) ps
  | some _ :: ps => (shiftedOne (i+1)).bind fun term => sizeParents ((ret + term) % 2^64) (i+1) ps

/-- `size()`: the leaves held, plus the parents read as a binary number. -/
def size (t : IncrementalMerkleTree Hash) : Option Nat :=
  sizeParents ((if t.left.isSome then 1 else 0) + (if t.right.isSome then 1 else 0)) 0 t.parents

/-- `is_complete(depth)`; the source compares with `depth - 1` in `size_t`,
    which for `depth = 0` no parents vector reaches. -/
def is_complete (t : IncrementalMerkleTree Hash) (depth : Nat) : Bool :=
  t.left.isSome && t.right.isSome && t.parents.length + 1 == depth && t.parents.all Option.isSome

/-- The parents loop of `next_depth`: the level of the first absent parent once
    `skip` of them are passed, counting levels past the parents as absent. -/
def nextDepthParents (skip d : Nat) : List (Option Hash) → Nat
  | [] => d + skip
  | none :: ps => if skip = 0 then d else nextDepthParents (skip-1) (d+1) ps
  | some _ :: ps => nextDepthParents skip (d+1) ps

/-- `next_depth(skip)`: the level of the unfilled subtree found after `skip`
    filled ones; both leaf slots sit at level 0. -/
def next_depth (t : IncrementalMerkleTree Hash) (skip : Nat) : Nat :=
  if t.left.isNone && skip == 0 then 0 else
  let skip := if t.left.isNone then skip - 1 else skip
  if t.right.isNone && skip == 0 then 0 else
  let skip := if t.right.isNone then skip - 1 else skip
  nextDepthParents skip 1 t.parents

/-- The carry loop of `append`, `for (i = 0; i < Depth; i++)`, with `fuel` the
    iterations left: present parents are combined into the carry and cleared,
    the first absent one or the end of the vector takes it. -/
def carry : Nat → List (Option Hash) → Hash → List (Option Hash)
  | 0, ps, _ => ps
  | _+1, [], c => [some c]
  | _+1, none :: ps, c => some c :: ps
  | fuel+1, some p :: ps, c => none :: carry fuel ps (combine p c)

/-- `append(obj)`. -/
def append (Depth : Nat) (t : IncrementalMerkleTree Hash) (obj : Hash) : Except String (IncrementalMerkleTree Hash) :=
  if t.is_complete Depth then .error "tree is full" else
  match t.left, t.right with
  | none, _ => .ok { t with left := some obj }
  | some _, none => .ok { t with right := some obj }
  | some l, some r => .ok ⟨some obj,none,carry combine Depth t.parents (combine l r)⟩

/-- The tree after `append` of each leaf in order, or the first exception. -/
def appendAll (Depth : Nat) (t : IncrementalMerkleTree Hash) (xs : List Hash) :
    Except String (IncrementalMerkleTree Hash) :=
  xs.foldlM (fun t x => t.append combine Depth x) t

/-- `wfcheck()`, run after deserialising a tree. -/
def wfcheck (Depth : Nat) (t : IncrementalMerkleTree Hash) : Except String Unit :=
  if Depth ≤ t.parents.length then .error "tree has too many parents"
  else if t.parents.getLast?.any Option.isNone then .error "tree has non-canonical representation of parent"
  else if t.left.isNone && t.right.isSome then .error "tree has non-canonical representation; right should not exist"
  else if t.left.isNone && 0 < t.parents.length then .error "tree has non-canonical representation; parents should not be unempty"
  else .ok ()

/-- The parents loop of `path`: each level's position bit and sibling, from the
    bottom up. -/
def pathParents (queue : List Hash) (d : Nat) : List (Option Hash) → List (Bool × Hash) × List Hash × Nat
  | [] => ([],queue,d)
  | some p :: ps =>
    let rest := pathParents queue (d+1) ps
    ((true,p) :: rest.1,rest.2)
  | none :: ps =>
    let rest := pathParents (fillerNext combine queue d).2 (d+1) ps
    ((false,(fillerNext combine queue d).1) :: rest.1,rest.2)

/-- The `while (d < Depth)` loop of `path`, run for `n` more levels. -/
def pathFill (queue : List Hash) (d : Nat) : Nat → List (Bool × Hash)
  | 0 => []
  | n+1 => (false,(fillerNext combine queue d).1) :: pathFill (fillerNext combine queue d).2 (d+1) n

/-- `path(filler_hashes)`: the levels are built from the bottom up and both
    vectors reversed at the end; `bytes` gives the bytes of a hash. -/
def path (Depth : Nat) (bytes : Hash → List UInt8) (t : IncrementalMerkleTree Hash) (filler : List Hash) :
    Except String MerklePath :=
  match t.left with
  | none => .error "can't create an authentication path for the beginning of the tree"
  | some l =>
    let first : (Bool × Hash) × List Hash := match t.right with
      | some _ => ((true,l),filler)
      | none => ((false,(fillerNext combine filler 0).1),(fillerNext combine filler 0).2)
    let up := pathParents combine first.2 1 t.parents
    let levels := first.1 :: up.1 ++ pathFill combine up.2.1 up.2.2 (Depth - up.2.2)
    .ok ⟨(levels.map fun e => convertBytesVectorToVector (bytes e.2)).reverse,(levels.map Prod.fst).reverse⟩

/-- `witness()`. -/
def witness (t : IncrementalMerkleTree Hash) : IncrementalWitness Hash := ⟨t,[],none,0⟩

end IncrementalMerkleTree

namespace IncrementalWitness

variable {Hash : Type} [Inhabited Hash] (combine : Hash → Hash → Hash)

/-- `partial_path()`: the filled subtree roots, then the root of the cursor. -/
def partial_path (w : IncrementalWitness Hash) : List Hash :=
  w.filled ++ match w.cursor with
    | some c => [c.root combine w.cursor_depth []]
    | none => []

/-- `path()`. -/
def path (Depth : Nat) (bytes : Hash → List UInt8) (w : IncrementalWitness Hash) : Except String MerklePath :=
  w.tree.path combine Depth bytes (w.partial_path combine)

/-- `element()`. -/
def element (w : IncrementalWitness Hash) : Except String Hash := w.tree.last

/-- `root()`. -/
def root (Depth : Nat) (w : IncrementalWitness Hash) : Hash :=
  w.tree.root combine Depth (w.partial_path combine)

/-- `append(obj)`. -/
def append (Depth : Nat) (w : IncrementalWitness Hash) (obj : Hash) : Except String (IncrementalWitness Hash) :=
  match w.cursor with
  | some c => do
    let c ← c.append combine Depth obj
    if c.is_complete w.cursor_depth then
      pure { w with filled := w.filled ++ [c.root combine w.cursor_depth []], cursor := none }
    else pure { w with cursor := some c }
  | none =>
    let cursor_depth := w.tree.next_depth w.filled.length
    if Depth ≤ cursor_depth then .error "tree is full"
    else if cursor_depth = 0 then .ok { w with cursor_depth := cursor_depth, filled := w.filled ++ [obj] }
    else do
      let c ← IncrementalMerkleTree.empty.append combine Depth obj
      pure { w with cursor_depth := cursor_depth, cursor := some c }

/-- The witness after `append` of each leaf in order, or the first exception. -/
def appendAll (Depth : Nat) (w : IncrementalWitness Hash) (xs : List Hash) : Except String (IncrementalWitness Hash) :=
  xs.foldlM (fun w x => w.append combine Depth x) w

end IncrementalWitness

end BitcoinPrivate.Zcash
