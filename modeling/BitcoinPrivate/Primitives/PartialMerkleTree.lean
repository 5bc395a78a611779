import BitcoinPrivate.Consensus.Merkle

/-!
The partial merkle tree of `merkleblock.cpp`, over any hash type with the hash
of a pair, `Hash` of the two hashes one after the other, as an argument.

`TraverseAndBuild` walks the tree of a block's txids depth first: one bit for
each node it visits, set when a matched txid is below, and the node's hash
where it stops, at a leaf or at a node with no match below. `TraverseAndExtract`
walks the same way over the bits and hashes and computes the root back.

The tree the traversals walk is the tree of `Merkle.merkleRoot`: the node at
`height` and `pos` that `CalcHash` computes is entry `pos` of level `height`
(`CalcHash_eq`), and `CalcTreeWidth height` is that level's length
(`length_treeLevel`). What the builder writes is stated as `encoding`, and what
the extractor does on it is proved by induction on the height
(`TraverseAndExtract_encoding`). The test of `TraverseAndExtract` that two
siblings never have one hash holds of every txid list whose root
`ComputeMerkleRoot` computes without setting `mutated`
(`siblingsDistinct_of_unmutated`), which is what `CheckBlock` requires of a
block: so `ExtractMatches` gives back the root and the matched txids of every
tree that is built from such a list.
-/
namespace BitcoinPrivate

/-- `MIN_TRANSACTION_WEIGHT`: 60 bytes is the least a valid transaction serializes to. -/
def MIN_TRANSACTION_WEIGHT : Nat := WITNESS_SCALE_FACTOR * 60

/-- `CPartialMerkleTree`. -/
structure CPartialMerkleTree (α : Type) where
  nTransactions : Nat
  vBits : List Bool
  vHash : List α
  fBad : Bool
  deriving DecidableEq, Repr

namespace CPartialMerkleTree

/-! ## The model -/

/-- `CalcTreeWidth`: the number of nodes at `height`. The member reads
    `nTransactions` only. -/
def CalcTreeWidth (nTransactions height : Nat) : Nat := (nTransactions + (1 <<< height) - 1) >>> height

/-- `while (CalcTreeWidth(nHeight) > 1) nHeight++`, for at most `fuel` passes. -/
def heightLoop (nTransactions : Nat) : Nat → Nat → Nat
  | 0, nHeight => nHeight
  | fuel+1, nHeight =>
    if CalcTreeWidth nTransactions nHeight > 1 then heightLoop nTransactions fuel (nHeight + 1) else nHeight

/-- The height of the tree, by the loop of the constructor and of
    `ExtractMatches` from `nHeight = 0`; `nTransactions` passes are enough
    (`treeHeight_eq`). -/
def treeHeight (nTransactions : Nat) : Nat := heightLoop nTransactions nTransactions 0

/-- The loop of `TraverseAndBuild` that decides whether the node at `height` and
    `pos` is the parent of a matched txid: the positions from `pos << height` on
    while below `(pos+1) << height` and below `nTransactions`. -/
def parentOfMatch (nTransactions : Nat) (vMatch : List Bool) (height pos : Nat) : Bool :=
  (List.range' (pos <<< height) (min ((pos + 1) <<< height) nTransactions - pos <<< height)).foldl
    (fun fParentOfMatch p => fParentOfMatch || vMatch.getD p false) false

section
variable {α : Type} [Inhabited α] [DecidableEq α] (hash64 : α → α → α)

/-- `assert(vTxid.size() != 0)` of `CalcHash`. -/
def assertTxids (vTxid : List α) : Except String Unit :=
  if vTxid.length ≠ 0 then pure () else throw "assert(vTxid.size() != 0)"

/-- `CalcHash`: the hash of the node at `height` and `pos`, a txid at height 0;
    where the node has no right child its left one stands in for it. -/
def CalcHash (nTransactions : Nat) (vTxid : List α) : Nat → Nat → Except String α
  | 0, pos => do
    assertTxids vTxid
    pure (vTxid.getD pos default)
  | height+1, pos => do
    assertTxids vTxid
    let left ← CalcHash nTransactions vTxid height (pos * 2)
    let right ← if pos * 2 + 1 < CalcTreeWidth nTransactions height then CalcHash nTransactions vTxid height (pos * 2 + 1)
      else pure left
    pure (hash64 left right)

/-- `TraverseAndBuild`, on the tree `t` whose `vBits` and `vHash` it appends to.
    The test `height==0 || !fParentOfMatch` of the source is the two cases of
    the height: a leaf always stores its hash. -/
def TraverseAndBuild (vTxid : List α) (vMatch : List Bool) : Nat → Nat → CPartialMerkleTree α →
    Except String (CPartialMerkleTree α)
  | 0, pos, t => do
    let fParentOfMatch := parentOfMatch t.nTransactions vMatch 0 pos
    let t := { t with vBits := t.vBits ++ [fParentOfMatch] }
    let hash ← CalcHash hash64 t.nTransactions vTxid 0 pos
    pure { t with vHash := t.vHash ++ [hash] }
  | height+1, pos, t => do
    let fParentOfMatch := parentOfMatch t.nTransactions vMatch (height + 1) pos
    let t := { t with vBits := t.vBits ++ [fParentOfMatch] }
    if fParentOfMatch then do
      let t ← TraverseAndBuild vTxid vMatch height (pos * 2) t
      if pos * 2 + 1 < CalcTreeWidth t.nTransactions height then TraverseAndBuild vTxid vMatch height (pos * 2 + 1) t
      else pure t
    else do
      let hash ← CalcHash hash64 t.nTransactions vTxid (height + 1) pos
      pure { t with vHash := t.vHash ++ [hash] }

/-- What `TraverseAndExtract` changes: its counters and output vectors, passed
    by reference, and the tree's `fBad`. -/
structure ExtractState (α : Type) where
  nBitsUsed : Nat
  nHashUsed : Nat
  vMatch : List α
  vnIndex : List Nat
  fBad : Bool
  deriving DecidableEq, Repr

/-- The branch of `TraverseAndExtract` that uses the stored hash: the next hash,
    and when `matched` (height 0 and the bit set) a matched txid at `pos`. -/
def storedHash (t : CPartialMerkleTree α) (matched : Bool) (pos : Nat) (s : ExtractState α) : α × ExtractState α :=
  match t.vHash[s.nHashUsed]? with
  | none => (default,{ s with fBad := true })
  | some hash =>
    let s := { s with nHashUsed := s.nHashUsed + 1 }
    if matched then (hash,{ s with vMatch := s.vMatch ++ [hash], vnIndex := s.vnIndex ++ [pos] }) else (hash,s)

/-- `TraverseAndExtract`: the hash of the node at `height` and `pos`, from the
    bits and hashes from the counters on. A failure sets `fBad` and returns the
    null hash, and the traversal goes on. -/
def TraverseAndExtract (t : CPartialMerkleTree α) : Nat → Nat → ExtractState α → α × ExtractState α
  | height, pos, s =>
    match t.vBits[s.nBitsUsed]? with
    | none => (default,{ s with fBad := true })
    | some fParentOfMatch =>
      let s := { s with nBitsUsed := s.nBitsUsed + 1 }
      match height with
      | 0 => storedHash t fParentOfMatch pos s
      | height+1 =>
        if fParentOfMatch then
          let (left,s) := TraverseAndExtract t height (pos * 2) s
          if pos * 2 + 1 < CalcTreeWidth t.nTransactions height then
            let (right,s) := TraverseAndExtract t height (pos * 2 + 1) s
            -- the two branches of a node never cover one txid
            (hash64 left right,if right = left then { s with fBad := true } else s)
          else (hash64 left left,s)
        else storedHash t false pos s

/-- `ExtractMatches`: the root, or the null hash on a failure, with `vMatch`
    cleared first and `vnIndex` appended to. -/
def ExtractMatches (t : CPartialMerkleTree α) (vnIndex : List Nat) : α × List α × List Nat :=
  if t.nTransactions = 0 then (default,[],vnIndex)
  else if t.nTransactions > MAX_BLOCK_WEIGHT / MIN_TRANSACTION_WEIGHT then (default,[],vnIndex)
  else if t.vHash.length > t.nTransactions then (default,[],vnIndex)
  else if t.vBits.length < t.vHash.length then (default,[],vnIndex)
  else
    let (hashMerkleRoot,s) := TraverseAndExtract hash64 t (treeHeight t.nTransactions) 0 ⟨0,0,[],vnIndex,t.fBad⟩
    if s.fBad then (default,s.vMatch,s.vnIndex)
    -- every bit read, but for the padding of the bytes they are sent in
    else if (s.nBitsUsed + 7) / 8 ≠ (t.vBits.length + 7) / 8 then (default,s.vMatch,s.vnIndex)
    else if s.nHashUsed ≠ t.vHash.length then (default,s.vMatch,s.vnIndex)
    else (hashMerkleRoot,s.vMatch,s.vnIndex)

/-- The constructor `CPartialMerkleTree(vTxid, vMatch)`, with `nTransactions`
    the size as an `unsigned int`. -/
def ofTxids (vTxid : List α) (vMatch : List Bool) : Except String (CPartialMerkleTree α) :=
  let nTransactions := vTxid.length % 2^32
  TraverseAndBuild hash64 vTxid vMatch (treeHeight nTransactions) 0 ⟨nTransactions,[],[],false⟩

end

/-! ## Widths and the height -/

theorem CalcTreeWidth_eq (nTransactions height : Nat) :
    CalcTreeWidth nTransactions height = (nTransactions + 2^height - 1) / 2^height := by
  rw [CalcTreeWidth,Nat.one_shiftLeft,Nat.shiftRight_eq_div_pow]

/-- A position is inside a level when its first leaf is a txid. -/
theorem lt_CalcTreeWidth_iff {nTransactions height pos : Nat} :
    pos < CalcTreeWidth nTransactions height ↔ pos * 2^height < nTransactions := by
  have positive : 0 < 2^height := Nat.two_pow_pos height
  rw [CalcTreeWidth_eq,← Nat.add_one_le_iff,Nat.le_div_iff_mul_le positive,Nat.add_mul,one_mul]
  omega

/-- One level up, the width halves, an odd width rounded up. -/
theorem CalcTreeWidth_succ (nTransactions height : Nat) :
    CalcTreeWidth nTransactions (height + 1) = (CalcTreeWidth nTransactions height + 1) / 2 := by
  have positive : 0 < 2^height := Nat.two_pow_pos height
  rw [CalcTreeWidth_eq,CalcTreeWidth_eq,← Nat.add_div_right _ positive,Nat.div_div_eq_div_mul,← Nat.pow_succ]
  congr 1
  rw [Nat.pow_succ]
  omega

theorem one_lt_CalcTreeWidth_iff {nTransactions height : Nat} :
    1 < CalcTreeWidth nTransactions height ↔ 2^height < nTransactions := by
  rw [lt_CalcTreeWidth_iff,one_mul]

/-- The loop stops at the least height whose width is at most one. -/
theorem heightLoop_eq {nTransactions : Nat} :
    ∀ fuel nHeight, nHeight ≤ Nat.clog 2 nTransactions → Nat.clog 2 nTransactions ≤ nHeight + fuel →
      heightLoop nTransactions fuel nHeight = Nat.clog 2 nTransactions
  | 0, nHeight, below, enough => by rw [heightLoop]; omega
  | fuel+1, nHeight, below, enough => by
    rw [heightLoop]
    split
    · rename_i wide
      have higher : nHeight < Nat.clog 2 nTransactions :=
        (Nat.lt_clog_iff_pow_lt (by decide)).mpr (one_lt_CalcTreeWidth_iff.mp wide)
      exact heightLoop_eq fuel (nHeight + 1) higher (by omega)
    · rename_i narrow
      have reached : Nat.clog 2 nTransactions ≤ nHeight :=
        (Nat.clog_le_iff_le_pow (by decide)).mpr (Nat.le_of_not_lt (mt one_lt_CalcTreeWidth_iff.mpr narrow))
      omega

/-- The height of a tree is the depth of its txids. -/
theorem treeHeight_eq (nTransactions : Nat) : treeHeight nTransactions = Nat.clog 2 nTransactions :=
  heightLoop_eq nTransactions 0 (Nat.zero_le _)
    (by rw [Nat.zero_add]; exact (Nat.clog_le_iff_le_pow (by decide)).mpr Nat.lt_two_pow_self.le)

/-! ## The tree of the txids -/

section
variable {α : Type} [Inhabited α] (hash64 : α → α → α)

/-- Level `height` of the tree above the txids. -/
def treeLevel (vTxid : List α) (height : Nat) : List α := (Merkle.merkleLevel hash64)^[height] vTxid

/-- The hash of the node at `height` and `pos`. -/
def nodeHash (vTxid : List α) (height pos : Nat) : α := (treeLevel hash64 vTxid height).getD pos default

omit [Inhabited α] in
theorem treeLevel_succ (vTxid : List α) (height : Nat) :
    treeLevel hash64 vTxid (height + 1) = Merkle.merkleLevel hash64 (treeLevel hash64 vTxid height) :=
  Function.iterate_succ_apply' _ _ _

omit [Inhabited α] in
/-- `CalcTreeWidth` is the length of the level. -/
theorem length_treeLevel (vTxid : List α) :
    ∀ height, (treeLevel hash64 vTxid height).length = CalcTreeWidth vTxid.length height
  | 0 => by simp [treeLevel,CalcTreeWidth_eq]
  | height+1 => by
    rw [treeLevel_succ,Merkle.length_merkleLevel,length_treeLevel vTxid height,CalcTreeWidth_succ]

/-- Entry `i` of the level above: the hash of entries `2i` and `2i+1`, or of
    `2i` twice where it is the last. -/
theorem getD_merkleLevel : ∀ (hashes : List α) (i : Nat), i * 2 < hashes.length →
    (Merkle.merkleLevel hash64 hashes).getD i default =
      hash64 (hashes.getD (i * 2) default)
        (if i * 2 + 1 < hashes.length then hashes.getD (i * 2 + 1) default else hashes.getD (i * 2) default)
  | _ :: _ :: _, 0, _ => by simp [Merkle.merkleLevel]
  | a :: b :: rest, i+1, inside => by
    have ih := getD_merkleLevel rest i (by simp only [List.length_cons] at inside; omega)
    have shift : (i + 1) * 2 = i * 2 + 1 + 1 := by ring
    simp only [Merkle.merkleLevel,List.getD_cons_succ,shift,List.length_cons,ih]
    simp only [Nat.add_lt_add_iff_right]
  | [_], 0, _ => by simp [Merkle.merkleLevel]
  | [_], _+1, inside => by simp only [List.length_singleton] at inside; omega
  | [], _, inside => by simp at inside

/-- A node inside its level is the hash of its children, its left one twice
    where it has no right one. -/
theorem nodeHash_succ (vTxid : List α) {height pos : Nat} (inside : pos * 2 < CalcTreeWidth vTxid.length height) :
    nodeHash hash64 vTxid (height + 1) pos =
      hash64 (nodeHash hash64 vTxid height (pos * 2))
        (if pos * 2 + 1 < CalcTreeWidth vTxid.length height then nodeHash hash64 vTxid height (pos * 2 + 1)
          else nodeHash hash64 vTxid height (pos * 2)) := by
  rw [nodeHash,treeLevel_succ,getD_merkleLevel hash64 _ pos (by rw [length_treeLevel]; exact inside),
    length_treeLevel]
  rfl

/-- The children of a node inside its level: the left one is inside the level below. -/
theorem left_inside {nTransactions height pos : Nat} (inside : pos < CalcTreeWidth nTransactions (height + 1)) :
    pos * 2 < CalcTreeWidth nTransactions height := by
  rw [lt_CalcTreeWidth_iff] at inside ⊢
  rwa [Nat.pow_succ,← Nat.mul_assoc,Nat.mul_right_comm] at inside

omit [Inhabited α] in
theorem assertTxids_ok {vTxid : List α} (nonempty : vTxid ≠ []) : assertTxids vTxid = .ok () := by
  rw [assertTxids,if_pos (by simpa using nonempty)]
  rfl

/-- `CalcHash` computes the node of the tree. -/
theorem CalcHash_eq {vTxid : List α} (nonempty : vTxid ≠ []) :
    ∀ height pos, pos < CalcTreeWidth vTxid.length height →
      CalcHash hash64 vTxid.length vTxid height pos = .ok (nodeHash hash64 vTxid height pos)
  | 0, pos, _ => by
    rw [CalcHash,assertTxids_ok nonempty]
    rfl
  | height+1, pos, inside => by
    have left := CalcHash_eq nonempty height (pos * 2) (left_inside inside)
    rw [CalcHash,assertTxids_ok nonempty,Guards.ok_bind,left,Guards.ok_bind,nodeHash_succ hash64 vTxid (left_inside inside)]
    by_cases right : pos * 2 + 1 < CalcTreeWidth vTxid.length height
    · rw [if_pos right,if_pos right,CalcHash_eq nonempty height (pos * 2 + 1) right]
      rfl
    · rw [if_neg right,if_neg right]
      rfl

omit [Inhabited α] in
/-- Level `height + 1` of the txids is level `height` of the level above them. -/
theorem treeLevel_succ_merkleLevel (vTxid : List α) (height : Nat) :
    treeLevel hash64 vTxid (height + 1) = treeLevel hash64 (Merkle.merkleLevel hash64 vTxid) height :=
  Function.iterate_succ_apply _ _ _

/-- The root of the tree is its node at the top, at the depth of the txids. -/
theorem merkleRoot_eq_nodeHash {vTxid : List α} (nonempty : vTxid ≠ []) :
    Merkle.merkleRoot hash64 vTxid = nodeHash hash64 vTxid (Nat.clog 2 vTxid.length) 0 := by
  induction vTxid using Merkle.merkleRoot.induct hash64 with
  | case1 => exact absurd rfl nonempty
  | case2 a => simp [Merkle.merkleRoot,nodeHash,treeLevel]
  | case3 a b rest ih =>
    have long : 1 < (a :: b :: rest).length := by simp
    rw [Merkle.merkleRoot,ih (mt Merkle.merkleLevel_eq_nil.mp nonempty),nodeHash,nodeHash,
      ← Merkle.clog_merkleLevel hash64 long,treeLevel_succ_merkleLevel]

/-- No node of the tree has two children of one hash. -/
def SiblingsDistinct (vTxid : List α) : Prop :=
  ∀ height pos, pos * 2 + 1 < CalcTreeWidth vTxid.length height →
    nodeHash hash64 vTxid height (pos * 2) ≠ nodeHash hash64 vTxid height (pos * 2 + 1)

variable [DecidableEq α]

omit [Inhabited α] in
/-- A level that passes the test of `ComputeMerkleRoot` has no pair of equal
    hashes at an even position and the next. -/
theorem getD_ne_of_levelMutated_eq_false (d : α) :
    ∀ (hashes : List α), Merkle.levelMutated hashes = false → ∀ i, i * 2 + 1 < hashes.length →
      hashes.getD (i * 2) d ≠ hashes.getD (i * 2 + 1) d
  | a :: b :: rest, unmutated, 0, _ => by
    simp only [Merkle.levelMutated,Bool.or_eq_false_iff,beq_eq_false_iff_ne] at unmutated
    simpa using unmutated.1
  | a :: b :: rest, unmutated, i+1, inside => by
    simp only [Merkle.levelMutated,Bool.or_eq_false_iff] at unmutated
    have shift : (i + 1) * 2 = i * 2 + 1 + 1 := by ring
    simp only [shift,List.getD_cons_succ]
    exact getD_ne_of_levelMutated_eq_false d rest unmutated.2 i (by simp only [List.length_cons] at inside; omega)
  | [_], _, i, inside => by simp only [List.length_singleton] at inside; omega
  | [], _, _, inside => by simp at inside

/-- A txid list whose root `ComputeMerkleRoot` computes without setting
    `mutated` has no two siblings of one hash anywhere in its tree. -/
theorem siblingsDistinct_of_unmutated :
    ∀ {vTxid : List α}, (Merkle.ComputeMerkleRoot hash64 vTxid).2 = false → SiblingsDistinct hash64 vTxid := by
  intro vTxid unmutated height
  induction height generalizing vTxid with
  | zero =>
    intro pos inside
    have long : 1 < vTxid.length := by rw [lt_CalcTreeWidth_iff] at inside; omega
    rw [Merkle.ComputeMerkleRoot_step hash64 long,Bool.or_eq_false_iff] at unmutated
    exact getD_ne_of_levelMutated_eq_false default vTxid unmutated.1 pos (by simpa [CalcTreeWidth_eq] using inside)
  | succ height ih =>
    intro pos inside
    have long : 1 < vTxid.length := by
      rw [lt_CalcTreeWidth_iff,Nat.pow_succ] at inside
      have : 2 ≤ 2^height * 2 := Nat.le_mul_of_pos_left 2 (Nat.two_pow_pos height)
      have : 2^height * 2 ≤ (pos * 2 + 1) * (2^height * 2) := Nat.le_mul_of_pos_left _ (by omega)
      omega
    rw [Merkle.ComputeMerkleRoot_step hash64 long,Bool.or_eq_false_iff] at unmutated
    have above : CalcTreeWidth vTxid.length (height + 1) = CalcTreeWidth (Merkle.merkleLevel hash64 vTxid).length height := by
      rw [← length_treeLevel,← length_treeLevel,treeLevel_succ_merkleLevel]
    rw [above] at inside
    simpa only [nodeHash,treeLevel_succ_merkleLevel] using ih unmutated.2 pos inside

end

/-! ## The txids below a node -/

theorem foldl_or_eq_any {β : Type} (f : β → Bool) :
    ∀ (l : List β) (b : Bool), l.foldl (fun acc x => acc || f x) b = (b || l.any f)
  | [], b => by simp
  | x :: rest, b => by rw [List.foldl_cons,foldl_or_eq_any f rest,List.any_cons,Bool.or_assoc]

/-- The positions of the txids below the node at `height` and `pos`. -/
def leafRange (nTransactions height pos : Nat) : List Nat :=
  List.range' (pos * 2^height) (min ((pos + 1) * 2^height) nTransactions - pos * 2^height)

/-- The positions of the matched txids below the node at `height` and `pos`, in order. -/
def matchedLeaves (nTransactions : Nat) (vMatch : List Bool) (height pos : Nat) : List Nat :=
  (leafRange nTransactions height pos).filter (vMatch.getD · false)

theorem parentOfMatch_eq (nTransactions : Nat) (vMatch : List Bool) (height pos : Nat) :
    parentOfMatch nTransactions vMatch height pos = (leafRange nTransactions height pos).any (vMatch.getD · false) := by
  rw [parentOfMatch,foldl_or_eq_any,Bool.false_or,leafRange,Nat.shiftLeft_eq,Nat.shiftLeft_eq]

/-- A node with no match below has no matched leaves. -/
theorem matchedLeaves_of_not_parentOfMatch {nTransactions : Nat} {vMatch : List Bool} {height pos : Nat}
    (none : parentOfMatch nTransactions vMatch height pos = false) : matchedLeaves nTransactions vMatch height pos = [] := by
  rw [parentOfMatch_eq,List.any_eq_false] at none
  exact List.filter_eq_nil_iff.mpr none

theorem leafRange_zero {nTransactions pos : Nat} (inside : pos < nTransactions) : leafRange nTransactions 0 pos = [pos] := by
  rw [leafRange,Nat.pow_zero,Nat.mul_one,Nat.mul_one,Nat.min_eq_left (by omega),Nat.add_sub_cancel_left,List.range'_one]

/-- The txids below a node are those below its left child, then those below its right one. -/
theorem leafRange_succ {nTransactions height pos : Nat} (inside : pos < CalcTreeWidth nTransactions (height + 1)) :
    leafRange nTransactions (height + 1) pos =
      leafRange nTransactions height (pos * 2) ++
        (if pos * 2 + 1 < CalcTreeWidth nTransactions height then leafRange nTransactions height (pos * 2 + 1) else []) := by
  have first : pos * 2 * 2^height < nTransactions := lt_CalcTreeWidth_iff.mp (left_inside inside)
  have up : pos * 2^(height + 1) = pos * 2 * 2^height := by ring
  have up' : (pos + 1) * 2^(height + 1) = pos * 2 * 2^height + 2^height + 2^height := by ring
  have right : (pos * 2 + 1) * 2^height = pos * 2 * 2^height + 2^height := by ring
  have right' : (pos * 2 + 1 + 1) * 2^height = pos * 2 * 2^height + 2^height + 2^height := by ring
  simp only [leafRange,up,up',lt_CalcTreeWidth_iff,right,right']
  generalize pos * 2 * 2^height = start at first ⊢
  generalize 2^height = width
  split
  · rename_i wide
    have middle : min (start + width) nTransactions - start = width := by omega
    have joined := @List.range'_append start width (min (start + width + width) nTransactions - (start + width)) 1
    rw [Nat.one_mul] at joined
    rw [middle,joined]
    congr 1
    omega
  · rename_i narrow
    rw [List.append_nil]
    congr 1
    omega

/-- The matched txids below a node are those below its left child, then those below its right one. -/
theorem matchedLeaves_succ {nTransactions : Nat} {vMatch : List Bool} {height pos : Nat}
    (inside : pos < CalcTreeWidth nTransactions (height + 1)) :
    matchedLeaves nTransactions vMatch (height + 1) pos =
      matchedLeaves nTransactions vMatch height (pos * 2) ++
        (if pos * 2 + 1 < CalcTreeWidth nTransactions height then matchedLeaves nTransactions vMatch height (pos * 2 + 1)
          else []) := by
  rw [matchedLeaves,leafRange_succ inside,List.filter_append]
  split <;> rfl

section
variable {α : Type} [Inhabited α] (hash64 : α → α → α)

/-! ## What `TraverseAndBuild` stores -/

/-- The depth-first encoding that `merkleblock.h` describes, for the node at
    `height` and `pos`: its bit, then its hash where it is a leaf or has no
    match below, and otherwise the encodings of its children. -/
def encoding (vTxid : List α) (vMatch : List Bool) : Nat → Nat → List Bool × List α
  | 0, pos => ([parentOfMatch vTxid.length vMatch 0 pos],[nodeHash hash64 vTxid 0 pos])
  | height+1, pos =>
    if parentOfMatch vTxid.length vMatch (height + 1) pos then
      let left := encoding vTxid vMatch height (pos * 2)
      let right := if pos * 2 + 1 < CalcTreeWidth vTxid.length height then encoding vTxid vMatch height (pos * 2 + 1)
        else ([],[])
      (true :: (left.1 ++ right.1),left.2 ++ right.2)
    else ([false],[nodeHash hash64 vTxid (height + 1) pos])

/-- Every stored hash comes with a bit. -/
theorem length_encoding_le (vTxid : List α) (vMatch : List Bool) :
    ∀ height pos, (encoding hash64 vTxid vMatch height pos).2.length ≤ (encoding hash64 vTxid vMatch height pos).1.length
  | 0, pos => by simp [encoding]
  | height+1, pos => by
    have left := length_encoding_le vTxid vMatch height (pos * 2)
    have right := length_encoding_le vTxid vMatch height (pos * 2 + 1)
    rw [encoding]
    split
    · split
      · simp only [List.length_cons,List.length_append]; omega
      · simp only [List.length_cons,List.length_append,List.length_nil]; omega
    · simp

/-- A node's encoding has at most one bit for each node of its subtree. -/
theorem length_encoding_bits (vTxid : List α) (vMatch : List Bool) :
    ∀ height pos, (encoding hash64 vTxid vMatch height pos).1.length < 2^(height + 1)
  | 0, pos => by simp [encoding]
  | height+1, pos => by
    have left := length_encoding_bits vTxid vMatch height (pos * 2)
    have right := length_encoding_bits vTxid vMatch height (pos * 2 + 1)
    have double : 2^(height + 1 + 1) = 2^(height + 1) + 2^(height + 1) := by rw [Nat.pow_succ]; omega
    rw [encoding]
    split
    · split
      · simp only [List.length_cons,List.length_append]; omega
      · simp only [List.length_cons,List.length_append,List.length_nil]; omega
    · simp only [List.length_singleton]
      exact Nat.one_lt_two_pow (by omega)

/-- Every stored hash stands for at least one txid, and no two for one. -/
theorem length_encoding_hashes (vTxid : List α) (vMatch : List Bool) :
    ∀ height pos, pos < CalcTreeWidth vTxid.length height →
      (encoding hash64 vTxid vMatch height pos).2.length ≤ (leafRange vTxid.length height pos).length
  | 0, pos, inside => by
    rw [leafRange_zero (by simpa [CalcTreeWidth_eq] using inside)]
    simp [encoding]
  | height+1, pos, inside => by
    have left := length_encoding_hashes vTxid vMatch height (pos * 2) (left_inside inside)
    rw [encoding,leafRange_succ inside]
    split
    · split
      · rename_i _ wide
        have right := length_encoding_hashes vTxid vMatch height (pos * 2 + 1) wide
        simp only [List.length_append]; omega
      · simpa using left
    · have nonempty : 0 < (leafRange vTxid.length height (pos * 2)).length := by
        rw [leafRange,List.length_range']
        have := lt_CalcTreeWidth_iff.mp (left_inside inside)
        have : pos * 2 * 2^height < (pos * 2 + 1) * 2^height := by
          rw [Nat.add_mul,Nat.one_mul]; exact Nat.lt_add_of_pos_right (Nat.two_pow_pos height)
        omega
      simp only [List.length_singleton,List.length_append]; omega

/-- `TraverseAndBuild` appends the encoding of the node to the tree. -/
theorem TraverseAndBuild_eq {vTxid : List α} (nonempty : vTxid ≠ []) (vMatch : List Bool) :
    ∀ height pos (t : CPartialMerkleTree α), t.nTransactions = vTxid.length → pos < CalcTreeWidth vTxid.length height →
      TraverseAndBuild hash64 vTxid vMatch height pos t =
        .ok { t with vBits := t.vBits ++ (encoding hash64 vTxid vMatch height pos).1,
                     vHash := t.vHash ++ (encoding hash64 vTxid vMatch height pos).2 }
  | 0, pos, ⟨_,vBits,vHash,fBad⟩, rfl, inside => by
    simp only [TraverseAndBuild,encoding,CalcHash_eq hash64 nonempty 0 pos inside,Guards.ok_bind]
    rfl
  | height+1, pos, ⟨_,vBits,vHash,fBad⟩, rfl, inside => by
    simp only [TraverseAndBuild,encoding]
    by_cases match_below : parentOfMatch vTxid.length vMatch (height + 1) pos = true
    · simp only [match_below,if_true]
      rw [TraverseAndBuild_eq nonempty vMatch height (pos * 2) _ rfl (left_inside inside),Guards.ok_bind]
      by_cases wide : pos * 2 + 1 < CalcTreeWidth vTxid.length height
      · simp only [wide,if_true]
        rw [TraverseAndBuild_eq nonempty vMatch height (pos * 2 + 1) _ rfl wide]
        simp
      · simp only [wide,if_false]
        simp [pure,Except.pure]
    · simp only [match_below,if_false,Bool.false_eq_true]
      rw [CalcHash_eq hash64 nonempty (height + 1) pos inside]
      rfl

end

/-! ## What `TraverseAndExtract` reads back -/

theorem read_of_drop_eq_cons {β : Type} {l rest : List β} {k : Nat} {a : β} (front : l.drop k = a :: rest) :
    l[k]? = some a ∧ l.drop (k + 1) = rest := by
  constructor
  · rw [← List.head?_drop,front]
    rfl
  · rw [← List.tail_drop,front]
    rfl

theorem drop_length_of_drop_eq {β : Type} {l front back : List β} {k : Nat} (split : l.drop k = front ++ back) :
    l.drop (k + front.length) = back := by
  rw [← List.drop_drop,split,List.drop_left]

section
variable {α : Type} [Inhabited α] [DecidableEq α] (hash64 : α → α → α)

omit [DecidableEq α] in
/-- The stored hash at the counter, with the txid recorded when `matched`. -/
theorem storedHash_eq {t : CPartialMerkleTree α} (s : ExtractState α) {hash : α} {rest : List α}
    (front : t.vHash.drop s.nHashUsed = hash :: rest) (matched : Bool) (pos : Nat) :
    storedHash t matched pos s =
      (hash,{ s with nHashUsed := s.nHashUsed + 1, vMatch := if matched then s.vMatch ++ [hash] else s.vMatch,
                     vnIndex := if matched then s.vnIndex ++ [pos] else s.vnIndex }) := by
  rw [storedHash,(read_of_drop_eq_cons front).1]
  cases matched <;> rfl

/-- On the encoding of a node, from any counters and with anything after it,
    `TraverseAndExtract` returns the node's hash, moves the counters past the
    encoding, and records the matched txids below the node with their
    positions, in order; `fBad` stays as it is. -/
theorem TraverseAndExtract_encoding {vTxid : List α} (distinct : SiblingsDistinct hash64 vTxid) (vMatch : List Bool)
    {t : CPartialMerkleTree α} (count : t.nTransactions = vTxid.length) :
    ∀ height pos (s : ExtractState α) (restBits : List Bool) (restHashes : List α),
      pos < CalcTreeWidth vTxid.length height →
      t.vBits.drop s.nBitsUsed = (encoding hash64 vTxid vMatch height pos).1 ++ restBits →
      t.vHash.drop s.nHashUsed = (encoding hash64 vTxid vMatch height pos).2 ++ restHashes →
      TraverseAndExtract hash64 t height pos s =
        (nodeHash hash64 vTxid height pos,
          { s with nBitsUsed := s.nBitsUsed + (encoding hash64 vTxid vMatch height pos).1.length,
                   nHashUsed := s.nHashUsed + (encoding hash64 vTxid vMatch height pos).2.length,
                   vMatch := s.vMatch ++ (matchedLeaves vTxid.length vMatch height pos).map (vTxid.getD · default),
                   vnIndex := s.vnIndex ++ matchedLeaves vTxid.length vMatch height pos })
  | 0, pos, s, restBits, restHashes, inside, bits, hashes => by
    have leaf : pos < vTxid.length := by simpa [CalcTreeWidth_eq] using inside
    simp only [encoding,List.cons_append,List.nil_append] at bits hashes
    rw [TraverseAndExtract,(read_of_drop_eq_cons bits).1]
    dsimp only
    rw [storedHash_eq { s with nBitsUsed := s.nBitsUsed + 1 } hashes]
    simp only [matchedLeaves,parentOfMatch_eq,leafRange_zero leaf,encoding,List.any_cons,List.any_nil,Bool.or_false,
      List.filter_singleton,nodeHash,treeLevel]
    cases vMatch.getD pos false <;> simp
  | height+1, pos, s, restBits, restHashes, inside, bits, hashes => by
    rw [TraverseAndExtract]
    by_cases match_below : parentOfMatch vTxid.length vMatch (height + 1) pos = true
    · have left_in := left_inside inside
      simp only [encoding,match_below,if_true,List.cons_append] at bits hashes ⊢
      rw [(read_of_drop_eq_cons bits).1,matchedLeaves_succ inside,nodeHash_succ hash64 vTxid left_in]
      dsimp only
      rw [if_pos rfl,count]
      have after := (read_of_drop_eq_cons bits).2
      by_cases wide : pos * 2 + 1 < CalcTreeWidth vTxid.length height
      · simp only [wide,if_true,List.append_assoc] at after hashes ⊢
        rw [TraverseAndExtract_encoding distinct vMatch count height (pos * 2) { s with nBitsUsed := s.nBitsUsed + 1 } _ _ left_in after hashes]
        dsimp only
        rw [TraverseAndExtract_encoding distinct vMatch count height (pos * 2 + 1) _ restBits restHashes wide (drop_length_of_drop_eq after)
          (drop_length_of_drop_eq hashes)]
        dsimp only
        rw [if_neg (distinct height pos wide).symm]
        simp only [List.length_cons,List.length_append,List.map_append,List.append_assoc]
        congr 2 <;> omega
      · simp only [wide,if_false,List.append_nil] at after hashes ⊢
        rw [TraverseAndExtract_encoding distinct vMatch count height (pos * 2) { s with nBitsUsed := s.nBitsUsed + 1 } _ _ left_in after hashes]
        simp only [List.length_cons]
        congr 2
        omega
    · have none : parentOfMatch vTxid.length vMatch (height + 1) pos = false := by simpa using match_below
      simp only [encoding,none,Bool.false_eq_true,if_false,List.cons_append,List.nil_append] at bits hashes ⊢
      rw [(read_of_drop_eq_cons bits).1]
      dsimp only
      rw [if_neg (by decide),storedHash_eq { s with nBitsUsed := s.nBitsUsed + 1 } hashes,
        matchedLeaves_of_not_parentOfMatch none]
      simp

/-! ## `ExtractMatches` on a built tree -/

theorem leafRange_root (nTransactions : Nat) : leafRange nTransactions (Nat.clog 2 nTransactions) 0 = List.range nTransactions := by
  have covered := Nat.le_pow_clog (by decide : 1 < 2) nTransactions
  rw [leafRange,Nat.zero_mul,Nat.zero_add,Nat.one_mul,Nat.min_eq_right covered,Nat.sub_zero,List.range_eq_range']

theorem root_inside {nTransactions : Nat} (nonempty : 0 < nTransactions) :
    0 < CalcTreeWidth nTransactions (Nat.clog 2 nTransactions) := by
  rw [lt_CalcTreeWidth_iff,Nat.zero_mul]
  exact nonempty

/-- The tree the constructor builds: the encoding of the root, and `fBad` clear. -/
def encodedTree (vTxid : List α) (vMatch : List Bool) : CPartialMerkleTree α :=
  ⟨vTxid.length,(encoding hash64 vTxid vMatch (Nat.clog 2 vTxid.length) 0).1,
    (encoding hash64 vTxid vMatch (Nat.clog 2 vTxid.length) 0).2,false⟩

omit [DecidableEq α] in
/-- The constructor stores the encoding of the root. -/
theorem ofTxids_eq {vTxid : List α} (nonempty : vTxid ≠ []) (fits : vTxid.length < 2^32) (vMatch : List Bool) :
    ofTxids hash64 vTxid vMatch = .ok (encodedTree hash64 vTxid vMatch) := by
  have positive : 0 < vTxid.length := List.length_pos_iff.mpr nonempty
  rw [ofTxids,Nat.mod_eq_of_lt fits,treeHeight_eq,
    TraverseAndBuild_eq hash64 nonempty vMatch _ 0 _ rfl (root_inside positive)]
  rfl

/-- `ExtractMatches` on the tree the constructor builds, with any bits padding
    its last byte: the root of the txids, and the matched txids with their
    positions, in order. -/
theorem ExtractMatches_encoding {vTxid : List α} (nonempty : vTxid ≠ []) (unmutated : (Merkle.ComputeMerkleRoot hash64 vTxid).2 = false)
    (small : vTxid.length ≤ MAX_BLOCK_WEIGHT / MIN_TRANSACTION_WEIGHT) (vMatch : List Bool) {t : CPartialMerkleTree α}
    (count : t.nTransactions = vTxid.length) (padding : List Bool)
    (bits : t.vBits = (encodedTree hash64 vTxid vMatch).vBits ++ padding)
    (padded : ((encodedTree hash64 vTxid vMatch).vBits.length + 7) / 8 = (t.vBits.length + 7) / 8)
    (hashes : t.vHash = (encodedTree hash64 vTxid vMatch).vHash) (good : t.fBad = false)
    (vnIndex : List Nat) :
    ExtractMatches hash64 t vnIndex =
      ((Merkle.ComputeMerkleRoot hash64 vTxid).1,
        ((List.range vTxid.length).filter (vMatch.getD · false)).map (vTxid.getD · default),
        vnIndex ++ (List.range vTxid.length).filter (vMatch.getD · false)) := by
  simp only [encodedTree] at bits padded hashes
  have positive : 0 < vTxid.length := List.length_pos_iff.mpr nonempty
  have inside := root_inside positive
  -- the counts the checks before the traversal compare
  have fewHashes := length_encoding_hashes hash64 vTxid vMatch _ 0 inside
  have hashesBits := length_encoding_le hash64 vTxid vMatch (Nat.clog 2 vTxid.length) 0
  rw [leafRange_root,List.length_range] at fewHashes
  have traversal := TraverseAndExtract_encoding hash64 (siblingsDistinct_of_unmutated hash64 unmutated) vMatch count
    (Nat.clog 2 vTxid.length) 0 ⟨0,0,[],vnIndex,t.fBad⟩ padding [] inside (by rw [bits]; rfl) (by rw [hashes,List.append_nil]; rfl)
  rw [ExtractMatches,if_neg (by omega),if_neg (by omega),if_neg (by rw [hashes,count]; omega),
    if_neg (by rw [bits,hashes,List.length_append]; omega),treeHeight_eq,count,traversal]
  dsimp only
  rw [if_neg (by rw [good]; decide),if_neg (by rw [Nat.zero_add]; omega),if_neg (by rw [hashes]; omega),
    Merkle.ComputeMerkleRoot_root,merkleRoot_eq_nodeHash hash64 nonempty,matchedLeaves,leafRange_root]
  rfl

/-- The partial merkle tree of any txid list that passes the mutation test of
    `ComputeMerkleRoot` and is within the bound of `ExtractMatches`, with a
    match mask of one bit per txid, as the constructor reads it:
    `ExtractMatches` gives back the list's merkle root, and the matched txids
    with their positions, in order. -/
theorem ExtractMatches_ofTxids {vTxid : List α} (nonempty : vTxid ≠ [])
    (unmutated : (Merkle.ComputeMerkleRoot hash64 vTxid).2 = false)
    (small : vTxid.length ≤ MAX_BLOCK_WEIGHT / MIN_TRANSACTION_WEIGHT) (vMatch : List Bool)
    (_ : vMatch.length = vTxid.length) (vnIndex : List Nat) :
    ∃ t, ofTxids hash64 vTxid vMatch = .ok t ∧
      ExtractMatches hash64 t vnIndex =
        ((Merkle.ComputeMerkleRoot hash64 vTxid).1,
          ((List.range vTxid.length).filter (vMatch.getD · false)).map (vTxid.getD · default),
          vnIndex ++ (List.range vTxid.length).filter (vMatch.getD · false)) :=
  ⟨_,ofTxids_eq hash64 nonempty (Nat.lt_of_le_of_lt small (by decide)) vMatch,
    ExtractMatches_encoding hash64 nonempty unmutated small vMatch rfl [] (List.append_nil _).symm rfl rfl rfl vnIndex⟩

/-- Two different txids pass the mutation test. -/
theorem unmutated_one_two : (Merkle.ComputeMerkleRoot (fun a b : Nat => a * 1000 + b + 1) [1,2]).2 = false := by
  rw [Merkle.ComputeMerkleRoot_step _ (by decide),Merkle.ComputeMerkleRoot_short _ (by decide)]
  decide

theorem ExtractMatches_ofTxids_one_two :
    [1,2] ≠ [] ∧ (Merkle.ComputeMerkleRoot (fun a b : Nat => a * 1000 + b + 1) [1,2]).2 = false ∧
      [1,2].length ≤ MAX_BLOCK_WEIGHT / MIN_TRANSACTION_WEIGHT ∧ [false,true].length = [1,2].length ∧
      ∃ t, ofTxids (fun a b : Nat => a * 1000 + b + 1) [1,2] [false,true] = .ok t ∧
        ExtractMatches (fun a b : Nat => a * 1000 + b + 1) t [] =
          ((Merkle.ComputeMerkleRoot (fun a b : Nat => a * 1000 + b + 1) [1,2]).1,
            ((List.range [1,2].length).filter ([false,true].getD · false)).map ([1,2].getD · default),
            [] ++ (List.range [1,2].length).filter ([false,true].getD · false)) :=
  ⟨by decide,unmutated_one_two,by decide,rfl,ExtractMatches_ofTxids _ (by decide) unmutated_one_two (by decide) _ rfl _⟩

end

/-! ## What `ExtractMatches` accepts -/

section
variable {α : Type} [Inhabited α] [DecidableEq α] (hash64 : α → α → α)

end

end CPartialMerkleTree

end BitcoinPrivate
