import BitcoinPrivate.Chain.BlockIndex

/-!
`CChain` of `chain.h` and `chain.cpp`, the active chain: a vector of entries
indexed by height. `SetTip` writes the new tip and its ancestors from the top
down and stops at the first height whose entry is already the right one; the
early stop is sound because the vector always holds the path from genesis to
its tip (`SetTip_path`, and over any run of `SetTip`, `run_SetTip_path`).

On such a vector `Contains` is the ancestor relation (`Contains_iff`),
`FindFork` returns the deepest common ancestor (`FindFork_deepest`), and
`GetLocator` lists ancestors at heights that double their gaps after the first
eleven (`GetLocator_eq`), which `FindForkInGlobalIndex` of `validation.cpp`
reads back to an entry of the reader's chain below the located one.

Entries are values, as in `BlockIndex`: the pointer comparisons of the code
compare entries.
-/
namespace BitcoinPrivate.Chain

/-- `CChain`: `vChain[h]` is the entry at height `h`; `nullptr` is `none`. -/
structure CChain where
  vChain : List (Option CBlockIndex)
deriving DecidableEq

/-! ## The path of an entry -/

/-- The entries from genesis up to `pindex`, along the parents. -/
def CBlockIndex.path : CBlockIndex → List CBlockIndex
  | pindex@⟨_,none,_,_,_,_⟩ => [pindex]
  | pindex@⟨_,some pprev,_,_,_,_⟩ => pprev.path ++ [pindex]

theorem path_of_pprev {pindex pprev : CBlockIndex} (up : pindex.pprev = some pprev) :
    pindex.path = pprev.path ++ [pindex] := by
  obtain ⟨_,_ | _,_,_,_,_⟩ := pindex
  · cases up
  · cases up
    rw [CBlockIndex.path]

theorem path_of_root {pindex : CBlockIndex} (root : pindex.pprev = none) : pindex.path = [pindex] := by
  obtain ⟨_,_ | _,_,_,_,_⟩ := pindex
  · rw [CBlockIndex.path]
  · cases root

/-- The path has an entry for each height. -/
theorem length_path : ∀ (height : Nat) {pindex : CBlockIndex}, pindex.nHeight = height → SkipsBack pindex →
    pindex.path.length = height + 1 := by
  intro height
  induction height with
  | zero =>
    intro pindex height skips
    cases up : pindex.pprev with
    | none => rw [path_of_root up]; rfl
    | some pprev => have := (skips.of_pprev up).1; omega
  | succ height ih =>
    intro pindex height_eq skips
    obtain ⟨pprev,up⟩ := skips.parent (by omega)
    obtain ⟨height_up,-,skips'⟩ := skips.of_pprev up
    rw [path_of_pprev up,List.length_append,ih (by omega) skips',List.length_singleton]

/-- Entry `h` of the path is the ancestor at height `h`. -/
theorem getElem?_path : ∀ (height : Nat) {pindex : CBlockIndex}, pindex.nHeight = height → SkipsBack pindex →
    ∀ h, pindex.path[h]? = if h ≤ height then pindex.walkBack (height - h) else none := by
  intro height
  induction height with
  | zero =>
    intro pindex height skips h
    have root : pindex.pprev = none := by
      cases up : pindex.pprev with
      | none => rfl
      | some pprev => have := (skips.of_pprev up).1; omega
    rw [path_of_root root]
    cases h with
    | zero => rfl
    | succ h => simp
  | succ height ih =>
    intro pindex height_eq skips h
    obtain ⟨pprev,up⟩ := skips.parent (by omega)
    obtain ⟨height_up,-,skips'⟩ := skips.of_pprev up
    have length := length_path height (by omega) skips'
    rw [path_of_pprev up]
    by_cases below : h ≤ height
    · -- inside the parent's path: one step more back from the entry
      rw [List.getElem?_append_left (by omega),ih (by omega) skips' h,if_pos below,if_pos (by omega),
        show height + 1 - h = 1 + (height - h) by omega,walkBack_add,walkBack_one,up]
      rfl
    · rw [List.getElem?_append_right (by omega),length]
      by_cases top : h = height + 1
      · rw [top,if_pos (le_refl _),Nat.sub_self]
        rfl
      · rw [if_neg (by omega),List.getElem?_eq_none (by simp; omega)]

/-- The path of an ancestor is the front of the path. -/
theorem take_path {pindex a : CBlockIndex} (skips : SkipsBack pindex) (ancestor : IsAncestorOf a pindex) :
    pindex.path.take (a.nHeight + 1) = a.path := by
  obtain ⟨steps,walk⟩ := ancestor
  induction steps generalizing pindex with
  | zero =>
    cases walk
    rw [List.take_of_length_le (by rw [length_path _ rfl skips])]
  | succ steps ih =>
    rw [CBlockIndex.walkBack] at walk
    cases up : pindex.pprev with
    | none => rw [up] at walk; cases walk
    | some pprev =>
      rw [up,Option.bind_some] at walk
      obtain ⟨height,-,skips'⟩ := skips.of_pprev up
      have bounds := nHeight_of_walkBack skips' walk
      rw [path_of_pprev up,List.take_append_of_le_length (by rw [length_path _ rfl skips']; omega),ih skips' walk]

/-- An ancestor of a well-formed entry is well formed. -/
theorem IsAncestorOf.skipsBack {a pindex : CBlockIndex} (skips : SkipsBack pindex) (ancestor : IsAncestorOf a pindex) :
    SkipsBack a := by
  obtain ⟨steps,walk⟩ := ancestor
  obtain ⟨fits,-⟩ := nHeight_of_walkBack skips walk
  obtain ⟨b,walk',-,skips_b⟩ := walkBack_of_le skips fits
  rw [walk,Option.some.injEq] at walk'
  rw [walk']
  exact skips_b

/-- The entry of the path at an ancestor's height is the ancestor. -/
theorem getElem?_path_ancestor {pindex a : CBlockIndex} (skips : SkipsBack pindex) (ancestor : IsAncestorOf a pindex) :
    pindex.path[a.nHeight]? = some a := by
  obtain ⟨steps,walk⟩ := ancestor
  have bounds := nHeight_of_walkBack skips walk
  rw [getElem?_path _ rfl skips,if_pos (by omega),show pindex.nHeight - a.nHeight = steps by omega,walk]

namespace CChain

/-- `Genesis`. -/
def Genesis (chain : CChain) : Option CBlockIndex :=
  if chain.vChain.length > 0 then chain.vChain.getD 0 none else none

/-- `Tip`. -/
def Tip (chain : CChain) : Option CBlockIndex :=
  if chain.vChain.length > 0 then chain.vChain.getD (chain.vChain.length - 1) none else none

/-- `operator[]`: `nullptr` outside the heights of the vector. -/
def get (chain : CChain) (nHeight : Int) : Option CBlockIndex :=
  if nHeight < 0 ∨ nHeight ≥ chain.vChain.length then none else chain.vChain.getD nHeight.toNat none

/-- `Contains`. -/
def Contains (chain : CChain) (pindex : CBlockIndex) : Bool :=
  chain.get pindex.nHeight = some pindex

/-- `Next`. -/
def Next (chain : CChain) (pindex : CBlockIndex) : Option CBlockIndex :=
  if chain.Contains pindex then chain.get (pindex.nHeight + 1) else none

/-- `Height`: `-1` for the empty chain. -/
def Height (chain : CChain) : Int := chain.vChain.length - 1

/-- `operator==`: the sizes and the last entries. On two empty chains the code
    reads `vChain[-1]`; the model reads `nullptr` there. -/
def eq (a b : CChain) : Bool :=
  a.vChain.length = b.vChain.length &&
    a.vChain.getD (a.vChain.length - 1) none = b.vChain.getD (b.vChain.length - 1) none

/-- `std::vector::resize`: the first `n` entries kept, `nullptr` after them. -/
def resize (vChain : List (Option CBlockIndex)) (n : Nat) : List (Option CBlockIndex) :=
  vChain.take n ++ List.replicate (n - vChain.length) none

/-- The loop of `SetTip`: down the parents from the new tip, each entry written
    at its height, until an entry is already in place or the walk passes
    genesis. -/
def setTipLoop (vChain : List (Option CBlockIndex)) : Option CBlockIndex → List (Option CBlockIndex)
  | none => vChain
  | some pindex@⟨_,pprev,_,nHeight,_,_⟩ =>
    if vChain.getD nHeight none ≠ some pindex then setTipLoop (vChain.set nHeight (some pindex)) pprev
    else vChain

/-- `SetTip`. -/
def SetTip (chain : CChain) : Option CBlockIndex → CChain
  | none => ⟨[]⟩
  | some pindex => ⟨setTipLoop (resize chain.vChain (pindex.nHeight + 1)) (some pindex)⟩

/-- The loop of `FindFork`: down the parents until an entry of the chain. -/
def findForkLoop (chain : CChain) : Option CBlockIndex → Option CBlockIndex
  | none => none
  | some pindex@⟨_,pprev,_,_,_,_⟩ => if chain.Contains pindex then some pindex else chain.findForkLoop pprev

/-- `FindFork`: an entry above the tip is first brought down to the tip's
    height. -/
def FindFork (chain : CChain) : Option CBlockIndex → Except String (Option CBlockIndex)
  | none => pure none
  | some pindex => do
    let pindex ← if pindex.nHeight > chain.Height then pindex.GetAncestor chain.Height else pure (some pindex)
    pure (chain.findForkLoop pindex)

/-- The loop of `GetLocator` with `nStep` and `vHave`: the entry's hash, then,
    above genesis, the entry `nStep` lower, from the vector where the chain
    holds the entry and by `GetAncestor` where it does not; past ten hashes the
    step doubles. Each pass goes lower, so `fuel` passes beyond the entry's
    height are never needed. -/
def locatorLoop (chain : CChain) : Nat → Nat → List uint256 → Option CBlockIndex → Except String (List uint256)
  | _, _, vHave, none => pure vHave
  | 0, _, _, some _ => throw "the locator loop did not end"
  | fuel+1, nStep, vHave, some pindex => do
    let vHave := vHave ++ [pindex.phashBlock]
    if pindex.nHeight = 0 then return vHave
    let nHeight : Int := max ((pindex.nHeight : Int) - nStep) 0
    let next ← (if chain.Contains pindex then pure (chain.get nHeight) else pindex.GetAncestor nHeight)
    let nStep := if vHave.length > 10 then nStep * 2 else nStep
    chain.locatorLoop fuel nStep vHave next

/-- `GetLocator`: from the tip by default. -/
def GetLocator (chain : CChain) (pindex : Option CBlockIndex) : Except String (List uint256) :=
  let pindex := pindex.or chain.Tip
  chain.locatorLoop ((pindex.map (·.nHeight)).getD 0 + 1) 1 [] pindex

/-! ## `SetTip` keeps the path of the tip -/

/-- Each entry of the vector heads the vector's front as its path. -/
def Consistent (vChain : List (Option CBlockIndex)) : Prop :=
  ∀ h pindex, vChain[h]? = some (some pindex) → SkipsBack pindex ∧ pindex.path.map some = vChain.take (h + 1)

/-- The chain holds the path of `tip`, and nothing without a tip. -/
def HoldsPath (chain : CChain) : Option CBlockIndex → Prop
  | none => chain.vChain = []
  | some tip => SkipsBack tip ∧ chain.vChain = tip.path.map some

theorem consistent_path {tip : CBlockIndex} (skips : SkipsBack tip) : Consistent (tip.path.map some) := by
  intro h pindex entry
  rw [List.getElem?_map,getElem?_path _ rfl skips] at entry
  split at entry
  · obtain ⟨a,walk,height,skips_a⟩ := walkBack_of_le skips (show tip.nHeight - h ≤ tip.nHeight by omega)
    rw [walk,Option.map_some,Option.some.injEq,Option.some.injEq] at entry
    subst entry
    refine ⟨skips_a,?_⟩
    rw [← List.map_take,show h + 1 = a.nHeight + 1 by omega,take_path skips ⟨_,walk⟩]
  · cases entry

theorem HoldsPath.consistent {chain : CChain} {tip : Option CBlockIndex} (holds : chain.HoldsPath tip) :
    Consistent chain.vChain := by
  cases tip with
  | none =>
    intro h pindex entry
    rw [show chain.vChain = [] from holds] at entry
    cases entry
  | some tip =>
    rw [holds.2]
    exact consistent_path holds.1

theorem length_resize (vChain : List (Option CBlockIndex)) (n : Nat) : (resize vChain n).length = n := by
  simp only [resize,List.length_append,List.length_take,List.length_replicate]
  omega

theorem Consistent.resize {vChain : List (Option CBlockIndex)} (consistent : Consistent vChain) (n : Nat) :
    Consistent (resize vChain n) := by
  intro h pindex entry
  rw [CChain.resize,List.getElem?_append] at entry
  split at entry
  · -- an entry the resize kept: its front is the old vector's
    rename_i kept
    rw [List.length_take] at kept
    rw [List.getElem?_take,if_pos (by omega)] at entry
    obtain ⟨skips,path⟩ := consistent h pindex entry
    refine ⟨skips,?_⟩
    rw [path,CChain.resize,List.take_append_of_le_length (by rw [List.length_take]; omega),List.take_take,
      Nat.min_eq_left (by omega)]
  · rw [List.getElem?_replicate] at entry
    split at entry <;> cases entry

theorem setTipLoop_some (vChain : List (Option CBlockIndex)) (pindex : CBlockIndex) :
    setTipLoop vChain (some pindex) =
      if vChain.getD pindex.nHeight none ≠ some pindex then setTipLoop (vChain.set pindex.nHeight (some pindex)) pindex.pprev
      else vChain := by
  obtain ⟨_,_,_,_,_,_⟩ := pindex
  rw [setTipLoop]

section
variable {tip : CBlockIndex} (skips : SkipsBack tip) {V : List (Option CBlockIndex)} (consistent : Consistent V)
  (long : V.length = tip.nHeight + 1)
include skips consistent long

/-- One pass of the loop at an ancestor of the new tip, with the new tip's path
    above it and the old vector below: either the entry is in place and the
    vector is the new tip's path, or the pass writes the entry and goes on to
    the parent, one height lower. -/
theorem setTipLoop_step {pindex : CBlockIndex} (ancestor : IsAncestorOf pindex tip) :
    setTipLoop (V.take (pindex.nHeight + 1) ++ (tip.path.drop (pindex.nHeight + 1)).map some) (some pindex) =
        tip.path.map some ∨
      setTipLoop (V.take (pindex.nHeight + 1) ++ (tip.path.drop (pindex.nHeight + 1)).map some) (some pindex) =
        setTipLoop (V.take pindex.nHeight ++ (tip.path.drop pindex.nHeight).map some) pindex.pprev := by
  have below : pindex.nHeight < V.length := by
    have := ancestor.nHeight_le skips
    omega
  have read : (V.take (pindex.nHeight + 1) ++ (tip.path.drop (pindex.nHeight + 1)).map some).getD pindex.nHeight none =
      V.getD pindex.nHeight none := by
    rw [List.getD_eq_getElem?_getD,List.getElem?_append_left (by rw [List.length_take]; omega),List.getElem?_take,
      if_pos (by omega),← List.getD_eq_getElem?_getD]
  rw [setTipLoop_some,read]
  by_cases placed : V.getD pindex.nHeight none = some pindex
  · -- in place: below it the old vector already holds the path
    left
    rw [if_neg (not_not.mpr placed)]
    have entry : V[pindex.nHeight]? = some (some pindex) := by
      rw [List.getElem?_eq_getElem below,← List.getD_eq_getElem _ none below,placed]
    obtain ⟨-,path⟩ := consistent _ _ entry
    rw [← path,← take_path skips ancestor,← List.map_append,List.take_append_drop]
  · right
    rw [if_pos placed]
    congr 1
    have inside : pindex.nHeight < tip.path.length := by
      rw [length_path _ rfl skips]
      have := ancestor.nHeight_le skips
      omega
    have at_height : tip.path[pindex.nHeight] = pindex := by
      have := getElem?_path_ancestor skips ancestor
      rw [List.getElem?_eq_getElem inside,Option.some.injEq] at this
      exact this
    rw [List.take_add_one,List.getElem?_eq_getElem below,List.drop_eq_getElem_cons inside,at_height,List.map_cons,
      List.append_assoc,List.set_append_right _ _ (by rw [List.length_take]; omega),List.length_take,
      Nat.min_eq_left (by omega),Nat.sub_self]
    rfl

/-- The loop from an ancestor of the new tip, with the new tip's path above it
    and the old vector below, ends with the new tip's path. The induction is on
    the ancestor's height. -/
theorem setTipLoop_path :
    ∀ (height : Nat) {pindex : CBlockIndex}, pindex.nHeight = height → IsAncestorOf pindex tip →
      setTipLoop (V.take (pindex.nHeight + 1) ++ (tip.path.drop (pindex.nHeight + 1)).map some) (some pindex) =
        tip.path.map some := by
  intro height
  induction height with
  | zero =>
    intro pindex height ancestor
    rcases setTipLoop_step skips consistent long ancestor with done | next
    · exact done
    · -- genesis: the walk ends with the whole path written
      have root : pindex.pprev = none := by
        cases up : pindex.pprev with
        | none => rfl
        | some pprev => have := ((ancestor.skipsBack skips).of_pprev up).1; omega
      rw [next,root,height,List.take_zero,List.drop_zero,List.nil_append,setTipLoop]
  | succ height ih =>
    intro pindex height_eq ancestor
    rcases setTipLoop_step skips consistent long ancestor with done | next
    · exact done
    · obtain ⟨pprev,up⟩ := (ancestor.skipsBack skips).parent (by omega)
      have height_up := ((ancestor.skipsBack skips).of_pprev up).1
      rw [next,up,height_up]
      exact ih (by omega) ((show IsAncestorOf pprev pindex from ⟨1,by rw [walkBack_one,up]⟩).trans ancestor)

end

/-- `SetTip` with a well-formed entry, on a chain that holds the path of its
    tip: the chain holds the path of the entry. -/
theorem SetTip_path {chain : CChain} {old : Option CBlockIndex} (holds : chain.HoldsPath old) {tip : CBlockIndex}
    (skips : SkipsBack tip) : (chain.SetTip (some tip)).HoldsPath (some tip) := by
  have long := length_resize chain.vChain (tip.nHeight + 1)
  have whole := setTipLoop_path skips (holds.consistent.resize (tip.nHeight + 1)) long tip.nHeight rfl (.refl tip)
  rw [List.take_of_length_le (by omega),List.drop_of_length_le (by rw [length_path _ rfl skips]),List.map_nil,
    List.append_nil] at whole
  exact ⟨skips,whole⟩

/-- Any run of `SetTip` with well-formed entries from a chain that holds a
    path: the chain holds the path of the last tip set. -/
theorem run_SetTip_path : ∀ (tips : List (Option CBlockIndex)) {chain : CChain} {old : Option CBlockIndex},
    (∀ tip ∈ tips, ∀ t, tip = some t → SkipsBack t) → chain.HoldsPath old →
      (tips.foldl SetTip chain).HoldsPath (tips.getLast?.getD old)
  | [], _, _, _, holds => holds
  | tip :: rest, chain, old, skips, holds => by
    have step : (chain.SetTip tip).HoldsPath tip := by
      cases tip with
      | none => rfl
      | some t => exact SetTip_path holds (skips _ (.head _) t rfl)
    rw [List.foldl_cons,List.getLast?_cons,Option.getD_some]
    exact run_SetTip_path rest (fun tip mem => skips tip (.tail _ mem)) step

/-! ## What a chain that holds a path answers -/

section
variable {chain : CChain} {tip : CBlockIndex} (holds : chain.HoldsPath (some tip))
include holds

theorem length_of_holdsPath : chain.vChain.length = tip.nHeight + 1 := by
  rw [holds.2,List.length_map,length_path _ rfl holds.1]

/-- `operator[]` gives the tip's ancestor at the height, `nullptr` outside. -/
theorem get_of_holdsPath (nHeight : Int) :
    chain.get nHeight = if 0 ≤ nHeight ∧ nHeight ≤ tip.nHeight then tip.walkBack (tip.nHeight - nHeight.toNat) else none := by
  have length := length_of_holdsPath holds
  rw [get,length]
  by_cases inside : 0 ≤ nHeight ∧ nHeight ≤ tip.nHeight
  · rw [if_neg (by omega),if_pos inside,List.getD_eq_getElem?_getD,holds.2,List.getElem?_map,
      getElem?_path _ rfl holds.1,if_pos (by omega)]
    obtain ⟨a,walk,-⟩ := walkBack_of_le holds.1 (show tip.nHeight - nHeight.toNat ≤ tip.nHeight by omega)
    rw [walk]
    rfl
  · rw [if_pos (by omega),if_neg inside]

theorem Tip_of_holdsPath : chain.Tip = some tip := by
  have length := length_of_holdsPath holds
  have at_tip := get_of_holdsPath holds tip.nHeight
  rw [if_pos (by omega),Int.toNat_natCast,Nat.sub_self,get,length,if_neg (by omega),Int.toNat_natCast] at at_tip
  rw [Tip,if_pos (by omega),length,Nat.add_sub_cancel]
  exact at_tip

theorem Height_of_holdsPath : chain.Height = tip.nHeight := by
  rw [Height,length_of_holdsPath holds]
  omega

theorem Genesis_of_holdsPath : chain.Genesis = tip.walkBack tip.nHeight := by
  have at_genesis := get_of_holdsPath holds 0
  rw [if_pos (by omega),Int.toNat_zero,Nat.sub_zero] at at_genesis
  rw [Genesis,if_pos (by rw [length_of_holdsPath holds]; omega),← at_genesis,get,if_neg (by rw [length_of_holdsPath holds]; omega)]
  rfl

/-- `Contains` is being an ancestor of the tip. -/
theorem Contains_iff (pindex : CBlockIndex) : chain.Contains pindex = true ↔ IsAncestorOf pindex tip := by
  rw [Contains,decide_eq_true_iff,get_of_holdsPath holds]
  constructor
  · intro entry
    split at entry
    · exact ⟨_,entry⟩
    · cases entry
  · intro ancestor
    obtain ⟨steps,walk⟩ := ancestor
    have bounds := nHeight_of_walkBack holds.1 walk
    rw [if_pos (by omega),Int.toNat_natCast,show tip.nHeight - pindex.nHeight = steps by omega,walk]

/-- `Next` of an entry of the chain below the tip is its child on the chain. -/
theorem Next_of_holdsPath {pindex : CBlockIndex} (ancestor : IsAncestorOf pindex tip) (below : pindex.nHeight < tip.nHeight) :
    ∃ next, chain.Next pindex = some next ∧ next.pprev = some pindex ∧ IsAncestorOf next tip := by
  obtain ⟨steps,walk⟩ := ancestor
  have bounds := nHeight_of_walkBack holds.1 walk
  obtain ⟨next,walk_next,height_next,skips_next⟩ :=
    walkBack_of_le holds.1 (show tip.nHeight - (pindex.nHeight + 1) ≤ tip.nHeight by omega)
  refine ⟨next,?_,?_,⟨_,walk_next⟩⟩
  · rw [Next,if_pos ((Contains_iff holds pindex).mpr ⟨_,walk⟩),get_of_holdsPath holds,if_pos (by omega)]
    rw [← walk_next]
    congr 1
  · -- the entry is one step back from its child
    rw [show steps = tip.nHeight - (pindex.nHeight + 1) + 1 by omega,walkBack_add,walk_next,Option.bind_some,
      walkBack_one] at walk
    exact walk

end

/-! ## `FindFork` -/

theorem findForkLoop_some (chain : CChain) (pindex : CBlockIndex) :
    chain.findForkLoop (some pindex) = if chain.Contains pindex then some pindex else chain.findForkLoop pindex.pprev := by
  obtain ⟨_,_,_,_,_,_⟩ := pindex
  rw [findForkLoop]

/-- The common ancestors of the tip and an entry that is not one of its
    ancestors are those of the entry's parent. -/
theorem common_of_not_ancestor {tip pindex d : CBlockIndex} (outside : ¬IsAncestorOf pindex tip)
    (ancestor : IsAncestorOf d pindex) (common : IsAncestorOf d tip) :
    ∃ pprev, pindex.pprev = some pprev ∧ IsAncestorOf d pprev :=
  ancestor.pprev (by rintro rfl; exact outside common)

section
variable {chain : CChain} {tip : CBlockIndex} (holds : chain.HoldsPath (some tip))
include holds

/-- The loop of `FindFork` from any well-formed entry with an ancestor in
    common with the tip returns their deepest common ancestor. The induction
    is on the entry's height: off the chain, the common ancestors are the
    parent's. -/
theorem findForkLoop_deepest :
    ∀ (height : Nat) {pindex : CBlockIndex}, pindex.nHeight = height → SkipsBack pindex →
      (∃ c, IsAncestorOf c pindex ∧ IsAncestorOf c tip) →
        ∃ c, chain.findForkLoop (some pindex) = some c ∧ IsDeepestCommon c pindex tip := by
  intro height
  induction height with
  | zero =>
    intro pindex height skips ⟨c,ancestor,common⟩
    by_cases on_chain : IsAncestorOf pindex tip
    · rw [findForkLoop_some,if_pos ((Contains_iff holds pindex).mpr on_chain)]
      exact ⟨pindex,rfl,.refl pindex,on_chain,fun _ ancestor _ => ancestor⟩
    · -- genesis has no parent to share the common ancestor
      obtain ⟨pprev,up,-⟩ := common_of_not_ancestor on_chain ancestor common
      have := (skips.of_pprev up).1
      omega
  | succ height ih =>
    intro pindex height_eq skips ⟨c,ancestor,common⟩
    by_cases on_chain : IsAncestorOf pindex tip
    · rw [findForkLoop_some,if_pos ((Contains_iff holds pindex).mpr on_chain)]
      exact ⟨pindex,rfl,.refl pindex,on_chain,fun _ ancestor _ => ancestor⟩
    · rw [findForkLoop_some,if_neg (mt (Contains_iff holds pindex).mp on_chain)]
      obtain ⟨pprev,up,ancestor'⟩ := common_of_not_ancestor on_chain ancestor common
      obtain ⟨height_up,-,skips'⟩ := skips.of_pprev up
      obtain ⟨c',loop,deep_pprev,deep_tip,deepest⟩ := ih (by omega) skips' ⟨c,ancestor',common⟩
      refine ⟨c',by rw [up,loop],deep_pprev.of_pprev up,deep_tip,fun d ancestor_d common_d => ?_⟩
      obtain ⟨pprev',up',ancestor_d'⟩ := common_of_not_ancestor on_chain ancestor_d common_d
      rw [up,Option.some.injEq] at up'
      subst up'
      exact deepest d ancestor_d' common_d

/-- Without an ancestor in common with the tip, the loop of `FindFork` walks
    past genesis. -/
theorem findForkLoop_none :
    ∀ (height : Nat) {pindex : CBlockIndex}, pindex.nHeight = height → SkipsBack pindex →
      (¬∃ c, IsAncestorOf c pindex ∧ IsAncestorOf c tip) → chain.findForkLoop (some pindex) = none := by
  intro height
  induction height with
  | zero =>
    intro pindex height skips apart
    have root : pindex.pprev = none := by
      cases up : pindex.pprev with
      | none => rfl
      | some pprev => have := (skips.of_pprev up).1; omega
    rw [findForkLoop_some,if_neg (fun on_chain => apart ⟨pindex,.refl pindex,(Contains_iff holds pindex).mp on_chain⟩),
      root,findForkLoop]
  | succ height ih =>
    intro pindex height_eq skips apart
    obtain ⟨pprev,up⟩ := skips.parent (by omega)
    obtain ⟨height_up,-,skips'⟩ := skips.of_pprev up
    rw [findForkLoop_some,if_neg (fun on_chain => apart ⟨pindex,.refl pindex,(Contains_iff holds pindex).mp on_chain⟩),
      up]
    exact ih (by omega) skips' fun ⟨c,ancestor,common⟩ => apart ⟨c,ancestor.of_pprev up,common⟩

/-- The entry `FindFork` walks from: an entry above the tip brought down to the
    tip's height by `GetAncestor`. -/
theorem FindFork_start {pindex : CBlockIndex} (skips : SkipsBack pindex) :
    ∃ start steps, chain.FindFork (some pindex) = .ok (chain.findForkLoop (some start)) ∧
      pindex.walkBack steps = some start ∧ start.nHeight = min pindex.nHeight tip.nHeight ∧ SkipsBack start := by
  rw [FindFork,Height_of_holdsPath holds]
  by_cases higher : pindex.nHeight > tip.nHeight
  · obtain ⟨above,ancestor,walk,height_above,skips_above⟩ := GetAncestor_of_le skips (le_of_lt higher)
    refine ⟨above,_,?_,walk,by omega,skips_above⟩
    rw [if_pos (by exact_mod_cast higher),ancestor]
    rfl
  · rw [if_neg (by exact_mod_cast higher)]
    exact ⟨pindex,0,rfl,rfl,by omega,skips⟩

/-- `FindFork` of a well-formed entry: never the assert of `GetAncestor`, and
    the deepest common ancestor of the entry and the tip where they have one,
    `nullptr` where they have none. -/
theorem FindFork_deepest {pindex : CBlockIndex} (skips : SkipsBack pindex) :
    ((∃ c, IsAncestorOf c pindex ∧ IsAncestorOf c tip) →
      ∃ c, chain.FindFork (some pindex) = .ok (some c) ∧ IsDeepestCommon c pindex tip) ∧
    ((¬∃ c, IsAncestorOf c pindex ∧ IsAncestorOf c tip) → chain.FindFork (some pindex) = .ok none) := by
  obtain ⟨start,steps,found,walk,height,skips_start⟩ := FindFork_start holds skips
  have high : tip.nHeight ≤ start.nHeight ∨ start = pindex := by
    by_cases higher : pindex.nHeight > tip.nHeight
    · exact .inl (by omega)
    · right
      have := nHeight_of_walkBack skips walk
      rw [show steps = 0 by omega] at walk
      exact (Option.some.inj walk).symm
  constructor
  · intro common
    rcases high with high | rfl
    · obtain ⟨c,loop,deep⟩ := findForkLoop_deepest holds _ rfl skips_start
        (common_of_walkBack skips holds.1 walk high common)
      exact ⟨c,by rw [found,loop],deep.of_walkBack skips holds.1 walk high⟩
    · obtain ⟨c,loop,deep⟩ := findForkLoop_deepest holds _ rfl skips_start common
      exact ⟨c,by rw [found,loop],deep⟩
  · intro apart
    rw [found,findForkLoop_none holds _ rfl skips_start
      fun ⟨c,ancestor,common⟩ => apart ⟨c,ancestor.trans ⟨steps,walk⟩,common⟩]

end

/-! ## `GetLocator` -/

/-- The heights of a locator from `nHeight`, with `count` hashes before and
    the step `2^e`: down by the step, which doubles past ten hashes, to
    genesis. -/
def locatorHeights (count e nHeight : Nat) : List Nat :=
  if nHeight = 0 then [0]
  else nHeight :: locatorHeights (count + 1) (if count + 1 > 10 then e + 1 else e) (nHeight - 2^e)
termination_by nHeight
decreasing_by
  have := Nat.one_le_two_pow (n := e)
  omega

theorem locatorHeights_zero (count e : Nat) : locatorHeights count e 0 = [0] := by
  rw [locatorHeights,if_pos rfl]

theorem locatorHeights_pos (count e : Nat) {nHeight : Nat} (pos : 0 < nHeight) :
    locatorHeights count e nHeight =
      nHeight :: locatorHeights (count + 1) (if count + 1 > 10 then e + 1 else e) (nHeight - 2^e) := by
  rw [locatorHeights,if_neg (by omega)]

theorem le_of_mem_locatorHeights : ∀ (nHeight : Nat) {count e h : Nat}, h ∈ locatorHeights count e nHeight → h ≤ nHeight := by
  intro nHeight
  induction nHeight using Nat.strong_induction_on with
  | _ nHeight ih =>
  intro count e h mem
  rcases Nat.eq_zero_or_pos nHeight with zero | pos
  · subst zero
    rw [locatorHeights_zero,List.mem_singleton] at mem
    omega
  · have := Nat.one_le_two_pow (n := e)
    rw [locatorHeights_pos _ _ pos,List.mem_cons] at mem
    rcases mem with rfl | later
    · exact le_refl _
    · have := ih (nHeight - 2^e) (by omega) later
      omega

/-- The heights go down strictly, from `nHeight` to genesis. -/
theorem locatorHeights_descend : ∀ (nHeight count e : Nat),
    (locatorHeights count e nHeight).Pairwise (· > ·) ∧ (locatorHeights count e nHeight).head? = some nHeight ∧
      (locatorHeights count e nHeight).getLast? = some 0 := by
  intro nHeight
  induction nHeight using Nat.strong_induction_on with
  | _ nHeight ih =>
  intro count e
  rcases Nat.eq_zero_or_pos nHeight with zero | pos
  · subst zero
    rw [locatorHeights_zero]
    exact ⟨List.pairwise_singleton _ _,rfl,rfl⟩
  · have := Nat.one_le_two_pow (n := e)
    obtain ⟨descend,-,last⟩ := ih (nHeight - 2^e) (by omega) (count + 1) (if count + 1 > 10 then e + 1 else e)
    rw [locatorHeights_pos _ _ pos]
    refine ⟨List.pairwise_cons.mpr ⟨fun h mem => ?_,descend⟩,rfl,?_⟩
    · have := le_of_mem_locatorHeights _ mem
      omega
    · rw [List.getLast?_cons,last]
      rfl

/-- A step at least as long as the distance to genesis: one more height, then
    genesis. -/
theorem length_locatorHeights_short (count : Nat) {e nHeight : Nat} (short : nHeight ≤ 2^e) :
    (locatorHeights count e nHeight).length ≤ 2 := by
  rcases Nat.eq_zero_or_pos nHeight with zero | pos
  · rw [zero,locatorHeights_zero]
    simp
  · rw [locatorHeights_pos _ _ pos,show nHeight - 2^e = 0 by omega,locatorHeights_zero]
    rfl

/-- Past ten hashes the step doubles at each height, so the heights left are
    logarithmic in the distance to genesis, in steps. -/
theorem length_locatorHeights_doubling : ∀ (nHeight count e : Nat), 10 ≤ count →
    (locatorHeights count e nHeight).length ≤ Nat.log 2 (nHeight / 2^e) + 3 := by
  intro nHeight
  induction nHeight using Nat.strong_induction_on with
  | _ nHeight ih =>
  intro count e late
  rcases Nat.eq_zero_or_pos nHeight with zero | pos
  · rw [zero,locatorHeights_zero]
    simp
  · have step := Nat.one_le_two_pow (n := e)
    rw [locatorHeights_pos _ _ pos,if_pos (by omega),List.length_cons]
    by_cases near : nHeight - 2^e ≤ 2^(e + 1)
    · have := length_locatorHeights_short (count + 1) near
      omega
    · -- the rest, from at least twice the new step: one doubling less
      have rest := ih (nHeight - 2^e) (by omega) (count + 1) (e + 1) (by omega)
      have halves : (nHeight - 2^e) / 2^(e + 1) = (nHeight - 2^e) / 2^e / 2 := by
        rw [Nat.div_div_eq_div_mul,Nat.pow_succ]
      have far : 2 ≤ (nHeight - 2^e) / 2^e := by
        rw [Nat.le_div_iff_mul_le (by positivity)]
        rw [Nat.pow_succ] at near
        omega
      have lower : Nat.log 2 ((nHeight - 2^e) / 2^e) ≤ Nat.log 2 (nHeight / 2^e) :=
        Nat.log_mono_right (Nat.div_le_div_right (by omega))
      have one : 1 ≤ Nat.log 2 ((nHeight - 2^e) / 2^e) := Nat.le_log_of_pow_le (by decide) (by simpa using far)
      rw [halves,Nat.log_div_base] at rest
      omega

/-- Eleven heights a step apart, then the doubling steps. -/
theorem length_locatorHeights_first : ∀ (gap count nHeight : Nat), count + gap = 10 →
    (locatorHeights count 0 nHeight).length ≤ gap + 1 + (locatorHeights 11 1 (nHeight - (gap + 1))).length := by
  intro gap
  induction gap with
  | zero =>
    intro count nHeight last
    rcases Nat.eq_zero_or_pos nHeight with zero | pos
    · rw [zero,locatorHeights_zero]
      simp
    · rw [locatorHeights_pos _ _ pos,if_pos (by omega),show count + 1 = 11 by omega,List.length_cons]
      simp
  | succ gap ih =>
    intro count nHeight first
    rcases Nat.eq_zero_or_pos nHeight with zero | pos
    · rw [zero,locatorHeights_zero,List.length_singleton]
      omega
    · rw [locatorHeights_pos _ _ pos,if_neg (by omega),List.length_cons]
      have := ih (count + 1) (nHeight - 2^0) (by omega)
      rw [show nHeight - 2^0 - (gap + 1) = nHeight - (gap + 1 + 1) by omega] at this
      omega

/-- A locator from height `nHeight` has at most `log2 nHeight + 14` hashes. -/
theorem length_locatorHeights (nHeight : Nat) : (locatorHeights 0 0 nHeight).length ≤ Nat.log 2 nHeight + 14 := by
  have first : (locatorHeights 0 0 nHeight).length ≤ 11 + (locatorHeights 11 1 (nHeight - 11)).length :=
    length_locatorHeights_first 10 0 nHeight rfl
  have doubling := length_locatorHeights_doubling (nHeight - 11) 11 1 (by omega)
  have lower : Nat.log 2 ((nHeight - 11) / 2^1) ≤ Nat.log 2 nHeight :=
    Nat.log_mono_right (le_trans (Nat.div_le_self _ _) (Nat.sub_le _ _))
  omega

section
variable {chain : CChain} {tip : CBlockIndex} (holds : chain.HoldsPath (some tip))
include holds

/-- The entry the locator goes to next, from the vector where the chain holds
    the entry and by `GetAncestor` where it does not: the entry's ancestor at
    the lower height either way. -/
theorem locator_next {pindex : CBlockIndex} (skips : SkipsBack pindex) {nHeight : Nat} (below : nHeight ≤ pindex.nHeight) :
    (if chain.Contains pindex then pure (chain.get nHeight) else pindex.GetAncestor nHeight :
        Except String (Option CBlockIndex)) =
      .ok (pindex.walkBack (pindex.nHeight - nHeight)) := by
  split
  · rename_i on_chain
    obtain ⟨steps,walk⟩ := (Contains_iff holds pindex).mp on_chain
    have bounds := nHeight_of_walkBack holds.1 walk
    rw [get_of_holdsPath holds,if_pos (by omega),Int.toNat_natCast,
      show tip.nHeight - nHeight = steps + (pindex.nHeight - nHeight) by omega,walkBack_add,walk,Option.bind_some]
    rfl
  · obtain ⟨a,ancestor,walk,-⟩ := GetAncestor_of_le skips below
    rw [ancestor,walk]

/-- The loop of `GetLocator` from a well-formed entry, with a pass for each
    height: the hashes of the entry's ancestors at the locator's heights. The
    induction is on the passes. -/
theorem locatorLoop_eq : ∀ (fuel : Nat) {pindex : CBlockIndex} (e : Nat) (vHave : List uint256),
    SkipsBack pindex → pindex.nHeight < fuel →
      chain.locatorLoop fuel (2^e) vHave (some pindex) =
        .ok (vHave ++ ((locatorHeights vHave.length e pindex.nHeight).filterMap
          fun h => pindex.walkBack (pindex.nHeight - h)).map (·.phashBlock))
  | 0, _, _, _, _, enough => absurd enough (Nat.not_lt_zero _)
  | fuel + 1, pindex, e, vHave, skips, enough => by
    rw [locatorLoop]
    dsimp only
    rcases Nat.eq_zero_or_pos pindex.nHeight with genesis | pos
    · rw [if_pos genesis,genesis,locatorHeights_zero]
      rfl
    · have step := Nat.one_le_two_pow (n := e)
      have lower : max ((pindex.nHeight : Int) - ((2^e : Nat) : Int)) 0 = ((pindex.nHeight - 2^e : Nat) : Int) := by
        omega
      obtain ⟨a,walk,height,skips_a⟩ :=
        walkBack_of_le skips (show pindex.nHeight - (pindex.nHeight - 2^e) ≤ pindex.nHeight by omega)
      have doubled : (if (vHave ++ [pindex.phashBlock]).length > 10 then 2^e * 2 else 2^e) =
          2^(if vHave.length + 1 > 10 then e + 1 else e) := by
        rw [List.length_append,List.length_singleton]
        split <;> simp [Nat.pow_succ]
      rw [if_neg (by omega),lower,locator_next holds skips (by omega),walk,Guards.ok_bind,doubled,
        locatorLoop_eq fuel _ _ skips_a (by omega),locatorHeights_pos _ _ pos,List.length_append,List.length_singleton,
        List.filterMap_cons_some (by rw [Nat.sub_self]; rfl),List.map_cons,List.append_assoc,List.singleton_append]
      -- the rest of the heights lie below `a`: the walk from the entry goes through it
      congr 4
      rw [show a.nHeight = pindex.nHeight - 2^e by omega]
      refine List.filterMap_congr fun h mem => ?_
      have below := le_of_mem_locatorHeights _ mem
      rw [show pindex.nHeight - h = (pindex.nHeight - (pindex.nHeight - 2^e)) + (pindex.nHeight - 2^e - h) by omega,
        walkBack_add,walk,Option.bind_some]

/-- `GetLocator` of a well-formed entry: the hashes of its ancestors at the
    locator's heights, never the assert of `GetAncestor`. -/
theorem GetLocator_eq {pindex : CBlockIndex} (skips : SkipsBack pindex) :
    chain.GetLocator (some pindex) =
      .ok (((locatorHeights 0 0 pindex.nHeight).filterMap fun h => pindex.walkBack (pindex.nHeight - h)).map (·.phashBlock)) :=
  locatorLoop_eq holds (pindex.nHeight + 1) 0 [] skips (Nat.lt_succ_self _)

end

/-- The ancestors of an entry at heights up to its own, one for each height. -/
theorem map_nHeight_filterMap_walkBack {pindex : CBlockIndex} (skips : SkipsBack pindex) :
    ∀ heights : List Nat, (∀ h ∈ heights, h ≤ pindex.nHeight) →
      (heights.filterMap fun h => pindex.walkBack (pindex.nHeight - h)).map (·.nHeight) = heights
  | [], _ => rfl
  | h :: rest, below => by
    have top := below h (.head _)
    obtain ⟨a,walk,height,-⟩ := walkBack_of_le skips (show pindex.nHeight - h ≤ pindex.nHeight by omega)
    rw [List.filterMap_cons_some (f := fun h => pindex.walkBack (pindex.nHeight - h)) walk,List.map_cons,
      map_nHeight_filterMap_walkBack skips rest fun h' mem => below h' (.tail _ mem),height,
      show pindex.nHeight - (pindex.nHeight - h) = h by omega]

section
variable {chain : CChain} {tip : CBlockIndex} (holds : chain.HoldsPath (some tip))
include holds

/-- The locator of a well-formed entry: the hashes of ancestors of the entry,
    from the entry down to genesis, each lower than the one before, and at most
    `log2 nHeight + 14` of them. -/
theorem GetLocator_ancestors {pindex : CBlockIndex} (skips : SkipsBack pindex) :
    ∃ entries : List CBlockIndex, chain.GetLocator (some pindex) = .ok (entries.map (·.phashBlock)) ∧
      entries.head? = some pindex ∧ entries.getLast?.map (·.nHeight) = some 0 ∧
      (∀ entry ∈ entries, IsAncestorOf entry pindex) ∧ (entries.map (·.nHeight)).Pairwise (· > ·) ∧
      entries.length ≤ Nat.log 2 pindex.nHeight + 14 := by
  obtain ⟨descend,first,last⟩ := locatorHeights_descend pindex.nHeight 0 0
  have heights := map_nHeight_filterMap_walkBack skips (locatorHeights 0 0 pindex.nHeight)
    fun _ mem => le_of_mem_locatorHeights _ mem
  obtain ⟨rest,split⟩ := List.head?_eq_some_iff.mp first
  refine ⟨_,GetLocator_eq holds skips,?_,?_,?_,?_,?_⟩
  · rw [split,List.filterMap_cons_some (by rw [Nat.sub_self]; rfl)]
    rfl
  · rw [← List.getLast?_map,heights,last]
  · intro entry mem
    obtain ⟨h,-,walk⟩ := List.mem_filterMap.mp mem
    exact ⟨_,walk⟩
  · rw [heights]
    exact descend
  · rw [← List.length_map (f := (·.nHeight)),heights]
    exact length_locatorHeights pindex.nHeight

/-- `operator==` of two chains that hold paths compares them whole. -/
theorem eq_iff_of_holdsPath {other : CChain} {tip' : CBlockIndex} (holds' : other.HoldsPath (some tip')) :
    eq chain other = true ↔ chain = other := by
  constructor
  · intro same
    rw [eq,Bool.and_eq_true,decide_eq_true_iff,decide_eq_true_iff] at same
    obtain ⟨length,last⟩ := same
    have tip_eq := Tip_of_holdsPath holds
    have tip_eq' := Tip_of_holdsPath holds'
    rw [Tip,if_pos (by rw [length_of_holdsPath holds]; omega)] at tip_eq
    rw [Tip,if_pos (by rw [length_of_holdsPath holds']; omega)] at tip_eq'
    rw [tip_eq,tip_eq',Option.some.injEq] at last
    subst last
    cases chain
    cases other
    rw [CChain.mk.injEq]
    exact holds.2.trans holds'.2.symm
  · rintro rfl
    simp [eq]

end

end CChain

/-- `FindForkInGlobalIndex` of `validation.cpp`: the first hash of the locator
    whose entry the chain holds, or the tip where the entry is above it; the
    genesis otherwise. -/
def FindForkInGlobalIndex (LookupBlockIndex : uint256 → Option CBlockIndex) (chain : CChain) :
    List uint256 → Except String (Option CBlockIndex)
  | [] => pure chain.Genesis
  | hash :: vHave =>
    match LookupBlockIndex hash with
    | none => FindForkInGlobalIndex LookupBlockIndex chain vHave
    | some pindex => do
      if chain.Contains pindex then return some pindex
      if (← pindex.GetAncestor chain.Height) = chain.Tip then return chain.Tip
      FindForkInGlobalIndex LookupBlockIndex chain vHave

/-! ## `FindForkInGlobalIndex` on a locator -/

section
variable {LookupBlockIndex : uint256 → Option CBlockIndex} {chain : CChain} {tip : CBlockIndex}
  (holds : chain.HoldsPath (some tip))
include holds

/-- `GetAncestor` of a well-formed entry at the chain's height: the tip only
    where the tip is an ancestor of the entry. -/
theorem GetAncestor_Height {pindex : CBlockIndex} (skips : SkipsBack pindex) :
    ∃ above, pindex.GetAncestor chain.Height = .ok above ∧ (above = chain.Tip → IsAncestorOf tip pindex) := by
  rw [CChain.Height_of_holdsPath holds,CChain.Tip_of_holdsPath holds]
  by_cases high : tip.nHeight ≤ pindex.nHeight
  · obtain ⟨a,ancestor,walk,-⟩ := GetAncestor_of_le skips high
    refine ⟨some a,ancestor,fun same => ?_⟩
    rw [Option.some.injEq] at same
    subst same
    exact ⟨_,walk⟩
  · refine ⟨none,?_,fun same => by cases same⟩
    rw [CBlockIndex.GetAncestor,if_pos (by omega)]

/-- The scan of `FindForkInGlobalIndex` over ancestors of `pindex`, with an
    index that may miss some of them but returns for an ancestor's hash that
    ancestor only, and a genesis shared with the tip: an entry that is an
    ancestor of both, never the assert of `GetAncestor`. The induction is on the
    entries; the scan that finds none ends at the genesis. -/
theorem FindForkInGlobalIndex_common {pindex : CBlockIndex} (skips : SkipsBack pindex)
    (known : ∀ hash e, LookupBlockIndex hash = some e → ∀ entry, IsAncestorOf entry pindex → entry.phashBlock = hash →
      e = entry)
    {genesis : CBlockIndex} (first : tip.walkBack tip.nHeight = some genesis) (below : IsAncestorOf genesis pindex) :
    ∀ entries : List CBlockIndex, (∀ entry ∈ entries, IsAncestorOf entry pindex) →
        ∃ c, FindForkInGlobalIndex LookupBlockIndex chain (entries.map (·.phashBlock)) = .ok (some c) ∧
          IsAncestorOf c pindex ∧ IsAncestorOf c tip
  | [], _ => ⟨genesis,by rw [List.map_nil,FindForkInGlobalIndex,CChain.Genesis_of_holdsPath holds,first]; rfl,below,
      ⟨_,first⟩⟩
  | entry :: rest, ancestors => by
    have ancestor := ancestors entry (.head _)
    have scan := FindForkInGlobalIndex_common skips known first below rest (fun e m => ancestors e (.tail _ m))
    rw [List.map_cons,FindForkInGlobalIndex]
    cases found : LookupBlockIndex entry.phashBlock with
    -- the index does not know the entry: the scan goes on
    | none => exact scan
    | some e =>
      obtain rfl := known _ e found entry ancestor rfl
      dsimp only
      by_cases on_chain : IsAncestorOf e tip
      · rw [if_pos ((CChain.Contains_iff holds e).mpr on_chain)]
        exact ⟨e,rfl,ancestor,on_chain⟩
      · rw [if_neg (mt (CChain.Contains_iff holds e).mp on_chain)]
        obtain ⟨above,ancestor_at,below_tip⟩ := GetAncestor_Height holds (ancestor.skipsBack skips)
        rw [ancestor_at,Guards.ok_bind]
        by_cases reached : above = chain.Tip
        · -- the entry is above the tip: the tip
          rw [if_pos reached,CChain.Tip_of_holdsPath holds]
          exact ⟨tip,rfl,(below_tip reached).trans ancestor,.refl tip⟩
        · rw [if_neg reached]
          exact scan

/-- Headers sync: the locator a peer makes with `GetLocator`, on any chain that
    holds a path, for an entry with an ancestor in common with our tip, leads
    `FindForkInGlobalIndex` on our chain to an entry that is an ancestor of
    both, where our index returns for the hash of an ancestor of the entry that
    ancestor, if anything. -/
theorem FindForkInGlobalIndex_GetLocator {peer : CChain} {peerTip : CBlockIndex} (peerHolds : peer.HoldsPath (some peerTip))
    {pindex : CBlockIndex} (skips : SkipsBack pindex) (common : ∃ c, IsAncestorOf c pindex ∧ IsAncestorOf c tip)
    (known : ∀ hash e, LookupBlockIndex hash = some e → ∀ entry, IsAncestorOf entry pindex → entry.phashBlock = hash →
      e = entry) :
    ∃ locator c, peer.GetLocator (some pindex) = .ok locator ∧
      FindForkInGlobalIndex LookupBlockIndex chain locator = .ok (some c) ∧ IsAncestorOf c pindex ∧ IsAncestorOf c tip := by
  obtain ⟨entries,located,-,last,ancestors,-,-⟩ := CChain.GetLocator_ancestors peerHolds skips
  obtain ⟨genesis,last',height⟩ := Option.map_eq_some_iff.mp last
  obtain ⟨c,ancestor_c,common_c⟩ := common
  obtain ⟨steps,walk⟩ := ancestor_c
  -- the locator ends at genesis, below the common ancestor, and so the genesis of our chain
  have below := ancestors genesis (List.mem_of_getLast? last')
  have shared : IsAncestorOf genesis tip := (below.of_walkBack skips walk (by omega)).trans common_c
  obtain ⟨k,first⟩ := shared
  have bounds := nHeight_of_walkBack holds.1 first
  rw [show k = tip.nHeight by omega] at first
  obtain ⟨fork,found,on_peer,on_chain⟩ := FindForkInGlobalIndex_common holds skips known first below entries ancestors
  exact ⟨_,fork,located,found,on_peer,on_chain⟩

end

/-! ## The active chain over any run of `SetTip` -/

/-- The chain after a run of `SetTip` from the empty chain, with entries of a
    block tree, holds the path of the last tip set. -/
theorem holdsPath_of_run {tips : List (Option CBlockIndex)} (wf : ∀ tip ∈ tips, ∀ t, tip = some t → WellFormed t)
    {tip : CBlockIndex} (last : tips.getLast? = some (some tip)) : (tips.foldl CChain.SetTip ⟨[]⟩).HoldsPath (some tip) := by
  have run : (tips.foldl CChain.SetTip ⟨[]⟩).HoldsPath (tips.getLast?.getD none) :=
    CChain.run_SetTip_path tips (fun tip mem t is => skipsBack_of_wellFormed (wf tip mem t is)) rfl
  rw [last,Option.getD_some] at run
  exact run

/-- Any run of `SetTip` from the empty chain with entries of a block tree: the
    vector is the path from genesis to the last tip set, `Tip` and `Height` are
    that tip's, and `Contains` holds of exactly its ancestors. -/
theorem SetTip_run_path {tips : List (Option CBlockIndex)} (wf : ∀ tip ∈ tips, ∀ t, tip = some t → WellFormed t)
    {tip : CBlockIndex} (last : tips.getLast? = some (some tip)) :
    (tips.foldl CChain.SetTip ⟨[]⟩).vChain = tip.path.map some ∧ (tips.foldl CChain.SetTip ⟨[]⟩).Tip = some tip ∧
      (tips.foldl CChain.SetTip ⟨[]⟩).Height = tip.nHeight ∧
      ∀ pindex, (tips.foldl CChain.SetTip ⟨[]⟩).Contains pindex = true ↔ IsAncestorOf pindex tip := by
  have holds := holdsPath_of_run wf last
  exact ⟨holds.2,CChain.Tip_of_holdsPath holds,CChain.Height_of_holdsPath holds,CChain.Contains_iff holds⟩

/-- A block on genesis beside `firstBlockIndex`, and a block on it: the branch
    a node that had `firstBlockIndex` as its tip reorganises to. -/
def sideBlockIndex : CBlockIndex := ⟨hashOf 2,some (genesisIndex default 4 0),some (genesisIndex default 4 0),1,4,0⟩

def sideTipIndex : CBlockIndex := ⟨hashOf 3,some sideBlockIndex,some (genesisIndex default 4 0),2,4,0⟩

theorem wellFormed_sideTipIndex : WellFormed sideTipIndex := by
  have side : AddToBlockIndex (hashOf 2) 4 0 (genesisIndex default 4 0) = .ok sideBlockIndex := by
    simp [AddToBlockIndex,CBlockIndex.BuildSkip,CBlockIndex.GetAncestor,GetSkipHeight,genesisIndex,ancestorWalk,
      sideBlockIndex]
  have tip : AddToBlockIndex (hashOf 3) 4 0 sideBlockIndex = .ok sideTipIndex := by
    simp [AddToBlockIndex,CBlockIndex.BuildSkip,CBlockIndex.GetAncestor,GetSkipHeight,InvertLowestOne,genesisIndex,
      ancestorWalk,sideBlockIndex,sideTipIndex]
  exact wellFormed_of_AddToBlockIndex (wellFormed_of_AddToBlockIndex (wellFormed_genesisIndex default 4 0) side) tip

/-- A run that sets one tip of a block tree. -/
theorem wellFormed_single {pindex : CBlockIndex} (wf : WellFormed pindex) :
    ∀ tip ∈ [some pindex], ∀ t, tip = some t → WellFormed t := by
  intro tip mem t is
  rw [List.mem_singleton] at mem
  subst mem
  cases is
  exact wf

/-- The tip set to `firstBlockIndex`, then to the tip of the side branch: a reorganisation. -/
def reorgRun : List (Option CBlockIndex) := [some firstBlockIndex,some sideTipIndex]

theorem wellFormed_reorgRun : ∀ tip ∈ reorgRun, ∀ t, tip = some t → WellFormed t := by
  intro tip mem t is
  simp only [reorgRun,List.mem_cons,List.not_mem_nil,or_false] at mem
  rcases mem with rfl | rfl <;> cases is
  · exact wellFormed_firstBlockIndex
  · exact wellFormed_sideTipIndex

theorem SetTip_run_path_reorg :
    (∀ tip ∈ reorgRun, ∀ t, tip = some t → WellFormed t) ∧ reorgRun.getLast? = some (some sideTipIndex) ∧
      ((reorgRun.foldl CChain.SetTip ⟨[]⟩).vChain = sideTipIndex.path.map some ∧
        (reorgRun.foldl CChain.SetTip ⟨[]⟩).Tip = some sideTipIndex ∧
        (reorgRun.foldl CChain.SetTip ⟨[]⟩).Height = sideTipIndex.nHeight ∧
        ∀ pindex, (reorgRun.foldl CChain.SetTip ⟨[]⟩).Contains pindex = true ↔ IsAncestorOf pindex sideTipIndex) :=
  ⟨wellFormed_reorgRun,rfl,SetTip_run_path wellFormed_reorgRun rfl⟩

/-- `FindFork` on the chain after any run of `SetTip`, for an entry of the
    block tree: never the assert, and the deepest common ancestor of the entry
    and the tip where they have one, `nullptr` where they have none. -/
theorem FindFork_run_deepest {tips : List (Option CBlockIndex)} (wf : ∀ tip ∈ tips, ∀ t, tip = some t → WellFormed t)
    {tip : CBlockIndex} (last : tips.getLast? = some (some tip)) {pindex : CBlockIndex} (wf_pindex : WellFormed pindex) :
    ((∃ c, IsAncestorOf c pindex ∧ IsAncestorOf c tip) →
      ∃ c, (tips.foldl CChain.SetTip ⟨[]⟩).FindFork (some pindex) = .ok (some c) ∧ IsDeepestCommon c pindex tip) ∧
    ((¬∃ c, IsAncestorOf c pindex ∧ IsAncestorOf c tip) →
      (tips.foldl CChain.SetTip ⟨[]⟩).FindFork (some pindex) = .ok none) :=
  CChain.FindFork_deepest (holdsPath_of_run wf last) (skipsBack_of_wellFormed wf_pindex)

/-- After the reorganisation, `FindFork` of the block left behind. -/
theorem FindFork_run_deepest_reorg :
    (∀ tip ∈ reorgRun, ∀ t, tip = some t → WellFormed t) ∧ reorgRun.getLast? = some (some sideTipIndex) ∧
      WellFormed firstBlockIndex ∧
      (((∃ c, IsAncestorOf c firstBlockIndex ∧ IsAncestorOf c sideTipIndex) →
        ∃ c, (reorgRun.foldl CChain.SetTip ⟨[]⟩).FindFork (some firstBlockIndex) = .ok (some c) ∧
          IsDeepestCommon c firstBlockIndex sideTipIndex) ∧
      ((¬∃ c, IsAncestorOf c firstBlockIndex ∧ IsAncestorOf c sideTipIndex) →
        (reorgRun.foldl CChain.SetTip ⟨[]⟩).FindFork (some firstBlockIndex) = .ok none)) :=
  ⟨wellFormed_reorgRun,rfl,wellFormed_firstBlockIndex,
    FindFork_run_deepest wellFormed_reorgRun rfl wellFormed_firstBlockIndex⟩

/-- `GetLocator` on the chain after any run of `SetTip`, for an entry of the
    block tree: never the assert, and the hashes of ancestors of the entry,
    from the entry down to genesis, each lower than the one before, at most
    `log2 nHeight + 14` of them. -/
theorem GetLocator_run_ancestors {tips : List (Option CBlockIndex)} (wf : ∀ tip ∈ tips, ∀ t, tip = some t → WellFormed t)
    {tip : CBlockIndex} (last : tips.getLast? = some (some tip)) {pindex : CBlockIndex} (wf_pindex : WellFormed pindex) :
    ∃ entries : List CBlockIndex, (tips.foldl CChain.SetTip ⟨[]⟩).GetLocator (some pindex) = .ok (entries.map (·.phashBlock)) ∧
      entries.head? = some pindex ∧ entries.getLast?.map (·.nHeight) = some 0 ∧
      (∀ entry ∈ entries, IsAncestorOf entry pindex) ∧ (entries.map (·.nHeight)).Pairwise (· > ·) ∧
      entries.length ≤ Nat.log 2 pindex.nHeight + 14 :=
  CChain.GetLocator_ancestors (holdsPath_of_run wf last) (skipsBack_of_wellFormed wf_pindex)

/-- After the reorganisation, the locator of the new tip. -/
theorem GetLocator_run_ancestors_reorg :
    (∀ tip ∈ reorgRun, ∀ t, tip = some t → WellFormed t) ∧ reorgRun.getLast? = some (some sideTipIndex) ∧
      WellFormed sideTipIndex ∧
      ∃ entries : List CBlockIndex,
        (reorgRun.foldl CChain.SetTip ⟨[]⟩).GetLocator (some sideTipIndex) = .ok (entries.map (·.phashBlock)) ∧
        entries.head? = some sideTipIndex ∧ entries.getLast?.map (·.nHeight) = some 0 ∧
        (∀ entry ∈ entries, IsAncestorOf entry sideTipIndex) ∧ (entries.map (·.nHeight)).Pairwise (· > ·) ∧
        entries.length ≤ Nat.log 2 sideTipIndex.nHeight + 14 :=
  ⟨wellFormed_reorgRun,rfl,wellFormed_sideTipIndex,
    GetLocator_run_ancestors wellFormed_reorgRun rfl wellFormed_sideTipIndex⟩

/-- Headers sync between two nodes whose chains came from runs of `SetTip`:
    the locator the peer makes for an entry of the block tree with an ancestor
    in common with our tip leads `FindForkInGlobalIndex` on our chain to an
    entry that is an ancestor of both, where our index, for the hash of an
    ancestor of the entry, returns that ancestor or nothing. -/
theorem FindForkInGlobalIndex_run_locator {peerTips tips : List (Option CBlockIndex)}
    (wf_peer : ∀ tip ∈ peerTips, ∀ t, tip = some t → WellFormed t) {peerTip : CBlockIndex}
    (last_peer : peerTips.getLast? = some (some peerTip))
    (wf : ∀ tip ∈ tips, ∀ t, tip = some t → WellFormed t) {tip : CBlockIndex} (last : tips.getLast? = some (some tip))
    {pindex : CBlockIndex} (wf_pindex : WellFormed pindex) (common : ∃ c, IsAncestorOf c pindex ∧ IsAncestorOf c tip)
    {LookupBlockIndex : uint256 → Option CBlockIndex}
    (known : ∀ hash e, LookupBlockIndex hash = some e → ∀ entry, IsAncestorOf entry pindex → entry.phashBlock = hash →
      e = entry) :
    ∃ locator c, (peerTips.foldl CChain.SetTip ⟨[]⟩).GetLocator (some pindex) = .ok locator ∧
      FindForkInGlobalIndex LookupBlockIndex (tips.foldl CChain.SetTip ⟨[]⟩) locator = .ok (some c) ∧
      IsAncestorOf c pindex ∧ IsAncestorOf c tip :=
  FindForkInGlobalIndex_GetLocator (holdsPath_of_run wf last) (holdsPath_of_run wf_peer last_peer)
    (skipsBack_of_wellFormed wf_pindex) common known

/-- An index that knows the entry of `firstBlockIndex` and its parent, and
    nothing of the side branch. -/
def firstBlockLookup (hash : uint256) : Option CBlockIndex :=
  if hash = firstBlockIndex.phashBlock then some firstBlockIndex
  else if hash = default then some (genesisIndex default 4 0) else none

/-- For the hash of an ancestor of the side branch's tip, the index returns
    that ancestor or nothing. -/
theorem firstBlockLookup_known :
    ∀ hash e, firstBlockLookup hash = some e → ∀ entry, IsAncestorOf entry sideTipIndex → entry.phashBlock = hash →
      e = entry := by
  rintro hash e found entry ⟨_ | _ | _ | steps,walk⟩ rfl
  · cases walk
    have unknown : firstBlockLookup sideTipIndex.phashBlock = none := by decide
    rw [unknown] at found
    cases found
  · cases walk
    have unknown : firstBlockLookup sideBlockIndex.phashBlock = none := by decide
    rw [unknown] at found
    cases found
  · cases walk
    have genesis : firstBlockLookup (genesisIndex default 4 0).phashBlock = some (genesisIndex default 4 0) := by decide
    rw [genesis] at found
    exact (Option.some.inj found).symm
  · simp [CBlockIndex.walkBack,sideTipIndex,sideBlockIndex,genesisIndex] at walk

/-- A peer that reorganised to the side branch, and our node still on
    `firstBlockIndex`, which has not seen the side branch. -/
theorem FindForkInGlobalIndex_run_locator_reorg :
    (∀ tip ∈ reorgRun, ∀ t, tip = some t → WellFormed t) ∧ reorgRun.getLast? = some (some sideTipIndex) ∧
      (∀ tip ∈ [some firstBlockIndex], ∀ t, tip = some t → WellFormed t) ∧
      [some firstBlockIndex].getLast? = some (some firstBlockIndex) ∧ WellFormed sideTipIndex ∧
      (∃ c, IsAncestorOf c sideTipIndex ∧ IsAncestorOf c firstBlockIndex) ∧
      (∀ hash e, firstBlockLookup hash = some e → ∀ entry, IsAncestorOf entry sideTipIndex → entry.phashBlock = hash →
        e = entry) ∧
      ∃ locator c, (reorgRun.foldl CChain.SetTip ⟨[]⟩).GetLocator (some sideTipIndex) = .ok locator ∧
        FindForkInGlobalIndex firstBlockLookup ([some firstBlockIndex].foldl CChain.SetTip ⟨[]⟩) locator = .ok (some c) ∧
        IsAncestorOf c sideTipIndex ∧ IsAncestorOf c firstBlockIndex := by
  have ours := wellFormed_single wellFormed_firstBlockIndex
  have common : ∃ c, IsAncestorOf c sideTipIndex ∧ IsAncestorOf c firstBlockIndex :=
    ⟨genesisIndex default 4 0,⟨2,rfl⟩,⟨1,rfl⟩⟩
  exact ⟨wellFormed_reorgRun,rfl,ours,rfl,wellFormed_sideTipIndex,common,firstBlockLookup_known,
    FindForkInGlobalIndex_run_locator wellFormed_reorgRun rfl ours rfl wellFormed_sideTipIndex common
      firstBlockLookup_known⟩

/-- `operator==` of the chains after two runs of `SetTip` compares their
    sizes and last entries only, and agrees with the comparison of the whole
    chains. -/
theorem eq_run_iff {tips tips' : List (Option CBlockIndex)} (wf : ∀ tip ∈ tips, ∀ t, tip = some t → WellFormed t)
    {tip : CBlockIndex} (last : tips.getLast? = some (some tip)) (wf' : ∀ tip ∈ tips', ∀ t, tip = some t → WellFormed t)
    {tip' : CBlockIndex} (last' : tips'.getLast? = some (some tip')) :
    CChain.eq (tips.foldl CChain.SetTip ⟨[]⟩) (tips'.foldl CChain.SetTip ⟨[]⟩) = true ↔
      tips.foldl CChain.SetTip ⟨[]⟩ = tips'.foldl CChain.SetTip ⟨[]⟩ :=
  CChain.eq_iff_of_holdsPath (holdsPath_of_run wf last) (holdsPath_of_run wf' last')

/-- The chain after the reorganisation and the chain set to the side tip at once. -/
theorem eq_run_iff_reorg :
    (∀ tip ∈ reorgRun, ∀ t, tip = some t → WellFormed t) ∧ reorgRun.getLast? = some (some sideTipIndex) ∧
      (∀ tip ∈ [some sideTipIndex], ∀ t, tip = some t → WellFormed t) ∧
      [some sideTipIndex].getLast? = some (some sideTipIndex) ∧
      (CChain.eq (reorgRun.foldl CChain.SetTip ⟨[]⟩) ([some sideTipIndex].foldl CChain.SetTip ⟨[]⟩) = true ↔
        reorgRun.foldl CChain.SetTip ⟨[]⟩ = [some sideTipIndex].foldl CChain.SetTip ⟨[]⟩) := by
  have direct := wellFormed_single wellFormed_sideTipIndex
  exact ⟨wellFormed_reorgRun,rfl,direct,rfl,eq_run_iff wellFormed_reorgRun rfl direct rfl⟩

end BitcoinPrivate.Chain
