import Mathlib.Data.List.Sort
import BitcoinPrivate.Validation.ConnectBlock

/-!
The block index of `chain.h` and `chain.cpp` with its skip pointers: each entry
has a pointer `pskip` back to its ancestor at `GetSkipHeight`, which `BuildSkip`
sets from the parent's `GetAncestor` when the entry joins the tree. `GetAncestor`
walks back along `pskip` and `pprev`; over a tree whose skip pointers are the
ones `BuildSkip` sets, it never reaches its assert and returns the entry that
the walk along `pprev` reaches (`GetAncestor_eq_walkBack`), and
`LastCommonAncestor` returns the deepest common ancestor.

Entries are values: the entry a pointer designates, with its parents. The
pointer comparisons of `LastCommonAncestor` compare entries.
-/
namespace BitcoinPrivate.Chain

/-- `CBlockIndex`, with the fields `chain.cpp` and `versionbits.cpp` read. -/
structure CBlockIndex where
  phashBlock : uint256
  pprev : Option CBlockIndex
  pskip : Option CBlockIndex
  nHeight : Nat
  nVersion : Int32
  nTime : UInt32

mutual
/-- The comparison of two entries, field by field and along both pointers. -/
def CBlockIndex.decEq : (a b : CBlockIndex) → Decidable (a = b)
  | ⟨h₁,p₁,s₁,n₁,v₁,t₁⟩, ⟨h₂,p₂,s₂,n₂,v₂,t₂⟩ =>
    match decEqOption p₁ p₂, decEqOption s₁ s₂, decEq h₁ h₂, decEq n₁ n₂, decEq v₁ v₂, decEq t₁ t₂ with
    | isTrue e₁, isTrue e₂, isTrue e₃, isTrue e₄, isTrue e₅, isTrue e₆ => isTrue (by subst e₁ e₂ e₃ e₄ e₅ e₆; rfl)
    | isFalse ne, _, _, _, _, _ => isFalse (fun e => ne (CBlockIndex.mk.inj e).2.1)
    | _, isFalse ne, _, _, _, _ => isFalse (fun e => ne (CBlockIndex.mk.inj e).2.2.1)
    | _, _, isFalse ne, _, _, _ => isFalse (fun e => ne (CBlockIndex.mk.inj e).1)
    | _, _, _, isFalse ne, _, _ => isFalse (fun e => ne (CBlockIndex.mk.inj e).2.2.2.1)
    | _, _, _, _, isFalse ne, _ => isFalse (fun e => ne (CBlockIndex.mk.inj e).2.2.2.2.1)
    | _, _, _, _, _, isFalse ne => isFalse (fun e => ne (CBlockIndex.mk.inj e).2.2.2.2.2)

/-- The comparison of two pointers. -/
def decEqOption : (a b : Option CBlockIndex) → Decidable (a = b)
  | none, none => isTrue rfl
  | some a, some b =>
    match CBlockIndex.decEq a b with
    | isTrue e => isTrue (congrArg some e)
    | isFalse ne => isFalse (fun e => ne (Option.some.inj e))
  | none, some _ => isFalse nofun
  | some _, none => isFalse nofun
end

instance : DecidableEq CBlockIndex := CBlockIndex.decEq

/-! ## Skip heights -/

/-- `InvertLowestOne`: the lowest set bit of `n` cleared. -/
def InvertLowestOne (n : Nat) : Nat := n &&& (n - 1)

/-- `GetSkipHeight`: the height the skip pointer of an entry at `height` goes
    back to. -/
def GetSkipHeight (height : Nat) : Nat :=
  if height < 2 then 0
  else if height % 2 = 1 then InvertLowestOne (InvertLowestOne (height - 1)) + 1
  else InvertLowestOne height

theorem InvertLowestOne_le (n : Nat) : InvertLowestOne n ≤ n - 1 ∨ n = 0 := by
  rcases Nat.eq_zero_or_pos n with zero | _
  · exact .inr zero
  · exact .inl Nat.and_le_right

theorem InvertLowestOne_le_self (n : Nat) : InvertLowestOne n ≤ n := Nat.and_le_left

/-- The skip pointer of an entry goes back at least to its parent's height. -/
theorem GetSkipHeight_le_pred (height : Nat) : GetSkipHeight height ≤ height - 1 := by
  unfold GetSkipHeight
  split
  · omega
  · split
    · have below := InvertLowestOne_le (height - 1)
      have twice := InvertLowestOne_le_self (InvertLowestOne (height - 1))
      omega
    · have below := InvertLowestOne_le height
      omega

theorem GetSkipHeight_lt {height : Nat} (pos : 0 < height) : GetSkipHeight height < height := by
  have := GetSkipHeight_le_pred height
  omega

/-! ## The walk back -/

/-- The entry `steps` steps back along `pprev`. -/
def CBlockIndex.walkBack (pindex : CBlockIndex) : Nat → Option CBlockIndex
  | 0 => some pindex
  | steps+1 => pindex.pprev.bind (·.walkBack steps)

/-- The loop of `GetAncestor` down to `height`, from `pindexWalk` at
    `heightWalk`: it follows the skip pointer where that lands at `height`, or
    above it without passing a better skip from the parent; else the parent.
    The error is the failed `assert(pindexWalk->pprev)`. -/
def ancestorWalk (height : Nat) (pindexWalk : CBlockIndex) (heightWalk : Nat) : Except String CBlockIndex :=
  if height < heightWalk then
    let heightSkip := GetSkipHeight heightWalk
    let heightSkipPrev := GetSkipHeight (heightWalk - 1)
    match pindexWalk.pskip,
        decide (heightSkip = height ∨ (height < heightSkip ∧ ¬(heightSkipPrev + 2 < heightSkip ∧ height ≤ heightSkipPrev))) with
    | some pskip, true => ancestorWalk height pskip heightSkip
    | _, _ =>
      match pindexWalk.pprev with
      | some pprev => ancestorWalk height pprev (heightWalk - 1)
      | none => .error "Assertion pindexWalk->pprev failed"
  else .ok pindexWalk
termination_by heightWalk
decreasing_by
  · exact GetSkipHeight_lt (by omega)
  · omega

/-- `CBlockIndex::GetAncestor`: `nullptr` (`none`) for a height outside the
    entry's range. -/
def CBlockIndex.GetAncestor (pindex : CBlockIndex) (height : Int) : Except String (Option CBlockIndex) :=
  if height > pindex.nHeight ∨ height < 0 then .ok none
  else some <$> ancestorWalk height.toNat pindex pindex.nHeight

/-- The entries of a block tree: a genesis at height 0 without a skip pointer
    (`SetNull`), and an entry on a parent at the height after the parent's, whose
    skip pointer `BuildSkip` set from the parent. -/
def WellFormed : CBlockIndex → Prop
  | ⟨_,none,pskip,nHeight,_,_⟩ => nHeight = 0 ∧ pskip = none
  | ⟨_,some pprev,pskip,nHeight,_,_⟩ =>
    nHeight = pprev.nHeight + 1 ∧ pprev.GetAncestor (GetSkipHeight nHeight) = .ok pskip ∧ WellFormed pprev

/-- What the proofs use of a well-formed entry: the skip pointer of each entry
    with a parent is the parent's ancestor at the skip height. -/
def SkipsBack : CBlockIndex → Prop
  | ⟨_,none,pskip,nHeight,_,_⟩ => nHeight = 0 ∧ pskip = none
  | ⟨_,some pprev,pskip,nHeight,_,_⟩ =>
    nHeight = pprev.nHeight + 1 ∧ pskip = pprev.walkBack (pprev.nHeight - GetSkipHeight nHeight) ∧ SkipsBack pprev

/-- An entry with a parent is one above it, and its skip pointer goes to the
    parent's ancestor at the skip height. -/
theorem SkipsBack.of_pprev {pindex pprev : CBlockIndex} (skips : SkipsBack pindex) (up : pindex.pprev = some pprev) :
    pindex.nHeight = pprev.nHeight + 1 ∧ pindex.pskip = pprev.walkBack (pprev.nHeight - GetSkipHeight pindex.nHeight) ∧
      SkipsBack pprev := by
  obtain ⟨_,_ | pprev',_,_,_,_⟩ := pindex
  · cases up
  · cases up
    exact skips

/-- An entry above height 0 has a parent. -/
theorem SkipsBack.parent {pindex : CBlockIndex} (skips : SkipsBack pindex) (pos : 0 < pindex.nHeight) :
    ∃ pprev, pindex.pprev = some pprev := by
  obtain ⟨_,_ | pprev,_,_,_,_⟩ := pindex
  · exact absurd skips.1 (Nat.pos_iff_ne_zero.mp pos)
  · exact ⟨pprev,rfl⟩

theorem walkBack_one (pindex : CBlockIndex) : pindex.walkBack 1 = pindex.pprev := by
  cases up : pindex.pprev <;> simp [CBlockIndex.walkBack,up]

theorem walkBack_add (pindex : CBlockIndex) (steps₁ steps₂ : Nat) :
    pindex.walkBack (steps₁ + steps₂) = (pindex.walkBack steps₁).bind (·.walkBack steps₂) := by
  induction steps₁ generalizing pindex with
  | zero => simp [CBlockIndex.walkBack]
  | succ steps₁ ih =>
    rw [Nat.add_right_comm,CBlockIndex.walkBack,CBlockIndex.walkBack]
    cases pindex.pprev with
    | none => rfl
    | some pprev => exact ih pprev

/-- Each step back lowers the height by one, down to genesis. -/
theorem walkBack_of_le {steps : Nat} :
    ∀ {pindex : CBlockIndex}, SkipsBack pindex → steps ≤ pindex.nHeight →
      ∃ a, pindex.walkBack steps = some a ∧ a.nHeight = pindex.nHeight - steps ∧ SkipsBack a := by
  induction steps with
  | zero => exact fun skips _ => ⟨_,rfl,rfl,skips⟩
  | succ steps ih =>
    intro pindex skips fits
    obtain ⟨pprev,up⟩ := skips.parent (by omega)
    obtain ⟨height,-,skips'⟩ := skips.of_pprev up
    obtain ⟨a,walk,height',skips''⟩ := ih skips' (by omega)
    exact ⟨a,by rw [CBlockIndex.walkBack,up,Option.bind_some,walk],by omega,skips''⟩

/-- An ancestor's height: the height less the steps back. -/
theorem nHeight_of_walkBack {steps : Nat} :
    ∀ {pindex a : CBlockIndex}, SkipsBack pindex → pindex.walkBack steps = some a →
      steps ≤ pindex.nHeight ∧ a.nHeight = pindex.nHeight - steps := by
  induction steps with
  | zero =>
    intro pindex a _ walk
    cases walk
    simp
  | succ steps ih =>
    intro pindex a skips walk
    rw [CBlockIndex.walkBack] at walk
    cases up : pindex.pprev with
    | none => rw [up] at walk; cases walk
    | some pprev =>
      rw [up,Option.bind_some] at walk
      obtain ⟨height,-,skips'⟩ := skips.of_pprev up
      have := ih skips' walk
      omega

/-! ## `GetAncestor` -/

/-- The loop of `GetAncestor` from an entry at its own height returns the
    entry the walk along `pprev` reaches. The induction is on the height of the
    walk: a skip lands at an ancestor not below `height`, a parent step one
    lower. -/
theorem ancestorWalk_eq_walkBack {height : Nat} :
    ∀ (heightWalk : Nat) {pindexWalk : CBlockIndex}, pindexWalk.nHeight = heightWalk → SkipsBack pindexWalk →
      height ≤ heightWalk → ∀ {a}, pindexWalk.walkBack (heightWalk - height) = some a →
        ancestorWalk height pindexWalk heightWalk = .ok a := by
  intro heightWalk
  induction heightWalk using Nat.strong_induction_on with
  | _ heightWalk ih =>
  intro pindexWalk at_height skips above a walk
  rw [ancestorWalk]
  by_cases reached : height < heightWalk
  · rw [if_pos reached]
    obtain ⟨pprev,up⟩ := skips.parent (by omega)
    obtain ⟨height_up,skip,skips'⟩ := skips.of_pprev up
    -- the walk from the parent on: one step back, then the rest
    have walk' : pprev.walkBack (heightWalk - 1 - height) = some a := by
      rw [← walk,show heightWalk - height = 1 + (heightWalk - 1 - height) by omega,walkBack_add,walkBack_one,up]
      rfl
    simp only
    split
    · -- the skip pointer, to the ancestor at the skip height, not below `height`
      rename_i next found landing
      have landed : height ≤ GetSkipHeight heightWalk := by
        simp only [decide_eq_true_eq] at landing
        omega
      have skipped := GetSkipHeight_le_pred heightWalk
      rw [at_height,found] at skip
      obtain ⟨s,walk_s,height_s,skips_s⟩ :=
        walkBack_of_le skips' (show pprev.nHeight - GetSkipHeight heightWalk ≤ pprev.nHeight by omega)
      rw [walk_s,Option.some.injEq] at skip
      subst skip
      refine ih (GetSkipHeight heightWalk) (GetSkipHeight_lt (by omega)) (by omega) skips_s landed ?_
      rw [← walk',show heightWalk - 1 - height = (pprev.nHeight - GetSkipHeight heightWalk) +
          (GetSkipHeight heightWalk - height) by omega,walkBack_add,walk_s]
      rfl
    · -- the parent, one lower
      rw [up]
      exact ih (heightWalk - 1) (by omega) (by omega) skips' (by omega) walk'
  · rw [if_neg reached]
    rw [show heightWalk - height = 0 by omega] at walk
    cases walk
    rfl

/-- `GetAncestor` at a height in range of an entry whose skip pointers go back
    as `BuildSkip` sets them: the entry the walk along `pprev` reaches. -/
theorem GetAncestor_of_le {pindex : CBlockIndex} (skips : SkipsBack pindex) {height : Nat}
    (below : height ≤ pindex.nHeight) :
    ∃ a, pindex.GetAncestor height = .ok (some a) ∧ pindex.walkBack (pindex.nHeight - height) = some a ∧
      a.nHeight = height ∧ SkipsBack a := by
  obtain ⟨a,walk,height_a,skips_a⟩ := walkBack_of_le skips (show pindex.nHeight - height ≤ pindex.nHeight by omega)
  refine ⟨a,?_,walk,by omega,skips_a⟩
  rw [CBlockIndex.GetAncestor,if_neg (by omega),Int.toNat_natCast,ancestorWalk_eq_walkBack _ rfl skips below walk]
  rfl

theorem GetAncestor_of_skipsBack {pindex : CBlockIndex} (skips : SkipsBack pindex) {height : Int}
    (nonneg : 0 ≤ height) (below : height ≤ pindex.nHeight) :
    ∃ a, pindex.walkBack (pindex.nHeight - height.toNat) = some a ∧ pindex.GetAncestor height = .ok (some a) := by
  obtain ⟨a,ancestor,walk,-⟩ := GetAncestor_of_le skips (show height.toNat ≤ pindex.nHeight by omega)
  rw [Int.toNat_of_nonneg nonneg] at ancestor
  exact ⟨a,walk,ancestor⟩

/-- No entry lies more steps back than the height. -/
theorem walkBack_eq_none {steps : Nat} :
    ∀ {pindex : CBlockIndex}, SkipsBack pindex → pindex.nHeight < steps → pindex.walkBack steps = none := by
  induction steps with
  | zero => intro _ _ below; omega
  | succ steps ih =>
    intro pindex skips below
    rw [CBlockIndex.walkBack]
    cases up : pindex.pprev with
    | none => rfl
    | some pprev =>
      obtain ⟨height,-,skips'⟩ := skips.of_pprev up
      exact ih skips' (by omega)

/-- `GetAncestor` at `steps` below the entry's height: the walk back, `nullptr`
    past genesis. -/
theorem GetAncestor_sub {pindex : CBlockIndex} (skips : SkipsBack pindex) (steps : Nat) :
    pindex.GetAncestor ((pindex.nHeight : Int) - steps) = .ok (pindex.walkBack steps) := by
  by_cases fits : steps ≤ pindex.nHeight
  · obtain ⟨a,ancestor,walk,-⟩ := GetAncestor_of_le skips (show pindex.nHeight - steps ≤ pindex.nHeight by omega)
    rw [show pindex.nHeight - (pindex.nHeight - steps) = steps by omega] at walk
    rw [walk,← ancestor]
    congr 1
    omega
  · rw [walkBack_eq_none skips (by omega),CBlockIndex.GetAncestor,if_pos (by omega)]

/-- A well-formed entry's skip pointers go back as the proofs use them. The
    induction is along the parents: the parent's `GetAncestor`, which set the
    skip pointer, is the walk back. -/
theorem skipsBack_of_wellFormed : ∀ {pindex : CBlockIndex}, WellFormed pindex → SkipsBack pindex
  | ⟨_,none,_,_,_,_⟩, wf => wf
  | ⟨_,some pprev,pskip,nHeight,_,_⟩, ⟨height,built,wf⟩ => by
    have skips := skipsBack_of_wellFormed wf
    have skipped := GetSkipHeight_le_pred nHeight
    obtain ⟨a,walk,ancestor⟩ := GetAncestor_of_skipsBack skips
      (show (0 : Int) ≤ (GetSkipHeight nHeight : Int) by omega) (by omega)
    rw [built,Except.ok.injEq] at ancestor
    refine ⟨height,?_,skips⟩
    rw [ancestor,← walk]
    rfl

/-- `GetAncestor` of a well-formed entry: for a height in range, never the
    assert, and the entry reached by `nHeight - height` steps along `pprev`;
    `nullptr` otherwise. -/
theorem GetAncestor_eq_walkBack {pindex : CBlockIndex} (wf : WellFormed pindex) (height : Int) :
    (0 ≤ height → height ≤ pindex.nHeight →
      ∃ a, pindex.walkBack (pindex.nHeight - height.toNat) = some a ∧ pindex.GetAncestor height = .ok (some a)) ∧
    (height < 0 ∨ pindex.nHeight < height → pindex.GetAncestor height = .ok none) :=
  ⟨GetAncestor_of_skipsBack (skipsBack_of_wellFormed wf),fun outside => by
    rw [CBlockIndex.GetAncestor,if_pos (by omega)]⟩

/-! ## Sizes -/

theorem sizeOf_pprev_lt {pindex pprev : CBlockIndex} (up : pindex.pprev = some pprev) : sizeOf pprev < sizeOf pindex := by
  obtain ⟨_,_,_,_,_,_⟩ := pindex
  subst up
  simp only [CBlockIndex.mk.sizeOf_spec,Option.some.sizeOf_spec]
  omega

theorem sizeOf_pskip_lt {pindex pskip : CBlockIndex} (skip : pindex.pskip = some pskip) : sizeOf pskip < sizeOf pindex := by
  obtain ⟨_,_,_,_,_,_⟩ := pindex
  subst skip
  simp only [CBlockIndex.mk.sizeOf_spec,Option.some.sizeOf_spec]
  omega

/-- The loop of `GetAncestor` moves along the pointers of the entry: its result
    is no larger, and smaller once the loop takes a step. -/
theorem sizeOf_ancestorWalk {height : Nat} :
    ∀ (heightWalk : Nat) {pindexWalk a : CBlockIndex}, ancestorWalk height pindexWalk heightWalk = .ok a →
      sizeOf a ≤ sizeOf pindexWalk ∧ (height < heightWalk → sizeOf a < sizeOf pindexWalk) := by
  intro heightWalk
  induction heightWalk using Nat.strong_induction_on with
  | _ heightWalk ih =>
  intro pindexWalk a walk
  rw [ancestorWalk] at walk
  by_cases reached : height < heightWalk
  · rw [if_pos reached] at walk
    simp only at walk
    split at walk
    · rename_i next found _
      have smaller := sizeOf_pskip_lt found
      have := (ih _ (GetSkipHeight_lt (by omega)) walk).1
      omega
    · split at walk
      · rename_i next found
        have smaller := sizeOf_pprev_lt found
        have := (ih _ (by omega) walk).1
        omega
      · cases walk
  · rw [if_neg reached] at walk
    cases walk
    exact ⟨le_refl _,fun below => absurd below reached⟩

/-- `GetAncestor` below the entry's height returns a smaller entry, or `nullptr`. -/
theorem sizeOf_GetAncestor_lt {pindex : CBlockIndex} {height : Int} {a : Option CBlockIndex}
    (ancestor : pindex.GetAncestor height = .ok a) (below : height < pindex.nHeight) : sizeOf a < sizeOf (some pindex) := by
  rw [CBlockIndex.GetAncestor] at ancestor
  split at ancestor
  · cases ancestor
    obtain ⟨_,_,_,_,_,_⟩ := pindex
    simp only [Option.none.sizeOf_spec,Option.some.sizeOf_spec,CBlockIndex.mk.sizeOf_spec]
    omega
  · cases walk : ancestorWalk height.toNat pindex pindex.nHeight with
    | error e => rw [walk] at ancestor; cases ancestor
    | ok a' =>
      rw [walk] at ancestor
      cases ancestor
      have := (sizeOf_ancestorWalk _ walk).2 (by omega)
      simp only [Option.some.sizeOf_spec]
      omega

/-! ## Building the tree -/

/-- `BuildSkip`: the skip pointer of an entry with a parent, from the parent's
    `GetAncestor` at the skip height. -/
def CBlockIndex.BuildSkip (pindex : CBlockIndex) : Except String CBlockIndex :=
  match pindex.pprev with
  | some pprev => do
    let pskip ← pprev.GetAncestor (GetSkipHeight pindex.nHeight)
    pure { pindex with pskip }
  | none => pure pindex

/-- The entry `AddToBlockIndex` makes for a header on the entry `pprev`, with the
    fields of this model: the parent, the height after it, and `BuildSkip`. -/
def AddToBlockIndex (phashBlock : uint256) (nVersion : Int32) (nTime : UInt32) (pprev : CBlockIndex) :
    Except String CBlockIndex :=
  CBlockIndex.BuildSkip ⟨phashBlock,some pprev,none,pprev.nHeight + 1,nVersion,nTime⟩

/-- The genesis entry, at height 0 with neither pointer. -/
def genesisIndex (phashBlock : uint256) (nVersion : Int32) (nTime : UInt32) : CBlockIndex :=
  ⟨phashBlock,none,none,0,nVersion,nTime⟩

theorem wellFormed_genesisIndex (phashBlock : uint256) (nVersion : Int32) (nTime : UInt32) :
    WellFormed (genesisIndex phashBlock nVersion nTime) := ⟨rfl,rfl⟩

/-- `AddToBlockIndex` on a well-formed entry never reaches the assert of
    `GetAncestor` and makes a well-formed entry. -/
theorem AddToBlockIndex_wellFormed {pprev : CBlockIndex} (wf : WellFormed pprev) (phashBlock : uint256)
    (nVersion : Int32) (nTime : UInt32) :
    ∃ pindex, AddToBlockIndex phashBlock nVersion nTime pprev = .ok pindex ∧ WellFormed pindex ∧
      pindex.pprev = some pprev := by
  have skipped := GetSkipHeight_le_pred (pprev.nHeight + 1)
  obtain ⟨a,-,ancestor⟩ := GetAncestor_of_skipsBack (skipsBack_of_wellFormed wf)
    (show (0 : Int) ≤ (GetSkipHeight (pprev.nHeight + 1) : Int) by omega) (by omega)
  refine ⟨⟨phashBlock,some pprev,some a,pprev.nHeight + 1,nVersion,nTime⟩,?_,⟨rfl,ancestor,wf⟩,rfl⟩
  simp only [AddToBlockIndex,CBlockIndex.BuildSkip,ancestor]
  rfl

/-- An entry `AddToBlockIndex` made on a well-formed entry is well formed. -/
theorem wellFormed_of_AddToBlockIndex {pprev pindex : CBlockIndex} (wf : WellFormed pprev) {phashBlock : uint256}
    {nVersion : Int32} {nTime : UInt32} (built : AddToBlockIndex phashBlock nVersion nTime pprev = .ok pindex) :
    WellFormed pindex := by
  obtain ⟨made,added,wf',-⟩ := AddToBlockIndex_wellFormed wf phashBlock nVersion nTime
  rw [built,Except.ok.injEq] at added
  rwa [added]

/-! ## `LastCommonAncestor` -/

/-- `a` is `pindex` or one of its ancestors. -/
def IsAncestorOf (a pindex : CBlockIndex) : Prop := ∃ steps, pindex.walkBack steps = some a

/-- `c` is an ancestor of both entries, and every ancestor of both is one of `c`. -/
def IsDeepestCommon (c pa pb : CBlockIndex) : Prop :=
  IsAncestorOf c pa ∧ IsAncestorOf c pb ∧ ∀ d, IsAncestorOf d pa → IsAncestorOf d pb → IsAncestorOf d c

theorem IsAncestorOf.refl (pindex : CBlockIndex) : IsAncestorOf pindex pindex := ⟨0,rfl⟩

theorem IsAncestorOf.trans {a b c : CBlockIndex} (ab : IsAncestorOf a b) (bc : IsAncestorOf b c) : IsAncestorOf a c := by
  obtain ⟨k₁,walk₁⟩ := ab
  obtain ⟨k₂,walk₂⟩ := bc
  exact ⟨k₂ + k₁,by rw [walkBack_add,walk₂,Option.bind_some,walk₁]⟩

theorem IsAncestorOf.of_pprev {a pindex pprev : CBlockIndex} (up : pindex.pprev = some pprev) (ancestor : IsAncestorOf a pprev) :
    IsAncestorOf a pindex :=
  ancestor.trans ⟨1,by rw [walkBack_one,up]⟩

theorem IsAncestorOf.nHeight_le {a pindex : CBlockIndex} (skips : SkipsBack pindex) (ancestor : IsAncestorOf a pindex) :
    a.nHeight ≤ pindex.nHeight := by
  obtain ⟨steps,walk⟩ := ancestor
  have := nHeight_of_walkBack skips walk
  omega

/-- An ancestor at the entry's own height is the entry. -/
theorem IsAncestorOf.eq_of_nHeight {a pindex : CBlockIndex} (skips : SkipsBack pindex) (ancestor : IsAncestorOf a pindex)
    (height : a.nHeight = pindex.nHeight) : a = pindex := by
  obtain ⟨steps,walk⟩ := ancestor
  have bounds := nHeight_of_walkBack skips walk
  rw [show steps = 0 by omega] at walk
  exact (Option.some.inj walk).symm

/-- An ancestor other than the entry is an ancestor of its parent. -/
theorem IsAncestorOf.pprev {a pindex : CBlockIndex} (ancestor : IsAncestorOf a pindex) (other : a ≠ pindex) :
    ∃ pprev, pindex.pprev = some pprev ∧ IsAncestorOf a pprev := by
  obtain ⟨_ | steps,walk⟩ := ancestor
  · exact absurd (Option.some.inj walk).symm other
  · rw [CBlockIndex.walkBack] at walk
    cases up : pindex.pprev with
    | none => rw [up] at walk; cases walk
    | some pprev => rw [up,Option.bind_some] at walk; exact ⟨pprev,rfl,steps,walk⟩

/-- An ancestor of an entry, at most as high as the entry's ancestor `above`,
    is an ancestor of `above`. -/
theorem IsAncestorOf.of_walkBack {a pindex above : CBlockIndex} {steps : Nat} (skips : SkipsBack pindex)
    (ancestor : IsAncestorOf a pindex) (walk : pindex.walkBack steps = some above) (below : a.nHeight ≤ above.nHeight) :
    IsAncestorOf a above := by
  obtain ⟨k,walk_a⟩ := ancestor
  have bounds_a := nHeight_of_walkBack skips walk_a
  have bounds := nHeight_of_walkBack skips walk
  refine ⟨k - steps,?_⟩
  rw [show k = steps + (k - steps) by omega,walkBack_add,walk,Option.bind_some] at walk_a
  exact walk_a

/-- The loop of `LastCommonAncestor`: both walk back a step at a time until they
    meet or one runs out; then the assert that they are equal. -/
def commonWalk : Option CBlockIndex → Option CBlockIndex → Except String (Option CBlockIndex)
  | some pa@⟨_,pprev,_,_,_,_⟩, some pb => if pa = pb then .ok (some pa) else commonWalk pprev pb.pprev
  | pa, pb => if pa = pb then .ok pa else .error "Assertion pa == pb failed"

/-- `LastCommonAncestor`: the higher of the two brought down to the other's
    height by `GetAncestor`, then the walk. -/
def LastCommonAncestor (pa pb : CBlockIndex) : Except String (Option CBlockIndex) := do
  if pa.nHeight > pb.nHeight then commonWalk (← pa.GetAncestor pb.nHeight) (some pb)
  else if pb.nHeight > pa.nHeight then commonWalk (some pa) (← pb.GetAncestor pa.nHeight)
  else commonWalk (some pa) (some pb)

theorem commonWalk_some (pa pb : CBlockIndex) :
    commonWalk (some pa) (some pb) = if pa = pb then .ok (some pa) else commonWalk pa.pprev pb.pprev := by
  obtain ⟨_,_,_,_,_,_⟩ := pa
  rw [commonWalk]

/-- Two different entries of one height: a common ancestor is one of both
    parents. -/
theorem common_pprev {pa pb d : CBlockIndex} (skips_a : SkipsBack pa) (skips_b : SkipsBack pb)
    (height : pa.nHeight = pb.nHeight) (differ : pa ≠ pb)
    (ancestor_a : IsAncestorOf d pa) (ancestor_b : IsAncestorOf d pb) :
    ∃ pprev_a pprev_b, pa.pprev = some pprev_a ∧ pb.pprev = some pprev_b ∧ IsAncestorOf d pprev_a ∧
      IsAncestorOf d pprev_b := by
  -- `d` is not `pa`: an ancestor of `pb` at its height is `pb`
  have not_a : d ≠ pa := by
    rintro rfl
    exact differ (ancestor_b.eq_of_nHeight skips_b height)
  have not_b : d ≠ pb := by
    rintro rfl
    exact differ (ancestor_a.eq_of_nHeight skips_a height.symm).symm
  obtain ⟨pprev_a,up_a,ancestor_a'⟩ := ancestor_a.pprev not_a
  obtain ⟨pprev_b,up_b,ancestor_b'⟩ := ancestor_b.pprev not_b
  exact ⟨pprev_a,pprev_b,up_a,up_b,ancestor_a',ancestor_b'⟩

/-- The loop from two entries of one height with a common ancestor returns
    their deepest common ancestor. The induction is on the height: entries that
    differ have their common ancestors in common with their parents. -/
theorem commonWalk_deepest :
    ∀ (height : Nat) {pa pb : CBlockIndex}, pa.nHeight = height → pb.nHeight = height → SkipsBack pa → SkipsBack pb →
      (∃ c, IsAncestorOf c pa ∧ IsAncestorOf c pb) → ∃ c, commonWalk (some pa) (some pb) = .ok (some c) ∧ IsDeepestCommon c pa pb := by
  intro height
  induction height with
  | zero =>
    intro pa pb height_a height_b skips_a skips_b ⟨c,ancestor_a,ancestor_b⟩
    -- at height 0 both are the common ancestor
    have at_a := ancestor_a.eq_of_nHeight skips_a (by have := ancestor_a.nHeight_le skips_a; omega)
    have at_b := ancestor_b.eq_of_nHeight skips_b (by have := ancestor_b.nHeight_le skips_b; omega)
    subst at_a
    subst at_b
    refine ⟨c,by rw [commonWalk_some,if_pos rfl],.refl c,.refl c,fun d ancestor _ => ancestor⟩
  | succ height ih =>
    intro pa pb height_a height_b skips_a skips_b ⟨c,ancestor_a,ancestor_b⟩
    by_cases same : pa = pb
    · subst same
      exact ⟨pa,by rw [commonWalk_some,if_pos rfl],.refl pa,.refl pa,fun d ancestor _ => ancestor⟩
    · obtain ⟨pprev_a,pprev_b,up_a,up_b,common_a,common_b⟩ :=
        common_pprev skips_a skips_b (by omega) same ancestor_a ancestor_b
      obtain ⟨height_a',-,skips_a'⟩ := skips_a.of_pprev up_a
      obtain ⟨height_b',-,skips_b'⟩ := skips_b.of_pprev up_b
      obtain ⟨c',walk,deep_a,deep_b,deepest⟩ :=
        ih (by omega) (by omega) skips_a' skips_b' ⟨c,common_a,common_b⟩
      refine ⟨c',by rw [commonWalk_some,if_neg same,up_a,up_b,walk],deep_a.of_pprev up_a,deep_b.of_pprev up_b,?_⟩
      intro d ancestor_a ancestor_b
      obtain ⟨pprev_a',pprev_b',up_a',up_b',common_a',common_b'⟩ :=
        common_pprev skips_a skips_b (by omega) same ancestor_a ancestor_b
      rw [up_a] at up_a'
      rw [up_b] at up_b'
      cases up_a'
      cases up_b'
      exact deepest d common_a' common_b'

theorem IsDeepestCommon.symm {c pa pb : CBlockIndex} (deep : IsDeepestCommon c pa pb) : IsDeepestCommon c pb pa :=
  ⟨deep.2.1,deep.1,fun d ancestor_b ancestor_a => deep.2.2 d ancestor_a ancestor_b⟩

/-- The deepest common ancestor of an entry's ancestor `above`, at least as high
    as `pb`, and of `pb` is the entry's and `pb`'s. -/
theorem IsDeepestCommon.of_walkBack {c pa pb above : CBlockIndex} {steps : Nat} (skips_a : SkipsBack pa)
    (skips_b : SkipsBack pb) (walk : pa.walkBack steps = some above) (high : pb.nHeight ≤ above.nHeight)
    (deep : IsDeepestCommon c above pb) : IsDeepestCommon c pa pb :=
  ⟨deep.1.trans ⟨steps,walk⟩,deep.2.1,fun d ancestor_a ancestor_b =>
    deep.2.2 d (ancestor_a.of_walkBack skips_a walk ((ancestor_b.nHeight_le skips_b).trans high)) ancestor_b⟩

/-- The common ancestors of an entry and `pb` are those of its ancestor at
    `pb`'s height. -/
theorem common_of_walkBack {pa pb above : CBlockIndex} {steps : Nat} (skips_a : SkipsBack pa) (skips_b : SkipsBack pb)
    (walk : pa.walkBack steps = some above) (high : pb.nHeight ≤ above.nHeight) :
    (∃ c, IsAncestorOf c pa ∧ IsAncestorOf c pb) → ∃ c, IsAncestorOf c above ∧ IsAncestorOf c pb :=
  fun ⟨c,ancestor_a,ancestor_b⟩ =>
    ⟨c,ancestor_a.of_walkBack skips_a walk ((ancestor_b.nHeight_le skips_b).trans high),ancestor_b⟩

/-- `LastCommonAncestor` of two well-formed entries of one tree: never the
    asserts, and the deepest common ancestor. -/
theorem LastCommonAncestor_deepest {pa pb : CBlockIndex} (wf_a : WellFormed pa) (wf_b : WellFormed pb)
    (common : ∃ c, IsAncestorOf c pa ∧ IsAncestorOf c pb) :
    ∃ c, LastCommonAncestor pa pb = .ok (some c) ∧ IsDeepestCommon c pa pb := by
  have skips_a := skipsBack_of_wellFormed wf_a
  have skips_b := skipsBack_of_wellFormed wf_b
  unfold LastCommonAncestor
  by_cases higher_a : pa.nHeight > pb.nHeight
  · -- `pa` is brought down to `pb`'s height
    obtain ⟨above,ancestor,walk,height_above,skips_above⟩ := GetAncestor_of_le skips_a (le_of_lt higher_a)
    obtain ⟨c,loop,deep⟩ := commonWalk_deepest pb.nHeight height_above rfl skips_above skips_b
      (common_of_walkBack skips_a skips_b walk height_above.ge common)
    refine ⟨c,?_,deep.of_walkBack skips_a skips_b walk height_above.ge⟩
    simp only [if_pos higher_a,ancestor]
    exact loop
  · rw [if_neg higher_a]
    by_cases higher_b : pb.nHeight > pa.nHeight
    · -- `pb` is brought down to `pa`'s height
      obtain ⟨above,ancestor,walk,height_above,skips_above⟩ := GetAncestor_of_le skips_b (le_of_lt higher_b)
      obtain ⟨c,loop,deep⟩ := commonWalk_deepest pa.nHeight rfl height_above skips_a skips_above
        ((common_of_walkBack skips_b skips_a walk height_above.ge (common.imp fun _ ⟨a,b⟩ => ⟨b,a⟩)).imp
          fun _ ⟨a,b⟩ => ⟨b,a⟩)
      refine ⟨c,?_,(deep.symm.of_walkBack skips_b skips_a walk height_above.ge).symm⟩
      simp only [if_pos higher_b,ancestor]
      exact loop
    · rw [if_neg higher_b]
      exact commonWalk_deepest pa.nHeight rfl (by omega) skips_a skips_b common

/-- Over a block tree whose skip pointers `BuildSkip` set, `GetAncestor` never
    reaches its assert and returns the entry `nHeight - height` steps back along
    `pprev`, `nullptr` outside the heights of the entry, and `LastCommonAncestor`
    of two entries of the tree returns their deepest common ancestor. -/
theorem skip_list_agrees_with_parent_walk {pindex : CBlockIndex} (wf : WellFormed pindex) :
    (∀ height : Int, 0 ≤ height → height ≤ pindex.nHeight →
      ∃ a, pindex.walkBack (pindex.nHeight - height.toNat) = some a ∧ pindex.GetAncestor height = .ok (some a)) ∧
    (∀ height : Int, height < 0 ∨ pindex.nHeight < height → pindex.GetAncestor height = .ok none) ∧
    ∀ other : CBlockIndex, WellFormed other → (∃ c, IsAncestorOf c pindex ∧ IsAncestorOf c other) →
      ∃ c, LastCommonAncestor pindex other = .ok (some c) ∧ IsDeepestCommon c pindex other :=
  ⟨fun height => (GetAncestor_eq_walkBack wf height).1,fun height => (GetAncestor_eq_walkBack wf height).2,
    fun _ wf_other common => LastCommonAncestor_deepest wf wf_other common⟩

/-- The entry of a block on genesis, with the skip pointer `BuildSkip` sets. -/
def firstBlockIndex : CBlockIndex :=
  ⟨hashOf 1,some (genesisIndex default 4 0),some (genesisIndex default 4 0),1,4,0⟩

theorem wellFormed_firstBlockIndex : WellFormed firstBlockIndex := by
  refine ⟨rfl,?_,wellFormed_genesisIndex default 4 0⟩
  simp [CBlockIndex.GetAncestor,GetSkipHeight,genesisIndex,ancestorWalk]

theorem skip_list_agrees_at_first_block : WellFormed firstBlockIndex ∧
    (∀ height : Int, 0 ≤ height → height ≤ firstBlockIndex.nHeight →
      ∃ a, firstBlockIndex.walkBack (firstBlockIndex.nHeight - height.toNat) = some a ∧
        firstBlockIndex.GetAncestor height = .ok (some a)) ∧
    (∀ height : Int, height < 0 ∨ firstBlockIndex.nHeight < height → firstBlockIndex.GetAncestor height = .ok none) ∧
    ∀ other : CBlockIndex, WellFormed other → (∃ c, IsAncestorOf c firstBlockIndex ∧ IsAncestorOf c other) →
      ∃ c, LastCommonAncestor firstBlockIndex other = .ok (some c) ∧ IsDeepestCommon c firstBlockIndex other :=
  ⟨wellFormed_firstBlockIndex,skip_list_agrees_with_parent_walk wellFormed_firstBlockIndex⟩

/-! ## The median time past -/

def nMedianTimeSpan : Nat := 11

/-- `GetBlockTime`. -/
def CBlockIndex.GetBlockTime (pindex : CBlockIndex) : Int := pindex.nTime.toNat

/-- The times of an entry and its ancestors, `count` of them at most. -/
def blockTimes : Option CBlockIndex → Nat → List Int
  | some pindex, count+1 => pindex.GetBlockTime :: blockTimes pindex.pprev count
  | _, _ => []

/-- `GetMedianTimePast`: the median of the times of the entry and its ten
    ancestors, of fewer near genesis; the upper one of an even count. -/
def CBlockIndex.GetMedianTimePast (pindex : CBlockIndex) : Int :=
  let pmedian := (blockTimes (some pindex) nMedianTimeSpan).insertionSort (· ≤ ·)
  pmedian.getD (pmedian.length / 2) 0

end BitcoinPrivate.Chain
