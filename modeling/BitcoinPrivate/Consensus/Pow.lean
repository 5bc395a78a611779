import BitcoinPrivate.Primitives.BaseUint
import BitcoinPrivate.Validation.Fork

/-!
The difficulty retargeting of `pow.cpp`. `GetNextWorkRequired` sums the targets
of the last `nPowAveragingWindow` blocks and divides the sum by the window;
`CalculateNextWorkRequired` damps the time the window took by four around the
window's timespan, clamps it to the adjustment range of `Consensus::Params`,
and scales the average target by it, at most to the limit. The timespans are
`int64_t`, with truncating division; the targets go through the `base_uint`
operators, and `operator*=` takes the timespan as a `uint32_t`.

Under parameters whose adjustment range stays within twice the window's
timespan, an average below `2^255` scales without wrapping and the result
reads back as the rounded target of `nextTarget` (`CalculateNextWorkRequired_eq`).
-/
namespace BitcoinPrivate
open ByteFloat

/-- The proof-of-work fields of `Consensus::Params`, with the limits as the
    numbers `UintToArith256` reads. -/
structure Params where
  powLimit : arith_uint256
  prePowLimit : arith_uint256
  fPowAllowMinDifficultyBlocks : Bool
  fPowNoRetargeting : Bool
  nPowAveragingWindow : Int64
  nPowMaxAdjustDown : Int64
  nPowMaxAdjustUp : Int64
  nPowTargetSpacing : Int64
  nPowDifficultyBombHeight : Int

namespace Params

def AveragingWindowTimespan (params : Params) (isFork : Bool) : Int64 :=
  params.nPowAveragingWindow * params.nPowTargetSpacing / (if isFork then 20 else 1)

def MinActualTimespan (params : Params) (isFork : Bool) : Int64 :=
  params.AveragingWindowTimespan isFork * (100 - params.nPowMaxAdjustUp) / 100

def MaxActualTimespan (params : Params) (isFork : Bool) : Int64 :=
  params.AveragingWindowTimespan isFork * (100 + params.nPowMaxAdjustDown) / 100

end Params

/-- The fields of `CChainParams` that `GetNextWorkRequired` reads. -/
structure ChainParams where
  consensus : Params
  nForkStartHeight : Int
  nForkHeightRange : Int

/-- The consensus of `CMainParams`. -/
def mainConsensus : Params where
  powLimit := 0x07ffffffffffffffffffffffffffffffffffffffffffffffffffffffffffffff
  prePowLimit := 0x0007ffffffffffffffffffffffffffffffffffffffffffffffffffffffffffff
  fPowAllowMinDifficultyBlocks := false
  fPowNoRetargeting := false
  nPowAveragingWindow := 17
  nPowMaxAdjustDown := 32
  nPowMaxAdjustUp := 16
  nPowTargetSpacing := 150
  nPowDifficultyBombHeight := 600000

/-- The consensus of `CTestNetParams`. -/
def testNetConsensus : Params where
  powLimit := 0x07ffffffffffffffffffffffffffffffffffffffffffffffffffffffffffffff
  prePowLimit := 0x07ffffffffffffffffffffffffffffffffffffffffffffffffffffffffffffff
  fPowAllowMinDifficultyBlocks := true
  fPowNoRetargeting := false
  nPowAveragingWindow := 17
  nPowMaxAdjustDown := 32
  nPowMaxAdjustUp := 16
  nPowTargetSpacing := 150
  nPowDifficultyBombHeight := 100000

/-- The consensus of `CRegTestParams`. -/
def regTestConsensus : Params where
  powLimit := 0x0f0f0f0f0f0f0f0f0f0f0f0f0f0f0f0f0f0f0f0f0f0f0f0f0f0f0f0f0f0f0f0f
  prePowLimit := 0x0f0f0f0f0f0f0f0f0f0f0f0f0f0f0f0f0f0f0f0f0f0f0f0f0f0f0f0f0f0f0f0f
  fPowAllowMinDifficultyBlocks := true
  fPowNoRetargeting := true
  nPowAveragingWindow := 17
  nPowMaxAdjustDown := 0
  nPowMaxAdjustUp := 0
  nPowTargetSpacing := 150
  nPowDifficultyBombHeight := 10000

def mainParams : ChainParams := ⟨mainConsensus,272991,5467⟩

def testNetParams : ChainParams := ⟨testNetConsensus,0,0⟩

def regTestParams : ChainParams := ⟨regTestConsensus,0,0⟩

/-- The fields of a `CBlockIndex` that `GetNextWorkRequired` reads. -/
structure PowIndex where
  nHeight : Int
  nBits : UInt32
  nTime : UInt32

def PowIndex.GetBlockTime (pindex : PowIndex) : Int64 := Int64.ofNat pindex.nTime.toNat

def CBlockHeader.GetBlockTime (header : CBlockHeader) : Int64 := Int64.ofNat header.nTime.toNat

/-- `GetMedianTimePast` of the first entry of a walk back along `pprev`: the
    median of the times of it and its ten ancestors, fewer near genesis, the
    upper one of an even count. -/
def GetMedianTimePast (blocks : List PowIndex) : Int64 :=
  let pmedian := ((blocks.take 11).map PowIndex.GetBlockTime).insertionSort (· ≤ ·)
  pmedian.getD (pmedian.length / 2) 0

/-- A 256-bit `base_uint` as the `arith_uint256` of its value. -/
def toArith (x : base_uint 8) : arith_uint256 := BitVec.ofNat 256 x.value

/-! ## `CalculateNextWorkRequired` -/

/-- The adjustment step of `CalculateNextWorkRequired`: the time between the
    two median times, damped by four around the window's timespan and clamped
    to the adjustment range. -/
def ActualTimespan (params : Params) (isFork : Bool) (nLastBlockTime nFirstBlockTime : Int64) : Int64 :=
  let nActualTimespan := nLastBlockTime - nFirstBlockTime
  let nActualTimespan := params.AveragingWindowTimespan isFork +
    (nActualTimespan - params.AveragingWindowTimespan isFork) / 4
  let nActualTimespan :=
    if nActualTimespan < params.MinActualTimespan isFork then params.MinActualTimespan isFork else nActualTimespan
  if nActualTimespan > params.MaxActualTimespan isFork then params.MaxActualTimespan isFork else nActualTimespan

/-- `CalculateNextWorkRequired`. The divisor of `operator/=` is the timespan as
    a `uint64_t`, and `operator*=` picks its `uint32_t` overload for the
    `int64_t` timespan. -/
def CalculateNextWorkRequired (bnAvg : arith_uint256) (nLastBlockTime nFirstBlockTime : Int64) (params : Params)
    (bnPowLimit : arith_uint256) (isFork : Bool) : Except String UInt32 := do
  let nActualTimespan := ActualTimespan params isFork nLastBlockTime nFirstBlockTime
  let bnNew ← base_uint.divide (ofArith bnAvg) (base_uint.ofUInt64 (params.AveragingWindowTimespan isFork).toUInt64)
  let bnNew := base_uint.mulWord bnNew nActualTimespan.toUInt64.toUInt32
  let bnNew := if base_uint.CompareTo bnNew (ofArith bnPowLimit) > 0 then ofArith bnPowLimit else bnNew
  GetCompact (toArith bnNew) false

/-! ## `GetNextWorkRequired` -/

/-- The averaging loop of `GetNextWorkRequired`: `count` passes back along
    `pprev` from the first entry of `blocks`, each adding the target of the
    entry's `nBits` to `bnTot`, and ending early past genesis. The sum, and the
    walk from `pindexFirst` on. -/
def sumTargets (bnTot : arith_uint256) : Nat → List PowIndex → arith_uint256 × List PowIndex
  | 0,blocks => (bnTot,blocks)
  | _ + 1,[] => (bnTot,[])
  | count + 1,pindexFirst :: rest => sumTargets (bnTot + (SetCompact pindexFirst.nBits).1) count rest

/-- `GetNextWorkRequired` for the entry `pindexLast` with its ancestors, newest
    first. The test of `pindexLast == NULL` follows its dereference and the
    assert, and is left out. -/
def GetNextWorkRequired (pindexLast : PowIndex) (ancestors : List PowIndex) (pblock : CBlockHeader)
    (chainparams : ChainParams) : Except String UInt32 := do
  let params := chainparams.consensus
  let nHeight := pindexLast.nHeight + 1
  let proofOfWorkLimit :=
    if !isForkEnabled nHeight chainparams.nForkStartHeight then params.prePowLimit else params.powLimit
  let nProofOfWorkLimit ← GetCompact proofOfWorkLimit false
  let nProofOfWorkBomb ← GetCompact 0xffff false
  let is_fork := isForkBlock nHeight chainparams.nForkStartHeight chainparams.nForkHeightRange
  let was_fork := isForkBlock (nHeight - params.nPowAveragingWindow.toInt) chainparams.nForkStartHeight
    chainparams.nForkHeightRange
  if is_fork && !was_fork then pure nProofOfWorkLimit
  else if !is_fork && was_fork then pure nProofOfWorkLimit
  else if pindexLast.nHeight > params.nPowDifficultyBombHeight then pure nProofOfWorkBomb
  else if params.fPowAllowMinDifficultyBlocks &&
      pblock.GetBlockTime > pindexLast.GetBlockTime + params.nPowTargetSpacing * 2 then pure nProofOfWorkLimit
  else if params.fPowNoRetargeting then pure pindexLast.nBits
  else
    match sumTargets 0 params.nPowAveragingWindow.toInt.toNat (pindexLast :: ancestors) with
    | (_,[]) => pure nProofOfWorkLimit
    | (bnTot,pindexFirst :: older) => do
      let bnAvg ← base_uint.divide (ofArith bnTot) (base_uint.ofUInt64 params.nPowAveragingWindow.toUInt64)
      let isFork := isForkBlock (pindexLast.nHeight + 1) chainparams.nForkStartHeight chainparams.nForkHeightRange
      CalculateNextWorkRequired (toArith bnAvg) (GetMedianTimePast (pindexLast :: ancestors))
        (GetMedianTimePast (pindexFirst :: older)) params proofOfWorkLimit isFork

/-! ## The retargeting on numbers -/

/-- What `CalculateNextWorkRequired` computes before the compact form: the
    average over the window's timespan, times the damped and clamped time the
    window took, and at most the limit. -/
def nextTarget (params : Params) (isFork : Bool) (bnAvg bnPowLimit : Nat) (dt : Int) : Nat :=
  let T := (params.AveragingWindowTimespan isFork).toInt
  let timespan := max (params.MinActualTimespan isFork).toInt
    (min (params.MaxActualTimespan isFork).toInt (T + (dt - T).tdiv 4))
  min bnPowLimit (bnAvg / T.toNat * timespan.toNat)

/-- Parameters under which the retargeting cannot wrap: a window timespan that
    is positive and below `2^31`, an adjustment range from zero to at most twice
    it, and the assertion of `chainparams.cpp` that the window's targets at the
    limit sum below `2^256`. -/
structure RetargetParams (params : Params) : Prop where
  timespan_pos : ∀ isFork, 0 < (params.AveragingWindowTimespan isFork).toInt
  timespan_lt : ∀ isFork, (params.AveragingWindowTimespan isFork).toInt < 2^31
  min_nonneg : ∀ isFork, 0 ≤ (params.MinActualTimespan isFork).toInt
  min_le_max : ∀ isFork, (params.MinActualTimespan isFork).toInt ≤ (params.MaxActualTimespan isFork).toInt
  max_le : ∀ isFork, (params.MaxActualTimespan isFork).toInt ≤ 2 * (params.AveragingWindowTimespan isFork).toInt
  window_fits : params.nPowAveragingWindow.toInt ≤ ((2^256 - 1) / params.powLimit.toNat : Nat)

theorem retargetParams_networks :
    RetargetParams mainConsensus ∧ RetargetParams testNetConsensus ∧ RetargetParams regTestConsensus :=
  ⟨⟨by decide,by decide,by decide,by decide,by decide,by decide⟩,
    ⟨by decide,by decide,by decide,by decide,by decide,by decide⟩,
    ⟨by decide,by decide,by decide,by decide,by decide,by decide⟩⟩


/-! ## The timespan -/

theorem tdiv_four (x : Int) : x - 3 ≤ 4 * x.tdiv 4 ∧ 4 * x.tdiv 4 ≤ x + 3 := by
  rw [Int.tdiv_eq_ediv,show Int.sign 4 = 1 from rfl]
  split_ifs <;> omega

/-- An `int64_t` result that fits is the exact one. -/
theorem bmod_of_small {x : Int} (small : |x| < 2^63) : x.bmod (2^64) = x := by
  rw [abs_lt] at small
  exact Int.bmod_eq_of_le_mul_two (by push_cast; omega) (by push_cast; omega)

theorem toNat_toUInt32_of_bounds {x : Int64} (nonneg : 0 ≤ x.toInt) (small : x.toInt < 2^32) :
    x.toUInt64.toUInt32.toNat = x.toInt.toNat := by
  rw [UInt64.toNat_toUInt32,Int64.toNat_toUInt64_of_le (by rw [Int64.le_iff_toInt_le,Int64.toInt_zero]; exact nonneg),
    Int64.toNatClampNeg,Nat.mod_eq_of_lt (by omega)]

section
variable {params : Params} (valid : RetargetParams params) (isFork : Bool)
include valid

/-- Without overflow, the adjustment step is the damped time clamped to the range. -/
theorem ActualTimespan_toInt {nLastBlockTime nFirstBlockTime : Int64}
    (close : |nLastBlockTime.toInt - nFirstBlockTime.toInt| < 2^62) :
    (ActualTimespan params isFork nLastBlockTime nFirstBlockTime).toInt =
      max (params.MinActualTimespan isFork).toInt (min (params.MaxActualTimespan isFork).toInt
        ((params.AveragingWindowTimespan isFork).toInt +
          (nLastBlockTime.toInt - nFirstBlockTime.toInt - (params.AveragingWindowTimespan isFork).toInt).tdiv 4)) := by
  have positive := valid.timespan_pos isFork
  have small := valid.timespan_lt isFork
  have ordered := valid.min_le_max isFork
  rw [abs_lt] at close
  have dt : (nLastBlockTime - nFirstBlockTime).toInt = nLastBlockTime.toInt - nFirstBlockTime.toInt := by
    rw [Int64.toInt_sub,bmod_of_small (by rw [abs_lt]; omega)]
  have offset : (nLastBlockTime - nFirstBlockTime - params.AveragingWindowTimespan isFork).toInt =
      nLastBlockTime.toInt - nFirstBlockTime.toInt - (params.AveragingWindowTimespan isFork).toInt := by
    rw [Int64.toInt_sub,dt,bmod_of_small (by rw [abs_lt]; omega)]
  have quarter := tdiv_four (nLastBlockTime.toInt - nFirstBlockTime.toInt - (params.AveragingWindowTimespan isFork).toInt)
  have damped : (params.AveragingWindowTimespan isFork +
      (nLastBlockTime - nFirstBlockTime - params.AveragingWindowTimespan isFork) / 4).toInt =
      (params.AveragingWindowTimespan isFork).toInt +
        (nLastBlockTime.toInt - nFirstBlockTime.toInt - (params.AveragingWindowTimespan isFork).toInt).tdiv 4 := by
    rw [Int64.toInt_add,Int64.toInt_div_of_ne_right _ _ (by decide),offset,show (4 : Int64).toInt = 4 from rfl,
      bmod_of_small (by rw [abs_lt]; omega)]
  unfold ActualTimespan
  dsimp only
  generalize params.AveragingWindowTimespan isFork +
    (nLastBlockTime - nFirstBlockTime - params.AveragingWindowTimespan isFork) / 4 = v at damped
  split_ifs with low high high <;> simp only [gt_iff_lt,Int64.lt_iff_toInt_lt] at low high <;> omega

theorem ActualTimespan_bounds {nLastBlockTime nFirstBlockTime : Int64}
    (close : |nLastBlockTime.toInt - nFirstBlockTime.toInt| < 2^62) :
    0 ≤ (ActualTimespan params isFork nLastBlockTime nFirstBlockTime).toInt ∧
      (ActualTimespan params isFork nLastBlockTime nFirstBlockTime).toInt ≤
        2 * (params.AveragingWindowTimespan isFork).toInt := by
  have := valid.min_nonneg isFork
  have := valid.min_le_max isFork
  have := valid.max_le isFork
  rw [ActualTimespan_toInt valid isFork close]
  omega

theorem value_timespan :
    (base_uint.ofUInt64 (params.AveragingWindowTimespan isFork).toUInt64 : base_uint 8).value =
      (params.AveragingWindowTimespan isFork).toInt.toNat := by
  have positive := valid.timespan_pos isFork
  rw [base_uint.value_ofUInt64 _ (by norm_num),
    Int64.toNat_toUInt64_of_le (by rw [Int64.le_iff_toInt_le,Int64.toInt_zero]; omega),Int64.toNatClampNeg]

end

theorem toNat_toArith (x : base_uint 8) : (toArith x).toNat = x.value := by
  rw [toArith,BitVec.toNat_ofNat,Nat.mod_eq_of_lt x.value_lt]


/-! ## `nextTarget` grows with the average and with the time taken -/

theorem nextTarget_le (params : Params) (isFork : Bool) (bnAvg bnPowLimit : Nat) (dt : Int) :
    nextTarget params isFork bnAvg bnPowLimit dt ≤ bnPowLimit := min_le_left _ _

theorem nextTarget_mono_avg (params : Params) (isFork : Bool) {bnAvg bnAvg' : Nat} (bnPowLimit : Nat) (dt : Int)
    (le : bnAvg ≤ bnAvg') : nextTarget params isFork bnAvg bnPowLimit dt ≤ nextTarget params isFork bnAvg' bnPowLimit dt :=
  min_le_min_left _ (Nat.mul_le_mul_right _ (Nat.div_le_div_right le))

theorem nextTarget_mono_time (params : Params) (isFork : Bool) (bnAvg bnPowLimit : Nat) {dt dt' : Int}
    (le : dt ≤ dt') : nextTarget params isFork bnAvg bnPowLimit dt ≤ nextTarget params isFork bnAvg bnPowLimit dt' := by
  have quarter : (dt - (params.AveragingWindowTimespan isFork).toInt).tdiv 4 ≤
      (dt' - (params.AveragingWindowTimespan isFork).toInt).tdiv 4 := Int.tdiv_le_tdiv (by norm_num) (by omega)
  unfold nextTarget
  apply min_le_min_left
  apply Nat.mul_le_mul_left
  apply Int.toNat_le_toNat
  omega

/-! ## The retargeting without wrapping -/

/-- A number below `2^255` over `T`, times at most `2 * T`, stays below `2^256`. -/
theorem div_mul_lt_of_le_twice {a T s : Nat} (below : a < 2^255) (le : s ≤ 2 * T) : a / T * s < 2^256 := calc
  a / T * s ≤ a / T * (2 * T) := Nat.mul_le_mul_left _ le
  _ = 2 * (a / T * T) := by ring
  _ ≤ 2 * a := Nat.mul_le_mul_left _ (Nat.div_mul_le_self _ _)
  _ < 2^256 := by omega

section
variable {params : Params} (valid : RetargetParams params) (isFork : Bool)
include valid

/-- Below `2^255`, the average scales without wrapping, and the result reads back
    as the rounded `nextTarget`. -/
theorem CalculateNextWorkRequired_eq {bnAvg : arith_uint256} (bnPowLimit : arith_uint256)
    {nLastBlockTime nFirstBlockTime : Int64} (below : bnAvg.toNat < 2^255)
    (close : |nLastBlockTime.toInt - nFirstBlockTime.toInt| < 2^62) :
    ∃ nBits, CalculateNextWorkRequired bnAvg nLastBlockTime nFirstBlockTime params bnPowLimit isFork = .ok nBits ∧
      SetCompact nBits = (BitVec.ofNat 256 (rounded (nextTarget params isFork bnAvg.toNat bnPowLimit.toNat
        (nLastBlockTime.toInt - nFirstBlockTime.toInt))),false,false) := by
  have positive := valid.timespan_pos isFork
  have small := valid.timespan_lt isFork
  have span := ActualTimespan_toInt valid isFork close
  obtain ⟨nonneg,twice⟩ := ActualTimespan_bounds valid isFork close
  set ts := ActualTimespan params isFork nLastBlockTime nFirstBlockTime
  obtain ⟨q,divided,quotient⟩ := (base_uint.divide_spec (ofArith bnAvg)
    (base_uint.ofUInt64 (params.AveragingWindowTimespan isFork).toUInt64)).2 (by rw [value_timespan valid isFork]; omega)
  rw [value_ofArith,value_timespan valid isFork] at quotient
  set p := base_uint.mulWord q ts.toUInt64.toUInt32
  have product : p.value = bnAvg.toNat / (params.AveragingWindowTimespan isFork).toInt.toNat * ts.toInt.toNat := by
    rw [base_uint.value_mulWord,quotient,toNat_toUInt32_of_bounds nonneg (by omega),
      Nat.mod_eq_of_lt (div_mul_lt_of_le_twice below (by omega))]
  have capped : (if base_uint.CompareTo p (ofArith bnPowLimit) > 0 then ofArith bnPowLimit else p).value =
      nextTarget params isFork bnAvg.toNat bnPowLimit.toNat (nLastBlockTime.toInt - nFirstBlockTime.toInt) := by
    rw [nextTarget,← span,apply_ite base_uint.value,base_uint.CompareTo_eq,value_ofArith,product]
    split_ifs <;> omega
  obtain ⟨c,compact,read⟩ :=
    SetCompact_GetCompact (toArith (if base_uint.CompareTo p (ofArith bnPowLimit) > 0 then ofArith bnPowLimit else p))
  refine ⟨c,?_,?_⟩
  · unfold CalculateNextWorkRequired
    rw [divided]
    exact compact
  · rw [read,toNat_toArith,capped]

theorem CalculateNextWorkRequired_decoded {bnAvg bnPowLimit : arith_uint256} {nLastBlockTime nFirstBlockTime : Int64}
    {nBits : UInt32} (below : bnAvg.toNat < 2^255) (close : |nLastBlockTime.toInt - nFirstBlockTime.toInt| < 2^62)
    (result : CalculateNextWorkRequired bnAvg nLastBlockTime nFirstBlockTime params bnPowLimit isFork = .ok nBits) :
    (SetCompact nBits).1.toNat =
      rounded (nextTarget params isFork bnAvg.toNat bnPowLimit.toNat (nLastBlockTime.toInt - nFirstBlockTime.toInt)) := by
  obtain ⟨c,ok,read⟩ := CalculateNextWorkRequired_eq valid isFork bnPowLimit below close
  rw [ok,Except.ok.injEq] at result
  rw [← result,read,BitVec.toNat_ofNat,Nat.mod_eq_of_lt]
  exact lt_of_le_of_lt (rounded_le _) (lt_of_le_of_lt (nextTarget_le _ _ _ _ _) bnPowLimit.isLt)

end

/-! ## The sum of the window's targets -/

theorem sumTargets_toNat : ∀ (bnTot : arith_uint256) (count : Nat) (blocks : List PowIndex),
    (sumTargets bnTot count blocks).1.toNat =
      (bnTot.toNat + ((blocks.take count).map fun b => (SetCompact b.nBits).1.toNat).sum) % 2^256
  | bnTot,0,_ => by simp [sumTargets,Nat.mod_eq_of_lt bnTot.isLt]
  | bnTot,_ + 1,[] => by simp [sumTargets,Nat.mod_eq_of_lt bnTot.isLt]
  | bnTot,count + 1,b :: rest => by
    rw [sumTargets,sumTargets_toNat,BitVec.toNat_add,List.take_succ_cons,List.map_cons,List.sum_cons,
      Nat.mod_add_mod,Nat.add_assoc]

/-- Targets at most the limit sum without wrapping over the window that the
    assertion of `chainparams.cpp` bounds. -/
theorem sumTargets_exact {params : Params} (valid : RetargetParams params) (blocks : List PowIndex)
    (bounded : ∀ b ∈ blocks.take params.nPowAveragingWindow.toInt.toNat,
      (SetCompact b.nBits).1.toNat ≤ params.powLimit.toNat) :
    (sumTargets 0 params.nPowAveragingWindow.toInt.toNat blocks).1.toNat =
      ((blocks.take params.nPowAveragingWindow.toInt.toNat).map fun b => (SetCompact b.nBits).1.toNat).sum := by
  have total := List.sum_le_card_nsmul ((blocks.take params.nPowAveragingWindow.toInt.toNat).map
    fun b => (SetCompact b.nBits).1.toNat) params.powLimit.toNat (fun x mem => by
      obtain ⟨b,inside,rfl⟩ := List.mem_map.mp mem
      exact bounded b inside)
  rw [List.length_map,smul_eq_mul] at total
  have length := List.length_take_le params.nPowAveragingWindow.toInt.toNat blocks
  have window : params.nPowAveragingWindow.toInt.toNat ≤ (2^256 - 1) / params.powLimit.toNat :=
    Int.toNat_le.mpr valid.window_fits
  have fits : params.nPowAveragingWindow.toInt.toNat * params.powLimit.toNat ≤ 2^256 - 1 :=
    le_trans (Nat.mul_le_mul_right _ window) (Nat.div_mul_le_self _ _)
  rw [sumTargets_toNat,show (0 : arith_uint256).toNat = 0 from rfl,Nat.zero_add,Nat.mod_eq_of_lt]
  calc _ ≤ (blocks.take params.nPowAveragingWindow.toInt.toNat).length * params.powLimit.toNat := total
    _ ≤ params.nPowAveragingWindow.toInt.toNat * params.powLimit.toNat := Nat.mul_le_mul_right _ length
    _ < 2^256 := by omega

/-- Difficulty retargeting is bounded and monotone, and the window's sum does
    not wrap. -/
theorem retargeting_bounded_monotone (params : Params) (valid : RetargetParams params) :
    (∀ (bnAvg bnPowLimit : arith_uint256) (isFork : Bool) (nLastBlockTime nFirstBlockTime : Int64),
      bnAvg.toNat ≤ bnPowLimit.toNat → bnPowLimit.toNat < 2^255 →
      |nLastBlockTime.toInt - nFirstBlockTime.toInt| < 2^62 →
      ∃ nBits, CalculateNextWorkRequired bnAvg nLastBlockTime nFirstBlockTime params bnPowLimit isFork = .ok nBits ∧
        (SetCompact nBits).2.1 = false ∧ (SetCompact nBits).2.2 = false ∧
        (SetCompact nBits).1.toNat ≤ bnPowLimit.toNat ∧
        (SetCompact nBits).1.toNat =
          rounded (nextTarget params isFork bnAvg.toNat bnPowLimit.toNat (nLastBlockTime.toInt - nFirstBlockTime.toInt))) ∧
    (∀ (bnAvg bnAvg' bnPowLimit : arith_uint256) (isFork : Bool) (nLastBlockTime nFirstBlockTime : Int64)
      (nBits nBits' : UInt32),
      bnAvg.toNat ≤ bnAvg'.toNat → bnAvg'.toNat ≤ bnPowLimit.toNat → bnPowLimit.toNat < 2^255 →
      |nLastBlockTime.toInt - nFirstBlockTime.toInt| < 2^62 →
      CalculateNextWorkRequired bnAvg nLastBlockTime nFirstBlockTime params bnPowLimit isFork = .ok nBits →
      CalculateNextWorkRequired bnAvg' nLastBlockTime nFirstBlockTime params bnPowLimit isFork = .ok nBits' →
      (SetCompact nBits).1.toNat ≤ (SetCompact nBits').1.toNat) ∧
    (∀ (bnAvg bnPowLimit : arith_uint256) (isFork : Bool)
      (nLastBlockTime nFirstBlockTime nLastBlockTime' nFirstBlockTime' : Int64) (nBits nBits' : UInt32),
      bnAvg.toNat ≤ bnPowLimit.toNat → bnPowLimit.toNat < 2^255 →
      |nLastBlockTime.toInt - nFirstBlockTime.toInt| < 2^62 →
      |nLastBlockTime'.toInt - nFirstBlockTime'.toInt| < 2^62 →
      nLastBlockTime.toInt - nFirstBlockTime.toInt ≤ nLastBlockTime'.toInt - nFirstBlockTime'.toInt →
      CalculateNextWorkRequired bnAvg nLastBlockTime nFirstBlockTime params bnPowLimit isFork = .ok nBits →
      CalculateNextWorkRequired bnAvg nLastBlockTime' nFirstBlockTime' params bnPowLimit isFork = .ok nBits' →
      (SetCompact nBits).1.toNat ≤ (SetCompact nBits').1.toNat) ∧
    ∀ (pindexLast : PowIndex) (ancestors : List PowIndex),
      (∀ b ∈ (pindexLast :: ancestors).take params.nPowAveragingWindow.toInt.toNat,
        (SetCompact b.nBits).1.toNat ≤ params.powLimit.toNat) →
      (sumTargets 0 params.nPowAveragingWindow.toInt.toNat (pindexLast :: ancestors)).1.toNat =
        (((pindexLast :: ancestors).take params.nPowAveragingWindow.toInt.toNat).map
          fun b => (SetCompact b.nBits).1.toNat).sum := by
  refine ⟨?_,?_,?_,fun pindexLast ancestors bounded => sumTargets_exact valid _ bounded⟩
  · intro bnAvg bnPowLimit isFork nLastBlockTime nFirstBlockTime le limit close
    obtain ⟨nBits,ok,read⟩ := CalculateNextWorkRequired_eq valid isFork bnPowLimit
      (show bnAvg.toNat < 2^255 by omega) close
    have decoded := CalculateNextWorkRequired_decoded valid isFork (by omega) close ok
    refine ⟨nBits,ok,by rw [read],by rw [read],?_,decoded⟩
    rw [decoded]
    exact le_trans (rounded_le _) (nextTarget_le _ _ _ _ _)
  · intro bnAvg bnAvg' bnPowLimit isFork nLastBlockTime nFirstBlockTime nBits nBits' le le' limit close result result'
    rw [CalculateNextWorkRequired_decoded valid isFork (by omega) close result,
      CalculateNextWorkRequired_decoded valid isFork (by omega) close result']
    exact rounded_mono (nextTarget_mono_avg _ _ _ _ le)
  · intro bnAvg bnPowLimit isFork nLastBlockTime nFirstBlockTime nLastBlockTime' nFirstBlockTime' nBits nBits'
      le limit close close' later result result'
    rw [CalculateNextWorkRequired_decoded valid isFork (by omega) close result,
      CalculateNextWorkRequired_decoded valid isFork (by omega) close' result']
    exact rounded_mono (nextTarget_mono_time _ _ _ _ later)

theorem retargeting_on_main_chain :
    RetargetParams mainConsensus ∧ ∃ nBits,
      CalculateNextWorkRequired mainConsensus.powLimit 2550 0 mainConsensus mainConsensus.powLimit false = .ok nBits ∧
        (SetCompact nBits).1.toNat ≤ mainConsensus.powLimit.toNat := by
  obtain ⟨nBits,ok,-,-,le,-⟩ := (retargeting_bounded_monotone mainConsensus retargetParams_networks.1).1
    mainConsensus.powLimit mainConsensus.powLimit false 2550 0 le_rfl (by decide) (by decide)
  exact ⟨retargetParams_networks.1,nBits,ok,le⟩

end BitcoinPrivate
