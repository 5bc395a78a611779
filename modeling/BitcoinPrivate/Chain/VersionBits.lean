import Mathlib.Logic.Function.Basic
import BitcoinPrivate.Chain.BlockIndex

/-!
The BIP9 state machine of `versionbits.cpp`. `GetStateFor` answers for the
period after a block from a cache keyed by period-end blocks: it walks back in
steps of a period to a block whose state the cache holds, or to genesis, or to a
block before the start time, which it writes as `DEFINED`; then it replays the
transitions forward, writing each state it computes.

The state BIP9 defines for the period after a block (`thresholdState`) is one
transition per period from `DEFINED` at genesis. `GetStateFor` returns it over
the caches its own calls leave, when the median time past does not decrease
along the chain and the deployment starts at a time, not before its timeout
(`GetStateFor_memoisation_sound`). Off that schedule the two part
(`GetStateFor_off_schedule`): an always-active deployment answers `ACTIVE`
from genesis on, and a start after the timeout lets the shortcut at a block
before the start time cache `DEFINED` where the definition has failed.
-/
namespace BitcoinPrivate.Chain

/-- `ThresholdState`. -/
inductive ThresholdState
  | DEFINED
  | STARTED
  | LOCKED_IN
  | ACTIVE
  | FAILED
  deriving DecidableEq, Repr

/-- `BIP9Deployment::ALWAYS_ACTIVE`. -/
def ALWAYS_ACTIVE : Int := -1

/-- `AbstractThresholdConditionChecker`, with its virtual methods at the chain
    parameters of the node; a period is at least one block. -/
structure AbstractThresholdConditionChecker where
  Condition : CBlockIndex → Bool
  BeginTime : Int
  EndTime : Int
  Period : Nat
  Threshold : Nat
  Period_pos : 0 < Period

/-- `ThresholdConditionCache`: the state cached for a block, or for `nullptr`. -/
abbrev ThresholdConditionCache := Option CBlockIndex → Option ThresholdState

/-- The empty cache. -/
def emptyCache : ThresholdConditionCache := fun _ => none

section
variable (checker : AbstractThresholdConditionChecker)

/-! ## `GetStateFor` -/

/-- The count of `STARTED`: the blocks of the period down from `pindexCount`
    that satisfy the condition; the error where the walk runs past genesis,
    which the source would dereference. -/
def countCondition : Option CBlockIndex → Nat → Except String Nat
  | _, 0 => .ok 0
  | none, _+1 => .error "null pindexCount"
  | some pindexCount, i+1 => do
    let count ← countCondition pindexCount.pprev i
    pure (count + if checker.Condition pindexCount then 1 else 0)

/-- The `switch` of the forward walk: the state of the period after the
    period-end block `pindexPrev`, from the state of the period it ends. -/
def stateNext (state : ThresholdState) (pindexPrev : CBlockIndex) : Except String ThresholdState :=
  match state with
  | .DEFINED =>
    if pindexPrev.GetMedianTimePast ≥ checker.EndTime then .ok .FAILED
    else if pindexPrev.GetMedianTimePast ≥ checker.BeginTime then .ok .STARTED
    else .ok .DEFINED
  | .STARTED =>
    if pindexPrev.GetMedianTimePast ≥ checker.EndTime then .ok .FAILED
    else do
      let count ← countCondition checker (some pindexPrev) checker.Period
      if count ≥ checker.Threshold then .ok .LOCKED_IN else .ok .STARTED
  | .LOCKED_IN => .ok .ACTIVE
  | .FAILED => .ok .FAILED
  | .ACTIVE => .ok .ACTIVE

set_option linter.unusedVariables false in
/-- The walk back in steps of the period to a block whose state the cache
    holds: `nullptr` and a block before the start time are written `DEFINED`.
    The blocks passed are pushed on `vToCompute`, the last one first. -/
def walkBackPeriods (cache : ThresholdConditionCache) (vToCompute : List CBlockIndex) (pindexPrev : Option CBlockIndex) :
    Except String (Option CBlockIndex × List CBlockIndex × ThresholdConditionCache) :=
  if (cache pindexPrev).isSome then .ok (pindexPrev,vToCompute,cache)
  else
    match pindexPrev with
    | none =>
      -- The genesis block is by definition defined.
      .ok (none,vToCompute,Function.update cache none (some .DEFINED))
    | some pindex =>
      if pindex.GetMedianTimePast < checker.BeginTime then
        -- Optimization: don't recompute down further, as we know every earlier block will be before the start time
        .ok (some pindex,vToCompute,Function.update cache (some pindex) (some .DEFINED))
      else
        match ancestor : pindex.GetAncestor (pindex.nHeight - checker.Period) with
        | .ok next => walkBackPeriods cache (pindex :: vToCompute) next
        | .error e => .error e
termination_by sizeOf pindexPrev
decreasing_by exact sizeOf_GetAncestor_lt ancestor (by have := checker.Period_pos; omega)

/-- The walk forward: the state of each block of `vToCompute` from the one
    before, each written to the cache. -/
def computeForward (state : ThresholdState) (cache : ThresholdConditionCache) :
    List CBlockIndex → Except String (ThresholdState × ThresholdConditionCache)
  | [] => .ok (state,cache)
  | pindexPrev :: vToCompute => do
    let state ← stateNext checker state pindexPrev
    computeForward state (Function.update cache (some pindexPrev) (some state)) vToCompute

/-- `GetStateFor`: the state of the period after `pindexPrev`, and the cache
    after the call. -/
def GetStateFor (pindexPrev : Option CBlockIndex) (cache : ThresholdConditionCache) :
    Except String (ThresholdState × ThresholdConditionCache) :=
  -- Check if this deployment is always active.
  if checker.BeginTime = ALWAYS_ACTIVE then .ok (.ACTIVE,cache)
  else do
    -- A block's state is always the same as that of the first of its period.
    let pindexPrev ← match pindexPrev with
      | some pindex => pindex.GetAncestor (pindex.nHeight - ((pindex.nHeight + 1) % checker.Period : Nat))
      | none => pure none
    let (pindexPrev,vToCompute,cache) ← walkBackPeriods checker cache [] pindexPrev
    match cache pindexPrev with
    | none => .error "Assertion cache.count(pindexPrev) failed"
    | some state => computeForward checker state cache vToCompute

/-- Calls of `GetStateFor` one after the other on one cache: their states, and
    the cache after the last. -/
def runGetStateFor (cache : ThresholdConditionCache) :
    List (Option CBlockIndex) → Except String (List ThresholdState × ThresholdConditionCache)
  | [] => .ok ([],cache)
  | pindexPrev :: rest => do
    let (state,cache) ← GetStateFor checker pindexPrev cache
    let (states,cache) ← runGetStateFor cache rest
    pure (state :: states,cache)

/-! ## The states BIP9 defines -/

/-- The blocks of the period that ends at `pindexEnd` that satisfy the condition. -/
def signalling (pindexEnd : CBlockIndex) : Nat :=
  (List.range checker.Period).countP fun steps => (pindexEnd.walkBack steps).any checker.Condition

/-- The transition of BIP9 at the end of a period, from the state of that
    period to the state of the next: the timeout first, then the start time or
    the threshold of signalling blocks; `LOCKED_IN` becomes `ACTIVE`, and
    `FAILED` and `ACTIVE` stay. -/
def transition (state : ThresholdState) (pindexEnd : CBlockIndex) : ThresholdState :=
  match state with
  | .DEFINED =>
    if checker.EndTime ≤ pindexEnd.GetMedianTimePast then .FAILED
    else if checker.BeginTime ≤ pindexEnd.GetMedianTimePast then .STARTED
    else .DEFINED
  | .STARTED =>
    if checker.EndTime ≤ pindexEnd.GetMedianTimePast then .FAILED
    else if checker.Threshold ≤ signalling checker pindexEnd then .LOCKED_IN
    else .STARTED
  | .LOCKED_IN => .ACTIVE
  | .FAILED => .FAILED
  | .ACTIVE => .ACTIVE

/-- The state after the first `periods` periods of the chain of `pindex`. -/
def stateAfterPeriods (pindex : CBlockIndex) : Nat → ThresholdState
  | 0 => .DEFINED
  | periods+1 =>
    match pindex.walkBack (pindex.nHeight + 1 - (periods + 1) * checker.Period) with
    | some pindexEnd => transition checker (stateAfterPeriods pindex periods) pindexEnd
    | none => .DEFINED

/-- The state of the period after `pindexPrev`: `DEFINED` at genesis, then one
    transition at the end of each period of its chain. -/
def thresholdState : Option CBlockIndex → ThresholdState
  | none => .DEFINED
  | some pindex => stateAfterPeriods checker pindex ((pindex.nHeight + 1) / checker.Period)

/-- Every entry of the cache is the state BIP9 defines for its block. -/
def CacheValid (cache : ThresholdConditionCache) : Prop :=
  ∀ pindexPrev state, cache pindexPrev = some state → state = thresholdState checker pindexPrev

/-- The blocks of `vToCompute` climb from `pindexPrev` to `target` one period
    at a time: each ends a period, with the block before it a period below. -/
def Climbs : Option CBlockIndex → List CBlockIndex → Option CBlockIndex → Prop
  | pindexPrev, [], target => pindexPrev = target
  | pindexPrev, pindex :: vToCompute, target =>
    pindex.walkBack checker.Period = pindexPrev ∧ (pindex.nHeight + 1) % checker.Period = 0 ∧
      SkipsBack pindex ∧ Climbs (some pindex) vToCompute target

end

/-- The median time past does not decrease from parent to child along the
    chain of `pindex`. -/
def MTPMonotone (pindex : CBlockIndex) : Prop :=
  ∀ steps a pprev, pindex.walkBack steps = some a → a.pprev = some pprev →
    pprev.GetMedianTimePast ≤ a.GetMedianTimePast

/-- `pindexPrev` is `nullptr` or a block on a chain with its skip pointers
    built and a median time past that does not decrease. -/
def OnChain (pindexPrev : Option CBlockIndex) : Prop :=
  ∀ pindex, pindexPrev = some pindex → SkipsBack pindex ∧ MTPMonotone pindex

/-! ## The median time past along the chain -/

theorem MTPMonotone.walkBack {pindex a : CBlockIndex} {steps : Nat} (monotone : MTPMonotone pindex)
    (walk : pindex.walkBack steps = some a) : MTPMonotone a := by
  intro steps' b pprev walk' up
  exact monotone (steps + steps') b pprev (by rw [walkBack_add,walk,Option.bind_some,walk']) up

/-- A genesis entry has no parent to compare with. -/
theorem MTPMonotone.of_root {pindex : CBlockIndex} (root : pindex.pprev = none) : MTPMonotone pindex := by
  intro steps a pprev walk up
  cases steps with
  | zero => cases walk; rw [root] at up; cases up
  | succ steps => rw [CBlockIndex.walkBack,root] at walk; cases walk

/-- A child whose median time past is not below its parent's extends a chain
    whose median time past does not decrease. -/
theorem MTPMonotone.of_pprev {pindex pprev : CBlockIndex} (up : pindex.pprev = some pprev)
    (monotone : MTPMonotone pprev) (later : pprev.GetMedianTimePast ≤ pindex.GetMedianTimePast) :
    MTPMonotone pindex := by
  intro steps a q walk up'
  cases steps with
  | zero =>
    cases walk
    rw [up,Option.some_inj] at up'
    exact up' ▸ later
  | succ steps =>
    rw [CBlockIndex.walkBack,up,Option.bind_some] at walk
    exact monotone steps a q walk up'

theorem OnChain.walkBack {pindex : CBlockIndex} (chain : OnChain (some pindex)) (steps : Nat) :
    OnChain (pindex.walkBack steps) := by
  intro a walk
  obtain ⟨skips,monotone⟩ := chain pindex rfl
  obtain ⟨fits,-⟩ := nHeight_of_walkBack skips walk
  obtain ⟨a',walk',-,skips'⟩ := walkBack_of_le skips fits
  rw [walk,Option.some_inj] at walk'
  exact ⟨walk' ▸ skips',monotone.walkBack walk⟩

/-- An ancestor's median time past is at most the entry's. -/
theorem GetMedianTimePast_le_of_walkBack {steps : Nat} :
    ∀ {pindex a : CBlockIndex}, MTPMonotone pindex → pindex.walkBack steps = some a →
      a.GetMedianTimePast ≤ pindex.GetMedianTimePast := by
  induction steps with
  | zero =>
    intro pindex a _ walk
    cases walk
    exact le_refl _
  | succ steps ih =>
    intro pindex a monotone walk
    rw [CBlockIndex.walkBack] at walk
    cases up : pindex.pprev with
    | none => rw [up] at walk; cases walk
    | some pprev =>
      rw [up,Option.bind_some] at walk
      have step := monotone 0 pindex pprev rfl up
      have := ih (monotone.walkBack (show pindex.walkBack 1 = some pprev by rw [walkBack_one,up])) walk
      omega

section
variable {checker : AbstractThresholdConditionChecker}

/-! ## The forward step computes the transition -/

/-- The count of the source over the blocks of the period is the number of
    signalling blocks. The induction is on the blocks left to count. -/
theorem countCondition_eq :
    ∀ (count : Nat) {pindex : CBlockIndex}, SkipsBack pindex → count ≤ pindex.nHeight + 1 →
      countCondition checker (some pindex) count =
        .ok ((List.range count).countP fun steps => (pindex.walkBack steps).any checker.Condition)
  | 0, _, _, _ => rfl
  | count+1, pindex, skips, fits => by
    -- the rest of the period is counted from the parent
    have rest : countCondition checker pindex.pprev count =
        .ok ((List.range count).countP ((fun steps => (pindex.walkBack steps).any checker.Condition) ∘ Nat.succ)) := by
      cases count with
      | zero => rfl
      | succ count =>
        obtain ⟨pprev,up⟩ := skips.parent (by omega)
        obtain ⟨height,-,skips'⟩ := skips.of_pprev up
        rw [up,countCondition_eq (count+1) skips' (by omega)]
        congr 2
        funext steps
        simp [CBlockIndex.walkBack,up]
    rw [List.range_succ_eq_map,List.countP_cons,List.countP_map]
    simp only [countCondition,rest]
    simp [CBlockIndex.walkBack]
    rfl

/-- At the end of a period, the `switch` of the forward walk is the transition. -/
theorem stateNext_eq {pindex : CBlockIndex} (skips : SkipsBack pindex) (full : checker.Period ≤ pindex.nHeight + 1)
    (state : ThresholdState) : stateNext checker state pindex = .ok (transition checker state pindex) := by
  cases state with
  | DEFINED => simp only [stateNext,transition,ge_iff_le]; split_ifs <;> rfl
  | STARTED =>
    simp only [stateNext,transition,ge_iff_le,countCondition_eq _ skips full]
    split_ifs <;> simp_all [signalling,bind,Except.bind]
  | LOCKED_IN => rfl
  | FAILED => rfl
  | ACTIVE => rfl

/-! ## The states BIP9 defines, period by period -/

/-- An ancestor that ends at least `periods` periods has the entry's state after
    them. -/
theorem stateAfterPeriods_walkBack {pindex above : CBlockIndex} {steps : Nat} (skips : SkipsBack pindex)
    (walk : pindex.walkBack steps = some above) :
    ∀ periods, periods * checker.Period ≤ above.nHeight + 1 →
      stateAfterPeriods checker above periods = stateAfterPeriods checker pindex periods
  | 0, _ => rfl
  | periods+1, fits => by
    obtain ⟨below,height⟩ := nHeight_of_walkBack skips walk
    have fewer : periods * checker.Period ≤ (periods + 1) * checker.Period := Nat.mul_le_mul_right _ (Nat.le_succ _)
    have ih := stateAfterPeriods_walkBack skips walk periods (by omega)
    -- the end of period `periods + 1` is the same block from both
    have shift : pindex.nHeight + 1 - (periods + 1) * checker.Period =
        steps + (above.nHeight + 1 - (periods + 1) * checker.Period) := by
      generalize (periods + 1) * checker.Period = span at fits ⊢
      omega
    simp only [stateAfterPeriods]
    rw [shift,walkBack_add,walk,Option.bind_some,ih]

/-- The state after a block is the state after the end of the period before it. -/
theorem thresholdState_periodEnd {pindex : CBlockIndex} (skips : SkipsBack pindex) :
    thresholdState checker (some pindex) = thresholdState checker (pindex.walkBack ((pindex.nHeight + 1) % checker.Period)) := by
  have division := Nat.mod_add_div (pindex.nHeight + 1) checker.Period
  by_cases inside : (pindex.nHeight + 1) % checker.Period ≤ pindex.nHeight
  · obtain ⟨above,walk,height,-⟩ := walkBack_of_le skips inside
    have counted : (above.nHeight + 1) / checker.Period = (pindex.nHeight + 1) / checker.Period := by
      rw [show above.nHeight + 1 = checker.Period * ((pindex.nHeight + 1) / checker.Period) by omega,
        Nat.mul_div_cancel_left _ checker.Period_pos]
    rw [walk,thresholdState,thresholdState,counted]
    exact (stateAfterPeriods_walkBack skips walk _ (by rw [Nat.mul_comm]; omega)).symm
  · -- a block of the first period: no period has ended before it
    have short := Nat.mod_lt (pindex.nHeight + 1) checker.Period_pos
    have bounded := Nat.mod_le (pindex.nHeight + 1) checker.Period
    rw [walkBack_eq_none skips (by omega),thresholdState,thresholdState,Nat.div_eq_of_lt (by omega)]
    rfl

/-- The state after the end of a period is the transition, at that block, from
    the state after the end of the period before. -/
theorem thresholdState_step {pindex : CBlockIndex} (skips : SkipsBack pindex)
    (ends : (pindex.nHeight + 1) % checker.Period = 0) :
    thresholdState checker (some pindex) =
      transition checker (thresholdState checker (pindex.walkBack checker.Period)) pindex := by
  have division := Nat.mod_add_div (pindex.nHeight + 1) checker.Period
  obtain ⟨periods,counted⟩ : ∃ periods, (pindex.nHeight + 1) / checker.Period = periods + 1 :=
    Nat.exists_eq_succ_of_ne_zero (by intro zero; rw [zero] at division; omega)
  rw [counted,ends,Nat.zero_add,Nat.mul_succ] at division
  have before : thresholdState checker (pindex.walkBack checker.Period) = stateAfterPeriods checker pindex periods := by
    by_cases first : periods = 0
    · -- the first period: nothing before it
      subst first
      rw [walkBack_eq_none skips (by omega)]
      rfl
    · have within : checker.Period ≤ pindex.nHeight := by
        have := Nat.mul_le_mul_left checker.Period (Nat.one_le_iff_ne_zero.mpr first)
        omega
      obtain ⟨above,walk,height,-⟩ := walkBack_of_le skips within
      have counted' : (above.nHeight + 1) / checker.Period = periods := by
        rw [show above.nHeight + 1 = checker.Period * periods by omega,Nat.mul_div_cancel_left _ checker.Period_pos]
      rw [walk,thresholdState,counted']
      exact stateAfterPeriods_walkBack skips walk _ (by rw [Nat.mul_comm]; omega)
  rw [before,thresholdState,counted,stateAfterPeriods,
    show pindex.nHeight + 1 - (periods + 1) * checker.Period = 0 by rw [Nat.succ_mul,Nat.mul_comm]; omega]
  rfl

/-- A block before the start time, on a chain whose median time past does not
    decrease, is in `DEFINED`: no period end below it reached the start time,
    nor a timeout not before it. -/
theorem thresholdState_before_start {pindex : CBlockIndex} (monotone : MTPMonotone pindex)
    (ordered : checker.BeginTime ≤ checker.EndTime) (before : pindex.GetMedianTimePast < checker.BeginTime) :
    thresholdState checker (some pindex) = .DEFINED := by
  have stays : ∀ periods, stateAfterPeriods checker pindex periods = .DEFINED := by
    intro periods
    induction periods with
    | zero => rfl
    | succ periods ih =>
      simp only [stateAfterPeriods]
      split
      · rename_i pindexEnd walk
        have earlier := GetMedianTimePast_le_of_walkBack monotone walk
        rw [ih,transition,if_neg (by omega),if_neg (by omega)]
      · rfl
  exact stays _


/-! ## The cache -/

theorem CacheValid.update {cache : ThresholdConditionCache} (valid : CacheValid checker cache)
    {pindexPrev : Option CBlockIndex} {state : ThresholdState} (defined : state = thresholdState checker pindexPrev) :
    CacheValid checker (Function.update cache pindexPrev (some state)) := by
  intro key state' found
  by_cases same : key = pindexPrev
  · subst same
    rw [Function.update_self,Option.some_inj] at found
    rw [← found,defined]
  · rw [Function.update_of_ne same] at found
    exact valid key state' found

/-- The forward walk over blocks that climb from `pindexPrev` returns the state
    of the last, from the state of `pindexPrev`, and writes only the states
    BIP9 defines. -/
theorem computeForward_climbs :
    ∀ (vToCompute : List CBlockIndex) {pindexPrev target : Option CBlockIndex} {cache : ThresholdConditionCache},
      CacheValid checker cache → Climbs checker pindexPrev vToCompute target →
      ∃ cache', computeForward checker (thresholdState checker pindexPrev) cache vToCompute =
        .ok (thresholdState checker target,cache') ∧ CacheValid checker cache'
  | [], _, _, cache, valid, climbs => ⟨cache,by rw [climbs]; rfl,valid⟩
  | pindex :: vToCompute, _, _, _, valid, ⟨below,ends,skips,climbs⟩ => by
    have full : checker.Period ≤ pindex.nHeight + 1 :=
      Nat.le_of_dvd (Nat.succ_pos _) (Nat.dvd_of_mod_eq_zero ends)
    -- the step computes the state of `pindex`, which is written before the rest
    have next : stateNext checker (thresholdState checker (pindex.walkBack checker.Period)) pindex =
        .ok (thresholdState checker (some pindex)) := by
      rw [stateNext_eq skips full,thresholdState_step skips ends]
    obtain ⟨cache',forward,valid'⟩ := computeForward_climbs vToCompute (valid.update rfl) climbs
    refine ⟨cache',?_,valid'⟩
    rw [computeForward,← below,next,Guards.ok_bind,forward]


/-- The last block of a period a period below a period end ends a period. -/
theorem periodEnd_walkBack {pindex below : CBlockIndex} (skips : SkipsBack pindex)
    (ends : (pindex.nHeight + 1) % checker.Period = 0) (walk : pindex.walkBack checker.Period = some below) :
    (below.nHeight + 1) % checker.Period = 0 := by
  obtain ⟨fits,height⟩ := nHeight_of_walkBack skips walk
  rw [height,← Nat.sub_add_comm fits]
  exact Nat.mod_eq_zero_of_dvd (Nat.dvd_sub (Nat.dvd_of_mod_eq_zero ends) (Nat.dvd_refl _))

/-- The walk back from a period end on a chain reaches a block whose state the
    cache holds, and the blocks it passed climb from there: it writes only the
    states BIP9 defines, where the start time is not after the timeout. -/
theorem walkBackPeriods_climbs (ordered : checker.BeginTime ≤ checker.EndTime) {cache : ThresholdConditionCache}
    (valid : CacheValid checker cache) {target : Option CBlockIndex} (vToCompute : List CBlockIndex)
    (pindexPrev : Option CBlockIndex) (chain : OnChain pindexPrev)
    (ends : ∀ pindex, pindexPrev = some pindex → (pindex.nHeight + 1) % checker.Period = 0)
    (climbs : Climbs checker pindexPrev vToCompute target) :
    ∃ base vToCompute' cache', walkBackPeriods checker cache vToCompute pindexPrev = .ok (base,vToCompute',cache') ∧
      Climbs checker base vToCompute' target ∧ CacheValid checker cache' ∧ (cache' base).isSome := by
  fun_induction walkBackPeriods checker cache vToCompute pindexPrev with
  | case1 vToCompute pindexPrev cached => exact ⟨_,_,_,rfl,climbs,valid,cached⟩
  | case2 vToCompute => exact ⟨_,_,_,rfl,climbs,valid.update rfl,by simp⟩
  | case3 vToCompute pindex early =>
    -- the shortcut: every period end below is before the start time too
    have defined := thresholdState_before_start (chain pindex rfl).2 ordered early
    exact ⟨_,_,_,rfl,climbs,valid.update defined.symm,by simp⟩
  | case4 vToCompute pindex _ next ancestor _ ih =>
    have skips := (chain pindex rfl).1
    rw [GetAncestor_sub skips,Except.ok.injEq] at ancestor
    subst ancestor
    refine ih (chain.walkBack _) (fun below walk => periodEnd_walkBack skips (ends pindex rfl) walk) ?_
    exact ⟨rfl,ends pindex rfl,skips,climbs⟩
  | case5 vToCompute pindex _ e ancestor =>
    rw [GetAncestor_sub (chain pindex rfl).1] at ancestor
    cases ancestor


/-- The last block of the period before a block: its state is the block's,
    and it ends a period. -/
theorem periodEnd_of_block {pindex : CBlockIndex} (skips : SkipsBack pindex) :
    ∀ start, pindex.walkBack ((pindex.nHeight + 1) % checker.Period) = some start →
      (start.nHeight + 1) % checker.Period = 0 := by
  intro start walk
  obtain ⟨fits,height⟩ := nHeight_of_walkBack skips walk
  rw [height,← Nat.sub_add_comm fits]
  exact Nat.mod_eq_zero_of_dvd (Nat.dvd_sub_mod _)

/-- One call of `GetStateFor` on a valid cache, for a deployment that starts at
    a time not after its timeout, returns the state BIP9 defines and leaves a
    valid cache. -/
theorem GetStateFor_eq (timed : checker.BeginTime ≠ ALWAYS_ACTIVE) (ordered : checker.BeginTime ≤ checker.EndTime)
    {cache : ThresholdConditionCache} (valid : CacheValid checker cache) {pindexPrev : Option CBlockIndex}
    (chain : OnChain pindexPrev) :
    ∃ cache', GetStateFor checker pindexPrev cache = .ok (thresholdState checker pindexPrev,cache') ∧
      CacheValid checker cache' := by
  -- the source first moves to the last block of the period before
  obtain ⟨start,first,same,chain',ends⟩ : ∃ start,
      (match pindexPrev with
        | some pindex => pindex.GetAncestor (pindex.nHeight - ((pindex.nHeight + 1) % checker.Period : Nat))
        | none => pure none) = .ok start ∧
      thresholdState checker pindexPrev = thresholdState checker start ∧ OnChain start ∧
      ∀ pindex, start = some pindex → (pindex.nHeight + 1) % checker.Period = 0 := by
    cases pindexPrev with
    | none => exact ⟨none,rfl,rfl,chain,nofun⟩
    | some pindex =>
      have skips := (chain pindex rfl).1
      exact ⟨_,GetAncestor_sub skips _,thresholdState_periodEnd skips,chain.walkBack _,periodEnd_of_block skips⟩
  obtain ⟨base,vToCompute,cache',walk,climbs,valid',cached⟩ :=
    walkBackPeriods_climbs ordered valid [] start chain' ends rfl
  obtain ⟨state,found⟩ := Option.isSome_iff_exists.mp cached
  have defined := valid' base state found
  obtain ⟨cache'',forward,valid''⟩ := computeForward_climbs vToCompute valid' climbs
  refine ⟨cache'',?_,valid''⟩
  rw [GetStateFor,if_neg timed,same]
  -- the join point of the source's two ways to the period end
  cases pindexPrev with
  | none =>
    cases first
    simp only [pure,Except.pure,Guards.ok_bind,walk,found,defined,forward]
  | some pindex =>
    simp only at first
    simp only [first,Guards.ok_bind,walk,found,defined,forward]

/-- Calls of `GetStateFor` one after the other from a valid cache return the
    states BIP9 defines; the induction is on the calls, with the valid cache as
    the invariant. -/
theorem runGetStateFor_eq (timed : checker.BeginTime ≠ ALWAYS_ACTIVE) (ordered : checker.BeginTime ≤ checker.EndTime) :
    ∀ (queries : List (Option CBlockIndex)) {cache : ThresholdConditionCache}, CacheValid checker cache →
      (∀ pindexPrev ∈ queries, OnChain pindexPrev) →
      ∃ cache', runGetStateFor checker cache queries = .ok (queries.map (thresholdState checker),cache') ∧
        CacheValid checker cache'
  | [], cache, valid, _ => ⟨cache,rfl,valid⟩
  | pindexPrev :: queries, _, valid, chains => by
    obtain ⟨cache',call,valid'⟩ := GetStateFor_eq timed ordered valid (chains pindexPrev List.mem_cons_self)
    obtain ⟨cache'',rest,valid''⟩ :=
      runGetStateFor_eq timed ordered queries valid' fun q mem => chains q (List.mem_cons_of_mem _ mem)
    refine ⟨cache'',?_,valid''⟩
    rw [runGetStateFor,call,Guards.ok_bind]
    simp only [rest,Guards.ok_bind,List.map_cons]
    rfl

theorem cacheValid_emptyCache : CacheValid checker emptyCache := nofun


/-- For a deployment that starts at a time not after its timeout, `GetStateFor`
    on the cache that earlier calls left, on blocks of any branches, returns the
    state BIP9 defines, and every entry of the cache after it is the state BIP9
    defines for its block. -/
theorem GetStateFor_memoisation_sound (timed : checker.BeginTime ≠ ALWAYS_ACTIVE)
    (ordered : checker.BeginTime ≤ checker.EndTime) (earlier : List (Option CBlockIndex)) (pindexPrev : Option CBlockIndex)
    (chains : ∀ query ∈ pindexPrev :: earlier, ∀ pindex, query = some pindex → WellFormed pindex ∧ MTPMonotone pindex) :
    ∃ cache cache', runGetStateFor checker emptyCache earlier = .ok (earlier.map (thresholdState checker),cache) ∧
      GetStateFor checker pindexPrev cache = .ok (thresholdState checker pindexPrev,cache') ∧
      ∀ pindex state, cache' pindex = some state → state = thresholdState checker pindex := by
  have onChain : ∀ query ∈ pindexPrev :: earlier, OnChain query := by
    intro query mem pindex found
    obtain ⟨wf,monotone⟩ := chains query mem pindex found
    exact ⟨skipsBack_of_wellFormed wf,monotone⟩
  obtain ⟨cache,run,valid⟩ := runGetStateFor_eq timed ordered earlier cacheValid_emptyCache
    fun query mem => onChain query (List.mem_cons_of_mem _ mem)
  obtain ⟨cache',call,valid'⟩ := GetStateFor_eq timed ordered valid (onChain pindexPrev List.mem_cons_self)
  exact ⟨cache,cache',run,call,valid'⟩

end

/-- A deployment of period one, from time 0 to time 100, that every block signals. -/
def everyBlockChecker : AbstractThresholdConditionChecker := ⟨fun _ => true,0,100,1,1,Nat.one_pos⟩

theorem GetStateFor_memoisation_sound_on_first_block :
    everyBlockChecker.BeginTime ≠ ALWAYS_ACTIVE ∧ everyBlockChecker.BeginTime ≤ everyBlockChecker.EndTime ∧
    (∀ query ∈ [some firstBlockIndex,some firstBlockIndex], ∀ pindex, query = some pindex →
      WellFormed pindex ∧ MTPMonotone pindex) ∧
    ∃ cache cache', runGetStateFor everyBlockChecker emptyCache [some firstBlockIndex] =
        .ok ([some firstBlockIndex].map (thresholdState everyBlockChecker),cache) ∧
      GetStateFor everyBlockChecker (some firstBlockIndex) cache =
        .ok (thresholdState everyBlockChecker (some firstBlockIndex),cache') ∧
      ∀ pindex state, cache' pindex = some state → state = thresholdState everyBlockChecker pindex := by
  have first : WellFormed firstBlockIndex ∧ MTPMonotone firstBlockIndex :=
    ⟨wellFormed_firstBlockIndex,MTPMonotone.of_pprev rfl (MTPMonotone.of_root rfl) (by decide)⟩
  have chains : ∀ query ∈ [some firstBlockIndex,some firstBlockIndex], ∀ pindex, query = some pindex →
      WellFormed pindex ∧ MTPMonotone pindex := by
    intro query mem pindex found
    simp only [List.mem_cons,List.not_mem_nil,or_false,or_self] at mem
    rw [mem,Option.some_inj] at found
    exact found ▸ first
  exact ⟨by decide,by decide,chains,GetStateFor_memoisation_sound (by decide) (by decide) _ _ chains⟩

/-- An always-active deployment of period one that no block signals. -/
def alwaysActiveChecker : AbstractThresholdConditionChecker := ⟨fun _ => false,ALWAYS_ACTIVE,5,1,1,Nat.one_pos⟩

/-- A deployment of period one that starts at time 10, after its timeout at 5. -/
def lateStartChecker : AbstractThresholdConditionChecker := ⟨fun _ => false,10,5,1,1,Nat.one_pos⟩

/-- A genesis entry at time 7: after the timeout of `lateStartChecker`, before its start. -/
def genesisAtSeven : CBlockIndex := genesisIndex default 4 7

/-- Off the schedule, `GetStateFor` and the states BIP9 defines part: an
    always-active deployment answers `ACTIVE` before genesis, where the
    definition is `DEFINED`; and a start after the timeout lets the shortcut at
    a block before the start time answer and cache `DEFINED` where the timeout
    has passed and the definition has failed. -/
theorem GetStateFor_off_schedule :
    (GetStateFor alwaysActiveChecker none emptyCache = .ok (.ACTIVE,emptyCache) ∧
      thresholdState alwaysActiveChecker none = .DEFINED) ∧
    (GetStateFor lateStartChecker (some genesisAtSeven) emptyCache =
        .ok (.DEFINED,Function.update emptyCache (some genesisAtSeven) (some .DEFINED)) ∧
      thresholdState lateStartChecker (some genesisAtSeven) = .FAILED) := by
  refine ⟨⟨rfl,rfl⟩,?_,by decide⟩
  have skips : SkipsBack genesisAtSeven := ⟨rfl,rfl⟩
  have walk : walkBackPeriods lateStartChecker emptyCache [] (some genesisAtSeven) =
      .ok (some genesisAtSeven,[],Function.update emptyCache (some genesisAtSeven) (some .DEFINED)) := by
    rw [walkBackPeriods,if_neg (by decide),if_pos (by decide)]
  rw [GetStateFor,if_neg (by decide)]
  have start : genesisAtSeven.walkBack ((genesisAtSeven.nHeight + 1) % lateStartChecker.Period) = some genesisAtSeven :=
    rfl
  simp only [GetAncestor_sub skips,start,Guards.ok_bind,walk,Function.update_self]
  rfl

end BitcoinPrivate.Chain
