import BitcoinPrivate.Validation.ConnectBlock

/-!
The view `AcceptToMemoryPoolWorker` of `validation.cpp` gives
`Consensus::CheckTxInputs`: a cache over the dummy `CCoinsView`, into which the
inputs' coins were first fetched through `CCoinsViewMemPool`. Whatever the cache
has not fetched, the dummy answers: no anchor, no spent nullifier.
-/
namespace BitcoinPrivate
open FiniteMap

/-- `CCoinsView`: the view of nothing. `BatchWrite` returns `false` there and
    changes nothing. -/
def CCoinsViewMethods.dummy : CCoinsViewMethods Unit where
  GetCoin _ _ := (none,())
  GetNullifier _ _ := (false,())
  GetAnchorAt _ _ := (none,())
  GetBestBlock _ := (default,())
  GetBestAnchor _ := (default,())
  BatchWrite _ _ _ _ _ _ := .ok ()

def MEMPOOL_HEIGHT : Nat := 0x7FFFFFFF

/-- `CCoinsViewMemPool` over `base`: an output of a transaction in the pool is a
    coin of height `MEMPOOL_HEIGHT`, any other outpoint is the base's. -/
def CCoinsViewMemPool {σ : Type} (base : CCoinsViewMethods σ) (GetHash : CTransaction → uint256)
    (mempool : List CTransaction) : CCoinsViewMethods σ :=
  { base with
    GetCoin := fun b outpoint =>
      match mempool.find? (GetHash · = outpoint.hash) with
      | some ptx => ((ptx.vout[outpoint.n.toNat]?).map (⟨·,false,MEMPOOL_HEIGHT⟩),b)
      | none => base.GetCoin b outpoint }

section

variable {σ : Type} (base : CCoinsViewMethods σ)

/-- The "do all inputs exist?" loop: each input's coin fetched into the cache;
    `none` where one is missing, when the source returns. -/
def fetchInputs (cache : CCoinsViewCache) (b : σ) : List CTxIn → Option (CCoinsViewCache × σ)
  | [] => some (cache,b)
  | txin :: rest =>
    match cache.HaveCoin base txin.prevout b with
    | (true,cache,b) => fetchInputs cache b rest
    | (false,_,_) => none

/-- `AcceptToMemoryPoolWorker` from its view's setup to `Consensus::CheckTxInputs`,
    with `base` the `CCoinsViewMemPool` and `nSpendHeight` what `GetSpendHeight(view)`
    returns; `none` where inputs are missing. -/
def memPoolCheckTxInputs (combine : uint256 → uint256 → uint256) (b : σ) (nSpendHeight : Int)
    (fCoinbaseMustBeProtected : Bool) (forkStartHeight forkHeightRange : Nat) (tx : CTransaction) :
    Option (Except String CAmount) := do
  let (cache,b) ← fetchInputs base CCoinsViewCache.empty b tx.vin
  -- bring the best block into scope, then switch the backend to the dummy
  let (_,cache,_) := cache.GetBestBlock base b
  pure (Consensus.CheckTxInputs combine tx (cache.view CCoinsViewMethods.dummy ()) nSpendHeight
    fCoinbaseMustBeProtected forkStartHeight forkHeightRange)

/-- Fetching a coin changes only the coins, and keeps every entry already there. -/
theorem FetchCoin_frame (cache : CCoinsViewCache) (b : σ) (o : COutPoint) :
    (cache.FetchCoin base o b).2.1.cacheAnchors = cache.cacheAnchors ∧
      (cache.FetchCoin base o b).2.1.cacheNullifiers = cache.cacheNullifiers ∧
      ∀ o' entry, cache.cacheCoins.lookup o' = some entry → (cache.FetchCoin base o b).2.1.cacheCoins.lookup o' = some entry := by
  unfold CCoinsViewCache.FetchCoin
  cases cached : cache.cacheCoins.lookup o with
  | some entry => exact ⟨rfl,rfl,fun _ _ found => found⟩
  | none =>
    cases base.GetCoin b o with
    | mk coin b' =>
      cases coin with
      | none => exact ⟨rfl,rfl,fun _ _ found => found⟩
      | some tmp =>
        refine ⟨rfl,rfl,fun o' entry found => ?_⟩
        have other : o' ≠ o := by
          rintro rfl
          rw [cached] at found
          cases found
        simp [other,found]

theorem FetchCoin_lookup {cache : CCoinsViewCache} {b : σ} {o : COutPoint} {entry : CCoinsCacheEntry}
    (found : (cache.FetchCoin base o b).1 = some entry) : (cache.FetchCoin base o b).2.1.cacheCoins.lookup o = some entry := by
  revert found
  unfold CCoinsViewCache.FetchCoin
  cases cached : cache.cacheCoins.lookup o with
  | some entry' =>
    rintro ⟨⟩
    exact cached
  | none =>
    cases base.GetCoin b o with
    | mk coin b' =>
      cases coin with
      | none => rintro ⟨⟩
      | some tmp =>
        rintro ⟨⟩
        simp

/-- After the loop, every input has an unspent coin in the cache, the entries
    already there are kept, and nothing but coins was fetched. -/
theorem fetchInputs_spec :
    ∀ {vin : List CTxIn} {cache cache' : CCoinsViewCache} {b b' : σ}, fetchInputs base cache b vin = some (cache',b') →
      cache'.cacheAnchors = cache.cacheAnchors ∧ cache'.cacheNullifiers = cache.cacheNullifiers ∧
        (∀ o entry, cache.cacheCoins.lookup o = some entry → cache'.cacheCoins.lookup o = some entry) ∧
        ∀ txin ∈ vin, ∃ entry, cache'.cacheCoins.lookup txin.prevout = some entry ∧ entry.coin.IsSpent = false
  | [], cache, cache', b, b', done => by
    cases done
    exact ⟨rfl,rfl,fun _ _ found => found,by simp⟩
  | txin :: rest, cache, cache', b, b', done => by
    rw [fetchInputs,CCoinsViewCache.HaveCoin_eq] at done
    obtain ⟨anchors,nullifiers,keeps⟩ := FetchCoin_frame base cache b txin.prevout
    cases fetched : cache.FetchCoin base txin.prevout b with
    | mk it after =>
      obtain ⟨fetchedCache,fetchedState⟩ := after
      rw [fetched] at done anchors nullifiers keeps
      cases it with
      | none => cases done
      | some entry =>
        cases unspent : entry.coin.IsSpent with
        | true => simp [unspent] at done
        | false =>
          simp only [Option.any_some,unspent,Bool.not_false] at done
          obtain ⟨anchors',nullifiers',keeps',inputs⟩ := fetchInputs_spec done
          have found : (cache.FetchCoin base txin.prevout b).1 = some entry := by rw [fetched]
          have cached := FetchCoin_lookup base found
          rw [fetched] at cached
          refine ⟨anchors'.trans anchors,nullifiers'.trans nullifiers,fun o e found => keeps' o e (keeps o e found),?_⟩
          intro input mem
          rcases List.mem_cons.mp mem with rfl | later
          · exact ⟨entry,keeps' _ _ cached,unspent⟩
          · exact inputs input later

theorem GetBestBlock_frame (cache : CCoinsViewCache) (b : σ) :
    (cache.GetBestBlock base b).2.1.cacheCoins = cache.cacheCoins ∧
      (cache.GetBestBlock base b).2.1.cacheAnchors = cache.cacheAnchors ∧
      (cache.GetBestBlock base b).2.1.cacheNullifiers = cache.cacheNullifiers := by
  unfold CCoinsViewCache.GetBestBlock
  split <;> exact ⟨rfl,rfl,rfl⟩

theorem view_GetCoin_of_lookup {cache : CCoinsViewCache} {b : σ} {o : COutPoint} {entry : CCoinsCacheEntry}
    (cached : cache.cacheCoins.lookup o = some entry) : (cache.view base b).GetCoin o = entry.coin.asUnspent := by
  simp [CCoinsViewCache.view,CCoinsViewCache.GetCoin_eq,CCoinsViewCache.FetchCoin,cached]

end

/-- Over the dummy, a cache without anchor entries has no anchor. -/
theorem dummy_view_GetAnchorAt {cache : CCoinsViewCache} (noAnchors : cache.cacheAnchors = ∅) (rt : uint256) :
    (cache.view CCoinsViewMethods.dummy ()).GetAnchorAt rt = none := by
  simp [CCoinsViewCache.view,CCoinsViewCache.GetAnchorAt,noAnchors,CCoinsViewMethods.dummy]

/-- The first joinsplit's anchor is looked up in the view, which has none. -/
theorem CCoinsView.HaveJoinSplitRequirements_of_no_anchors (combine : uint256 → uint256 → uint256) {view : CCoinsView}
    (noAnchors : ∀ rt, view.GetAnchorAt rt = none) {tx : CTransaction} (shielded : tx.vjoinsplit ≠ []) :
    view.HaveJoinSplitRequirements combine tx = .ok false := by
  obtain ⟨joinsplit,rest,split⟩ := List.exists_cons_of_ne_nil shielded
  unfold CCoinsView.HaveJoinSplitRequirements
  rw [split,CCoinsView.joinSplitRequirements]
  split
  · rfl
  · simp [noAnchors]

theorem CheckTxInputs_requirements_unmet (combine : uint256 → uint256 → uint256) {tx : CTransaction}
    {inputs : CCoinsView} (present : inputs.HaveInputs tx = true)
    (unmet : inputs.HaveJoinSplitRequirements combine tx = .ok false) (nSpendHeight : Int)
    (fCoinbaseMustBeProtected : Bool) (forkStartHeight forkHeightRange : Nat) :
    Consensus.CheckTxInputs combine tx inputs nSpendHeight fCoinbaseMustBeProtected forkStartHeight forkHeightRange =
      .error "CheckInputs(): JoinSplit requirements not met" := by
  simp only [Consensus.CheckTxInputs,present,unmet]
  rfl

/-- Whatever the pool and the tip, the `CheckTxInputs` of mempool admission
    refuses every transaction with a joinsplit whose inputs it found: the
    anchor lookup reaches the dummy. -/
theorem mempool_refuses_every_joinsplit {σ : Type} (base : CCoinsViewMethods σ) (combine : uint256 → uint256 → uint256)
    (b : σ) (nSpendHeight : Int) (fCoinbaseMustBeProtected : Bool) (forkStartHeight forkHeightRange : Nat)
    (tx : CTransaction) (shielded : tx.vjoinsplit ≠ []) :
    ∀ result ∈ memPoolCheckTxInputs base combine b nSpendHeight fCoinbaseMustBeProtected forkStartHeight forkHeightRange tx,
      result = .error "CheckInputs(): JoinSplit requirements not met" := by
  intro result admitted
  unfold memPoolCheckTxInputs at admitted
  cases fetched : fetchInputs base CCoinsViewCache.empty b tx.vin with
  | none => simp [fetched] at admitted
  | some after =>
    obtain ⟨cache,b'⟩ := after
    obtain ⟨anchors,-,-,inputs⟩ := fetchInputs_spec base fetched
    obtain ⟨coins,anchors',-⟩ := GetBestBlock_frame base cache b'
    rw [Option.mem_def,fetched] at admitted
    set view := (cache.GetBestBlock base b').2.1.view CCoinsViewMethods.dummy ()
    have checked : some (Consensus.CheckTxInputs combine tx view nSpendHeight fCoinbaseMustBeProtected forkStartHeight
        forkHeightRange) = some result := admitted
    rw [← Option.some.inj checked]
    have present : view.HaveInputs tx = true := by
      have each : ∀ txin ∈ tx.vin, view.HaveCoin txin.prevout = true := by
        intro txin mem
        obtain ⟨entry,cached,unspent⟩ := inputs txin mem
        rw [← coins] at cached
        have coin := view_GetCoin_of_lookup CCoinsViewMethods.dummy (b := ()) cached
        simp [CCoinsView.HaveCoin,CCoinsView.AccessCoin,view,coin,Coin.asUnspent,unspent]
      simp [CCoinsView.HaveInputs,List.all_eq_true.mpr each]
    have noAnchors : ∀ rt, view.GetAnchorAt rt = none :=
      dummy_view_GetAnchorAt (anchors'.trans anchors)
    exact CheckTxInputs_requirements_unmet combine present
      (CCoinsView.HaveJoinSplitRequirements_of_no_anchors combine noAnchors shielded) _ _ _ _

/-- The pool of the examples: empty, over the tip cache over the chainstate database. -/
def examplePool : CCoinsViewMethods (CCoinsViewCache × CCoinsViewDB) :=
  CCoinsViewMemPool (CCoinsViewCache.methods (CCoinsViewDB.methods toyCombine 0 fun _ => 1)) replayEnv.GetHash []

/-- Without the dummy, the admission cache after genesis answers as the
    chainstate after genesis. -/
theorem examplePool_view :
    CCoinsViewCache.empty.view examplePool (CCoinsViewCache.empty,chainstateAfterGenesis) =
      genesisView toyCombine (hashOf 0xa0) := by
  unfold CCoinsViewCache.view genesisView
  simp only [CCoinsView.mk.injEq]
  refine ⟨funext fun o => ?_,funext fun nf => ?_,funext fun rt => ?_,rfl,rfl⟩
  all_goals simp [CCoinsViewCache.GetCoin,CCoinsViewCache.FetchCoin,CCoinsViewCache.GetNullifier,
    CCoinsViewCache.GetAnchorAt,CCoinsViewCache.empty,examplePool,CCoinsViewMemPool,CCoinsViewCache.methods,
    CCoinsViewDB.methods,CCoinsViewDB.GetCoin,CCoinsViewDB.GetNullifier,CCoinsViewDB.GetAnchorAt,
    chainstateAfterGenesis,CCoinsViewDB.empty]
  -- the anchor is the empty root's tree or none, as the database answers
  split_ifs <;> rfl

theorem mempool_refuses_joinsplit_after_genesis :
    memPoolCheckTxInputs examplePool toyCombine (CCoinsViewCache.empty,chainstateAfterGenesis) 1 false 272991 2
        (unauthorizedJoinSplit (ZCIncrementalMerkleTree.empty_root toyCombine)) =
      some (.error "CheckInputs(): JoinSplit requirements not met") ∧
    Consensus.CheckTxInputs toyCombine (unauthorizedJoinSplit (ZCIncrementalMerkleTree.empty_root toyCombine))
        (CCoinsViewCache.empty.view examplePool (CCoinsViewCache.empty,chainstateAfterGenesis)) 1 false 272991 2 = .ok 0 := by
  have refused := mempool_refuses_every_joinsplit examplePool toyCombine (CCoinsViewCache.empty,chainstateAfterGenesis) 1
    false 272991 2 (unauthorizedJoinSplit (ZCIncrementalMerkleTree.empty_root toyCombine)) (by simp [unauthorizedJoinSplit])
  obtain ⟨result,admitted⟩ : ∃ result, memPoolCheckTxInputs examplePool toyCombine (CCoinsViewCache.empty,chainstateAfterGenesis)
      1 false 272991 2 (unauthorizedJoinSplit (ZCIncrementalMerkleTree.empty_root toyCombine)) = some result := ⟨_,rfl⟩
  refine ⟨admitted.trans (congrArg some (refused result admitted)),?_⟩
  rw [examplePool_view]
  simp only [Consensus.CheckTxInputs,HaveJoinSplitRequirements_unauthorizedJoinSplit]
  rfl

end BitcoinPrivate
