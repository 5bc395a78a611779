import BitcoinPrivate.Coins.CoinsView
import BitcoinPrivate.Library.FiniteMap

/-!
`CCoinsViewCache` of `coins.h` and `coins.cpp`: a layer of cached coins, anchors
and nullifiers over a base view. A miss is fetched from the base and cached; a
change is marked `DIRTY` and kept until `Flush` writes it into the base with
`BatchWrite`; a coin the base is known not to have is marked `FRESH`, so that
spending it needs no write at all.

The cache reaches its base through the virtual methods of `CCoinsView`, here
`CCoinsViewMethods σ` over the base's state `σ`. A query passes that state on,
since a base that is itself a cache fills its own maps when it answers (the
source's `const` methods change `mutable` members). A cache is in turn a base for
the layer above it, so a stack of `n` caches over a base is `Layers σ n` with the
methods `stackMethods base n`, each layer's base being the stack below it.
The `unordered_map`s are association lists; `cachedCoinsUsage`, which only
measures memory, is left out.
-/
namespace BitcoinPrivate

/-- `CCoinsCacheEntry`, with the two bits of `flags` as fields. -/
structure CCoinsCacheEntry where
  coin : Coin
  DIRTY : Bool
  FRESH : Bool
  deriving DecidableEq, Repr

/-- `CAnchorsCacheEntry`; its only flag is `DIRTY`. -/
structure CAnchorsCacheEntry where
  entered : Bool
  tree : ZCIncrementalMerkleTree
  DIRTY : Bool
  deriving DecidableEq, Repr

/-- `CNullifiersCacheEntry`; its only flag is `DIRTY`. -/
structure CNullifiersCacheEntry where
  entered : Bool
  DIRTY : Bool
  deriving DecidableEq, Repr

/-- `CCoinsCacheEntry()`. -/
def CCoinsCacheEntry.empty : CCoinsCacheEntry := ⟨Coin.empty,false,false⟩

/-- `CAnchorsCacheEntry()`, with the empty tree. -/
def CAnchorsCacheEntry.empty : CAnchorsCacheEntry := ⟨false,Zcash.IncrementalMerkleTree.empty,false⟩

/-- `CNullifiersCacheEntry()`. -/
def CNullifiersCacheEntry.empty : CNullifiersCacheEntry := ⟨false,false⟩

abbrev CCoinsMap := AList fun _ : COutPoint => CCoinsCacheEntry
abbrev CAnchorsMap := AList fun _ : uint256 => CAnchorsCacheEntry
abbrev CNullifiersMap := AList fun _ : uint256 => CNullifiersCacheEntry

/-- What `GetCoin` reports of a coin: the coin when it is unspent. -/
def Coin.asUnspent (coin : Coin) : Option Coin := if coin.IsSpent then none else some coin

/-- The virtual methods of `CCoinsView` that a cache calls on its base, over the
    base's state `σ`. A `false` answer of `GetCoin` or `GetAnchorAt` is `none`;
    an assertion or exception in `BatchWrite` is an error. -/
structure CCoinsViewMethods (σ : Type) where
  GetCoin : σ → COutPoint → Option Coin × σ
  GetNullifier : σ → uint256 → Bool × σ
  GetAnchorAt : σ → uint256 → Option ZCIncrementalMerkleTree × σ
  GetBestBlock : σ → uint256 × σ
  GetBestAnchor : σ → uint256 × σ
  BatchWrite : σ → CCoinsMap → uint256 → uint256 → CAnchorsMap → CNullifiersMap → Except String σ

/-- The members of `CCoinsViewCache` other than `base` and `cachedCoinsUsage`. -/
structure CCoinsViewCache where
  hashBlock : uint256
  cacheCoins : CCoinsMap
  hashAnchor : uint256
  cacheAnchors : CAnchorsMap
  cacheNullifiers : CNullifiersMap

/-! ## What the loops of `BatchWrite` make of one entry

Each loop of `BatchWrite` runs over the child's map and changes the parent's at
the child's key only; these say what the parent's entry becomes. -/

/-- The coins loop. -/
def CCoinsCacheEntry.writeInto (child : CCoinsCacheEntry) (parent : Option CCoinsCacheEntry) :
    Except String (Option CCoinsCacheEntry) :=
  if !child.DIRTY then .ok parent
  else
    match parent with
    | none =>
      -- a fresh entry that is spent need not reach the parent at all
      if child.FRESH && child.coin.IsSpent then .ok parent
      else .ok (some ⟨child.coin,true,child.FRESH⟩)
    | some itUs =>
      if child.FRESH && !itUs.coin.IsSpent then
        .error "FRESH flag misapplied to cache entry for base transaction with spendable outputs"
      -- the grandparent does not have the coin, so the parent can forget it
      else if itUs.FRESH && child.coin.IsSpent then .ok none
      -- the child's FRESH is not copied: the parent's pruned state may still be owed upward
      else .ok (some { itUs with coin := child.coin, DIRTY := true })

/-- The anchors loop. -/
def CAnchorsCacheEntry.writeInto (child : CAnchorsCacheEntry) (parent : Option CAnchorsCacheEntry) :
    Except String (Option CAnchorsCacheEntry) :=
  if !child.DIRTY then .ok parent
  else
    match parent with
    | none => .ok (some ⟨child.entered,child.tree,true⟩)
    | some entry =>
      if entry.entered != child.entered then .ok (some { entry with entered := child.entered, DIRTY := true })
      else .ok parent

/-- The nullifiers loop. -/
def CNullifiersCacheEntry.writeInto (child : CNullifiersCacheEntry) (parent : Option CNullifiersCacheEntry) :
    Except String (Option CNullifiersCacheEntry) :=
  if !child.DIRTY then .ok parent
  else
    match parent with
    | none => .ok (some ⟨child.entered,true⟩)
    | some entry =>
      if entry.entered != child.entered then .ok (some { entry with entered := child.entered, DIRTY := true })
      else .ok parent

namespace CCoinsViewCache

/-- A new cache over a base: null hashes and empty maps. -/
def empty : CCoinsViewCache := ⟨default,∅,default,∅,∅⟩

variable {σ : Type} (base : CCoinsViewMethods σ)

/-- `FetchCoin`: the cached entry, or the base's coin, which is then cached. -/
def FetchCoin (outpoint : COutPoint) (cache : CCoinsViewCache) (b : σ) :
    Option CCoinsCacheEntry × CCoinsViewCache × σ :=
  match cache.cacheCoins.lookup outpoint with
  | some entry => (some entry,cache,b)
  | none =>
    match base.GetCoin b outpoint with
    | (none,b) => (none,cache,b)
    | (some tmp,b) =>
      -- a spent coin means the base only has an empty entry, so ours is fresh
      let entry : CCoinsCacheEntry := ⟨tmp,false,tmp.IsSpent⟩
      (some entry,{ cache with cacheCoins := cache.cacheCoins.insert outpoint entry },b)

/-- `GetCoin`. -/
def GetCoin (outpoint : COutPoint) (cache : CCoinsViewCache) (b : σ) : Option Coin × CCoinsViewCache × σ :=
  match cache.FetchCoin base outpoint b with
  | (some entry,cache,b) => (entry.coin.asUnspent,cache,b)
  | (none,cache,b) => (none,cache,b)

/-- `AccessCoin`: the cached coin, or the spent `coinEmpty`. -/
def AccessCoin (outpoint : COutPoint) (cache : CCoinsViewCache) (b : σ) : Coin × CCoinsViewCache × σ :=
  match cache.FetchCoin base outpoint b with
  | (some entry,cache,b) => (entry.coin,cache,b)
  | (none,cache,b) => (Coin.empty,cache,b)

/-- `HaveCoin`. -/
def HaveCoin (outpoint : COutPoint) (cache : CCoinsViewCache) (b : σ) : Bool × CCoinsViewCache × σ :=
  match cache.FetchCoin base outpoint b with
  | (some entry,cache,b) => (!entry.coin.IsSpent,cache,b)
  | (none,cache,b) => (false,cache,b)

/-- `HaveCoinInCache`: asks only this cache. -/
def HaveCoinInCache (outpoint : COutPoint) (cache : CCoinsViewCache) : Bool :=
  match cache.cacheCoins.lookup outpoint with
  | some entry => !entry.coin.IsSpent
  | none => false

/-- `SpendCoin`: the coin moved out, when there is an entry. A fresh entry is
    erased; any other is cleared and marked dirty. -/
def SpendCoin (outpoint : COutPoint) (cache : CCoinsViewCache) (b : σ) : Option Coin × CCoinsViewCache × σ :=
  match cache.FetchCoin base outpoint b with
  | (none,cache,b) => (none,cache,b)
  | (some entry,cache,b) =>
    if entry.FRESH then (some entry.coin,{ cache with cacheCoins := cache.cacheCoins.erase outpoint },b)
    else
      (some entry.coin,
        { cache with cacheCoins := cache.cacheCoins.insert outpoint { entry with coin := entry.coin.Clear, DIRTY := true } },b)

/-- `GetAnchorAt`: an entered cached tree, or the base's tree, which is then
    cached; an unentered entry hides the base's. -/
def GetAnchorAt (rt : uint256) (cache : CCoinsViewCache) (b : σ) :
    Option ZCIncrementalMerkleTree × CCoinsViewCache × σ :=
  match cache.cacheAnchors.lookup rt with
  | some entry => (if entry.entered then some entry.tree else none,cache,b)
  | none =>
    match base.GetAnchorAt b rt with
    | (none,b) => (none,cache,b)
    | (some tree,b) => (some tree,{ cache with cacheAnchors := cache.cacheAnchors.insert rt ⟨true,tree,false⟩ },b)

/-- `GetNullifier`: the cached answer, or the base's, which is then cached. -/
def GetNullifier (nullifier : uint256) (cache : CCoinsViewCache) (b : σ) : Bool × CCoinsViewCache × σ :=
  match cache.cacheNullifiers.lookup nullifier with
  | some entry => (entry.entered,cache,b)
  | none =>
    match base.GetNullifier b nullifier with
    | (tmp,b) => (tmp,{ cache with cacheNullifiers := cache.cacheNullifiers.insert nullifier ⟨tmp,false⟩ },b)

/-- `GetBestBlock`: a null hash is fetched from the base and kept. -/
def GetBestBlock (cache : CCoinsViewCache) (b : σ) : uint256 × CCoinsViewCache × σ :=
  if cache.hashBlock.IsNull then
    match base.GetBestBlock b with
    | (hashBlock,b) => (hashBlock,{ cache with hashBlock := hashBlock },b)
  else (cache.hashBlock,cache,b)

/-- `GetBestAnchor`: a null hash is fetched from the base and kept. -/
def GetBestAnchor (cache : CCoinsViewCache) (b : σ) : uint256 × CCoinsViewCache × σ :=
  if cache.hashAnchor.IsNull then
    match base.GetBestAnchor b with
    | (hashAnchor,b) => (hashAnchor,{ cache with hashAnchor := hashAnchor },b)
  else (cache.hashAnchor,cache,b)

/-- `PushAnchor`: the tree's root becomes the best anchor, entered with the tree,
    unless it already is the best anchor, as after a block without joinsplits. -/
def PushAnchor (combine : uint256 → uint256 → uint256) (tree : ZCIncrementalMerkleTree) (cache : CCoinsViewCache)
    (b : σ) : CCoinsViewCache × σ :=
  let newrt := tree.root combine INCREMENTAL_MERKLE_TREE_DEPTH []
  match cache.GetBestAnchor base b with
  | (currentRoot,cache,b) =>
    if currentRoot != newrt then
      ({ cache with cacheAnchors := cache.cacheAnchors.insert newrt ⟨true,tree,true⟩, hashAnchor := newrt },b)
    else (cache,b)

/-- `PopAnchor`: the best anchor is marked unentered and `newrt` becomes the best
    anchor, unless it already is. The best anchor's tree must be found, which the
    source asserts. -/
def PopAnchor (newrt : uint256) (cache : CCoinsViewCache) (b : σ) : Except String (CCoinsViewCache × σ) :=
  match cache.GetBestAnchor base b with
  | (currentRoot,cache,b) =>
    if currentRoot != newrt then
      match cache.GetAnchorAt base currentRoot b with
      | (none,_,_) => .error "Assertion GetAnchorAt(currentRoot, tree) failed"
      | (some _,cache,b) =>
        -- the entry that the lookup just brought into the cache
        let entry := (cache.cacheAnchors.lookup currentRoot).getD CAnchorsCacheEntry.empty
        .ok ({ cache with
          cacheAnchors := cache.cacheAnchors.insert currentRoot { entry with entered := false, DIRTY := true },
          hashAnchor := newrt },b)
    else .ok (cache,b)

/-- `SetNullifier`. -/
def SetNullifier (nullifier : uint256) (spent : Bool) (cache : CCoinsViewCache) : CCoinsViewCache :=
  let entry := (cache.cacheNullifiers.lookup nullifier).getD CNullifiersCacheEntry.empty
  { cache with cacheNullifiers := cache.cacheNullifiers.insert nullifier { entry with entered := spent, DIRTY := true } }

/-- `SetBestBlock`. -/
def SetBestBlock (hashBlockIn : uint256) (cache : CCoinsViewCache) : CCoinsViewCache :=
  { cache with hashBlock := hashBlockIn }

/-- `AddCoin`. A coin to an unspendable script is dropped. Without
    `possible_overwrite` the entry must be spent, and the coin is fresh when the
    entry was not dirty. -/
def AddCoin (outpoint : COutPoint) (coin : Coin) (possible_overwrite : Bool) (cache : CCoinsViewCache) :
    Except String CCoinsViewCache :=
  if coin.IsSpent then .error "Assertion !coin.IsSpent() failed"
  else if coin.out.scriptPubKey.IsUnspendable then .ok cache
  else
    let it := (cache.cacheCoins.lookup outpoint).getD CCoinsCacheEntry.empty
    if !possible_overwrite && !it.coin.IsSpent then .error "Adding new coin that replaces non-pruned entry"
    else
      let fresh := !possible_overwrite && !it.DIRTY
      .ok { cache with cacheCoins := cache.cacheCoins.insert outpoint ⟨coin,true,it.FRESH || fresh⟩ }

/-- `Uncache`: drops an entry with no flags. -/
def Uncache (outpoint : COutPoint) (cache : CCoinsViewCache) : CCoinsViewCache :=
  match cache.cacheCoins.lookup outpoint with
  | some entry => if !entry.DIRTY && !entry.FRESH then { cache with cacheCoins := cache.cacheCoins.erase outpoint } else cache
  | none => cache

/-- `BatchWrite` into this cache from a child: the three loops, then the child's
    hashes, copied also when they are null. -/
def BatchWrite (cache : CCoinsViewCache) (mapCoins : CCoinsMap) (hashBlockIn hashAnchorIn : uint256)
    (mapAnchors : CAnchorsMap) (mapNullifiers : CNullifiersMap) : Except String CCoinsViewCache := do
  let cacheCoins ← FiniteMap.batch CCoinsCacheEntry.writeInto mapCoins.entries cache.cacheCoins
  let cacheAnchors ← FiniteMap.batch CAnchorsCacheEntry.writeInto mapAnchors.entries cache.cacheAnchors
  let cacheNullifiers ← FiniteMap.batch CNullifiersCacheEntry.writeInto mapNullifiers.entries cache.cacheNullifiers
  pure ⟨hashBlockIn,cacheCoins,hashAnchorIn,cacheAnchors,cacheNullifiers⟩

/-- `Flush`: write the maps and hashes into the base, then empty the maps; the
    hashes stay. -/
def Flush (cache : CCoinsViewCache) (b : σ) : Except String (CCoinsViewCache × σ) := do
  let b ← base.BatchWrite b cache.cacheCoins cache.hashBlock cache.hashAnchor cache.cacheAnchors cache.cacheNullifiers
  pure ({ cache with cacheCoins := ∅, cacheAnchors := ∅, cacheNullifiers := ∅ },b)

/-- A cache over `base`, as the base of the layer above it. -/
def methods : CCoinsViewMethods (CCoinsViewCache × σ) where
  GetCoin s outpoint := s.1.GetCoin base outpoint s.2
  GetNullifier s nullifier := s.1.GetNullifier base nullifier s.2
  GetAnchorAt s rt := s.1.GetAnchorAt base rt s.2
  GetBestBlock s := s.1.GetBestBlock base s.2
  GetBestAnchor s := s.1.GetBestAnchor base s.2
  BatchWrite s mapCoins hashBlock hashAnchor mapAnchors mapNullifiers :=
    (·,s.2) <$> s.1.BatchWrite mapCoins hashBlock hashAnchor mapAnchors mapNullifiers

end CCoinsViewCache

/-- The state of a stack of `n` caches over a base of state `σ`: the top cache
    and the stack below it. -/
def Layers (σ : Type) : Nat → Type
  | 0 => σ
  | n + 1 => CCoinsViewCache × Layers σ n

/-- The methods of a stack of `n` caches over `base`. -/
def stackMethods {σ : Type} (base : CCoinsViewMethods σ) : (n : Nat) → CCoinsViewMethods (Layers σ n)
  | 0 => base
  | n + 1 => CCoinsViewCache.methods (stackMethods base n)

end BitcoinPrivate
