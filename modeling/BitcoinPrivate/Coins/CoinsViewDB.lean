import BitcoinPrivate.Coins.Cache

/-!
`CCoinsViewDB` of `txdb.cpp`: the chainstate database under the caches. Each key
prefix is a map of its own: `DB_COIN`, `DB_ANCHOR`, `DB_NULLIFIER`, and the single
records `DB_BEST_BLOCK`, `DB_BEST_ANCHOR` and `DB_HEAD_BLOCKS`. A write is a list
of batches: `BatchWrite` cuts the coins into partial batches once the estimated
size passes `batch_size`, and the final batch carries the anchors, the
nullifiers and the best block and anchor. A batch is written whole or not at
all; a crash between two batches leaves the ones before it. The serialized size
of a key and value, which the size estimate counts, is the argument `opSize`.
-/
namespace BitcoinPrivate

/-- The records of the chainstate database. -/
structure CCoinsViewDB where
  coins : AList fun _ : COutPoint => Coin
  anchors : AList fun _ : uint256 => ZCIncrementalMerkleTree
  nullifiers : AList fun _ : uint256 => Bool
  bestBlock : Option uint256
  bestAnchor : Option uint256
  headBlocks : Option (List uint256)

/-- One write or erase of a `CDBBatch`. -/
inductive CDBBatchOp
  | WriteCoin (outpoint : COutPoint) (coin : Coin)
  | EraseCoin (outpoint : COutPoint)
  | WriteAnchor (rt : uint256) (tree : ZCIncrementalMerkleTree)
  | EraseAnchor (rt : uint256)
  | WriteNullifier (nf : uint256)
  | EraseNullifier (nf : uint256)
  | WriteBestBlock (hash : uint256)
  | EraseBestBlock
  | WriteBestAnchor (hash : uint256)
  | WriteHeadBlocks (hashes : List uint256)
  | EraseHeadBlocks
  deriving DecidableEq, Repr

namespace CCoinsViewDB

/-- A database with no records. -/
def empty : CCoinsViewDB := ⟨∅,∅,∅,none,none,none⟩

/-- One operation of a batch on the records. -/
def apply (db : CCoinsViewDB) : CDBBatchOp → CCoinsViewDB
  | .WriteCoin outpoint coin => { db with coins := db.coins.insert outpoint coin }
  | .EraseCoin outpoint => { db with coins := db.coins.erase outpoint }
  | .WriteAnchor rt tree => { db with anchors := db.anchors.insert rt tree }
  | .EraseAnchor rt => { db with anchors := db.anchors.erase rt }
  | .WriteNullifier nf => { db with nullifiers := db.nullifiers.insert nf true }
  | .EraseNullifier nf => { db with nullifiers := db.nullifiers.erase nf }
  | .WriteBestBlock hash => { db with bestBlock := some hash }
  | .EraseBestBlock => { db with bestBlock := none }
  | .WriteBestAnchor hash => { db with bestAnchor := some hash }
  | .WriteHeadBlocks hashes => { db with headBlocks := some hashes }
  | .EraseHeadBlocks => { db with headBlocks := none }

/-- `CDBWrapper::WriteBatch`. -/
def WriteBatch (db : CCoinsViewDB) (batch : List CDBBatchOp) : CCoinsViewDB := batch.foldl apply db

/-- The batches written one after the other. -/
def WriteBatches (db : CCoinsViewDB) (batches : List (List CDBBatchOp)) : CCoinsViewDB := batches.foldl WriteBatch db

variable (combine : uint256 → uint256 → uint256)

/-- `GetAnchorAt`: the empty root always has the empty tree. -/
def GetAnchorAt (db : CCoinsViewDB) (rt : uint256) : Option ZCIncrementalMerkleTree :=
  if rt = ZCIncrementalMerkleTree.empty_root combine then some Zcash.IncrementalMerkleTree.empty
  else db.anchors.lookup rt

def GetNullifier (db : CCoinsViewDB) (nf : uint256) : Bool := (db.nullifiers.lookup nf).isSome

def GetCoin (db : CCoinsViewDB) (outpoint : COutPoint) : Option Coin := db.coins.lookup outpoint

/-- `GetBestBlock`: `uint256()` when the record is missing, as it is in the
    middle of a write. -/
def GetBestBlock (db : CCoinsViewDB) : uint256 := db.bestBlock.getD default

/-- `GetBestAnchor`: the empty root when the record is missing. -/
def GetBestAnchor (db : CCoinsViewDB) : uint256 := db.bestAnchor.getD (ZCIncrementalMerkleTree.empty_root combine)

def GetHeadBlocks (db : CCoinsViewDB) : List uint256 := db.headBlocks.getD []

/-- The coins loop of `BatchWrite`: the operation of each dirty entry, and a
    partial batch written out whenever the estimate passes `batch_size`. It
    returns the batches written and the batch still open. -/
def coinBatches (batch_size : Nat) (opSize : CDBBatchOp → Nat) :
    List (Σ _ : COutPoint, CCoinsCacheEntry) → List CDBBatchOp → List (List CDBBatchOp) × List CDBBatchOp
  | [], batch => ([],batch)
  | ⟨outpoint,entry⟩ :: rest, batch =>
    let batch := if entry.DIRTY then
        batch ++ [if entry.coin.IsSpent then .EraseCoin outpoint else .WriteCoin outpoint entry.coin]
      else batch
    if batch_size < (batch.map opSize).sum then
      let (written,open_) := coinBatches batch_size opSize rest []
      (batch :: written,open_)
    else coinBatches batch_size opSize rest batch

/-- `BatchWrite`: the batches it writes, in order; the last is the final batch.
    The first marks the database as moving from the old tip to `hashBlock`. -/
def BatchWrite (batch_size : Nat) (opSize : CDBBatchOp → Nat) (db : CCoinsViewDB) (mapCoins : CCoinsMap)
    (hashBlock hashAnchor : uint256) (mapAnchors : CAnchorsMap) (mapNullifiers : CNullifiersMap) :
    Except String (List (List CDBBatchOp)) := do
  if hashBlock.IsNull then throw "Assertion !hashBlock.IsNull() failed"
  -- in the middle of a replay the old tip is the second head block
  let old_tip ← if db.GetBestBlock.IsNull then
      match db.GetHeadBlocks with
      | [newTip,oldTip] => if newTip = hashBlock then pure oldTip else throw "Assertion old_heads[0] == hashBlock failed"
      | _ => pure db.GetBestBlock
    else pure db.GetBestBlock
  let (partials,batch) := coinBatches batch_size opSize mapCoins.entries [.EraseBestBlock,.WriteHeadBlocks [hashBlock,old_tip]]
  let anchors := mapAnchors.entries.filterMap fun e =>
    if e.2.DIRTY then some (if e.2.entered then .WriteAnchor e.1 e.2.tree else .EraseAnchor e.1) else none
  let nullifiers := mapNullifiers.entries.filterMap fun e =>
    if e.2.DIRTY then some (if e.2.entered then .WriteNullifier e.1 else .EraseNullifier e.1) else none
  let last := [CDBBatchOp.EraseHeadBlocks,.WriteBestBlock hashBlock] ++
    if hashAnchor.IsNull then [] else [.WriteBestAnchor hashAnchor]
  pure (partials ++ [batch ++ anchors ++ nullifiers ++ last])

/-- The database as the base of a cache: the queries change nothing, and a write
    runs to the end. -/
def methods (batch_size : Nat) (opSize : CDBBatchOp → Nat) : CCoinsViewMethods CCoinsViewDB where
  GetCoin db outpoint := (db.GetCoin outpoint,db)
  GetNullifier db nf := (db.GetNullifier nf,db)
  GetAnchorAt db rt := (db.GetAnchorAt combine rt,db)
  GetBestBlock db := (db.GetBestBlock,db)
  GetBestAnchor db := (db.GetBestAnchor combine,db)
  BatchWrite db mapCoins hashBlock hashAnchor mapAnchors mapNullifiers :=
    db.WriteBatches <$> db.BatchWrite batch_size opSize mapCoins hashBlock hashAnchor mapAnchors mapNullifiers

end CCoinsViewDB

/-! ## A child flushed before it reads its hashes

`BatchWrite` of a cache copies the child's `hashBlock` and `hashAnchor` also when
they are null, which they stay until the child reads them or sets them; the
database and the test view skip a null hash. Over the database, a parent that
set its best block and pushed an anchor, under a child that only marked a
nullifier, forgets both when the child is flushed, and reads the database's
instead. -/

/-- The database under the caches below, with one batch per write. -/
def unbatchedDB : CCoinsViewMethods CCoinsViewDB := CCoinsViewDB.methods (fun a _ => a) 0 fun _ => 1

/-- A parent over the empty database that set its best block and pushed a tree
    whose root is not the empty root. -/
def anchoringParent : CCoinsViewCache :=
  ((CCoinsViewCache.empty.SetBestBlock ⟨List.replicate 32 2,by simp⟩).PushAnchor unbatchedDB
    (fun a _ => a) ⟨some ⟨List.replicate 32 1,by simp⟩,none,[]⟩ CCoinsViewDB.empty).1

/-- A child that only marked a nullifier. -/
def nullifierChild : CCoinsViewCache := CCoinsViewCache.empty.SetNullifier default true

theorem flush_of_unread_child_resets_parent :
    (nullifierChild.GetBestBlock (CCoinsViewCache.methods unbatchedDB) (anchoringParent,CCoinsViewDB.empty)).1 =
        ⟨List.replicate 32 2,by simp⟩ ∧
      (nullifierChild.GetBestAnchor (CCoinsViewCache.methods unbatchedDB) (anchoringParent,CCoinsViewDB.empty)).1 =
        ⟨List.replicate 32 1,by simp⟩ ∧
      ((nullifierChild.Flush (CCoinsViewCache.methods unbatchedDB) (anchoringParent,CCoinsViewDB.empty)).map fun r =>
          ((r.2.1.GetBestBlock unbatchedDB r.2.2).1,(r.2.1.GetBestAnchor unbatchedDB r.2.2).1)) =
        .ok (default,ZCIncrementalMerkleTree.empty_root fun a _ => a) ∧
      (default : uint256) ≠ ⟨List.replicate 32 2,by simp⟩ ∧
      ZCIncrementalMerkleTree.empty_root (fun a _ => a) ≠ ⟨List.replicate 32 1,by simp⟩ :=
  ⟨rfl,rfl,rfl,by decide,by decide⟩

end BitcoinPrivate
