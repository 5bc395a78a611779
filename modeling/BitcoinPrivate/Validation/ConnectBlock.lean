import BitcoinPrivate.Coins.CacheRefinement
import BitcoinPrivate.Coins.CoinsViewDB
import BitcoinPrivate.Validation.CheckBlock

/-!
The block-level updates of the chainstate, in `validation.cpp` and `coins.cpp`:
`UpdateCoins` and `AddCoins`, `ConnectBlock`, `ApplyTxInUndo` and
`DisconnectBlock`, over a `CCoinsViewCache` on any base, and the crash recovery
of `ReplayBlocks` with its `RollforwardBlock`, over the database.

What these functions take from outside the model is the argument `env`: the
hashes, the chain parameters they read, and the checks whose code is not
modelled here (the header, the merkle root with its mutation flag, sigop counts,
BIP68 sequence locks and the script checks of `CheckInputs`, with the script
flags and the skipping of `-assumevalid` folded into them). The coin queries
that `ConnectBlock` makes besides its updates read what the cache answers
(`CCoinsViewCache.view`); the entries such a query brings into the cache are not
dirty, so no flush writes them, and over a lawful base they change no answer
(`CCoinsViewCache.queries_answer`). The fields of the block index that
`ConnectBlock` sets (`hashAnchor`, `hashAnchorEnd`, the validity and undo
position) are left out.
-/
namespace BitcoinPrivate

/-- `DisconnectResult`. -/
inductive DisconnectResult
  | DISCONNECT_OK
  | DISCONNECT_UNCLEAN
  | DISCONNECT_FAILED
  deriving DecidableEq, Repr

/-- The result of a disconnection that has not failed. -/
def DisconnectResult.ofClean (fClean : Bool) : DisconnectResult :=
  if fClean then .DISCONNECT_OK else .DISCONNECT_UNCLEAN

/-- `CTxUndo`: the coins a transaction spent, in the order of its inputs. -/
structure CTxUndo where
  vprevout : List Coin
  deriving DecidableEq, Repr

/-- `CBlockUndo`: a record for each transaction after the first, and the best
    anchor before the block. -/
structure CBlockUndo where
  vtxundo : List CTxUndo
  old_tree_root : uint256
  deriving DecidableEq, Repr

/-- `CBlockIndex`, with the fields the chainstate code reads: the block's hash,
    its height and its parent. -/
structure CBlockIndex where
  phashBlock : uint256
  nHeight : Nat
  pprev : Option CBlockIndex

/-- The parent's hash, or the null hash at genesis. -/
def CBlockIndex.prevHash (pindex : CBlockIndex) : uint256 :=
  match pindex.pprev with
  | none => default
  | some pprev => pprev.phashBlock

/-- `GetAncestor`, as the walk along `pprev` that the skip list of `chain.cpp`
    shortens. -/
def CBlockIndex.GetAncestor : CBlockIndex → Nat → Option CBlockIndex
  | pindex@⟨_,nHeight,pprev⟩, height =>
    if nHeight < height then none
    else if nHeight = height then some pindex
    else
      match pprev with
      | none => none
      | some pprev => pprev.GetAncestor height

/-- The loop of `LastCommonAncestor` from `pa` on: both walk back until they
    meet; the source asserts that they meet or both run out. Entries are
    compared by hash. -/
def commonAncestorFrom : CBlockIndex → Option CBlockIndex → Except String (Option CBlockIndex)
  | pa@⟨hash,_,pprev⟩, some pb =>
    if hash = pb.phashBlock then .ok (some pa)
    else
      match pprev with
      | some pprev => commonAncestorFrom pprev pb.pprev
      | none => if pb.pprev.isNone then .ok none else .error "Assertion pa == pb failed"
  | _, none => .error "Assertion pa == pb failed"

/-- The loop of `LastCommonAncestor`. -/
def commonAncestorWalk : Option CBlockIndex → Option CBlockIndex → Except String (Option CBlockIndex)
  | some pa, pb => commonAncestorFrom pa pb
  | none, none => .ok none
  | none, some _ => .error "Assertion pa == pb failed"

/-- `LastCommonAncestor`: the higher of the two is first brought to the other's
    height. -/
def LastCommonAncestor (pa pb : CBlockIndex) : Except String (Option CBlockIndex) :=
  if pb.nHeight < pa.nHeight then commonAncestorWalk (pa.GetAncestor pb.nHeight) (some pb)
  else if pa.nHeight < pb.nHeight then commonAncestorWalk (some pa) (pb.GetAncestor pa.nHeight)
  else commonAncestorWalk (some pa) (some pb)

/-- `MAX_OUTPUTS_PER_BLOCK` of `coins.cpp`: as many outputs as a block holds
    when each is the smallest. -/
def MAX_OUTPUTS_PER_BLOCK : Nat := MAX_BLOCK_WEIGHT / (WITNESS_SCALE_FACTOR * CTxOut.null.Serialize.length)

/-- What validation takes from outside this model. -/
structure ValidationEnv where
  combine : uint256 → uint256 → uint256
  GetHash : CTransaction → uint256
  GetBlockHash : CBlockHeader → uint256
  hashGenesisBlock : uint256
  fCoinbaseMustBeProtected : Bool
  ForkStartHeight : Nat
  ForkHeightRange : Nat
  GetBlockSubsidy : Nat → CAmount
  CheckBlockHeader : Bool → CBlockHeader → Except String Unit
  BlockMerkleRoot : CBlock → uint256 × Bool
  GetLegacySigOpCount : CTransaction → Nat
  GetTransactionSigOpCost : CTransaction → CCoinsView → Nat
  SequenceLocks : CTransaction → List Nat → CBlockIndex → Bool
  CheckInputs : CTransaction → CCoinsView → Except String Unit

/-- `isForkBlock` at the chain's fork parameters. -/
def ValidationEnv.isForkBlock (env : ValidationEnv) (nHeight : Nat) : Bool :=
  BitcoinPrivate.isForkBlock nHeight env.ForkStartHeight env.ForkHeightRange

/-- The nullifiers of a transaction's joinsplits, in order. -/
def CTransaction.nullifiers (tx : CTransaction) : List uint256 := tx.vjoinsplit.flatMap (·.nullifiers.toList)

/-- The note commitments of a transaction's joinsplits, in order. -/
def CTransaction.commitments (tx : CTransaction) : List uint256 := tx.vjoinsplit.flatMap (·.commitments.toList)

section

variable (env : ValidationEnv) {σ : Type} (base : CCoinsViewMethods σ)

/-- What the cache answers, as a `CCoinsView`. -/
def CCoinsViewCache.view (cache : CCoinsViewCache) (b : σ) : CCoinsView where
  GetCoin outpoint := (cache.GetCoin base outpoint b).1
  GetNullifier nullifier := (cache.GetNullifier base nullifier b).1
  GetAnchorAt rt := (cache.GetAnchorAt base rt b).1
  GetBestBlock := (cache.GetBestBlock base b).1
  GetBestAnchor := (cache.GetBestAnchor base b).1
  unspent := by
    intro outpoint coin found
    rw [CCoinsViewCache.GetCoin_eq] at found
    obtain ⟨entry,-,unspent⟩ := Option.bind_eq_some_iff.mp found
    exact (Coin.asUnspent_eq_some.mp unspent).1 ▸ (Coin.asUnspent_eq_some.mp unspent).2

/-! ## Connecting -/

/-- The input loop of `UpdateCoins`: each input's coin is spent and moved into
    the undo record. The source asserts that each is found. -/
def spendPrevouts (cache : CCoinsViewCache) (b : σ) : List CTxIn → Except String (List Coin × CCoinsViewCache × σ)
  | [] => .ok ([],cache,b)
  | txin :: rest =>
    match cache.SpendCoin base txin.prevout b with
    | (none,_,_) => .error "Assertion is_spent failed"
    | (some coin,cache,b) => do
      let (coins,cache,b) ← spendPrevouts cache b rest
      pure (coin :: coins,cache,b)

/-- The loop of `AddCoins` from output `i` on. With `check` an output may
    overwrite a coin that `HaveCoin` finds; without, only a coinbase's may. -/
def addOutputs (txid : uint256) (fCoinbase : Bool) (nHeight : Nat) (check : Bool) (i : Nat) :
    List CTxOut → CCoinsViewCache → σ → Except String (CCoinsViewCache × σ)
  | [], cache, b => .ok (cache,b)
  | out :: rest, cache, b => do
    let (overwrite,cache,b) := if check then cache.HaveCoin base ⟨txid,i.toUInt32⟩ b else (fCoinbase,cache,b)
    let cache ← cache.AddCoin ⟨txid,i.toUInt32⟩ ⟨out,fCoinbase,nHeight⟩ overwrite
    addOutputs txid fCoinbase nHeight check (i + 1) rest cache b

/-- `AddCoins` of `coins.cpp`. -/
def AddCoins (cache : CCoinsViewCache) (tx : CTransaction) (nHeight : Nat) (check : Bool) (b : σ) :
    Except String (CCoinsViewCache × σ) :=
  addOutputs base (env.GetHash tx) tx.IsCoinBase nHeight check 0 tx.vout cache b

/-- `UpdateCoins`: the inputs of a transaction that is not a coinbase are spent,
    its nullifiers marked spent and its outputs added; the undo record holds the
    coins spent. -/
def UpdateCoins (tx : CTransaction) (nHeight : Nat) (cache : CCoinsViewCache) (b : σ) :
    Except String (CTxUndo × CCoinsViewCache × σ) := do
  let (vprevout,cache,b) ← if tx.IsCoinBase then pure ([],cache,b) else spendPrevouts base cache b tx.vin
  let cache := tx.nullifiers.foldl (fun cache nf => cache.SetNullifier nf true) cache
  let (cache,b) ← AddCoins env base cache tx nHeight false b
  pure (⟨vprevout⟩,cache,b)

/-- What the transaction loop of `ConnectBlock` carries from one transaction to
    the next. -/
structure ConnectLoop (σ : Type) where
  nFees : CAmount
  nSigOpsCost : Nat
  tree : ZCIncrementalMerkleTree
  vtxundo : List CTxUndo
  cache : CCoinsViewCache
  b : σ

/-- The checks of `ConnectBlock` on a transaction that is not a coinbase, before
    its sigops: its inputs, the accumulated fee and its sequence locks. It
    returns the fees with its own. -/
def checkSpends (pindex : CBlockIndex) (tx : CTransaction) (view : CCoinsView) (nFees : CAmount) :
    Except String CAmount := do
  let txfee ← Consensus.CheckTxInputs env.combine tx view pindex.nHeight env.fCoinbaseMustBeProtected
    env.ForkStartHeight env.ForkHeightRange
  let nFees := nFees + txfee
  if !MoneyRange nFees then throw "bad-txns-accumulated-fee-outofrange"
  if !env.SequenceLocks tx (tx.vin.map fun txin => (view.AccessCoin txin.prevout).nHeight) pindex then
    throw "bad-txns-nonfinal"
  pure nFees

/-- One transaction of the loop of `ConnectBlock`, at position `i`. Only the
    transactions after the first keep their undo record. -/
def connectTransaction (pindex : CBlockIndex) (i : Nat) (tx : CTransaction) (s : ConnectLoop σ) :
    Except String (ConnectLoop σ) := do
  let view := s.cache.view base s.b
  let nFees ← if tx.IsCoinBase then pure s.nFees else checkSpends env pindex tx view s.nFees
  let nSigOpsCost := s.nSigOpsCost + env.GetTransactionSigOpCost tx view
  if MAX_BLOCK_SIGOPS_COST < nSigOpsCost then throw "bad-blk-sigops"
  if !tx.IsCoinBase then env.CheckInputs tx view
  let (txundo,cache,b) ← UpdateCoins env base tx pindex.nHeight s.cache s.b
  let tree ← s.tree.appendAll env.combine INCREMENTAL_MERKLE_TREE_DEPTH tx.commitments
  pure ⟨nFees,nSigOpsCost,tree,if i = 0 then s.vtxundo else s.vtxundo ++ [txundo],cache,b⟩

/-- The transaction loop of `ConnectBlock`, from position `i` on. -/
def connectTransactions (pindex : CBlockIndex) : Nat → List CTransaction → ConnectLoop σ → Except String (ConnectLoop σ)
  | _, [], s => .ok s
  | i, tx :: rest, s => do
    let s ← connectTransaction env base pindex i tx s
    connectTransactions pindex (i + 1) rest s

/-- `ConnectBlock`. It returns the undo data it writes: none for the genesis
    block, whose transactions are not connected, and none with `fJustCheck`,
    which also leaves the best block. -/
def ConnectBlock (block : CBlock) (pindex : CBlockIndex) (fJustCheck : Bool) (cache : CCoinsViewCache) (b : σ) :
    Except String (Option CBlockUndo × CCoinsViewCache × σ) := do
  if pindex.phashBlock ≠ env.GetBlockHash block.header then
    throw "Assertion *pindex->phashBlock == block.GetHash() failed"
  CheckBlock (env.CheckBlockHeader !fJustCheck) env.BlockMerkleRoot env.GetLegacySigOpCount (!fJustCheck) block
  let (best,cache,b) := cache.GetBestBlock base b
  if pindex.prevHash ≠ best then throw "Assertion hashPrevBlock == view.GetBestBlock() failed"
  if env.GetBlockHash block.header = env.hashGenesisBlock then
    return (none,if fJustCheck then cache else cache.SetBestBlock pindex.phashBlock,b)
  if pindex.pprev.isNone then throw "Assertion pindex->pprev failed"
  if block.vtx.any fun tx =>
      (List.range tx.vout.length).any fun o => (cache.view base b).HaveCoin ⟨env.GetHash tx,o.toUInt32⟩ then
    throw "bad-txns-BIP30"
  let (old_tree_root,cache,b) := cache.GetBestAnchor base b
  let (found,cache,b) := cache.GetAnchorAt base old_tree_root b
  let some tree := found | throw "Assertion view.GetAnchorAt(old_tree_root, tree) failed"
  if tree.root env.combine INCREMENTAL_MERKLE_TREE_DEPTH [] ≠ old_tree_root then
    throw "Assertion tree.root() == old_tree_root failed"
  let s ← connectTransactions env base pindex 0 block.vtx ⟨0,0,tree,[],cache,b⟩
  let (cache,b) := s.cache.PushAnchor base env.combine s.tree s.b
  if !env.isForkBlock pindex.nHeight then
    let some coinbase := block.vtx.head? | throw "block.vtx[0] out of range"
    let valueOut ← coinbase.GetValueOut
    if s.nFees + env.GetBlockSubsidy pindex.nHeight < valueOut then throw "bad-cb-amount"
  if fJustCheck then return (none,cache,b)
  pure (some ⟨s.vtxundo,old_tree_root⟩,cache.SetBestBlock pindex.phashBlock,b)

/-! ## Disconnecting -/

/-- The loop of `AccessByTxid` from output `n` on, for at most `remaining` more
    outputs: the first unspent coin of the transaction. -/
def accessByTxidFrom (txid : uint256) : Nat → Nat → CCoinsViewCache → σ → Coin × CCoinsViewCache × σ
  | 0, _, cache, b => (Coin.empty,cache,b)
  | remaining + 1, n, cache, b =>
    match cache.AccessCoin base ⟨txid,n.toUInt32⟩ b with
    | (alternate,cache,b) =>
      if alternate.IsSpent then accessByTxidFrom txid remaining (n + 1) cache b else (alternate,cache,b)

/-- `AccessByTxid` of `coins.cpp`. -/
def AccessByTxid (cache : CCoinsViewCache) (txid : uint256) (b : σ) : Coin × CCoinsViewCache × σ :=
  accessByTxidFrom base txid MAX_OUTPUTS_PER_BLOCK 0 cache b

/-- `ApplyTxInUndo`: the coin is added back, as an overwrite when there is one
    already. An undo record of height 0 lacks its metadata, which is then taken
    from another unspent output of the same transaction. -/
def ApplyTxInUndo (undo : Coin) (out : COutPoint) (cache : CCoinsViewCache) (b : σ) :
    Except String (DisconnectResult × CCoinsViewCache × σ) :=
  match cache.HaveCoin base out b with
  | (overwriting,cache,b) =>
    let restore (undo : Coin) (cache : CCoinsViewCache) (b : σ) : Except String (DisconnectResult × CCoinsViewCache × σ) := do
      let cache ← cache.AddCoin out undo overwriting
      pure (.ofClean !overwriting,cache,b)
    if undo.nHeight = 0 then
      match AccessByTxid base cache out.hash b with
      | (alternate,cache,b) =>
        if alternate.IsSpent then .ok (.DISCONNECT_FAILED,cache,b)
        else restore { undo with nHeight := alternate.nHeight, fCoinBase := alternate.fCoinBase } cache b
    else restore undo cache b

/-- The output loop of `DisconnectBlock` from output `o` on: each spendable
    output is spent, and the block is unclean unless it was there as the coin
    the transaction created at the block's height. -/
def spendOutputs (hash : uint256) (is_coinbase : Bool) (nHeight : Nat) (o : Nat) :
    List CTxOut → Bool → CCoinsViewCache → σ → Bool × CCoinsViewCache × σ
  | [], fClean, cache, b => (fClean,cache,b)
  | out :: rest, fClean, cache, b =>
    if out.scriptPubKey.IsUnspendable then spendOutputs hash is_coinbase nHeight (o + 1) rest fClean cache b
    else
      match cache.SpendCoin base ⟨hash,o.toUInt32⟩ b with
      | (moved,cache,b) =>
        let coin := moved.getD Coin.empty
        let fClean := fClean && moved.isSome && out == coin.out && nHeight == coin.nHeight && is_coinbase == coin.fCoinBase
        spendOutputs hash is_coinbase nHeight (o + 1) rest fClean cache b

/-- The input loop of `DisconnectBlock`, over the inputs from the last to the
    first with their undo records; a failure stops it. -/
def restoreInputs (fClean : Bool) : List (COutPoint × Coin) → CCoinsViewCache → σ →
    Except String (DisconnectResult × CCoinsViewCache × σ)
  | [], cache, b => .ok (.ofClean fClean,cache,b)
  | (out,undo) :: rest, cache, b => do
    let (res,cache,b) ← ApplyTxInUndo base undo out cache b
    if res = .DISCONNECT_FAILED then return (res,cache,b)
    restoreInputs (fClean && res != .DISCONNECT_UNCLEAN) rest cache b

/-- One transaction of the loop of `DisconnectBlock`, at position `i`: its
    outputs are spent, its inputs restored unless it is the first or the block
    is at a fork height, and its nullifiers marked unspent. -/
def disconnectTransaction (blockUndo : CBlockUndo) (nHeight i : Nat) (tx : CTransaction) (fClean : Bool)
    (cache : CCoinsViewCache) (b : σ) : Except String (DisconnectResult × CCoinsViewCache × σ) := do
  let (fClean,cache,b) := spendOutputs base (env.GetHash tx) tx.IsCoinBase nHeight 0 tx.vout fClean cache b
  let (res,cache,b) ← if 0 < i && !env.isForkBlock nHeight then
      let txundo := blockUndo.vtxundo.getD (i - 1) ⟨[]⟩
      if txundo.vprevout.length ≠ tx.vin.length then pure (.DISCONNECT_FAILED,cache,b)
      else restoreInputs base fClean ((tx.vin.map (·.prevout)).zip txundo.vprevout).reverse cache b
    else pure (.ofClean fClean,cache,b)
  if res = .DISCONNECT_FAILED then return (res,cache,b)
  pure (res,tx.nullifiers.foldl (fun cache nf => cache.SetNullifier nf false) cache,b)

/-- The transaction loop of `DisconnectBlock`, from the last transaction back to
    position `i`. -/
def disconnectTransactions (blockUndo : CBlockUndo) (nHeight : Nat) :
    Nat → List CTransaction → CCoinsViewCache → σ → Except String (DisconnectResult × CCoinsViewCache × σ)
  | _, [], cache, b => .ok (.DISCONNECT_OK,cache,b)
  | i, tx :: rest, cache, b => do
    let (res,cache,b) ← disconnectTransactions blockUndo nHeight (i + 1) rest cache b
    if res = .DISCONNECT_FAILED then return (res,cache,b)
    disconnectTransaction env base blockUndo nHeight i tx (res == .DISCONNECT_OK) cache b

/-- `DisconnectBlock`, given what `UndoReadFromDisk` read for the block. -/
def DisconnectBlock (block : CBlock) (pindex : CBlockIndex) (undo : Option CBlockUndo) (cache : CCoinsViewCache)
    (b : σ) : Except String (DisconnectResult × CCoinsViewCache × σ) := do
  let some blockUndo := undo | return (.DISCONNECT_FAILED,cache,b)
  if blockUndo.vtxundo.length + 1 ≠ block.vtx.length then return (.DISCONNECT_FAILED,cache,b)
  let (res,cache,b) ← disconnectTransactions env base blockUndo pindex.nHeight 0 block.vtx cache b
  if res = .DISCONNECT_FAILED then return (res,cache,b)
  let (cache,b) ← cache.PopAnchor base blockUndo.old_tree_root b
  let some pprev := pindex.pprev | throw "pindex->pprev is null"
  pure (res,cache.SetBestBlock pprev.phashBlock,b)

/-! ## Replaying -/

/-- The transaction loop of `RollforwardBlock`. -/
def rollforwardTransactions (nHeight : Nat) : List CTransaction → CCoinsViewCache → σ →
    Except String (CCoinsViewCache × σ)
  | [], cache, b => .ok (cache,b)
  | tx :: rest, cache, b => do
    let (cache,b) := if tx.IsCoinBase then (cache,b)
      else tx.vin.foldl (fun s txin => (s.1.SpendCoin base txin.prevout s.2).2) (cache,b)
    let (cache,b) ← AddCoins env base cache tx nHeight true b
    rollforwardTransactions nHeight rest cache b

/-- `RollforwardBlock`, given what `ReadBlockFromDisk` read: the inputs spent
    whether or not they are there, and the outputs added, each of which may
    overwrite a coin. -/
def RollforwardBlock (block : Option CBlock) (pindex : CBlockIndex) (cache : CCoinsViewCache) (b : σ) :
    Except String (CCoinsViewCache × σ) := do
  let some block := block | throw "ReplayBlock(): ReadBlockFromDisk failed"
  rollforwardTransactions env base pindex.nHeight block.vtx cache b

end

/-- The block index and the block and undo files, as `ReplayBlocks` reads them. -/
structure BlockStore where
  mapBlockIndex : uint256 → Option CBlockIndex
  ReadBlockFromDisk : CBlockIndex → Option CBlock
  UndoReadFromDisk : CBlockIndex → Option CBlockUndo

section

variable (env : ValidationEnv) (store : BlockStore) {σ : Type} (base : CCoinsViewMethods σ)

/-- One block of the rollback loop of `ReplayBlocks`: disconnected unless it is
    genesis. -/
def rollbackBlock (pindexOld : CBlockIndex) (cache : CCoinsViewCache) (b : σ) : Except String (CCoinsViewCache × σ) := do
  if pindexOld.nHeight = 0 then return (cache,b)
  let some block := store.ReadBlockFromDisk pindexOld | throw "RollbackBlock(): ReadBlockFromDisk() failed"
  let (res,cache,b) ← DisconnectBlock env base block pindexOld (store.UndoReadFromDisk pindexOld) cache b
  if res = .DISCONNECT_FAILED then throw "RollbackBlock(): DisconnectBlock failed"
  pure (cache,b)

/-- The rollback loop of `ReplayBlocks`, from `pindexOld` back to the fork
    point. -/
def rollbackBlocks (forkHash : Option uint256) : CBlockIndex → CCoinsViewCache → σ → Except String (CCoinsViewCache × σ)
  | pindexOld@⟨hash,_,pprev⟩, cache, b =>
    if some hash = forkHash then .ok (cache,b)
    else
      match rollbackBlock env store base pindexOld cache b with
      | .error e => .error e
      | .ok (cache,b) =>
        match pprev with
        | some pprev => rollbackBlocks forkHash pprev cache b
        | none => if forkHash.isNone then .ok (cache,b) else .error "pindexOld is null"

/-- The roll-forward loop of `ReplayBlocks`, over the heights above the fork. -/
def rollforwardBlocks (pindexNew : CBlockIndex) : List Nat → CCoinsViewCache → σ → Except String (CCoinsViewCache × σ)
  | [], cache, b => .ok (cache,b)
  | nHeight :: rest, cache, b => do
    let some pindex := pindexNew.GetAncestor nHeight | throw "pindex is null"
    let (cache,b) ← RollforwardBlock env base (store.ReadBlockFromDisk pindex) pindex cache b
    rollforwardBlocks pindexNew rest cache b

end

/-- `ReplayBlocks` on the database: with head blocks `[new, old]` left by an
    interrupted flush, the blocks of the old branch are disconnected down to the
    fork point and those of the new one rolled forward, into a cache that is then
    flushed with the new tip as its best block. Where the source returns false
    the result is the error it logs. -/
def ReplayBlocks (env : ValidationEnv) (store : BlockStore) (batch_size : Nat) (opSize : CDBBatchOp → Nat)
    (db : CCoinsViewDB) : Except String CCoinsViewDB := do
  let base := CCoinsViewDB.methods env.combine batch_size opSize
  match db.GetHeadBlocks with
  | [] => pure db
  | [newHead,oldHead] =>
    let some pindexNew := store.mapBlockIndex newHead | throw "ReplayBlocks(): reorganization to unknown block requested"
    let (pindexOld,pindexFork) ← if oldHead.IsNull then pure (none,none) else do
        let some pindexOld := store.mapBlockIndex oldHead
          | throw "ReplayBlocks(): reorganization from unknown block requested"
        let some pindexFork ← LastCommonAncestor pindexOld pindexNew | throw "Assertion pindexFork != nullptr failed"
        pure (some pindexOld,some pindexFork)
    let (cache,db) ← match pindexOld with
      | some pindexOld => rollbackBlocks env store base (pindexFork.map (·.phashBlock)) pindexOld CCoinsViewCache.empty db
      | none => pure (CCoinsViewCache.empty,db)
    let nForkHeight := (pindexFork.map (·.nHeight)).getD 0
    let (cache,db) ← rollforwardBlocks env store base pindexNew
      (List.range' (nForkHeight + 1) (pindexNew.nHeight - nForkHeight)) cache db
    let (_,db) ← (cache.SetBestBlock pindexNew.phashBlock).Flush base db
    pure db
  | _ => throw "ReplayBlocks(): unknown inconsistent state"

/-- A flush of the cache into the database that stops after its first `written`
    batches, as a crash between two batches leaves it. -/
def CCoinsViewDB.interruptedFlush (batch_size : Nat) (opSize : CDBBatchOp → Nat) (written : Nat)
    (cache : CCoinsViewCache) (db : CCoinsViewDB) : Except String CCoinsViewDB :=
  (fun batches => db.WriteBatches (batches.take written)) <$>
    db.BatchWrite batch_size opSize cache.cacheCoins cache.hashBlock cache.hashAnchor cache.cacheAnchors
      cache.cacheNullifiers

/-! ## A flush interrupted after its first batch -/

/-- A hash whose last byte is `n`. -/
def hashOf (n : UInt8) : uint256 := ⟨List.replicate 31 0 ++ [n],by simp⟩

/-- A compression function for the examples, in place of `SHA256Compress`; the
    empty roots it gives are not null. -/
def toyCombine (a b : uint256) : uint256 :=
  ⟨List.zipWith (fun x y => x + 2 * y + 1) a.data b.data,by simp [a.size,b.size]⟩

/-- The chain of the example: the block hash is the header's nonce, a
    transaction's id counts its outputs and joinsplits, and the checks outside
    the model accept. -/
def replayEnv : ValidationEnv where
  combine := toyCombine
  GetHash tx := hashOf (tx.vout.length + 16 * tx.vjoinsplit.length).toUInt8
  GetBlockHash header := header.nNonce
  hashGenesisBlock := hashOf 0xa0
  fCoinbaseMustBeProtected := false
  ForkStartHeight := 272991
  ForkHeightRange := 5467
  GetBlockSubsidy _ := 1250000000
  CheckBlockHeader _ _ := .ok ()
  BlockMerkleRoot block := (block.header.hashMerkleRoot,false)
  GetLegacySigOpCount _ := 0
  GetTransactionSigOpCost _ _ := 0
  SequenceLocks _ _ _ := true
  CheckInputs _ _ := .ok ()

def genesisIndex : CBlockIndex := ⟨hashOf 0xa0,0,none⟩

def shieldedBlockIndex : CBlockIndex := ⟨hashOf 0xa1,1,some genesisIndex⟩

/-- A block at height 1 with its coinbase and a transaction that takes one coin
    out of a joinsplit spending two notes and creating two. -/
def shieldedBlock : CBlock where
  header := ⟨4,hashOf 0xa0,default,default,0,0,hashOf 0xa1,[]⟩
  vtx := [
    { vin := [⟨COutPoint.null,[0x51,0x51],0xFFFFFFFF⟩]
      vout := [⟨1250000000,[0x51]⟩]
      nVersion := 1
      nLockTime := 0
      vjoinsplit := []
      joinSplitPubKey := default
      joinSplitSig := default },
    { vin := []
      vout := [⟨COIN,[0x51]⟩]
      nVersion := 2
      nLockTime := 0
      vjoinsplit := [{
        vpub_old := 0
        vpub_new := COIN
        anchor := ZCIncrementalMerkleTree.empty_root toyCombine
        nullifiers := #v[hashOf 1,hashOf 2]
        commitments := #v[hashOf 3,hashOf 4]
        ephemeralKey := default
        randomSeed := default
        macs := Vector.replicate 2 default
        proof := default
        ciphertexts := Vector.replicate 2 default }]
      joinSplitPubKey := default
      joinSplitSig := default }]

def replayStore : BlockStore where
  mapBlockIndex hash :=
    if hash = hashOf 0xa0 then some genesisIndex else if hash = hashOf 0xa1 then some shieldedBlockIndex else none
  ReadBlockFromDisk pindex := if pindex.phashBlock = hashOf 0xa1 then some shieldedBlock else none
  UndoReadFromDisk _ := none

/-- The chainstate database after genesis, whose transactions are not connected. -/
def chainstateAfterGenesis : CCoinsViewDB := { CCoinsViewDB.empty with bestBlock := some (hashOf 0xa0) }

/-- The tip cache over that database after `ConnectBlock` of the shielded block. -/
def shieldedTip : Except String (CCoinsViewCache × CCoinsViewDB) :=
  (ConnectBlock replayEnv (CCoinsViewDB.methods toyCombine 0 fun _ => 1) shieldedBlock shieldedBlockIndex false
    CCoinsViewCache.empty chainstateAfterGenesis).map (·.2)

/-- The database after the tip's flush runs to the end. -/
def uninterruptedFlush : Except String CCoinsViewDB := do
  let (cache,db) ← shieldedTip
  let (_,db) ← cache.Flush (CCoinsViewDB.methods toyCombine 0 fun _ => 1) db
  pure db

/-- The database after the same flush stops at its first batch, which holds the
    first coin. -/
def crashedFlush : Except String CCoinsViewDB := do
  let (cache,db) ← shieldedTip
  CCoinsViewDB.interruptedFlush 0 (fun _ => 1) 1 cache db

/-- The database after `ReplayBlocks` on the crashed one. -/
def replayedChainstate : Except String CCoinsViewDB :=
  crashedFlush >>= ReplayBlocks replayEnv replayStore 0 fun _ => 1

theorem replay_after_first_batch_forgets_shielded_state :
    (crashedFlush.map CCoinsViewDB.GetHeadBlocks).toOption = some [hashOf 0xa1,hashOf 0xa0] ∧
      (uninterruptedFlush.map (·.GetNullifier (hashOf 1))).toOption = some true ∧
      (replayedChainstate.map (·.GetNullifier (hashOf 1))).toOption = some false ∧
      (do
        let full ← uninterruptedFlush
        let replayed ← replayedChainstate
        pure ((full.GetAnchorAt toyCombine (full.GetBestAnchor toyCombine)).isSome,
          (replayed.GetAnchorAt toyCombine (full.GetBestAnchor toyCombine)).isSome,
          decide (replayed.GetBestAnchor toyCombine = full.GetBestAnchor toyCombine),
          decide (replayed.GetBestBlock = full.GetBestBlock))).toOption = some (true,false,false,true) := by
  refine ⟨?_,?_,?_,?_⟩ <;> decide +kernel

end BitcoinPrivate
