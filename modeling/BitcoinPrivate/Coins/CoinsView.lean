import BitcoinPrivate.Primitives.Serialize
import BitcoinPrivate.Zcash.IncrementalMerkleTree

/-!
The coins of `coins.h` and what a `CCoinsView` answers. A view's answers are
pure functions here: the caching a `CCoinsViewCache` does while it answers a
`const` query changes no answer, which the cache modules prove, so code that only
queries a view (`CheckTxInputs`, `HaveJoinSplitRequirements`) reads these.
The note commitment tree is `ZCIncrementalMerkleTree`, the tree of depth
`INCREMENTAL_MERKLE_TREE_DEPTH` over `uint256` hashed by `SHA256Compress::combine`,
which is the argument `combine` wherever a root is taken.
-/
namespace BitcoinPrivate

/-- `Coin`: an unspent output with the height and kind of the transaction that
    created it. -/
structure Coin where
  out : CTxOut
  fCoinBase : Bool
  nHeight : Nat
  deriving DecidableEq, Repr

namespace Coin

/-- `Coin()`: the spent coin. -/
def empty : Coin := ⟨CTxOut.null,false,0⟩

instance : Inhabited Coin := ⟨empty⟩

/-- `IsSpent`. -/
def IsSpent (coin : Coin) : Bool := coin.out.IsNull

/-- `Clear`. -/
def Clear (_ : Coin) : Coin := empty

theorem IsSpent_empty : empty.IsSpent = true := rfl

end Coin

/-- `ZCIncrementalMerkleTree`. -/
abbrev ZCIncrementalMerkleTree := Zcash.IncrementalMerkleTree uint256

/-- `ZCIncrementalMerkleTree::empty_root()`. -/
def ZCIncrementalMerkleTree.empty_root (combine : uint256 → uint256 → uint256) : uint256 :=
  Zcash.IncrementalMerkleTree.empty_root combine INCREMENTAL_MERKLE_TREE_DEPTH

/-- What a `CCoinsView` answers: `GetCoin`, which finds unspent coins only,
    `GetNullifier`, `GetAnchorAt`, `GetBestBlock` and `GetBestAnchor`. -/
structure CCoinsView where
  GetCoin : COutPoint → Option Coin
  GetNullifier : uint256 → Bool
  GetAnchorAt : uint256 → Option ZCIncrementalMerkleTree
  GetBestBlock : uint256
  GetBestAnchor : uint256
  unspent : ∀ outpoint coin, GetCoin outpoint = some coin → coin.IsSpent = false

namespace CCoinsView

/-- `AccessCoin`: the coin, or the spent coin `coinEmpty`. -/
def AccessCoin (view : CCoinsView) (outpoint : COutPoint) : Coin := (view.GetCoin outpoint).getD Coin.empty

/-- `HaveCoin`. -/
def HaveCoin (view : CCoinsView) (outpoint : COutPoint) : Bool := !(view.AccessCoin outpoint).IsSpent

/-- `HaveInputs`: every input of a non-coinbase transaction is an unspent coin. -/
def HaveInputs (view : CCoinsView) (tx : CTransaction) : Bool :=
  tx.IsCoinBase || tx.vin.all fun txin => view.HaveCoin txin.prevout

/-- The loop of `HaveJoinSplitRequirements`. `intermediates` maps the roots that
    earlier joinsplits of the transaction reached to their trees; its `insert`
    keeps the tree already stored under a root. Appending to a full tree throws. -/
def joinSplitRequirements (combine : uint256 → uint256 → uint256) (view : CCoinsView)
    (intermediates : List (uint256 × ZCIncrementalMerkleTree)) : List JSDescription → Except String Bool
  | [] => .ok true
  | joinsplit :: rest =>
    if joinsplit.nullifiers.toList.any view.GetNullifier then .ok false
    else
      match (intermediates.lookup joinsplit.anchor).or (view.GetAnchorAt joinsplit.anchor) with
      | none => .ok false
      | some tree => do
        let tree ← tree.appendAll combine INCREMENTAL_MERKLE_TREE_DEPTH joinsplit.commitments.toList
        let root := tree.root combine INCREMENTAL_MERKLE_TREE_DEPTH []
        let intermediates := if (intermediates.lookup root).isSome then intermediates else (root, tree) :: intermediates
        joinSplitRequirements combine view intermediates rest

/-- `HaveJoinSplitRequirements`: no nullifier of the transaction is spent, and each
    anchor is a stored root or a root an earlier joinsplit of it reached. -/
def HaveJoinSplitRequirements (combine : uint256 → uint256 → uint256) (view : CCoinsView) (tx : CTransaction) :
    Except String Bool :=
  joinSplitRequirements combine view [] tx.vjoinsplit

end CCoinsView

end BitcoinPrivate
