import BitcoinPrivate.Primitives.Serialize

/-!
The block of `primitives/block.h`: an Equihash header with the reserved hash
that marks fork blocks, and the transactions. The serialization is the one the
consensus size limit measures (`SERIALIZE_TRANSACTION_NO_WITNESS`).
-/
namespace BitcoinPrivate

/-- `CBlockHeader`. -/
structure CBlockHeader where
  nVersion : Int32
  hashPrevBlock : uint256
  hashMerkleRoot : uint256
  hashReserved : uint256
  nTime : UInt32
  nBits : UInt32
  nNonce : uint256
  nSolution : List UInt8
  deriving DecidableEq, Repr

/-- `CBlock`, without the memory-only `fChecked`. -/
structure CBlock where
  header : CBlockHeader
  vtx : List CTransaction
  deriving DecidableEq, Repr

def CBlockHeader.Serialize (header : CBlockHeader) : List UInt8 :=
  serInt32 header.nVersion ++ header.hashPrevBlock.Serialize ++ header.hashMerkleRoot.Serialize ++
    header.hashReserved.Serialize ++ serUInt32 header.nTime ++ serUInt32 header.nBits ++ header.nNonce.Serialize ++
    serVector (fun b => [b]) header.nSolution

def CBlock.Serialize (block : CBlock) : List UInt8 :=
  block.header.Serialize ++ serVector SerializeTransaction block.vtx

/-- `GetSerializeSize(block, PROTOCOL_VERSION | SERIALIZE_TRANSACTION_NO_WITNESS)`. -/
def CBlock.GetSerializeSize (block : CBlock) : Nat := block.Serialize.length

theorem CBlockHeader.Serialize_length (header : CBlockHeader) :
    header.Serialize.length = 140 + (WriteCompactSize header.nSolution.length).length + header.nSolution.length := by
  simp [CBlockHeader.Serialize,serVector_length]
  omega

theorem CBlock.GetSerializeSize_eq (block : CBlock) :
    block.GetSerializeSize = block.header.Serialize.length + (serVector SerializeTransaction block.vtx).length := by
  simp [CBlock.GetSerializeSize,CBlock.Serialize]

end BitcoinPrivate
