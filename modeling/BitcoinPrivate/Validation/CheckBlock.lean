import BitcoinPrivate.Validation.Fork
import BitcoinPrivate.Consensus.TxVerify
import BitcoinPrivate.Library.Guards

/-!
`CheckBlock` of `validation.cpp`. A block whose header carries the fork sentinel
may hold up to `FORK_CB_PER_BLOCK` transactions, all coinbases; any other block
holds one coinbase, first. The header check (the Equihash solution and the proof
of work), the merkle root with its mutation flag and the legacy sigop count are
arguments. The memo `fChecked` is left out: it only skips a second run.
-/
namespace BitcoinPrivate

def MAX_BLOCK_SIGOPS_COST : Nat := 200000

/-- The size limits of `CheckBlock`. -/
def checkBlockSize (block : CBlock) : Except String Unit :=
  if block.vtx.isEmpty || decide (MAX_BLOCK_WEIGHT < block.vtx.length * WITNESS_SCALE_FACTOR) ||
      decide (MAX_BLOCK_WEIGHT < block.GetSerializeSize * WITNESS_SCALE_FACTOR) then
    .error "bad-blk-length"
  else .ok ()

/-- The coinbase rules of `CheckBlock`: the coinbase first, then either only
    coinbases, at most `FORK_CB_PER_BLOCK` of them, in a block whose header looks
    like a fork block's, or no other coinbase. -/
def checkCoinbases (block : CBlock) : Except String Unit :=
  if !(block.vtx.head?.any CTransaction.IsCoinBase) then .error "bad-cb-missing"
  else if looksLikeForkBlockHeader block.header then
    if FORK_CB_PER_BLOCK < block.vtx.length then .error "bad-fork-too-many-tx"
    else if (block.vtx.drop 1).any (!·.IsCoinBase) then .error "bad-fork-non-cb"
    else .ok ()
  else if (block.vtx.drop 1).any CTransaction.IsCoinBase then .error "bad-cb-multiple"
  else .ok ()

/-- The checks `CheckBlock` makes on the transactions. -/
def checkBlockTransactions (block : CBlock) : Except String Unit := do
  checkBlockSize block
  checkCoinbases block
  block.vtx.forM (CheckTransaction · true)

/-- `CheckBlock`. -/
def CheckBlock (CheckBlockHeader : CBlockHeader → Except String Unit) (BlockMerkleRoot : CBlock → uint256 × Bool)
    (GetLegacySigOpCount : CTransaction → Nat) (fCheckMerkleRoot : Bool) (block : CBlock) : Except String Unit := do
  CheckBlockHeader block.header
  if fCheckMerkleRoot then
    let (hashMerkleRoot2,mutated) := BlockMerkleRoot block
    if block.header.hashMerkleRoot ≠ hashMerkleRoot2 then throw "bad-txnmrklroot"
    if mutated then throw "bad-txns-duplicate"
  checkBlockTransactions block
  if MAX_BLOCK_SIGOPS_COST < (block.vtx.map GetLegacySigOpCount).sum * WITNESS_SCALE_FACTOR then
    throw "bad-blk-sigops"

/-- A snapshot file of one record, one coin to `OP_TRUE`, with its separator. -/
def snapshotFile : List UInt8 := LittleEndian.leBytes 100000000 8 ++ LittleEndian.leBytes 1 8 ++ [0x51,0x0a]

/-- A coinbase that pays the record of `snapshotFile` and then another thousand
    coins. -/
def forkCoinbase : CTransaction where
  vin := [⟨COutPoint.null,[0x03,0x60,0x2a,0x04],0xffffffff⟩]
  vout := [⟨100000000,[0x51]⟩,⟨1000 * COIN,[0x51]⟩]
  nVersion := 1
  nLockTime := 0
  vjoinsplit := []
  joinSplitPubKey := default
  joinSplitSig := default

theorem fork_block_extra_output {header : CBlockHeader} (looks : looksLikeForkBlockHeader header = true)
    (solution : header.nSolution.length ≤ 1344) {forkStartHeight forkHeightRange nHeight : Int}
    (fork : isForkBlock nHeight forkStartHeight forkHeightRange = true) :
    readRecords FORK_CB_PER_BLOCK snapshotFile = .ok ([(100000000,[0x51])],1) ∧
      ContextualCheckBlockFork true forkStartHeight forkHeightRange nHeight (some snapshotFile)
        ⟨header,[forkCoinbase]⟩ = some (.ok ()) ∧
      checkBlockTransactions ⟨header,[forkCoinbase]⟩ = .ok () ∧
      [forkCoinbase].flatMap CTransaction.vout = [⟨100000000,[0x51]⟩,⟨1000 * COIN,[0x51]⟩] := by
  have read : readRecords FORK_CB_PER_BLOCK snapshotFile = .ok ([(100000000,[0x51])],1) := by rfl
  have size : (CBlock.mk header [forkCoinbase]).GetSerializeSize ≤ 140 + 9 + 1344 + 76 := by
    have transactions : (serVector SerializeTransaction [forkCoinbase]).length = 76 := by rfl
    rw [CBlock.GetSerializeSize_eq,CBlockHeader.Serialize_length,transactions]
    have compact := WriteCompactSize_length_le header.nSolution.length
    dsimp only
    omega
  refine ⟨read,?_,?_,rfl⟩
  · simp only [ContextualCheckBlockFork,fork,Bool.and_self,if_true,read]
    rfl
  · have sized : checkBlockSize ⟨header,[forkCoinbase]⟩ = .ok () := by
      have small : ¬MAX_BLOCK_WEIGHT < (CBlock.mk header [forkCoinbase]).GetSerializeSize * WITNESS_SCALE_FACTOR := by
        simp only [MAX_BLOCK_WEIGHT,WITNESS_SCALE_FACTOR]
        omega
      have few : ¬MAX_BLOCK_WEIGHT < [forkCoinbase].length * WITNESS_SCALE_FACTOR := by decide
      simp only [checkBlockSize,small,few,decide_false,List.isEmpty_cons,Bool.or_false]
      rfl
    have coinbases : checkCoinbases ⟨header,[forkCoinbase]⟩ = .ok () := by
      simp only [checkCoinbases,looks]
      rfl
    simp only [checkBlockTransactions,sized,coinbases]
    rfl

theorem fork_block_extra_output_at_first_fork_height :
    readRecords FORK_CB_PER_BLOCK snapshotFile = .ok ([(100000000,[0x51])],1) ∧
      ContextualCheckBlockFork true 272991 5467 272992 (some snapshotFile)
        ⟨⟨4,default,default,forkExtraHashSentinel,0,0,default,[]⟩,[forkCoinbase]⟩ = some (.ok ()) ∧
      checkBlockTransactions ⟨⟨4,default,default,forkExtraHashSentinel,0,0,default,[]⟩,[forkCoinbase]⟩ = .ok () ∧
      [forkCoinbase].flatMap CTransaction.vout = [⟨100000000,[0x51]⟩,⟨1000 * COIN,[0x51]⟩] :=
  @fork_block_extra_output ⟨4,default,default,forkExtraHashSentinel,0,0,default,[]⟩ (by decide) (by decide)
    272991 5467 272992 (by decide)

end BitcoinPrivate
