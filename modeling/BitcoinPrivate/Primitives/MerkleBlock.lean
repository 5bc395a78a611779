import BitcoinPrivate.Primitives.PartialMerkleTree
import BitcoinPrivate.Primitives.TransactionCodec
import BitcoinPrivate.Library.ByteBits

/-!
`CMerkleBlock` of `merkleblock.h` and `merkleblock.cpp`: a block's header with
the partial merkle tree of its txids, the matched ones chosen by a set of txids
or by a filter, and the serialization that carries it to the peer. The bits of
the tree travel packed eight to a byte, least significant first, and come back
as whole bytes of bits (`unpackBits_packBits`).

The peer's side is `ExtractMatches` on what it reads. For a block that
`CheckBlock` accepts, the peer gets back the header's merkle root and exactly
the block's matched transactions, with their positions; when a filter chose
them, those are the pairs the sender kept in `vMatchedTxn`.
-/
namespace BitcoinPrivate
open StreamReader ByteBits

/-! ## The bits of the tree in bytes -/

/-- `vBytes[p / 8] |= vBits[p] << (p % 8)`. -/
def orBit (vBits : List Bool) (vBytes : List UInt8) (p : Nat) : List UInt8 :=
  vBytes.modify (p / 8) (· ||| ((if vBits.getD p false then 1 else 0) <<< (p % 8).toUInt8))

/-- The loop of `SerializationOp` that writes: `vBytes` of `(vBits.size()+7)/8`
    zeros, and each bit or-ed into its byte. -/
def packBits (vBits : List Bool) : List UInt8 :=
  (List.range vBits.length).foldl (orBit vBits) (List.replicate ((vBits.length + 7) / 8) 0)

/-- The loop of `SerializationOp` that reads: `vBytes.size() * 8` bits, bit `p`
    the place `p % 8` of byte `p / 8`. -/
def unpackBits (vBytes : List UInt8) : List Bool :=
  (List.range (vBytes.length * 8)).map fun p => (vBytes.getD (p / 8) 0 &&& (1 <<< (p % 8).toUInt8)) != 0

/-- The bytes after the first `written` bits of the loop: the bits below
    `written` at their places, and no other. -/
def Packed (vBits : List Bool) (written : Nat) (vBytes : List UInt8) : Prop :=
  vBytes.length = (vBits.length + 7) / 8 ∧
    ∀ p, p < vBytes.length * 8 → (vBytes.getD (p / 8) 0).toNat.testBit (p % 8) = (decide (p < written) && vBits.getD p false)

theorem packed_start (vBits : List Bool) : Packed vBits 0 (List.replicate ((vBits.length + 7) / 8) 0) := by
  refine ⟨List.length_replicate,fun p inside => ?_⟩
  rw [List.length_replicate] at inside
  rw [List.getD_replicate _ (by omega)]
  simp

/-- One pass of the loop or-s bit `written` in at its place. -/
theorem packed_step {vBits : List Bool} {written : Nat} {vBytes : List UInt8} (packed : Packed vBits written vBytes)
    (room : written < vBits.length) : Packed vBits (written + 1) (orBit vBits vBytes written) := by
  obtain ⟨count,bits⟩ := packed
  have inside : written < vBytes.length * 8 := by omega
  refine ⟨by rw [orBit,List.length_modify,count],fun p below => ?_⟩
  rw [orBit,List.length_modify] at below
  have set := bit_modify_or inside (vBits.getD written false) p
  rw [ByteBits.bit,ByteBits.bit] at set
  rw [orBit,set,bits p below]
  by_cases here : p = written
  · subst here
    simp
  · simp [here,Nat.le_iff_lt_or_eq]

/-- The loop leaves every bit at its place. -/
theorem packed_packBits (vBits : List Bool) : Packed vBits vBits.length (packBits vBits) := by
  have run : ∀ written ≤ vBits.length, Packed vBits written
      ((List.range written).foldl (orBit vBits) (List.replicate ((vBits.length + 7) / 8) 0)) := by
    intro written
    induction written with
    | zero => exact fun _ => packed_start vBits
    | succ written ih =>
      intro room
      rw [List.range_succ,List.foldl_append,List.foldl_cons,List.foldl_nil]
      exact packed_step (ih (by omega)) room
  exact run vBits.length (le_refl _)

/-- The bits read back are the bits written, then zeros to the end of the last byte. -/
theorem unpackBits_packBits (vBits : List Bool) :
    unpackBits (packBits vBits) = vBits ++ List.replicate ((vBits.length + 7) / 8 * 8 - vBits.length) false := by
  obtain ⟨count,bits⟩ := packed_packBits vBits
  have whole : vBits.length ≤ (vBits.length + 7) / 8 * 8 := by omega
  apply List.ext_getElem
  · rw [unpackBits,List.length_map,List.length_range,count,List.length_append,List.length_replicate]
    omega
  · intro p inside _
    have inBytes : p < (packBits vBits).length * 8 := by simpa [unpackBits] using inside
    simp only [unpackBits,List.getElem_map,List.getElem_range]
    rw [getD_and_ne_zero,ByteBits.bit,bits p inBytes,List.getElem_append]
    split
    · rename_i bit
      simp [bit]
    · rename_i padding
      simp [padding]

theorem length_packBits (vBits : List Bool) : (packBits vBits).length = (vBits.length + 7) / 8 :=
  (packed_packBits vBits).1

/-! ## The serialization -/

namespace CPartialMerkleTree

/-- A tree as the reader makes it: its bits padded to whole bytes, and `fBad` clear. -/
def received {α : Type} (t : CPartialMerkleTree α) : CPartialMerkleTree α :=
  ⟨t.nTransactions,unpackBits (packBits t.vBits),t.vHash,false⟩

/-- `SerializationOp` when writing: `nTransactions`, `vHash`, and the bits
    packed into `vBytes`. -/
def Serialize (t : CPartialMerkleTree uint256) : List UInt8 :=
  ser_writedata32 t.nTransactions ++ serVector base_blob.Serialize t.vHash ++ serVector (fun b => [b]) (packBits t.vBits)

/-- `SerializationOp` when reading: the bits of every byte of `vBytes`, and
    `fBad` cleared. -/
def Unserialize : Reader UInt8 (CPartialMerkleTree uint256) := do
  let nTransactions ← ser_readdata32
  let vHash ← unserializeVector (base_blob.Unserialize 32)
  let vBytes ← unserializeBytes
  pure ⟨nTransactions,unpackBits vBytes,vHash,false⟩

/-- A tree reads back with its bits padded to whole bytes and `fBad` cleared. -/
theorem Unserialize_reads {t : CPartialMerkleTree uint256} (fits : t.nTransactions < 2^32)
    (hashes : t.vHash.length ≤ MAX_SIZE) (bytes : (packBits t.vBits).length ≤ MAX_SIZE) :
    Reads Unserialize t.received t.Serialize := by
  have count : Reads ser_readdata32 t.nTransactions (ser_writedata32 t.nTransactions) :=
    ser_readdata_reads (by simpa using fits)
  have vHash := unserializeVector_reads (fun b _ => base_blob.Unserialize_reads b) hashes
  have vBytes := unserializeBytes_reads bytes
  rw [Serialize,List.append_assoc]
  exact count.bind (vHash.bind (vBytes.bind_pure rfl))

end CPartialMerkleTree

/-- `CBlockHeader::SerializationOp` when reading. -/
def CBlockHeader.Unserialize : Reader UInt8 CBlockHeader := do
  let nVersion ← unserializeInt32
  let hashPrevBlock ← base_blob.Unserialize 32
  let hashMerkleRoot ← base_blob.Unserialize 32
  let hashReserved ← base_blob.Unserialize 32
  let nTime ← unserializeUInt32
  let nBits ← unserializeUInt32
  let nNonce ← base_blob.Unserialize 32
  let nSolution ← unserializeBytes
  pure ⟨nVersion,hashPrevBlock,hashMerkleRoot,hashReserved,nTime,nBits,nNonce,nSolution⟩

theorem CBlockHeader.Unserialize_reads {header : CBlockHeader} (short : header.nSolution.length ≤ MAX_SIZE) :
    Reads CBlockHeader.Unserialize header header.Serialize := by
  simp only [CBlockHeader.Serialize,List.append_assoc]
  exact (unserializeInt32_reads _).bind ((base_blob.Unserialize_reads _).bind ((base_blob.Unserialize_reads _).bind
    ((base_blob.Unserialize_reads _).bind ((unserializeUInt32_reads _).bind ((unserializeUInt32_reads _).bind
      ((base_blob.Unserialize_reads _).bind ((unserializeBytes_reads short).bind_pure rfl)))))))

/-- `CMerkleBlock`. -/
structure CMerkleBlock where
  header : CBlockHeader
  txn : CPartialMerkleTree uint256
  vMatchedTxn : List (Nat × uint256)
  deriving DecidableEq, Repr

namespace CMerkleBlock

/-- `SerializationOp` when writing: the header and the tree; `vMatchedTxn` stays with the sender. -/
def Serialize (merkleBlock : CMerkleBlock) : List UInt8 := merkleBlock.header.Serialize ++ merkleBlock.txn.Serialize

/-- `SerializationOp` when reading, into a default `CMerkleBlock`, whose `vMatchedTxn` is empty. -/
def Unserialize : Reader UInt8 CMerkleBlock := do
  let header ← CBlockHeader.Unserialize
  let txn ← CPartialMerkleTree.Unserialize
  pure ⟨header,txn,[]⟩

/-- A merkle block reads back with its tree's bits padded to whole bytes, and
    without the sender's `vMatchedTxn`. -/
theorem Unserialize_reads {merkleBlock : CMerkleBlock} (short : merkleBlock.header.nSolution.length ≤ MAX_SIZE)
    (fits : merkleBlock.txn.nTransactions < 2^32) (hashes : merkleBlock.txn.vHash.length ≤ MAX_SIZE)
    (bytes : (packBits merkleBlock.txn.vBits).length ≤ MAX_SIZE) :
    Reads Unserialize ⟨merkleBlock.header,merkleBlock.txn.received,[]⟩ merkleBlock.Serialize := by
  have txn := (CPartialMerkleTree.Unserialize_reads fits hashes bytes).bind_pure
    (g := fun txn => (⟨merkleBlock.header,txn,[]⟩ : CMerkleBlock)) rfl
  exact (CBlockHeader.Unserialize_reads short).bind txn

section
variable (hash64 : uint256 → uint256 → uint256) (GetHash : CTransaction → uint256)
  {φ : Type} (IsRelevantAndUpdate : CTransaction → φ → Bool × φ)

/-- The loop of the constructor from the transaction at `i` on, with `vMatch`,
    `vMatchedTxn` and the filter so far: a txid of the set matches, and
    otherwise the filter decides, and may change, as `IsRelevantAndUpdate`;
    only the filter's matches go to `vMatchedTxn`. -/
def matchTransactions (txids : Option (List uint256)) :
    List CTransaction → Nat → List Bool × List (Nat × uint256) × Option φ → List Bool × List (Nat × uint256) × Option φ
  | [], _, acc => acc
  | tx :: rest, i, (vMatch,vMatchedTxn,filter) =>
    let hash := GetHash tx
    if txids.any (fun set => decide (hash ∈ set)) then
      matchTransactions txids rest (i + 1) (vMatch ++ [true],vMatchedTxn,filter)
    else match filter with
      | some f =>
        let (relevant,f) := IsRelevantAndUpdate tx f
        if relevant then matchTransactions txids rest (i + 1) (vMatch ++ [true],vMatchedTxn ++ [(i,hash)],some f)
        else matchTransactions txids rest (i + 1) (vMatch ++ [false],vMatchedTxn,some f)
      | none => matchTransactions txids rest (i + 1) (vMatch ++ [false],vMatchedTxn,none)

/-- The constructor `CMerkleBlock(block, filter, txids)`, with the filter as
    the loop leaves it. -/
def ofBlock (block : CBlock) (filter : Option φ) (txids : Option (List uint256)) : Except String (CMerkleBlock × Option φ) := do
  let (vMatch,vMatchedTxn,filter) := matchTransactions GetHash IsRelevantAndUpdate txids block.vtx 0 ([],[],filter)
  let txn ← CPartialMerkleTree.ofTxids hash64 (block.vtx.map GetHash) vMatch
  pure (⟨block.header,txn,vMatchedTxn⟩,filter)

end

/-- The constructor `CMerkleBlock(block, txids)`: no filter. -/
def ofTxidSet (hash64 : uint256 → uint256 → uint256) (GetHash : CTransaction → uint256) (block : CBlock)
    (txids : List uint256) : Except String CMerkleBlock :=
  Prod.fst <$> ofBlock hash64 GetHash (fun _ (u : Unit) => (false,u)) block none (some txids)

end CMerkleBlock

section
variable (hash64 : uint256 → uint256 → uint256) (GetHash : CTransaction → uint256)

/-- The end of `gettxoutproof`, once the block is found: every txid of the set
    must be in it, and the proof is the serialized merkle block of the set. -/
def gettxoutproof (block : CBlock) (setTxids : List uint256) : Except String (List UInt8) := do
  let ntxFound := (block.vtx.filter fun tx => decide (GetHash tx ∈ setTxids)).length
  if ntxFound ≠ setTxids.length then throw "Not all transactions found in specified or retrieved block"
  let mb ← CMerkleBlock.ofTxidSet hash64 GetHash block setTxids
  pure mb.Serialize

/-- `verifytxoutproof` on the bytes of the proof. `nTxInChain header` is the
    `nTx` of the index of the block with that header when the active chain
    holds it, and `none` when it does not. -/
def verifytxoutproof (nTxInChain : CBlockHeader → Option Nat) (proof : List UInt8) : Except String (List uint256) := do
  let (merkleBlock,_) ← CMerkleBlock.Unserialize.run proof
  let (hashMerkleRoot,vMatch,_) := merkleBlock.txn.ExtractMatches hash64 []
  if hashMerkleRoot ≠ merkleBlock.header.hashMerkleRoot then return []
  match nTxInChain merkleBlock.header with
  | none => throw "Block not found in chain"
  | some nTx =>
    if nTx = 0 then throw "Block not found in chain"
    else if nTx = merkleBlock.txn.nTransactions then pure vMatch
    else pure []

end

/-! ## A proof for a set of txids -/

/-- What the peer extracts from a tree the constructor built, once it has read
    it back: the root and the matches, the padding of the bits ignored. -/
theorem ExtractMatches_received {α : Type} [Inhabited α] [DecidableEq α] (hash64 : α → α → α) {vTxid : List α}
    (nonempty : vTxid ≠ []) (unmutated : (Merkle.ComputeMerkleRoot hash64 vTxid).2 = false)
    (small : vTxid.length ≤ MAX_BLOCK_WEIGHT / MIN_TRANSACTION_WEIGHT) (vMatch : List Bool) (vnIndex : List Nat) :
    CPartialMerkleTree.ExtractMatches hash64 (CPartialMerkleTree.encodedTree hash64 vTxid vMatch).received vnIndex =
      ((Merkle.ComputeMerkleRoot hash64 vTxid).1,
        ((List.range vTxid.length).filter (vMatch.getD · false)).map (vTxid.getD · default),
        vnIndex ++ (List.range vTxid.length).filter (vMatch.getD · false)) := by
  have padding := unpackBits_packBits (CPartialMerkleTree.encodedTree hash64 vTxid vMatch).vBits
  refine CPartialMerkleTree.ExtractMatches_encoding hash64 nonempty unmutated small vMatch
    (t := (CPartialMerkleTree.encodedTree hash64 vTxid vMatch).received) rfl _ padding ?_ rfl rfl vnIndex
  rw [CPartialMerkleTree.received,padding,List.length_append,List.length_replicate]
  omega

/-- The matched positions of a mask computed from the list itself, and the
    entries there, are the list filtered. -/
theorem filter_eq_range_filter {β : Type} (p : β → Bool) (d : β) :
    ∀ l : List β, ((List.range l.length).filter ((l.map p).getD · false)).map (l.getD · d) = l.filter p
  | [] => rfl
  | x :: rest => by
    have shifted : (fun k => ((x :: rest).map p).getD k false) ∘ Nat.succ = fun k => (rest.map p).getD k false := by
      funext k; simp
    have shifted' : (fun k => (x :: rest).getD k d) ∘ Nat.succ = fun k => rest.getD k d := by funext k; simp
    rw [List.length_cons,List.range_succ_eq_map,List.filter_cons,List.filter_map,shifted,List.filter_cons]
    cases px : p x <;>
      simp only [List.map_cons,List.getD_cons_zero,px,if_true,Bool.false_eq_true,if_false,List.map_map,shifted',
        filter_eq_range_filter p d rest]

section
variable (hash64 : uint256 → uint256 → uint256) (GetHash : CTransaction → uint256)

/-- With a set of txids and no filter, the loop of the constructor matches the
    transactions whose hash is in the set, and records none of them. -/
theorem matchTransactions_txids {φ : Type} (IsRelevantAndUpdate : CTransaction → φ → Bool × φ) (set : List uint256) :
    ∀ (txs : List CTransaction) (i : Nat) (vMatch : List Bool) (vMatchedTxn : List (Nat × uint256)),
      CMerkleBlock.matchTransactions GetHash IsRelevantAndUpdate (some set) txs i (vMatch,vMatchedTxn,none) =
        (vMatch ++ txs.map (fun tx => decide (GetHash tx ∈ set)),vMatchedTxn,none)
  | [], _, vMatch, _ => by simp [CMerkleBlock.matchTransactions]
  | tx :: rest, i, vMatch, vMatchedTxn => by
    rw [CMerkleBlock.matchTransactions]
    by_cases member : GetHash tx ∈ set
    · simp only [Option.any_some,member,decide_true,if_true]
      rw [matchTransactions_txids IsRelevantAndUpdate set rest]
      simp [member]
    · simp only [Option.any_some,member,decide_false,Bool.false_eq_true,if_false]
      rw [matchTransactions_txids IsRelevantAndUpdate set rest]
      simp [member]

/-- The transactions `CheckTransaction` accepts, of the ones the reader can
    produce, take sixty bytes at least. -/
theorem GetSerializeSize_of_CheckTransaction {tx : CTransaction} (versioned : tx.JoinSplitsVersioned)
    {fCheckDuplicateInputs : Bool} (checked : CheckTransaction tx fCheckDuplicateInputs = .ok ()) :
    60 ≤ GetSerializeSize tx := by
  simp only [CheckTransaction,Guards.ite_throw_eq_ok] at checked
  obtain ⟨-,spends,pays,-⟩ := checked
  simp only [Bool.and_eq_true,List.isEmpty_iff,not_and_or] at spends pays
  exact GetSerializeSize_ge versioned spends pays

section
variable {CheckBlockHeader : CBlockHeader → Except String Unit} {BlockMerkleRoot : CBlock → uint256 × Bool}
  {GetLegacySigOpCount : CTransaction → Nat} {block : CBlock}
  (accepted : CheckBlock CheckBlockHeader BlockMerkleRoot GetLegacySigOpCount true block = .ok ())
include accepted

/-- The checks `CheckBlock` makes on the transactions pass in a block it accepts. -/
theorem checkBlockTransactions_of_CheckBlock : checkBlockTransactions block = .ok () := by
  simp only [CheckBlock,if_true,Guards.bind_eq_ok] at accepted
  obtain ⟨_,-,checks⟩ := accepted
  rw [Guards.ite_throw_eq_ok,Guards.ite_throw_eq_ok] at checks
  obtain ⟨-,-,rest⟩ := checks
  obtain ⟨⟨⟩,transactions,-⟩ := Guards.bind_eq_ok.mp rest
  exact transactions

/-- `CheckBlock` bounds the serialized size of the block. -/
theorem size_of_CheckBlock : block.GetSerializeSize * WITNESS_SCALE_FACTOR ≤ MAX_BLOCK_WEIGHT := by
  obtain ⟨_,sized,-⟩ := Guards.bind_eq_ok.mp (checkBlockTransactions_of_CheckBlock accepted)
  by_contra heavy
  simp [checkBlockSize,Nat.lt_of_not_le heavy] at sized

/-- `CheckBlock` accepts only transactions that `CheckTransaction` accepts. -/
theorem CheckTransaction_of_CheckBlock : ∀ tx ∈ block.vtx, CheckTransaction tx true = .ok () := by
  obtain ⟨_,-,rest⟩ := Guards.bind_eq_ok.mp (checkBlockTransactions_of_CheckBlock accepted)
  obtain ⟨_,-,each⟩ := Guards.bind_eq_ok.mp rest
  exact Guards.forM_eq_ok.mp each

/-- A block that `CheckBlock` accepts, of transactions the reader can produce,
    holds at most `MAX_BLOCK_WEIGHT / MIN_TRANSACTION_WEIGHT` of them: each takes
    sixty bytes, and the block a quarter of the weight. This is the bound the
    reader of a partial merkle tree checks. -/
theorem vtx_length_of_CheckBlock (versioned : ∀ tx ∈ block.vtx, tx.JoinSplitsVersioned) :
    block.vtx.length ≤ MAX_BLOCK_WEIGHT / MIN_TRANSACTION_WEIGHT := by
  have sized := size_of_CheckBlock accepted
  have each : ∀ tx ∈ block.vtx, 60 ≤ GetSerializeSize tx := fun tx mem =>
    GetSerializeSize_of_CheckTransaction (versioned tx mem) (CheckTransaction_of_CheckBlock accepted tx mem)
  -- the transactions' bytes are a part of the block's
  have total : 60 * block.vtx.length ≤ block.GetSerializeSize :=
    calc 60 * block.vtx.length = (block.vtx.map fun _ => 60).sum := by simp [mul_comm]
      _ ≤ (block.vtx.map GetSerializeSize).sum := List.sum_le_sum each
      _ ≤ block.GetSerializeSize := by
        rw [CBlock.GetSerializeSize_eq,serVector_length]
        exact Nat.le_add_left _ _ |>.trans (Nat.le_add_left _ _)
  simp only [MAX_BLOCK_WEIGHT,MIN_TRANSACTION_WEIGHT,WITNESS_SCALE_FACTOR] at sized ⊢
  omega

end

/-- The sizes the reader of a merkle block checks, for the tree a block's
    txids build and the block's header. -/
theorem sizes_of_CheckBlock {CheckBlockHeader : CBlockHeader → Except String Unit}
    {GetLegacySigOpCount : CTransaction → Nat} {block : CBlock}
    (accepted : CheckBlock CheckBlockHeader (Merkle.BlockMerkleRoot hash64 GetHash) GetLegacySigOpCount true block = .ok ())
    (small : block.vtx.length ≤ MAX_BLOCK_WEIGHT / MIN_TRANSACTION_WEIGHT) (vMatch : List Bool) :
    block.header.nSolution.length ≤ MAX_SIZE ∧ (block.vtx.map GetHash).length < 2^32 ∧
      (CPartialMerkleTree.encodedTree hash64 (block.vtx.map GetHash) vMatch).vHash.length ≤ MAX_SIZE ∧
      (packBits (CPartialMerkleTree.encodedTree hash64 (block.vtx.map GetHash) vMatch).vBits).length ≤ MAX_SIZE := by
  obtain ⟨nonempty,-,-⟩ := Merkle.merkle_of_CheckBlock accepted
  have bound : MAX_BLOCK_WEIGHT / MIN_TRANSACTION_WEIGHT = 33333 := by decide
  have solution : block.header.nSolution.length ≤ block.GetSerializeSize := by
    rw [CBlock.GetSerializeSize_eq,CBlockHeader.Serialize_length]
    omega
  have sized := size_of_CheckBlock accepted
  have hashes := CPartialMerkleTree.length_encoding_hashes hash64 (block.vtx.map GetHash) vMatch _ 0
    (CPartialMerkleTree.root_inside (by simpa using List.length_pos_iff.mpr nonempty))
  have bits := CPartialMerkleTree.length_encoding_bits hash64 (block.vtx.map GetHash) vMatch
    (Nat.clog 2 (block.vtx.map GetHash).length) 0
  rw [CPartialMerkleTree.leafRange_root,List.length_range] at hashes
  simp only [CPartialMerkleTree.encodedTree]
  rw [List.length_map] at hashes bits ⊢
  have depth : Nat.clog 2 block.vtx.length ≤ 16 := Nat.clog_le_of_le_pow (by omega)
  have levels : 2^(Nat.clog 2 block.vtx.length + 1) ≤ 2^17 := Nat.pow_le_pow_right (by decide) (by omega)
  refine ⟨?_,by omega,?_,?_⟩
  · simp only [MAX_BLOCK_WEIGHT,WITNESS_SCALE_FACTOR,MAX_SIZE] at sized ⊢
    omega
  · simp only [MAX_SIZE]
    omega
  · rw [length_packBits]
    simp only [MAX_SIZE]
    omega

/-- The proof of a block that the chain holds and `CheckBlock` accepts, of
    transactions as the reader produces them, for any set of its txids:
    `verifytxoutproof` on the bytes `gettxoutproof` makes returns the block's
    txids that are in the set, in the block's order. -/
theorem verifytxoutproof_gettxoutproof {CheckBlockHeader : CBlockHeader → Except String Unit}
    {GetLegacySigOpCount : CTransaction → Nat} {block : CBlock}
    (accepted : CheckBlock CheckBlockHeader (Merkle.BlockMerkleRoot hash64 GetHash) GetLegacySigOpCount true block = .ok ())
    (versioned : ∀ tx ∈ block.vtx, tx.JoinSplitsVersioned)
    {nTxInChain : CBlockHeader → Option Nat} (inChain : nTxInChain block.header = some block.vtx.length)
    {setTxids : List uint256} (found : (block.vtx.filter fun tx => decide (GetHash tx ∈ setTxids)).length = setTxids.length) :
    ∃ proof, gettxoutproof hash64 GetHash block setTxids = .ok proof ∧
      verifytxoutproof hash64 nTxInChain proof = .ok ((block.vtx.map GetHash).filter fun hash => decide (hash ∈ setTxids)) := by
  obtain ⟨nonempty,root,unmutated⟩ := Merkle.merkle_of_CheckBlock accepted
  have small := vtx_length_of_CheckBlock accepted versioned
  have mask : block.vtx.map (fun tx => decide (GetHash tx ∈ setTxids)) =
      (block.vtx.map GetHash).map fun hash => decide (hash ∈ setTxids) := by
    rw [List.map_map]
    rfl
  obtain ⟨short,fits,hashes,bytes⟩ := sizes_of_CheckBlock hash64 GetHash accepted small
    ((block.vtx.map GetHash).map fun hash => decide (hash ∈ setTxids))
  have built := CPartialMerkleTree.ofTxids_eq hash64 (by simpa using nonempty) fits
    ((block.vtx.map GetHash).map fun hash => decide (hash ∈ setTxids))
  have made : CMerkleBlock.ofTxidSet hash64 GetHash block setTxids =
      .ok ⟨block.header,CPartialMerkleTree.encodedTree hash64 (block.vtx.map GetHash)
        ((block.vtx.map GetHash).map fun hash => decide (hash ∈ setTxids)),[]⟩ := by
    simp only [CMerkleBlock.ofTxidSet,CMerkleBlock.ofBlock,matchTransactions_txids,List.nil_append,mask,built]
    rfl
  refine ⟨CMerkleBlock.Serialize ⟨block.header,CPartialMerkleTree.encodedTree hash64 (block.vtx.map GetHash)
    ((block.vtx.map GetHash).map fun hash => decide (hash ∈ setTxids)),[]⟩,?_,?_⟩
  · rw [gettxoutproof,if_neg (by simpa using found)]
    simp only [made,Guards.ok_bind]
    rfl
  -- the peer reads the merkle block back and extracts the root and the matches
  have read := @CMerkleBlock.Unserialize_reads ⟨block.header,CPartialMerkleTree.encodedTree hash64 (block.vtx.map GetHash)
    ((block.vtx.map GetHash).map fun hash => decide (hash ∈ setTxids)),[]⟩ short fits hashes bytes []
  rw [List.append_nil] at read
  rw [verifytxoutproof,read,Guards.ok_bind]
  dsimp only
  rw [ExtractMatches_received hash64 (by simpa using nonempty) unmutated (by simpa using small)]
  dsimp only
  have counted : (CPartialMerkleTree.encodedTree hash64 (block.vtx.map GetHash)
      ((block.vtx.map GetHash).map fun hash => decide (hash ∈ setTxids))).received.nTransactions = block.vtx.length :=
    List.length_map _
  rw [if_neg (show ¬(Merkle.ComputeMerkleRoot hash64 (block.vtx.map GetHash)).1 ≠ block.header.hashMerkleRoot from
      not_not.mpr root),inChain]
  dsimp only
  rw [if_neg (by simpa using nonempty),if_pos counted.symm,filter_eq_range_filter]
  rfl

/-- A txid of 32 bytes of 7. -/
def sevens : uint256 := ⟨List.replicate 32 7,by simp⟩

/-- A coinbase of no value to `OP_TRUE`. -/
def emptyCoinbase : CTransaction where
  vin := [⟨COutPoint.null,[0x51,0x51],0xffffffff⟩]
  vout := [⟨0,[0x51]⟩]
  nVersion := 1
  nLockTime := 0
  vjoinsplit := []
  joinSplitPubKey := default
  joinSplitSig := default

/-- A block of its coinbase alone, its merkle root the coinbase's txid. -/
def coinbaseBlock : CBlock := ⟨⟨1,default,sevens,default,0,0,default,[]⟩,[emptyCoinbase]⟩

theorem coinbaseBlock_accepted :
    CheckBlock (fun _ => .ok ()) (Merkle.BlockMerkleRoot (fun a _ => a) (fun _ => sevens)) (fun _ => 0) true coinbaseBlock =
      .ok () := by
  have root : Merkle.BlockMerkleRoot (fun a _ => a) (fun _ => sevens) coinbaseBlock = (sevens,false) := by
    rw [Merkle.BlockMerkleRoot,Merkle.ComputeMerkleRoot_short _ (by decide)]
    rfl
  have transactions : checkBlockTransactions coinbaseBlock = .ok () := by decide +kernel
  simp only [CheckBlock,root,transactions]
  decide

theorem verifytxoutproof_gettxoutproof_of_coinbase :
    CheckBlock (fun _ => .ok ()) (Merkle.BlockMerkleRoot (fun a _ => a) (fun _ => sevens)) (fun _ => 0) true coinbaseBlock =
        .ok () ∧
      (∀ tx ∈ coinbaseBlock.vtx, tx.JoinSplitsVersioned) ∧
      (fun header => if header = coinbaseBlock.header then some 1 else none) coinbaseBlock.header =
        some coinbaseBlock.vtx.length ∧
      (coinbaseBlock.vtx.filter fun tx => decide ((fun _ => sevens) tx ∈ [sevens])).length = [sevens].length ∧
      ∃ proof, gettxoutproof (fun a _ => a) (fun _ => sevens) coinbaseBlock [sevens] = .ok proof ∧
        verifytxoutproof (fun a _ => a) (fun header => if header = coinbaseBlock.header then some 1 else none) proof =
          .ok ((coinbaseBlock.vtx.map fun _ => sevens).filter fun hash => decide (hash ∈ [sevens])) :=
  ⟨coinbaseBlock_accepted,by decide,if_pos rfl,by decide,
    verifytxoutproof_gettxoutproof _ _ coinbaseBlock_accepted (by decide) (if_pos rfl) (by decide)⟩

/-- The positions a mask sets, each with the hash at it. -/
def matchedPairs (hashes : List uint256) (vMatch : List Bool) : List (Nat × uint256) :=
  ((List.range vMatch.length).filter (vMatch.getD · false)).map fun j => (j,hashes.getD j default)

/-- One more bit of the mask: one more pair where it is set. -/
theorem matchedPairs_push (hashes : List uint256) (vMatch : List Bool) (b : Bool) :
    matchedPairs hashes (vMatch ++ [b]) =
      matchedPairs hashes vMatch ++ (if b then [(vMatch.length,hashes.getD vMatch.length default)] else []) := by
  rw [matchedPairs,matchedPairs,List.length_append,List.length_singleton,List.range_succ,List.filter_append,
    List.map_append]
  congr 1
  · congr 1
    exact List.filter_congr fun j mem => List.getD_append _ _ _ _ (List.mem_range.mp mem)
  · rw [List.filter_singleton,List.getD_append_right _ _ _ _ (Nat.le_refl _),Nat.sub_self]
    cases b <;> rfl

variable {φ : Type} (IsRelevantAndUpdate : CTransaction → φ → Bool × φ)

/-- With a filter and no set of txids, the loop of the constructor keeps
    `vMatchedTxn` the pairs of the positions its mask sets, whatever the filter
    decides. -/
theorem matchTransactions_filter (vtx : List CTransaction) :
    ∀ (txs : List CTransaction) (vMatch : List Bool) (f : φ), txs = vtx.drop vMatch.length →
      ∃ bits f', CMerkleBlock.matchTransactions GetHash IsRelevantAndUpdate none txs vMatch.length
          (vMatch,matchedPairs (vtx.map GetHash) vMatch,some f) =
        (vMatch ++ bits,matchedPairs (vtx.map GetHash) (vMatch ++ bits),some f') ∧ bits.length = txs.length
  | [], vMatch, f, _ => ⟨[],f,by simp [CMerkleBlock.matchTransactions],rfl⟩
  | tx :: rest, vMatch, f, at_i => by
    have hash : GetHash tx = (vtx.map GetHash).getD vMatch.length default := by
      have inside : vMatch.length < vtx.length := by
        have := congrArg List.length at_i
        simp only [List.length_cons,List.length_drop] at this
        omega
      rw [List.getD_eq_getElem _ _ (by simpa using inside),List.getElem_map,
        ← List.head_drop (by simp; omega)]
      simp [← at_i]
    have after : rest = vtx.drop (vMatch.length + 1) := by
      rw [← List.tail_drop,← at_i]
      rfl
    obtain ⟨relevant,f₁,decided⟩ : ∃ relevant f₁, IsRelevantAndUpdate tx f = (relevant,f₁) := ⟨_,_,rfl⟩
    rw [CMerkleBlock.matchTransactions]
    simp only [Option.any_none,Bool.false_eq_true,if_false,decided]
    have longer : ∀ b : Bool, vMatch.length + 1 = (vMatch ++ [b]).length := fun _ => by simp
    have next : ∀ b : Bool, rest = vtx.drop (vMatch ++ [b]).length := fun b => by rw [← longer b]; exact after
    cases relevant
    · have pairs : matchedPairs (vtx.map GetHash) vMatch = matchedPairs (vtx.map GetHash) (vMatch ++ [false]) := by
        rw [matchedPairs_push,if_neg Bool.false_ne_true,List.append_nil]
      rw [if_neg Bool.false_ne_true,pairs,longer false]
      obtain ⟨bits,f',run,count⟩ := matchTransactions_filter vtx rest (vMatch ++ [false]) f₁ (next false)
      exact ⟨false :: bits,f',by rw [run]; simp,by simp [count]⟩
    · have pairs : matchedPairs (vtx.map GetHash) vMatch ++ [(vMatch.length,GetHash tx)] =
          matchedPairs (vtx.map GetHash) (vMatch ++ [true]) := by
        rw [matchedPairs_push,if_pos rfl,hash]
      rw [if_pos rfl,pairs,longer true]
      obtain ⟨bits,f',run,count⟩ := matchTransactions_filter vtx rest (vMatch ++ [true]) f₁ (next true)
      exact ⟨true :: bits,f',by rw [run]; simp,by simp [count]⟩

/-- The merkle block a node sends a peer for its filter, for a block of
    transactions as the reader produces them that `CheckBlock` accepts: whatever the filter matches, the peer reads the
    merkle block back, and `ExtractMatches` gives it the header's merkle root
    and exactly the positions and txids that the sender kept in
    `vMatchedTxn`, whose transactions it sends after the merkle block. -/
theorem merkleblock_filter_extracts_vMatchedTxn {CheckBlockHeader : CBlockHeader → Except String Unit}
    {GetLegacySigOpCount : CTransaction → Nat} {block : CBlock}
    (accepted : CheckBlock CheckBlockHeader (Merkle.BlockMerkleRoot hash64 GetHash) GetLegacySigOpCount true block = .ok ())
    (versioned : ∀ tx ∈ block.vtx, tx.JoinSplitsVersioned) (filter : φ) :
    ∃ merkleBlock filter', CMerkleBlock.ofBlock hash64 GetHash IsRelevantAndUpdate block (some filter) none =
        .ok (merkleBlock,filter') ∧
      ∃ received, Reads CMerkleBlock.Unserialize received merkleBlock.Serialize ∧ received.header = block.header ∧
        CPartialMerkleTree.ExtractMatches hash64 received.txn [] =
          (block.header.hashMerkleRoot,merkleBlock.vMatchedTxn.map Prod.snd,merkleBlock.vMatchedTxn.map Prod.fst) := by
  obtain ⟨nonempty,root,unmutated⟩ := Merkle.merkle_of_CheckBlock accepted
  have small := vtx_length_of_CheckBlock accepted versioned
  obtain ⟨bits,filter',run,count⟩ := matchTransactions_filter GetHash IsRelevantAndUpdate block.vtx block.vtx [] filter rfl
  rw [List.nil_append,List.length_nil] at run
  obtain ⟨short,fits,hashes,bytes⟩ := sizes_of_CheckBlock hash64 GetHash accepted small bits
  have built := CPartialMerkleTree.ofTxids_eq hash64 (by simpa using nonempty) fits bits
  refine ⟨⟨block.header,CPartialMerkleTree.encodedTree hash64 (block.vtx.map GetHash) bits,
    matchedPairs (block.vtx.map GetHash) bits⟩,filter',?_,
    ⟨block.header,(CPartialMerkleTree.encodedTree hash64 (block.vtx.map GetHash) bits).received,[]⟩,
    @CMerkleBlock.Unserialize_reads ⟨block.header,CPartialMerkleTree.encodedTree hash64 (block.vtx.map GetHash) bits,
      matchedPairs (block.vtx.map GetHash) bits⟩ short fits hashes bytes,rfl,?_⟩
  · have start : (([],[],some filter) : List Bool × List (Nat × uint256) × Option φ) =
        ([],matchedPairs (block.vtx.map GetHash) [],some filter) := rfl
    simp only [CMerkleBlock.ofBlock,start,run,built,Guards.ok_bind]
    rfl
  · dsimp only
    rw [ExtractMatches_received hash64 (by simpa using nonempty) unmutated (by simpa using small)]
    have length : (block.vtx.map GetHash).length = bits.length := by rw [List.length_map,count]
    simp only [matchedPairs,List.map_map,length,List.nil_append,Function.comp_def,List.map_id']
    exact Prod.ext root rfl

theorem merkleblock_filter_matching_all :
    CheckBlock (fun _ => .ok ()) (Merkle.BlockMerkleRoot (fun a _ => a) (fun _ => sevens)) (fun _ => 0) true coinbaseBlock =
        .ok () ∧
      (∀ tx ∈ coinbaseBlock.vtx, tx.JoinSplitsVersioned) ∧
      ∃ merkleBlock filter', CMerkleBlock.ofBlock (fun a _ => a) (fun _ => sevens) (fun _ (u : Unit) => (true,u))
          coinbaseBlock (some ()) none = .ok (merkleBlock,filter') ∧
        ∃ received, StreamReader.Reads CMerkleBlock.Unserialize received merkleBlock.Serialize ∧
          received.header = coinbaseBlock.header ∧
          CPartialMerkleTree.ExtractMatches (fun a _ => a) received.txn [] =
            (coinbaseBlock.header.hashMerkleRoot,merkleBlock.vMatchedTxn.map Prod.snd,merkleBlock.vMatchedTxn.map Prod.fst) :=
  ⟨coinbaseBlock_accepted,by decide,
    merkleblock_filter_extracts_vMatchedTxn _ _ (fun _ (u : Unit) => (true,u)) coinbaseBlock_accepted (by decide) ()⟩

end

end BitcoinPrivate
