import BitcoinPrivate.Library.CompleteTree
import BitcoinPrivate.Library.LittleEndian
import BitcoinPrivate.Library.BitStream
import BitcoinPrivate.Library.ByteFloat
import BitcoinPrivate.Library.Guards
import BitcoinPrivate.Library.ByteBits
import BitcoinPrivate.Library.FiniteMap
import BitcoinPrivate.Zcash.IncrementalMerkleTree
import BitcoinPrivate.Zcash.TreeRefinement
import BitcoinPrivate.Zcash.WitnessRefinement
import BitcoinPrivate.Primitives.Transaction
import BitcoinPrivate.Primitives.Serialize
import BitcoinPrivate.Coins.CoinsView
import BitcoinPrivate.Coins.Cache
import BitcoinPrivate.Coins.CacheRefinement
import BitcoinPrivate.Coins.CacheSimulation
import BitcoinPrivate.Consensus.TxVerify
import BitcoinPrivate.Primitives.Block
import BitcoinPrivate.Validation.Fork
import BitcoinPrivate.Validation.CheckBlock
import BitcoinPrivate.Script.SignatureHash
import BitcoinPrivate.Coins.CoinsViewDB
import BitcoinPrivate.Validation.ConnectBlock
import BitcoinPrivate.Consensus.TxValues
import BitcoinPrivate.Library.StreamReader
import BitcoinPrivate.Primitives.Unserialize
import BitcoinPrivate.Primitives.VarInt
import BitcoinPrivate.Coins.Compressor
import BitcoinPrivate.Primitives.ArithUint256
import BitcoinPrivate.Zcash.TreeWellFormed
import BitcoinPrivate.Primitives.TransactionCodec
import BitcoinPrivate.Validation.MemPoolAccept
import BitcoinPrivate.Library.AlignedBlocks
import BitcoinPrivate.Crypto.Equihash
import BitcoinPrivate.Crypto.EquihashSolution
import BitcoinPrivate.Crypto.MinimalEncoding
import BitcoinPrivate.Script.Script
import BitcoinPrivate.Script.Interpreter
import BitcoinPrivate.Script.SignatureEncoding
import BitcoinPrivate.Script.ScriptNum
import BitcoinPrivate.Util.Bech32
import BitcoinPrivate.Library.TagWords
import BitcoinPrivate.Bloom.RollingBloomFilter
import BitcoinPrivate.Library.Limbs
import BitcoinPrivate.Primitives.BaseUint
import BitcoinPrivate.Validation.ScriptFlags
import BitcoinPrivate.Consensus.SigOpCost
import BitcoinPrivate.Consensus.Merkle
import BitcoinPrivate.Chain.BlockIndex
import BitcoinPrivate.Chain.VersionBits
import BitcoinPrivate.Consensus.Pow
import BitcoinPrivate.Library.Pairing
import BitcoinPrivate.Crypto.ProbableDuplicate
import BitcoinPrivate.Library.Regroup
import BitcoinPrivate.Util.StrEncodings
import BitcoinPrivate.Primitives.BitStreams
import BitcoinPrivate.Index.BlockFilter
import BitcoinPrivate.Primitives.PartialMerkleTree
import BitcoinPrivate.Primitives.MerkleBlock
import BitcoinPrivate.Chain.ActiveChain
import BitcoinPrivate.Bloom.BloomFilter
import BitcoinPrivate.Net.FilterMessages
import BitcoinPrivate.Library.Framing
import BitcoinPrivate.Net.MessageHeader
import BitcoinPrivate.Net.ReceiveBuffer
import BitcoinPrivate.Net.Connection
import BitcoinPrivate.Library.DigitArray
import BitcoinPrivate.Util.Base58
import BitcoinPrivate.Util.FixedPoint
import BitcoinPrivate.Library.Laxer
import BitcoinPrivate.Script.SoftFork
