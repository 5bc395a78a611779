import BitcoinPrivate.Primitives.Block

/-!
The fork of `fork.h` and `fork.cpp`. Blocks at the fork heights carry the UTXO
snapshot of the forked chains as coinbases, and their header marks them with a
sentinel in `hashReserved`. `ContextualCheckBlockFork` reads the snapshot file of
the height, a sequence of records (an 8-byte amount, an 8-byte script size, the
script, and a `'\n'` that may be missing), and compares the `i`-th record with
the first output of the `i`-th transaction.

A stream is the list of bytes still unread; a failed read ends the loop, as the
source's `break`s do.
-/
namespace BitcoinPrivate

/-- `forkExtraHashSentinel`. `uint256S` reads the hex digits as a little-endian
    number, so the bytes stand in the reverse order of the text. -/
def forkExtraHashSentinel : uint256 :=
  ⟨[0x0f,0x0f,0x0f,0x0f,0xaf,0xaf,0xaf,0xaf] ++ List.replicate 16 0xff ++ [0xfa,0xfa,0xfa,0xfa,0xf0,0xf0,0xf0,0xf0],
    rfl⟩

def FORK_CB_PER_BLOCK : Nat := 10000

def isForkBlock (nHeight forkStartHeight forkHeightRange : Int) : Bool :=
  forkStartHeight < nHeight && nHeight ≤ forkStartHeight + forkHeightRange

def looksLikeForkBlockHeader (header : CBlockHeader) : Bool := header.hashReserved == forkExtraHashSentinel

def isForkEnabled (nHeight forkStartHeight : Int) : Bool := forkStartHeight < nHeight

/-- `std::istream::read` of `count` bytes: the bytes and the rest of the stream,
    or `none` when fewer remain and the read fails. -/
def istreamRead (count : Nat) (stream : List UInt8) : Option (List UInt8 × List UInt8) :=
  if count ≤ stream.length then some (stream.take count, stream.drop count) else none

/-- `bytes2uint64` over the eight chars of `array`. A `char` is signed, and the
    cast to `uint64_t` sign-extends it before the shift and the mask. -/
def bytes2uint64 (array : List Int8) : UInt64 :=
  let c (i : Nat) : UInt64 := (array.getD i 0).toInt64.toUInt64
  c 0 &&& (0x00000000000000ff : UInt64) |||
    c 1 <<< 8 &&& (0x000000000000ff00 : UInt64) |||
    c 2 <<< 16 &&& (0x0000000000ff0000 : UInt64) |||
    c 3 <<< 24 &&& (0x00000000ff000000 : UInt64) |||
    c 4 <<< 32 &&& (0x000000ff00000000 : UInt64) |||
    c 5 <<< 40 &&& (0x0000ff0000000000 : UInt64) |||
    c 6 <<< 48 &&& (0x00ff000000000000 : UInt64) |||
    c 7 <<< 56 &&& (0xff00000000000000 : UInt64)

/-- A snapshot record: an amount and a `scriptPubKey`. -/
abbrev ForkRecord := UInt64 × CScript

/-- The reading loop of `ContextualCheckBlockFork`, with `allowance` records left
    before `FORK_CB_PER_BLOCK`. It returns `txFromFile` and `recs`: a record whose
    separator cannot be read is kept but not counted. `int pbsize` keeps the low
    32 bits of the size, and `new char[pbsize]` throws on a negative one. -/
def readRecords : Nat → List UInt8 → Except String (List ForkRecord × Nat)
  | 0, _ => .ok ([],0)
  | allowance + 1, stream =>
    match istreamRead 8 stream with
    | none => .ok ([],0)
    | some (coin,stream) =>
      let amount := bytes2uint64 (coin.map UInt8.toInt8)
      match istreamRead 8 stream with
      | none => .ok ([],0)
      | some (pubkeysize,stream) =>
        let pbsize : Int32 := (bytes2uint64 (pubkeysize.map UInt8.toInt8)).toUInt32.toInt32
        if pbsize < 0 then .error "std::bad_array_new_length"
        else
          match istreamRead pbsize.toInt.toNat stream with
          | none => .ok ([],0)
          | some (script,stream) =>
            match istreamRead 1 stream with
            | none => .ok ([(amount,script)],0)
            | some (term,rest) =>
              -- a byte that is not the separator is read again as the next record's first
              let stream := if term = [0x0a] then rest else stream
              (fun (records,recs) => ((amount,script) :: records,recs + 1)) <$> readRecords allowance stream

/-- Whether a record is the output: `rec.first != tx.vout[0].nValue` compares
    the amount with the value converted to `uint64_t`. -/
def recordMatches (rec : ForkRecord) (out : CTxOut) : Bool :=
  rec.1.toNat == (out.nValue % 2^64).toNat && rec.2 == out.scriptPubKey

/-- The comparison loop: each record against the first output of its
    transaction. `none` where that output does not exist, which the source reads
    out of bounds. -/
def compareRecords : List ForkRecord → List CTransaction → Option (Except String Unit)
  | rec :: records, tx :: vtx =>
    match tx.vout with
    | [] => none
    | out :: _ => if recordMatches rec out then compareRecords records vtx else some (.error "bad-fork-block")
  | _, _ => some (.ok ())

/-- `ContextualCheckBlockFork` for the block at `nHeight`. `fExpensiveChecks` is
    false below the last checkpoint; `utxoFile` is the content of the snapshot
    file of the height, or `none` when it does not open, and the block is then
    accepted unchecked. `none` as a whole is undefined behaviour. -/
def ContextualCheckBlockFork (fExpensiveChecks : Bool) (forkStartHeight forkHeightRange nHeight : Int)
    (utxoFile : Option (List UInt8)) (block : CBlock) : Option (Except String Unit) :=
  if fExpensiveChecks && isForkBlock nHeight forkStartHeight forkHeightRange then
    match utxoFile with
    | none => some (.ok ())
    | some file =>
      match readRecords FORK_CB_PER_BLOCK file with
      | .error e => some (.error e)
      | .ok (txFromFile,recs) =>
        if txFromFile.length ≠ block.vtx.length ∨ recs ≠ block.vtx.length then some (.error "bad-fork-block")
        else compareRecords txFromFile block.vtx
  else some (.ok ())

end BitcoinPrivate
