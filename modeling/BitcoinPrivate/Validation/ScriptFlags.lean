import BitcoinPrivate.Script.Interpreter
import BitcoinPrivate.Validation.Fork

/-!
The script verification flags a node asks for: `GetBlockScriptFlags` of
`validation.cpp` for the scripts of a block, and the flags of `policy/policy.h`
for a transaction that enters the mempool. After the fork height a block's
scripts run with `SCRIPT_VERIFY_FORKID` and `SCRIPT_VERIFY_WITNESS_FORK`, which
no mempool transaction is checked with.
-/
namespace BitcoinPrivate

/-- `MANDATORY_SCRIPT_VERIFY_FLAGS`. -/
def MANDATORY_SCRIPT_VERIFY_FLAGS : UInt32 :=
  SCRIPT_VERIFY_P2SH ||| SCRIPT_VERIFY_DERSIG ||| SCRIPT_VERIFY_CHECKLOCKTIMEVERIFY ||| SCRIPT_VERIFY_FORKID

/-- `STANDARD_SCRIPT_VERIFY_FLAGS`. -/
def STANDARD_SCRIPT_VERIFY_FLAGS : UInt32 :=
  MANDATORY_SCRIPT_VERIFY_FLAGS ||| SCRIPT_VERIFY_STRICTENC ||| SCRIPT_VERIFY_MINIMALDATA ||| SCRIPT_VERIFY_NULLDUMMY |||
    SCRIPT_VERIFY_DISCOURAGE_UPGRADABLE_NOPS ||| SCRIPT_VERIFY_CLEANSTACK ||| SCRIPT_VERIFY_MINIMALIF |||
    SCRIPT_VERIFY_NULLFAIL ||| SCRIPT_VERIFY_CHECKSEQUENCEVERIFY ||| SCRIPT_VERIFY_LOW_S ||| SCRIPT_VERIFY_WITNESS |||
    SCRIPT_VERIFY_DISCOURAGE_UPGRADABLE_WITNESS_PROGRAM ||| SCRIPT_VERIFY_WITNESS_PUBKEYTYPE |||
    SCRIPT_VERIFY_CONST_SCRIPTCODE

/-- What `GetBlockScriptFlags` reads of the chain parameters and of the block's
    parent: the heights of BIP66 and BIP65, the fork start, and whether the CSV
    and the segwit deployments are active there (`IsWitnessEnabled` and
    `IsNullDummyEnabled` both ask the latter). -/
structure ScriptFlagsParams where
  BIP66Height : Int
  BIP65Height : Int
  ForkStartHeight : Int
  csvActive : Bool
  segwitActive : Bool

/-- `GetBlockScriptFlags` for a block at `nHeight`; `none` where an assert fails:
    CSV active without segwit, or a height of BIP66 or BIP65 above the block's. -/
def GetBlockScriptFlags (nHeight : Int) (params : ScriptFlagsParams) : Option UInt32 :=
  let flags := SCRIPT_VERIFY_P2SH
  let flags := if nHeight ≥ params.BIP66Height then flags ||| SCRIPT_VERIFY_DERSIG else flags
  let flags := if nHeight ≥ params.BIP65Height then flags ||| SCRIPT_VERIFY_CHECKLOCKTIMEVERIFY else flags
  -- Start enforcing rules for first hard fork
  let flags := if isForkEnabled nHeight params.ForkStartHeight then
      flags ||| SCRIPT_VERIFY_FORKID ||| SCRIPT_VERIFY_WITNESS_FORK else flags
  if params.csvActive && !params.segwitActive then none else
  let flags := if params.csvActive then flags ||| SCRIPT_VERIFY_CHECKSEQUENCEVERIFY ||| SCRIPT_VERIFY_WITNESS else flags
  let flags := if params.segwitActive then flags ||| SCRIPT_VERIFY_NULLDUMMY else flags
  -- these are enforced from the genesis block
  let minimal_required := SCRIPT_VERIFY_P2SH ||| SCRIPT_VERIFY_DERSIG ||| SCRIPT_VERIFY_CHECKLOCKTIMEVERIFY
  if flags &&& minimal_required != minimal_required then none else some flags

end BitcoinPrivate
