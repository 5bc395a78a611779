import BitcoinPrivate.Library.ByteBits
import BitcoinPrivate.Script.Script
import BitcoinPrivate.Primitives.TransactionCodec

/-!
The Bloom filter of bloom.cpp that a light client loads into its peer. A key
is in the filter where the bits of its `nHashFuncs` hashes are set; the flags
`isFull` and `isEmpty` cut `insert` and `contains` short for a filter of all
ones or all zeros.

All the node ever does to a filter is insert: `IsRelevantAndUpdate` inserts
the outpoints of the outputs it matches (`IsRelevantAndUpdate_inserts`). An
insert keeps every key (`contains_insert_of_contains`) and a key inserted
into a filter that has bits to hash into is contained (`contains_insert_self`),
so a filter only grows, and a transaction that carries a key the filter
contains, as its txid, as the outpoint one of its inputs spends or as an
element one of its scripts pushes, is relevant (`relevant_of_Carries`).
`Valid` is what the filters a peer can hold satisfy: within the protocol's
sizes, bits to hash into unless full, and flags that agree with the bytes; on
such a filter the flags only shortcut the test of every hashed bit
(`Valid.contains_eq_all_bits`).

MurmurHash3, the txid and `Solver` are parameters. The constructor from a
number of elements and a false-positive rate, `clear` and `reset` are not
modelled: the node holds only filters of the default constructor and of
`filterload`.
-/
namespace BitcoinPrivate
open ByteBits StreamReader

/-- `MAX_BLOOM_FILTER_SIZE`, in bytes. -/
def MAX_BLOOM_FILTER_SIZE : Nat := 36000

def MAX_HASH_FUNCS : Nat := 50

/-- The `bloomflags` under `BLOOM_UPDATE_MASK`, which say what
    `IsRelevantAndUpdate` inserts for an output it matches. -/
def BLOOM_UPDATE_ALL : UInt8 := 1

def BLOOM_UPDATE_P2PUBKEY_ONLY : UInt8 := 2

def BLOOM_UPDATE_MASK : UInt8 := 3

/-- `txnouttype` of script/standard.h: what `Solver` makes of a script. -/
inductive txnouttype where
  | TX_NONSTANDARD
  | TX_PUBKEY
  | TX_PUBKEYHASH
  | TX_SCRIPTHASH
  | TX_MULTISIG
  | TX_NULL_DATA
  | TX_WITNESS_V0_SCRIPTHASH
  | TX_WITNESS_V0_KEYHASH
  | TX_WITNESS_UNKNOWN
  deriving DecidableEq, Repr

structure CBloomFilter where
  vData : List UInt8
  isFull : Bool
  isEmpty : Bool
  nHashFuncs : UInt32
  nTweak : UInt32
  nFlags : UInt8
  deriving DecidableEq, Repr

namespace CBloomFilter

/-- `CBloomFilter()`: no bits, and full, so that it matches everything. -/
def init : CBloomFilter := ⟨[],true,false,0,0,0⟩

/-- The fields of `SerializationOp`: the bytes, the number of hashes, the
    tweak and the flags; `isFull` and `isEmpty` are not sent. -/
def Serialize (f : CBloomFilter) : List UInt8 :=
  serVector (fun b => [b]) f.vData ++ serUInt32 f.nHashFuncs ++ serUInt32 f.nTweak ++ ser_writedata8 f.nFlags.toNat

/-- `vRecv >> filter` into a `CBloomFilter()`: the flags stay the constructor's. -/
def Unserialize : Reader UInt8 CBloomFilter := do
  let vData ← unserializeBytes
  let nHashFuncs ← unserializeUInt32
  let nTweak ← unserializeUInt32
  let nFlags ← ser_readdata8
  pure ⟨vData,true,false,nHashFuncs,nTweak,nFlags.toUInt8⟩

def IsWithinSizeConstraints (f : CBloomFilter) : Bool :=
  f.vData.length ≤ MAX_BLOOM_FILTER_SIZE && f.nHashFuncs.toNat ≤ MAX_HASH_FUNCS

/-- `UpdateEmptyFull`: full where every byte is `0xff`, empty where every byte is zero. -/
def UpdateEmptyFull (f : CBloomFilter) : CBloomFilter :=
  { f with isFull := f.vData.all (· == 0xff), isEmpty := f.vData.all (· == 0) }

section
variable (MurmurHash3 : UInt32 → List UInt8 → UInt32)

/-- `Hash`: the bit of the `nHashNum`th hash of the key. -/
def Hash (f : CBloomFilter) (nHashNum : Nat) (vDataToHash : List UInt8) : Nat :=
  (MurmurHash3 (nHashNum.toUInt32 * 0xFBA4C795 + f.nTweak) vDataToHash).toNat % (f.vData.length * 8)

def insert (f : CBloomFilter) (vKey : List UInt8) : CBloomFilter :=
  if f.isFull then f
  else
    { f with
      vData := (List.range f.nHashFuncs.toNat).foldl
        (fun vData i =>
          let nIndex := Hash MurmurHash3 f i vKey
          vData.modify (nIndex >>> 3) (· ||| ((1 : UInt8) <<< (7 &&& nIndex).toUInt8)))
        f.vData
      isEmpty := false }

def contains (f : CBloomFilter) (vKey : List UInt8) : Bool :=
  if f.isFull then true
  else if f.isEmpty then false
  else
    (List.range f.nHashFuncs.toNat).all fun i =>
      let nIndex := Hash MurmurHash3 f i vKey
      (f.vData.getD (nIndex >>> 3) 0 &&& ((1 : UInt8) <<< (7 &&& nIndex).toUInt8)) != 0

/-- The bits of the key's hashes, in the order of the hash loops. -/
def hashes (f : CBloomFilter) (vKey : List UInt8) : List Nat :=
  (List.range f.nHashFuncs.toNat).map fun i => Hash MurmurHash3 f i vKey

end

theorem Unserialize_reads {f : CBloomFilter} (short : f.vData.length ≤ MAX_SIZE) :
    Reads Unserialize { f with isFull := true, isEmpty := false } f.Serialize := by
  have small : f.nFlags.toNat < 256 := f.nFlags.toNat_lt
  simp only [Serialize,List.append_assoc]
  exact (unserializeBytes_reads short).bind ((unserializeUInt32_reads _).bind ((unserializeUInt32_reads _).bind
    ((ser_readdata8_reads small).bind_pure (by simp))))

/-- `UpdateEmptyFull` reads only the bytes. -/
@[simp] theorem UpdateEmptyFull_flags (f : CBloomFilter) (full empty : Bool) :
    UpdateEmptyFull { f with isFull := full, isEmpty := empty } = f.UpdateEmptyFull := rfl

@[simp] theorem IsWithinSizeConstraints_flags (f : CBloomFilter) (full empty : Bool) :
    IsWithinSizeConstraints { f with isFull := full, isEmpty := empty } = f.IsWithinSizeConstraints := rfl

/-! ## Insert and contains as bits -/

section
variable (MurmurHash3 : UInt32 → List UInt8 → UInt32)

theorem insert_eq (f : CBloomFilter) (vKey : List UInt8) :
    insert MurmurHash3 f vKey =
      if f.isFull then f else { f with vData := setBits f.vData (hashes MurmurHash3 f vKey), isEmpty := false } := by
  simp only [insert,hashes,setBits,List.foldl_map,shiftRight_three,seven_and]

theorem insert_of_not_full {f : CBloomFilter} (full : f.isFull = false) (vKey : List UInt8) :
    insert MurmurHash3 f vKey = { f with vData := setBits f.vData (hashes MurmurHash3 f vKey), isEmpty := false } := by
  rw [insert_eq,full,if_neg Bool.false_ne_true]

theorem contains_eq (f : CBloomFilter) (vKey : List UInt8) :
    contains MurmurHash3 f vKey = (f.isFull || !f.isEmpty && (hashes MurmurHash3 f vKey).all (bit f.vData)) := by
  simp only [contains,hashes,List.all_map,Function.comp_def,shiftRight_three,seven_and,getD_and_ne_zero]
  cases f.isFull <;> cases f.isEmpty <;> rfl

@[simp] theorem insert_isFull (f : CBloomFilter) (vKey : List UInt8) :
    (insert MurmurHash3 f vKey).isFull = f.isFull := by
  rw [insert_eq]
  split_ifs <;> rfl

@[simp] theorem insert_nHashFuncs (f : CBloomFilter) (vKey : List UInt8) :
    (insert MurmurHash3 f vKey).nHashFuncs = f.nHashFuncs := by
  rw [insert_eq]
  split_ifs <;> rfl

@[simp] theorem insert_nTweak (f : CBloomFilter) (vKey : List UInt8) :
    (insert MurmurHash3 f vKey).nTweak = f.nTweak := by
  rw [insert_eq]
  split_ifs <;> rfl

@[simp] theorem insert_nFlags (f : CBloomFilter) (vKey : List UInt8) :
    (insert MurmurHash3 f vKey).nFlags = f.nFlags := by
  rw [insert_eq]
  split_ifs <;> rfl

@[simp] theorem length_insert (f : CBloomFilter) (vKey : List UInt8) :
    (insert MurmurHash3 f vKey).vData.length = f.vData.length := by
  rw [insert_eq]
  split_ifs
  · rfl
  · exact length_setBits _ _

/-- The hashes read only the number of bytes, the tweak and the number of
    hashes, which an insert keeps. -/
@[simp] theorem hashes_insert (f : CBloomFilter) (vKey vKey' : List UInt8) :
    hashes MurmurHash3 (insert MurmurHash3 f vKey) vKey' = hashes MurmurHash3 f vKey' := by
  simp [hashes,Hash]

theorem lt_of_mem_hashes {f : CBloomFilter} (bits : 0 < f.vData.length) {vKey : List UInt8} {p : Nat}
    (mem : p ∈ hashes MurmurHash3 f vKey) : p < f.vData.length * 8 := by
  obtain ⟨i,-,rfl⟩ := List.mem_map.mp mem
  exact Nat.mod_lt _ (by omega)

/-- An insert keeps every key the filter contained. -/
theorem contains_insert_of_contains (f : CBloomFilter) (vKey : List UInt8) {vKey' : List UInt8}
    (had : contains MurmurHash3 f vKey' = true) : contains MurmurHash3 (insert MurmurHash3 f vKey) vKey' = true := by
  cases full : f.isFull
  · rw [contains_eq,full,Bool.false_or,Bool.and_eq_true,List.all_eq_true] at had
    rw [contains_eq,hashes_insert,insert_of_not_full MurmurHash3 full]
    simp only [full,Bool.not_false,Bool.true_and,Bool.false_or,List.all_eq_true]
    exact fun p mem => bit_setBits_of_bit (had.2 p mem) _
  · rw [insert_eq,if_pos full]
    exact had

/-- A key inserted into a filter with bits to hash into is contained. -/
theorem contains_insert_self {f : CBloomFilter} (hashable : f.isFull = true ∨ 0 < f.vData.length) (vKey : List UInt8) :
    contains MurmurHash3 (insert MurmurHash3 f vKey) vKey = true := by
  cases full : f.isFull
  · have bits : 0 < f.vData.length := by simpa [full] using hashable
    rw [contains_eq,hashes_insert,insert_of_not_full MurmurHash3 full]
    simp only [full,Bool.not_false,Bool.true_and,Bool.false_or,List.all_eq_true]
    intro p mem
    rw [bit_setBits (fun _ mem' => lt_of_mem_hashes MurmurHash3 bits mem') p]
    simp [mem]
  · rw [insert_eq,if_pos full,contains_eq,full,Bool.true_or]

theorem contains_foldl_insert_of_contains (keys : List (List UInt8)) {f : CBloomFilter} {vKey : List UInt8}
    (had : contains MurmurHash3 f vKey = true) : contains MurmurHash3 (keys.foldl (insert MurmurHash3) f) vKey = true := by
  induction keys generalizing f with
  | nil => exact had
  | cons key keys ih => exact ih (contains_insert_of_contains MurmurHash3 f key had)

/-- What every insert keeps, a run of inserts keeps. -/
theorem foldl_insert_keeps {β : Type} (field : CBloomFilter → β) (kept : ∀ f vKey, field (insert MurmurHash3 f vKey) = field f)
    (keys : List (List UInt8)) (f : CBloomFilter) : field (keys.foldl (insert MurmurHash3) f) = field f := by
  induction keys generalizing f with
  | nil => rfl
  | cons key keys ih => rw [List.foldl_cons,ih,kept]

@[simp] theorem foldl_insert_nFlags (keys : List (List UInt8)) (f : CBloomFilter) :
    (keys.foldl (insert MurmurHash3) f).nFlags = f.nFlags :=
  foldl_insert_keeps MurmurHash3 nFlags (insert_nFlags MurmurHash3) keys f

@[simp] theorem foldl_insert_isFull (keys : List (List UInt8)) (f : CBloomFilter) :
    (keys.foldl (insert MurmurHash3) f).isFull = f.isFull :=
  foldl_insert_keeps MurmurHash3 isFull (insert_isFull MurmurHash3) keys f

end

/-! ## The filters a peer can hold -/

/-- What every filter a peer holds satisfies: it is within the protocol's
    sizes, it has bits to hash into unless it is full, so `Hash` never takes a
    remainder by zero, and its flags agree with its bytes. -/
structure Valid (f : CBloomFilter) : Prop where
  sized : f.IsWithinSizeConstraints = true
  hashable : f.isFull = true ∨ 0 < f.vData.length
  full : f.isFull = true → ∀ b ∈ f.vData, b = 0xff
  empty : f.isEmpty = true → ∀ b ∈ f.vData, b = 0

theorem valid_init : init.Valid where
  sized := rfl
  hashable := .inl rfl
  full := fun _ b mem => by simp [init] at mem
  empty := fun empty => by simp [init] at empty

/-- The filter of a `filterload` that passes the size check. -/
theorem valid_UpdateEmptyFull {f : CBloomFilter} (sized : f.IsWithinSizeConstraints = true) : f.UpdateEmptyFull.Valid where
  sized := sized
  hashable := by
    cases bytes : f.vData with
    | nil => simp [UpdateEmptyFull,bytes]
    | cons b bs => exact .inr (by simp [UpdateEmptyFull,bytes])
  full := fun full => by simpa [UpdateEmptyFull] using full
  empty := fun empty => by simpa [UpdateEmptyFull] using empty

section
variable (MurmurHash3 : UInt32 → List UInt8 → UInt32)

theorem Valid.insert {f : CBloomFilter} (valid : f.Valid) (vKey : List UInt8) : (insert MurmurHash3 f vKey).Valid := by
  cases full : f.isFull
  · have bits : 0 < f.vData.length := by simpa [full] using valid.hashable
    rw [insert_of_not_full MurmurHash3 full]
    exact ⟨by simpa [IsWithinSizeConstraints] using valid.sized,.inr (by simpa using bits),
      fun full' => by simp [full] at full',fun empty => by simp at empty⟩
  · rw [insert_eq,if_pos full]
    exact valid

theorem Valid.foldl_insert {f : CBloomFilter} (valid : f.Valid) (keys : List (List UInt8)) :
    (keys.foldl (CBloomFilter.insert MurmurHash3) f).Valid := by
  induction keys generalizing f with
  | nil => exact valid
  | cons key keys ih => exact ih (valid.insert MurmurHash3 key)

/-- The flags only shortcut the test of every hashed bit: on a valid filter
    with bits and hashes, `contains` answers what that test answers. -/
theorem Valid.contains_eq_all_bits {f : CBloomFilter} (valid : f.Valid) (bits : 0 < f.vData.length)
    (hashing : 0 < f.nHashFuncs.toNat) (vKey : List UInt8) :
    contains MurmurHash3 f vKey = (hashes MurmurHash3 f vKey).all (bit f.vData) := by
  rw [contains_eq]
  cases full : f.isFull
  · cases empty : f.isEmpty
    · rfl
    -- every byte is zero, and there is a hash to test
    · have first : Hash MurmurHash3 f 0 vKey ∈ hashes MurmurHash3 f vKey :=
        List.mem_map.mpr ⟨0,List.mem_range.mpr hashing,rfl⟩
      have unset := bit_of_forall_eq_zero (valid.empty empty) (Hash MurmurHash3 f 0 vKey)
      symm
      rw [Bool.false_or,Bool.not_true,Bool.false_and,List.all_eq_false]
      exact ⟨_,first,by rw [unset]; decide⟩
  -- every byte is `0xff`, and every hash falls inside the bytes
  · symm
    rw [Bool.true_or,List.all_eq_true]
    exact fun p mem => bit_of_forall_eq_ff (valid.full full) (lt_of_mem_hashes MurmurHash3 bits mem)

end

/-! ## Matching transactions -/

section
variable (MurmurHash3 : UInt32 → List UInt8 → UInt32) (GetHash : CTransaction → uint256) (Solver : CScript → txnouttype)

/-- Whether the outpoint of an output that matched goes into the filter:
    always under `BLOOM_UPDATE_ALL`, and for a pay-to-pubkey or multisig
    script under `BLOOM_UPDATE_P2PUBKEY_ONLY`. -/
def updatesOn (f : CBloomFilter) (scriptPubKey : CScript) : Bool :=
  if f.nFlags &&& BLOOM_UPDATE_MASK = BLOOM_UPDATE_ALL then true
  else if f.nFlags &&& BLOOM_UPDATE_MASK = BLOOM_UPDATE_P2PUBKEY_ONLY then
    let type := Solver scriptPubKey
    type == .TX_PUBKEY || type == .TX_MULTISIG
  else false

/-- The scan of one output's script, which stops at the first element it
    pushes that the filter contains: whether there is one, and the filter
    after the insert of the output's outpoint that a match makes. -/
def matchOutput (f : CBloomFilter) (hash : uint256) (i : Nat) (txout : CTxOut) : Bool × CBloomFilter :=
  if (ScriptOps txout.scriptPubKey).1.any fun op => op.2.length != 0 && contains MurmurHash3 f op.2 then
    (true,if updatesOn Solver f txout.scriptPubKey then insert MurmurHash3 f (COutPoint.Serialize ⟨hash,i.toUInt32⟩) else f)
  else (false,f)

/-- The loop over the outputs from the one at `i`, with `fFound` and the filter so far. -/
def matchOutputs (hash : uint256) : Nat → List CTxOut → Bool × CBloomFilter → Bool × CBloomFilter
  | _, [], acc => acc
  | i, txout :: rest, acc =>
    let matched := matchOutput MurmurHash3 Solver acc.2 hash i txout
    matchOutputs hash (i + 1) rest (acc.1 || matched.1,matched.2)

/-- The loop over the inputs: an outpoint an input spends, or an element its
    script pushes, that the filter contains. -/
def matchInputs (f : CBloomFilter) (vin : List CTxIn) : Bool :=
  vin.any fun txin =>
    contains MurmurHash3 f txin.prevout.Serialize ||
      (ScriptOps txin.scriptSig).1.any fun op => op.2.length != 0 && contains MurmurHash3 f op.2

/-- `IsRelevantAndUpdate`: whether the transaction is relevant to the filter,
    and the filter after the inserts the outputs' loop makes. -/
def IsRelevantAndUpdate (f : CBloomFilter) (tx : CTransaction) : Bool × CBloomFilter :=
  if f.isFull then (true,f)
  else if f.isEmpty then (false,f)
  else
    let hash := GetHash tx
    let found := matchOutputs MurmurHash3 Solver hash 0 tx.vout (contains MurmurHash3 f hash.data,f)
    if found.1 then (true,found.2) else (matchInputs MurmurHash3 found.2 tx.vin,found.2)

/-- What a transaction carries that `IsRelevantAndUpdate` looks up: its txid,
    an element one of its output scripts pushes, the outpoint one of its inputs
    spends, or an element one of its input scripts pushes. -/
def Carries (vKey : List UInt8) (tx : CTransaction) : Prop :=
  vKey = (GetHash tx).data ∨
    (vKey ≠ [] ∧ ∃ txout ∈ tx.vout, ∃ opcode, (opcode,vKey) ∈ (ScriptOps txout.scriptPubKey).1) ∨
    (∃ txin ∈ tx.vin, vKey = txin.prevout.Serialize) ∨
    (vKey ≠ [] ∧ ∃ txin ∈ tx.vin, ∃ opcode, (opcode,vKey) ∈ (ScriptOps txin.scriptSig).1)

theorem updatesOn_foldl_insert (keys : List (List UInt8)) (f : CBloomFilter) (scriptPubKey : CScript) :
    updatesOn Solver (keys.foldl (insert MurmurHash3) f) scriptPubKey = updatesOn Solver f scriptPubKey := by
  simp only [updatesOn,foldl_insert_nFlags]

/-- The scan of a script finds an element it pushes that the filter contains. -/
theorem any_pushed_of_contains {f : CBloomFilter} {script : CScript} {opcode : opcodetype} {vKey : List UInt8}
    (pushed : (opcode,vKey) ∈ (ScriptOps script).1) (nonempty : vKey ≠ []) (had : contains MurmurHash3 f vKey = true) :
    ((ScriptOps script).1.any fun op => op.2.length != 0 && contains MurmurHash3 f op.2) = true :=
  List.any_eq_true.mpr ⟨_,pushed,by simp [nonempty,had]⟩

theorem matchOutput_inserts (f : CBloomFilter) (hash : uint256) (i : Nat) (txout : CTxOut) :
    ∃ keys : List (List UInt8), (matchOutput MurmurHash3 Solver f hash i txout).2 = keys.foldl (insert MurmurHash3) f := by
  unfold matchOutput
  split_ifs
  · exact ⟨[COutPoint.Serialize ⟨hash,i.toUInt32⟩],rfl⟩
  · exact ⟨[],rfl⟩
  · exact ⟨[],rfl⟩

theorem matchOutputs_inserts (hash : uint256) (vout : List CTxOut) (i : Nat) (fFound : Bool) (f : CBloomFilter) :
    ∃ keys : List (List UInt8), (matchOutputs MurmurHash3 Solver hash i vout (fFound,f)).2 = keys.foldl (insert MurmurHash3) f := by
  induction vout generalizing i fFound f with
  | nil => exact ⟨[],rfl⟩
  | cons txout rest ih =>
    obtain ⟨first,matched⟩ := matchOutput_inserts MurmurHash3 Solver f hash i txout
    obtain ⟨later,run⟩ := ih (i + 1) (fFound || (matchOutput MurmurHash3 Solver f hash i txout).1)
      (matchOutput MurmurHash3 Solver f hash i txout).2
    refine ⟨first ++ later,?_⟩
    rw [matchOutputs,run,matched,List.foldl_append]

/-- What `IsRelevantAndUpdate` does to a filter: it inserts some keys. -/
theorem IsRelevantAndUpdate_inserts (f : CBloomFilter) (tx : CTransaction) :
    ∃ keys : List (List UInt8), (IsRelevantAndUpdate MurmurHash3 GetHash Solver f tx).2 = keys.foldl (insert MurmurHash3) f := by
  unfold IsRelevantAndUpdate
  split_ifs
  · exact ⟨[],rfl⟩
  · exact ⟨[],rfl⟩
  · obtain ⟨keys,run⟩ := matchOutputs_inserts MurmurHash3 Solver (GetHash tx) tx.vout 0
      (contains MurmurHash3 f (GetHash tx).data) f
    refine ⟨keys,?_⟩
    dsimp only
    split_ifs <;> exact run

theorem matchOutputs_found (hash : uint256) (vout : List CTxOut) (i : Nat) (f : CBloomFilter) :
    (matchOutputs MurmurHash3 Solver hash i vout (true,f)).1 = true := by
  induction vout generalizing i f with
  | nil => rfl
  | cons txout rest ih => exact ih (i + 1) _

/-- The loop over the outputs finds an element pushed by one of them that the
    filter contains, whatever it inserted before. -/
theorem matchOutputs_found_of_pushed {vout : List CTxOut} {txout : CTxOut} (output : txout ∈ vout) {opcode : opcodetype}
    {vKey : List UInt8} (pushed : (opcode,vKey) ∈ (ScriptOps txout.scriptPubKey).1) (nonempty : vKey ≠ [])
    (hash : uint256) (i : Nat) (fFound : Bool) {f : CBloomFilter} (had : contains MurmurHash3 f vKey = true) :
    (matchOutputs MurmurHash3 Solver hash i vout (fFound,f)).1 = true := by
  induction vout generalizing i fFound f with
  | nil => simp at output
  | cons first rest ih =>
    rw [matchOutputs]
    rcases List.mem_cons.mp output with here | later
    · subst here
      have found : (matchOutput MurmurHash3 Solver f hash i txout).1 = true := by
        rw [matchOutput,if_pos (any_pushed_of_contains MurmurHash3 pushed nonempty had)]
      rw [found,Bool.or_true]
      exact matchOutputs_found MurmurHash3 Solver hash rest (i + 1) _
    · obtain ⟨keys,matched⟩ := matchOutput_inserts MurmurHash3 Solver f hash i first
      exact ih later (i + 1) _ (by rw [matched]; exact contains_foldl_insert_of_contains MurmurHash3 keys had)

/-- `IsRelevantAndUpdate` past its shortcuts: the outputs' loop, then the
    inputs' loop on the filter the outputs' loop left. -/
theorem IsRelevantAndUpdate_eq {f : CBloomFilter} (full : f.isFull = false) (empty : f.isEmpty = false)
    (tx : CTransaction) :
    (IsRelevantAndUpdate MurmurHash3 GetHash Solver f tx).1 =
      ((matchOutputs MurmurHash3 Solver (GetHash tx) 0 tx.vout (contains MurmurHash3 f (GetHash tx).data,f)).1 ||
        matchInputs MurmurHash3
          (matchOutputs MurmurHash3 Solver (GetHash tx) 0 tx.vout (contains MurmurHash3 f (GetHash tx).data,f)).2 tx.vin) := by
  simp only [IsRelevantAndUpdate,full,empty,Bool.false_eq_true,if_false]
  split_ifs with found
  · rw [found,Bool.true_or]
  · rw [Bool.not_eq_true] at found
    rw [found,Bool.false_or]

/-- `IsRelevantAndUpdate` has no false negatives: a transaction that carries a
    key the filter contains is relevant. -/
theorem relevant_of_Carries {f : CBloomFilter} {vKey : List UInt8} (had : contains MurmurHash3 f vKey = true)
    {tx : CTransaction} (carried : Carries GetHash vKey tx) :
    (IsRelevantAndUpdate MurmurHash3 GetHash Solver f tx).1 = true := by
  cases full : f.isFull
  · cases empty : f.isEmpty
    · rw [IsRelevantAndUpdate_eq MurmurHash3 GetHash Solver full empty]
      obtain ⟨keys,outputs⟩ := matchOutputs_inserts MurmurHash3 Solver (GetHash tx) tx.vout 0
        (contains MurmurHash3 f (GetHash tx).data) f
      -- the filter the inputs' loop reads still contains the key
      have kept := contains_foldl_insert_of_contains MurmurHash3 keys had
      rw [outputs,Bool.or_eq_true]
      rcases carried with txid | ⟨nonempty,txout,output,opcode,pushed⟩ | ⟨txin,input,spent⟩ |
          ⟨nonempty,txin,input,opcode,pushed⟩
      · subst txid
        rw [had]
        exact .inl (matchOutputs_found MurmurHash3 Solver _ _ _ _)
      · exact .inl (matchOutputs_found_of_pushed MurmurHash3 Solver output pushed nonempty _ _ _ had)
      · refine .inr (List.any_eq_true.mpr ⟨txin,input,?_⟩)
        rw [← spent,kept,Bool.true_or]
      · refine .inr (List.any_eq_true.mpr ⟨txin,input,?_⟩)
        rw [any_pushed_of_contains MurmurHash3 pushed nonempty kept,Bool.or_true]
    · rw [contains_eq,full,empty] at had
      simp at had
  · simp [IsRelevantAndUpdate,full]

/-- The outputs' loop inserts the outpoint of an output it matches under
    flags that update on its script. -/
theorem matchOutputs_contains_outpoint (hash : uint256) {vout : List CTxOut} {j : Nat} {txout : CTxOut}
    (output : vout[j]? = some txout) {opcode : opcodetype} {vKey : List UInt8}
    (pushed : (opcode,vKey) ∈ (ScriptOps txout.scriptPubKey).1) (nonempty : vKey ≠ []) (i : Nat) (fFound : Bool)
    {f : CBloomFilter} (valid : f.Valid) (had : contains MurmurHash3 f vKey = true)
    (updates : updatesOn Solver f txout.scriptPubKey = true) :
    contains MurmurHash3 (matchOutputs MurmurHash3 Solver hash i vout (fFound,f)).2
      (COutPoint.Serialize ⟨hash,(i + j).toUInt32⟩) = true := by
  induction vout generalizing i j fFound f with
  | nil => simp at output
  | cons first rest ih =>
    obtain ⟨keys,matched⟩ := matchOutput_inserts MurmurHash3 Solver f hash i first
    cases j with
    | zero =>
      cases List.getElem?_cons_zero ▸ output
      -- the match inserts the outpoint, and the loop after it keeps it
      have inserted : (matchOutput MurmurHash3 Solver f hash i txout).2 =
          insert MurmurHash3 f (COutPoint.Serialize ⟨hash,(i + 0).toUInt32⟩) := by
        rw [matchOutput,if_pos (any_pushed_of_contains MurmurHash3 pushed nonempty had),updates,if_pos rfl]
        rfl
      obtain ⟨later,run⟩ := matchOutputs_inserts MurmurHash3 Solver hash rest (i + 1)
        (fFound || (matchOutput MurmurHash3 Solver f hash i txout).1) (matchOutput MurmurHash3 Solver f hash i txout).2
      rw [matchOutputs,run,inserted]
      exact contains_foldl_insert_of_contains MurmurHash3 later (contains_insert_self MurmurHash3 valid.hashable _)
    | succ j =>
      rw [List.getElem?_cons_succ] at output
      have shifted := ih output (i + 1) (fFound || (matchOutput MurmurHash3 Solver f hash i first).1)
        (f := (matchOutput MurmurHash3 Solver f hash i first).2) (by rw [matched]; exact valid.foldl_insert MurmurHash3 keys)
        (by rw [matched]; exact contains_foldl_insert_of_contains MurmurHash3 keys had)
        (by rw [matched,updatesOn_foldl_insert]; exact updates)
      rw [show i + 1 + j = i + (j + 1) by omega] at shifted
      rw [matchOutputs]
      exact shifted

/-- A relevant output under flags that update on its script puts its outpoint
    in the filter, so that the transactions that spend it are relevant too. -/
theorem IsRelevantAndUpdate_contains_outpoint {f : CBloomFilter} (valid : f.Valid) {tx : CTransaction} {i : Nat}
    {txout : CTxOut} (output : tx.vout[i]? = some txout) {opcode : opcodetype} {vKey : List UInt8}
    (pushed : (opcode,vKey) ∈ (ScriptOps txout.scriptPubKey).1) (nonempty : vKey ≠ [])
    (had : contains MurmurHash3 f vKey = true) (updates : updatesOn Solver f txout.scriptPubKey = true) :
    (IsRelevantAndUpdate MurmurHash3 GetHash Solver f tx).1 = true ∧
      contains MurmurHash3 (IsRelevantAndUpdate MurmurHash3 GetHash Solver f tx).2
        (COutPoint.Serialize ⟨GetHash tx,i.toUInt32⟩) = true := by
  refine ⟨relevant_of_Carries MurmurHash3 GetHash Solver had
    (.inr (.inl ⟨nonempty,txout,List.mem_of_getElem? output,opcode,pushed⟩)),?_⟩
  cases full : f.isFull
  · cases empty : f.isEmpty
    · have kept := matchOutputs_contains_outpoint MurmurHash3 Solver (GetHash tx) output pushed nonempty 0
        (contains MurmurHash3 f (GetHash tx).data) valid had updates
      rw [Nat.zero_add] at kept
      simp only [IsRelevantAndUpdate,full,empty,Bool.false_eq_true,if_false]
      split_ifs <;> exact kept
    · rw [contains_eq,full,empty] at had
      simp at had
  · simp [IsRelevantAndUpdate,full,contains_eq]

end

end CBloomFilter

end BitcoinPrivate
