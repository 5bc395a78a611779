import BitcoinPrivate.Bloom.BloomFilter
import BitcoinPrivate.Primitives.MerkleBlock

/-!
What net_processing.cpp does with the Bloom filter of a peer. Every `CNode`
starts with a `CBloomFilter()`, which matches everything; `filterload`
replaces it with a filter the peer sends, `filteradd` inserts a key,
`filterclear` puts back a `CBloomFilter()`, and every transaction the node
considers announcing to the peer, at a trickle or in reply to `mempool`, and
every transaction of a merkle block it sends, goes through
`IsRelevantAndUpdate`, which inserts the outpoints of the outputs it matches.

So every event but `filterload` inserts keys or clears the filter to match
everything (`step_cases`), and from that alone: every peer always holds a
valid filter (`run_valid`), so the branches for a missing filter never run
and `Hash` never takes a remainder by zero; a key stays in the filter until
the next `filterload` (`run_contains`), so the node announces every
transaction that carries a key the peer added; and under the update flags
the outpoint of a matched output stays in the filter, so the transactions
that spend it are announced too.

The rest of `CNode` and of the two functions, the fee filter, the inventory
already known and the limits on what one trickle sends, decide whether a
transaction reaches the filter's test at all and are not modelled.
-/
namespace BitcoinPrivate.Net
open CBloomFilter StreamReader

/-- The fields of `CNode` that the filter messages read and write. -/
structure CNode where
  fRelayTxes : Bool
  pfilter : Option CBloomFilter
  deriving DecidableEq, Repr

/-- A new `CNode`: no transactions before its version message, and a `CBloomFilter()`. -/
def CNode.init : CNode := ⟨false,some CBloomFilter.init⟩

/-- The messages of a peer that touch its filter. -/
inductive PeerMessage where
  /-- `version`, with the `fRelay` it carries, or `true` where it has none. -/
  | version (fRelay : Bool)
  | filterload (vRecv : List UInt8)
  | filteradd (vRecv : List UInt8)
  | filterclear
  /-- `getdata` for a `MSG_FILTERED_BLOCK` that the node sends. -/
  | filteredBlock (block : CBlock)

/-- What happens to a peer's filter: a message from the peer, or a
    transaction the node considers announcing to it, at a trickle, where
    `fRelayTxes` off empties `setInventoryTxToSend` first, or in its reply to
    a `mempool` message. -/
inductive PeerEvent where
  | message (msg : PeerMessage)
  | trickle (tx : CTransaction)
  | mempool (tx : CTransaction)

section
variable (MurmurHash3 : UInt32 → List UInt8 → UInt32) (GetHash : CTransaction → uint256)
  (Solver : CScript → txnouttype) (nodeBloom : Bool)

/-- `ProcessMessage` for the messages that touch the filter, with `nodeBloom`
    for `NODE_BLOOM` among the node's services: the peer after, and whether the
    node punishes it, with `Misbehaving` or `fDisconnect`. A message that does
    not read throws, and `ProcessMessages` drops it. -/
def ProcessMessage (pfrom : CNode) : PeerMessage → CNode × Bool
  | .version fRelay => ({ pfrom with fRelayTxes := fRelay },false)
  | .filterload vRecv =>
    if !nodeBloom then (pfrom,true)
    else match Unserialize.run vRecv with
      | .error _ => (pfrom,false)
      | .ok (filter,_) =>
        if !filter.IsWithinSizeConstraints then (pfrom,true)
        else ({ pfrom with pfilter := some filter.UpdateEmptyFull, fRelayTxes := true },false)
  | .filteradd vRecv =>
    if !nodeBloom then (pfrom,true)
    else match unserializeBytes.run vRecv with
      | .error _ => (pfrom,false)
      | .ok (vData,_) =>
        if vData.length > MAX_SCRIPT_ELEMENT_SIZE then (pfrom,true)
        else match pfrom.pfilter with
          | some filter => ({ pfrom with pfilter := some (filter.insert MurmurHash3 vData) },false)
          | none => (pfrom,true)
  | .filterclear =>
    ({ pfrom with pfilter := if nodeBloom then some CBloomFilter.init else pfrom.pfilter, fRelayTxes := true },false)
  | .filteredBlock block =>
    match pfrom.pfilter with
    | some filter =>
      let matched := CMerkleBlock.matchTransactions GetHash
        (fun tx f => f.IsRelevantAndUpdate MurmurHash3 GetHash Solver tx) none block.vtx 0 ([],[],some filter)
      ({ pfrom with pfilter := matched.2.2 },false)
    | none => (pfrom,false)

/-- The filter's test in `SendMessages`, the same at its two sites: a peer
    with a filter is sent the transaction where `IsRelevantAndUpdate` finds it
    relevant. Whether it is announced, and the peer after. -/
def IsRelevantToPeer (pto : CNode) (tx : CTransaction) : Bool × CNode :=
  match pto.pfilter with
  | some filter =>
    let checked := filter.IsRelevantAndUpdate MurmurHash3 GetHash Solver tx
    (checked.1,{ pto with pfilter := some checked.2 })
  | none => (true,pto)

def step (pfrom : CNode) : PeerEvent → CNode
  | .message msg => (ProcessMessage MurmurHash3 GetHash Solver nodeBloom pfrom msg).1
  | .trickle tx => if pfrom.fRelayTxes then (IsRelevantToPeer MurmurHash3 GetHash Solver pfrom tx).2 else pfrom
  | .mempool tx => (IsRelevantToPeer MurmurHash3 GetHash Solver pfrom tx).2

def run (pfrom : CNode) (events : List PeerEvent) : CNode :=
  events.foldl (step MurmurHash3 GetHash Solver nodeBloom) pfrom

/-! ## What one event does to the filter -/

/-- The loop of the merkle block's constructor inserts some keys into the filter. -/
theorem matchTransactions_inserts (txs : List CTransaction) (i : Nat) (vMatch : List Bool)
    (vMatchedTxn : List (Nat × uint256)) (f : CBloomFilter) :
    ∃ keys : List (List UInt8),
      (CMerkleBlock.matchTransactions GetHash (fun tx f => f.IsRelevantAndUpdate MurmurHash3 GetHash Solver tx) none
        txs i (vMatch,vMatchedTxn,some f)).2.2 = some (keys.foldl (insert MurmurHash3) f) := by
  induction txs generalizing i vMatch vMatchedTxn f with
  | nil => exact ⟨[],rfl⟩
  | cons tx rest ih =>
    obtain ⟨first,checked⟩ := IsRelevantAndUpdate_inserts MurmurHash3 GetHash Solver f tx
    obtain ⟨relevant,f₁,decided⟩ : ∃ relevant f₁, f.IsRelevantAndUpdate MurmurHash3 GetHash Solver tx = (relevant,f₁) :=
      ⟨_,_,rfl⟩
    rw [decided] at checked
    -- whatever the transaction's bit, the loop goes on from the filter it left
    have later : ∀ vMatch' vMatchedTxn', ∃ keys : List (List UInt8),
        (CMerkleBlock.matchTransactions GetHash (fun tx f => f.IsRelevantAndUpdate MurmurHash3 GetHash Solver tx) none
          rest (i + 1) (vMatch',vMatchedTxn',some f₁)).2.2 = some (keys.foldl (insert MurmurHash3) f) := by
      intro vMatch' vMatchedTxn'
      obtain ⟨keys,run⟩ := ih (i + 1) vMatch' vMatchedTxn' f₁
      exact ⟨first ++ keys,by rw [run,List.foldl_append,← checked]⟩
    rw [CMerkleBlock.matchTransactions]
    simp only [Option.any_none,Bool.false_eq_true,if_false,decided]
    cases relevant
    · exact later _ _
    · exact later _ _

theorem IsRelevantToPeer_inserts {pto : CNode} {f : CBloomFilter} (held : pto.pfilter = some f) (tx : CTransaction) :
    ∃ keys : List (List UInt8),
      (IsRelevantToPeer MurmurHash3 GetHash Solver pto tx).2.pfilter = some (keys.foldl (insert MurmurHash3) f) := by
  obtain ⟨keys,checked⟩ := IsRelevantAndUpdate_inserts MurmurHash3 GetHash Solver f tx
  refine ⟨keys,?_⟩
  simp only [IsRelevantToPeer,held,checked]

/-- What a message does to the filter: it inserts some keys, puts back a
    `CBloomFilter()`, or is a `filterload` that installs a filter within the
    size constraints. -/
theorem ProcessMessage_cases {pfrom : CNode} {f : CBloomFilter} (held : pfrom.pfilter = some f) (msg : PeerMessage) :
    (∃ keys : List (List UInt8),
        (ProcessMessage MurmurHash3 GetHash Solver nodeBloom pfrom msg).1.pfilter = some (keys.foldl (insert MurmurHash3) f)) ∨
      (ProcessMessage MurmurHash3 GetHash Solver nodeBloom pfrom msg).1.pfilter = some CBloomFilter.init ∨
      ∃ (vRecv : List UInt8) (filter : CBloomFilter), msg = .filterload vRecv ∧ filter.IsWithinSizeConstraints = true ∧
        (ProcessMessage MurmurHash3 GetHash Solver nodeBloom pfrom msg).1.pfilter = some filter.UpdateEmptyFull := by
  -- a message that leaves the filter inserts no keys
  have kept : ∃ keys : List (List UInt8), pfrom.pfilter = some (keys.foldl (insert MurmurHash3) f) := ⟨[],held⟩
  cases msg with
  | version fRelay => exact .inl kept
  | filterload vRecv =>
    cases nodeBloom
    · exact .inl kept
    · cases read : Unserialize.run vRecv with
      | error e => simpa [ProcessMessage,read] using Or.inl kept
      | ok p =>
        obtain ⟨filter,rest⟩ := p
        cases sized : filter.IsWithinSizeConstraints
        · simpa [ProcessMessage,read,sized] using Or.inl kept
        · exact .inr (.inr ⟨vRecv,filter,rfl,sized,by simp [ProcessMessage,read,sized]⟩)
  | filteradd vRecv =>
    cases nodeBloom
    · exact .inl kept
    · cases read : unserializeBytes.run vRecv with
      | error e => simpa [ProcessMessage,read] using Or.inl kept
      | ok p =>
        obtain ⟨vData,rest⟩ := p
        by_cases long : vData.length > MAX_SCRIPT_ELEMENT_SIZE
        · simpa [ProcessMessage,read,long] using Or.inl kept
        · exact .inl ⟨[vData],by simp [ProcessMessage,read,long,held]⟩
  | filterclear =>
    cases nodeBloom
    · exact .inl kept
    · exact .inr (.inl rfl)
  | filteredBlock block =>
    obtain ⟨keys,matched⟩ := matchTransactions_inserts MurmurHash3 GetHash Solver block.vtx 0 [] [] f
    exact .inl ⟨keys,by simp only [ProcessMessage,held,matched]⟩

/-- What an event does to the filter. -/
theorem step_cases {pfrom : CNode} {f : CBloomFilter} (held : pfrom.pfilter = some f) (e : PeerEvent) :
    (∃ keys : List (List UInt8),
        (step MurmurHash3 GetHash Solver nodeBloom pfrom e).pfilter = some (keys.foldl (insert MurmurHash3) f)) ∨
      (step MurmurHash3 GetHash Solver nodeBloom pfrom e).pfilter = some CBloomFilter.init ∨
      ∃ (vRecv : List UInt8) (filter : CBloomFilter), e = .message (.filterload vRecv) ∧ filter.IsWithinSizeConstraints = true ∧
        (step MurmurHash3 GetHash Solver nodeBloom pfrom e).pfilter = some filter.UpdateEmptyFull := by
  cases e with
  | message msg =>
    rcases ProcessMessage_cases MurmurHash3 GetHash Solver nodeBloom held msg with
      inserted | cleared | ⟨vRecv,filter,rfl,sized,loaded⟩
    · exact .inl inserted
    · exact .inr (.inl cleared)
    · exact .inr (.inr ⟨vRecv,filter,rfl,sized,loaded⟩)
  | trickle tx =>
    by_cases relay : pfrom.fRelayTxes
    · simpa [step,relay] using Or.inl (IsRelevantToPeer_inserts MurmurHash3 GetHash Solver held tx)
    · simpa [step,relay] using Or.inl (⟨[],held⟩ : ∃ keys : List (List UInt8), pfrom.pfilter = some (keys.foldl (insert MurmurHash3) f))
  | mempool tx => exact .inl (IsRelevantToPeer_inserts MurmurHash3 GetHash Solver held tx)

/-! ## Every peer's filter over a run -/

/-- What every peer satisfies: it holds a filter, and a valid one. -/
def PeerValid (pfrom : CNode) : Prop := ∃ f, pfrom.pfilter = some f ∧ f.Valid

theorem step_valid {pfrom : CNode} (valid : PeerValid pfrom) (e : PeerEvent) :
    PeerValid (step MurmurHash3 GetHash Solver nodeBloom pfrom e) := by
  obtain ⟨f,held,good⟩ := valid
  rcases step_cases MurmurHash3 GetHash Solver nodeBloom held e with ⟨keys,inserted⟩ | cleared | ⟨-,filter,-,sized,loaded⟩
  · exact ⟨_,inserted,good.foldl_insert MurmurHash3 keys⟩
  · exact ⟨_,cleared,valid_init⟩
  · exact ⟨_,loaded,valid_UpdateEmptyFull sized⟩

theorem valid_init_peer : PeerValid CNode.init := ⟨_,rfl,valid_init⟩

theorem run_valid {pfrom : CNode} (valid : PeerValid pfrom) (events : List PeerEvent) :
    PeerValid (run MurmurHash3 GetHash Solver nodeBloom pfrom events) := by
  induction events generalizing pfrom with
  | nil => exact valid
  | cons e events ih => exact ih (step_valid MurmurHash3 GetHash Solver nodeBloom valid e)

/-- A key stays in the filter through an event other than `filterload`. -/
theorem step_contains {pfrom : CNode} {f : CBloomFilter} (held : pfrom.pfilter = some f) {vKey : List UInt8}
    (had : contains MurmurHash3 f vKey = true) {e : PeerEvent} (reload : ∀ vRecv, e ≠ .message (.filterload vRecv)) :
    ∃ g, (step MurmurHash3 GetHash Solver nodeBloom pfrom e).pfilter = some g ∧ contains MurmurHash3 g vKey = true := by
  rcases step_cases MurmurHash3 GetHash Solver nodeBloom held e with ⟨keys,inserted⟩ | cleared | ⟨vRecv,-,loads,-⟩
  · exact ⟨_,inserted,contains_foldl_insert_of_contains MurmurHash3 keys had⟩
  -- a `CBloomFilter()` is full, and contains every key
  · exact ⟨_,cleared,by rw [contains_eq]; rfl⟩
  · exact absurd loads (reload vRecv)

/-- A key stays in the filter until the next `filterload`. -/
theorem run_contains {pfrom : CNode} {f : CBloomFilter} (held : pfrom.pfilter = some f) {vKey : List UInt8}
    (had : contains MurmurHash3 f vKey = true) {events : List PeerEvent}
    (reloads : ∀ vRecv, PeerEvent.message (.filterload vRecv) ∉ events) :
    ∃ g, (run MurmurHash3 GetHash Solver nodeBloom pfrom events).pfilter = some g ∧ contains MurmurHash3 g vKey = true := by
  induction events generalizing pfrom f with
  | nil => exact ⟨f,held,had⟩
  | cons e events ih =>
    have reload : ∀ vRecv, e ≠ .message (.filterload vRecv) := fun vRecv loads =>
      reloads vRecv (loads ▸ List.mem_cons_self)
    obtain ⟨g,held',had'⟩ := step_contains MurmurHash3 GetHash Solver nodeBloom held had reload
    exact ih held' had' fun vRecv mem => reloads vRecv (List.mem_cons_of_mem e mem)

/-- A full filter stays full until the next `filterload`. -/
theorem run_full {pfrom : CNode} {f : CBloomFilter} (held : pfrom.pfilter = some f) (full : f.isFull = true)
    {events : List PeerEvent} (reloads : ∀ vRecv, PeerEvent.message (.filterload vRecv) ∉ events) :
    ∃ g, (run MurmurHash3 GetHash Solver nodeBloom pfrom events).pfilter = some g ∧ g.isFull = true := by
  induction events generalizing pfrom f with
  | nil => exact ⟨f,held,full⟩
  | cons e events ih =>
    have later : ∀ vRecv, PeerEvent.message (.filterload vRecv) ∉ events := fun vRecv mem =>
      reloads vRecv (List.mem_cons_of_mem e mem)
    rcases step_cases MurmurHash3 GetHash Solver nodeBloom held e with ⟨keys,inserted⟩ | cleared | ⟨vRecv,-,loads,-⟩
    · exact ih inserted (by rw [foldl_insert_isFull]; exact full) later
    · exact ih cleared rfl later
    · exact absurd (loads ▸ List.mem_cons_self) (reloads vRecv)

/-- The test of a peer whose filter contains a key the transaction carries announces it. -/
theorem IsRelevantToPeer_of_Carries {pto : CNode} {f : CBloomFilter} (held : pto.pfilter = some f) {vKey : List UInt8}
    (had : contains MurmurHash3 f vKey = true) {tx : CTransaction} (carried : CBloomFilter.Carries GetHash vKey tx) :
    (IsRelevantToPeer MurmurHash3 GetHash Solver pto tx).1 = true := by
  simp only [IsRelevantToPeer,held]
  exact relevant_of_Carries MurmurHash3 GetHash Solver had carried

/-- Every peer, whatever it sent and was sent, holds a filter, and a valid one:
    the branches for a missing filter never run, and `Hash` never takes a
    remainder by zero. -/
theorem peer_filter_valid (events : List PeerEvent) :
    ∃ f, (run MurmurHash3 GetHash Solver nodeBloom CNode.init events).pfilter = some f ∧ f.Valid :=
  run_valid MurmurHash3 GetHash Solver nodeBloom valid_init_peer events

/-- On every filter a peer holds that has bits and hashes, `contains`, with
    its shortcuts for full and empty filters, answers what the test of every
    hashed bit answers. -/
theorem peer_contains_eq_all_bits (events : List PeerEvent) {f : CBloomFilter}
    (held : (run MurmurHash3 GetHash Solver nodeBloom CNode.init events).pfilter = some f)
    (bits : 0 < f.vData.length) (hashing : 0 < f.nHashFuncs.toNat) (vKey : List UInt8) :
    contains MurmurHash3 f vKey = (hashes MurmurHash3 f vKey).all (ByteBits.bit f.vData) := by
  obtain ⟨g,held',valid⟩ := run_valid MurmurHash3 GetHash Solver nodeBloom valid_init_peer events
  obtain rfl : g = f := Option.some.inj (held'.symm.trans held)
  exact valid.contains_eq_all_bits MurmurHash3 bits hashing vKey

/-- A key of at most `MAX_SCRIPT_ELEMENT_SIZE` bytes that a peer adds with
    `filteradd` stays in its filter until its next `filterload`, whatever else
    happens: every transaction that carries the key passes the filter's test. -/
theorem filteradd_relevant (history : List PeerEvent) {vData : List UInt8}
    (short : vData.length ≤ MAX_SCRIPT_ELEMENT_SIZE) (rest : List UInt8) {events : List PeerEvent}
    (reloads : ∀ vRecv, PeerEvent.message (.filterload vRecv) ∉ events) {tx : CTransaction}
    (carried : CBloomFilter.Carries GetHash vData tx) :
    (IsRelevantToPeer MurmurHash3 GetHash Solver
      (run MurmurHash3 GetHash Solver true CNode.init
        (history ++ .message (.filteradd (serVector (fun b => [b]) vData ++ rest)) :: events)) tx).1 = true := by
  obtain ⟨f,held,valid⟩ := run_valid MurmurHash3 GetHash Solver true valid_init_peer history
  have read : unserializeBytes.run (serVector (fun b => [b]) vData ++ rest) = .ok (vData,rest) :=
    unserializeBytes_reads (by unfold MAX_SCRIPT_ELEMENT_SIZE at short; unfold MAX_SIZE; omega) rest
  have accepted : ¬ vData.length > MAX_SCRIPT_ELEMENT_SIZE := by omega
  -- the filteradd inserts the key into the filter the peer holds
  have added : (step MurmurHash3 GetHash Solver true (run MurmurHash3 GetHash Solver true CNode.init history)
      (.message (.filteradd (serVector (fun b => [b]) vData ++ rest)))).pfilter = some (f.insert MurmurHash3 vData) := by
    simp [step,ProcessMessage,read,held,accepted]
  obtain ⟨g,held',had⟩ := run_contains MurmurHash3 GetHash Solver true added
    (contains_insert_self MurmurHash3 valid.hashable vData) reloads
  rw [run,List.foldl_append,List.foldl_cons]
  exact IsRelevantToPeer_of_Carries MurmurHash3 GetHash Solver held' had carried

/-- Under flags that update on an output's script, a transaction that passes a
    peer's filter through an element the output pushes puts the output's
    outpoint in the filter, and until the peer's next `filterload` every
    transaction that spends the output passes the filter's test too. -/
theorem relay_follows_spends (history : List PeerEvent) {f : CBloomFilter}
    (held : (run MurmurHash3 GetHash Solver nodeBloom CNode.init history).pfilter = some f)
    {tx : CTransaction} {i : Nat} {txout : CTxOut} (output : tx.vout[i]? = some txout) {opcode : opcodetype}
    {vKey : List UInt8} (pushed : (opcode,vKey) ∈ (ScriptOps txout.scriptPubKey).1) (nonempty : vKey ≠ [])
    (had : contains MurmurHash3 f vKey = true) (updates : updatesOn Solver f txout.scriptPubKey = true)
    {events : List PeerEvent} (reloads : ∀ vRecv, PeerEvent.message (.filterload vRecv) ∉ events)
    {tx' : CTransaction} {txin : CTxIn} (input : txin ∈ tx'.vin) (spends : txin.prevout = ⟨GetHash tx,i.toUInt32⟩) :
    let relayed := IsRelevantToPeer MurmurHash3 GetHash Solver (run MurmurHash3 GetHash Solver nodeBloom CNode.init history) tx
    relayed.1 = true ∧
      (IsRelevantToPeer MurmurHash3 GetHash Solver (run MurmurHash3 GetHash Solver nodeBloom relayed.2 events) tx').1 = true := by
  obtain ⟨g,held',valid⟩ := run_valid MurmurHash3 GetHash Solver nodeBloom valid_init_peer history
  obtain rfl : g = f := Option.some.inj (held'.symm.trans held)
  obtain ⟨relevant,kept⟩ :=
    IsRelevantAndUpdate_contains_outpoint MurmurHash3 GetHash Solver valid output pushed nonempty had updates
  intro relayed
  have checked : relayed.2.pfilter = some (g.IsRelevantAndUpdate MurmurHash3 GetHash Solver tx).2 := by
    simp only [relayed,IsRelevantToPeer,held]
  -- the outpoint stays in the filter until the next `filterload`
  obtain ⟨h,held'',had'⟩ := run_contains MurmurHash3 GetHash Solver nodeBloom checked kept reloads
  refine ⟨by simp only [relayed,IsRelevantToPeer,held]; exact relevant,?_⟩
  exact IsRelevantToPeer_of_Carries MurmurHash3 GetHash Solver held'' had' (.inr (.inr (.inl ⟨txin,input,by rw [spends]⟩)))

/-- After a `filterclear` on a node that serves Bloom filters, every
    transaction passes the peer's filter until its next `filterload`: the
    filter is full again, and a `filteradd` inserts nothing into it. -/
theorem filterclear_relevant (history : List PeerEvent) {events : List PeerEvent}
    (reloads : ∀ vRecv, PeerEvent.message (.filterload vRecv) ∉ events) (tx : CTransaction) :
    (IsRelevantToPeer MurmurHash3 GetHash Solver
      (run MurmurHash3 GetHash Solver true CNode.init (history ++ .message .filterclear :: events)) tx).1 = true := by
  have cleared : (step MurmurHash3 GetHash Solver true (run MurmurHash3 GetHash Solver true CNode.init history)
      (.message .filterclear)).pfilter = some CBloomFilter.init := rfl
  obtain ⟨g,held,full⟩ := run_full MurmurHash3 GetHash Solver true cleared rfl reloads
  rw [run,List.foldl_append,List.foldl_cons]
  simp only [run] at held
  simp [IsRelevantToPeer,held,IsRelevantAndUpdate,full]

end

/-- A filter of one byte with its first bit set, one hash and `BLOOM_UPDATE_ALL`. -/
def firstBitFilter : CBloomFilter := ⟨[1],false,false,1,0,1⟩

/-- A transaction whose output pushes one byte. -/
def pushTx : CTransaction := { emptyCoinbase with vout := [⟨0,[1,7]⟩] }

/-- A transaction that spends the output of `pushTx`, whose txid is `sevens` below. -/
def spendingTx : CTransaction := { emptyCoinbase with vin := [⟨⟨sevens,0⟩,[],0xffffffff⟩] }

/-- The filter a `filterload` of `firstBitFilter` installs: its flags, both
    off, are those of its byte. -/
theorem run_filterload_firstBitFilter :
    (run (fun _ _ => 0) (fun _ => sevens) (fun _ => .TX_NONSTANDARD) true CNode.init
      [.message (.filterload firstBitFilter.Serialize)]).pfilter = some firstBitFilter := by
  decide

theorem peer_contains_eq_all_bits_first_bit :
    (run (fun _ _ => 0) (fun _ => sevens) (fun _ => .TX_NONSTANDARD) true CNode.init
        [.message (.filterload firstBitFilter.Serialize)]).pfilter = some firstBitFilter ∧
      0 < firstBitFilter.vData.length ∧ 0 < firstBitFilter.nHashFuncs.toNat ∧
      contains (fun _ _ => 0) firstBitFilter [] = (hashes (fun _ _ => 0) firstBitFilter []).all (ByteBits.bit firstBitFilter.vData) :=
  ⟨run_filterload_firstBitFilter,by decide,by decide,
    peer_contains_eq_all_bits (fun _ _ => 0) (fun _ => sevens) (fun _ => .TX_NONSTANDARD) true _
      run_filterload_firstBitFilter (by decide) (by decide) []⟩

/-- A peer that loads a filter that is not full, then adds the txid of the
    empty coinbase. -/
theorem filteradd_relevant_txid :
    (run (fun _ _ => 0) (fun _ => sevens) (fun _ => .TX_NONSTANDARD) true CNode.init
      [.message (.filterload firstBitFilter.Serialize)]).pfilter = some firstBitFilter ∧ firstBitFilter.isFull = false ∧
    sevens.data.length ≤ MAX_SCRIPT_ELEMENT_SIZE ∧ (∀ vRecv, PeerEvent.message (.filterload vRecv) ∉ ([] : List PeerEvent)) ∧
      CBloomFilter.Carries (fun _ => sevens) sevens.data emptyCoinbase ∧
      (IsRelevantToPeer (fun _ _ => 0) (fun _ => sevens) (fun _ => .TX_NONSTANDARD)
        (run (fun _ _ => 0) (fun _ => sevens) (fun _ => .TX_NONSTANDARD) true CNode.init
          ([.message (.filterload firstBitFilter.Serialize)] ++
            .message (.filteradd (serVector (fun b => [b]) sevens.data ++ [])) :: [])) emptyCoinbase).1 = true := by
  have short : sevens.data.length ≤ MAX_SCRIPT_ELEMENT_SIZE := by decide
  have carried : CBloomFilter.Carries (fun _ => sevens) sevens.data emptyCoinbase := .inl rfl
  exact ⟨run_filterload_firstBitFilter,rfl,short,fun _ => List.not_mem_nil,carried,
    filteradd_relevant (fun _ _ => 0) (fun _ => sevens) (fun _ => .TX_NONSTANDARD) _ short [] (fun _ => List.not_mem_nil)
      carried⟩

theorem relay_follows_spends_first_bit :
    (run (fun _ _ => 0) (fun _ => sevens) (fun _ => .TX_NONSTANDARD) true CNode.init
        [.message (.filterload firstBitFilter.Serialize)]).pfilter = some firstBitFilter ∧
      pushTx.vout[0]? = some ⟨0,[1,7]⟩ ∧ ((1 : UInt8),[(7 : UInt8)]) ∈ (ScriptOps [1,7]).1 ∧
      contains (fun _ _ => 0) firstBitFilter [7] = true ∧
      updatesOn (fun _ => .TX_NONSTANDARD) firstBitFilter [1,7] = true ∧
      (∀ vRecv, PeerEvent.message (.filterload vRecv) ∉ ([] : List PeerEvent)) ∧
      spendingTx.vin = [⟨⟨sevens,(0 : Nat).toUInt32⟩,[],0xffffffff⟩] ∧
      let relayed := IsRelevantToPeer (fun _ _ => 0) (fun _ => sevens) (fun _ => .TX_NONSTANDARD)
        (run (fun _ _ => 0) (fun _ => sevens) (fun _ => .TX_NONSTANDARD) true CNode.init
          [.message (.filterload firstBitFilter.Serialize)]) pushTx
      relayed.1 = true ∧
        (IsRelevantToPeer (fun _ _ => 0) (fun _ => sevens) (fun _ => .TX_NONSTANDARD)
          (run (fun _ _ => 0) (fun _ => sevens) (fun _ => .TX_NONSTANDARD) true relayed.2 []) spendingTx).1 = true := by
  have output : pushTx.vout[0]? = some ⟨0,[1,7]⟩ := rfl
  have pushed : ((1 : UInt8),[(7 : UInt8)]) ∈ (ScriptOps [1,7]).1 := by decide
  have had : contains (fun _ _ => 0) firstBitFilter [7] = true := by decide
  have updates : updatesOn (fun _ => .TX_NONSTANDARD) firstBitFilter [1,7] = true := by decide
  have input : (⟨⟨sevens,(0 : Nat).toUInt32⟩,[],0xffffffff⟩ : CTxIn) ∈ spendingTx.vin := List.mem_singleton_self _
  exact ⟨run_filterload_firstBitFilter,output,pushed,had,updates,fun _ => List.not_mem_nil,rfl,
    relay_follows_spends (fun _ _ => 0) (fun _ => sevens) (fun _ => .TX_NONSTANDARD) true _ run_filterload_firstBitFilter
      output pushed (by decide) had updates (fun _ => List.not_mem_nil) input rfl⟩

theorem filterclear_relevant_fresh :
    (∀ vRecv, PeerEvent.message (.filterload vRecv) ∉ ([] : List PeerEvent)) ∧
      (IsRelevantToPeer (fun _ _ => 0) (fun _ => sevens) (fun _ => .TX_NONSTANDARD)
        (run (fun _ _ => 0) (fun _ => sevens) (fun _ => .TX_NONSTANDARD) true CNode.init
          ([] ++ .message .filterclear :: [])) emptyCoinbase).1 = true :=
  ⟨fun _ => List.not_mem_nil,
    filterclear_relevant (fun _ _ => 0) (fun _ => sevens) (fun _ => .TX_NONSTANDARD) [] (fun _ => List.not_mem_nil) _⟩

end BitcoinPrivate.Net
