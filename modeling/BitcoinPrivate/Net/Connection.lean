import BitcoinPrivate.Net.ReceiveBuffer

/-!
The sending end of a connection in `net.cpp`. `PushMessage` queues a
message's header and payload in `vSendMsg` and tries to send at once when the
queue was empty; `SocketSendData` hands the queue to the socket as far as the
socket takes it. The message handler pushes and the socket thread sends, in
any order under `cs_vSend`.

The queue stays `Queued` (no message in it is empty, the offset is inside the
first one, and `nSendSize` counts it), so the asserts of `SocketSendData`
never fail, and what it sends is the front of what is queued
(`sendLoop_queued`, `PushMessage_queued`). Over any run of pushes and sends
from a new node, the bytes handed to the socket and the bytes still queued
are, in order, the headers and payloads of the messages pushed
(`runSender_delivers`); one event at a time that is `sendStep_queued`. A
receiver given any front part of those bytes holds the messages pushed so
far, in order, then the part of the next one (`receiver_reads_pushed`).
-/
namespace BitcoinPrivate.Net.Connection

/-- The fields of `CNode` that `PushMessage` and the socket thread use for
    one connection. Statistics, times, the pause flags and the queue of
    `getdata` requests are left out. -/
structure CNode where
  vSendMsg : List (List UInt8)
  nSendOffset : Nat
  nSendSize : Nat
  vRecvMsg : List CNetMessage
  vProcessMsg : List CNetMessage
  nProcessQueueSize : Nat
  fDisconnect : Bool
  deriving DecidableEq, Repr

def CNode.init : CNode := ⟨[],0,0,[],[],0,false⟩

/-- The loop of `SocketSendData` from the message at `it` on. `accepts` says
    how many bytes each call of `send` takes; when it runs out, `send` would
    block. The bytes sent, `nSendOffset`, `nSendSize` and the messages left, or
    the `assert` that fails. -/
def sendLoop : List (List UInt8) → Nat → Nat → List Nat → Except String (List UInt8 × Nat × Nat × List (List UInt8))
  | [], nSendOffset, nSendSize, _ =>
    if nSendOffset ≠ 0 then .error "assert(pnode->nSendOffset == 0)"
    else if nSendSize ≠ 0 then .error "assert(pnode->nSendSize == 0)"
    else .ok ([],nSendOffset,nSendSize,[])
  | data :: rest, nSendOffset, nSendSize, accepts =>
    if data.length ≤ nSendOffset then .error "assert(data.size() > pnode->nSendOffset)"
    else
      let nBytes := min (accepts.headD 0) (data.length - nSendOffset)
      let sent := (data.drop nSendOffset).take nBytes
      if 0 < nBytes then
        if nSendOffset + nBytes = data.length then
          (sendLoop rest 0 (nSendSize - data.length) accepts.tail).map fun out => (sent ++ out.1,out.2)
        else .ok (sent,nSendOffset + nBytes,nSendSize,data :: rest)
      else .ok ([],nSendOffset,nSendSize,data :: rest)

/-- `CConnman::SocketSendData`: the node and the bytes handed to the socket.
    The sender's socket is never closed here. -/
def SocketSendData (pnode : CNode) (accepts : List Nat) : Except String (CNode × List UInt8) :=
  (sendLoop pnode.vSendMsg pnode.nSendOffset pnode.nSendSize accepts).map fun out =>
    ({ pnode with nSendOffset := out.2.1, nSendSize := out.2.2.1, vSendMsg := out.2.2.2 },out.1)

variable (pchMessageStart : Vector UInt8 MESSAGE_START_SIZE) (Hash : List UInt8 → uint256)

/-- The first bytes of a hash, as `memcpy` puts them in `pchChecksum`. -/
def checksumOf (hash : uint256) : Vector UInt8 CHECKSUM_SIZE :=
  ⟨(hash.data.take CHECKSUM_SIZE).toArray,by simp [hash.size,CHECKSUM_SIZE]⟩

/-- The header `PushMessage` builds: the command copied by `strncpy`, the
    payload's size as `unsigned int`, and the first bytes of its hash. -/
def messageHeader (command data : List UInt8) : CMessageHeader :=
  { CMessageHeader.ofCommand pchMessageStart command data.length.toUInt32 with pchChecksum := checksumOf (Hash data) }

/-- `CConnman::PushMessage`; the statistics per command and `fPauseSend` are
    left out. An empty payload queues the header alone. -/
def PushMessage (pnode : CNode) (command data : List UInt8) (accepts : List Nat) : Except String (CNode × List UInt8) :=
  let serializedHeader := (messageHeader pchMessageStart Hash command data).Serialize
  let optimisticSend := pnode.vSendMsg.isEmpty
  let queued := pnode.vSendMsg ++ serializedHeader :: (if data.length ≠ 0 then [data] else [])
  let pnode := { pnode with nSendSize := pnode.nSendSize + (data.length + HEADER_SIZE), vSendMsg := queued }
  if optimisticSend then SocketSendData pnode accepts else .ok (pnode,[])

/-- What the sending node does: the message handler pushes a message, or the
    socket thread finds the socket writable. -/
inductive SendEvent where
  | push (command data : List UInt8) (accepts : List Nat)
  | send (accepts : List Nat)

def sendStep (pnode : CNode) : SendEvent → Except String (CNode × List UInt8)
  | .push command data accepts => PushMessage pchMessageStart Hash pnode command data accepts
  | .send accepts => SocketSendData pnode accepts

/-- A run of the sender: the node and every byte handed to the socket, in order. -/
def runSender (pnode : CNode) : List SendEvent → Except String (CNode × List UInt8)
  | [] => .ok (pnode,[])
  | e :: es =>
    match sendStep pchMessageStart Hash pnode e with
    | .ok out => (runSender out.1 es).map fun rest => (rest.1,out.2 ++ rest.2)
    | .error err => .error err

/-- The messages pushed in a run, as command and payload. -/
def pushed : List SendEvent → List (List UInt8 × List UInt8)
  | [] => []
  | .push command data _ :: es => (command,data) :: pushed es
  | .send _ :: es => pushed es

/-- The bytes of a pushed message on the wire: its header, then its payload. -/
def frameBytes (m : List UInt8 × List UInt8) : List UInt8 := (messageHeader pchMessageStart Hash m.1 m.2).Serialize ++ m.2

/-! ## The send queue -/

/-- The queue as every run leaves it. -/
structure Queued (vSendMsg : List (List UInt8)) (nSendOffset nSendSize : Nat) : Prop where
  nonempty : ∀ data ∈ vSendMsg, data ≠ []
  inside : ∀ data ∈ vSendMsg.head?, nSendOffset < data.length
  start : vSendMsg = [] → nSendOffset = 0
  counted : nSendSize = (vSendMsg.map List.length).sum

/-- The bytes queued and not yet sent. -/
def unsent (pnode : CNode) : List UInt8 := pnode.vSendMsg.flatten.drop pnode.nSendOffset

theorem queued_init : Queued CNode.init.vSendMsg CNode.init.nSendOffset CNode.init.nSendSize :=
  ⟨by simp [CNode.init],by simp [CNode.init],fun _ => rfl,rfl⟩

/-- `SocketSendData`'s loop on a queue as runs leave it: no assert fails, what
    it sends and what is left are what was queued, and the queue stays `Queued`. -/
theorem sendLoop_queued : ∀ (vSendMsg : List (List UInt8)) {nSendOffset nSendSize : Nat} (accepts : List Nat),
    Queued vSendMsg nSendOffset nSendSize →
    ∃ sent o s q, sendLoop vSendMsg nSendOffset nSendSize accepts = .ok (sent,o,s,q) ∧
      sent ++ q.flatten.drop o = vSendMsg.flatten.drop nSendOffset ∧ Queued q o s
  | [], o, s, _, queued => by
    have zero := queued.start rfl
    have empty : s = 0 := by simpa using queued.counted
    subst zero
    subst empty
    exact ⟨[],0,0,[],by simp [sendLoop],rfl,queued⟩
  | data :: rest, o, s, accepts, queued => by
    have inside : o < data.length := queued.inside data (by simp)
    rw [sendLoop,if_neg (by omega)]
    dsimp only
    obtain ⟨n,taken⟩ : ∃ n, n = min (accepts.headD 0) (data.length - o) := ⟨_,rfl⟩
    rw [← taken]
    by_cases some_bytes : 0 < n
    · rw [if_pos some_bytes]
      by_cases whole : o + n = data.length
      -- the first message is sent to its end: the loop goes on with the rest
      · rw [if_pos whole]
        have queued' : Queued rest 0 (s - data.length) := by
          refine ⟨fun d mem => queued.nonempty d (List.mem_cons_of_mem data mem),?_,fun _ => rfl,?_⟩
          · intro d mem
            exact List.length_pos_iff.mpr (queued.nonempty d (List.mem_cons_of_mem data (List.mem_of_mem_head? mem)))
          · have counted := queued.counted
            simp only [List.map_cons,List.sum_cons] at counted
            omega
        obtain ⟨sent,o',s',q,loop,split,queued''⟩ := sendLoop_queued rest accepts.tail queued'
        rw [loop]
        refine ⟨_,o',s',q,rfl,?_,queued''⟩
        rw [List.append_assoc,split,List.drop_zero,List.take_of_length_le (by simp; omega),List.flatten_cons,
          List.drop_append_of_le_length (by omega)]
      -- the socket took part of the first message: the loop stops
      · rw [if_neg whole]
        refine ⟨_,_,_,_,rfl,?_,⟨queued.nonempty,?_,fun empty => absurd empty (List.cons_ne_nil _ _),queued.counted⟩⟩
        · have front : (data :: rest).flatten.drop o = data.drop o ++ rest.flatten := by
            rw [List.flatten_cons,List.drop_append_of_le_length (by omega)]
          rw [← List.drop_drop,front,List.drop_append_of_le_length (by rw [List.length_drop]; omega),
            ← List.append_assoc,List.take_append_drop]
        · intro d mem
          simp only [List.head?_cons,Option.mem_def,Option.some.injEq] at mem
          subst mem
          omega
    -- the socket took nothing
    · rw [if_neg some_bytes]
      exact ⟨[],o,s,data :: rest,rfl,rfl,queued⟩

/-- `SocketSendData` on a queue as runs leave it. -/
theorem SocketSendData_queued {pnode : CNode} (queued : Queued pnode.vSendMsg pnode.nSendOffset pnode.nSendSize)
    (accepts : List Nat) :
    ∃ pnode' sent, SocketSendData pnode accepts = .ok (pnode',sent) ∧ sent ++ unsent pnode' = unsent pnode ∧
      Queued pnode'.vSendMsg pnode'.nSendOffset pnode'.nSendSize := by
  obtain ⟨sent,o,s,q,loop,split,queued'⟩ := sendLoop_queued pnode.vSendMsg accepts queued
  refine ⟨{ pnode with nSendOffset := o, nSendSize := s, vSendMsg := q },sent,?_,split,queued'⟩
  rw [SocketSendData,loop]
  rfl

theorem length_Serialize_messageHeader (command data : List UInt8) :
    (messageHeader pchMessageStart Hash command data).Serialize.length = HEADER_SIZE :=
  CMessageHeader.length_Serialize _

/-- The queue after a message is added to its end. -/
theorem queued_push {vSendMsg : List (List UInt8)} {o s : Nat} (queued : Queued vSendMsg o s) (command data : List UInt8) :
    Queued (vSendMsg ++ (messageHeader pchMessageStart Hash command data).Serialize ::
        (if data.length ≠ 0 then [data] else [])) o (s + (data.length + HEADER_SIZE)) := by
  have header := length_Serialize_messageHeader pchMessageStart Hash command data
  have wide : 0 < HEADER_SIZE := by decide
  refine ⟨?_,?_,fun empty => by simp at empty,?_⟩
  · intro d mem
    rcases List.mem_append.mp mem with earlier | added
    · exact queued.nonempty d earlier
    · rcases List.mem_cons.mp added with rfl | payload
      · rw [← List.length_pos_iff,header]
        exact wide
      · by_cases empty : data.length ≠ 0
        · rw [if_pos empty,List.mem_singleton] at payload
          rw [payload,← List.length_pos_iff]
          omega
        · rw [if_neg empty] at payload
          cases payload
  · intro d mem
    cases front : vSendMsg with
    | nil =>
      rw [front,List.nil_append,List.head?_cons,Option.mem_def,Option.some.injEq] at mem
      rw [← mem,header,queued.start front]
      exact wide
    | cons first rest =>
      rw [front,List.cons_append,List.head?_cons] at mem
      exact queued.inside d (by rw [front]; exact mem)
  · rw [queued.counted,List.map_append,List.sum_append]
    cases data with
    | nil => simp [header]
    | cons b bs =>
      simp [header]
      omega

theorem offset_le_length {vSendMsg : List (List UInt8)} {o s : Nat} (queued : Queued vSendMsg o s) :
    o ≤ vSendMsg.flatten.length := by
  cases front : vSendMsg with
  | nil => simp [queued.start front]
  | cons first rest =>
    have inside := queued.inside first (by rw [front]; rfl)
    simp only [List.flatten_cons,List.length_append]
    omega

/-- `PushMessage` on a queue as runs leave it: no assert fails, the message's
    header and payload join the end of what is still to be sent, and the queue
    stays `Queued`. -/
theorem PushMessage_queued {pnode : CNode} (queued : Queued pnode.vSendMsg pnode.nSendOffset pnode.nSendSize)
    (command data : List UInt8) (accepts : List Nat) :
    ∃ pnode' sent, PushMessage pchMessageStart Hash pnode command data accepts = .ok (pnode',sent) ∧
      sent ++ unsent pnode' = unsent pnode ++ frameBytes pchMessageStart Hash (command,data) ∧
      Queued pnode'.vSendMsg pnode'.nSendOffset pnode'.nSendSize := by
  have message : ((messageHeader pchMessageStart Hash command data).Serialize ::
      (if data.length ≠ 0 then [data] else [])).flatten = frameBytes pchMessageStart Hash (command,data) := by
    cases data with
    | nil => simp [frameBytes]
    | cons b bs => simp [frameBytes]
  have added : (pnode.vSendMsg ++ (messageHeader pchMessageStart Hash command data).Serialize ::
      (if data.length ≠ 0 then [data] else [])).flatten.drop pnode.nSendOffset =
      unsent pnode ++ frameBytes pchMessageStart Hash (command,data) := by
    rw [List.flatten_append,List.drop_append_of_le_length (offset_le_length queued),message]
    rfl
  have queued' := queued_push pchMessageStart Hash queued command data
  rw [PushMessage]
  by_cases empty : pnode.vSendMsg.isEmpty = true
  -- an empty queue is sent at once
  · rw [if_pos empty]
    obtain ⟨pnode',sent,sending,split,queued''⟩ := @SocketSendData_queued
      { pnode with nSendSize := pnode.nSendSize + (data.length + HEADER_SIZE),
                   vSendMsg := pnode.vSendMsg ++ (messageHeader pchMessageStart Hash command data).Serialize ::
                     (if data.length ≠ 0 then [data] else []) } queued' accepts
    exact ⟨pnode',sent,sending,by rw [split,← added]; rfl,queued''⟩
  · rw [if_neg empty]
    exact ⟨_,[],rfl,by rw [List.nil_append,← added]; rfl,queued'⟩

/-! ## Runs of the sender -/

theorem pushed_cons (e : SendEvent) (es : List SendEvent) : pushed (e :: es) = pushed [e] ++ pushed es := by
  cases e <;> rfl

/-- One event of the sender on a queue as runs leave it. -/
theorem sendStep_queued {pnode : CNode} (queued : Queued pnode.vSendMsg pnode.nSendOffset pnode.nSendSize)
    (e : SendEvent) :
    ∃ pnode' sent, sendStep pchMessageStart Hash pnode e = .ok (pnode',sent) ∧
      sent ++ unsent pnode' = unsent pnode ++ (pushed [e]).flatMap (frameBytes pchMessageStart Hash) ∧
      Queued pnode'.vSendMsg pnode'.nSendOffset pnode'.nSendSize := by
  cases e with
  | push command data accepts =>
    obtain ⟨p,sent,pushing,split,queued'⟩ := PushMessage_queued pchMessageStart Hash queued command data accepts
    exact ⟨p,sent,pushing,by simp [split,pushed],queued'⟩
  | send accepts =>
    obtain ⟨p,sent,sending,split,queued'⟩ := SocketSendData_queued queued accepts
    exact ⟨p,sent,sending,by simp [split,pushed],queued'⟩

theorem runSender_cons {pnode p1 p2 : CNode} {e : SendEvent} {es : List SendEvent} {sent1 sent2 : List UInt8}
    (step : sendStep pchMessageStart Hash pnode e = .ok (p1,sent1))
    (rest : runSender pchMessageStart Hash p1 es = .ok (p2,sent2)) :
    runSender pchMessageStart Hash pnode (e :: es) = .ok (p2,sent1 ++ sent2) := by
  rw [runSender,step]
  dsimp only
  rw [rest]
  rfl

/-- A run of pushes and sends from a queue as runs leave it: no assert fails,
    and what is handed to the socket, then what is left queued, is what was
    queued before, then the headers and payloads of the messages pushed. -/
theorem runSender_queued : ∀ (es : List SendEvent) {pnode : CNode},
    Queued pnode.vSendMsg pnode.nSendOffset pnode.nSendSize →
    ∃ pnode' sent, runSender pchMessageStart Hash pnode es = .ok (pnode',sent) ∧
      sent ++ unsent pnode' = unsent pnode ++ (pushed es).flatMap (frameBytes pchMessageStart Hash) ∧
      Queued pnode'.vSendMsg pnode'.nSendOffset pnode'.nSendSize
  | [], pnode, queued => ⟨pnode,[],rfl,by simp [pushed],queued⟩
  | e :: es, pnode, queued => by
    obtain ⟨p1,sent1,step,split1,queued1⟩ := sendStep_queued pchMessageStart Hash queued e
    obtain ⟨p2,sent2,rest,split2,queued2⟩ := runSender_queued es queued1
    refine ⟨p2,sent1 ++ sent2,runSender_cons pchMessageStart Hash step rest,?_,queued2⟩
    calc sent1 ++ sent2 ++ unsent p2
        = sent1 ++ (unsent p1 ++ (pushed es).flatMap (frameBytes pchMessageStart Hash)) := by
          rw [List.append_assoc,split2]
      _ = unsent pnode ++ (pushed (e :: es)).flatMap (frameBytes pchMessageStart Hash) := by
          rw [← List.append_assoc,split1,pushed_cons e es,List.flatMap_append,List.append_assoc]

/-- Over any run of pushes and sends from a new node, in any order, no assert
    of `SocketSendData` fails; the bytes handed to the socket, then the bytes
    still queued, are the headers and payloads of the messages pushed, in
    order; and `nSendSize` counts the bytes queued. -/
theorem runSender_delivers (es : List SendEvent) :
    ∃ pnode sent, runSender pchMessageStart Hash CNode.init es = .ok (pnode,sent) ∧
      sent ++ unsent pnode = (pushed es).flatMap (frameBytes pchMessageStart Hash) ∧
      pnode.nSendSize = (pnode.vSendMsg.map List.length).sum := by
  obtain ⟨pnode,sent,run,split,queued⟩ := runSender_queued pchMessageStart Hash es queued_init
  exact ⟨pnode,sent,run,by rw [split]; rfl,queued.counted⟩

/-! ## What the receiver reads of it -/

/-- A pushed message as a frame of the receiver's parser: its header's bytes
    and its payload. -/
def frameOf (m : List UInt8 × List UInt8) : List UInt8 × List UInt8 :=
  ((messageHeader pchMessageStart Hash m.1 m.2).Serialize,m.2)

theorem flatMap_frameBytes (ms : List (List UInt8 × List UInt8)) :
    ms.flatMap (frameBytes pchMessageStart Hash) = Framing.encode (ms.map (frameOf pchMessageStart Hash)) := by
  simp only [Framing.encode,frameOf,List.flatMap_map]
  rfl

/-- A message whose payload is at most `MAX_PROTOCOL_MESSAGE_LENGTH` is a frame
    the receiver accepts and reads to the end of its payload. -/
theorem valid_frameOf {m : List UInt8 × List UInt8} (fits : m.2.length ≤ MAX_PROTOCOL_MESSAGE_LENGTH) :
    Framing.Valid 24 payloadSize acceptable (frameOf pchMessageStart Hash m) := by
  have small : m.2.length < 4294967296 := by
    unfold MAX_PROTOCOL_MESSAGE_LENGTH at fits
    omega
  -- the header announces the payload's length, which fits its 32 bits
  have size : (messageHeader pchMessageStart Hash m.1 m.2).nMessageSize.toNat = m.2.length := by
    simp [messageHeader,CMessageHeader.ofCommand]
    exact small
  exact valid_Serialize size fits

/-- Whatever part of what a sender handed to its socket a receiver has taken,
    one call of `ReceiveMsgBytes` on a new buffer succeeds on it, and holds the
    messages pushed so far as complete messages, in order, then the part of the
    next one, when every payload is at most `MAX_PROTOCOL_MESSAGE_LENGTH`. -/
theorem receiver_reads_pushed (es : List SendEvent)
    (fits : ∀ m ∈ pushed es, m.2.length ≤ MAX_PROTOCOL_MESSAGE_LENGTH) :
    ∃ pnode sent, runSender pchMessageStart Hash CNode.init es = .ok (pnode,sent) ∧
      ∀ received, received <+: sent → ∃ k r v,
        received = Framing.encode (((pushed es).map (frameOf pchMessageStart Hash)).take k) ++ r ∧
        ReceiveMsgBytes pchMessageStart [] received =
          some (true,!(((pushed es).map (frameOf pchMessageStart Hash)).take k).isEmpty,v) ∧
        Buffered pchMessageStart v (((pushed es).map (frameOf pchMessageStart Hash)).take k) r := by
  obtain ⟨pnode,sent,run,split,-⟩ := runSender_queued pchMessageStart Hash es queued_init
  have valid : ∀ f ∈ (pushed es).map (frameOf pchMessageStart Hash), Framing.Valid 24 payloadSize acceptable f := by
    intro f mem
    obtain ⟨m,pushed_m,rfl⟩ := List.mem_map.mp mem
    exact valid_frameOf pchMessageStart Hash (fits m pushed_m)
  refine ⟨pnode,sent,run,fun received taken => ?_⟩
  have whole : received <+: Framing.encode ((pushed es).map (frameOf pchMessageStart Hash)) := by
    have sent_first := taken.trans (List.prefix_append sent (unsent pnode))
    rwa [split,show unsent CNode.init = [] from rfl,List.nil_append,flatMap_frameBytes] at sent_first
  obtain ⟨k,r,cut,split,-⟩ := Framing.frames_of_prefix 24 payloadSize acceptable valid whole
  have fresh : Buffered pchMessageStart [] [] [] := .inl ⟨rfl,rfl⟩
  -- one call runs the receive loop with a pass of fuel for every byte
  have reads := receiveLoop_frames received.length false fresh (by simp) le_rfl
  rw [List.nil_append,cut] at reads
  obtain ⟨v,result,buffered⟩ := reads
  refine ⟨k,r,v,split,?_,by simpa using buffered⟩
  rw [ReceiveMsgBytes,result,Bool.false_or]

/-- A sender that pushes a `ping` with no payload and then finds its socket
    taking any amount. -/
theorem receiver_reads_ping :
    (∀ m ∈ pushed [.push [0x70,0x69,0x6e,0x67] [] [],.send [100]], m.2.length ≤ MAX_PROTOCOL_MESSAGE_LENGTH) ∧
    ∃ pnode sent, runSender (Vector.replicate MESSAGE_START_SIZE 0) (fun _ => default) CNode.init
        [.push [0x70,0x69,0x6e,0x67] [] [],.send [100]] = .ok (pnode,sent) ∧
      ∀ received, received <+: sent → ∃ k r v,
        received = Framing.encode (((pushed [.push [0x70,0x69,0x6e,0x67] [] [],.send [100]]).map
          (frameOf (Vector.replicate MESSAGE_START_SIZE 0) (fun _ => default))).take k) ++ r ∧
        ReceiveMsgBytes (Vector.replicate MESSAGE_START_SIZE 0) [] received =
          some (true,!(((pushed [.push [0x70,0x69,0x6e,0x67] [] [],.send [100]]).map
            (frameOf (Vector.replicate MESSAGE_START_SIZE 0) (fun _ => default))).take k).isEmpty,v) ∧
        Buffered (Vector.replicate MESSAGE_START_SIZE 0) v (((pushed [.push [0x70,0x69,0x6e,0x67] [] [],.send [100]]).map
          (frameOf (Vector.replicate MESSAGE_START_SIZE 0) (fun _ => default))).take k) r :=
  have fits : ∀ m ∈ pushed [.push [0x70,0x69,0x6e,0x67] [] [],.send [100]], m.2.length ≤ MAX_PROTOCOL_MESSAGE_LENGTH := by
    simp [pushed]
  ⟨fits,receiver_reads_pushed (Vector.replicate MESSAGE_START_SIZE 0) (fun _ => default) _ fits⟩

end BitcoinPrivate.Net.Connection
