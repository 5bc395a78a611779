import BitcoinPrivate.Net.MessageHeader
import BitcoinPrivate.Library.Framing

/-!
The receive buffer of `net.cpp`: `CNetMessage` collects the bytes of one
message, its 24-byte header in `hdrbuf` (`readHeader`), then its payload in
`vRecv` (`readData`), and `ReceiveMsgBytes` feeds it whatever a call of `recv`
returned, opening a new message after each complete one.

The bytes a receiver has taken are a stream of frames in the sense of
`Framing`, with a header of 24 bytes that announces the payload's size and is
refused above `MAX_PROTOCOL_MESSAGE_LENGTH`. `ReceiveMsgBytes` cuts what it is
given exactly as `frames` cuts the whole stream (`ReceiveMsgBytes_frames`): it
fails where `frames` fails, and otherwise leaves the complete frames as
complete messages, in order, and the part of a frame after them in the last
message. How the stream was split into calls changes nothing but the zeros
`vRecv` is allocated ahead with.
-/
namespace BitcoinPrivate.Net
open Framing

/-- `memcpy(&buf[pos], src, src.size())`, inside the buffer. -/
def memcpy (buf : List UInt8) (pos : Nat) (src : List UInt8) : List UInt8 :=
  buf.take pos ++ src ++ buf.drop (pos + src.length)

/-- `resize(n)` of a byte vector: cut, or padded with zeros. -/
def resize (v : List UInt8) (n : Nat) : List UInt8 := v.take n ++ List.replicate (n - v.length) 0

/-- `CNetMessage`; `hasher` is what was written to the hash of the payload.
    `nTime` and the version of the streams are left out. -/
structure CNetMessage where
  in_data : Bool
  hdrbuf : List UInt8
  hdr : CMessageHeader
  nHdrPos : Nat
  vRecv : List UInt8
  nDataPos : Nat
  hasher : List UInt8
  deriving DecidableEq, Repr

namespace CNetMessage

/-- The constructor: a header buffer of 24 zeros. -/
def new (pchMessageStartIn : Vector UInt8 MESSAGE_START_SIZE) : CNetMessage :=
  ⟨false,List.replicate 24 0,CMessageHeader.init pchMessageStartIn,0,[],0,[]⟩

def complete (msg : CNetMessage) : Bool := msg.in_data && msg.hdr.nMessageSize.toNat == msg.nDataPos

/-- `readHeader`: the number of bytes taken, or `-1`. -/
def readHeader (msg : CNetMessage) (pch : List UInt8) : Int × CNetMessage :=
  let nCopy := min (24 - msg.nHdrPos) pch.length
  let msg := { msg with hdrbuf := memcpy msg.hdrbuf msg.nHdrPos (pch.take nCopy), nHdrPos := msg.nHdrPos + nCopy }
  if msg.nHdrPos < 24 then (nCopy,msg)
  else
    match CMessageHeader.parse msg.hdrbuf with
    | none => (-1,msg)
    | some hdr =>
      if MAX_SIZE < hdr.nMessageSize.toNat then (-1,{ msg with hdr := hdr })
      else (nCopy,{ msg with hdr := hdr, in_data := true })

/-- `readData`: `vRecv` is allocated up to 256 KiB ahead, never past the
    message's size. -/
def readData (msg : CNetMessage) (pch : List UInt8) : Int × CNetMessage :=
  let nCopy := min (msg.hdr.nMessageSize.toNat - msg.nDataPos) pch.length
  let vRecv :=
    if msg.vRecv.length < msg.nDataPos + nCopy then
      resize msg.vRecv (min msg.hdr.nMessageSize.toNat (msg.nDataPos + nCopy + 256 * 1024))
    else msg.vRecv
  let copied := pch.take nCopy
  (nCopy,{ msg with vRecv := memcpy vRecv msg.nDataPos copied, hasher := msg.hasher ++ copied, nDataPos := msg.nDataPos + nCopy })

/-- One pass of the loop of `ReceiveMsgBytes` on its message. -/
def absorb (msg : CNetMessage) (pch : List UInt8) : Int × CNetMessage :=
  if msg.in_data then msg.readData pch else msg.readHeader pch

end CNetMessage

/-- The message the next bytes go to: the last of `vRecvMsg`, or a new one
    when there is none or the last is complete. -/
def openMessage (pchMessageStart : Vector UInt8 MESSAGE_START_SIZE) (vRecvMsg : List CNetMessage) :
    List CNetMessage × CNetMessage :=
  match vRecvMsg.getLast? with
  | some msg => if msg.complete then (vRecvMsg,CNetMessage.new pchMessageStart) else (vRecvMsg.dropLast,msg)
  | none => ([],CNetMessage.new pchMessageStart)

/-- The loop of `ReceiveMsgBytes` while bytes are left: whether it ended
    without an error, whether a message was completed, and the messages; `none`
    where the source would loop forever, taking no bytes. -/
def receiveLoop (pchMessageStart : Vector UInt8 MESSAGE_START_SIZE) :
    Nat → List CNetMessage → Bool → List UInt8 → Option (Bool × Bool × List CNetMessage)
  | _, vRecvMsg, complete, [] => some (true,complete,vRecvMsg)
  | 0, _, _, _ :: _ => none
  | fuel + 1, vRecvMsg, complete, pch@(_ :: _) =>
    let opened := openMessage pchMessageStart vRecvMsg
    let absorbed := opened.2.absorb pch
    let vRecvMsg := opened.1 ++ [absorbed.2]
    if absorbed.1 < 0 then some (false,complete,vRecvMsg)
    else if absorbed.2.in_data && MAX_PROTOCOL_MESSAGE_LENGTH < absorbed.2.hdr.nMessageSize.toNat then
      some (false,complete,vRecvMsg)
    else receiveLoop pchMessageStart fuel vRecvMsg (complete || absorbed.2.complete) (pch.drop absorbed.1.toNat)

/-- `CNode::ReceiveMsgBytes`; each pass takes at least one byte where the
    source ends. The statistics per command are left out. -/
def ReceiveMsgBytes (pchMessageStart : Vector UInt8 MESSAGE_START_SIZE) (vRecvMsg : List CNetMessage)
    (pch : List UInt8) : Option (Bool × Bool × List CNetMessage) :=
  receiveLoop pchMessageStart pch.length vRecvMsg false pch

/-! ## Buffers and memory -/

theorem length_memcpy {buf src : List UInt8} {pos : Nat} (inside : pos + src.length ≤ buf.length) :
    (memcpy buf pos src).length = buf.length := by
  simp only [memcpy,List.length_append,List.length_take,List.length_drop]
  omega

/-- Copying after what a buffer holds at its front extends it. -/
theorem prefix_memcpy {d buf src : List UInt8} (front : d <+: buf) : d ++ src <+: memcpy buf d.length src := by
  rw [memcpy,← List.prefix_iff_eq_take.mp front]
  exact List.prefix_append _ _

/-- Copying into a buffer of zeros after its first bytes. -/
theorem memcpy_zeros {r src : List UInt8} {n : Nat} (inside : r.length + src.length ≤ n) :
    memcpy (r ++ List.replicate (n - r.length) 0) r.length src = r ++ src ++ List.replicate (n - (r ++ src).length) 0 := by
  have zeros : n - r.length - (r.length + src.length - r.length) = n - (r.length + src.length) := by omega
  rw [memcpy,List.take_left' rfl,List.drop_append,List.drop_eq_nil_of_le (by omega),List.nil_append,
    List.drop_replicate,zeros,List.length_append]

@[simp] theorem length_resize (v : List UInt8) (n : Nat) : (resize v n).length = n := by
  simp only [resize,List.length_append,List.length_take,List.length_replicate]
  omega

theorem prefix_resize {d v : List UInt8} {n : Nat} (front : d <+: v) (short : d.length ≤ n) : d <+: resize v n := by
  have taken := front.take n
  rw [List.take_of_length_le short] at taken
  exact taken.trans (List.prefix_append _ _)

/-! ## The stream a receiver takes -/

/-- The payload's size a header announces; zero where `hdrbuf >> hdr` fails. -/
def payloadSize (hdrbuf : List UInt8) : Nat := ((CMessageHeader.parse hdrbuf).map fun hdr => hdr.nMessageSize.toNat).getD 0

/-- A header after which the receiver reads on: `readHeader` refuses a size
    above `MAX_SIZE`, and `ReceiveMsgBytes` one above `MAX_PROTOCOL_MESSAGE_LENGTH`. -/
def acceptable (hdrbuf : List UInt8) : Bool :=
  (CMessageHeader.parse hdrbuf).any fun hdr => decide (hdr.nMessageSize.toNat ≤ MAX_PROTOCOL_MESSAGE_LENGTH)

theorem MAX_PROTOCOL_MESSAGE_LENGTH_le : MAX_PROTOCOL_MESSAGE_LENGTH ≤ MAX_SIZE := by decide

theorem payloadSize_of_parse {h : List UInt8} {hdr : CMessageHeader} (parsed : CMessageHeader.parse h = some hdr) :
    payloadSize h = hdr.nMessageSize.toNat := by
  simp [payloadSize,parsed]

theorem acceptable_of_parse {h : List UInt8} {hdr : CMessageHeader} (parsed : CMessageHeader.parse h = some hdr) :
    acceptable h = decide (hdr.nMessageSize.toNat ≤ MAX_PROTOCOL_MESSAGE_LENGTH) := by
  simp [acceptable,parsed]

/-- A header's bytes followed by the payload it announces, at most
    `MAX_PROTOCOL_MESSAGE_LENGTH` bytes, are a frame the receiver reads whole. -/
theorem valid_Serialize {hdr : CMessageHeader} {payload : List UInt8}
    (sized : hdr.nMessageSize.toNat = payload.length) (fits : payload.length ≤ MAX_PROTOCOL_MESSAGE_LENGTH) :
    Valid 24 payloadSize acceptable (hdr.Serialize,payload) := by
  have parsed := CMessageHeader.parse_Serialize hdr
  refine ⟨CMessageHeader.length_Serialize hdr,?_,?_⟩
  · rw [acceptable_of_parse parsed,sized]
    exact decide_eq_true fits
  · rw [payloadSize_of_parse parsed,sized]

theorem parse_of_acceptable {h : List UInt8} (accepted : acceptable h = true) :
    ∃ hdr, CMessageHeader.parse h = some hdr ∧ hdr.nMessageSize.toNat ≤ MAX_PROTOCOL_MESSAGE_LENGTH := by
  cases parsed : CMessageHeader.parse h with
  | none => simp [acceptable,parsed] at accepted
  | some hdr => exact ⟨hdr,rfl,by simpa [acceptable_of_parse parsed] using accepted⟩

variable (pchMessageStart : Vector UInt8 MESSAGE_START_SIZE)

/-- The message after the first bytes `r` of a header. -/
def headerPart (r : List UInt8) : CNetMessage :=
  ⟨false,r ++ List.replicate (24 - r.length) 0,CMessageHeader.init pchMessageStart,r.length,[],0,[]⟩

/-- A complete message, as `ReceiveMsgBytes` leaves it. -/
def ofFrame (f : List UInt8 × List UInt8) : CNetMessage :=
  ⟨true,f.1,(CMessageHeader.parse f.1).getD (CMessageHeader.init pchMessageStart),24,f.2,f.2.length,f.2⟩

/-- The message of a receiver that has taken the bytes `r` of a frame: the
    header's bytes so far in a buffer of zeros; or, past an accepted header, the
    payload so far at the front of `vRecv`, allocated at most to the announced size. -/
inductive Absorbs : CNetMessage → List UInt8 → Prop
  | header {r : List UInt8} (short : r.length < 24) : Absorbs (headerPart pchMessageStart r) r
  | data {h d vRecv : List UInt8} {hdr : CMessageHeader} (header : h.length = 24)
      (parsed : CMessageHeader.parse h = some hdr) (fits : hdr.nMessageSize.toNat ≤ MAX_PROTOCOL_MESSAGE_LENGTH)
      (received : d <+: vRecv) (allocated : vRecv.length ≤ hdr.nMessageSize.toNat) :
      Absorbs ⟨true,h,hdr,24,vRecv,d.length,d⟩ (h ++ d)

/-- `vRecvMsg` holds the complete frames `fs`, then the part `r` of a frame,
    which is in no message when it is empty. -/
def Buffered (vRecvMsg : List CNetMessage) (fs : List (List UInt8 × List UInt8)) (r : List UInt8) : Prop :=
  (r = [] ∧ vRecvMsg = fs.map (ofFrame pchMessageStart)) ∨
    ∃ msg, Absorbs pchMessageStart msg r ∧ msg.complete = false ∧ vRecvMsg = fs.map (ofFrame pchMessageStart) ++ [msg]

variable {pchMessageStart}

theorem headerPart_nil : headerPart pchMessageStart [] = CNetMessage.new pchMessageStart := rfl

theorem complete_ofFrame {f : List UInt8 × List UInt8} (valid : Valid 24 payloadSize acceptable f) :
    (ofFrame pchMessageStart f).complete = true := by
  obtain ⟨-,accepted,announced⟩ := valid
  obtain ⟨hdr,parsed,-⟩ := parse_of_acceptable accepted
  rw [payloadSize_of_parse parsed] at announced
  simp [CNetMessage.complete,ofFrame,parsed,announced]

/-- A message past its header that is not complete is short of its payload. -/
theorem payload_short {h d vRecv : List UInt8} {hdr : CMessageHeader} (received : d <+: vRecv)
    (allocated : vRecv.length ≤ hdr.nMessageSize.toNat)
    (unfinished : (⟨true,h,hdr,24,vRecv,d.length,d⟩ : CNetMessage).complete = false) :
    d.length < hdr.nMessageSize.toNat := by
  have within := received.length_le
  have differs : d.length ≠ hdr.nMessageSize.toNat := by
    intro same
    simp [CNetMessage.complete,same] at unfinished
  omega

/-- A message holding a proper part of a frame holds a partial frame. -/
theorem Absorbs.frame_part {msg : CNetMessage} {r : List UInt8} (holds : Absorbs pchMessageStart msg r)
    (unfinished : msg.complete = false) : Partial 24 payloadSize acceptable r := by
  cases holds with
  | header short => exact .inl short
  | @data h d vRecv hdr header parsed fits received allocated =>
    have short := payload_short received allocated unfinished
    right
    rw [List.take_left' header,acceptable_of_parse parsed,payloadSize_of_parse parsed]
    refine ⟨decide_eq_true fits,?_⟩
    simp only [List.length_append]
    omega

/-- A complete message holds a valid frame. -/
theorem Absorbs.frame {msg : CNetMessage} {r : List UInt8} (holds : Absorbs pchMessageStart msg r)
    (done : msg.complete = true) :
    ∃ f, Valid 24 payloadSize acceptable f ∧ r = f.1 ++ f.2 ∧ msg = ofFrame pchMessageStart f := by
  cases holds with
  | header short => simp [headerPart,CNetMessage.complete] at done
  | @data h d vRecv hdr header parsed fits received allocated =>
    have whole : hdr.nMessageSize.toNat = d.length := by
      simpa [CNetMessage.complete] using done
    have same : d = vRecv := received.eq_of_length (by have := received.length_le; omega)
    subst same
    refine ⟨(h,d),⟨header,?_,?_⟩,rfl,?_⟩
    · rw [acceptable_of_parse parsed]
      exact decide_eq_true fits
    · rw [payloadSize_of_parse parsed]
      exact whole
    · simp only [ofFrame,parsed,Option.getD_some]

theorem Buffered.frame_part {v : List CNetMessage} {fs : List (List UInt8 × List UInt8)} {r : List UInt8}
    (buffered : Buffered pchMessageStart v fs r) : Partial 24 payloadSize acceptable r := by
  rcases buffered with ⟨rfl,-⟩ | ⟨msg,holds,unfinished,-⟩
  · exact partial_nil 24 payloadSize acceptable
  · exact holds.frame_part unfinished

/-- The message the next bytes go to holds the part of a frame after the
    complete ones. -/
theorem openMessage_buffered {v : List CNetMessage} {fs : List (List UInt8 × List UInt8)} {r : List UInt8}
    (buffered : Buffered pchMessageStart v fs r) (valid : ∀ f ∈ fs, Valid 24 payloadSize acceptable f) :
    ∃ msg, openMessage pchMessageStart v = (fs.map (ofFrame pchMessageStart),msg) ∧
      Absorbs pchMessageStart msg r ∧ msg.complete = false := by
  rcases buffered with ⟨rfl,rfl⟩ | ⟨msg,holds,unfinished,rfl⟩
  · have fresh : Absorbs pchMessageStart (CNetMessage.new pchMessageStart) [] := by
      rw [← headerPart_nil]
      exact Absorbs.header (by simp)
    refine ⟨CNetMessage.new pchMessageStart,?_,fresh,rfl⟩
    rw [openMessage,List.getLast?_map]
    cases last : fs.getLast? with
    | none =>
      rw [List.getLast?_eq_none_iff.mp last]
      rfl
    | some f =>
      have done : (ofFrame pchMessageStart f).complete = true := complete_ofFrame (valid f (List.mem_of_getLast? last))
      simp only [Option.map_some,done,if_true]
  · refine ⟨msg,?_,holds,unfinished⟩
    rw [openMessage,List.getLast?_concat]
    simp only [unfinished,Bool.false_eq_true,if_false,List.dropLast_concat]

/-! ## One pass of the loop -/

/-- The loop of `ReceiveMsgBytes` returns `false` after this pass. -/
def Stops (absorbed : Int × CNetMessage) : Prop :=
  absorbed.1 < 0 ∨ (absorbed.2.in_data = true ∧ MAX_PROTOCOL_MESSAGE_LENGTH < absorbed.2.hdr.nMessageSize.toNat)

variable (pchMessageStart) in
/-- What a pass may do to a message holding the proper part `r` of a frame:
    stop the loop where `frames` fails on what follows, or take at least one
    byte onto `r`. -/
def PassOutcome (r pch : List UInt8) (absorbed : Int × CNetMessage) : Prop :=
  (Stops absorbed ∧ frames 24 payloadSize acceptable (r ++ pch) = none) ∨
    (¬ Stops absorbed ∧ 0 < absorbed.1.toNat ∧ absorbed.1.toNat ≤ pch.length ∧
      Absorbs pchMessageStart absorbed.2 (r ++ pch.take absorbed.1.toNat))

/-- A pass that took `c` bytes, and left a header it accepts. -/
theorem PassOutcome.taken {r pch : List UInt8} {c : Nat} {msg : CNetMessage} (positive : 0 < c) (within : c ≤ pch.length)
    (fits : msg.in_data = true → msg.hdr.nMessageSize.toNat ≤ MAX_PROTOCOL_MESSAGE_LENGTH)
    (holds : Absorbs pchMessageStart msg (r ++ pch.take c)) : PassOutcome pchMessageStart r pch ((c : Int),msg) := by
  refine .inr ⟨fun stops => ?_,by simpa using positive,by simpa using within,by simpa using holds⟩
  rcases stops with negative | ⟨data,big⟩
  · simp only at negative
    omega
  · have := fits data
    simp at big
    omega

/-- A pass that returned `-1`, where `frames` fails. -/
theorem PassOutcome.failed {r pch : List UInt8} {msg : CNetMessage}
    (fails : frames 24 payloadSize acceptable (r ++ pch) = none) : PassOutcome pchMessageStart r pch (-1,msg) :=
  .inl ⟨.inl (by simp),fails⟩

theorem readHeader_headerPart {r pch : List UInt8} (short : r.length < 24) (nonempty : pch ≠ []) :
    PassOutcome pchMessageStart r pch ((headerPart pchMessageStart r).readHeader pch) := by
  have some_bytes := List.length_pos_iff.mpr nonempty
  rw [CNetMessage.readHeader]
  dsimp only [headerPart]
  obtain ⟨c,copied⟩ : ∃ c, c = min (24 - r.length) pch.length := ⟨_,rfl⟩
  simp only [← copied]
  have length : (r ++ pch.take c).length = r.length + c := by
    rw [List.length_append,List.length_take]
    omega
  have fill := @memcpy_zeros r (pch.take c) 24 (by rw [List.length_take]; omega)
  rw [fill]
  by_cases more : r.length + c < 24
  -- the header is still short
  · rw [if_pos more]
    have part : headerPart pchMessageStart (r ++ pch.take c) =
        ⟨false,r ++ pch.take c ++ List.replicate (24 - (r ++ pch.take c).length) 0,
          CMessageHeader.init pchMessageStart,r.length + c,[],0,[]⟩ := by
      rw [headerPart,length]
    refine PassOutcome.taken (by omega) (by omega) (fun data => by cases data) ?_
    rw [← part]
    exact Absorbs.header (by omega)
  -- the header is complete: it is read and its size checked
  · rw [if_neg more,show 24 - (r ++ pch.take c).length = 0 by omega,List.replicate_zero,List.append_nil]
    have refused : acceptable (r ++ pch.take c) = false → frames 24 payloadSize acceptable (r ++ pch) = none := by
      intro refused
      apply frames_of_refused 24 payloadSize acceptable (by rw [List.length_append]; omega)
      rwa [List.take_append,List.take_of_length_le (by omega),show 24 - r.length = c by omega]
    cases parsed : CMessageHeader.parse (r ++ pch.take c) with
    | none =>
      exact PassOutcome.failed (refused (by simp [acceptable,parsed]))
    | some hdr =>
      dsimp only
      have verdict := acceptable_of_parse parsed
      by_cases huge : MAX_SIZE < hdr.nMessageSize.toNat
      · rw [if_pos huge]
        have big : ¬ hdr.nMessageSize.toNat ≤ MAX_PROTOCOL_MESSAGE_LENGTH := by
          have := MAX_PROTOCOL_MESSAGE_LENGTH_le
          omega
        exact PassOutcome.failed (refused (by rw [verdict]; exact decide_eq_false big))
      · rw [if_neg huge]
        by_cases fits : hdr.nMessageSize.toNat ≤ MAX_PROTOCOL_MESSAGE_LENGTH
        · refine PassOutcome.taken (by omega) (by omega) (fun _ => fits) ?_
          rw [show r.length + c = 24 by omega]
          have whole := @Absorbs.data pchMessageStart (r ++ pch.take c) [] [] hdr (by omega) parsed fits
            List.nil_prefix (by simp)
          rwa [List.append_nil] at whole
        · exact .inl ⟨.inr ⟨rfl,by dsimp only; omega⟩,refused (by rw [verdict]; exact decide_eq_false fits)⟩

/-- `vRecv` allocated ahead for `c` more bytes of a payload: it keeps the
    payload so far, has room for them, and stays within the announced size. -/
theorem allocated_ahead {d v : List UInt8} {size c : Nat} (front : d <+: v) (allocated : v.length ≤ size)
    (inside : d.length + c ≤ size) :
    let v' := if v.length < d.length + c then resize v (min size (d.length + c + 256 * 1024)) else v
    d <+: v' ∧ d.length + c ≤ v'.length ∧ v'.length ≤ size := by
  intro v'
  by_cases grow : v.length < d.length + c
  · simp only [v',if_pos grow,length_resize]
    exact ⟨prefix_resize front (by omega),by omega,by omega⟩
  · simp only [v',if_neg grow]
    exact ⟨front,by omega,allocated⟩

theorem readData_data {h d vRecv pch : List UInt8} {hdr : CMessageHeader} (header : h.length = 24)
    (parsed : CMessageHeader.parse h = some hdr) (fits : hdr.nMessageSize.toNat ≤ MAX_PROTOCOL_MESSAGE_LENGTH)
    (received : d <+: vRecv) (allocated : vRecv.length ≤ hdr.nMessageSize.toNat)
    (unfinished : d.length < hdr.nMessageSize.toNat) (nonempty : pch ≠ []) :
    PassOutcome pchMessageStart (h ++ d) pch ((⟨true,h,hdr,24,vRecv,d.length,d⟩ : CNetMessage).readData pch) := by
  have some_bytes := List.length_pos_iff.mpr nonempty
  rw [CNetMessage.readData]
  dsimp only
  obtain ⟨c,copied⟩ : ∃ c, c = min (hdr.nMessageSize.toNat - d.length) pch.length := ⟨_,rfl⟩
  simp only [← copied]
  obtain ⟨front,room,within⟩ := allocated_ahead (c := c) received allocated (by omega)
  refine PassOutcome.taken (by omega) (by omega) (fun _ => fits) ?_
  rw [List.append_assoc]
  have grown : Absorbs pchMessageStart _ (h ++ (d ++ pch.take c)) :=
    Absorbs.data header parsed fits (prefix_memcpy front) (by rw [length_memcpy (by rw [List.length_take]; omega)]; exact within)
  rwa [List.length_append,List.length_take,Nat.min_eq_left (by omega : c ≤ pch.length)] at grown

/-- One pass of the loop, on a message holding a proper part of a frame. -/
theorem absorb_outcome {msg : CNetMessage} {r pch : List UInt8} (holds : Absorbs pchMessageStart msg r)
    (unfinished : msg.complete = false) (nonempty : pch ≠ []) :
    PassOutcome pchMessageStart r pch (msg.absorb pch) := by
  cases holds with
  | @header r short =>
    have reads : (headerPart pchMessageStart r).absorb pch = (headerPart pchMessageStart r).readHeader pch := rfl
    rw [reads]
    exact readHeader_headerPart short nonempty
  | @data h d vRecv hdr header parsed fits received allocated =>
    rw [CNetMessage.absorb,if_pos rfl]
    exact readData_data header parsed fits received allocated (payload_short received allocated unfinished) nonempty

/-! ## The loop -/

/-- The loop cuts the part of a frame it holds and the bytes `pch` as `frames`
    cuts them: where `frames` fails it returns `false`, and otherwise `true`,
    whether it completed a message, and the messages with the frames it
    completed after the earlier ones and then the part of a frame left. -/
theorem receiveLoop_frames :
    ∀ (fuel : Nat) {v : List CNetMessage} {fs : List (List UInt8 × List UInt8)} {r pch : List UInt8} (notify : Bool),
      Buffered pchMessageStart v fs r → (∀ f ∈ fs, Valid 24 payloadSize acceptable f) → pch.length ≤ fuel →
      match frames 24 payloadSize acceptable (r ++ pch) with
      | some cut => ∃ v', receiveLoop pchMessageStart fuel v notify pch = some (true,notify || !cut.1.isEmpty,v') ∧
          Buffered pchMessageStart v' (fs ++ cut.1) cut.2
      | none => ∃ notify' v', receiveLoop pchMessageStart fuel v notify pch = some (false,notify',v')
  | fuel, v, fs, r, [], notify, buffered, _, _ => by
    rw [List.append_nil,frames_partial_eq 24 payloadSize acceptable buffered.frame_part]
    refine ⟨v,?_,by rwa [List.append_nil]⟩
    cases fuel <;> simp [receiveLoop]
  | 0, _, _, _, _ :: _, _, _, _, short => by simp at short
  | fuel + 1, v, fs, r, b :: bs, notify, buffered, valid, short => by
    obtain ⟨msg,opened,holds,unfinished⟩ := openMessage_buffered buffered valid
    have pass := absorb_outcome holds unfinished (List.cons_ne_nil b bs)
    rw [receiveLoop,opened]
    dsimp only
    rcases pass with ⟨stops,fails⟩ | ⟨continues,positive,within,holds'⟩
    -- the header is refused: the loop returns false
    · rw [fails]
      by_cases negative : (msg.absorb (b :: bs)).1 < 0
      · exact ⟨notify,_,by rw [if_pos negative]⟩
      · have big : ((msg.absorb (b :: bs)).2.in_data &&
            decide (MAX_PROTOCOL_MESSAGE_LENGTH < (msg.absorb (b :: bs)).2.hdr.nMessageSize.toNat)) = true := by
          rcases stops with stop | stop
          · exact absurd stop negative
          · simpa using stop
        exact ⟨notify,_,by rw [if_neg negative,if_pos big]⟩
    -- bytes taken: the loop goes on with the rest
    · have notNegative : ¬ (msg.absorb (b :: bs)).1 < 0 := fun negative => continues (.inl negative)
      have notBig : ¬ ((msg.absorb (b :: bs)).2.in_data &&
          decide (MAX_PROTOCOL_MESSAGE_LENGTH < (msg.absorb (b :: bs)).2.hdr.nMessageSize.toNat)) = true := by
        simp only [Bool.and_eq_true,decide_eq_true_eq]
        exact fun big => continues (.inr big)
      rw [if_neg notNegative,if_neg notBig]
      obtain ⟨c,taken⟩ : ∃ c, c = (msg.absorb (b :: bs)).1.toNat := ⟨_,rfl⟩
      rw [← taken] at positive within holds' ⊢
      have rest : ((b :: bs).drop c).length ≤ fuel := by
        simp only [List.length_drop,List.length_cons] at short ⊢
        omega
      have split : r ++ b :: bs = r ++ (b :: bs).take c ++ (b :: bs).drop c := by
        rw [List.append_assoc,List.take_append_drop]
      cases done : (msg.absorb (b :: bs)).2.complete
      -- the message is still short of its frame
      · have ih := receiveLoop_frames fuel notify (.inr ⟨_,holds',done,rfl⟩) valid rest
        rw [← split] at ih
        rwa [Bool.or_false]
      -- the message completes a frame, and the rest goes to new messages
      · obtain ⟨f,framed,whole,same⟩ := holds'.frame done
        have buffered' : Buffered pchMessageStart (fs.map (ofFrame pchMessageStart) ++ [(msg.absorb (b :: bs)).2])
            (fs ++ [f]) [] := .inl ⟨rfl,by rw [same,List.map_append]; rfl⟩
        have valid' : ∀ g ∈ fs ++ [f], Valid 24 payloadSize acceptable g := by
          intro g mem
          rcases List.mem_append.mp mem with earlier | last
          · exact valid g earlier
          · rw [List.mem_singleton.mp last]
            exact framed
        have ih := receiveLoop_frames fuel (notify || true) buffered' valid' rest
        rw [List.nil_append] at ih
        rw [split,whole,frames_valid_append 24 payloadSize acceptable framed]
        cases cut : frames 24 payloadSize acceptable ((b :: bs).drop c) with
        | none =>
          rw [cut] at ih
          exact ih
        | some cut' =>
          rw [cut] at ih
          obtain ⟨v',loop,buffered''⟩ := ih
          refine ⟨v',?_,?_⟩
          · rw [loop]
            simp
          · simpa using buffered''

/-- `ReceiveMsgBytes` on a buffer holding complete frames and then a part of
    one: it returns `false` exactly where `frames` fails on that part and the
    new bytes, and otherwise `true`, whether it completed a message, and the
    frames it completed after the earlier ones, then the part of a frame left. -/
theorem ReceiveMsgBytes_frames {v : List CNetMessage} {fs : List (List UInt8 × List UInt8)} {r : List UInt8}
    (buffered : Buffered pchMessageStart v fs r) (valid : ∀ f ∈ fs, Valid 24 payloadSize acceptable f) (pch : List UInt8) :
    match frames 24 payloadSize acceptable (r ++ pch) with
    | some cut => ∃ v', ReceiveMsgBytes pchMessageStart v pch = some (true,!cut.1.isEmpty,v') ∧
        Buffered pchMessageStart v' (fs ++ cut.1) cut.2
    | none => ∃ notify v', ReceiveMsgBytes pchMessageStart v pch = some (false,notify,v') := by
  have loop := receiveLoop_frames pch.length false buffered valid le_rfl
  simp only [Bool.false_or] at loop
  exact loop

/-- The header of a `ping` with no payload, at the magic `0 0 0 0`. -/
def pingHeader : CMessageHeader := CMessageHeader.ofCommand (Vector.replicate MESSAGE_START_SIZE 0) [0x70,0x69,0x6e,0x67] 0

/-- A fresh connection's buffer, given the header of a `ping`: the message is
    complete, and the call says so. -/
theorem ReceiveMsgBytes_frames_ping :
    Buffered (Vector.replicate MESSAGE_START_SIZE 0) [] [] [] ∧
      (∀ f ∈ ([] : List (List UInt8 × List UInt8)), Valid 24 payloadSize acceptable f) ∧
      ∃ v', ReceiveMsgBytes (Vector.replicate MESSAGE_START_SIZE 0) [] pingHeader.Serialize = some (true,true,v') ∧
        Buffered (Vector.replicate MESSAGE_START_SIZE 0) v' [(pingHeader.Serialize,[])] [] := by
  have fresh : Buffered (Vector.replicate MESSAGE_START_SIZE 0) [] [] [] := .inl ⟨rfl,rfl⟩
  have none_yet : ∀ f ∈ ([] : List (List UInt8 × List UInt8)), Valid 24 payloadSize acceptable f := by simp
  have reads := ReceiveMsgBytes_frames fresh none_yet pingHeader.Serialize
  -- the header alone is one whole frame
  have ping : Valid 24 payloadSize acceptable (pingHeader.Serialize,[]) := valid_Serialize rfl (by decide)
  have one : ∀ f ∈ [(pingHeader.Serialize,([] : List UInt8))], Valid 24 payloadSize acceptable f := by
    simpa using ping
  have framed := frames_encode_append 24 payloadSize acceptable one []
  rw [frames_partial_eq 24 payloadSize acceptable (partial_nil 24 payloadSize acceptable)] at framed
  simp only [encode,List.flatMap_cons,List.flatMap_nil,List.append_nil,Option.map_some] at framed
  rw [List.nil_append,framed] at reads
  exact ⟨fresh,none_yet,reads⟩

end BitcoinPrivate.Net
