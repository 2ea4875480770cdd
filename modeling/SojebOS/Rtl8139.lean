import SojebOS.NetworkFrames

/-!
# The driver of the network card

The registers a transmission is started with and the bytes the card then fetches, and the
ring of received frames, in which each frame lies behind a header of four bytes.
-/
namespace Rtl8139

open ByteMemory MachineWord NetworkStack NetworkFrames

abbrev rxBufSize : ℕ := 8192
/-- Padding for frames that run past the end of the ring. -/
abbrev rxTotalSize : ℕ := rxBufSize + 16 + 1500
def txDescCount : ℕ := 4

section Transmit

/-- The registers of the descriptor, the bit of its completion, and the bytes on the wire. -/
structure Transmission where
  statusReg : ℕ
  addrReg : ℕ
  okBit : ℕ
  wire : List UInt8

/-- The card sends no frame of less than 60 bytes. -/
def transmitSize (len : ℕ) : ℕ := if len < 60 then 60 else len

def rtl8139SendPacket (ioBase currentTxDescriptor : ℕ) (packet : Frame) : Transmission × ℕ :=
  ({ statusReg := u32 (ioBase + 0x10 + currentTxDescriptor * 4)
     addrReg := u32 (ioBase + 0x20 + currentTxDescriptor * 4)
     okBit := 1 <<< (currentTxDescriptor + 2)
     wire := (List.range (transmitSize packet.len)).map packet.data },
   (currentTxDescriptor + 1) % txDescCount)

end Transmit

section Receive

/-- The echo request that a call of `ethernet_handle_packet` answers, with its length. -/
def echoRequest (node : Node) (m : Bytes) (data len : ℕ) : Option (ℕ × ℕ) :=
  match ethernetRoute node m data len with
  | .ipv4 => (icmpCall node m (data + ethHeaderSize) (len - ethHeaderSize)).filter fun icmp =>
      icmpHeaderSize ≤ icmp.2 ∧ m icmp.1 = icmpTypeEchoRequest
  | .arp => none
  | .drop => none

/-- `icmp_handle` turns the request into the reply where it lies. -/
def replyInPlace (m : Bytes) (data len : ℕ) : Bytes :=
  let m := store8 m data icmpTypeEchoReply
  let m := store8 m (data + 1) 0
  let m := store16 m (data + 2) 0
  store16 m (data + 2) (netChecksum m data len)

/-- What `ethernet_handle_packet` leaves of the memory that it is called on. -/
def handledMemory (node : Node) (m : Bytes) (data len : ℕ) : Bytes :=
  match echoRequest node m data len with
  | some (icmp, icmpLen) => replyInPlace m icmp icmpLen
  | none => m

/-- A call of `ethernet_handle_packet`, with the bytes it finds. -/
structure Given where
  data : ℕ
  len : ℕ
  bytes : List UInt8

/-- The receiving side of the driver. `capr` is what was last written to the card. -/
structure Receiver where
  memory : Bytes
  rxOffset : ℕ
  capr : ℕ
  node : Node
  given : List Given

/-- The part of `rtl8139_init` that sets up the ring. -/
def rtl8139Init (rxBuffer : ℕ) (m : Bytes) (node : Node) : Receiver where
  memory := copyIn m rxBuffer rxTotalSize (fun _ => 0)
  rxOffset := 0
  capr := 0
  node := node
  given := []

def advanceOffset (rxOffset packetLen : ℕ) : ℕ :=
  let rxOffset := u32 (rxOffset + packetLen + 4 + 3) &&& 0xFFFFFFFC
  if rxBufSize ≤ rxOffset then rxOffset % rxBufSize else rxOffset

/-- The call that an iteration of `rtl8139_poll` makes for the frame at `rx_offset`. -/
def givenPacket (rxBuffer : ℕ) (r : Receiver) : Given :=
  let packetLen := load16 r.memory (rxBuffer + r.rxOffset + 2)
  let data := rxBuffer + r.rxOffset + 4
  let len := sub32 packetLen 4
  ⟨data, len, (List.range len).map fun i => r.memory (data + i)⟩

/-- The array in which `ethernet_send_packet` puts a frame together. -/
abbrev frameArraySize : ℕ := 1514

/-- An iteration of `rtl8139_poll`, once the card says that the ring is not empty; `none` where
a frame that is sent on the way runs over its array, and so over the stack of the iteration. -/
def pollIteration (rxBuffer : ℕ) (scratch : Scratch) (r : Receiver) : Option Receiver :=
  let status := load16 r.memory (rxBuffer + r.rxOffset)
  let packetLen := load16 r.memory (rxBuffer + r.rxOffset + 2)
  if status &&& 0x01 ≠ 0 then
    let packet := givenPacket rxBuffer r
    let handled := ethernetHandlePacket r.node scratch r.memory packet.data packet.len
    let rxOffset := advanceOffset r.rxOffset packetLen
    if ∀ f ∈ handled.2, f.len ≤ frameArraySize then
      some
        { memory := handledMemory r.node r.memory packet.data packet.len
          rxOffset := rxOffset
          capr := sub32 rxOffset 0x10 % 2 ^ 16
          node := handled.1
          given := r.given ++ [packet] }
    else none
  else some r

end Receive

section Handlers

variable {node : Node} {scratch : Scratch} {m : Bytes} {data len n dest icmp : ℕ} {f : Frame}

theorem icmpHandle_reply (ipHdr : ℕ) : icmpHandle node scratch m ipHdr data len =
    if len < icmpHeaderSize then []
    else if m data = icmpTypeEchoRequest then
      ipv4Send node scratch (load32 (replyInPlace m data len) (ipHdr + 12)) ipv4ProtoIcmp
        (replyInPlace m data len) data len
    else [] :=
  rfl

theorem replyInPlace_outside {x : ℕ} (h : x < data ∨ data + 4 ≤ x) :
    replyInPlace m data len x = m x := by
  unfold replyInPlace
  rw [store16_outside (by omega), store16_outside (by omega), store8_other (by omega),
    store8_other (by omega)]

theorem arpHandlePacket_fits (h : f ∈ (arpHandlePacket node scratch m data len).2) :
    f.len ≤ frameArraySize := by
  unfold arpHandlePacket at h
  split at h
  · exact absurd h List.not_mem_nil
  · dsimp only at h
    split at h
    · rw [List.mem_singleton.mp h, ethernetSendPacket_len]
      decide
    · exact absurd h List.not_mem_nil

/-- What is sent for a payload that an IPv4 packet can have fits into the array exactly when the
payload has at most 1480 bytes, or does not go out: for want of memory, or of an address. -/
theorem ipv4Send_fits_iff (hn : n < 2 ^ 16) :
    (∀ f ∈ ipv4Send node scratch dest ipv4ProtoIcmp m data n, f.len ≤ frameArraySize) ↔
      n ≤ 1480 ∨ scratch.kmalloc = none ∨ arpLookup node.arpCache dest = none := by
  have hlength : u32 (ipv4HeaderSize + n) = ipv4HeaderSize + n :=
    u32_of_lt (by unfold ipv4HeaderSize; omega)
  unfold ipv4Send
  cases hblock : scratch.kmalloc with
  | none => exact iff_of_true (fun f hf => absurd hf List.not_mem_nil) (.inr (.inl rfl))
  | some block =>
    dsimp only
    cases hmac : arpLookup node.arpCache dest with
    | none =>
      refine iff_of_true ?_ (.inr (.inr rfl))
      rw [List.forall_mem_singleton, arpSendRequest, ethernetSendPacket_len]
      decide
    | some mac =>
      rw [List.forall_mem_singleton, ethernetSendPacket_len, hlength, ipv4HeaderSize]
      simp only [frameArraySize, reduceCtorEq, or_false]
      omega

theorem icmpCall_lt (h : icmpCall node m data len = some (icmp, n)) : n < 2 ^ 16 := by
  simp only [icmpCall] at h
  split_ifs at h
  have hlen := (Prod.mk.inj (Option.some.inj h)).2
  have hlt := bswap16_lt (totalLength m data)
  omega

theorem ethernetHandlePacket_request (h : echoRequest node m data len = some (icmp, n)) :
    n < 2 ^ 16 ∧ (ethernetHandlePacket node scratch m data len).2 =
      ipv4Send node scratch (load32 (replyInPlace m icmp n) (data + ethHeaderSize + 12))
        ipv4ProtoIcmp (replyInPlace m icmp n) icmp n := by
  unfold echoRequest at h
  cases hroute : ethernetRoute node m data len with
  | drop =>
    rw [hroute] at h
    cases h
  | arp =>
    rw [hroute] at h
    cases h
  | ipv4 =>
    rw [hroute] at h
    obtain ⟨hcall, hrequest⟩ := Option.filter_eq_some_iff.mp h
    obtain ⟨hlow, htype⟩ := of_decide_eq_true hrequest
    refine ⟨icmpCall_lt hcall, ?_⟩
    rw [ethernetHandlePacket, hroute]
    dsimp only
    rw [ipv4HandlePacket, hcall]
    dsimp only
    rw [icmpHandle_reply, if_neg (Nat.not_lt.mpr hlow), if_pos htype]

theorem ethernetHandlePacket_quiet (h : echoRequest node m data len = none) :
    ∀ f ∈ (ethernetHandlePacket node scratch m data len).2, f.len ≤ frameArraySize := by
  intro f hf
  unfold echoRequest at h
  cases hroute : ethernetRoute node m data len with
  | drop =>
    rw [ethernetHandlePacket, hroute] at hf
    exact absurd hf List.not_mem_nil
  | arp =>
    rw [ethernetHandlePacket, hroute] at hf
    exact arpHandlePacket_fits hf
  | ipv4 =>
    rw [ethernetHandlePacket, hroute] at hf
    dsimp only at hf
    rw [hroute] at h
    rw [ipv4HandlePacket] at hf
    cases hcall : icmpCall node m (data + ethHeaderSize) (len - ethHeaderSize) with
    | none =>
      rw [hcall] at hf
      exact absurd hf List.not_mem_nil
    | some call =>
      rw [hcall] at h hf
      have hnot := Option.filter_eq_none_iff.mp h call rfl
      rw [decide_eq_true_eq, not_and] at hnot
      dsimp only at hf
      rw [icmpHandle_reply] at hf
      split at hf
      · exact absurd hf List.not_mem_nil
      · next hlow =>
        rw [if_neg (hnot (Nat.not_lt.mp hlow))] at hf
        exact absurd hf List.not_mem_nil

end Handlers

end Rtl8139
