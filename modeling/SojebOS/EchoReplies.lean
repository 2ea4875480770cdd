import SojebOS.Ipv4Validity
import SojebOS.NetworkRoundTrip
import SojebOS.Rtl8139

/-!
# Echo replies

A request is answered from where it lies: its first four bytes are rewritten in place, and the
layers below copy it behind their headers. The length of the answer follows from the fields of the
request, which the received length does not bound.
-/
namespace EchoReplies

open ByteMemory MachineWord NetworkStack NetworkFrames NetworkRoundTrip NetworkChecksum
open Ipv4Delivery Ipv4Validity Rtl8139

def icmpLength (m : Bytes) (data : ℕ) : ℕ := bswap16 (totalLength m data) - ihl m data * 4

structure Requests (node : Node) (m : Bytes) (data len : ℕ) : Prop where
  ihl_le : 5 ≤ ihl m data
  protocol_eq : protocol m data = ipv4ProtoIcmp
  destIp_eq : destIp m data = node.ip
  total_le : bswap16 (totalLength m data) ≤ len
  len_le : len ≤ 1500
  icmp_le : ihl m data * 4 + icmpHeaderSize ≤ bswap16 (totalLength m data)
  type_eq : m (data + ihl m data * 4) = icmpTypeEchoRequest

/-- The frame takes the request at `data` back to `mac`. -/
structure Replies (node : Node) (m : Bytes) (data : ℕ) (mac : Mac) (f : Frame) : Prop where
  destMac : loadMac f.data 0 = mac
  srcMac : loadMac f.data 6 = node.mac
  type : bswap16 (load16 f.data 12) = ethertypeIpv4
  len : f.len = ethHeaderSize + (ipv4HeaderSize + icmpLength m data)
  version : version f.data 14 = 4
  ihl : ihl f.data 14 = 5
  protocol : protocol f.data 14 = ipv4ProtoIcmp
  srcIp : srcIp f.data 14 = destIp m data
  destIp : destIp f.data 14 = NetworkStack.srcIp m data
  totalLength : bswap16 (totalLength f.data 14) = ipv4HeaderSize + icmpLength m data
  headerChecksum : netChecksum f.data 14 ipv4HeaderSize = 0
  icmpType : f.data 34 = icmpTypeEchoReply
  icmpCode : f.data 35 = 0
  icmpRest : ∀ i < icmpLength m data, 4 ≤ i →
    f.data (34 + i) = m (data + NetworkStack.ihl m data * 4 + i)
  icmpChecksum : netChecksum f.data 34 (icmpLength m data) = 0

section Packets

variable {node : Node} {scratch : Scratch} {m block payload : Bytes} {data len : ℕ}
variable {src dest proto : ℕ} {mac : Mac}

theorem ipv4Packet_version : version (ipv4Packet block src dest proto payload len) 0 = 4 := by
  simp (disch := omega) only [version, ipv4Packet, ipv4HeaderSize, copyIn_outside,
    store16_outside, store32_outside, store8_other, store8_same]
  decide

theorem ipv4Packet_checksum :
    netChecksum (ipv4Packet block src dest proto payload len) 0 ipv4HeaderSize = 0 := by
  unfold ipv4Packet
  rw [netChecksum_congr (b := 0) (by decide) fun i hi => copyIn_outside (by omega)]
  exact netChecksum_verifies _ 0 10 (by decide) (by decide) (by decide)
    (load16_store16 (by norm_num))

theorem ethernetSendPacket_srcMac {type : ℕ} :
    loadMac (ethernetSendPacket node scratch mac type payload len).data 6 = node.mac := by
  simp (disch := omega) only [ethernetSendPacket, ethHeaderSize, loadMac_copyIn_apart,
    loadMac_store16_apart, loadMac_storeMac]

theorem replyInPlace_checksum (m : Bytes) (data : ℕ) (h : len ≤ 131072) (hlen : 4 ≤ len) :
    netChecksum (replyInPlace m data len) data len = 0 :=
  netChecksum_verifies _ data 2 h (by decide) hlen (load16_store16 (by norm_num))

theorem replyInPlace_type : replyInPlace m data len data = icmpTypeEchoReply := by
  unfold replyInPlace
  rw [store16_outside (by omega), store16_outside (by omega), store8_other (by omega), store8_same]

theorem replyInPlace_code : replyInPlace m data len (data + 1) = 0 := by
  unfold replyInPlace
  rw [store16_outside (by omega), store16_outside (by omega), store8_same]

end Packets

section Requests

variable {node : Node} {scratch : Scratch} {m block : Bytes} {data len : ℕ} {mac : Mac}

theorem Requests.accepted (h : Requests node m data len) : Accepted node m data len := by
  have hihl := h.ihl_le
  have htotal := h.total_le
  have hicmp := h.icmp_le
  exact ⟨by unfold ipv4HeaderSize; omega, Or.inl h.destIp_eq, by omega, h.protocol_eq⟩

theorem Requests.srcIp_kept (h : Requests node m data len) :
    load32 (replyInPlace m (data + ihl m data * 4) (icmpLength m data)) (data + 12) =
      srcIp m data := by
  have hihl := h.ihl_le
  apply load32_congr
  intro x _ hx
  exact replyInPlace_outside (by omega)

theorem Requests.handled (h : Requests node m data len)
    (hmac : arpLookup node.arpCache (srcIp m data) = some mac)
    (hblock : scratch.kmalloc = some block) :
    ipv4HandlePacket node scratch m data len =
      [ethernetSendPacket node scratch mac ethertypeIpv4
        (ipv4Packet block node.ip (srcIp m data) ipv4ProtoIcmp
          (window (replyInPlace m (data + ihl m data * 4) (icmpLength m data))
            (data + ihl m data * 4)) (icmpLength m data))
        (ipv4HeaderSize + icmpLength m data)] := by
  have hicmp := h.icmp_le
  have hlength : u32 (ipv4HeaderSize + icmpLength m data) = ipv4HeaderSize + icmpLength m data := by
    have htotal := h.total_le
    have hlen := h.len_le
    apply u32_of_lt
    unfold ipv4HeaderSize icmpLength
    omega
  have hlong : ¬ icmpLength m data < icmpHeaderSize := by
    unfold icmpLength
    omega
  rw [ipv4HandlePacket, icmpCall_eq, if_pos h.accepted]
  change icmpHandle node scratch m data _ (icmpLength m data) = _
  rw [icmpHandle_reply, if_neg hlong, if_pos h.type_eq, h.srcIp_kept, ipv4Send, hblock]
  simp only [hmac, hlength]

end Requests

section Sending

variable {node : Node} {scratch : Scratch} {block payload : Bytes} {n dest : ℕ} {mac : Mac}
variable {f : Frame}

theorem sent_reads (hn : n ≤ 1480) (hdest : dest < 2 ^ 32)
    (h : Holds f.data 14 ⟨ipv4Packet block node.ip dest ipv4ProtoIcmp payload n,
      ipv4HeaderSize + n⟩) :
    Reads f.data 14 node.ip dest ipv4ProtoIcmp payload n ∧ version f.data 14 = 4 ∧
      netChecksum f.data 14 ipv4HeaderSize = 0 := by
  refine ⟨reads_packet (by omega) (by decide) node.ip_lt hdest h, ?_, ?_⟩
  · have hbyte : f.data 14 = ipv4Packet block node.ip dest ipv4ProtoIcmp payload n 0 :=
      h 0 (by simp only [ipv4HeaderSize]; omega)
    rw [version, hbyte]
    exact ipv4Packet_version
  · have hheader : ∀ i < ipv4HeaderSize, f.data (14 + i) =
        ipv4Packet block node.ip dest ipv4ProtoIcmp payload n (0 + i) := by
      intro i hi
      rw [Nat.zero_add]
      exact h i (by simp only; omega)
    rw [netChecksum_congr (by decide) hheader]
    exact ipv4Packet_checksum

end Sending

/-- An echo request is answered with one frame, to the sender's MAC, with the request's bytes
behind a header of its own and checksums that verify. -/
theorem echo_request_answered (node : Node) (scratch : Scratch) (m : Bytes) (data len : ℕ)
    (mac : Mac) (h : Requests node m data len)
    (hmac : arpLookup node.arpCache (srcIp m data) = some mac) (hblock : scratch.kmalloc ≠ none) :
    ∃ f, ipv4HandlePacket node scratch m data len = [f] ∧ Replies node m data mac f := by
  obtain ⟨block, hblock⟩ := Option.ne_none_iff_exists'.mp hblock
  refine ⟨_, h.handled hmac hblock, ?_⟩
  have htotal := h.total_le
  have hlen := h.len_le
  have hicmp := h.icmp_le
  have hihl := h.ihl_le
  have hlower : 8 ≤ icmpLength m data := by
    unfold icmpLength
    simp only [icmpHeaderSize] at hicmp
    omega
  have hupper : icmpLength m data ≤ 1480 := by
    unfold icmpLength
    omega
  generalize hpart : data + ihl m data * 4 = icmp
  generalize hn : icmpLength m data = n at hlower hupper
  generalize hframe : ethernetSendPacket node scratch mac ethertypeIpv4
    (ipv4Packet block node.ip (srcIp m data) ipv4ProtoIcmp (window (replyInPlace m icmp n) icmp) n)
    (ipv4HeaderSize + n) = f
  have hholds : Holds f.data (0 + 14) ⟨ipv4Packet block node.ip (srcIp m data) ipv4ProtoIcmp
      (window (replyInPlace m icmp n) icmp) n, ipv4HeaderSize + n⟩ := by
    have hself : Holds f.data 0 f := fun i _ => congrArg f.data (Nat.zero_add i)
    rw [← hframe] at hself ⊢
    exact holds_sent hself
  rw [Nat.zero_add] at hholds
  obtain ⟨hreads, hversion, hchecksum⟩ := sent_reads hupper (load32_lt m _) hholds
  -- the ICMP part of the frame is the edited request
  have hbytes : ∀ i < n, f.data (34 + i) = replyInPlace m icmp n (icmp + i) :=
    fun i hi => hreads.payload i hi
  have hdata : f.data = (ethernetSendPacket node scratch mac ethertypeIpv4 _ _).data :=
    congrArg Frame.data hframe.symm
  constructor
  · rw [hdata]
    exact ethernetSendPacket_destMac
  · rw [hdata]
    exact ethernetSendPacket_srcMac
  · rw [hdata]
    exact ethernetSendPacket_type (by decide)
  · rw [← hframe, hn]
    exact Nat.add_comm _ _
  · exact hversion
  · exact hreads.ihl
  · exact hreads.protocol
  · rw [hreads.srcIp, h.destIp_eq]
  · exact hreads.destIp
  · rw [hn]
    exact hreads.totalLength
  · exact hchecksum
  · exact (hbytes 0 (by omega)).trans replyInPlace_type
  · exact (hbytes 1 (by omega)).trans replyInPlace_code
  · intro i hi hfour
    rw [hn] at hi
    rw [hbytes i hi, hpart]
    exact replyInPlace_outside (by omega)
  · rw [hn, netChecksum_congr (by omega) hbytes]
    exact replyInPlace_checksum m icmp (by omega) (by omega)

def pingedNode : Node := { kernelNode with arpCache := [⟨10 + 2 ^ 24, fun _ => 2, true⟩] }

theorem echo_request_answered_ping :
    ∃ f, ipv4HandlePacket pingedNode ⟨some fun _ => 0, fun _ => 0⟩ uncheckedPacket 0 28 = [f] ∧
      Replies pingedNode uncheckedPacket 0 (fun _ => 2) f :=
  echo_request_answered _ _ _ _ _ _
    ⟨by decide, by decide, by decide, by decide, by decide, by decide, by decide⟩ rfl (by decide)

section Sizes

/-- Whatever the cache holds and whatever memory there is, the frames that are sent while one is
handled fit into the array in which they are put together. -/
def ResponsesFit (node : Node) (m : Bytes) (data len : ℕ) : Prop :=
  ∀ cache scratch, cache.length = arpCacheSize →
    ∀ f ∈ (ethernetHandlePacket { node with arpCache := cache } scratch m data len).2,
      f.len ≤ 1514

variable {node : Node} {scratch : Scratch} {m : Bytes} {data len n dest : ℕ} {f : Frame}

theorem icmpLength_lt (m : Bytes) (data : ℕ) : icmpLength m data < 2 ^ 16 :=
  (Nat.sub_le _ _).trans_lt (bswap16_lt _)

theorem icmpHandle_fits {ipHdr : ℕ} (hlt : n < 2 ^ 16)
    (hn : m data = icmpTypeEchoRequest → n ≤ 1480)
    (h : f ∈ icmpHandle node scratch m ipHdr data n) : f.len ≤ 1514 := by
  rw [icmpHandle_reply] at h
  split at h
  · exact absurd h List.not_mem_nil
  · split at h
    · next htype => exact (ipv4Send_fits_iff hlt).mpr (.inl (hn htype)) f h
    · exact absurd h List.not_mem_nil

theorem ethernetHandlePacket_delivered (scratch : Scratch)
    (hroute : ethernetRoute node m data len = .ipv4)
    (haccepted : Accepted node m (data + ethHeaderSize) (len - ethHeaderSize)) :
    ethernetHandlePacket node scratch m data len =
      (node, icmpHandle node scratch m (data + ethHeaderSize)
        (data + ethHeaderSize + ihl m (data + ethHeaderSize) * 4)
        (icmpLength m (data + ethHeaderSize))) := by
  apply ethernetHandlePacket_icmp
  rw [ethernetIcmpCall, hroute]
  dsimp only
  rw [icmpCall_eq, if_pos haccepted]
  rfl

theorem icmpHandle_resolved {ipHdr : ℕ} {mac : Mac} (htype : m data = icmpTypeEchoRequest)
    (hlow : icmpHeaderSize ≤ n) (hn : n < 2 ^ 16) (hblock : scratch.kmalloc ≠ none)
    (hmac : arpLookup node.arpCache (load32 (replyInPlace m data n) (ipHdr + 12)) = some mac) :
    ∃ f ∈ icmpHandle node scratch m ipHdr data n, f.len = n + 34 := by
  obtain ⟨block, hblock⟩ := Option.ne_none_iff_exists'.mp hblock
  have hsize : u32 (ipv4HeaderSize + n) = ipv4HeaderSize + n :=
    u32_of_lt (by unfold ipv4HeaderSize; omega)
  rw [icmpHandle_reply, if_neg (Nat.not_lt.mpr hlow), if_pos htype, ipv4Send, hblock]
  dsimp only
  rw [hmac]
  refine ⟨_, List.mem_singleton_self _, ?_⟩
  rw [ethernetSendPacket_len, hsize, ipv4HeaderSize]
  omega

theorem arpLookup_replicate (ip : ℕ) (mac : Mac) :
    arpLookup (List.replicate arpCacheSize ⟨ip, mac, true⟩) ip = some mac := by
  simp [arpLookup, arpCacheSize, List.replicate]

theorem length_of_responsesFit (h : ResponsesFit node m data len)
    (hroute : ethernetRoute node m data len = .ipv4)
    (haccepted : Accepted node m (data + ethHeaderSize) (len - ethHeaderSize))
    (htype : m (data + ethHeaderSize + ihl m (data + ethHeaderSize) * 4) = icmpTypeEchoRequest) :
    icmpLength m (data + ethHeaderSize) ≤ 1480 := by
  by_contra hlong
  -- the cache has a MAC for the address to which the answer goes
  let sender := load32 (replyInPlace m
    (data + ethHeaderSize + ihl m (data + ethHeaderSize) * 4)
    (icmpLength m (data + ethHeaderSize))) (data + ethHeaderSize + 12)
  let cache : List ArpEntry := List.replicate arpCacheSize ⟨sender, fun _ => 0, true⟩
  let other : Node := { node with arpCache := cache }
  let scratch : Scratch := ⟨some fun _ => 0, fun _ => 0⟩
  have hmac : arpLookup other.arpCache sender = some fun _ => 0 := arpLookup_replicate sender _
  have hblock : scratch.kmalloc ≠ none := Option.some_ne_none _
  have hlow : icmpHeaderSize ≤ icmpLength m (data + ethHeaderSize) := by
    unfold icmpHeaderSize
    omega
  obtain ⟨f, hf, hlen⟩ := icmpHandle_resolved htype hlow (icmpLength_lt m _) hblock hmac
  have hhandled : ethernetHandlePacket other scratch m data len = (other, _) :=
    ethernetHandlePacket_delivered scratch hroute haccepted
  have hfits : f ∈ (ethernetHandlePacket other scratch m data len).2 → f.len ≤ 1514 :=
    h cache scratch List.length_replicate f
  rw [hhandled] at hfits
  have hle := hfits hf
  omega

/-- An answer fits exactly when the ICMP part of the request, as long as its header says, does. -/
theorem responses_fit_iff (node : Node) (m : Bytes) (data len : ℕ) :
    ResponsesFit node m data len ↔
      ethernetRoute node m data len ≠ .ipv4 ∨
        ¬ Accepted node m (data + ethHeaderSize) (len - ethHeaderSize) ∨
        m (data + ethHeaderSize + ihl m (data + ethHeaderSize) * 4) ≠ icmpTypeEchoRequest ∨
        icmpLength m (data + ethHeaderSize) ≤ 1480 := by
  constructor
  · intro h
    by_contra hnone
    simp only [not_or, ne_eq, not_not] at hnone
    obtain ⟨hroute, haccepted, htype, hlong⟩ := hnone
    exact hlong (length_of_responsesFit h hroute haccepted htype)
  · intro hcond cache scratch _ f hf
    cases hroute : ethernetRoute { node with arpCache := cache } m data len with
    | drop =>
      rw [ethernetHandlePacket, hroute] at hf
      exact absurd hf List.not_mem_nil
    | arp =>
      rw [ethernetHandlePacket, hroute] at hf
      exact arpHandlePacket_fits hf
    | ipv4 =>
      by_cases haccepted : Accepted node m (data + ethHeaderSize) (len - ethHeaderSize)
      · rw [ethernetHandlePacket_delivered scratch hroute haccepted] at hf
        refine icmpHandle_fits (icmpLength_lt m _) (fun htype => ?_) hf
        rcases hcond with hother | hrejected | hnot | hlength
        · exact absurd hroute hother
        · exact absurd haccepted hrejected
        · exact absurd htype hnot
        · exact hlength
      · rw [ethernetHandlePacket, hroute] at hf
        dsimp only at hf
        rw [ipv4HandlePacket, icmpCall_eq, if_neg] at hf
        · exact absurd hf List.not_mem_nil
        · exact haccepted

/-- A broadcast frame of 42 bytes whose total length says 65535. -/
def overlongFrame : Bytes := fun a =>
  [0xFF, 0xFF, 0xFF, 0xFF, 0xFF, 0xFF, 0x52, 0x54, 0, 0x12, 0x34, 0x56, 8, 0,
    0x45, 0, 0xFF, 0xFF, 0, 0, 0, 0, 64, 1, 0, 0, 10, 0, 0, 1, 192, 168, 10, 11, 8].getD a 0

theorem overlong_response : ¬ ∀ node m data len, len ≤ 1514 → ResponsesFit node m data len := by
  intro h
  have hlength := length_of_responsesFit (h kernelNode overlongFrame 0 42 (by norm_num))
    (by decide) (by decide) (by decide)
  revert hlength
  decide

end Sizes

end EchoReplies
