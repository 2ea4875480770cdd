import SojebOS.NetworkFrames
import SojebOS.Ipv4Delivery

/-!
# Receiving undoes sending

An ICMP packet that was sent is read back field by field from any memory that holds its
frame, however much padding the wire added, and reaches `icmp_handle` unchanged.
-/
namespace NetworkRoundTrip

open ByteMemory MachineWord NetworkStack NetworkFrames Ipv4Delivery

/-- The header address, payload and payload length of the one call of `icmp_handle` that
`ethernet_handle_packet` leads to, if it leads to one. -/
def ethernetIcmpCall (node : Node) (m : Bytes) (data len : ℕ) : Option (ℕ × ℕ × ℕ) :=
  match ethernetRoute node m data len with
  | .ipv4 => (icmpCall node m (data + ethHeaderSize) (len - ethHeaderSize)).map
      fun (payload, payloadLen) => (data + ethHeaderSize, payload, payloadLen)
  | _ => none

theorem ethernetHandlePacket_icmp {node : Node} {m : Bytes} {data len ipHdr payload n : ℕ}
    (scratch : Scratch) (h : ethernetIcmpCall node m data len = some (ipHdr, payload, n)) :
    ethernetHandlePacket node scratch m data len =
      (node, icmpHandle node scratch m ipHdr payload n) := by
  unfold ethernetIcmpCall at h
  cases hroute : ethernetRoute node m data len with
  | ipv4 =>
    simp only [hroute, Option.map_eq_some_iff, Prod.exists, Prod.mk.injEq] at h
    obtain ⟨p, l, hcall, rfl, rfl, rfl⟩ := h
    simp only [ethernetHandlePacket, hroute, ipv4HandlePacket, hcall]
  | arp => simp [hroute] at h
  | drop => simp [hroute] at h

/-- The header fields and the payload that memory holds at `a`. -/
structure Reads (m : Bytes) (a src dest proto : ℕ) (payload : Bytes) (len : ℕ) : Prop where
  ihl : ihl m a = 5
  totalLength : bswap16 (totalLength m a) = 20 + len
  protocol : protocol m a = proto
  srcIp : srcIp m a = src
  destIp : destIp m a = dest
  payload : ∀ i < len, m (a + 20 + i) = payload i

variable {m block payload : Bytes} {a src dest proto len : ℕ}

theorem reads_packet (hlen : 20 + len < 2 ^ 16) (hproto : proto < 2 ^ 8) (hsrc : src < 2 ^ 32)
    (hdest : dest < 2 ^ 32)
    (h : Holds m a ⟨ipv4Packet block src dest proto payload len, 20 + len⟩) :
    Reads m a src dest proto payload len := by
  constructor
  · have hbyte : m (a + 0) = ipv4Packet block src dest proto payload len 0 :=
      h 0 (by simp only; omega)
    have hihl : ihl m a = ihl (ipv4Packet block src dest proto payload len) 0 :=
      congrArg (fun b : UInt8 => b.toNat % 16) hbyte
    exact hihl.trans ipv4Packet_ihl
  · rw [NetworkStack.totalLength, h.load16 (i := 2) (by simp only; omega)]
    exact ipv4Packet_totalLength hlen
  · have hbyte : m (a + 9) = ipv4Packet block src dest proto payload len 9 :=
      h 9 (by simp only; omega)
    exact (congrArg UInt8.toNat hbyte).trans (ipv4Packet_protocol hproto)
  · rw [NetworkStack.srcIp, h.load32 (i := 12) (by simp only; omega)]
    exact ipv4Packet_srcIp hsrc
  · rw [NetworkStack.destIp, h.load32 (i := 16) (by simp only; omega)]
    exact ipv4Packet_destIp hdest
  · intro i hi
    rw [Nat.add_assoc, h (20 + i) (by simp only; omega)]
    exact ipv4Packet_payload hi

theorem route_sent {node sender : Node} {scratch : Scratch} {type n : ℕ} {data : Bytes}
    (ht : type < 2 ^ 16) (hn : len + 14 ≤ n)
    (h : Holds m a (ethernetSendPacket sender scratch node.mac type data len)) :
    ethernetRoute node m a n = if type = ethertypeIpv4 then .ipv4
      else if type = ethertypeArp then .arp else .drop := by
  have hmac : loadMac m a = node.mac :=
    (h.loadMac (i := 0) (by simp only [ethernetSendPacket_len]; omega)).trans
      ethernetSendPacket_destMac
  have htype : bswap16 (load16 m (a + 12)) = type := by
    rw [h.load16 (i := 12) (by simp only [ethernetSendPacket_len]; omega)]
    exact ethernetSendPacket_type ht
  have hlen : ¬ n < ethHeaderSize := by
    unfold ethHeaderSize
    omega
  have hus : ¬ (loadMac m a ≠ broadcastMac ∧ loadMac m a ≠ node.mac) := fun hne => hne.2 hmac
  rw [ethernetRoute, if_neg hlen, if_neg hus]
  simp only [htype]

/-- A packet for a node whose binding the sender has cached reaches `icmp_handle` of that
node with the sender's address and with exactly the bytes that were sent. -/
theorem receive_undoes_send (sender node : Node) (scratch : Scratch) (m : Bytes) (data len : ℕ)
    (hlen : len ≤ 1480) (hroom : scratch.kmalloc.isSome = true)
    (hbinding : arpLookup sender.arpCache node.ip = some node.mac) :
    ∃ f, ipv4Send sender scratch node.ip ipv4ProtoIcmp m data len = [f] ∧
      ∀ m' a n, f.len ≤ n → Holds m' a f → ∃ ipHdr payload,
        ethernetIcmpCall node m' a n = some (ipHdr, payload, len) ∧
        (∀ scratch', ethernetHandlePacket node scratch' m' a n =
          (node, icmpHandle node scratch' m' ipHdr payload len)) ∧
        srcIp m' ipHdr = sender.ip ∧ ∀ i < len, m' (payload + i) = m (data + i) := by
  obtain ⟨block, hblock⟩ := Option.isSome_iff_exists.mp hroom
  have hu : u32 (ipv4HeaderSize + len) = 20 + len := u32_of_lt (by unfold ipv4HeaderSize; omega)
  let packet := ipv4Packet block sender.ip node.ip ipv4ProtoIcmp (window m data) len
  refine ⟨ethernetSendPacket sender scratch node.mac ethertypeIpv4 packet (20 + len), ?_, ?_⟩
  · simp only [ipv4Send, hblock, hbinding, hu, packet]
  intro m' a n hn hholds
  have hn' : 20 + len + 14 ≤ n := hn
  have hroute := route_sent (by norm_num [ethertypeIpv4]) hn' hholds
  rw [if_pos rfl] at hroute
  have hreads := reads_packet (by omega) (by norm_num [ipv4ProtoIcmp]) sender.ip_lt node.ip_lt
    (holds_sent hholds)
  have haccepted : Accepted node m' (a + 14) (n - 14) := by
    refine ⟨by unfold ipv4HeaderSize; omega, .inl hreads.destIp, ?_, hreads.protocol⟩
    rw [hreads.ihl, hreads.totalLength]
    omega
  have hcall : ethernetIcmpCall node m' a n = some (a + 14, a + 14 + 20, len) := by
    simp only [ethernetIcmpCall, hroute, ethHeaderSize, icmpCall_eq, if_pos haccepted,
      hreads.ihl, hreads.totalLength, Option.map_some, Nat.add_sub_cancel_left]
  refine ⟨a + 14, a + 14 + 20, hcall, fun scratch' => ethernetHandlePacket_icmp scratch' hcall,
    hreads.srcIp, ?_⟩
  intro i hi
  exact hreads.payload i hi

/-- A machine that has resolved the address of `kernelNode`. -/
def pingNode : Node :=
  ⟨192 + 168 * 2 ^ 8 + 10 * 2 ^ 16 + 1 * 2 ^ 24, by norm_num, fun _ => 2,
    [⟨kernelNode.ip, kernelNode.mac, true⟩]⟩

theorem receive_undoes_send_ping : ∃ f,
    ipv4Send pingNode ⟨some fun _ => 0, fun _ => 0⟩ kernelNode.ip ipv4ProtoIcmp (fun _ => 8) 0 20 =
      [f] ∧ ∀ m' a n, f.len ≤ n → Holds m' a f → ∃ ipHdr payload,
        ethernetIcmpCall kernelNode m' a n = some (ipHdr, payload, 20) ∧
        (∀ scratch', ethernetHandlePacket kernelNode scratch' m' a n =
          (kernelNode, icmpHandle kernelNode scratch' m' ipHdr payload 20)) ∧
        srcIp m' ipHdr = pingNode.ip ∧ ∀ i < 20, m' (payload + i) = (fun _ => 8) (0 + i) :=
  receive_undoes_send pingNode kernelNode ⟨some fun _ => 0, fun _ => 0⟩ (fun _ => 8) 0 20
    (by norm_num) rfl rfl

end NetworkRoundTrip
