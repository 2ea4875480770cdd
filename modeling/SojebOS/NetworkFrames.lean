import SojebOS.NetworkStack

/-!
# The frames that are sent

The fields of every packet the stack builds, and how a receiver's memory that holds a
frame, with any padding behind it, reads them.
-/
namespace NetworkFrames

open ByteMemory MachineWord NetworkStack

section Words

variable {m m' : Bytes} {a b v : ℕ} {mac : Mac}

theorem bswap16_lt (v : ℕ) : bswap16 v < 2 ^ 16 := by
  unfold bswap16
  omega

theorem bswap16_bswap16 (hv : v < 2 ^ 16) : bswap16 (bswap16 v) = v := by
  have hq : v / 256 % 256 = v / 256 := Nat.mod_eq_of_lt (by omega)
  have hlow : (v % 256 * 256 + v / 256) % 256 = v / 256 := by omega
  have hhigh : (v % 256 * 256 + v / 256) / 256 = v % 256 := by omega
  unfold bswap16
  rw [hq, hlow, hhigh]
  omega

theorem storeMac_outside {x : ℕ} (h : x < a ∨ a + 6 ≤ x) : storeMac m a mac x = m x :=
  dif_neg (by omega)

theorem loadMac_storeMac (m : Bytes) (a : ℕ) (mac : Mac) : loadMac (storeMac m a mac) a = mac := by
  funext i
  have hi := i.isLt
  rw [loadMac, storeMac, dif_pos (by omega)]
  congr
  omega

theorem loadMac_congr (h : ∀ x, a ≤ x → x < a + 6 → m' x = m x) : loadMac m' a = loadMac m a := by
  funext i
  exact h _ (by omega) (by have := i.isLt; omega)

theorem loadMac_storeMac_apart (h : b + 6 ≤ a ∨ a + 6 ≤ b) :
    loadMac (storeMac m a mac) b = loadMac m b :=
  loadMac_congr fun _ _ _ => storeMac_outside (by omega)

theorem loadMac_store16_apart (h : b + 6 ≤ a ∨ a + 2 ≤ b) :
    loadMac (store16 m a v) b = loadMac m b :=
  loadMac_congr fun _ _ _ => store16_outside (by omega)

theorem loadMac_store32_apart (h : b + 6 ≤ a ∨ a + 4 ≤ b) :
    loadMac (store32 m a v) b = loadMac m b :=
  loadMac_congr fun _ _ _ => store32_outside (by omega)

theorem loadMac_copyIn_apart {n : ℕ} {src : Bytes} (h : b + 6 ≤ a ∨ a + n ≤ b) :
    loadMac (copyIn m a n src) b = loadMac m b :=
  loadMac_congr fun _ _ _ => copyIn_outside (by omega)

theorem load32_storeMac_apart (h : b + 4 ≤ a ∨ a + 6 ≤ b) :
    load32 (storeMac m a mac) b = load32 m b :=
  load32_congr fun _ _ _ => storeMac_outside (by omega)

end Words

section ArpPackets

variable {oper srcIp destIp : ℕ} {srcMac destMac : Mac}

theorem arpPacket_srcMac : loadMac (arpPacket oper srcMac srcIp destMac destIp) 8 = srcMac := by
  simp (disch := omega) only [arpPacket, loadMac_store32_apart, loadMac_storeMac_apart,
    loadMac_storeMac]

theorem arpPacket_srcIp (hip : srcIp < 2 ^ 32) :
    load32 (arpPacket oper srcMac srcIp destMac destIp) 14 = srcIp := by
  simp (disch := omega) only [arpPacket, load32_store32_apart, load32_storeMac_apart,
    load32_store32]

end ArpPackets

section Ipv4Packets

variable {block payload : Bytes} {src dest proto len : ℕ}

theorem ipv4Packet_ihl : ihl (ipv4Packet block src dest proto payload len) 0 = 5 := by
  simp (disch := omega) only [ihl, ipv4Packet, ipv4HeaderSize, copyIn_outside, store16_outside,
    store32_outside, store8_other, store8_same]
  decide

theorem ipv4Packet_totalLength (hlen : 20 + len < 2 ^ 16) :
    bswap16 (totalLength (ipv4Packet block src dest proto payload len) 0) = 20 + len := by
  have hu : u32 (20 + len) = 20 + len := u32_of_lt (by omega)
  simp (disch := omega) only [totalLength, ipv4Packet, ipv4HeaderSize, load16_copyIn_apart,
    load16_store16_apart, load16_store32_apart, load16_store8_apart, hu,
    load16_store16 (bswap16_lt _), bswap16_bswap16]

theorem ipv4Packet_protocol (hproto : proto < 2 ^ 8) :
    protocol (ipv4Packet block src dest proto payload len) 0 = proto := by
  simp (disch := omega) only [protocol, ipv4Packet, ipv4HeaderSize, copyIn_outside,
    store16_outside, store32_outside, store8_same, UInt8.toNat_ofNat']
  omega

theorem ipv4Packet_srcIp (hip : src < 2 ^ 32) :
    srcIp (ipv4Packet block src dest proto payload len) 0 = src := by
  simp (disch := omega) only [srcIp, ipv4Packet, ipv4HeaderSize, load32_copyIn_apart,
    load32_store16_apart, load32_store32_apart, load32_store32]

theorem ipv4Packet_destIp (hip : dest < 2 ^ 32) :
    destIp (ipv4Packet block src dest proto payload len) 0 = dest := by
  simp (disch := omega) only [destIp, ipv4Packet, ipv4HeaderSize, load32_copyIn_apart,
    load32_store16_apart, load32_store32]

theorem ipv4Packet_payload {i : ℕ} (hi : i < len) :
    ipv4Packet block src dest proto payload len (20 + i) = payload i := by
  simp only [ipv4Packet, ipv4HeaderSize]
  rw [copyIn_inside (by omega), Nat.add_sub_cancel_left]

end Ipv4Packets

section Frames

variable {node : Node} {scratch : Scratch} {destMac : Mac} {type len : ℕ} {data m : Bytes}
  {a i : ℕ} {f : Frame}

theorem ethernetSendPacket_destMac :
    loadMac (ethernetSendPacket node scratch destMac type data len).data 0 = destMac := by
  simp (disch := omega) only [ethernetSendPacket, ethHeaderSize, loadMac_copyIn_apart,
    loadMac_store16_apart, loadMac_storeMac_apart, loadMac_storeMac]

theorem ethernetSendPacket_type (ht : type < 2 ^ 16) :
    bswap16 (load16 (ethernetSendPacket node scratch destMac type data len).data 12) = type := by
  simp (disch := omega) only [ethernetSendPacket, ethHeaderSize, load16_copyIn_apart,
    load16_store16 (bswap16_lt _), bswap16_bswap16]

theorem ethernetSendPacket_payload (hi : i < len) :
    (ethernetSendPacket node scratch destMac type data len).data (14 + i) = data i := by
  simp only [ethernetSendPacket, ethHeaderSize]
  rw [copyIn_inside (by omega), Nat.add_sub_cancel_left]

theorem ethernetSendPacket_len :
    (ethernetSendPacket node scratch destMac type data len).len = len + 14 := rfl

/-- The frame starts at address `a` of the memory. Anything may be behind it. -/
def Holds (m : Bytes) (a : ℕ) (f : Frame) : Prop := ∀ i < f.len, m (a + i) = f.data i

theorem Holds.load16 (h : Holds m a f) (hi : i + 2 ≤ f.len) :
    load16 m (a + i) = load16 f.data i := by
  unfold ByteMemory.load16
  rw [Nat.add_assoc, h i (by omega), h (i + 1) (by omega)]

theorem Holds.load32 (h : Holds m a f) (hi : i + 4 ≤ f.len) :
    load32 m (a + i) = load32 f.data i := by
  unfold ByteMemory.load32
  rw [Nat.add_assoc a i 1, Nat.add_assoc a i 2, Nat.add_assoc a i 3, h i (by omega),
    h (i + 1) (by omega), h (i + 2) (by omega), h (i + 3) (by omega)]

theorem Holds.loadMac (h : Holds m a f) (hi : i + 6 ≤ f.len) :
    loadMac m (a + i) = loadMac f.data i := by
  funext j
  have hj := j.isLt
  unfold NetworkStack.loadMac
  rw [Nat.add_assoc, h (i + j) (by omega)]

theorem holds_sent (hm : Holds m a (ethernetSendPacket node scratch destMac type data len)) :
    Holds m (a + 14) ⟨data, len⟩ := by
  intro i hi
  rw [Nat.add_assoc, hm (14 + i) (by rw [ethernetSendPacket_len]; simp only at hi; omega)]
  exact ethernetSendPacket_payload hi

end Frames

end NetworkFrames
