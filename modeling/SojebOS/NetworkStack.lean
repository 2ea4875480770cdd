import SojebOS.ByteMemory
import SojebOS.MachineWord
import Mathlib.Data.Fintype.Pi

/-!
# The network stack

Ethernet, ARP, IPv4 and ICMP as the kernel computes them. A handler gets the memory, the
address of its packet and a length, and returns the frames it gives to the driver.
-/
namespace NetworkStack

open ByteMemory MachineWord

abbrev Mac := Fin 6 → UInt8

def broadcastMac : Mac := fun _ => 0xFF

def loadMac (m : Bytes) (a : ℕ) : Mac := fun i => m (a + i)

def storeMac (m : Bytes) (a : ℕ) (mac : Mac) : Bytes := fun x =>
  if h : a ≤ x ∧ x < a + 6 then mac ⟨x - a, by omega⟩ else m x

def bswap16 (v : ℕ) : ℕ := v % 256 * 256 + v / 256 % 256

def arpCacheSize : ℕ := 32

structure ArpEntry where
  ip : ℕ
  mac : Mac
  assigned : Bool
  deriving DecidableEq

def emptyArpCache : List ArpEntry := List.replicate arpCacheSize ⟨0, fun _ => 0, false⟩

/-- A machine: `sojeb_os_ip`, `mac_address` and the ARP cache. -/
structure Node where
  ip : ℕ
  ip_lt : ip < 2 ^ 32
  mac : Mac
  arpCache : List ArpEntry

/-- What a call finds in memory that it did not write itself: the block `kmalloc` hands
out, if it does, and the local array in which a frame is put together. -/
structure Scratch where
  kmalloc : Option Bytes
  frame : Bytes

/-- The arguments of `rtl8139_send_packet`. -/
structure Frame where
  data : Bytes
  len : ℕ

def ethertypeIpv4 : ℕ := 0x0800
def ethertypeArp : ℕ := 0x0806
def ethHeaderSize : ℕ := 14

/-- Bytes past the 1514 of the array `frame` exist in the model only. -/
def ethernetSendPacket (node : Node) (scratch : Scratch) (destMac : Mac) (type : ℕ)
    (data : Bytes) (len : ℕ) : Frame :=
  let header := storeMac scratch.frame 0 destMac
  let header := storeMac header 6 node.mac
  let header := store16 header 12 (bswap16 type)
  ⟨copyIn header ethHeaderSize len data, len + ethHeaderSize⟩

section Arp

def arpPacketSize : ℕ := 28
def arpOpRequest : ℕ := 1
def arpOpReply : ℕ := 2

/-- All 28 bytes of the local packet are assigned. -/
def arpPacket (oper : ℕ) (srcMac : Mac) (srcIp : ℕ) (destMac : Mac) (destIp : ℕ) : Bytes :=
  let p := store16 (fun _ => 0) 0 (bswap16 1)
  let p := store16 p 2 (bswap16 0x0800)
  let p := store8 p 4 6
  let p := store8 p 5 4
  let p := store16 p 6 (bswap16 oper)
  let p := storeMac p 8 srcMac
  let p := store32 p 14 srcIp
  let p := storeMac p 18 destMac
  store32 p 24 destIp

/-- The first slot that is free or holds the address takes the binding. -/
def saveBinding (ip : ℕ) (mac : Mac) : List ArpEntry → List ArpEntry
  | [] => []
  | e :: es =>
    if e.assigned = false ∨ e.ip = ip then ⟨ip, mac, true⟩ :: es
    else e :: saveBinding ip mac es

def arpLookup (cache : List ArpEntry) (ip : ℕ) : Option Mac :=
  (cache.find? fun e => e.assigned && e.ip == ip).map ArpEntry.mac

def arpHandlePacket (node : Node) (scratch : Scratch) (m : Bytes) (data len : ℕ) :
    Node × List Frame :=
  if len < arpPacketSize then (node, [])
  else
    let op := bswap16 (load16 m (data + 6))
    let srcMac := loadMac m (data + 8)
    let srcIp := load32 m (data + 14)
    let node := { node with arpCache := saveBinding srcIp srcMac node.arpCache }
    if op = arpOpRequest ∧ load32 m (data + 24) = node.ip then
      let reply := arpPacket arpOpReply node.mac node.ip srcMac srcIp
      (node, [ethernetSendPacket node scratch srcMac ethertypeArp reply arpPacketSize])
    else (node, [])

def arpSendRequest (node : Node) (scratch : Scratch) (targetIp : ℕ) : Frame :=
  let request := arpPacket arpOpRequest node.mac node.ip (fun _ => 0) targetIp
  ethernetSendPacket node scratch broadcastMac ethertypeArp request arpPacketSize

end Arp

section Checksum

/-- The 16-bit words of the buffer, and an odd last byte, added up in 32 bits. -/
def sumWords (m : Bytes) : ℕ → ℕ → ℕ → ℕ
  | data, length + 2, sum => sumWords m (data + 2) length (u32 (sum + load16 m data))
  | data, 1, sum => u32 (sum + (m data).toNat)
  | _, 0, sum => sum

def foldCarries (sum : ℕ) : ℕ :=
  if sum >>> 16 = 0 then sum else foldCarries ((sum &&& 0xFFFF) + (sum >>> 16))
termination_by sum
decreasing_by
  have hlow : sum &&& 0xFFFF = sum % 2 ^ 16 := and_low_mask sum 16
  rw [hlow, Nat.shiftRight_eq_div_pow] at *
  omega

def netChecksum (m : Bytes) (vdata length : ℕ) : ℕ :=
  0xFFFF - foldCarries (sumWords m vdata length 0) % 2 ^ 16

end Checksum

section Ipv4

def ipv4HeaderSize : ℕ := 20
def ipv4ProtoIcmp : ℕ := 1

/-- The packet that `ipv4_send` writes into its block: the header with its checksum, and
the payload behind it. -/
def ipv4Packet (block : Bytes) (srcIp destIp protocol : ℕ) (payload : Bytes) (len : ℕ) :
    Bytes :=
  let p := store8 block 0 0x45
  let p := store8 p 1 0
  let p := store16 p 2 (bswap16 (u32 (ipv4HeaderSize + len)))
  let p := store16 p 4 (bswap16 0)
  let p := store16 p 6 0
  let p := store8 p 8 64
  let p := store8 p 9 (UInt8.ofNat protocol)
  let p := store32 p 12 srcIp
  let p := store32 p 16 destIp
  let p := store16 p 10 0
  let p := store16 p 10 (netChecksum p 0 ipv4HeaderSize)
  copyIn p ipv4HeaderSize len payload

/-- Without a binding for the destination the packet is dropped for an ARP request. -/
def ipv4Send (node : Node) (scratch : Scratch) (destIp protocol : ℕ) (m : Bytes)
    (data len : ℕ) : List Frame :=
  match scratch.kmalloc with
  | none => []
  | some block =>
    let packet := ipv4Packet block node.ip destIp protocol (window m data) len
    match arpLookup node.arpCache destIp with
    | some destMac =>
      [ethernetSendPacket node scratch destMac ethertypeIpv4 packet (u32 (ipv4HeaderSize + len))]
    | none => [arpSendRequest node scratch destIp]

def icmpHeaderSize : ℕ := 8
def icmpTypeEchoReply : UInt8 := 0
def icmpTypeEchoRequest : UInt8 := 8

/-- An echo request is turned into its reply in place and sent back to the address in the
IPv4 header. An echo reply is only printed. -/
def icmpHandle (node : Node) (scratch : Scratch) (m : Bytes) (ipHdr data len : ℕ) :
    List Frame :=
  if len < icmpHeaderSize then []
  else if m data = icmpTypeEchoRequest then
    let m := store8 m data icmpTypeEchoReply
    let m := store8 m (data + 1) 0
    let m := store16 m (data + 2) 0
    let m := store16 m (data + 2) (netChecksum m data len)
    ipv4Send node scratch (load32 m (ipHdr + 12)) ipv4ProtoIcmp m data len
  else []

def ihl (m : Bytes) (ip : ℕ) : ℕ := (m ip).toNat % 16
def totalLength (m : Bytes) (ip : ℕ) : ℕ := load16 m (ip + 2)
def protocol (m : Bytes) (ip : ℕ) : ℕ := (m (ip + 9)).toNat
def srcIp (m : Bytes) (ip : ℕ) : ℕ := load32 m (ip + 12)
def destIp (m : Bytes) (ip : ℕ) : ℕ := load32 m (ip + 16)

/-- The payload and payload length with which `ipv4_handle_packet` calls `icmp_handle`,
if it does. -/
def icmpCall (node : Node) (m : Bytes) (data len : ℕ) : Option (ℕ × ℕ) :=
  if len < ipv4HeaderSize then none
  else if destIp m data ≠ node.ip ∧ destIp m data ≠ 0xFFFFFFFF then none
  else
    let headerLen := ihl m data * 4
    let totalLenHost := bswap16 (totalLength m data)
    if totalLenHost < headerLen then none
    else
      let payloadLen := totalLenHost - headerLen
      if protocol m data = ipv4ProtoIcmp then some (data + headerLen, payloadLen) else none

def ipv4HandlePacket (node : Node) (scratch : Scratch) (m : Bytes) (data len : ℕ) :
    List Frame :=
  match icmpCall node m data len with
  | some (payload, payloadLen) => icmpHandle node scratch m data payload payloadLen
  | none => []

end Ipv4

section Ethernet

inductive Route where
  | drop
  | ipv4
  | arp
  deriving DecidableEq

/-- The filter on the destination and the choice of the sub-protocol. -/
def ethernetRoute (node : Node) (m : Bytes) (data len : ℕ) : Route :=
  if len < ethHeaderSize then .drop
  else if loadMac m data ≠ broadcastMac ∧ loadMac m data ≠ node.mac then .drop
  else
    let type := bswap16 (load16 m (data + 12))
    if type = ethertypeIpv4 then .ipv4
    else if type = ethertypeArp then .arp
    else .drop

def ethernetHandlePacket (node : Node) (scratch : Scratch) (m : Bytes) (data len : ℕ) :
    Node × List Frame :=
  let payload := data + ethHeaderSize
  let payloadLen := len - ethHeaderSize
  match ethernetRoute node m data len with
  | .ipv4 => (node, ipv4HandlePacket node scratch m payload payloadLen)
  | .arp => arpHandlePacket node scratch m payload payloadLen
  | .drop => (node, [])

end Ethernet

end NetworkStack
