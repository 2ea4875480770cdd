import SojebOS.ArpBindings
import SojebOS.EchoReplies
import SojebOS.LabelledRuns

/-!
# Pings between machines

`ping` sends an echo request to an address, or only an ARP request where the address has not been
resolved. The machine with the address turns the request into its reply, and the machine that
asked prints a line for it.
-/
namespace PingExchange

open ByteMemory MachineWord NetworkStack NetworkFrames NetworkRoundTrip Ipv4Delivery
open EchoReplies Rtl8139 ArpBindings LabelledRuns

section Code

def bswap32 (v : ℕ) : ℕ :=
  v % 256 * 2 ^ 24 + v / 2 ^ 8 % 256 * 2 ^ 16 + v / 2 ^ 16 % 256 * 2 ^ 8 + v / 2 ^ 24 % 256

/-- `"SojebOS Ping"` -/
def pingPayload : List UInt8 :=
  [0x53, 0x6F, 0x6A, 0x65, 0x62, 0x4F, 0x53, 0x20, 0x50, 0x69, 0x6E, 0x67]

def pingReq : Bytes :=
  let r := store8 (fun _ => 0) 0 icmpTypeEchoRequest
  let r := store8 r 1 0
  let r := store16 r 4 (bswap16 1234)
  let r := store16 r 6 (bswap16 1)
  store16 r 2 0

abbrev pingLen : ℕ := 20

/-- The block at `temp` gets the header, the payload and the checksum over both. -/
def pingMemory (m : Bytes) (temp : ℕ) : Bytes :=
  let m := copyIn m temp icmpHeaderSize pingReq
  let m := copyIn m (temp + icmpHeaderSize) pingPayload.length fun i => pingPayload.getD i 0
  store16 m (temp + 2) (netChecksum m temp pingLen)

/-- The frames that `command_ping` sends to the address that `parse_ip` has read. `temp` may also
be NULL, which is not checked. -/
def commandPing (node : Node) (scratch : Scratch) (m : Bytes) (temp destIp : ℕ) : List Frame :=
  ipv4Send node scratch destIp ipv4ProtoIcmp (pingMemory m temp) temp pingLen

/-- The arguments that `icmp_handle` gives to `console_printf`, if it does. -/
def icmpPrints (m : Bytes) (ipHdr data len : ℕ) : Option (ℕ × ℕ) :=
  if len < icmpHeaderSize then none
  else if m data = icmpTypeEchoRequest then none
  else if m data = icmpTypeEchoReply then
    some (bswap32 (load32 m (ipHdr + 12)), bswap16 (load16 m (data + 6)))
  else none

def framePrints (node : Node) (m : Bytes) (data len : ℕ) : Option (ℕ × ℕ) :=
  (ethernetIcmpCall node m data len).bind fun c => icmpPrints m c.1 c.2.1 c.2.2

/-- The sender of the echo request that is handled with the frame, if one is. -/
def frameAnswers (node : Node) (m : Bytes) (data len : ℕ) : Option ℕ :=
  (ethernetIcmpCall node m data len).bind fun c =>
    if icmpHeaderSize ≤ c.2.2 ∧ m c.2.1 = icmpTypeEchoRequest then some (srcIp m c.1) else none

end Code

section System

variable {ι : Type}

/-- The machines on the wire, with what they have pinged, answered and printed. -/
structure State (ι : Type) where
  net : ArpBindings.State ι
  pinged : Set (ι × ℕ)
  answered : Set (ι × ℕ)
  printed : Set (ι × ℕ × ℕ)

inductive Event (ι : Type) where
  | ping (i : ι) (scratch : Scratch) (m : Bytes) (temp destIp : ℕ)
  | deliver (i : ι) (scratch : Scratch) (f : Frame) (m : Bytes) (data len : ℕ)

def Event.wire : Event ι → ArpBindings.Event ι
  | ping i scratch m temp destIp =>
    .ipv4Send i scratch destIp ipv4ProtoIcmp (pingMemory m temp) temp pingLen
  | deliver i scratch f m data len => .deliver i scratch f m data len

def next [DecidableEq ι] (s : State ι) (e : Event ι) : State ι :=
  let net := ArpBindings.next s.net e.wire
  match e with
  | .ping i _ _ _ destIp => { s with net := net, pinged := insert (i, destIp) s.pinged }
  | .deliver i _ _ m data len =>
    { s with
      net := net
      answered := s.answered ∪ {r | r.1 = i ∧ frameAnswers (s.net.node i) m data len = some r.2}
      printed := s.printed ∪ {r | r.1 = i ∧ framePrints (s.net.node i) m data len = some r.2} }

def Step [DecidableEq ι] (s : State ι) (e : Event ι) (t : State ι) : Prop :=
  Enabled s.net e.wire ∧ t = next s e

/-- No machine has the address for broadcasts. -/
structure Start (s : State ι) : Prop where
  net : Initial s.net
  unicast : ∀ i, (s.net.node i).ip ≠ 0xFFFFFFFF
  pinged : s.pinged = ∅
  answered : s.answered = ∅
  printed : s.printed = ∅

end System

section Packets

variable {node sender : Node} {scratch : Scratch} {m block payload : Bytes} {destMac : Mac}
  {data len temp dest n : ℕ} {f : Frame}

/-- An ICMP packet of the length of a ping, with this type and the sequence number 1. -/
structure Echo (type : UInt8) (payload : Bytes) : Prop where
  type : payload 0 = type
  sequence : load16 payload 6 = bswap16 1

theorem pingMemory_header (m : Bytes) (temp : ℕ) {i : ℕ} (hi : i < 8) (hsum : i < 2 ∨ 4 ≤ i) :
    pingMemory m temp (temp + i) = pingReq i := by
  have h8 : icmpHeaderSize = 8 := rfl
  rw [pingMemory, store16_outside (by omega), copyIn_outside (by omega), copyIn_inside (by omega),
    Nat.add_sub_cancel_left]

theorem echo_pingMemory (m : Bytes) (temp : ℕ) :
    Echo icmpTypeEchoRequest (window (pingMemory m temp) temp) where
  type := pingMemory_header m temp (by omega) (by omega)
  sequence := by
    have hword : load16 (window (pingMemory m temp) temp) 6 = load16 pingReq 6 :=
      load16_congr fun x hx hx' => pingMemory_header m temp (by omega) (by omega)
    rw [hword]
    decide

/-- What `ipv4_send` sends for a ping or its reply: nothing without memory, an ARP request without
a binding, and else the packet. -/
inductive Sent (node : Node) (dest : ℕ) (payload : Bytes) : Frame → Prop where
  | arp (scratch : Scratch) : Sent node dest payload (arpSendRequest node scratch dest)
  | packet (scratch : Scratch) (block : Bytes) (destMac : Mac) :
      arpLookup node.arpCache dest = some destMac →
      Sent node dest payload (ethernetSendPacket node scratch destMac ethertypeIpv4
        (ipv4Packet block node.ip dest ipv4ProtoIcmp payload pingLen) (20 + pingLen))

theorem ipv4Send_sent (h : f ∈ ipv4Send node scratch dest ipv4ProtoIcmp m data pingLen) :
    Sent node dest (window m data) f := by
  unfold ipv4Send at h
  cases hroom : scratch.kmalloc with
  | none => simp [hroom] at h
  | some block =>
    cases hlook : arpLookup node.arpCache dest with
    | none =>
      obtain rfl : f = arpSendRequest node scratch dest := by simpa [hroom, hlook] using h
      exact .arp scratch
    | some destMac =>
      simp only [hroom, hlook, List.mem_singleton] at h
      rw [h]
      exact .packet scratch block destMac hlook

theorem icmpCall_routed (hn : 34 + pingLen ≤ len)
    (hreads : Reads m (data + 14) sender.ip node.ip ipv4ProtoIcmp payload pingLen)
    (hroute : ethernetRoute node m data len = .ipv4) :
    ethernetIcmpCall node m data len = some (data + 14, data + 34, pingLen) := by
  have haccepted : Accepted node m (data + 14) (len - 14) := by
    refine ⟨by unfold ipv4HeaderSize; omega, .inl hreads.destIp, ?_, hreads.protocol⟩
    rw [hreads.ihl, hreads.totalLength]
    omega
  simp only [ethernetIcmpCall, hroute, ethHeaderSize, icmpCall_eq, if_pos haccepted, hreads.ihl,
    hreads.totalLength, Option.map_some, Nat.add_sub_cancel_left]

theorem icmpCall_held (node : Node) (hn : 34 + pingLen ≤ len) (hdest : dest < 2 ^ 32)
    (hne : dest ≠ 0xFFFFFFFF)
    (hh : Holds m data (ethernetSendPacket sender scratch destMac ethertypeIpv4
      (ipv4Packet block sender.ip dest ipv4ProtoIcmp payload pingLen) (20 + pingLen))) :
    ethernetRoute node m data len ≠ .arp ∧
    Reads m (data + 14) sender.ip dest ipv4ProtoIcmp payload pingLen ∧
    (ethernetIcmpCall node m data len = none ∨ dest = node.ip ∧
      ethernetIcmpCall node m data len = some (data + 14, data + 34, pingLen)) := by
  have hreads := reads_packet (by norm_num) (by norm_num [ipv4ProtoIcmp]) sender.ip_lt hdest
    (holds_sent hh)
  have htype := held_type (by norm_num [ethertypeIpv4]) hh
  have hroute : ethernetRoute node m data len ≠ .arp := by
    intro harp
    rw [type_of_route.2 harp] at htype
    exact absurd htype (by norm_num [ethertypeIpv4, ethertypeArp])
  refine ⟨hroute, hreads, ?_⟩
  cases hr : ethernetRoute node m data len with
  | arp => exact absurd hr hroute
  | drop => exact .inl (by rw [ethernetIcmpCall, hr])
  | ipv4 =>
    by_cases hus : dest = node.ip
    · exact .inr ⟨hus, icmpCall_routed hn (hus ▸ hreads) hr⟩
    · have hrefused : ¬Accepted node m (data + 14) (len - 14) := by
        rintro ⟨-, hdest', -⟩
        rw [hreads.destIp] at hdest'
        exact hdest'.elim hus hne
      left
      simp only [ethernetIcmpCall, hr, ethHeaderSize, icmpCall_eq, if_neg hrefused,
        Option.map_none]

/-- A frame that is neither ARP nor a packet for the machine is dropped. -/
theorem ethernetHandlePacket_dropped (hroute : ethernetRoute node m data len ≠ .arp)
    (hcall : ethernetIcmpCall node m data len = none) :
    ethernetHandlePacket node scratch m data len = (node, []) := by
  cases hr : ethernetRoute node m data len with
  | arp => exact absurd hr hroute
  | drop => simp only [ethernetHandlePacket, hr]
  | ipv4 =>
    simp only [ethernetIcmpCall, hr, Option.map_eq_none_iff] at hcall
    simp only [ethernetHandlePacket, hr, ipv4HandlePacket, hcall]

theorem ethernetIcmpCall_arp (node : Node) (len : ℕ) {oper targetIp : ℕ} {targetMac : Mac}
    (hh : Holds m data (ethernetSendPacket sender scratch destMac ethertypeArp
      (arpPacket oper sender.mac sender.ip targetMac targetIp) arpPacketSize)) :
    ethernetIcmpCall node m data len = none := by
  have htype := held_type (by norm_num [ethertypeArp]) hh
  cases hr : ethernetRoute node m data len with
  | arp => rw [ethernetIcmpCall, hr]
  | drop => rw [ethernetIcmpCall, hr]
  | ipv4 =>
    rw [type_of_route.1 hr] at htype
    exact absurd htype (by norm_num [ethertypeIpv4, ethertypeArp])

theorem icmpHandle_request (node : Node) (scratch : Scratch) {src : ℕ}
    (hreads : Reads m (data + 14) src dest ipv4ProtoIcmp payload pingLen)
    (hecho : Echo icmpTypeEchoRequest payload) :
    icmpHandle node scratch m (data + 14) (data + 34) pingLen =
        ipv4Send node scratch src ipv4ProtoIcmp (replyInPlace m (data + 34) pingLen) (data + 34)
          pingLen ∧
      Echo icmpTypeEchoReply (window (replyInPlace m (data + 34) pingLen) (data + 34)) := by
  have htype : m (data + 34) = icmpTypeEchoRequest :=
    (hreads.payload 0 (by norm_num)).trans hecho.type
  have hlong : ¬pingLen < icmpHeaderSize := by decide
  have hsrc : load32 (replyInPlace m (data + 34) pingLen) (data + 14 + 12) = src := by
    rw [← hreads.srcIp]
    exact load32_congr fun x _ hx => replyInPlace_outside (by omega)
  constructor
  · rw [icmpHandle_reply, if_neg hlong, if_pos htype, hsrc]
  · refine ⟨replyInPlace_type, ?_⟩
    rw [← hecho.sequence]
    refine load16_congr fun x hx hx' => ?_
    rw [window, replyInPlace_outside (by omega)]
    exact hreads.payload x (show x < 20 by omega)

theorem icmpHandle_echoReply (node : Node) (scratch : Scratch) {src : ℕ}
    (hreads : Reads m (data + 14) src dest ipv4ProtoIcmp payload pingLen)
    (hecho : Echo icmpTypeEchoReply payload) :
    icmpHandle node scratch m (data + 14) (data + 34) pingLen = [] ∧
      icmpPrints m (data + 14) (data + 34) pingLen = some (bswap32 src, 1) ∧
      m (data + 34) ≠ icmpTypeEchoRequest := by
  have htype : m (data + 34) = icmpTypeEchoReply :=
    (hreads.payload 0 (by norm_num)).trans hecho.type
  have hother : m (data + 34) ≠ icmpTypeEchoRequest := by
    rw [htype]
    decide
  have hlong : ¬pingLen < icmpHeaderSize := by decide
  have hseq : load16 m (data + 34 + 6) = bswap16 1 := by
    rw [← hecho.sequence, ← load16_window]
    exact load16_congr fun x _ hx => hreads.payload x (show x < 20 by omega)
  have hsrc : load32 m (data + 14 + 12) = src := hreads.srcIp
  refine ⟨?_, ?_, hother⟩
  · rw [icmpHandle, if_neg hlong, if_neg hother]
  · rw [icmpPrints, if_neg hlong, if_neg hother, if_pos htype, hsrc, hseq]
    rfl

end Packets

section Runs

variable {ι : Type} {ip : ι → ℕ} {Real : ℕ → Mac → Prop} {node : Node} {scratch : Scratch}
  {m payload : Bytes} {data len dest : ℕ} {f g : Frame} {pinged answered : Set (ι × ℕ)} {i j : ι}

/-- How a frame in flight came about: an ARP packet, an echo request of a machine that pinged
another, or the reply of the other. -/
inductive Carried (ip : ι → ℕ) (pinged answered : Set (ι × ℕ)) : Frame → Prop where
  | arp {sender : Node} {scratch : Scratch} {destMac targetMac : Mac} {oper targetIp : ℕ} :
      Carried ip pinged answered (ethernetSendPacket sender scratch destMac ethertypeArp
        (arpPacket oper sender.mac sender.ip targetMac targetIp) arpPacketSize)
  | request {i j : ι} {sender : Node} {scratch : Scratch} {destMac : Mac} {block payload : Bytes} :
      sender.ip = ip i → (i, ip j) ∈ pinged → Echo icmpTypeEchoRequest payload →
      Carried ip pinged answered (ethernetSendPacket sender scratch destMac ethertypeIpv4
        (ipv4Packet block sender.ip (ip j) ipv4ProtoIcmp payload pingLen) (20 + pingLen))
  | reply {i j : ι} {sender : Node} {scratch : Scratch} {destMac : Mac} {block payload : Bytes} :
      sender.ip = ip j → (i, ip j) ∈ pinged → (j, ip i) ∈ answered →
      Echo icmpTypeEchoReply payload →
      Carried ip pinged answered (ethernetSendPacket sender scratch destMac ethertypeIpv4
        (ipv4Packet block sender.ip (ip i) ipv4ProtoIcmp payload pingLen) (20 + pingLen))

theorem Carried.mono {pinged' answered' : Set (ι × ℕ)} (h : Carried ip pinged answered f)
    (hp : pinged ⊆ pinged') (ha : answered ⊆ answered') : Carried ip pinged' answered' f := by
  cases h with
  | arp => exact .arp
  | request hip hping hecho => exact .request hip (hp hping) hecho
  | reply hip hping hans hecho => exact .reply hip (hp hping) (ha hans) hecho

structure Explained (ip : ι → ℕ) (pinged answered : Set (ι × ℕ)) (k : ι) (frames : List Frame)
    (answers : Option ℕ) (prints : Option (ℕ × ℕ)) : Prop where
  sent : ∀ g ∈ frames, Carried ip pinged (answered ∪ {r | r.1 = k ∧ answers = some r.2}) g
  answers : ∀ a, answers = some a → ∃ i, a = ip i ∧ (i, ip k) ∈ pinged
  prints : ∀ r, prints = some r →
    ∃ j, (k, ip j) ∈ pinged ∧ (j, ip k) ∈ answered ∧ r = (bswap32 (ip j), 1)

theorem carried_arpHandle :
    ∀ g ∈ (arpHandlePacket node scratch m data len).2, Carried ip pinged answered g := by
  intro g hg
  unfold arpHandlePacket at hg
  by_cases hlen : len < arpPacketSize
  · simp [hlen] at hg
  rw [if_neg hlen] at hg
  dsimp only at hg
  split at hg
  · rw [List.mem_singleton.mp hg]
    exact .arp
  · simp at hg

theorem frame_explained {k : ι} (hinj : Function.Injective ip) (hip : ∀ i, ip i < 2 ^ 32)
    (hunicast : ∀ i, ip i ≠ 0xFFFFFFFF) (hk : node.ip = ip k) (hf : Carried ip pinged answered f)
    (hh : Holds m data f) (hlen : f.len ≤ len) :
    Explained ip pinged answered k (ethernetHandlePacket node scratch m data len).2
      (frameAnswers node m data len) (framePrints node m data len) := by
  have hheader : icmpHeaderSize ≤ pingLen := by decide
  have hquiet : ethernetRoute node m data len ≠ .arp → ethernetIcmpCall node m data len = none →
      Explained ip pinged answered k (ethernetHandlePacket node scratch m data len).2
        (frameAnswers node m data len) (framePrints node m data len) := by
    intro hroute hcall
    rw [ethernetHandlePacket_dropped hroute hcall, frameAnswers, framePrints, hcall]
    exact ⟨by simp, by simp, by simp⟩
  cases hf with
  | arp =>
    have hcall := ethernetIcmpCall_arp node len hh
    by_cases hroute : ethernetRoute node m data len = .arp
    · rw [frameAnswers, framePrints, hcall]
      refine ⟨?_, by simp, by simp⟩
      simp only [ethernetHandlePacket, hroute]
      exact carried_arpHandle
    · exact hquiet hroute hcall
  | @request i j sender _ _ _ payload hsender hping hecho =>
    obtain ⟨hroute, hreads, hcall | ⟨hdest, hcall⟩⟩ :=
      icmpCall_held node hlen (hip j) (hunicast j) hh
    · exact hquiet hroute hcall
    · obtain ⟨hreply, hecho'⟩ := icmpHandle_request node scratch hreads hecho
      obtain rfl : j = k := hinj (hdest.trans hk)
      have htype : m (data + 34) = icmpTypeEchoRequest :=
        (hreads.payload 0 (by norm_num)).trans hecho.type
      have hanswer : frameAnswers node m data len = some (ip i) := by
        rw [frameAnswers, hcall, Option.bind_some, if_pos ⟨hheader, htype⟩, hreads.srcIp, hsender]
      have hprint : framePrints node m data len = none := by
        rw [framePrints, hcall, Option.bind_some, icmpPrints, if_neg (not_lt.mpr hheader),
          if_pos htype]
      rw [ethernetHandlePacket_icmp scratch hcall, hreply, hanswer, hprint]
      refine ⟨?_, ?_, by simp⟩
      · intro g hg
        rw [hsender] at hg
        cases ipv4Send_sent hg with
        | arp => exact .arp
        | packet scratch block destMac _ => exact .reply hk hping (.inr ⟨rfl, rfl⟩) hecho'
      · rintro a ⟨⟩
        exact ⟨i, rfl, hping⟩
  | @reply i j sender _ _ _ payload hsender hping hans hecho =>
    obtain ⟨hroute, hreads, hcall | ⟨hdest, hcall⟩⟩ :=
      icmpCall_held node hlen (hip i) (hunicast i) hh
    · exact hquiet hroute hcall
    · obtain ⟨hnone, hprints, hother⟩ :=
        icmpHandle_echoReply node scratch hreads hecho
      obtain rfl : i = k := hinj (hdest.trans hk)
      have hanswer : frameAnswers node m data len = none := by
        rw [frameAnswers, hcall, Option.bind_some, if_neg fun hboth => hother hboth.2]
      have hprint : framePrints node m data len = some (bswap32 (ip j), 1) := by
        rw [framePrints, hcall, Option.bind_some, hprints, hsender]
      rw [ethernetHandlePacket_icmp scratch hcall, hnone, hanswer, hprint]
      refine ⟨by simp, by simp, ?_⟩
      rintro r ⟨⟩
      exact ⟨j, hping, hans, rfl⟩

variable [DecidableEq ι] {s₀ s t : State ι} {e : Event ι} {es : List (Event ι)}

structure Invariant (s₀ s : State ι) : Prop where
  net : ArpBindings.Invariant s₀.net s.net
  flight : ∀ f ∈ s.net.flight, Carried (fun i => (s₀.net.node i).ip) s.pinged s.answered f
  answered : ∀ j a, (j, a) ∈ s.answered →
    ∃ i, a = (s₀.net.node i).ip ∧ (i, (s₀.net.node j).ip) ∈ s.pinged
  printed : ∀ i r, (i, r) ∈ s.printed → ∃ j, (i, (s₀.net.node j).ip) ∈ s.pinged ∧
    (j, (s₀.net.node i).ip) ∈ s.answered ∧ r = (bswap32 (s₀.net.node j).ip, 1)

omit [DecidableEq ι] in
theorem start_invariant (h : Start s) : Invariant s s where
  net := initial_invariant h.net
  flight := by
    rw [h.net.flight]
    simp
  answered := by
    rw [h.answered]
    simp
  printed := by
    rw [h.printed]
    simp

theorem ping_invariant {temp : ℕ} (hs : Invariant s₀ s)
    (he : Enabled s.net (Event.ping i scratch m temp dest).wire) :
    Invariant s₀ (next s (.ping i scratch m temp dest)) where
  net := step_preserves_invariant hs.net he
  flight := by
    have hmore : s.pinged ⊆ insert (i, dest) s.pinged := Set.subset_insert _ _
    rintro f (hf | hf)
    · exact (hs.flight f hf).mono hmore (Set.Subset.refl _)
    · cases ipv4Send_sent hf with
      | arp => exact .arp
      | packet scratch block destMac hlook =>
        obtain ⟨j, rfl, -⟩ := trueCache_lookup (hs.net.cache i) hlook
        exact .request (hs.net.ip i) (Set.mem_insert _ _) (echo_pingMemory m temp)
  answered := by
    intro j a ha
    obtain ⟨k, hk, hping⟩ := hs.answered j a ha
    exact ⟨k, hk, Set.mem_insert_of_mem _ hping⟩
  printed := by
    intro k r hr
    obtain ⟨j, hping, hans, hr⟩ := hs.printed k r hr
    exact ⟨j, Set.mem_insert_of_mem _ hping, hans, hr⟩

theorem deliver_invariant (h : Start s₀) (hs : Invariant s₀ s)
    (he : Enabled s.net (Event.deliver i scratch f m data len).wire) :
    Invariant s₀ (next s (.deliver i scratch f m data len)) := by
  obtain ⟨hf, hh, hlen⟩ := id he
  have hexplained : Explained (fun j => (s₀.net.node j).ip) s.pinged s.answered i
      (ethernetHandlePacket (s.net.node i) scratch m data len).2
      (frameAnswers (s.net.node i) m data len) (framePrints (s.net.node i) m data len) :=
    frame_explained h.net.ip_injective (fun j => (s₀.net.node j).ip_lt) h.unicast (hs.net.ip i)
      (hs.flight f hf) hh hlen
  refine ⟨step_preserves_invariant hs.net he, ?_, ?_, ?_⟩
  · rintro g (hg | hg)
    · exact (hs.flight g hg).mono (Set.Subset.refl _) Set.subset_union_left
    · exact hexplained.sent g hg
  · rintro j a (ha | ⟨rfl, ha⟩)
    · exact hs.answered j a ha
    · exact hexplained.answers a ha
  · rintro k r (hr | ⟨rfl, hr⟩)
    · obtain ⟨j, hping, hans, hr⟩ := hs.printed k r hr
      exact ⟨j, hping, .inl hans, hr⟩
    · obtain ⟨j, hping, hans, hr⟩ := hexplained.prints r hr
      exact ⟨j, hping, .inl hans, hr⟩

/-- Whatever is printed about replies is true: the machine pinged the address that is printed, and
the machine with the address answered it; and only pings are answered. -/
structure Truthful (s : State ι) : Prop where
  answered : ∀ j a, (j, a) ∈ s.answered →
    ∃ i, a = (s.net.node i).ip ∧ (i, (s.net.node j).ip) ∈ s.pinged
  printed : ∀ i r, (i, r) ∈ s.printed → ∃ j, (i, (s.net.node j).ip) ∈ s.pinged ∧
    (j, (s.net.node i).ip) ∈ s.answered ∧ r = (bswap32 (s.net.node j).ip, 1)

/-- In any order of pings and deliveries, with frames delayed, repeated and lost, a machine prints
a reply only for an address that it pinged and whose machine answered it. -/
theorem replies_are_truthful (h : Start s₀) (hrun : Run Step s₀ es s) : Truthful s := by
  have hinv : Invariant s₀ s := by
    refine hrun.invariant (Invariant s₀) ?_ (start_invariant h)
    rintro s e _ hs ⟨he, rfl⟩
    cases e with
    | ping i scratch m temp destIp => exact ping_invariant hs he
    | deliver i scratch f m data len => exact deliver_invariant h hs he
  have hip := hinv.net.ip
  constructor
  · intro j a ha
    obtain ⟨i, rfl, hping⟩ := hinv.answered j a ha
    exact ⟨i, (hip i).symm, hip j ▸ hping⟩
  · intro i r hr
    obtain ⟨j, hping, hans, rfl⟩ := hinv.printed i r hr
    rw [hip i]
    exact ⟨j, by rwa [hip j], hans, by rw [hip j]⟩

def quietWire : State Bool := ⟨twoNodes, ∅, ∅, ∅⟩

theorem quietWire_start : Start quietWire where
  net := twoNodes_initial
  unicast := by decide
  pinged := rfl
  answered := rfl
  printed := rfl

def ping : Event Bool := .ping true zeroScratch (fun _ => 0) 0 2

def pingFrame (s : State Bool) : Frame :=
  firstSent (commandPing (s.net.node true) zeroScratch (fun _ => 0) 0 2)

theorem pingFrame_flies (s : State Bool)
    (h : commandPing (s.net.node true) zeroScratch (fun _ => 0) 0 2 ≠ []) :
    pingFrame s ∈ (next s ping).net.flight :=
  Set.mem_union_right _ (firstSent_mem h)

def arrive (i : Bool) (f : Frame) : Event Bool := .deliver i zeroScratch f f.data 0 f.len

def pingedOnce : State Bool := next quietWire ping

def askedOnce : State Bool := next pingedOnce (arrive false (pingFrame quietWire))

def askedFrame : Frame := firstReply (pingedOnce.net.node false) (pingFrame quietWire)

def knowing : State Bool := next askedOnce (arrive true askedFrame)

def pingedTwice : State Bool := next knowing ping

def echoed : State Bool := next pingedTwice (arrive false (pingFrame knowing))

def echoFrame : Frame := firstReply (pingedTwice.net.node false) (pingFrame knowing)

def echoPrinted : State Bool := next echoed (arrive true echoFrame)

theorem echoPrinted_run : Run Step quietWire [ping, arrive false (pingFrame quietWire),
    arrive true askedFrame, ping, arrive false (pingFrame knowing), arrive true echoFrame]
    echoPrinted := by
  have hping : ∀ s, Step s ping (next s ping) := fun s =>
    ⟨by norm_num [Enabled, Event.wire, ipv4ProtoIcmp, ping], rfl⟩
  have harrive : ∀ s i f, f ∈ s.net.flight → Step s (arrive i f) (next s (arrive i f)) :=
    fun _ i _ hf => ⟨arrival_enabled i hf, rfl⟩
  have hrequest : pingFrame quietWire ∈ pingedOnce.net.flight :=
    pingFrame_flies quietWire (by decide +kernel)
  have hanswer : askedFrame ∈ askedOnce.net.flight :=
    firstReply_flies pingedOnce.net false (pingFrame quietWire) (by decide +kernel)
  have hecho : pingFrame knowing ∈ pingedTwice.net.flight :=
    pingFrame_flies knowing (by decide +kernel)
  have hreply : echoFrame ∈ echoed.net.flight :=
    firstReply_flies pingedTwice.net false (pingFrame knowing) (by decide +kernel)
  exact .cons (hping _) (.cons (harrive _ false _ hrequest) (.cons (harrive _ true _ hanswer)
    (.cons (hping _) (.cons (harrive _ false _ hecho) (.single (harrive _ true _ hreply))))))

/-- The address of the second machine is printed, and it has answered. -/
theorem replies_are_truthful_echo : (true, bswap32 2, 1) ∈ echoPrinted.printed ∧
    Truthful echoPrinted := by
  have hprinted : framePrints (echoed.net.node true) echoFrame.data 0 echoFrame.len =
      some (bswap32 2, 1) := by decide +kernel
  exact ⟨Set.mem_union_right _ ⟨rfl, hprinted⟩,
    replies_are_truthful quietWire_start echoPrinted_run⟩

end Runs

section Exchange

variable {node sender : Node} {scratch : Scratch} {m block payload : Bytes} {mac : Mac}
  {data len ip : ℕ} {f : Frame}

/-- However the frame is delivered, and with memory for an answer, the machine, the frames that it
sends and what it prints are as required. -/
def Handles (node : Node) (f : Frame) (Post : Node → List Frame → Option (ℕ × ℕ) → Prop) : Prop :=
  ∀ scratch m data len, scratch.kmalloc ≠ none → Holds m data f → f.len ≤ len →
    Post (ethernetHandlePacket node scratch m data len).1
      (ethernetHandlePacket node scratch m data len).2 (framePrints node m data len)

/-- With memory for its packet a ping sends the frames that are required. -/
def Pings (node : Node) (destIp : ℕ) (Post : List Frame → Prop) : Prop :=
  ∀ scratch m temp, scratch.kmalloc ≠ none → Post (commandPing node scratch m temp destIp)

def HasRoom (cache : List ArpEntry) (ip : ℕ) : Prop := ∃ e ∈ cache, e.assigned = false ∨ e.ip = ip

theorem lookup_saved {cache : List ArpEntry} (h : HasRoom cache ip) (mac : Mac) :
    arpLookup (saveBinding ip mac cache) ip = some mac := by
  induction cache with
  | nil =>
    obtain ⟨e, he, -⟩ := h
    cases he
  | cons e es ih =>
    rw [saveBinding]
    by_cases hslot : e.assigned = false ∨ e.ip = ip
    · rw [if_pos hslot]
      simp [arpLookup]
    · have hrest : HasRoom es ip := by
        obtain ⟨x, hx, hroom⟩ := h
        rcases List.mem_cons.mp hx with rfl | hx
        · exact absurd hroom hslot
        · exact ⟨x, hx, hroom⟩
      have hskip : (e.assigned && e.ip == ip) = false := by
        simp only [not_or] at hslot
        simp [hslot.2]
      rw [if_neg hslot, arpLookup, List.find?_cons, hskip]
      exact ih hrest

theorem load16_storeMac_apart {a b : ℕ} (h : b + 2 ≤ a ∨ a + 6 ≤ b) :
    load16 (storeMac m a mac) b = load16 m b :=
  load16_congr fun _ _ _ => storeMac_outside (by omega)

theorem arpPacket_oper {oper srcIp destIp : ℕ} {srcMac destMac : Mac} (h : oper < 2 ^ 16) :
    bswap16 (load16 (arpPacket oper srcMac srcIp destMac destIp) 6) = oper := by
  simp (disch := omega) only [arpPacket, load16_store32_apart, load16_storeMac_apart]
  rw [load16_store16 (bswap16_lt _), bswap16_bswap16 h]

theorem arpPacket_destIp {oper srcIp destIp : ℕ} {srcMac destMac : Mac} (h : destIp < 2 ^ 32) :
    load32 (arpPacket oper srcMac srcIp destMac destIp) 24 = destIp :=
  load32_store32 h

theorem arpHandle_held (node : Node) (scratch : Scratch) {oper destIp : ℕ} {destMac : Mac}
    (hoper : oper < 2 ^ 16)
    (hdest : destIp < 2 ^ 32) (hlen : arpPacketSize ≤ len)
    (hh : Holds m data ⟨arpPacket oper sender.mac sender.ip destMac destIp, arpPacketSize⟩) :
    arpHandlePacket node scratch m data len =
      ({ node with arpCache := saveBinding sender.ip sender.mac node.arpCache },
        if oper = arpOpRequest ∧ destIp = node.ip then
          [ethernetSendPacket { node with
              arpCache := saveBinding sender.ip sender.mac node.arpCache } scratch sender.mac
            ethertypeArp (arpPacket arpOpReply node.mac node.ip sender.mac sender.ip) arpPacketSize]
        else []) := by
  have h28 : arpPacketSize = 28 := rfl
  have hop : load16 m (data + 6) = _ := hh.load16 (by show 6 + 2 ≤ arpPacketSize; omega)
  have hmac : loadMac m (data + 8) = _ := hh.loadMac (by show 8 + 6 ≤ arpPacketSize; omega)
  have hsrc : load32 m (data + 14) = _ := hh.load32 (by show 14 + 4 ≤ arpPacketSize; omega)
  have htarget : load32 m (data + 24) = _ := hh.load32 (by show 24 + 4 ≤ arpPacketSize; omega)
  rw [arpPacket_srcMac] at hmac
  rw [arpPacket_srcIp sender.ip_lt] at hsrc
  rw [arpPacket_destIp hdest] at htarget
  rw [arpHandlePacket, if_neg (not_lt.mpr hlen)]
  simp only [hop, hmac, hsrc, htarget, arpPacket_oper hoper]
  split
  · rfl
  · rfl

theorem route_broadcast (node : Node) {data' : Bytes} {n : ℕ} (hn : n + 14 ≤ len)
    (hh : Holds m data (ethernetSendPacket sender scratch broadcastMac ethertypeArp data' n)) :
    ethernetRoute node m data len = .arp := by
  have hmac : loadMac m data = broadcastMac :=
    (hh.loadMac (i := 0) (by simp only [ethernetSendPacket_len]; omega)).trans
      ethernetSendPacket_destMac
  have htype := held_type (by norm_num [ethertypeArp]) hh
  rw [ethernetRoute, if_neg (by unfold ethHeaderSize; omega), if_neg fun hne => hne.1 hmac]
  simp only [htype]
  decide

theorem pings_unresolved (h : arpLookup node.arpCache ip = none) :
    Pings node ip fun fs => ∃ scratch, fs = [arpSendRequest node scratch ip] := by
  intro scratch m temp hroom
  obtain ⟨block, hblock⟩ := Option.ne_none_iff_exists'.mp hroom
  exact ⟨scratch, by simp only [commandPing, ipv4Send, hblock, h]⟩

theorem pings_resolved (h : arpLookup node.arpCache ip = some mac) :
    Pings node ip fun fs => ∃ scratch block payload, Echo icmpTypeEchoRequest payload ∧
      fs = [ethernetSendPacket node scratch mac ethertypeIpv4
        (ipv4Packet block node.ip ip ipv4ProtoIcmp payload pingLen) (20 + pingLen)] := by
  intro scratch m temp hroom
  obtain ⟨block, hblock⟩ := Option.ne_none_iff_exists'.mp hroom
  refine ⟨scratch, block, _, echo_pingMemory m temp, ?_⟩
  simp only [commandPing, ipv4Send, hblock, h]
  rfl

theorem handles_arpRequest (node sender : Node) (scratch : Scratch) :
    Handles node (arpSendRequest sender scratch node.ip) fun node' fs _ =>
      node' = { node with arpCache := saveBinding sender.ip sender.mac node.arpCache } ∧
      ∃ scratch', fs = [ethernetSendPacket node' scratch' sender.mac ethertypeArp
        (arpPacket arpOpReply node'.mac node'.ip sender.mac sender.ip) arpPacketSize] := by
  intro scratch' m data len _ hh hlen
  have hlen' : arpPacketSize + 14 ≤ len := hlen
  have hrest : arpPacketSize ≤ len - 14 := by omega
  have hheld := arpHandle_held node scratch' (by decide) node.ip_lt hrest (holds_sent hh)
  rw [if_pos ⟨rfl, rfl⟩] at hheld
  have hroute := route_broadcast node hlen' hh
  simp only [ethernetHandlePacket, hroute, ethHeaderSize, hheld]
  exact ⟨trivial, scratch', rfl⟩

theorem handles_arpReply (node sender sender' : Node) (scratch : Scratch)
    (hip : sender'.ip = sender.ip) (hmac : sender'.mac = sender.mac) :
    Handles node (ethernetSendPacket sender' scratch node.mac ethertypeArp
        (arpPacket arpOpReply sender'.mac sender'.ip node.mac node.ip) arpPacketSize)
      fun node' fs _ =>
        node' = { node with arpCache := saveBinding sender.ip sender.mac node.arpCache } ∧
          fs = [] := by
  intro scratch' m data len _ hh hlen
  have hlen' : arpPacketSize + 14 ≤ len := hlen
  rw [hip, hmac] at hh
  have hrest : arpPacketSize ≤ len - 14 := by omega
  have hheld := arpHandle_held node scratch' (by decide) node.ip_lt hrest (holds_sent hh)
  rw [if_neg (by simp [arpOpReply, arpOpRequest])] at hheld
  have hroute := route_sent (by norm_num [ethertypeArp]) hlen' hh
  rw [if_neg (by decide), if_pos rfl] at hroute
  simp only [ethernetHandlePacket, hroute, ethHeaderSize, hheld]
  exact ⟨trivial, trivial⟩

theorem echo_held (hlen : 20 + pingLen + 14 ≤ len)
    (hh : Holds m data (ethernetSendPacket sender scratch node.mac ethertypeIpv4
      (ipv4Packet block sender.ip node.ip ipv4ProtoIcmp payload pingLen) (20 + pingLen))) :
    Reads m (data + 14) sender.ip node.ip ipv4ProtoIcmp payload pingLen ∧
      ethernetIcmpCall node m data len = some (data + 14, data + 34, pingLen) := by
  have hreads := reads_packet (by norm_num) (by norm_num [ipv4ProtoIcmp]) sender.ip_lt node.ip_lt
    (holds_sent hh)
  have hroute := route_sent (by norm_num [ethertypeIpv4]) hlen hh
  rw [if_pos rfl] at hroute
  exact ⟨hreads, icmpCall_routed (by omega) hreads hroute⟩

theorem handles_echoRequest (hmac : arpLookup node.arpCache sender.ip = some mac)
    (hecho : Echo icmpTypeEchoRequest payload) :
    Handles node (ethernetSendPacket sender scratch node.mac ethertypeIpv4
        (ipv4Packet block sender.ip node.ip ipv4ProtoIcmp payload pingLen) (20 + pingLen))
      fun _ fs _ => ∃ scratch' block' payload', Echo icmpTypeEchoReply payload' ∧
        fs = [ethernetSendPacket node scratch' mac ethertypeIpv4
          (ipv4Packet block' node.ip sender.ip ipv4ProtoIcmp payload' pingLen) (20 + pingLen)] := by
  intro scratch' m data len hroom hh hlen
  obtain ⟨block', hblock⟩ := Option.ne_none_iff_exists'.mp hroom
  obtain ⟨hreads, hcall⟩ := echo_held hlen hh
  obtain ⟨hreply, hecho'⟩ := icmpHandle_request node scratch' hreads hecho
  refine ⟨scratch', block', _, hecho', ?_⟩
  rw [ethernetHandlePacket_icmp scratch' hcall, hreply]
  simp only [ipv4Send, hblock, hmac]
  rfl

theorem handles_echoReply (hecho : Echo icmpTypeEchoReply payload) :
    Handles node (ethernetSendPacket sender scratch node.mac ethertypeIpv4
        (ipv4Packet block sender.ip node.ip ipv4ProtoIcmp payload pingLen) (20 + pingLen))
      fun _ fs prints => fs = [] ∧ prints = some (bswap32 sender.ip, 1) := by
  intro scratch' m data len _ hh hlen
  obtain ⟨hreads, hcall⟩ := echo_held hlen hh
  obtain ⟨hnone, hprints, -⟩ :=
    icmpHandle_echoReply node scratch' hreads hecho
  rw [ethernetHandlePacket_icmp scratch' hcall, hnone, framePrints, hcall, Option.bind_some,
    hprints]
  exact ⟨rfl, rfl⟩

/-- The first ping of an address that is not resolved sends an ARP request; the machine with the
address learns who asks and tells its own; the second ping is answered, and its reply printed. -/
theorem second_ping_answered (p n : Node) (hp : arpLookup p.arpCache n.ip = none)
    (hroom : HasRoom p.arpCache n.ip) (hroom' : HasRoom n.arpCache p.ip) :
    Pings p n.ip fun fs => ∃ ask, fs = [ask] ∧
      Handles n ask fun n' fs _ => ∃ tell, fs = [tell] ∧
        Handles p tell fun p' fs _ => fs = [] ∧
          Pings p' n.ip fun fs => ∃ request, fs = [request] ∧
            Handles n' request fun _ fs _ => ∃ reply, fs = [reply] ∧
              Handles p' reply fun _ fs prints =>
                fs = [] ∧ prints = some (bswap32 n.ip, 1) := by
  intro scratch m temp hmem
  obtain ⟨scratch₁, hask⟩ := pings_unresolved hp scratch m temp hmem
  refine ⟨_, hask, fun scratch m data len hmem hh hlen => ?_⟩
  obtain ⟨hn', scratch₂, htell⟩ :=
    handles_arpRequest n p scratch₁ scratch m data len hmem hh hlen
  generalize (ethernetHandlePacket n scratch m data len).1 = n' at hn' htell ⊢
  have hip : n'.ip = n.ip := by rw [hn']
  have hmac : n'.mac = n.mac := by rw [hn']
  have hknows : arpLookup n'.arpCache p.ip = some p.mac := by
    rw [hn']
    exact lookup_saved hroom' p.mac
  refine ⟨_, htell, fun scratch m data len hmem hh hlen => ?_⟩
  obtain ⟨hp', hnone⟩ := handles_arpReply p n n' scratch₂ hip hmac scratch m data len hmem hh hlen
  generalize (ethernetHandlePacket p scratch m data len).1 = p' at hp' ⊢
  have hip' : p'.ip = p.ip := by rw [hp']
  have hmac' : p'.mac = p.mac := by rw [hp']
  have hknows' : arpLookup p'.arpCache n'.ip = some n'.mac := by
    rw [hp', hip, hmac]
    exact lookup_saved hroom n.mac
  rw [← hip', ← hmac'] at hknows
  rw [← hip]
  refine ⟨hnone, fun scratch m temp hmem => ?_⟩
  obtain ⟨scratch₃, block, payload, hecho, hrequest⟩ := pings_resolved hknows' scratch m temp hmem
  refine ⟨_, hrequest, fun scratch m data len hmem hh hlen => ?_⟩
  obtain ⟨scratch₄, block', payload', hecho', hreply⟩ :=
    handles_echoRequest hknows hecho scratch m data len hmem hh hlen
  exact ⟨_, hreply, handles_echoReply hecho'⟩

theorem hasRoom_empty (ip : ℕ) : HasRoom emptyArpCache ip :=
  ⟨_, List.mem_replicate.mpr ⟨by decide, rfl⟩, .inl rfl⟩

theorem second_ping_answered_quietWire :
    Pings (quietWire.net.node true) 2 fun fs => ∃ ask, fs = [ask] ∧
      Handles (quietWire.net.node false) ask fun n' fs _ => ∃ tell, fs = [tell] ∧
        Handles (quietWire.net.node true) tell fun p' fs _ => fs = [] ∧
          Pings p' 2 fun fs => ∃ request, fs = [request] ∧
            Handles n' request fun _ fs _ => ∃ reply, fs = [reply] ∧
              Handles p' reply fun _ fs prints => fs = [] ∧ prints = some (bswap32 2, 1) :=
  second_ping_answered (quietWire.net.node true) (quietWire.net.node false) (by decide)
    (hasRoom_empty 2) (hasRoom_empty 1)

end Exchange

end PingExchange
