import SojebOS.BoundedTable
import SojebOS.NetworkFrames

/-!
# The ARP cache over whole runs

The assigned slots of the cache are a table with room for 32 addresses. So the cache has the
addresses that came first, each with the MAC that came last, and an address that comes when
all slots are assigned is never resolved.
-/
namespace ArpCache

open ByteMemory MachineWord NetworkStack NetworkFrames BoundedTable

/-- A packet given to `arp_handle_packet`. -/
structure Packet where
  scratch : Scratch
  memory : Bytes
  data : ℕ
  len : ℕ

def Packet.srcIp (p : Packet) : ℕ := load32 p.memory (p.data + 14)

def Packet.srcMac (p : Packet) : Mac := loadMac p.memory (p.data + 8)

def handlePacket (node : Node) (p : Packet) : Node :=
  (arpHandlePacket node p.scratch p.memory p.data p.len).1

def handlePackets (node : Node) (packets : List Packet) : Node := packets.foldl handlePacket node

def senders (packets : List Packet) : Table ℕ Mac :=
  (packets.filter fun p => arpPacketSize ≤ p.len).map fun p => (p.srcIp, p.srcMac)

/-- The cache after a run: the first 32 addresses with their last MACs, in a prefix of the
slots, each in one slot. -/
structure Caches (cache : List ArpEntry) (bindings : Table ℕ Mac) : Prop where
  lookup : ∀ ip, arpLookup cache ip =
    if ip ∈ firstKeys arpCacheSize bindings then lastValue ip bindings else none
  assigned_prefix : ∃ n ≤ arpCacheSize, cache.map ArpEntry.assigned =
    List.replicate n true ++ List.replicate (arpCacheSize - n) false
  unique : ∀ i j, (hi : i < cache.length) → (hj : j < cache.length) →
    cache[i].assigned = true → cache[j].assigned = true → cache[i].ip = cache[j].ip → i = j

def slots (room : ℕ) (t : Table ℕ Mac) : List ArpEntry :=
  t.map (fun e => ⟨e.1, e.2, true⟩) ++ List.replicate (room - t.length) ⟨0, fun _ => 0, false⟩

section Slots

variable {room ip : ℕ} {mac : Mac} {t : Table ℕ Mac}

theorem slots_cons (room : ℕ) (e : ℕ × Mac) (t : Table ℕ Mac) :
    slots room (e :: t) = ⟨e.1, e.2, true⟩ :: slots (room - 1) t := by
  have hroom : room - (e :: t).length = room - 1 - t.length := by
    rw [List.length_cons]
    omega
  rw [slots, slots, hroom, List.map_cons, List.cons_append]

theorem saveBinding_slots (room ip : ℕ) (mac : Mac) (t : Table ℕ Mac) :
    saveBinding ip mac (slots room t) = slots room (bindKey room ip mac t) := by
  induction t generalizing room with
  | nil =>
    cases room with
    | zero => rfl
    | succ room => rfl
  | cons e es ih =>
    rw [slots_cons, saveBinding, bindKey]
    by_cases hk : e.1 = ip
    · rw [if_pos (Or.inr hk), if_pos hk, slots_cons]
    · rw [if_neg (by simp [hk]), if_neg hk, ih, slots_cons]

theorem arpLookup_slots (room ip : ℕ) (t : Table ℕ Mac) :
    arpLookup (slots room t) ip = BoundedTable.lookup ip t := by
  induction t generalizing room with
  | nil =>
    have hnone : (slots room []).find? (fun e => e.assigned && e.ip == ip) = none := by
      rw [List.find?_eq_none]
      intro e he
      rw [List.eq_of_mem_replicate he]
      simp
    rw [arpLookup, hnone]
    rfl
  | cons e es ih =>
    have hih := ih (room - 1)
    rw [arpLookup] at hih
    rw [arpLookup, slots_cons, lookup_cons, List.find?_cons]
    by_cases hk : e.1 = ip
    · simp [hk]
    · simp only [hk, if_false, Bool.true_and, beq_eq_false_iff_ne.mpr hk]
      exact hih

theorem slots_assigned (room : ℕ) (t : Table ℕ Mac) :
    (slots room t).map ArpEntry.assigned =
      List.replicate t.length true ++ List.replicate (room - t.length) false := by
  rw [slots, List.map_append, List.map_map, List.map_replicate]
  congr 1
  exact List.map_const'

theorem slots_get {i : ℕ} (hi : i < (slots room t).length)
    (ha : (slots room t)[i].assigned = true) :
    ∃ h : i < (keys t).length, (slots room t)[i].ip = (keys t)[i] := by
  have hlength : (keys t).length = t.length := List.length_map _
  by_cases h : i < t.length
  · refine ⟨hlength ▸ h, ?_⟩
    simp only [slots, keys]
    rw [List.getElem_append_left (by rw [List.length_map]; exact h), List.getElem_map,
      List.getElem_map]
  · simp only [slots] at ha
    rw [List.getElem_append_right (by rw [List.length_map]; omega), List.getElem_replicate] at ha
    cases ha

theorem free_iff (ht : t.length ≤ room) :
    (∃ e ∈ slots room t, e.assigned = false) ↔ t.length < room := by
  constructor
  · rintro ⟨e, he, hfree⟩
    rcases List.mem_append.mp he with hused | hnew
    · obtain ⟨b, -, rfl⟩ := List.mem_map.mp hused
      cases hfree
    · have hne := List.ne_nil_of_mem hnew
      rw [Ne, List.replicate_eq_nil_iff] at hne
      omega
  · intro hroom
    refine ⟨⟨0, fun _ => 0, false⟩, ?_, rfl⟩
    apply List.mem_append_right
    rw [List.mem_replicate]
    exact ⟨by omega, rfl⟩

end Slots

section Runs

variable {node : Node} {packets : List Packet} {p : Packet} {t : Table ℕ Mac}

theorem handlePacket_cache (node : Node) (p : Packet) :
    (handlePacket node p).arpCache =
      if arpPacketSize ≤ p.len then saveBinding p.srcIp p.srcMac node.arpCache
      else node.arpCache := by
  simp only [handlePacket, arpHandlePacket]
  by_cases hlen : p.len < arpPacketSize
  · rw [if_pos hlen, if_neg (by omega)]
  · rw [if_neg hlen, if_pos (show arpPacketSize ≤ p.len by omega)]
    split
    · rfl
    · rfl

theorem senders_append (packets : List Packet) (p : Packet) :
    senders (packets ++ [p]) =
      if arpPacketSize ≤ p.len then senders packets ++ [(p.srcIp, p.srcMac)]
      else senders packets := by
  rw [senders, List.filter_append, List.filter_singleton]
  by_cases hlen : arpPacketSize ≤ p.len
  · rw [if_pos hlen, decide_eq_true hlen, cond_true, List.map_append]
    rfl
  · rw [if_neg hlen, decide_eq_false hlen, cond_false, List.append_nil]
    rfl

theorem handlePackets_append (node : Node) (packets : List Packet) (p : Packet) :
    handlePackets node (packets ++ [p]) = handlePacket (handlePackets node packets) p := by
  rw [handlePackets, List.foldl_append]
  rfl

theorem handlePackets_slots (hempty : node.arpCache = emptyArpCache) (packets : List Packet) :
    (handlePackets node packets).arpCache =
      slots arpCacheSize (bindAll arpCacheSize (senders packets)) := by
  induction packets using List.reverseRecOn with
  | nil => exact hempty
  | append_singleton packets p ih =>
    rw [handlePackets_append, handlePacket_cache, ih, senders_append]
    by_cases hlen : arpPacketSize ≤ p.len
    · rw [if_pos hlen, if_pos hlen, saveBinding_slots, bindAll_append]
    · rw [if_neg hlen, if_neg hlen]

theorem slots_caches (bindings : Table ℕ Mac) :
    Caches (slots arpCacheSize (bindAll arpCacheSize bindings)) bindings where
  lookup := by
    intro ip
    rw [arpLookup_slots, lookup_bindAll]
  assigned_prefix := by
    refine ⟨_, ?_, slots_assigned _ _⟩
    have hlength := firstKeys_length arpCacheSize bindings
    rw [← keys_bindAll, keys, List.length_map] at hlength
    exact hlength
  unique := by
    intro i j hi hj hai haj he
    obtain ⟨hi', hip⟩ := slots_get hi hai
    obtain ⟨hj', hjp⟩ := slots_get hj haj
    have hnodup := firstKeys_nodup arpCacheSize bindings
    rw [← keys_bindAll] at hnodup
    rw [hip, hjp] at he
    exact hnodup.getElem_inj_iff.mp he

end Runs

/-- From the empty cache, whatever packets are handled. -/
theorem handled_caches (node : Node) (hempty : node.arpCache = emptyArpCache)
    (packets : List Packet) (hlen : ∀ p ∈ packets, arpPacketSize ≤ p.len) :
    Caches (handlePackets node packets).arpCache
      (packets.map fun p => (p.srcIp, p.srcMac)) := by
  have hall : senders packets = packets.map fun p => (p.srcIp, p.srcMac) := by
    rw [senders, List.filter_eq_self.mpr]
    intro p hp
    exact decide_eq_true (hlen p hp)
  rw [handlePackets_slots hempty, hall]
  exact slots_caches _

def emptyNode : Node := ⟨0x0B0AA8C0, by norm_num, fun _ => 0, emptyArpCache⟩

def replyFrom (ip : ℕ) : Packet :=
  ⟨⟨none, fun _ => 0⟩, arpPacket arpOpReply (fun _ => 1) ip (fun _ => 0) 0, 0, arpPacketSize⟩

/-- Replies of 33 machines, and another of the first one, which has a new card. -/
def crowd : List Packet := (List.range 33).map replyFrom ++
  [⟨⟨none, fun _ => 0⟩, arpPacket arpOpReply (fun _ => 2) 0 (fun _ => 0) 0, 0, arpPacketSize⟩]

/-- The last machine finds no slot, and the first one is bound anew. -/
theorem handled_caches_crowd :
    Caches (handlePackets emptyNode crowd).arpCache (crowd.map fun p => (p.srcIp, p.srcMac)) :=
  handled_caches emptyNode rfl crowd (by decide)

section Resolution

/-- The packet is an ARP reply that binds the address to the MAC. -/
structure IsReply (p : Packet) (ip : ℕ) (mac : Mac) : Prop where
  len_ge : arpPacketSize ≤ p.len
  oper : bswap16 (load16 p.memory (p.data + 6)) = arpOpReply
  srcIp : p.srcIp = ip
  srcMac : p.srcMac = mac

/-- A send to the address that gets its block hands its packet to `ethernet_send_packet`
for the MAC, and sends nothing else. -/
def SendsTo (node : Node) (ip : ℕ) (mac : Mac) : Prop :=
  ∀ (frame block : Bytes) (protocol : ℕ) (m : Bytes) (data len : ℕ),
    ipv4Send node ⟨some block, frame⟩ ip protocol m data len =
      [ethernetSendPacket node ⟨some block, frame⟩ mac ethertypeIpv4
        (ipv4Packet block node.ip ip protocol (window m data) len) (u32 (ipv4HeaderSize + len))]

variable {node : Node} {packets : List Packet} {reply : Packet} {ip : ℕ} {mac : Mac}

theorem request_ne_packet {scratch : Scratch} {target : ℕ} {packet : Bytes} {len : ℕ} :
    [arpSendRequest node scratch target] ≠
      [ethernetSendPacket node scratch mac ethertypeIpv4 packet len] := by
  intro h
  have htype := congrArg (fun f : Frame => bswap16 (load16 f.data 12)) (List.singleton_inj.mp h)
  simp only [arpSendRequest] at htype
  rw [ethernetSendPacket_type (by norm_num [ethertypeArp]),
    ethernetSendPacket_type (by norm_num [ethertypeIpv4])] at htype
  exact absurd htype (by decide)

theorem sendsTo_iff : SendsTo node ip mac ↔ arpLookup node.arpCache ip = some mac := by
  constructor
  · intro h
    have hsend := h (fun _ => 0) (fun _ => 0) 0 (fun _ => 0) 0 0
    cases hlook : arpLookup node.arpCache ip with
    | none =>
      simp only [ipv4Send, hlook] at hsend
      exact absurd hsend request_ne_packet
    | some found =>
      simp only [ipv4Send, hlook] at hsend
      have hdest := congrArg (fun f : Frame => loadMac f.data 0) (List.singleton_inj.mp hsend)
      simp only [ethernetSendPacket_destMac] at hdest
      rw [hdest]
  · intro h frame block protocol m data len
    simp only [ipv4Send, h]

theorem resolves_iff (hempty : node.arpCache = emptyArpCache)
    (hnone : arpLookup (handlePackets node packets).arpCache ip = none)
    (hreply : IsReply reply ip mac) :
    SendsTo (handlePacket (handlePackets node packets) reply) ip mac ↔
      ∃ e ∈ (handlePackets node packets).arpCache, e.assigned = false := by
  have hslots := handlePackets_slots hempty packets
  generalize ht : bindAll arpCacheSize (senders packets) = t at hslots
  have hroom : t.length ≤ arpCacheSize := by
    have hlength := firstKeys_length arpCacheSize (senders packets)
    rw [← keys_bindAll, ht, keys, List.length_map] at hlength
    exact hlength
  have hnot : ip ∉ keys t := by
    rw [hslots, arpLookup_slots] at hnone
    exact lookup_none_iff.mp hnone
  rw [sendsTo_iff, handlePacket_cache, if_pos hreply.len_ge, hslots, saveBinding_slots,
    arpLookup_slots, hreply.srcIp, hreply.srcMac, lookup_bindKey, free_iff hroom]
  constructor
  · intro h
    by_contra hfull
    rw [if_neg (by tauto), lookup_none_iff.mpr hnot] at h
    cases h
  · intro hfree
    rw [if_pos ⟨rfl, Or.inr hfree⟩]

end Resolution

/-- In every state that packets lead to, the reply to a request lets the next send go through
exactly when a slot is left for it. -/
theorem reply_resolves_iff (node : Node) (hempty : node.arpCache = emptyArpCache)
    (packets : List Packet) (ip : ℕ)
    (hnone : arpLookup (handlePackets node packets).arpCache ip = none) (reply : Packet)
    (mac : Mac) (hreply : IsReply reply ip mac) :
    SendsTo (handlePacket (handlePackets node packets) reply) ip mac ↔
      ∃ e ∈ (handlePackets node packets).arpCache, e.assigned = false :=
  resolves_iff hempty hnone hreply

theorem reply_resolves_iff_one :
    SendsTo (handlePacket (handlePackets emptyNode [replyFrom 7]) (replyFrom 8)) 8 (fun _ => 1) ↔
      ∃ e ∈ (handlePackets emptyNode [replyFrom 7]).arpCache, e.assigned = false :=
  reply_resolves_iff emptyNode rfl [replyFrom 7] 8 (by decide) (replyFrom 8) (fun _ => 1)
    ⟨by decide, by decide, by decide, by decide⟩

/-- After 32 other machines the reply of the next one is not kept. -/
theorem fullCache_unresolved :
    arpLookup (handlePackets emptyNode ((List.range 32).map replyFrom)).arpCache 100 = none ∧
      ¬SendsTo (handlePacket (handlePackets emptyNode ((List.range 32).map replyFrom))
        (replyFrom 100)) 100 (fun _ => 1) := by
  have hnone : arpLookup
      (handlePackets emptyNode ((List.range 32).map replyFrom)).arpCache 100 = none := by
    decide
  refine ⟨hnone, ?_⟩
  rw [resolves_iff rfl hnone ⟨by decide, by decide, by decide, by decide⟩]
  decide

end ArpCache
