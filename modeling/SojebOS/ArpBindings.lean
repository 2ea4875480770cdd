import SojebOS.NetworkRoundTrip

/-!
# ARP caches hold true bindings

Any number of machines on a network that keeps every frame ever sent and delivers it to
any machine, at any time and any number of times, or never.
-/
namespace ArpBindings

open ByteMemory MachineWord NetworkStack NetworkFrames NetworkRoundTrip Ipv4Delivery

variable {ι : Type}

structure State (ι : Type) where
  node : ι → Node
  flight : Set Frame

/-- A call of `ipv4_send` or `arp_send_request` on a machine, or the arrival of a frame,
which memory `m` holds at `data` with padding up to `len` bytes. -/
inductive Event (ι : Type) where
  | ipv4Send (i : ι) (scratch : Scratch) (destIp protocol : ℕ) (m : Bytes) (data len : ℕ)
  | arpSendRequest (i : ι) (scratch : Scratch) (targetIp : ℕ)
  | deliver (i : ι) (scratch : Scratch) (f : Frame) (m : Bytes) (data len : ℕ)

def Enabled (s : State ι) : Event ι → Prop
  | .ipv4Send _ _ destIp protocol _ _ len => destIp < 2 ^ 32 ∧ protocol < 2 ^ 8 ∧ len ≤ 1480
  | .arpSendRequest _ _ targetIp => targetIp < 2 ^ 32
  | .deliver _ _ f m data len => f ∈ s.flight ∧ Holds m data f ∧ f.len ≤ len

def next [DecidableEq ι] (s : State ι) : Event ι → State ι
  | .ipv4Send i scratch destIp protocol m data len =>
    { s with
      flight := s.flight ∪ {f | f ∈ ipv4Send (s.node i) scratch destIp protocol m data len} }
  | .arpSendRequest i scratch targetIp =>
    { s with flight := s.flight ∪ {arpSendRequest (s.node i) scratch targetIp} }
  | .deliver i scratch _ m data len =>
    let handled := ethernetHandlePacket (s.node i) scratch m data len
    ⟨Function.update s.node i handled.1, s.flight ∪ {f | f ∈ handled.2}⟩

/-- Nothing is in flight, the caches are empty, and every machine has its own addresses. -/
structure Initial (s : State ι) : Prop where
  cache : ∀ i, (s.node i).arpCache = emptyArpCache
  ip_injective : Function.Injective fun i => (s.node i).ip
  mac_injective : Function.Injective fun i => (s.node i).mac
  flight : s.flight = ∅

inductive Reachable [DecidableEq ι] (s₀ : State ι) : State ι → Prop where
  | init : Reachable s₀ s₀
  | step {s : State ι} {e : Event ι} : Reachable s₀ s → Enabled s e → Reachable s₀ (next s e)

def RealPair (s : State ι) (ip : ℕ) (mac : Mac) : Prop :=
  ∃ i, ip = (s.node i).ip ∧ mac = (s.node i).mac

structure TrueBindings (s : State ι) : Prop where
  cache : ∀ i, ∀ e ∈ (s.node i).arpCache, e.assigned = true → RealPair s e.ip e.mac
  flight : ∀ f ∈ s.flight, bswap16 (load16 f.data 12) = ethertypeIpv4 →
    ∀ i, load32 f.data 30 = (s.node i).ip → loadMac f.data 0 = (s.node i).mac
  /-- No frame overflowed the array in which it was put together. -/
  fits : ∀ f ∈ s.flight, f.len ≤ 1514

inductive Origin (Real : ℕ → Mac → Prop) : Frame → Prop where
  | arp {node : Node} {scratch : Scratch} {destMac targetMac : Mac} {oper targetIp : ℕ} :
      Real node.ip node.mac →
      Origin Real (ethernetSendPacket node scratch destMac ethertypeArp
        (arpPacket oper node.mac node.ip targetMac targetIp) arpPacketSize)
  | ipv4 {node : Node} {scratch : Scratch} {destMac : Mac} {destIp protocol len : ℕ}
      {block payload : Bytes} : Real destIp destMac →
      destIp < 2 ^ 32 → protocol < 2 ^ 8 → len ≤ 1480 →
      Origin Real (ethernetSendPacket node scratch destMac ethertypeIpv4
        (ipv4Packet block node.ip destIp protocol payload len) (20 + len))

section Handlers

variable {Real : ℕ → Mac → Prop} {node : Node} {scratch : Scratch} {m : Bytes}
  {data len : ℕ} {f g : Frame}

def TrueCache (Real : ℕ → Mac → Prop) (cache : List ArpEntry) : Prop :=
  ∀ e ∈ cache, e.assigned = true → Real e.ip e.mac

theorem trueCache_save {cache : List ArpEntry} {ip : ℕ} {mac : Mac} (h : TrueCache Real cache)
    (hr : Real ip mac) : TrueCache Real (saveBinding ip mac cache) := by
  induction cache with
  | nil => exact h
  | cons e es ih =>
    have hes : TrueCache Real es := fun x hx => h x (List.mem_cons_of_mem _ hx)
    intro x hx hxa
    rw [saveBinding] at hx
    by_cases hslot : e.assigned = false ∨ e.ip = ip
    · rw [if_pos hslot] at hx
      rcases List.mem_cons.mp hx with rfl | hx
      · exact hr
      · exact hes x hx hxa
    · rw [if_neg hslot] at hx
      rcases List.mem_cons.mp hx with rfl | hx
      · exact h x List.mem_cons_self hxa
      · exact ih hes x hx hxa

theorem trueCache_lookup {cache : List ArpEntry} {ip : ℕ} {mac : Mac} (h : TrueCache Real cache)
    (hl : arpLookup cache ip = some mac) : Real ip mac := by
  obtain ⟨e, he, rfl⟩ := Option.map_eq_some_iff.mp hl
  have hmatch := List.find?_some he
  simp only [Bool.and_eq_true, beq_iff_eq] at hmatch
  rw [← hmatch.2]
  exact h e (List.mem_of_find?_eq_some he) hmatch.1

theorem origin_send {destIp protocol : ℕ} (hr : Real node.ip node.mac)
    (hc : TrueCache Real node.arpCache) (hd : destIp < 2 ^ 32) (hp : protocol < 2 ^ 8)
    (hl : len ≤ 1480) (hf : f ∈ ipv4Send node scratch destIp protocol m data len) :
    Origin Real f := by
  have hu : u32 (ipv4HeaderSize + len) = 20 + len := u32_of_lt (by unfold ipv4HeaderSize; omega)
  unfold ipv4Send at hf
  cases hroom : scratch.kmalloc with
  | none => simp [hroom] at hf
  | some block =>
    cases hlook : arpLookup node.arpCache destIp with
    | none =>
      obtain rfl : f = arpSendRequest node scratch destIp := by simpa [hroom, hlook] using hf
      exact .arp hr
    | some destMac =>
      simp only [hroom, hlook, hu, List.mem_singleton] at hf
      rw [hf]
      exact .ipv4 (trueCache_lookup hc hlook) hd hp hl

theorem type_of_route :
    (ethernetRoute node m data len = .ipv4 → bswap16 (load16 m (data + 12)) = ethertypeIpv4) ∧
    (ethernetRoute node m data len = .arp → bswap16 (load16 m (data + 12)) = ethertypeArp) := by
  simp only [ethernetRoute]
  constructor
  · intro h
    split_ifs at h with _ _ htype
    exact htype
  · intro h
    split_ifs at h with _ _ _ htype
    exact htype

theorem held_type {sender : Node} {scratch' : Scratch} {destMac : Mac} {type n : ℕ}
    {packet : Bytes} (ht : type < 2 ^ 16)
    (hh : Holds m data (ethernetSendPacket sender scratch' destMac type packet n)) :
    bswap16 (load16 m (data + 12)) = type := by
  rw [hh.load16 (i := 12) (by simp only [ethernetSendPacket_len]; omega)]
  exact ethernetSendPacket_type ht

/-- What passes the filter as ARP was sent as ARP, so it binds a real pair. -/
theorem arp_binding_real (ho : Origin Real f) (hh : Holds m data f)
    (hroute : ethernetRoute node m data len = .arp) :
    Real (load32 m (data + 14 + 14)) (loadMac m (data + 14 + 8)) := by
  cases ho with
  | @arp sender _ _ _ _ _ hreal =>
    have hp := holds_sent hh
    have hmac := hp.loadMac (i := 8) (by norm_num [arpPacketSize])
    have hip := hp.load32 (i := 14) (by norm_num [arpPacketSize])
    rw [hmac, hip, arpPacket_srcMac, arpPacket_srcIp sender.ip_lt]
    exact hreal
  | ipv4 =>
    have htype := type_of_route.2 hroute
    rw [held_type (by norm_num [ethertypeIpv4]) hh] at htype
    exact absurd htype (by norm_num [ethertypeIpv4, ethertypeArp])

theorem origin_echo (hr : Real node.ip node.mac) (hc : TrueCache Real node.arpCache)
    (ho : Origin Real f) (hh : Holds m data f)
    (hroute : ethernetRoute node m data len = .ipv4)
    (hg : g ∈ ipv4HandlePacket node scratch m (data + 14) (len - 14)) : Origin Real g := by
  cases ho with
  | arp =>
    have htype := type_of_route.1 hroute
    rw [held_type (by norm_num [ethertypeArp]) hh] at htype
    exact absurd htype (by norm_num [ethertypeIpv4, ethertypeArp])
  | @ipv4 sender _ _ destIp protocol n block payload _ hd hp hl =>
    have hreads := reads_packet (by omega) hp sender.ip_lt hd (holds_sent hh)
    rw [ipv4HandlePacket, icmpCall_eq] at hg
    by_cases ha : Accepted node m (data + 14) (len - 14)
    · simp only [if_pos ha, hreads.ihl, hreads.totalLength, icmpHandle] at hg
      split at hg
      · cases hg
      split at hg
      · exact origin_send hr hc (load32_lt _ _) (by norm_num [ipv4ProtoIcmp]) (by omega) hg
      · cases hg
    · simp only [if_neg ha, List.not_mem_nil] at hg

/-- What handling a packet leaves of the machine and puts on the network. -/
structure Handled (Real : ℕ → Mac → Prop) (node : Node) (result : Node × List Frame) : Prop where
  ip : result.1.ip = node.ip
  mac : result.1.mac = node.mac
  cache : TrueCache Real result.1.arpCache
  sent : ∀ g ∈ result.2, Origin Real g

theorem arp_handled (hr : Real node.ip node.mac) (hc : TrueCache Real node.arpCache)
    (hbind : Real (load32 m (data + 14)) (loadMac m (data + 8))) :
    Handled Real node (arpHandlePacket node scratch m data len) := by
  have hsaved := trueCache_save hc hbind
  unfold arpHandlePacket
  by_cases hlen : len < arpPacketSize
  · rw [if_pos hlen]
    exact ⟨rfl, rfl, hc, by simp⟩
  rw [if_neg hlen]
  dsimp only
  split
  · refine ⟨rfl, rfl, hsaved, ?_⟩
    intro g hg
    rw [List.mem_singleton.mp hg]
    exact .arp hr
  · exact ⟨rfl, rfl, hsaved, by simp⟩

theorem frame_handled (hr : Real node.ip node.mac) (hc : TrueCache Real node.arpCache)
    (ho : Origin Real f) (hh : Holds m data f) :
    Handled Real node (ethernetHandlePacket node scratch m data len) := by
  unfold ethernetHandlePacket
  cases hroute : ethernetRoute node m data len with
  | drop => exact ⟨rfl, rfl, hc, by simp⟩
  | ipv4 => exact ⟨rfl, rfl, hc, fun g hg => origin_echo hr hc ho hh hroute hg⟩
  | arp => exact arp_handled hr hc (arp_binding_real ho hh hroute)

end Handlers

section Runs

variable {s₀ s : State ι} {e : Event ι}

/-- The addresses stay, and caches and frames speak of the machines there are. -/
structure Invariant (s₀ s : State ι) : Prop where
  ip : ∀ i, (s.node i).ip = (s₀.node i).ip
  mac : ∀ i, (s.node i).mac = (s₀.node i).mac
  cache : ∀ i, TrueCache (RealPair s₀) (s.node i).arpCache
  flight : ∀ f ∈ s.flight, Origin (RealPair s₀) f

theorem Invariant.realPair (h : Invariant s₀ s) (i : ι) :
    RealPair s₀ (s.node i).ip (s.node i).mac := ⟨i, h.ip i, h.mac i⟩

theorem initial_invariant (h : Initial s₀) : Invariant s₀ s₀ := by
  constructor
  · intro i
    rfl
  · intro i
    rfl
  · intro i e he hassigned
    rw [h.cache i, emptyArpCache, List.mem_replicate] at he
    rw [he.2] at hassigned
    cases hassigned
  · intro f hf
    rw [h.flight] at hf
    cases hf

theorem step_preserves_invariant [DecidableEq ι] (h : Invariant s₀ s) (he : Enabled s e) :
    Invariant s₀ (next s e) := by
  cases e with
  | ipv4Send i scratch destIp protocol m data len =>
    refine ⟨h.ip, h.mac, h.cache, ?_⟩
    rintro f (hf | hf)
    · exact h.flight f hf
    · exact origin_send (h.realPair i) (h.cache i) he.1 he.2.1 he.2.2 hf
  | arpSendRequest i scratch targetIp =>
    refine ⟨h.ip, h.mac, h.cache, ?_⟩
    rintro f (hf | rfl)
    · exact h.flight f hf
    · exact .arp (h.realPair i)
  | deliver i scratch f m data len =>
    have handled : Handled (RealPair s₀) (s.node i)
        (ethernetHandlePacket (s.node i) scratch m data len) :=
      frame_handled (h.realPair i) (h.cache i) (h.flight f he.1) he.2.1
    constructor
    · intro j
      by_cases hj : j = i
      · subst hj
        simpa [next] using handled.ip.trans (h.ip j)
      · simpa [next, hj] using h.ip j
    · intro j
      by_cases hj : j = i
      · subst hj
        simpa [next] using handled.mac.trans (h.mac j)
      · simpa [next, hj] using h.mac j
    · intro j
      by_cases hj : j = i
      · subst hj
        simpa [next] using handled.cache
      · simpa [next, hj] using h.cache j
    · rintro g (hg | hg)
      · exact h.flight g hg
      · exact handled.sent g hg

theorem reachable_invariant [DecidableEq ι] (h₀ : Initial s₀) (h : Reachable s₀ s) :
    Invariant s₀ s := by
  induction h with
  | init => exact initial_invariant h₀
  | step _ he ih => exact step_preserves_invariant ih he

theorem Invariant.trueBindings (h : Invariant s₀ s) (h₀ : Initial s₀) : TrueBindings s := by
  constructor
  · intro i e he hassigned
    obtain ⟨j, hip, hmac⟩ := h.cache i e he hassigned
    exact ⟨j, hip.trans (h.ip j).symm, hmac.trans (h.mac j).symm⟩
  · intro f hf htype i hdest
    cases h.flight f hf with
    | arp =>
      rw [ethernetSendPacket_type (by norm_num [ethertypeArp])] at htype
      exact absurd htype (by norm_num [ethertypeIpv4, ethertypeArp])
    | @ipv4 node scratch destMac destIp protocol len block payload hreal hd hp hl =>
      obtain ⟨j, hip, hmac⟩ := hreal
      have hh : Holds (ethernetSendPacket node scratch destMac ethertypeIpv4
          (ipv4Packet block node.ip destIp protocol payload len) (20 + len)).data 0
          (ethernetSendPacket node scratch destMac ethertypeIpv4
          (ipv4Packet block node.ip destIp protocol payload len) (20 + len)) :=
        fun i _ => by rw [Nat.zero_add]
      have hreads := reads_packet (by omega) hp node.ip_lt hd (holds_sent hh)
      have hij : (s₀.node j).ip = (s₀.node i).ip := by
        rw [← hip, ← h.ip i, ← hdest]
        exact hreads.destIp.symm
      obtain rfl : j = i := h₀.ip_injective hij
      rw [ethernetSendPacket_destMac, hmac, h.mac]
  · intro f hf
    cases h.flight f hf with
    | arp => simp only [ethernetSendPacket_len, arpPacketSize]; norm_num
    | ipv4 _ _ _ hl => simp only [ethernetSendPacket_len]; omega

/-- In every reachable state each cached pair is that of a machine, and each IPv4 packet
in flight for a machine's address carries that machine's MAC. -/
theorem reachable_trueBindings [DecidableEq ι] (h₀ : Initial s₀) (h : Reachable s₀ s) :
    TrueBindings s :=
  (reachable_invariant h₀ h).trueBindings h₀

def twoNodes : State Bool :=
  ⟨fun i => ⟨if i then 1 else 2, by split <;> norm_num, fun _ => if i then 1 else 2,
    emptyArpCache⟩, ∅⟩

theorem twoNodes_initial : Initial twoNodes := by
  refine ⟨fun i => rfl, by decide, ?_, rfl⟩
  intro i j h
  have h0 := congrFun h 0
  revert h0
  cases i <;> cases j <;> decide

def zeroScratch : Scratch := ⟨some fun _ => 0, fun _ => 0⟩

def arrival {ι : Type} (i : ι) (f : Frame) : Event ι := .deliver i zeroScratch f f.data 0 f.len

theorem arrival_enabled {ι : Type} {s : State ι} {f : Frame} (i : ι) (h : f ∈ s.flight) :
    Enabled s (arrival i f) :=
  ⟨h, fun j _ => congrArg f.data (Nat.zero_add j), le_rfl⟩

def firstSent (frames : List Frame) : Frame := frames.headD ⟨fun _ => 0, 0⟩

theorem firstSent_mem {frames : List Frame} (h : frames ≠ []) : firstSent frames ∈ frames := by
  obtain ⟨f, fs, rfl⟩ := List.exists_cons_of_ne_nil h
  exact List.mem_cons_self

def firstReply (node : Node) (f : Frame) : Frame :=
  firstSent (ethernetHandlePacket node zeroScratch f.data 0 f.len).2

theorem firstReply_flies {ι : Type} [DecidableEq ι] (s : State ι) (i : ι) (f : Frame)
    (h : (ethernetHandlePacket (s.node i) zeroScratch f.data 0 f.len).2 ≠ []) :
    firstReply (s.node i) f ∈ (next s (arrival i f)).flight :=
  Set.mem_union_right _ (firstSent_mem h)

def requestSent : State Bool := next twoNodes (.arpSendRequest true zeroScratch 2)

def requestFrame : Frame := arpSendRequest (twoNodes.node true) zeroScratch 2

def requestAnswered : State Bool := next requestSent (arrival false requestFrame)

def answerFrame : Frame := firstReply (requestSent.node false) requestFrame

def resolved : State Bool := next requestAnswered (arrival true answerFrame)

theorem resolved_reachable : Reachable twoNodes resolved := by
  have hrequest : requestFrame ∈ requestSent.flight := Set.mem_union_right _ rfl
  have hanswer : answerFrame ∈ requestAnswered.flight :=
    firstReply_flies requestSent false requestFrame (by decide +kernel)
  have hsent : Reachable twoNodes requestSent := .step .init (by norm_num [Enabled])
  exact .step (.step hsent (arrival_enabled false hrequest)) (arrival_enabled true hanswer)

/-- The machines have cached each other, and a packet is on its way. -/
theorem resolved_trueBindings :
    arpLookup (resolved.node true).arpCache 2 = some (fun _ => 2) ∧
      arpLookup (resolved.node false).arpCache 1 = some (fun _ => 1) ∧
      TrueBindings (next resolved (.ipv4Send true zeroScratch 2 1 (fun _ => 0) 0 20)) :=
  ⟨by decide +kernel, by decide +kernel, reachable_trueBindings twoNodes_initial
    (.step resolved_reachable (by norm_num [Enabled]))⟩

end Runs

end ArpBindings
