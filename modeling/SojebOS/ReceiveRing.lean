import SojebOS.NetworkFrames
import SojebOS.Rtl8139

/-!
# The card and the driver share the receive ring

The card stores frames behind its write offset, the driver reads them behind `rx_offset`, and
both advance by the same rule. What the driver hands on is what the card stored, as long as
no echo reply is written over a frame that still waits in the ring, or over the driver's stack.
-/
namespace ReceiveRing

open ByteMemory MachineWord NetworkStack Rtl8139

/-- A frame in the ring, with its CRC. -/
structure Stored where
  start : ℕ
  frame : List UInt8

/-- The driver, and the card with its write offset, the frames that it stored, in order, and
those of them that the driver has not read. -/
structure State where
  receiver : Receiver
  writeOffset : ℕ
  stored : List (List UInt8)
  unread : List Stored

def withoutCrc (frame : List UInt8) : List UInt8 := frame.take (frame.length - 4)

/-- The card writes the header of a frame, and the frame behind it. -/
def storeFrame (m : Bytes) (a status : ℕ) (frame : List UInt8) : Bytes :=
  copyIn (store16 (store16 m a status) (a + 2) frame.length) (a + 4) frame.length
    fun i => frame.getD i 0

/-- The next multiple of 4 behind the frame, modulo the size of the ring. -/
def behindFrame (w packetLen : ℕ) : ℕ := 4 * ((w + 4 + packetLen + 3) / 4) % rxBufSize

inductive Event where
  | store (status : ℕ) (frame : List UInt8)
  | poll (scratch : Scratch)

/-- The card stores good frames where no unread frame lies. The ring is reported empty exactly
when no stored frame is unread. -/
def Enabled (s : State) : Event → Prop
  | .store status frame => status < 2 ^ 16 ∧ status &&& 0x01 ≠ 0 ∧
      64 ≤ frame.length ∧ frame.length ≤ 1518 ∧
      ∀ f ∈ s.unread, s.writeOffset + 4 + frame.length ≤ f.start ∨
        f.start + 4 + f.frame.length ≤ s.writeOffset
  | .poll _ => s.unread ≠ []

def afterStore (rxBuffer : ℕ) (s : State) (status : ℕ) (frame : List UInt8) : State where
  receiver := { s.receiver with
    memory := storeFrame s.receiver.memory (rxBuffer + s.writeOffset) status frame }
  writeOffset := behindFrame s.writeOffset frame.length
  stored := s.stored ++ [frame]
  unread := s.unread ++ [⟨s.writeOffset, frame⟩]

/-- `none` where the iteration destroys its own stack. -/
def next (rxBuffer : ℕ) (s : State) : Event → Option State
  | .store status frame => some (afterStore rxBuffer s status frame)
  | .poll scratch => (pollIteration rxBuffer scratch s.receiver).map fun receiver =>
      { s with receiver, unread := s.unread.tail }

def initial (rxBuffer : ℕ) (m : Bytes) (node : Node) : State :=
  ⟨rtl8139Init rxBuffer m node, 0, [], []⟩

/-- The echo request that the iteration answers, if it does, begins with four bytes that
belong to no other unread frame. -/
def RepliesApart (rxBuffer : ℕ) (s : State) : Prop :=
  ∀ icmp icmpLen, echoRequest s.receiver.node s.receiver.memory
      (givenPacket rxBuffer s.receiver).data (givenPacket rxBuffer s.receiver).len =
        some (icmp, icmpLen) →
    ∀ f ∈ s.unread.tail, icmp + 4 ≤ rxBuffer + f.start ∨
      rxBuffer + f.start + 4 + f.frame.length ≤ icmp

/-- The echo request that the iteration answers, if it does, has at most 1480 bytes by its
header, or its reply does not go out: for want of memory, or of the sender's MAC address. -/
def ReplyFits (rxBuffer : ℕ) (s : State) (scratch : Scratch) : Prop :=
  let packet := givenPacket rxBuffer s.receiver
  ∀ icmp icmpLen, echoRequest s.receiver.node s.receiver.memory packet.data packet.len =
      some (icmp, icmpLen) →
    icmpLen ≤ 1480 ∨ scratch.kmalloc = none ∨ arpLookup s.receiver.node.arpCache
      (load32 (replyInPlace s.receiver.memory icmp icmpLen) (packet.data + ethHeaderSize + 12)) =
        none

/-- The reply of the iteration is written over no unread frame and over no stack. -/
structure RepliesHarmlessly (rxBuffer : ℕ) (s : State) (scratch : Scratch) : Prop where
  apart : RepliesApart rxBuffer s
  fits : ReplyFits rxBuffer s scratch

/-- Any order of stores and iterations, in which every iteration meets `Meets` in the state
that it starts in. -/
inductive Runs (rxBuffer : ℕ) (Meets : State → Scratch → Prop) : State → Prop where
  | init (m : Bytes) (node : Node) : Runs rxBuffer Meets (initial rxBuffer m node)
  | store {s t} (h : Runs rxBuffer Meets s) (status : ℕ) (frame : List UInt8)
      (he : Enabled s (.store status frame)) (ht : next rxBuffer s (.store status frame) = some t) :
      Runs rxBuffer Meets t
  | poll {s t} (h : Runs rxBuffer Meets s) (scratch : Scratch) (he : Enabled s (.poll scratch))
      (hm : Meets s scratch) (ht : next rxBuffer s (.poll scratch) = some t) :
      Runs rxBuffer Meets t

structure Agreement (rxBuffer : ℕ) (s : State) : Prop where
  aligned : s.receiver.rxOffset % 4 = 0
  below : s.receiver.rxOffset < rxBufSize
  oldest : ∀ f ∈ s.unread.head?, s.receiver.rxOffset = f.start
  inside : ∀ g ∈ s.receiver.given, rxBuffer ≤ g.data ∧ g.data + g.len ≤ rxBuffer + rxTotalSize
  exact : s.receiver.given.map Given.bytes ++ s.unread.map (fun f => withoutCrc f.frame) =
    s.stored.map withoutCrc

def Follows : ℕ → List Stored → ℕ → Prop
  | o, [], w => o = w
  | o, f :: fs, w => f.start = o ∧ Follows (behindFrame o f.frame.length) fs w

structure Held (m : Bytes) (rxBuffer : ℕ) (f : Stored) : Prop where
  length_ge : 64 ≤ f.frame.length
  length_le : f.frame.length ≤ 1518
  status : load16 m (rxBuffer + f.start) &&& 0x01 ≠ 0
  packetLen : load16 m (rxBuffer + f.start + 2) = f.frame.length
  bytes : ∀ i, (hi : i < f.frame.length) → m (rxBuffer + f.start + 4 + i) = f.frame[i]

structure Invariant (rxBuffer : ℕ) (s : State) : Prop where
  aligned : s.receiver.rxOffset % 4 = 0
  below : s.receiver.rxOffset < rxBufSize
  follows : Follows s.receiver.rxOffset s.unread s.writeOffset
  held : ∀ f ∈ s.unread, Held s.receiver.memory rxBuffer f
  inside : ∀ g ∈ s.receiver.given, rxBuffer ≤ g.data ∧ g.data + g.len ≤ rxBuffer + rxTotalSize
  exact : s.receiver.given.map Given.bytes ++ s.unread.map (fun f => withoutCrc f.frame) =
    s.stored.map withoutCrc

section Steps

variable {rxBuffer : ℕ} {s t : State} {m m' : Bytes} {f : Stored} {fs : List Stored}
  {frame : List UInt8} {o w a status : ℕ}

/-- The driver and the card advance alike. -/
theorem advanceOffset_eq (ho : o < rxBufSize) {packetLen : ℕ} (hlen : packetLen ≤ 1518) :
    advanceOffset o packetLen = behindFrame o packetLen := by
  have hmask : u32 (o + packetLen + 4 + 3) &&& 0xFFFFFFFC =
      u32 (o + packetLen + 4 + 3) / 2 ^ 2 * 2 ^ 2 :=
    and_high_mask (w := 32) (k := 2) (u32_lt _) (by norm_num)
  simp only [rxBufSize] at ho
  have hword : u32 (o + packetLen + 4 + 3) = o + packetLen + 4 + 3 := u32_of_lt (by omega)
  simp only [advanceOffset, behindFrame, rxBufSize]
  rw [hmask, hword]
  split
  · omega
  · omega

theorem behindFrame_ring (o packetLen : ℕ) :
    behindFrame o packetLen % 4 = 0 ∧ behindFrame o packetLen < rxBufSize := by
  simp only [behindFrame, rxBufSize]
  omega

theorem Follows.append (h : Follows o fs w) (frame : List UInt8) :
    Follows o (fs ++ [⟨w, frame⟩]) (behindFrame w frame.length) := by
  induction fs generalizing o with
  | nil => exact ⟨h.symm, congrArg (behindFrame · frame.length) h⟩
  | cons f fs ih => exact ⟨h.1, ih h.2⟩

theorem Held.congr (h : Held m rxBuffer f)
    (hm : ∀ x, rxBuffer + f.start ≤ x → x < rxBuffer + f.start + 4 + f.frame.length →
      m' x = m x) : Held m' rxBuffer f where
  length_ge := h.length_ge
  length_le := h.length_le
  status := by
    rw [load16_congr fun x hx hx' => hm x hx (by omega)]
    exact h.status
  packetLen := by
    rw [load16_congr fun x hx hx' => hm x (by omega) (by have := h.length_ge; omega)]
    exact h.packetLen
  bytes := by
    intro i hi
    rw [hm _ (by omega) (by omega)]
    exact h.bytes i hi

theorem storeFrame_outside {x : ℕ} (h : x < a ∨ a + 4 + frame.length ≤ x) :
    storeFrame m a status frame x = m x := by
  unfold storeFrame
  rw [copyIn_outside (by omega), store16_outside (by omega), store16_outside (by omega)]

theorem storeFrame_held (hs : status < 2 ^ 16) (hok : status &&& 0x01 ≠ 0)
    (hge : 64 ≤ frame.length) (hle : frame.length ≤ 1518) :
    Held (storeFrame m (rxBuffer + w) status frame) rxBuffer ⟨w, frame⟩ where
  length_ge := hge
  length_le := hle
  status := by
    dsimp only [storeFrame]
    rw [load16_copyIn_apart (by omega), load16_store16_apart (by omega), load16_store16 hs]
    exact hok
  packetLen := by
    dsimp only [storeFrame]
    rw [load16_copyIn_apart (by omega), load16_store16 (by omega)]
  bytes := by
    intro i hi
    dsimp only [storeFrame] at hi ⊢
    rw [copyIn_inside (by omega), Nat.add_sub_cancel_left]
    exact List.getD_eq_getElem _ _ hi

theorem initial_invariant (rxBuffer : ℕ) (m : Bytes) (node : Node) :
    Invariant rxBuffer (initial rxBuffer m node) where
  aligned := rfl
  below := Nat.zero_lt_succ _
  follows := rfl
  held := fun _ hf => absurd hf List.not_mem_nil
  inside := fun _ hg => absurd hg List.not_mem_nil
  exact := rfl

theorem store_invariant (h : Invariant rxBuffer s) (he : Enabled s (.store status frame)) :
    Invariant rxBuffer (afterStore rxBuffer s status frame) := by
  obtain ⟨hstatus, hok, hge, hle, hapart⟩ := he
  refine ⟨h.aligned, h.below, h.follows.append frame, ?_, h.inside, ?_⟩
  · intro f hf
    rcases List.mem_append.mp hf with hold | hnew
    · apply (h.held f hold).congr
      intro x hx hx'
      apply storeFrame_outside
      have hregion := hapart f hold
      omega
    · rw [List.mem_singleton.mp hnew]
      exact storeFrame_held hstatus hok hge hle
  · simp only [afterStore, List.map_append, List.map_cons, List.map_nil, ← List.append_assoc]
    rw [h.exact]

theorem givenPacket_eq (hf : Held s.receiver.memory rxBuffer f)
    (ho : s.receiver.rxOffset = f.start) : givenPacket rxBuffer s.receiver =
      ⟨rxBuffer + f.start + 4, f.frame.length - 4, withoutCrc f.frame⟩ := by
  have hge := hf.length_ge
  have hle := hf.length_le
  have hlen : sub32 f.frame.length 4 = f.frame.length - 4 := sub32_of_le (by omega) (by omega)
  simp only [givenPacket, ho, hf.packetLen, hlen, Given.mk.injEq, true_and]
  apply List.ext_getElem
  · rw [List.length_map, List.length_range, withoutCrc, List.length_take]
    omega
  · intro i hi hi'
    rw [List.length_map, List.length_range] at hi
    rw [List.getElem_map, List.getElem_range, hf.bytes i (by omega)]
    simp only [withoutCrc, List.getElem_take]

theorem pollIteration_held (scratch : Scratch) (hf : Held s.receiver.memory rxBuffer f)
    (ho : s.receiver.rxOffset = f.start) (hbelow : s.receiver.rxOffset < rxBufSize) :
    pollIteration rxBuffer scratch s.receiver =
      let handled := ethernetHandlePacket s.receiver.node scratch s.receiver.memory
        (rxBuffer + f.start + 4) (f.frame.length - 4)
      if ∀ sent ∈ handled.2, sent.len ≤ frameArraySize then
        some
          { memory := handledMemory s.receiver.node s.receiver.memory (rxBuffer + f.start + 4)
              (f.frame.length - 4)
            rxOffset := behindFrame s.receiver.rxOffset f.frame.length
            capr := sub32 (behindFrame s.receiver.rxOffset f.frame.length) 0x10 % 2 ^ 16
            node := handled.1
            given := s.receiver.given ++
              [⟨rxBuffer + f.start + 4, f.frame.length - 4, withoutCrc f.frame⟩] }
      else none := by
  have hstatus := hf.status
  have hlen := hf.packetLen
  rw [← ho] at hstatus hlen
  simp only [pollIteration, givenPacket_eq hf ho, hlen, advanceOffset_eq hbelow hf.length_le]
  exact if_pos hstatus

theorem Held.handled {node : Node} {m : Bytes} {data len : ℕ} (hf : Held m rxBuffer f)
    (happart : ∀ icmp icmpLen, echoRequest node m data len = some (icmp, icmpLen) →
      icmp + 4 ≤ rxBuffer + f.start ∨ rxBuffer + f.start + 4 + f.frame.length ≤ icmp) :
    Held (handledMemory node m data len) rxBuffer f := by
  apply hf.congr
  intro x hx hx'
  simp only [handledMemory]
  cases hecho : echoRequest node m data len with
  | none => rfl
  | some icmp =>
    apply replyInPlace_outside
    have hapart := happart icmp.1 icmp.2 hecho
    omega

theorem sent_fits_iff (rxBuffer : ℕ) (s : State) (scratch : Scratch) :
    (∀ f ∈ (ethernetHandlePacket s.receiver.node scratch s.receiver.memory
      (givenPacket rxBuffer s.receiver).data (givenPacket rxBuffer s.receiver).len).2,
      f.len ≤ frameArraySize) ↔ ReplyFits rxBuffer s scratch := by
  unfold ReplyFits
  dsimp only
  cases hecho : echoRequest s.receiver.node s.receiver.memory
      (givenPacket rxBuffer s.receiver).data (givenPacket rxBuffer s.receiver).len with
  | none =>
    refine iff_of_true (ethernetHandlePacket_quiet hecho) fun icmp icmpLen he => ?_
    cases he
  | some request =>
    obtain ⟨icmp, icmpLen⟩ := request
    have hrequest := @ethernetHandlePacket_request _ scratch _ _ _ _ _ hecho
    rw [hrequest.2, ipv4Send_fits_iff hrequest.1]
    constructor
    · rintro hfits _ _ he
      cases he
      exact hfits
    · exact fun h => h icmp icmpLen rfl

/-- An iteration that finds a frame ends exactly when its reply fits. -/
theorem poll_ends_iff (h : Invariant rxBuffer s) {scratch : Scratch}
    (he : Enabled s (.poll scratch)) :
    next rxBuffer s (.poll scratch) ≠ none ↔ ReplyFits rxBuffer s scratch := by
  obtain ⟨f, fs, hunread⟩ := List.exists_cons_of_ne_nil he
  have hfollows := h.follows
  rw [hunread] at hfollows
  have hf : Held s.receiver.memory rxBuffer f := h.held f (hunread ▸ List.mem_cons_self)
  have hfits := sent_fits_iff rxBuffer s scratch
  rw [givenPacket_eq hf hfollows.1.symm] at hfits
  rw [← hfits, next, pollIteration_held scratch hf hfollows.1.symm h.below, ne_eq,
    Option.map_eq_none_iff]
  dsimp only
  split
  · next hall => exact iff_of_true (Option.some_ne_none _) hall
  · next hall => exact iff_of_false (fun hne => hne rfl) hall

theorem poll_invariant {scratch : Scratch} (h : Invariant rxBuffer s)
    (he : Enabled s (.poll scratch)) (happart : RepliesApart rxBuffer s)
    (ht : next rxBuffer s (.poll scratch) = some t) : Invariant rxBuffer t := by
  obtain ⟨f, fs, hunread⟩ := List.exists_cons_of_ne_nil he
  have hfollows := h.follows
  rw [hunread] at hfollows
  obtain ⟨hstart, hfollows⟩ := hfollows
  have hf : Held s.receiver.memory rxBuffer f := h.held f (hunread ▸ List.mem_cons_self)
  have hbelow := h.below
  have hgiven := givenPacket_eq hf hstart.symm
  have hround := pollIteration_held scratch hf hstart.symm hbelow
  have hring := behindFrame_ring s.receiver.rxOffset f.frame.length
  rw [next, hround] at ht
  dsimp only at ht
  split at ht
  swap
  · cases ht
  rw [Option.map_some, Option.some.injEq, hunread, List.tail_cons] at ht
  subst ht
  refine ⟨hring.1, hring.2, hfollows, ?_, ?_, ?_⟩
  · intro g hg
    apply (h.held g (hunread ▸ List.mem_cons_of_mem f hg)).handled
    intro icmp icmpLen hecho
    apply happart icmp icmpLen
    · rw [hgiven]
      exact hecho
    · rw [hunread]
      exact hg
  · intro g hg
    rcases List.mem_append.mp hg with hold | hnew
    · exact h.inside g hold
    · rw [List.mem_singleton.mp hnew]
      have hle := hf.length_le
      have haligned := h.aligned
      simp only [rxBufSize, rxTotalSize] at hbelow ⊢
      omega
  · have hexact := h.exact
    rw [hunread, List.map_cons] at hexact
    simp only [List.map_append, List.map_cons, List.map_nil, List.append_assoc,
      List.singleton_append]
    exact hexact

theorem Invariant.agreement (h : Invariant rxBuffer s) : Agreement rxBuffer s where
  aligned := h.aligned
  below := h.below
  oldest := by
    intro f hf
    have hfollows := h.follows
    cases hunread : s.unread with
    | nil =>
      rw [hunread] at hf
      cases hf
    | cons g gs =>
      rw [hunread] at hf hfollows
      rw [← Option.some.inj hf]
      exact hfollows.1.symm
  inside := h.inside
  exact := h.exact

theorem runs_invariant (h : Runs rxBuffer (RepliesHarmlessly rxBuffer) s) :
    Invariant rxBuffer s := by
  induction h with
  | init m node => exact initial_invariant rxBuffer m node
  | store _ status frame he ht ih =>
    rw [next, Option.some.injEq] at ht
    exact ht ▸ store_invariant ih he
  | poll _ scratch he hm ht ih => exact poll_invariant ih he hm.apart ht

end Steps

/-- In every run whose replies stay apart from the unread frames and fit into the array of the
frame that is sent, driver and card agree, and the next iteration ends exactly if its reply
fits, too. -/
theorem runs_agree (rxBuffer : ℕ) (s : State)
    (h : Runs rxBuffer (RepliesHarmlessly rxBuffer) s) :
    Agreement rxBuffer s ∧ ∀ scratch, Enabled s (.poll scratch) →
      (next rxBuffer s (.poll scratch) ≠ none ↔ ReplyFits rxBuffer s scratch) :=
  ⟨(runs_invariant h).agreement, fun _ he => poll_ends_iff (runs_invariant h) he⟩

theorem ringNode_ip_lt : 0x0B0AA8C0 < 2 ^ 32 := by norm_num

def ringNode : Node := ⟨0x0B0AA8C0, ringNode_ip_lt, fun _ => 0, emptyArpCache⟩

/-- A broadcast frame with an ICMP packet, whose header length says 60 bytes where the frame
has 46 behind its Ethernet header. -/
def longHeader : List UInt8 :=
  [255, 255, 255, 255, 255, 255, 0, 0, 0, 0, 0, 0, 8, 0,
    0x4F, 0, 0, 68, 0, 0, 0, 0, 64, 1, 0, 0, 10, 0, 0, 1, 192, 168, 10, 11] ++
    List.replicate 30 0

def fromEight : List UInt8 :=
  [255, 255, 255, 255, 255, 255, 8, 0, 39, 0, 0, 1] ++ List.replicate 52 0

def bothStored : State := afterStore 0 (afterStore 0 (initial 0 (fun _ => 0) ringNode) 1 longHeader)
  1 fromEight

theorem bothStored_runs (Meets : State → Scratch → Prop) : Runs 0 Meets bothStored := by
  have hfirst : Runs 0 Meets (afterStore 0 (initial 0 (fun _ => 0) ringNode) 1 longHeader) :=
    .store (.init (fun _ => 0) ringNode) 1 longHeader ⟨by decide, by decide, by decide, by decide,
      fun f hf => absurd hf List.not_mem_nil⟩ rfl
  refine .store hfirst 1 fromEight ⟨by decide, by decide, by decide, by decide, ?_⟩ rfl
  intro f hf
  rw [List.mem_singleton.mp hf]
  decide

def pollWithoutMemory : Event := .poll ⟨none, fun _ => 0⟩

theorem longHeader_handled : (next 0 bothStored pollWithoutMemory).isSome := by decide

def firstHandled : State := (next 0 bothStored pollWithoutMemory).get longHeader_handled

theorem fromEight_handled : (next 0 firstHandled pollWithoutMemory).isSome := by decide

/-- The reply to the first frame is written at byte 6 of the second. -/
theorem longHeader_corrupts : ¬∀ (rxBuffer : ℕ) (s : State),
    Runs rxBuffer (fun _ _ => True) s → Agreement rxBuffer s := by
  intro h
  have hfirst : Runs 0 (fun _ _ => True) firstHandled :=
    .poll (bothStored_runs _) ⟨none, fun _ => 0⟩ (List.cons_ne_nil _ _) trivial
      (Option.some_get longHeader_handled).symm
  have hboth : Runs 0 (fun _ _ => True)
      ((next 0 firstHandled pollWithoutMemory).get fromEight_handled) :=
    .poll hfirst ⟨none, fun _ => 0⟩ (List.cons_ne_nil _ _) trivial
      (Option.some_get fromEight_handled).symm
  have hexact := congrArg (fun frames => (frames.getD 1 []).getD 6 0) (h 0 _ hboth).exact
  exact absurd hexact (by decide)

def echoFrame : List UInt8 :=
  [255, 255, 255, 255, 255, 255, 2, 0, 0, 0, 0, 1, 8, 0,
    0x45, 0, 0, 46, 0, 0, 0, 0, 64, 1, 0, 0, 192, 168, 10, 12, 192, 168, 10, 11,
    8, 0, 0, 0, 0, 1, 0, 1] ++ List.replicate 22 0

def knowingNode : Node :=
  { ringNode with arpCache := saveBinding 0x0C0AA8C0 (fun _ => 2) emptyArpCache }

def requestStored : State :=
  afterStore 0 (afterStore 0 (initial 0 (fun _ => 0) knowingNode) 1 echoFrame) 1 fromEight

def pollWithMemory : Event := .poll ⟨some 0x10000, fun _ => 0⟩

theorem requestStored_echo : echoRequest requestStored.receiver.node requestStored.receiver.memory
    (givenPacket 0 requestStored.receiver).data (givenPacket 0 requestStored.receiver).len =
      some (38, 26) := by
  decide

theorem requestStored_handled : (next 0 requestStored pollWithMemory).isSome := by decide

/-- A request inside its own frame is answered, and the frame behind it stays. -/
theorem runs_agree_echoFrame :
    Agreement 0 ((next 0 requestStored pollWithMemory).get requestStored_handled) := by
  have hpending : requestStored.unread ≠ [] := List.cons_ne_nil _ _
  refine (runs_agree 0 _ (.poll ?_ ⟨some 0x10000, fun _ => 0⟩ hpending ⟨?_, ?_⟩
    (Option.some_get requestStored_handled).symm)).1
  · have hfirst : Runs 0 (RepliesHarmlessly 0)
        (afterStore 0 (initial 0 (fun _ => 0) knowingNode) 1 echoFrame) :=
      .store (.init (fun _ => 0) knowingNode) 1 echoFrame ⟨by decide, by decide, by decide,
        by decide, fun f hf => absurd hf List.not_mem_nil⟩ rfl
    refine .store hfirst 1 fromEight ⟨by decide, by decide, by decide, by decide, ?_⟩ rfl
    intro f hf
    rw [List.mem_singleton.mp hf]
    decide
  · intro icmp icmpLen hecho f hf
    obtain ⟨rfl, rfl⟩ := Prod.mk.inj (Option.some.inj (requestStored_echo.symm.trans hecho))
    rw [List.mem_singleton.mp hf]
    decide
  · intro icmp icmpLen hecho
    obtain ⟨rfl, rfl⟩ := Prod.mk.inj (Option.some.inj (requestStored_echo.symm.trans hecho))
    exact .inl (by norm_num)

end ReceiveRing
