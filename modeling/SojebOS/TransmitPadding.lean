import Mathlib.Algebra.Order.Ring.Star
import SojebOS.Rtl8139

/-!
# What a short frame carries behind its payload

`ethernet_send_packet` fills as many bytes of its local array as the frame has, and
`rtl8139_send_packet` transmits at least 60. The rest of a shorter frame is whatever the
stack held before.
-/
namespace TransmitPadding

open ByteMemory NetworkStack Rtl8139

/-- Two sends that differ in the earlier contents of the array put the same bytes on the wire. -/
def SendsNothingElse (node : Node) (destMac : Mac) (type : ℕ) (data : Bytes) (len : ℕ) : Prop :=
  ∀ (scratch scratch' : Scratch) (ioBase currentTxDescriptor : ℕ),
    (rtl8139SendPacket ioBase currentTxDescriptor
      (ethernetSendPacket node scratch destMac type data len)).1.wire =
    (rtl8139SendPacket ioBase currentTxDescriptor
      (ethernetSendPacket node scratch' destMac type data len)).1.wire

variable {node : Node} {scratch scratch' : Scratch} {destMac : Mac} {type len i : ℕ}
  {data : Bytes}

theorem sentFrame_rest (hi : 14 + len ≤ i) :
    (ethernetSendPacket node scratch destMac type data len).data i = scratch.frame i := by
  simp only [ethernetSendPacket, ethHeaderSize]
  rw [copyIn_outside (by omega), store16_outside (by omega)]
  simp only [storeMac]
  rw [dif_neg (by omega), dif_neg (by omega)]

theorem sentFrame_written (hi : i < 14 + len) :
    (ethernetSendPacket node scratch destMac type data len).data i =
      (ethernetSendPacket node scratch' destMac type data len).data i := by
  simp only [ethernetSendPacket, ethHeaderSize, copyIn, store16, storeMac]
  by_cases hpayload : 14 ≤ i ∧ i < 14 + len
  · rw [if_pos hpayload, if_pos hpayload]
  · rw [if_neg hpayload, if_neg hpayload]
    by_cases htype : i = 12 ∨ i = 12 + 1
    · rcases htype with rfl | rfl
      · rfl
      · rfl
    · rw [not_or] at htype
      rw [if_neg htype.1, if_neg htype.2, if_neg htype.1, if_neg htype.2]
      by_cases hsrc : 6 ≤ i ∧ i < 6 + 6
      · rw [dif_pos hsrc, dif_pos hsrc]
      · have hdest : 0 ≤ i ∧ i < 0 + 6 := by omega
        rw [dif_neg hsrc, dif_neg hsrc, dif_pos hdest, dif_pos hdest]

theorem wire_eq_iff : (∀ ioBase d, (rtl8139SendPacket ioBase d
      (ethernetSendPacket node scratch destMac type data len)).1.wire =
    (rtl8139SendPacket ioBase d
      (ethernetSendPacket node scratch' destMac type data len)).1.wire) ↔
    ∀ i < transmitSize (len + 14), 14 + len ≤ i → scratch.frame i = scratch'.frame i := by
  have hwire : ∀ (s : Scratch) (ioBase d : ℕ), (rtl8139SendPacket ioBase d
      (ethernetSendPacket node s destMac type data len)).1.wire =
      (List.range (transmitSize (len + 14))).map
        (ethernetSendPacket node s destMac type data len).data := fun _ _ _ => rfl
  simp only [hwire, List.map_inj_left, List.mem_range]
  constructor
  · intro h i hi hrest
    rw [← sentFrame_rest hrest, ← sentFrame_rest hrest]
    exact h 0 0 i hi
  · intro h _ _ i hi
    by_cases hrest : 14 + len ≤ i
    · rw [sentFrame_rest hrest, sentFrame_rest hrest]
      exact h i hi hrest
    · exact sentFrame_written (by omega)

/-- The last of the 60 bytes is one that the sender did not write. -/
theorem short_sends_more (hshort : len < 46) : ¬SendsNothingElse node destMac type data len := by
  intro h
  have hsize : 59 < transmitSize (len + 14) := by
    rw [transmitSize]
    split <;> omega
  have hleft := wire_eq_iff.mp (h ⟨none, fun _ => 0⟩ ⟨none, fun _ => 1⟩) 59 hsize (by omega)
  exact absurd hleft (by decide)

/-- Nothing of the stack is transmitted exactly when the payload has the 46 bytes that fill
the shortest frame. -/
theorem sends_nothing_else_iff (node : Node) (destMac : Mac) (type : ℕ) (data : Bytes) (len : ℕ) :
    SendsNothingElse node destMac type data len ↔ 46 ≤ len := by
  constructor
  · intro h
    by_contra hshort
    exact short_sends_more (by omega) h
  · intro hlen scratch scratch'
    apply wire_eq_iff.mpr
    intro i hi hrest
    rw [transmitSize, if_neg (by omega)] at hi
    omega

/-- An ARP packet leaves 18 bytes of its frame unwritten. -/
theorem arp_sends_more :
    ¬SendsNothingElse ⟨0xC0A80A0B, by norm_num, fun _ => 0, []⟩ broadcastMac ethertypeArp
      (fun _ => 0) arpPacketSize :=
  short_sends_more (by decide)

end TransmitPadding
