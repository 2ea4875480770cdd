import SojebOS.NetworkStack

/-!
# Which bytes `ipv4_handle_packet` delivers

The range handed to `icmp_handle` follows from two header fields, the header length and
the total length. Neither is compared with the length that was received.
-/
namespace Ipv4Delivery

open ByteMemory NetworkStack

/-- What reaches `icmp_handle` lies in the received bytes, behind the fixed header. -/
def DeliversInside (node : Node) (m : Bytes) (data len : ℕ) : Prop :=
  ∀ payload payloadLen, icmpCall node m data len = some (payload, payloadLen) →
    data + ipv4HeaderSize ≤ payload ∧ payload + payloadLen ≤ data + len

/-- The packet passes every check that the code makes. -/
def Accepted (node : Node) (m : Bytes) (data len : ℕ) : Prop :=
  ipv4HeaderSize ≤ len ∧ (destIp m data = node.ip ∨ destIp m data = 0xFFFFFFFF) ∧
    ihl m data * 4 ≤ bswap16 (totalLength m data) ∧ protocol m data = ipv4ProtoIcmp

instance (node : Node) (m : Bytes) (data len : ℕ) : Decidable (Accepted node m data len) :=
  inferInstanceAs (Decidable (_ ∧ _ ∧ _ ∧ _))

variable {node : Node} {m : Bytes} {data len : ℕ}

theorem icmpCall_eq (node : Node) (m : Bytes) (data len : ℕ) :
    icmpCall node m data len = if Accepted node m data len then
      some (data + ihl m data * 4, bswap16 (totalLength m data) - ihl m data * 4) else none := by
  by_cases h : Accepted node m data len
  · obtain ⟨hlen, hdest, htotal, hproto⟩ := id h
    have hours : ¬ (destIp m data ≠ node.ip ∧ destIp m data ≠ 0xFFFFFFFF) := by tauto
    rw [if_pos h, icmpCall, if_neg (by omega), if_neg hours]
    simp only [hproto, ↓reduceIte, Nat.not_lt.mpr htotal]
  · rw [if_neg h, icmpCall]
    by_cases hlen : len < ipv4HeaderSize
    · rw [if_pos hlen]
    rw [if_neg hlen]
    by_cases hdest : destIp m data ≠ node.ip ∧ destIp m data ≠ 0xFFFFFFFF
    · rw [if_pos hdest]
    rw [if_neg hdest]
    by_cases htotal : bswap16 (totalLength m data) < ihl m data * 4
    · simp only [htotal, ↓reduceIte]
    have hproto : protocol m data ≠ ipv4ProtoIcmp := by
      intro hp
      exact h ⟨by omega, by tauto, by omega, hp⟩
    simp only [htotal, hproto, ↓reduceIte]

/-- An accepted packet is delivered from inside the received bytes exactly when its header
has at least five words and its total length is no more than was received. -/
theorem deliversInside_iff (node : Node) (m : Bytes) (data len : ℕ) :
    DeliversInside node m data len ↔
      (Accepted node m data len → 5 ≤ ihl m data ∧ bswap16 (totalLength m data) ≤ len) := by
  rw [DeliversInside, icmpCall_eq]
  constructor
  · intro h ha
    have hin := h _ _ (if_pos ha)
    have htotal := ha.2.2.1
    unfold ipv4HeaderSize at hin
    omega
  · intro h payload payloadLen hcall
    obtain ⟨ha, he⟩ := Option.ite_none_right_eq_some.mp hcall
    obtain ⟨rfl, rfl⟩ := Prod.mk.inj (Option.some.inj he)
    have hlengths := h ha
    have htotal := ha.2.2.1
    unfold ipv4HeaderSize
    omega

/-- Twenty received bytes whose header announces sixty. -/
def truncatedPacket : Bytes := fun a =>
  [0x45, 0, 0, 60, 0, 0, 0, 0, 64, 1, 0, 0, 10, 0, 0, 1, 192, 168, 10, 11].getD a 0

def kernelNode : Node :=
  ⟨192 + 168 * 2 ^ 8 + 10 * 2 ^ 16 + 11 * 2 ^ 24, by norm_num, fun _ => 0, []⟩

theorem truncated_not_inside :
    ¬ ∀ node m data len, DeliversInside node m data len := by
  intro h
  have hcall : icmpCall kernelNode truncatedPacket 0 20 = some (20, 40) := by decide
  have := h _ _ _ _ _ _ hcall
  omega

end Ipv4Delivery
