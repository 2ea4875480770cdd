import SojebOS.Ipv4Delivery
import SojebOS.NetworkChecksum

/-!
# Which headers `ipv4_handle_packet` accepts

The comment in front of the routing announces a check of the checksum. Neither it nor the
version nor the least header length is looked at.
-/
namespace Ipv4Validity

open ByteMemory NetworkStack Ipv4Delivery NetworkChecksum

def version (m : Bytes) (ip : ℕ) : ℕ := (m ip).toNat / 16

/-- A header of IPv4 whose checksum is right. -/
structure ValidHeader (m : Bytes) (data : ℕ) : Prop where
  version_eq : version m data = 4
  ihl_le : 5 ≤ ihl m data
  checksum_eq : netChecksum m data (ihl m data * 4) = 0

/-- `icmp_handle` is only called for a valid header. -/
def DeliversValid (node : Node) (m : Bytes) (data len : ℕ) : Prop :=
  ∀ payload payloadLen, icmpCall node m data len = some (payload, payloadLen) → ValidHeader m data

variable {node : Node} {m : Bytes} {data len : ℕ}

/-- What passes the checks on the length, the destination, the total length and the protocol is
delivered, so that these headers have to be valid of themselves. -/
theorem delivers_valid_iff (node : Node) (m : Bytes) (data len : ℕ) :
    DeliversValid node m data len ↔
      len < ipv4HeaderSize ∨ (destIp m data ≠ node.ip ∧ destIp m data ≠ 0xFFFFFFFF) ∨
        bswap16 (totalLength m data) < ihl m data * 4 ∨ protocol m data ≠ ipv4ProtoIcmp ∨
        ValidHeader m data := by
  rw [DeliversValid, icmpCall_eq]
  by_cases haccepted : Accepted node m data len
  · obtain ⟨hlen, hdest, htotal, hproto⟩ := id haccepted
    constructor
    · intro h
      exact Or.inr (Or.inr (Or.inr (Or.inr (h _ _ (if_pos haccepted)))))
    · rintro (hshort | hother | hsmall | hnot | hvalid) payload payloadLen -
      · omega
      · exact absurd hdest (not_or.mpr hother)
      · omega
      · exact absurd hproto hnot
      · exact hvalid
  · refine iff_of_true ?_ ?_
    · intro payload payloadLen hcall
      rw [if_neg haccepted] at hcall
      cases hcall
    · by_contra hnone
      simp only [not_or, not_lt, ne_eq, not_not, not_and_or] at hnone
      obtain ⟨hlen, hdest, htotal, hproto, -⟩ := hnone
      exact haccepted ⟨hlen, hdest, htotal, hproto⟩

/-- An echo request of 8 bytes for 192.168.10.11 without a checksum. -/
def uncheckedPacket : Bytes := fun a =>
  [0x45, 0, 0, 28, 0, 0, 0, 0, 64, 1, 0, 0, 10, 0, 0, 1, 192, 168, 10, 11, 8].getD a 0

theorem unchecked_delivered : ¬ ∀ node m data len, DeliversValid node m data len := by
  intro h
  have hcall : icmpCall kernelNode uncheckedPacket 0 28 = some (20, 8) := by decide
  have hchecksum := (h _ _ _ _ _ _ hcall).checksum_eq
  rw [netChecksum_eq _ _ (by decide)] at hchecksum
  revert hchecksum
  decide

end Ipv4Validity
