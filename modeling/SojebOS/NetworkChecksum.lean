import SojebOS.NetworkFrames
import SojebOS.OnesComplement

/-!
# The Internet checksum

`net_checksum` adds the words of a buffer as the machine reads them. On a little-endian machine
these are the words of the network with their bytes swapped, and so is the sum, which is swapped
back when it is stored.
-/
namespace NetworkChecksum

open ByteMemory MachineWord NetworkStack NetworkFrames OnesComplement

/-- The words as the machine reads them, and an odd last byte. -/
def nativeWords (m : Bytes) : ℕ → ℕ → List ℕ
  | data, length + 2 => load16 m data :: nativeWords m (data + 2) length
  | data, 1 => [(m data).toNat]
  | _, 0 => []

/-- The big-endian words; an odd last byte has a zero on its right. -/
def networkWords (m : Bytes) : ℕ → ℕ → List ℕ
  | data, length + 2 =>
    ((m data).toNat * 256 + (m (data + 1)).toNat) :: networkWords m (data + 2) length
  | data, 1 => [(m data).toNat * 256]
  | _, 0 => []

/-- The checksum of RFC 1071: the complement of the one's complement sum. -/
def internetChecksum (words : List ℕ) : ℕ := 0xFFFF - onesSum 0xFFFF words

/-- None of the additions to `sum` reaches 2^32. -/
def SumsFit (m : Bytes) : ℕ → ℕ → ℕ → Prop
  | data, length + 2, sum =>
    sum + load16 m data < 2 ^ 32 ∧ SumsFit m (data + 2) length (u32 (sum + load16 m data))
  | data, 1, sum => sum + (m data).toNat < 2 ^ 32
  | _, 0, _ => True

structure IsInternetChecksum (m : Bytes) (vdata length : ℕ) : Prop where
  fits : SumsFit m vdata length 0
  folds : ∀ sum < 2 ^ 32, (sum &&& 0xFFFF) + (sum >>> 16) < 2 ^ 32
  stored : ∀ dest a,
    store16 dest a (netChecksum m vdata length) a =
        UInt8.ofNat (internetChecksum (networkWords m vdata length) / 256) ∧
      store16 dest a (netChecksum m vdata length) (a + 1) =
        UInt8.ofNat (internetChecksum (networkWords m vdata length))
  verifies : ∀ pos, pos % 2 = 0 → pos + 2 ≤ length →
    let cleared := store16 m (vdata + pos) 0
    netChecksum (store16 cleared (vdata + pos) (netChecksum cleared vdata length)) vdata length = 0

section Sums

variable {m m' : Bytes} {data length sum pos v : ℕ}

theorem nativeWords_le : ∀ x ∈ nativeWords m data length, x ≤ 0xFFFF := by
  fun_induction nativeWords m data length with
  | case1 data length ih =>
    intro x hx
    rcases List.mem_cons.mp hx with rfl | hx
    · exact Nat.le_of_lt_succ (load16_lt m data)
    · exact ih x hx
  | case2 data =>
    intro x hx
    have hlt := (m data).toNat_lt
    rw [List.mem_singleton.mp hx]
    omega
  | case3 => exact fun x hx => absurd hx List.not_mem_nil

theorem nativeWords_sum_le (m : Bytes) (data length : ℕ) :
    (nativeWords m data length).sum ≤ 0xFFFF * ((length + 1) / 2) := by
  fun_induction nativeWords m data length with
  | case1 data length ih =>
    have hlt := load16_lt m data
    rw [List.sum_cons]
    omega
  | case2 data =>
    have hlt := (m data).toNat_lt
    rw [List.sum_singleton]
    omega
  | case3 => exact Nat.zero_le _

theorem networkWords_eq (m : Bytes) (data length : ℕ) :
    networkWords m data length = (nativeWords m data length).map bswap16 := by
  fun_induction nativeWords m data length with
  | case1 data length ih =>
    have hlow := (m data).toNat_lt
    have hhigh := (m (data + 1)).toNat_lt
    have hword : (m data).toNat * 256 + (m (data + 1)).toNat = bswap16 (load16 m data) := by
      unfold bswap16 load16
      omega
    rw [networkWords, List.map_cons, ih, hword]
  | case2 data =>
    have hlow := (m data).toNat_lt
    have hword : (m data).toNat * 256 = bswap16 (m data).toNat := by
      unfold bswap16
      omega
    rw [networkWords, List.map_singleton, hword]
  | case3 => rfl

theorem sumWords_fits (h : sum + (nativeWords m data length).sum < 2 ^ 32) :
    SumsFit m data length sum ∧
      sumWords m data length sum = sum + (nativeWords m data length).sum := by
  fun_induction sumWords m data length sum with
  | case1 data length sum ih =>
    rw [nativeWords, List.sum_cons, ← Nat.add_assoc] at h ⊢
    have hword : u32 (sum + load16 m data) = sum + load16 m data := u32_of_lt (by omega)
    rw [hword] at ih
    obtain ⟨hfits, hsum⟩ := ih h
    rw [← hword] at hfits
    refine ⟨⟨by omega, hfits⟩, ?_⟩
    rw [hword]
    exact hsum
  | case2 data sum =>
    rw [nativeWords, List.sum_singleton] at h ⊢
    exact ⟨h, u32_of_lt h⟩
  | case3 => exact ⟨trivial, rfl⟩

theorem nativeWords_congr {a b : ℕ} (h : ∀ i < length, m' (a + i) = m (b + i)) :
    nativeWords m' a length = nativeWords m b length := by
  fun_induction nativeWords m b length generalizing a with
  | case1 b length ih =>
    have hword : load16 m' a = load16 m b := by
      unfold load16
      rw [← Nat.add_zero a, ← Nat.add_zero b, h 0 (by omega), Nat.add_assoc, Nat.add_assoc,
        h (0 + 1) (by omega)]
    have hrest : nativeWords m' (a + 2) length = nativeWords m (b + 2) length := by
      apply ih
      intro i hi
      rw [Nat.add_assoc, Nat.add_assoc]
      exact h (2 + i) (by omega)
    rw [nativeWords, hword, hrest]
  | case2 b =>
    have hbyte : m' a = m b := h 0 Nat.one_pos
    rw [nativeWords, hbyte]
  | case3 => rfl

/-- A word stored at an even position takes the place of the word that was there. -/
theorem nativeWords_store (heven : pos % 2 = 0) (hpos : pos + 2 ≤ length) (hv : v < 2 ^ 16) :
    (nativeWords (store16 m (data + pos) v) data length).sum + load16 m (data + pos) =
      (nativeWords m data length).sum + v := by
  fun_induction nativeWords m data length generalizing pos with
  | case1 data length ih =>
    rw [nativeWords, List.sum_cons, List.sum_cons]
    by_cases hzero : pos = 0
    · have hrest : nativeWords (store16 m data v) (data + 2) length =
          nativeWords m (data + 2) length :=
        nativeWords_congr fun i _ => store16_outside (Or.inr (Nat.le_add_right _ i))
      rw [hzero, Nat.add_zero, load16_store16 hv, hrest]
      omega
    · have hback : data + 2 + (pos - 2) = data + pos := by omega
      have hrest := ih (show (pos - 2) % 2 = 0 by omega) (by omega)
      rw [hback] at hrest
      rw [load16_store16_apart (by omega)]
      omega
  | case2 => omega
  | case3 => omega

end Sums

section Checksums

variable {m : Bytes} {vdata length : ℕ}

theorem foldCarries_eq (sum : ℕ) : foldCarries sum = residue 0xFFFF sum := by
  fun_induction foldCarries sum with
  | case1 sum h =>
    rw [Nat.shiftRight_eq_div_pow] at h
    exact (residue_self (by omega)).symm
  | case2 sum h ih =>
    have hround : (sum &&& 0xFFFF) + (sum >>> 16) = carryAround 0xFFFF sum := by
      rw [show (0xFFFF : ℕ) = 2 ^ 16 - 1 by norm_num, and_low_mask, Nat.shiftRight_eq_div_pow]
      rfl
    rw [ih, hround]
    exact residue_congr (by norm_num) (carryAround_modEq _ _) carryAround_eq_zero

theorem fold_fits {sum : ℕ} (h : sum < 2 ^ 32) : (sum &&& 0xFFFF) + (sum >>> 16) < 2 ^ 32 := by
  rw [show (0xFFFF : ℕ) = 2 ^ 16 - 1 by norm_num, and_low_mask, Nat.shiftRight_eq_div_pow]
  omega

theorem nativeWords_fit (m : Bytes) (vdata : ℕ) (h : length ≤ 131072) :
    0 + (nativeWords m vdata length).sum < 2 ^ 32 := by
  have hle := nativeWords_sum_le m vdata length
  omega

theorem netChecksum_eq (m : Bytes) (vdata : ℕ) (h : length ≤ 131072) :
    netChecksum m vdata length = 0xFFFF - residue 0xFFFF (nativeWords m vdata length).sum := by
  have hle : residue 0xFFFF (nativeWords m vdata length).sum ≤ 0xFFFF :=
    residue_le (by norm_num) _
  rw [netChecksum, (sumWords_fits (nativeWords_fit m vdata h)).2, Nat.zero_add, foldCarries_eq,
    Nat.mod_eq_of_lt (by omega)]

theorem netChecksum_congr {m' : Bytes} {a b : ℕ} (hlength : length ≤ 131072)
    (h : ∀ i < length, m' (a + i) = m (b + i)) :
    netChecksum m' a length = netChecksum m b length := by
  rw [netChecksum_eq m' a hlength, netChecksum_eq m b hlength, nativeWords_congr h]

theorem bswap16_modEq {x : ℕ} (h : x ≤ 0xFFFF) : bswap16 x ≡ 256 * x [MOD 0xFFFF] := by
  have hsplit : 256 * x = bswap16 x + 0xFFFF * (x / 256) := by
    unfold bswap16
    omega
  rw [hsplit, Nat.ModEq, Nat.add_mul_mod_self_left]

theorem bswap16_eq_zero {x : ℕ} (h : x ≤ 0xFFFF) : bswap16 x = 0 ↔ x = 0 := by
  unfold bswap16
  omega

theorem internetChecksum_eq (m : Bytes) (vdata : ℕ) (h : length ≤ 131072) :
    internetChecksum (networkWords m vdata length) = bswap16 (netChecksum m vdata length) := by
  have hle : residue 0xFFFF (nativeWords m vdata length).sum ≤ 0xFFFF :=
    residue_le (by norm_num) _
  have hswapped : ∀ x ∈ (nativeWords m vdata length).map bswap16, x ≤ 0xFFFF := by
    intro x hx
    obtain ⟨y, -, rfl⟩ := List.mem_map.mp hx
    exact Nat.le_of_lt_succ (bswap16_lt y)
  rw [internetChecksum, networkWords_eq, onesSum_eq_residue (by norm_num) hswapped,
    residue_sum_map (by norm_num) (fun x _ => Nat.le_of_lt_succ (bswap16_lt x))
      (fun x hx => bswap16_modEq hx) (fun x hx => bswap16_eq_zero hx) nativeWords_le,
    netChecksum_eq m vdata h]
  generalize residue 0xFFFF (nativeWords m vdata length).sum = x at hle
  unfold bswap16
  omega

theorem netChecksum_verifies (m : Bytes) (vdata pos : ℕ) (h : length ≤ 131072)
    (heven : pos % 2 = 0) (hpos : pos + 2 ≤ length) (hclear : load16 m (vdata + pos) = 0) :
    netChecksum (store16 m (vdata + pos) (netChecksum m vdata length)) vdata length = 0 := by
  have hsum : (nativeWords (store16 m (vdata + pos) (netChecksum m vdata length)) vdata
      length).sum = (nativeWords m vdata length).sum + netChecksum m vdata length := by
    have hlt : netChecksum m vdata length < 2 ^ 16 := by
      unfold netChecksum
      omega
    rw [← nativeWords_store heven hpos hlt, hclear, Nat.add_zero]
  rw [netChecksum_eq _ _ h, hsum, netChecksum_eq m vdata h,
    residue_add_complement (by norm_num), Nat.sub_self]

end Checksums

/-- `net_checksum` is the Internet checksum, and a checksum in place verifies. -/
theorem netChecksum_isInternetChecksum (m : Bytes) (vdata : ℕ) {length : ℕ}
    (h : length ≤ 131072) : IsInternetChecksum m vdata length := by
  constructor
  · exact (sumWords_fits (nativeWords_fit m vdata h)).1
  · exact fun sum hsum => fold_fits hsum
  · intro dest a
    have hlt : netChecksum m vdata length < 2 ^ 16 := by
      unfold netChecksum
      omega
    rw [internetChecksum_eq m vdata h]
    generalize netChecksum m vdata length = x at hlt
    have hhigh : bswap16 x / 256 = x % 256 := by
      unfold bswap16
      omega
    have hlow : bswap16 x % 256 = x / 256 := by
      unfold bswap16
      omega
    simp only [store16, ↓reduceIte, show a + 1 ≠ a by omega]
    constructor
    · apply UInt8.toNat_inj.mp
      rw [hhigh, UInt8.toNat_ofNat', UInt8.toNat_ofNat', Nat.mod_mod]
    · apply UInt8.toNat_inj.mp
      rw [UInt8.toNat_ofNat', UInt8.toNat_ofNat', ← hlow, Nat.mod_mod]
  · intro pos heven hpos
    exact netChecksum_verifies _ vdata pos h heven hpos (load16_store16 (by norm_num))

/-- Three bytes, the last one without a partner. -/
theorem netChecksum_isInternetChecksum_odd :
    IsInternetChecksum (fun x => [0x12, 0x34, 0xFF].getD x 0) 0 3 :=
  netChecksum_isInternetChecksum _ 0 (by norm_num)

end NetworkChecksum
