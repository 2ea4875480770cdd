import SojebOS.CStrings

/-!
# Addresses in dotted notation

`parse_ip` cuts the string at its dots while it reads it: each round ends the next number with a
terminator, and the last one finds no dot and stays where it is.
-/
namespace IpText

open ByteMemory MachineWord DecimalNumerals CStrings

def dot : UInt8 := 46

/-- `MAKE_IP`. -/
def makeIp (a b c d : ℕ) : ℕ := u32 (a ||| b <<< 8 ||| c <<< 16 ||| d <<< 24)

/-- A round of `parse_ip` on the memory, the pointer `ip` and the result so far. -/
def parseIpRound : Bytes × ℕ × ℕ → ℕ → Option (Bytes × ℕ × ℕ)
  | (m, ip, res), i => do
    let found ← strchr m ip dot
    let m := match found with
      | some p => store8 m p 0
      | none => m
    let val ← atoi m ip
    let res := res ||| u32 (val.toUInt32.toNat <<< (i * 8))
    let ip := match found with
      | some p => p + 1
      | none => ip
    return (m, ip, res)

/-- The memory after the call and the result. -/
def parseIp (m : Bytes) (ip : ℕ) : Option (Bytes × ℕ) :=
  ((List.range 4).foldlM parseIpRound (m, ip, 0)).map fun (m, _, res) => (m, res)

/-- A decimal numeral of a byte, with any number of leading zeros. -/
structure IsOctet (text : List UInt8) (value : ℕ) : Prop where
  nonempty : text ≠ []
  digits : ∀ c ∈ text, IsDigit c
  value_eq : digitsValue text = value
  value_le : value ≤ 255

section Rounds

variable {m : Bytes} {ip res value i : ℕ} {text rest : List UInt8}

theorem IsOctet.zero_notMem (h : IsOctet text value) : 0 ∉ text :=
  fun hmem => (h.digits 0 hmem).ne_zero rfl

theorem IsOctet.dot_notMem (h : IsOctet text value) : dot ∉ text :=
  fun hmem => absurd (h.digits dot hmem) (by decide)

theorem IsOctet.word (h : IsOctet text value) (hi : i < 4) :
    u32 ((Int32.ofNat (digitsValue text)).toUInt32.toNat <<< (i * 8)) = value <<< (i * 8) := by
  have hle := h.value_le
  have hword : (Int32.ofNat value).toUInt32.toNat = value := by
    change value % 2 ^ 32 = value
    omega
  have hpow : 2 ^ (i * 8) ≤ 2 ^ 24 := Nat.pow_le_pow_right (by norm_num) (by omega)
  have hshift : value * 2 ^ (i * 8) ≤ 255 * 2 ^ 24 := Nat.mul_le_mul hle hpow
  rw [h.value_eq, hword, Nat.shiftLeft_eq]
  exact u32_of_lt (by omega)

theorem atoi_octet (h : IsOctet text value) {c : UInt8} (hc : ¬IsDigit c)
    (htext : TextAt m ip (text ++ [c])) (hlen : text.length < wordCount) :
    atoi m ip = some (Int32.ofNat (digitsValue text)) :=
  atoi_digits htext h.digits hc hlen

theorem parseIpRound_dot (h : IsOctet text value) (hi : i < 4)
    (htext : TextAt m ip (text ++ dot :: rest)) (hlen : text.length < wordCount) :
    parseIpRound (m, ip, res) i =
      some (store8 m (ip + text.length) 0, ip + text.length + 1, res ||| value <<< (i * 8)) := by
  obtain ⟨hchars, hdot, -⟩ := textAt_append.mp htext
  have hfound : strchr m ip dot = some (some (ip + text.length)) :=
    strchr_found (textAt_append.mpr ⟨hchars, hdot, trivial⟩) h.zero_notMem h.dot_notMem
      (by decide) hlen
  have hcut : TextAt (store8 m (ip + text.length) 0) ip (text ++ [0]) := by
    refine textAt_append.mpr ⟨hchars.congr fun x _ hx => store8_other (by omega), ?_, trivial⟩
    exact store8_same m _ 0
  have hval := atoi_octet h (by decide) hcut hlen
  simp only [parseIpRound, hfound, hval, Option.bind_eq_bind, Option.bind_some, h.word hi]
  rfl

theorem parseIpRound_last (h : IsOctet text value) (hi : i < 4) (htext : StringAt m ip text)
    (hlen : text.length < wordCount) :
    parseIpRound (m, ip, res) i = some (m, ip, res ||| value <<< (i * 8)) := by
  have hfound : strchr m ip dot = some none :=
    strchr_absent htext h.zero_notMem h.dot_notMem hlen
  have hval := atoi_octet h (by decide) htext hlen
  simp only [parseIpRound, hfound, hval, Option.bind_eq_bind, Option.bind_some, h.word hi]
  rfl

theorem behind_dot (htext : TextAt m ip (text ++ dot :: rest)) :
    TextAt (store8 m (ip + text.length) 0) (ip + text.length + 1) rest := by
  obtain ⟨-, -, hrest⟩ := textAt_append.mp htext
  exact hrest.congr fun x hx _ => store8_other (by omega)

theorem or_shiftLeft {x v k : ℕ} (hx : x < 2 ^ k) : x ||| v <<< k = x + v * 2 ^ k := by
  rw [Nat.or_comm, shiftLeft_or_eq_add hx, Nat.add_comm]

theorem octets_joined {a b c d : ℕ} (ha : a ≤ 255) (hb : b ≤ 255) (hc : c ≤ 255) :
    a ||| b <<< 8 ||| c <<< 16 ||| d <<< 24 = a + b * 2 ^ 8 + c * 2 ^ 16 + d * 2 ^ 24 := by
  rw [or_shiftLeft (x := a) (by omega), or_shiftLeft (x := a + b * 2 ^ 8) (by omega),
    or_shiftLeft (by omega)]

end Rounds

/-- Four numerals of bytes with dots between them are read as the address that `MAKE_IP` makes of
their values, and only the dots are overwritten. -/
theorem parse_ip_dotted_quad (m : Bytes) (ip : ℕ) {ta tb tc td : List UInt8} {a b c d : ℕ}
    (ha : IsOctet ta a) (hb : IsOctet tb b) (hc : IsOctet tc c) (hd : IsOctet td d)
    (htext : StringAt m ip (ta ++ dot :: (tb ++ dot :: (tc ++ dot :: td))))
    (hfit : ip + (ta ++ dot :: (tb ++ dot :: (tc ++ dot :: td))).length < 2 ^ 32) :
    ∃ m', parseIp m ip = some (m', a + b * 2 ^ 8 + c * 2 ^ 16 + d * 2 ^ 24) ∧
      a + b * 2 ^ 8 + c * 2 ^ 16 + d * 2 ^ 24 = makeIp a b c d ∧
      ∀ x, m' x = if x = ip + ta.length ∨ x = ip + ta.length + 1 + tb.length ∨
        x = ip + ta.length + 1 + tb.length + 1 + tc.length then 0 else m x := by
  have hla := ha.value_le
  have hlb := hb.value_le
  have hlc := hc.value_le
  have hld := hd.value_le
  have hwords : wordCount = 2 ^ 32 := rfl
  simp only [List.length_append, List.length_cons] at hfit
  simp only [StringAt, List.append_assoc, List.cons_append] at htext
  have htb := behind_dot htext
  have htc := behind_dot htb
  have htd := behind_dot htc
  have hrange : List.range 4 = [0, 1, 2, 3] := rfl
  have hrounds : (List.range 4).foldlM parseIpRound (m, ip, 0) =
      some (store8 (store8 (store8 m (ip + ta.length) 0) (ip + ta.length + 1 + tb.length) 0)
        (ip + ta.length + 1 + tb.length + 1 + tc.length) 0,
        ip + ta.length + 1 + tb.length + 1 + tc.length + 1,
        a ||| b <<< 8 ||| c <<< 16 ||| d <<< 24) := by
    have hzero : 0 ||| a <<< (0 * 8) = a := by
      rw [Nat.zero_or, Nat.zero_mul, Nat.shiftLeft_zero]
    simp only [hrange, List.foldlM_cons, List.foldlM_nil, Option.bind_eq_bind]
    rw [parseIpRound_dot ha (by norm_num) htext (by omega), Option.bind_some,
      parseIpRound_dot hb (by norm_num) htb (by omega), Option.bind_some,
      parseIpRound_dot hc (by norm_num) htc (by omega), Option.bind_some,
      parseIpRound_last hd (by norm_num) htd (by omega), Option.bind_some, hzero]
    rfl
  have hsum : a + b * 2 ^ 8 + c * 2 ^ 16 + d * 2 ^ 24 = makeIp a b c d := by
    rw [makeIp, octets_joined hla hlb hlc, u32_of_lt (by omega)]
  generalize hcut : store8 _ (ip + ta.length + 1 + tb.length + 1 + tc.length) 0 = cut at hrounds
  refine ⟨cut, ?_, hsum, fun x => ?_⟩
  · rw [parseIp, hrounds, Option.map_some, octets_joined hla hlb hlc]
  · rw [← hcut]
    simp only [store8]
    split_ifs <;> first | rfl | omega

/-- `"10.0.2.015"`. -/
def guestAddress : Bytes := fun x =>
  [0x31, 0x30, dot, 0x30, dot, 0x32, dot, 0x30, 0x31, 0x35].getD x 0

theorem parse_ip_dotted_quad_guest :
    ∃ m', parseIp guestAddress 0 = some (m', 10 + 0 * 2 ^ 8 + 2 * 2 ^ 16 + 15 * 2 ^ 24) ∧
      10 + 0 * 2 ^ 8 + 2 * 2 ^ 16 + 15 * 2 ^ 24 = makeIp 10 0 2 15 ∧
      ∀ x, m' x = if x = 0 + 2 ∨ x = 0 + 2 + 1 + 1 ∨ x = 0 + 2 + 1 + 1 + 1 + 1 then 0
        else guestAddress x :=
  have ha : IsOctet [0x31, 0x30] 10 := ⟨by decide, by simp [IsDigit], by decide, by decide⟩
  have hb : IsOctet [0x30] 0 := ⟨by decide, by simp [IsDigit], by decide, by decide⟩
  have hc : IsOctet [0x32] 2 := ⟨by decide, by simp [IsDigit], by decide, by decide⟩
  have hd : IsOctet [0x30, 0x31, 0x35] 15 := ⟨by decide, by simp [IsDigit], by decide, by decide⟩
  have htext : StringAt guestAddress 0 ([0x31, 0x30] ++ dot :: ([0x30] ++ dot :: ([0x32] ++
      dot :: [0x30, 0x31, 0x35]))) :=
    ⟨rfl, rfl, rfl, rfl, rfl, rfl, rfl, rfl, rfl, rfl, rfl, trivial⟩
  parse_ip_dotted_quad guestAddress 0 ha hb hc hd htext (by norm_num)

end IpText
