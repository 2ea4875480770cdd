import Mathlib.Data.Nat.Digits.Lemmas
import Mathlib.Data.UInt

/-!
# Decimal numerals

The canonical numeral of a number, and the value of any string of digits, as a fold that takes
the digits from the left.
-/
namespace DecimalNumerals

def digit (d : ℕ) : UInt8 := UInt8.ofNat (48 + d)

def IsDigit (c : UInt8) : Prop := 48 ≤ c.toNat ∧ c.toNat ≤ 57

instance (c : UInt8) : Decidable (IsDigit c) := inferInstanceAs (Decidable (_ ∧ _))

def minus : UInt8 := 45

/-- The value by the rule `r * 10 + d`, without wrap. -/
def digitsValue (text : List UInt8) : ℕ := text.foldl (fun r c => r * 10 + (c.toNat - 48)) 0

def lowDigits (n : ℕ) : List UInt8 := (Nat.digits 10 n).map digit

def numeral (n : ℕ) : List UInt8 := if n = 0 then [digit 0] else (lowDigits n).reverse

def intNumeral (n : ℤ) : List UInt8 :=
  if n < 0 then minus :: numeral n.natAbs else numeral n.natAbs

section Digits

variable {n d k : ℕ} {c : UInt8} {text : List UInt8}

theorem digit_toNat (hd : d < 10) : (digit d).toNat = 48 + d := by
  rw [digit, UInt8.toNat_ofNat']
  omega

theorem digit_isDigit (hd : d < 10) : IsDigit (digit d) := by
  rw [IsDigit, digit_toNat hd]
  omega

theorem IsDigit.ne_zero (h : IsDigit c) : c ≠ 0 := by
  rintro rfl
  exact absurd h (by decide)

theorem lowDigits_pos (hn : 0 < n) : lowDigits n = digit (n % 10) :: lowDigits (n / 10) := by
  rw [lowDigits, Nat.digits_def' (by norm_num) hn]
  rfl

theorem lowDigits_isDigit : ∀ c ∈ lowDigits n, IsDigit c := by
  intro c hc
  obtain ⟨d, hd, rfl⟩ := List.mem_map.mp hc
  exact digit_isDigit (Nat.digits_lt_base (by norm_num) hd)

theorem lowDigits_length_le (hn : n < 10 ^ k) : (lowDigits n).length ≤ k := by
  rw [lowDigits, List.length_map]
  exact (Nat.digits_length_le_iff (by norm_num) n).mpr hn

theorem digitsValue_append (text : List UInt8) (c : UInt8) :
    digitsValue (text ++ [c]) = digitsValue text * 10 + (c.toNat - 48) := by
  rw [digitsValue, List.foldl_append]
  rfl

theorem digitsValue_lowDigits (n : ℕ) : digitsValue (lowDigits n).reverse = n := by
  induction n using Nat.strongRecOn with
  | ind n ih =>
    rcases Nat.eq_zero_or_pos n with rfl | hn
    · rfl
    · have hrest := ih (n / 10) (Nat.div_lt_self hn (by norm_num))
      have hlast := digit_toNat (Nat.mod_lt n (show 0 < 10 by norm_num))
      rw [lowDigits_pos hn, List.reverse_cons, digitsValue_append, hrest, hlast]
      omega

theorem lowDigits_ne_nil (hn : n ≠ 0) : lowDigits n ≠ [] := by
  rw [lowDigits, ne_eq, List.map_eq_nil_iff]
  exact Nat.digits_ne_nil_iff_ne_zero.mpr hn

theorem numeral_isDigit (n : ℕ) : ∀ c ∈ numeral n, IsDigit c := by
  rw [numeral]
  split
  · intro c hc
    rw [List.mem_singleton.mp hc]
    exact digit_isDigit (by norm_num)
  · intro c hc
    exact lowDigits_isDigit c (List.mem_reverse.mp hc)

@[simp] theorem digitsValue_numeral (n : ℕ) : digitsValue (numeral n) = n := by
  rw [numeral]
  split
  · next h =>
    rw [h]
    rfl
  · exact digitsValue_lowDigits n

theorem numeral_length_le (hk : 0 < k) (hn : n < 10 ^ k) : (numeral n).length ≤ k := by
  rw [numeral]
  split
  · exact hk
  · rw [List.length_reverse]
    exact lowDigits_length_le hn

theorem numeral_head (hn : n ≠ 0) : (numeral n).head? ≠ some (digit 0) := by
  have hne : Nat.digits 10 n ≠ [] := Nat.digits_ne_nil_iff_ne_zero.mpr hn
  have htop := Nat.getLast_digit_ne_zero 10 hn
  have hlt : (Nat.digits 10 n).getLast hne < 10 :=
    Nat.digits_lt_base (by norm_num) (List.getLast_mem hne)
  rw [numeral, if_neg hn, List.head?_reverse, lowDigits, List.getLast?_map,
    List.getLast?_eq_some_getLast hne, Option.map_some, ne_eq, Option.some.injEq]
  intro heq
  have hval := congrArg UInt8.toNat heq
  rw [digit_toNat hlt, digit_toNat (by norm_num)] at hval
  omega

theorem numeral_ne_nil (n : ℕ) : numeral n ≠ [] := by
  rw [numeral]
  split
  · exact List.cons_ne_nil _ _
  · next h =>
    rw [ne_eq, List.reverse_eq_nil_iff]
    exact lowDigits_ne_nil h

theorem zero_notMem_intNumeral (n : ℤ) : 0 ∉ intNumeral n := by
  have hdigits : 0 ∉ numeral n.natAbs := fun h => (numeral_isDigit _ 0 h).ne_zero rfl
  rw [intNumeral]
  split
  · rw [List.mem_cons, not_or]
    exact ⟨by decide, hdigits⟩
  · exact hdigits

end Digits

end DecimalNumerals
