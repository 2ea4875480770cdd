import SojebOS.CStrings

/-!
# The decimal printers

`itoa`, `"%d"` of `console_printf` and the calculator write the digits of a number lowest first.
`itoa` then reverses them in place, the others print them backwards. They differ in how they make
the number positive: in `itoa` it is unsigned.
-/
namespace DecimalPrinters

open ByteMemory MachineWord DecimalNumerals CStrings

/-- `while (num > 0) { str[i++] = (num % 10) + '0'; num /= 10; }`, and the last `i`. -/
def digitLoop (num : ℕ) (m : Bytes) (str i : ℕ) : Bytes × ℕ :=
  if num = 0 then (m, i)
  else digitLoop (num / 10) (store8 m (str + i) (digit (num % 10))) str (i + 1)

/-- `while (start < end)` of `itoa`. -/
def reverseLoop (m : Bytes) (str start last : ℕ) : Bytes :=
  if start < last then
    let temp := m (str + start)
    let m := store8 m (str + start) (m (str + last))
    reverseLoop (store8 m (str + last) temp) str (start + 1) (last - 1)
  else m
termination_by last - start

def itoa (m : Bytes) (num : Int32) (str : ℕ) : Bytes :=
  if num = 0 then store8 (store8 m str (digit 0)) (str + 1) 0
  else
    let (m, i) :=
      if num < 0 then
        let (m, i) := digitLoop (-num).toUInt32.toNat m str 0
        (store8 m (str + i) minus, i + 1)
      else digitLoop num.toInt.toNat m str 0
    let m := store8 m (str + i) 0
    reverseLoop m str 0 (i - 1)

/-- `while (j--) console_putchar(buf[j]);` -/
def printBackwards (buf : Bytes) : ℕ → List UInt8
  | 0 => []
  | j + 1 => buf j :: printBackwards buf j

def positivePart (num : Int32) : ℕ := (if num < 0 then -num else num).toInt.toNat

/-- The characters that the two printers put on the screen, with `buf` on the stack. -/
def printInt (buf : Bytes) (num : Int32) : List UInt8 :=
  if num = 0 then [digit 0]
  else
    let sign := if num < 0 then [minus] else []
    let (buf, j) := digitLoop (positivePart num) buf 0 0
    sign ++ printBackwards buf j

/-- What `calculator_app` prints for a result. -/
def calculatorPrint (buf : Bytes) (result : Int32) : List UInt8 := printInt buf result

inductive Arg where
  | string (str : List UInt8)
  | int (num : Int32)

/-- `none` where an argument is missing or of another type, and where a `%` ends the format and
the loop runs past the terminator. -/
def consolePrintf (buf : Bytes) : List UInt8 → List Arg → Option (List UInt8)
  | [], _ => some []
  | 37 :: 115 :: fmt, .string str :: args => (consolePrintf buf fmt args).map (str ++ ·)
  | 37 :: 99 :: fmt, .int c :: args =>
    (consolePrintf buf fmt args).map (UInt8.ofNat c.toUInt32.toNat :: ·)
  | 37 :: 100 :: fmt, .int num :: args => (consolePrintf buf fmt args).map (printInt buf num ++ ·)
  | [37], _ => none
  | 37 :: c :: fmt, args =>
    if c = 115 ∨ c = 99 ∨ c = 100 then none
    else (consolePrintf buf fmt args).map fun text => 37 :: c :: text
  | c :: fmt, args => (consolePrintf buf fmt args).map (c :: ·)

/-- The three printers give the numeral of `n`, in buffers of 16 bytes. -/
structure PrintersAgree (n : Int32) : Prop where
  printf : ∀ buf, consolePrintf buf [37, 100] [.int n] = some (intNumeral n.toInt)
  calculator : ∀ buf, calculatorPrint buf n = intNumeral n.toInt
  itoa : ∀ m str, StringAt (itoa m n str) str (intNumeral n.toInt)
  printFits : ∀ buf, (digitLoop (positivePart n) buf 0 0).2 ≤ 16
  itoaFits : ∀ m str x, x < str ∨ str + 16 ≤ x → DecimalPrinters.itoa m n str x = m x

section Loops

variable {m : Bytes} {num str i start last x k : ℕ} {text : List UInt8}

/-- The loop writes the digits lowest first. -/
theorem digitLoop_spec (num : ℕ) (m : Bytes) (str i : ℕ) :
    TextAt (digitLoop num m str i).1 (str + i) (lowDigits num) ∧
      (digitLoop num m str i).2 = i + (lowDigits num).length ∧
      ∀ x, x < str + i ∨ str + i + (lowDigits num).length ≤ x →
        (digitLoop num m str i).1 x = m x := by
  fun_induction digitLoop num m str i with
  | case1 m i => exact ⟨trivial, rfl, fun _ _ => rfl⟩
  | case2 num m i hnum ih =>
    obtain ⟨htext, hlast, hother⟩ := ih
    rw [lowDigits_pos (Nat.pos_of_ne_zero hnum), List.length_cons]
    refine ⟨⟨?_, htext⟩, by omega, fun x hx => ?_⟩
    · rw [hother _ (Or.inl (by omega))]
      exact store8_same _ _ _
    · rw [hother x (by omega)]
      exact store8_other (by omega)

/-- The two indices meet in the middle, and the characters between them are turned around. -/
theorem reverseLoop_spec (m : Bytes) (str start last : ℕ) :
    (∀ i, start ≤ i → i ≤ last →
      reverseLoop m str start last (str + i) = m (str + (start + last - i))) ∧
      ∀ x, x < str + start ∨ str + last < x → reverseLoop m str start last x = m x := by
  fun_induction reverseLoop m str start last with
  | case1 m start last hlt temp m' ih =>
    obtain ⟨hinside, hother⟩ := ih
    constructor
    · intro i hi hi'
      by_cases hfirst : i = start
      · rw [hother _ (Or.inl (by omega)), store8_other (by omega), hfirst]
        exact (store8_same _ _ _).trans (congrArg m (by omega))
      by_cases hend : i = last
      · rw [hother _ (Or.inr (by omega)), hend]
        exact (store8_same _ _ _).trans (congrArg m (by omega))
      · rw [hinside i (by omega) (by omega), store8_other (by omega)]
        exact (store8_other (by omega)).trans (congrArg m (by omega))
    · intro x hx
      rw [hother x (by omega), store8_other (by omega)]
      exact store8_other (by omega)
  | case2 m start last hlt =>
    constructor
    · intro i hi hi'
      exact congrArg m (by omega)
    · exact fun x _ => rfl

theorem reverseLoop_text (h : TextAt m str text) (hne : text ≠ []) :
    TextAt (reverseLoop m str 0 (text.length - 1)) str text.reverse := by
  have hpos := List.length_pos_of_ne_nil hne
  rw [textAt_iff] at h ⊢
  intro i hi
  rw [List.length_reverse] at hi
  rw [(reverseLoop_spec m str 0 (text.length - 1)).1 i (Nat.zero_le i) (by omega),
    List.getElem_reverse, Nat.zero_add]
  exact h _ (by omega)

theorem printBackwards_text (h : TextAt m 0 text) :
    printBackwards m text.length = text.reverse := by
  induction text using List.reverseRecOn with
  | nil => rfl
  | append_singleton text c ih =>
    obtain ⟨htext, hc, -⟩ := textAt_append.mp h
    rw [List.length_append, List.length_singleton, printBackwards, ih htext, ← Nat.zero_add
      text.length, hc, List.reverse_append]
    rfl

theorem terminate_reverse (h : TextAt m str text) (hne : text ≠ []) :
    StringAt (reverseLoop (store8 m (str + text.length) 0) str 0 (text.length - 1)) str
        text.reverse ∧
      ∀ x, x < str ∨ str + text.length < x →
        reverseLoop (store8 m (str + text.length) 0) str 0 (text.length - 1) x = m x := by
  have hpos := List.length_pos_of_ne_nil hne
  have hkept : TextAt (store8 m (str + text.length) 0) str text :=
    h.congr fun x _ hx => store8_other (by omega)
  have hother := (reverseLoop_spec (store8 m (str + text.length) 0) str 0 (text.length - 1)).2
  refine ⟨textAt_append.mpr ⟨reverseLoop_text hkept hne, ?_, trivial⟩, fun x hx => ?_⟩
  · rw [List.length_reverse, hother _ (Or.inr (by omega))]
    exact store8_same _ _ _
  · rw [hother x (by omega)]
    exact store8_other (by omega)

end Loops

section Signs

variable {n : Int32}

theorem lt_zero_iff : n < 0 ↔ n.toInt < 0 := Int32.lt_iff_toInt_lt

theorem unsigned_magnitude (h : n < 0) : (-n).toUInt32.toNat = n.toInt.natAbs := by
  have hneg := lt_zero_iff.mp h
  have hge := n.le_toInt
  have hmod : n.toInt = ((n.toUInt32.toNat : ℤ)).bmod (2 ^ 32) :=
    BitVec.toInt_eq_toNat_bmod n.toBitVec
  have hlt := n.toUInt32.toNat_lt
  have hflip : (-n).toUInt32.toNat = (2 ^ 32 - n.toUInt32.toNat) % 2 ^ 32 := by
    rw [Int32.toUInt32_neg, UInt32.toNat_neg]
    rfl
  rw [hflip]
  rw [Int.bmod] at hmod
  split at hmod <;> omega

/-- The least number stays negative, and the loops of the printers do not run. -/
theorem positivePart_minValue : positivePart Int32.minValue = 0 := by decide

theorem positivePart_eq (h : n ≠ Int32.minValue) : positivePart n = n.toInt.natAbs := by
  have hne : n.toInt ≠ -2 ^ 31 :=
    fun he => h (Int32.toInt_inj.mp (he.trans Int32.toInt_minValue.symm))
  have hge := n.le_toInt
  have hlt := n.toInt_lt
  unfold positivePart
  split
  · next hneg =>
    have hneg := lt_zero_iff.mp hneg
    have hflip : (-n).toInt = -n.toInt := by
      rw [Int32.toInt_neg]
      exact Int.bmod_eq_of_le (by omega) (by omega)
    rw [hflip]
    omega
  · next hpos =>
    have hpos : 0 ≤ n.toInt := Int.not_lt.mp (mt lt_zero_iff.mpr hpos)
    omega

theorem magnitude_digits (n : Int32) : (lowDigits n.toInt.natAbs).length ≤ 10 := by
  have hge := n.le_toInt
  have hlt := n.toInt_lt
  apply lowDigits_length_le
  omega

theorem toInt_eq_zero : n.toInt = 0 ↔ n = 0 := by
  rw [← Int32.toInt_inj]
  rfl

end Signs

section Printers

variable {m buf : Bytes} {str x : ℕ} {n : Int32}

theorem natAbs_ne_zero (hzero : n ≠ 0) : n.toInt.natAbs ≠ 0 :=
  fun h => hzero (toInt_eq_zero.mp (Int.natAbs_eq_zero.mp h))

theorem itoa_negative (m : Bytes) (str : ℕ) (hneg : n < 0) :
    StringAt (itoa m n str) str (intNumeral n.toInt) ∧
      ∀ x, x < str ∨ str + 12 ≤ x → itoa m n str x = m x := by
  have hdigits := magnitude_digits n
  have hzero : n ≠ 0 := by
    rintro rfl
    exact absurd hneg (by decide)
  obtain ⟨htext, hlast, hother⟩ := digitLoop_spec n.toInt.natAbs m str 0
  rw [Nat.zero_add] at hlast
  rw [Nat.add_zero] at htext hother
  have hsigned : TextAt (store8 (digitLoop n.toInt.natAbs m str 0).1
      (str + (lowDigits n.toInt.natAbs).length) minus) str
      (lowDigits n.toInt.natAbs ++ [minus]) := by
    refine textAt_append.mpr ⟨htext.congr fun x _ hx => store8_other (by omega), ?_, trivial⟩
    exact store8_same _ _ _
  have hdone := terminate_reverse hsigned (by simp)
  rw [List.length_append, List.length_singleton, Nat.add_sub_cancel, List.reverse_append]
    at hdone
  have hnumeral : intNumeral n.toInt = [minus].reverse ++ (lowDigits n.toInt.natAbs).reverse := by
    rw [intNumeral, if_pos (lt_zero_iff.mp hneg), numeral, if_neg (natAbs_ne_zero hzero)]
    rfl
  simp only [itoa, hzero, hneg, if_true, if_false, unsigned_magnitude hneg, hlast,
    Nat.add_sub_cancel]
  refine ⟨hnumeral ▸ hdone.1, fun x hx => ?_⟩
  rw [hdone.2 x (by omega), store8_other (by omega), hother x (by omega)]

theorem itoa_positive (m : Bytes) (str : ℕ) (hzero : n ≠ 0) (hneg : ¬n < 0) :
    StringAt (itoa m n str) str (intNumeral n.toInt) ∧
      ∀ x, x < str ∨ str + 12 ≤ x → itoa m n str x = m x := by
  have hdigits := magnitude_digits n
  obtain ⟨htext, hlast, hother⟩ := digitLoop_spec n.toInt.toNat m str 0
  have hpos : 0 ≤ n.toInt := Int.not_lt.mp (mt lt_zero_iff.mpr hneg)
  have habs : n.toInt.toNat = n.toInt.natAbs := by omega
  rw [Nat.zero_add] at hlast
  rw [Nat.add_zero] at htext hother
  rw [habs] at htext hlast hother
  have hdone := terminate_reverse htext (lowDigits_ne_nil (natAbs_ne_zero hzero))
  have hnumeral : intNumeral n.toInt = (lowDigits n.toInt.natAbs).reverse := by
    rw [intNumeral, if_neg (not_lt.mpr hpos), numeral, if_neg (natAbs_ne_zero hzero)]
  simp only [itoa, hzero, hneg, if_false, habs, hlast]
  refine ⟨hnumeral ▸ hdone.1, fun x hx => ?_⟩
  rw [hdone.2 x (by omega), hother x (by omega)]

theorem itoa_spec (m : Bytes) (n : Int32) (str : ℕ) :
    StringAt (itoa m n str) str (intNumeral n.toInt) ∧
      ∀ x, x < str ∨ str + 12 ≤ x → itoa m n str x = m x := by
  by_cases hzero : n = 0
  · rw [itoa, if_pos hzero, hzero]
    refine ⟨⟨?_, store8_same _ _ _, trivial⟩, fun x hx => ?_⟩
    · rw [store8_other (by omega)]
      exact store8_same _ _ _
    · rw [store8_other (by omega)]
      exact store8_other (by omega)
  · by_cases hneg : n < 0
    · exact itoa_negative m str hneg
    · exact itoa_positive m str hzero hneg

theorem printInt_spec (buf : Bytes) (h : n ≠ Int32.minValue) :
    printInt buf n = intNumeral n.toInt := by
  unfold printInt
  by_cases hzero : n = 0
  · rw [if_pos hzero, hzero]
    rfl
  obtain ⟨htext, hlast, -⟩ := digitLoop_spec n.toInt.natAbs buf 0 0
  have hprinted := printBackwards_text htext
  rw [Nat.zero_add] at hlast
  rw [if_neg hzero, positivePart_eq h, intNumeral, numeral, if_neg (natAbs_ne_zero hzero),
    ← hprinted, ← hlast]
  by_cases hneg : n < 0
  · rw [if_pos (lt_zero_iff.mp hneg)]
    simp only [hneg, if_true]
    rfl
  · rw [if_neg (mt lt_zero_iff.mpr hneg)]
    simp only [hneg, if_false]
    rfl

/-- Of the least number only the sign is printed. -/
theorem printInt_minValue (buf : Bytes) : printInt buf Int32.minValue = [minus] := by
  have hloop : digitLoop 0 buf 0 0 = (buf, 0) := by
    rw [digitLoop, if_pos rfl]
  unfold printInt
  rw [positivePart_minValue, hloop]
  rfl

theorem consolePrintf_d (buf : Bytes) (n : Int32) :
    consolePrintf buf [37, 100] [.int n] = some (printInt buf n) := by
  rw [consolePrintf, consolePrintf, Option.map_some, List.append_nil]

theorem positivePart_digits (n : Int32) : (lowDigits (positivePart n)).length ≤ 10 := by
  by_cases h : n = Int32.minValue
  · rw [h, positivePart_minValue]
    exact Nat.zero_le _
  · rw [positivePart_eq h]
    exact magnitude_digits n

end Printers

/-- The printers agree on every number but the least one. -/
theorem printers_agree_iff (n : Int32) : PrintersAgree n ↔ n ≠ Int32.minValue := by
  constructor
  · rintro hagree rfl
    have hprinted := hagree.calculator fun _ => 0
    rw [calculatorPrint, printInt_minValue] at hprinted
    have hlength := congrArg List.length hprinted
    revert hlength
    decide
  · intro h
    constructor
    · intro buf
      rw [consolePrintf_d, printInt_spec buf h]
    · exact fun buf => printInt_spec buf h
    · exact fun m str => (itoa_spec m n str).1
    · intro buf
      have hdigits := positivePart_digits n
      rw [(digitLoop_spec (positivePart n) buf 0 0).2.1]
      omega
    · intro m str x hx
      exact (itoa_spec m n str).2 x (by omega)

/-- Of -2^31 `console_printf` prints the sign only. -/
theorem least_printed_without_digits : ¬ ∀ n, PrintersAgree n := by
  intro h
  have hprinted := (h Int32.minValue).printf fun _ => 0
  rw [consolePrintf_d, printInt_minValue, Option.some.injEq] at hprinted
  have hlength := congrArg List.length hprinted
  revert hlength
  decide

/-- `atoi` undoes `itoa` on numbers that are not negative, whatever follows, and the others have
their numeral behind a sign. -/
theorem itoa_reads_back (m : Bytes) (n : Int32) (str : ℕ) :
    ∃ text, 0 ∉ text ∧ StringAt (itoa m n str) str text ∧
      (0 ≤ n → ∀ m' a c, TextAt m' a (text ++ [c]) → ¬IsDigit c → atoi m' a = some n) ∧
      (n < 0 → ∃ digits, text = minus :: digits ∧ (∀ c ∈ digits, IsDigit c) ∧ digits ≠ [] ∧
        digits.head? ≠ some (digit 0) ∧ (digitsValue digits : ℤ) = -n.toInt) := by
  refine ⟨intNumeral n.toInt, zero_notMem_intNumeral _, (itoa_spec m n str).1, ?_, ?_⟩
  · intro hpos m' a c htext hend
    have hpos : 0 ≤ n.toInt := Int32.le_iff_toInt_le.mp hpos
    have hlt := n.toInt_lt
    have hnumeral : intNumeral n.toInt = numeral n.toInt.natAbs := if_neg (not_lt.mpr hpos)
    have hlength : (numeral n.toInt.natAbs).length ≤ 10 :=
      numeral_length_le (by norm_num) (by omega)
    have hback : Int32.ofNat n.toInt.natAbs = n := by
      apply Int32.toInt_inj.mp
      rw [Int32.toInt_ofNat_of_lt (by omega)]
      omega
    rw [hnumeral] at htext
    rw [atoi_digits htext (numeral_isDigit _) hend (hlength.trans_lt (by norm_num)),
      digitsValue_numeral, hback]
  · intro hneg
    have hneg := lt_zero_iff.mp hneg
    have hne : n.toInt.natAbs ≠ 0 := by omega
    refine ⟨numeral n.toInt.natAbs, if_pos hneg, numeral_isDigit _, numeral_ne_nil _,
      numeral_head hne, ?_⟩
    rw [digitsValue_numeral]
    omega

end DecimalPrinters
