import SojebOS.DecimalPrinters

/-!
# The calculator

One round of `calculator_app` on a line. The operands are read with wrap, so that they can be any
32-bit numbers, and the guard in front of the division looks at the divisor only.
-/
namespace Calculator

open ByteMemory MachineWord WhileLoop DecimalNumerals CStrings DecimalPrinters

def plus : UInt8 := 43
def times : UInt8 := 42
def slash : UInt8 := 47

/-- How a round ends: with `return`, with a processor exception, or with a printed result. -/
inductive Outcome where
  | returned
  | trapped
  | printed (text : List UInt8)

/-- The processor divides, `none` where it raises an exception. -/
def idiv (a b : Int32) : Option Int32 :=
  if b = 0 ∨ (a = Int32.minValue ∧ b = -1) then none else some (a / b)

def calculate (op : UInt8) (a b : Int32) : Option Int32 :=
  if op = plus then some (a + b)
  else if op = minus then some (a - b)
  else if op = times then some (a * b)
  else if op = slash then (if b ≠ 0 then idiv a b else some 0)
  else some 0

def skipBody (m : Bytes) (opPtr : ℕ) : Iteration ℕ ℕ :=
  if m opPtr ≠ 0 ∧ IsDigit (m opPtr) then .again (opPtr + 1) else .leave opPtr

/-- What is done with the line at `input`. Behind an operator that ends the line `atoi` reads what
the array held before. -/
def calculatorRound (buf m : Bytes) (input : ℕ) : Option Outcome := do
  if m input = 101 ∧ m (input + 1) = 120 ∧ m (input + 2) = 105 ∧ m (input + 3) = 116 then
    return .returned
  let a ← atoi m input
  let opPtr ← run (skipBody m) wordCount input
  let b ← atoi m (opPtr + 1)
  match calculate (m opPtr) a b with
  | none => return .trapped
  | some result => return .printed ([61, 32] ++ calculatorPrint buf result ++ [10, 10])

/-- A line that divides -2^31, as 32 bits, by -1. -/
def Overflows (line : List UInt8) : Prop :=
  (line.dropWhile fun c => IsDigit c).head? = some slash ∧
    digitsValue (line.takeWhile fun c => IsDigit c) % 2 ^ 32 = 2 ^ 31 ∧
    digitsValue ((line.dropWhile fun c => IsDigit c).tail.takeWhile fun c => IsDigit c) % 2 ^ 32 =
      2 ^ 32 - 1

instance (line : List UInt8) : Decidable (Overflows line) :=
  inferInstanceAs (Decidable (_ ∧ _ ∧ _))

section Operands

variable {a b : Int32} {op : UInt8} {v w : ℕ}

theorem ofNat_eq_iff : Int32.ofNat v = Int32.ofNat w ↔ v % 2 ^ 32 = w % 2 ^ 32 := by
  constructor
  · exact fun h => congrArg (fun n : Int32 => n.toUInt32.toNat) h
  · intro h
    apply Int32.toBitVec_inj.mp
    exact BitVec.eq_of_toNat_eq h

/-- Of all operators only the division traps, and only on one pair. -/
theorem calculate_eq_none : calculate op a b = none ↔
    op = slash ∧ a = Int32.minValue ∧ b = -1 := by
  unfold calculate idiv
  split_ifs <;> simp_all [slash, plus, minus, times]

end Operands

section Lines

variable {buf m : Bytes} {input : ℕ} {line digits rest : List UInt8} {op : UInt8}

theorem skip_digits (htext : TextAt m input (digits ++ [op])) (hdigits : ∀ c ∈ digits, IsDigit c)
    (hop : ¬IsDigit op) (hlen : digits.length < wordCount) :
    run (skipBody m) wordCount input = some (input + digits.length) := by
  obtain ⟨hchars, hend, -⟩ := textAt_append.mp htext
  refine run_path (f := (input + ·)) (fun i hi => ?_) ?_ hlen
  · have hdigit : IsDigit (m (input + i)) := by
      rw [textAt_iff.mp hchars i hi]
      exact hdigits _ (List.getElem_mem hi)
    exact if_pos ⟨hdigit.ne_zero, hdigit⟩
  · apply if_neg
    rintro ⟨-, hdigit⟩
    rw [hend] at hdigit
    exact hop hdigit

theorem line_split (line : List UInt8) : ∃ op rest,
    line ++ [0] = (line.takeWhile fun c => IsDigit c) ++ op :: rest ∧ ¬IsDigit op ∧
      (line.dropWhile fun c => IsDigit c).head?.getD 0 = op ∧
      (op ≠ 0 → rest = (line.dropWhile fun c => IsDigit c).tail ++ [0]) := by
  have hline := List.takeWhile_append_dropWhile (p := fun c => decide (IsDigit c)) (l := line)
  have hhead := List.head?_dropWhile_not (fun c => decide (IsDigit c)) line
  cases hdrop : line.dropWhile fun c => IsDigit c with
  | nil =>
    rw [hdrop] at hline
    refine ⟨0, [], ?_, by decide, rfl, fun h => absurd rfl h⟩
    nth_rewrite 1 [← hline]
    rw [List.append_nil]
  | cons op rest =>
    rw [hdrop] at hline hhead
    refine ⟨op, rest ++ [0], ?_, of_decide_eq_false hhead, rfl, fun _ => rfl⟩
    nth_rewrite 1 [← hline]
    rw [List.append_assoc, List.cons_append]

/-- A round traps where the calculation does, unless the line is `exit`. -/
theorem trapped_iff {a : Int32} {opPtr : ℕ} (ha : atoi m input = some a)
    (hskip : run (skipBody m) wordCount input = some opPtr) :
    calculatorRound buf m input = some .trapped ↔
      ¬(m input = 101 ∧ m (input + 1) = 120 ∧ m (input + 2) = 105 ∧ m (input + 3) = 116) ∧
        ∃ b, atoi m (opPtr + 1) = some b ∧ calculate (m opPtr) a b = none := by
  rw [calculatorRound]
  split_ifs with hexit
  · exact iff_of_false (fun h => by cases h) fun h => h.1 hexit
  · simp only [ha, hskip, Option.bind_eq_bind, Option.bind_some, Option.bind_eq_some_iff]
    rw [and_iff_right hexit]
    refine exists_congr fun b => and_congr_right fun _ => ?_
    cases hresult : calculate (m opPtr) a b with
    | none => exact iff_of_true rfl rfl
    | some result => exact iff_of_false (fun h => by cases h) fun h => by cases h

theorem begins_no_exit {digits : List UInt8} (hdigits : ∀ c ∈ digits, IsDigit c)
    (hchars : TextAt m input digits) (hat : m (input + digits.length) = slash) :
    m input ≠ 101 := by
  intro h101
  cases digits with
  | nil => exact absurd (h101.symm.trans hat) (by decide)
  | cons c digits =>
    have hdigit := hdigits c List.mem_cons_self
    rw [← hchars.1, h101] at hdigit
    exact absurd hdigit (by decide)

/-- The line decides whether the round traps, whatever stands in memory behind it. -/
theorem round_trapped_iff (hlen : line.length ≤ 63) (hline : StringAt m input line) :
    calculatorRound buf m input = some .trapped ↔ Overflows line := by
  obtain ⟨op, rest, hsplit, hop, hhead, hrest⟩ := line_split line
  have hslash : (line.dropWhile fun c => IsDigit c).head? = some slash ↔ op = slash := by
    rw [← hhead]
    cases (line.dropWhile fun c => IsDigit c).head? with
    | none => exact iff_of_false (fun h => by cases h) (by decide)
    | some c => exact Option.some_inj
  have hfit : line.length < wordCount := hlen.trans_lt (by norm_num)
  have hdigits : ∀ c ∈ line.takeWhile (fun c => IsDigit c), IsDigit c :=
    fun c hc => of_decide_eq_true (List.mem_takeWhile_imp (p := fun c => decide (IsDigit c)) hc)
  have htext := hline
  rw [StringAt, hsplit] at htext
  obtain ⟨hchars, hat, hbehind⟩ := textAt_append.mp htext
  have ha := atoi_string hline hfit
  have hskip := skip_digits (textAt_append.mpr ⟨hchars, hat, trivial⟩) hdigits hop
    ((List.takeWhile_prefix _).length_le.trans_lt hfit)
  rw [trapped_iff ha hskip, hat, Overflows, hslash]
  by_cases hdivides : op = slash
  · have hexit := begins_no_exit hdigits hchars (hat.trans hdivides)
    have htail : StringAt m (input + (line.takeWhile fun c => IsDigit c).length + 1)
        (line.dropWhile fun c => IsDigit c).tail := by
      rw [hrest (by rw [hdivides]; decide)] at hbehind
      exact hbehind
    have hb := atoi_string htail (by
      rw [List.length_tail]
      exact ((Nat.sub_le _ _).trans (List.dropWhile_suffix _).length_le).trans_lt hfit)
    simp only [hb, Option.some.injEq, exists_eq_left', calculate_eq_none]
    rw [and_iff_right fun h => hexit h.1]
    refine and_congr_right fun _ => and_congr ?_ ?_
    · exact ofNat_eq_iff (w := 2 ^ 31)
    · exact ofNat_eq_iff (w := 2 ^ 32 - 1)
  · simp only [calculate_eq_none, hdivides, false_and, and_false, exists_false]

end Lines

/-- The calculator does not trap on a line exactly if it does not divide -2^31 by -1. -/
theorem calculator_never_traps_iff (buf m : Bytes) (input : ℕ) (line : List UInt8)
    (hlen : line.length ≤ 63) (hline : StringAt m input line) :
    calculatorRound buf m input ≠ some .trapped ↔ ¬Overflows line :=
  not_congr (round_trapped_iff hlen hline)

theorem calculator_never_traps_zero :
    calculatorRound (fun _ => 0) (fun x => [55, 47, 48].getD x 0) 0 ≠ some .trapped :=
  (calculator_never_traps_iff (fun _ => 0) (fun x => [55, 47, 48].getD x 0) 0 [55, 47, 48]
    (by decide) ⟨rfl, rfl, rfl, rfl, trivial⟩).mpr (by decide)

/-- `2147483648/4294967295`. -/
def overflowLine : List UInt8 :=
  [50, 49, 52, 55, 52, 56, 51, 54, 52, 56, 47, 52, 50, 57, 52, 57, 54, 55, 50, 57, 53]

theorem overflowLine_traps : ¬ ∀ (buf m : Bytes) (input : ℕ) (line : List UInt8), 0 ∉ line →
    line.length ≤ 63 → StringAt m input line → calculatorRound buf m input ≠ some .trapped := by
  intro h
  have hline : StringAt (fun x => overflowLine.getD x 0) 0 overflowLine := by
    rw [StringAt, textAt_iff]
    decide
  exact h (fun _ => 0) _ 0 overflowLine (by decide) (by decide) hline
    ((round_trapped_iff (by decide) hline).mpr (by decide))

end Calculator
