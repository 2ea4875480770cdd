import Mathlib.Data.List.TakeWhile
import SojebOS.ByteMemory
import SojebOS.DecimalNumerals
import SojebOS.HashTable
import SojebOS.WhileLoop

/-!
# The string functions

The functions of `libc/string.c` on strings in memory. A loop over a string has a budget of as
many rounds as there are addresses, and `none` means that it would read for ever. On a string
that has its terminator each function is a function of the characters.
-/
namespace CStrings

open ByteMemory MachineWord WhileLoop DecimalNumerals HashTable

/-- The characters lie in memory from `a` on. -/
def TextAt (m : Bytes) : ℕ → List UInt8 → Prop
  | _, [] => True
  | a, c :: text => m a = c ∧ TextAt m (a + 1) text

def StringAt (m : Bytes) (a : ℕ) (text : List UInt8) : Prop := TextAt m a (text ++ [0])

def strlenBody (m : Bytes) (str i : ℕ) : Iteration ℕ ℕ :=
  if m (str + i) ≠ 0 then .again (i + 1) else .leave i

def strlen (m : Bytes) (str : ℕ) : Option ℕ := run (strlenBody m str) wordCount 0

def strcmpBody (m : Bytes) (s1 s2 i : ℕ) : Iteration ℕ ℤ :=
  if m (s1 + i) ≠ 0 ∧ m (s2 + i) ≠ 0 then
    if m (s1 + i) ≠ m (s2 + i) then .leave (charInt (m (s1 + i)) - charInt (m (s2 + i)))
    else .again (i + 1)
  else .leave (charInt (m (s1 + i)) - charInt (m (s2 + i)))

def strcmp (m : Bytes) (s1 s2 : ℕ) : Option ℤ := run (strcmpBody m s1 s2) wordCount 0

def strchrBody (m : Bytes) (c : UInt8) (str : ℕ) : Iteration ℕ (Option ℕ) :=
  if m str ≠ 0 then
    if m str = c then .leave (some str) else .again (str + 1)
  else .leave none

/-- The inner `none` is `NULL`. -/
def strchr (m : Bytes) (str : ℕ) (c : UInt8) : Option (Option ℕ) :=
  run (strchrBody m c) wordCount str

/-- A `char` above 127 is negative, and no digit. -/
def atoiBody (m : Bytes) : ℕ × Int32 → Iteration (ℕ × Int32) Int32
  | (str, result) =>
    if IsDigit (m str) then .again (str + 1, result * 10 + Int32.ofNat ((m str).toNat - 48))
    else .leave result

def atoi (m : Bytes) (str : ℕ) : Option Int32 := run (atoiBody m) wordCount (str, 0)

section Texts

variable {m m' : Bytes} {a i : ℕ} {c : UInt8} {text rest : List UInt8}

theorem textAt_append : TextAt m a (text ++ rest) ↔
    TextAt m a text ∧ TextAt m (a + text.length) rest := by
  induction text generalizing a with
  | nil => exact (iff_of_eq (true_and _)).symm
  | cons c text ih =>
    rw [List.cons_append, TextAt, TextAt, ih, List.length_cons, and_assoc, Nat.add_assoc a 1,
      Nat.add_comm 1]

theorem textAt_iff : TextAt m a text ↔ ∀ i (h : i < text.length), m (a + i) = text[i] := by
  induction text generalizing a with
  | nil => exact iff_of_true trivial fun i h => absurd h (Nat.not_lt_zero i)
  | cons c text ih =>
    rw [TextAt, ih]
    constructor
    · rintro ⟨hc, hrest⟩ i hi
      cases i with
      | zero => exact hc
      | succ i =>
        rw [← Nat.add_assoc, Nat.add_right_comm]
        exact hrest i (Nat.lt_of_succ_lt_succ hi)
    · intro h
      refine ⟨h 0 (Nat.succ_pos _), fun i hi => ?_⟩
      rw [Nat.add_assoc, Nat.add_comm 1]
      exact h (i + 1) (Nat.succ_lt_succ hi)

theorem TextAt.congr (h : TextAt m a text)
    (heq : ∀ x, a ≤ x → x < a + text.length → m' x = m x) : TextAt m' a text := by
  rw [textAt_iff] at h ⊢
  intro i hi
  rw [heq (a + i) (Nat.le_add_right a i) (Nat.add_lt_add_left hi a)]
  exact h i hi

theorem TextAt.ne (h : TextAt m a text) (hc : c ∉ text) (hi : i < text.length) :
    m (a + i) ≠ c := by
  rw [textAt_iff.mp h i hi]
  exact fun he => hc (he ▸ List.getElem_mem hi)

theorem StringAt.chars (h : StringAt m a text) : TextAt m a text := (textAt_append.mp h).1

theorem StringAt.terminator (h : StringAt m a text) : m (a + text.length) = 0 :=
  (textAt_append.mp h).2.1

theorem stringAt_getD (text : List UInt8) : StringAt (fun x => text.getD x 0) 0 text := by
  refine textAt_append.mpr ⟨textAt_iff.mpr fun i hi => ?_, ?_, trivial⟩
  · rw [Nat.zero_add, List.getD_eq_getElem _ _ hi]
  · exact List.getD_eq_default _ _ (Nat.zero_add text.length).ge

theorem stringAt_unique {s t : CString} (hs : StringAt m a s.val) (ht : StringAt m a t.val) :
    s = t := by
  obtain ⟨s, hs0⟩ := s
  obtain ⟨t, ht0⟩ := t
  simp only [Subtype.mk.injEq] at hs ht ⊢
  induction s generalizing a t with
  | nil =>
    cases t with
    | nil => rfl
    | cons c t =>
      have hc : c = 0 := ht.1.symm.trans hs.1
      exact absurd (hc ▸ List.mem_cons_self) ht0
  | cons b s ih =>
    cases t with
    | nil =>
      have hb : b = 0 := hs.1.symm.trans ht.1
      exact absurd (hb ▸ List.mem_cons_self) hs0
    | cons c t =>
      have hrest := ih (fun h => hs0 (List.mem_cons_of_mem b h)) hs.2 t
        (fun h => ht0 (List.mem_cons_of_mem c h)) ht.2
      rw [hrest, hs.1.symm.trans ht.1]

end Texts

section Loops

variable {m : Bytes} {a b i : ℕ} {c : UInt8} {text digits : List UInt8}

theorem strlen_string (s : CString) (hs : StringAt m a s.val) (hlen : s.val.length < wordCount) :
    strlen m a = some s.val.length := by
  refine run_path (f := id) (fun i hi => ?_) ?_ hlen
  · exact if_pos (hs.chars.ne s.property hi)
  · exact if_neg (not_not.mpr hs.terminator)

theorem strcmpBody_end (h : m (a + i) = 0 ∨ m (b + i) = 0) :
    strcmpBody m a b i = .leave (charInt (m (a + i)) - charInt (m (b + i))) :=
  if_neg fun hboth => h.elim hboth.1 hboth.2

theorem strcmp_rounds {s t : List UInt8} {n : ℕ} (hs0 : 0 ∉ s) (ht0 : 0 ∉ t)
    (hs : StringAt m (a + i) s) (ht : StringAt m (b + i) t) (hn : s.length < n) :
    run (strcmpBody m a b) n i = some (HashTable.strcmp s t) := by
  have hzero : charInt 0 = 0 := rfl
  induction s generalizing t i n with
  | nil =>
    obtain ⟨n, rfl⟩ := Nat.exists_eq_add_of_lt hn
    have hend : m (a + i) = 0 := hs.1
    rw [run_leave (strcmpBody_end (.inl hend)), hend]
    cases t with
    | nil =>
      rw [show m (b + i) = 0 from ht.1]
      rfl
    | cons c t =>
      rw [show m (b + i) = c from ht.1, hzero, zero_sub]
      rfl
  | cons c s ih =>
    obtain ⟨n, rfl⟩ : ∃ k, n = k + 1 := Nat.exists_eq_succ_of_ne_zero (by omega)
    obtain ⟨hc, hs⟩ := hs
    cases t with
    | nil =>
      have hend : m (b + i) = 0 := ht.1
      rw [run_leave (strcmpBody_end (.inr hend)), hc, hend, hzero, sub_zero]
      rfl
    | cons d t =>
      obtain ⟨hd, ht⟩ := ht
      have hboth : m (a + i) ≠ 0 ∧ m (b + i) ≠ 0 := by
        rw [hc, hd]
        exact ⟨(List.ne_of_not_mem_cons hs0).symm, (List.ne_of_not_mem_cons ht0).symm⟩
      rw [HashTable.strcmp]
      by_cases hne : c ≠ d
      · have hleave : strcmpBody m a b i = .leave (charInt c - charInt d) := by
          rw [strcmpBody, if_pos hboth, hc, hd, if_pos hne]
        rw [run_leave hleave, if_pos hne]
      · have hagain : strcmpBody m a b i = .again (i + 1) := by
          rw [strcmpBody, if_pos hboth, hc, hd, if_neg hne]
        rw [run_again hagain, if_neg hne]
        rw [List.length_cons] at hn
        exact ih (List.not_mem_of_not_mem_cons hs0) (List.not_mem_of_not_mem_cons ht0) hs ht
          (by omega)

theorem strcmp_strings (s t : CString) (hs : StringAt m a s.val) (ht : StringAt m b t.val)
    (hlen : s.val.length < wordCount) :
    strcmp m a b = some (HashTable.strcmp s.val t.val) :=
  strcmp_rounds s.property t.property hs ht hlen

theorem strchrBody_other (htext : TextAt m a text) (hzero : 0 ∉ text) (hother : c ∉ text)
    (hi : i < text.length) : strchrBody m c (a + i) = .again (a + (i + 1)) := by
  rw [strchrBody, if_pos (htext.ne hzero hi), if_neg (htext.ne hother hi), Nat.add_assoc]

theorem strchr_found (htext : TextAt m a (text ++ [c])) (hzero : 0 ∉ text) (hother : c ∉ text)
    (hc : c ≠ 0) (hlen : text.length < wordCount) :
    strchr m a c = some (some (a + text.length)) := by
  obtain ⟨htext, hend, -⟩ := textAt_append.mp htext
  refine run_path (f := (a + ·)) (fun i hi => strchrBody_other htext hzero hother hi) ?_ hlen
  have hnz : m (a + text.length) ≠ 0 := by
    rw [hend]
    exact hc
  rw [strchrBody, if_pos hnz, if_pos hend]

theorem strchr_absent (htext : StringAt m a text) (hzero : 0 ∉ text) (hother : c ∉ text)
    (hlen : text.length < wordCount) : strchr m a c = some none := by
  refine run_path (f := (a + ·)) (fun i hi => strchrBody_other htext.chars hzero hother hi) ?_ hlen
  exact if_neg (not_not.mpr htext.terminator)

theorem atoi_digits (htext : TextAt m a (digits ++ [c])) (hdigits : ∀ d ∈ digits, IsDigit d)
    (hend : ¬IsDigit c) (hlen : digits.length < wordCount) :
    atoi m a = some (Int32.ofNat (digitsValue digits)) := by
  obtain ⟨htext, hc, -⟩ := textAt_append.mp htext
  have hagain : ∀ i < digits.length,
      atoiBody m (a + i, Int32.ofNat (digitsValue (digits.take i))) =
        .again (a + (i + 1), Int32.ofNat (digitsValue (digits.take (i + 1)))) := by
    intro i hi
    have hchar := textAt_iff.mp htext i hi
    have hdigit : IsDigit (m (a + i)) := hchar ▸ hdigits _ (List.getElem_mem hi)
    have htake : digits.take (i + 1) = digits.take i ++ [digits[i]] :=
      List.take_succ_eq_append_getElem hi
    rw [atoiBody, if_pos hdigit, htake, digitsValue_append, Int32.ofNat_add, Int32.ofNat_mul,
      hchar, Nat.add_assoc]
    rfl
  have hleave : atoiBody m (a + digits.length, Int32.ofNat (digitsValue (digits.take
      digits.length))) = .leave (Int32.ofNat (digitsValue digits)) := by
    rw [List.take_length]
    exact if_neg (hc ▸ hend)
  exact run_path (f := fun i => (a + i, Int32.ofNat (digitsValue (digits.take i)))) hagain hleave
    hlen

theorem atoi_string (hs : StringAt m a text) (hlen : text.length < wordCount) :
    atoi m a = some (Int32.ofNat (digitsValue (text.takeWhile fun c => IsDigit c))) := by
  have hdigits : ∀ d ∈ text.takeWhile (fun c => IsDigit c), IsDigit d :=
    fun d hd => of_decide_eq_true (List.mem_takeWhile_imp (p := fun c => decide (IsDigit c)) hd)
  have hlength : (text.takeWhile fun c => IsDigit c).length < wordCount :=
    (List.takeWhile_prefix _).length_le.trans_lt hlen
  have hsplit : TextAt m a ((text.takeWhile fun c => IsDigit c) ++
      ((text.dropWhile fun c => IsDigit c) ++ [0])) := by
    rw [← List.append_assoc, List.takeWhile_append_dropWhile]
    exact hs
  have hhead := List.head?_dropWhile_not (fun c => decide (IsDigit c)) text
  cases hrest : text.dropWhile fun c => IsDigit c with
  | nil =>
    rw [hrest] at hsplit
    exact atoi_digits hsplit hdigits (by decide) hlength
  | cons c rest =>
    rw [hrest] at hsplit hhead
    obtain ⟨hchars, hc, -⟩ := textAt_append.mp hsplit
    exact atoi_digits (textAt_append.mpr ⟨hchars, hc, trivial⟩) hdigits (of_decide_eq_false hhead)
      hlength

end Loops

end CStrings
