import Mathlib.Algebra.Order.Ring.Nat
import Mathlib.Algebra.Ring.Parity
import SojebOS.ConsolePrintf

/-!
# The scan of a format

The index of `console_printf` moves past the terminator of a format whose last `%` has nothing
behind it. Of the `%` signs at the end of a format each second one is taken as a letter, so that
their number decides.
-/
namespace FormatScan

open ByteMemory MachineWord WhileLoop CStrings HashTable ConsoleScreen ConsolePrintf

/-- The number of `%` signs at the end of the format. -/
def trailingPercents (text : List UInt8) : ℕ :=
  (text.reverse.takeWhile fun c => c = percent).length

/-- The index, an `int`, stays on the characters of the format and its terminator, also behind a
`%`, and the loop ends with it at the terminator. -/
structure StaysInside (m buf : Bytes) (fmt : ℕ) (args : List UInt32) (console : Console)
    (len : ℕ) : Prop where
  inside : ∀ t, Visits (printfBody m buf fmt) ⟨console, args, 0⟩ t → t.i ≤ len
  behindPercent : ∀ t, Visits (printfBody m buf fmt) ⟨console, args, 0⟩ t →
    m (fmt + t.i) = percent → t.i + 1 ≤ len
  noOverflow : ∀ t, Visits (printfBody m buf fmt) ⟨console, args, 0⟩ t → t.i < 2 ^ 31
  ends : ∃ t, consolePrintf m buf fmt args console = some (some t) ∧ t.i = len

section Percents

variable {c letter : UInt8} {text : List UInt8}

theorem trailingPercents_le (text : List UInt8) : trailingPercents text ≤ text.length := by
  have hle := (List.takeWhile_sublist (fun c => c = percent) (l := text.reverse)).length_le
  rw [List.length_reverse] at hle
  exact hle

theorem trailingPercents_cons (c : UInt8) (text : List UInt8) : trailingPercents (c :: text) =
    if trailingPercents text = text.length ∧ c = percent then trailingPercents text + 1
    else trailingPercents text := by
  unfold trailingPercents
  rw [List.reverse_cons, List.takeWhile_append, List.length_reverse]
  by_cases hall : (text.reverse.takeWhile fun c => c = percent).length = text.length
  · rw [if_pos hall, List.length_append, List.length_reverse, hall]
    by_cases hc : c = percent
    · rw [if_pos ⟨rfl, hc⟩, List.takeWhile_cons, if_pos (decide_eq_true hc)]
      rfl
    · rw [if_neg fun h => hc h.2, List.takeWhile_cons, if_neg fun h => hc (of_decide_eq_true h)]
      rfl
  · rw [if_neg hall, if_neg fun h => hall h.1]

/-- A `%` and its letter are an even number of `%` signs, or none of those at the end. -/
theorem trailingPercents_pair (letter : UInt8) (text : List UInt8) :
    Odd (trailingPercents (percent :: letter :: text)) ↔ Odd (trailingPercents text) := by
  have hle := trailingPercents_le text
  rw [trailingPercents_cons, trailingPercents_cons, List.length_cons]
  by_cases hpair : trailingPercents text = text.length ∧ letter = percent
  · rw [if_pos hpair, if_pos ⟨by rw [hpair.1], rfl⟩]
    simp only [Nat.odd_add_one, not_not]
  · rw [if_neg hpair, if_neg fun h => by omega]

theorem dangling_iff_odd (text : List UInt8) : Dangling text ↔ Odd (trailingPercents text) := by
  fun_induction Dangling text with
  | case1 => exact iff_of_false not_false (by decide)
  | case2 c =>
    rw [trailingPercents_cons]
    by_cases hc : c = percent
    · rw [if_pos ⟨rfl, hc⟩]
      exact iff_of_true hc (by decide)
    · rw [if_neg fun h => hc h.2]
      exact iff_of_false hc (by decide)
  | case3 letter text ih =>
    rw [ih, trailingPercents_pair]
  | case4 c letter text hc ih =>
    rw [ih, trailingPercents_cons c, if_neg fun h => hc h.2]

end Percents

section Scan

variable {m buf : Bytes} {fmt len n : ℕ} {s t : Printing} {rest : List UInt8}

def Inside (m : Bytes) (fmt len : ℕ) (s : Printing) : Prop :=
  ∃ rest, Ahead m fmt len s rest ∧ ¬Dangling rest ∧ Supplied m (conversions rest) s.args

theorem ne_percent (h : ¬Dangling rest) : rest ≠ [percent] := by
  rintro rfl
  exact h rfl

theorem Inside.again (h : Inside m fmt len s) (hbody : printfBody m buf fmt s = .again t) :
    Inside m fmt len t := by
  obtain ⟨rest, hahead, hdangling, hargs⟩ := h
  obtain ⟨behind, hbehind, -, hiff, hsupplied⟩ :=
    hahead.supplied (ne_percent hdangling) hargs hbody
  exact ⟨behind, hbehind, mt hiff.mp hdangling, hsupplied⟩

theorem Inside.le (h : Inside m fmt len s) : s.i ≤ len := by
  obtain ⟨rest, hahead, -⟩ := h
  exact hahead.index ▸ Nat.le_add_right _ _

theorem Inside.lt (h : Inside m fmt len s) (hpercent : m (fmt + s.i) = percent) : s.i < len := by
  obtain ⟨rest, hahead, -⟩ := h
  have hindex := hahead.index
  rcases rest with - | ⟨c, rest⟩
  · have hend := hahead.held.1
    rw [hpercent] at hend
    exact absurd hend (by decide)
  · rw [List.length_cons] at hindex
    omega

theorem Inside.ends (h : Inside m fmt len s) (hn : len < n) :
    ∃ t, run (printfBody m buf fmt) n s = some (some t) ∧ t.i = len := by
  have hend : ∃ r, run (printfBody m buf fmt) n s = some r ∧ ∃ t, r = some t ∧ t.i = len := by
    refine run_total (Inside m fmt len) _ (fun s => len - s.i) ?_ h (by omega)
    rintro s ⟨rest, hahead, hdangling, hargs⟩
    have hindex := hahead.index
    by_cases hrest : rest = []
    · subst hrest
      exact .inr ⟨some s, hahead.atEnd, s, rfl, hindex⟩
    · obtain ⟨t, hbody⟩ := hahead.progress buf hrest hargs
      obtain ⟨behind, hbehind, hlt, hiff, hsupplied⟩ :=
        hahead.supplied (ne_percent hdangling) hargs hbody
      have hindex' := hbehind.index
      exact .inl ⟨t, hbody, ⟨behind, hbehind, mt hiff.mp hdangling, hsupplied⟩, by omega⟩
  obtain ⟨r, hr, t, rfl, ht⟩ := hend
  exact ⟨t, hr, ht⟩

theorem printfBody_leave (h : printfBody m buf fmt s = .leave (some t)) : t = s := by
  unfold printfBody at h
  split_ifs at h with hend hpercent
  · cases h
    rfl
  · split at h
    · cases h
    · cases h

theorem visits_last (h : run (printfBody m buf fmt) n s = some (some t)) :
    Visits (printfBody m buf fmt) s t := by
  obtain ⟨u, hvisits, hleave⟩ := run_visits h
  exact printfBody_leave hleave ▸ hvisits

/-- The `i++` of the loop is made once more when there is only a `%` left. -/
theorem dangling_goes_past (buf : Bytes) (h : Ahead m fmt len s rest) (hdangling : Dangling rest)
    (hargs : Supplied m (conversions rest) s.args) :
    ∃ t, Visits (printfBody m buf fmt) s t ∧ len < t.i := by
  induction hn : rest.length using Nat.strongRecOn generalizing s rest with
  | ind n ih =>
    by_cases hlast : rest = [percent]
    · subst hlast
      exact ⟨_, .again .start (printfBody_dangling h), Nat.lt_succ_self len⟩
    · have hne : rest ≠ [] := by
        rintro rfl
        exact hdangling
      obtain ⟨t, hbody⟩ := h.progress buf hne hargs
      obtain ⟨behind, hbehind, hlt, hiff, hsupplied⟩ := h.supplied hlast hargs hbody
      obtain ⟨u, hvisits, hpast⟩ :=
        ih behind.length (hn ▸ hlt) hbehind (hiff.mpr hdangling) hsupplied rfl
      exact ⟨u, hvisits.head hbody, hpast⟩

end Scan

section Formats

/-- The index stays inside just when an even number of `%` signs ends the format, and the format
is not too long for an `int`. -/
theorem format_inside_iff (m buf : Bytes) (fmt : ℕ) (text : CString) (args : List UInt32)
    (console : Console) (hfmt : StringAt m fmt text.val)
    (hargs : Supplied m (conversions text.val) args) :
    StaysInside m buf fmt args console text.val.length ↔
      Even (trailingPercents text.val) ∧ text.val.length < 2 ^ 31 := by
  have hahead := ahead_start text hfmt console args
  rw [← Nat.not_odd_iff_even, ← dangling_iff_odd]
  constructor
  · intro h
    constructor
    · intro hdangling
      obtain ⟨t, hvisits, hpast⟩ := dangling_goes_past buf hahead hdangling hargs
      exact absurd (h.inside t hvisits) (Nat.not_le_of_lt hpast)
    · obtain ⟨t, hrun, ht⟩ := h.ends
      exact ht ▸ h.noOverflow t (visits_last hrun)
  · rintro ⟨hdangling, hlen⟩
    have hstart : Inside m fmt text.val.length ⟨console, args, 0⟩ :=
      ⟨text.val, hahead, hdangling, hargs⟩
    have hkept : ∀ t, Visits (printfBody m buf fmt) ⟨console, args, 0⟩ t →
        Inside m fmt text.val.length t := fun t ht =>
      ht.invariant _ (fun _ _ => Inside.again) hstart
    refine ⟨fun t ht => (hkept t ht).le, fun t ht hpercent => (hkept t ht).lt hpercent,
      fun t ht => (hkept t ht).le.trans_lt hlen, hstart.ends (hlen.trans (by norm_num [wordCount]))⟩

/-- `"load: %d%%"`. -/
theorem format_inside_load :
    StaysInside (fun x => ([108, 111, 97, 100, 58, 32, 37, 100, 37, 37] : List UInt8).getD x 0)
      (fun _ => 0) 0 [50] ⟨fun _ => 0, 0, false⟩ 10 :=
  (format_inside_iff _ _ 0 ⟨[108, 111, 97, 100, 58, 32, 37, 100, 37, 37], by simp⟩ _ _
    (stringAt_getD _)
    (supplied_cons (.decimal 50) (supplied_skip (by decide) trivial))).mpr
    ⟨by decide, by norm_num⟩

/-- `"100%"` needs no argument. -/
theorem percent_at_end : ¬ ∀ (m buf : Bytes) (fmt : ℕ) (text : CString) (args : List UInt32)
    (console : Console), StringAt m fmt text.val → Supplied m (conversions text.val) args →
    text.val.length < 2 ^ 31 → StaysInside m buf fmt args console text.val.length := by
  intro h
  have htext := stringAt_getD [49, 48, 48, 37]
  have hinside := h _ (fun _ => 0) 0 ⟨[49, 48, 48, 37], by simp⟩ [] ⟨fun _ => 0, 0, false⟩ htext
    trivial (by norm_num)
  have hdangling : Dangling [49, 48, 48, 37] := (dangling_iff_odd _).mpr (by decide)
  obtain ⟨t, hvisits, hpast⟩ := dangling_goes_past (fun _ => 0)
    (ahead_start ⟨[49, 48, 48, 37], by simp⟩ htext ⟨fun _ => 0, 0, false⟩ [])
    hdangling trivial
  exact absurd (hinside.inside t hvisits) (Nat.not_le_of_lt hpast)

end Formats

end FormatScan
