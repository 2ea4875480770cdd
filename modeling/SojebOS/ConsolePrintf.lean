import SojebOS.ConsoleScreen
import SojebOS.DecimalPrinters

/-!
# `console_print` and `console_printf`

The loops over a string and over a format in memory, with the arguments as the words behind the
format. The index of the format is moved by the loop and once more behind a `%`.
-/
namespace ConsolePrintf

open ByteMemory MachineWord WhileLoop DecimalNumerals CStrings HashTable ConsoleScreen

def percent : UInt8 := 37
def letterS : UInt8 := 115
def letterC : UInt8 := 99
def letterD : UInt8 := 100

/-- `while (*str) console_putchar(*str++);` -/
def printBody (m : Bytes) : Console × ℕ → Iteration (Console × ℕ) Console
  | (s, str) => if m str ≠ 0 then .again (consolePutchar s (m str), str + 1) else .leave s

def consolePrint (m : Bytes) (str : ℕ) (s : Console) : Option Console :=
  run (printBody m) wordCount (s, str)

/-- The branches behind a `%`, with `args` as the words that `va_arg` has not yet taken. `none`
where there is no argument, or no end to its string. -/
def convert (m buf : Bytes) (letter : UInt8) (s : Console) (args : List UInt32) :
    Option (Console × List UInt32) :=
  if letter = letterS then
    match args with
    | str :: args => (consolePrint m str.toNat s).map fun s => (s, args)
    | [] => none
  else if letter = letterC then
    match args with
    | c :: args => some (consolePutchar s c.toUInt8, args)
    | [] => none
  else if letter = letterD then
    match args with
    | num :: args => some (putText s (DecimalPrinters.printInt buf num.toInt32), args)
    | [] => none
  else some (consolePutchar (consolePutchar s percent) letter, args)

/-- The console, the arguments that are left and the index `i`. -/
structure Printing where
  console : Console
  args : List UInt32
  i : ℕ

/-- A round with the `i++` of the loop, and with that behind the `%`. -/
def printfBody (m buf : Bytes) (fmt : ℕ) (s : Printing) : Iteration Printing (Option Printing) :=
  if m (fmt + s.i) = 0 then .leave (some s)
  else if m (fmt + s.i) = percent then
    match convert m buf (m (fmt + (s.i + 1))) s.console s.args with
    | some (console, args) => .again ⟨console, args, s.i + 1 + 1⟩
    | none => .leave none
  else .again { s with console := consolePutchar s.console (m (fmt + s.i)), i := s.i + 1 }

def consolePrintf (m buf : Bytes) (fmt : ℕ) (args : List UInt32) (s : Console) :
    Option (Option Printing) :=
  run (printfBody m buf fmt) wordCount ⟨s, args, 0⟩

def Takes (letter : UInt8) : Prop := letter = letterS ∨ letter = letterC ∨ letter = letterD

instance : DecidablePred Takes := fun _ => inferInstanceAs (Decidable (_ ∨ _ ∨ _))

/-- Of -2^31 only the sign is printed. -/
def decimalText (num : Int32) : List UInt8 :=
  if num = Int32.minValue then [minus] else intNumeral num.toInt

inductive Prints (m : Bytes) : UInt8 → UInt32 → List UInt8 → Prop where
  | string {str : UInt32} {text : CString} : text.val.length < wordCount →
      StringAt m str.toNat text.val → Prints m letterS str text.val
  | char (c : UInt32) : Prints m letterC c [c.toUInt8]
  | decimal (num : UInt32) : Prints m letterD num (decimalText num.toInt32)

/-- The letters behind the `%` signs of a format. -/
def conversions : List UInt8 → List UInt8
  | [] => []
  | [_] => []
  | c :: letter :: fmt =>
    if c = percent then letter :: conversions fmt else conversions (letter :: fmt)

def Supplied (m : Bytes) : List UInt8 → List UInt32 → Prop
  | [], _ => True
  | letter :: letters, args =>
    if Takes letter then
      ∃ arg rest text, args = arg :: rest ∧ Prints m letter arg text ∧ Supplied m letters rest
    else Supplied m letters args

/-- The last `%` has nothing behind it. -/
def Dangling : List UInt8 → Prop
  | [] => False
  | [c] => c = percent
  | c :: letter :: fmt => if c = percent then Dangling fmt else Dangling (letter :: fmt)

section Letters

variable {m buf : Bytes} {letter c : UInt8} {arg : UInt32} {args : List UInt32} {s : Console}
  {text fmt : List UInt8}

theorem printBody_run {str n : ℕ} (hzero : 0 ∉ text) (h : StringAt m str text)
    (hn : text.length < n) (s : Console) :
    run (printBody m) n (s, str) = some (putText s text) := by
  induction text generalizing str n s with
  | nil =>
    obtain ⟨n, rfl⟩ := Nat.exists_eq_add_of_lt hn
    have hbody : printBody m (s, str) = .leave s := if_neg (not_not.mpr h.1)
    exact run_leave hbody _
  | cons c text ih =>
    rw [List.length_cons] at hn
    obtain ⟨n, rfl⟩ : ∃ k, n = k + 1 := Nat.exists_eq_succ_of_ne_zero (by omega)
    obtain ⟨hc, htext⟩ := h
    have hne : m str ≠ 0 := hc ▸ (List.ne_of_not_mem_cons hzero).symm
    have hbody : printBody m (s, str) = .again (consolePutchar s c, str + 1) := by
      rw [printBody, if_pos hne, hc]
    rw [run_again hbody]
    exact ih (List.not_mem_of_not_mem_cons hzero) htext (by omega) _

theorem consolePrint_string {str : ℕ} {text : CString} (hlen : text.val.length < wordCount)
    (h : StringAt m str text.val) (s : Console) :
    consolePrint m str s = some (putText s text.val) :=
  printBody_run text.property h hlen s

theorem printInt_decimalText (buf : Bytes) (num : Int32) :
    DecimalPrinters.printInt buf num = decimalText num := by
  by_cases hmin : num = Int32.minValue
  · rw [hmin, DecimalPrinters.printInt_minValue, decimalText, if_pos rfl]
  · rw [DecimalPrinters.printInt_spec buf hmin, decimalText, if_neg hmin]

theorem Prints.takes (h : Prints m letter arg text) : Takes letter := by
  cases h with
  | string => exact .inl rfl
  | char => exact .inr (.inl rfl)
  | decimal => exact .inr (.inr rfl)

theorem convert_prints (h : Prints m letter arg text) (s : Console) (args : List UInt32) :
    convert m buf letter s (arg :: args) = some (putText s text, args) := by
  cases h with
  | string hlen htext =>
    rw [convert.eq_def, if_pos rfl]
    exact congrArg (Option.map fun s => (s, args)) (consolePrint_string hlen htext s)
  | char =>
    rw [convert.eq_def, if_neg (by decide), if_pos rfl]
    rfl
  | decimal =>
    rw [convert.eq_def, if_neg (by decide), if_neg (by decide), if_pos rfl]
    exact congrArg (fun text => some (putText s text, args)) (printInt_decimalText buf _)

theorem convert_unknown (h : ¬Takes letter) (s : Console) (args : List UInt32) :
    convert m buf letter s args = some (putText s [percent, letter], args) := by
  obtain ⟨hs, hc, hd⟩ : letter ≠ letterS ∧ letter ≠ letterC ∧ letter ≠ letterD := by
    simpa only [Takes, not_or] using h
  rw [convert.eq_def, if_neg hs, if_neg hc, if_neg hd]
  rfl

theorem convert_args {t : Console × List UInt32} (h : convert m buf letter s args = some t) :
    t.2.length + (if Takes letter then 1 else 0) = args.length := by
  by_cases htakes : Takes letter
  · rw [if_pos htakes]
    cases args with
    | nil =>
      rcases htakes with rfl | rfl | rfl
      · cases h
      · cases h
      · cases h
    | cons arg args =>
      rcases htakes with rfl | rfl | rfl
      · obtain ⟨s, -, rfl⟩ := Option.map_eq_some_iff.mp h
        rfl
      · cases h
        rfl
      · cases h
        rfl
  · rw [convert_unknown htakes] at h
    cases h
    rw [if_neg htakes, Nat.add_zero]

end Letters

/-- The rest of the format is in memory ahead of the index, up to its end at `len`. -/
structure Ahead (m : Bytes) (fmt len : ℕ) (s : Printing) (rest : List UInt8) : Prop where
  held : StringAt m (fmt + s.i) rest
  noZero : 0 ∉ rest
  index : s.i + rest.length = len

theorem ahead_start {m : Bytes} {fmt : ℕ} (text : CString) (h : StringAt m fmt text.val)
    (console : Console) (args : List UInt32) :
    Ahead m fmt text.val.length ⟨console, args, 0⟩ text.val :=
  ⟨h, text.property, Nat.zero_add _⟩

section Rounds

variable {m buf : Bytes} {fmt len : ℕ} {s t : Printing} {c letter : UInt8} {rest : List UInt8}
  {letters : List UInt8} {console : Console} {args : List UInt32}

theorem conversions_text (hc : c ≠ percent) (rest : List UInt8) :
    conversions (c :: rest) = conversions rest := by
  cases rest with
  | nil => rfl
  | cons letter rest => exact if_neg hc

theorem conversions_percent (letter : UInt8) (rest : List UInt8) :
    conversions (percent :: letter :: rest) = letter :: conversions rest := if_pos rfl

theorem dangling_text (hc : c ≠ percent) (rest : List UInt8) :
    Dangling (c :: rest) ↔ Dangling rest := by
  cases rest with
  | nil => exact iff_of_false hc not_false
  | cons letter rest => rw [Dangling, if_neg hc]

theorem dangling_percent (letter : UInt8) (rest : List UInt8) :
    Dangling (percent :: letter :: rest) ↔ Dangling rest := by
  rw [Dangling, if_pos rfl]

theorem printfBody_end (h : m (fmt + s.i) = 0) : printfBody m buf fmt s = .leave (some s) :=
  if_pos h

theorem printfBody_text (h : m (fmt + s.i) = c) (hzero : c ≠ 0) (hc : c ≠ percent) :
    printfBody m buf fmt s =
      .again { s with console := consolePutchar s.console c, i := s.i + 1 } := by
  rw [printfBody, h, if_neg hzero, if_neg hc]

theorem printfBody_percent (h : m (fmt + s.i) = percent) : printfBody m buf fmt s =
    match convert m buf (m (fmt + (s.i + 1))) s.console s.args with
    | some (console, args) => .again ⟨console, args, s.i + 1 + 1⟩
    | none => .leave none := by
  rw [printfBody, h, if_neg (by decide), if_pos rfl]

theorem printfBody_dangling (h : Ahead m fmt len s [percent]) : printfBody m buf fmt s =
    .again ⟨putText s.console [percent, 0], s.args, len + 1⟩ := by
  obtain ⟨hpercent, hend, -⟩ := h.held
  have hlen := h.index
  rw [printfBody_percent hpercent, ← Nat.add_assoc, hend, convert_unknown (by decide), ← hlen]
  rfl

theorem Ahead.atEnd (h : Ahead m fmt len s []) : printfBody m buf fmt s = .leave (some s) :=
  printfBody_end h.held.1

theorem Ahead.text (h : Ahead m fmt len s (c :: rest)) (buf : Bytes) (hc : c ≠ percent) :
    ∃ t, printfBody m buf fmt s = .again t ∧ Ahead m fmt len t rest ∧ t.args = s.args ∧
      t.console = consolePutchar s.console c := by
  obtain ⟨⟨hchar, hheld⟩, hzero, hindex⟩ := h
  refine ⟨_, printfBody_text hchar (List.ne_of_not_mem_cons hzero).symm hc, ?_, rfl, rfl⟩
  refine ⟨hheld, List.not_mem_of_not_mem_cons hzero, ?_⟩
  rw [← hindex, List.length_cons]
  dsimp only
  omega

theorem Ahead.conversion (h : Ahead m fmt len s (percent :: letter :: rest))
    (hconvert : convert m buf letter s.console s.args = some (console, args)) :
    ∃ t, printfBody m buf fmt s = .again t ∧ Ahead m fmt len t rest ∧ t.args = args ∧
      t.console = console := by
  obtain ⟨⟨hpercent, hletter, hheld⟩, hzero, hindex⟩ := h
  refine ⟨⟨console, args, s.i + 1 + 1⟩, ?_, ?_, rfl, rfl⟩
  · rw [printfBody_percent hpercent, ← Nat.add_assoc, hletter, hconvert]
  · refine ⟨hheld, List.not_mem_of_not_mem_cons (List.not_mem_of_not_mem_cons hzero), ?_⟩
    rw [← hindex, List.length_cons, List.length_cons]
    dsimp only
    omega

theorem Ahead.again (h : Ahead m fmt len s rest) (hrest : rest ≠ [percent])
    (hbody : printfBody m buf fmt s = .again t) :
    ∃ behind, Ahead m fmt len t behind ∧ behind.length < rest.length ∧
      (Dangling behind ↔ Dangling rest) ∧
      (conversions rest = conversions behind ∧ t.args = s.args ∨
        ∃ letter, conversions rest = letter :: conversions behind ∧
          ∃ console, convert m buf letter s.console s.args = some (console, t.args)) := by
  rcases rest with - | ⟨c, rest⟩
  · rw [h.atEnd] at hbody
    cases hbody
  by_cases hc : c = percent
  · subst hc
    rcases rest with - | ⟨letter, rest⟩
    · exact absurd rfl hrest
    obtain ⟨hpercent, hletter, -⟩ := h.held
    cases hconvert : convert m buf letter s.console s.args with
    | none =>
      rw [printfBody_percent hpercent, ← Nat.add_assoc, hletter, hconvert] at hbody
      cases hbody
    | some r =>
      obtain ⟨console, args⟩ := r
      obtain ⟨u, hround, hahead, rfl, -⟩ := h.conversion hconvert
      rw [hround] at hbody
      cases hbody
      refine ⟨rest, hahead, ?_, (dangling_percent letter rest).symm, .inr ?_⟩
      · rw [List.length_cons, List.length_cons]
        omega
      · exact ⟨letter, conversions_percent letter rest, console, hconvert⟩
  · obtain ⟨u, hround, hahead, hargs, -⟩ := h.text buf hc
    rw [hround] at hbody
    cases hbody
    exact ⟨rest, hahead, Nat.lt_succ_self _, (dangling_text hc rest).symm,
      .inl ⟨conversions_text hc rest, hargs⟩⟩

theorem supplied_cons {arg : UInt32} {text : List UInt8} (h : Prints m letter arg text)
    (hargs : Supplied m letters args) : Supplied m (letter :: letters) (arg :: args) := by
  rw [Supplied, if_pos h.takes]
  exact ⟨arg, args, text, rfl, h, hargs⟩

theorem supplied_skip (h : ¬Takes letter) (hargs : Supplied m letters args) :
    Supplied m (letter :: letters) args := by
  rw [Supplied, if_neg h]
  exact hargs

theorem supplied_takes (h : Supplied m (letter :: letters) args) (htakes : Takes letter) :
    ∃ arg rest text, args = arg :: rest ∧ Prints m letter arg text ∧ Supplied m letters rest := by
  rw [Supplied, if_pos htakes] at h
  exact h

theorem supplied_unknown (h : Supplied m (letter :: letters) args) (htakes : ¬Takes letter) :
    Supplied m letters args := by
  rw [Supplied, if_neg htakes] at h
  exact h

theorem Supplied.convert (h : Supplied m (letter :: letters) args) (buf : Bytes)
    (console : Console) :
    ∃ t, ConsolePrintf.convert m buf letter console args = some t ∧ Supplied m letters t.2 := by
  by_cases htakes : Takes letter
  · obtain ⟨arg, rest, text, rfl, hprints, hrest⟩ := supplied_takes h htakes
    exact ⟨_, convert_prints hprints console rest, hrest⟩
  · exact ⟨_, convert_unknown htakes console args, supplied_unknown h htakes⟩

theorem Ahead.progress (h : Ahead m fmt len s rest) (buf : Bytes) (hrest : rest ≠ [])
    (hargs : Supplied m (conversions rest) s.args) : ∃ t, printfBody m buf fmt s = .again t := by
  obtain ⟨c, rest, rfl⟩ := List.exists_cons_of_ne_nil hrest
  by_cases hc : c = percent
  · subst hc
    rcases rest with - | ⟨letter, rest⟩
    · exact ⟨_, printfBody_dangling h⟩
    · rw [conversions_percent] at hargs
      obtain ⟨r, hconvert, -⟩ := hargs.convert buf s.console
      obtain ⟨t, hround, -⟩ := h.conversion hconvert
      exact ⟨t, hround⟩
  · obtain ⟨t, hround, -⟩ := h.text buf hc
    exact ⟨t, hround⟩

/-- A round takes no argument of a conversion that is still ahead. -/
theorem Ahead.supplied (h : Ahead m fmt len s rest) (hrest : rest ≠ [percent])
    (hargs : Supplied m (conversions rest) s.args) (hbody : printfBody m buf fmt s = .again t) :
    ∃ behind, Ahead m fmt len t behind ∧ behind.length < rest.length ∧
      (Dangling behind ↔ Dangling rest) ∧ Supplied m (conversions behind) t.args := by
  obtain ⟨behind, hahead, hlt, hdangling, ⟨hsame, heq⟩ | ⟨letter, hcons, console, hconvert⟩⟩ :=
    h.again hrest hbody
  · refine ⟨behind, hahead, hlt, hdangling, ?_⟩
    rw [← hsame, heq]
    exact hargs
  · refine ⟨behind, hahead, hlt, hdangling, ?_⟩
    rw [hcons] at hargs
    obtain ⟨r, hr, hsupplied⟩ := hargs.convert buf s.console
    rw [hconvert] at hr
    cases hr
    exact hsupplied

end Rounds

inductive ArgWord (m : Bytes) : DecimalPrinters.Arg → UInt32 → Prop where
  | string {str : UInt32} {text : CString} : text.val.length < wordCount →
      StringAt m str.toNat text.val → ArgWord m (.string text.val) str
  | int (num : UInt32) : ArgWord m (.int num.toInt32) num

section Texts

variable {m : Bytes} {word : UInt32} {str : List UInt8} {num : Int32}

theorem ArgWord.prints_string (h : ArgWord m (.string str) word) : Prints m letterS word str := by
  cases h with
  | string hlen hstr => exact .string hlen hstr

theorem ArgWord.prints_char (h : ArgWord m (.int num) word) :
    Prints m letterC word [UInt8.ofNat num.toUInt32.toNat] := by
  cases h with
  | int word =>
    have hchar : UInt8.ofNat word.toInt32.toUInt32.toNat = word.toUInt8 := by
      rw [UInt32.toUInt32_toInt32]
      rfl
    exact hchar ▸ .char word

theorem ArgWord.prints_decimal (h : ArgWord m (.int num) word) (buf : Bytes) :
    Prints m letterD word (DecimalPrinters.printInt buf num) := by
  cases h with
  | int word => exact printInt_decimalText buf _ ▸ .decimal word

end Texts

section Output

variable {m buf : Bytes} {fmt len n : ℕ} {s : Printing} {rest text : List UInt8}
  {args : List DecimalPrinters.Arg} {words : List UInt32} {letter : UInt8}

theorem Ahead.known (h : Ahead m fmt len s (percent :: letter :: rest)) (buf : Bytes) {arg : UInt32}
    (hwords : s.args = arg :: words) (hprints : Prints m letter arg text) :
    ∃ t, printfBody m buf fmt s = .again t ∧ Ahead m fmt len t rest ∧ t.args = words ∧
      t.console = putText s.console text := by
  refine h.conversion ?_
  rw [hwords]
  exact convert_prints hprints s.console words

theorem Ahead.unknown (h : Ahead m fmt len s (percent :: letter :: rest)) (buf : Bytes)
    (htakes : ¬Takes letter) :
    ∃ t, printfBody m buf fmt s = .again t ∧ Ahead m fmt len t rest ∧ t.args = s.args ∧
      t.console = putText s.console [percent, letter] :=
  h.conversion (convert_unknown htakes s.console s.args)

theorem putText_append (s : Console) (text rest : List UInt8) :
    putText s (text ++ rest) = putText (putText s text) rest := List.foldl_append

theorem run_piece {t : Printing} {more : List UInt8} (hbody : printfBody m buf fmt s = .again t)
    (hconsole : t.console = putText s.console text)
    (hmore : ∃ u, run (printfBody m buf fmt) n t = some (some u) ∧
      u.console = putText t.console more) :
    ∃ u, run (printfBody m buf fmt) (n + 1) s = some (some u) ∧
      u.console = putText s.console (text ++ more) := by
  obtain ⟨u, hrun, hu⟩ := hmore
  exact ⟨u, (run_again hbody n).trans hrun, by rw [hu, hconsole, putText_append]⟩

theorem Ahead.piece (h : Ahead m fmt len s (percent :: letter :: rest)) {arg : UInt32}
    {more : List UInt8} (hwords : s.args = arg :: words) (hprints : Prints m letter arg text)
    (hn : (percent :: letter :: rest).length < n)
    (hrest : ∀ t, Ahead m fmt len t rest ∧ t.args = words → ∀ {n}, rest.length < n →
      ∃ u, run (printfBody m buf fmt) n t = some (some u) ∧ u.console = putText t.console more) :
    ∃ u, run (printfBody m buf fmt) n s = some (some u) ∧
      u.console = putText s.console (text ++ more) := by
  obtain ⟨n, rfl⟩ : ∃ k, n = k + 1 := Nat.exists_eq_succ_of_ne_zero (by omega)
  obtain ⟨t, hbody, hahead, hargs, hconsole⟩ := h.known buf hwords hprints
  rw [List.length_cons, List.length_cons] at hn
  exact run_piece hbody hconsole (hrest t ⟨hahead, hargs⟩ (by omega))

theorem Ahead.atEnd_run (h : Ahead m fmt len s []) (hn : 0 < n) :
    run (printfBody m buf fmt) n s = some (some s) := by
  obtain ⟨n, rfl⟩ := Nat.exists_eq_add_of_lt hn
  exact run_leave h.atEnd _

theorem Ahead.prints (h : Ahead m fmt len s rest) (hwords : List.Forall₂ (ArgWord m) args s.args)
    (htext : DecimalPrinters.consolePrintf buf rest args = some text) (hn : rest.length < n) :
    ∃ t, run (printfBody m buf fmt) n s = some (some t) ∧ t.console = putText s.console text := by
  fun_induction DecimalPrinters.consolePrintf buf rest args generalizing s text n with
  | case1 args =>
    cases htext
    exact ⟨s, h.atEnd_run hn, rfl⟩
  | case2 rest str args ih =>
    obtain ⟨more, hmore, rfl⟩ := Option.map_eq_some_iff.mp htext
    obtain ⟨word, words, hword, hwords, hargs⟩ := List.forall₂_cons_left_iff.mp hwords
    exact h.piece hargs hword.prints_string hn fun t ht => ih ht.1 (ht.2 ▸ hwords) hmore
  | case3 rest c args ih =>
    obtain ⟨more, hmore, rfl⟩ := Option.map_eq_some_iff.mp htext
    obtain ⟨word, words, hword, hwords, hargs⟩ := List.forall₂_cons_left_iff.mp hwords
    exact h.piece hargs hword.prints_char hn fun t ht => ih ht.1 (ht.2 ▸ hwords) hmore
  | case4 rest num args ih =>
    obtain ⟨more, hmore, rfl⟩ := Option.map_eq_some_iff.mp htext
    obtain ⟨word, words, hword, hwords, hargs⟩ := List.forall₂_cons_left_iff.mp hwords
    exact h.piece hargs (hword.prints_decimal buf) hn fun t ht => ih ht.1 (ht.2 ▸ hwords) hmore
  | case5 => cases htext
  | case6 => cases htext
  | case7 letter rest args _ _ _ htakes ih =>
    obtain ⟨more, hmore, rfl⟩ := Option.map_eq_some_iff.mp htext
    obtain ⟨n, rfl⟩ : ∃ k, n = k + 1 := Nat.exists_eq_succ_of_ne_zero (by omega)
    obtain ⟨t, hbody, hahead, hargs, hconsole⟩ := h.unknown buf htakes
    rw [List.length_cons, List.length_cons] at hn
    exact run_piece hbody hconsole (ih hahead (hargs ▸ hwords) hmore (by omega))
  | case8 c rest args _ _ _ hlast hpercent ih =>
    obtain ⟨more, hmore, rfl⟩ := Option.map_eq_some_iff.mp htext
    obtain ⟨n, rfl⟩ : ∃ k, n = k + 1 := Nat.exists_eq_succ_of_ne_zero (by omega)
    have hc : c ≠ percent := by
      rintro rfl
      cases rest with
      | nil => exact hlast rfl rfl
      | cons letter rest => exact hpercent letter rest rfl rfl
    obtain ⟨t, hbody, hahead, hargs, hconsole⟩ := h.text buf hc
    rw [List.length_cons] at hn
    have hconsole : t.console = putText s.console [c] := hconsole
    exact run_piece hbody hconsole (ih hahead (hargs ▸ hwords) hmore (by omega))

/-- The loop over the format in memory refines the formatter on texts. -/
theorem consolePrintf_text {format : CString} (hfmt : StringAt m fmt format.val)
    (hlen : format.val.length < wordCount) (hwords : List.Forall₂ (ArgWord m) args words)
    (htext : DecimalPrinters.consolePrintf buf format.val args = some text) (console : Console) :
    ∃ t, consolePrintf m buf fmt words console = some (some t) ∧
      t.console = putText console text :=
  (ahead_start format hfmt console words).prints hwords htext hlen

end Output

end ConsolePrintf
