import SojebOS.CStrings
import SojebOS.ConsoleWindow

/-!
# Lines that are typed

`console_get_char` turns scancodes into characters, and `console_read_line` collects them in a
buffer with an echo on the screen. The index into the buffer and the cursor are changed apart from
each other, and stay in step.
-/
namespace LineEditing

open ByteMemory WhileLoop CStrings ScrollingPage ConsoleScreen ConsoleWindow

def scancodeMap : List UInt8 :=
  [0, 27, 49, 50, 51, 52, 53, 54, 55, 56, 57, 48,
    45, 61, 8, 9, 113, 119, 101, 114, 116, 121, 117, 105,
    111, 112, 91, 93, 10, 0, 97, 115, 100, 102, 103, 104,
    106, 107, 108, 59, 39, 96, 0, 92, 122, 120, 99, 118,
    98, 110, 109, 44, 46, 47, 0, 42, 0, 32]

def scancodeMapShift : List UInt8 :=
  [0, 27, 33, 64, 35, 36, 37, 94, 38, 42, 40, 41,
    95, 43, 8, 9, 81, 87, 69, 82, 84, 89, 85, 73,
    79, 80, 123, 125, 10, 0, 65, 83, 68, 70, 71, 72,
    74, 75, 76, 58, 34, 126, 0, 124, 90, 88, 67, 86,
    66, 78, 77, 60, 62, 63, 0, 42, 0, 32]

def scancodeChar (shiftPressed : Bool) (sc : UInt8) : UInt8 :=
  (if shiftPressed then scancodeMapShift else scancodeMap).getD sc.toNat 0

/-- The character, the console with its `shift_pressed`, and the scancodes that are left. `none`
stands for waiting for the next scancode. -/
def consoleGetChar (s : Console) : List UInt8 → Option (UInt8 × Console × List UInt8)
  | [] => none
  | sc :: scancodes =>
    if sc = 0x2A ∨ sc = 0x36 then consoleGetChar { s with shiftPressed := true } scancodes
    else if sc = 0xAA ∨ sc = 0xB6 then consoleGetChar { s with shiftPressed := false } scancodes
    else if sc &&& 0x80 ≠ 0 then consoleGetChar s scancodes
    else if sc < 58 then
      let c := scancodeChar s.shiftPressed sc
      if c ≠ 0 then some (c, s, scancodes) else consoleGetChar s scancodes
    else consoleGetChar s scancodes

/-- The console, the memory with the buffer in it, and `idx`. -/
structure Line where
  console : Console
  memory : Bytes
  idx : ℕ

/-- A round of the loop of `console_read_line` on the character that is delivered. -/
def readLineBody (buffer : ℕ) (maxLen : ℤ) (c : UInt8) (s : Line) : Iteration Line Line :=
  if c = newlineChar then
    .leave { s with
      console := consolePutchar s.console newlineChar
      memory := store8 s.memory (buffer + s.idx) 0 }
  else if c = backspaceChar then
    if s.idx > 0 then
      .again { s with
        idx := s.idx - 1
        console := consolePutchar s.console backspaceChar }
    else .again s
  else if s.idx < maxLen - 1 then
    .again {
      console := consolePutchar s.console c
      memory := store8 s.memory (buffer + s.idx) c
      idx := s.idx + 1 }
  else .again s

/-- The loop at the end of what is typed so far, or what it leaves with. -/
def consoleReadLine (buffer : ℕ) (maxLen : ℤ) (s : Line) : List UInt8 → Iteration Line Line
  | [] => .again s
  | c :: typed =>
    match readLineBody buffer maxLen c s with
    | .again t => consoleReadLine buffer maxLen t typed
    | .leave t => .leave t

def edit (maxLen : ℤ) (chars : List UInt8) (c : UInt8) : List UInt8 :=
  if c = backspaceChar then chars.dropLast
  else if chars.length < maxLen - 1 then chars ++ [c]
  else chars

/-- The line is in the buffer and on the screen, directly before the cursor. -/
structure Echoes (buffer : ℕ) (s : Line) (chars : List UInt8) : Prop where
  idx : s.idx = chars.length
  held : TextAt s.memory buffer chars
  room : chars.length ≤ s.console.cursor
  echo : ∀ k (h : k < chars.length),
    s.console.video (s.console.cursor - chars.length + k) = coloured chars[k]
  blank : ∀ i : ℕ, s.console.cursor ≤ i → i < 2000 → s.console.video i = blankCell

/-- The line is a string in the buffer, and only the buffer is written. -/
structure Entered (buffer : ℕ) (maxLen : ℤ) (m : Bytes) (s : Line) (chars : List UInt8) : Prop where
  string : StringAt s.memory buffer chars
  fits : (chars.length : ℤ) < maxLen
  other : ∀ x : ℕ, x < buffer ∨ buffer + maxLen ≤ x → s.memory x = m x

section Keyboard

theorem scancodeChar_le (shiftPressed : Bool) (sc : UInt8) :
    (scancodeChar shiftPressed sc).toNat ≤ 127 := by
  have hall : (if shiftPressed then scancodeMapShift else scancodeMap).all
      fun d => d.toNat ≤ 127 := by
    cases shiftPressed with
    | false => decide
    | true => decide
  have hmaps : ∀ d ∈ (if shiftPressed then scancodeMapShift else scancodeMap), d.toNat ≤ 127 :=
    fun d hd => of_decide_eq_true (List.all_eq_true.mp hall d hd)
  rw [scancodeChar, List.getD_eq_getElem?_getD]
  cases hget : (if shiftPressed then scancodeMapShift else scancodeMap)[sc.toNat]? with
  | none => decide
  | some d => exact hmaps d (List.mem_of_getElem? hget)

theorem consoleGetChar_delivers {s t : Console} {scancodes rest : List UInt8} {c : UInt8}
    (h : consoleGetChar s scancodes = some (c, t, rest)) : 1 ≤ c.toNat ∧ c.toNat ≤ 127 := by
  induction scancodes generalizing s with
  | nil => cases h
  | cons sc scancodes ih =>
    rw [consoleGetChar] at h
    split_ifs at h with hpress hrelease hbreak hlow
    · exact ih h
    · exact ih h
    · exact ih h
    · dsimp only at h
      split_ifs at h with hnonNull
      · cases h
        refine ⟨Nat.pos_of_ne_zero fun hzero => hnonNull (UInt8.toNat_inj.mp hzero), ?_⟩
        exact scancodeChar_le _ _
      · exact ih h
    · exact ih h

end Keyboard

/-- The invariant of the loop: the screen shows a page that ends with the line. -/
structure InStep (buffer : ℕ) (maxLen : ℤ) (m : Bytes) (s : Line) (p : Page UInt16)
    (chars : List UInt8) : Prop where
  shows : Shows s.console p
  ends : EndsWith 80 p (chars.map videoCell)
  low : ∀ c ∈ chars, c.toNat ≤ 127
  idx : s.idx = chars.length
  held : TextAt s.memory buffer chars
  fits : (chars.length : ℤ) < maxLen
  other : ∀ x : ℕ, x < buffer ∨ buffer + maxLen ≤ x → s.memory x = m x

section Rounds

variable {buffer : ℕ} {maxLen : ℤ} {m : Bytes} {s : Line} {p : Page UInt16} {chars : List UInt8}
  {c : UInt8} {typed : List UInt8}

theorem InStep.echoes (h : InStep buffer maxLen m s p chars) : Echoes buffer s chars := by
  have hroom := h.ends.room
  have hbelow := h.shows.inWindow.below
  have hcursor := h.shows.cursor
  rw [List.length_map] at hroom
  refine ⟨h.idx, h.held, by omega, fun k hk => ?_, fun i hi hi' => ?_⟩
  · have htext := h.ends.text k (by rwa [List.length_map])
    simp only [List.getElem_map, List.length_map] at htext
    rw [videoCell_ascii (h.low _ (List.getElem_mem hk))] at htext
    have hindex : s.console.cursor - chars.length + k =
        (p.next - 80 * p.top - chars.length + k : ℕ) := by omega
    rw [hindex, h.shows.cell _ (by omega), ← htext]
    congr 1
    omega
  · rw [h.shows.cell i hi']
    exact h.shows.inWindow.rest _ (by omega)

theorem InStep.entered (h : InStep buffer maxLen m s p chars) : ∃ t,
    readLineBody buffer maxLen newlineChar s = .leave t ∧ Entered buffer maxLen m t chars := by
  have hidx := h.idx
  have hfits := h.fits
  refine ⟨_, if_pos rfl, ?_, hfits, fun x hx => ?_⟩
  · refine textAt_append.mpr ⟨h.held.congr fun x _ hx => store8_other (by omega), ?_, trivial⟩
    rw [hidx]
    exact store8_same _ _ _
  · dsimp only
    rw [store8_other (by omega)]
    exact h.other x hx

theorem InStep.erase (h : InStep buffer maxLen m s p chars) :
    ∃ t q, readLineBody buffer maxLen backspaceChar s = .again t ∧
      InStep buffer maxLen m t q (edit maxLen chars backspaceChar) := by
  have hidx := h.idx
  have hfits := h.fits
  rw [readLineBody, if_neg (by decide), if_pos rfl, edit, if_pos rfl]
  by_cases hpos : s.idx > 0
  · rw [if_pos hpos]
    have hne : chars ≠ [] := by
      rintro rfl
      simp only [List.length_nil] at hidx
      omega
    refine ⟨_, p.apply blankCell 80 25 .erase, rfl, putchar_shows h.shows backspaceChar, ?_,
      fun c hc => h.low c (List.mem_of_mem_dropLast hc), ?_, ?_, ?_, h.other⟩
    · rw [List.map_dropLast]
      exact endsWith_erase h.ends (by rwa [ne_eq, List.map_eq_nil_iff])
    · rw [List.length_dropLast, hidx]
    · have hheld := h.held
      rw [← List.dropLast_append_getLast hne] at hheld
      exact (textAt_append.mp hheld).1
    · rw [List.length_dropLast]
      omega
  · rw [if_neg hpos]
    have hnil : chars = [] := List.eq_nil_of_length_eq_zero (by omega)
    rw [hnil, List.dropLast_nil, ← hnil]
    exact ⟨s, p, rfl, h⟩

theorem InStep.type (h : InStep buffer maxLen m s p chars) (hmax : maxLen ≤ 1000)
    (hc : c.toNat ≤ 127) (hnewline : c ≠ newlineChar) (hback : c ≠ backspaceChar) :
    ∃ t q, readLineBody buffer maxLen c s = .again t ∧
      InStep buffer maxLen m t q (edit maxLen chars c) := by
  have hidx := h.idx
  have hfits := h.fits
  rw [readLineBody, if_neg hnewline, if_neg hback, edit, if_neg hback]
  by_cases hroom : (chars.length : ℤ) < maxLen - 1
  · rw [if_pos hroom, if_pos (by omega)]
    have hshows := putchar_shows h.shows c
    rw [outputOf, if_neg hnewline, if_neg hback] at hshows
    refine ⟨_, _, rfl, hshows, ?_, ?_, ?_, ?_, ?_, fun x hx => ?_⟩
    · rw [List.map_append]
      exact endsWith_put h.shows.inWindow h.ends _ (by rw [List.length_map]; omega)
    · intro d hd
      rcases List.mem_append.mp hd with hd | hd
      · exact h.low d hd
      · rw [List.mem_singleton.mp hd]
        exact hc
    · rw [List.length_append, List.length_singleton, hidx]
    · refine textAt_append.mpr ⟨h.held.congr fun x _ hx => store8_other (by omega), ?_, trivial⟩
      rw [hidx]
      exact store8_same _ _ _
    · rw [List.length_append, List.length_singleton]
      push_cast
      omega
    · dsimp only
      rw [store8_other (by omega)]
      exact h.other x hx
  · rw [if_neg hroom, if_neg (by omega)]
    exact ⟨s, p, rfl, h⟩

theorem InStep.run (h : InStep buffer maxLen m s p chars) (hmax : maxLen ≤ 1000)
    (htyped : ∀ c ∈ typed, c.toNat ≤ 127 ∧ c ≠ newlineChar) :
    ∃ t q, consoleReadLine buffer maxLen s typed = .again t ∧
      InStep buffer maxLen m t q (typed.foldl (edit maxLen) chars) := by
  induction typed generalizing s p chars with
  | nil => exact ⟨s, p, rfl, h⟩
  | cons c typed ih =>
    obtain ⟨hc, hnewline⟩ := htyped c List.mem_cons_self
    have hround : ∃ t q, readLineBody buffer maxLen c s = .again t ∧
        InStep buffer maxLen m t q (edit maxLen chars c) := by
      by_cases hback : c = backspaceChar
      · rw [hback]
        exact h.erase
      · exact h.type hmax hc hnewline hback
    obtain ⟨t, q, hbody, hstep⟩ := hround
    rw [consoleReadLine, hbody]
    exact ih hstep fun d hd => htyped d (List.mem_cons_of_mem c hd)

theorem consoleReadLine_append {t : Line} {rest : List UInt8}
    (h : consoleReadLine buffer maxLen s typed = .again t) :
    consoleReadLine buffer maxLen s (typed ++ rest) = consoleReadLine buffer maxLen t rest := by
  induction typed generalizing s with
  | nil =>
    cases h
    rfl
  | cons c typed ih =>
    rw [consoleReadLine] at h
    rw [List.cons_append, consoleReadLine]
    cases hbody : readLineBody buffer maxLen c s with
    | again u =>
      rw [hbody] at h
      exact ih h
    | leave u =>
      rw [hbody] at h
      cases h

theorem inStep_start (s : Console) (printed : List UInt8) (m : Bytes) (buffer : ℕ)
    (hmin : 1 ≤ maxLen) :
    InStep buffer maxLen m ⟨putText (consoleClear s) printed, m, 0⟩ (pageOf printed) [] := by
  have hshows := text_shows s printed
  exact ⟨hshows, endsWith_nil hshows.inWindow, fun _ hc => absurd hc List.not_mem_nil, rfl,
    trivial, hmin, fun _ _ => rfl⟩

theorem InStep.enter (h : InStep buffer maxLen m s p chars) (hmax : maxLen ≤ 1000)
    (htyped : ∀ c ∈ typed, c.toNat ≤ 127 ∧ c ≠ newlineChar) :
    ∃ u, consoleReadLine buffer maxLen s (typed ++ [newlineChar]) = .leave u ∧
      Entered buffer maxLen m u (typed.foldl (edit maxLen) chars) := by
  obtain ⟨t, q, hread, hstep⟩ := h.run hmax htyped
  obtain ⟨u, hbody, hentered⟩ := hstep.entered
  refine ⟨u, ?_, hentered⟩
  rw [consoleReadLine_append hread, consoleReadLine, hbody]

end Rounds

/-- After any output, the line in the buffer and its echo are the fold of what is typed, and a
newline ends the line as a string. -/
theorem line_echoes (s : Console) (printed : List UInt8) (m : Bytes) (buffer : ℕ) (maxLen : ℤ)
    (hmin : 1 ≤ maxLen) (hmax : maxLen ≤ 1000) (typed : List UInt8)
    (htyped : ∀ c ∈ typed, 1 ≤ c.toNat ∧ c.toNat ≤ 127 ∧ c ≠ newlineChar) :
    ∃ t, consoleReadLine buffer maxLen ⟨putText (consoleClear s) printed, m, 0⟩ typed = .again t ∧
      Echoes buffer t (typed.foldl (edit maxLen) []) ∧
      ∃ u, consoleReadLine buffer maxLen ⟨putText (consoleClear s) printed, m, 0⟩
          (typed ++ [newlineChar]) = .leave u ∧
        Entered buffer maxLen m u (typed.foldl (edit maxLen) []) := by
  have hstart := inStep_start s printed m buffer hmin
  have hchars : ∀ c ∈ typed, c.toNat ≤ 127 ∧ c ≠ newlineChar := fun c hc => (htyped c hc).2
  obtain ⟨t, p, hread, hstep⟩ := hstart.run hmax hchars
  exact ⟨t, hread, hstep.echoes, hstart.enter hmax hchars⟩

/-- `"lx"`, a backspace and `"s"`, in the buffer of the shell. -/
theorem line_echoes_ls :
    ∃ t, consoleReadLine 0x8000 64 ⟨putText (consoleClear ⟨fun _ => 0, 0, false⟩) [62, 32],
        fun _ => 0, 0⟩ [108, 120, 8, 115] = .again t ∧
      Echoes 0x8000 t ([108, 120, 8, 115].foldl (edit 64) []) ∧
      ∃ u, consoleReadLine 0x8000 64 ⟨putText (consoleClear ⟨fun _ => 0, 0, false⟩) [62, 32],
          fun _ => 0, 0⟩ ([108, 120, 8, 115] ++ [newlineChar]) = .leave u ∧
        Entered 0x8000 64 (fun _ => 0) u ([108, 120, 8, 115].foldl (edit 64) []) :=
  line_echoes _ _ _ _ _ (by norm_num) (by norm_num) _ (by simp [newlineChar])

end LineEditing
