import SojebOS.ConsoleScreen

/-!
# The screen as a window on the output

The output is a sheet of rows: a row is full after 80 characters, and a newline starts the next
one. The screen shows the last 25 rows of the sheet, the one of the next character among them.
-/
namespace ConsoleWindow

open MachineWord HashTable ScrollingPage ConsoleScreen

/-- The rows that are finished, and the one to which the next character goes. -/
structure Sheet where
  above : List (List UInt8)
  current : List UInt8

def Sheet.type (t : Sheet) (c : UInt8) : Sheet :=
  if c = newlineChar then ⟨t.above ++ [t.current], []⟩
  else if t.current.length + 1 = 80 then ⟨t.above ++ [t.current ++ [c]], []⟩
  else ⟨t.above, t.current ++ [c]⟩

def sheet (text : List UInt8) : Sheet := text.foldl Sheet.type ⟨[], []⟩

/-- What is not written is blank. -/
def charAt (rows : List (List UInt8)) (row column : ℕ) : UInt8 :=
  (rows.getD row []).getD column spaceChar

def Sheet.char (t : Sheet) (row column : ℕ) : UInt8 := charAt (t.above ++ [t.current]) row column

/-- The last 25 rows are shown, or the first 25 while there are fewer. -/
def Sheet.firstShown (t : Sheet) : ℕ := t.above.length + 1 - 25

def coloured (c : UInt8) : UInt16 := UInt16.ofNat (whiteOnBlack * 256 + c.toNat)

structure IsWindow (s : Console) (t : Sheet) : Prop where
  onScreen : 0 ≤ s.cursor ∧ s.cursor < 2000
  cursor : s.cursor = 80 * ((t.above.length : ℤ) - t.firstShown) + t.current.length
  cell : ∀ y < 25, ∀ x < 80, s.video (80 * y + x : ℕ) = coloured (t.char (t.firstShown + y) x)

section Cells

variable {c : UInt8} {rows above : List (List UInt8)} {current : List UInt8} {r x : ℕ}

theorem videoCell_ascii (hc : c.toNat ≤ 127) : videoCell c = coloured c := by
  have hlt : c.toNat < 2 ^ 8 := by omega
  rw [videoCell, coloured, charWord, if_pos (by omega), shiftLeft_or_eq_add hlt]
  rfl

theorem blankCell_eq : blankCell = coloured spaceChar := videoCell_ascii (by decide)

theorem getD_concat {α : Type} (l : List α) (a d : α) (k : ℕ) :
    (l ++ [a]).getD k d = if k = l.length then a else l.getD k d := by
  rw [List.getD_eq_getElem?_getD, List.getD_eq_getElem?_getD, List.getElem?_append]
  by_cases hk : k < l.length
  · rw [if_pos hk, if_neg (by omega)]
  rw [if_neg hk]
  by_cases hlast : k = l.length
  · rw [if_pos hlast, hlast, Nat.sub_self]
    rfl
  · rw [if_neg hlast, List.getElem?_eq_none (by rw [List.length_singleton]; omega),
      List.getElem?_eq_none (by omega)]

theorem charAt_newRow (rows : List (List UInt8)) (r x : ℕ) :
    charAt (rows ++ [[]]) r x = charAt rows r x := by
  rw [charAt, charAt, getD_concat]
  split_ifs with hr
  · rw [hr, List.getD_eq_default _ _ le_rfl]
  · rfl

theorem charAt_extend : charAt (above ++ [current ++ [c]]) r x =
    if r = above.length ∧ x = current.length then c else charAt (above ++ [current]) r x := by
  rw [charAt, charAt, getD_concat, getD_concat]
  by_cases hr : r = above.length
  · rw [if_pos hr, if_pos hr, getD_concat]
    exact if_congr (by omega) rfl rfl
  · rw [if_neg hr, if_neg hr, if_neg (by omega)]

end Cells

/-- The page has the rows of the sheet, and its window is at the end. -/
structure Matches (p : Page UInt16) (t : Sheet) : Prop where
  next : p.next = 80 * t.above.length + t.current.length
  room : t.current.length < 80
  atEnd : AtEnd 80 25 p
  cell : ∀ r x, x < 80 → p.cell (80 * r + x) = coloured (t.char r x)

section Typing

variable {p : Page UInt16} {t : Sheet} {c : UInt8}

theorem start_matches : Matches (start blankCell) ⟨[], []⟩ := by
  refine ⟨rfl, by norm_num, rfl, fun r x _ => ?_⟩
  rw [start, blankCell_eq, Sheet.char, List.nil_append]
  exact congrArg coloured (charAt_newRow [] r x).symm

theorem newline_matches (h : Matches p t) (hin : InWindow blankCell 80 25 p) :
    Matches (p.apply blankCell 80 25 .newline) ⟨t.above ++ [t.current], []⟩ := by
  have hnext := h.next
  have hroom := h.room
  refine ⟨?_, by norm_num, apply_atEnd (by norm_num) hin h.atEnd (by nofun), fun r x hx => ?_⟩
  · rw [Page.apply, scroll_next, List.length_append, List.length_singleton, List.length_nil]
    dsimp only
    omega
  · rw [Page.apply, scroll_cell, Sheet.char, charAt_newRow]
    exact h.cell r x hx

theorem put_matches (h : Matches p t) (hin : InWindow blankCell 80 25 p) (hc : c.toNat ≤ 127)
    (hnewline : c ≠ newlineChar) :
    Matches (p.apply blankCell 80 25 (.put (videoCell c))) (t.type c) := by
  have hnext := h.next
  have hroom := h.room
  have hcell : ∀ r x, x < 80 → (p.apply blankCell 80 25 (.put (videoCell c))).cell (80 * r + x) =
      coloured (charAt (t.above ++ [t.current ++ [c]]) r x) := by
    intro r x hx
    rw [Page.apply, scroll_cell, charAt_extend]
    dsimp only
    by_cases hhere : r = t.above.length ∧ x = t.current.length
    · rw [if_pos hhere, show 80 * r + x = p.next by omega, Function.update_self,
        videoCell_ascii hc]
    · rw [if_neg hhere, Function.update_of_ne (by omega)]
      exact h.cell r x hx
  have hput : Output.put (videoCell c) ≠ .erase := fun he => by cases he
  have hatEnd := apply_atEnd (by norm_num) hin h.atEnd hput
  rw [Sheet.type, if_neg hnewline]
  split_ifs with hfull
  · refine ⟨?_, by norm_num, hatEnd, fun r x hx => ?_⟩
    · rw [Page.apply, scroll_next, List.length_append, List.length_singleton, List.length_nil]
      dsimp only
      omega
    · rw [hcell r x hx, Sheet.char, charAt_newRow]
  · refine ⟨?_, ?_, hatEnd, hcell⟩
    · rw [Page.apply, scroll_next, List.length_append, List.length_singleton]
      dsimp only
      omega
    · rw [List.length_append, List.length_singleton]
      omega

theorem text_matches (text : List UInt8) (h : ∀ c ∈ text, c.toNat ≤ 127 ∧ c ≠ backspaceChar) :
    Matches (pageOf text) (sheet text) := by
  induction text using List.reverseRecOn with
  | nil => exact start_matches
  | append_singleton text c ih =>
    obtain ⟨hc, hback⟩ := h c (List.mem_append_right _ List.mem_cons_self)
    have hprev := ih fun d hd => h d (List.mem_append_left _ hd)
    have hin : InWindow blankCell 80 25 (pageOf text) := page_inWindow (by norm_num) (by norm_num) _
    rw [pageOf, List.map_append, page, List.foldl_append, sheet, List.foldl_append]
    change Matches ((pageOf text).apply blankCell 80 25 (outputOf c)) ((sheet text).type c)
    rw [outputOf]
    by_cases hnewline : c = newlineChar
    · rw [if_pos hnewline, Sheet.type, if_pos hnewline]
      exact newline_matches hprev hin
    · rw [if_neg hnewline, if_neg hback]
      exact put_matches hprev hin hc hnewline

end Typing

/-- Text without backspaces is seen through a window at its end. -/
theorem screen_is_window (s : Console) (text : List UInt8)
    (h : ∀ c ∈ text, 1 ≤ c.toNat ∧ c.toNat ≤ 127 ∧ c ≠ backspaceChar) :
    IsWindow (putText (consoleClear s) text) (sheet text) := by
  have hshows := text_shows s text
  obtain ⟨hnext, hroom, hatEnd, hcell⟩ := text_matches text fun c hc => (h c hc).2
  have hfirst : (pageOf text).top = (sheet text).firstShown := by
    rw [hatEnd, Sheet.firstShown]
    omega
  have hrow := hshows.inWindow.above
  refine ⟨hshows.bounds, ?_, fun y hy x hx => ?_⟩
  · rw [hshows.cursor, hfirst, hnext]
    push_cast
    omega
  · rw [hshows.cell _ (by omega), hfirst, ← hcell _ x hx]
    congr 1
    omega

/-- `"> \n"`. -/
theorem screen_is_window_prompt :
    IsWindow (putText (consoleClear ⟨fun _ => 0, 7, false⟩) [62, 32, 10]) (sheet [62, 32, 10]) :=
  screen_is_window _ _ (by simp [backspaceChar])

end ConsoleWindow
