import SojebOS.HashTable
import SojebOS.ScrollingPage

/-!
# The console

`console_putchar` and `scroll_up` of `drivers/console.c` on the cells of the video memory. What
they show is a page under a window of 25 rows, whatever is printed.
-/
namespace ConsoleScreen

open HashTable ScrollingPage

def consoleWidth : ℕ := 80
def consoleHeight : ℕ := 25
def whiteOnBlack : ℕ := 0x0F

def newlineChar : UInt8 := 10
def backspaceChar : UInt8 := 8
def spaceChar : UInt8 := 32

/-- `(WHITE_ON_BLACK << 8) | c`, with the `char` extended by its sign. -/
def videoCell (c : UInt8) : UInt16 := UInt16.ofNat (whiteOnBlack <<< 8 ||| charWord c)

def blankCell : UInt16 := videoCell spaceChar

/-- The video memory and the variable `console`. -/
structure Console where
  video : ℤ → UInt16
  cursor : ℤ
  shiftPressed : Bool

def scrollUp (video : ℤ → UInt16) : ℤ → UInt16 :=
  let video := (List.range' 1 (consoleHeight - 1)).foldl (fun video (y : ℕ) =>
    (List.range consoleWidth).foldl (fun video (x : ℕ) =>
      Function.update video (((y : ℤ) - 1) * consoleWidth + x) (video ((y : ℤ) * consoleWidth + x)))
      video) video
  (List.range consoleWidth).foldl (fun video (x : ℕ) =>
    Function.update video (((consoleHeight : ℤ) - 1) * consoleWidth + x) blankCell) video

def scrollBeyond (s : Console) : Console :=
  if s.cursor ≥ consoleWidth * consoleHeight then
    { s with cursor := s.cursor - consoleWidth, video := scrollUp s.video }
  else s

def consolePutchar (s : Console) (c : UInt8) : Console :=
  scrollBeyond <|
    if c = newlineChar then
      { s with cursor := s.cursor + (consoleWidth - s.cursor.tmod consoleWidth) }
    else if c = backspaceChar then
      if s.cursor > 0 then
        { s with
          cursor := s.cursor - 1
          video := Function.update s.video (s.cursor - 1) blankCell }
      else s
    else
      { s with
        cursor := s.cursor + 1
        video := Function.update s.video s.cursor (videoCell c) }

def consoleClear (s : Console) : Console :=
  { s with
    cursor := 0
    video := (List.range (consoleWidth * consoleHeight)).foldl
      (fun video (i : ℕ) => Function.update video (i : ℤ) blankCell) s.video }

def putText (s : Console) (text : List UInt8) : Console := text.foldl consolePutchar s

section Stores

variable {video : ℤ → UInt16} {a i : ℤ} {v : UInt16}

theorem fill_cell (video : ℤ → UInt16) (a i : ℤ) (v : UInt16) (n : ℕ) :
    (List.range n).foldl (fun video (x : ℕ) => Function.update video (a + (x : ℤ)) v) video i =
      if a ≤ i ∧ i < a + n then v else video i := by
  induction n with
  | zero => rw [if_neg (by omega), List.range_zero, List.foldl_nil]
  | succ n ih =>
    rw [List.range_succ, List.foldl_append, List.foldl_cons, List.foldl_nil]
    by_cases hlast : i = a + n
    · rw [hlast, Function.update_self, if_pos (by omega)]
    · rw [Function.update_of_ne hlast, ih]
      exact if_congr (by omega) rfl rfl

theorem copyRow_cell (video : ℤ → UInt16) (a i : ℤ) {n : ℕ} (hn : n ≤ 80) :
    (List.range n).foldl
        (fun video (x : ℕ) => Function.update video (a + (x : ℤ)) (video (a + 80 + (x : ℤ))))
        video i =
      if a ≤ i ∧ i < a + n then video (i + 80) else video i := by
  induction n generalizing i with
  | zero => rw [if_neg (by omega), List.range_zero, List.foldl_nil]
  | succ n ih =>
    rw [List.range_succ, List.foldl_append, List.foldl_cons, List.foldl_nil]
    by_cases hlast : i = a + n
    · rw [hlast, Function.update_self, ih _ (by omega), if_neg (by omega), if_pos (by omega)]
      congr 1
      omega
    · rw [Function.update_of_ne hlast, ih _ (by omega)]
      exact if_congr (by omega) rfl rfl

theorem copyRows_cell (video : ℤ → UInt16) (i : ℤ) (k : ℕ) :
    (List.range' 1 k).foldl (fun video (y : ℕ) => (List.range 80).foldl
        (fun video (x : ℕ) => Function.update video (((y : ℤ) - 1) * 80 + x)
          (video ((y : ℤ) * 80 + x))) video) video i =
      if 0 ≤ i ∧ i < 80 * k then video (i + 80) else video i := by
  induction k generalizing i with
  | zero => rw [if_neg (by omega), List.range'_zero, List.foldl_nil]
  | succ k ih =>
    have hrow : ∀ video : ℤ → UInt16, (List.range 80).foldl
        (fun video (x : ℕ) => Function.update video ((((1 + k : ℕ) : ℤ) - 1) * 80 + x)
          (video (((1 + k : ℕ) : ℤ) * 80 + x))) video i =
        if 80 * (k : ℤ) ≤ i ∧ i < 80 * k + 80 then video (i + 80) else video i := by
      intro video
      have hcopy := copyRow_cell video (80 * k) i (le_refl 80)
      have htarget : ∀ x : ℕ, (((1 + k : ℕ) : ℤ) - 1) * 80 + x = 80 * k + x := fun x => by
        push_cast
        omega
      have hsource : ∀ x : ℕ, ((1 + k : ℕ) : ℤ) * 80 + x = 80 * k + 80 + x := fun x => by
        push_cast
        omega
      simp only [htarget, hsource]
      exact hcopy
    rw [List.range'_1_concat, List.foldl_append, List.foldl_cons, List.foldl_nil, hrow, ih, ih]
    by_cases hlast : 80 * (k : ℤ) ≤ i ∧ i < 80 * k + 80
    · rw [if_pos hlast, if_neg (by omega), if_pos (by omega)]
    · rw [if_neg hlast]
      exact if_congr (by omega) rfl rfl

theorem scrollUp_eq (video : ℤ → UInt16) : scrollUp video =
    (List.range 80).foldl
      (fun video (x : ℕ) => Function.update video (1920 + (x : ℤ)) blankCell)
      ((List.range' 1 24).foldl (fun video (y : ℕ) => (List.range 80).foldl
        (fun video (x : ℕ) => Function.update video (((y : ℤ) - 1) * 80 + x)
          (video ((y : ℤ) * 80 + x))) video) video) := by
  simp only [scrollUp, consoleWidth, consoleHeight, Nat.cast_ofNat, Nat.reduceSub, Int.reduceSub,
    Int.reduceMul]

theorem scrollUp_cell (video : ℤ → UInt16) {i : ℕ} (hi : i < 2000) :
    scrollUp video i = if i < 1920 then video (i + 80 : ℕ) else blankCell := by
  rw [scrollUp_eq, fill_cell, copyRows_cell]
  by_cases hlast : i < 1920
  · rw [if_pos hlast, if_neg (by omega), if_pos (by omega)]
    rfl
  · rw [if_neg hlast, if_pos (by omega)]

theorem consoleClear_cell (s : Console) {i : ℕ} (hi : i < 2000) :
    (consoleClear s).video i = blankCell := by
  have hfill := fill_cell s.video 0 i blankCell (consoleWidth * consoleHeight)
  simp only [zero_add] at hfill
  rw [consoleClear]
  dsimp only
  rw [hfill, if_pos]
  simp only [consoleWidth, consoleHeight]
  omega

end Stores

def outputOf (c : UInt8) : Output UInt16 :=
  if c = newlineChar then .newline
  else if c = backspaceChar then .erase
  else .put (videoCell c)

def pageOf (text : List UInt8) : Page UInt16 := page blankCell 80 25 (text.map outputOf)

/-- The cells are those of the page in its window, and the cursor is at the next place. -/
structure Shows (s : Console) (p : Page UInt16) : Prop where
  inWindow : InWindow blankCell 80 25 p
  cursor : s.cursor = (p.next : ℤ) - 80 * p.top
  cell : ∀ i : ℕ, i < 2000 → s.video i = p.cell (80 * p.top + i)

section Simulation

variable {s : Console} {p : Page UInt16} {text : List UInt8}

theorem Shows.bounds (h : Shows s p) : 0 ≤ s.cursor ∧ s.cursor < 2000 := by
  have habove := h.inWindow.above
  have hbelow := h.inWindow.below
  rw [h.cursor]
  omega

theorem beyond_iff (h : s.cursor = (p.next : ℤ) - 80 * p.top) :
    s.cursor ≥ consoleWidth * consoleHeight ↔ 80 * (p.top + 25) ≤ p.next := by
  rw [h]
  simp only [consoleWidth, consoleHeight]
  omega

theorem scroll_shows (hin : InWindow blankCell 80 25 (p.scroll 80 25))
    (hcursor : s.cursor = (p.next : ℤ) - 80 * p.top)
    (hrest : ∀ q, p.next ≤ q → p.cell q = blankCell) (hend : p.next ≤ 80 * (p.top + 25))
    (hcell : ∀ i : ℕ, i < 2000 → s.video i = p.cell (80 * p.top + i)) :
    Shows (scrollBeyond s) (p.scroll 80 25) := by
  rw [scrollBeyond]
  by_cases hscroll : 80 * (p.top + 25) ≤ p.next
  · rw [if_pos ((beyond_iff hcursor).mpr hscroll)]
    refine ⟨hin, ?_, fun i hi => ?_⟩
    · rw [scroll_next, Page.scroll, if_pos hscroll]
      simp only [consoleWidth, hcursor]
      omega
    · rw [scroll_cell, Page.scroll, if_pos hscroll]
      dsimp only
      rw [scrollUp_cell _ hi]
      split_ifs with hlast
      · rw [hcell (i + 80) (by omega)]
        congr 1
        omega
      · exact (hrest _ (by omega)).symm
  · rw [if_neg (mt (beyond_iff hcursor).mp hscroll)]
    rw [Page.scroll, if_neg hscroll] at hin ⊢
    exact ⟨hin, hcursor, hcell⟩

theorem scrollBeyond_inside (h : s.cursor < 2000) : scrollBeyond s = s := by
  apply if_neg
  simp only [consoleWidth, consoleHeight]
  omega

theorem putchar_shows (h : Shows s p) (c : UInt8) :
    Shows (consolePutchar s c) (p.apply blankCell 80 25 (outputOf c)) := by
  have hin := apply_inWindow (by norm_num) (by norm_num) h.inWindow (outputOf c)
  have hbounds := h.bounds
  have habove := h.inWindow.above
  have hbelow := h.inWindow.below
  have hcursor := h.cursor
  rw [consolePutchar]
  rw [outputOf] at hin ⊢
  by_cases hnewline : c = newlineChar
  · rw [if_pos hnewline] at hin ⊢
    rw [if_pos hnewline]
    have hrow : s.cursor.tmod consoleWidth = s.cursor % 80 :=
      Int.tmod_eq_emod_of_nonneg hbounds.1
    refine scroll_shows hin ?_ (fun q hq => ?_) ?_ h.cell
    · dsimp only
      rw [hrow]
      simp only [consoleWidth]
      omega
    · exact h.inWindow.rest q (by dsimp only at hq; omega)
    · dsimp only
      omega
  rw [if_neg hnewline] at hin ⊢
  rw [if_neg hnewline]
  by_cases hback : c = backspaceChar
  · rw [if_pos hback] at hin ⊢
    rw [if_pos hback]
    by_cases hpos : s.cursor > 0
    · have hlt : 80 * p.top < p.next := by omega
      rw [if_pos hpos, scrollBeyond_inside (by dsimp only; omega)]
      rw [Page.apply, if_pos hlt] at hin ⊢
      refine ⟨hin, ?_, fun i hi => ?_⟩
      · dsimp only
        omega
      · dsimp only
        by_cases hlast : (i : ℤ) = s.cursor - 1
        · rw [hlast, Function.update_self,
            show 80 * p.top + i = p.next - 1 by omega, Function.update_self]
        · rw [Function.update_of_ne hlast, Function.update_of_ne (by omega)]
          exact h.cell i hi
    · rw [if_neg hpos, scrollBeyond_inside hbounds.2, Page.apply, if_neg (by omega)]
      exact h
  · rw [if_neg hback] at hin ⊢
    rw [if_neg hback]
    refine scroll_shows hin ?_ (fun q hq => ?_) hbelow fun i hi => ?_
    · dsimp only
      omega
    · dsimp only at hq ⊢
      rw [Function.update_of_ne (by omega)]
      exact h.inWindow.rest q (by omega)
    · dsimp only
      by_cases hhere : (i : ℤ) = s.cursor
      · rw [hhere, Function.update_self,
          show 80 * p.top + i = p.next by omega, Function.update_self]
      · rw [Function.update_of_ne hhere, Function.update_of_ne (by omega)]
        exact h.cell i hi

theorem clear_shows (s : Console) : Shows (consoleClear s) (start blankCell) :=
  ⟨start_inWindow (by norm_num) (by norm_num), rfl, fun _ hi => consoleClear_cell s hi⟩

/-- After `console_clear` the screen shows the page of what is printed. -/
theorem text_shows (s : Console) (text : List UInt8) :
    Shows (putText (consoleClear s) text) (pageOf text) := by
  induction text using List.reverseRecOn with
  | nil => exact clear_shows s
  | append_singleton text c ih =>
    rw [putText, List.foldl_append, pageOf, List.map_append, page, List.foldl_append]
    exact putchar_shows ih c

end Simulation

end ConsoleScreen
