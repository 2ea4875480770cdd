import Mathlib.Data.List.Basic
import Mathlib.Data.List.Induction
import Mathlib.Data.Nat.Notation
import Mathlib.Logic.Function.Basic
import Mathlib.Tactic.NormNum

/-!
# A page under a window

Output goes to a page without end on which nothing moves. A window of `height` rows of `width`
cells lies on the page, and goes one row down when the place of the next item is behind it.
-/
namespace ScrollingPage

inductive Output (α : Type*) where
  | put (a : α)
  | newline
  | erase

/-- The place of the next item is `next`, and `top` rows are above the window. -/
structure Page (α : Type*) where
  cell : ℕ → α
  next : ℕ
  top : ℕ

def Output.map {α β : Type*} (f : α → β) : Output α → Output β
  | .put a => .put (f a)
  | .newline => .newline
  | .erase => .erase

def Page.map {α β : Type*} (f : α → β) (p : Page α) : Page β := ⟨f ∘ p.cell, p.next, p.top⟩

section Output

variable {α : Type*} (blank : α) (width height : ℕ)

def start : Page α := ⟨fun _ => blank, 0, 0⟩

def Page.scroll (p : Page α) : Page α :=
  if width * (p.top + height) ≤ p.next then { p with top := p.top + 1 } else p

/-- Above the window nothing is erased. -/
def Page.apply (p : Page α) : Output α → Page α
  | .put a =>
    Page.scroll width height
      { p with cell := Function.update p.cell p.next a, next := p.next + 1 }
  | .newline => Page.scroll width height { p with next := width * (p.next / width + 1) }
  | .erase =>
    if width * p.top < p.next then
      { p with cell := Function.update p.cell (p.next - 1) blank, next := p.next - 1 }
    else p

def page (outputs : List (Output α)) : Page α :=
  outputs.foldl (Page.apply blank width height) (start blank)

/-- The next item goes into the window, and nothing stands from there on. -/
structure InWindow (p : Page α) : Prop where
  above : width * p.top ≤ p.next
  below : p.next < width * (p.top + height)
  rest : ∀ q, p.next ≤ q → p.cell q = blank

end Output

section Rules

variable {α : Type*} {blank : α} {width height : ℕ} {p : Page α}

@[simp] theorem scroll_cell (p : Page α) : (p.scroll width height).cell = p.cell := by
  unfold Page.scroll
  split
  · rfl
  · rfl

@[simp] theorem scroll_next (p : Page α) : (p.scroll width height).next = p.next := by
  unfold Page.scroll
  split
  · rfl
  · rfl

theorem scroll_inWindow (hw : 0 < width) (hh : 0 < height) (habove : width * p.top ≤ p.next)
    (hbelow : p.next ≤ width * (p.top + height)) (hrest : ∀ q, p.next ≤ q → p.cell q = blank) :
    InWindow blank width height (p.scroll width height) := by
  have hnext : width * (p.top + 1 + height) = width * (p.top + height) + width := by
    rw [Nat.add_right_comm, Nat.mul_add_one]
  have hrow : width * (p.top + 1) ≤ width * (p.top + height) :=
    Nat.mul_le_mul_left width (by omega)
  refine ⟨?_, ?_, fun q hq => ?_⟩
  · rw [scroll_next, Page.scroll]
    split
    · next hle => exact hrow.trans hle
    · exact habove
  · rw [scroll_next, Page.scroll]
    split
    · dsimp only
      omega
    · omega
  · rw [scroll_cell]
    rw [scroll_next] at hq
    exact hrest q hq

theorem start_inWindow (hw : 0 < width) (hh : 0 < height) :
    InWindow blank width height (start blank) := by
  refine ⟨Nat.zero_le _, ?_, fun _ _ => rfl⟩
  exact Nat.mul_pos hw (by simp only [start]; omega)

theorem apply_inWindow (hw : 0 < width) (hh : 0 < height) (h : InWindow blank width height p)
    (o : Output α) : InWindow blank width height (p.apply blank width height o) := by
  obtain ⟨habove, hbelow, hrest⟩ := h
  cases o with
  | put a =>
    refine scroll_inWindow hw hh ?_ ?_ fun q hq => ?_
    · dsimp only
      omega
    · exact hbelow
    · dsimp only at hq ⊢
      rw [Function.update_of_ne (by omega)]
      exact hrest q (by omega)
  | newline =>
    have hrow : p.next / width < p.top + height := Nat.div_lt_of_lt_mul hbelow
    have hle : p.next ≤ width * (p.next / width + 1) :=
      (Nat.lt_mul_div_succ p.next hw).le
    refine scroll_inWindow hw hh (habove.trans hle) (Nat.mul_le_mul_left width hrow) fun q hq => ?_
    exact hrest q (hle.trans hq)
  | erase =>
    rw [Page.apply]
    split
    · next hlt =>
      refine ⟨?_, ?_, fun q hq => ?_⟩
      · dsimp only
        omega
      · dsimp only
        omega
      · dsimp only at hq ⊢
        by_cases hlast : q = p.next - 1
        · rw [hlast, Function.update_self]
        · rw [Function.update_of_ne hlast]
          exact hrest q (by omega)
    · exact ⟨habove, hbelow, hrest⟩

theorem page_inWindow (hw : 0 < width) (hh : 0 < height) (outputs : List (Output α)) :
    InWindow blank width height (page blank width height outputs) := by
  induction outputs using List.reverseRecOn with
  | nil => exact start_inWindow hw hh
  | append_singleton outputs o ih =>
    rw [page, List.foldl_append]
    exact apply_inWindow hw hh ih o

theorem map_scroll {β : Type*} (f : α → β) (p : Page α) :
    (p.scroll width height).map f = (p.map f).scroll width height := by
  rw [Page.scroll, Page.scroll, Page.map]
  split
  · exact (if_pos ‹_›).symm
  · exact (if_neg ‹_›).symm

theorem map_apply {β : Type*} (f : α → β) (p : Page α) (o : Output α) :
    (p.apply blank width height o).map f =
      (p.map f).apply (f blank) width height (o.map f) := by
  cases o with
  | put a =>
    rw [Page.apply, map_scroll, Page.map, Output.map, Page.apply, Function.comp_update]
    rfl
  | newline => exact map_scroll f _
  | erase =>
    by_cases hlt : width * p.top < p.next
    · rw [Page.apply, if_pos hlt, Page.map, Function.comp_update]
      exact (if_pos hlt).symm
    · rw [Page.apply, if_neg hlt]
      exact (if_neg hlt).symm

theorem map_page {β : Type*} (f : α → β) (outputs : List (Output α)) :
    (page blank width height outputs).map f =
      page (f blank) width height (outputs.map (Output.map f)) := by
  induction outputs using List.reverseRecOn with
  | nil => rfl
  | append_singleton outputs o ih =>
    rw [page, List.foldl_append, List.map_append, page, List.foldl_append]
    exact (map_apply f _ o).trans (congrArg (fun q => Page.apply (f blank) width height q _) ih)

end Rules

section Rows

variable {α : Type*} {blank : α} {width height : ℕ} {p : Page α}

/-- The window shows the last rows, or the first ones while there are fewer. -/
def AtEnd (width height : ℕ) (p : Page α) : Prop := p.top = p.next / width + 1 - height

theorem scroll_atEnd (hw : 0 < width) (h : p.top = 0 ∨ p.top + height ≤ p.next / width + 1)
    (hbelow : p.next ≤ width * (p.top + height)) : AtEnd width height (p.scroll width height) := by
  unfold AtEnd
  rw [scroll_next, Page.scroll]
  split
  · next hle =>
    have hrow : p.next / width = p.top + height := by
      rw [Nat.le_antisymm hbelow hle, Nat.mul_div_cancel_left _ hw]
    dsimp only
    omega
  · next hlt =>
    have hrow : p.next / width < p.top + height := Nat.div_lt_of_lt_mul (by omega)
    omega

/-- As long as nothing is erased the next place never goes up. -/
theorem apply_atEnd (hw : 0 < width) (hin : InWindow blank width height p)
    (h : AtEnd width height p) {o : Output α} (ho : o ≠ .erase) :
    AtEnd width height (p.apply blank width height o) := by
  have hbelow := hin.below
  have hrow : p.next / width < p.top + height := Nat.div_lt_of_lt_mul hbelow
  unfold AtEnd at h
  cases o with
  | put a =>
    have hmono : p.next / width ≤ (p.next + 1) / width := Nat.div_le_div_right (by omega)
    exact scroll_atEnd hw (by dsimp only; omega) hbelow
  | newline =>
    refine scroll_atEnd hw ?_ (Nat.mul_le_mul_left width hrow)
    dsimp only
    rw [Nat.mul_div_cancel_left _ hw]
    omega
  | erase => exact absurd rfl ho

end Rows

section Lines

variable {α : Type*} {blank : α} {width height : ℕ} {p : Page α} {items : List α}

structure EndsWith (width : ℕ) (p : Page α) (items : List α) : Prop where
  room : width * p.top + items.length ≤ p.next
  text : ∀ k (h : k < items.length), p.cell (p.next - items.length + k) = items[k]

theorem endsWith_nil (hin : InWindow blank width height p) : EndsWith width p [] :=
  ⟨hin.above, fun _ h => absurd h (Nat.not_lt_zero _)⟩

theorem endsWith_put (hin : InWindow blank width height p) (h : EndsWith width p items) (a : α)
    (hlen : items.length < width * (height - 1)) :
    EndsWith width (p.apply blank width height (.put a)) (items ++ [a]) := by
  have hroom := h.room
  have hbelow := hin.below
  constructor
  · rw [Page.apply, scroll_next, Page.scroll, List.length_append, List.length_singleton]
    split
    · next hle =>
      obtain ⟨k, hk⟩ : ∃ k, height = k + 1 := by
        refine ⟨height - 1, ?_⟩
        have : height ≠ 0 := by
          rintro rfl
          exact absurd hlen (by simp)
        omega
      dsimp only at hle ⊢
      rw [hk] at hle hlen
      rw [show p.top + (k + 1) = p.top + 1 + k by omega, Nat.mul_add] at hle
      rw [Nat.add_sub_cancel] at hlen
      omega
    · dsimp only
      omega
  · intro k hk
    rw [Page.apply, scroll_next, scroll_cell, List.length_append, List.length_singleton]
    rw [List.length_append, List.length_singleton] at hk
    dsimp only
    by_cases hlast : k = items.length
    · subst hlast
      rw [show p.next + 1 - (items.length + 1) + items.length = p.next by omega,
        Function.update_self, List.getElem_concat_length rfl]
    · rw [Function.update_of_ne (by omega), List.getElem_append_left (by omega),
        ← h.text k (by omega)]
      congr 1
      omega

theorem endsWith_erase (h : EndsWith width p items) (hne : items ≠ []) :
    EndsWith width (p.apply blank width height .erase) items.dropLast := by
  have hroom := h.room
  have hpos := List.length_pos_of_ne_nil hne
  rw [Page.apply, if_pos (by omega)]
  constructor
  · rw [List.length_dropLast]
    dsimp only
    omega
  · intro k hk
    rw [List.length_dropLast] at hk ⊢
    dsimp only
    rw [Function.update_of_ne (by omega), List.getElem_dropLast, ← h.text k (by omega)]
    congr 1
    omega

end Lines

end ScrollingPage
