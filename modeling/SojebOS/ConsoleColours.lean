import SojebOS.ConsoleScreen

/-!
# The colours of the output

`console_putchar` joins the attribute and a `char` that is extended by its sign. The sign bits of a
byte above 127 cover the attribute, and the cell is shown in other colours.
-/
namespace ConsoleColours

open MachineWord HashTable ScrollingPage ConsoleScreen

def attributeByte (cell : UInt16) : ℕ := cell.toNat / 256

def characterByte (cell : UInt16) : UInt8 := UInt8.ofNat (cell.toNat % 256)

def letterOf (c : UInt8) : Output UInt8 :=
  if c = newlineChar then .newline
  else if c = backspaceChar then .erase
  else .put c

/-- A place has the byte that was written there last; what is erased or not written is a space. -/
def letters (text : List UInt8) : Page UInt8 := page spaceChar 80 25 (text.map letterOf)

/-- Every cell is white on black, and has the byte of its place on the page. -/
def ColoursKept (s : Console) (text : List UInt8) : Prop :=
  ∀ i : ℕ, i < 2000 → attributeByte (s.video i) = whiteOnBlack ∧
    characterByte (s.video i) = (letters text).cell (80 * (letters text).top + i)

section Cells

variable {c : UInt8}

theorem videoCell_low (hc : c.toNat ≤ 127) : (videoCell c).toNat = 0x0F00 + c.toNat := by
  rw [videoCell, charWord, if_pos (by omega), shiftLeft_or_eq_add (show c.toNat < 2 ^ 8 by omega),
    UInt16.toNat_ofNat']
  simp only [whiteOnBlack]
  omega

theorem videoCell_high (hc : 127 < c.toNat) : (videoCell c).toNat = 0xFF00 + c.toNat := by
  have hlt := c.toNat_lt
  have hword : (c.toNat + (2 ^ 32 - 256)) % 2 ^ 16 = 0xFF * 2 ^ 8 ||| c.toNat := by
    rw [or_eq_add (show c.toNat < 2 ^ 8 by omega)]
    omega
  rw [videoCell, charWord, if_neg (by omega), UInt16.toNat_ofNat', Nat.or_mod_two_pow, hword,
    ← Nat.lor_assoc, show (whiteOnBlack <<< 8 % 2 ^ 16 ||| 0xFF * 2 ^ 8) = 0xFF * 2 ^ 8 by decide,
    or_eq_add (show c.toNat < 2 ^ 8 by omega)]
  rfl

theorem attribute_videoCell (c : UInt8) :
    attributeByte (videoCell c) = whiteOnBlack ↔ c.toNat ≤ 127 := by
  have hlt := c.toNat_lt
  rw [attributeByte]
  by_cases hc : c.toNat ≤ 127
  · rw [videoCell_low hc, whiteOnBlack]
    omega
  · rw [videoCell_high (by omega), whiteOnBlack]
    omega

theorem character_videoCell (c : UInt8) : characterByte (videoCell c) = c := by
  have hlt := c.toNat_lt
  have hlow : (videoCell c).toNat % 256 = c.toNat := by
    by_cases hc : c.toNat ≤ 127
    · rw [videoCell_low hc]
      omega
    · rw [videoCell_high (by omega)]
      omega
  rw [characterByte, hlow]
  exact UInt8.ofNat_toNat

end Cells

section Texts

variable {c : UInt8} {text : List UInt8}

theorem outputOf_letterOf (c : UInt8) : outputOf c = (letterOf c).map videoCell := by
  rw [outputOf, letterOf]
  split_ifs
  · rfl
  · rfl
  · rfl

theorem pageOf_letters (text : List UInt8) : pageOf text = (letters text).map videoCell := by
  rw [pageOf, letters, map_page, List.map_map]
  congr 1
  exact List.map_congr_left fun c _ => outputOf_letterOf c

theorem letters_inWindow (text : List UInt8) : InWindow spaceChar 80 25 (letters text) :=
  page_inWindow (by norm_num) (by norm_num) _

theorem shown_letter (s : Console) (text : List UInt8) {i : ℕ} (hi : i < 2000) :
    (putText (consoleClear s) text).video i =
      videoCell ((letters text).cell (80 * (letters text).top + i)) := by
  have hshows := text_shows s text
  rw [pageOf_letters] at hshows
  exact hshows.cell i hi

/-- The invariant: no byte above 127 is on the page. -/
theorem letters_low (h : ∀ c ∈ text, c.toNat ≤ 127) (q : ℕ) :
    ((letters text).cell q).toNat ≤ 127 := by
  induction text using List.reverseRecOn generalizing q with
  | nil => exact (show spaceChar.toNat ≤ 127 by decide)
  | append_singleton text c ih =>
    have hprev := ih fun d hd => h d (List.mem_append_left _ hd)
    have hc := h c (List.mem_append_right _ List.mem_cons_self)
    rw [letters, List.map_append, page, List.foldl_append]
    change (((letters text).apply spaceChar 80 25 (letterOf c)).cell q).toNat ≤ 127
    rw [letterOf]
    split_ifs
    · rw [Page.apply, scroll_cell]
      exact hprev q
    · rw [Page.apply]
      split_ifs
      · dsimp only
        rw [Function.update_apply]
        split_ifs
        · decide
        · exact hprev q
      · exact hprev q
    · rw [Page.apply, scroll_cell]
      dsimp only
      rw [Function.update_apply]
      split_ifs
      · exact hc
      · exact hprev q

theorem high_byte_coloured (s : Console) (text : List UInt8) (hc : 127 < c.toNat) :
    ¬ColoursKept (putText (consoleClear s) (text ++ [c])) (text ++ [c]) := by
  intro hkept
  have hnewline : c ≠ newlineChar := by
    rintro rfl
    exact absurd hc (by decide)
  have hback : c ≠ backspaceChar := by
    rintro rfl
    exact absurd hc (by decide)
  have happly : letters (text ++ [c]) = (letters text).apply spaceChar 80 25 (.put c) := by
    rw [letters, List.map_append, page, List.foldl_append]
    change (letters text).apply spaceChar 80 25 (letterOf c) = _
    rw [letterOf, if_neg hnewline, if_neg hback]
  have hin := letters_inWindow text
  have hends := endsWith_put hin (endsWith_nil hin) c (by norm_num)
  rw [← happly, List.nil_append] at hends
  have hroom := hends.room
  have hbelow := (letters_inWindow (text ++ [c])).below
  have htext : (letters (text ++ [c])).cell ((letters (text ++ [c])).next - 1) = c :=
    hends.text 0 (by norm_num)
  rw [List.length_singleton] at hroom
  -- the cell of the byte, which is in front of the cursor
  obtain ⟨i, hi⟩ : ∃ i, (letters (text ++ [c])).next - 1 =
      80 * (letters (text ++ [c])).top + i := Nat.exists_eq_add_of_le (by omega)
  obtain ⟨hattribute, -⟩ := hkept i (by omega)
  rw [shown_letter s _ (by omega), ← hi, htext, attribute_videoCell] at hattribute
  exact absurd hc (Nat.not_lt.mpr hattribute)

end Texts

/-- The colours stay as they are, character after character, exactly if no byte is above 127. -/
theorem colours_kept_iff (s : Console) (text : List UInt8) :
    (∀ printed, printed <+: text → ColoursKept (putText (consoleClear s) printed) printed) ↔
      ∀ c ∈ text, c.toNat ≤ 127 := by
  constructor
  · intro h c hc
    by_contra hhigh
    obtain ⟨before, after, rfl⟩ := List.append_of_mem hc
    refine high_byte_coloured s before (Nat.not_le.mp hhigh) (h (before ++ [c]) ?_)
    exact ⟨after, by rw [List.append_assoc, List.singleton_append]⟩
  · intro h printed hpre i hi
    have hlow := letters_low fun c hc => h c (hpre.subset hc)
    rw [shown_letter s printed hi]
    exact ⟨(attribute_videoCell _).mpr (hlow _), character_videoCell _⟩

/-- The byte 0x80 is shown under the attribute 0xFF. -/
theorem colours_lost : ¬ ∀ (s : Console) (text : List UInt8),
    ColoursKept (putText (consoleClear s) text) text :=
  fun h => high_byte_coloured ⟨fun _ => 0, 0, false⟩ [] (c := 0x80) (by decide) (h _ _)

end ConsoleColours
