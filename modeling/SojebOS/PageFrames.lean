import SojebOS.ByteMemory

/-!
# Page frames of a byte memory

Memory is cut into frames of 4096 bytes. A word array inside one frame reads and writes
that frame only, so a frame that is kept keeps every array stored in it.
-/
namespace PageFrames

open ByteMemory

/-- The words `f 0 ..< f n` stored one after another from address `a`. -/
def fillWords (m : Bytes) (a : ℕ) (f : ℕ → ℕ) : ℕ → Bytes
  | 0 => m
  | n + 1 => store32 (fillWords m a f n) (a + 4 * n) (f n)

/-- Both memories hold the same bytes in frame `f`. -/
def FrameKept (m m' : Bytes) (f : ℕ) : Prop :=
  ∀ x, 4096 * f ≤ x → x < 4096 * f + 4096 → m' x = m x

section Arrays

variable {m : Bytes} {a : ℕ} {f : ℕ → ℕ}

theorem fillWords_outside {n x : ℕ} (h : x < a ∨ a + 4 * n ≤ x) : fillWords m a f n x = m x := by
  induction n with
  | zero => rfl
  | succ n ih =>
    rw [fillWords, store32_outside (by omega)]
    exact ih (by omega)

theorem load32_fillWords {n i : ℕ} (hi : i < n) (hf : f i < 2 ^ 32) :
    load32 (fillWords m a f n) (a + 4 * i) = f i := by
  induction n with
  | zero => omega
  | succ n ih =>
    rw [fillWords]
    by_cases h : i = n
    · subst h
      exact load32_store32 hf
    · rw [load32_store32_apart (by omega)]
      exact ih (by omega)

end Arrays

section Frames

variable {m m' m'' : Bytes} {f g : ℕ}

theorem FrameKept.refl (m : Bytes) (f : ℕ) : FrameKept m m f := fun _ _ _ => rfl

theorem FrameKept.trans (h : FrameKept m m' f) (h' : FrameKept m' m'' f) : FrameKept m m'' f :=
  fun x hx hy => (h' x hx hy).trans (h x hx hy)

theorem FrameKept.word (h : FrameKept m m' f) {i : ℕ} (hi : i < 1024) :
    load32 m' (4096 * f + 4 * i) = load32 m (4096 * f + 4 * i) := by
  apply load32_congr
  intro x hx hy
  apply h x <;> omega

theorem FrameKept.byte (h : FrameKept m m' f) {i : ℕ} (hi : i < 4096) :
    m' (4096 * f + i) = m (4096 * f + i) :=
  h _ (by omega) (by omega)

theorem frameKept_of_confined (h : ∀ x, x < 4096 * f ∨ 4096 * f + 4096 ≤ x → m' x = m x)
    (hg : g ≠ f) : FrameKept m m' g := by
  intro x hx hy
  apply h
  omega

theorem store32_frameKept (m : Bytes) (v : ℕ) {i : ℕ} (hi : i < 1024) (hg : g ≠ f) :
    FrameKept m (store32 m (4096 * f + 4 * i) v) g := by
  apply frameKept_of_confined _ hg
  intro x hx
  apply store32_outside
  omega

theorem fillWords_frameKept (m : Bytes) (w : ℕ → ℕ) (hg : g ≠ f) :
    FrameKept m (fillWords m (4096 * f) w 1024) g := by
  apply frameKept_of_confined _ hg
  intro x hx
  apply fillWords_outside
  omega

theorem copyIn_frameKept (m src : Bytes) (hg : g ≠ f) :
    FrameKept m (copyIn m (4096 * f) 4096 src) g := by
  apply frameKept_of_confined _ hg
  intro x hx
  exact copyIn_outside hx

theorem store8_frameKept (m : Bytes) (b : UInt8) {i : ℕ} (hi : i < 4096) (hg : g ≠ f) :
    FrameKept m (store8 m (4096 * f + i) b) g := by
  apply frameKept_of_confined _ hg
  intro x hx
  apply store8_other
  omega

end Frames

end PageFrames
