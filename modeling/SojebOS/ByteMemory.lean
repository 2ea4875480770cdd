import Mathlib.Data.Nat.Notation
import Mathlib.Order.Basic
import Mathlib.Data.UInt
import Mathlib.Tactic.NormNum

/-!
# Byte-addressed memory with little-endian words

A memory gives a byte to every address. Stores change the bytes they name and nothing
else, and a load depends only on the bytes it reads.
-/
namespace ByteMemory

abbrev Bytes := ℕ → UInt8

def load16 (m : Bytes) (a : ℕ) : ℕ := (m a).toNat + 256 * (m (a + 1)).toNat

def load32 (m : Bytes) (a : ℕ) : ℕ :=
  (m a).toNat + 256 * (m (a + 1)).toNat + 65536 * (m (a + 2)).toNat +
    16777216 * (m (a + 3)).toNat

def store8 (m : Bytes) (a : ℕ) (b : UInt8) : Bytes := fun x => if x = a then b else m x

def store16 (m : Bytes) (a v : ℕ) : Bytes := fun x =>
  if x = a then UInt8.ofNat v
  else if x = a + 1 then UInt8.ofNat (v / 256)
  else m x

def store32 (m : Bytes) (a v : ℕ) : Bytes := fun x =>
  if x = a then UInt8.ofNat v
  else if x = a + 1 then UInt8.ofNat (v / 256)
  else if x = a + 2 then UInt8.ofNat (v / 65536)
  else if x = a + 3 then UInt8.ofNat (v / 16777216)
  else m x

/-- Bytes `a ..< a + n` become `src 0 ..< src n`. -/
def copyIn (m : Bytes) (a n : ℕ) (src : Bytes) : Bytes := fun x =>
  if a ≤ x ∧ x < a + n then src (x - a) else m x

/-- The memory seen from address `a`. -/
def window (m : Bytes) (a : ℕ) : Bytes := fun i => m (a + i)

section Loads

variable {m m' : Bytes} {a : ℕ}

theorem load32_lt (m : Bytes) (a : ℕ) : load32 m a < 2 ^ 32 := by
  have h0 := (m a).toNat_lt
  have h1 := (m (a + 1)).toNat_lt
  have h2 := (m (a + 2)).toNat_lt
  have h3 := (m (a + 3)).toNat_lt
  unfold load32
  omega

theorem load16_lt (m : Bytes) (a : ℕ) : load16 m a < 2 ^ 16 := by
  have h0 := (m a).toNat_lt
  have h1 := (m (a + 1)).toNat_lt
  unfold load16
  omega

theorem load16_congr (h : ∀ x, a ≤ x → x < a + 2 → m' x = m x) :
    load16 m' a = load16 m a := by
  unfold load16
  rw [h a (by omega) (by omega), h (a + 1) (by omega) (by omega)]

theorem load32_congr (h : ∀ x, a ≤ x → x < a + 4 → m' x = m x) :
    load32 m' a = load32 m a := by
  unfold load32
  rw [h a (by omega) (by omega), h (a + 1) (by omega) (by omega),
    h (a + 2) (by omega) (by omega), h (a + 3) (by omega) (by omega)]

theorem load16_window (m : Bytes) (a i : ℕ) : load16 (window m a) i = load16 m (a + i) := by
  simp only [load16, window, Nat.add_assoc]

theorem load32_window (m : Bytes) (a i : ℕ) : load32 (window m a) i = load32 m (a + i) := by
  simp only [load32, window, Nat.add_assoc]

end Loads

section Stores

variable {m : Bytes} {a x v : ℕ}

@[simp] theorem store8_same (m : Bytes) (a : ℕ) (b : UInt8) : store8 m a b a = b := by
  simp [store8]

theorem store8_other {b : UInt8} (h : x ≠ a) : store8 m a b x = m x := by
  simp [store8, h]

theorem store16_outside (h : x < a ∨ a + 2 ≤ x) : store16 m a v x = m x := by
  unfold store16
  rw [if_neg (by omega), if_neg (by omega)]

theorem store32_outside (h : x < a ∨ a + 4 ≤ x) : store32 m a v x = m x := by
  unfold store32
  rw [if_neg (by omega), if_neg (by omega), if_neg (by omega), if_neg (by omega)]

theorem load16_store16 (hv : v < 2 ^ 16) : load16 (store16 m a v) a = v := by
  simp only [load16, store16, ↓reduceIte, show a + 1 ≠ a by omega, UInt8.toNat_ofNat']
  omega

theorem load32_store32 (hv : v < 2 ^ 32) : load32 (store32 m a v) a = v := by
  simp only [load32, store32, ↓reduceIte, show a + 1 ≠ a by omega, show a + 2 ≠ a by omega,
    show a + 3 ≠ a by omega, show a + 2 ≠ a + 1 by omega, show a + 3 ≠ a + 1 by omega,
    show a + 3 ≠ a + 2 by omega, UInt8.toNat_ofNat']
  omega

theorem load32_store32_apart {b : ℕ} (h : b + 4 ≤ a ∨ a + 4 ≤ b) :
    load32 (store32 m a v) b = load32 m b :=
  load32_congr fun _ _ _ => store32_outside (by omega)

theorem load16_store16_apart {b : ℕ} (h : b + 2 ≤ a ∨ a + 2 ≤ b) :
    load16 (store16 m a v) b = load16 m b :=
  load16_congr fun _ _ _ => store16_outside (by omega)

theorem load16_store32_apart {b : ℕ} (h : b + 2 ≤ a ∨ a + 4 ≤ b) :
    load16 (store32 m a v) b = load16 m b :=
  load16_congr fun _ _ _ => store32_outside (by omega)

theorem load16_store8_apart {b : ℕ} {w : UInt8} (h : b + 2 ≤ a ∨ a + 1 ≤ b) :
    load16 (store8 m a w) b = load16 m b :=
  load16_congr fun _ _ _ => store8_other (by omega)

theorem load32_store16_apart {b : ℕ} (h : b + 4 ≤ a ∨ a + 2 ≤ b) :
    load32 (store16 m a v) b = load32 m b :=
  load32_congr fun _ _ _ => store16_outside (by omega)

theorem copyIn_inside {n : ℕ} {src : Bytes} (h : a ≤ x ∧ x < a + n) :
    copyIn m a n src x = src (x - a) := by
  simp [copyIn, h]

theorem copyIn_outside {n : ℕ} {src : Bytes} (h : x < a ∨ a + n ≤ x) :
    copyIn m a n src x = m x := by
  unfold copyIn
  rw [if_neg (by omega)]

theorem load16_copyIn_apart {b n : ℕ} {src : Bytes} (h : b + 2 ≤ a ∨ a + n ≤ b) :
    load16 (copyIn m a n src) b = load16 m b :=
  load16_congr fun _ _ _ => copyIn_outside (by omega)

theorem load32_copyIn_apart {b n : ℕ} {src : Bytes} (h : b + 4 ≤ a ∨ a + n ≤ b) :
    load32 (copyIn m a n src) b = load32 m b :=
  load32_congr fun _ _ _ => copyIn_outside (by omega)

/-! A store seen through a window is a store at the shifted address. -/

theorem store8_window (m : Bytes) (b a : ℕ) (v : UInt8) :
    store8 (window m b) a v = window (store8 m (b + a) v) b := by
  funext x
  simp only [store8, window, Nat.add_left_cancel_iff]

theorem store16_window (m : Bytes) (b a v : ℕ) :
    store16 (window m b) a v = window (store16 m (b + a) v) b := by
  funext x
  simp only [store16, window, Nat.add_assoc, Nat.add_left_cancel_iff]

theorem store32_window (m : Bytes) (b a v : ℕ) :
    store32 (window m b) a v = window (store32 m (b + a) v) b := by
  funext x
  simp only [store32, window, Nat.add_assoc, Nat.add_left_cancel_iff]

theorem copyIn_window (m : Bytes) (b a n : ℕ) (src : Bytes) :
    copyIn (window m b) a n src = window (copyIn m (b + a) n src) b := by
  funext x
  simp only [copyIn, window, Nat.add_assoc, Nat.add_le_add_iff_left, Nat.add_lt_add_iff_left,
    Nat.add_sub_add_left]

end Stores

end ByteMemory
