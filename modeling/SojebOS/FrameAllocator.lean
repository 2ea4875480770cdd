import SojebOS.UserIsolation
import Mathlib.Order.Bounds.Basic

/-!
# The frame allocator over whole runs

The bitmap is the set of the kernel's frames and of those that callers hold. `alloc_frame`
takes the lowest frame outside it, and fails when there is none.
-/
namespace FrameAllocator

open ByteMemory Paging PagingWalks PagingInit UserIsolation

/-- `alloc_frame` and `free_frame` in any order from boot on, with the addresses that have
been handed out and not freed since. -/
inductive Runs (k : KernelImage) : State → Set ℕ → Prop where
  | init (memory : Bytes) : Runs k (pagingInit k memory) ∅
  | alloc {s held} (h : Runs k s held) (hp : (allocFrame s).1 ≠ 0) :
      Runs k (allocFrame s).2 (insert (allocFrame s).1 held)
  | null {s held} (h : Runs k s held) (hp : (allocFrame s).1 = 0) : Runs k (allocFrame s).2 held
  | free {s held} (h : Runs k s held) (p : ℕ) (hp : p ∈ held) :
      Runs k (freeFrame s p) (held \ {p})

def available (k : KernelImage) (held : Set ℕ) : Set ℕ :=
  { p | p % pageSize = 0 ∧ k.kernelEnd ≤ p ∧ p < maxPhysicalMemory ∧ p ∉ held }

/-- The next call fails exactly when no frame is left, and otherwise gives the lowest. -/
structure AllocatesLowest (k : KernelImage) (s : State) (held : Set ℕ) : Prop where
  null_iff : (allocFrame s).1 = 0 ↔
    ∀ f < totalFrames, f < (k.kernelEnd + 4095) / 4096 ∨ pageSize * f ∈ held
  lowest : (allocFrame s).1 ≠ 0 → IsLeast (available k held) (allocFrame s).1

/-- The bitmap is the kernel's frames and the held ones, all of the pool. -/
structure BitmapExact (k : KernelImage) (s : State) (held : Set ℕ) : Prop where
  used : ∀ f < totalFrames,
    bitmapTest s f = true ↔ f < (k.kernelEnd + 4095) / 4096 ∨ pageSize * f ∈ held
  held_pool : ∀ p ∈ held, ∃ f, p = pageSize * f ∧ (k.kernelEnd + 4095) / 4096 ≤ f ∧
    f < totalFrames

section Steps

variable {k : KernelImage} {s : State} {held : Set ℕ}

theorem bitmapTest_clear (s : State) (f g : ℕ) :
    bitmapTest (bitmapClear s f) g = (!decide (g = f) && bitmapTest s g) := by
  rw [bitmapTest_iff, bitmapTest_iff]
  have hlt : g % 32 < 32 := Nat.mod_lt _ (by norm_num)
  by_cases hw : g / 32 = f / 32
  · have hbit : f % 32 = g % 32 ↔ g = f := by omega
    have hones : Nat.testBit 0xFFFFFFFF (g % 32) = true := by
      rw [show 0xFFFFFFFF = 2 ^ 32 - 1 from rfl, Nat.testBit_two_pow_sub_one]
      exact decide_eq_true hlt
    simp only [bitmapClear, hw, Function.update_self, Nat.one_shiftLeft, Nat.testBit_and,
      Nat.testBit_xor, hones, Nat.testBit_two_pow, hbit]
    rw [Bool.true_xor, Bool.and_comm]
  · have hne : g ≠ f := fun e => hw (by rw [e])
    simp [bitmapClear, Function.update_of_ne hw, hne]

theorem pagingInit_exact (k : KernelImage) (h64 : k.kernelEnd ≤ maxPhysicalMemory)
    (memory : Bytes) : BitmapExact k (pagingInit k memory) ∅ where
  used := by
    intro f _
    rw [pagingInit_used, decide_eq_true_eq, reservedEndPage_eq h64]
    simp
  held_pool := fun p hp => absurd hp (Set.notMem_empty p)

theorem BitmapExact.alloc (h : BitmapExact k s held) {f : ℕ} (hf : f < totalFrames)
    (hfree : bitmapTest s f = false) :
    BitmapExact k (bitmapSet s f) (insert (pageSize * f) held) where
  used := by
    intro g hg
    rw [bitmapTest_set, Bool.or_eq_true, decide_eq_true_eq, h.used g hg, Set.mem_insert_iff]
    have hinj : pageSize * g = pageSize * f ↔ g = f := Nat.mul_right_inj (by norm_num)
    rw [hinj]
    tauto
  held_pool := by
    intro p hp
    rcases Set.mem_insert_iff.mp hp with rfl | hp
    · have hnot := mt (h.used f hf).mpr (by rw [hfree]; exact Bool.false_ne_true)
      exact ⟨f, rfl, by omega, hf⟩
    · exact h.held_pool p hp

theorem BitmapExact.free (h : BitmapExact k s held) {p : ℕ} (hp : p ∈ held) :
    BitmapExact k (freeFrame s p) (held \ {p}) where
  used := by
    obtain ⟨f, rfl, hlow, -⟩ := h.held_pool p hp
    intro g hg
    have hinj : pageSize * g = pageSize * f ↔ g = f := Nat.mul_right_inj (by norm_num)
    rw [freeFrame, Nat.mul_div_cancel_left f (by norm_num), bitmapTest_clear, Bool.and_eq_true,
      Bool.not_eq_true', decide_eq_false_iff_not, h.used g hg, Set.mem_sdiff,
      Set.mem_singleton_iff, hinj]
    constructor
    · tauto
    · intro hor
      rcases hor with hk | hh
      · exact ⟨by omega, Or.inl hk⟩
      · exact ⟨hh.2, Or.inr hh.1⟩
  held_pool := fun q hq => h.held_pool q hq.1

/-- With the kernel in frame 0, address 0 is never a frame. -/
theorem BitmapExact.pos (h : BitmapExact k s held) (h0 : 0 < k.kernelEnd) {f : ℕ}
    (hf : f < totalFrames) (hfree : bitmapTest s f = false) : 4096 * f ≠ 0 := by
  have hnot := mt (h.used f hf).mpr (by rw [hfree]; exact Bool.false_ne_true)
  omega

theorem runs_exact (h0 : 0 < k.kernelEnd) (h64 : k.kernelEnd ≤ maxPhysicalMemory)
    (h : Runs k s held) : BitmapExact k s held := by
  induction h with
  | init memory => exact pagingInit_exact k h64 memory
  | @alloc s held _ hp ih =>
    rcases allocFrame_lowest s with ⟨he, -⟩ | ⟨f, hf, hfree, -, he⟩
    · rw [he] at hp
      exact absurd rfl hp
    · rw [he]
      exact ih.alloc hf hfree
  | @null s held _ hp ih =>
    rcases allocFrame_lowest s with ⟨he, -⟩ | ⟨f, hf, hfree, -, he⟩
    · rw [he]
      exact ih
    · rw [he] at hp
      exact absurd hp (ih.pos h0 hf hfree)
  | free _ p hp ih => exact ih.free hp

theorem BitmapExact.allocates (h : BitmapExact k s held) (h0 : 0 < k.kernelEnd) :
    AllocatesLowest k s held := by
  rcases allocFrame_lowest s with ⟨he, hall⟩ | ⟨f, hf, hfree, hbelow, he⟩
  · constructor
    · rw [he]
      exact iff_of_true rfl fun f hf => (h.used f hf).mp (hall f hf)
    · intro hp
      rw [he] at hp
      exact absurd rfl hp
  · have hnot := mt (h.used f hf).mpr (by rw [hfree]; exact Bool.false_ne_true)
    rw [not_or] at hnot
    constructor
    · rw [he]
      apply iff_of_false (h.pos h0 hf hfree)
      intro hall
      exact (hall f hf).elim hnot.1 hnot.2
    · intro _
      rw [he]
      norm_num at hf
      refine ⟨⟨by norm_num, by omega, by norm_num; omega, hnot.2⟩, ?_⟩
      intro p hp
      obtain ⟨halign, hlow, hhigh, hheld⟩ := hp
      norm_num at halign hhigh
      by_contra hlt
      have hq : pageSize * (p / 4096) = p := by
        norm_num
        omega
      have hused := (h.used (p / 4096) (by norm_num; omega)).mp (hbelow _ (by omega))
      rw [hq] at hused
      exact hused.elim (by omega) hheld

end Steps

/-- The allocator never hands out a frame that is the kernel's or held. -/
theorem runs_allocate_lowest (k : KernelImage) (h0 : 0 < k.kernelEnd)
    (h64 : k.kernelEnd ≤ maxPhysicalMemory) {s : State} {held : Set ℕ} (h : Runs k s held) :
    AllocatesLowest k s held :=
  (runs_exact h0 h64 h).allocates h0

/-- After one frame has been taken and given back. -/
theorem runs_allocate_lowest_boot :
    AllocatesLowest bootImage
      (freeFrame (allocFrame (pagingInit bootImage fun _ => 0)).2
        (allocFrame (pagingInit bootImage fun _ => 0)).1)
      (insert (allocFrame (pagingInit bootImage fun _ => 0)).1 ∅ \
        {(allocFrame (pagingInit bootImage fun _ => 0)).1}) := by
  have hp : (allocFrame (pagingInit bootImage fun _ => 0)).1 ≠ 0 := by
    intro hnull
    have hexact := pagingInit_exact bootImage (by decide) fun _ => 0
    have hall := (hexact.allocates (by decide)).null_iff.mp hnull 0x600 (by decide)
    exact hall.elim (by decide) (Set.notMem_empty _)
  exact runs_allocate_lowest bootImage (by decide) (by decide)
    (((Runs.init fun _ => 0).alloc hp).free _ (Set.mem_insert _ _))

end FrameAllocator
