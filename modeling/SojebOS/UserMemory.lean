import SojebOS.FrameSupply
import SojebOS.TranslatedPaging

/-!
# Writing through the page tables

Where ring 3 has the page, a store at a virtual address changes one byte of one frame: the
byte is seen at that address and at no other, and no table changes.
-/
namespace UserMemory

open ByteMemory MachineWord PageFrames Paging PagingWalks PagingRefinement PagingInit FrameSupply
open TranslatedPaging (storeVirtual writeVirtual)

variable {k : KernelImage} {s : State} {a f n x : ℕ}

theorem translate_user (hu : userFrame k s (a / 4096) = some f) :
    translate k s a = some (4096 * f + a % 4096) := by
  have hframe := userFrame_eq hu
  unfold userFrame at hu
  split at hu
  · rename_i hflags
    rw [Paging.translate, if_pos hflags.2.1, page_mask (walk_lt k s _), hframe]
  · cases hu

theorem Sound.user_apart (h : Sound k s) (hu : userFrame k s (a / 4096) = some f) :
    k.directoryFrame ≠ f ∧ ∀ d, tableFrame k s d ≠ some f :=
  ⟨fun e => h.isolated.page_not_kept _ _ hu (e ▸ k.directory_kept),
    fun d => h.isolated.page_not_table _ d _ hu⟩

theorem storeVirtual_user (h : Sound k s) (b : UInt8) (hu : userFrame k s (a / 4096) = some f) :
    ∃ s', storeVirtual k s a b = some s' ∧ SameTables k s s' ∧
      ∀ x, userByte k s' x = if x = a then some b else userByte k s x := by
  have hi : a % 4096 < 4096 := Nat.mod_lt _ (by norm_num)
  obtain ⟨hdir, htable⟩ := Sound.user_apart h hu
  have hsame := sameTables_write (fun g hg => store8_frameKept s.memory b hi hg) hdir htable
  have hstore : storeVirtual k s a b =
      some { s with memory := store8 s.memory (4096 * f + a % 4096) b } := by
    rw [storeVirtual, translate_user hu, Option.map_some]
  refine ⟨_, hstore, hsame, fun x => ?_⟩
  rw [userByte, hsame.userFrame_eq]
  by_cases hx : x = a
  · rw [if_pos hx, hx, hu, Option.map_some]
    exact congrArg some (store8_same _ _ b)
  · rw [if_neg hx, userByte]
    cases hg : userFrame k s (x / 4096) with
    | none => rfl
    | some g =>
      rw [Option.map_some, Option.map_some]
      refine congrArg some (store8_other fun e => ?_)
      have hgf : g = f := by omega
      have hpage := h.isolated.page_injective _ _ f (hgf ▸ hg) hu
      omega

theorem writeVirtual_user (h : Sound k s) (src : Bytes) (hn : a + n ≤ 2 ^ 32)
    (hu : ∀ i < n, userByte k s (a + i) ≠ none) :
    ∃ s', writeVirtual k s a src n = some s' ∧ SameTables k s s' ∧
      ∀ x, userByte k s' x = if a ≤ x ∧ x < a + n then some (src (x - a)) else userByte k s x := by
  induction n with
  | zero =>
    refine ⟨s, rfl, .refl k s, fun x => ?_⟩
    rw [if_neg (by omega)]
  | succ n ih =>
    obtain ⟨s₁, hrun, hsame, hbytes⟩ := ih (by omega) fun i hi => hu i (by omega)
    obtain ⟨f, hf⟩ : ∃ f, userFrame k s₁ ((a + n) / 4096) = some f := by
      rw [hsame.userFrame_eq]
      by_contra hnone
      apply hu n (by omega)
      rw [userByte, Option.eq_none_iff_forall_not_mem.mpr fun f hf => hnone ⟨f, hf⟩]
      rfl
    obtain ⟨s₂, hstore, hsame', hbytes'⟩ := storeVirtual_user (hsame.sound h) (src n) hf
    refine ⟨s₂, ?_, hsame.trans hsame', fun x => ?_⟩
    · rw [writeVirtual, hrun, Option.bind_some, u32_of_lt (by omega)]
      exact hstore
    · rw [hbytes' x, hbytes x]
      by_cases hx : x = a + n
      · rw [if_pos hx, if_pos (by omega), hx, Nat.add_sub_cancel_left]
      · rw [if_neg hx]
        apply if_congr _ rfl rfl
        omega

/-- The frames that a list of pages needs, and those there are, are seen by the address space. -/
theorem supply_congr {s' : State} (h : SameTables k s s') (vs : List ℕ) :
    framesNeeded k s' vs = framesNeeded k s vs ∧ freeFrames s' = freeFrames s := by
  constructor
  · simp only [framesNeeded, emptySlots, h.tables]
  · rw [freeFrames, freeFrames, h.bitmapTest_eq]

end UserMemory
