import SojebOS.KernelHeapFreeing
import SojebOS.KernelHeapFrame

/-!
# The sizes of the blocks that are handed out

A size within 7 of 2^32 is rounded up to 0, so a request for almost all of memory is served
with whatever block is free. All other requests get blocks of at least their size.
-/
namespace KernelHeapSizes

open ByteMemory MachineWord FirstFit FirstFitUsed KernelHeap KernelHeapRefinement
  KernelHeapOutcomes KernelHeapInvariant KernelHeapFreeing KernelHeapFrame

def usableSize (heap : Heap) (p : ℕ) : ℕ := sizeField heap.mem (p - blockSize)

/-- A pointer that is returned is NULL or has room for `n` bytes. -/
def BigEnough (n : ℕ) (result : Option (Heap × ℕ)) : Prop :=
  ∀ heap p, result = some (heap, p) → p ≠ 0 → n ≤ usableSize heap p

/-- No block is free, but for one whose payload would be at 2^32. -/
def Exhausted (heap : Heap) : Prop :=
  ∃ bs, BlockList heap bs ∧ ∀ b ∈ bs, b.free = true → b.addr + 12 = 2 ^ 32

section Rounding

variable {n : ℕ}

theorem align_small (h : n ≤ 2 ^ 32 - 8) : align n = (n + 7) / 8 * 8 := by
  rw [align_eq, u32_of_lt (by omega)]

theorem le_align (h : n ≤ 2 ^ 32 - 8) : n ≤ align n := by
  rw [align_small h]
  omega

theorem align_wrapped (h : 2 ^ 32 - 8 < n) (hn : n < 2 ^ 32) : align n = 0 := by
  rw [align_eq]
  unfold u32
  omega

end Rounding

section Calls

variable {lo hi n : ℕ} {heap : Heap} {bs : List Block} {b : Block}

theorem bigEnough_some {heap' : Heap} {p : ℕ} :
    BigEnough n (some (heap', p)) ↔ (p ≠ 0 → n ≤ usableSize heap' p) := by
  constructor
  · exact fun h => h heap' p rfl
  · intro h heap p he
    cases he
    exact h

theorem usableSize_block (h : Represents lo hi heap bs) (hb : b ∈ bs) :
    usableSize heap (b.addr + 12) = b.size := by
  rw [usableSize, blockSize, Nat.add_sub_cancel, (h.listed.header hb).size]

theorem bigEnough_block (h : Represents lo hi heap bs) (hb : b ∈ bs) :
    BigEnough n (some (heap, b.addr + 12)) ↔ n ≤ b.size := by
  rw [bigEnough_some, usableSize_block h hb]
  exact ⟨fun hn => hn (by omega), fun hn _ => hn⟩

theorem exhausted_iff (h : Represents lo hi heap bs) :
    Exhausted heap ↔ ∀ b ∈ bs, b.free = true → b.addr + 12 = 2 ^ 32 := by
  constructor
  · rintro ⟨cs, hcs, hall⟩
    rwa [listed_unique hcs h.listed] at hall
  · exact fun hall => ⟨bs, h.listed, hall⟩

theorem wrapped_exhausted (hr : HeapRange lo hi) (h : Represents lo hi heap bs)
    {cs : List Block} {a : ℕ} (ha : allocate 12 8 0 bs = some (cs, a)) (he : a + 12 = 2 ^ 32) :
    Exhausted heap := by
  obtain ⟨pre, b, post, rfl, -, -, rfl, -, hpre⟩ := allocate_split ha
  refine (exhausted_iff h).mpr fun c hc hcf => ?_
  have hpw := h.arena.tiles.pairwise
  rw [List.pairwise_append, List.pairwise_cons] at hpw
  rcases List.mem_append.mp hc with hc' | hc'
  · exact absurd ⟨hcf, Nat.zero_le _⟩ (hpre c hc')
  · rcases List.mem_cons.mp hc' with rfl | hc'
    · exact he
    · have hbehind := hpw.2.1.1 c hc'
      have hbd := block_bounds hr h.arena.tiles hc
      omega

theorem exhausted_not_served (h : Represents lo hi heap bs) (hex : Exhausted heap)
    {cs : List Block} {a : ℕ} (ha : allocate 12 8 n bs = some (cs, a)) : a + 12 = 2 ^ 32 := by
  obtain ⟨pre, b, post, rfl, hf, -, rfl, -, -⟩ := allocate_split ha
  exact (exhausted_iff h).mp hex b (by simp) hf

theorem kmalloc_bigEnough_iff (hr : HeapRange lo hi) (h : Represents lo hi heap bs)
    (hn : n < 2 ^ 32) :
    BigEnough n (kmalloc heap n) ↔ n ≤ 2 ^ 32 - 8 ∨ Exhausted heap := by
  have hout := kmalloc_outcome hr h n
  generalize kmalloc heap n = result at hout ⊢
  rcases Nat.lt_or_ge (2 ^ 32 - 8) n with hbig | hsmall
  · rw [or_iff_right (by omega)]
    have h0 := align_wrapped hbig hn
    cases hout with
    | full ha =>
      rw [h0] at ha
      refine iff_of_true (bigEnough_some.mpr fun h => absurd rfl h) ?_
      exact (exhausted_iff h).mpr fun b hb hf =>
        absurd ⟨hf, Nat.zero_le _⟩ (allocate_none ha b hb)
    | wrapped ha he _ =>
      rw [h0] at ha
      exact iff_of_true (bigEnough_some.mpr fun h => absurd rfl h) (wrapped_exhausted hr h ha he)
    | @served cs c ha hrep hc _ _ hlt =>
      have hbd := block_bounds hr hrep.arena.tiles hc
      rw [bigEnough_block hrep hc]
      refine iff_of_false (by omega) fun hex => ?_
      have := exhausted_not_served h hex ha
      omega
  · refine iff_of_true ?_ (.inl hsmall)
    cases hout with
    | full => exact bigEnough_some.mpr fun h => absurd rfl h
    | wrapped => exact bigEnough_some.mpr fun h => absurd rfl h
    | served _ hrep hc _ hle _ =>
      exact (bigEnough_block hrep hc).mpr ((le_align hsmall).trans hle)

/-- A live pointer keeps its block when the size wraps, and the block is smaller. -/
theorem krealloc_bigEnough_iff (hr : HeapRange lo hi) (h : Represents lo hi heap bs)
    (hb : b ∈ bs) (hf : b.free = false) (hlt : b.addr + 12 < 2 ^ 32) (h0 : 0 < n)
    (hn : n < 2 ^ 32) : BigEnough n (krealloc heap (b.addr + 12) n) ↔ n ≤ 2 ^ 32 - 8 := by
  have hout := krealloc_outcome hr h hb hf hlt n
  generalize krealloc heap (b.addr + 12) n = result at hout ⊢
  have hbd := block_bounds hr h.arena.tiles hb
  have hsize : n ≤ 2 ^ 32 - 8 → n ≤ align n := le_align
  have hwrap : ¬ n ≤ 2 ^ 32 - 8 → align n = 0 := fun hbig => align_wrapped (by omega) hn
  cases hout with
  | freed hz => omega
  | kept _ hle =>
    rw [bigEnough_block h hb]
    constructor
    · omega
    · exact fun hs => (hsize hs).trans hle
  | @grown cs _ hlt' _ hg hrep =>
    obtain ⟨⟨s, hs, hmem⟩, -⟩ := grow_served hg
    refine iff_of_true ((bigEnough_block hrep hmem).mpr ?_) (by omega)
    exact (hsize (by omega)).trans hs
  | refused _ hlt' =>
    exact iff_of_true (bigEnough_some.mpr fun h => absurd rfl h) (by omega)
  | @moved cs c heap' _ hlt' _ hc hcf hle _ hne _ _ _ _ hrep' =>
    refine iff_of_true ((bigEnough_block hrep' (release_keeps hc hcf hne)).mpr ?_) (by omega)
    exact (hsize (by omega)).trans hle

end Calls

section Runs

variable {start size n : ℕ} {s : State}

/-- Requests are served with blocks that are big enough, unless the size is within 7 of 2^32
and there is a block to serve it with. -/
theorem allocations_big_enough_iff (hs : blockSize ≤ size) (hs' : size + alignment < 2 ^ 32)
    (he : start + size ≤ 2 ^ 32) (h : Reachable start size s) (hn : n < 2 ^ 32) :
    (BigEnough n (kmalloc s.heap n) ↔ n ≤ 2 ^ 32 - 8 ∨ Exhausted s.heap) ∧
    (0 < n → (BigEnough n (krealloc s.heap 0 n) ↔ n ≤ 2 ^ 32 - 8 ∨ Exhausted s.heap) ∧
      ∀ q ∈ s.live, BigEnough n (krealloc s.heap q n) ↔ n ≤ 2 ^ 32 - 8) := by
  have hnull : krealloc s.heap 0 n = kmalloc s.heap n := if_pos rfl
  rw [hnull]
  rcases reachable_null_or_blocks hs hs' he h with ⟨hh, hl⟩ | ⟨hr, bs, hinv⟩
  · have hex : Exhausted s.heap := ⟨[], hh, by simp⟩
    have hnone : BigEnough n (kmalloc s.heap n) ↔ n ≤ 2 ^ 32 - 8 ∨ Exhausted s.heap := by
      rw [kmalloc_at_null hh]
      exact iff_of_true (bigEnough_some.mpr fun h => absurd rfl h) (.inr hex)
    refine ⟨hnone, fun _ => ⟨hnone, fun q hq => ?_⟩⟩
    rw [hl] at hq
    exact absurd hq (Finset.notMem_empty q)
  · have hnew := kmalloc_bigEnough_iff hr hinv.represents hn
    refine ⟨hnew, fun hpos => ⟨hnew, fun q hq => ?_⟩⟩
    obtain ⟨hlt, b, hb, hf, rfl⟩ := hinv.live_heads q hq
    exact krealloc_bigEnough_iff hr hinv.represents hb hf hlt hpos hn

/-- A new request, and one for the block behind the hole. -/
theorem allocations_big_enough_iff_holed : ∃ heap,
    Reachable 0x100000 0x400000 ⟨heap, {0x100040}⟩ ∧
    (BigEnough 40 (kmalloc heap 40) ↔ 40 ≤ 2 ^ 32 - 8 ∨ Exhausted heap) ∧
    (BigEnough 40 (krealloc heap 0x100040 40) ↔ 40 ≤ 2 ^ 32 - 8) := by
  obtain ⟨heap, h⟩ := holedHeap_reachable
  obtain ⟨hnew, hold⟩ := allocations_big_enough_iff (by norm_num [blockSize])
    (n := 40) (by norm_num [alignment]) (by norm_num) h (by norm_num)
  exact ⟨heap, h, hnew, (hold (by norm_num)).2 0x100040 (Finset.mem_singleton_self _)⟩

/-- Asking for 2^32 - 1 bytes returns a block of 0 bytes. -/
theorem huge_request_served : ¬ ∀ start size : ℕ, blockSize ≤ size → size + alignment < 2 ^ 32 →
    start + size ≤ 2 ^ 32 → ∀ s, Reachable start size s → ∀ n < 2 ^ 32,
      BigEnough n (kmalloc s.heap n) := by
  intro h
  have hbig := h 0x100000 0x400000 (by norm_num [blockSize]) (by norm_num [alignment])
    (by norm_num) _ (.init fun _ => 0) (2 ^ 32 - 1) (by norm_num)
  rcases (kmalloc_bigEnough_iff kernelHeap_range kernelHeap_start (by norm_num)).mp hbig with
    hn | hex
  · exact absurd hn (by norm_num)
  · exact absurd ((exhausted_iff kernelHeap_start).mp hex _ List.mem_cons_self rfl) (by norm_num)

end Runs

end KernelHeapSizes
