import SojebOS.FirstFitRuns
import SojebOS.KernelHeapSizes

/-!
# The free runs of the heap

Seen from outside, the heap is its bytes outside the live blocks. `kmalloc` looks at list nodes
only, and yet serves the lowest run of such bytes that is long enough.
-/
namespace KernelHeapRuns

open ByteMemory MachineWord FirstFit FirstFitUsed FirstFitRuns KernelHeap KernelHeapRefinement
  KernelHeapOutcomes KernelHeapInvariant KernelHeapFreeing KernelHeapFrame KernelHeapSizes

/-- A byte of a live block, header included. -/
def LiveByte (s : State) (x : ℕ) : Prop :=
  ∃ p ∈ s.live, p - blockSize ≤ x ∧ x < p + usableSize s.heap p

/-- A maximal run of heap bytes outside live blocks. -/
def FreeRun (start size : ℕ) (s : State) : (a e : ℕ) → Prop :=
  MaximalRun (LiveByte s) start (start + size)

/-- The run has room for a header and `n` bytes rounded up to 8. -/
def LongEnough (n a e : ℕ) : Prop := blockSize + (n + 7) / 8 * 8 ≤ e - a

/-- `kmalloc` returns NULL, and leaves the heap as it is, when no run is long enough, and else
the payload at the start of the lowest run that is. -/
structure ServesLowestRun (start size : ℕ) (s : State) (n : ℕ) : Prop where
  null_iff : (∃ heap, kmalloc s.heap n = some (heap, 0)) ↔
    ∀ a e, FreeRun start size s a e → ¬ LongEnough n a e
  unchanged : ∀ heap, kmalloc s.heap n = some (heap, 0) → heap = s.heap
  lowest : ∀ a e, FreeRun start size s a e → LongEnough n a e →
    (∀ a' e', FreeRun start size s a' e' → LongEnough n a' e' → a ≤ a') →
    ∃ heap, kmalloc s.heap n = some (heap, a + blockSize)

variable {start size lo hi n a e : ℕ} {s : State} {bs : List Block}

theorem liveByte_iff (h : Exact lo hi s bs) (x : ℕ) : LiveByte s x ↔ Covered 12 bs x := by
  constructor
  · rintro ⟨p, hp, h1, h2⟩
    obtain ⟨a, ⟨b, hb, hf, rfl⟩, rfl⟩ := (h.live_iff p).mp hp
    rw [usableSize_block h.represents hb] at h2
    exact ⟨b, hb, hf, by simpa [blockSize] using h1, h2⟩
  · rintro ⟨b, hb, hf, h1, h2⟩
    refine ⟨b.addr + 12, (h.live_iff _).mpr ⟨_, ⟨b, hb, hf, rfl⟩, rfl⟩, ?_, ?_⟩
    · simpa [blockSize] using h1
    · rwa [usableSize_block h.represents hb]

theorem freeRun_iff (h : Exact start (start + size) s bs) :
    FreeRun start size s a e ↔ MaximalRun (Covered 12 bs) start (start + size) a e :=
  ⟨fun hrun => hrun.congr (liveByte_iff h), fun hrun => hrun.congr fun x => (liveByte_iff h x).symm⟩

theorem serves_lowest_run (hr : HeapRange start (start + size))
    (h : Exact start (start + size) s bs) (hn : n ≤ 2 ^ 32 - 8) :
    ServesLowestRun start size s n := by
  have harena := h.represents.arena
  have hsize : align n = (n + 7) / 8 * 8 := align_small hn
  have hlong : ∀ a e, LongEnough n a e ↔ 12 + align n ≤ e - a := by
    intro a e
    rw [LongEnough, blockSize, hsize]
  have hnone : allocate 12 8 (align n) bs = none ↔
      ∀ a e, FreeRun start size s a e → ¬ LongEnough n a e := by
    simp only [allocate_none_iff harena (by norm_num), freeRun_iff h, hlong, not_le]
  have hout := kmalloc_outcome hr h.represents n
  constructor
  · rw [← hnone]
    generalize kmalloc s.heap n = result at hout ⊢
    cases hout with
    | full ha => exact iff_of_true ⟨_, rfl⟩ ha
    | wrapped ha he _ =>
      have := not_wrapped hr harena.tiles h.addressable ha
      omega
    | @served cs c ha _ _ _ _ _ =>
      refine iff_of_false ?_ (by rw [ha]; simp)
      rintro ⟨heap, he⟩
      have := (Prod.mk.inj (Option.some.inj he)).2
      omega
  · intro heap hk
    rw [hk] at hout
    generalize hp : (0 : ℕ) = p at hout
    cases hout with
    | full => rfl
    | wrapped ha he _ =>
      have := not_wrapped hr harena.tiles h.addressable ha
      omega
    | served => omega
  · intro a e hrun hroom hlow
    simp only [freeRun_iff h, hlong] at hrun hroom hlow
    obtain ⟨cs, ha⟩ := allocate_lowest harena (by norm_num) hrun hroom hlow
    obtain ⟨heap', hk, -⟩ := (kmalloc_refines hr h.represents n).2 cs a ha
    rw [u32_of_lt (not_wrapped hr harena.tiles h.addressable ha)] at hk
    exact ⟨heap', hk⟩

/-- On every reachable heap but one at NULL, or one of a header at the top of memory, `kmalloc`
fails only when it must. -/
theorem reachable_serves_lowest_run (h0 : 0 < start) (ha : start + blockSize < 2 ^ 32)
    (hs : blockSize ≤ size) (hs' : size ≤ 2 ^ 31) (he : start + size ≤ 2 ^ 32)
    (h : Reachable start size s) (hn : n ≤ 2 ^ 32 - 8) : ServesLowestRun start size s n := by
  have hr : HeapRange start (start + size) := ⟨h0, he, by omega⟩
  obtain ⟨bs, hexact⟩ := reachable_exact hr hs ha h
  exact serves_lowest_run hr hexact hn

/-- A request that does not fit into the hole. -/
theorem reachable_serves_lowest_run_holed : ∃ heap,
    Reachable 0x100000 0x400000 ⟨heap, {0x100040}⟩ ∧
      ServesLowestRun 0x100000 0x400000 ⟨heap, {0x100040}⟩ 60 := by
  obtain ⟨heap, h⟩ := holedHeap_reachable
  exact ⟨heap, h, reachable_serves_lowest_run (by norm_num) (by norm_num [blockSize])
    (by norm_num [blockSize]) (by norm_num) (by norm_num) h (by norm_num)⟩

/-- A heap at NULL is one free run, and nothing is served from it. -/
theorem heap_at_null_serves_nothing : ¬ ∀ start size : ℕ, blockSize ≤ size → size ≤ 2 ^ 31 →
    start + size ≤ 2 ^ 32 → ∀ s, Reachable start size s → ∀ n ≤ 2 ^ 32 - 8,
      ServesLowestRun start size s n := by
  intro h
  have hserve := h 0 0x400000 (by norm_num [blockSize]) (by norm_num) (by norm_num) _
    (.init fun _ => 0) 40 (by norm_num)
  have hrun : FreeRun 0 0x400000 ⟨kheapInit (fun _ => 0) 0 0x400000, ∅⟩ 0 0x400000 := by
    refine ⟨le_rfl, by norm_num, by norm_num, fun x _ _ => ?_, .inl rfl, .inl (by norm_num)⟩
    rintro ⟨p, hp, -⟩
    exact absurd hp (Finset.notMem_empty p)
  have hnull : kmalloc (kheapInit (fun _ => 0) 0 0x400000) 40 =
      some (kheapInit (fun _ => 0) 0 0x400000, 0) := kmalloc_at_null rfl 40
  exact hserve.null_iff.mp ⟨_, hnull⟩ _ _ hrun (by norm_num [LongEnough, blockSize])

end KernelHeapRuns
