import SojebOS.KernelHeapRefinement

/-!
# The outcomes of the allocator calls

Everything `kmalloc` and `krealloc` can do on a heap that represents an arena, said once
and with the arena that each outcome leaves.
-/
namespace KernelHeapOutcomes

open ByteMemory MachineWord FirstFit KernelHeap KernelHeapRefinement

/-- The heap after `kmalloc` took the block at `a` for a request of `n` bytes. -/
def taken (heap : Heap) (a n : ℕ) : Heap :=
  { heap with mem := takeBlock heap.mem a (align n) }

/-- The heap after `krealloc` copied a payload of `size` bytes. -/
def copied (heap : Heap) (dest src size : ℕ) : Heap :=
  { heap with mem := memcpy heap.mem dest src size }

/-- The heap after `krealloc` grew the block at `a` in place. -/
def grown (heap : Heap) (a n : ℕ) : Heap :=
  { heap with mem := growBlock heap.mem a (align n) }

inductive AllocOutcome (lo hi : ℕ) (heap : Heap) (bs : List Block) (n : ℕ) :
    Option (Heap × ℕ) → Prop where
  | full : allocate 12 8 (align n) bs = none → AllocOutcome lo hi heap bs n (some (heap, 0))
  /-- The payload would start at 2^32, so the returned pointer is NULL. -/
  | wrapped {cs : List Block} {a : ℕ} : allocate 12 8 (align n) bs = some (cs, a) →
      a + 12 = 2 ^ 32 → Represents lo hi (taken heap a n) cs →
      AllocOutcome lo hi heap bs n (some (taken heap a n, 0))
  | served {cs : List Block} {c : Block} : allocate 12 8 (align n) bs = some (cs, c.addr) →
      Represents lo hi (taken heap c.addr n) cs → c ∈ cs → c.free = false →
      align n ≤ c.size → c.addr + 12 < 2 ^ 32 →
      AllocOutcome lo hi heap bs n (some (taken heap c.addr n, c.addr + 12))

/-- What `krealloc` does for the used block `b`. -/
inductive ReallocOutcome (lo hi : ℕ) (heap : Heap) (bs : List Block) (b : Block) (n : ℕ) :
    Option (Heap × ℕ) → Prop where
  | freed {heap' : Heap} : n = 0 → kfree heap (b.addr + 12) = some heap' →
      Represents lo hi heap' (release 12 b.addr bs) →
      ReallocOutcome lo hi heap bs b n (some (heap', 0))
  | kept : n ≠ 0 → align n ≤ b.size →
      ReallocOutcome lo hi heap bs b n (some (heap, b.addr + 12))
  | grown {cs : List Block} : n ≠ 0 → b.size < align n → canGrow heap.mem b.addr (align n) →
      grow 12 8 (align n) b.addr bs = some cs → Represents lo hi (grown heap b.addr n) cs →
      ReallocOutcome lo hi heap bs b n (some (grown heap b.addr n, b.addr + 12))
  | refused {heap' : Heap} : n ≠ 0 → b.size < align n →
      AllocOutcome lo hi heap bs (align n) (some (heap', 0)) →
      ReallocOutcome lo hi heap bs b n (some (heap', 0))
  | moved {cs : List Block} {c : Block} {heap' : Heap} : n ≠ 0 → b.size < align n →
      allocate 12 8 (align n) bs = some (cs, c.addr) → c ∈ cs → c.free = false →
      align n ≤ c.size → c.addr + 12 < 2 ^ 32 → c.addr ≠ b.addr → b ∈ cs →
      Represents lo hi (taken heap c.addr n) cs →
      Represents lo hi (copied (taken heap c.addr n) (c.addr + 12) (b.addr + 12) b.size) cs →
      kfree (copied (taken heap c.addr n) (c.addr + 12) (b.addr + 12) b.size) (b.addr + 12) =
        some heap' →
      Represents lo hi heap' (release 12 b.addr cs) →
      ReallocOutcome lo hi heap bs b n (some (heap', c.addr + 12))

variable {lo hi n : ℕ} {heap : Heap} {bs : List Block} {b : Block}

theorem taken_align (a : ℕ) : taken heap a (align n) = taken heap a n := by
  rw [taken, align_align, taken]

theorem kmalloc_outcome (hr : HeapRange lo hi) (h : Represents lo hi heap bs) (n : ℕ) :
    AllocOutcome lo hi heap bs n (kmalloc heap n) := by
  obtain ⟨hnone, hsome⟩ := kmalloc_eq hr h n
  cases ha : allocate 12 8 (align n) bs with
  | none => rw [hnone ha]; exact .full ha
  | some served =>
    obtain ⟨cs, a⟩ := served
    obtain ⟨heap', hk, hrep⟩ := (kmalloc_refines hr h n).2 cs a ha
    have htaken : some (taken heap a n, u32 (a + 12)) = some (heap', u32 (a + 12)) :=
      (hsome cs a ha).symm.trans hk
    obtain rfl : taken heap a n = heap' := by simpa using htaken
    obtain ⟨⟨s, hs, hmem⟩, -⟩ := allocate_served ha
    have hle : a + 12 + s ≤ 2 ^ 32 := (block_bounds hr hrep.arena.tiles hmem).2.2.1
    rw [hk]
    rcases Nat.lt_or_ge (a + 12) (2 ^ 32) with hlt | hge
    · rw [u32_of_lt hlt]
      exact .served (c := ⟨a, s, false⟩) ha hrep hmem rfl hs hlt
    · have he : a + 12 = 2 ^ 32 := by omega
      rw [he]
      exact .wrapped ha he hrep

theorem allocate_fresh {cs : List Block} {a : ℕ} (ht : Tiles 12 lo bs hi) (hb : b ∈ bs)
    (hf : b.free = false) (ha : allocate 12 8 n bs = some (cs, a)) : a ≠ b.addr := by
  obtain ⟨pre, c, post, rfl, hcf, -, rfl, -, -⟩ := allocate_split ha
  intro he
  rw [ht.eq_of_addr (by norm_num) hb (c := c) (by simp) he.symm, hcf] at hf
  cases hf

theorem krealloc_outcome (hr : HeapRange lo hi) (h : Represents lo hi heap bs) (hb : b ∈ bs)
    (hf : b.free = false) (hlt : b.addr + 12 < 2 ^ 32) (n : ℕ) :
    ReallocOutcome lo hi heap bs b n (krealloc heap (b.addr + 12) n) := by
  have hblock : sub32 (b.addr + 12) blockSize = b.addr := by
    rw [blockSize, sub32_of_le (by omega) hlt]
    omega
  have hp0 : b.addr + 12 ≠ 0 := by omega
  have hsize := (h.listed.header hb).size
  simp only [krealloc, hp0, ↓reduceIte, hblock, hsize]
  by_cases hn : n = 0
  · obtain ⟨heap', hk, hrep⟩ := kfree_refines hr h hb hlt
    rw [if_pos hn, hk]
    exact .freed hn hk hrep
  rw [if_neg hn]
  by_cases hfit : align n ≤ b.size
  · rw [if_pos hfit]
    exact .kept hn hfit
  rw [if_neg hfit]
  have hsmall : b.size < align n := by omega
  by_cases hg : canGrow heap.mem b.addr (align n)
  · obtain ⟨cs, hgrow, hrep⟩ := canGrow_refines hr h hb hf hg
    rw [if_pos hg]
    exact .grown hn hsmall hg hgrow hrep
  rw [if_neg hg]
  have hout := kmalloc_outcome hr h (align n)
  generalize hk : kmalloc heap (align n) = result at hout
  cases hout with
  | full ha => exact .refused hn hsmall (.full ha)
  | wrapped ha he hrep => exact .refused hn hsmall (.wrapped ha he hrep)
  | @served cs c ha hrep hc hcf hroom hclt =>
    have hc0 : c.addr + 12 ≠ 0 := by omega
    rw [align_align] at ha hroom
    rw [taken_align] at hrep ⊢
    have hbc := (allocate_served ha).2 b hb hf
    have hcopy : sizeField (taken heap c.addr n).mem b.addr = b.size :=
      (hrep.listed.header hbc).size
    have hrep₂ : Represents lo hi
        (copied (taken heap c.addr n) (c.addr + 12) (b.addr + 12) b.size) cs :=
      ⟨hrep.listed.copy_payload hrep.arena.tiles hr hc (by omega), hrep.arena⟩
    obtain ⟨heap', hk', hrep'⟩ := kfree_refines hr hrep₂ hbc hlt
    simp only [Option.bind_eq_bind, Option.bind_some, hc0, ↓reduceIte, hcopy]
    change ReallocOutcome lo hi heap bs b n ((kfree (copied (taken heap c.addr n) (c.addr + 12)
      (b.addr + 12) b.size) (b.addr + 12)).bind fun h₃ => some (h₃, c.addr + 12))
    rw [hk', Option.bind_some]
    exact .moved hn hsmall ha hc hcf hroom hclt (allocate_fresh h.arena.tiles hb hf ha) hbc hrep
      hrep₂ hk' hrep'

end KernelHeapOutcomes
