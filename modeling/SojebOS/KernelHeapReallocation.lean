import SojebOS.KernelHeapSizes

/-!
# Reallocation keeps the data

Whatever way `krealloc` takes, the bytes that fit into the new size are found at the pointer
that it returns, and the other live blocks are as before. When it returns NULL nothing has
happened.
-/
namespace KernelHeapReallocation

open ByteMemory MachineWord FirstFit FirstFitUsed KernelHeap KernelHeapRefinement
  KernelHeapOutcomes KernelHeapInvariant KernelHeapFreeing KernelHeapFrame KernelHeapSizes

/-- The used block of a pointer is in the block lists of both heaps. -/
def KeepsBlock (heap heap' : Heap) (q : ℕ) : Prop :=
  ∃ bs cs, BlockList heap bs ∧ BlockList heap' cs ∧
    ∃ b, b ∈ bs ∧ b ∈ cs ∧ b.free = false ∧ q = b.addr + 12

/-- What `krealloc(p, n)` owes its clients when it takes the state `s` to `t` and returns `r`. -/
structure ReallocKeeps (s : State) (p n : ℕ) (t : State) (r : ℕ) : Prop where
  returned : krealloc s.heap p n = some (t.heap, r)
  contents : r ≠ 0 → ∀ i < min (usableSize s.heap p) n, t.heap.mem (r + i) = s.heap.mem (p + i)
  live : r ≠ 0 → r ∈ t.live ∧ (r ≠ p → p ∉ t.live)
  others : r ≠ 0 → ∀ q ∈ s.live, q ≠ p → q ∈ t.live ∧ KeepsBlock s.heap t.heap q ∧
    ∀ x, q ≤ x → x < q + usableSize s.heap q → t.heap.mem x = s.heap.mem x
  refused : r = 0 → t = s

section Bytes

variable {lo hi n i x : ℕ} {heap heap' : Heap} {bs cs : List Block} {b c : Block}

theorem grown_inside (hr : HeapRange lo hi) (h : Represents lo hi heap bs)
    (hgr : grow 12 8 (align n) b.addr bs = some cs) (hfit : i < align n) :
    (grown heap b.addr n).mem (b.addr + 12 + i) = heap.mem (b.addr + 12 + i) := by
  obtain ⟨_, _, -, -, -, -, -, -, happ⟩ := grown_apart hr h hgr
  exact happ _ (.inr (by omega)) fun _ => .inl (by omega)

theorem moved_contents (hr : HeapRange lo hi) (h : Represents lo hi heap bs) (hb : b ∈ bs)
    (hf : b.free = false) (hlt : b.addr + 12 < 2 ^ 32)
    (ha : allocate 12 8 (align n) bs = some (cs, c.addr)) (hc : c ∈ cs) (hcf : c.free = false)
    (hsize : b.size ≤ c.size) (hne : c.addr ≠ b.addr) (hbc : b ∈ cs)
    (hrep : Represents lo hi (copied (taken heap c.addr n) (c.addr + 12) (b.addr + 12) b.size) cs)
    (hk : kfree (copied (taken heap c.addr n) (c.addr + 12) (b.addr + 12) b.size) (b.addr + 12) =
      some heap') (hfit : i < b.size) :
    heap'.mem (c.addr + 12 + i) = heap.mem (b.addr + 12 + i) := by
  have hbd := block_bounds hr h.arena.tiles hb
  have hcd := block_bounds hr hrep.arena.tiles hc
  have happ := hrep.arena.tiles.apart hbc hc fun he => hne (he ▸ rfl)
  have hnew : Guarded lo hi cs b.addr (c.addr + 12 + i) :=
    .inr (.inr ⟨c, hc, hcf, hne, by omega, by omega⟩)
  have hold : Guarded lo hi bs c.addr (b.addr + 12 + i) :=
    .inr (.inr ⟨b, hb, hf, hne.symm, by omega, by omega⟩)
  calc heap'.mem (c.addr + 12 + i)
    _ = memcpy (taken heap c.addr n).mem (c.addr + 12) (b.addr + 12) b.size (c.addr + 12 + i) :=
        kfree_outside hr hrep hbc hlt hk hnew
    _ = (taken heap c.addr n).mem (b.addr + 12 + i) :=
        memcpy_inside b.size (by omega) (by omega) (by omega) hfit
    _ = heap.mem (b.addr + 12 + i) := taken_outside hr h ha hold

end Bytes

section Calls

variable {lo hi n p i : ℕ} {heap heap' : Heap} {live : Finset ℕ} {bs cs : List Block}
variable {b : Block} {r : ℕ}

theorem krealloc_contents (hr : HeapRange lo hi) (h : Represents lo hi heap bs) (hb : b ∈ bs)
    (hf : b.free = false) (hlt : b.addr + 12 < 2 ^ 32) (hn : 0 < n) (hn' : n ≤ 2 ^ 32 - 8)
    (hk : krealloc heap (b.addr + 12) n = some (heap', r)) (hr0 : r ≠ 0)
    (hfit : i < min b.size n) : heap'.mem (r + i) = heap.mem (b.addr + 12 + i) := by
  have hle := le_align hn'
  have hout := krealloc_outcome hr h hb hf hlt n
  rw [hk] at hout
  cases hout with
  | freed hz => omega
  | kept => rfl
  | grown _ _ _ hgr _ => exact grown_inside hr h hgr (by omega)
  | refused => exact absurd rfl hr0
  | moved _ hsmall ha hc hcf hroom _ hne hbc _ hrep hfree _ =>
    exact moved_contents hr h hb hf hlt ha hc hcf (by omega) hne hbc hrep hfree (by omega)

/-- With a live pointer there is no block whose payload is at 2^32, and a refusal changes
nothing. -/
theorem krealloc_refused (hr : HeapRange lo hi) (h : Exact lo hi ⟨heap, live⟩ bs) (hb : b ∈ bs)
    (hf : b.free = false) (hn : 0 < n)
    (hk : krealloc heap (b.addr + 12) n = some (heap', 0)) : heap' = heap := by
  have hout := krealloc_outcome hr h.represents hb hf (h.addressable b hb) n
  rw [hk] at hout
  generalize hz : (0 : ℕ) = r at hout
  cases hout with
  | freed hn0 => omega
  | kept => rfl
  | grown => omega
  | refused _ _ hout =>
    generalize hz : (0 : ℕ) = r at hout
    cases hout with
    | full => rfl
    | wrapped ha he _ =>
      have := not_wrapped hr h.represents.arena.tiles h.addressable ha
      omega
    | served => omega
  | moved => omega

end Calls

section Runs

variable {start size lo hi n p q : ℕ} {s : State} {bs : List Block} {b : Block}

theorem mem_reallocLive {r : ℕ} (hr0 : r ≠ 0) {live : Finset ℕ} :
    q ∈ reallocLive n p r live ↔ q = r ∨ q ≠ p ∧ q ∈ live := by
  rw [reallocLive, if_neg fun h => hr0 h.1, gain, if_neg hr0, Finset.mem_insert, Finset.mem_erase]

theorem krealloc_keeps (hr : HeapRange lo hi) (h : Exact lo hi s bs) (hp : p ∈ s.live)
    (hn : 0 < n) (hn' : n ≤ 2 ^ 32 - 8) :
    ∃ t r, perform s (.krealloc p n) = some t ∧ ReallocKeeps s p n t r := by
  obtain ⟨heap, live⟩ := s
  obtain ⟨a, ⟨b, hb, hf, rfl⟩, rfl⟩ := (h.live_iff p).mp hp
  have hlt := h.addressable b hb
  have hheads : Heads bs (b.addr + 12) := ⟨hlt, b, hb, hf, rfl⟩
  obtain ⟨heap', r, cs, hk, hrep, hkeep, -, -⟩ := krealloc_spec hr h.represents hheads n
  refine ⟨⟨heap', reallocLive n (b.addr + 12) r live⟩, r, by simp [perform, hk, reallocLive], hk,
    fun hr0 i hi => ?_, fun hr0 => ⟨?_, fun hne hmem => ?_⟩, fun hr0 q hq hne => ⟨?_, ?_, ?_⟩, ?_⟩
  · rw [usableSize_block h.represents hb] at hi
    exact krealloc_contents hr h.represents hb hf hlt hn hn' hk hr0 hi
  · exact (mem_reallocLive hr0).mpr (.inl rfl)
  · rcases (mem_reallocLive hr0).mp hmem with he | ⟨hself, -⟩
    · exact hne he.symm
    · exact hself rfl
  · exact (mem_reallocLive hr0).mpr (.inr ⟨hne, hq⟩)
  · obtain ⟨a, ⟨c, hc, hcf, rfl⟩, rfl⟩ := (h.live_iff q).mp hq
    exact ⟨bs, cs, h.represents.listed, hrep.listed, c, hc, hkeep c hc hcf (by omega), hcf, rfl⟩
  · intro x h1 h2
    obtain ⟨a, ⟨c, hc, hcf, rfl⟩, rfl⟩ := (h.live_iff q).mp hq
    rw [usableSize_block h.represents hc] at h2
    exact krealloc_frame hr h.represents hb hf hlt hk
      (.inr (.inr ⟨c, hc, hcf, by omega, h1, h2⟩))
  · rintro rfl
    rw [krealloc_refused hr h hb hf hn hk, reallocLive, if_pos ⟨rfl, hn.ne'⟩]

/-- `krealloc` of a live pointer keeps the data or changes nothing. -/
theorem reachable_realloc_keeps (hs : blockSize ≤ size) (hs' : size + alignment < 2 ^ 32)
    (he : start + size ≤ 2 ^ 32) (h : Reachable start size s) (hp : p ∈ s.live) (hn : 0 < n)
    (hn' : n ≤ 2 ^ 32 - 8) :
    ∃ t r, perform s (.krealloc p n) = some t ∧ ReallocKeeps s p n t r := by
  rcases reachable_null_or_blocks hs hs' he h with ⟨-, hl⟩ | ⟨hr, bs, hinv⟩
  · rw [hl] at hp
    exact absurd hp (Finset.notMem_empty p)
  · -- the block of a live pointer is not the one at the top of memory
    have hstart : start + 12 < 2 ^ 32 := by
      obtain ⟨hlt, b, hb, -, rfl⟩ := hinv.live_heads p hp
      have := (block_bounds hr hinv.represents.arena.tiles hb).1
      omega
    obtain ⟨cs, hexact⟩ := reachable_exact hr hs hstart h
    exact krealloc_keeps hr hexact hp hn hn'

/-- A heap with one block of 40 bytes in use, made larger. -/
theorem reachable_realloc_keeps_kernel : ∃ s, Reachable 0x100000 0x400000 s ∧ 0x10000C ∈ s.live ∧
    ∃ t r, perform s (.krealloc 0x10000C 100) = some t ∧ ReallocKeeps s 0x10000C 100 t r := by
  obtain ⟨heap, hk, -⟩ := (kmalloc_refines kernelHeap_range kernelHeap_start 40).2
    [⟨0x100000, 40, false⟩, ⟨0x100034, 0x400000 - 64, true⟩] 0x100000 (by decide)
  have hs : Reachable 0x100000 0x400000 ⟨heap, {0x10000C}⟩ := by
    refine .call (c := .kmalloc 40) (.init fun _ => 0) (by simp [Permitted]) ?_
    simp [perform, hk, gain, u32]
  have hp : 0x10000C ∈ (⟨heap, {0x10000C}⟩ : State).live := Finset.mem_singleton_self _
  exact ⟨_, hs, hp, reachable_realloc_keeps (by norm_num [blockSize]) (by norm_num [alignment])
    (by norm_num) hs hp (by norm_num) (by norm_num)⟩

end Runs

end KernelHeapReallocation
