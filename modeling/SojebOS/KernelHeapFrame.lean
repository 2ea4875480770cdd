import SojebOS.KernelHeapInvariant

/-!
# What the allocator leaves alone

At byte level a call writes inside the heap only, and there never into the payload of a
live block other than its argument's.
-/
namespace KernelHeapFrame

open ByteMemory MachineWord WhileLoop LinkedChain FirstFit KernelHeap KernelHeapRefinement
  KernelHeapOutcomes KernelHeapInvariant

def pointer : Call → ℕ
  | .kmalloc _ => 0
  | .krealloc p _ => p
  | .kfree p => p

/-- The bytes outside the heap and in the payloads of the live blocks, but for the block
of the call's own pointer, are as before. -/
structure FrameKept (start size : ℕ) (s : State) (c : Call) (t : State) : Prop where
  outside : ∀ x, x < start ∨ start + size ≤ x → t.heap.mem x = s.heap.mem x
  payloads : ∀ q ∈ s.live, q ≠ pointer c → ∀ x, q ≤ x →
    x < q + sizeField s.heap.mem (q - blockSize) → t.heap.mem x = s.heap.mem x

/-- A byte outside the interval, or in the payload of a used block that is not at `a`. -/
def Guarded (lo hi : ℕ) (bs : List Block) (a x : ℕ) : Prop :=
  x < lo ∨ hi ≤ x ∨
    ∃ c ∈ bs, c.free = false ∧ c.addr ≠ a ∧ c.addr + 12 ≤ x ∧ x < c.addr + 12 + c.size

section Bytes

variable {lo hi a x n : ℕ} {heap heap' : Heap} {bs cs : List Block} {b c : Block}

theorem Guarded.off_extent (hg : Guarded lo hi bs a x) (ht : Tiles 12 lo bs hi) (hb : b ∈ bs)
    (hfa : b.free = true ∨ b.addr = a) : x < b.addr ∨ b.addr + 12 + b.size ≤ x := by
  have hbd := ht.mem_bounds hb
  rcases hg with hx | hx | ⟨c, hc, hcf, hca, h1, h2⟩
  · omega
  · omega
  · have hne : b ≠ c := by
      rintro rfl
      rcases hfa with hf | ha
      · rw [hcf] at hf
        cases hf
      · exact hca ha
    have := ht.apart hb hc hne
    omega

theorem Guarded.off_header (hg : Guarded lo hi bs a x) (ht : Tiles 12 lo bs hi) (hb : b ∈ bs) :
    x < b.addr ∨ b.addr + 12 ≤ x := by
  have hbd := ht.mem_bounds hb
  rcases hg with hx | hx | ⟨c, hc, -, -, h1, h2⟩
  · omega
  · omega
  · rcases eq_or_ne b c with rfl | hne
    · omega
    · have := ht.apart hb hc hne
      omega

theorem Guarded.keep (hg : Guarded lo hi bs a x) (hk : KeepsBut a bs cs) :
    Guarded lo hi cs a x := by
  apply hg.imp_right
  intro hg
  apply hg.imp_right
  rintro ⟨c, hc, hcf, hca, hx⟩
  exact ⟨c, hk c hc hcf hca, hcf, hca, hx⟩

theorem taken_outside (hr : HeapRange lo hi) (h : Represents lo hi heap bs) {d : ℕ}
    (ha : allocate 12 8 (align n) bs = some (cs, d)) (hg : Guarded lo hi bs a x) :
    (taken heap d n).mem x = heap.mem x := by
  obtain ⟨pre, b, post, rfl, hf, hn, rfl, -, -⟩ := allocate_split ha
  have hb : b ∈ pre ++ b :: post := by simp
  have hbd := block_bounds hr h.arena.tiles hb
  have hs := (h.listed.header hb).size
  have hx := hg.off_extent h.arena.tiles hb (.inl hf)
  exact takeBlock_outside (by omega) (by omega) (by omega) (by omega)

theorem coalesceAround_outside {m : Bytes} {block prev : ℕ} (hb : x < block ∨ block + 12 ≤ x)
    (hp : prev ≠ 0 → x < prev ∨ prev + 12 ≤ x) : coalesceAround m block prev x = m x := by
  have hnext : (if nextField m block ≠ 0 ∧ freeField m (nextField m block) ≠ 0 then
      absorb m block (nextField m block) else m) x = m x := by
    split
    · exact absorb_outside hb
    · rfl
  simp only [coalesceAround]
  generalize (if nextField m block ≠ 0 ∧ freeField m (nextField m block) ≠ 0 then
    absorb m block (nextField m block) else m) = m₁ at hnext ⊢
  split
  · rename_i hprev
    rw [absorb_outside (hp hprev.1), hnext]
  · exact hnext

theorem kfree_outside (hr : HeapRange lo hi) (h : Represents lo hi heap bs) (hb : b ∈ bs)
    (hlt : b.addr + 12 < 2 ^ 32) (hk : kfree heap (b.addr + 12) = some heap')
    (hg : Guarded lo hi bs a x) : heap'.mem x = heap.mem x := by
  obtain ⟨pre, post, rfl⟩ := List.append_of_mem hb
  have ht := h.arena.tiles
  have hbx := hg.off_header ht hb
  rw [kfree_eq hr h hlt] at hk
  obtain rfl := Option.some.inj hk
  refine (coalesceAround_outside hbx ?_).trans (setFree_outside hbx)
  intro h0
  rcases List.eq_nil_or_concat pre with rfl | ⟨pre, q, rfl⟩
  · exact absurd rfl h0
  · simpa using hg.off_header ht (b := q) (by simp)

/-- Growing writes the header of the block, and one more behind its new size when there is room
in the free successor. -/
theorem grown_apart (hr : HeapRange lo hi) (h : Represents lo hi heap bs)
    (hgr : grow 12 8 (align n) b.addr bs = some cs) :
    ∃ d c, d ∈ bs ∧ c ∈ bs ∧ d.addr = b.addr ∧ c.free = true ∧ c.addr = b.addr + 12 + d.size ∧
      align n ≤ d.size + 12 + c.size ∧
      ∀ x, (x < b.addr ∨ b.addr + 12 ≤ x) →
        (align n + 20 ≤ d.size + 12 + c.size →
          x < b.addr + 12 + align n ∨ b.addr + 12 + align n + 12 ≤ x) →
        (grown heap b.addr n).mem x = heap.mem x := by
  obtain ⟨pre, d, c, post, rfl, hda, hcf, hn, -⟩ := grow_split hgr
  obtain ⟨r, -, rfl, hhd, hnx, hhc, -⟩ := listed_append.mp h.listed
  obtain ⟨p, hp, rfl, hca, hpost⟩ := tiles_append.mp h.arena.tiles
  have hlo := hp.le
  have hlen := hr.length
  have htop := hr.top
  have hend := hpost.le
  have hsd := hhd.size
  have hsc := hhc.size
  rw [hda] at hsd hnx
  rw [← hnx] at hsc
  refine ⟨d, c, by simp, by simp, hda, hcf, by omega, hn, ?_⟩
  intro x hx hnew
  exact growBlock_apart (by omega) (by omega) (by omega) hx fun hsplit => hnew (by omega)

theorem grown_outside (hr : HeapRange lo hi) (h : Represents lo hi heap bs)
    (hgr : grow 12 8 (align n) b.addr bs = some cs) (hg : Guarded lo hi bs b.addr x) :
    (grown heap b.addr n).mem x = heap.mem x := by
  obtain ⟨d, c, hd, hc, hda, hcf, hca, hn, happ⟩ := grown_apart hr h hgr
  have hxd := hg.off_extent h.arena.tiles hd (.inr hda)
  have hxc := hg.off_extent h.arena.tiles hc (.inl hcf)
  exact happ x (by omega) fun hsplit => by omega

end Bytes

section Calls

variable {lo hi n a x : ℕ} {heap heap' : Heap} {bs : List Block} {b : Block} {p r : ℕ}

theorem kmalloc_frame (hr : HeapRange lo hi) (h : Represents lo hi heap bs)
    (hk : kmalloc heap n = some (heap', r)) (hg : Guarded lo hi bs a x) :
    heap'.mem x = heap.mem x := by
  have hout := kmalloc_outcome hr h n
  rw [hk] at hout
  cases hout with
  | full => rfl
  | wrapped ha => exact taken_outside hr h ha hg
  | served ha => exact taken_outside hr h ha hg

theorem krealloc_frame (hr : HeapRange lo hi) (h : Represents lo hi heap bs) (hb : b ∈ bs)
    (hf : b.free = false) (hlt : b.addr + 12 < 2 ^ 32)
    (hk : krealloc heap (b.addr + 12) n = some (heap', r)) (hg : Guarded lo hi bs b.addr x) :
    heap'.mem x = heap.mem x := by
  have hout := krealloc_outcome hr h hb hf hlt n
  rw [hk] at hout
  cases hout with
  | freed _ hfree _ => exact kfree_outside hr h hb hlt hfree hg
  | kept => rfl
  | grown _ _ _ hgr _ => exact grown_outside hr h hgr hg
  | refused _ _ hout =>
    cases hout with
    | full => rfl
    | wrapped ha => exact taken_outside hr h ha hg
  | @moved cs c _ _ hsmall ha hc hcf hroom hclt hne hbc hrep₁ hrep₂ hfree _ =>
    have hkeep : KeepsBut b.addr bs cs := fun y hy hyf _ => (allocate_served ha).2 y hy hyf
    have hg' := hg.keep hkeep
    rw [kfree_outside hr hrep₂ hbc hlt hfree hg']
    rw [← taken_outside hr h ha hg]
    -- the new block was free, so no guarded byte lies in it
    obtain ⟨pre, d, post, rfl, hdf, hdn, hda, rfl, -⟩ := allocate_split ha
    have hx : x < c.addr + 12 ∨ c.addr + 12 + b.size ≤ x := by
      have hxd := hg.off_extent h.arena.tiles (b := d) (by simp) (.inl hdf)
      omega
    have hend := (block_bounds hr hrep₁.arena.tiles hc).2.2.1
    exact memcpy_outside b.size (by omega) hx

theorem call_keeps_frame (hr : HeapRange lo hi) {s t : State} {c : Call}
    (h : Invariant lo hi s bs) (hc : Permitted s c) (hs : perform s c = some t)
    (hg : Guarded lo hi bs (pointer c - 12) x) : t.heap.mem x = s.heap.mem x := by
  cases c with
  | kmalloc n =>
    obtain ⟨⟨heap', r⟩, hk, rfl⟩ := Option.map_eq_some_iff.mp hs
    exact kmalloc_frame hr h.represents hk hg
  | kfree p =>
    obtain ⟨heap', hk, rfl⟩ := Option.map_eq_some_iff.mp hs
    rcases hc with rfl | hp
    · obtain rfl : s.heap = heap' := by simpa [KernelHeap.kfree] using hk
      rfl
    · obtain ⟨hlt, b, hb, -, rfl⟩ := h.live_heads p hp
      exact kfree_outside hr h.represents hb hlt hk hg
  | krealloc p n =>
    obtain ⟨⟨heap', r⟩, hk, rfl⟩ := Option.map_eq_some_iff.mp hs
    rcases hc.1 with rfl | hp
    · exact kmalloc_frame hr h.represents (by simpa [KernelHeap.krealloc] using hk) hg
    · obtain ⟨hlt, b, hb, hf, rfl⟩ := h.live_heads p hp
      simp only [pointer, Nat.add_sub_cancel] at hg
      exact krealloc_frame hr h.represents hb hf hlt hk hg

end Calls

section Runs

variable {start size : ℕ} {s : State} {bs : List Block} {c : Call}

theorem invariant_frameKept (hr : HeapRange start (start + size))
    (h : Invariant start (start + size) s bs) (hc : Permitted s c) {t : State}
    (hs : perform s c = some t) : FrameKept start size s c t := by
  constructor
  · intro x hx
    exact call_keeps_frame hr h hc hs (hx.elim .inl fun hx => .inr (.inl hx))
  · intro q hq hne x h1 h2
    obtain ⟨-, b, hb, hf, rfl⟩ := h.live_heads q hq
    simp only [blockSize, Nat.add_sub_cancel, (h.represents.listed.header hb).size] at h2
    have hnp : b.addr ≠ pointer c - 12 := by
      have := (h.represents.listed.header hb).nonNull
      omega
    exact call_keeps_frame hr h hc hs (.inr (.inr ⟨b, hb, hf, hnp, h1, h2⟩))

theorem kmalloc_at_null {heap : Heap} (hh : heap.freeListHead = 0) (n : ℕ) :
    kmalloc heap n = some (heap, 0) := by
  have hnil : Linked (nextField heap.mem) (· = 0) heap.freeListHead [] := .nil hh
  simp only [kmalloc, walk_eq_findSome _ hnil (n := wordCount) (by norm_num [wordCount])]
  rfl

/-- With NULL for its list head the allocator does nothing. -/
theorem call_at_null (hh : s.heap.freeListHead = 0) (hl : s.live = ∅) (hc : Permitted s c) :
    perform s c = some s := by
  obtain ⟨heap, live⟩ := s
  simp only at hh hl
  subst hl
  have hk := kmalloc_at_null hh
  cases c with
  | kmalloc n => simp [perform, hk, gain]
  | kfree p =>
    obtain rfl : p = 0 := by simpa [Permitted] using hc
    simp [perform, KernelHeap.kfree]
  | krealloc p n =>
    obtain rfl : p = 0 := by
      have := hc.1
      simpa using this
    simp [perform, KernelHeap.krealloc, hk, gain]

theorem reachable_at_null (h : Reachable 0 size s) : s.heap.freeListHead = 0 ∧ s.live = ∅ := by
  induction h with
  | init m => exact ⟨rfl, rfl⟩
  | call _ hc hp ih =>
    rw [call_at_null ih.1 ih.2 hc] at hp
    obtain rfl := Option.some.inj hp
    exact ih

/-- A reachable heap starts at address 0, which reads as the end of its list, or has blocks. -/
theorem reachable_null_or_blocks (hs : blockSize ≤ size) (hs' : size + alignment < 2 ^ 32)
    (he : start + size ≤ 2 ^ 32) (h : Reachable start size s) :
    (s.heap.freeListHead = 0 ∧ s.live = ∅) ∨
      HeapRange start (start + size) ∧ ∃ bs, Invariant start (start + size) s bs := by
  rcases Nat.eq_zero_or_pos start with rfl | h0
  · exact Or.inl (reachable_at_null h)
  · simp only [alignment] at hs'
    have hr : HeapRange start (start + size) := ⟨h0, he, by omega⟩
    exact Or.inr ⟨hr, reachable_invariant hr hs h⟩

/-- Every permitted call on a reachable heap returns and keeps the frame. -/
theorem reachable_frameKept (hs : blockSize ≤ size) (hs' : size ≤ 2 ^ 31)
    (he : start + size ≤ 2 ^ 32) (h : Reachable start size s) (hc : Permitted s c) :
    ∃ t, perform s c = some t ∧ FrameKept start size s c t := by
  have hroom : size + alignment < 2 ^ 32 := by
    simp only [alignment]
    omega
  rcases reachable_null_or_blocks hs hroom he h with ⟨hh, hl⟩ | ⟨hr, bs, hinv⟩
  · exact ⟨s, call_at_null hh hl hc, fun x _ => rfl, fun q _ _ x _ _ => rfl⟩
  · obtain ⟨t, -, ht, -⟩ := call_preserves_invariant hr hinv hc
    exact ⟨t, ht, invariant_frameKept hr hinv hc ht⟩

/-- The block behind the hole is made larger. -/
theorem reachable_frameKept_holed : ∃ heap t, Reachable 0x100000 0x400000 ⟨heap, {0x100040}⟩ ∧
    perform ⟨heap, {0x100040}⟩ (.krealloc 0x100040 200) = some t ∧
      FrameKept 0x100000 0x400000 ⟨heap, {0x100040}⟩ (.krealloc 0x100040 200) t := by
  obtain ⟨heap, h⟩ := holedHeap_reachable
  obtain ⟨t, ht, hkept⟩ := reachable_frameKept (c := .krealloc 0x100040 200)
    (by norm_num [blockSize]) (by norm_num) (by norm_num) h
    ⟨.inr (Finset.mem_singleton_self _), by norm_num⟩
  exact ⟨heap, t, h, ht, hkept⟩

end Runs

end KernelHeapFrame
