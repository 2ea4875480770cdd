import SojebOS.KernelHeapOutcomes

/-!
# The block list tiles the heap in every reachable state

The invariant ties the block list to the heap interval and every live pointer to a used
block. Each call returns on a state that satisfies it and preserves it.
-/
namespace KernelHeapInvariant

open ByteMemory MachineWord FirstFit KernelHeap KernelHeapRefinement KernelHeapOutcomes

def Heads (bs : List Block) (p : ℕ) : Prop :=
  p < 2 ^ 32 ∧ ∃ b ∈ bs, b.free = false ∧ p = b.addr + 12

/-- Used blocks stay as they are, but for the one at address `a`. -/
def KeepsBut (a : ℕ) (bs cs : List Block) : Prop :=
  ∀ c ∈ bs, c.free = false → c.addr ≠ a → c ∈ cs

structure Invariant (lo hi : ℕ) (s : State) (bs : List Block) : Prop where
  represents : Represents lo hi s.heap bs
  live_heads : ∀ p ∈ s.live, Heads bs p

section Calls

variable {lo hi : ℕ} {heap : Heap} {bs cs : List Block} {b : Block} {p n : ℕ}

theorem Heads.nonNull (h : Heads bs p) : p ≠ 0 := by
  obtain ⟨-, b, -, -, rfl⟩ := h
  omega

theorem Heads.keep {a : ℕ} (h : Heads bs p) (hk : KeepsBut a bs cs) (hp : p ≠ a + 12) :
    Heads cs p := by
  obtain ⟨hlt, b, hb, hf, rfl⟩ := h
  exact ⟨hlt, b, hk b hb hf (by omega), hf, rfl⟩

/-- A returned pointer heads a used block, and used blocks stay. -/
theorem kmalloc_spec (hr : HeapRange lo hi) (h : Represents lo hi heap bs) (n : ℕ) :
    ∃ heap' r cs, kmalloc heap n = some (heap', r) ∧ Represents lo hi heap' cs ∧
      (∀ c ∈ bs, c.free = false → c ∈ cs) ∧ (r ≠ 0 → Heads cs r) := by
  have hout := kmalloc_outcome hr h n
  generalize kmalloc heap n = result at hout ⊢
  cases hout with
  | full => exact ⟨heap, 0, bs, rfl, h, fun c hc _ => hc, fun h0 => absurd rfl h0⟩
  | wrapped ha _ hrep =>
    exact ⟨_, 0, _, rfl, hrep, (allocate_served ha).2, fun h0 => absurd rfl h0⟩
  | @served cs c ha hrep hc hcf _ hlt =>
    exact ⟨_, _, cs, rfl, hrep, (allocate_served ha).2, fun _ => ⟨hlt, c, hc, hcf, rfl⟩⟩

theorem kfree_spec (hr : HeapRange lo hi) (h : Represents lo hi heap bs) (hp : Heads bs p) :
    ∃ heap' cs, kfree heap p = some heap' ∧ Represents lo hi heap' cs ∧
      KeepsBut (p - 12) bs cs := by
  obtain ⟨hlt, b, hb, hf, rfl⟩ := hp
  obtain ⟨heap', hk, hrep⟩ := kfree_refines hr h hb hlt
  refine ⟨heap', _, hk, hrep, fun c hc hcf hca => release_keeps hc hcf ?_⟩
  omega

/-- The three fates of a live pointer given to `krealloc`: the pointer is given up, it is
kept, or it is exchanged for that of another block. -/
theorem krealloc_spec (hr : HeapRange lo hi) (h : Represents lo hi heap bs)
    (hp : Heads bs p) (n : ℕ) :
    ∃ heap' r cs, krealloc heap p n = some (heap', r) ∧ Represents lo hi heap' cs ∧
      KeepsBut (p - 12) bs cs ∧ (r = 0 ∧ n ≠ 0 → Heads cs p) ∧ (r ≠ 0 → Heads cs r) := by
  have hp' := hp
  obtain ⟨hlt, b, hb, hf, rfl⟩ := hp'
  have hp0 : b.addr + 12 ≠ 0 := by omega
  have hout := krealloc_outcome hr h hb hf hlt n
  generalize krealloc heap (b.addr + 12) n = result at hout ⊢
  cases hout with
  | freed hn hk hrep =>
    refine ⟨_, 0, _, rfl, hrep, fun c hc hcf hca => release_keeps hc hcf (by omega),
      fun h0 => absurd hn h0.2, fun h0 => absurd rfl h0⟩
  | kept =>
    exact ⟨heap, b.addr + 12, bs, rfl, h, fun c hc _ _ => hc, fun h0 => absurd h0.1 hp0,
      fun _ => hp⟩
  | @grown cs _ _ _ hg hrep =>
    obtain ⟨⟨s, -, hs⟩, hkeep⟩ := grow_served hg
    exact ⟨_, b.addr + 12, cs, rfl, hrep, fun c hc hcf hca => hkeep c hc hcf (by omega),
      fun h0 => absurd h0.1 hp0, fun _ => ⟨hlt, _, hs, rfl, rfl⟩⟩
  | refused _ _ hout =>
    cases hout with
    | full =>
      exact ⟨heap, 0, bs, rfl, h, fun c hc _ _ => hc, fun _ => hp, fun h0 => absurd rfl h0⟩
    | wrapped ha _ hrep =>
      have hkeep := (allocate_served ha).2
      exact ⟨_, 0, _, rfl, hrep, fun c hc hcf _ => hkeep c hc hcf,
        fun _ => ⟨hlt, b, hkeep b hb hf, hf, rfl⟩, fun h0 => absurd rfl h0⟩
  | @moved cs c heap' _ _ ha hc hcf _ hclt hne _ _ _ _ hrep' =>
    refine ⟨heap', c.addr + 12, _, rfl, hrep', fun x hx hxf hxa => ?_,
      fun h0 => by have := h0.1; omega,
      fun _ => ⟨hclt, c, release_keeps hc hcf hne, hcf, rfl⟩⟩
    exact release_keeps ((allocate_served ha).2 x hx hxf) hxf (by omega)

end Calls

section Runs

variable {start size lo hi : ℕ} {s t : State} {bs : List Block} {c : Call}

theorem mem_gain {p q : ℕ} {live : Finset ℕ} (h : q ∈ gain p live) :
    q = p ∧ p ≠ 0 ∨ q ∈ live := by
  unfold gain at h
  split at h
  · exact .inr h
  · rename_i hp
    exact (Finset.mem_insert.mp h).imp_left fun he => ⟨he, hp⟩

/-- Every permitted call returns and keeps the invariant. -/
theorem call_preserves_invariant (hr : HeapRange lo hi) (h : Invariant lo hi s bs)
    (hc : Permitted s c) : ∃ t cs, perform s c = some t ∧ Invariant lo hi t cs := by
  cases c with
  | kmalloc n =>
    obtain ⟨heap', r, cs, hk, hrep, hkeep, hserved⟩ := kmalloc_spec hr h.represents n
    refine ⟨⟨heap', gain r s.live⟩, cs, by simp [perform, hk], hrep, fun p hp => ?_⟩
    rcases mem_gain hp with ⟨rfl, h0⟩ | hp
    · exact hserved h0
    · obtain ⟨hlt, b, hb, hf, he⟩ := h.live_heads p hp
      exact ⟨hlt, b, hkeep b hb hf, hf, he⟩
  | kfree p =>
    rcases hc with rfl | hp
    · refine ⟨⟨s.heap, s.live.erase 0⟩, bs, by simp [perform, KernelHeap.kfree], h.represents,
        fun q hq => h.live_heads q (Finset.mem_of_mem_erase hq)⟩
    · have hheads := h.live_heads p hp
      obtain ⟨heap', cs, hk, hrep, hkeep⟩ := kfree_spec hr h.represents hheads
      refine ⟨⟨heap', s.live.erase p⟩, cs, by simp [perform, hk], hrep, fun q hq => ?_⟩
      obtain ⟨hne, hlive⟩ := Finset.mem_erase.mp hq
      obtain ⟨-, b, -, -, rfl⟩ := hheads
      exact (h.live_heads q hlive).keep hkeep (by omega)
  | krealloc p n =>
    rcases hc.1 with rfl | hp
    · obtain ⟨heap', r, cs, hk, hrep, hkeep, hserved⟩ := kmalloc_spec hr h.represents n
      refine ⟨⟨heap', if r = 0 ∧ n ≠ 0 then s.live else gain r (s.live.erase 0)⟩, cs,
        by simp [perform, KernelHeap.krealloc, hk], hrep, fun q hq => ?_⟩
      have hkept : ∀ q ∈ s.live, Heads cs q := fun q hq => by
        obtain ⟨hlt, b, hb, hf, he⟩ := h.live_heads q hq
        exact ⟨hlt, b, hkeep b hb hf, hf, he⟩
      change q ∈ ite _ _ _ at hq
      split at hq
      · exact hkept q hq
      · rcases mem_gain hq with ⟨rfl, h0⟩ | hq
        · exact hserved h0
        · exact hkept q (Finset.mem_of_mem_erase hq)
    · have hheads := h.live_heads p hp
      obtain ⟨heap', r, cs, hk, hrep, hkeep, hkept, hgot⟩ :=
        krealloc_spec hr h.represents hheads n
      refine ⟨⟨heap', if r = 0 ∧ n ≠ 0 then s.live else gain r (s.live.erase p)⟩, cs,
        by simp [perform, hk], hrep, fun q hq => ?_⟩
      have hother : ∀ q ∈ s.live, q ≠ p → Heads cs q := by
        obtain ⟨-, b, -, -, rfl⟩ := hheads
        exact fun q hq hne => (h.live_heads q hq).keep hkeep (by omega)
      change q ∈ ite _ _ _ at hq
      split at hq
      · rename_i h0
        rcases eq_or_ne q p with rfl | hne
        · exact hkept h0
        · exact hother q hq hne
      · rcases mem_gain hq with ⟨rfl, h0⟩ | hq
        · exact hgot h0
        · obtain ⟨hne, hq⟩ := Finset.mem_erase.mp hq
          exact hother q hq hne

theorem kheapInit_represents (m : Bytes) (hr : HeapRange start (start + size)) (hs : 12 ≤ size) :
    Represents start (start + size) (kheapInit m start size) [⟨start, size - 12, true⟩] := by
  obtain ⟨h0, -, hs'⟩ := hr
  have hsub : sub32 size blockSize = size - 12 := sub32_of_le hs (by omega)
  constructor
  · refine ⟨rfl, ⟨by simpa using by omega, ?_, ?_⟩, ?_⟩
    all_goals simp (disch := omega) only [Listed, kheapInit, hsub, sizeField, freeField,
      nextField, setSize, setFree, setNext, load32_store32, load32_store32_apart, ne_eq,
      one_ne_zero, not_false_eq_true]
  · exact ⟨⟨rfl, by simp only [Tiles]; omega⟩, .singleton _⟩

theorem reachable_invariant (hr : HeapRange start (start + size)) (hs : 12 ≤ size)
    (h : Reachable start size s) : ∃ bs, Invariant start (start + size) s bs := by
  induction h with
  | init m =>
    exact ⟨_, kheapInit_represents m hr hs, by simp⟩
  | call _ hc hp ih =>
    obtain ⟨bs, hbs⟩ := ih
    obtain ⟨t, cs, ht, hcs⟩ := call_preserves_invariant hr hbs hc
    rw [hp] at ht
    cases ht
    exact ⟨cs, hcs⟩

/-- No permitted call loops: the list it walks is finite. -/
theorem reachable_call_returns (hr : HeapRange start (start + size)) (hs : 12 ≤ size)
    (h : Reachable start size s) (hc : Permitted s c) : ∃ t, perform s c = some t := by
  obtain ⟨bs, hbs⟩ := reachable_invariant hr hs h
  obtain ⟨t, _, ht, _⟩ := call_preserves_invariant hr hbs hc
  exact ⟨t, ht⟩

/-- The block list read from `free_list_head` tiles the heap, and live pointers are the
payloads of used blocks, disjoint and inside the heap. -/
structure TilesHeap (start size : ℕ) (s : State) (bs : List Block) : Prop where
  listed : Listed s.heap.mem s.heap.freeListHead bs 0
  first : bs.head?.map Block.addr = some start
  increasing : bs.Pairwise fun b c => b.addr < c.addr
  linked : bs.IsChain fun b c => nextField s.heap.mem b.addr = b.addr + 12 + b.size ∧
    c.addr = b.addr + 12 + b.size
  last : ∃ b, bs.getLast? = some b ∧ b.addr + 12 + b.size = start + size ∧
    nextField s.heap.mem b.addr = 0
  separated : bs.IsChain fun b c => ¬ (b.free = true ∧ c.free = true)
  live_used : ∀ p ∈ s.live, ∃ b ∈ bs, b.free = false ∧ p = b.addr + 12 ∧
    start ≤ p ∧ p + b.size ≤ start + size
  payloads_disjoint : ∀ b ∈ bs, ∀ c ∈ bs, b.addr + 12 ∈ s.live → c.addr + 12 ∈ s.live →
    b ≠ c → b.addr + 12 + b.size ≤ c.addr + 12 ∨ c.addr + 12 + c.size ≤ b.addr + 12

theorem listed_links {m : Bytes} {p a e : ℕ} (hl : Listed m p bs 0) (ht : Tiles 12 a bs e) :
    (bs.IsChain fun b c => nextField m b.addr = b.addr + 12 + b.size ∧
      c.addr = b.addr + 12 + b.size) ∧
    ∀ b, bs.getLast? = some b → b.addr + 12 + b.size = e ∧ nextField m b.addr = 0 := by
  induction bs generalizing p a with
  | nil => exact ⟨.nil, by simp⟩
  | cons b bs ih =>
    obtain ⟨rfl, -, hl⟩ := hl
    obtain ⟨rfl, ht⟩ := ht
    have hb := ih hl ht
    cases bs with
    | nil =>
      refine ⟨.singleton _, fun c hc => ?_⟩
      obtain rfl : b = c := by simpa using hc
      exact ⟨ht, hl⟩
    | cons c bs =>
      refine ⟨List.isChain_cons_cons.mpr ⟨⟨?_, ht.1⟩, hb.1⟩, fun d hd => hb.2 d ?_⟩
      · rw [hl.1, ht.1]
      · simpa [List.getLast?_cons_cons] using hd

theorem Invariant.tilesHeap (h : Invariant start (start + size) s bs) (hs : 12 ≤ size) :
    TilesHeap start size s bs := by
  have hl := h.represents.listed
  have ht := h.represents.arena.tiles
  have hlinks := listed_links hl ht
  obtain ⟨b, hlast⟩ : ∃ b, bs.getLast? = some b := by
    cases bs with
    | nil => have : start = start + size := ht; omega
    | cons b bs => exact ⟨_, List.getLast?_cons⟩
  refine ⟨hl, ?_, ht.pairwise.imp fun hbc => by omega, hlinks.1, ⟨b, hlast, hlinks.2 b hlast⟩,
    h.represents.arena.separated, fun p hp => ?_, fun b hb c hc _ _ hne => ?_⟩
  · cases bs with
    | nil => simp at hlast
    | cons c bs => simpa using ht.1
  · obtain ⟨-, b, hb, hf, rfl⟩ := h.live_heads p hp
    have := ht.mem_bounds hb
    exact ⟨b, hb, hf, rfl, by omega, by omega⟩
  · have := ht.apart hb hc hne
    omega

/-- The heap may start at any address but NULL, which the allocator reads as the end
of the list. -/
theorem reachable_tilesHeap (h0 : 0 < start) (hs : 12 ≤ size) (hs' : size ≤ 2 ^ 31)
    (he : start + size ≤ 2 ^ 32) (h : Reachable start size s) :
    ∃ bs, TilesHeap start size s bs := by
  obtain ⟨bs, hbs⟩ := reachable_invariant ⟨h0, he, by omega⟩ hs h
  exact ⟨bs, hbs.tilesHeap hs⟩

theorem kernelHeap_range : HeapRange 0x100000 (0x100000 + 0x400000) :=
  ⟨by norm_num, by norm_num, by norm_num⟩

theorem kernelHeap_start : Represents 0x100000 (0x100000 + 0x400000)
    (kheapInit (fun _ => 0) 0x100000 0x400000) [⟨0x100000, 0x400000 - 12, true⟩] :=
  kheapInit_represents _ kernelHeap_range (by norm_num)

/-- The heap after kmalloc(40), kmalloc(100) and a kfree of the first block. -/
theorem holedHeap_reachable : ∃ heap, Reachable 0x100000 0x400000 ⟨heap, {0x100040}⟩ := by
  obtain ⟨heap₁, hk₁, hrep₁⟩ := (kmalloc_refines kernelHeap_range kernelHeap_start 40).2
    [⟨0x100000, 40, false⟩, ⟨0x100034, 0x400000 - 64, true⟩] 0x100000 (by decide)
  obtain ⟨heap₂, hk₂, hrep₂⟩ := (kmalloc_refines kernelHeap_range hrep₁ 100).2
    [⟨0x100000, 40, false⟩, ⟨0x100034, 104, false⟩, ⟨0x1000A8, 0x400000 - 180, true⟩] 0x100034
    (by decide)
  obtain ⟨heap₃, hk₃, -⟩ := kfree_refines kernelHeap_range hrep₂ (b := ⟨0x100000, 40, false⟩)
    List.mem_cons_self (by norm_num)
  have hfirst : Reachable 0x100000 0x400000 ⟨heap₁, {0x10000C}⟩ := by
    refine .call (c := .kmalloc 40) (.init fun _ => 0) (by norm_num [Permitted]) ?_
    rw [perform, hk₁]
    rfl
  have hsecond : Reachable 0x100000 0x400000 ⟨heap₂, {0x100040, 0x10000C}⟩ := by
    refine .call (c := .kmalloc 100) hfirst (by norm_num [Permitted]) ?_
    rw [perform, hk₂]
    rfl
  refine ⟨heap₃, .call (c := .kfree 0x10000C) hsecond
    (.inr (Finset.mem_insert_of_mem (Finset.mem_singleton_self _))) ?_⟩
  rw [perform, hk₃]
  rfl

theorem reachable_tilesHeap_holed : ∃ heap bs,
    Reachable 0x100000 0x400000 ⟨heap, {0x100040}⟩ ∧
      TilesHeap 0x100000 0x400000 ⟨heap, {0x100040}⟩ bs := by
  obtain ⟨heap, h⟩ := holedHeap_reachable
  obtain ⟨bs, hbs⟩ := reachable_tilesHeap (by norm_num) (by norm_num) (by norm_num) (by norm_num) h
  exact ⟨heap, bs, h, hbs⟩

/-- A heap at address 0 has NULL for its list head, so no block is listed. -/
theorem heap_at_null_not_tiled : ¬ ∀ start size : ℕ, 12 ≤ size → size ≤ 2 ^ 31 →
    start + size ≤ 2 ^ 32 → ∀ s, Reachable start size s → ∃ bs, TilesHeap start size s bs := by
  intro h
  obtain ⟨bs, hbs⟩ := h 0 0x400000 (by norm_num) (by norm_num) (by norm_num) _
    (.init fun _ => 0)
  cases bs with
  | nil => simpa using hbs.first
  | cons b bs => exact hbs.listed.2.1.nonNull hbs.listed.1.symm

end Runs

end KernelHeapInvariant
