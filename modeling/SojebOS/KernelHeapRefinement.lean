import SojebOS.FirstFit
import SojebOS.KernelHeap

/-!
# The kernel heap refines a first-fit arena

`Listed` reads the block list out of memory. Each allocator function, run on a memory
that lists an arena, lists what the arena's own operation makes of it.
-/
namespace KernelHeapRefinement

open ByteMemory MachineWord WhileLoop LinkedChain FirstFit KernelHeap

structure HeaderIs (m : Bytes) (b : Block) : Prop where
  nonNull : b.addr ≠ 0
  size : sizeField m b.addr = b.size
  free : freeField m b.addr ≠ 0 ↔ b.free = true

/-- Following `next` from `p` meets the headers of the given blocks and then `q`. -/
def Listed (m : Bytes) : ℕ → List Block → ℕ → Prop
  | p, [], q => p = q
  | p, b :: bs, q => p = b.addr ∧ HeaderIs m b ∧ Listed m (nextField m b.addr) bs q

section Lists

variable {m m' : Bytes} {bs cs : List Block} {p q : ℕ}

theorem listed_append :
    Listed m p (bs ++ cs) q ↔ ∃ r, Listed m p bs r ∧ Listed m r cs q := by
  induction bs generalizing p with
  | nil => simp [Listed]
  | cons b bs ih =>
    simp only [List.cons_append, Listed, ih]
    constructor
    · rintro ⟨hb, hh, r, h1, h2⟩; exact ⟨r, ⟨hb, hh, h1⟩, h2⟩
    · rintro ⟨r, ⟨hb, hh, h1⟩, h2⟩; exact ⟨hb, hh, r, h1, h2⟩

theorem Listed.congr (hl : Listed m p bs q)
    (hm : ∀ b ∈ bs, ∀ x, b.addr ≤ x → x < b.addr + 12 → m' x = m x) : Listed m' p bs q := by
  induction bs generalizing p with
  | nil => exact hl
  | cons b bs ih =>
    obtain ⟨rfl, hh, hl⟩ := hl
    have hb := hm b List.mem_cons_self
    have hsize : sizeField m' b.addr = sizeField m b.addr :=
      load32_congr fun x h1 h2 => hb x h1 (by omega)
    have hfree : freeField m' b.addr = freeField m b.addr :=
      load32_congr fun x h1 h2 => hb x (by omega) (by omega)
    have hnext : nextField m' b.addr = nextField m b.addr :=
      load32_congr fun x h1 h2 => hb x (by omega) (by omega)
    refine ⟨rfl, ⟨hh.nonNull, hsize ▸ hh.size, hfree ▸ hh.free⟩, ?_⟩
    rw [hnext]
    exact ih hl fun c hc => hm c (List.mem_cons_of_mem _ hc)

theorem Listed.linked (hl : Listed m p bs 0) :
    Linked (nextField m) (· = 0) p (bs.map Block.addr) := by
  induction bs generalizing p with
  | nil => exact .nil hl
  | cons b bs ih =>
    obtain ⟨rfl, hh, hl⟩ := hl
    exact .cons hh.nonNull (ih hl)

theorem listed_replace {pre mid' post : List Block} (mid : List Block) {lo hi : ℕ}
    (hl : Listed m p (pre ++ mid ++ post) 0) (ht : Tiles 12 lo (pre ++ mid ++ post) hi)
    (hmid : ∀ r q, Listed m r mid q → Listed m q post 0 → Listed m' r mid' q)
    (hout : ∀ a e, Tiles 12 a mid e → ∀ x, x < a ∨ e ≤ x → m' x = m x) :
    Listed m' p (pre ++ mid' ++ post) 0 := by
  simp only [listed_append] at hl ⊢
  simp only [tiles_append] at ht
  obtain ⟨q, ⟨r, hp, hm⟩, hq⟩ := hl
  obtain ⟨e, ⟨a, hpre, hae⟩, hpost⟩ := ht
  refine ⟨q, ⟨r, hp.congr fun b hb x h1 h2 => ?_, hmid r q hm hq⟩,
    hq.congr fun b hb x h1 h2 => ?_⟩
  · have := (hpre.mem_bounds hb).2
    exact hout a e hae x (.inl (by omega))
  · have := (hpost.mem_bounds hb).1
    exact hout a e hae x (.inr (by omega))

end Lists

section Headers

variable {m : Bytes} {b c : Block} {a q v n : ℕ}

theorem setSize_outside {x : ℕ} (h : x < a ∨ a + 12 ≤ x) : setSize m a v x = m x :=
  store32_outside (by omega)

theorem setFree_outside {x : ℕ} (h : x < a ∨ a + 12 ≤ x) : setFree m a v x = m x :=
  store32_outside (by omega)

theorem setNext_outside {x : ℕ} (h : x < a ∨ a + 12 ≤ x) : setNext m a v x = m x :=
  store32_outside (by omega)

theorem newFreeBlock_outside {x s : ℕ} (h : x < a ∨ a + 12 ≤ x) :
    newFreeBlock m a s v x = m x := by
  unfold newFreeBlock
  rw [setNext_outside h, setFree_outside h, setSize_outside h]

theorem align_eq (size : ℕ) : align size = u32 (size + 7) / 8 * 8 :=
  and_high_mask (u32_lt _) (by norm_num : 3 ≤ 32)

theorem align_align (size : ℕ) : align (align size) = align size := by
  simp only [align_eq]
  unfold u32
  omega

theorem setFree_listed (hl : Listed m a [b] q) :
    Listed (setFree m b.addr 1) a [{ b with free := true }] q := by
  obtain ⟨rfl, hh, hq⟩ := hl
  have hs : sizeField (setFree m b.addr 1) b.addr = sizeField m b.addr :=
    load32_store32_apart (by omega)
  have hf : freeField (setFree m b.addr 1) b.addr = 1 := load32_store32 (by norm_num)
  have hn : nextField (setFree m b.addr 1) b.addr = nextField m b.addr :=
    load32_store32_apart (by omega)
  refine ⟨rfl, ⟨hh.nonNull, hs.trans hh.size, by simp [hf]⟩, ?_⟩
  simpa only [Listed, hn] using hq

theorem absorb_outside {x : ℕ} (h : x < a ∨ a + 12 ≤ x) : absorb m a v x = m x := by
  simp only [absorb]
  rw [setNext_outside h, setSize_outside h]

theorem absorb_listed (hl : Listed m a [b, c] q) (hb : b.free = true)
    (hc : b.addr + 12 ≤ c.addr) (hs : b.size + 12 + c.size < 2 ^ 32) :
    Listed (absorb m b.addr c.addr) a [join 12 b c] q := by
  obtain ⟨rfl, hh, hbc, hhc, hq⟩ := hl
  have hv : u32 (sizeField m b.addr + u32 (blockSize + sizeField m c.addr)) =
      b.size + 12 + c.size := by
    rw [hh.size, hhc.size, blockSize, u32_of_lt (by omega : 12 + c.size < 2 ^ 32),
      u32_of_lt (by omega)]
    omega
  have hsize : sizeField (absorb m b.addr c.addr) b.addr = b.size + 12 + c.size := by
    unfold absorb
    rw [hv]
    exact (load32_store32_apart (by omega)).trans (load32_store32 hs)
  have hfree : freeField (absorb m b.addr c.addr) b.addr = freeField m b.addr := by
    simp only [absorb, freeField, setNext, setSize]
    rw [load32_store32_apart (by omega), load32_store32_apart (by omega)]
  have hnext : nextField (absorb m b.addr c.addr) b.addr = nextField m c.addr := by
    simp only [absorb, nextField, setNext, setSize]
    rw [load32_store32 (load32_lt _ _), load32_store32_apart (by omega)]
  refine ⟨rfl, ⟨hh.nonNull, hsize, ?_⟩, ?_⟩
  · simp [join, hfree, hh.free, hb]
  · simpa only [Listed, join, hnext] using hq

theorem takeBlock_outside {x : ℕ} (hb : a + 12 + sizeField m a ≤ 2 ^ 32)
    (hs : sizeField m a + 20 < 2 ^ 32) (hn : n ≤ sizeField m a)
    (h : x < a ∨ a + 12 + sizeField m a ≤ x) : takeBlock m a n x = m x := by
  have hu : u32 (n + blockSize + alignment) = n + 20 :=
    u32_of_lt (by simp only [blockSize, alignment]; omega)
  simp only [takeBlock, hu]
  split
  · have hnb : u32 (a + blockSize + n) = a + 12 + n :=
      u32_of_lt (by simp only [blockSize]; omega)
    rw [hnb, setFree_outside (by omega), setNext_outside (by omega), setSize_outside (by omega),
      newFreeBlock_outside (by omega)]
  · exact setFree_outside (by omega)

/-- Marking the found block used, split or whole, carves it. -/
theorem takeBlock_listed (hl : Listed m a [b] q) (he : b.addr + 12 + b.size ≤ 2 ^ 32)
    (hs : b.size + 20 < 2 ^ 32) (hn : n ≤ b.size) :
    Listed (takeBlock m b.addr n) a (carve 12 8 n b) q := by
  obtain ⟨rfl, hh, hq⟩ := hl
  have hq : nextField m b.addr = q := hq
  have hu : u32 (n + blockSize + alignment) = n + 20 :=
    u32_of_lt (by simp only [blockSize, alignment]; omega)
  simp only [takeBlock, carve, hu, hh.size, show n + 12 + 8 = n + 20 by omega]
  by_cases hsplit : n + 20 ≤ b.size
  · have hnb : u32 (b.addr + blockSize + n) = b.addr + 12 + n :=
      u32_of_lt (by simp only [blockSize]; omega)
    have hrest : sub32 (sub32 b.size n) blockSize = b.size - n - 12 := by
      rw [sub32_of_le hn (by omega), blockSize, sub32_of_le (by omega) (by omega)]
    have hnx : load32 m (b.addr + 8) < 2 ^ 32 := load32_lt _ _
    simp only [hsplit, ↓reduceIte, hnb, hrest]
    refine ⟨rfl, ⟨hh.nonNull, ?_, ?_⟩, ?_, ⟨by simp only; omega, ?_, ?_⟩, ?_⟩
    all_goals simp (disch := omega) only [Listed, newFreeBlock, sizeField, freeField, nextField,
      setSize, setFree, setNext, load32_store32, load32_store32_apart, ne_eq, not_true_eq_false,
      Bool.false_eq_true, one_ne_zero, not_false_eq_true]
    exact hq
  · simp only [hsplit, ↓reduceIte]
    refine ⟨rfl, ⟨hh.nonNull, ?_, ?_⟩, ?_⟩
    · change load32 (setFree m b.addr 0) b.addr = b.size
      exact (load32_store32_apart (by omega)).trans hh.size
    · simp [freeField, setFree, load32_store32]
    · change load32 (setFree m b.addr 0) (b.addr + 8) = q
      exact (load32_store32_apart (by omega)).trans hq

theorem growBlock_apart {x : ℕ}
    (hs : sizeField m a + 12 + sizeField m (nextField m a) + 20 < 2 ^ 32)
    (he : a + 12 + (sizeField m a + 12 + sizeField m (nextField m a)) ≤ 2 ^ 32)
    (hc : n ≤ sizeField m a + 12 + sizeField m (nextField m a)) (hx : x < a ∨ a + 12 ≤ x)
    (hnew : n + 20 ≤ sizeField m a + 12 + sizeField m (nextField m a) →
      x < a + 12 + n ∨ a + 12 + n + 12 ≤ x) : growBlock m a n x = m x := by
  have hu : u32 (n + blockSize + alignment) = n + 20 :=
    u32_of_lt (by simp only [blockSize, alignment]; omega)
  have hv : u32 (u32 (sizeField m a + blockSize) + sizeField m (nextField m a)) =
      sizeField m a + 12 + sizeField m (nextField m a) := by
    rw [blockSize, u32_of_lt (by omega : sizeField m a + 12 < 2 ^ 32), u32_of_lt (by omega)]
  simp only [growBlock, hu, hv]
  by_cases hsplit : n + 20 ≤ sizeField m a + 12 + sizeField m (nextField m a)
  · have hnb : u32 (a + blockSize + n) = a + 12 + n :=
      u32_of_lt (by simp only [blockSize]; omega)
    have hnew := hnew hsplit
    simp only [hsplit, ↓reduceIte, hnb]
    rw [setNext_outside hx, setSize_outside hx]
    split
    · rw [setNext_outside hnew, setSize_outside hnew, setFree_outside hnew,
        setSize_outside hnew]
    · rw [setNext_outside hnew, setFree_outside hnew, setSize_outside hnew]
  · simp only [hsplit, ↓reduceIte]
    rw [setNext_outside hx, setSize_outside hx]

theorem growBlock_outside {x : ℕ}
    (hn : sizeField m a + 12 + sizeField m (nextField m a) + 20 < 2 ^ 32)
    (he : a + 12 + (sizeField m a + 12 + sizeField m (nextField m a)) ≤ 2 ^ 32)
    (hc : n ≤ sizeField m a + 12 + sizeField m (nextField m a))
    (h : x < a ∨ a + 12 + (sizeField m a + 12 + sizeField m (nextField m a)) ≤ x) :
    growBlock m a n x = m x :=
  growBlock_apart hn he hc (by omega) fun hsplit => by omega

/-- Growing in place carves the block together with its successor. What follows the
successor is not free, so the third merge of the code never happens. -/
theorem growBlock_listed (hl : Listed m a [b, c] q) (hb : b.free = false)
    (hbc : c.addr = b.addr + 12 + b.size)
    (he : b.addr + 12 + (b.size + 12 + c.size) ≤ 2 ^ 32)
    (hs : b.size + 12 + c.size + 20 < 2 ^ 32)
    (hn : n ≤ b.size + 12 + c.size) (hqa : q ≠ 0 → b.addr + 12 + (b.size + 12 + c.size) ≤ q)
    (hqf : q ≠ 0 → freeField m q = 0) :
    Listed (growBlock m b.addr n) a (carve 12 8 n (join 12 b c)) q := by
  obtain ⟨rfl, hh, hnx, hhc, hq⟩ := hl
  have hq : nextField m c.addr = q := hq
  have hu : u32 (n + blockSize + alignment) = n + 20 :=
    u32_of_lt (by simp only [blockSize, alignment]; omega)
  have hv : u32 (u32 (b.size + blockSize) + c.size) = b.size + 12 + c.size := by
    rw [blockSize, u32_of_lt (by omega : b.size + 12 < 2 ^ 32), u32_of_lt (by omega)]
  have hq32 : q < 2 ^ 32 := hq ▸ load32_lt _ _
  have hfree : load32 m (b.addr + 4) = 0 := by
    have := hh.free
    simpa [hb, freeField] using this
  simp only [growBlock, carve, join, hu, hnx, hh.size, hhc.size, hv, hq,
    show n + 12 + 8 = n + 20 by omega]
  by_cases hsplit : n + 20 ≤ b.size + 12 + c.size
  · have hnb : u32 (b.addr + blockSize + n) = b.addr + 12 + n :=
      u32_of_lt (by simp only [blockSize]; omega)
    have hrest : sub32 (sub32 (b.size + 12 + c.size) n) blockSize =
        b.size + 12 + c.size - n - 12 := by
      rw [sub32_of_le hn (by omega), blockSize, sub32_of_le (by omega) (by omega)]
    have hno : ¬ (q ≠ 0 ∧ freeField (setFree (setSize m (b.addr + 12 + n)
        (b.size + 12 + c.size - n - 12)) (b.addr + 12 + n) 1) q ≠ 0) := by
      rintro ⟨h0, hf⟩
      have := hqa h0
      refine hf (Eq.trans ?_ (hqf h0))
      exact (load32_store32_apart (by omega)).trans (load32_store32_apart (by omega))
    simp only [hsplit, ↓reduceIte, hnb, hrest, hno]
    refine ⟨rfl, ⟨hh.nonNull, ?_, ?_⟩, ?_, ⟨by simp only; omega, ?_, ?_⟩, ?_⟩
    all_goals simp (disch := omega) only [Listed, sizeField, freeField, nextField, setSize,
      setFree, setNext, load32_store32, load32_store32_apart, ne_eq, not_true_eq_false,
      Bool.false_eq_true, one_ne_zero, not_false_eq_true, hfree]
  · simp only [hsplit, ↓reduceIte]
    refine ⟨rfl, ⟨hh.nonNull, ?_, ?_⟩, ?_⟩
    all_goals simp (disch := omega) only [Listed, sizeField, freeField, nextField, setSize,
      setNext, load32_store32, load32_store32_apart, ne_eq, not_true_eq_false,
      Bool.false_eq_true, hfree]

end Headers

/-- The address ranges a heap may occupy: not at NULL, within 2^32, and so short that a
header and 8 bytes more than a block do not wrap. -/
structure HeapRange (lo hi : ℕ) : Prop where
  pos : 0 < lo
  top : hi ≤ 2 ^ 32
  length : hi + 8 < lo + 2 ^ 32

structure Represents (lo hi : ℕ) (h : Heap) (bs : List Block) : Prop where
  listed : Listed h.mem h.freeListHead bs 0
  arena : Arena 12 lo hi bs

section Functions

variable {lo hi : ℕ} {heap : Heap} {bs cs : List Block} {b c : Block} {m : Bytes} {p q : ℕ}

theorem Listed.header (hl : Listed m p bs q) (hb : b ∈ bs) : HeaderIs m b := by
  induction bs generalizing p with
  | nil => simp at hb
  | cons x bs ih =>
    rcases List.mem_cons.mp hb with rfl | hb
    · exact hl.2.1
    · exact ih hl.2.2 hb

theorem block_bounds (hr : HeapRange lo hi) (ht : Tiles 12 lo bs hi) (hb : b ∈ bs) :
    lo ≤ b.addr ∧ b.addr + 12 + b.size ≤ hi ∧ b.addr + 12 + b.size ≤ 2 ^ 32 ∧
      b.size + 20 < 2 ^ 32 := by
  have hm := ht.mem_bounds hb
  have := hr.top
  have := hr.length
  omega

theorem length_lt_wordCount (hr : HeapRange lo hi) (ht : Tiles 12 lo bs hi) :
    bs.length < wordCount := by
  have hl := ht.length_le (by norm_num)
  have := hr.top
  have := hr.pos
  change bs.length < 2 ^ 32
  omega

theorem fits_iff {n : ℕ} (hh : HeaderIs m b) :
    fits m n b.addr ↔ b.free = true ∧ n ≤ b.size := by
  rw [fits, hh.free, hh.size]

/-- The walk of `kmalloc` takes the block that first-fit allocation serves. -/
theorem kmalloc_eq (hr : HeapRange lo hi) (h : Represents lo hi heap bs) (n : ℕ) :
    (allocate 12 8 (align n) bs = none → kmalloc heap n = some (heap, 0)) ∧
    ∀ cs a, allocate 12 8 (align n) bs = some (cs, a) →
      kmalloc heap n =
        some ({ heap with mem := takeBlock heap.mem a (align n) }, u32 (a + 12)) := by
  have hw := fun visit : ℕ → Option (Bytes × ℕ) =>
    walk_eq_findSome visit h.listed.linked (n := wordCount)
      (by simpa using length_lt_wordCount hr h.arena.tiles)
  have hf : ∀ x ∈ bs, (fits heap.mem (align n) x.addr ↔ x.free = true ∧ align n ≤ x.size) :=
    fun x hx => fits_iff (h.listed.header hx)
  constructor
  · intro ha
    have hnone := allocate_none ha
    simp only [kmalloc, hw, Option.map_some]
    rw [List.findSome?_eq_none_iff.mpr]
    intro x hx
    obtain ⟨b, hb, rfl⟩ := List.mem_map.mp hx
    simp [hf b hb, hnone b hb]
  · intro cs a ha
    obtain ⟨pre, b, post, rfl, hfree, hn, rfl, rfl, hpre⟩ := allocate_split ha
    simp only [kmalloc, hw, Option.map_some, List.map_append, List.map_cons,
      List.findSome?_append]
    rw [List.findSome?_eq_none_iff.mpr]
    · simp [hf b (by simp), hfree, hn, blockSize]
    · intro x hx
      obtain ⟨c, hc, rfl⟩ := List.mem_map.mp hx
      simp [hf c (by simp [hc]), hpre c hc]

/-- `kmalloc` is first-fit allocation of the aligned size. -/
theorem kmalloc_refines (hr : HeapRange lo hi) (h : Represents lo hi heap bs) (n : ℕ) :
    (allocate 12 8 (align n) bs = none → kmalloc heap n = some (heap, 0)) ∧
    ∀ cs a, allocate 12 8 (align n) bs = some (cs, a) →
      ∃ heap', kmalloc heap n = some (heap', u32 (a + 12)) ∧ Represents lo hi heap' cs := by
  obtain ⟨hnone, hsome⟩ := kmalloc_eq hr h n
  refine ⟨hnone, fun cs a ha => ⟨_, hsome cs a ha, ?_, allocate_arena h.arena ha⟩⟩
  obtain ⟨pre, b, post, rfl, hfree, hn, rfl, rfl, hpre⟩ := allocate_split ha
  have hb : b ∈ pre ++ b :: post := by simp
  have hbd := block_bounds hr h.arena.tiles hb
  refine listed_replace [b] (by simpa using h.listed) (by simpa using h.arena.tiles) ?_ ?_
  · intro r q hl _
    exact takeBlock_listed hl hbd.2.2.1 hbd.2.2.2 hn
  · rintro a e ⟨rfl, rfl⟩ x hx
    have hs := (h.listed.header hb).size
    exact takeBlock_outside (by omega) (by omega) (by omega) (by omega)

theorem findPrev_eq {pre post : List Block} (p₀ : ℕ)
    (hl : Listed m p (pre ++ b :: post) 0) (hne : ∀ x ∈ pre, x.addr ≠ b.addr) {n : ℕ}
    (hn : pre.length < n) :
    run (findPrevBody m b.addr) n (p₀, p) = some ((pre.map Block.addr).getLastD p₀) := by
  induction pre generalizing p p₀ n with
  | nil =>
    obtain ⟨rfl, -, -⟩ := hl
    obtain ⟨k, rfl⟩ : ∃ k, n = k + 1 := ⟨n - 1, by simp at hn; omega⟩
    exact run_leave (by simp [findPrevBody]) k
  | cons x pre ih =>
    obtain ⟨rfl, hh, hl⟩ := hl
    simp only [List.length_cons] at hn
    obtain ⟨k, rfl⟩ : ∃ k, n = k + 1 := ⟨n - 1, by omega⟩
    have hx := hne x List.mem_cons_self
    rw [run_again (t := (x.addr, nextField m x.addr))
      (by simp [findPrevBody, hh.nonNull, hx]),
      ih _ hl (fun y hy => hne y (List.mem_cons_of_mem _ hy)) (by omega),
      List.map_cons, List.getLastD_cons]

/-- Two free neighbours are merged by absorbing the second into the first. -/
theorem absorb_refines {pre post : List Block} (hr : HeapRange lo hi)
    (hl : Listed m p (pre ++ b :: c :: post) 0) (ht : Tiles 12 lo (pre ++ b :: c :: post) hi)
    (hb : b.free = true) :
    Listed (absorb m b.addr c.addr) p (pre ++ join 12 b c :: post) 0 := by
  have hbc : c.addr = b.addr + 12 + b.size ∧ b.size + 12 + c.size < 2 ^ 32 := by
    obtain ⟨a, -, hab, hac, hpost⟩ := tiles_append.mp ht
    have := hpost.le
    have := hr.top
    have := (block_bounds hr ht (b := b) (by simp)).1
    omega
  have h : Listed (absorb m b.addr c.addr) p (pre ++ [join 12 b c] ++ post) 0 :=
    listed_replace [b, c] (by simpa using hl) (by simpa using ht)
    (fun r q hm _ => absorb_listed hm hb (by omega) hbc.2)
    (fun a e hm x hx => absorb_outside (by
      have := hm.2.le
      obtain ⟨rfl, -⟩ := hm
      omega))
  simpa using h

theorem freed_next {pre post : List Block} (hr : HeapRange lo hi) (hb : b.free = true)
    (hl : Listed m p (pre ++ b :: post) 0) (ht : Tiles 12 lo (pre ++ b :: post) hi) :
    Listed (if nextField m b.addr ≠ 0 ∧ freeField m (nextField m b.addr) ≠ 0 then
      absorb m b.addr (nextField m b.addr) else m) p (pre ++ prepend 12 b post) 0 := by
  obtain ⟨r, -, rfl, hh, hq⟩ := listed_append.mp hl
  cases post with
  | nil =>
    have hq : nextField m b.addr = 0 := hq
    simpa [hq, prepend] using hl
  | cons c post =>
    obtain ⟨hn, hhc, -⟩ := hq
    simp only [hn, ne_eq, hhc.nonNull, not_false_eq_true, true_and, prepend, hb]
    have hcf := hhc.free
    cases hc : c.free with
    | true =>
      simp only [hc, iff_true] at hcf
      simp only [hcf, not_false_eq_true, ↓reduceIte]
      exact absorb_refines hr hl ht hb
    | false =>
      have hcf : freeField m c.addr = 0 := by simpa [hc] using hcf
      simpa [hcf] using hl

theorem freed_prev {pre post : List Block} (hr : HeapRange lo hi) (hb : b.free = true)
    (hl : Listed m p (pre ++ b :: post) 0) (ht : Tiles 12 lo (pre ++ b :: post) hi)
    (hs : Separated pre) {a : ℕ} (ha : a = (pre.map Block.addr).getLastD 0) :
    Listed (if a ≠ 0 ∧ freeField m a ≠ 0 then absorb m a b.addr else m) p
      (pre.foldr (prepend 12) (b :: post)) 0 := by
  rcases List.eq_nil_or_concat pre with rfl | ⟨pre, q, rfl⟩
  · simpa [ha] using hl
  · have ha : a = q.addr := by simpa using ha
    have hh : HeaderIs m q := hl.header (by simp)
    have hqf := hh.free
    simp only [List.concat_eq_append, List.append_assoc, List.cons_append, List.nil_append]
      at hl ht hs
    simp only [List.concat_eq_append, List.foldr_append, List.foldr_cons, List.foldr_nil,
      ha, ne_eq, hh.nonNull, not_false_eq_true, true_and]
    cases hq : q.free with
    | true =>
      have hsj : Separated (pre ++ [join 12 q b]) := by
        have := List.isChain_append.mp hs
        exact List.isChain_append.mpr ⟨this.1, .singleton _, fun x hx y hy => by
          obtain rfl : join 12 q b = y := by simpa using hy
          simpa [join, hq] using this.2.2 x hx q (by simp)⟩
      simp only [hq, iff_true] at hqf
      simp only [prepend, hq, hb, and_self, hqf, not_false_eq_true, ↓reduceIte]
      rw [foldr_prepend hsj]
      exact absorb_refines hr hl ht hq
    | false =>
      have hqf : freeField m q.addr = 0 := by simpa [hq] using hqf
      simp only [prepend, hq, Bool.false_eq_true, false_and, hqf, not_true_eq_false, ↓reduceIte]
      rw [foldr_prepend hs]
      exact hl

/-- Marking the block keeps the list, so the search of `kfree` finds its predecessor. -/
theorem setFree_refines {pre post : List Block} (h : Represents lo hi heap (pre ++ b :: post)) :
    Listed (setFree heap.mem b.addr 1) heap.freeListHead
      (pre ++ { b with free := true } :: post) 0 := by
  have hm : Listed (setFree heap.mem b.addr 1) heap.freeListHead
      (pre ++ [{ b with free := true }] ++ post) 0 :=
    listed_replace [b] (by simpa using h.listed) (by simpa using h.arena.tiles)
      (fun r q hm _ => setFree_listed hm)
      (fun a e hm x hx => setFree_outside (by
        obtain ⟨rfl, rfl⟩ := hm
        omega))
  simpa using hm

theorem kfree_eq {pre post : List Block} (hr : HeapRange lo hi)
    (h : Represents lo hi heap (pre ++ b :: post)) (hlt : b.addr + 12 < 2 ^ 32) :
    kfree heap (b.addr + 12) = some { heap with
      mem := coalesceAround (setFree heap.mem b.addr 1) b.addr
        ((pre.map Block.addr).getLastD 0) } := by
  have ht := h.arena.tiles
  have hblock : sub32 (b.addr + 12) blockSize = b.addr := by
    rw [blockSize, sub32_of_le (by omega) hlt]
    omega
  have hlen : pre.length < wordCount := by
    have := length_lt_wordCount hr ht
    simp only [List.length_append] at this
    omega
  have hprev := findPrev_eq 0 (setFree_refines h)
    (fun x hx => ht.other_addr (by norm_num) x (by simp [hx])) hlen
  simp only [kfree, Nat.add_eq_zero_iff, OfNat.ofNat_ne_zero, and_false, ↓reduceIte, hblock]
  rw [hprev, Option.map_some]

/-- `kfree` is the arena's release: mark the block, then merge it with its neighbours. -/
theorem kfree_refines (hr : HeapRange lo hi) (h : Represents lo hi heap bs) (hb : b ∈ bs)
    (hlt : b.addr + 12 < 2 ^ 32) :
    ∃ heap', kfree heap (b.addr + 12) = some heap' ∧
      Represents lo hi heap' (release 12 b.addr bs) := by
  obtain ⟨pre, post, rfl⟩ := List.append_of_mem hb
  refine ⟨_, kfree_eq hr h hlt, ?_, release_arena h.arena.tiles⟩
  have ht := h.arena.tiles
  have hne := ht.other_addr (by norm_num)
  have hs := List.isChain_append.mp h.arena.separated
  -- first only the flag changes
  have hl₁ := setFree_refines h
  have ht₁ : Tiles 12 lo (pre ++ { b with free := true } :: post) hi :=
    map_markFree hne ▸ markFree_tiles ht
  -- then the successor is absorbed, and then the result by the predecessor
  have hl₂ := freed_next hr rfl hl₁ ht₁
  obtain ⟨x, xs, hx, hxf, hxa⟩ := prepend_head (b := { b with free := true }) post rfl
  have ht₂ : Tiles 12 lo (pre ++ x :: xs) hi := by
    obtain ⟨a, hta, htb⟩ := tiles_append.mp ht₁
    exact tiles_append.mpr ⟨a, hta, hx ▸ prepend_tiles htb⟩
  rw [hx] at hl₂
  have hl₃ := freed_prev hr hxf hl₂ ht₂ hs.1 rfl
  rw [release_eq hne (List.isChain_cons.mp hs.2.1).2, hx]
  simpa only [coalesceAround, hxa] using hl₃

theorem memcpy_outside {src : ℕ} (n : ℕ) {dest x : ℕ} (hd : dest + n ≤ 2 ^ 32)
    (hx : x < dest ∨ dest + n ≤ x) : memcpy m dest src n x = m x := by
  induction n generalizing m dest src with
  | zero => rfl
  | succ n ih =>
    rw [memcpy]
    cases n with
    | zero => exact store8_other (by omega)
    | succ n =>
      rw [u32_of_lt (by omega : dest + 1 < 2 ^ 32), ih (by omega) (by omega)]
      exact store8_other (by omega)

theorem memcpy_inside {src i : ℕ} (n : ℕ) {dest : ℕ} (hd : dest + n ≤ 2 ^ 32)
    (hs : src + n ≤ 2 ^ 32) (ha : src + n ≤ dest ∨ dest + n ≤ src) (hi : i < n) :
    memcpy m dest src n (dest + i) = m (src + i) := by
  induction n generalizing m dest src i with
  | zero => omega
  | succ n ih =>
    rw [memcpy]
    cases n with
    | zero =>
      obtain rfl : i = 0 := by omega
      exact store8_same m dest _
    | succ n =>
      rw [u32_of_lt (by omega : dest + 1 < 2 ^ 32), u32_of_lt (by omega : src + 1 < 2 ^ 32)]
      cases i with
      | zero =>
        rw [memcpy_outside (n + 1) (by omega) (by omega)]
        exact store8_same m dest _
      | succ i =>
        have hcopy : memcpy (store8 m dest (m src)) (dest + 1) (src + 1) (n + 1) (dest + 1 + i) =
            store8 m dest (m src) (src + 1 + i) :=
          ih (by omega) (by omega) (by omega) (by omega)
        have hother : store8 m dest (m src) (src + 1 + i) = m (src + 1 + i) :=
          store8_other (by omega)
        rw [show dest + (i + 1) = dest + 1 + i by omega, hcopy, hother,
          show src + (i + 1) = src + 1 + i by omega]

/-- Headers lie outside the payload of any block, so writes to it keep the list. -/
theorem Listed.payload {m' : Bytes} (hl : Listed m p bs q) (ht : Tiles 12 lo bs hi) (hb : b ∈ bs)
    (hm : ∀ x, x < b.addr + 12 ∨ b.addr + 12 + b.size ≤ x → m' x = m x) : Listed m' p bs q := by
  refine hl.congr fun c hc x h1 h2 => hm x ?_
  rcases eq_or_ne c b with rfl | hne
  · omega
  · obtain ⟨pre, post, rfl⟩ := List.append_of_mem hb
    have hp := ht.pairwise
    rw [List.pairwise_append, List.pairwise_cons] at hp
    simp only [List.mem_append, List.mem_cons, hne, false_or] at hc
    rcases hc with hc | hc
    · have := hp.2.2 c hc b List.mem_cons_self
      omega
    · have := hp.2.1.1 c hc
      omega

theorem Listed.copy_payload {src n : ℕ} (hl : Listed m p bs q) (ht : Tiles 12 lo bs hi)
    (hr : HeapRange lo hi) (hb : b ∈ bs) (hn : n ≤ b.size) :
    Listed (memcpy m (b.addr + 12) src n) p bs q := by
  have hbd := block_bounds hr ht hb
  exact hl.payload ht hb fun x hx => memcpy_outside n (by omega) (by omega)

/-- Growing in place is the arena's own growth of the block. -/
theorem canGrow_refines (hr : HeapRange lo hi) (h : Represents lo hi heap bs) (hb : b ∈ bs)
    (hf : b.free = false) {n : ℕ} :
    canGrow heap.mem b.addr n → ∃ cs, grow 12 8 n b.addr bs = some cs ∧
      Represents lo hi { heap with mem := growBlock heap.mem b.addr n } cs := by
  intro hg
  obtain ⟨pre, post, rfl⟩ := List.append_of_mem hb
  have ht := h.arena.tiles
  obtain ⟨r, -, rfl, hh, hq⟩ := listed_append.mp h.listed
  cases post with
  | nil => exact absurd hq hg.1
  | cons c post =>
    obtain ⟨hn, hhc, hpost⟩ := hq
    have hb' := block_bounds hr ht hb
    obtain ⟨a, hta, rfl, hca, htp⟩ := tiles_append.mp ht
    have hle := htp.le
    have := hr.top
    have := hr.length
    have hlo := hta.le
    obtain ⟨-, hcf, hsz⟩ := hg
    rw [hn, hh.size, hhc.size, blockSize, u32_of_lt (by omega : b.size + 12 < 2 ^ 32),
      u32_of_lt (by omega : b.size + 12 + c.size < 2 ^ 32)] at hsz
    rw [hn, hhc.free] at hcf
    have hgrow : grow 12 8 n b.addr (pre ++ b :: c :: post) =
        some (pre ++ carve 12 8 n (join 12 b c) ++ post) := by
      rw [grow_eq (ht.other_addr (by norm_num)) hcf (by omega)]
    refine ⟨_, hgrow, ?_, grow_arena h.arena hgrow⟩
    refine listed_replace [b, c] (by simpa using h.listed) (by simpa using ht) ?_ ?_
    · intro r q hm hq
      have hs := List.isChain_append.mp h.arena.separated
      have hsp := (List.isChain_cons.mp (List.isChain_cons.mp hs.2.1).2).1
      have hafter : q ≠ 0 → b.addr + 12 + (b.size + 12 + c.size) ≤ q ∧
          freeField heap.mem q = 0 := by
        intro hq0
        cases post with
        | nil => exact absurd hq hq0
        | cons d post =>
          obtain ⟨rfl, hhd, -⟩ := hq
          have hd := htp.1
          have hdf : d.free = false := by simpa [hcf] using hsp d (by simp)
          have := hhd.free
          exact ⟨by omega, by simpa [hdf] using this⟩
      exact growBlock_listed hm hf hca (by omega) (by omega) hsz (fun h0 => (hafter h0).1)
        (fun h0 => (hafter h0).2)
    · rintro a e ⟨rfl, hca, rfl⟩ x hx
      have hs := hh.size
      have hcs := hhc.size
      rw [← hn] at hcs
      exact growBlock_outside (by omega) (by omega) (by omega) (by omega)

end Functions

end KernelHeapRefinement
