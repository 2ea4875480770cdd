import SojebOS.FirstFitUsed
import SojebOS.KernelHeapInvariant

/-!
# Freeing undoes allocating

When every payload is addressable, the live pointers are exactly the payloads of the used
blocks. So freeing what was just allocated gives the block list back, and freeing every
live pointer, in any order, leaves one free block.
-/
namespace KernelHeapFreeing

open ByteMemory MachineWord FirstFit FirstFitUsed KernelHeap KernelHeapRefinement
  KernelHeapOutcomes KernelHeapInvariant

/-- The block list that `free_list_head` heads. -/
def BlockList (heap : Heap) (bs : List Block) : Prop := Listed heap.mem heap.freeListHead bs 0

def freeAll (heap : Heap) : List ℕ → Option Heap
  | [] => some heap
  | p :: ps => (kfree heap p).bind fun heap => freeAll heap ps

structure FreeingUndoes (start size : ℕ) (s : State) : Prop where
  free_undoes : ∀ n < 2 ^ 32, ∃ heap' p, kmalloc s.heap n = some (heap', p) ∧
    (p ≠ 0 → ∃ heap'' bs, kfree heap' p = some heap'' ∧ BlockList s.heap bs ∧
      BlockList heap'' bs)
  free_all : ∀ ps : List ℕ, ps.Nodup → (∀ p, p ∈ ps ↔ p ∈ s.live) →
    ∃ heap', freeAll s.heap ps = some heap' ∧ BlockList heap' [⟨start, size - blockSize, true⟩]

theorem listed_unique {m : Bytes} {p : ℕ} {bs cs : List Block} (hb : Listed m p bs 0)
    (hc : Listed m p cs 0) : bs = cs := by
  induction bs generalizing p cs with
  | nil =>
    cases cs with
    | nil => rfl
    | cons c cs => exact absurd (hc.1.symm.trans hb) hc.2.1.nonNull
  | cons b bs ih =>
    cases cs with
    | nil => exact absurd (hb.1.symm.trans hc) hb.2.1.nonNull
    | cons c cs =>
      obtain ⟨rfl, hhb, hb⟩ := hb
      obtain ⟨ha, hhc, hc⟩ := hc
      obtain ⟨addr, size, free⟩ := b
      obtain ⟨addr', size', free'⟩ := c
      simp only at ha hb hc
      subst ha
      have hsize : size = size' := hhb.size.symm.trans hhc.size
      have hfree : free = free' := Bool.eq_iff_iff.mpr (hhb.free.symm.trans hhc.free)
      rw [hsize, hfree, ih hb hc]

/-- The live pointers are the payloads of the used blocks, and no payload is at 2^32. -/
structure Exact (lo hi : ℕ) (s : State) (bs : List Block) : Prop where
  represents : Represents lo hi s.heap bs
  addressable : ∀ b ∈ bs, b.addr + 12 < 2 ^ 32
  live_iff : ∀ p, p ∈ s.live ↔ ∃ a, Used bs a ∧ p = a + 12

section Calls

variable {lo hi n p : ℕ} {heap : Heap} {live : Finset ℕ} {bs cs : List Block}

theorem addressable_of_addressed (hr : HeapRange lo hi) (ha : ∀ b ∈ bs, b.addr + 12 < 2 ^ 32)
    (hc : Addressed 12 8 hi bs cs) : ∀ c ∈ cs, c.addr + 12 < 2 ^ 32 := by
  intro c hmem
  have htop := hr.top
  rcases hc c hmem with ⟨b, hb, hba⟩ | hroom
  · have := ha b hb
    omega
  · omega

theorem addressable_release (ha : ∀ b ∈ bs, b.addr + 12 < 2 ^ 32) (a : ℕ) :
    ∀ c ∈ release 12 a bs, c.addr + 12 < 2 ^ 32 := by
  intro c hc
  obtain ⟨x, hx, hxa⟩ := release_addr hc
  rw [← hxa]
  exact ha x hx

theorem Exact.null_not_live (h : Exact lo hi ⟨heap, live⟩ bs) : 0 ∉ live := by
  intro h0
  obtain ⟨a, -, ha⟩ := (h.live_iff 0).mp h0
  omega

/-- No payload wraps, so a block that was taken is a pointer that was returned. -/
theorem not_wrapped {a : ℕ} (hr : HeapRange lo hi) (ht : Tiles 12 lo bs hi)
    (h : ∀ b ∈ bs, b.addr + 12 < 2 ^ 32) (ha : allocate 12 8 n bs = some (cs, a)) :
    a + 12 < 2 ^ 32 := by
  obtain ⟨⟨s, -, hs⟩, -⟩ := allocate_served ha
  exact addressable_of_addressed hr h (addressed_allocate ht ha) _ hs

theorem Exact.allocated {a : ℕ} (hr : HeapRange lo hi) (h : Exact lo hi ⟨heap, live⟩ bs)
    (ha : allocate 12 8 (align n) bs = some (cs, a)) :
    ∃ heap', kmalloc heap n = some (heap', a + 12) ∧
      Exact lo hi ⟨heap', insert (a + 12) live⟩ cs := by
  have ht := h.represents.arena.tiles
  obtain ⟨heap', hk, hrep⟩ := (kmalloc_refines hr h.represents n).2 cs a ha
  rw [u32_of_lt (not_wrapped hr ht h.addressable ha)] at hk
  refine ⟨heap', hk, hrep, addressable_of_addressed hr h.addressable (addressed_allocate ht ha),
    fun p => ?_⟩
  have hlive : p ∈ live ↔ ∃ a, Used bs a ∧ p = a + 12 := h.live_iff p
  rw [Finset.mem_insert, hlive]
  constructor
  · rintro (rfl | ⟨b, hu, rfl⟩)
    · exact ⟨_, (used_allocate ha _).mpr (.inl rfl), rfl⟩
    · exact ⟨b, (used_allocate ha _).mpr (.inr hu), rfl⟩
  · rintro ⟨b, hu, rfl⟩
    apply ((used_allocate ha b).mp hu).imp
    · rintro rfl
      rfl
    · intro hu
      exact ⟨b, hu, rfl⟩

theorem Exact.alloc (hr : HeapRange lo hi) (h : Exact lo hi ⟨heap, live⟩ bs) (n : ℕ) :
    ∃ heap' r cs, kmalloc heap n = some (heap', r) ∧
      Exact lo hi ⟨heap', gain r live⟩ cs := by
  cases ha : allocate 12 8 (align n) bs with
  | none => exact ⟨heap, 0, bs, (kmalloc_refines hr h.represents n).1 ha, h⟩
  | some served =>
    obtain ⟨heap', hk, hexact⟩ := h.allocated hr ha
    exact ⟨heap', _, _, hk, by rwa [gain, if_neg (by omega)]⟩

theorem Exact.free (hr : HeapRange lo hi) (h : Exact lo hi ⟨heap, live⟩ bs) (hp : p ∈ live) :
    ∃ heap', kfree heap p = some heap' ∧
      Exact lo hi ⟨heap', live.erase p⟩ (release 12 (p - 12) bs) := by
  obtain ⟨a, ⟨b, hb, hf, rfl⟩, rfl⟩ := (h.live_iff p).mp hp
  obtain ⟨heap', hk, hrep⟩ := kfree_refines hr h.represents hb (h.addressable b hb)
  refine ⟨heap', hk, hrep, addressable_release h.addressable _, fun q => ?_⟩
  have hlive : q ∈ live ↔ ∃ a, Used bs a ∧ q = a + 12 := h.live_iff q
  simp only [Finset.mem_erase, hlive, Nat.add_sub_cancel, used_release]
  constructor
  · rintro ⟨hne, a, hu, rfl⟩
    exact ⟨a, ⟨hu, by omega⟩, rfl⟩
  · rintro ⟨a, ⟨hu, hne⟩, rfl⟩
    exact ⟨by omega, a, hu, rfl⟩

/-- What becomes of the live pointers when `krealloc` on `p` returns `r`. -/
def reallocLive (n p r : ℕ) (live : Finset ℕ) : Finset ℕ :=
  if r = 0 ∧ n ≠ 0 then live else gain r (live.erase p)

theorem reallocLive_same {r : ℕ} (hr : r ≠ 0) (hl : r ∈ live) : reallocLive n r r live = live := by
  rw [reallocLive, if_neg fun h => hr h.1, gain, if_neg hr, Finset.insert_erase hl]

theorem Exact.realloc (hr : HeapRange lo hi) (h : Exact lo hi ⟨heap, live⟩ bs) (hp : p ∈ live)
    (n : ℕ) : ∃ heap' r cs, krealloc heap p n = some (heap', r) ∧
      Exact lo hi ⟨heap', reallocLive n p r live⟩ cs := by
  have ht := h.represents.arena.tiles
  obtain ⟨a, ⟨b, hb, hf, rfl⟩, rfl⟩ := (h.live_iff p).mp hp
  have hp0 : b.addr + 12 ≠ 0 := by omega
  have hout := krealloc_outcome hr h.represents hb hf (h.addressable b hb) n
  generalize krealloc heap (b.addr + 12) n = result at hout ⊢
  cases hout with
  | @freed heap' hn hk hrep =>
    obtain ⟨heap'', hk', hexact⟩ := h.free hr hp
    obtain rfl : heap' = heap'' := Option.some.inj (hk.symm.trans hk')
    have hlive : reallocLive n (b.addr + 12) 0 live = live.erase (b.addr + 12) := by
      rw [reallocLive, if_neg fun h0 => h0.2 hn, gain, if_pos rfl]
    exact ⟨heap', 0, _, rfl, hlive ▸ hexact⟩
  | kept => exact ⟨heap, _, bs, rfl, by rwa [reallocLive_same hp0 hp]⟩
  | @grown cs _ _ _ hg hrep =>
    refine ⟨_, _, cs, rfl, hrep, addressable_of_addressed hr h.addressable
      (addressed_grow ht hg), fun q => ?_⟩
    rw [reallocLive_same hp0 hp]
    simp only [used_grow hg ⟨b, hb, hf, rfl⟩ ht (by norm_num)]
    exact h.live_iff q
  | refused hn _ hout =>
    have hlive : reallocLive n (b.addr + 12) 0 live = live := if_pos ⟨rfl, hn⟩
    cases hout with
    | full => exact ⟨heap, 0, bs, rfl, by rwa [hlive]⟩
    | wrapped ha he _ =>
      have := not_wrapped hr ht h.addressable ha
      omega
  | @moved cs c heap' _ _ ha hc hcf _ hclt hne _ _ _ _ hrep' =>
    refine ⟨heap', _, _, rfl, hrep', addressable_release (addressable_of_addressed hr
      h.addressable (addressed_allocate ht ha)) _, fun q => ?_⟩
    have hc0 : c.addr + 12 ≠ 0 := by omega
    have hlive : q ∈ live ↔ ∃ a, Used bs a ∧ q = a + 12 := h.live_iff q
    rw [reallocLive, if_neg fun h0 => hc0 h0.1, gain, if_neg hc0]
    simp only [Finset.mem_insert, Finset.mem_erase, hlive, used_release, used_allocate ha]
    constructor
    · rintro (rfl | ⟨hqb, a, hu, rfl⟩)
      · exact ⟨c.addr, ⟨.inl rfl, hne⟩, rfl⟩
      · exact ⟨a, ⟨.inr hu, by omega⟩, rfl⟩
    · rintro ⟨a, ⟨rfl | hu, hab⟩, rfl⟩
      · exact .inl rfl
      · exact .inr ⟨by omega, a, hu, rfl⟩

theorem Exact.freeAll (hr : HeapRange lo hi) (hlt : lo < hi) (ps : List ℕ)
    (h : Exact lo hi ⟨heap, live⟩ bs) (hn : ps.Nodup) (hps : ∀ p, p ∈ ps ↔ p ∈ live) :
    ∃ heap', freeAll heap ps = some heap' ∧ BlockList heap' [⟨lo, hi - lo - 12, true⟩] := by
  induction ps generalizing heap live bs with
  | nil =>
    have hunused : ∀ a, ¬ Used bs a := by
      intro a hu
      have hl : a + 12 ∈ live := (h.live_iff (a + 12)).mpr ⟨a, hu, rfl⟩
      exact absurd ((hps _).mpr hl) List.not_mem_nil
    refine ⟨heap, rfl, ?_⟩
    rw [← all_free h.represents.arena hlt hunused]
    exact h.represents.listed
  | cons p ps ih =>
    obtain ⟨hpn, hn⟩ := List.nodup_cons.mp hn
    obtain ⟨heap₁, hk, hexact⟩ := h.free hr ((hps p).mp List.mem_cons_self)
    obtain ⟨heap', hall, hlist⟩ := ih hexact hn fun q => by
      rw [Finset.mem_erase, ← hps q, List.mem_cons]
      constructor
      · intro hq
        exact ⟨fun he => hpn (he ▸ hq), .inr hq⟩
      · rintro ⟨hne, rfl | hq⟩
        · exact absurd rfl hne
        · exact hq
    exact ⟨heap', by rw [KernelHeapFreeing.freeAll, hk, Option.bind_some, hall], hlist⟩

end Calls

section Runs

variable {start size lo hi : ℕ} {s t : State} {bs : List Block} {c : Call}

theorem call_preserves_exact (hr : HeapRange lo hi) (h : Exact lo hi s bs)
    (hc : Permitted s c) (hs : perform s c = some t) : ∃ cs, Exact lo hi t cs := by
  obtain ⟨heap, live⟩ := s
  have herase : live.erase 0 = live := Finset.erase_eq_of_notMem h.null_not_live
  cases c with
  | kmalloc n =>
    obtain ⟨heap', r, cs, hk, hexact⟩ := h.alloc hr n
    simp only [perform, hk, Option.map_some, Option.some.injEq] at hs
    exact ⟨cs, hs ▸ hexact⟩
  | kfree p =>
    rcases hc with rfl | hp
    · simp only [perform, KernelHeap.kfree, ↓reduceIte, Option.map_some, Option.some.injEq,
        herase] at hs
      exact ⟨bs, hs ▸ h⟩
    · obtain ⟨heap', hk, hexact⟩ := h.free hr hp
      simp only [perform, hk, Option.map_some, Option.some.injEq] at hs
      exact ⟨_, hs ▸ hexact⟩
  | krealloc p n =>
    rcases hc.1 with rfl | hp
    · obtain ⟨heap', r, cs, hk, hexact⟩ := h.alloc hr n
      simp only [perform, KernelHeap.krealloc, ↓reduceIte, hk, Option.map_some,
        Option.some.injEq, herase] at hs
      have hgain : (if r = 0 ∧ n ≠ 0 then live else gain r live) = gain r live := by
        by_cases hr0 : r = 0
        · simp [hr0, gain]
        · simp [hr0]
      rw [hgain] at hs
      exact ⟨cs, hs ▸ hexact⟩
    · obtain ⟨heap', r, cs, hk, hexact⟩ := h.realloc hr hp n
      simp only [perform, hk, Option.map_some, Option.some.injEq] at hs
      exact ⟨cs, hs ▸ hexact⟩

theorem kheapInit_exact (m : Bytes) (hr : HeapRange start (start + size)) (hs : 12 ≤ size)
    (ha : start + 12 < 2 ^ 32) :
    Exact start (start + size) ⟨kheapInit m start size, ∅⟩ [⟨start, size - 12, true⟩] := by
  refine ⟨kheapInit_represents m hr hs, ?_, ?_⟩
  · intro b hb
    obtain rfl : b = ⟨start, size - 12, true⟩ := by simpa using hb
    exact ha
  · intro p
    simp [Used]

theorem reachable_exact (hr : HeapRange start (start + size)) (hs : 12 ≤ size)
    (ha : start + 12 < 2 ^ 32) (h : Reachable start size s) :
    ∃ bs, Exact start (start + size) s bs := by
  induction h with
  | init m => exact ⟨_, kheapInit_exact m hr hs ha⟩
  | call _ hc hp ih =>
    obtain ⟨bs, hbs⟩ := ih
    exact call_preserves_exact hr hbs hc hp

/-- Freeing undoes allocating on every heap but one at NULL, whose list is empty, and the
heap of one header at the top of memory, whose only payload has the address NULL. -/
theorem reachable_freeingUndoes (h0 : 0 < start) (ha : start + blockSize < 2 ^ 32)
    (hs : blockSize ≤ size) (hs' : size ≤ 2 ^ 31) (he : start + size ≤ 2 ^ 32)
    (h : Reachable start size s) : FreeingUndoes start size s := by
  have hr : HeapRange start (start + size) := ⟨h0, he, by omega⟩
  obtain ⟨bs, hexact⟩ := reachable_exact hr hs ha h
  constructor
  · intro n _
    have hout := kmalloc_outcome hr hexact.represents n
    generalize kmalloc s.heap n = result at hout ⊢
    cases hout with
    | full => exact ⟨_, _, rfl, fun hne => absurd rfl hne⟩
    | wrapped => exact ⟨_, _, rfl, fun hne => absurd rfl hne⟩
    | @served cs c hal hrep hc hcf _ hlt =>
      refine ⟨_, _, rfl, fun _ => ?_⟩
      obtain ⟨heap'', hk, hrep''⟩ := kfree_refines hr hrep hc hlt
      rw [release_allocate (by norm_num) hexact.represents.arena hal] at hrep''
      exact ⟨heap'', bs, hk, hexact.represents.listed, hrep''.listed⟩
  · intro ps hn hps
    have hall := Exact.freeAll hr (by simp only [blockSize] at hs; omega) ps hexact hn hps
    rwa [Nat.add_sub_cancel_left] at hall

theorem reachable_freeingUndoes_holed : ∃ heap,
    Reachable 0x100000 0x400000 ⟨heap, {0x100040}⟩ ∧
      FreeingUndoes 0x100000 0x400000 ⟨heap, {0x100040}⟩ := by
  obtain ⟨heap, h⟩ := holedHeap_reachable
  exact ⟨heap, h, reachable_freeingUndoes (by norm_num) (by norm_num [blockSize])
    (by norm_num [blockSize]) (by norm_num) (by norm_num) h⟩

theorem heap_at_null_or_top_not_undone :
    (∃ s, Reachable 0 0x400000 s ∧ ¬ FreeingUndoes 0 0x400000 s) ∧
    ∃ s, Reachable 0xFFFFFFF4 12 s ∧ ¬ FreeingUndoes 0xFFFFFFF4 12 s := by
  constructor
  · refine ⟨_, .init fun _ => 0, fun h => ?_⟩
    obtain ⟨heap', hall, hlist⟩ := h.free_all [] List.nodup_nil (by simp)
    exact hlist.2.1.nonNull rfl
  · have hr : HeapRange 0xFFFFFFF4 (0xFFFFFFF4 + 12) := ⟨by norm_num, by norm_num, by norm_num⟩
    have hrep : Represents 0xFFFFFFF4 (0xFFFFFFF4 + 12) (kheapInit (fun _ => 0) 0xFFFFFFF4 12)
        [⟨0xFFFFFFF4, 12 - 12, true⟩] :=
      kheapInit_represents _ hr (by norm_num)
    obtain ⟨heap', hk, hused⟩ := (kmalloc_refines hr hrep 0).2
      [⟨0xFFFFFFF4, 0, false⟩] 0xFFFFFFF4 (by decide)
    refine ⟨⟨heap', ∅⟩, .call (c := .kmalloc 0) (.init fun _ => 0) (by simp [Permitted]) ?_, ?_⟩
    · simp [perform, hk, gain, u32]
    · intro h
      obtain ⟨heap'', hall, hlist⟩ := h.free_all [] List.nodup_nil (by simp)
      obtain rfl : heap' = heap'' := by simpa [freeAll] using hall
      have := listed_unique hused.listed hlist
      simp at this

end Runs

end KernelHeapFreeing
