import SojebOS.KernelHeapFrame
import SojebOS.KernelHeapFreeing
import SojebOS.KernelHeapSizes

/-!
# Clients of the kernel heap

One client owns regions of the heap, each at the start of a block of its own, and the rest of the
kernel has the other live pointers. What either does keeps the other's bytes.
-/
namespace KernelHeapClients

open ByteMemory MachineWord FirstFit FirstFitUsed KernelHeap KernelHeapRefinement
  KernelHeapOutcomes KernelHeapInvariant KernelHeapFrame KernelHeapFreeing KernelHeapSizes

structure Region where
  ptr : ℕ
  bytes : ℕ

def pointers (rs : List Region) : Finset ℕ := (rs.map Region.ptr).toFinset

/-- The client owns the regions. All live pointers are its own or the `others`. -/
structure Owns (lo hi : ℕ) (heap : Heap) (bs : List Block) (others : Finset ℕ)
    (rs : List Region) : Prop where
  exact : Exact lo hi ⟨heap, others ∪ pointers rs⟩ bs
  nodup : (rs.map Region.ptr).Nodup
  apart : ∀ r ∈ rs, r.ptr ∉ others
  room : ∀ r ∈ rs, ∃ b ∈ bs, b.free = false ∧ r.ptr = b.addr + 12 ∧ r.bytes ≤ b.size

/-- A byte that no call on the heap changes while the block around it is in use. -/
def Stable (lo hi : ℕ) (bs : List Block) (x : ℕ) : Prop :=
  x < lo ∨ hi ≤ x ∨ ∃ c ∈ bs, c.free = false ∧ c.addr + 12 ≤ x ∧ x < c.addr + 12 + c.size

def SameBytes (m m' : Bytes) (r : Region) : Prop :=
  ∀ x, r.ptr ≤ x → x < r.ptr + r.bytes → m' x = m x

section Regions

variable {lo hi x a n : ℕ} {heap : Heap} {m : Bytes} {bs cs : List Block} {others : Finset ℕ}
  {rs rs' : List Region} {r q : Region}

theorem mem_pointers {p : ℕ} : p ∈ pointers rs ↔ ∃ r ∈ rs, r.ptr = p := by
  rw [pointers, List.mem_toFinset, List.mem_map]

theorem pointers_cons : pointers (r :: rs) = insert r.ptr (pointers rs) := by
  rw [pointers, List.map_cons, List.toFinset_cons]
  rfl

theorem Stable.guarded (hx : Stable lo hi bs x) (hr : HeapRange lo hi) (ht : Tiles 12 lo bs hi) :
    Guarded lo hi bs 0 x := by
  apply hx.imp_right
  intro hx
  apply hx.imp_right
  rintro ⟨c, hc, hcf, hin⟩
  have hlo := (ht.mem_bounds hc).1
  have hpos := hr.pos
  exact ⟨c, hc, hcf, by omega, hin⟩

theorem Stable.keep (hx : Stable lo hi bs x) (hk : ∀ c ∈ bs, c.free = false → c ∈ cs) :
    Stable lo hi cs x := by
  apply hx.imp_right
  intro hx
  apply hx.imp_right
  rintro ⟨c, hc, hcf, hin⟩
  exact ⟨c, hk c hc hcf, hcf, hin⟩

theorem Owns.perm (h : Owns lo hi heap bs others rs) (hp : rs.Perm rs') :
    Owns lo hi heap bs others rs' := by
  have hptr : pointers rs = pointers rs' := by
    ext p
    simp only [mem_pointers, hp.mem_iff]
  exact ⟨hptr ▸ h.exact, (hp.map Region.ptr).nodup_iff.mp h.nodup,
    fun r hr => h.apart r (hp.mem_iff.mpr hr), fun r hr => h.room r (hp.mem_iff.mpr hr)⟩

theorem Owns.pos (h : Owns lo hi heap bs others rs) (hr : r ∈ rs) : 12 ≤ r.ptr := by
  obtain ⟨b, -, -, hb, -⟩ := h.room r hr
  omega

theorem Owns.bound (h : Owns lo hi heap bs others rs) (hr : r ∈ rs) :
    lo + 12 ≤ r.ptr ∧ r.ptr + r.bytes ≤ hi ∧ r.ptr < 2 ^ 32 := by
  obtain ⟨b, hb, -, hptr, hroom⟩ := h.room r hr
  have hbd := h.exact.represents.arena.tiles.mem_bounds hb
  have hlt := h.exact.addressable b hb
  omega

theorem Owns.stable (h : Owns lo hi heap bs others rs) (hr : r ∈ rs) (hx : r.ptr ≤ x)
    (hx' : x < r.ptr + r.bytes) : Stable lo hi bs x := by
  obtain ⟨b, hb, hf, hptr, hroom⟩ := h.room r hr
  exact .inr (.inr ⟨b, hb, hf, by omega, by omega⟩)

theorem Owns.regions_apart (h : Owns lo hi heap bs others rs) (hr : r ∈ rs) (hq : q ∈ rs)
    (hne : r.ptr ≠ q.ptr) : r.ptr + r.bytes ≤ q.ptr ∨ q.ptr + q.bytes ≤ r.ptr := by
  obtain ⟨b, hb, -, hrp, hrr⟩ := h.room r hr
  obtain ⟨c, hc, -, hqp, hqr⟩ := h.room q hq
  have hbc : b ≠ c := by
    rintro rfl
    omega
  have := h.exact.represents.arena.tiles.apart hb hc hbc
  omega

theorem Stable.off_header (hx : Stable lo hi bs x) (hr : HeapRange lo hi)
    (h : Owns lo hi heap bs others rs) (hmem : r ∈ rs) : x < r.ptr - 12 ∨ r.ptr ≤ x := by
  obtain ⟨b, hb, -, hptr, -⟩ := h.room r hmem
  have ht := h.exact.represents.arena.tiles
  have := (hx.guarded hr ht).off_header ht hb
  omega

theorem owns_nothing (h : Exact lo hi ⟨heap, others⟩ bs) : Owns lo hi heap bs others [] := by
  refine ⟨?_, List.nodup_nil, fun r hr => absurd hr List.not_mem_nil,
    fun r hr => absurd hr List.not_mem_nil⟩
  rw [show pointers [] = ∅ from rfl, Finset.union_empty]
  exact h

/-- The block list is all in the headers. -/
theorem Owns.same_headers (h : Owns lo hi heap bs others rs)
    (hm : ∀ b ∈ bs, ∀ x, b.addr ≤ x → x < b.addr + 12 → m x = heap.mem x) :
    Owns lo hi { heap with mem := m } bs others rs :=
  ⟨⟨⟨h.exact.represents.listed.congr hm, h.exact.represents.arena⟩, h.exact.addressable,
    h.exact.live_iff⟩, h.nodup, h.apart, h.room⟩

theorem Owns.write (hr : HeapRange lo hi) (h : Owns lo hi heap bs others rs)
    (hm : ∀ x, m x ≠ heap.mem x → Stable lo hi bs x) :
    Owns lo hi { heap with mem := m } bs others rs := by
  refine h.same_headers fun b hb x h1 h2 => ?_
  by_contra hne
  have ht := h.exact.represents.arena.tiles
  have := ((hm x hne).guarded hr ht).off_header ht hb
  omega

theorem Owns.write_region (hrange : HeapRange lo hi) (h : Owns lo hi heap bs others rs)
    (hr : r ∈ rs) (hm : ∀ x, x < r.ptr ∨ r.ptr + r.bytes ≤ x → m x = heap.mem x) :
    Owns lo hi { heap with mem := m } bs others rs := by
  refine h.write hrange fun x hne => ?_
  have hin : ¬ (x < r.ptr ∨ r.ptr + r.bytes ≤ x) := fun hx => hne (hm x hx)
  exact h.stable hr (by omega) (by omega)

theorem SameBytes.trans {m₁ m₂ m₃ : Bytes} (h : SameBytes m₁ m₂ r) (h' : SameBytes m₂ m₃ r) :
    SameBytes m₁ m₃ r :=
  fun x hx hx' => (h' x hx hx').trans (h x hx hx')

theorem Owns.same_elsewhere (h : Owns lo hi heap bs others rs) (hp : rs.Perm (r :: rs'))
    (hm : ∀ x, x < r.ptr ∨ r.ptr + r.bytes ≤ x → m x = heap.mem x) :
    ∀ q ∈ rs', SameBytes heap.mem m q := by
  intro q hq x hx hx'
  have h' := h.perm hp
  have hne : r.ptr ≠ q.ptr :=
    fun he => (List.nodup_cons.mp h'.nodup).1 (he ▸ List.mem_map_of_mem hq)
  have := h'.regions_apart List.mem_cons_self (List.mem_cons_of_mem r hq) hne
  exact hm x (by omega)

end Regions

section Calls

variable {lo hi x a n : ℕ} {heap heap' : Heap} {bs cs : List Block} {others : Finset ℕ}
  {rs : List Region} {r : Region}

theorem Owns.alloc (hr : HeapRange lo hi) (h : Owns lo hi heap bs others rs)
    (hn : n ≤ 2 ^ 32 - 8) (ha : allocate 12 8 (align n) bs = some (cs, a)) :
    ∃ heap', kmalloc heap n = some (heap', a + 12) ∧
      Owns lo hi heap' cs others (⟨a + 12, n⟩ :: rs) ∧
      ∀ x, Stable lo hi bs x → heap'.mem x = heap.mem x ∧ Stable lo hi cs x ∧
        (x < a + 12 ∨ a + 12 + n ≤ x) := by
  have hrep := h.exact.represents
  have ht := hrep.arena.tiles
  obtain ⟨heap', hk, hexact⟩ := h.exact.allocated hr ha
  obtain ⟨⟨size, hsize, hserved⟩, hkeep⟩ := allocate_served ha
  have hfresh : ∀ p ∈ others ∪ pointers rs, p ≠ a + 12 := by
    intro p hp
    obtain ⟨y, ⟨b, hb, hf, rfl⟩, rfl⟩ := (h.exact.live_iff p).mp hp
    have := allocate_fresh ht hb hf ha
    omega
  refine ⟨heap', hk, ⟨?_, ?_, ?_, ?_⟩, fun x hx => ⟨?_, hx.keep hkeep, ?_⟩⟩
  · have hlive : others ∪ pointers (⟨a + 12, n⟩ :: rs) =
        insert (a + 12) (others ∪ pointers rs) := by
      rw [pointers_cons, Finset.union_insert]
    rw [hlive]
    exact hexact
  · refine List.nodup_cons.mpr ⟨fun hmem => ?_, h.nodup⟩
    exact hfresh _ (Finset.mem_union_right _ (List.mem_toFinset.mpr hmem)) rfl
  · intro r hmem
    rcases List.mem_cons.mp hmem with rfl | hmem
    · exact fun ho => hfresh _ (Finset.mem_union_left _ ho) rfl
    · exact h.apart r hmem
  · intro r hmem
    rcases List.mem_cons.mp hmem with rfl | hmem
    · exact ⟨_, hserved, rfl, rfl, (le_align hn).trans hsize⟩
    · obtain ⟨b, hb, hf, hptr, hroom⟩ := h.room r hmem
      exact ⟨b, hkeep b hb hf, hf, hptr, hroom⟩
  · exact kmalloc_frame hr hrep hk (hx.guarded hr ht)
  · have hts := hexact.represents.arena.tiles
    have hbd := hts.mem_bounds hserved
    have hfit := (le_align hn).trans hsize
    rcases hx with hx | hx | ⟨c, hc, hcf, hin⟩
    · simp only at hbd
      omega
    · simp only at hbd
      omega
    · have hne : c ≠ ⟨a, size, false⟩ := by
        rintro rfl
        exact allocate_fresh ht hc hcf ha rfl
      have := hts.apart (hkeep c hc hcf) hserved hne
      simp only at this
      omega

theorem Owns.alloc_none (hr : HeapRange lo hi) (h : Owns lo hi heap bs others rs)
    (ha : allocate 12 8 (align n) bs = none) : kmalloc heap n = some (heap, 0) :=
  (kmalloc_refines hr h.exact.represents n).1 ha

theorem Owns.free (hr : HeapRange lo hi) (h : Owns lo hi heap bs others (r :: rs)) :
    ∃ heap', kfree heap r.ptr = some heap' ∧
      Owns lo hi heap' (release 12 (r.ptr - 12) bs) others rs ∧
      ∀ x, Stable lo hi bs x → heap'.mem x = heap.mem x := by
  have hrep := h.exact.represents
  obtain ⟨hnew, hnodup⟩ := List.nodup_cons.mp h.nodup
  have hout := h.apart r List.mem_cons_self
  have hlive : r.ptr ∈ others ∪ pointers (r :: rs) :=
    Finset.mem_union_right _ (mem_pointers.mpr ⟨r, List.mem_cons_self, rfl⟩)
  have hgone : r.ptr ∉ others ∪ pointers rs := by
    rw [Finset.mem_union, pointers, List.mem_toFinset]
    exact fun hin => hin.elim hout hnew
  have herase : (others ∪ pointers (r :: rs)).erase r.ptr = others ∪ pointers rs := by
    rw [pointers_cons, Finset.union_insert, Finset.erase_insert hgone]
  obtain ⟨heap', hk, hexact⟩ := h.exact.free hr hlive
  rw [herase] at hexact
  refine ⟨heap', hk, ⟨hexact, hnodup, fun q hq => h.apart q (List.mem_cons_of_mem r hq), ?_⟩, ?_⟩
  · intro q hq
    obtain ⟨b, hb, hf, hptr, hroom⟩ := h.room q (List.mem_cons_of_mem r hq)
    have hne : q.ptr ≠ r.ptr := fun he => hnew (he ▸ List.mem_map_of_mem hq)
    have hpos := h.pos (List.mem_cons_self (a := r))
    exact ⟨b, release_keeps hb hf (by omega), hf, hptr, hroom⟩
  · intro x hx
    obtain ⟨b, hb, -, hptr, -⟩ := h.room r List.mem_cons_self
    rw [hptr] at hk
    exact kfree_outside hr hrep hb (h.exact.addressable b hb) hk
      (hx.guarded hr hrep.arena.tiles)

theorem call_keeps_used {s t : State} {c : Call} (hr : HeapRange lo hi) (h : Invariant lo hi s bs)
    (hc : Permitted s c) (hs : perform s c = some t) (hcs : Represents lo hi t.heap cs) :
    ∀ b ∈ bs, b.free = false → b.addr + 12 ≠ pointer c → b ∈ cs := by
  obtain ⟨heap, live⟩ := s
  have hlisted : ∀ {ds}, Represents lo hi t.heap ds → ds = cs :=
    fun hds => listed_unique hds.listed hcs.listed
  have hheads := h.live_heads
  intro b hb hf hne
  cases c with
  | kmalloc n =>
    obtain ⟨⟨heap', r⟩, hk, rfl⟩ := Option.map_eq_some_iff.mp hs
    obtain ⟨heap₁, r₁, ds, hk₁, hrep, hkeep, -⟩ := kmalloc_spec hr h.represents n
    cases hk₁.symm.trans hk
    exact hlisted hrep ▸ hkeep b hb hf
  | kfree p =>
    obtain ⟨heap', hk, rfl⟩ := Option.map_eq_some_iff.mp hs
    rcases hc with rfl | hp
    · cases hk
      exact hlisted h.represents ▸ hb
    · obtain ⟨heap₁, ds, hk₁, hrep, hkeep⟩ := kfree_spec hr h.represents (hheads p hp)
      cases hk₁.symm.trans hk
      have hpos := (hheads p hp).nonNull
      obtain ⟨-, d, -, -, rfl⟩ := hheads p hp
      simp only [pointer] at hne
      exact hlisted hrep ▸ hkeep b hb hf (by omega)
  | krealloc p n =>
    obtain ⟨⟨heap', r⟩, hk, rfl⟩ := Option.map_eq_some_iff.mp hs
    rcases hc.1 with rfl | hp
    · obtain ⟨heap₁, r₁, ds, hk₁, hrep, hkeep, -⟩ := kmalloc_spec hr h.represents n
      rw [KernelHeap.krealloc, if_pos rfl, hk₁] at hk
      cases hk
      exact hlisted hrep ▸ hkeep b hb hf
    · obtain ⟨heap₁, r₁, ds, hk₁, hrep, hkeep, -⟩ := krealloc_spec hr h.represents (hheads p hp) n
      cases hk₁.symm.trans hk
      obtain ⟨-, d, -, -, rfl⟩ := hheads p hp
      simp only [pointer] at hne
      exact hlisted hrep ▸ hkeep b hb hf (by omega)

theorem perform_union {ps : Finset ℕ} {t : State} {c : Call} (hout : pointer c ∉ ps)
    (hs : perform ⟨heap, others⟩ c = some t) :
    perform ⟨heap, others ∪ ps⟩ c = some ⟨t.heap, t.live ∪ ps⟩ := by
  have hgain : ∀ p live, gain p (live ∪ ps) = gain p live ∪ ps := by
    intro p live
    rw [gain, gain]
    split
    · rfl
    · exact (Finset.insert_union p live ps).symm
  have herase : ∀ p ∉ ps, (others ∪ ps).erase p = others.erase p ∪ ps := by
    intro p hp
    rw [Finset.erase_union_distrib, Finset.erase_eq_of_notMem hp]
  cases c with
  | kmalloc n =>
    obtain ⟨⟨heap', r⟩, hk, rfl⟩ := Option.map_eq_some_iff.mp hs
    simp only [perform, hk, Option.map_some, hgain]
  | kfree p =>
    obtain ⟨heap', hk, rfl⟩ := Option.map_eq_some_iff.mp hs
    simp only [perform, hk, Option.map_some, herase p hout]
  | krealloc p n =>
    obtain ⟨⟨heap', r⟩, hk, rfl⟩ := Option.map_eq_some_iff.mp hs
    simp only [perform, hk, Option.map_some, herase p hout]
    split
    · rfl
    · rw [hgain]

theorem kmalloc_returns_new (hr : HeapRange lo hi) (h : Represents lo hi heap bs) {p : ℕ}
    (hk : kmalloc heap n = some (heap', p)) {b : Block} (hb : b ∈ bs) (hf : b.free = false) :
    p ≠ b.addr + 12 := by
  have hout := kmalloc_outcome hr h n
  rw [hk] at hout
  cases hout with
  | full => omega
  | wrapped => omega
  | served ha =>
    have := allocate_fresh h.arena.tiles hb hf ha
    omega

theorem krealloc_returns_new (hr : HeapRange lo hi) (h : Represents lo hi heap bs) {p : ℕ}
    {d : Block} (hd : d ∈ bs) (hdf : d.free = false) (hlt : d.addr + 12 < 2 ^ 32)
    (hk : krealloc heap (d.addr + 12) n = some (heap', p)) {b : Block} (hb : b ∈ bs)
    (hf : b.free = false) (hne : b.addr ≠ d.addr) : p ≠ b.addr + 12 := by
  have hout := krealloc_outcome hr h hd hdf hlt n
  rw [hk] at hout
  cases hout with
  | freed => omega
  | kept => omega
  | grown => omega
  | refused _ _ hout =>
    cases hout with
    | full => omega
    | wrapped => omega
  | moved _ _ ha =>
    have := allocate_fresh h.arena.tiles hb hf ha
    omega

theorem live_after_call {s t : State} {c : Call} (hr : HeapRange lo hi) (h : Invariant lo hi s bs)
    (hc : Permitted s c) (hs : perform s c = some t) {p : ℕ} (hp : p ∈ t.live) :
    p ∈ s.live ∨ ∀ b ∈ bs, b.free = false → b.addr + 12 ≠ pointer c → p ≠ b.addr + 12 := by
  obtain ⟨heap, live⟩ := s
  have hkmalloc : ∀ {n heap' r}, kmalloc heap n = some (heap', r) →
      ∀ {live'}, p ∈ gain r live' → live' ⊆ live → p ∈ live ∨
        ∀ b ∈ bs, b.free = false → b.addr + 12 ≠ pointer c → p ≠ b.addr + 12 := by
    intro n heap' r hk live' hgain hsub
    rcases mem_gain hgain with ⟨rfl, -⟩ | hold
    · exact .inr fun b hb hf _ => kmalloc_returns_new hr h.represents hk hb hf
    · exact .inl (hsub hold)
  cases c with
  | kmalloc n =>
    obtain ⟨⟨heap', r⟩, hk, rfl⟩ := Option.map_eq_some_iff.mp hs
    exact hkmalloc hk hp (Finset.Subset.refl _)
  | kfree p' =>
    obtain ⟨heap', hk, rfl⟩ := Option.map_eq_some_iff.mp hs
    exact .inl (Finset.mem_of_mem_erase hp)
  | krealloc p' n =>
    obtain ⟨⟨heap', r⟩, hk, rfl⟩ := Option.map_eq_some_iff.mp hs
    change p ∈ ite _ _ _ at hp
    split at hp
    · exact .inl hp
    · rcases hc.1 with rfl | hlive
      · exact hkmalloc (by simpa [KernelHeap.krealloc] using hk) hp (Finset.erase_subset _ _)
      · rcases mem_gain hp with ⟨rfl, -⟩ | hold
        · obtain ⟨hlt, d, hd, hdf, rfl⟩ := h.live_heads p' hlive
          refine .inr fun b hb hf hne => ?_
          simp only [pointer] at hne
          exact krealloc_returns_new hr h.represents hd hdf hlt hk hb hf (by omega)
        · exact .inl (Finset.mem_of_mem_erase hold)

theorem Owns.call {t : State} {c : Call} (hr : HeapRange lo hi)
    (h : Owns lo hi heap bs others rs) (hc : Permitted ⟨heap, others⟩ c)
    (hs : perform ⟨heap, others⟩ c = some t) :
    ∃ cs, Owns lo hi t.heap cs t.live rs ∧
      ∀ r ∈ rs, SameBytes heap.mem t.heap.mem r := by
  have hown : ∀ r ∈ rs, r.ptr ≠ pointer c := by
    intro r hmem he
    have hpos := h.pos hmem
    have hout := h.apart r hmem
    cases c with
    | kmalloc n => exact absurd he (by simp only [pointer]; omega)
    | kfree p =>
      rcases hc with rfl | hp
      · exact absurd he (by simp only [pointer]; omega)
      · exact hout (he ▸ hp)
    | krealloc p n =>
      rcases hc.1 with rfl | hp
      · exact absurd he (by simp only [pointer]; omega)
      · exact hout (he ▸ hp)
  have hout : pointer c ∉ pointers rs := by
    rw [mem_pointers]
    rintro ⟨r, hmem, he⟩
    exact hown r hmem he
  have hinv : Invariant lo hi ⟨heap, others⟩ bs := by
    refine ⟨h.exact.represents, fun p hp => ?_⟩
    obtain ⟨a, ⟨b, hb, hf, rfl⟩, rfl⟩ := (h.exact.live_iff p).mp (Finset.mem_union_left _ hp)
    exact ⟨h.exact.addressable b hb, b, hb, hf, rfl⟩
  have hc' : Permitted ⟨heap, others ∪ pointers rs⟩ c := by
    cases c with
    | kmalloc n => exact hc
    | kfree p => exact hc.imp_right fun hp => Finset.mem_union_left _ hp
    | krealloc p n => exact ⟨hc.1.imp_right fun hp => Finset.mem_union_left _ hp, hc.2⟩
  obtain ⟨cs, hexact⟩ := call_preserves_exact hr h.exact hc' (perform_union hout hs)
  have hkeep := call_keeps_used hr hinv hc hs hexact.represents
  refine ⟨cs, ⟨hexact, h.nodup, ?_, ?_⟩, ?_⟩
  · intro r hmem hlive
    obtain ⟨b, hb, hf, hptr, -⟩ := h.room r hmem
    rcases live_after_call hr hinv hc hs hlive with hold | hnew
    · exact h.apart r hmem hold
    · exact hnew b hb hf (hptr ▸ hown r hmem) hptr
  · intro r hmem
    obtain ⟨b, hb, hf, hptr, hroom⟩ := h.room r hmem
    exact ⟨b, hkeep b hb hf (hptr ▸ hown r hmem), hf, hptr, hroom⟩
  · intro r hmem x hx hx'
    obtain ⟨b, hb, hf, hptr, hroom⟩ := h.room r hmem
    have hne := hown r hmem
    have hnull := (h.exact.represents.listed.header hb).nonNull
    exact call_keeps_frame hr hinv hc hs
      (.inr (.inr ⟨b, hb, hf, by omega, by omega, by omega⟩))

/-- A byte that is not the heap's, or behind a pointer of the others. -/
def OthersByte (lo hi : ℕ) (heap : Heap) (others : Finset ℕ) (x : ℕ) : Prop :=
  x < lo ∨ hi ≤ x ∨ ∃ p ∈ others, p ≤ x ∧ x < p + usableSize heap p

theorem Owns.others_write {m : Bytes} (hr : HeapRange lo hi) (h : Owns lo hi heap bs others rs)
    (hm : ∀ x, m x ≠ heap.mem x → OthersByte lo hi heap others x) :
    Owns lo hi { heap with mem := m } bs others rs ∧ ∀ r ∈ rs, SameBytes heap.mem m r := by
  have hblock : ∀ p ∈ others, ∃ b ∈ bs, b.free = false ∧ p = b.addr + 12 ∧
      usableSize heap p = b.size := by
    intro p hp
    obtain ⟨a, ⟨b, hb, hf, rfl⟩, rfl⟩ := (h.exact.live_iff p).mp (Finset.mem_union_left _ hp)
    exact ⟨b, hb, hf, rfl, usableSize_block h.exact.represents hb⟩
  constructor
  · refine h.write hr fun x hx => ?_
    rcases hm x hx with hout | hout | ⟨p, hp, hlo, hhi⟩
    · exact .inl hout
    · exact .inr (.inl hout)
    · obtain ⟨b, hb, hf, rfl, husable⟩ := hblock p hp
      exact .inr (.inr ⟨b, hb, hf, hlo, husable ▸ hhi⟩)
  · intro r hmem x hx hx'
    by_contra hdiff
    have hbound := h.bound hmem
    rcases hm x hdiff with hout | hout | ⟨p, hp, hlo, hhi⟩
    · omega
    · omega
    · obtain ⟨b, hb, hf, rfl, husable⟩ := hblock p hp
      obtain ⟨c, hc, -, hptr, hroom⟩ := h.room r hmem
      have hne : b ≠ c := by
        rintro rfl
        exact h.apart r hmem (hptr ▸ hp)
      have := h.exact.represents.arena.tiles.apart hb hc hne
      omega

end Calls

end KernelHeapClients
