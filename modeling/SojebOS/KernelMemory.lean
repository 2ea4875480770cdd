import SojebOS.DirectRounds
import SojebOS.KernelHeapClients
import SojebOS.LabelledRuns
import SojebOS.UserMemory

/-!
# The memory after boot

`kernel_main` puts a heap of 4 MB behind the kernel and reserves both in the bitmap of the
frame allocator. From then on the kernel calls the heap and writes into its blocks, maps pages
for processes, and processes write to their pages, in any order and all in one memory.
-/
namespace KernelMemory

open ByteMemory MachineWord FirstFit KernelHeap KernelHeapRefinement KernelHeapInvariant
open KernelHeapFrame KernelHeapSizes KernelHeapFreeing KernelHeapClients
open PageFrames Paging PagingWalks PagingRefinement PagingInit UserIsolation UserMemory
open KernelMapping FrameSupply DirectAccess DirectRounds LabelledRuns

/-- `heap_size` -/
abbrev heapSize : ℕ := 4 * 1024 * 1024

/-- The heap begins where the linker ends the kernel and its arrays, and ends where the paging
code is told that the kernel ends, inside the identity map. -/
structure Layout (k : KernelImage) (heapStart : ℕ) : Prop where
  pos : 0 < heapStart
  ends : k.kernelEnd = heapStart + heapSize
  directory : 4096 * k.directoryFrame + 4096 ≤ heapStart
  tables : 4096 * (k.tablesFrame + 4) ≤ heapStart
  low : k.kernelEnd ≤ identityEnd

structure State where
  paging : Paging.State
  freeListHead : ℕ
  live : Finset ℕ

namespace State

def heap (s : State) : KernelHeap.State := ⟨⟨s.paging.memory, s.freeListHead⟩, s.live⟩

def withMemory (s : State) (m : Bytes) : State := { s with paging := { s.paging with memory := m } }

def withHeap (s : State) (h : KernelHeap.State) : State :=
  ⟨{ s.paging with memory := h.heap.mem }, h.heap.freeListHead, h.live⟩

end State

/-- The first lines of `kernel_main`. -/
def kernelMain (k : KernelImage) (heapStart : ℕ) (memory : Bytes) : State :=
  let heap := kheapInit memory heapStart heapSize
  ⟨pagingInit k heap.mem, heap.freeListHead, ∅⟩

inductive Event where
  | heapCall (c : KernelHeap.Call)
  | heapStore (p x : ℕ) (b : UInt8)
  | mapUser (virtualAddress size : UInt32)
  | userStore (a : UInt32) (b : UInt8)

/-- The kernel stores behind pointers that it holds, and maps pages above the identity map while
it reaches the frames that it takes; ring 3 stores where the walk lets it. -/
inductive Step (k : KernelImage) : State → Event → State → Prop where
  | heapCall {s c t} : Permitted s.heap c → perform s.heap c = some t →
      Step k s (.heapCall c) (s.withHeap t)
  | heapStore {s p x b} : p ∈ s.live → p ≤ x → x < p + usableSize s.heap.heap p →
      Step k s (.heapStore p x b) (s.withMemory (store8 s.paging.memory x b))
  | mapUser {s va size p} : identityEnd ≤ va.toNat →
      RoundsReachable k s.paging (callPages (va, size)) →
      TranslatedPaging.pagingMapUserMemory k s.paging va.toNat size.toNat = some p →
      Step k s (.mapUser va size) { s with paging := p }
  | userStore {s a p b} : UserAccessible k s.paging (a.toNat / pageSize) →
      translate k s.paging a.toNat = some p →
      Step k s (.userStore a b) (s.withMemory (store8 s.paging.memory p b))

/-- The event is no call on the block and no store behind its pointer. -/
def Event.SparesBlock (p : ℕ) : Event → Prop
  | .heapCall c => pointer c ≠ p
  | .heapStore q _ _ => q ≠ p
  | _ => True

/-- The event maps the page to no new frame and is no store of ring 3 to it. -/
def Event.SparesPage (page : ℕ) : Event → Prop
  | .mapUser va size => ∀ v ∈ callPages (va, size), v / 4096 ≠ page
  | .userStore a _ => a.toNat / 4096 ≠ page
  | _ => True

/-- The tables lie in the kernel's array or in frames of the pool. -/
def TablesPlaced (k : KernelImage) (s : Paging.State) : Prop :=
  ∀ d t, tableFrame k s d = some t → t < k.tablesFrame + 4 ∨ Pool k.kernelEnd t

structure Invariant (k : KernelImage) (heapStart : ℕ) (s : State) (bs : List Block) : Prop where
  booted : Booted k s.paging
  placed : TablesPlaced k s.paging
  closed : ∀ q < 4096, userFrame k s.paging q = none
  exact : Exact heapStart k.kernelEnd s.heap bs

section Frames

variable {k : KernelImage} {s : Paging.State} {heapStart v g x : ℕ}

theorem Layout.heapRange (hl : Layout k heapStart) : HeapRange heapStart k.kernelEnd := by
  have hends := hl.ends
  have hlow := hl.low
  have hpos := hl.pos
  norm_num at hends hlow
  exact ⟨hpos, by omega, by omega⟩

theorem Layout.zero_kept (hl : Layout k heapStart) : ¬Pool k.kernelEnd 0 := by
  have hends := hl.ends
  have hlow := hl.low
  norm_num at hends hlow
  exact zero_not_pool (by omega) (by norm_num; omega)

theorem Layout.pool_above (hl : Layout k heapStart) (hf : Pool k.kernelEnd g) :
    k.kernelEnd ≤ 4096 * g := by
  have hlow := hl.low
  norm_num at hlow
  have hpage := hf.1
  rw [reservedEndPage_eq (by norm_num; omega)] at hpage
  omega

theorem mapUserPage_keeps (h : Sound k s) (h0 : ¬Pool k.kernelEnd 0) (hv : v < 2 ^ 32)
    (hg : g ∈ (space k s).held) (hdir : g ≠ k.directoryFrame)
    (htable : ∀ d, tableFrame k s d ≠ some g) :
    FrameKept s.memory (mapUserPage k s v).memory g := by
  have hi : v / 4096 % 1024 < 1024 := Nat.mod_lt _ (by norm_num)
  rcases allocFrame_space k s with ⟨he, -⟩ | ⟨f, hf, he⟩
  · simp only [mapUserPage, he, if_true]
    exact FrameKept.refl _ _
  · have hgf : g ≠ f := fun e => hf (e ▸ hg)
    have htake := takeFrame_kept s hgf
    cases hs : tableFrame k s (v / 4096 / 1024) with
    | some t =>
      have hgt : g ≠ t := fun e => htable _ (e ▸ hs)
      rw [mapUserPage_present h h0 hf he hs]
      exact htake.trans (store32_frameKept _ _ hi hgt)
    | none =>
      rw [mapUserPage_absent h h0 hf he hv hs]
      rcases allocFrame_space k (takeFrame s f) with ⟨he', -⟩ | ⟨t, ht, he'⟩
      · rw [he', if_pos rfl]
        exact htake
      · have hspace := (takeFrame_space h hf).1
        have hgt : g ≠ t := by
          rintro rfl
          rw [hspace] at ht
          exact ht (Set.mem_insert_of_mem f hg)
        have hfill := fillWords_frameKept (takeFrame s f).memory (fun _ => 0) hgt
        have hslot : v / 4096 / 1024 < 1024 := by omega
        have hentry := store32_frameKept (fillWords (takeFrame s f).memory (4096 * t) (fun _ => 0)
          1024) (4096 * t ||| (pagePresent ||| pageRw ||| pageUser)) hslot hdir
        rw [he', if_neg ((h.hold hspace).frame_pos h0 ht)]
        exact (htake.trans (hfill.trans hentry)).trans (store32_frameKept _ _ hi hgt)

theorem tablesPlaced_outcome {page : ℕ} {s' : Paging.State} (hout : PageOutcome k s page s')
    (h : Sound k s) (hp : TablesPlaced k s) : TablesPlaced k s' := by
  cases hout with
  | refused => exact hp
  | stranded f _ _ _ _ hspace =>
    have htables : tableFrame k s' = tableFrame k s := congrArg AddressSpace.Space.table hspace
    exact fun d t ht => hp d t (htables ▸ ht)
  | placed f t _ _ hspace =>
    have htables : tableFrame k s' = tableFrame k s := congrArg AddressSpace.Space.table hspace
    exact fun d t ht => hp d t (htables ▸ ht)
  | grown f t _ _ ht hspace =>
    have htables : tableFrame k s' = Function.update (tableFrame k s) (page / 1024) (some t) :=
      congrArg AddressSpace.Space.table hspace
    intro d t' ht'
    rw [htables] at ht'
    rcases AddressSpace.update_some ht' with ⟨-, rfl⟩ | hold
    · exact .inr (Sound.pool h fun hmem => ht (Set.mem_insert_of_mem f hmem))
    · exact hp d t' hold

theorem Layout.heap_frame (hl : Layout k heapStart) (h : Sound k s) (hp : TablesPlaced k s)
    (hx : heapStart ≤ x) (hx' : x < k.kernelEnd) :
    x / 4096 ∈ (space k s).held ∧ x / 4096 ≠ k.directoryFrame ∧
      ∀ d, tableFrame k s d ≠ some (x / 4096) := by
  have hnot : ¬Pool k.kernelEnd (x / 4096) := by
    intro hpool
    have habove := hl.pool_above hpool
    omega
  have hdir := hl.directory
  have htables := hl.tables
  refine ⟨h.isolated.kept_held hnot, by omega, fun d ht => ?_⟩
  rcases hp d _ ht with hlow | hpool
  · omega
  · exact hnot hpool

/-- Rounds keep where the tables lie, the bytes of the heap and those of the pages that they
do not visit. -/
theorem mapUserPages_apart (hl : Layout k heapStart) {vs : List ℕ} (hvs : ∀ v ∈ vs, v < 2 ^ 32)
    (h : Sound k s) (hp : TablesPlaced k s) :
    TablesPlaced k (vs.foldl (mapUserPage k) s) ∧
      (∀ x, heapStart ≤ x → x < k.kernelEnd →
        (vs.foldl (mapUserPage k) s).memory x = s.memory x) ∧
      ∀ x, (∀ v ∈ vs, v / 4096 ≠ x / 4096) →
        userByte k (vs.foldl (mapUserPage k) s) x = userByte k s x := by
  induction vs generalizing s with
  | nil => exact ⟨hp, fun _ _ _ => rfl, fun _ _ => rfl⟩
  | cons v vs ih =>
    have h0 := hl.zero_kept
    have hv := hvs v List.mem_cons_self
    have hout := mapUserPage_outcome h h0 hv
    obtain ⟨hplaced, hheap, huser⟩ := ih (fun w hw => hvs w (List.mem_cons_of_mem v hw))
      (hout.sound h) (tablesPlaced_outcome hout h hp)
    have hkeeps := fun g => mapUserPage_keeps (g := g) h h0 hv
    rw [List.foldl_cons]
    refine ⟨hplaced, fun x hx hx' => ?_, fun x hx => ?_⟩
    · obtain ⟨hheld, hdir, htable⟩ := hl.heap_frame h hp hx hx'
      rw [hheap x hx hx']
      exact hkeeps _ hheld hdir htable x (by omega) (by omega)
    · have hpage : userFrame k (mapUserPage k s v) (x / 4096) = userFrame k s (x / 4096) :=
        hout.granted.page_other (hx v List.mem_cons_self).symm
      rw [huser x fun w hw => hx w (List.mem_cons_of_mem v hw), userByte, userByte, hpage]
      cases hu : userFrame k s (x / 4096) with
      | none => rw [Option.map_none, Option.map_none]
      | some f =>
        obtain ⟨hdir, htable⟩ := Sound.user_apart h hu
        have hheld := h.isolated.page_held _ f hu
        have hkept := hkeeps f hheld hdir.symm htable
        rw [Option.map_some, Option.map_some]
        exact congrArg some (hkept.byte (Nat.mod_lt x (by norm_num)))

theorem heap_write_apart (hl : Layout k heapStart) (h : Sound k s) (hp : TablesPlaced k s)
    {m : Bytes} (hm : ∀ x, m x ≠ s.memory x → heapStart ≤ x ∧ x < k.kernelEnd) :
    space k { s with memory := m } = space k s ∧
      (∀ q < 2 ^ 20, walk k { s with memory := m } q = walk k s q) ∧
      ∀ x, userByte k { s with memory := m } x = userByte k s x := by
  have hkept : ∀ g, 4096 * g + 4096 ≤ heapStart ∨ k.kernelEnd ≤ 4096 * g →
      FrameKept s.memory m g := by
    intro g hg x hx hx'
    by_contra hne
    have hin := hm x hne
    omega
  have htables : tableFrame k { s with memory := m } = tableFrame k s :=
    tableFrame_congr (hkept _ (.inl hl.directory))
  have hwalk : ∀ q < 2 ^ 20, walk k { s with memory := m } q = walk k s q := by
    intro q hq
    refine walk_congr hq htables fun t ht => hkept t ?_
    rcases hp _ t ht with hlow | hpool
    · have := hl.tables
      omega
    · exact .inr (hl.pool_above hpool)
  refine ⟨space_congr rfl htables hwalk, hwalk, fun x => ?_⟩
  rw [userByte, userByte, userFrame_congr hwalk]
  cases hu : userFrame k s (x / 4096) with
  | none => rfl
  | some f =>
    have hpool := Classical.not_not.mp (h.isolated.page_not_kept _ f hu)
    rw [Option.map_some, Option.map_some]
    exact congrArg some
      ((hkept f (.inr (hl.pool_above hpool))).byte (Nat.mod_lt x (by norm_num)))

theorem booted_congr {s' : Paging.State} (h : Booted k s) (hspace : space k s' = space k s)
    (hwalk : ∀ q < 2 ^ 20, walk k s' q = walk k s q) : Booted k s' where
  sound := Sound.congr h.sound hspace
  untouched := by
    intro q hq hnone
    rw [hwalk q hq]
    exact h.untouched q hq
      ((congrFun (congrArg AddressSpace.Space.page hspace) q).symm.trans hnone)
  tables := by
    intro d hd
    obtain ⟨t, ht⟩ := h.tables d hd
    exact ⟨t, (congrFun (congrArg AddressSpace.Space.table hspace) d).trans ht⟩

end Frames

section Steps

variable {k : KernelImage} {heapStart : ℕ} {s t : State} {e : Event} {bs : List Block}

theorem exact_written {lo hi : ℕ} {h : KernelHeap.State} {m : Bytes} (hr : HeapRange lo hi)
    (he : Exact lo hi h bs) (hm : ∀ x, m x ≠ h.heap.mem x → Stable lo hi bs x) :
    Exact lo hi ⟨{ h.heap with mem := m }, h.live⟩ bs := by
  have howns := (owns_nothing he).write hr hm
  have hexact := howns.exact
  rwa [show h.live ∪ pointers [] = h.live from Finset.union_empty _] at hexact

theorem exact_heads {lo hi : ℕ} {h : KernelHeap.State} (he : Exact lo hi h bs) :
    KernelHeapInvariant.Invariant lo hi h bs := by
  refine ⟨he.represents, fun p hp => ?_⟩
  obtain ⟨a, ⟨b, hb, hf, rfl⟩, rfl⟩ := (he.live_iff p).mp hp
  exact ⟨he.addressable b hb, b, hb, hf, rfl⟩

/-- What an event leaves as it is: the blocks and the pages that it spares. -/
structure Keeps (k : KernelImage) (s : State) (bs : List Block) (e : Event) (t : State)
    (cs : List Block) : Prop where
  blocks : ∀ b ∈ bs, b.free = false → e.SparesBlock (b.addr + 12) → b ∈ cs ∧
    ∀ x, b.addr + 12 ≤ x → x < b.addr + 12 + b.size → t.paging.memory x = s.paging.memory x
  pages : ∀ x, e.SparesPage (x / 4096) → userByte k t.paging x = userByte k s.paging x

theorem Invariant.heap_write {m : Bytes} {cs : List Block} {freeListHead : ℕ} {live : Finset ℕ}
    (hl : Layout k heapStart) (h : Invariant k heapStart s bs)
    (hm : ∀ x, m x ≠ s.paging.memory x → heapStart ≤ x ∧ x < k.kernelEnd)
    (hexact : Exact heapStart k.kernelEnd ⟨⟨m, freeListHead⟩, live⟩ cs) :
    Invariant k heapStart ⟨{ s.paging with memory := m }, freeListHead, live⟩ cs ∧
      ∀ x, userByte k { s.paging with memory := m } x = userByte k s.paging x := by
  obtain ⟨hspace, hwalk, hbyte⟩ := heap_write_apart hl h.booted.sound h.placed hm
  refine ⟨⟨booted_congr h.booted hspace hwalk, ?_, ?_, hexact⟩, hbyte⟩
  · intro d t ht
    exact h.placed d t ((congrFun (congrArg AddressSpace.Space.table hspace) d).symm.trans ht)
  · intro q hq
    exact (congrFun (congrArg AddressSpace.Space.page hspace) q).trans (h.closed q hq)

theorem heapCall_keeps {c : KernelHeap.Call} {t : KernelHeap.State} (hl : Layout k heapStart)
    (h : Invariant k heapStart s bs) (hc : Permitted s.heap c) (hs : perform s.heap c = some t) :
    ∃ cs, Invariant k heapStart (s.withHeap t) cs ∧
      Keeps k s bs (.heapCall c) (s.withHeap t) cs := by
  have hr := hl.heapRange
  obtain ⟨cs, hexact⟩ := call_preserves_exact hr h.exact hc hs
  have hinv := exact_heads h.exact
  have hm : ∀ x, t.heap.mem x ≠ s.paging.memory x → heapStart ≤ x ∧ x < k.kernelEnd := by
    intro x hne
    by_contra hout
    refine hne (call_keeps_frame hr hinv hc hs ?_)
    rcases Nat.lt_or_ge x heapStart with hlow | hhigh
    · exact .inl hlow
    · exact .inr (.inl (by omega))
  obtain ⟨hi, hbyte⟩ := h.heap_write hl hm hexact
  refine ⟨cs, hi, ?_, fun x _ => hbyte x⟩
  intro b hb hf hne
  refine ⟨call_keeps_used hr hinv hc hs hexact.represents b hb hf (Ne.symm hne), ?_⟩
  intro x h1 h2
  have hnonNull := (h.exact.represents.listed.header hb).nonNull
  have haddr : b.addr ≠ pointer c - 12 := by
    have hne : pointer c ≠ b.addr + 12 := hne
    omega
  exact call_keeps_frame hr hinv hc hs (.inr (.inr ⟨b, hb, hf, haddr, h1, h2⟩))

theorem heapStore_keeps {p x : ℕ} (b : UInt8) (hl : Layout k heapStart)
    (h : Invariant k heapStart s bs) (hp : p ∈ s.live) (hx : p ≤ x)
    (hx' : x < p + usableSize s.heap.heap p) :
    Invariant k heapStart (s.withMemory (store8 s.paging.memory x b)) bs ∧
      Keeps k s bs (.heapStore p x b) (s.withMemory (store8 s.paging.memory x b)) bs := by
  have hr := hl.heapRange
  obtain ⟨a, ⟨c, hc, hf, rfl⟩, rfl⟩ := (h.exact.live_iff p).mp hp
  rw [usableSize_block h.exact.represents hc] at hx'
  have htiles := h.exact.represents.arena.tiles
  obtain ⟨hlo, hhi, -⟩ := block_bounds hr htiles hc
  have hchanged : ∀ y, store8 s.paging.memory x b y ≠ s.paging.memory y → y = x := by
    intro y hne
    by_contra hyx
    exact hne (store8_other hyx)
  have hexact : Exact heapStart k.kernelEnd
      (s.withMemory (store8 s.paging.memory x b)).heap bs := by
    refine exact_written hr h.exact fun y hy => ?_
    rw [hchanged y hy]
    exact .inr (.inr ⟨c, hc, hf, hx, hx'⟩)
  obtain ⟨hi, hbyte⟩ := h.heap_write hl (fun y hy => by rw [hchanged y hy]; omega) hexact
  refine ⟨hi, ?_, fun y _ => hbyte y⟩
  intro d hd hdf hne
  refine ⟨hd, fun y h1 h2 => store8_other ?_⟩
  rintro rfl
  have hne : c.addr + 12 ≠ d.addr + 12 := hne
  have hapart := htiles.apart hc hd fun heq => hne (by rw [heq])
  omega

theorem Invariant.exact_elsewhere {m : Bytes} (hl : Layout k heapStart)
    (h : Invariant k heapStart s bs)
    (hm : ∀ x, heapStart ≤ x → x < k.kernelEnd → m x = s.paging.memory x) :
    Exact heapStart k.kernelEnd ⟨⟨m, s.freeListHead⟩, s.live⟩ bs ∧
      ∀ b ∈ bs, ∀ x, b.addr + 12 ≤ x → x < b.addr + 12 + b.size → m x = s.paging.memory x := by
  have hr := hl.heapRange
  constructor
  · refine exact_written hr h.exact fun x hne => ?_
    rcases Nat.lt_or_ge x heapStart with hlow | hhigh
    · exact .inl hlow
    · refine .inr (.inl ?_)
      by_contra hlt
      exact hne (hm x hhigh (by omega))
  · intro b hb x h1 h2
    have hbounds := block_bounds hr h.exact.represents.arena.tiles hb
    exact hm x (by omega) (by omega)

theorem Layout.kernelLow (hl : Layout k heapStart) : KernelLow k := by
  have hlow := hl.low
  have hdir := hl.directory
  have hends := hl.ends
  norm_num at hlow hends
  refine ⟨?_, by omega⟩
  rw [reservedEndPage_eq (by norm_num; omega)]
  omega

theorem Invariant.identityWhole (h : Invariant k heapStart s bs) : IdentityWhole k s.paging := by
  intro q hq
  rw [SelfMapped, h.booted.untouched q (by omega) (h.closed q hq), if_pos hq, present_iff]
  norm_num
  omega

/-- The kernel's accesses behind the page tables are the ones to physical memory. -/
theorem mapUser_direct {va : UInt32} (size : UInt32) (hl : Layout k heapStart)
    (h : Invariant k heapStart s bs) (hva : identityEnd ≤ va.toNat)
    (hreach : RoundsReachable k s.paging (callPages (va, size))) :
    TranslatedPaging.pagingMapUserMemory k s.paging va.toNat size.toNat =
      some (call k s.paging (va, size)) :=
  pagingMapUserMemory_direct h.booted.sound hl.zero_kept
    (roundsDirect_of_reachable hl.kernelLow h.booted.sound hl.zero_kept h.identityWhole
      (fun _ hv => visited_above va.toNat_lt hva hv) hreach)

theorem mapUser_keeps {va : UInt32} (size : UInt32) (hl : Layout k heapStart)
    (h : Invariant k heapStart s bs) (hva : identityEnd ≤ va.toNat) :
    Invariant k heapStart { s with paging := call k s.paging (va, size) } bs ∧
      Keeps k s bs (.mapUser va size) { s with paging := call k s.paging (va, size) } bs := by
  have hvs : ∀ v ∈ callPages (va, size), v < 2 ^ 32 := fun v hv => callPages_lt hv
  have habove : ∀ v ∈ callPages (va, size), identityEnd ≤ v :=
    fun v hv => (callPages_above hva hv).2
  have h0 := hl.zero_kept
  obtain ⟨hplaced, hheap, hbyte⟩ := mapUserPages_apart hl hvs h.booted.sound h.placed
  have hbooted := (mapUserPages_booted h0 hvs h.booted).1
  rw [← call_eq_rounds] at hplaced hheap hbyte hbooted
  obtain ⟨hexact, hpayload⟩ := h.exact_elsewhere hl hheap
  refine ⟨⟨hbooted, hplaced, ?_, hexact⟩, fun b hb _ _ => ⟨hb, hpayload b hb⟩, hbyte⟩
  intro q hq
  have hother : userFrame k (call k s.paging (va, size)) q = userFrame k s.paging q := by
    rw [call_eq_rounds]
    refine mapUserPages_other h0 hvs h.booted.sound fun v hv => ?_
    have hge := habove v hv
    norm_num at hge
    omega
  exact hother.trans (h.closed q hq)

theorem userStore_keeps {a : UInt32} {p : ℕ} (b : UInt8) (hl : Layout k heapStart)
    (h : Invariant k heapStart s bs) (hu : UserAccessible k s.paging (a.toNat / pageSize))
    (ht : translate k s.paging a.toNat = some p) :
    Invariant k heapStart (s.withMemory (store8 s.paging.memory p b)) bs ∧
      Keeps k s bs (.userStore a b) (s.withMemory (store8 s.paging.memory p b)) bs := by
  have hsound := h.booted.sound
  have ha := a.toNat_lt
  have huser : userFrame k s.paging (a.toNat / 4096) =
      some (walk k s.paging (a.toNat / 4096) / 4096) :=
    if_pos ⟨by omega, hu.2⟩
  generalize walk k s.paging (a.toNat / 4096) / 4096 = f at huser
  obtain rfl : 4096 * f + a.toNat % 4096 = p :=
    Option.some.inj ((translate_user huser).symm.trans ht)
  obtain ⟨hdir, htable⟩ := Sound.user_apart hsound huser
  have hi : a.toNat % 4096 < 4096 := Nat.mod_lt _ (by norm_num)
  have hsame := sameTables_write (fun g hg => store8_frameKept s.paging.memory b hi hg) hdir htable
  have hspace := hsame.space_eq
  have hpool := Classical.not_not.mp (hsound.isolated.page_not_kept _ f huser)
  have habove := hl.pool_above hpool
  have hheap : ∀ x, heapStart ≤ x → x < k.kernelEnd →
      store8 s.paging.memory (4096 * f + a.toNat % 4096) b x = s.paging.memory x :=
    fun x _ hx => store8_other (by omega)
  obtain ⟨hexact, hpayload⟩ := h.exact_elsewhere hl hheap
  refine ⟨⟨booted_congr h.booted hspace hsame.walks, ?_, ?_, hexact⟩,
    fun c hc _ _ => ⟨hc, hpayload c hc⟩, ?_⟩
  · intro d t ht
    exact h.placed d t ((congrFun (congrArg AddressSpace.Space.table hspace) d).symm.trans ht)
  · intro q hq
    exact (congrFun (congrArg AddressSpace.Space.page hspace) q).trans (h.closed q hq)
  · intro x hx
    obtain ⟨s', hstore, -, hbyte⟩ := storeVirtual_user hsound b huser
    rw [TranslatedPaging.storeVirtual, ht, Option.map_some, Option.some.injEq] at hstore
    have hne : x ≠ a.toNat := by
      rintro rfl
      exact hx rfl
    rw [State.withMemory, hstore, hbyte x, if_neg hne]

theorem step_keeps (hl : Layout k heapStart) (h : Invariant k heapStart s bs) (hs : Step k s e t) :
    ∃ cs, Invariant k heapStart t cs ∧ Keeps k s bs e t cs := by
  cases hs with
  | heapCall hc hperform => exact heapCall_keeps hl h hc hperform
  | heapStore hp hx hx' => exact ⟨bs, heapStore_keeps _ hl h hp hx hx'⟩
  | @mapUser va size p hva hreach hcall =>
    rw [mapUser_direct size hl h hva hreach, Option.some.injEq] at hcall
    exact ⟨bs, hcall ▸ mapUser_keeps size hl h hva⟩
  | userStore hu ht => exact ⟨bs, userStore_keeps _ hl h hu ht⟩

end Steps

section Boot

variable {k : KernelImage} {heapStart x : ℕ}

theorem pagingInit_above (hl : Layout k heapStart) (memory : Bytes) (hx : heapStart ≤ x) :
    (pagingInit k memory).memory x = memory x := by
  have hdir := hl.directory
  have htables := hl.tables
  have htable : ∀ (s : Paging.State), ∀ i < 4, (identityTable k s i).memory x = s.memory x := by
    intro s i hi
    have hfill := fillWords_outside (m := s.memory) (a := k.firstPageTables i) (n := 1024) (x := x)
      (f := fun j => (4096 * (1024 * i + j)) ||| (pagePresent ||| pageRw))
      (.inr (by rw [KernelImage.firstPageTables]; omega))
    have hentry : k.pageDirectory + 4 * i + 4 ≤ x := by
      rw [KernelImage.pageDirectory]
      omega
    exact (store32_outside (.inr hentry)).trans hfill
  have hfold : ∀ n ≤ 4, ∀ s : Paging.State,
      ((List.range n).foldl (identityTable k) s).memory x = s.memory x := by
    intro n hn s
    induction n with
    | zero => rfl
    | succ n ih =>
      rw [List.range_succ, List.foldl_append, List.foldl_cons, List.foldl_nil,
        htable _ n (by omega), ih (by omega)]
  rw [pagingInit_eq, hfold 4 le_rfl, reserveKernel, memory_reserve]
  exact fillWords_outside (.inr (by rw [KernelImage.pageDirectory]; omega))

theorem kernelMain_invariant (hl : Layout k heapStart) (memory : Bytes) :
    Invariant k heapStart (kernelMain k heapStart memory) [⟨heapStart, heapSize - 12, true⟩] := by
  have hr := hl.heapRange
  have hends := hl.ends
  have hlow := hl.low
  norm_num at hends hlow
  refine ⟨pagingInit_booted k _, ?_, fun q _ => pagingInit_userFrame k _ q, ?_⟩
  · intro d t ht
    rw [kernelMain, pagingInit_tableFrame] at ht
    split at ht
    · cases ht
      exact .inl (by omega)
    · cases ht
  · have hinit : Exact heapStart (heapStart + heapSize)
        ⟨kheapInit memory heapStart heapSize, ∅⟩ _ :=
      kheapInit_exact memory (hl.ends ▸ hr) (by norm_num) (by omega)
    rw [← hl.ends] at hinit
    refine exact_written hr hinit fun x hne => ?_
    by_contra hin
    exact hne (pagingInit_above hl _ (Nat.le_of_not_lt fun hlt => hin (.inl hlt)))

end Boot

section Runs

variable {k : KernelImage} {heapStart : ℕ} {memory : Bytes} {s t : State} {es fs : List Event}
  {bs : List Block}

/-- The addresses below 16 MB are the kernel's and reach what lies there, the heap is a list of
blocks that serves every permitted call, and no two pages of ring 3 share a byte, which lies
behind the heap. -/
structure Separated (k : KernelImage) (heapStart : ℕ) (s : State) : Prop where
  mapped : ∀ a < identityEnd,
    translate k s.paging a = some a ∧ ¬UserAccessible k s.paging (a / pageSize)
  tiles : ∃ bs, TilesHeap heapStart heapSize s.heap bs
  serves : ∀ c, Permitted s.heap c → ∃ t, perform s.heap c = some t
  apart : ∀ a b : UInt32, ∀ p, UserAccessible k s.paging (a.toNat / pageSize) →
    UserAccessible k s.paging (b.toNat / pageSize) → translate k s.paging a.toNat = some p →
    translate k s.paging b.toNat = some p → k.kernelEnd ≤ p ∧ a = b

/-- What the owners of a block and of a page leave alone stays as it is. -/
structure OwnedKept (k : KernelImage) (s : State) (es : List Event) (t : State) : Prop where
  blocks : ∀ p ∈ s.live, (∀ e ∈ es, e.SparesBlock p) → p ∈ t.live ∧
    usableSize t.heap.heap p = usableSize s.heap.heap p ∧
    ∀ x, p ≤ x → x < p + usableSize s.heap.heap p → t.paging.memory x = s.paging.memory x
  pages : ∀ x, (∀ e ∈ es, e.SparesPage (x / 4096)) →
    userByte k t.paging x = userByte k s.paging x

theorem Invariant.mapped (h : Invariant k heapStart s bs) {a : ℕ} (ha : a < identityEnd) :
    translate k s.paging a = some a ∧ ¬UserAccessible k s.paging (a / pageSize) := by
  norm_num at ha
  have hwalk := h.booted.untouched (a / 4096) (by omega) (h.closed _ (by omega))
  rw [if_pos (by omega)] at hwalk
  constructor
  · rw [Paging.translate, pageSize, hwalk, if_pos, page_mask (by omega), Option.some.injEq]
    · omega
    · rw [present_iff]
      omega
  · intro hu
    have huser := (user_iff _).mp hu.2.2
    rw [pageSize, hwalk] at huser
    omega

theorem Invariant.separated (hl : Layout k heapStart) (h : Invariant k heapStart s bs) :
    Separated k heapStart s := by
  have hr := hl.heapRange
  have hheads := exact_heads h.exact
  refine ⟨fun a => h.mapped, ⟨bs, ?_⟩, fun c hc => ?_, fun a b p hua hub hta htb => ?_⟩
  · rw [hl.ends] at hheads
    exact hheads.tilesHeap (by norm_num)
  · obtain ⟨t, -, ht, -⟩ := call_preserves_invariant hr hheads hc
    exact ⟨t, ht⟩
  · have huser : ∀ c : UInt32, UserAccessible k s.paging (c.toNat / pageSize) →
        translate k s.paging c.toNat = some p →
        userFrame k s.paging (c.toNat / 4096) = some (p / 4096) ∧ c.toNat % 4096 = p % 4096 := by
      intro c hu ht
      have hc := c.toNat_lt
      have hframe : userFrame k s.paging (c.toNat / 4096) =
          some (walk k s.paging (c.toNat / 4096) / 4096) := if_pos ⟨by omega, hu.2⟩
      have hp := Option.some.inj ((translate_user hframe).symm.trans ht)
      rw [hframe, Option.some.injEq]
      omega
    obtain ⟨ha, ha'⟩ := huser a hua hta
    obtain ⟨hb, hb'⟩ := huser b hub htb
    have hsound := h.booted.sound
    have hpool := Classical.not_not.mp (hsound.isolated.page_not_kept _ _ ha)
    have habove := hl.pool_above hpool
    have hpage := hsound.isolated.page_injective _ _ _ ha hb
    refine ⟨by omega, UInt32.toNat_inj.mp (by omega)⟩

theorem run_keeps (hl : Layout k heapStart) (h : Invariant k heapStart s bs)
    (hrun : Run (Step k) s es t) : ∃ cs, Invariant k heapStart t cs ∧
      (∀ b ∈ bs, b.free = false → (∀ e ∈ es, e.SparesBlock (b.addr + 12)) → b ∈ cs ∧
        ∀ x, b.addr + 12 ≤ x → x < b.addr + 12 + b.size →
          t.paging.memory x = s.paging.memory x) ∧
      ∀ x, (∀ e ∈ es, e.SparesPage (x / 4096)) →
        userByte k t.paging x = userByte k s.paging x := by
  induction hrun generalizing bs with
  | nil s => exact ⟨bs, h, fun b hb _ _ => ⟨hb, fun _ _ _ => rfl⟩, fun _ _ => rfl⟩
  | @cons s u t e es hstep _ ih =>
    obtain ⟨ds, hd, hkeep⟩ := step_keeps hl h hstep
    obtain ⟨cs, hc, hblocks, hpages⟩ := ih hd
    refine ⟨cs, hc, fun b hb hf hspare => ?_, fun x hspare => ?_⟩
    · obtain ⟨hmem, hbytes⟩ := hkeep.blocks b hb hf (hspare e List.mem_cons_self)
      obtain ⟨hmem', hbytes'⟩ := hblocks b hmem hf fun e' he =>
        hspare e' (List.mem_cons_of_mem e he)
      exact ⟨hmem', fun x h1 h2 => (hbytes' x h1 h2).trans (hbytes x h1 h2)⟩
    · have hfirst := hkeep.pages x (hspare e List.mem_cons_self)
      exact (hpages x fun e' he => hspare e' (List.mem_cons_of_mem e he)).trans hfirst

theorem perform_kmalloc {h h' : Heap} {n p : ℕ} (live : Finset ℕ)
    (hk : kmalloc h n = some (h', p)) :
    perform ⟨h, live⟩ (.kmalloc n) = some ⟨h', gain p live⟩ := by
  rw [perform, hk]
  rfl

theorem bootLayout : Layout bootImage 0x200000 where
  pos := by norm_num
  ends := rfl
  directory := by decide
  tables := by decide
  low := by decide

/-- Two pages for a process, and then a block of 40 bytes at the start of the heap. -/
theorem boot_run : ∃ s, 0x20000C ∈ s.live ∧
    Run (Step bootImage) (kernelMain bootImage 0x200000 fun _ => 0)
      [.mapUser 0x1000000 5000, .heapCall (.kmalloc 40)] s := by
  have hi := kernelMain_invariant bootLayout fun _ => 0
  have hva : identityEnd ≤ (0x1000000 : UInt32).toNat := by decide
  have hreach : RoundsReachable bootImage (kernelMain bootImage 0x200000 fun _ => 0).paging
      (callPages (0x1000000, 5000)) :=
    ((run_reachable_iff bootImage (by decide) (by decide) _ [(0x1000000, 5000)]
      (List.forall_mem_singleton.mpr hva)).mpr (by decide)).1
  have hmap : Step bootImage _ (.mapUser 0x1000000 5000) _ :=
    .mapUser hva hreach (mapUser_direct 5000 bootLayout hi hva hreach)
  have hi' := (mapUser_keeps 5000 bootLayout hi hva).1
  have halloc : allocate 12 8 (align 40) [⟨0x200000, heapSize - 12, true⟩] =
      some ([⟨0x200000, 40, false⟩, ⟨0x200034, heapSize - 64, true⟩], 0x200000) := by decide
  obtain ⟨heap', hk, -⟩ := hi'.exact.allocated bootLayout.heapRange halloc
  have hgain : gain (0x200000 + 12) ∅ = {0x20000C} := by decide
  have hcall := perform_kmalloc ∅ hk
  rw [hgain] at hcall
  have hp : 40 < 2 ^ 32 := by norm_num
  exact ⟨_, Finset.mem_singleton_self _, .cons hmap (.single (.heapCall hp hcall))⟩

/-- Whatever the kernel and the processes do after boot, in any order, their memory stays apart. -/
theorem boot_keeps_separated (hl : Layout k heapStart)
    (hrun : Run (Step k) (kernelMain k heapStart memory) es s) : Separated k heapStart s := by
  obtain ⟨cs, hc, -⟩ := run_keeps hl (kernelMain_invariant hl memory) hrun
  exact hc.separated hl

theorem boot_keeps_separated_boot : ∃ s, 0x20000C ∈ s.live ∧ Separated bootImage 0x200000 s := by
  obtain ⟨s, hp, hrun⟩ := boot_run
  exact ⟨s, hp, boot_keeps_separated bootLayout hrun⟩

/-- From any state that boot leads to, a live block keeps its place, its size and its bytes while
no event is about its pointer, and a page of ring 3 its bytes while no event is about it. -/
theorem boot_keeps_owned (hl : Layout k heapStart)
    (hboot : Run (Step k) (kernelMain k heapStart memory) es s) (hrun : Run (Step k) s fs t) :
    OwnedKept k s fs t := by
  obtain ⟨bs, hb, -⟩ := run_keeps hl (kernelMain_invariant hl memory) hboot
  obtain ⟨cs, hc, hblocks, hpages⟩ := run_keeps hl hb hrun
  refine ⟨fun p hp hspare => ?_, hpages⟩
  obtain ⟨a, ⟨b, hmem, hf, rfl⟩, rfl⟩ := (hb.exact.live_iff p).mp hp
  obtain ⟨hmem', hbytes⟩ := hblocks b hmem hf hspare
  rw [usableSize_block hb.exact.represents hmem, usableSize_block hc.exact.represents hmem']
  exact ⟨(hc.exact.live_iff _).mpr ⟨b.addr, ⟨b, hmem', hf, rfl⟩, rfl⟩, rfl, hbytes⟩

/-- The block is kept while another is allocated. -/
theorem boot_keeps_owned_boot : ∃ s t, 0x20000C ∈ s.live ∧
    OwnedKept bootImage s [.heapCall (.kmalloc 16)] t := by
  obtain ⟨s, hp, hrun⟩ := boot_run
  obtain ⟨t, ht⟩ := (boot_keeps_separated bootLayout hrun).serves (.kmalloc 16)
    (show 16 < 2 ^ 32 by norm_num)
  exact ⟨s, _, hp, boot_keeps_owned bootLayout hrun
    (.single (.heapCall (show 16 < 2 ^ 32 by norm_num) ht))⟩

end Runs

end KernelMemory
