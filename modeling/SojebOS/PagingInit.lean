import SojebOS.PagingRefinement

/-!
# The page tables from boot on

`paging_init` builds the identity map of the first 16 MB and reserves the kernel's frames.
From there every call is a run of grants, and a store of ring 3 changes no table.
-/
namespace PagingInit

open ByteMemory MachineWord PageFrames Paging PagingWalks PagingRefinement

section Boot

variable {k : KernelImage} {s : State} {d i page f : ℕ}

theorem bitmapTest_reserve (s : State) (n g : ℕ) :
    bitmapTest ((List.range n).foldl bitmapSet s) g = (decide (g < n) || bitmapTest s g) := by
  induction n with
  | zero => simp
  | succ n ih =>
    rw [List.range_succ, List.foldl_append, List.foldl_cons, List.foldl_nil, bitmapTest_set, ih,
      ← Bool.or_assoc, ← Bool.decide_or]
    congr 2
    exact propext (by omega)

theorem memory_reserve (s : State) (n : ℕ) :
    ((List.range n).foldl bitmapSet s).memory = s.memory := by
  induction n with
  | zero => rfl
  | succ n ih =>
    rw [List.range_succ, List.foldl_append]
    exact ih

/-- The first `n` tables of the identity map are in place. -/
structure IdentityMapped (k : KernelImage) (n : ℕ) (s : State) : Prop where
  directory : ∀ d < 1024,
    directoryEntry k s d = if d < n then 4096 * (k.tablesFrame + d) + 7 else 2
  tables : ∀ d < n, ∀ i < 1024,
    load32 s.memory (4096 * (k.tablesFrame + d) + 4 * i) = 4096 * (1024 * d + i) + 3

theorem identityTable_next (k : KernelImage) {n : ℕ} (hn : n < 4) (h : IdentityMapped k n s) :
    IdentityMapped k (n + 1) (identityTable k s n) := by
  have hapart : ∀ d < 4, k.directoryFrame ≠ k.tablesFrame + d := by
    intro d hd
    have := k.arrays_apart
    omega
  have htables := k.tables_lt
  have hslot : n < 1024 := by omega
  constructor
  · intro d hd
    simp only [identityTable, KernelImage.firstPageTables, table_word]
    simp only [setDirectoryEntry, directoryEntry]
    by_cases hdn : d = n
    · rw [hdn, if_pos (by omega)]
      apply load32_store32
      omega
    · rw [load32_store32_apart (by omega)]
      have hkept : ∀ w, FrameKept s.memory (fillWords s.memory (4096 * (k.tablesFrame + n)) w 1024)
          k.directoryFrame := fun w => fillWords_frameKept s.memory w (hapart n hn)
      refine ((hkept _).word hd).trans ((h.directory d hd).trans (if_congr ?_ rfl rfl))
      omega
  · intro d hd i hi
    simp only [identityTable, KernelImage.firstPageTables, kernel_word]
    have hdir := store32_frameKept (fillWords s.memory (4096 * (k.tablesFrame + n))
      (fun entryIdx => 4096 * (1024 * n + entryIdx) + 3) 1024)
      (4096 * (k.tablesFrame + n) ||| (pagePresent ||| pageRw ||| pageUser)) hslot
      (hapart d (by omega)).symm
    refine (hdir.word hi).trans ?_
    by_cases hdn : d = n
    · rw [hdn]
      apply load32_fillWords hi
      omega
    · rw [(fillWords_frameKept s.memory _ (by omega)).word hi]
      exact h.tables d (by omega) i hi

theorem identityTable_frameBitmap (k : KernelImage) (s : State) (n : ℕ) :
    ((List.range n).foldl (identityTable k) s).frameBitmap = s.frameBitmap := by
  induction n with
  | zero => rfl
  | succ n ih =>
    rw [List.range_succ, List.foldl_append]
    exact ih

theorem identityTables (k : KernelImage) (h : IdentityMapped k 0 s) {n : ℕ} (hn : n ≤ 4) :
    IdentityMapped k n ((List.range n).foldl (identityTable k) s) := by
  induction n with
  | zero => exact h
  | succ n ih =>
    rw [List.range_succ, List.foldl_append]
    exact identityTable_next k (by omega) (ih (by omega))

/-- The state before the identity map is built: the kernel's frames are reserved. -/
def reserveKernel (k : KernelImage) (memory : Bytes) : State :=
  (List.range (reservedEndPage k.kernelEnd)).foldl bitmapSet
    ⟨fillWords memory k.pageDirectory (fun _ => 0x00000002) 1024, fun _ => 0⟩

theorem pagingInit_eq (k : KernelImage) (memory : Bytes) :
    pagingInit k memory = (List.range 4).foldl (identityTable k) (reserveKernel k memory) := by
  unfold pagingInit reserveKernel
  rfl

theorem pagingInit_mapped (k : KernelImage) (memory : Bytes) :
    IdentityMapped k 4 (pagingInit k memory) := by
  rw [pagingInit_eq]
  apply identityTables k _ le_rfl
  constructor
  · intro d hd
    rw [directoryEntry, reserveKernel, memory_reserve, if_neg (Nat.not_lt_zero d)]
    exact load32_fillWords hd (by norm_num)
  · intro d hd
    omega

theorem pagingInit_used (k : KernelImage) (memory : Bytes) (g : ℕ) :
    bitmapTest (pagingInit k memory) g = decide (g < reservedEndPage k.kernelEnd) := by
  rw [bitmapTest, pagingInit_eq, identityTable_frameBitmap]
  refine (bitmapTest_reserve _ _ g).trans ?_
  simp [bitmapTest]

theorem pagingInit_tableFrame (k : KernelImage) (memory : Bytes) (d : ℕ) :
    tableFrame k (pagingInit k memory) d = if d < 4 then some (k.tablesFrame + d) else none := by
  have hmap := pagingInit_mapped k memory
  by_cases hd : d < 1024
  · by_cases h4 : d < 4
    · have hpresent : 4096 * (k.tablesFrame + d) + 7 &&& pagePresent ≠ 0 := by
        rw [present_iff]
        omega
      rw [tableFrame, hmap.directory d hd, if_pos h4, if_pos h4, if_pos ⟨hd, hpresent⟩,
        Option.some.injEq]
      omega
    · rw [tableFrame, hmap.directory d hd, if_neg h4, if_neg h4, if_neg fun h => h.2 rfl]
  · rw [tableFrame, if_neg fun h => hd h.1, if_neg (by omega)]

theorem pagingInit_walk (k : KernelImage) (memory : Bytes) {q : ℕ} (hq : q < 2 ^ 20) :
    walk k (pagingInit k memory) q = if q < 4096 then 4096 * q + 3 else 0 := by
  have htable := pagingInit_tableFrame k memory (q / 1024)
  by_cases h : q < 4096
  · rw [if_pos (by omega)] at htable
    rw [if_pos h, walk_of_table htable,
      (pagingInit_mapped k memory).tables (q / 1024) (by omega) (q % 1024) (by omega)]
    omega
  · rw [if_neg (by omega)] at htable
    rw [if_neg h, walk_of_none hq htable]

theorem pagingInit_userFrame (k : KernelImage) (memory : Bytes) (q : ℕ) :
    userFrame k (pagingInit k memory) q = none := by
  unfold userFrame
  split
  · rename_i hq
    have huser := (user_iff _).mp hq.2.2
    rw [pagingInit_walk k memory hq.1] at huser
    split at huser <;> omega
  · rfl

theorem pagingInit_held (k : KernelImage) (memory : Bytes) (f : ℕ) :
    f ∈ (space k (pagingInit k memory)).held ↔ ¬Pool k.kernelEnd f := by
  rw [mem_held, pagingInit_used, decide_eq_true_eq, Pool]
  omega

theorem pagingInit_sound (k : KernelImage) (memory : Bytes) : Sound k (pagingInit k memory) where
  isolated :=
    { kept_held := fun f hf => (pagingInit_held k memory f).mpr hf
      table_held := by
        intro d t ht
        rw [pagingInit_held]
        rw [show (space k (pagingInit k memory)).table d = _ from pagingInit_tableFrame k memory d]
          at ht
        split at ht
        · rename_i hd
          exact Option.some.inj ht ▸ k.tables_kept d hd
        · cases ht
      table_injective := by
        intro d d' t ht ht'
        rw [show (space k (pagingInit k memory)).table d = _ from pagingInit_tableFrame k memory d]
          at ht
        rw [show (space k (pagingInit k memory)).table d' = _
          from pagingInit_tableFrame k memory d'] at ht'
        split at ht <;> split at ht' <;> simp only [Option.some.injEq, reduceCtorEq] at ht ht'
        omega
      page_held := fun p f hf => by simp [space, pagingInit_userFrame] at hf
      page_not_kept := fun p f hf => by simp [space, pagingInit_userFrame] at hf
      page_not_table := fun p d f hf => by simp [space, pagingInit_userFrame] at hf
      page_injective := fun p p' f hf => by simp [space, pagingInit_userFrame] at hf }
  directory_apart := by
    intro d
    rw [pagingInit_tableFrame]
    have hapart := k.arrays_apart
    split
    · rw [ne_eq, Option.some.injEq]
      omega
    · exact (Option.some_ne_none _).symm

end Boot

section Runs

variable {k : KernelImage} {s : State}

theorem userPages_before_last {va size v : ℕ} (hv : v ∈ userPages va size) : v < 0xFFFFF000 := by
  simp only [userPages, pageSize, List.mem_map, List.mem_range] at hv
  obtain ⟨i, hi, rfl⟩ := hv
  have hend : u32 (va + size + 4096 - 1) &&& 0xFFFFF000 ≤ 0xFFFFF000 := Nat.and_le_right
  omega

theorem userPages_lt {va size v : ℕ} (hv : v ∈ userPages va size) : v < 2 ^ 32 :=
  (userPages_before_last hv).trans (by norm_num)

theorem mapUserPages_sound (h0 : ¬Pool k.kernelEnd 0) {vs : List ℕ} (hvs : ∀ v ∈ vs, v < 2 ^ 32)
    (h : Sound k s) : Sound k (vs.foldl (mapUserPage k) s) ∧
      Relation.ReflTransGen (fun σ τ => ∃ p, AddressSpace.Granted (· / 1024) p σ τ) (space k s)
        (space k (vs.foldl (mapUserPage k) s)) := by
  induction vs generalizing s with
  | nil => exact ⟨h, Relation.ReflTransGen.refl⟩
  | cons v vs ih =>
    have hout := mapUserPage_outcome h h0 (hvs v List.mem_cons_self)
    obtain ⟨hsound, hrun⟩ := ih (fun w hw => hvs w (List.mem_cons_of_mem v hw)) (hout.sound h)
    rw [List.foldl_cons]
    exact ⟨hsound, Relation.ReflTransGen.head ⟨_, hout.granted⟩ hrun⟩

theorem mapUserPages_other (h0 : ¬Pool k.kernelEnd 0) {vs : List ℕ} (hvs : ∀ v ∈ vs, v < 2 ^ 32)
    (h : Sound k s) {q : ℕ} (hq : ∀ v ∈ vs, v / 4096 ≠ q) :
    userFrame k (vs.foldl (mapUserPage k) s) q = userFrame k s q := by
  induction vs generalizing s with
  | nil => rfl
  | cons v vs ih =>
    have hout := mapUserPage_outcome h h0 (hvs v List.mem_cons_self)
    rw [List.foldl_cons, ih (fun w hw => hvs w (List.mem_cons_of_mem v hw)) (hout.sound h)
      fun w hw => hq w (List.mem_cons_of_mem v hw)]
    exact hout.granted.page_other (hq v List.mem_cons_self).symm

/-- A call refines a sequence of grants. -/
theorem pagingMapUserMemory_sound (h0 : ¬Pool k.kernelEnd 0) (h : Sound k s) (va size : ℕ) :
    Sound k (pagingMapUserMemory k s va size) ∧
      Relation.ReflTransGen (fun σ τ => ∃ p, AddressSpace.Granted (· / 1024) p σ τ) (space k s)
        (space k (pagingMapUserMemory k s va size)) := by
  unfold pagingMapUserMemory
  split
  · exact ⟨h, Relation.ReflTransGen.refl⟩
  · exact mapUserPages_sound h0 (fun v hv => userPages_lt hv) h

/-- Ring 3 writes into a frame of its own, so that no table changes. -/
theorem userStore_space (h : Sound k s) {a p : ℕ} (ha : a < 2 ^ 32) (b : UInt8)
    (hu : UserAccessible k s (a / pageSize)) (ht : translate k s a = some p) :
    space k { s with memory := store8 s.memory p b } = space k s := by
  have hpage : a / pageSize < 2 ^ 20 := by
    norm_num
    omega
  have huser : userFrame k s (a / pageSize) = some (walk k s (a / pageSize) / 4096) :=
    if_pos ⟨hpage, hu.2⟩
  rw [Paging.translate, if_pos hu.2.1, Option.some.injEq] at ht
  rw [← ht, page_mask (walk_lt k s _)]
  have hi : a % pageSize < 4096 := Nat.mod_lt _ (by norm_num)
  refine (sameTables_write (fun g hg => store8_frameKept s.memory b hi hg) ?_ ?_).space_eq
  · intro e
    exact h.isolated.page_not_kept _ _ huser (e ▸ k.directory_kept)
  · intro d
    exact h.isolated.page_not_table _ d _ huser

theorem reservedEndPage_eq {kernelEnd : ℕ} (h : kernelEnd ≤ maxPhysicalMemory) :
    reservedEndPage kernelEnd = (kernelEnd + 4095) / 4096 := by
  norm_num at h
  simp only [reservedEndPage, pageSize]
  rw [u32_of_lt (by omega)]
  omega

/-- The kernel's first frame is never handed out, so that address 0 means failure only. -/
theorem zero_not_pool {kernelEnd : ℕ} (h0 : 0 < kernelEnd) (h : kernelEnd ≤ maxPhysicalMemory) :
    ¬Pool kernelEnd 0 := by
  rw [Pool, reservedEndPage_eq h]
  omega

theorem reachable_sound (h0 : ¬Pool k.kernelEnd 0) (h : Reachable k s) : Sound k s := by
  induction h with
  | init memory => exact pagingInit_sound k memory
  | call va size _ ih => exact (pagingMapUserMemory_sound h0 ih _ _).1
  | store a p b _ hu ht ih => exact Sound.congr ih (userStore_space ih a.toNat_lt b hu ht)

end Runs

end PagingInit
