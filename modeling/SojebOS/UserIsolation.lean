import SojebOS.PagingInit

/-!
# Isolation of user pages

In every reachable state an entry that ring 3 may use points at a frame above the kernel
that holds no page table and that no other such entry points at.
-/
namespace UserIsolation

open ByteMemory Paging PagingWalks PagingRefinement PagingInit

def TableInUse (k : KernelImage) (s : State) (d : ℕ) : Prop :=
  d < 1024 ∧ directoryEntry k s d &&& pagePresent ≠ 0

/-- Entry `i` of the page table in slot `d`. -/
def tableEntry (k : KernelImage) (s : State) (d i : ℕ) : ℕ :=
  load32 s.memory ((directoryEntry k s d &&& 0xFFFFF000) + 4 * i)

structure UserEntry (k : KernelImage) (s : State) (d i : ℕ) : Prop where
  table : TableInUse k s d
  index : i < 1024
  present : tableEntry k s d i &&& pagePresent ≠ 0
  user : tableEntry k s d i &&& pageUser ≠ 0

/-- The frame of entry `i` of the table in slot `d` is the entry's own. -/
structure OwnFrame (k : KernelImage) (s : State) (d i : ℕ) : Prop where
  above_kernel : (k.kernelEnd + 4095) / 4096 ≤ tableEntry k s d i / 4096
  not_table : ∀ d', TableInUse k s d' → directoryEntry k s d' / 4096 ≠ tableEntry k s d i / 4096
  unshared : ∀ d' i', UserEntry k s d' i' →
    tableEntry k s d' i' / 4096 = tableEntry k s d i / 4096 → d' = d ∧ i' = i

section Entries

variable {k : KernelImage} {s : State} {d i : ℕ}

theorem TableInUse.tableFrame (h : TableInUse k s d) :
    tableFrame k s d = some (directoryEntry k s d / 4096) :=
  if_pos h

theorem UserEntry.walk_eq (h : UserEntry k s d i) :
    walk k s (1024 * d + i) = tableEntry k s d i := by
  have hindex := h.index
  have hslot : (1024 * d + i) / 1024 = d := by omega
  have hi : (1024 * d + i) % 1024 = i := by omega
  rw [walk, hslot, hi, if_pos h.table.2]
  rfl

theorem UserEntry.userFrame (h : UserEntry k s d i) :
    userFrame k s (1024 * d + i) = some (tableEntry k s d i / 4096) := by
  have hpage : 1024 * d + i < 2 ^ 20 := by
    have hindex := h.index
    have hslot := h.table.1
    omega
  unfold PagingWalks.userFrame
  rw [h.walk_eq, if_pos ⟨hpage, h.present, h.user⟩]

theorem userEntry_of_walk {page : ℕ} (hpage : page < 2 ^ 20)
    (hp : walk k s page &&& pagePresent ≠ 0) (hu : walk k s page &&& pageUser ≠ 0) :
    UserEntry k s (page / 1024) (page % 1024) := by
  have htable : TableInUse k s (page / 1024) := by
    refine ⟨by omega, fun hnone => hp ?_⟩
    rw [walk, if_neg (not_not.mpr hnone), Nat.zero_and]
  have hwalk : walk k s page = tableEntry k s (page / 1024) (page % 1024) := if_pos htable.2
  exact ⟨htable, Nat.mod_lt _ (by norm_num), hwalk ▸ hp, hwalk ▸ hu⟩

theorem mapUserPage_userEntry (h : Sound k s) (h0 : ¬Pool k.kernelEnd 0) {v f t : ℕ}
    (hv : v < 2 ^ 32) (hfree : f ∉ (space k s).held)
    (hs : tableFrame k s (v / 4096 / 1024) = some t) :
    UserEntry k (mapUserPage k s v) (v / 4096 / 1024) (v / 4096 % 1024) := by
  have hpage : v / 4096 < 2 ^ 20 := by omega
  obtain ⟨g, hmap⟩ := (mapUserPage_outcome h h0 hv).mapped hfree hs
  have hwalk : walk k (mapUserPage k s v) (v / 4096) = 4096 * g + 7 :=
    (hmap.walk_eq _ hpage).trans (if_pos rfl)
  apply userEntry_of_walk hpage
  · rw [hwalk, present_iff]
    omega
  · rw [hwalk, user_iff]
    omega

end Entries

theorem user_entries_own_frames (k : KernelImage) (h0 : 0 < k.kernelEnd)
    (h64 : k.kernelEnd ≤ maxPhysicalMemory) {s : State} (hs : Reachable k s) (d i : ℕ)
    (h : UserEntry k s d i) : OwnFrame k s d i := by
  have hiso := (reachable_sound (zero_not_pool h0 h64) hs).isolated
  constructor
  · have hpool := hiso.page_not_kept _ _ h.userFrame
    have hp : Pool k.kernelEnd (tableEntry k s d i / 4096) := Classical.not_not.mp hpool
    exact reservedEndPage_eq h64 ▸ hp.1
  · intro d' hd' e
    exact hiso.page_not_table _ d' _ h.userFrame (e ▸ hd'.tableFrame)
  · intro d' i' h' e
    have hpage := hiso.page_injective _ _ _ h'.userFrame (e ▸ h.userFrame)
    have hi := h.index
    have hi' := h'.index
    omega

/-- A kernel that ends at 6 MB, its page directory and tables just above 1 MB. -/
def bootImage : KernelImage where
  kernelEnd := 0x600000
  directoryFrame := 0x120
  tablesFrame := 0x121
  directory_lt := by norm_num
  tables_lt := by norm_num
  arrays_apart := by norm_num
  directory_kept := by decide
  tables_kept := by decide

theorem bootImage_userEntry (memory : Bytes) :
    UserEntry bootImage (pagingMapUserMemory bootImage (pagingInit bootImage memory) 0x800000 1)
      2 0 := by
  have hfree : 0x600 ∉ (space bootImage (pagingInit bootImage memory)).held := by
    rw [pagingInit_held]
    decide
  have hpages : userPages 0x800000 1 = [0x800000] := by decide
  have hentry := mapUserPage_userEntry (pagingInit_sound bootImage memory) (by decide)
    (show 0x800000 < 2 ^ 32 by norm_num) hfree (pagingInit_tableFrame bootImage memory 2)
  rw [pagingMapUserMemory, if_neg one_ne_zero, hpages, List.foldl_cons, List.foldl_nil]
  exact hentry

theorem user_entries_own_frames_boot :
    OwnFrame bootImage
      (pagingMapUserMemory bootImage (pagingInit bootImage fun _ => 0) 0x800000 1) 2 0 :=
  user_entries_own_frames bootImage (by decide) (by decide)
    (Reachable.call 0x800000 1 (Reachable.init fun _ => 0)) 2 0 (bootImage_userEntry _)

end UserIsolation
