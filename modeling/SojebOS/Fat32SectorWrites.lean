import SojebOS.Fat32Growth

/-!
# The sectors that a call writes

The sectors of the `disk_write` calls of `fat32_write_file` and `fat32_create_directory`, in
their order. Bytes of other sectors stay as they are, whatever the volume looks like.
-/
namespace Fat32SectorWrites

open ByteMemory MachineWord WhileLoop LinkedChain
open Fat32Disk Fat32Directory Fat32Files Fat32Tree Fat32Layout Fat32Allocation Fat32Growth

def linkSector (fs : Fat32) (cluster : ℕ) : ℕ :=
  u32 (fs.reservedSectorCount + u32 (cluster * 4) / 512)

/-- The sectors of the `i`-th cluster of the data, as far as the data goes. -/
def dataSectors (fs : Fat32) (size i cluster : ℕ) : List ℕ :=
  ((List.range fs.sectorsPerCluster).filter fun s =>
    u32 (u32 (i * bytesPerCluster fs) + s * 512) < size).map fun s =>
      u32 (clusterToSector fs cluster + s)

/-- A round links the cluster before to the new one, marks it as the end, and fills it. -/
def roundSectors (fs : Fat32) (size i prevCluster currentCluster : ℕ) : List ℕ :=
  (if i = 0 then [] else [linkSector fs prevCluster]) ++
    linkSector fs currentCluster :: dataSectors fs size i currentCluster

/-- What the allocation loop writes from its `i`-th round on. -/
def allocationSectors (fs : Fat32) (data : Bytes) (size : ℕ) :
    (rounds i : ℕ) → (d : Bytes) → (prevCluster : ℕ) → List ℕ
  | 0, _, _, _ => []
  | rounds + 1, i, d, prevCluster =>
    let currentCluster := fat32FindFreeCluster fs d
    if currentCluster = 0x0FFFFFFF then []
    else
      roundSectors fs size i prevCluster currentCluster ++
        allocationSectors fs data size rounds (i + 1)
          (takeCluster fs data size i d prevCluster currentCluster) currentCluster

def slotSector (hit : Option (Option (ℕ × ℕ))) : List ℕ := (hit.join.map Prod.fst).toList

def writeFileSectors (fs : Fat32) (d : Bytes) (currentDirCluster : ℕ) (data : Bytes)
    (size : ℕ) : List ℕ :=
  allocationSectors fs data size (clustersNeeded fs size) 0 d 0 ++
    match allocateClusters fs data size (clustersNeeded fs size) 0 d 0 0 with
    | (_, none) => []
    | (d, some _) => slotSector (walkDirectory fs d currentDirCluster (freeSlotVisit d))

def directorySectors (fs : Fat32) (cluster : ℕ) : List ℕ :=
  clusterToSector fs cluster :: (List.range' 1 (fs.sectorsPerCluster - 1)).map fun s =>
    u32 (clusterToSector fs cluster + s)

def createDirectorySectors (fs : Fat32) (d : Bytes) (currentDirCluster : ℕ)
    (dirname : List UInt8) : List ℕ :=
  match fat32FindFile fs d currentDirCluster dirname with
  | some none =>
    let newCluster := fat32FindFreeCluster fs d
    if newCluster = 0x0FFFFFFF then []
    else
      linkSector fs newCluster :: directorySectors fs newCluster ++
        slotSector (findParentSlot fs (newDirectory fs d newCluster currentDirCluster)
          currentDirCluster)
  | _ => []

section Frames

variable {fs : Fat32} {d d' data buffer : Bytes} {size i c prev cwd s x v : ℕ}
variable {name : List UInt8}

theorem diskWrite_unchanged (hx : x / 512 ≠ s) : diskWrite d s buffer x = d x :=
  diskWrite_outside (by omega)

theorem setNextCluster_unchanged (hx : x / 512 ≠ linkSector fs c) :
    fat32SetNextCluster fs d c v x = d x := diskWrite_unchanged hx

theorem foldl_unchanged {f : Bytes → ℕ → Bytes} {l : List ℕ}
    (h : ∀ s ∈ l, ∀ d : Bytes, f d s x = d x) (d : Bytes) : l.foldl f d x = d x := by
  induction l generalizing d with
  | nil => rfl
  | cons s l ih =>
    rw [List.foldl_cons, ih fun t ht => h t (List.mem_cons_of_mem s ht)]
    exact h s List.mem_cons_self d

theorem writeCluster_unchanged (hx : x / 512 ∉ dataSectors fs size i c) :
    writeCluster fs data size i c d x = d x := by
  refine foldl_unchanged (fun s hs d => ?_) d
  unfold writeSector
  simp only
  by_cases hlt : u32 (u32 (i * bytesPerCluster fs) + s * 512) < size
  · have hne : x / 512 ≠ u32 (clusterToSector fs c + s) := by
      intro he
      apply hx
      rw [he, dataSectors, List.mem_map]
      exact ⟨s, List.mem_filter.mpr ⟨hs, decide_eq_true hlt⟩, rfl⟩
    split_ifs
    · exact diskWrite_unchanged hne
    · exact diskWrite_unchanged hne
  · rw [if_neg hlt]

theorem takeCluster_unchanged (hx : x / 512 ∉ roundSectors fs size i prev c) :
    takeCluster fs data size i d prev c x = d x := by
  simp only [roundSectors, List.mem_append, List.mem_cons, not_or] at hx
  obtain ⟨hprev, hc, hdata⟩ := hx
  have hprev : i ≠ 0 → x / 512 ≠ linkSector fs prev := fun h0 => by simpa [h0] using hprev
  unfold takeCluster
  rw [writeCluster_unchanged hdata, setNextCluster_unchanged hc]
  split_ifs with h0
  · rfl
  · exact setNextCluster_unchanged (hprev h0)

theorem allocation_unchanged (rounds i : ℕ) (d : Bytes) (prev first : ℕ)
    (hx : x / 512 ∉ allocationSectors fs data size rounds i d prev) :
    (allocateClusters fs data size rounds i d prev first).1 x = d x := by
  induction rounds generalizing i d prev first with
  | zero => rfl
  | succ rounds ih =>
    simp only [allocationSectors] at hx
    simp only [allocateClusters]
    by_cases hfull : fat32FindFreeCluster fs d = 0x0FFFFFFF
    · rw [if_pos hfull]
    · simp only [hfull, ↓reduceIte, List.mem_append, not_or] at hx ⊢
      exact (ih _ _ _ _ hx.2).trans (takeCluster_unchanged hx.1)

theorem storeEntry_unchanged {slot : ℕ × ℕ} {attr : UInt8} {first : ℕ}
    (hx : x / 512 ∉ slotSector (some (some slot))) :
    storeEntry d slot name attr first size x = d x :=
  diskWrite_unchanged fun he => hx (by rw [he]; exact List.mem_singleton.mpr rfl)

theorem writeFile_unchanged {exit : WriteExit}
    (hrun : fat32WriteFile fs d cwd name data size = some (d', exit))
    (hx : x / 512 ∉ writeFileSectors fs d cwd data size) : d' x = d x := by
  rw [writeFileSectors, List.mem_append, not_or] at hx
  obtain ⟨halloc, hslot⟩ := hx
  have hkept := allocation_unchanged _ _ _ _ 0 halloc
  rw [fat32WriteFile] at hrun
  cases ha : allocateClusters fs data size (clustersNeeded fs size) 0 d 0 0 with
  | mk d₁ first =>
    rw [ha] at hkept hrun hslot
    cases first with
    | none =>
      cases hrun
      exact hkept
    | some first =>
      obtain ⟨hit, hwalk, he⟩ := Option.map_eq_some_iff.mp hrun
      simp only [hwalk] at hslot
      cases hit with
      | none =>
        cases he
        exact hkept
      | some slot =>
        cases he
        exact (storeEntry_unchanged hslot).trans hkept

theorem newDirectory_unchanged {parent : ℕ} (hlink : x / 512 ≠ linkSector fs c)
    (hdata : x / 512 ∉ directorySectors fs c) : newDirectory fs d c parent x = d x := by
  rw [directorySectors, List.mem_cons, not_or] at hdata
  have hzero : initDirectoryCluster fs (fat32SetNextCluster fs d c 0x0FFFFFFF) c parent x =
      diskWrite (fat32SetNextCluster fs d c 0x0FFFFFFF) (clusterToSector fs c)
        (dotEntries fs c parent) x := by
    refine foldl_unchanged (fun s hs d => diskWrite_unchanged fun he => hdata.2 ?_) _
    rw [he]
    exact List.mem_map.mpr ⟨s, hs, rfl⟩
  rw [newDirectory, hzero, diskWrite_unchanged hdata.1, setNextCluster_unchanged hlink]

theorem createDirectory_unchanged {reply : Option Reply}
    (hrun : fat32CreateDirectory fs d cwd name = some (d', reply))
    (hx : x / 512 ∉ createDirectorySectors fs d cwd name) : d' x = d x := by
  unfold fat32CreateDirectory at hrun
  unfold createDirectorySectors at hx
  obtain ⟨found, hfind, hrun⟩ := Option.bind_eq_some_iff.mp hrun
  rw [hfind] at hx
  cases found with
  | some e =>
    cases hrun
    rfl
  | none =>
    by_cases hfull : fat32FindFreeCluster fs d = 0x0FFFFFFF
    · simp only [Option.isSome_none, Bool.false_eq_true, hfull, ↓reduceIte] at hrun
      cases hrun
      rfl
    · simp only [Option.isSome_none, Bool.false_eq_true, hfull, ↓reduceIte, List.mem_append,
        List.cons_append, List.mem_cons, not_or] at hrun hx
      obtain ⟨hit, hwalk, hrun⟩ := Option.bind_eq_some_iff.mp hrun
      have hnew : newDirectory fs d (fat32FindFreeCluster fs d) cwd x = d x :=
        newDirectory_unchanged hx.1 hx.2.1
      cases hit with
      | none =>
        cases hrun
        exact hnew
      | some slot =>
        cases hrun
        have hslot := hx.2.2
        rw [newDirectory, hwalk] at hslot
        exact (storeEntry_unchanged hslot).trans hnew

end Frames

end Fat32SectorWrites
