import Mathlib.Data.Set.Function
import Mathlib.Order.Interval.Set.Basic
import SojebOS.Fat32Files

/-!
# Where the clusters of a volume live

Every cluster in range owns a territory: its four bytes in the FAT and its sectors in the
data area. Territories of different clusters are disjoint, and a FAT update of the driver
is one store into the cell of its cluster.
-/
namespace Fat32Layout

open ByteMemory MachineWord Fat32Disk Fat32Files

/-- The FAT and the data area do not meet, and sector numbers fit in 32 bits. The FAT has
one entry for each data cluster, the two reserved ones before them. -/
structure Geometry (fs : Fat32) : Prop where
  sectorSize : fs.bytesPerSector = 512
  perCluster_pos : 1 ≤ fs.sectorsPerCluster
  perCluster_le : fs.sectorsPerCluster ≤ 128
  areas : fs.reservedSectorCount + fs.fatSize ≤ fs.firstDataSector
  clusters : 128 * fs.fatSize ≤ 0x0FFFFFF8
  sectors : fs.firstDataSector + (128 * fs.fatSize - 2) * fs.sectorsPerCluster ≤ 2 ^ 32

instance (fs : Fat32) : Decidable (Geometry fs) :=
  decidable_of_iff (fs.bytesPerSector = 512 ∧ 1 ≤ fs.sectorsPerCluster ∧
      fs.sectorsPerCluster ≤ 128 ∧
      fs.reservedSectorCount + fs.fatSize ≤ fs.firstDataSector ∧
      128 * fs.fatSize ≤ 0x0FFFFFF8 ∧
      fs.firstDataSector + (128 * fs.fatSize - 2) * fs.sectorsPerCluster ≤ 2 ^ 32)
    ⟨fun ⟨a, b, c, d, e, f⟩ => ⟨a, b, c, d, e, f⟩, fun ⟨a, b, c, d, e, f⟩ => ⟨a, b, c, d, e, f⟩⟩

def InRange (fs : Fat32) (c : ℕ) : Prop := 2 ≤ c ∧ c < 128 * fs.fatSize

theorem InRange.lt_word {fs : Fat32} {c : ℕ} (h : InRange fs c) (hg : Geometry fs) :
    c < 2 ^ 32 := by
  have h1 := hg.clusters
  have h2 := h.2
  omega

def cellAddr (fs : Fat32) (c : ℕ) : ℕ := 512 * fs.reservedSectorCount + 4 * c

def clusterAddr (fs : Fat32) (c : ℕ) : ℕ :=
  512 * (fs.firstDataSector + (c - 2) * fs.sectorsPerCluster)

def cell (fs : Fat32) (c : ℕ) : Set ℕ := Set.Ico (cellAddr fs c) (cellAddr fs c + 4)

def dataArea (fs : Fat32) (c : ℕ) : Set ℕ :=
  Set.Ico (clusterAddr fs c) (clusterAddr fs c + bytesPerCluster fs)

def territory (fs : Fat32) (c : ℕ) : Set ℕ := cell fs c ∪ dataArea fs c

def territories (fs : Fat32) (l : List ℕ) : Set ℕ := {x | ∃ c ∈ l, x ∈ territory fs c}

section Territories

variable {fs : Fat32} {c c' x : ℕ}

theorem Geometry.fatSector_lt (hg : Geometry fs) {i : ℕ} (hi : i < fs.fatSize) :
    fs.reservedSectorCount + i < 2 ^ 32 := by
  have h1 := hg.areas
  have h2 := hg.sectors
  have h3 : 1 ≤ (128 * fs.fatSize - 2) * fs.sectorsPerCluster :=
    Nat.mul_pos (by omega) hg.perCluster_pos
  omega

theorem clusterAddr_step (fs : Fat32) (h : 2 ≤ c) (hc : c < c') :
    clusterAddr fs c + bytesPerCluster fs ≤ clusterAddr fs c' := by
  obtain ⟨k, rfl⟩ : ∃ k, c' = c + 1 + k := ⟨c' - (c + 1), by omega⟩
  have he : c + 1 + k - 2 = (c - 2) + 1 + k := by omega
  simp only [clusterAddr, bytesPerCluster, he, add_mul, one_mul, mul_add]
  omega

theorem cell_before_data (c' : ℕ) (hg : Geometry fs) (hc : c < 128 * fs.fatSize) :
    cellAddr fs c + 4 ≤ clusterAddr fs c' := by
  have := hg.areas
  simp only [cellAddr, clusterAddr, mul_add]
  omega

theorem territory_disjoint (hg : Geometry fs) (hc : InRange fs c) (hc' : InRange fs c')
    (hne : c ≠ c') (hx : x ∈ territory fs c) : x ∉ territory fs c' := by
  have h1 := cell_before_data c' hg hc.2
  have h2 := cell_before_data c hg hc'.2
  simp only [territory, cell, dataArea, Set.mem_union, Set.mem_Ico] at hx ⊢
  rcases Nat.lt_or_gt_of_ne hne with h | h
  · have h3 := clusterAddr_step fs hc.1 h
    have h4 : cellAddr fs c + 4 ≤ cellAddr fs c' := by simp only [cellAddr]; omega
    omega
  · have h3 := clusterAddr_step fs hc'.1 h
    have h4 : cellAddr fs c' + 4 ≤ cellAddr fs c := by simp only [cellAddr]; omega
    omega

theorem clusterToSector_eq (hg : Geometry fs) (hc : InRange fs c) :
    clusterToSector fs c = fs.firstDataSector + (c - 2) * fs.sectorsPerCluster ∧
      fs.firstDataSector + (c - 2) * fs.sectorsPerCluster + fs.sectorsPerCluster ≤
        2 ^ 32 := by
  obtain ⟨h2, hlt⟩ := hc
  have hs := hg.sectors
  have hle : (c - 2) * fs.sectorsPerCluster + fs.sectorsPerCluster ≤
      (128 * fs.fatSize - 2) * fs.sectorsPerCluster := by
    rw [← Nat.succ_mul]
    exact Nat.mul_le_mul_right _ (by omega)
  have hpos := hg.perCluster_pos
  have hc32 := hg.clusters
  refine ⟨?_, by omega⟩
  have hp : (c - 2) * fs.sectorsPerCluster < 2 ^ 32 := by omega
  rw [clusterToSector, sub32_of_le h2 (by omega), u32_of_lt hp, u32_of_lt (by omega),
    Nat.add_comm]

theorem sector_addr (hg : Geometry fs) (hc : InRange fs c) {s : ℕ}
    (hs : s < fs.sectorsPerCluster) :
    512 * u32 (clusterToSector fs c + s) = clusterAddr fs c + 512 * s := by
  obtain ⟨he, hle⟩ := clusterToSector_eq hg hc
  rw [he, u32_of_lt (by omega), clusterAddr]
  omega

end Territories

section Sectors

variable {d : Bytes} {s o v x : ℕ}

theorem diskRead_apply (d : Bytes) (s o : ℕ) : diskRead d s o = d (512 * s + o) := rfl

theorem load32_diskRead (d : Bytes) (s o : ℕ) :
    load32 (diskRead d s) o = load32 d (512 * s + o) := load32_window _ _ _

theorem diskWrite_outside {b : Bytes} (h : x < 512 * s ∨ 512 * s + 512 ≤ x) :
    diskWrite d s b x = d x := copyIn_outside h

theorem diskWrite_inside {b : Bytes} (h : o < 512) :
    diskWrite d s b (512 * s + o) = b o := by
  rw [diskWrite, copyIn_inside (by omega), Nat.add_sub_cancel_left]

theorem diskWrite_window {m : Bytes}
    (hout : ∀ x, x < 512 * s ∨ 512 * s + 512 ≤ x → m x = d x) :
    diskWrite d s (window m (512 * s)) = m := by
  funext x
  by_cases hx : 512 * s ≤ x ∧ x < 512 * s + 512
  · obtain ⟨o, rfl⟩ := Nat.exists_eq_add_of_le hx.1
    rw [diskWrite_inside (by omega)]
    rfl
  · rw [diskWrite_outside (by omega), hout x (by omega)]

theorem diskWrite_store32 (ho : o + 4 ≤ 512) :
    diskWrite d s (store32 (diskRead d s) o v) = store32 d (512 * s + o) v := by
  rw [diskRead, store32_window]
  apply diskWrite_window
  intro x hx
  exact store32_outside (by omega)

end Sectors

section Cells

variable {fs : Fat32} {d d' : Bytes} {c c' v x : ℕ}

/-- Where the link of a cluster is, also when the sector number wraps. -/
def linkAddr (fs : Fat32) (c : ℕ) : ℕ :=
  512 * u32 (fs.reservedSectorCount + c / 128) + 4 * (c % 128)

theorem nextCluster_linkAddr (hc : c < 2 ^ 30) :
    fat32NextCluster fs d c = load32 d (linkAddr fs c) % 2 ^ 28 := by
  have hsector : c * 4 / 512 = c / 128 := by omega
  have hoffset : c * 4 % 512 = 4 * (c % 128) := by omega
  simp only [fat32NextCluster, load32_diskRead]
  rw [show (0x0FFFFFFF : ℕ) = 2 ^ 28 - 1 from rfl, and_low_mask,
    u32_of_lt (show c * 4 < 2 ^ 32 by omega), hsector, hoffset, linkAddr]

theorem setNextCluster_linkAddr (hc : c < 2 ^ 30) :
    fat32SetNextCluster fs d c v = store32 d (linkAddr fs c)
      (load32 d (linkAddr fs c) / 2 ^ 28 * 2 ^ 28 + v % 2 ^ 28) := by
  have hsector : c * 4 / 512 = c / 128 := by omega
  have hoffset : c * 4 % 512 = 4 * (c % 128) := by omega
  simp only [fat32SetNextCluster]
  rw [u32_of_lt (show c * 4 < 2 ^ 32 by omega), hsector, hoffset, diskWrite_store32 (by omega),
    load32_diskRead, ← linkAddr]
  congr 1
  rw [show (0x0FFFFFFF : ℕ) = 2 ^ 28 - 1 from rfl, and_low_mask,
    show (0xF0000000 : ℕ) = 2 ^ 32 - 2 ^ 28 by norm_num,
    and_high_mask (load32_lt d _) (by norm_num), Nat.lor_comm,
    or_eq_add (Nat.mod_lt _ (by norm_num))]

theorem nextCluster_setNextCluster_self (hc : c < 2 ^ 30) (hv : v < 2 ^ 28) :
    fat32NextCluster fs (fat32SetNextCluster fs d c v) c = v := by
  have hl := load32_lt d (linkAddr fs c)
  rw [nextCluster_linkAddr hc, setNextCluster_linkAddr hc, load32_store32 (by omega)]
  omega

theorem linkAddr_apart (hc : c < 2 ^ 30) (hc' : c' < 2 ^ 30) (hne : c' ≠ c) :
    linkAddr fs c' + 4 ≤ linkAddr fs c ∨ linkAddr fs c + 4 ≤ linkAddr fs c' := by
  simp only [linkAddr, u32]
  omega

theorem nextCluster_setNextCluster_other (hc : c < 2 ^ 30) (hc' : c' < 2 ^ 30) (hne : c' ≠ c) :
    fat32NextCluster fs (fat32SetNextCluster fs d c v) c' = fat32NextCluster fs d c' := by
  rw [nextCluster_linkAddr hc', nextCluster_linkAddr hc', setNextCluster_linkAddr hc,
    load32_store32_apart (linkAddr_apart hc hc' hne)]

theorem linkAddr_eq (hg : Geometry fs) (hc : c < 128 * fs.fatSize) :
    linkAddr fs c = cellAddr fs c := by
  rw [linkAddr, cellAddr, u32_of_lt (hg.fatSector_lt (by omega))]
  omega

theorem Geometry.link_lt (hg : Geometry fs) (hc : c < 128 * fs.fatSize) : c < 2 ^ 30 := by
  have hclusters := hg.clusters
  omega

theorem nextCluster_eq (hg : Geometry fs) (hc : c < 128 * fs.fatSize) :
    fat32NextCluster fs d c = load32 d (cellAddr fs c) % 2 ^ 28 := by
  rw [nextCluster_linkAddr (hg.link_lt hc), linkAddr_eq hg hc]

theorem nextCluster_congr (hg : Geometry fs) (hc : c < 128 * fs.fatSize)
    (h : Set.EqOn d' d (cell fs c)) : fat32NextCluster fs d' c = fat32NextCluster fs d c := by
  rw [nextCluster_eq hg hc, nextCluster_eq hg hc]
  congr 1
  exact load32_congr fun x h1 h2 => h ⟨h1, h2⟩

theorem setNextCluster_eq (hg : Geometry fs) (hc : c < 128 * fs.fatSize) :
    fat32SetNextCluster fs d c v = store32 d (cellAddr fs c)
      (load32 d (cellAddr fs c) / 2 ^ 28 * 2 ^ 28 + v % 2 ^ 28) := by
  rw [setNextCluster_linkAddr (hg.link_lt hc), linkAddr_eq hg hc]

theorem setNextCluster_outside (hg : Geometry fs) (hc : c < 128 * fs.fatSize)
    (hx : x ∉ cell fs c) : fat32SetNextCluster fs d c v x = d x := by
  rw [setNextCluster_eq hg hc]
  apply store32_outside
  simp only [cell, Set.mem_Ico] at hx
  omega

theorem nextCluster_setNextCluster (hg : Geometry fs) (hc : c < 128 * fs.fatSize)
    (hv : v < 2 ^ 28) : fat32NextCluster fs (fat32SetNextCluster fs d c v) c = v :=
  nextCluster_setNextCluster_self (hg.link_lt hc) hv

theorem cell_disjoint (hne : c ≠ c') (hx : x ∈ cell fs c) : x ∉ cell fs c' := by
  simp only [cell, cellAddr, Set.mem_Ico] at hx ⊢
  omega

theorem nextCluster_setNextCluster_ne (hg : Geometry fs) (hc : c < 128 * fs.fatSize)
    (hc' : c' < 128 * fs.fatSize) (hne : c' ≠ c) :
    fat32NextCluster fs (fat32SetNextCluster fs d c v) c' = fat32NextCluster fs d c' :=
  nextCluster_setNextCluster_other (hg.link_lt hc) (hg.link_lt hc') hne

def SameHigh (fs : Fat32) (d d' : Bytes) : Prop :=
  ∀ c < 128 * fs.fatSize, load32 d' (cellAddr fs c) / 2 ^ 28 = load32 d (cellAddr fs c) / 2 ^ 28

theorem SameHigh.trans {d'' : Bytes} (h : SameHigh fs d d') (h' : SameHigh fs d' d'') :
    SameHigh fs d d'' := fun c hc => (h' c hc).trans (h c hc)

theorem sameHigh_of_cells (h : ∀ c < 128 * fs.fatSize, Set.EqOn d' d (cell fs c)) :
    SameHigh fs d d' := by
  intro c hc
  rw [load32_congr fun x h1 h2 => h c hc ⟨h1, h2⟩]

theorem cells_of_data (hg : Geometry fs) {c₀ : ℕ} (h : ∀ x, x ∉ dataArea fs c₀ → d' x = d x) :
    ∀ c < 128 * fs.fatSize, Set.EqOn d' d (cell fs c) := by
  intro c hc x hx
  apply h
  have := cell_before_data c₀ hg hc
  simp only [cell, dataArea, Set.mem_Ico] at hx ⊢
  omega

theorem setNextCluster_sameHigh (hg : Geometry fs) (hc : c < 128 * fs.fatSize) :
    SameHigh fs d (fat32SetNextCluster fs d c v) := by
  intro c' _
  have hl := load32_lt d (cellAddr fs c)
  rw [setNextCluster_eq hg hc]
  by_cases hne : c' = c
  · rw [hne, load32_store32 (by omega)]
    omega
  · rw [load32_store32_apart]
    simp only [cellAddr]
    omega

theorem fatEntry_ext (hg : Geometry fs) (hc : c < 128 * fs.fatSize) (h : SameHigh fs d d')
    (hn : fat32NextCluster fs d' c = fat32NextCluster fs d c) :
    load32 d' (cellAddr fs c) = load32 d (cellAddr fs c) := by
  rw [nextCluster_eq hg hc, nextCluster_eq hg hc] at hn
  have := h c hc
  omega

end Cells

section FreeClusters

variable {fs : Fat32} {d : Bytes} {c : ℕ}

def Free (fs : Fat32) (d : Bytes) (c : ℕ) : Prop :=
  InRange fs c ∧ fat32NextCluster fs d c = 0

/-- The scan reads entry `j` of FAT sector `i` as the link of cluster `128 * i + j`. -/
theorem fatEntry_eq (hg : Geometry fs) {i j : ℕ} (hi : i < fs.fatSize) (hj : j < 128) :
    load32 (diskRead d (u32 (fs.reservedSectorCount + i))) (4 * j) &&& 0x0FFFFFFF =
      fat32NextCluster fs d (128 * i + j) := by
  rw [nextCluster_eq hg (by omega), load32_diskRead, u32_of_lt (hg.fatSector_lt hi),
    show (0x0FFFFFFF : ℕ) = 2 ^ 28 - 1 from rfl, and_low_mask]
  congr 2
  simp only [cellAddr]
  omega

theorem findFreeCluster_spec (hg : Geometry fs) :
    (fat32FindFreeCluster fs d = 0x0FFFFFFF ∧ ∀ c, ¬ Free fs d c) ∨
      Free fs d (fat32FindFreeCluster fs d) := by
  have hcl := hg.clusters
  unfold fat32FindFreeCluster
  simp only
  cases hf : (List.range fs.fatSize).findSome? _ with
  | none =>
    refine .inl ⟨rfl, fun c ⟨⟨h2, hlt⟩, h0⟩ => ?_⟩
    have hi := List.findSome?_eq_none_iff.mp hf (c / 128) (List.mem_range.mpr (by omega))
    have hj := List.findSome?_eq_none_iff.mp hi (c % 128) (List.mem_range.mpr (by omega))
    rw [fatEntry_eq hg (by omega) (by omega), Nat.div_add_mod c 128] at hj
    rw [if_neg (by omega), if_pos h0] at hj
    cases hj
  | some r =>
    refine .inr ?_
    obtain ⟨i, hi, hs⟩ := List.exists_of_findSome?_eq_some hf
    obtain ⟨j, hj, hs⟩ := List.exists_of_findSome?_eq_some hs
    have hi := List.mem_range.mp hi
    have hj := List.mem_range.mp hj
    by_cases hr : i = 0 ∧ j < 2
    · simp [hr] at hs
    rw [if_neg hr, fatEntry_eq hg hi hj] at hs
    by_cases h0 : fat32NextCluster fs d (128 * i + j) = 0
    · rw [if_pos h0, u32_of_lt (by omega)] at hs
      obtain rfl : i * 128 + j = r := Option.some.inj hs
      rw [Option.getD_some, Nat.mul_comm i 128]
      exact ⟨⟨by omega, by omega⟩, h0⟩
    · rw [if_neg h0] at hs
      cases hs

theorem Free.ne_full (hg : Geometry fs) (h : Free fs d c) : c ≠ 0x0FFFFFFF := by
  have := hg.clusters
  have := h.1.2
  omega

end FreeClusters

end Fat32Layout
