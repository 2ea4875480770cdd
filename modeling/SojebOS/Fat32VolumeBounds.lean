import Mathlib.Data.Finset.Card
import Mathlib.Order.Interval.Finset.Nat
import SojebOS.Fat32SectorWrites
import SojebOS.Fat32FileSizes

/-!
# Writes past the end of the volume

The scan for a free cluster goes through the whole FAT, and nothing compares a cluster with
the size of the volume. When no data cluster is free, the first entry of the FAT behind them
is taken: its cluster begins where the last whole cluster of the volume ends.
-/
namespace Fat32VolumeBounds

open ByteMemory MachineWord WhileLoop LinkedChain
open Fat32Disk Fat32Directory Fat32Files Fat32Tree Fat32Layout Fat32Volume
open Fat32Allocation Fat32Growth Fat32FileSizes Fat32SectorWrites

abbrev bootVolume (boot : Bytes) : Fat32 := (fat32Init boot).1

/-- The number of sectors of the volume that the boot sector gives (`TotSec32`). -/
def totalSectors (boot : Bytes) : ℕ := load32 (diskRead boot 0) 32

def dataClusters (fs : Fat32) (total : ℕ) : ℕ :=
  (total - fs.firstDataSector) / fs.sectorsPerCluster

/-- The boot sector of a FAT32 volume: its areas fit, its FAT has an entry for each cluster, and
the clusters can be told from the end marks. -/
structure ValidBoot (boot : Bytes) : Prop where
  perCluster_pos : 1 ≤ (bootVolume boot).sectorsPerCluster
  fats_pos : 1 ≤ (bootVolume boot).numFats
  areas : (bootVolume boot).reservedSectorCount +
    (bootVolume boot).numFats * (bootVolume boot).fatSize ≤ totalSectors boot
  entries : dataClusters (bootVolume boot) (totalSectors boot) + 2 ≤
    128 * (bootVolume boot).fatSize
  clusters : dataClusters (bootVolume boot) (totalSectors boot) ≤ 0x0FFFFFF5

structure Bounded (fs : Fat32) (total : ℕ) : Prop where
  total_lt : total < 2 ^ 32
  perCluster_pos : 1 ≤ fs.sectorsPerCluster
  perCluster_le : fs.sectorsPerCluster ≤ 255
  areas : fs.reservedSectorCount + fs.fatSize ≤ fs.firstDataSector
  data : fs.firstDataSector ≤ total
  entries : dataClusters fs total + 2 ≤ 128 * fs.fatSize
  clusters : dataClusters fs total ≤ 0x0FFFFFF5

/-- The FAT has entries behind those of the data clusters. -/
def Surplus (fs : Fat32) (total : ℕ) : Prop := dataClusters fs total + 2 < 128 * fs.fatSize

instance (fs : Fat32) (total : ℕ) : Decidable (Surplus fs total) :=
  inferInstanceAs (Decidable (dataClusters fs total + 2 < 128 * fs.fatSize))

def fatLink (fs : Fat32) (d : Bytes) (c : ℕ) : ℕ := load32 d (cellAddr fs c) % 2 ^ 28

def SurplusZero (fs : Fat32) (total : ℕ) (d : Bytes) : Prop :=
  ∀ c, dataClusters fs total + 2 ≤ c → c < 128 * fs.fatSize → fatLink fs d c = 0

def DataCluster (fs : Fat32) (total c : ℕ) : Prop := 2 ≤ c ∧ c < dataClusters fs total + 2

def freeData (fs : Fat32) (total : ℕ) (d : Bytes) : Finset ℕ :=
  (Finset.Ico 2 (dataClusters fs total + 2)).filter fun c => fatLink fs d c = 0

def ClusterInside (fs : Fat32) (total c : ℕ) : Prop :=
  ∀ s < fs.sectorsPerCluster, u32 (clusterToSector fs c + s) < total

def DirectoryInside (fs : Fat32) (total : ℕ) (d : Bytes) (a : ℕ) : Prop :=
  ∃ l, Linked (fat32NextCluster fs d) endOfChain a l ∧ ∀ c ∈ l, DataCluster fs total c

def tailSectors (fs : Fat32) (total : ℕ) : ℕ :=
  (total - fs.firstDataSector) % fs.sectorsPerCluster

section Layout

variable {fs : Fat32} {boot : Bytes} {total c s : ℕ}

theorem ValidBoot.bounded (h : ValidBoot boot) :
    Bounded (bootVolume boot) (totalSectors boot) := by
  have htotal : totalSectors boot < 2 ^ 32 := load32_lt _ _
  have hareas := h.areas
  have hfirst : (bootVolume boot).firstDataSector = (bootVolume boot).reservedSectorCount +
      (bootVolume boot).numFats * (bootVolume boot).fatSize := by
    simp only [bootVolume, fat32Init] at hareas ⊢
    rw [u32_of_lt (n := _ * _) (by omega), u32_of_lt (by omega)]
  have hfats : (bootVolume boot).fatSize ≤
      (bootVolume boot).numFats * (bootVolume boot).fatSize :=
    Nat.le_mul_of_pos_left _ h.fats_pos
  refine ⟨htotal, h.perCluster_pos, ?_, by omega, by omega, h.entries, h.clusters⟩
  have := (diskRead boot 0 13).toNat_lt
  simp only [bootVolume, fat32Init]
  omega

theorem Bounded.split (h : Bounded fs total) :
    fs.firstDataSector + dataClusters fs total * fs.sectorsPerCluster + tailSectors fs total =
      total ∧ tailSectors fs total < fs.sectorsPerCluster := by
  have hdiv := Nat.div_add_mod' (total - fs.firstDataSector) fs.sectorsPerCluster
  have hmod := Nat.mod_lt (total - fs.firstDataSector) h.perCluster_pos
  have hdata := h.data
  simp only [dataClusters, tailSectors]
  omega

theorem Bounded.bytes (h : Bounded fs total) :
    0 < bytesPerCluster fs ∧ bytesPerCluster fs ≤ 2 ^ 32 := by
  have h1 := h.perCluster_pos
  have h2 := h.perCluster_le
  simp only [bytesPerCluster]
  omega

theorem clusterToSector_bounded (h : Bounded fs total) (h2 : 2 ≤ c)
    (hc : c ≤ dataClusters fs total + 2) :
    clusterToSector fs c = fs.firstDataSector + (c - 2) * fs.sectorsPerCluster ∧
      fs.firstDataSector + (c - 2) * fs.sectorsPerCluster ≤ total := by
  have hsplit := h.split.1
  have htotal := h.total_lt
  have hclusters := h.clusters
  have hle : (c - 2) * fs.sectorsPerCluster ≤ dataClusters fs total * fs.sectorsPerCluster :=
    Nat.mul_le_mul_right _ (by omega)
  refine ⟨?_, by omega⟩
  rw [clusterToSector, sub32_of_le h2 (by omega),
    u32_of_lt (show (c - 2) * fs.sectorsPerCluster < 2 ^ 32 by omega), u32_of_lt (by omega),
    Nat.add_comm]

theorem DataCluster.sector (h : Bounded fs total) (hc : DataCluster fs total c)
    (hs : s < fs.sectorsPerCluster) :
    fs.firstDataSector ≤ u32 (clusterToSector fs c + s) ∧
      u32 (clusterToSector fs c + s) < total := by
  have hsplit := h.split.1
  have htotal := h.total_lt
  have hle : (c - 2) * fs.sectorsPerCluster + fs.sectorsPerCluster ≤
      dataClusters fs total * fs.sectorsPerCluster := by
    rw [← Nat.succ_mul]
    exact Nat.mul_le_mul_right _ (by have := hc.1; have := hc.2; omega)
  rw [(clusterToSector_bounded h hc.1 hc.2.le).1, u32_of_lt (by omega)]
  omega

theorem surplus_sector (h : Bounded fs total) (hs : s ≤ tailSectors fs total) :
    u32 (clusterToSector fs (dataClusters fs total + 2) + s) + tailSectors fs total =
      total + s := by
  have hsplit := h.split.1
  have htotal := h.total_lt
  rw [(clusterToSector_bounded h (by omega) le_rfl).1, Nat.add_sub_cancel, u32_of_lt (by omega)]
  omega

theorem DataCluster.inside (h : Bounded fs total) (hc : DataCluster fs total c) :
    ClusterInside fs total c := fun _ hs => (hc.sector h hs).2

theorem surplus_outside (h : Bounded fs total) :
    ¬ ClusterInside fs total (dataClusters fs total + 2) := by
  intro hin
  have hlt := hin _ h.split.2
  have heq := surplus_sector h (le_refl (tailSectors fs total))
  omega

theorem linkSector_bounded (h : Bounded fs total) (hc : c ≤ dataClusters fs total + 2)
    (hlt : c < 128 * fs.fatSize) :
    linkSector fs c = fs.reservedSectorCount + c / 128 ∧ linkSector fs c < total := by
  have hclusters := h.clusters
  have htotal := h.total_lt
  have hareas := h.areas
  have hdata := h.data
  rw [linkSector, u32_of_lt (show c * 4 < 2 ^ 32 by omega), u32_of_lt (by omega)]
  omega

end Layout

section Scanning

variable {fs : Fat32} {d : Bytes} {total c : ℕ}

theorem nextCluster_fatLink (h : Bounded fs total) (hc : c ≤ dataClusters fs total + 2)
    (hlt : c < 128 * fs.fatSize) : fat32NextCluster fs d c = fatLink fs d c := by
  have hclusters := h.clusters
  have htotal := h.total_lt
  have hareas := h.areas
  have hdata := h.data
  have haddr : linkAddr fs c = cellAddr fs c := by
    rw [linkAddr, cellAddr, u32_of_lt (by omega)]
    omega
  rw [nextCluster_linkAddr (by omega), haddr, fatLink]

/-- The scan reads entry `j` of FAT sector `i` as that of cluster `128 * i + j`. -/
theorem scan_entry (h : Bounded fs total) {i j : ℕ} (hi : i < fs.fatSize) :
    load32 (diskRead d (u32 (fs.reservedSectorCount + i))) (4 * j) &&& 0x0FFFFFFF =
      fatLink fs d (i * 128 + j) := by
  have htotal := h.total_lt
  have hareas := h.areas
  have hdata := h.data
  rw [load32_diskRead, u32_of_lt (by omega), show (0x0FFFFFFF : ℕ) = 2 ^ 28 - 1 from rfl,
    and_low_mask, fatLink]
  congr 2
  simp only [cellAddr]
  omega

theorem findFreeCluster_first (h : Bounded fs total) (h2 : 2 ≤ c) (hlt : c < 128 * fs.fatSize)
    (hzero : fatLink fs d c = 0) (hbefore : ∀ b, 2 ≤ b → b < c → fatLink fs d b ≠ 0) :
    fat32FindFreeCluster fs d = u32 c := by
  unfold fat32FindFreeCluster
  simp only
  rw [findSome?_range (i := c / 128) (r := u32 c) (by omega), Option.getD_some]
  · have hnot : ¬ (c / 128 = 0 ∧ c % 128 < 2) := by omega
    have hat : c / 128 * 128 + c % 128 = c := Nat.div_add_mod' c 128
    refine findSome?_range (i := c % 128) (Nat.mod_lt _ (by norm_num)) ?_ ?_
    · rw [if_neg hnot, scan_entry h (by omega), hat, if_pos hzero]
    · intro j hj
      by_cases hr : c / 128 = 0 ∧ j < 2
      · rw [if_pos hr]
      · rw [if_neg hr, scan_entry h (by omega), if_neg (hbefore _ (by omega) (by omega))]
  · intro i hi
    refine List.findSome?_eq_none_iff.mpr fun j hj => ?_
    have hj := List.mem_range.mp hj
    by_cases hr : i = 0 ∧ j < 2
    · rw [if_pos hr]
    · rw [if_neg hr, scan_entry h (by omega), if_neg (hbefore _ (by omega) (by omega))]

theorem findFreeCluster_full (h : Bounded fs total)
    (hfull : ∀ b, 2 ≤ b → b < 128 * fs.fatSize → fatLink fs d b ≠ 0) :
    fat32FindFreeCluster fs d = 0x0FFFFFFF := by
  unfold fat32FindFreeCluster
  simp only
  have hnone : ((List.range fs.fatSize).findSome? fun i => (List.range 128).findSome? fun j =>
      if i = 0 ∧ j < 2 then none
      else if load32 (diskRead d (u32 (fs.reservedSectorCount + i))) (4 * j) &&& 0x0FFFFFFF = 0
        then some (u32 (i * 128 + j)) else none) = none := by
    refine List.findSome?_eq_none_iff.mpr fun i hi => List.findSome?_eq_none_iff.mpr fun j hj => ?_
    have hi := List.mem_range.mp hi
    have hj := List.mem_range.mp hj
    by_cases hr : i = 0 ∧ j < 2
    · rw [if_pos hr]
    · rw [if_neg hr, scan_entry h hi, if_neg (hfull _ (by omega) (by omega))]
  rw [hnone, Option.getD_none]

theorem mem_freeData : c ∈ freeData fs total d ↔ DataCluster fs total c ∧ fatLink fs d c = 0 := by
  simp only [freeData, Finset.mem_filter, Finset.mem_Ico, DataCluster]

/-- The scan returns a free data cluster, or the cluster behind them, or the mark that all are
taken. -/
theorem findFreeCluster_cases (h : Bounded fs total) (hz : SurplusZero fs total d) :
    fat32FindFreeCluster fs d ∈ freeData fs total d ∨
      freeData fs total d = ∅ ∧ Surplus fs total ∧
        fat32FindFreeCluster fs d = dataClusters fs total + 2 ∨
      freeData fs total d = ∅ ∧ ¬ Surplus fs total ∧ fat32FindFreeCluster fs d = 0x0FFFFFFF := by
  have hclusters := h.clusters
  have hentries := h.entries
  by_cases hfree : ∃ c, c ∈ freeData fs total d
  · classical
    have hc := mem_freeData.mp (Nat.find_spec hfree)
    have hdata : 2 ≤ Nat.find hfree ∧ Nat.find hfree < dataClusters fs total + 2 := hc.1
    have hscan := findFreeCluster_first h hdata.1 (by omega) hc.2 fun b hb hlt h0 =>
      Nat.find_min hfree hlt (mem_freeData.mpr ⟨⟨hb, by omega⟩, h0⟩)
    rw [u32_of_lt (by omega)] at hscan
    rw [hscan]
    exact .inl (Nat.find_spec hfree)
  · have hempty : freeData fs total d = ∅ :=
      Finset.eq_empty_of_forall_notMem fun c hc => hfree ⟨c, hc⟩
    have hused : ∀ b, 2 ≤ b → b < dataClusters fs total + 2 → fatLink fs d b ≠ 0 :=
      fun b hb hlt h0 => hfree ⟨b, mem_freeData.mpr ⟨⟨hb, hlt⟩, h0⟩⟩
    by_cases hs : Surplus fs total
    · have hscan := findFreeCluster_first h (c := dataClusters fs total + 2) (by omega) hs
        (hz _ le_rfl hs) hused
      rw [u32_of_lt (by omega)] at hscan
      exact .inr (.inl ⟨hempty, hs, hscan⟩)
    · refine .inr (.inr ⟨hempty, hs, findFreeCluster_full h fun b hb hlt => hused b hb ?_⟩)
      simp only [Surplus] at hs
      omega

/-- The cluster returned lies inside the volume exactly when a data cluster is free or the FAT
ends with them. -/
theorem found_inside_iff (h : Bounded fs total) (hz : SurplusZero fs total d) :
    (fat32FindFreeCluster fs d ≠ 0x0FFFFFFF →
        ClusterInside fs total (fat32FindFreeCluster fs d)) ↔
      ¬ Surplus fs total ∨ (freeData fs total d).Nonempty := by
  have hclusters := h.clusters
  rcases findFreeCluster_cases h hz with hmem | ⟨hempty, hs, hc⟩ | ⟨-, hs, hc⟩
  · exact iff_of_true (fun _ => (mem_freeData.mp hmem).1.inside h) (.inr ⟨_, hmem⟩)
  · rw [hc, hempty]
    refine iff_of_false (fun hin => surplus_outside h (hin (by omega))) ?_
    simp [hs]
  · exact iff_of_true (fun hne => absurd hc hne) (.inl hs)

end Scanning

end Fat32VolumeBounds
