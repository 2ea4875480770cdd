import SojebOS.Fat32VolumeBounds

/-!
# When the calls stay inside the volume

Every round of the allocation loop takes a data cluster as long as one is free. The first
round without one takes the cluster behind them, and stays inside the volume only if the rest
of the data fits into the sectors behind the last whole cluster.
-/
namespace Fat32VolumeWrites

open ByteMemory MachineWord WhileLoop LinkedChain
open Fat32Disk Fat32Directory Fat32Files Fat32Tree Fat32Layout Fat32Volume
open Fat32Allocation Fat32Growth Fat32FileSizes Fat32SectorWrites Fat32VolumeBounds

/-- What is left of the data from round `i` on fits into the free data clusters and the sectors
behind them. -/
def RestFits (fs : Fat32) (total : ℕ) (d : Bytes) (size i : ℕ) : Prop :=
  size ≤ i * bytesPerCluster fs +
    512 * ((freeData fs total d).card * fs.sectorsPerCluster + tailSectors fs total)

section Rounds

variable {fs : Fat32} {d data : Bytes} {total size i c prev b s x : ℕ}

theorem dataSectors_mem : x ∈ dataSectors fs size i c ↔ ∃ s < fs.sectorsPerCluster,
    u32 (u32 (i * bytesPerCluster fs) + s * 512) < size ∧ x = u32 (clusterToSector fs c + s) := by
  simp only [dataSectors, List.mem_map, List.mem_filter, List.mem_range, decide_eq_true_eq,
    and_assoc]
  exact exists_congr fun s => and_congr_right fun _ => and_congr_right fun _ => eq_comm

theorem data_offset (hi : (i + 1) * bytesPerCluster fs ≤ 2 ^ 32) (hs : s < fs.sectorsPerCluster) :
    u32 (u32 (i * bytesPerCluster fs) + s * 512) = i * bytesPerCluster fs + s * 512 := by
  have hb : bytesPerCluster fs = fs.sectorsPerCluster * 512 := rfl
  rw [Nat.succ_mul] at hi
  rw [u32_of_lt (n := i * _) (by omega), u32_of_lt (by omega)]

theorem dataSectors_data (h : Bounded fs total) (hc : DataCluster fs total c)
    (hx : x ∈ dataSectors fs size i c) : fs.firstDataSector ≤ x ∧ x < total := by
  obtain ⟨s, hs, -, rfl⟩ := dataSectors_mem.mp hx
  exact hc.sector h hs

theorem dataSectors_tail (h : Bounded fs total) (hi : (i + 1) * bytesPerCluster fs ≤ 2 ^ 32)
    (hfits : size ≤ i * bytesPerCluster fs + 512 * tailSectors fs total)
    (hx : x ∈ dataSectors fs size i (dataClusters fs total + 2)) :
    fs.firstDataSector ≤ x ∧ x < total := by
  obtain ⟨s, hs, hlt, rfl⟩ := dataSectors_mem.mp hx
  rw [data_offset hi hs] at hlt
  have hsplit := h.split
  have hsector := surplus_sector h (s := s) (by omega)
  omega

/-- Where the rest is longer than the tail, the first sector behind the volume is written. -/
theorem dataSectors_outside (h : Bounded fs total) (hi : (i + 1) * bytesPerCluster fs ≤ 2 ^ 32)
    (hmore : i * bytesPerCluster fs + 512 * tailSectors fs total < size) :
    total ∈ dataSectors fs size i (dataClusters fs total + 2) := by
  have hsector := surplus_sector h (le_refl (tailSectors fs total))
  refine dataSectors_mem.mpr ⟨tailSectors fs total, h.split.2, ?_, by omega⟩
  rw [data_offset hi h.split.2]
  omega

theorem cellAddr_low (h : Bounded fs total) (hb : b < 128 * fs.fatSize) :
    cellAddr fs b + 4 ≤ 512 * fs.firstDataSector := by
  have hareas := h.areas
  simp only [cellAddr]
  omega

theorem fatLink_writeCluster (h : Bounded fs total)
    (hdata : ∀ x ∈ dataSectors fs size i c, fs.firstDataSector ≤ x) (hb : b < 128 * fs.fatSize) :
    fatLink fs (writeCluster fs data size i c d) b = fatLink fs d b := by
  have hlow := cellAddr_low h hb
  rw [fatLink, fatLink, load32_congr fun x h1 h2 => writeCluster_unchanged fun hx => ?_]
  have := hdata _ hx
  omega

theorem fatLink_setNextCluster (h : Bounded fs total) (hc : c ≤ dataClusters fs total + 2)
    (hlt : c < 128 * fs.fatSize) {v : ℕ} (hv : v < 2 ^ 28) :
    fatLink fs (fat32SetNextCluster fs d c v) b = if b = c then v else fatLink fs d b := by
  have hclusters := h.clusters
  by_cases hne : b = c
  · rw [if_pos hne, hne, ← nextCluster_fatLink h hc hlt]
    exact nextCluster_setNextCluster_self (by omega) hv
  · have haddr : linkAddr fs c = cellAddr fs c := by
      have htotal := h.total_lt
      have hareas := h.areas
      have hdata := h.data
      rw [linkAddr, cellAddr, u32_of_lt (by omega)]
      omega
    rw [if_neg hne, fatLink, setNextCluster_linkAddr (by omega), haddr, load32_store32_apart,
      fatLink]
    simp only [cellAddr]
    omega

/-- The links after a round: the new cluster ends the chain and the one before leads to it. -/
theorem fatLink_takeCluster (h : Bounded fs total) (hc : c ≤ dataClusters fs total + 2)
    (hlt : c < 128 * fs.fatSize) (hprev : i ≠ 0 → DataCluster fs total prev)
    (hdata : ∀ x ∈ dataSectors fs size i c, fs.firstDataSector ≤ x) (hb : b < 128 * fs.fatSize) :
    fatLink fs (takeCluster fs data size i d prev c) b =
      if b = c then 0x0FFFFFFF else if i ≠ 0 ∧ b = prev then c else fatLink fs d b := by
  have hclusters := h.clusters
  have hentries := h.entries
  rw [takeCluster, fatLink_writeCluster h hdata hb, fatLink_setNextCluster h hc hlt (by norm_num)]
  by_cases h0 : i = 0
  · simp only [h0, ↓reduceIte, ne_eq, not_true_eq_false, false_and]
  · have hp := hprev h0
    have hpdata : prev < dataClusters fs total + 2 := hp.2
    simp only [h0, ↓reduceIte, ne_eq, not_false_eq_true, true_and]
    rw [fatLink_setNextCluster h hpdata.le (by omega) (by omega)]

theorem freeData_takeCluster (h : Bounded fs total) (hc : c ∈ freeData fs total d)
    (hprev : i ≠ 0 → DataCluster fs total prev ∧ fatLink fs d prev ≠ 0) :
    freeData fs total (takeCluster fs data size i d prev c) = (freeData fs total d).erase c := by
  have hentries := h.entries
  obtain ⟨hdata, hzero⟩ := mem_freeData.mp hc
  have hcpos : 2 ≤ c := hdata.1
  have hcdata : c < dataClusters fs total + 2 := hdata.2
  have hlink : ∀ b < 128 * fs.fatSize, fatLink fs (takeCluster fs data size i d prev c) b =
      if b = c then 0x0FFFFFFF else if i ≠ 0 ∧ b = prev then c else fatLink fs d b := fun b hb =>
    fatLink_takeCluster h hcdata.le (by omega) (fun h0 => (hprev h0).1)
      (fun x hx => (dataSectors_data h hdata hx).1) hb
  ext b
  rw [Finset.mem_erase, mem_freeData, mem_freeData]
  constructor
  · rintro ⟨hb, hb0⟩
    have hbdata : b < dataClusters fs total + 2 := hb.2
    rw [hlink b (by omega)] at hb0
    split_ifs at hb0 with h1 h2
    · omega
    · exact ⟨h1, hb, hb0⟩
  · rintro ⟨hne, hb, hb0⟩
    have hbdata : b < dataClusters fs total + 2 := hb.2
    refine ⟨hb, ?_⟩
    rw [hlink b (by omega), if_neg hne, if_neg]
    · exact hb0
    · rintro ⟨h0, rfl⟩
      exact (hprev h0).2 hb0

theorem surplusZero_takeCluster (h : Bounded fs total) (hz : SurplusZero fs total d)
    (hc : DataCluster fs total c) (hprev : i ≠ 0 → DataCluster fs total prev) :
    SurplusZero fs total (takeCluster fs data size i d prev c) := by
  have hentries := h.entries
  have hcdata : c < dataClusters fs total + 2 := hc.2
  intro b hb hlt
  rw [fatLink_takeCluster h hcdata.le (by omega) hprev
    (fun x hx => (dataSectors_data h hc hx).1) hlt, if_neg (by omega), if_neg]
  · exact hz b hb hlt
  · rintro ⟨h0, rfl⟩
    have hpdata : b < dataClusters fs total + 2 := (hprev h0).2
    omega

theorem restFits_step (h : Bounded fs total) (hc : c ∈ freeData fs total d)
    (hprev : i ≠ 0 → DataCluster fs total prev ∧ fatLink fs d prev ≠ 0) :
    RestFits fs total (takeCluster fs data size i d prev c) size (i + 1) ↔
      RestFits fs total d size i := by
  obtain ⟨k, hk⟩ : ∃ k, (freeData fs total d).card = k + 1 :=
    ⟨(freeData fs total d).card - 1, by have := Finset.card_pos.mpr ⟨c, hc⟩; omega⟩
  have hb : bytesPerCluster fs = fs.sectorsPerCluster * 512 := rfl
  rw [RestFits, RestFits, freeData_takeCluster h hc hprev, Finset.card_erase_of_mem hc, hk,
    Nat.add_sub_cancel]
  simp only [Nat.add_mul, Nat.one_mul]
  omega

theorem roundSectors_inside (h : Bounded fs total) (hc : c ≤ dataClusters fs total + 2)
    (hlt : c < 128 * fs.fatSize) (hprev : i ≠ 0 → DataCluster fs total prev)
    (hdata : ∀ x ∈ dataSectors fs size i c, x < total)
    (hs : s ∈ roundSectors fs size i prev c) : s < total := by
  have hentries := h.entries
  rcases List.mem_append.mp hs with hs | hs
  · split_ifs at hs with h0
    · cases hs
    · have hpdata : prev < dataClusters fs total + 2 := (hprev h0).2
      rw [List.mem_singleton.mp hs]
      exact (linkSector_bounded h hpdata.le (by omega)).2
  · rcases List.mem_cons.mp hs with rfl | hs
    · exact (linkSector_bounded h hc hlt).2
    · exact hdata s hs

theorem tail_is_last {rounds : ℕ} (h : Bounded fs total)
    (hfits : size ≤ i * bytesPerCluster fs + 512 * tailSectors fs total)
    (hlast : (i + 1 + rounds) * bytesPerCluster fs < size + bytesPerCluster fs) :
    rounds = 0 := by
  by_contra hr
  have hmany : (i + 1 + 1) * bytesPerCluster fs ≤ (i + 1 + rounds) * bytesPerCluster fs :=
    Nat.mul_le_mul_right _ (by omega)
  have hb : bytesPerCluster fs = fs.sectorsPerCluster * 512 := rfl
  have htail := h.split.2
  simp only [Nat.add_mul, Nat.one_mul] at hmany hlast
  omega

/-- The links of the clusters that are in use and not the last one taken are as they were. -/
def LinksKept (fs : Fat32) (total i prev : ℕ) (d d' : Bytes) : Prop :=
  ∀ b, DataCluster fs total b → fatLink fs d b ≠ 0 → (i ≠ 0 → b ≠ prev) →
    fatLink fs d' b = fatLink fs d b

theorem linksKept_takeCluster (h : Bounded fs total) (hc : c ≤ dataClusters fs total + 2)
    (hlt : c < 128 * fs.fatSize) (hzero : fatLink fs d c = 0)
    (hprev : i ≠ 0 → DataCluster fs total prev)
    (hdata : ∀ x ∈ dataSectors fs size i c, fs.firstDataSector ≤ x) :
    LinksKept fs total i prev d (takeCluster fs data size i d prev c) := by
  have hentries := h.entries
  intro b hb hb0 hbprev
  have hbdata : b < dataClusters fs total + 2 := hb.2
  rw [fatLink_takeCluster h hc hlt hprev hdata (by omega), if_neg, if_neg]
  · exact fun hp => hbprev hp.1 hp.2
  · rintro rfl
    exact hb0 hzero

/-- The allocation loop from a round on: if the rest fits it writes sectors of the volume only
and keeps the links in use, and otherwise it writes the sector behind the volume. -/
def AllocationBounds (fs : Fat32) (total : ℕ) (data : Bytes) (size rounds i : ℕ) (d : Bytes)
    (prev first : ℕ) : Prop :=
  (¬ Surplus fs total ∨ RestFits fs total d size i →
    (∀ s ∈ allocationSectors fs data size rounds i d prev, s < total) ∧
      LinksKept fs total i prev d (allocateClusters fs data size rounds i d prev first).1) ∧
  (¬ (¬ Surplus fs total ∨ RestFits fs total d size i) →
    total ∈ allocationSectors fs data size rounds i d prev)

theorem bounds_free {rounds first : ℕ} (h : Bounded fs total)
    (hmem : fat32FindFreeCluster fs d ∈ freeData fs total d)
    (hprev : i ≠ 0 → DataCluster fs total prev ∧ fatLink fs d prev ≠ 0)
    (hrest : AllocationBounds fs total data size rounds (i + 1)
      (takeCluster fs data size i d prev (fat32FindFreeCluster fs d)) (fat32FindFreeCluster fs d)
      (if i = 0 then fat32FindFreeCluster fs d else first)) :
    AllocationBounds fs total data size (rounds + 1) i d prev first := by
  have hclusters := h.clusters
  have hentries := h.entries
  simp only [AllocationBounds, allocationSectors, allocateClusters] at hrest ⊢
  generalize fat32FindFreeCluster fs d = c at hmem hrest
  obtain ⟨hdata, hzero⟩ := mem_freeData.mp hmem
  have hcdata : c < dataClusters fs total + 2 := hdata.2
  have hne : c ≠ 0x0FFFFFFF := by omega
  have hprevd : i ≠ 0 → DataCluster fs total prev := fun h0 => (hprev h0).1
  have hsectors : ∀ x ∈ dataSectors fs size i c, fs.firstDataSector ≤ x ∧ x < total :=
    fun x hx => dataSectors_data h hdata hx
  rw [restFits_step h hmem hprev] at hrest
  obtain ⟨hin, hout⟩ := hrest
  simp only [hne, ↓reduceIte]
  refine ⟨fun hfits => ?_, fun hnot => List.mem_append_right _ (hout hnot)⟩
  obtain ⟨hinside, hlinks⟩ := hin hfits
  refine ⟨fun s hs => ?_, fun b hb hb0 hbprev => ?_⟩
  · rcases List.mem_append.mp hs with hs | hs
    · exact roundSectors_inside h hcdata.le (by omega) hprevd (fun x hx => (hsectors x hx).2) hs
    · exact hinside s hs
  · have hkept : fatLink fs (takeCluster fs data size i d prev c) b = fatLink fs d b :=
      linksKept_takeCluster h hcdata.le (by omega) hzero hprevd
        (fun x hx => (hsectors x hx).1) b hb hb0 hbprev
    rw [← hkept]
    refine hlinks b hb (by rwa [hkept]) fun _ => ?_
    rintro rfl
    exact hb0 hzero

theorem bounds_surplus {rounds first : ℕ} (h : Bounded fs total)
    (hempty : freeData fs total d = ∅) (hs : Surplus fs total)
    (hc : fat32FindFreeCluster fs d = dataClusters fs total + 2)
    (hzero : fatLink fs d (dataClusters fs total + 2) = 0)
    (hprev : i ≠ 0 → DataCluster fs total prev)
    (hlast : (i + 1 + rounds) * bytesPerCluster fs < size + bytesPerCluster fs)
    (hround : (i + 1) * bytesPerCluster fs ≤ 2 ^ 32) :
    AllocationBounds fs total data size (rounds + 1) i d prev first := by
  have hclusters := h.clusters
  have hslt : dataClusters fs total + 2 < 128 * fs.fatSize := hs
  have hne : dataClusters fs total + 2 ≠ 0x0FFFFFFF := by omega
  have hrest : RestFits fs total d size i ↔
      size ≤ i * bytesPerCluster fs + 512 * tailSectors fs total := by
    rw [RestFits, hempty, Finset.card_empty, Nat.zero_mul, Nat.zero_add]
  simp only [AllocationBounds, allocationSectors, allocateClusters, hc, hne, ↓reduceIte, hrest]
  constructor
  · rintro (hno | hfits)
    · exact absurd hs hno
    have hsectors : ∀ x ∈ dataSectors fs size i (dataClusters fs total + 2),
        fs.firstDataSector ≤ x ∧ x < total := fun x hx => dataSectors_tail h hround hfits hx
    obtain rfl := tail_is_last h hfits hlast
    rw [allocationSectors, List.append_nil, allocateClusters]
    exact ⟨fun s => roundSectors_inside h le_rfl hslt hprev fun x hx => (hsectors x hx).2,
      linksKept_takeCluster h le_rfl hslt hzero hprev fun x hx => (hsectors x hx).1⟩
  · intro hnot
    rw [not_or, not_le] at hnot
    apply List.mem_append_left
    apply List.mem_append_right
    apply List.mem_cons_of_mem
    exact dataSectors_outside h hround hnot.2

theorem allocation_bounds (h : Bounded fs total) (data : Bytes) (size rounds i : ℕ) (d : Bytes)
    (prev first : ℕ) (hz : SurplusZero fs total d)
    (hprev : i ≠ 0 → DataCluster fs total prev ∧ fatLink fs d prev ≠ 0)
    (hall : size ≤ (i + rounds) * bytesPerCluster fs)
    (hlast : (i + rounds) * bytesPerCluster fs < size + bytesPerCluster fs)
    (hword : (i + rounds) * bytesPerCluster fs ≤ 2 ^ 32) :
    AllocationBounds fs total data size rounds i d prev first := by
  have hentries := h.entries
  have hprevd : i ≠ 0 → DataCluster fs total prev := fun h0 => (hprev h0).1
  induction rounds generalizing i d prev first with
  | zero =>
    refine ⟨fun _ => ⟨by simp [allocationSectors], fun _ _ _ _ => rfl⟩, fun hnot => ?_⟩
    refine absurd (Or.inr ?_) hnot
    rw [Nat.add_zero] at hall
    rw [RestFits]
    omega
  | succ rounds ih =>
    have hstep : i + (rounds + 1) = i + 1 + rounds := by omega
    rw [hstep] at hall hlast hword
    rcases findFreeCluster_cases h hz with hmem | ⟨hempty, hs, hc⟩ | ⟨-, hs, hc⟩
    · refine bounds_free h hmem hprev ?_
      generalize fat32FindFreeCluster fs d = c at hmem
      have hdata := (mem_freeData.mp hmem).1
      have hcdata : c < dataClusters fs total + 2 := hdata.2
      have hnext : fatLink fs (takeCluster fs data size i d prev c) c ≠ 0 := by
        rw [fatLink_takeCluster h hcdata.le (by omega) hprevd
          (fun x hx => (dataSectors_data h hdata hx).1) (by omega), if_pos rfl]
        norm_num
      exact ih _ _ _ _ (surplusZero_takeCluster h hz hdata hprevd) (fun _ => ⟨hdata, hnext⟩)
        hall hlast hword fun _ => hdata
    · exact bounds_surplus h hempty hs hc (hz _ le_rfl hs) hprevd hlast
        (le_trans (Nat.mul_le_mul_right _ (by omega)) hword)
    · simp only [AllocationBounds, allocationSectors, allocateClusters, hc, ↓reduceIte]
      exact ⟨fun _ => ⟨by simp, fun _ _ _ _ => rfl⟩, fun hnot => absurd (.inl hs) hnot⟩

end Rounds

section Directories

variable {fs : Fat32} {d d' data : Bytes} {total size a s : ℕ}

theorem directoryInside_congr (h : Bounded fs total) (hd : DirectoryInside fs total d a)
    (hkept : ∀ b, DataCluster fs total b → fatLink fs d b ≠ 0 →
      fatLink fs d' b = fatLink fs d b) : DirectoryInside fs total d' a := by
  have hentries := h.entries
  obtain ⟨l, hl, hdata⟩ := hd
  refine ⟨l, hl.congr fun c hc => ?_, hdata⟩
  have hcdata : c < dataClusters fs total + 2 := (hdata c hc).2
  rw [nextCluster_fatLink h hcdata.le (by omega), nextCluster_fatLink h hcdata.le (by omega)]
  apply hkept c (hdata c hc)
  rw [← nextCluster_fatLink h hcdata.le (by omega)]
  rcases hl.next_mem_or_ends hc with hmem | hend
  · have hpos : 2 ≤ fat32NextCluster fs d c := (hdata _ hmem).1
    omega
  · simp only [endOfChain] at hend
    omega

theorem directoryInside_start (hd : DirectoryInside fs total d a) (ha : ¬ offChain a) :
    DataCluster fs total a := by
  obtain ⟨l, hl, hdata⟩ := hd
  refine hdata a (hl.head_mem fun hend => ha ?_)
  simp only [endOfChain] at hend
  simp only [offChain]
  omega

theorem directoryInside_next (hd : DirectoryInside fs total d a) (ha : ¬ offChain a) :
    DirectoryInside fs total d (fat32NextCluster fs d a) := by
  obtain ⟨l, hl, hdata⟩ := hd
  cases hl with
  | nil hend =>
    simp only [endOfChain] at hend
    simp only [offChain] at ha
    omega
  | cons _ hl => exact ⟨_, hl, fun c hc => hdata c (List.mem_cons_of_mem a hc)⟩

theorem freeSlot_sector {base : ℕ} {slot : ℕ × ℕ}
    (hv : scanCluster fs base (freeSlotVisit d) = some slot) :
    ∃ s < fs.sectorsPerCluster, slot.1 = u32 (base + s) := by
  obtain ⟨s, hs, hv⟩ := List.exists_of_findSome?_eq_some hv
  obtain ⟨i, -, hv⟩ := List.exists_of_findSome?_eq_some hv
  refine ⟨s, List.mem_range.mp hs, ?_⟩
  unfold freeSlotVisit at hv
  simp only at hv
  split at hv
  · cases hv
    rfl
  · cases hv

theorem walkSlot_inside (h : Bounded fs total) (hd : DirectoryInside fs total d a)
    (hs : s ∈ slotSector (walkDirectory fs d a (freeSlotVisit d))) : s < total := by
  match hwalk : walkDirectory fs d a (freeSlotVisit d) with
  | none | some none =>
    rw [hwalk] at hs
    cases hs
  | some (some slot) =>
    rw [hwalk] at hs
    obtain rfl : s = slot.1 := List.mem_singleton.mp hs
    obtain ⟨b, hb, hon, hv⟩ := walk_some _ (S := DirectoryInside fs total d)
      (fun b hb => directoryInside_next hb) hd hwalk
    obtain ⟨t, ht, he⟩ := freeSlot_sector hv
    rw [he]
    exact ((directoryInside_start hb hon).sector h ht).2

theorem parentSlot_inside (h : Bounded fs total) (hd : DirectoryInside fs total d a)
    (hs : s ∈ slotSector (findParentSlot fs d' a)) : s < total := by
  match hwalk : findParentSlot fs d' a with
  | none | some none =>
    rw [hwalk] at hs
    cases hs
  | some (some slot) =>
    rw [hwalk] at hs
    obtain rfl : s = slot.1 := List.mem_singleton.mp hs
    obtain ⟨b, rfl, hon, hv⟩ := walk_some _ (S := fun b => b = a) (fun b hb _ => hb) rfl hwalk
    obtain ⟨t, ht, he⟩ := freeSlot_sector hv
    rw [he]
    exact ((directoryInside_start hd hon).sector h ht).2

end Directories

section Calls

variable {fs : Fat32} {boot d : Bytes} {total cwd size c s : ℕ}

theorem clustersCovering_bounds (hb : 0 < bytesPerCluster fs) (size : ℕ) :
    size ≤ clustersCovering fs size * bytesPerCluster fs ∧
      clustersCovering fs size * bytesPerCluster fs < size + bytesPerCluster fs := by
  have hdiv := Nat.div_add_mod' (size + bytesPerCluster fs - 1) (bytesPerCluster fs)
  have hmod := Nat.mod_lt (size + bytesPerCluster fs - 1) hb
  rw [clustersCovering]
  omega

/-- A write stays in the volume exactly when its data fits into what is free there, or there is
no further entry of the FAT, or nothing is written because the rounded size wraps. -/
theorem writeFile_inside_iff (h : Bounded fs total) (hz : SurplusZero fs total d)
    (hd : DirectoryInside fs total d cwd) (data : Bytes) (hsize : size < 2 ^ 32) :
    (∀ s ∈ writeFileSectors fs d cwd data size, s < total) ↔
      ¬ Surplus fs total ∨ 2 ^ 32 < size + bytesPerCluster fs ∨
        size ≤ 512 * ((freeData fs total d).card * fs.sectorsPerCluster +
          tailSectors fs total) := by
  have hb := h.bytes
  by_cases hwrap : 2 ^ 32 < size + bytesPerCluster fs
  · refine iff_of_true (fun s hs => ?_) (.inr (.inl hwrap))
    rw [writeFileSectors, clustersNeeded_wrapped hb hsize hwrap] at hs
    exact walkSlot_inside h hd hs
  · have hneeded := clustersNeeded_covering hb (Nat.not_lt.mp hwrap)
    have hbounds := clustersCovering_bounds hb.1 size
    have hword := clustersNeeded_mul_le fs size
    rw [← hneeded] at hbounds
    obtain ⟨hin, hout⟩ := allocation_bounds h data size
      (clustersNeeded fs size) 0 d 0 0 hz (fun h0 => absurd rfl h0) (by rw [Nat.zero_add]; omega)
      (by rw [Nat.zero_add]; omega) (by rw [Nat.zero_add]; omega)
    have hfits : RestFits fs total d size 0 ↔ size ≤ 512 *
        ((freeData fs total d).card * fs.sectorsPerCluster + tailSectors fs total) := by
      rw [RestFits, Nat.zero_mul, Nat.zero_add]
    rw [hfits] at hin hout
    simp only [hwrap, false_or]
    constructor
    · intro hinside
      by_contra hnot
      exact absurd (hinside total (List.mem_append_left _ (hout hnot))) (lt_irrefl total)
    · intro hcond s hs
      obtain ⟨hsectors, hlinks⟩ := hin hcond
      rcases List.mem_append.mp hs with hs | hs
      · exact hsectors s hs
      · have hd' := directoryInside_congr h hd fun b hb hb0 =>
          hlinks b hb hb0 fun h0 => absurd rfl h0
        generalize allocateClusters fs data size (clustersNeeded fs size) 0 d 0 0 = r at hs hd'
        obtain ⟨d₁, none | first⟩ := r
        · cases hs
        · exact walkSlot_inside h hd' hs

theorem mem_directorySectors (hs : s < fs.sectorsPerCluster) :
    u32 (clusterToSector fs c + s) ∈ directorySectors fs c := by
  by_cases h0 : s = 0
  · rw [h0, Nat.add_zero, u32_of_lt (show clusterToSector fs c < 2 ^ 32 from u32_lt _)]
    exact List.mem_cons_self
  · refine List.mem_cons_of_mem _ (List.mem_map.mpr ⟨s, ?_, rfl⟩)
    rw [List.mem_range'_1]
    omega

theorem directorySectors_inside (h : Bounded fs total) (hc : DataCluster fs total c)
    (hs : s ∈ directorySectors fs c) : s < total := by
  rcases List.mem_cons.mp hs with rfl | hs
  · have hfirst := (hc.sector h h.perCluster_pos).2
    rwa [Nat.add_zero, u32_of_lt (show clusterToSector fs c < 2 ^ 32 from u32_lt _)] at hfirst
  · obtain ⟨t, ht, rfl⟩ := List.mem_map.mp hs
    rw [List.mem_range'_1] at ht
    exact (hc.sector h (by omega)).2

/-- The making of a directory stays in the volume exactly when it finds the name, or a data
cluster is free, or there is no further entry of the FAT. -/
theorem createDirectory_inside_iff (h : Bounded fs total) (hz : SurplusZero fs total d)
    (hd : DirectoryInside fs total d cwd) (dirname : List UInt8) :
    (∀ s ∈ createDirectorySectors fs d cwd dirname, s < total) ↔
      fat32FindFile fs d cwd dirname ≠ some none ∨ ¬ Surplus fs total ∨
        (freeData fs total d).Nonempty := by
  have hclusters := h.clusters
  have hentries := h.entries
  unfold createDirectorySectors
  match hfind : fat32FindFile fs d cwd dirname with
  | none | some (some _) => simp
  | some none =>
    simp only [ne_eq, not_true_eq_false, false_or]
    rcases findFreeCluster_cases h hz with hmem | ⟨hempty, hs, hc⟩ | ⟨-, hs, hc⟩
    · refine iff_of_true (fun s hs => ?_) (.inr ⟨_, hmem⟩)
      generalize fat32FindFreeCluster fs d = c at hmem hs
      have hdata := (mem_freeData.mp hmem).1
      have hcdata : c < dataClusters fs total + 2 := hdata.2
      have hne : c ≠ 0x0FFFFFFF := by omega
      simp only [hne, ↓reduceIte] at hs
      rcases List.mem_append.mp hs with hs | hs
      · rcases List.mem_cons.mp hs with rfl | hs
        · exact (linkSector_bounded h hcdata.le (by omega)).2
        · exact directorySectors_inside h hdata hs
      · exact parentSlot_inside h hd hs
    · have hne : dataClusters fs total + 2 ≠ 0x0FFFFFFF := by omega
      rw [hc, hempty]
      refine iff_of_false (fun hin => ?_) (by simp [hs])
      simp only [hne, ↓reduceIte] at hin
      refine surplus_outside h fun s hs => hin _ ?_
      apply List.mem_append_left
      apply List.mem_cons_of_mem
      exact mem_directorySectors hs
    · refine iff_of_true (fun s hs => ?_) (.inl hs)
      simp [hc] at hs

/-- In every state of a volume the allocation and the calls that use it stay in the volume
exactly when they find enough room there, or the FAT has no entries behind the data clusters. -/
theorem volume_bounds_iff (hv : ValidBoot boot)
    (hz : SurplusZero (bootVolume boot) (totalSectors boot) d) :
    ((fat32FindFreeCluster (bootVolume boot) d ≠ 0x0FFFFFFF →
        ClusterInside (bootVolume boot) (totalSectors boot)
          (fat32FindFreeCluster (bootVolume boot) d)) ↔
      ¬ Surplus (bootVolume boot) (totalSectors boot) ∨
        (freeData (bootVolume boot) (totalSectors boot) d).Nonempty) ∧
    ∀ cwd, DirectoryInside (bootVolume boot) (totalSectors boot) d cwd →
      (∀ (data : Bytes) (size : UInt32),
        (∀ s ∈ writeFileSectors (bootVolume boot) d cwd data size.toNat, s < totalSectors boot) ↔
          ¬ Surplus (bootVolume boot) (totalSectors boot) ∨
          2 ^ 32 < size.toNat + bytesPerCluster (bootVolume boot) ∨
          size.toNat ≤ 512 * ((freeData (bootVolume boot) (totalSectors boot) d).card *
            (bootVolume boot).sectorsPerCluster +
              tailSectors (bootVolume boot) (totalSectors boot))) ∧
      ∀ dirname : List UInt8,
        (∀ s ∈ createDirectorySectors (bootVolume boot) d cwd dirname, s < totalSectors boot) ↔
          fat32FindFile (bootVolume boot) d cwd dirname ≠ some none ∨
          ¬ Surplus (bootVolume boot) (totalSectors boot) ∨
          (freeData (bootVolume boot) (totalSectors boot) d).Nonempty := by
  have h := hv.bounded
  refine ⟨found_inside_iff h hz, fun cwd hd => ⟨fun data size => ?_, fun dirname => ?_⟩⟩
  · exact writeFile_inside_iff h hz hd data size.toNat_lt
  · exact createDirectory_inside_iff h hz hd dirname

/-- A volume of 12 sectors: a boot sector, a FAT of one sector and ten clusters. -/
def smallBoot : Bytes := fun x =>
  if x = 12 ∨ x = 44 then 2
  else if x = 13 ∨ x = 14 ∨ x = 16 ∨ x = 36 then 1
  else if x = 32 then 12
  else 0

def smallDisk : Bytes := fun x => if 520 ≤ x ∧ x < 560 then 0xFF else 0

theorem smallBoot_valid : ValidBoot smallBoot :=
  ⟨by decide, by decide, by decide, by decide, by decide⟩

theorem smallDisk_surplusZero : SurplusZero (bootVolume smallBoot) (totalSectors smallBoot)
    smallDisk := by
  intro c hc _
  have hzero : load32 smallDisk (cellAddr (bootVolume smallBoot) c) =
      load32 (fun _ => 0) (cellAddr (bootVolume smallBoot) c) := by
    refine load32_congr fun x hx _ => if_neg ?_
    have haddr : cellAddr (bootVolume smallBoot) c = 512 + 4 * c := rfl
    have hdata : dataClusters (bootVolume smallBoot) (totalSectors smallBoot) = 10 := by decide
    omega
  rw [fatLink, hzero]
  rfl

theorem smallDisk_root :
    DirectoryInside (bootVolume smallBoot) (totalSectors smallBoot) smallDisk 2 := by
  refine ⟨[2], .cons (by decide) (.nil (by decide)), ?_⟩
  exact List.forall_mem_singleton.mpr ⟨by decide, by decide⟩

theorem volume_bounds_iff_smallDisk :
    ((fat32FindFreeCluster (bootVolume smallBoot) smallDisk ≠ 0x0FFFFFFF →
        ClusterInside (bootVolume smallBoot) (totalSectors smallBoot)
          (fat32FindFreeCluster (bootVolume smallBoot) smallDisk)) ↔
      ¬ Surplus (bootVolume smallBoot) (totalSectors smallBoot) ∨
        (freeData (bootVolume smallBoot) (totalSectors smallBoot) smallDisk).Nonempty) ∧
    ((∀ s ∈ createDirectorySectors (bootVolume smallBoot) smallDisk 2 [0x44],
        s < totalSectors smallBoot) ↔
      fat32FindFile (bootVolume smallBoot) smallDisk 2 [0x44] ≠ some none ∨
      ¬ Surplus (bootVolume smallBoot) (totalSectors smallBoot) ∨
      (freeData (bootVolume smallBoot) (totalSectors smallBoot) smallDisk).Nonempty) := by
  have h := volume_bounds_iff smallBoot_valid smallDisk_surplusZero
  exact ⟨h.1, (h.2 2 smallDisk_root).2 [0x44]⟩

/-- On the full volume the scan returns cluster 12, which begins in the sector behind it, and a
file of one byte is written there. -/
theorem full_volume_overrun :
    ValidBoot smallBoot ∧ SurplusZero (bootVolume smallBoot) (totalSectors smallBoot) smallDisk ∧
      totalSectors smallBoot = 12 ∧
      fat32FindFreeCluster (bootVolume smallBoot) smallDisk = 12 ∧
      ¬ ClusterInside (bootVolume smallBoot) (totalSectors smallBoot) 12 ∧
      12 ∈ writeFileSectors (bootVolume smallBoot) smallDisk 2 (fun _ => 0x41) 1 := by
  refine ⟨smallBoot_valid, smallDisk_surplusZero, by decide, by decide +kernel, ?_, ?_⟩
  · exact surplus_outside smallBoot_valid.bounded
  · decide +kernel

end Calls

end Fat32VolumeWrites
