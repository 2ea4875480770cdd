import SojebOS.Fat32Growth

/-!
# A new entry keeps the volume well formed

The entry is a file, or a directory that holds nothing but links: a leaf. The tree of the
new disk is the old tree, with the leaf when the entry is a directory.
-/
namespace Fat32TreeGrowth

open ByteMemory MachineWord WhileLoop LinkedChain
open Fat32Disk Fat32Directory Fat32Files Fat32Tree Fat32Layout Fat32Volume
open Fat32Entries Fat32Allocation Fat32Growth

/-- Slot `p`, the first of the current directory that was not live, got an entry with the
fresh clusters. A new directory has only skipped entries, and no entry behind its end. -/
structure Adds (fs : Fat32) (skip : ℕ → List UInt8 → Prop) (d d' : Bytes) (cwd : ℕ)
    (l pre : List ℕ) (p : ℕ) (post fresh : List ℕ) : Prop where
  grown : Grown fs d d' fresh (some p)
  chain : Chain fs d cwd l
  slots_eq : slots fs l = pre ++ p :: post
  not_live : ¬ Live d p
  before_live : ∀ q ∈ pre, Live d q
  not_end : d' p ≠ 0
  extent : Extent fs d' (readEntry d' p).firstCluster fresh
  leaf_chain : (readEntry d' p).isDirectory → fresh ≠ []
  leaf_slots : (readEntry d' p).isDirectory → ∀ q ∈ slots fs fresh, Named d' q →
    skip (readEntry d' p).firstCluster (readEntry d' q).name
  leaf_tail : (readEntry d' p).isDirectory →
    (slots fs fresh).Pairwise fun q r => d' q = 0 → d' r = 0

section Slots

variable {fs : Fat32} {skip : ℕ → List UInt8 → Prop} {d : Bytes} {cwd a b p c c' : ℕ}

theorem clusterSlots_inj (hg : Geometry fs) (hc : InRange fs c) (hc' : InRange fs c')
    (h : p ∈ clusterSlots fs c) (h' : p ∈ clusterSlots fs c') : c = c' := by
  by_contra hne
  have h1 := slotBytes_subset_dataArea h (mem_slotBytes_self p)
  have h2 := slotBytes_subset_dataArea h' (mem_slotBytes_self p)
  exact territory_disjoint hg hc hc' hne (.inr h1) (.inr h2)

theorem slot_directory (hw : WellFormed fs skip d cwd) (ha : Directory fs skip d a)
    (hb : Directory fs skip d b) (hpa : SlotOf fs d a p) (hpb : SlotOf fs d b p) : a = b := by
  obtain ⟨x, hx, hxd, rfl⟩ := ha.item
  obtain ⟨y, hy, hyd, rfl⟩ := hb.item
  obtain ⟨l, hl⟩ := hw.directory_chain x hx hxd
  obtain ⟨m, hm⟩ := hw.directory_chain y hy hyd
  obtain ⟨c, hc, hpc⟩ := mem_slots.mp (hpa.mem hl)
  obtain ⟨c', hc', hpc'⟩ := mem_slots.mp (hpb.mem hm)
  obtain rfl := clusterSlots_inj hw.geometry (hl.inRange c hc) (hm.inRange c' hc') hpc hpc'
  by_cases hxy : x = y
  · rw [hxy]
  · exact absurd hc' (hw.disjoint x y hx hy hxy l m (.inr hl) (.inr hm) hc)

end Slots

section Trees

variable {fs : Fat32} {skip : ℕ → List UInt8 → Prop} {d d' : Bytes} {cwd a b p q : ℕ}
variable {l pre post fresh m : List ℕ}

theorem Adds.slotOf (h : Adds fs skip d d' cwd l pre p post fresh) : SlotOf fs d cwd p :=
  ⟨l, h.chain, by rw [h.slots_eq]; simp⟩

theorem Adds.slot_of_mem (h : Adds fs skip d d' cwd l pre p post fresh) :
    ∀ q ∈ some p, SlotOf fs d cwd q := by
  rintro q ⟨⟩
  exact h.slotOf

theorem Adds.chain_kept (hg : Geometry fs) (h : Adds fs skip d d' cwd l pre p post fresh)
    (hm : Chain fs d a m) : Chain fs d' a m :=
  h.grown.chain_kept hg h.slot_of_mem hm

theorem Adds.slot_kept (hg : Geometry fs) (h : Adds fs skip d d' cwd l pre p post fresh)
    (hq : SlotOf fs d a q) (hne : q ≠ p) : Set.EqOn d' d (slotBytes q) :=
  h.grown.slot_kept hg h.slot_of_mem hq fun he => hne (Option.some.inj he).symm

theorem Adds.slotOf_iff (hw : WellFormed fs skip d cwd)
    (h : Adds fs skip d d' cwd l pre p post fresh) (ha : Directory fs skip d a) :
    SlotOf fs d' a q ↔ SlotOf fs d a q := by
  obtain ⟨m, hm⟩ := hw.chain ha
  have hm' := h.chain_kept hw.geometry hm
  constructor
  · intro hq
    exact ⟨m, hm, hq.mem hm'⟩
  · intro hq
    exact ⟨m, hm', hq.mem hm⟩

theorem Adds.holds_iff (hw : WellFormed fs skip d cwd)
    (h : Adds fs skip d d' cwd l pre p post fresh) (ha : Directory fs skip d a)
    (hne : q ≠ p) : Holds fs skip d' a q ↔ Holds fs skip d a q := by
  constructor
  · rintro ⟨hs, hn, hk⟩
    have hs := (h.slotOf_iff hw ha).mp hs
    have hkept := h.slot_kept hw.geometry hs hne
    exact ⟨hs, (named_congr hkept).mp hn, readEntry_congr hkept ▸ hk⟩
  · rintro ⟨hs, hn, hk⟩
    have hkept := h.slot_kept hw.geometry hs hne
    exact ⟨(h.slotOf_iff hw ha).mpr hs, (named_congr hkept).mpr hn,
      (readEntry_congr hkept).symm ▸ hk⟩

theorem Adds.holds_ne (h : Adds fs skip d d' cwd l pre p post fresh)
    (hq : Holds fs skip d a q) : q ≠ p := by
  rintro rfl
  exact h.not_live hq.named.live

theorem Adds.leaf (h : Adds fs skip d d' cwd l pre p post fresh)
    (hdir : (readEntry d' p).isDirectory) :
    Chain fs d' (readEntry d' p).firstCluster fresh := by
  rcases h.extent with ⟨-, h0⟩ | hc
  · exact absurd h0 (h.leaf_chain hdir)
  · exact hc

/-- Nothing of the tree lies below the new directory. -/
theorem Adds.leaf_holds (h : Adds fs skip d d' cwd l pre p post fresh)
    (hdir : (readEntry d' p).isDirectory) :
    ¬ Holds fs skip d' (readEntry d' p).firstCluster q := fun hq =>
  hq.kept (h.leaf_slots hdir q (hq.slot.mem (h.leaf hdir)) hq.named)

theorem Adds.directory_old (hw : WellFormed fs skip d cwd)
    (h : Adds fs skip d d' cwd l pre p post fresh) (ha : Directory fs skip d a) :
    Directory fs skip d' a := by
  induction ha with
  | refl => exact .refl
  | tail hb hs ih =>
    obtain ⟨q, hq, hdir, hfirst⟩ := hs
    have hne := h.holds_ne hq
    have hkept := h.slot_kept hw.geometry hq.slot hne
    refine ih.tail ⟨q, (h.holds_iff hw hb hne).mpr hq, ?_, ?_⟩
    · rwa [readEntry_congr hkept]
    · rwa [readEntry_congr hkept]

theorem Adds.directory_new (hw : WellFormed fs skip d cwd)
    (h : Adds fs skip d d' cwd l pre p post fresh) (ha : Directory fs skip d' a) :
    Directory fs skip d a ∨
      Holds fs skip d' cwd p ∧ (readEntry d' p).isDirectory ∧
        (readEntry d' p).firstCluster = a := by
  induction ha with
  | refl => exact .inl .refl
  | @tail b c _ hs ih =>
    obtain ⟨q, hq, hdir, hfirst⟩ := hs
    rcases ih with hb | ⟨-, hpd, rfl⟩
    · by_cases hne : q = p
      · subst hne
        have hb' := slot_directory hw hb hw.current ((h.slotOf_iff hw hb).mp hq.slot) h.slotOf
        exact .inr ⟨hb' ▸ hq, hdir, hfirst⟩
      · have hold := (h.holds_iff hw hb hne).mp hq
        have hkept := h.slot_kept hw.geometry hold.slot hne
        rw [readEntry_congr hkept] at hdir hfirst
        exact .inl (hb.tail ⟨q, hold, hdir, hfirst⟩)
    · exact absurd hq (h.leaf_holds hpd)

/-- An item of the new tree is an item of the old one, unchanged, or the new entry. -/
theorem Adds.item_old_or_new (hw : WellFormed fs skip d cwd)
    (h : Adds fs skip d d' cwd l pre p post fresh) {x : Item}
    (hx : x.Present fs skip d') :
    x = .entry p ∨ x.Present fs skip d ∧ x.start fs d' = x.start fs d ∧
      (x.IsDirectory d' ↔ x.IsDirectory d) := by
  cases x with
  | root => exact .inr ⟨trivial, rfl, Iff.rfl⟩
  | entry q =>
    obtain ⟨a, ha, hq⟩ := hx
    by_cases hne : q = p
    · exact .inl (by rw [hne])
    · rcases h.directory_new hw ha with hold | ⟨-, hpd, rfl⟩
      · have hqo := (h.holds_iff hw hold hne).mp hq
        have hkept := readEntry_congr (h.slot_kept hw.geometry hqo.slot hne)
        refine .inr ⟨⟨a, hold, hqo⟩, ?_, ?_⟩
        · simp only [Item.start, hkept]
        · simp only [Item.IsDirectory, hkept]
      · exact absurd hq (h.leaf_holds hpd)

theorem Adds.extent_old (hw : WellFormed fs skip d cwd)
    (h : Adds fs skip d d' cwd l pre p post fresh) {x : Item} (hx : x.Present fs skip d)
    (hm : Extent fs d' (x.start fs d) m) : Extent fs d (x.start fs d) m := by
  obtain ⟨k, hk⟩ := hw.extent x hx
  have hk' := h.grown.extent_kept hw.geometry h.slot_of_mem hk
  exact hm.unique hk' ▸ hk

theorem Adds.zero_tail (hw : WellFormed fs skip d cwd)
    (h : Adds fs skip d d' cwd l pre p post fresh) (ha : Directory fs skip d a)
    (hm : Chain fs d a m) : (slots fs m).Pairwise fun q r => d' q = 0 → d' r = 0 := by
  have hg := hw.geometry
  have hold := hw.zero_tail a m ha hm
  have hkept : ∀ q ∈ slots fs m, q ≠ p → d' q = d q := fun q hq hne =>
    h.slot_kept hg ⟨m, hm, hq⟩ hne (mem_slotBytes_self q)
  by_cases hp : p ∈ slots fs m
  · obtain rfl := slot_directory hw ha hw.current ⟨m, hm, hp⟩ h.slotOf
    obtain rfl := hm.unique h.chain
    have hnd := slots_nodup hg hm.inRange hm.linked.nodup
    rw [h.slots_eq] at hold hnd hkept ⊢
    rw [List.nodup_append, List.nodup_cons] at hnd
    have hne : ∀ q ∈ pre, q ≠ p := fun q hq he => hnd.2.2 q hq p List.mem_cons_self he
    have hpre : ∀ q ∈ pre, d' q ≠ 0 := fun q hq => by
      rw [hkept q (by simp [hq]) (hne q hq)]
      exact (h.before_live q hq).1
    -- the slots up to the new entry are live, and those behind it are as before
    refine List.pairwise_append.mpr ⟨?_, List.pairwise_cons.mpr ⟨?_, ?_⟩, ?_⟩
    · exact List.pairwise_of_forall_mem_list fun q hq r _ h0 => absurd h0 (hpre q hq)
    · exact fun r _ h0 => absurd h0 h.not_end
    · refine List.Pairwise.imp_of_mem ?_
        (List.pairwise_cons.mp (List.pairwise_append.mp hold).2.1).2
      intro q r hq hr hqr h0
      have hq' : q ≠ p := fun he => hnd.2.1.1 (he ▸ hq)
      have hr' : r ≠ p := fun he => hnd.2.1.1 (he ▸ hr)
      rw [hkept q (by simp [hq]) hq'] at h0
      rw [hkept r (by simp [hr]) hr']
      exact hqr h0
    · exact fun q hq r _ h0 => absurd h0 (hpre q hq)
  · refine List.Pairwise.imp_of_mem ?_ hold
    intro q r hq hr hqr h0
    have hq' : q ≠ p := fun he => hp (he ▸ hq)
    have hr' : r ≠ p := fun he => hp (he ▸ hr)
    rw [hkept q hq hq'] at h0
    rw [hkept r hr hr']
    exact hqr h0

theorem Adds.wellFormed (hw : WellFormed fs skip d cwd)
    (h : Adds fs skip d d' cwd l pre p post fresh) : WellFormed fs skip d' cwd := by
  have hg := hw.geometry
  refine ⟨hg, ?_, ?_, ?_, ?_, h.directory_old hw hw.current⟩
  · intro x hx
    rcases h.item_old_or_new hw hx with rfl | ⟨hold, hstart, -⟩
    · exact ⟨fresh, h.extent⟩
    · obtain ⟨m, hm⟩ := hw.extent x hold
      rw [hstart]
      exact ⟨m, h.grown.extent_kept hg h.slot_of_mem hm⟩
  · intro x hx hdir
    rcases h.item_old_or_new hw hx with rfl | ⟨hold, hstart, hdiff⟩
    · exact ⟨fresh, h.leaf hdir⟩
    · obtain ⟨m, hm⟩ := hw.directory_chain x hold (hdiff.mp hdir)
      rw [hstart]
      exact ⟨m, h.chain_kept hg hm⟩
  · intro x y hx hy hne k m hk hm
    rcases h.item_old_or_new hw hx with rfl | ⟨hxo, hxs, -⟩ <;>
      rcases h.item_old_or_new hw hy with rfl | ⟨hyo, hys, -⟩
    · exact absurd rfl hne
    · rw [hys] at hm
      rw [hk.unique h.extent]
      exact h.grown.disjoint (h.extent_old hw hyo hm)
    · rw [hxs] at hk
      rw [hm.unique h.extent]
      exact (h.grown.disjoint (h.extent_old hw hxo hk)).symm
    · rw [hxs] at hk
      rw [hys] at hm
      exact hw.disjoint x y hxo hyo hne k m (h.extent_old hw hxo hk) (h.extent_old hw hyo hm)
  · intro a m ha hm
    rcases h.directory_new hw ha with hold | ⟨-, hpd, rfl⟩
    · obtain ⟨k, hk⟩ := hw.chain hold
      obtain rfl := hm.unique (h.chain_kept hg hk)
      exact h.zero_tail hw hold hk
    · rw [hm.unique (h.leaf hpd)]
      exact h.leaf_tail hpd

end Trees

section NewFiles

variable {fs : Fat32} {skip : ℕ → List UInt8 → Prop} {d data : Bytes} {cwd p size : ℕ}
variable {l pre post fresh : List ℕ} {name : List UInt8}

theorem fileRecorded_not_directory {d₁ : Bytes} {first : ℕ} : ¬(readEntry
    (fillEntry d₁ p (formatFilename name) attrArchive first size) p).isDirectory := by
  rw [Fat32DirEntry.isDirectory, readEntry_fillEntry_attr]
  decide

theorem fileRecorded_adds (hg : Geometry fs) {d₁ : Bytes} {first : ℕ}
    (hwr : Written fs d data size d₁ first fresh) (hl : Chain fs d cwd l)
    (hs : slots fs l = pre ++ p :: post) (hp : ¬ Live d p) (hpre : ∀ q ∈ pre, Live d q) :
    Adds fs skip d (fillEntry d₁ p (formatFilename name) attrArchive first size) cwd l pre p
      post fresh := by
  have hof : SlotOf fs d cwd p := ⟨l, hl, by rw [hs]; simp⟩
  obtain ⟨hgr, hext⟩ := (written_grown hwr).fillEntry (formatFilename name) attrArchive
      size hg hof hwr.extent
  refine ⟨hgr, hl, hs, hp, hpre, ?_, hext, ?_, ?_, ?_⟩
  · rw [fillEntry_first]
    exact formatFilename_ne_zero name
  all_goals exact fun h => absurd h fileRecorded_not_directory

/-- The blank volume after a file `A` of four bytes has been written into its root. -/
def oneWritten : Bytes :=
  fillEntry (takeCluster tinyVolume (fun _ => 0x2A) 4 0 blankDisk 0 3) 1024 (formatFilename [0x41])
    attrArchive 3 4

theorem writeFile_blankDisk :
    fat32WriteFile tinyVolume blankDisk 2 [0x41] (fun _ => 0x2A) 4 =
      some (oneWritten, .stored) := by
  have hneeded : clustersNeeded tinyVolume 4 = 1 := by decide
  have hfree : fat32FindFreeCluster tinyVolume blankDisk = 3 := by decide
  have hall : allocateClusters tinyVolume (fun _ => 0x2A) 4 1 0 blankDisk 0 0 =
      (takeCluster tinyVolume (fun _ => 0x2A) 4 0 blankDisk 0 3, some 3) := by
    rw [allocateClusters, hfree]
    rfl
  rw [fat32WriteFile, hneeded, hall]
  exact recordFile_slot (by decide) (by decide +kernel)

theorem oneWritten_adds : Adds tinyVolume dotEntry blankDisk oneWritten 2 [2] [] 1024
    (slots tinyVolume [2]).tail [3] := by
  have hg : Geometry tinyVolume := (blankDisk_wellFormed dotEntry).geometry
  have hnone : Written tinyVolume blankDisk (fun _ => 0x2A) 4 blankDisk 0 [] :=
    ⟨by simp, fun _ _ => rfl, .inl ⟨rfl, rfl⟩, by simp⟩
  have hthree : Free tinyVolume blankDisk 3 := ⟨⟨by decide, by decide⟩, by decide⟩
  have hlast : ([] : List ℕ) ≠ [] → ([] : List ℕ).getLast? = some 0 := fun h => absurd rfl h
  have hwritten := takeCluster_written hg hnone hlast hthree (by decide)
  exact fileRecorded_adds hg hwritten blankDisk_chain (by decide) (by decide) (by simp)

end NewFiles

section NewDirectories

variable {fs : Fat32} {skip : ℕ → List UInt8 → Prop} {d : Bytes} {cwd c p o : ℕ}
variable {l pre post : List ℕ} {name : List UInt8}

/-- The parent's cluster as a `..` entry records it. -/
def parentLink (fs : Fat32) (parent : ℕ) : ℕ := if parent = fs.rootCluster then 0 else parent

theorem dotEntries_zero (h : 64 ≤ o) : dotEntries fs c cwd o = 0 := by
  unfold dotEntries
  rw [fillEntry_outside, fillEntry_outside] <;> simp only [slotBytes, Set.mem_Ico] <;> omega

theorem newDirectory_bytes (hg : Geometry fs) (hc : InRange fs c)
    (ho : o < bytesPerCluster fs) :
    newDirectory fs d c cwd (clusterAddr fs c + o) = dotEntries fs c cwd o := by
  rw [newDirectory, (initDirectoryCluster_spec hg hc).2 o ho]
  split_ifs with h
  · rfl
  · rw [dotEntries_zero (by omega)]

theorem dotEntries_first : Set.EqOn (dotEntries fs c cwd)
    (fillEntry (fun _ => 0) 0 dotName attrDirectory c 0) (slotBytes 0) := by
  intro x hx
  apply fillEntry_outside
  simp only [slotBytes, Set.mem_Ico] at hx ⊢
  omega

def directoryRecorded (fs : Fat32) (d : Bytes) (cwd c p : ℕ) (name : List UInt8) : Bytes :=
  fillEntry (newDirectory fs d c cwd) p (formatFilename name) attrDirectory c 0

theorem directoryRecorded_bytes (name : List UInt8) (o : ℕ) (hg : Geometry fs) (hc : Free fs d c)
    (hp : SlotOf fs d cwd p) (ho : o < bytesPerCluster fs) :
    directoryRecorded fs d cwd c p name (clusterAddr fs c + o) = dotEntries fs c cwd o := by
  rw [directoryRecorded, fillEntry_outside, newDirectory_bytes hg hc.1 ho]
  intro hm
  obtain ⟨l, hl, hpl⟩ := hp
  refine (newDirectory_grown cwd hg hc).not_fresh hg (.inr hl)
    (slotBytes_subset hpl hm) ⟨c, List.mem_cons_self, .inr ?_⟩
  simp only [dataArea, Set.mem_Ico]
  omega

theorem directoryRecorded_entry (name : List UInt8) (o : ℕ) (hg : Geometry fs) (hc : Free fs d c)
    (hp : SlotOf fs d cwd p) (ho : o + 32 ≤ bytesPerCluster fs) :
    readEntry (directoryRecorded fs d cwd c p name) (clusterAddr fs c + o) =
      readEntry (dotEntries fs c cwd) o := by
  have hwin : Set.EqOn (window (directoryRecorded fs d cwd c p name) (clusterAddr fs c))
      (dotEntries fs c cwd) (slotBytes o) := by
    intro x hx
    simp only [slotBytes, Set.mem_Ico] at hx
    exact directoryRecorded_bytes _ _ hg hc hp (by omega)
  rw [← readEntry_congr hwin]
  simp only [readEntry, load16_window, load32_window, window, Nat.add_assoc]

theorem two_slots_le (hg : Geometry fs) : 64 ≤ bytesPerCluster fs := by
  have := hg.perCluster_pos
  simp only [bytesPerCluster]
  omega

structure DotSlots (fs : Fat32) (d : Bytes) (c parent : ℕ) : Prop where
  dot_named : Named d (clusterAddr fs c)
  dot_name : (readEntry d (clusterAddr fs c)).name = dotName
  dot_directory : (readEntry d (clusterAddr fs c)).isDirectory
  dot_cluster : (readEntry d (clusterAddr fs c)).firstCluster = c
  dotDot_named : Named d (clusterAddr fs c + 32)
  dotDot_name : (readEntry d (clusterAddr fs c + 32)).name = dotDotName
  dotDot_directory : (readEntry d (clusterAddr fs c + 32)).isDirectory
  dotDot_cluster : (readEntry d (clusterAddr fs c + 32)).firstCluster = parentLink fs parent

theorem directoryRecorded_dots (name : List UInt8) (hg : Geometry fs) (hc : Free fs d c)
    (hp : SlotOf fs d cwd p) (hcwd : cwd < 2 ^ 32) :
    DotSlots fs (directoryRecorded fs d cwd c p name) c cwd := by
  have h64 := two_slots_le hg
  have hlt := hc.1.lt_word hg
  have hplt : parentLink fs cwd < 2 ^ 32 := by
    unfold parentLink
    split_ifs
    · norm_num
    · exact hcwd
  have e0 := directoryRecorded_entry name 0 hg hc hp (by omega)
  have e1 := directoryRecorded_entry name 32 hg hc hp (by omega)
  have b0 := directoryRecorded_bytes name 0 hg hc hp (by omega)
  have b1 := directoryRecorded_bytes name 32 hg hc hp (by omega)
  rw [Nat.add_zero, readEntry_congr dotEntries_first] at e0
  rw [Nat.add_zero, dotEntries_first (mem_slotBytes_self 0), fillEntry_first] at b0
  rw [dotEntries] at e1 b1
  rw [fillEntry_first] at b1
  refine ⟨⟨⟨?_, ?_⟩, ?_⟩, ?_, ?_, ?_, ⟨⟨?_, ?_⟩, ?_⟩, ?_, ?_, ?_⟩
  · rw [b0]; decide
  · rw [b0]; decide
  · rw [e0, readEntry_fillEntry_attr]; decide
  · rw [e0, readEntry_fillEntry_name (by decide)]
  · rw [e0, Fat32DirEntry.isDirectory, readEntry_fillEntry_attr]; decide
  · rw [e0, readEntry_fillEntry_firstCluster hlt]
  · rw [b1]; decide
  · rw [b1]; decide
  · rw [e1, readEntry_fillEntry_attr]; decide
  · rw [e1, readEntry_fillEntry_name (by decide)]
  · rw [e1, Fat32DirEntry.isDirectory, readEntry_fillEntry_attr]; decide
  · rw [e1]
    exact readEntry_fillEntry_firstCluster hplt

theorem directoryRecorded_rest (hg : Geometry fs) (hc : Free fs d c)
    (hp : SlotOf fs d cwd p) {q : ℕ} (hq : q ∈ clusterSlots fs c)
    (h64 : clusterAddr fs c + 64 ≤ q) : directoryRecorded fs d cwd c p name q = 0 := by
  have hm := slotBytes_subset_dataArea hq (mem_slotBytes_self q)
  simp only [dataArea, Set.mem_Ico] at hm
  obtain ⟨o, rfl⟩ := Nat.exists_eq_add_of_le hm.1
  rw [directoryRecorded_bytes _ _ hg hc hp (by omega), dotEntries_zero (by omega)]

theorem clusterSlots_cases {q : ℕ} (hq : q ∈ clusterSlots fs c) :
    q = clusterAddr fs c ∨ q = clusterAddr fs c + 32 ∨ clusterAddr fs c + 64 ≤ q := by
  obtain ⟨s, hs, i, hi, rfl⟩ := mem_clusterSlots.mp hq
  omega

theorem directoryRecorded_links (hg : Geometry fs) (hc : Free fs d c)
    (hp : SlotOf fs d cwd p) {q : ℕ} (hq : q ∈ clusterSlots fs c)
    (hn : Named (directoryRecorded fs d cwd c p name) q) :
    q = clusterAddr fs c ∨ q = clusterAddr fs c + 32 := by
  rcases clusterSlots_cases hq with h0 | h1 | h64
  · exact .inl h0
  · exact .inr h1
  · exact absurd (directoryRecorded_rest hg hc hp hq h64) hn.live.1

theorem slots_singleton (fs : Fat32) (c : ℕ) : slots fs [c] = clusterSlots fs c := by
  simp [slots]

theorem clusterSlots_sorted (fs : Fat32) (c : ℕ) : (clusterSlots fs c).Pairwise (· < ·) := by
  refine List.pairwise_flatMap.mpr ⟨fun s _ => ?_, ?_⟩
  · rw [List.pairwise_map]
    exact List.pairwise_lt_range.imp fun h => by omega
  · refine List.pairwise_lt_range.imp fun {s t} hst x hx y hy => ?_
    obtain ⟨i, hi, rfl⟩ := List.mem_map.mp hx
    obtain ⟨j, hj, rfl⟩ := List.mem_map.mp hy
    have := List.mem_range.mp hi
    omega

theorem directoryRecorded_adds (hw : WellFormed fs skip d cwd) (hc : Free fs d c)
    (hl : Chain fs d cwd l) (hs : slots fs l = pre ++ p :: post) (hp : ¬ Live d p)
    (hpre : ∀ q ∈ pre, Live d q)
    (hskip : skip c dotName ∧ skip c dotDotName) (name : List UInt8) :
    Adds fs skip d (directoryRecorded fs d cwd c p name) cwd l pre p post [c] := by
  have hg := hw.geometry
  have hof : SlotOf fs d cwd p := ⟨l, hl, by rw [hs]; simp⟩
  have hlt := hc.1.lt_word hg
  have hcwd := hl.start_inRange.lt_word hg
  obtain ⟨hgr, hext⟩ := (newDirectory_grown cwd hg hc).fillEntry (formatFilename name) attrDirectory
      0 hg hof
    (.inr (newDirectory_chain hg hc))
  have hfirst : (readEntry (directoryRecorded fs d cwd c p name) p).firstCluster = c :=
    readEntry_fillEntry_firstCluster hlt
  have hdots := directoryRecorded_dots name hg hc hof hcwd
  refine ⟨hgr, hl, hs, hp, hpre, ?_, hext, fun _ => by simp, fun _ q hq hn => ?_, fun _ => ?_⟩
  · rw [directoryRecorded, fillEntry_first]
    exact formatFilename_ne_zero name
  · rw [slots_singleton] at hq
    rw [hfirst]
    rcases directoryRecorded_links hg hc hof hq hn with rfl | rfl
    · rw [hdots.dot_name]
      exact hskip.1
    · rw [hdots.dotDot_name]
      exact hskip.2
  · rw [slots_singleton]
    refine List.Pairwise.imp_of_mem ?_ (clusterSlots_sorted fs c)
    intro q r hq hr hqr h0
    refine directoryRecorded_rest hg hc hof hr ?_
    rcases clusterSlots_cases hq with rfl | rfl | h64
    · exact absurd h0 hdots.dot_named.live.1
    · exact absurd h0 hdots.dotDot_named.live.1
    · omega

/-- The blank volume after a directory `D` has been made in its root. -/
def oneDirectory : Bytes := directoryRecorded tinyVolume blankDisk 2 3 1024 [0x44]

theorem oneDirectory_adds : Adds tinyVolume dotEntry blankDisk oneDirectory 2 [2] [] 1024
    (slots tinyVolume [2]).tail [3] :=
  directoryRecorded_adds (blankDisk_wellFormed dotEntry) ⟨⟨by decide, by decide⟩, by decide⟩
    blankDisk_chain (by decide) (by decide) (by simp) ⟨.inl rfl, .inr rfl⟩ [0x44]

theorem oneDirectory_directory {a : ℕ} (ha : Directory tinyVolume dotEntry oneDirectory a) :
    a = 2 ∨ a = 3 := by
  rcases oneDirectory_adds.directory_new (blankDisk_wellFormed dotEntry) ha with
    hold | ⟨-, -, h3⟩
  · exact .inl (directory_of_empty_root blankDisk_chain (by decide) hold)
  · exact .inr (h3.symm.trans (by decide +kernel))

end NewDirectories

end Fat32TreeGrowth
