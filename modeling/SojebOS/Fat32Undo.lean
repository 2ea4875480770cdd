import SojebOS.Fat32UniqueNames
import SojebOS.Fat32Rmdir

/-!
# Creating and removing again

The entry that has just been made is the only one with its name, so the removal takes its
slot and its chain. The links it clears were clear before, and neither the allocation nor
the removal touches the high bits of a FAT entry.
-/
namespace Fat32Undo

open ByteMemory MachineWord WhileLoop LinkedChain
open Fat32Disk Fat32Directory Fat32Files Fat32Tree Fat32Layout Fat32Volume
open Fat32Entries Fat32Allocation Fat32Growth Fat32RoundTrip Fat32TreeGrowth Fat32Paths
open Fat32Removal Fat32Links Fat32UniqueNames Fat32Rmdir

/-- All that is left of an entry made and removed again is its slot, marked deleted. -/
structure Undone (fs : Fat32) (skip : ℕ → List UInt8 → Prop) (d d' : Bytes) (cwd : ℕ)
    (name : List UInt8) (slot : Option ℕ) : Prop where
  slot_marked : ∀ p ∈ slot, SlotOf fs d cwd p ∧ ¬ Live d p ∧ d' p = deletedMark
  fat : ∀ c < 128 * fs.fatSize, load32 d' (cellAddr fs c) = load32 d (cellAddr fs c)
  slots : ∀ a q, Directory fs skip d a → SlotOf fs d a q → slot ≠ some q →
    SlotOf fs d' a q ∧ Set.EqOn d' d (slotBytes q)
  files : ∀ x : Item, x.Present fs skip d → ¬ x.IsDirectory d →
    ∀ l, Extent fs d (x.start fs d) l → ∀ c ∈ l, Set.EqOn d' d (dataArea fs c)
  gone : ∀ q, SlotOf fs d' cwd q → Live d' q → (readEntry d' q).name ≠ formatFilename name

section HighBits

variable {fs : Fat32} {d d₀ d' data : Bytes} {cwd a c p i prev first size : ℕ} {l : List ℕ}
variable {name : List UInt8}

theorem sameHigh_of_slot (hg : Geometry fs) (hp : SlotOf fs d₀ a p)
    (h : ∀ x, x ∉ slotBytes p → d' x = d x) : SameHigh fs d d' := by
  obtain ⟨l, _, hpl⟩ := hp
  obtain ⟨c, _, hpc⟩ := mem_slots.mp hpl
  apply sameHigh_of_cells
  exact cells_of_data hg fun x hx => h x fun hm => hx (slotBytes_subset_dataArea hpc hm)

theorem takeCluster_sameHigh (hg : Geometry fs) (hc : InRange fs c)
    (hprev : i ≠ 0 → InRange fs prev) (hi : (i + 1) * bytesPerCluster fs ≤ 2 ^ 32) :
    SameHigh fs d (takeCluster fs data size i d prev c) := by
  have hlink : SameHigh fs d (if i = 0 then d else fat32SetNextCluster fs d prev c) := by
    split_ifs with h0
    · exact fun _ _ => rfl
    · exact setNextCluster_sameHigh hg (hprev h0).2
  refine (hlink.trans (setNextCluster_sameHigh (v := 0x0FFFFFFF) hg hc.2)).trans ?_
  apply sameHigh_of_cells
  exact cells_of_data hg fun x hx => writeCluster_outside hg hc hi hx

theorem allocateClusters_sameHigh (hg : Geometry fs) (rounds : ℕ)
    (hprev : i ≠ 0 → InRange fs prev) (hi : (i + rounds) * bytesPerCluster fs ≤ 2 ^ 32) :
    SameHigh fs d (allocateClusters fs data size rounds i d prev first).1 := by
  induction rounds generalizing d i prev first with
  | zero => exact fun _ _ => rfl
  | succ rounds ih =>
    simp only [allocateClusters]
    rcases findFreeCluster_spec (d := d) hg with ⟨hfull, -⟩ | hfree
    · rw [if_pos hfull]
      exact fun _ _ => rfl
    · rw [if_neg (hfree.ne_full hg)]
      have hi' : (i + 1) * bytesPerCluster fs ≤ 2 ^ 32 :=
        le_trans (Nat.mul_le_mul_right _ (by omega)) hi
      have hstep : SameHigh fs d
          (takeCluster fs data size i d prev (fat32FindFreeCluster fs d)) :=
        takeCluster_sameHigh hg hfree.1 hprev hi'
      refine hstep.trans ?_
      exact ih (fun _ => hfree.1) (by rwa [Nat.add_assoc, Nat.add_comm 1])

theorem writeFile_sameHigh (hg : Geometry fs) (hl : Chain fs d cwd l) {exit : WriteExit}
    (h : fat32WriteFile fs d cwd name data size = some (d', exit)) : SameHigh fs d d' := by
  have hhigh : SameHigh fs d
      (allocateClusters fs data size (clustersNeeded fs size) 0 d 0 0).1 :=
    allocateClusters_sameHigh hg _ (fun h0 => absurd rfl h0)
      (by rw [Nat.zero_add]; exact clustersNeeded_mul_le fs size)
  obtain ⟨d₁, first, fresh, hwr, ⟨hal, -⟩ | ⟨hal, -⟩⟩ := allocate_spec hg d data size
  · rw [hal] at hhigh
    have hl₁ : Chain fs d₁ cwd l := (written_grown hwr).chain_kept hg (noSlot fs d cwd) hl
    rw [fat32WriteFile, hal] at h
    rcases freeSlotWalk_spec hg hl₁ with ⟨-, hwalk⟩ | ⟨pre, p, post, hs, -, -, hwalk⟩
    · rw [recordFile_noSlot hwalk] at h
      cases h
      exact hhigh
    · have hp : SlotOf fs d₁ cwd p := ⟨l, hl₁, by rw [hs]; simp⟩
      rw [recordFile_slot hp.dvd hwalk] at h
      cases h
      exact hhigh.trans (sameHigh_of_slot hg hp fun x hx => fillEntry_outside hx)
  · rw [fat32WriteFile, hal, recordFile] at h
    cases h
    rwa [hal] at hhigh

theorem directoryRecorded_sameHigh (hg : Geometry fs) (hc : Free fs d c)
    (hp : SlotOf fs d cwd p) : SameHigh fs d (directoryRecorded fs d cwd c p name) := by
  have hnew : SameHigh fs d (newDirectory fs d c cwd) := by
    refine (setNextCluster_sameHigh (v := 0x0FFFFFFF) hg hc.1.2).trans (sameHigh_of_cells ?_)
    exact cells_of_data hg fun x hx => (initDirectoryCluster_spec hg hc.1).1 x hx
  exact hnew.trans (sameHigh_of_slot hg hp fun x hx => fillEntry_outside hx)

end HighBits

section Removing

variable {fs : Fat32} {skip : ℕ → List UInt8 → Prop} {d d₁ d₂ : Bytes} {cwd c p : ℕ}
variable {l pre post fresh : List ℕ} {name : List UInt8}

/-- The links of the new clusters are zero again, and no other link has changed. -/
theorem fat_undone (hg : Geometry fs) (hadd : Adds fs skip d d₁ cwd l pre p post fresh)
    (hrem : Removes fs d₁ d₂ cwd p fresh) {c : ℕ} (hc : c < 128 * fs.fatSize) :
    fat32NextCluster fs d₂ c = fat32NextCluster fs d c := by
  have hgr := hadd.grown
  by_cases hm : c ∈ fresh
  · rw [hrem.freed c hm, (hgr.free c hm).2]
  · have hne : ∀ c' ∈ fresh, c ≠ c' := by
      rintro c' hc' rfl
      exact hm hc'
    refine nextCluster_congr hg hc fun x hx => ?_
    have hxp : x ∉ slotBytes p := hadd.slotOf.not_cell hg hc hx
    rw [hrem.frame x, hgr.frame x]
    · rintro ⟨c', hc', hx' | hx'⟩
      · exact cell_disjoint (hne c' hc') hx hx'
      · have h2 := cell_before_data c' hg hc
        simp only [cell, dataArea, Set.mem_Ico] at hx hx'
        omega
    · rintro q ⟨⟩
      exact hxp
    · rintro rfl
      exact hxp (mem_slotBytes_self x)
    · exact fun c' hc' => cell_disjoint (hne c' hc') hx

theorem undone_of_removes (hw : WellFormed fs skip d cwd)
    (hadd : Adds fs skip d d₁ cwd l pre p post fresh) (hrem : Removes fs d₁ d₂ cwd p fresh)
    (hhigh : SameHigh fs d d₂)
    (hnew : ∀ q, SlotOf fs d cwd q → Live d q → (readEntry d q).name ≠ formatFilename name) :
    Undone fs skip d d₂ cwd name (some p) := by
  have hg := hw.geometry
  have hgr := hadd.grown
  -- chains of the old volume survive both steps
  have hchain : ∀ {a m}, Extent fs d a m → Extent fs d₁ a m ∧ m.Disjoint fresh := fun hm =>
    ⟨hgr.extent_kept hg hadd.slot_of_mem hm, (hgr.disjoint hm).symm⟩
  have hslots : ∀ a q, SlotOf fs d a q → q ≠ p →
      SlotOf fs d₂ a q ∧ Set.EqOn d₂ d (slotBytes q) := by
    intro a q hq hne
    obtain ⟨m, hm, hqm⟩ := hq
    have hm₁ := hadd.chain_kept hg hm
    have hm₂ := hrem.chain_kept hg hm₁ (hchain (.inr hm)).2
    refine ⟨⟨m, hm₂, hqm⟩, fun x hx => ?_⟩
    rw [hrem.slot_kept hg ⟨m, hm₁, hqm⟩ hne hx, hadd.slot_kept hg ⟨m, hm, hqm⟩ hne hx]
  refine ⟨?_, ?_, ?_, ?_, ?_⟩
  · rintro q ⟨⟩
    exact ⟨hadd.slotOf, hadd.not_live, hrem.mark⟩
  · exact fun c hc => fatEntry_ext hg hc hhigh (fat_undone hg hadd hrem hc)
  · intro a q _ hq hne
    exact hslots a q hq fun he => hne (he ▸ rfl)
  · intro x hx hfile m hm c hc y hy
    have hyp : y ∉ slotBytes p := fun h =>
      hw.file_apart hw.current hadd.slotOf hx hfile hm h ⟨c, hc, .inr hy⟩
    rw [hrem.data_kept hg hy fun he => hyp (he ▸ mem_slotBytes_self y)]
    apply hgr.frame y
    · exact hgr.not_fresh hg hm ⟨c, hc, .inr hy⟩
    · rintro q ⟨⟩
      exact hyp
  · intro q hq hlive
    have hne : q ≠ p := by
      rintro rfl
      exact hrem.not_live hlive
    have hl₁ := hadd.chain_kept hg hadd.chain
    have hl₂ := hrem.chain_kept hg hl₁ (hchain (.inr hadd.chain)).2
    have hqo : SlotOf fs d cwd q := ⟨l, hadd.chain, hq.mem hl₂⟩
    have hkept := (hslots cwd q hqo hne).2
    rw [readEntry_congr hkept]
    exact hnew q hqo ((live_congr hkept).mp hlive)

theorem before_new (hw : WellFormed fs skip d cwd)
    (hadd : Adds fs skip d d₁ cwd l pre p post fresh)
    (hnew : ∀ q, SlotOf fs d cwd q → Live d q → (readEntry d q).name ≠ formatFilename name) :
    ∀ q ∈ pre, d₁ q ≠ 0 ∧ (Live d₁ q → (readEntry d₁ q).name ≠ formatFilename name) := by
  intro q hq
  have hqs : SlotOf fs d cwd q := ⟨l, hadd.chain, by rw [hadd.slots_eq]; simp [hq]⟩
  have hlive := hadd.before_live q hq
  have hne : q ≠ p := by
    rintro rfl
    exact hadd.not_live hlive
  have hkept := hadd.slot_kept hw.geometry hqs hne
  rw [readEntry_congr hkept, hkept (mem_slotBytes_self q)]
  exact ⟨hlive.1, fun _ => hnew q hqs hlive⟩

theorem Agree.undone {skip' : ℕ → List UInt8 → Prop} {slot : Option ℕ}
    (h : Agree fs skip skip' d) (hu : Undone fs skip' d d₂ cwd name slot) :
    Undone fs skip d d₂ cwd name slot :=
  ⟨hu.slot_marked, hu.fat, fun a q ha => hu.slots a q (h.directory_iff.mpr ha),
    fun x hx => hu.files x ((h.present_iff x).mpr hx), hu.gone⟩

theorem undone_refl (hnew : ∀ q, SlotOf fs d cwd q → Live d q →
    (readEntry d q).name ≠ formatFilename name) : Undone fs skip d d cwd name none := by
  refine ⟨by simp, fun _ _ => rfl, fun a q _ hq _ => ⟨hq, fun _ _ => rfl⟩, ?_, hnew⟩
  exact fun _ _ _ _ _ _ _ _ _ => rfl

theorem newDirectory_empty (hg : Geometry fs) (hc : Free fs d c) (hp : SlotOf fs d cwd p)
    (hcwd : cwd < 2 ^ 32)
    (hl : Chain fs (directoryRecorded fs d cwd c p name) c [c]) :
    isDirectoryEmpty fs (directoryRecorded fs d cwd c p name) c = some true := by
  have hdots := directoryRecorded_dots name hg hc hp hcwd
  have hnone : (slots fs [c]).findSome? (fun q => occupiedVisit
      (directoryRecorded fs d cwd c p name) (q / 512) (q % 512 / 32)) = none := by
    apply List.findSome?_eq_none_iff.mpr
    intro q hq
    have hdvd := slots_dvd hq
    rw [slots_singleton] at hq
    simp only [occupiedVisit, diskRead_slot hdvd, readEntry_slot hdvd]
    rcases clusterSlots_cases hq with rfl | rfl | h64
    · have hlink : dotName.getD 0 0 = dot ∧ (dotName.getD 1 0 = space ∨
          dotName.getD 1 0 = dot ∧ dotName.getD 2 0 = space) := by decide
      simp only [hdots.dot_name, if_pos hlink, ite_self]
    · have hlink : dotDotName.getD 0 0 = dot ∧ (dotDotName.getD 1 0 = space ∨
          dotDotName.getD 1 0 = dot ∧ dotDotName.getD 2 0 = space) := by decide
      simp only [hdots.dotDot_name, if_pos hlink, ite_self]
    · rw [if_pos (directoryRecorded_rest hg hc hp hq h64)]
  rw [isDirectoryEmpty, walkDirectory_eq hg hl, hnone]
  rfl

end Removing

section Undoing

variable {fs : Fat32} {skip : ℕ → List UInt8 → Prop} {d d₁ data : Bytes} {cwd size : ℕ}
variable {name : List UInt8}

theorem write_then_delete (hw : WellFormed fs skip d cwd) (hmark : name.getD 0 0 ≠ deletedMark)
    (hnew : ∀ q, SlotOf fs d cwd q → Live d q → (readEntry d q).name ≠ formatFilename name)
    (hrun : fat32WriteFile fs d cwd name data size = some (d₁, .stored)) :
    ∃ d₂ p, fat32DeleteFile fs d₁ cwd name = some d₂ ∧
      Undone fs skip d d₂ cwd name (some p) := by
  have hg := hw.geometry
  obtain ⟨dw, first, fresh, hwr, ⟨hr, -⟩ | ⟨-, -, hr⟩ |
      ⟨-, l, pre, p, post, hl, hs, hp, hpre, hr⟩⟩ :=
    writeFile_spec hw name data size
  · rw [hr] at hrun
    cases hrun
  · rw [hr] at hrun
    cases hrun
  · have hhigh := writeFile_sameHigh hg hl hrun
    rw [hr] at hrun
    obtain rfl : fillEntry dw p (formatFilename name) attrArchive first size = d₁ := by
      cases hrun
      rfl
    have hadd : Adds fs skip d (fillEntry dw p (formatFilename name) attrArchive first size)
        cwd l pre p post fresh := fileRecorded_adds hg hwr hl hs hp hpre
    have hlive : Live (fillEntry dw p (formatFilename name) attrArchive first size) p := by
      constructor
      · exact hadd.not_end
      · rw [fillEntry_first]
        exact formatFilename_ne_deleted hmark
    have hmatch : Matches (fillEntry dw p (formatFilename name) attrArchive first size)
        (formatFilename name) p := by
      constructor
      · rw [readEntry_fillEntry_attr]
        decide
      · exact readEntry_fillEntry_name (formatFilename_length name)
    have hbefore := before_new hw hadd hnew
    obtain ⟨d₂, hdel, hrem, hhigh₂⟩ := deleteFile_match hg (hadd.chain_kept hg hl) hs hlive hmatch
      (fun q hq => ⟨(hbefore q hq).1, fun h hm => (hbefore q hq).2 h hm.2⟩) hadd.extent
    exact ⟨d₂, p, hdel, undone_of_removes hw hadd hrem (hhigh.trans hhigh₂) hnew⟩

theorem create_then_rmdir (hw : WellFormed fs skip d cwd) (hmark : name.getD 0 0 ≠ deletedMark)
    (hnew : ∀ q, SlotOf fs d cwd q → Live d q → (readEntry d q).name ≠ formatFilename name)
    {reply : Option Reply} (hrun : fat32CreateDirectory fs d cwd name = some (d₁, reply)) :
    ∃ d₂ reply' slot, fat32Rmdir fs d₁ cwd name = some (d₂, reply') ∧
      Undone fs skip d d₂ cwd name slot := by
  have hg := hw.geometry
  rcases createDirectory_spec hw hrun with
    rfl | ⟨-, c, l, pre, p, post, hc, hl, hs, hp, hpre, rfl⟩
  · obtain ⟨l, hl⟩ := hw.chain hw.current
    refine ⟨d₁, none, none, rmdir_none hg hl ?_, undone_refl hnew⟩
    cases hv : ((slots fs l).findSome? (searchAt d₁
        (fun p => (readEntry d₁ p).name = formatFilename name)
        fun p => (p / 512, p % 512 / 32))).join with
    | none => rfl
    | some slot =>
      obtain ⟨pre, p, post, hs, hlive, hname, -⟩ := search_some hv
      exact absurd hname (hnew p ⟨l, hl, by rw [hs]; simp⟩ hlive)
  · -- the links of the new directory are no part of the tree
    have hagree := relink_agree hw hc
    have hw' := hagree.wellFormed hw
    have hof : SlotOf fs d cwd p := ⟨l, hl, by rw [hs]; simp⟩
    have hcwd := hl.start_inRange.lt_word hg
    have hclt := hc.1.lt_word hg
    have hadd : Adds fs (relink skip c) d (directoryRecorded fs d cwd c p name) cwd l pre p post
        [c] :=
      directoryRecorded_adds hw' hc hl hs hp hpre ⟨.inr ⟨rfl, .inl rfl⟩, .inr ⟨rfl, .inr rfl⟩⟩ name
    have hfirst : (readEntry (directoryRecorded fs d cwd c p name) p).firstCluster = c :=
      readEntry_fillEntry_firstCluster hclt
    have hdir : (readEntry (directoryRecorded fs d cwd c p name) p).isDirectory := by
      rw [Fat32DirEntry.isDirectory, directoryRecorded, readEntry_fillEntry_attr]
      decide
    have hlive : Live (directoryRecorded fs d cwd c p name) p := by
      constructor
      · exact hadd.not_end
      · rw [directoryRecorded, fillEntry_first]
        exact formatFilename_ne_deleted hmark
    have hname : (readEntry (directoryRecorded fs d cwd c p name) p).name = formatFilename name :=
      readEntry_fillEntry_name (formatFilename_length name)
    have hempty : isDirectoryEmpty fs (directoryRecorded fs d cwd c p name)
        (readEntry (directoryRecorded fs d cwd c p name) p).firstCluster = some true := by
      have hleaf := hadd.leaf hdir
      rw [hfirst] at hleaf ⊢
      exact newDirectory_empty hg hc hof hcwd hleaf
    change ∃ d₂ reply' slot, fat32Rmdir fs (directoryRecorded fs d cwd c p name) cwd name =
      some (d₂, reply') ∧ Undone fs skip d d₂ cwd name slot
    rcases rmdir_match hg (hadd.chain_kept hg hl) hs hlive hname (before_new hw' hadd hnew)
        (fun _ => hadd.extent) with ⟨reply', -, hno⟩ | ⟨-, -, d₂, reply', hrm, hrem, hhigh⟩
    · exact absurd ⟨hdir, hempty⟩ hno
    · refine ⟨d₂, reply', some p, hrm, Agree.undone hagree ?_⟩
      exact undone_of_removes hw' hadd hrem
        ((directoryRecorded_sameHigh hg hc hof).trans hhigh) hnew

/-- A file that is written and deleted, and a directory that is made and removed, leave
the FAT, the other slots and the files as they were. -/
theorem create_then_remove (hw : WellFormed fs skip d cwd) (hmark : name.getD 0 0 ≠ deletedMark)
    (hnew : ∀ q, SlotOf fs d cwd q → Live d q → (readEntry d q).name ≠ formatFilename name) :
    (∀ data size d₁, fat32WriteFile fs d cwd name data size = some (d₁, .stored) →
      ∃ d₂ p, fat32DeleteFile fs d₁ cwd name = some d₂ ∧
        Undone fs skip d d₂ cwd name (some p)) ∧
    ∀ d₁ reply, fat32CreateDirectory fs d cwd name = some (d₁, reply) →
      ∃ d₂ reply' slot, fat32Rmdir fs d₁ cwd name = some (d₂, reply') ∧
        Undone fs skip d d₂ cwd name slot :=
  ⟨fun _ _ _ hrun => write_then_delete hw hmark hnew hrun,
    fun _ _ hrun => create_then_rmdir hw hmark hnew hrun⟩

theorem create_then_remove_blankDisk :
    (∀ data size d₁, fat32WriteFile tinyVolume blankDisk 2 [0x41] data size =
        some (d₁, .stored) →
      ∃ d₂ p, fat32DeleteFile tinyVolume d₁ 2 [0x41] = some d₂ ∧
        Undone tinyVolume dotEntry blankDisk d₂ 2 [0x41] (some p)) ∧
    ∀ d₁ reply, fat32CreateDirectory tinyVolume blankDisk 2 [0x41] = some (d₁, reply) →
      ∃ d₂ reply' slot, fat32Rmdir tinyVolume d₁ 2 [0x41] = some (d₂, reply') ∧
        Undone tinyVolume dotEntry blankDisk d₂ 2 [0x41] slot := by
  refine create_then_remove (blankDisk_wellFormed dotEntry) (by decide) ?_
  intro q hq hlive
  have hzero : ∀ q ∈ slots tinyVolume [2], blankDisk q = 0 := by decide
  exact absurd (hzero q (hq.mem blankDisk_chain)) hlive.1

end Undoing

end Fat32Undo
