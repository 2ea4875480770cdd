import SojebOS.Fat32Undo
import SojebOS.Fat32PathComposition

/-!
# Entering and leaving a new directory

The name of a new directory leads to its cluster, and its `..` leads back. In the record of a
directory the cluster number is split in two halves, and the root is written as 0; the path
search puts both together again.
-/
namespace Fat32EnterLeave

open ByteMemory MachineWord WhileLoop LinkedChain
open Fat32Disk Fat32Directory Fat32Files Fat32Tree Fat32Layout Fat32Volume
open Fat32Entries Fat32Growth Fat32TreeGrowth Fat32TreeInvariant Fat32TreeRuns Fat32Undo
open Fat32PathText Fat32PathComposition

section Searching

variable {fs : Fat32} {d : Bytes} {a c p : ℕ} {l : List ℕ} {s : List UInt8}

theorem cd_component (hs : Component s) (hne : s ≠ [])
    (hfind : findComponent fs d a s = some (some c)) (hc : c ≠ 0xFFFFFFFF)
    (hroot : fs.rootCluster ≠ 0xFFFFFFFF) :
    fat32Cd fs d a s = some (if c = 0 then fs.rootCluster else c, none) := by
  have hstart : ¬ s.getD 0 0 = slash := by
    obtain ⟨b, s, rfl⟩ := List.exists_cons_of_ne_nil hne
    exact fun hb => hs.no_slash (List.mem_cons.mpr (.inl hb.symm))
  have hwalk : followPath fs d (s.length + 1) a (s ++ pathText []) = _ :=
    followPath_component hs hne
  rw [pathText, List.flatMap_nil, List.append_nil, hfind, Option.bind_some] at hwalk
  apply cd_of_resolved
  · rw [fat32GetPathCluster, if_neg hstart, hwalk]
    obtain ⟨k, hk⟩ : ∃ k, s.length = k + 1 :=
      ⟨s.length - 1, by have := List.length_pos_of_ne_nil hne; omega⟩
    rw [hk]
    rfl
  · split
    · exact hroot
    · exact hc

theorem findComponent_unique (hg : Geometry fs) (hl : Chain fs d a l)
    (ht : (slots fs l).Pairwise fun p q => d p = 0 → d q = 0) (hp : p ∈ slots fs l)
    (hlive : Live d p) (hm : MatchesDirectory d (formatFilename s) p)
    (hother : ∀ q ∈ slots fs l, Live d q → Matches d (formatFilename s) q → q = p) :
    findComponent fs d a s = some (some (readEntry d p).firstCluster) := by
  rw [findComponent_eq hg hl ht]
  refine congrArg some (findSome?_unique hp (if_pos ⟨hlive, hm⟩) fun q hq r hr => ?_)
  unfold selectDirectory at hr
  split_ifs at hr with hsel
  rw [hother q hq hsel.1 hsel.2.1] at hr
  exact (Option.some.inj hr).symm

end Searching

section NewDirectory

variable {fs : Fat32} {skip : ℕ → List UInt8 → Prop} {d d' : Bytes} {cwd c p : ℕ}
variable {l : List ℕ} {name : List UInt8}

theorem createDirectory_created (hw : WellFormed fs skip d cwd)
    (hrun : fat32CreateDirectory fs d cwd name = some (d', some .directoryCreated)) :
    fat32FindFile fs d cwd name = some none ∧ Free fs d (fat32FindFreeCluster fs d) ∧
      ∃ l pre p post, Chain fs d cwd l ∧ slots fs l = pre ++ p :: post ∧ ¬ Live d p ∧
        (∀ q ∈ pre, Live d q) ∧
        d' = directoryRecorded fs d cwd (fat32FindFreeCluster fs d) p name := by
  have hg := hw.geometry
  obtain ⟨l, hl⟩ := hw.chain hw.current
  have hsearch := findFile_eq hg hl name
  cases hf : ((slots fs l).findSome? (searchAt d (Matches d (formatFilename name))
      (readEntry d))).join with
  | some e =>
    rw [hf] at hsearch
    rw [createDirectory_found hsearch] at hrun
    cases hrun
  | none =>
    rw [hf] at hsearch
    rcases findFreeCluster_spec (d := d) hg with ⟨hfull, -⟩ | hfree
    · rw [createDirectory_full hsearch hfull] at hrun
      cases hrun
    · rcases createDirectory_room hw hsearch hfree hl with
        ⟨-, hnone⟩ | ⟨pre, p, post, -, hs, hp, hpre, hsome⟩
      · rw [hnone] at hrun
        cases hrun
      · rw [hsome] at hrun
        cases hrun
        exact ⟨hsearch, hfree, l, pre, p, post, hl, hs, hp, hpre, rfl⟩

theorem newDirectory_parent (hw : WellFormed fs dotEntry d cwd) (hg : Geometry fs)
    (hc : Free fs d c) (hp : SlotOf fs d cwd p)
    (hleaf : Chain fs (directoryRecorded fs d cwd c p name) c [c])
    (htail : (slots fs [c]).Pairwise fun q r => directoryRecorded fs d cwd c p name q = 0 →
      directoryRecorded fs d cwd c p name r = 0) :
    fat32Cd fs (directoryRecorded fs d cwd c p name) c [dot, dot] = some (cwd, none) := by
  obtain ⟨l, hl⟩ := hw.chain hw.current
  obtain ⟨m, hm⟩ := hw.chain (.refl : Directory fs dotEntry d fs.rootCluster)
  have hclusters := hg.clusters
  have hcwd := hl.start_inRange
  have hroot := hm.start_inRange
  have hdots := directoryRecorded_dots name hg hc hp (hcwd.lt_word hg)
  have hname : formatFilename [dot, dot] = dotDotName := by decide
  have hmem : clusterAddr fs c + 32 ∈ slots fs [c] := by
    rw [slots_singleton, mem_clusterSlots]
    exact ⟨0, hg.perCluster_pos, 1, by norm_num, rfl⟩
  have hfind := findComponent_unique (s := [dot, dot]) hg hleaf htail hmem hdots.dotDot_named.live
    ⟨⟨hdots.dotDot_named.short, hname ▸ hdots.dotDot_name⟩, hdots.dotDot_directory⟩ ?_
  · have hparent : parentLink fs cwd ≠ 0xFFFFFFFF := by
      unfold parentLink
      split
      · norm_num
      · have := hcwd.2
        omega
    have hback : (if parentLink fs cwd = 0 then fs.rootCluster else parentLink fs cwd) = cwd := by
      unfold parentLink
      have := hcwd.1
      by_cases h : cwd = fs.rootCluster
      · rw [if_pos h, if_pos rfl, h]
      · rw [if_neg h, if_neg (by omega)]
    rw [hdots.dotDot_cluster] at hfind
    rw [cd_component ⟨by decide, by decide, by decide⟩ (by decide) hfind hparent
      (by have := hroot.2; omega), hback]
  · intro q hq hlive hmatch
    rw [slots_singleton] at hq
    rcases directoryRecorded_links hg hc hp hq ⟨hlive, hmatch.1⟩ with rfl | rfl
    · have hdot := hmatch.2
      rw [hdots.dot_name, hname] at hdot
      exact absurd hdot dotName_ne
    · rfl

/-- The name of a new directory leads to it, it is empty, and `..` leads back. -/
theorem new_directory_enter_leave (fs : Fat32) (d : Bytes) (cwd : ℕ)
    (hw : WellFormed fs dotEntry d cwd) (name : List UInt8) (hne : name ≠ [])
    (hname : Component name) (hmark : name.getD 0 0 ≠ deletedMark) (d' : Bytes)
    (hrun : fat32CreateDirectory fs d cwd name = some (d', some .directoryCreated)) :
    fat32Cd fs d' cwd name = some (fat32FindFreeCluster fs d, none) ∧
      isDirectoryEmpty fs d' (fat32FindFreeCluster fs d) = some true ∧
      fat32Cd fs d' (fat32FindFreeCluster fs d) [dot, dot] = some (cwd, none) := by
  have hg := hw.geometry
  have hclusters := hg.clusters
  obtain ⟨hfind, hfree, l, pre, p, post, hl, hs, hp, hpre, rfl⟩ := createDirectory_created hw hrun
  clear hrun
  generalize fat32FindFreeCluster fs d = c at hfree ⊢
  have hof : SlotOf fs d cwd p := ⟨l, hl, by rw [hs]; simp⟩
  have hadd := directoryRecorded_adds hw hfree hl hs hp hpre ⟨.inl rfl, .inr rfl⟩ name
  have hfirst : (readEntry (directoryRecorded fs d cwd c p name) p).firstCluster = c :=
    readEntry_fillEntry_firstCluster (hfree.1.lt_word hg)
  have hdir : (readEntry (directoryRecorded fs d cwd c p name) p).isDirectory := by
    rw [Fat32DirEntry.isDirectory, directoryRecorded, readEntry_fillEntry_attr]
    decide
  have hshort : (readEntry (directoryRecorded fs d cwd c p name) p).attr ≠ attrLongName := by
    rw [directoryRecorded, readEntry_fillEntry_attr]
    decide
  have hlive : Live (directoryRecorded fs d cwd c p name) p := by
    refine ⟨hadd.not_end, ?_⟩
    rw [directoryRecorded, fillEntry_first]
    exact formatFilename_ne_deleted hmark
  have hrecorded : (readEntry (directoryRecorded fs d cwd c p name) p).name =
      formatFilename name := readEntry_fillEntry_name (formatFilename_length name)
  have hleaf := hadd.leaf hdir
  have htail := hadd.leaf_tail hdir
  rw [hfirst] at hleaf
  have henter : findComponent fs (directoryRecorded fs d cwd c p name) cwd name =
      some (some c) := by
    rw [findComponent_unique hg (hadd.chain_kept hg hl) (hadd.zero_tail hw hw.current hl)
      (by rw [hs]; simp) hlive ⟨⟨hshort, hrecorded⟩, hdir⟩, hfirst]
    -- another slot with the name would have been found before
    intro q hq hq' hm
    by_contra hqp
    have hkept := hadd.slot_kept hg ⟨l, hl, hq⟩ hqp
    rw [Matches, readEntry_congr hkept] at hm
    exact findFile_none hw hfind q ⟨l, hl, hq⟩ ⟨(live_congr hkept).mp hq', hm.1⟩ hm.2
  obtain ⟨m, hm⟩ := hw.chain (.refl : Directory fs dotEntry d fs.rootCluster)
  have hroot := hm.start_inRange.2
  have hc := hfree.1
  refine ⟨?_, newDirectory_empty hg hfree hof (hl.start_inRange.lt_word hg) hleaf,
    newDirectory_parent hw hg hfree hof hleaf htail⟩
  rw [cd_component hname hne henter (by have := hc.2; omega) (by omega),
    if_neg (by have := hc.1; omega)]

theorem new_directory_enter_leave_blankDisk :
    fat32Cd tinyVolume oneDirectory 2 [0x44] =
        some (fat32FindFreeCluster tinyVolume blankDisk, none) ∧
      isDirectoryEmpty tinyVolume oneDirectory (fat32FindFreeCluster tinyVolume blankDisk) =
        some true ∧
      fat32Cd tinyVolume oneDirectory (fat32FindFreeCluster tinyVolume blankDisk) [dot, dot] =
        some (2, none) :=
  new_directory_enter_leave tinyVolume blankDisk 2 (blankDisk_wellFormed dotEntry) [0x44]
    (by decide) ⟨by decide, by decide, by decide⟩ (by decide) oneDirectory
    (firstDirectory_created (by decide +kernel))

end NewDirectory

end Fat32EnterLeave
