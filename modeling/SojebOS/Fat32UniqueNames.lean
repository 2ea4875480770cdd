import SojebOS.Fat32Links

/-!
# Unique names

`fat32_create_directory` looks for the name before it makes an entry, `fat32_write_file`
does not. As long as every write is to a name that the lookup does not find, and no
deletion takes the clusters of a link, no directory ever holds a name twice.
-/
namespace Fat32UniqueNames

open ByteMemory MachineWord WhileLoop LinkedChain
open Fat32Disk Fat32Directory Fat32Files Fat32Tree Fat32Layout Fat32Volume
open Fat32Entries Fat32Allocation Fat32Growth Fat32RoundTrip Fat32TreeGrowth Fat32Paths
open Fat32Removal Fat32TreeInvariant Fat32TreeRuns Fat32Links

/-- No directory that a path leads to holds two live short entries with one name. -/
def UniqueNames (fs : Fat32) (d : Bytes) : Prop :=
  ∀ a p q, Visits fs d a → SlotOf fs d a p → SlotOf fs d a q → Named d p → Named d q →
    (readEntry d p).name = (readEntry d q).name → p = q

inductive VolumeCall where
  | writeFile (filename : List UInt8) (data : Bytes) (size : ℕ)
  | createDirectory (dirname : List UInt8)
  | deleteFile (filename : List UInt8)
  | cd (path : List UInt8)

/-- The disk and the current directory after a call, if it returns. -/
def VolumeCall.step (fs : Fat32) : VolumeCall → Bytes × ℕ → Option (Bytes × ℕ)
  | .writeFile filename data size, (d, cwd) =>
    (fat32WriteFile fs d cwd filename data size).map fun r => (r.1, cwd)
  | .createDirectory dirname, (d, cwd) =>
    (fat32CreateDirectory fs d cwd dirname).map fun r => (r.1, cwd)
  | .deleteFile filename, (d, cwd) => (fat32DeleteFile fs d cwd filename).map fun d' => (d', cwd)
  | .cd path, (d, cwd) => (fat32Cd fs d cwd path).map fun r => (d, r.1)

/-- A write stores nothing, or no live entry, or its name is new. A deletion below the root
that finds a directory `.` or `..` finds no clusters with it. -/
def VolumeCall.Safe (fs : Fat32) : VolumeCall → Bytes × ℕ → Prop
  | .writeFile filename _ size, (d, cwd) =>
    (freeClusters fs d).length < clustersNeeded fs size ∨
      (∀ p, SlotOf fs d cwd p → Live d p) ∨
      (formatFilename filename).getD 0 0 = deletedMark ∨
      fat32FindFile fs d cwd filename = some none
  | .deleteFile filename, (d, cwd) =>
    linkEntry fs cwd (formatFilename filename) →
      ∀ e, fat32FindFile fs d cwd filename = some (some e) → e.isDirectory → e.firstCluster = 0
  | _, _ => True

def SafeRun (fs : Fat32) : Bytes × ℕ → Bytes × ℕ → Prop :=
  Relation.ReflTransGen fun s t => ∃ call : VolumeCall, call.Safe fs s ∧ call.step fs s = some t

/-- Some set of links makes the volume a tree with unique names. -/
def NamedTree (fs : Fat32) (d : Bytes) (cwd : ℕ) : Prop :=
  ∃ skip, LinkedTree fs skip d cwd ∧ UniqueIn fs skip d

section Names

variable {fs : Fat32} {skip : ℕ → List UInt8 → Prop} {d d' data : Bytes} {cwd c p size : ℕ}
variable {l pre post fresh : List ℕ} {name path : List UInt8} {e : Fat32DirEntry}

theorem uniqueNames_iff (h : LinkedTree fs skip d cwd) :
    UniqueNames fs d ↔ UniqueIn fs skip d := by
  have hv : ∀ a, Visits fs d a ↔ Directory fs skip d a := fun a =>
    visits_iff h.wellFormed h.linksRefer
  simp only [UniqueNames, UniqueIn, hv]

def unlink (skip : ℕ → List UInt8 → Prop) (cwd : ℕ) (name : List UInt8) :
    ℕ → List UInt8 → Prop :=
  fun a n => skip a n ∧ ¬ (a = cwd ∧ n = name)

def relink (skip : ℕ → List UInt8 → Prop) (c : ℕ) : ℕ → List UInt8 → Prop :=
  fun a n => skip a n ∨ a = c ∧ (n = dotName ∨ n = dotDotName)

theorem unlink_agree (skip : ℕ → List UInt8 → Prop)
    (hnew : ∀ q, SlotOf fs d cwd q → Named d q → (readEntry d q).name ≠ name) :
    Agree fs skip (unlink skip cwd name) d := by
  intro a p _ hp hn
  constructor
  · exact fun h => h.1
  · intro hs
    refine ⟨hs, ?_⟩
    rintro ⟨rfl, he⟩
    exact hnew p hp hn he

theorem relink_agree (hw : WellFormed fs skip d cwd) (hc : Free fs d c) :
    Agree fs skip (relink skip c) d := by
  intro a p ha _ _
  constructor
  · rintro (hs | ⟨rfl, -⟩)
    · exact hs
    · obtain ⟨l, hl⟩ := hw.chain ha
      exact absurd hc (hl.not_free hl.head_mem)
  · exact Or.inl

/-- No live entry has a name that the search does not find, or one that begins with the
mark of a deleted slot. -/
theorem name_new (name : List UInt8) (hw : WellFormed fs skip d cwd)
    (h : (formatFilename name).getD 0 0 = deletedMark ∨ fat32FindFile fs d cwd name = some none) :
    ∀ q, SlotOf fs d cwd q → Named d q → (readEntry d q).name ≠ formatFilename name := by
  rcases h with hm | hf
  · intro q _ hn he
    apply hn.live.2
    rw [← hm, ← he]
    rfl
  · exact findFile_none hw hf

theorem writeFile_named (h : NamedTree fs d cwd) {exit : WriteExit}
    (hsafe : (VolumeCall.writeFile name data size).Safe fs (d, cwd))
    (hrun : fat32WriteFile fs d cwd name data size = some (d', exit)) :
    NamedTree fs d' cwd := by
  obtain ⟨skip, ht, hu⟩ := h
  have hw := ht.wellFormed
  have hsame : ∀ {d₁ first fresh}, Written fs d data size d₁ first fresh → NamedTree fs d₁ cwd :=
    fun hwr =>
      have hs := sameTree_of_grown hw (written_grown hwr)
      ⟨skip, hs.linkedTree ht, hs.uniqueIn hw hu⟩
  obtain ⟨d₁, first, fresh, hwr,
      ⟨hr, -⟩ | ⟨-, -, hr⟩ | ⟨hlen, l, pre, p, post, hl, hs, hp, hpre, hr⟩⟩ :=
    writeFile_spec hw name data size
  · rw [hr] at hrun
    cases hrun
    exact hsame hwr
  · rw [hr] at hrun
    cases hrun
    exact hsame hwr
  · rw [hr] at hrun
    cases hrun
    have hof : SlotOf fs d cwd p := ⟨l, hl, by rw [hs]; simp⟩
    have hnew := name_new name hw (by
      rcases hsafe with hless | hfull | h
      · have := written_length_le hwr
        omega
      · exact absurd (hfull p hof) hp
      · exact h)
    have ha := unlink_agree skip hnew
    have ht := ha.linkedTree ht
    have hu := ha.uniqueIn hu
    have hadd : Adds fs (unlink skip cwd (formatFilename name)) d
        (fillEntry d₁ p (formatFilename name) attrArchive first size) cwd l pre p post fresh :=
      fileRecorded_adds hw.geometry hwr hl hs hp hpre
    have hname : (readEntry (fillEntry d₁ p (formatFilename name) attrArchive first size)
        p).name = formatFilename name :=
      readEntry_fillEntry_name (formatFilename_length name)
    refine ⟨_, Adds.linkedTree ht hadd ?_ ?_, Adds.uniqueIn ht.wellFormed hu hadd ?_ ?_⟩
    · intro _ hs
      rw [hname] at hs
      exact hs.2 ⟨rfl, rfl⟩
    · exact fun h => absurd h fileRecorded_not_directory
    · intro _ q hq hn
      rw [hname]
      exact hnew q hq hn
    · exact fun h => absurd h fileRecorded_not_directory

theorem createDirectory_named (h : NamedTree fs d cwd) {reply : Option Reply}
    (hrun : fat32CreateDirectory fs d cwd name = some (d', reply)) : NamedTree fs d' cwd := by
  obtain ⟨skip, ht, hu⟩ := h
  have hw := ht.wellFormed
  have hg := hw.geometry
  rcases createDirectory_spec hw hrun with
    rfl | ⟨hfind, c, l, pre, p, post, hc, hl, hs, hp, hpre, rfl⟩
  · exact ⟨skip, ht, hu⟩
  have hof : SlotOf fs d cwd p := ⟨l, hl, by rw [hs]; simp⟩
  have hroot := hw.free_ne_root hc
  have hne : cwd ≠ c := by
    rintro rfl
    exact hl.not_free hl.head_mem hc
  have hclt := hc.1.lt_word hg
  have hcwd := directory_pos hw hw.current
  -- the new directory's links come in, and a link of the current directory that was lost
  -- gives way to the new entry
  have hnew := findFile_none hw hfind
  have ha := unlink_agree skip hnew
  have ht := ha.linkedTree ht
  have hu := ha.uniqueIn hu
  have hb := relink_agree ht.wellFormed hc
  have ht := hb.linkedTree ht
  have hu := hb.uniqueIn hu
  have hadd : Adds fs (relink (unlink skip cwd (formatFilename name)) c) d
      (directoryRecorded fs d cwd c p name) cwd l pre p post [c] :=
    directoryRecorded_adds ht.wellFormed hc hl hs hp hpre
      ⟨.inr ⟨rfl, .inl rfl⟩, .inr ⟨rfl, .inr rfl⟩⟩ name
  have hdots : DotSlots fs (directoryRecorded fs d cwd c p name) c cwd :=
    directoryRecorded_dots _ hg hc hof (by omega)
  have hfirst : (readEntry (directoryRecorded fs d cwd c p name) p).firstCluster = c :=
    readEntry_fillEntry_firstCluster hclt
  have hname : (readEntry (directoryRecorded fs d cwd c p name) p).name =
      formatFilename name := readEntry_fillEntry_name (formatFilename_length name)
  have hleaf : ∀ q ∈ slots fs [c], Named (directoryRecorded fs d cwd c p name) q →
      q = clusterAddr fs c ∨ q = clusterAddr fs c + 32 := by
    intro q hq hn
    rw [slots_singleton] at hq
    exact directoryRecorded_links hg hc hof hq hn
  change NamedTree fs (directoryRecorded fs d cwd c p name) cwd
  refine ⟨_, Adds.linkedTree ht hadd ?_ ?_, Adds.uniqueIn ht.wellFormed hu hadd ?_ ?_⟩
  · intro _ hs
    rw [hname] at hs
    rcases hs with hs | ⟨he, -⟩
    · exact hs.2 ⟨rfl, rfl⟩
    · exact hne he
  · intro _ q hq hn
    rw [hfirst]
    rcases hleaf q hq hn with rfl | rfl
    · exact ⟨⟨hroot, .inl hdots.dot_name⟩, hdots.dot_directory,
        .inl (target_dot hdots (by have := hc.1.1; omega))⟩
    · exact ⟨⟨hroot, .inr hdots.dotDot_name⟩, hdots.dotDot_directory,
        .inr (target_dotDot hdots (by omega))⟩
  · intro _ q hq hn
    rw [hname]
    exact hnew q hq hn
  · intro _ q hq r hr hnq hnr he
    rcases hleaf q hq hnq with rfl | rfl <;> rcases hleaf r hr hnr with rfl | rfl
    · rfl
    · rw [hdots.dot_name, hdots.dotDot_name] at he
      exact absurd he dotName_ne
    · rw [hdots.dot_name, hdots.dotDot_name] at he
      exact absurd he.symm dotName_ne
    · rfl

theorem deleteFile_named (h : NamedTree fs d cwd)
    (hsafe : (VolumeCall.deleteFile name).Safe fs (d, cwd))
    (hrun : fat32DeleteFile fs d cwd name = some d') : NamedTree fs d' cwd := by
  obtain ⟨skip, ht, hu⟩ := h
  have hw := ht.wellFormed
  rcases deleteFile_spec hw (fun p => entry_extent hw ht.linksRefer) name with
    ⟨hr, -, -⟩ | ⟨p, m, d₁, hp, hn, hname, hfind, hm, hrem, hr⟩
  · rw [hr] at hrun
    cases hrun
    exact ⟨skip, ht, hu⟩
  · rw [hr] at hrun
    cases hrun
    by_cases hs : skip cwd (readEntry d p).name
    · obtain ⟨hlink, hdir, -⟩ := ht.links cwd p hw.current hp hn hs
      have h0 := hsafe (hname ▸ hlink) _ hfind hdir
      rw [h0] at hm
      rw [hm.unique (.inl ⟨rfl, rfl⟩)] at hrem
      have hsame := sameTree_of_link hw hrem hn hs
      exact ⟨skip, hsame.linkedTree ht, hsame.uniqueIn hw hu⟩
    · have hitem : ItemRemoved fs skip d d' cwd p m := ⟨hrem, ⟨hp, hn, hs⟩, hm⟩
      exact ⟨skip, ItemRemoved.linkedTree ht hitem, ItemRemoved.uniqueIn hw hu hitem⟩

theorem cd_named (h : NamedTree fs d cwd) {cwd' : ℕ} {reply : Option Reply}
    (hrun : fat32Cd fs d cwd path = some (cwd', reply)) : NamedTree fs d cwd' := by
  obtain ⟨skip, ht, hu⟩ := h
  exact ⟨skip, ht.move (cd_directory ht.wellFormed ht.linksRefer hrun), hu⟩

end Names

section Runs

variable {fs : Fat32} {s t : Bytes × ℕ} {d : Bytes} {cwd : ℕ}

theorem safe_step_named {call : VolumeCall} (h : NamedTree fs s.1 s.2) (hsafe : call.Safe fs s)
    (hs : call.step fs s = some t) : NamedTree fs t.1 t.2 := by
  cases call with
  | writeFile filename data size =>
    obtain ⟨⟨d', exit⟩, hrun, rfl⟩ := Option.map_eq_some_iff.mp hs
    exact writeFile_named h hsafe hrun
  | createDirectory dirname =>
    obtain ⟨⟨d', reply⟩, hrun, rfl⟩ := Option.map_eq_some_iff.mp hs
    exact createDirectory_named h hrun
  | deleteFile filename =>
    obtain ⟨d', hrun, rfl⟩ := Option.map_eq_some_iff.mp hs
    exact deleteFile_named h hsafe hrun
  | cd path =>
    obtain ⟨⟨cwd', reply⟩, hrun, rfl⟩ := Option.map_eq_some_iff.mp hs
    exact cd_named h hrun

theorem safeRun_named (h : NamedTree fs s.1 s.2) (hr : SafeRun fs s t) :
    NamedTree fs t.1 t.2 := by
  induction hr with
  | refl => exact h
  | tail _ hs ih =>
    obtain ⟨call, hsafe, hs⟩ := hs
    exact safe_step_named ih hsafe hs

theorem lookup_unique (h : NamedTree fs d cwd) {name : List UInt8} {p : ℕ}
    (hp : SlotOf fs d cwd p) (hn : Named d p) (hname : (readEntry d p).name = formatFilename name) :
    fat32FindFile fs d cwd name = some (some (readEntry d p)) := by
  obtain ⟨skip, ht, hu⟩ := h
  have hw := ht.wellFormed
  obtain ⟨l, hl⟩ := hw.chain hw.current
  rw [findFile_eq hw.geometry hl]
  cases hv : ((slots fs l).findSome? (searchAt d (Matches d (formatFilename name))
      (readEntry d))).join with
  | none =>
    exact absurd ⟨hn.short, hname⟩
      (search_none (hw.zero_tail cwd l hw.current hl) hv p (hp.mem hl) hn.live)
  | some e =>
    obtain ⟨pre, q, post, hs, hlive, hm, rfl, -⟩ := search_some hv
    have hq : SlotOf fs d cwd q := ⟨l, hl, by rw [hs]; simp⟩
    rw [hu cwd p q hw.current hp hq hn ⟨hlive, hm.1⟩ (hname.trans hm.2.symm)]

theorem stored_fits {name : List UInt8} {data d' : Bytes} {size : ℕ}
    {skip : ℕ → List UInt8 → Prop} (hw : WellFormed fs skip d cwd)
    (hrun : fat32WriteFile fs d cwd name data size = some (d', .stored)) :
    clustersNeeded fs size ≤ (freeClusters fs d).length ∧ ∃ p, SlotOf fs d cwd p ∧ ¬ Live d p := by
  obtain ⟨d₁, first, fresh, hwr, ⟨hr, -⟩ | ⟨-, -, hr⟩ | ⟨hlen, l, pre, p, post, hl, hs, hp, -⟩⟩ :=
    writeFile_spec hw name data size
  · rw [hr] at hrun
    cases hrun
  · rw [hr] at hrun
    cases hrun
  · refine ⟨?_, p, ⟨l, hl, by rw [hs]; simp⟩, hp⟩
    rw [← hlen]
    exact written_length_le hwr

/-- Along a safe run the names of every directory stay unique, a lookup finds the one entry
with the name, and after a write of a new name it finds the data written. -/
theorem names_stay_unique (h : TreeInvariant fs s.1 s.2) (hu : UniqueNames fs s.1)
    (hr : SafeRun fs s (d, cwd)) :
    UniqueNames fs d ∧
    (∀ name p, SlotOf fs d cwd p → Named d p → (readEntry d p).name = formatFilename name →
      fat32FindFile fs d cwd name = some (some (readEntry d p))) ∧
    ∀ name data size d', fat32FindFile fs d cwd name = some none →
      name.getD 0 0 ≠ deletedMark → size + bytesPerCluster fs ≤ 2 ^ 32 →
      fat32WriteFile fs d cwd name data size = some (d', .stored) →
      ∃ node, fat32FileLookup fs d' cwd name = some (some node) ∧ node.size = size ∧
        vfsRead fs d' node 0 size = some ((List.range size).map data) := by
  have ht := TreeInvariant.linkedTree h
  have hn : NamedTree fs d cwd := safeRun_named ⟨_, ht, (uniqueNames_iff ht).mp hu⟩ hr
  obtain ⟨skip, ht', hu'⟩ := hn
  have hw := ht'.wellFormed
  refine ⟨(uniqueNames_iff ht').mpr hu', ?_, ?_⟩
  · intro name p hp hnp he
    exact lookup_unique ⟨skip, ht', hu'⟩ hp hnp he
  · intro name data size d' hf hmark hsize hrun
    obtain ⟨hspace, hslot⟩ := stored_fits hw hrun
    obtain ⟨d'', node, hrun', hnode⟩ := stored_then_found data hw hmark
      (findFile_none hw hf) hsize hspace hslot
    rw [hrun] at hrun'
    cases hrun'
    exact ⟨node, hnode⟩

theorem blankDisk_uniqueNames : UniqueNames tinyVolume blankDisk := by
  have ht := TreeInvariant.linkedTree blankDisk_invariant
  apply (uniqueNames_iff ht).mpr
  intro a p q ha hp _ hn
  have hzero : ∀ q ∈ slots tinyVolume [2], blankDisk q = 0 := by decide
  rw [directory_of_empty_root blankDisk_chain hzero ha] at hp
  exact absurd (hzero p (hp.mem blankDisk_chain)) hn.live.1

theorem writeEmptyFile_step {d : Bytes} {p : ℕ} (hp : 32 ∣ p)
    (hwalk : walkDirectory tinyVolume d 2 (freeSlotVisit d) =
      some (some (p / 512, p % 512 / 32))) (name : List UInt8) :
    (VolumeCall.writeFile name (fun _ => 0) 0).step tinyVolume (d, 2) =
      some (fillEntry d p (formatFilename name) attrArchive 0 0, 2) := by
  have hrun : fat32WriteFile tinyVolume d 2 name (fun _ => 0) 0 =
      some (fillEntry d p (formatFilename name) attrArchive 0 0, .stored) := by
    rw [fat32WriteFile, show clustersNeeded tinyVolume 0 = 0 by decide, allocateClusters]
    exact recordFile_slot hp hwalk
  simp only [VolumeCall.step, hrun, Option.map_some]

/-- A directory `D` and an empty file `A`. -/
def directoryAndFile : Bytes := fillEntry oneDirectory 1056 (formatFilename [0x41]) attrArchive 0 0

theorem directoryAndFile_run :
    SafeRun tinyVolume (blankDisk, 2) (directoryAndFile, 2) := by
  have hmk : (VolumeCall.createDirectory [0x44]).step tinyVolume (blankDisk, 2) =
      some (oneDirectory, 2) := createDirectory_blankDisk (by decide +kernel)
  have hwrite : (VolumeCall.writeFile [0x41] (fun _ => 0) 0).step tinyVolume (oneDirectory, 2) =
      some (directoryAndFile, 2) := writeEmptyFile_step (by decide) (by decide +kernel) [0x41]
  have hnew : fat32FindFile tinyVolume oneDirectory 2 [0x41] = some none := by decide +kernel
  have hsafe : (VolumeCall.writeFile [0x41] (fun _ => 0) 0).Safe tinyVolume (oneDirectory, 2) := by
    rw [VolumeCall.Safe]
    exact .inr (.inr (.inr hnew))
  have hmade : SafeRun tinyVolume (blankDisk, 2) (oneDirectory, 2) :=
    .single ⟨.createDirectory [0x44], trivial, hmk⟩
  exact hmade.tail ⟨_, hsafe, hwrite⟩

theorem names_stay_unique_directoryAndFile :
    UniqueNames tinyVolume directoryAndFile ∧
    (∀ name p, SlotOf tinyVolume directoryAndFile 2 p → Named directoryAndFile p →
      (readEntry directoryAndFile p).name = formatFilename name →
      fat32FindFile tinyVolume directoryAndFile 2 name =
        some (some (readEntry directoryAndFile p))) ∧
    ∀ name data size d', fat32FindFile tinyVolume directoryAndFile 2 name = some none →
      name.getD 0 0 ≠ deletedMark → size + bytesPerCluster tinyVolume ≤ 2 ^ 32 →
      fat32WriteFile tinyVolume directoryAndFile 2 name data size = some (d', .stored) →
      ∃ node, fat32FileLookup tinyVolume d' 2 name = some (some node) ∧ node.size = size ∧
        vfsRead tinyVolume d' node 0 size = some ((List.range size).map data) :=
  names_stay_unique (s := (blankDisk, 2)) blankDisk_invariant blankDisk_uniqueNames
    directoryAndFile_run

/-- An empty file `A` has been written once. -/
def oneFile : Bytes := fillEntry blankDisk 1024 (formatFilename [0x41]) attrArchive 0 0

def twoFiles : Bytes := fillEntry oneFile 1056 (formatFilename [0x41]) attrArchive 0 0

/-- Writing a name twice makes two entries. -/
theorem names_repeat : ¬ ∀ (fs : Fat32) (s t : Bytes × ℕ), TreeInvariant fs s.1 s.2 →
    UniqueNames fs s.1 →
    Relation.ReflTransGen (fun s t => ∃ call : VolumeCall, call.step fs s = some t) s t →
    UniqueNames fs t.1 := by
  intro h
  have hfirst : (VolumeCall.writeFile [0x41] (fun _ => 0) 0).step tinyVolume (blankDisk, 2) =
      some (oneFile, 2) := writeEmptyFile_step (by decide) (by decide +kernel) [0x41]
  have hsecond : (VolumeCall.writeFile [0x41] (fun _ => 0) 0).step tinyVolume (oneFile, 2) =
      some (twoFiles, 2) := writeEmptyFile_step (by decide) (by decide +kernel) [0x41]
  have hu := h tinyVolume (blankDisk, 2) (twoFiles, 2) blankDisk_invariant blankDisk_uniqueNames
    ((Relation.ReflTransGen.single ⟨_, hfirst⟩).tail ⟨_, hsecond⟩)
  have hl : Chain tinyVolume twoFiles 2 [2] := by
    refine ⟨.cons (by decide) (.nil (by decide +kernel)), fun c hc => ?_, by simp⟩
    rw [List.mem_singleton.mp hc]
    exact ⟨by decide, by decide⟩
  have hnamed : ∀ p ∈ [1024, 1056], Named twoFiles p := by
    intro p hp
    rcases List.mem_pair.mp hp with rfl | rfl
    · exact ⟨by decide +kernel, by decide +kernel⟩
    · exact ⟨by decide +kernel, by decide +kernel⟩
  have := hu 2 1024 1056 ⟨[], .root, .root, trivial, rfl⟩ ⟨[2], hl, by decide⟩
    ⟨[2], hl, by decide⟩ (hnamed 1024 (by simp)) (hnamed 1056 (by simp)) (by decide +kernel)
  omega

end Runs

end Fat32UniqueNames
