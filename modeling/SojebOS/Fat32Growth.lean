import SojebOS.Fat32Entries
import SojebOS.Fat32Allocation

/-!
# Writing a file or making a directory preserves what was there

Both operations take free clusters and at most one slot of the current directory that is
not live. Everything the tree owns lies elsewhere, so it stays as it was.
-/
namespace Fat32Growth

open ByteMemory MachineWord WhileLoop LinkedChain
open Fat32Disk Fat32Directory Fat32Files Fat32Tree Fat32Layout Fat32Volume
open Fat32Entries Fat32Allocation

/-- The two disks differ in the territory of clusters that were free and in one slot. -/
structure Grown (fs : Fat32) (d d' : Bytes) (fresh : List ℕ) (slot : Option ℕ) : Prop where
  free : ∀ c ∈ fresh, Free fs d c
  frame : ∀ x, x ∉ territories fs fresh → (∀ p ∈ slot, x ∉ slotBytes p) → d' x = d x

/-- What an operation that adds an entry leaves in place, and the chain of that entry. -/
structure PreservesOld (fs : Fat32) (skip : ℕ → List UInt8 → Prop) (d d' : Bytes)
    (cwd : ℕ) (slot : Option ℕ) : Prop where
  slot_free : ∀ p ∈ slot, SlotOf fs d cwd p ∧ ¬ Live d p
  live_kept : ∀ a p, Directory fs skip d a → SlotOf fs d a p → Live d p →
    Set.EqOn d' d (slotBytes p)
  slots_kept : ∀ a p, Directory fs skip d a → SlotOf fs d a p → slot ≠ some p →
    Set.EqOn d' d (slotBytes p)
  chains_kept : ∀ x : Item, x.Present fs skip d → ∀ l, Extent fs d (x.start fs d) l →
    Extent fs d' (x.start fs d) l
  files_kept : ∀ x : Item, x.Present fs skip d → ¬ x.IsDirectory d →
    ∀ l, Extent fs d (x.start fs d) l → ∀ c ∈ l, Set.EqOn d' d (dataArea fs c)
  new_chain : ∀ p ∈ slot, ∃ l, Extent fs d' (readEntry d' p).firstCluster l ∧
    ∀ x : Item, x.Present fs skip d → ∀ m, Extent fs d (x.start fs d) m → l.Disjoint m

section Frames

variable {fs : Fat32} {skip : ℕ → List UInt8 → Prop} {d d' : Bytes} {cwd a p c x : ℕ}
variable {fresh l : List ℕ} {slot : Option ℕ}

theorem Grown.fresh_inRange (h : Grown fs d d' fresh slot) : ∀ c ∈ fresh, InRange fs c :=
  fun c hc => (h.free c hc).1

theorem Grown.disjoint (h : Grown fs d d' fresh slot) (hl : Extent fs d a l) :
    fresh.Disjoint l := fun c hc hl' => hl.not_free hl' (h.free c hc)

theorem Grown.not_fresh (hg : Geometry fs) (h : Grown fs d d' fresh slot)
    (hl : Extent fs d a l) (hx : x ∈ territories fs l) : x ∉ territories fs fresh :=
  territories_disjoint hg hl.inRange h.fresh_inRange (h.disjoint hl).symm hx

theorem noSlot (fs : Fat32) (d : Bytes) (cwd : ℕ) :
    ∀ p ∈ (none : Option ℕ), SlotOf fs d cwd p := by simp

theorem Grown.cell_kept (hg : Geometry fs) (h : Grown fs d d' fresh slot)
    (hslot : ∀ p ∈ slot, SlotOf fs d cwd p) (hl : Extent fs d a l) (hc : c ∈ l) :
    Set.EqOn d' d (cell fs c) := by
  intro x hx
  apply h.frame x
  · exact h.not_fresh hg hl ⟨c, hc, .inl hx⟩
  · exact fun p hp => (hslot p hp).not_cell hg (hl.inRange c hc).2 hx

theorem Grown.slot_kept (hg : Geometry fs) (h : Grown fs d d' fresh slot)
    (hslot : ∀ p ∈ slot, SlotOf fs d cwd p) (hp : SlotOf fs d a p) (hne : slot ≠ some p) :
    Set.EqOn d' d (slotBytes p) := by
  obtain ⟨l, hl, hpl⟩ := hp
  intro x hx
  apply h.frame x
  · exact h.not_fresh hg (.inr hl) (slotBytes_subset hpl hx)
  · intro q hq
    refine slotBytes_disjoint (slots_dvd hpl) (hslot q hq).dvd ?_ hx
    rintro rfl
    exact hne hq

theorem Grown.extent_kept (hg : Geometry fs) (h : Grown fs d d' fresh slot)
    (hslot : ∀ p ∈ slot, SlotOf fs d cwd p) (hl : Extent fs d a l) : Extent fs d' a l :=
  hl.congr hg fun _ hc => h.cell_kept hg hslot hl hc

theorem Grown.chain_kept (hg : Geometry fs) (h : Grown fs d d' fresh slot)
    (hslot : ∀ p ∈ slot, SlotOf fs d cwd p) (hl : Chain fs d a l) : Chain fs d' a l :=
  hl.congr hg fun _ hc => h.cell_kept hg hslot (.inr hl) hc

theorem Grown.preservesOld (hw : WellFormed fs skip d cwd) (h : Grown fs d d' fresh slot)
    (hslot : ∀ p ∈ slot, SlotOf fs d cwd p ∧ ¬ Live d p)
    (hnew : ∀ p ∈ slot, ∃ l, Extent fs d' (readEntry d' p).firstCluster l ∧ l ⊆ fresh) :
    PreservesOld fs skip d d' cwd slot := by
  have hg := hw.geometry
  have hof : ∀ p ∈ slot, SlotOf fs d cwd p := fun p hp => (hslot p hp).1
  refine ⟨hslot, ?_, ?_, ?_, ?_, ?_⟩
  · intro a p _ hp hlive
    refine h.slot_kept hg hof hp ?_
    rintro rfl
    exact (hslot p rfl).2 hlive
  · intro a p _ hp hne
    exact h.slot_kept hg hof hp hne
  · intro x _ l hl
    exact h.extent_kept hg hof hl
  · intro x hx hfile l hl c hc y hy
    apply h.frame y
    · exact h.not_fresh hg hl ⟨c, hc, .inr hy⟩
    · intro p hp hyp
      exact hw.file_apart hw.current (hof p hp) hx hfile hl hyp ⟨c, hc, .inr hy⟩
  · intro p hp
    obtain ⟨l, hl, hsub⟩ := hnew p hp
    refine ⟨l, hl, fun x _ m hm c hc hcm => ?_⟩
    exact h.disjoint hm (hsub hc) hcm

end Frames

section Writing

variable {fs : Fat32} {skip : ℕ → List UInt8 → Prop} {d d₁ data : Bytes} {cwd size : ℕ}
variable {first : ℕ} {fresh : List ℕ} {name : List UInt8}

theorem written_grown (h : Written fs d data size d₁ first fresh) :
    Grown fs d d₁ fresh none :=
  ⟨h.free, fun x hx _ => h.outside x hx⟩

theorem written_live_iff (hg : Geometry fs) (h : Written fs d data size d₁ first fresh)
    {a p : ℕ} (hp : SlotOf fs d a p) : Live d₁ p ↔ Live d p :=
  live_congr ((written_grown h).slot_kept hg (noSlot fs d a) hp (by simp))

theorem recordFile_noSlot (h : walkDirectory fs d₁ cwd (freeSlotVisit d₁) = some none) :
    recordFile fs cwd name size (d₁, some first) = some (d₁, .noFreeSlot) := by
  simp only [recordFile, h, Option.map_some]

theorem recordFile_slot {p : ℕ} (hp : 32 ∣ p)
    (h : walkDirectory fs d₁ cwd (freeSlotVisit d₁) = some (some (p / 512, p % 512 / 32))) :
    recordFile fs cwd name size (d₁, some first) =
      some (fillEntry d₁ p (formatFilename name) attrArchive first size, .stored) := by
  simp only [recordFile, h, Option.map_some, storeEntry_eq hp]

/-- The outcomes of `fat32_write_file`: the clusters run out, or all data is written and
the first slot of the directory that is not live is taken, if there is one. -/
theorem writeFile_spec (hw : WellFormed fs skip d cwd) (name : List UInt8) (data : Bytes)
    (size : ℕ) : ∃ d₁ first fresh, Written fs d data size d₁ first fresh ∧
    (fat32WriteFile fs d cwd name data size = some (d₁, .noFreeCluster) ∧
        fresh.length < clustersNeeded fs size ∧ (∀ c, ¬ Free fs d₁ c) ∨
      fresh.length = clustersNeeded fs size ∧ (∀ p, SlotOf fs d cwd p → Live d p) ∧
        fat32WriteFile fs d cwd name data size = some (d₁, .noFreeSlot) ∨
      fresh.length = clustersNeeded fs size ∧ ∃ l pre p post, Chain fs d cwd l ∧
        slots fs l = pre ++ p :: post ∧ ¬ Live d p ∧ (∀ q ∈ pre, Live d q) ∧
        fat32WriteFile fs d cwd name data size =
          some (fillEntry d₁ p (formatFilename name) attrArchive first size, .stored)) := by
  have hg := hw.geometry
  obtain ⟨d₁, first, fresh, hwr, ⟨hal, hlen⟩ | ⟨hal, hlen, hfull⟩⟩ :=
    allocate_spec hg d data size
  · refine ⟨d₁, first, fresh, hwr, .inr ?_⟩
    obtain ⟨l, hl⟩ := hw.chain hw.current
    have hl₁ : Chain fs d₁ cwd l := (written_grown hwr).chain_kept hg (noSlot fs d cwd) hl
    have hlive : ∀ p ∈ slots fs l, Live d₁ p ↔ Live d p := fun p hp =>
      written_live_iff hg hwr ⟨l, hl, hp⟩
    rcases freeSlotWalk_spec hg hl₁ with ⟨hall, hwalk⟩ | ⟨pre, p, post, hs, hp, hpre, hwalk⟩
    · refine .inl ⟨hlen, fun p hp => ?_, by rw [fat32WriteFile, hal, recordFile_noSlot hwalk]⟩
      exact (hlive p (hp.mem hl)).mp (hall p (hp.mem hl))
    · have hmem : p ∈ slots fs l := by rw [hs]; simp
      refine .inr ⟨hlen, l, pre, p, post, hl, hs, fun h => hp ((hlive p hmem).mpr h), ?_, ?_⟩
      · intro q hq
        exact (hlive q (by rw [hs]; simp [hq])).mp (hpre q hq)
      · rw [fat32WriteFile, hal, recordFile_slot (slots_dvd hmem) hwalk]
  · exact ⟨d₁, first, fresh, hwr, .inl ⟨by rw [fat32WriteFile, hal, recordFile], hlen, hfull⟩⟩

theorem Grown.fillEntry (h : Grown fs d d₁ fresh none) (name : List UInt8) (attr : UInt8)
    (size : ℕ) (hg : Geometry fs) {p : ℕ} (hp : SlotOf fs d cwd p)
    (hfirst : Extent fs d₁ first fresh) :
    Grown fs d (fillEntry d₁ p name attr first size) fresh (some p) ∧
      Extent fs (fillEntry d₁ p name attr first size)
        (readEntry (fillEntry d₁ p name attr first size) p).firstCluster fresh := by
  refine ⟨⟨h.free, fun x hx hxp => ?_⟩, ?_⟩
  · rw [fillEntry_outside (hxp p rfl)]
    exact h.frame x hx (by simp)
  · have hlt : first < 2 ^ 32 := by
      rcases hfirst with ⟨rfl, -⟩ | hc
      · norm_num
      · have h1 := hc.start_inRange.2
        have h2 := hg.clusters
        omega
    rw [readEntry_fillEntry_firstCluster hlt]
    refine hfirst.congr hg fun c hc x hx => fillEntry_outside ?_
    exact hp.not_cell hg (hfirst.inRange c hc).2 hx

theorem writeFile_preserves (hw : WellFormed fs skip d cwd) (name : List UInt8)
    (data : Bytes) (size : ℕ) :
    ∃ d' exit slot, fat32WriteFile fs d cwd name data size = some (d', exit) ∧
      (exit = .stored ↔ slot ≠ none) ∧ PreservesOld fs skip d d' cwd slot := by
  have hg := hw.geometry
  obtain ⟨d₁, first, fresh, hwr, h | h | h⟩ := writeFile_spec hw name data size
  · exact ⟨d₁, .noFreeCluster, none, h.1, by simp,
      (written_grown hwr).preservesOld hw (by simp) (by simp)⟩
  · exact ⟨d₁, .noFreeSlot, none, h.2.2, by simp,
      (written_grown hwr).preservesOld hw (by simp) (by simp)⟩
  · obtain ⟨-, l, pre, p, post, hl, hs, hp, -, hrun⟩ := h
    have hof : SlotOf fs d cwd p := ⟨l, hl, by rw [hs]; simp⟩
    obtain ⟨hgr, hext⟩ := (written_grown hwr).fillEntry (formatFilename name) attrArchive
      size hg hof hwr.extent
    refine ⟨_, .stored, some p, hrun, by simp, hgr.preservesOld hw ?_ ?_⟩
    · rintro q ⟨⟩
      exact ⟨hof, hp⟩
    · rintro q ⟨⟩
      exact ⟨fresh, hext, List.Subset.refl _⟩

end Writing

section Directories

variable {fs : Fat32} {skip : ℕ → List UInt8 → Prop} {d d' : Bytes} {cwd c parent x o : ℕ}

theorem zeroSectors_spec (hg : Geometry fs) (hc : InRange fs c) (n : ℕ)
    (hn : n + 1 ≤ fs.sectorsPerCluster) :
    (∀ x, x < clusterAddr fs c + 512 ∨ clusterAddr fs c + 512 + 512 * n ≤ x →
      (List.range' 1 n).foldl (zeroSector (clusterToSector fs c)) d x = d x) ∧
    ∀ o < 512 * n, (List.range' 1 n).foldl (zeroSector (clusterToSector fs c)) d
      (clusterAddr fs c + 512 + o) = 0 := by
  induction n with
  | zero => exact ⟨fun _ _ => rfl, fun o h => by omega⟩
  | succ n ih =>
    obtain ⟨hout, hin⟩ := ih (by omega)
    rw [List.range'_concat, Nat.one_mul, List.foldl_append, List.foldl_cons, List.foldl_nil,
      zeroSector]
    have ha := sector_addr hg hc (s := 1 + n) (by omega)
    refine ⟨fun x hx => ?_, fun o ho => ?_⟩
    · rw [diskWrite_outside (by omega), hout x (by omega)]
    · by_cases h : o < 512 * n
      · rw [diskWrite_outside (by omega), hin o h]
      · obtain ⟨k, rfl⟩ := Nat.exists_eq_add_of_le (Nat.not_lt.mp h)
        have he : clusterAddr fs c + 512 + (512 * n + k) =
            512 * u32 (clusterToSector fs c + (1 + n)) + k := by omega
        rw [he, diskWrite_inside (by omega)]

/-- A new directory cluster: the two dot entries, then zeros. -/
theorem initDirectoryCluster_spec (hg : Geometry fs) (hc : InRange fs c) :
    (∀ x, x ∉ dataArea fs c → initDirectoryCluster fs d c parent x = d x) ∧
      ∀ o < bytesPerCluster fs, initDirectoryCluster fs d c parent (clusterAddr fs c + o) =
        if o < 512 then dotEntries fs c parent o else 0 := by
  have hpos := hg.perCluster_pos
  obtain ⟨n, hn⟩ : ∃ n, fs.sectorsPerCluster = n + 1 := ⟨fs.sectorsPerCluster - 1, by omega⟩
  have ha : 512 * clusterToSector fs c = clusterAddr fs c := by
    rw [(clusterToSector_eq hg hc).1, clusterAddr]
  obtain ⟨hout, hin⟩ := zeroSectors_spec hg hc
    (d := diskWrite d (clusterToSector fs c) (dotEntries fs c parent)) n hn.ge
  have hinit : initDirectoryCluster fs d c parent =
      (List.range' 1 n).foldl (zeroSector (clusterToSector fs c))
        (diskWrite d (clusterToSector fs c) (dotEntries fs c parent)) := by
    rw [initDirectoryCluster, hn, Nat.add_sub_cancel]
  simp only [hinit, bytesPerCluster, dataArea, hn, Set.mem_Ico]
  refine ⟨fun x hx => ?_, fun o ho => ?_⟩
  · rw [hout x (by omega), diskWrite_outside (by omega)]
  · by_cases h : o < 512
    · rw [if_pos h, hout _ (by omega), ← ha, diskWrite_inside h]
    · obtain ⟨k, rfl⟩ := Nat.exists_eq_add_of_le (Nat.not_lt.mp h)
      rw [if_neg h, ← Nat.add_assoc]
      exact hin k (by omega)

def newDirectory (fs : Fat32) (d : Bytes) (c parent : ℕ) : Bytes :=
  initDirectoryCluster fs (fat32SetNextCluster fs d c 0x0FFFFFFF) c parent

theorem newDirectory_grown (parent : ℕ) (hg : Geometry fs) (hc : Free fs d c) :
    Grown fs d (newDirectory fs d c parent) [c] none := by
  refine ⟨by simpa using hc, fun x hx _ => ?_⟩
  have hx : x ∉ territory fs c := fun hm => hx ⟨c, List.mem_cons_self, hm⟩
  rw [newDirectory, (initDirectoryCluster_spec hg hc.1).1 x fun hm => hx (.inr hm)]
  exact setNextCluster_outside hg hc.1.2 fun hm => hx (.inl hm)

theorem newDirectory_chain (hg : Geometry fs) (hc : Free fs d c) :
    Chain fs (newDirectory fs d c parent) c [c] := by
  have hnext : fat32NextCluster fs (newDirectory fs d c parent) c = 0x0FFFFFFF := by
    rw [newDirectory, nextCluster_congr (d := fat32SetNextCluster fs d c 0x0FFFFFFF) hg hc.1.2,
      nextCluster_setNextCluster hg hc.1.2 (by norm_num)]
    intro x hx
    refine (initDirectoryCluster_spec hg hc.1).1 x fun hm => ?_
    have := cell_before_data c hg hc.1.2
    simp only [cell, dataArea, Set.mem_Ico] at hx hm
    omega
  refine ⟨.cons ?_ (.nil ?_), by simpa using hc.1, by simp⟩
  · have h1 := hg.clusters
    have h2 := hc.1.2
    unfold endOfChain
    omega
  · rw [hnext]
    unfold endOfChain
    norm_num

variable {name : List UInt8} {l : List ℕ} {p : ℕ}

theorem createDirectory_found {e : Fat32DirEntry}
    (hf : fat32FindFile fs d cwd name = some (some e)) :
    fat32CreateDirectory fs d cwd name = some (d, some .alreadyExists) := by
  simp only [fat32CreateDirectory, hf, Option.bind_eq_bind, Option.bind_some,
    Option.isSome_some, ↓reduceIte, Option.pure_def]

theorem createDirectory_full (hf : fat32FindFile fs d cwd name = some none)
    (hfull : fat32FindFreeCluster fs d = 0x0FFFFFFF) :
    fat32CreateDirectory fs d cwd name = some (d, some .diskFull) := by
  simp only [fat32CreateDirectory, hf, hfull, Option.bind_eq_bind, Option.bind_some,
    Option.isSome_none, Bool.false_eq_true, ↓reduceIte, Option.pure_def]

theorem createDirectory_free (hg : Geometry fs) (hf : fat32FindFile fs d cwd name = some none)
    (hfree : Free fs d (fat32FindFreeCluster fs d)) :
    fat32CreateDirectory fs d cwd name =
      (findParentSlot fs (newDirectory fs d (fat32FindFreeCluster fs d) cwd) cwd).map fun hit =>
        match hit with
        | some slot => (storeEntry (newDirectory fs d (fat32FindFreeCluster fs d) cwd) slot
            (formatFilename name) attrDirectory (fat32FindFreeCluster fs d) 0,
            some .directoryCreated)
        | none => (newDirectory fs d (fat32FindFreeCluster fs d) cwd, none) := by
  simp only [fat32CreateDirectory, hf, hfree.ne_full hg, Option.bind_eq_bind, Option.bind_some,
    Option.isSome_none, Bool.false_eq_true, ↓reduceIte, Option.pure_def, newDirectory]
  cases findParentSlot fs (initDirectoryCluster fs (fat32SetNextCluster fs d
    (fat32FindFreeCluster fs d) 0x0FFFFFFF) (fat32FindFreeCluster fs d) cwd) cwd with
  | none => rfl
  | some hit =>
    cases hit with
    | none => rfl
    | some slot => rfl

theorem newDirectory_live (hg : Geometry fs) (hl : Chain fs d cwd l) {c : ℕ} (hc : Free fs d c)
    (hp : p ∈ slots fs l) : Live (newDirectory fs d c cwd) p ↔ Live d p :=
  live_congr ((newDirectory_grown cwd hg hc).slot_kept hg (noSlot fs d cwd) ⟨l, hl, hp⟩ (by simp))

theorem createDirectory_room (hw : WellFormed fs skip d cwd)
    (hf : fat32FindFile fs d cwd name = some none)
    (hfree : Free fs d (fat32FindFreeCluster fs d)) (hl : Chain fs d cwd l) :
    (∀ p ∈ clusterSlots fs cwd, Live d p) ∧ fat32CreateDirectory fs d cwd name = none ∨
    ∃ pre p post, p ∈ clusterSlots fs cwd ∧ slots fs l = pre ++ p :: post ∧ ¬Live d p ∧
      (∀ q ∈ pre, Live d q) ∧ fat32CreateDirectory fs d cwd name =
        some (fillEntry (newDirectory fs d (fat32FindFreeCluster fs d) cwd) p
          (formatFilename name) attrDirectory (fat32FindFreeCluster fs d) 0,
          some .directoryCreated) := by
  have hg := hw.geometry
  have hl₁ := (newDirectory_grown cwd hg hfree).chain_kept hg (noSlot fs d cwd) hl
  have hlive : ∀ p ∈ slots fs l, Live (newDirectory fs d (fat32FindFreeCluster fs d) cwd) p ↔
      Live d p := fun p hp => newDirectory_live hg hl hfree hp
  have hcall := createDirectory_free hg hf hfree
  rcases findParentSlot_spec hg hl₁ with ⟨hall, hnone⟩ | ⟨pre, p, post, hin, hs, hp, hpre, hsome⟩
  · refine .inl ⟨fun p hp => ?_, ?_⟩
    · exact (hlive p (mem_slots.mpr ⟨cwd, hl.head_mem, hp⟩)).mp (hall p hp)
    · rw [hcall, hnone]
      rfl
  · have hmem : p ∈ slots fs l := by
      rw [hs]
      simp
    refine .inr ⟨pre, p, post, hin, hs, fun h => hp ((hlive p hmem).mpr h), fun q hq => ?_, ?_⟩
    · exact (hlive q (by rw [hs]; simp [hq])).mp (hpre q hq)
    · rw [hcall, hsome, Option.map_some]
      simp only [storeEntry_eq (slots_dvd hmem)]

/-- The outcomes of `fat32_create_directory` when it returns: nothing happened, or the new
cluster is recorded in the first slot of the current directory that is not live. -/
theorem createDirectory_spec (hw : WellFormed fs skip d cwd) {dirname : List UInt8}
    {reply : Option Reply}
    (h : fat32CreateDirectory fs d cwd dirname = some (d', reply)) :
    d' = d ∨ fat32FindFile fs d cwd dirname = some none ∧
      ∃ c l pre p post, Free fs d c ∧ Chain fs d cwd l ∧ slots fs l = pre ++ p :: post ∧
        ¬ Live d p ∧ (∀ q ∈ pre, Live d q) ∧
        d' = fillEntry (newDirectory fs d c cwd) p (formatFilename dirname)
          attrDirectory c 0 := by
  have hg := hw.geometry
  obtain ⟨l, hl⟩ := hw.chain hw.current
  obtain ⟨found, hf⟩ : ∃ found, fat32FindFile fs d cwd dirname = some found :=
    ⟨_, findFile_eq hg hl dirname⟩
  cases found with
  | some e =>
    rw [createDirectory_found hf] at h
    cases h
    exact .inl rfl
  | none =>
    rcases findFreeCluster_spec (d := d) hg with ⟨hfull, -⟩ | hfree
    · rw [createDirectory_full hf hfull] at h
      cases h
      exact .inl rfl
    · rcases createDirectory_room hw hf hfree hl with
        ⟨-, hnone⟩ | ⟨pre, p, post, -, hs, hp, hpre, hsome⟩
      · rw [hnone] at h
        cases h
      · rw [hsome] at h
        cases h
        exact .inr ⟨hf, _, l, pre, p, post, hfree, hl, hs, hp, hpre, rfl⟩

theorem createDirectory_preserves (hw : WellFormed fs skip d cwd) {dirname : List UInt8}
    {reply : Option Reply}
    (h : fat32CreateDirectory fs d cwd dirname = some (d', reply)) :
    ∃ slot, PreservesOld fs skip d d' cwd slot := by
  have hg := hw.geometry
  rcases createDirectory_spec hw h with rfl | ⟨-, c, l, pre, p, post, hc, hl, hs, hp, -, rfl⟩
  · have hgr : Grown fs d' d' [] none := ⟨by simp, fun _ _ _ => rfl⟩
    exact ⟨none, hgr.preservesOld hw (by simp) (by simp)⟩
  · have hof : SlotOf fs d cwd p := ⟨l, hl, by rw [hs]; simp⟩
    obtain ⟨hgr, hext⟩ := (newDirectory_grown cwd hg hc).fillEntry (formatFilename dirname)
      attrDirectory 0 hg hof (.inr (newDirectory_chain hg hc))
    refine ⟨some p, hgr.preservesOld hw ?_ ?_⟩
    · rintro q ⟨⟩
      exact ⟨hof, hp⟩
    · rintro q ⟨⟩
      exact ⟨[c], hext, List.Subset.refl _⟩

/-- Writing a file returns, and like making a directory it adds at most one entry to the
current directory and preserves everything else. -/
theorem additions_preserve_volume (hw : WellFormed fs dotEntry d cwd) :
    (∀ (name : List UInt8) (data : Bytes) (size : ℕ), ∃ d' exit slot,
      fat32WriteFile fs d cwd name data size = some (d', exit) ∧
        (exit = .stored ↔ slot ≠ none) ∧ PreservesOld fs dotEntry d d' cwd slot) ∧
    ∀ (dirname : List UInt8) (d' : Bytes) (reply : Option Reply),
      fat32CreateDirectory fs d cwd dirname = some (d', reply) →
        ∃ slot, PreservesOld fs dotEntry d d' cwd slot :=
  ⟨writeFile_preserves hw, fun _ _ _ => createDirectory_preserves hw⟩

theorem additions_preserve_blankDisk :
    (∀ (name : List UInt8) (data : Bytes) (size : ℕ), ∃ d' exit slot,
      fat32WriteFile tinyVolume blankDisk 2 name data size = some (d', exit) ∧
        (exit = .stored ↔ slot ≠ none) ∧
        PreservesOld tinyVolume dotEntry blankDisk d' 2 slot) ∧
    ∀ (dirname : List UInt8) (d' : Bytes) (reply : Option Reply),
      fat32CreateDirectory tinyVolume blankDisk 2 dirname = some (d', reply) →
        ∃ slot, PreservesOld tinyVolume dotEntry blankDisk d' 2 slot :=
  additions_preserve_volume (blankDisk_wellFormed dotEntry)

end Directories

end Fat32Growth
