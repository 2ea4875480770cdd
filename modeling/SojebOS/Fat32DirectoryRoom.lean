import SojebOS.Fat32TreeGrowth

/-!
# Room for a new directory

`fat32_create_directory` looks for a slot in the first cluster of the current directory,
again and again, and never in the clusters behind it. It returns, and does what it should,
exactly when it does not come to the search or when the first cluster has a slot for it.
-/
namespace Fat32DirectoryRoom

open ByteMemory MachineWord WhileLoop LinkedChain
open Fat32Disk Fat32Directory Fat32Files Fat32Tree Fat32Layout Fat32Volume
open Fat32Entries Fat32Growth

/-- The slot is the entry of a new directory with a cluster that was free. -/
structure Recorded (fs : Fat32) (d d' : Bytes) (name : List UInt8) (p : ℕ) : Prop where
  name : (readEntry d' p).name = formatFilename name
  directory : (readEntry d' p).attr = attrDirectory
  cluster : Free fs d (readEntry d' p).firstCluster

/-- No slot of the directory and no entry of the FAT differs. -/
structure LeftAlone (fs : Fat32) (d d' : Bytes) (l : List ℕ) : Prop where
  slots : ∀ p ∈ slots fs l, Set.EqOn d' d (slotBytes p)
  fat : ∀ c < 128 * fs.fatSize, Set.EqOn d' d (cell fs c)

/-- The call returns; a new name gets the first slot of the chain that is not live, if there
are such a slot and a free cluster; without such a slot nothing is stored and no cluster
stays taken. -/
def FindsRoom (fs : Fat32) (d : Bytes) (cwd : ℕ) (name : List UInt8) : Prop :=
  ∃ d' reply, fat32CreateDirectory fs d cwd name = some (d', reply) ∧
    ∀ l, Chain fs d cwd l →
      (fat32FindFile fs d cwd name = some none → (∃ c, Free fs d c) →
        ∀ pre p post, slots fs l = pre ++ p :: post → ¬Live d p → (∀ q ∈ pre, Live d q) →
          Recorded fs d d' name p) ∧
      ((∀ p ∈ slots fs l, Live d p) → LeftAlone fs d d' l)

section Calls

variable {fs : Fat32} {skip : ℕ → List UInt8 → Prop} {d d' : Bytes} {cwd p : ℕ}
  {name : List UInt8} {l pre post : List ℕ}

theorem LeftAlone.refl (fs : Fat32) (d : Bytes) (l : List ℕ) : LeftAlone fs d d l :=
  ⟨fun _ _ _ _ => rfl, fun _ _ _ _ => rfl⟩

/-- A live slot is none that could be taken, so two lists agree on the first other one. -/
theorem first_unique {pre' post' : List ℕ} {q : ℕ} (h : pre ++ p :: post = pre' ++ q :: post')
    (hp : ¬Live d p) (hpre : ∀ r ∈ pre, Live d r) (hq : ¬Live d q) (hpre' : ∀ r ∈ pre', Live d r) :
    p = q := by
  have hfind : ∀ pre post : List ℕ, ∀ p, ¬Live d p → (∀ r ∈ pre, Live d r) →
      (pre ++ p :: post).find? (fun r => ¬Live d r) = some p := by
    intro pre post p hp hpre
    have hnone : pre.find? (fun r => ¬Live d r) = none := by
      rw [List.find?_eq_none]
      intro r hr
      simp [hpre r hr]
    rw [List.find?_append, hnone, Option.none_or, List.find?_cons_of_pos]
    simpa using hp
  have hfirst := hfind pre post p hp hpre
  rw [h, hfind pre' post' q hq hpre'] at hfirst
  exact (Option.some.inj hfirst).symm

theorem recorded_slot (hg : Geometry fs) {c : ℕ} (hc : Free fs d c) (m : Bytes) :
    Recorded fs d (fillEntry m p (formatFilename name) attrDirectory c 0) name p where
  name := readEntry_fillEntry_name (formatFilename_length name)
  directory := readEntry_fillEntry_attr
  cluster := by
    rw [readEntry_fillEntry_firstCluster]
    · exact hc
    · exact hc.1.lt_word hg

theorem full_cluster_hangs (hw : WellFormed fs skip d cwd)
    (hf : fat32FindFile fs d cwd name = some none) (hc : ∃ c, Free fs d c)
    (hall : ∀ p ∈ clusterSlots fs cwd, Live d p) : fat32CreateDirectory fs d cwd name = none := by
  obtain ⟨l, hl⟩ := hw.chain hw.current
  rcases findFreeCluster_spec (d := d) hw.geometry with ⟨-, hfull⟩ | hfree
  · obtain ⟨c, hc⟩ := hc
    exact absurd hc (hfull c)
  · rcases createDirectory_room hw hf hfree hl with ⟨-, hnone⟩ | ⟨_, p, _, hin, -, hp, -⟩
    · exact hnone
    · exact absurd (hall p hin) hp

/-- A call that changes nothing does what it should, unless a slot should have been taken. -/
theorem findsRoom_unchanged {reply : Option Reply}
    (hrun : fat32CreateDirectory fs d cwd name = some (d, reply))
    (hno : fat32FindFile fs d cwd name ≠ some none ∨ ∀ c, ¬Free fs d c) :
    FindsRoom fs d cwd name := by
  refine ⟨d, reply, hrun, fun l _ => ⟨fun hf hc => ?_, fun _ => LeftAlone.refl fs d l⟩⟩
  obtain ⟨c, hc⟩ := hc
  rcases hno with hname | hfull
  · exact absurd hf hname
  · exact absurd hc (hfull c)

end Calls

/-- The call does what it should exactly when the name is taken, or no cluster is free, or
the first cluster of the current directory has a slot. -/
theorem finds_room_iff (fs : Fat32) (d : Bytes) (cwd : ℕ) (hw : WellFormed fs dotEntry d cwd)
    (name : List UInt8) : FindsRoom fs d cwd name ↔
      fat32FindFile fs d cwd name ≠ some none ∨ (∀ c, ¬Free fs d c) ∨
        ∃ p ∈ clusterSlots fs cwd, ¬Live d p := by
  obtain ⟨l, hl⟩ := hw.chain hw.current
  constructor
  · rintro ⟨d', reply, hrun, -⟩
    by_contra hnone
    simp only [not_or, not_exists, not_and, not_not, not_forall] at hnone
    obtain ⟨hf, hc, hall⟩ := hnone
    rw [full_cluster_hangs hw hf hc hall] at hrun
    cases hrun
  · intro hcond
    cases hf : fat32FindFile fs d cwd name with
    | none =>
      rw [findFile_eq hw.geometry hl] at hf
      cases hf
    | some found =>
      cases found with
      | some e => exact findsRoom_unchanged (createDirectory_found hf) (Or.inl (by simp [hf]))
      | none =>
        rcases findFreeCluster_spec (d := d) hw.geometry with ⟨he, hfull⟩ | hfree
        · exact findsRoom_unchanged (createDirectory_full hf he) (Or.inr hfull)
        · have hslot : ∃ p ∈ clusterSlots fs cwd, ¬Live d p := by
            rcases hcond with hname | hfull | hslot
            · exact absurd hf hname
            · exact absurd hfree (hfull _)
            · exact hslot
          obtain ⟨r, hr, hrlive⟩ := hslot
          rcases createDirectory_room hw hf hfree hl with
            ⟨hall, -⟩ | ⟨pre, p, post, -, hs, hp, hpre, hrun⟩
          · exact absurd (hall r hr) hrlive
          · refine ⟨_, _, hrun, fun l' hl' => ?_⟩
            obtain rfl := hl'.unique hl
            constructor
            · intro _ _ pre' q post' hs' hq hpre'
              rw [← first_unique (hs.symm.trans hs') hp hpre hq hpre']
              exact recorded_slot hw.geometry hfree _
            · intro hall
              exact absurd (hall p (by rw [hs]; simp)) hp

theorem finds_room_iff_blankDisk : FindsRoom tinyVolume blankDisk 2 [0x44] ↔
    fat32FindFile tinyVolume blankDisk 2 [0x44] ≠ some none ∨
      (∀ c, ¬Free tinyVolume blankDisk c) ∨ ∃ p ∈ clusterSlots tinyVolume 2, ¬Live blankDisk p :=
  finds_room_iff tinyVolume blankDisk 2 (blankDisk_wellFormed dotEntry) [0x44]

section FullRoot

variable {fs : Fat32} {skip : ℕ → List UInt8 → Prop} {d : Bytes} {l : List ℕ}

theorem wellFormed_of_empty_files (hg : Geometry fs) (hl : Chain fs d fs.rootCluster l)
    (hfiles : ∀ p ∈ slots fs l, Named d p →
      ¬(readEntry d p).isDirectory ∧ (readEntry d p).firstCluster = 0)
    (htail : (slots fs l).Pairwise fun p q => d p = 0 → d q = 0) :
    WellFormed fs skip d fs.rootCluster := by
  refine wellFormed_of_files hg hl ?_ (fun _ => []) ?_ ?_ ?_ htail
  · exact fun p hp hn => (hfiles p hp hn).1
  · exact fun p hp hn => .inl ⟨(hfiles p hp hn).2, rfl⟩
  · exact fun p _ _ => List.disjoint_nil_right l
  · exact fun p _ q _ _ _ _ => List.disjoint_nil_left []

/-- Empty files `A` to `P` fill the one cluster of the root directory. -/
def fullRoot : Bytes := fun x =>
  if 1024 ≤ x ∧ x < 1536 then
    if x % 32 = 0 then 0x41 + UInt8.ofNat ((x - 1024) / 32) else if x % 32 < 12 then 0x20 else 0
  else blankDisk x

theorem fullRoot_chain : Chain tinyVolume fullRoot 2 [2] := by
  refine ⟨.cons (by decide) (.nil (by decide)), fun c hc => ?_, by simp⟩
  rw [List.mem_singleton.mp hc]
  exact ⟨by decide, by decide⟩

theorem fullRoot_wellFormed : WellFormed tinyVolume dotEntry fullRoot 2 := by
  have hlive : ∀ p ∈ slots tinyVolume [2], fullRoot p ≠ 0 := by decide
  have hfiles : ∀ p ∈ slots tinyVolume [2], ¬(readEntry fullRoot p).attr &&& attrDirectory ≠ 0 ∧
      (readEntry fullRoot p).firstCluster = 0 := by decide
  refine wellFormed_of_empty_files (by decide) fullRoot_chain ?_ ?_
  · exact fun p hp _ => hfiles p hp
  · exact List.pairwise_of_forall_mem_list fun p hp q _ h0 => absurd h0 (hlive p hp)

/-- A new name, a free cluster and a full first cluster: the call does not return. -/
theorem fullRoot_hangs : ¬∀ (fs : Fat32) (d : Bytes) (cwd : ℕ), WellFormed fs dotEntry d cwd →
    ∀ name : List UInt8, FindsRoom fs d cwd name := by
  intro h
  obtain ⟨d', reply, hrun, -⟩ := h tinyVolume fullRoot 2 fullRoot_wellFormed [0x5A]
  have hf : fat32FindFile tinyVolume fullRoot 2 [0x5A] = some none := by decide
  rw [full_cluster_hangs fullRoot_wellFormed hf ⟨3, ⟨by decide, by decide⟩, by decide⟩
    (by decide)] at hrun
  cases hrun

end FullRoot

end Fat32DirectoryRoom
