import SojebOS.Fat32TreeInvariant

/-!
# Runs of `fat32_create_directory` and `fat32_cd`

Resolving a path stays inside the tree, and making a directory adds a leaf to it, so every
state of a run satisfies the tree invariant.
-/
namespace Fat32TreeRuns

open ByteMemory MachineWord WhileLoop LinkedChain
open Fat32Disk Fat32Directory Fat32Files Fat32Tree Fat32Layout Fat32Volume
open Fat32Entries Fat32Growth Fat32TreeGrowth Fat32Paths Fat32Removal Fat32TreeInvariant

section Resolution

variable {fs : Fat32} {skip : ℕ → List UInt8 → Prop} {d : Bytes} {cwd a p n : ℕ} {l : List ℕ}
variable {component : List UInt8}

def MatchesDirectory (d : Bytes) (name : List UInt8) (p : ℕ) : Prop :=
  Matches d name p ∧ (readEntry d p).isDirectory

instance (d : Bytes) (name : List UInt8) : DecidablePred (MatchesDirectory d name) := fun p =>
  inferInstanceAs (Decidable (Matches d name p ∧ (readEntry d p).isDirectory))

/-- The first cluster of a slot that is a subdirectory with the name. -/
def selectDirectory (d : Bytes) (name : List UInt8) (p : ℕ) : Option ℕ :=
  if Live d p ∧ MatchesDirectory d name p then some (readEntry d p).firstCluster else none

theorem componentVisit_slot (name : List UInt8) (hname : name.length = 11) {s i : ℕ}
    (hp : p = 512 * s + 32 * i) :
    componentVisit d name s i =
      searchAt d (MatchesDirectory d name) (fun p => (readEntry d p).firstCluster) p := by
  have hlen : (readEntry d p).name.length = name.length := by
    rw [readEntry_name_length, hname]
  subst hp
  simp only [componentVisit, searchAt, MatchesDirectory, Matches, readEntry_diskRead,
    diskRead_apply, memcmp_eq_zero_iff hlen]
  split_ifs <;> simp_all

/-- Within a directory the scan that stops sector by sector misses nothing. -/
theorem scanForComponent_eq (hg : Geometry fs) (ha : InRange fs a) (name : List UInt8)
    (hname : name.length = 11)
    (ht : (clusterSlots fs a).Pairwise fun p q => d p = 0 → d q = 0) :
    scanForComponent fs d name a = (clusterSlots fs a).findSome? (selectDirectory d name) := by
  rw [clusterSlots] at ht ⊢
  rw [scanForComponent, findSome?_flatMap]
  refine findSome?_congr fun s hs => ?_
  have hsec := sector_addr hg ha (List.mem_range.mp hs)
  have htail := (List.pairwise_flatMap.mp ht).1 s hs
  have heq := search_eq (MatchesDirectory d name) (fun p => (readEntry d p).firstCluster) htail
  rw [List.findSome?_map] at heq
  rw [show (fun p => if Live d p ∧ MatchesDirectory d name p then
    some (readEntry d p).firstCluster else none) = selectDirectory d name from rfl] at heq
  rw [← heq]
  congr 1
  refine findSome?_congr fun i _ => ?_
  exact componentVisit_slot name hname (by rw [hsec])

theorem findComponent_eq (hg : Geometry fs) (hl : Chain fs d a l)
    (ht : (slots fs l).Pairwise fun p q => d p = 0 → d q = 0) (component : List UInt8) :
    findComponent fs d a component =
      some ((slots fs l).findSome? (selectDirectory d (formatFilename component))) := by
  rw [findComponent, walk_eq_findSome _ (hl.linked_offChain hg) (hl.length_lt hg), slots,
    findSome?_flatMap]
  congr 1
  refine findSome?_congr fun c hc => ?_
  exact scanForComponent_eq hg (hl.inRange c hc) _ (formatFilename_length component)
    ((List.pairwise_flatMap.mp ht).1 c hc)

theorem findComponent_directory (hw : WellFormed fs skip d cwd) (hlinks : LinksRefer fs d skip)
    (ha : Directory fs skip d a) (component : List UInt8) :
    ∃ found, findComponent fs d a component = some found ∧ ∀ c ∈ found,
      Directory fs skip d (if c = 0 then fs.rootCluster else c) := by
  obtain ⟨l, hl⟩ := hw.chain ha
  refine ⟨_, findComponent_eq hw.geometry hl (hw.zero_tail a l ha hl) component, ?_⟩
  intro c hc
  obtain ⟨p, hp, hsel⟩ := List.exists_of_findSome?_eq_some hc
  unfold selectDirectory at hsel
  split_ifs at hsel with hm
  obtain ⟨hlive, hmatch, hdir⟩ := hm
  have hslot : SlotOf fs d a p := ⟨l, hl, hp⟩
  have hn : Named d p := ⟨hlive, hmatch.1⟩
  obtain rfl : (readEntry d p).firstCluster = c := Option.some.inj hsel
  by_cases hlink : skip a (readEntry d p).name
  · exact (hlinks a p ha hslot hn hlink).2
  · obtain ⟨ht, hd⟩ := target_of_holds hw ha ⟨hslot, hn, hlink⟩ hdir
    rw [target] at ht
    rwa [ht]

theorem followPath_directory (hw : WellFormed fs skip d cwd) (hlinks : LinksRefer fs d skip)
    (n : ℕ) {path : List UInt8} {r : ℕ} (ha : Directory fs skip d a)
    (hr : followPath fs d n a path = some r) : r = 0xFFFFFFFF ∨ Directory fs skip d r := by
  induction n generalizing a path with
  | zero => cases hr
  | succ n ih =>
    simp only [followPath] at hr
    by_cases h0 : path.getD 0 0 = 0
    · rw [if_pos h0] at hr
      cases hr
      exact .inr ha
    rw [if_neg h0] at hr
    by_cases hc : (getNextComponent path).1 = []
    · rw [if_pos hc] at hr
      cases hr
      exact .inr ha
    rw [if_neg hc] at hr
    obtain ⟨found, hf, hdir⟩ := findComponent_directory hw hlinks ha (getNextComponent path).1
    rw [hf] at hr
    cases found with
    | none =>
      cases hr
      exact .inl rfl
    | some c => exact ih (hdir c rfl) hr

theorem getPathCluster_directory (hw : WellFormed fs skip d cwd)
    (hlinks : LinksRefer fs d skip) {path : List UInt8} {r : ℕ}
    (hr : fat32GetPathCluster fs d cwd path = some r) :
    r = 0xFFFFFFFF ∨ Directory fs skip d r := by
  unfold fat32GetPathCluster at hr
  split_ifs at hr
  · exact followPath_directory hw hlinks _ .refl hr
  · exact followPath_directory hw hlinks _ hw.current hr

theorem cd_directory (hw : WellFormed fs skip d cwd) (hlinks : LinksRefer fs d skip)
    {path : List UInt8} {cwd' : ℕ} {reply : Option Reply}
    (hrun : fat32Cd fs d cwd path = some (cwd', reply)) : Directory fs skip d cwd' := by
  simp only [fat32Cd] at hrun
  cases ht : fat32GetPathCluster fs d cwd path with
  | none =>
    rw [ht] at hrun
    cases hrun
  | some r =>
    rw [ht] at hrun
    simp only [Option.bind_eq_bind, Option.bind_some] at hrun
    by_cases hr : r = 0xFFFFFFFF
    · rw [if_pos hr] at hrun
      cases hrun
      exact hw.current
    · rw [if_neg hr] at hrun
      cases hrun
      exact (getPathCluster_directory hw hlinks ht).resolve_left hr

end Resolution

section Steps

variable {fs : Fat32} {d d' : Bytes} {cwd cwd' : ℕ} {reply : Option Reply}
variable {name path : List UInt8}

theorem cd_tree (h : TreeInvariant fs d cwd)
    (hrun : fat32Cd fs d cwd path = some (cwd', reply)) : TreeInvariant fs d cwd' :=
  h.move (cd_directory h.wellFormed h.linksRefer hrun)

theorem findFile_none {skip : ℕ → List UInt8 → Prop} (hw : WellFormed fs skip d cwd)
    (hf : fat32FindFile fs d cwd name = some none) :
    ∀ p, SlotOf fs d cwd p → Named d p → (readEntry d p).name ≠ formatFilename name := by
  obtain ⟨l, hl⟩ := hw.chain hw.current
  rw [findFile_eq hw.geometry hl] at hf
  intro p hp hn he
  exact search_none (hw.zero_tail cwd l hw.current hl) (Option.some.inj hf) p (hp.mem hl)
    hn.live ⟨hn.short, he⟩

theorem createDirectory_tree (h : TreeInvariant fs d cwd)
    (hrun : fat32CreateDirectory fs d cwd name = some (d', reply)) :
    TreeInvariant fs d' cwd := by
  have hw := h.wellFormed
  have hg := hw.geometry
  rcases createDirectory_spec hw hrun with
    rfl | ⟨hfind, c, l, pre, p, post, hc, hl, hs, hp, hpre, rfl⟩
  · exact h
  have hof : SlotOf fs d cwd p := ⟨l, hl, by rw [hs]; simp⟩
  have hroot := hw.free_ne_root hc
  have hclt := hc.1.lt_word hg
  have hcwd : cwd < 2 ^ 32 := by
    have := (directory_pos hw hw.current).2
    omega
  have hadd : Adds fs (linkEntry fs) d (directoryRecorded fs d cwd c p name) cwd l pre p post
      [c] :=
    directoryRecorded_adds hw hc hl hs hp hpre ⟨⟨hroot, .inl rfl⟩, ⟨hroot, .inr rfl⟩⟩ name
  have hfirst : (readEntry (directoryRecorded fs d cwd c p name) p).firstCluster = c :=
    readEntry_fillEntry_firstCluster hclt
  change TreeInvariant fs (directoryRecorded fs d cwd c p name) cwd
  refine h.add hadd (fun _ hlink => ?_) (fun _ => ?_) (fun _ q hq hn => ?_)
  · rw [directoryRecorded, readEntry_fillEntry_name (formatFilename_length name)] at hlink
    obtain ⟨q, hq, hqn, hqe⟩ := h.dot_present hw.current hlink
    exact findFile_none hw hfind q hq hqn hqe
  · rw [hfirst]
    exact directoryRecorded_dots _ hg hc hof hcwd
  · rw [slots_singleton] at hq
    rw [hfirst]
    exact directoryRecorded_links hg hc hof hq hn

end Steps

inductive TreeCall where
  | createDirectory (dirname : List UInt8)
  | cd (path : List UInt8)

/-- The disk and the current directory after a call, if it returns. -/
def TreeCall.step (fs : Fat32) : TreeCall → Bytes × ℕ → Option (Bytes × ℕ)
  | .createDirectory dirname, (d, cwd) =>
    (fat32CreateDirectory fs d cwd dirname).map fun r => (r.1, cwd)
  | .cd path, (d, cwd) => (fat32Cd fs d cwd path).map fun r => (d, r.1)

def Reachable (fs : Fat32) : Bytes × ℕ → Bytes × ℕ → Prop :=
  Relation.ReflTransGen fun s t => ∃ call : TreeCall, call.step fs s = some t

theorem step_preserves_invariant {fs : Fat32} {s t : Bytes × ℕ} {call : TreeCall}
    (h : TreeInvariant fs s.1 s.2) (hs : call.step fs s = some t) :
    TreeInvariant fs t.1 t.2 := by
  cases call with
  | createDirectory dirname =>
    obtain ⟨⟨d', reply⟩, hrun, rfl⟩ := Option.map_eq_some_iff.mp hs
    exact createDirectory_tree h hrun
  | cd path =>
    obtain ⟨⟨cwd', reply⟩, hrun, rfl⟩ := Option.map_eq_some_iff.mp hs
    exact cd_tree h hrun

theorem reachable_invariant {fs : Fat32} {s t : Bytes × ℕ} (h : TreeInvariant fs s.1 s.2)
    (hr : Reachable fs s t) : TreeInvariant fs t.1 t.2 := by
  induction hr with
  | refl => exact h
  | tail _ hs ih =>
    obtain ⟨call, hs⟩ := hs
    exact step_preserves_invariant ih hs

theorem cd_step {fs : Fat32} {d : Bytes} {cwd r : ℕ} {path : List UInt8}
    (hpath : fat32GetPathCluster fs d cwd path = some r) (hr : r ≠ 0xFFFFFFFF) :
    (TreeCall.cd path).step fs (d, cwd) = some (d, r) := by
  simp only [TreeCall.step, fat32Cd, hpath, Option.bind_eq_bind, Option.bind_some, hr, if_false,
    Option.pure_def, Option.map_some]

theorem firstDirectory_created {name : List UInt8}
    (hfind : fat32FindFile tinyVolume blankDisk 2 name = some none) :
    fat32CreateDirectory tinyVolume blankDisk 2 name =
      some (directoryRecorded tinyVolume blankDisk 2 3 1024 name, some .directoryCreated) := by
  have hfree : fat32FindFreeCluster tinyVolume blankDisk = 3 := by decide +kernel
  have hslot : findParentSlot tinyVolume (initDirectoryCluster tinyVolume
      (fat32SetNextCluster tinyVolume blankDisk 3 0x0FFFFFFF) 3 2) 2 =
      some (some (1024 / 512, 1024 % 512 / 32)) := by decide +kernel
  simp only [fat32CreateDirectory, hfind, hfree, hslot, Option.bind_eq_bind,
    Option.bind_some, Option.isSome_none, Bool.false_eq_true, if_false,
    show (3 : ℕ) ≠ 0x0FFFFFFF by decide, Option.pure_def]
  rw [storeEntry_eq (by decide)]
  rfl

theorem createDirectory_blankDisk {name : List UInt8}
    (hfind : fat32FindFile tinyVolume blankDisk 2 name = some none) :
    (TreeCall.createDirectory name).step tinyVolume (blankDisk, 2) =
      some (directoryRecorded tinyVolume blankDisk 2 3 1024 name, 2) := by
  rw [TreeCall.step, firstDirectory_created hfind]
  rfl

end Fat32TreeRuns
