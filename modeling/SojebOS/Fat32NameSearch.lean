import SojebOS.Fat32DirectoryRoom
import SojebOS.Fat32Pwd
import SojebOS.Fat32SectorWrites

/-!
# The search for the name of a directory in its parent

The search goes along the chain of the parent until it meets the end of the directory or the
entry of the child. Its test for the end of the chain is made for links of 32 bits, and links
have 28: when nothing in the chain stops it, it goes on behind the end mark.
-/
namespace Fat32NameSearch

open ByteMemory MachineWord WhileLoop LinkedChain
open Fat32Disk Fat32Directory Fat32Files Fat32Tree Fat32Layout Fat32Volume Fat32Entries
open Fat32PathText Fat32Pwd Fat32DirectoryRoom Fat32SectorWrites

structure DirectoryChain (fs : Fat32) (d : Bytes) (a : ℕ) (l : List ℕ) : Prop where
  geometry : Geometry fs
  chain : Chain fs d a l
  zero_tail : (slots fs l).Pairwise fun p q => d p = 0 → d q = 0

/-- A live directory entry, of no long name, with the first cluster `child`. -/
def EntryFor (d : Bytes) (child p : ℕ) : Prop :=
  Live d p ∧ (readEntry d p).attr ≠ attrLongName ∧ (readEntry d p).isDirectory ∧
    (readEntry d p).firstCluster = child

instance (d : Bytes) (child : ℕ) : DecidablePred (EntryFor d child) := fun _ =>
  inferInstanceAs (Decidable (_ ∧ _ ∧ _ ∧ _))

def shortName (name : List UInt8) : List UInt8 :=
  if name.getD 8 0 ≠ space then
    baseName name ++ dot :: ((name.drop 8).take 3).filter (· ≠ space)
  else baseName name

/-- A sector read: one of a directory cluster, or the one with the link of a cluster. -/
inductive SearchRead where
  | slots (cluster sector : ℕ)
  | link (cluster sector : ℕ)
  deriving DecidableEq, Repr

def sectorsUntil (hit : ℕ → Bool) : List ℕ → List ℕ
  | [] => []
  | s :: l => s :: if hit s then [] else sectorsUntil hit l

def scanReads {ρ : Type} (fs : Fat32) (visit : ℕ → ℕ → Option ρ) (cluster : ℕ) :
    List SearchRead :=
  (sectorsUntil
    (fun s => ((List.range 16).findSome? (visit (u32 (clusterToSector fs cluster + s)))).isSome)
    (List.range fs.sectorsPerCluster)).map fun s =>
      .slots cluster (u32 (clusterToSector fs cluster + s))

/-- What `find_dirname_in_parent` reads, from a cluster on. -/
def searchReads (fs : Fat32) (d : Bytes) (parentCluster childCluster : ℕ) :
    (rounds cluster : ℕ) → List SearchRead
  | 0, _ => []
  | rounds + 1, cluster =>
    if offNameSearch cluster then []
    else
      scanReads fs (dirnameVisit fs d parentCluster childCluster) cluster ++
        match scanCluster fs (clusterToSector fs cluster)
          (dirnameVisit fs d parentCluster childCluster) with
        | some _ => []
        | none => .link cluster (linkSector fs cluster) ::
          searchReads fs d parentCluster childCluster rounds (fat32NextCluster fs d cluster)

def SearchRead.sector : SearchRead → ℕ
  | .slots _ s => s
  | .link _ s => s

/-- A sector of a cluster of the chain, or the FAT sector with the link of one. -/
def SearchRead.OfChain (fs : Fat32) (l : List ℕ) : SearchRead → Prop
  | .slots c s => c ∈ l ∧ ∃ i < fs.sectorsPerCluster,
      s = fs.firstDataSector + (c - 2) * fs.sectorsPerCluster + i
  | .link c s => c ∈ l ∧ fs.reservedSectorCount ≤ s ∧ s < fs.reservedSectorCount + fs.fatSize

/-- The search ends with the name of the first entry for the child, if there is one, and reads
nothing but the chain and its links. -/
structure ExactSearch (fs : Fat32) (d : Bytes) (parent child : ℕ) (l : List ℕ)
    (nameOf : List UInt8 → List UInt8) : Prop where
  result : findDirnameInParent fs d parent child =
    some (((slots fs l).find? (EntryFor d child)).map fun p => nameOf (readEntry d p).name)
  reads : ∀ r ∈ searchReads fs d parent child wordCount parent, r.OfChain fs l

/-- The chain has the end of the directory or an entry for the child. -/
def Settled (fs : Fat32) (d : Bytes) (child : ℕ) (l : List ℕ) : Prop :=
  ∃ p ∈ slots fs l, d p = 0 ∨ EntryFor d child p

section Names

variable {name : List UInt8}

theorem shortName_eq_baseName : shortName name = baseName name ↔ name.getD 8 0 = space := by
  unfold shortName
  split_ifs with h
  · -- the dot is one character more
    refine iff_of_false (fun he => ?_) h
    have hlen := congrArg List.length he
    rw [List.length_append, List.length_cons] at hlen
    omega
  · exact iff_of_true rfl (not_not.mp h)

end Names

section Scanning

variable {fs : Fat32} {d : Bytes} {a b c p parent child s n : ℕ} {l : List ℕ}

theorem listsChild_entry (fs : Fat32) (hchild : 2 ≤ child) (hne : child ≠ parent) :
    Live d p ∧ ListsChild fs d parent child p ↔ EntryFor d child p := by
  unfold ListsChild EntryFor
  split_ifs with h
  · simp only [h.1, show ¬ fs.rootCluster = child from fun he => hne (by rw [← he, h.2]),
      show ¬ 0 = child by omega, and_false]
  · rfl

theorem scan_eq_none_iff (hg : Geometry fs) (hc : InRange fs c) (hchild : 2 ≤ child)
    (hne : child ≠ parent) :
    scanCluster fs (clusterToSector fs c) (dirnameVisit fs d parent child) = none ↔
      ∀ p ∈ clusterSlots fs c, ¬ (d p = 0 ∨ EntryFor d child p) := by
  rw [scanDirname_eq hg hc, List.findSome?_eq_none_iff]
  refine forall₂_congr fun p _ => ?_
  rw [← listsChild_entry fs hchild hne]
  unfold searchAt Live
  split_ifs <;> simp_all

theorem settled_iff_scan (hg : Geometry fs) (hl : ∀ c ∈ l, InRange fs c) (hchild : 2 ≤ child)
    (hne : child ≠ parent) : Settled fs d child l ↔ ∃ c ∈ l,
      scanCluster fs (clusterToSector fs c) (dirnameVisit fs d parent child) ≠ none := by
  constructor
  · rintro ⟨p, hp, hstop⟩
    obtain ⟨c, hc, hpc⟩ := mem_slots.mp hp
    exact ⟨c, hc, fun hnone =>
      (scan_eq_none_iff hg (hl c hc) hchild hne).mp hnone p hpc hstop⟩
  · rintro ⟨c, hc, hscan⟩
    rw [ne_eq, scan_eq_none_iff hg (hl c hc) hchild hne] at hscan
    push Not at hscan
    obtain ⟨p, hp, hstop⟩ := hscan
    exact ⟨p, mem_slots.mpr ⟨c, hc, hp⟩, hstop⟩

theorem findDirname_settled (h : DirectoryChain fs d parent l) (hchild : 2 ≤ child)
    (hne : child ≠ parent) (hs : Settled fs d child l) :
    findDirnameInParent fs d parent child =
      some (((slots fs l).find? (EntryFor d child)).map fun p =>
        baseName (readEntry d p).name) := by
  have hjoin := search_eq (ListsChild fs d parent child) (slotBase d) h.zero_tail
  simp only [listsChild_entry fs hchild hne] at hjoin
  rw [findSome?_ite] at hjoin
  cases hv : (slots fs l).findSome? (searchAt d (ListsChild fs d parent child) (slotBase d)) with
  | none =>
    obtain ⟨p, hp, hstop⟩ := hs
    have hpass := List.findSome?_eq_none_iff.mp hv p hp
    rw [← listsChild_entry fs hchild hne] at hstop
    rcases hstop with h0 | ⟨hlive, hlist⟩
    · rw [searchAt, if_pos h0] at hpass
      cases hpass
    · rw [searchAt_hit hlive hlist] at hpass
      cases hpass
  | some r =>
    rw [hv] at hjoin
    rw [findDirname_eq h.geometry h.chain hv]
    exact congrArg some hjoin

end Scanning

section Dependence

variable {fs : Fat32} {d d' : Bytes} {a c p parent child s n : ℕ}

theorem findSome?_until {ρ : Type} {f g : ℕ → Option ρ} {l : List ℕ}
    (h : ∀ s ∈ sectorsUntil (fun s => (f s).isSome) l, g s = f s) :
    l.findSome? g = l.findSome? f := by
  induction l with
  | nil => rfl
  | cons s l ih =>
    unfold sectorsUntil at h
    rw [List.findSome?_cons, List.findSome?_cons, h s List.mem_cons_self]
    cases hs : f s with
    | some r => rfl
    | none =>
      simp only [hs, Option.isSome_none, Bool.false_eq_true, ↓reduceIte, List.mem_cons] at h
      exact ih fun t ht => h t (.inr ht)

theorem dirnameVisit_congr (hs : ∀ x, x / 512 = s → d' x = d x) {i : ℕ} (hi : i < 16) :
    dirnameVisit fs d' parent child s i = dirnameVisit fs d parent child s i := by
  have hslot : Set.EqOn (diskRead d' s) (diskRead d s) (slotBytes (32 * i)) := by
    intro o ho
    simp only [slotBytes, Set.mem_Ico] at ho
    rw [diskRead_apply, diskRead_apply]
    exact hs _ (by omega)
  simp only [dirnameVisit, readEntry_congr hslot, hslot (mem_slotBytes_self _)]

theorem nextCluster_sector (hs : ∀ x, x / 512 = linkSector fs c → d' x = d x) :
    fat32NextCluster fs d' c = fat32NextCluster fs d c := by
  have hword : u32 (c * 4) % 4 = 0 := by
    unfold u32
    omega
  have hload : load32 (diskRead d' (linkSector fs c)) (u32 (c * 4) % 512) =
      load32 (diskRead d (linkSector fs c)) (u32 (c * 4) % 512) := by
    refine load32_congr fun x h1 h2 => ?_
    rw [diskRead_apply, diskRead_apply]
    exact hs _ (by omega)
  rw [linkSector] at hload
  simp only [fat32NextCluster, hload]

theorem scan_reads_only (h : ∀ r ∈ scanReads fs (dirnameVisit fs d parent child) a, ∀ x,
      x / 512 = r.sector → d' x = d x) :
    scanCluster fs (clusterToSector fs a) (dirnameVisit fs d' parent child) =
      scanCluster fs (clusterToSector fs a) (dirnameVisit fs d parent child) := by
  simp only [scanReads, List.forall_mem_map, SearchRead.sector] at h
  unfold scanCluster
  refine findSome?_until fun s hs => findSome?_congr fun i hi => ?_
  exact dirnameVisit_congr (h s hs) (List.mem_range.mp hi)

theorem search_reads_only (h : ∀ r ∈ searchReads fs d parent child n a, ∀ x,
      x / 512 = r.sector → d' x = d x) :
    run (walkBody (fat32NextCluster fs d') offNameSearch fun c =>
        scanCluster fs (clusterToSector fs c) (dirnameVisit fs d' parent child)) n a =
      run (walkBody (fat32NextCluster fs d) offNameSearch fun c =>
        scanCluster fs (clusterToSector fs c) (dirnameVisit fs d parent child)) n a := by
  induction n generalizing a with
  | zero => rfl
  | succ n ih =>
    by_cases hoff : offNameSearch a
    · rw [run_leave (r := none) (by simp only [walkBody, hoff, ↓reduceIte]),
        run_leave (r := none) (by simp only [walkBody, hoff, ↓reduceIte])]
    rw [searchReads, if_neg hoff, List.forall_mem_append] at h
    obtain ⟨hreads, hrest⟩ := h
    have hscan := scan_reads_only hreads
    cases hv : scanCluster fs (clusterToSector fs a) (dirnameVisit fs d parent child) with
    | some r =>
      rw [run_leave (r := some r) (by simp only [walkBody, hoff, ↓reduceIte, hscan, hv]),
        run_leave (r := some r) (by simp only [walkBody, hoff, ↓reduceIte, hv])]
    | none =>
      simp only [hv, List.forall_mem_cons, SearchRead.sector] at hrest
      have hnext := nextCluster_sector hrest.1
      rw [run_again (t := fat32NextCluster fs d a)
          (by simp only [walkBody, hoff, ↓reduceIte, hscan, hv, hnext]),
        run_again (t := fat32NextCluster fs d a) (by simp only [walkBody, hoff, ↓reduceIte, hv])]
      exact ih hrest.2

theorem findDirname_reads_only (h : ∀ r ∈ searchReads fs d parent child wordCount parent, ∀ x,
      x / 512 = r.sector → d' x = d x) :
    findDirnameInParent fs d' parent child = findDirnameInParent fs d parent child := by
  have hrun := search_reads_only h
  unfold findDirnameInParent
  rw [hrun]

end Dependence

section Reads

variable {fs : Fat32} {d : Bytes} {a b c p parent child s n : ℕ} {l : List ℕ}

theorem sectorsUntil_subset (hit : ℕ → Bool) (l : List ℕ) : sectorsUntil hit l ⊆ l := by
  induction l with
  | nil => exact List.Subset.refl []
  | cons s l ih =>
    unfold sectorsUntil
    split
    · simp
    · exact List.cons_subset_cons s ih

theorem scanReads_mem {ρ : Type} {visit : ℕ → ℕ → Option ρ} {r : SearchRead}
    (hr : r ∈ scanReads fs visit c) :
    ∃ s < fs.sectorsPerCluster, r = .slots c (u32 (clusterToSector fs c + s)) := by
  obtain ⟨s, hs, rfl⟩ := List.mem_map.mp hr
  exact ⟨s, List.mem_range.mp (sectorsUntil_subset _ _ hs), rfl⟩

theorem scanReads_first {ρ : Type} {visit : ℕ → ℕ → Option ρ} (hpos : 1 ≤ fs.sectorsPerCluster) :
    .slots c (clusterToSector fs c) ∈ scanReads fs visit c := by
  obtain ⟨k, hk⟩ : ∃ k, fs.sectorsPerCluster = k + 1 := ⟨fs.sectorsPerCluster - 1, by omega⟩
  rw [scanReads, hk, List.range_succ_eq_map (n := k), sectorsUntil, List.map_cons, Nat.add_zero,
    u32_of_lt (show clusterToSector fs c < 2 ^ 32 from u32_lt _)]
  exact List.mem_cons_self

theorem scanReads_ofChain {ρ : Type} {visit : ℕ → ℕ → Option ρ} (hg : Geometry fs)
    (hc : InRange fs c) (hcl : c ∈ l) {r : SearchRead} (hr : r ∈ scanReads fs visit c) :
    r.OfChain fs l := by
  obtain ⟨s, hs, rfl⟩ := scanReads_mem hr
  obtain ⟨heq, hle⟩ := clusterToSector_eq hg hc
  refine ⟨hcl, s, hs, ?_⟩
  rw [heq, u32_of_lt (by omega)]

theorem linkRead_ofChain (hg : Geometry fs) (hc : InRange fs c) (hcl : c ∈ l) :
    (SearchRead.link c (linkSector fs c)).OfChain fs l := by
  have hlt := hg.link_lt hc.2
  have hsector := hg.fatSector_lt (i := c / 128) (by have := hc.2; omega)
  have hrange := hc.2
  have heq : linkSector fs c = fs.reservedSectorCount + c / 128 := by
    rw [linkSector, u32_of_lt (show c * 4 < 2 ^ 32 by omega), u32_of_lt (by omega)]
    omega
  exact ⟨hcl, by omega, by omega⟩

theorem inRange_on (hg : Geometry fs) (hc : InRange fs c) : ¬ offNameSearch c := by
  have hclusters := hg.clusters
  have hlt := hc.2
  simp only [offNameSearch, not_not]
  exact ⟨hc.1, by omega⟩

theorem SearchRead.OfChain.mono {r : SearchRead} (h : r.OfChain fs l) :
    r.OfChain fs (c :: l) := by
  cases r with
  | slots b s => exact ⟨List.mem_cons_of_mem c h.1, h.2⟩
  | link b s => exact ⟨List.mem_cons_of_mem c h.1, h.2⟩

theorem reads_ofChain (hg : Geometry fs) (hl : Linked (fat32NextCluster fs d) endOfChain a l)
    (hr : ∀ c ∈ l, InRange fs c) (hstop : ∃ c ∈ l,
      scanCluster fs (clusterToSector fs c) (dirnameVisit fs d parent child) ≠ none) (n : ℕ) :
    ∀ r ∈ searchReads fs d parent child n a, r.OfChain fs l := by
  induction hl generalizing n with
  | nil =>
    obtain ⟨c, hc, -⟩ := hstop
    cases hc
  | @cons a l _ _ ih =>
    have ha := hr a List.mem_cons_self
    cases n with
    | zero => simp [searchReads]
    | succ n =>
      intro r hmem
      rw [searchReads, if_neg (inRange_on hg ha)] at hmem
      rcases List.mem_append.mp hmem with hmem | hmem
      · exact scanReads_ofChain hg ha List.mem_cons_self hmem
      · cases hscan : scanCluster fs (clusterToSector fs a) (dirnameVisit fs d parent child) with
        | some r =>
          rw [hscan] at hmem
          cases hmem
        | none =>
          rw [hscan] at hmem
          rcases List.mem_cons.mp hmem with rfl | hmem
          · exact linkRead_ofChain hg ha List.mem_cons_self
          · refine (ih (fun c hc => hr c (List.mem_cons_of_mem a hc)) ?_ n r hmem).mono
            obtain ⟨c, hc, hne⟩ := hstop
            rcases List.mem_cons.mp hc with rfl | hc
            · exact absurd hscan hne
            · exact ⟨c, hc, hne⟩

theorem nextCluster_lt (c : ℕ) : fat32NextCluster fs d c < 2 ^ 28 := by
  unfold fat32NextCluster
  simp only
  rw [show (0x0FFFFFFF : ℕ) = 2 ^ 28 - 1 from rfl, and_low_mask]
  exact Nat.mod_lt _ (by norm_num)

theorem reads_past_end (hg : Geometry fs) (hl : Linked (fat32NextCluster fs d) endOfChain a l)
    (hr : ∀ c ∈ l, InRange fs c) (ha : a < 2 ^ 28) (hpass : ∀ c ∈ l,
      scanCluster fs (clusterToSector fs c) (dirnameVisit fs d parent child) = none)
    (hn : l.length < n) : ∃ v, endOfChain v ∧ v < 2 ^ 28 ∧
      .slots v (clusterToSector fs v) ∈ searchReads fs d parent child n a := by
  induction hl generalizing n with
  | @nil v hend =>
    obtain ⟨k, rfl⟩ : ∃ k, n = k + 1 := ⟨n - 1, by simp at hn; omega⟩
    refine ⟨v, hend, ha, ?_⟩
    have hon : ¬ offNameSearch v := by
      simp only [endOfChain] at hend
      simp only [offNameSearch, not_not]
      omega
    rw [searchReads, if_neg hon]
    exact List.mem_append_left _ (scanReads_first hg.perCluster_pos)
  | @cons a l _ _ ih =>
    rw [List.length_cons] at hn
    obtain ⟨k, rfl⟩ : ∃ k, n = k + 1 := ⟨n - 1, by omega⟩
    obtain ⟨v, hend, hv, hmem⟩ := ih (fun c hc => hr c (List.mem_cons_of_mem a hc))
      (nextCluster_lt a) (fun c hc => hpass c (List.mem_cons_of_mem a hc))
      (show l.length < k by omega)
    refine ⟨v, hend, hv, ?_⟩
    rw [searchReads, if_neg (inRange_on hg (hr a List.mem_cons_self)),
      hpass a List.mem_cons_self]
    exact List.mem_append_right _ (List.mem_cons_of_mem _ hmem)

/-- The sectors of an end mark lie behind all clusters, unless the sector number wraps. -/
theorem end_sector_outside (hg : Geometry fs) {v i : ℕ} (hv : endOfChain v) (hlt : v < 2 ^ 28)
    (hword : fs.firstDataSector + (v - 2) * fs.sectorsPerCluster < 2 ^ 32) (hc : InRange fs c)
    (hi : i < fs.sectorsPerCluster) :
    fs.reservedSectorCount + fs.fatSize ≤ clusterToSector fs v ∧
      clusterToSector fs v ≠ fs.firstDataSector + (c - 2) * fs.sectorsPerCluster + i := by
  have hclusters := hg.clusters
  have hareas := hg.areas
  have hpos := hg.perCluster_pos
  have hrange := hc.2
  have h2 := hc.1
  simp only [endOfChain] at hv
  have hvle : v - 2 ≤ (v - 2) * fs.sectorsPerCluster := Nat.le_mul_of_pos_right _ hpos
  have hstep : (c - 2) * fs.sectorsPerCluster + fs.sectorsPerCluster ≤
      (v - 2) * fs.sectorsPerCluster := by
    rw [← Nat.succ_mul]
    exact Nat.mul_le_mul_right _ (by omega)
  have heq : clusterToSector fs v = fs.firstDataSector + (v - 2) * fs.sectorsPerCluster := by
    rw [clusterToSector, sub32_of_le (by omega) (by omega),
      u32_of_lt (show (v - 2) * fs.sectorsPerCluster < 2 ^ 32 by omega), u32_of_lt (by omega),
      Nat.add_comm]
  omega

end Reads

section Exactness

variable {fs : Fat32} {skip : ℕ → List UInt8 → Prop} {d : Bytes} {cwd parent child : ℕ}
variable {l : List ℕ} {nameOf : List UInt8 → List UInt8}

theorem directoryChain_of_wellFormed (hw : WellFormed fs skip d cwd)
    (ha : Directory fs skip d parent) : ∃ l, DirectoryChain fs d parent l := by
  obtain ⟨l, hl⟩ := hw.chain ha
  exact ⟨l, hw.geometry, hl, hw.zero_tail parent l ha hl⟩

theorem unsettled_reads (h : DirectoryChain fs d parent l) (hchild : 2 ≤ child)
    (hne : child ≠ parent) (hs : ¬ Settled fs d child l) : ∃ v, endOfChain v ∧ v < 2 ^ 28 ∧
      .slots v (clusterToSector fs v) ∈ searchReads fs d parent child wordCount parent := by
  have hg := h.geometry
  have hstart := h.chain.start_inRange.2
  have hclusters := hg.clusters
  rw [settled_iff_scan hg h.chain.inRange hchild hne] at hs
  push Not at hs
  exact reads_past_end hg h.chain.linked h.chain.inRange (by omega) hs (h.chain.length_lt hg)

theorem settled_of_reads (h : DirectoryChain fs d parent l) (hchild : 2 ≤ child)
    (hne : child ≠ parent)
    (hreads : ∀ r ∈ searchReads fs d parent child wordCount parent, r.OfChain fs l) :
    Settled fs d child l := by
  by_contra hs
  obtain ⟨v, hend, -, hmem⟩ := unsettled_reads h hchild hne hs
  obtain ⟨hv, -⟩ := hreads _ hmem
  have hlt := (h.chain.inRange v hv).2
  have hclusters := h.geometry.clusters
  simp only [endOfChain] at hend
  omega

theorem exactSearch_iff (h : DirectoryChain fs d parent l) (hchild : 2 ≤ child)
    (hne : child ≠ parent) : ExactSearch fs d parent child l nameOf ↔
      Settled fs d child l ∧ ∀ p, (slots fs l).find? (EntryFor d child) = some p →
        nameOf (readEntry d p).name = baseName (readEntry d p).name := by
  constructor
  · intro hex
    have hs := settled_of_reads h hchild hne hex.reads
    refine ⟨hs, fun p hp => ?_⟩
    have hresult := hex.result
    rw [findDirname_settled h hchild hne hs, hp] at hresult
    exact (Option.some.inj (Option.some.inj hresult)).symm
  · rintro ⟨hs, hnames⟩
    constructor
    · rw [findDirname_settled h hchild hne hs]
      cases hfind : (slots fs l).find? (EntryFor d child) with
      | none => rfl
      | some p => simp only [Option.map_some, hnames p hfind]
    · exact reads_ofChain h.geometry h.chain.linked h.chain.inRange
        ((settled_iff_scan h.geometry h.chain.inRange hchild hne).mp hs) wordCount

/-- The search is exact exactly when the chain has the end of the directory or an entry for the
child; for the name with its extension, when the first such entry has none. Otherwise it reads
sectors of the end mark, which lie behind all clusters unless their numbers wrap. -/
theorem find_dirname_exact_iff (h : DirectoryChain fs d parent l) (hchild : 2 ≤ child)
    (hne : child ≠ parent) :
    (ExactSearch fs d parent child l baseName ↔ Settled fs d child l) ∧
    (ExactSearch fs d parent child l shortName ↔ Settled fs d child l ∧
      ∀ p, (slots fs l).find? (EntryFor d child) = some p →
        (readEntry d p).name.getD 8 0 = space) ∧
    (¬ Settled fs d child l → ∃ v, endOfChain v ∧
      .slots v (clusterToSector fs v) ∈ searchReads fs d parent child wordCount parent ∧
      (fs.firstDataSector + (v - 2) * fs.sectorsPerCluster < 2 ^ 32 →
        fs.reservedSectorCount + fs.fatSize ≤ clusterToSector fs v ∧
        ∀ c, InRange fs c → ∀ i < fs.sectorsPerCluster,
          clusterToSector fs v ≠ fs.firstDataSector + (c - 2) * fs.sectorsPerCluster + i)) := by
  refine ⟨?_, ?_, fun hs => ?_⟩
  · rw [exactSearch_iff h hchild hne]
    exact and_iff_left fun _ _ => rfl
  · rw [exactSearch_iff h hchild hne]
    simp only [shortName_eq_baseName]
  · obtain ⟨v, hend, hlt, hmem⟩ := unsettled_reads h hchild hne hs
    refine ⟨v, hend, hmem, fun hword => ⟨?_, fun c hc i hi => ?_⟩⟩
    · have hstart := h.chain.start_inRange
      exact (end_sector_outside h.geometry hend hlt hword hstart h.geometry.perCluster_pos).1
    · exact (end_sector_outside h.geometry hend hlt hword hc hi).2

theorem blankDisk_directory : DirectoryChain tinyVolume blankDisk 2 [2] :=
  ⟨by decide, blankDisk_chain, by decide⟩

theorem find_dirname_exact_iff_blankDisk :
    (ExactSearch tinyVolume blankDisk 2 3 [2] baseName ↔ Settled tinyVolume blankDisk 3 [2]) ∧
    (ExactSearch tinyVolume blankDisk 2 3 [2] shortName ↔ Settled tinyVolume blankDisk 3 [2] ∧
      ∀ p, (slots tinyVolume [2]).find? (EntryFor blankDisk 3) = some p →
        (readEntry blankDisk p).name.getD 8 0 = space) := by
  have h := find_dirname_exact_iff blankDisk_directory (show 2 ≤ 3 by decide) (by decide)
  exact ⟨h.1, h.2.1⟩

/-- In a full directory without the child the search goes on to sector 0x0FFFFFFF. -/
theorem full_parent_left : DirectoryChain tinyVolume fullRoot 2 [2] ∧
    (∀ p ∈ slots tinyVolume [2], ¬ EntryFor fullRoot 3 p) ∧
    .slots 0x0FFFFFFF 0x0FFFFFFF ∈ searchReads tinyVolume fullRoot 2 3 wordCount 2 ∧
    ¬ ExactSearch tinyVolume fullRoot 2 3 [2] baseName := by
  have hnone : ∀ p ∈ slots tinyVolume [2], ¬ EntryFor fullRoot 3 p := by decide
  have hread : .slots 0x0FFFFFFF 0x0FFFFFFF ∈ searchReads tinyVolume fullRoot 2 3 wordCount 2 := by
    obtain ⟨n, hn⟩ : ∃ n, wordCount = n + 2 := ⟨wordCount - 2, by unfold wordCount; omega⟩
    have hscan : scanCluster tinyVolume (clusterToSector tinyVolume 2)
        (dirnameVisit tinyVolume fullRoot 2 3) = none := by decide +kernel
    have hnext : fat32NextCluster tinyVolume fullRoot 2 = 0x0FFFFFFF := by decide +kernel
    rw [hn, searchReads, if_neg (by decide), hscan, hnext]
    apply List.mem_append_right
    apply List.mem_cons_of_mem
    rw [searchReads, if_neg (by decide)]
    exact List.mem_append_left _ (scanReads_first (by decide))
  refine ⟨⟨by decide, fullRoot_chain, ?_⟩, hnone, hread, fun hex => ?_⟩
  · exact fullRoot_wellFormed.zero_tail 2 [2] fullRoot_wellFormed.current fullRoot_chain
  · exact absurd (List.mem_singleton.mp (hex.reads _ hread).1) (by decide)

end Exactness

end Fat32NameSearch
