import SojebOS.WalkCycles
import SojebOS.Fat32Volume

/-!
# When the walks over a directory end

The walks follow the links of a directory until the chain ends or a slot stops them: the end
mark for a listing, the end mark or a match for a search, a live entry for the test of
emptiness. None of them notices that it comes to a cluster again.
-/
namespace Fat32DirectoryWalks

open ByteMemory MachineWord WhileLoop LinkedChain WalkCycles
open Fat32Disk Fat32Directory Fat32Files Fat32Tree Fat32Volume

/-- What is printed for an 8.3 name: the base, a dot before an extension, and a newline. -/
def printName (name : List UInt8) : List UInt8 :=
  if name.getD 0 0 = deletedMark then []
  else
    let base := (name.take 8).filter (· ≠ space)
    let out :=
      if name.getD 8 0 ≠ space then base ++ dot :: ((name.drop 8).take 3).filter (· ≠ space)
      else base
    out.takeWhile (· ≠ 0) ++ [newline]

def slotsOf (fs : Fat32) (sectorStart : ℕ) : List (ℕ × ℕ) :=
  (List.range fs.sectorsPerCluster).flatMap fun s =>
    (List.range 16).map fun i => (u32 (sectorStart + s), i)

/-- Print the entries of the slots; the end mark ends the listing. -/
def listSlots (d : Bytes) :
    List (ℕ × ℕ) → List UInt8 → Iteration (List UInt8) (List UInt8)
  | [], printed => .again printed
  | (sector, i) :: slots, printed =>
    let buffer := diskRead d sector
    let e := readEntry buffer (32 * i)
    if buffer (32 * i) = 0 then .leave printed
    else if buffer (32 * i) = deletedMark then listSlots d slots printed
    else if e.attr = attrLongName then listSlots d slots printed
    else listSlots d slots (printed ++ printName e.name)

/-- One cluster of the listing; the state is (cluster, what has been printed). -/
def lsBody (fs : Fat32) (d : Bytes) (s : ℕ × List UInt8) :
    Iteration (ℕ × List UInt8) (List UInt8) :=
  if offChain s.1 then .leave s.2
  else
    match listSlots d (slotsOf fs (clusterToSector fs s.1)) s.2 with
    | .again printed => .again (fat32NextCluster fs d s.1, printed)
    | .leave printed => .leave printed

def fat32Ls (fs : Fat32) (d : Bytes) (currentDirCluster : ℕ) : Option (List UInt8) :=
  run (lsBody fs d) wordCount (currentDirCluster, [])

def findBody (fs : Fat32) (d : Bytes) (filename : List UInt8) :
    ℕ → Iteration ℕ (Option (Option Fat32DirEntry)) :=
  walkBody (fat32NextCluster fs d) offChain fun c =>
    scanCluster fs (clusterToSector fs c) (findVisit d (formatFilename filename))

def emptyBody (fs : Fat32) (d : Bytes) : ℕ → Iteration ℕ (Option Unit) :=
  walkBody (fat32NextCluster fs d) offChain fun c =>
    scanCluster fs (clusterToSector fs c) (occupiedVisit d)

def componentBody (fs : Fat32) (d : Bytes) (component : List UInt8) :
    ℕ → Iteration ℕ (Option ℕ) :=
  walkBody (fat32NextCluster fs d) offChain (scanForComponent fs d (formatFilename component))

/-- Some slot of a cluster satisfies `P`. -/
def HasSlot (fs : Fat32) (c : ℕ) (P : ℕ → ℕ → Prop) : Prop :=
  ∃ s < fs.sectorsPerCluster, ∃ i < 16, P (u32 (clusterToSector fs c + s)) i

/-- A listing ends in the cluster: it has an end mark. -/
def EndsListing (fs : Fat32) (d : Bytes) (c : ℕ) : Prop :=
  HasSlot fs c fun sector i => diskRead d sector (32 * i) = 0

/-- A search ends in the cluster: it has an end mark or a short name that matches. -/
def EndsSearch (fs : Fat32) (d : Bytes) (filename : List UInt8) (c : ℕ) : Prop :=
  HasSlot fs c fun sector i => diskRead d sector (32 * i) = 0 ∨
    diskRead d sector (32 * i) ≠ deletedMark ∧
      (readEntry (diskRead d sector) (32 * i)).attr ≠ attrLongName ∧
      memcmp (readEntry (diskRead d sector) (32 * i)).name (formatFilename filename) = 0

/-- The test for emptiness ends in the cluster: it has an entry other than `.` and `..`. -/
def EndsEmptyTest (fs : Fat32) (d : Bytes) (c : ℕ) : Prop :=
  HasSlot fs c fun sector i => occupiedVisit d sector i = some ()

/-- The search for a component ends in the cluster: it has a directory of that name before the
end mark of its sector. -/
def EndsComponent (fs : Fat32) (d : Bytes) (component : List UInt8) (c : ℕ) : Prop :=
  scanForComponent fs d (formatFilename component) c ≠ none

/-- The walk from a cluster comes to a cycle of clusters none of which ends it. -/
def GoesRound (fs : Fat32) (d : Bytes) (stops : ℕ → Prop) (cluster : ℕ) : Prop :=
  Circles (fat32NextCluster fs d) offChain stops cluster

section Stops

variable {fs : Fat32} {d : Bytes} {c : ℕ} {ρ : Type} {visit : ℕ → ℕ → Option ρ}

theorem scanCluster_ne_none : scanCluster fs (clusterToSector fs c) visit ≠ none ↔
    HasSlot fs c fun sector i => visit sector i ≠ none := by
  simp only [scanCluster, HasSlot, ne_eq, List.findSome?_eq_none_iff, List.mem_range,
    not_forall, exists_prop]

theorem scanCluster_ends {P : ℕ → ℕ → Prop}
    (h : ∀ sector i, visit sector i ≠ none ↔ P sector i) :
    (fun c => scanCluster fs (clusterToSector fs c) visit ≠ none) = fun c => HasSlot fs c P := by
  funext c
  simp only [scanCluster_ne_none, h]

theorem findVisit_ne_none (name : List UInt8) (sector i : ℕ) :
    findVisit d name sector i ≠ none ↔ diskRead d sector (32 * i) = 0 ∨
      diskRead d sector (32 * i) ≠ deletedMark ∧
        (readEntry (diskRead d sector) (32 * i)).attr ≠ attrLongName ∧
        memcmp (readEntry (diskRead d sector) (32 * i)).name name = 0 := by
  simp only [findVisit]
  split_ifs <;> simp_all

theorem occupiedVisit_ne_none (sector i : ℕ) :
    occupiedVisit d sector i ≠ none ↔ occupiedVisit d sector i = some () :=
  Option.ne_none_iff_exists'.trans ⟨fun ⟨_, h⟩ => h, fun h => ⟨(), h⟩⟩

/-- The first byte of a slot, looked at by a listing only. -/
def endVisit (d : Bytes) (sector i : ℕ) : Option Unit :=
  if diskRead d sector (32 * i) = 0 then some () else none

theorem endVisit_ne_none (sector i : ℕ) :
    endVisit d sector i ≠ none ↔ diskRead d sector (32 * i) = 0 := by
  simp only [endVisit]
  split <;> simp_all

theorem listSlots_step (l : List (ℕ × ℕ)) (printed : List UInt8) :
    (∃ out, listSlots d l printed = .again out) ∧ l.findSome? (fun p => endVisit d p.1 p.2) = none ∨
      (∃ out, listSlots d l printed = .leave out) ∧
        ∃ u, l.findSome? (fun p => endVisit d p.1 p.2) = some u := by
  induction l generalizing printed with
  | nil => exact .inl ⟨⟨printed, rfl⟩, rfl⟩
  | cons p l ih =>
    obtain ⟨sector, i⟩ := p
    rw [List.findSome?_cons]
    by_cases hzero : diskRead d sector (32 * i) = 0
    · simp only [listSlots, endVisit, hzero, ↓reduceIte]
      exact .inr ⟨⟨printed, rfl⟩, (), trivial⟩
    · simp only [listSlots, endVisit, hzero, ↓reduceIte]
      split
      · exact ih _
      · split <;> exact ih _

theorem scanCluster_slotsOf (sectorStart : ℕ) :
    (slotsOf fs sectorStart).findSome? (fun p => visit p.1 p.2) =
      scanCluster fs sectorStart visit := by
  rw [slotsOf, findSome?_flatMap, scanCluster]
  exact findSome?_congr fun s _ => List.findSome?_map

theorem lsBody_walk (fs : Fat32) (d : Bytes) (s : ℕ × List UInt8) :
    Iteration.Rel (fun s c => s.1 = c) (fun _ _ => True) (lsBody fs d s)
      (walkBody (fat32NextCluster fs d) offChain
        (fun c => scanCluster fs (clusterToSector fs c) (endVisit d)) s.1) := by
  simp only [lsBody, walkBody, ← scanCluster_slotsOf]
  by_cases hend : offChain s.1
  · simp only [hend, ↓reduceIte]
    exact .leave trivial
  · simp only [hend, ↓reduceIte]
    rcases listSlots_step (d := d) (slotsOf fs (clusterToSector fs s.1)) s.2 with
      ⟨⟨out, hls⟩, hwalk⟩ | ⟨⟨out, hls⟩, u, hwalk⟩
    · rw [hls, hwalk]
      exact .again rfl
    · rw [hls, hwalk]
      exact .leave trivial

theorem ls_none_iff_walk (n : ℕ) (printed : List UInt8) :
    run (lsBody fs d) n (c, printed) = none ↔ run (walkBody (fat32NextCluster fs d) offChain
      fun c => scanCluster fs (clusterToSector fs c) (endVisit d)) n c = none := by
  have hrel := run_simulation (fun s t (h : s.1 = t) => h ▸ lsBody_walk fs d s) n
    (s := (c, printed)) (t := c) rfl
  generalize run (lsBody fs d) n (c, printed) = x at hrel ⊢
  generalize run _ n c = y at hrel ⊢
  cases hrel with
  | none => simp only
  | some => simp only [reduceCtorEq]

end Stops

section Endings

variable {fs : Fat32} {d : Bytes} {n : ℕ}

/-- A walk outlives as many rounds as there are words only if it goes round a cycle. -/
theorem walk_none_iff_goesRound {ρ : Type} {visit : ℕ → Option ρ} {c : ℕ} (hn : wordCount ≤ n) :
    run (walkBody (fat32NextCluster fs d) offChain visit) n c = none ↔
      GoesRound fs d (fun c => visit c ≠ none) c := by
  refine walk_none_iff (Finset.range 0x0FFFFFF8)
    (fun c hc => Finset.mem_range.mpr (not_not.mp hc).2) ?_
  rw [Finset.card_range]
  exact Nat.lt_of_lt_of_le (by norm_num) hn

/-- Each walk ends unless it comes to a cycle of clusters that do not end it, and such a cycle
it goes round for ever. -/
theorem directory_walks_end_iff (fs : Fat32) (d : Bytes) (cluster : ℕ) (name : List UInt8) :
    (fat32Ls fs d cluster = none ↔ GoesRound fs d (EndsListing fs d) cluster) ∧
    (fat32FindFile fs d cluster name = none ↔
      GoesRound fs d (EndsSearch fs d name) cluster) ∧
    (isDirectoryEmpty fs d cluster = none ↔ GoesRound fs d (EndsEmptyTest fs d) cluster) ∧
    (findComponent fs d cluster name = none ↔
      GoesRound fs d (EndsComponent fs d name) cluster) ∧
    ∀ n,
      (GoesRound fs d (EndsListing fs d) cluster → run (lsBody fs d) n (cluster, []) = none) ∧
      (GoesRound fs d (EndsSearch fs d name) cluster →
        run (findBody fs d name) n cluster = none) ∧
      (GoesRound fs d (EndsEmptyTest fs d) cluster → run (emptyBody fs d) n cluster = none) ∧
      (GoesRound fs d (EndsComponent fs d name) cluster →
        run (componentBody fs d name) n cluster = none) := by
  have hls : (fun c => scanCluster fs (clusterToSector fs c) (endVisit d) ≠ none) =
      EndsListing fs d := scanCluster_ends endVisit_ne_none
  have hfind : (fun c => scanCluster fs (clusterToSector fs c)
      (findVisit d (formatFilename name)) ≠ none) = EndsSearch fs d name :=
    scanCluster_ends (findVisit_ne_none _)
  have hempty : (fun c => scanCluster fs (clusterToSector fs c) (occupiedVisit d) ≠ none) =
      EndsEmptyTest fs d := scanCluster_ends occupiedVisit_ne_none
  refine ⟨?_, ?_, ?_, walk_none_iff_goesRound le_rfl, fun n => ⟨?_, ?_, ?_, ?_⟩⟩
  · rw [fat32Ls, ls_none_iff_walk, walk_none_iff_goesRound le_rfl, hls]
  · rw [fat32FindFile, walkDirectory, Option.map_eq_none_iff, walk_none_iff_goesRound le_rfl, hfind]
  · rw [isDirectoryEmpty, walkDirectory, Option.map_eq_none_iff, walk_none_iff_goesRound le_rfl,
      hempty]
  · rw [ls_none_iff_walk, ← hls]
    exact fun h => walk_circles h n
  · rw [← hfind]
    exact fun h => walk_circles h n
  · rw [← hempty]
    exact fun h => walk_circles h n
  · exact fun h => walk_circles h n

/-- The root is its own successor, and all its slots begin with the end mark. -/
def selfLinkedDisk : Bytes := fun x => if x = 520 then 2 else 0

/-- The listing and the search return at the first slot. The test for emptiness goes on behind the
end mark, and the component search behind the sector that it is in, and both for ever. -/
theorem selfLinkedDisk_never_ends :
    fat32Ls tinyVolume selfLinkedDisk 2 = some [] ∧
    fat32FindFile tinyVolume selfLinkedDisk 2 [0x41] = some none ∧
    (¬ ∃ n, run (emptyBody tinyVolume selfLinkedDisk) n 2 ≠ none) ∧
    ¬ ∃ n, run (componentBody tinyVolume selfLinkedDisk [0x41]) n 2 ≠ none := by
  have hstay : ∀ {ρ : Type} (visit : ℕ → Option ρ), visit 2 = none → ∀ n,
      run (walkBody (fat32NextCluster tinyVolume selfLinkedDisk) offChain visit) n 2 = none := by
    intro ρ visit hvisit
    have hpass : Passes (fat32NextCluster tinyVolume selfLinkedDisk) offChain
        (fun c => visit c ≠ none) 2 2 := ⟨⟨by decide, not_not.mpr hvisit⟩, by decide⟩
    exact walk_circles ⟨2, .refl, .single hpass⟩
  refine ⟨by decide +kernel, by decide +kernel, ?_, ?_⟩
  · rintro ⟨n, hends⟩
    exact hends (hstay _ (by decide) n)
  · rintro ⟨n, hends⟩
    exact hends (hstay _ (by decide +kernel) n)

end Endings

end Fat32DirectoryWalks
