import SojebOS.NamedListings
import SojebOS.Fat32UniqueNames
import SojebOS.Fat32ReadSlices
import SojebOS.Fat32PathComposition

/-!
# What a volume lists

The reading of a disk as listings: the live short entries of a directory by their names, a
file with what the driver reads of it and a directory with the cluster it leads to. Lookups,
reads and paths of the driver are answered by the listing.
-/
namespace Fat32Listing

open ByteMemory MachineWord LinkedChain NamedListings
open WhileLoop (run_leave)
open Fat32Disk Fat32Directory Fat32Files Fat32Tree Fat32Layout Fat32Volume
open Fat32Entries Fat32Allocation Fat32Growth Fat32RoundTrip Fat32ReadSlices Fat32TreeGrowth
open Fat32Paths Fat32Removal Fat32TreeInvariant Fat32TreeRuns Fat32Links Fat32UniqueNames
open Fat32PathComposition

structure StoredFile where
  size : ℕ
  bytes : List UInt8
  deriving DecidableEq

/-- An 8.3 name of a directory, and its directories by their first clusters. -/
abbrev VolumeListing := Listing ℕ (List UInt8) StoredFile

/-- A file of `size` bytes, with what a read of it gives. -/
def storedFile (fs : Fat32) (d : Bytes) (e : Fat32DirEntry) : StoredFile :=
  ⟨e.fileSize, (fat32ReadAbsolute fs d e.firstCluster 0 e.fileSize).getD []⟩

def entryNode (fs : Fat32) (d : Bytes) (p : ℕ) : Node ℕ StoredFile :=
  if (readEntry d p).isDirectory then .directory (target fs d p)
  else .file (storedFile fs d (readEntry d p))

/-- The directory has a live short entry of the name in the slot. -/
structure Lists (fs : Fat32) (d : Bytes) (a : ℕ) (n : List UInt8) (p : ℕ) : Prop where
  slot : SlotOf fs d a p
  named : Named d p
  name : (readEntry d p).name = n

def ShowsAt (fs : Fat32) (d : Bytes) (m : VolumeListing) (a : ℕ) : Prop :=
  ∀ n x, m a n = some x ↔ ∃ p, Lists fs d a n p ∧ entryNode fs d p = x

def Shows (fs : Fat32) (d : Bytes) (m : VolumeListing) : Prop :=
  ∀ a, Visits fs d a → ShowsAt fs d m a

section Visiting

variable {fs : Fat32} {skip : ℕ → List UInt8 → Prop} {d : Bytes} {cwd a b p q : ℕ}
variable {n : List UInt8} {m : VolumeListing}

theorem visits_root (fs : Fat32) (d : Bytes) : Visits fs d fs.rootCluster :=
  ⟨[], .root, .root, trivial, rfl⟩

theorem visits_next (ha : Visits fs d a) (hp : SlotOf fs d a p) (hn : Named d p)
    (hdir : (readEntry d p).isDirectory) : Visits fs d (target fs d p) := by
  obtain ⟨ns, x, hx, hxd, rfl⟩ := ha
  exact ⟨_, .entry p, .step hx hxd hp hn, hdir, rfl⟩

theorem visits_into (S : ℕ → Prop) (hroot : S fs.rootCluster)
    (hnext : ∀ a p, S a → SlotOf fs d a p → Named d p → (readEntry d p).isDirectory →
      S (target fs d p)) (ha : Visits fs d a) : S a := by
  obtain ⟨ns, x, hx, hdir, rfl⟩ := ha
  induction hx with
  | root => exact hroot
  | step _ hxd hp hn ih => exact hnext _ _ (ih hxd) hp hn hdir

theorem NamedTree.chain (h : NamedTree fs d cwd) (ha : Visits fs d a) : ∃ l, Chain fs d a l := by
  obtain ⟨skip, ht, -⟩ := h
  exact ht.wellFormed.chain ((visits_iff ht.wellFormed ht.linksRefer).mp ha)

theorem NamedTree.current (h : NamedTree fs d cwd) : Visits fs d cwd := by
  obtain ⟨skip, ht, -⟩ := h
  exact (visits_iff ht.wellFormed ht.linksRefer).mpr ht.wellFormed.current

theorem NamedTree.move (h : NamedTree fs d cwd) (ha : Visits fs d a) : NamedTree fs d a := by
  obtain ⟨skip, ht, hu⟩ := h
  exact ⟨skip, ht.move ((visits_iff ht.wellFormed ht.linksRefer).mp ha), hu⟩

theorem NamedTree.geometry (h : NamedTree fs d cwd) : Geometry fs := by
  obtain ⟨skip, ht, -⟩ := h
  exact ht.wellFormed.geometry

theorem NamedTree.unique (h : NamedTree fs d cwd) (ha : Visits fs d a) (hp : Lists fs d a n p)
    (hq : Lists fs d a n q) : p = q := by
  obtain ⟨skip, ht, hu⟩ := h
  exact hu a p q ((visits_iff ht.wellFormed ht.linksRefer).mp ha) hp.slot hq.slot hp.named hq.named
    (hp.name.trans hq.name.symm)

theorem NamedTree.file_present (ht : LinkedTree fs skip d cwd) (ha : Directory fs skip d a)
    (hp : SlotOf fs d a p) (hn : Named d p) (hfile : ¬ (readEntry d p).isDirectory) :
    (Item.entry p).Present fs skip d := by
  refine ⟨a, ha, hp, hn, fun hs => hfile ?_⟩
  exact (ht.links a p ha hp hn hs).2.1

theorem NamedTree.file_extent (h : NamedTree fs d cwd) (ha : Visits fs d a) (hp : SlotOf fs d a p)
    (hn : Named d p) (hfile : ¬ (readEntry d p).isDirectory) :
    ∃ l, Extent fs d (readEntry d p).firstCluster l := by
  obtain ⟨skip, ht, -⟩ := h
  exact ht.wellFormed.extent (.entry p) (NamedTree.file_present ht
    ((visits_iff ht.wellFormed ht.linksRefer).mp ha) hp hn hfile)

open Classical in
noncomputable def listingOf (fs : Fat32) (d : Bytes) : VolumeListing := fun a n =>
  if h : ∃ p, Lists fs d a n p then some (entryNode fs d h.choose) else none

theorem shows_listingOf (h : NamedTree fs d cwd) : Shows fs d (listingOf fs d) := by
  intro a ha n x
  unfold listingOf
  by_cases hex : ∃ p, Lists fs d a n p
  · rw [dif_pos hex, Option.some_inj]
    constructor
    · exact fun he => ⟨_, hex.choose_spec, he⟩
    · rintro ⟨p, hp, rfl⟩
      rw [NamedTree.unique h ha hex.choose_spec hp]
  · rw [dif_neg hex]
    constructor
    · intro he
      cases he
    · rintro ⟨p, hp, -⟩
      exact absurd ⟨p, hp⟩ hex

end Visiting

section Contents

variable {fs : Fat32} {d d' : Bytes} {a p offset size : ℕ} {l : List ℕ}

theorem readAbsolute_nowhere (hg : Geometry fs) (d : Bytes) (size : ℕ) :
    fat32ReadAbsolute fs d 0 0 size = some [] := by
  have hend : offChain 0 := by decide
  rw [readAbsolute_zero (bytesPerCluster_pos hg)]
  refine run_leave ?_ _
  simp only [readBody, hend, not_true_eq_false, and_false, ↓reduceIte]

theorem readAbsolute_kept (hg : Geometry fs) (hl : Extent fs d a l) (hl' : Extent fs d' a l)
    (hd : ∀ c ∈ l, Set.EqOn d' d (dataArea fs c)) (size : ℕ) :
    fat32ReadAbsolute fs d' a 0 size = fat32ReadAbsolute fs d a 0 size := by
  rcases hl with ⟨rfl, -⟩ | hl
  · rw [readAbsolute_nowhere hg, readAbsolute_nowhere hg]
  rcases hl' with ⟨-, h0⟩ | hl'
  · exact absurd h0 hl.nonempty
  have hpos := bytesPerCluster_pos hg
  have hlen : 0 < l.length * bytesPerCluster fs :=
    Nat.mul_pos (List.length_pos_of_ne_nil hl.nonempty) hpos
  rw [readAbsolute_at hg hl hlen, readAbsolute_at hg hl' hlen]
  refine congrArg some (List.map_congr_left fun i hi => ?_)
  have hi := List.mem_range.mp hi
  have hk : (0 + i) / bytesPerCluster fs < l.length :=
    Nat.div_lt_of_lt_mul (by rw [Nat.mul_comm]; omega)
  have hmod := Nat.mod_lt (0 + i) hpos
  rw [chainByte, chainByte, List.getD_eq_getElem _ _ hk]
  refine hd _ (List.getElem_mem hk) ?_
  simp only [dataArea, Set.mem_Ico]
  omega

theorem entryNode_kept (hs : Set.EqOn d' d (slotBytes p))
    (hfile : ¬ (readEntry d p).isDirectory → storedFile fs d' (readEntry d p) =
      storedFile fs d (readEntry d p)) : entryNode fs d' p = entryNode fs d p := by
  have he := readEntry_congr hs
  unfold entryNode
  rw [he]
  by_cases hdir : (readEntry d p).isDirectory
  · rw [if_pos hdir, if_pos hdir, target, target, he]
  · rw [if_neg hdir, if_neg hdir, hfile hdir]

theorem lists_congr {n : List UInt8} (hs : Set.EqOn d' d (slotBytes p))
    (hslot : SlotOf fs d' a p ↔ SlotOf fs d a p) : Lists fs d' a n p ↔ Lists fs d a n p := by
  have he := readEntry_congr hs
  have hn := named_congr hs
  constructor
  · rintro ⟨h1, h2, h3⟩
    exact ⟨hslot.mp h1, hn.mp h2, he ▸ h3⟩
  · rintro ⟨h1, h2, h3⟩
    exact ⟨hslot.mpr h1, hn.mpr h2, he.symm ▸ h3⟩

/-- What is read of a file that has clusters is a slice of what the whole read gives. -/
theorem vfsRead_chain (hg : Geometry fs) {node : VfsNode} {first : ℕ} (hl : Chain fs d first l)
    (hread : node.read = some .fat32VfsRead) (hinode : node.inode = first) {count : ℕ}
    (hwrap : offset + count < 2 ^ 32) :
    vfsRead fs d node offset count =
      some ((((fat32ReadAbsolute fs d first 0 node.size).getD []).drop offset).take count) := by
  have hslice := readAbsolute_slice (hl.linked_offChain hg) hl.nonempty
  simp only [vfsRead, hread, fat32VfsRead, hinode, hslice, u32_of_lt hwrap, Option.getD_some,
    List.drop_zero, List.drop_take, List.take_take]
  by_cases hend : node.size ≤ offset
  · rw [if_pos hend, Nat.sub_eq_zero_of_le hend, Nat.min_zero, List.take_zero]
  · rw [if_neg hend]
    by_cases hmore : node.size < offset + count
    · rw [if_pos hmore, Nat.min_eq_right (by omega)]
    · rw [if_neg hmore, Nat.min_eq_left (by omega)]

end Contents

section Answers

variable {fs : Fat32} {d : Bytes} {cwd : ℕ} {m : VolumeListing} {name : List UInt8}

theorem lookup_absent (h : NamedTree fs d cwd) (hm : Shows fs d m)
    (hnone : m cwd (formatFilename name) = none) :
    fat32FileLookup fs d cwd name = some none := by
  obtain ⟨l, hl⟩ := NamedTree.chain h (NamedTree.current h)
  have hfind := findFile_eq (NamedTree.geometry h) hl name
  rw [fat32FileLookup, hfind]
  cases hv : ((slots fs l).findSome? (searchAt d (Matches d (formatFilename name))
      (readEntry d))).join with
  | none => rfl
  | some e =>
    obtain ⟨pre, q, post, hs, hlive, hmatch, -, -⟩ := search_some hv
    have hq : Lists fs d cwd (formatFilename name) q :=
      ⟨⟨l, hl, by rw [hs]; simp⟩, ⟨hlive, hmatch.1⟩, hmatch.2⟩
    have := (hm cwd (NamedTree.current h) _ _).mpr ⟨q, hq, rfl⟩
    rw [hnone] at this
    cases this

theorem lookup_listed (h : NamedTree fs d cwd) (hm : Shows fs d m) {x : Node ℕ StoredFile}
    (hx : m cwd (formatFilename name) = some x) : ∃ p, Lists fs d cwd (formatFilename name) p ∧
      entryNode fs d p = x ∧ fat32FindFile fs d cwd name = some (some (readEntry d p)) := by
  obtain ⟨p, hp, he⟩ := (hm cwd (NamedTree.current h) _ _).mp hx
  exact ⟨p, hp, he, lookup_unique h hp.slot hp.named hp.name⟩

theorem findFile_new_iff (h : NamedTree fs d cwd) (hm : Shows fs d m) :
    fat32FindFile fs d cwd name = some none ↔ m cwd (formatFilename name) = none := by
  constructor
  · intro hf
    by_contra hne
    obtain ⟨x, hx⟩ := Option.ne_none_iff_exists'.mp hne
    obtain ⟨p, -, -, hp⟩ := lookup_listed h hm hx
    rw [hf] at hp
    cases hp
  · intro hnone
    have hl := lookup_absent h hm hnone
    obtain ⟨found, hf, hmap⟩ := Option.map_eq_some_iff.mp hl
    rwa [Option.map_eq_none_iff.mp hmap] at hf

/-- What the driver answers about a name in the current directory. -/
structure Answered (fs : Fat32) (d : Bytes) (cwd : ℕ) (m : VolumeListing) (name : List UInt8) :
    Prop where
  absent : m cwd (formatFilename name) = none → fat32FileLookup fs d cwd name = some none
  file : ∀ f, m cwd (formatFilename name) = some (.file f) →
    ∃ node, fat32FileLookup fs d cwd name = some (some node) ∧ node.flags = vfsFile ∧
      node.size = f.size ∧ vfsRead fs d node 0 f.size = some f.bytes ∧
      (f.bytes ≠ [] → ∀ offset count, offset + count < 2 ^ 32 →
        vfsRead fs d node offset count = some ((f.bytes.drop offset).take count))
  directory : ∀ b, m cwd (formatFilename name) = some (.directory b) →
    ∃ node, fat32FileLookup fs d cwd name = some (some node) ∧ node.flags = vfsDirectory

theorem answered (h : NamedTree fs d cwd) (hm : Shows fs d m) (name : List UInt8) :
    Answered fs d cwd m name := by
  have hg := NamedTree.geometry h
  refine ⟨lookup_absent h hm, ?_, ?_⟩
  · intro f hf
    obtain ⟨p, hp, he, hfind⟩ := lookup_listed h hm hf
    unfold entryNode at he
    split at he
    · cases he
    next hfile =>
    obtain rfl : storedFile fs d (readEntry d p) = f := by injection he
    obtain ⟨l, hl⟩ := NamedTree.file_extent h (NamedTree.current h) hp.slot hp.named hfile
    have hsize : (readEntry d p).fileSize < 2 ^ 32 := load32_lt _ _
    rw [fat32FileLookup, hfind]
    refine ⟨_, rfl, if_neg hfile, rfl, ?_, ?_⟩
    · rcases hl with ⟨h0, -⟩ | hl
      · simp only [vfsRead, fat32VfsRead, storedFile, h0, readAbsolute_nowhere hg, ite_self,
          Option.getD_some]
      · rw [vfsRead_chain hg hl rfl rfl (by simpa [storedFile] using hsize)]
        simp only [storedFile, List.drop_zero]
        rw [readAbsolute_slice (hl.linked_offChain hg) hl.nonempty, Option.getD_some,
          List.take_take, Nat.min_self]
    · intro hne offset count hwrap
      rcases hl with ⟨h0, -⟩ | hl
      · refine absurd ?_ hne
        simp only [storedFile, h0, readAbsolute_nowhere hg, Option.getD_some]
      · exact vfsRead_chain hg hl rfl rfl hwrap
  · intro b hb
    obtain ⟨p, -, he, hfind⟩ := lookup_listed h hm hb
    unfold entryNode at he
    split at he
    next hdir =>
      rw [fat32FileLookup, hfind]
      exact ⟨_, rfl, if_pos hdir⟩
    · cases he

end Answers

section Paths

variable {fs : Fat32} {d : Bytes} {cwd a : ℕ} {m : VolumeListing}

/-- The 8.3 names of the components of a path, at most `n` of them. -/
def pathNames : ℕ → List UInt8 → List (List UInt8)
  | 0, _ => []
  | n + 1, path =>
    let (component, rest) := getNextComponent path
    if component = [] then [] else formatFilename component :: pathNames n rest

theorem findComponent_listed (h : NamedTree fs d cwd) (hm : Shows fs d m) (ha : Visits fs d a)
    (s : List UInt8) : ∃ found, findComponent fs d a s = some found ∧
      (found = none → ∀ b, m a (formatFilename s) ≠ some (.directory b)) ∧
      ∀ c ∈ found, m a (formatFilename s) =
        some (.directory (if c = 0 then fs.rootCluster else c)) := by
  obtain ⟨l, hl⟩ := NamedTree.chain h ha
  have htail : (slots fs l).Pairwise fun p q => d p = 0 → d q = 0 := by
    obtain ⟨skip, ht, -⟩ := h
    exact ht.wellFormed.zero_tail a l ((visits_iff ht.wellFormed ht.linksRefer).mp ha) hl
  refine ⟨_, findComponent_eq (NamedTree.geometry h) hl htail s, ?_, ?_⟩
  · intro hnone b hb
    obtain ⟨p, hp, he⟩ := (hm a ha _ _).mp hb
    have hsel := List.findSome?_eq_none_iff.mp hnone p (hp.slot.mem hl)
    unfold entryNode at he
    split at he
    next hdir =>
      rw [selectDirectory, if_pos ⟨hp.named.live, ⟨hp.named.short, hp.name⟩, hdir⟩] at hsel
      cases hsel
    · cases he
  · intro c hc
    obtain ⟨p, hp, hsel⟩ := List.exists_of_findSome?_eq_some hc
    unfold selectDirectory at hsel
    split_ifs at hsel with hmatch
    obtain ⟨hlive, ⟨hshort, hname⟩, hdir⟩ := hmatch
    refine (hm a ha _ _).mpr ⟨p, ⟨⟨l, hl, hp⟩, ⟨hlive, hshort⟩, hname⟩, ?_⟩
    rw [entryNode, if_pos hdir, target, Option.some.inj hsel]

theorem followPath_walk (h : NamedTree fs d cwd) (hm : Shows fs d m) (n : ℕ) {path : List UInt8}
    (hn : path.length < n) (ha : Visits fs d a) : followPath fs d n a path =
      some ((m.walk a (pathNames n path)).getD 0xFFFFFFFF) := by
  induction n generalizing a path with
  | zero => exact absurd hn (Nat.not_lt_zero _)
  | succ n ih =>
    by_cases hcomp : (getNextComponent path).1 = []
    · rw [followPath_eq_walkPath hn, walkPath_end hcomp]
      simp only [pathNames, hcomp, ↓reduceIte, Listing.walk, Option.getD_some]
    · have hlt := getNextComponent_lt hcomp
      obtain ⟨found, hf, hnone, hsome⟩ := findComponent_listed h hm ha (getNextComponent path).1
      rw [followPath_eq_walkPath hn, walkPath_next hcomp, hf, Option.bind_some]
      simp only [pathNames, hcomp, ↓reduceIte]
      cases found with
      | none => rw [walk_refused (hnone rfl), Option.getD_none]
      | some c =>
        have hc := hsome c rfl
        have hb : Visits fs d (if c = 0 then fs.rootCluster else c) := by
          obtain ⟨p, hp, he⟩ := (hm a ha _ _).mp hc
          unfold entryNode at he
          split at he
          next hdir =>
            have hnext := visits_next ha hp.slot hp.named hdir
            injection he with he
            rwa [he] at hnext
          · cases he
        rw [walk_directory hc, ← ih (by omega) hb, followPath_eq_walkPath (by omega)]

/-- The directories that paths of the listing lead to are those of the volume. -/
theorem reaches_iff (hm : Shows fs d m) : m.Reaches fs.rootCluster a ↔ Visits fs d a := by
  constructor
  · intro ha
    induction ha with
    | refl => exact visits_root fs d
    | tail _ hb ih =>
      obtain ⟨n, hn⟩ := hb
      obtain ⟨p, hp, he⟩ := (hm _ ih _ _).mp hn
      unfold entryNode at he
      split at he
      next hdir =>
        injection he with he
        exact he ▸ visits_next ih hp.slot hp.named hdir
      · cases he
  · intro ha
    obtain ⟨ns, x, hx, hdir, rfl⟩ := ha
    induction hx with
    | root => exact .refl
    | @step ns x p hx hxd hp hn ih =>
      have hv : Visits fs d (itemTarget fs d x) := ⟨ns, x, hx, hxd, rfl⟩
      refine (ih hxd).tail ⟨(readEntry d p).name, (hm _ hv _ _).mpr ⟨p, ⟨hp, hn, rfl⟩, ?_⟩⟩
      exact if_pos hdir

/-- The directory that a walk ends in is entered, if there is one. -/
def entered (cwd : ℕ) : Option ℕ → ℕ × Option Reply
  | some b => (b, none)
  | none => (cwd, some .noSuchDirectory)

theorem cd_walk (h : NamedTree fs d cwd) (hm : Shows fs d m) (path : List UInt8) :
    fat32Cd fs d cwd path = some (entered cwd
      (m.walk (startCluster fs cwd path) (pathNames (path.length + 1) path))) := by
  have hstart : Visits fs d (startCluster fs cwd path) := by
    unfold startCluster
    split
    · exact visits_root fs d
    · exact NamedTree.current h
  have hresolve : fat32GetPathCluster fs d cwd path = _ :=
    (getPathCluster_eq cwd path).trans (followPath_walk h hm _ (Nat.lt_succ_self _) hstart)
  rw [fat32Cd, hresolve]
  simp only [Option.bind_eq_bind, Option.bind_some]
  cases hw : m.walk (startCluster fs cwd path) (pathNames (path.length + 1) path) with
  | none => rfl
  | some b =>
    have hb := (reaches_iff hm).mp (walk_reaches ((reaches_iff hm).mpr hstart) hw)
    obtain ⟨l, hl⟩ := NamedTree.chain h hb
    have hlt := hl.start_inRange.2
    have hclusters := (NamedTree.geometry h).clusters
    rw [Option.getD_some, if_neg (by omega)]
    rfl

end Paths

end Fat32Listing
