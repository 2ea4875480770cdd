import Mathlib.Logic.Relation
import Mathlib.Data.List.Nodup
import SojebOS.Fat32Layout
import SojebOS.Fat32Tree

/-!
# Chains, directory slots and the tree of a well-formed volume

A chain is read off the FAT, the slots of a directory off the clusters of its chain, and
the tree off the slots. `skip` says which entries are no part of the tree, so that `.` and
`..` can be left out. A volume is well formed when the chains of the tree are disjoint.
-/
namespace Fat32Volume

open ByteMemory MachineWord WhileLoop LinkedChain
open Fat32Disk Fat32Directory Fat32Files Fat32Tree Fat32Layout

def endOfChain (v : ℕ) : Prop := 0x0FFFFFF8 ≤ v

instance : DecidablePred endOfChain := fun v => inferInstanceAs (Decidable (0x0FFFFFF8 ≤ v))

/-- The clusters of the chain that starts at `a`. -/
structure Chain (fs : Fat32) (d : Bytes) (a : ℕ) (l : List ℕ) : Prop where
  linked : Linked (fat32NextCluster fs d) endOfChain a l
  inRange : ∀ c ∈ l, InRange fs c
  nonempty : l ≠ []

/-- The clusters of an entry: none at all for first cluster 0, else a chain. -/
def Extent (fs : Fat32) (d : Bytes) (a : ℕ) (l : List ℕ) : Prop :=
  a = 0 ∧ l = [] ∨ Chain fs d a l

section Chains

variable {fs : Fat32} {d d' : Bytes} {a c : ℕ} {l m : List ℕ}

theorem Chain.unique (h : Chain fs d a l) (h' : Chain fs d a m) : l = m :=
  h.linked.unique h'.linked

theorem Chain.head_mem (h : Chain fs d a l) : a ∈ l := by
  refine h.linked.head_mem fun he => h.nonempty ?_
  exact h.linked.eq_nil he

theorem Chain.start_inRange (h : Chain fs d a l) : InRange fs a := h.inRange a h.head_mem

theorem Chain.linked_offChain (hg : Geometry fs) (h : Chain fs d a l) :
    Linked (fat32NextCluster fs d) offChain a l := by
  obtain ⟨hl, hr, -⟩ := h
  induction hl with
  | nil he => exact .nil fun hn => by simp only [endOfChain] at he; omega
  | @cons a l _ _ ih =>
    refine .cons (fun hn => hn ?_) (ih fun c hc => hr c (List.mem_cons_of_mem _ hc))
    have h1 := hr a List.mem_cons_self
    have h2 := hg.clusters
    exact ⟨h1.1, by have := h1.2; omega⟩

theorem offChain_length_lt (h : Linked (fat32NextCluster fs d) offChain a l) :
    l.length + 1 < wordCount := by
  have hsub : l ⊆ List.range 0x0FFFFFF8 := fun c hc =>
    List.mem_range.mpr (not_not.mp (h.not_ends hc)).2
  have hlen := (h.nodup.subperm hsub).length_le
  rw [List.length_range] at hlen
  unfold wordCount
  omega

theorem Chain.length_lt (hg : Geometry fs) (h : Chain fs d a l) : l.length < wordCount :=
  Nat.lt_of_succ_lt (offChain_length_lt (h.linked_offChain hg))

theorem Chain.next_ne_zero (h : Chain fs d a l) (hc : c ∈ l) :
    fat32NextCluster fs d c ≠ 0 := by
  rcases h.linked.next_mem_or_ends hc with hn | hn
  · have := (h.inRange _ hn).1
    omega
  · simp only [endOfChain] at hn
    omega

theorem Chain.not_free (h : Chain fs d a l) (hc : c ∈ l) : ¬ Free fs d c :=
  fun hf => h.next_ne_zero hc hf.2

theorem Chain.congr (hg : Geometry fs) (h : Chain fs d a l)
    (hd : ∀ c ∈ l, Set.EqOn d' d (cell fs c)) : Chain fs d' a l :=
  ⟨h.linked.congr fun c hc => nextCluster_congr hg (h.inRange c hc).2 (hd c hc),
    h.inRange, h.nonempty⟩

theorem Extent.unique (h : Extent fs d a l) (h' : Extent fs d a m) : l = m := by
  rcases h with ⟨rfl, rfl⟩ | h <;> rcases h' with ⟨h0, rfl⟩ | h'
  · rfl
  · exact absurd h'.start_inRange.1 (by omega)
  · exact absurd h.start_inRange.1 (by omega)
  · exact h.unique h'

theorem Extent.inRange (h : Extent fs d a l) : ∀ c ∈ l, InRange fs c := by
  rcases h with ⟨-, rfl⟩ | h
  · simp
  · exact h.inRange

theorem Extent.not_free (h : Extent fs d a l) (hc : c ∈ l) : ¬ Free fs d c := by
  rcases h with ⟨-, rfl⟩ | h
  · simp at hc
  · exact h.not_free hc

theorem Extent.congr (hg : Geometry fs) (h : Extent fs d a l)
    (hd : ∀ c ∈ l, Set.EqOn d' d (cell fs c)) : Extent fs d' a l := by
  rcases h with h | h
  · exact .inl h
  · exact .inr (h.congr hg hd)

end Chains

/-- The addresses of the directory slots of a cluster, in the order of the walks. -/
def clusterSlots (fs : Fat32) (c : ℕ) : List ℕ :=
  (List.range fs.sectorsPerCluster).flatMap fun s =>
    (List.range 16).map fun i => clusterAddr fs c + 512 * s + 32 * i

def slots (fs : Fat32) (l : List ℕ) : List ℕ := l.flatMap (clusterSlots fs)

def slotBytes (p : ℕ) : Set ℕ := Set.Ico p (p + 32)

section Slots

variable {fs : Fat32} {d : Bytes} {a c c' p q x : ℕ} {l : List ℕ} {ρ : Type}

theorem clusterAddr_dvd (fs : Fat32) (c : ℕ) : 512 ∣ clusterAddr fs c :=
  Nat.dvd_mul_right _ _

theorem mem_clusterSlots : p ∈ clusterSlots fs c ↔
    ∃ s < fs.sectorsPerCluster, ∃ i < 16, p = clusterAddr fs c + 512 * s + 32 * i := by
  simp only [clusterSlots, List.mem_flatMap, List.mem_map, List.mem_range, eq_comm]

theorem mem_slots : p ∈ slots fs l ↔ ∃ c ∈ l, p ∈ clusterSlots fs c := List.mem_flatMap

theorem clusterSlots_dvd (hp : p ∈ clusterSlots fs c) : 32 ∣ p := by
  obtain ⟨s, _, i, _, rfl⟩ := mem_clusterSlots.mp hp
  have := clusterAddr_dvd fs c
  omega

theorem slots_dvd (hp : p ∈ slots fs l) : 32 ∣ p := by
  obtain ⟨c, _, hp⟩ := mem_slots.mp hp
  exact clusterSlots_dvd hp

theorem slotBytes_subset_dataArea (hp : p ∈ clusterSlots fs c) :
    slotBytes p ⊆ dataArea fs c := by
  obtain ⟨s, hs, i, hi, rfl⟩ := mem_clusterSlots.mp hp
  intro x hx
  simp only [slotBytes, dataArea, bytesPerCluster, Set.mem_Ico] at hx ⊢
  omega

theorem slotBytes_subset (hp : p ∈ slots fs l) : slotBytes p ⊆ territories fs l := by
  obtain ⟨c, hc, hp⟩ := mem_slots.mp hp
  exact fun x hx => ⟨c, hc, .inr (slotBytes_subset_dataArea hp hx)⟩

theorem slotBytes_disjoint (hp : 32 ∣ p) (hq : 32 ∣ q) (hne : p ≠ q) (hx : x ∈ slotBytes p) :
    x ∉ slotBytes q := by
  simp only [slotBytes, Set.mem_Ico] at hx ⊢
  omega

theorem mem_slotBytes_self (p : ℕ) : p ∈ slotBytes p := ⟨le_rfl, by omega⟩

theorem territories_disjoint {m : List ℕ} (hg : Geometry fs) (hl : ∀ c ∈ l, InRange fs c)
    (hm : ∀ c ∈ m, InRange fs c) (hd : l.Disjoint m) (hx : x ∈ territories fs l) :
    x ∉ territories fs m := by
  obtain ⟨c, hc, hx⟩ := hx
  rintro ⟨c', hc', hx'⟩
  have hne : c ≠ c' := by
    rintro rfl
    exact hd hc hc'
  exact territory_disjoint hg (hl c hc) (hm c' hc') hne hx hx'

theorem clusterSlots_nodup (fs : Fat32) (c : ℕ) : (clusterSlots fs c).Nodup := by
  refine List.nodup_flatMap.mpr ⟨fun s _ => ?_, ?_⟩
  · exact List.nodup_range.map fun i j h => by simpa using h
  · refine List.nodup_range.imp ?_
    intro s t hne p hp hq
    obtain ⟨i, hi, rfl⟩ := List.mem_map.mp hp
    obtain ⟨j, hj, h⟩ := List.mem_map.mp hq
    have := List.mem_range.mp hi
    have := List.mem_range.mp hj
    omega

theorem slots_nodup (hg : Geometry fs) (hl : ∀ c ∈ l, InRange fs c) (hn : l.Nodup) :
    (slots fs l).Nodup := by
  refine List.nodup_flatMap.mpr ⟨fun c _ => clusterSlots_nodup fs c, ?_⟩
  refine hn.pairwise_of_forall_ne ?_
  intro c hc c' hc' hne p hp hq
  have h1 := slotBytes_subset_dataArea hp (mem_slotBytes_self p)
  have h2 := slotBytes_subset_dataArea hq (mem_slotBytes_self p)
  exact territory_disjoint hg (hl c hc) (hl c' hc') hne (.inr h1) (.inr h2)

theorem scanCluster_eq (hg : Geometry fs) (hc : InRange fs c) (visit : ℕ → ℕ → Option ρ) :
    scanCluster fs (clusterToSector fs c) visit =
      (clusterSlots fs c).findSome? fun p => visit (p / 512) (p % 512 / 32) := by
  simp only [clusterSlots, findSome?_flatMap, scanCluster, List.findSome?_map]
  refine findSome?_congr fun s hs => findSome?_congr fun i hi => ?_
  have h1 := sector_addr hg hc (List.mem_range.mp hs)
  have h2 := List.mem_range.mp hi
  simp only [Function.comp]
  congr 1 <;> omega

theorem walkDirectory_eq (hg : Geometry fs) (h : Chain fs d a l)
    (visit : ℕ → ℕ → Option ρ) :
    walkDirectory fs d a visit =
      some ((slots fs l).findSome? fun p => visit (p / 512) (p % 512 / 32)) := by
  rw [walkDirectory, walk_eq_findSome _ (h.linked_offChain hg) (h.length_lt hg), slots,
    findSome?_flatMap]
  congr 1
  exact findSome?_congr fun c hc => scanCluster_eq hg (h.inRange c hc) visit

end Slots

/-- A slot that is neither free nor deleted. -/
def Live (d : Bytes) (p : ℕ) : Prop := d p ≠ 0 ∧ d p ≠ deletedMark

instance (d : Bytes) : DecidablePred (Live d) := fun p =>
  inferInstanceAs (Decidable (d p ≠ 0 ∧ d p ≠ deletedMark))

/-- A live slot that belongs to no long name. -/
structure Named (d : Bytes) (p : ℕ) : Prop where
  live : Live d p
  short : (readEntry d p).attr ≠ attrLongName

def SlotOf (fs : Fat32) (d : Bytes) (a p : ℕ) : Prop := ∃ l, Chain fs d a l ∧ p ∈ slots fs l

section Tree

variable (fs : Fat32) (skip : ℕ → List UInt8 → Prop) (d : Bytes)

/-- Slot `p` of the directory at cluster `a` is a file or a subdirectory of the tree. -/
structure Holds (a p : ℕ) : Prop where
  slot : SlotOf fs d a p
  named : Named d p
  kept : ¬ skip a (readEntry d p).name

def Subdir (a b : ℕ) : Prop :=
  ∃ p, Holds fs skip d a p ∧ (readEntry d p).isDirectory ∧ (readEntry d p).firstCluster = b

/-- The first clusters of the directories that are reachable from the root. -/
def Directory (a : ℕ) : Prop := Relation.ReflTransGen (Subdir fs skip d) fs.rootCluster a

/-- The root, and the files and directories by the address of their slot. -/
inductive Item where
  | root
  | entry (p : ℕ)
  deriving DecidableEq

def Item.start : Item → ℕ
  | .root => fs.rootCluster
  | .entry p => (readEntry d p).firstCluster

def Item.IsDirectory : Item → Prop
  | .root => True
  | .entry p => (readEntry d p).isDirectory

def Item.Present : Item → Prop
  | .root => True
  | .entry p => ∃ a, Directory fs skip d a ∧ Holds fs skip d a p

/-- The chains of the tree exist and are disjoint, nothing is live behind the end mark of
a directory, and the current directory is one of the tree. -/
structure WellFormed (cwd : ℕ) : Prop where
  geometry : Geometry fs
  extent : ∀ x : Item, x.Present fs skip d → ∃ l, Extent fs d (x.start fs d) l
  directory_chain : ∀ x : Item, x.Present fs skip d → x.IsDirectory d →
    ∃ l, Chain fs d (x.start fs d) l
  disjoint : ∀ x y : Item, x.Present fs skip d → y.Present fs skip d → x ≠ y →
    ∀ l m, Extent fs d (x.start fs d) l → Extent fs d (y.start fs d) m → l.Disjoint m
  zero_tail : ∀ a l, Directory fs skip d a → Chain fs d a l →
    (slots fs l).Pairwise fun p q => d p = 0 → d q = 0
  current : Directory fs skip d cwd

end Tree

/-- The entries `.` and `..` are links inside the tree and no part of it. -/
def dotEntry (_ : ℕ) (name : List UInt8) : Prop := name = dotName ∨ name = dotDotName

section Laws

variable {fs : Fat32} {skip : ℕ → List UInt8 → Prop} {d : Bytes} {cwd a b p q x : ℕ}
variable {l m : List ℕ}

theorem SlotOf.mem (h : SlotOf fs d a p) (hl : Chain fs d a l) : p ∈ slots fs l := by
  obtain ⟨m, hm, hp⟩ := h
  exact hl.unique hm ▸ hp

theorem SlotOf.dvd (h : SlotOf fs d a p) : 32 ∣ p := by
  obtain ⟨l, _, hp⟩ := h
  exact slots_dvd hp

theorem Directory.item (h : Directory fs skip d a) :
    ∃ x : Item, x.Present fs skip d ∧ x.IsDirectory d ∧ x.start fs d = a := by
  rcases Relation.ReflTransGen.cases_tail h with rfl | ⟨b, hb, p, hp, hdir, rfl⟩
  · exact ⟨.root, trivial, trivial, rfl⟩
  · exact ⟨.entry p, ⟨b, hb, hp⟩, hdir, rfl⟩

theorem WellFormed.chain (h : WellFormed fs skip d cwd) (ha : Directory fs skip d a) :
    ∃ l, Chain fs d a l := by
  obtain ⟨x, hx, hdir, rfl⟩ := ha.item
  exact h.directory_chain x hx hdir

theorem WellFormed.free_ne_root {c : ℕ} (h : WellFormed fs skip d cwd) (hc : Free fs d c) :
    c ≠ fs.rootCluster := by
  rintro rfl
  obtain ⟨k, hk⟩ := h.chain (a := fs.rootCluster) .refl
  exact hk.not_free hk.head_mem hc

theorem WellFormed.item_unique (h : WellFormed fs skip d cwd) {x y : Item}
    (hx : x.Present fs skip d) (hy : y.Present fs skip d)
    (hl : Chain fs d (x.start fs d) l) (hs : y.start fs d = x.start fs d) : x = y := by
  by_contra hne
  have hd := h.disjoint x y hx hy hne l l (.inr hl) (hs ▸ .inr hl)
  exact hd hl.head_mem hl.head_mem

theorem holds_ne_root (hw : WellFormed fs skip d cwd) (ha : Directory fs skip d a)
    (hp : Holds fs skip d a p) (hdir : (readEntry d p).isDirectory) :
    (readEntry d p).firstCluster ≠ fs.rootCluster := by
  intro he
  have hx : (Item.entry p).Present fs skip d := ⟨a, ha, hp⟩
  obtain ⟨l, hl⟩ := hw.directory_chain (.entry p) hx hdir
  cases hw.item_unique hx (y := .root) trivial hl he.symm

theorem WellFormed.file_apart (h : WellFormed fs skip d cwd) {y : Item}
    (ha : Directory fs skip d a) (hp : SlotOf fs d a p) (hy : y.Present fs skip d)
    (hfile : ¬ y.IsDirectory d) (hm : Extent fs d (y.start fs d) m)
    (hx : x ∈ slotBytes p) : x ∉ territories fs m := by
  obtain ⟨z, hz, hdir, rfl⟩ := ha.item
  obtain ⟨l, hl⟩ := h.directory_chain z hz hdir
  have hne : z ≠ y := by
    rintro rfl
    exact hfile hdir
  have hd := h.disjoint z y hz hy hne l m (.inr hl) hm
  exact territories_disjoint h.geometry hl.inRange hm.inRange hd
    (slotBytes_subset (hp.mem hl) hx)

/-- A slot lies in the data area, so no FAT cell is part of it. -/
theorem SlotOf.not_cell (hg : Geometry fs) (h : SlotOf fs d a p) {c : ℕ}
    (hc : c < 128 * fs.fatSize) (hx : x ∈ cell fs c) : x ∉ slotBytes p := by
  obtain ⟨l, hl, hp⟩ := h
  obtain ⟨c', hc', hp⟩ := mem_slots.mp hp
  intro hxp
  have h1 := slotBytes_subset_dataArea hp hxp
  have h2 := cell_before_data c' hg hc
  simp only [cell, dataArea, Set.mem_Ico] at hx h1
  omega

theorem directory_of_flat_root (hl : Chain fs d fs.rootCluster l)
    (hflat : ∀ p ∈ slots fs l, Named d p → ¬(readEntry d p).isDirectory)
    (ha : Directory fs skip d a) : a = fs.rootCluster := by
  induction ha with
  | refl => rfl
  | tail _ hs ih =>
    obtain ⟨p, hp, hdir, -⟩ := hs
    rw [ih] at hp
    exact absurd hdir (hflat p (hp.slot.mem hl) hp.named)

theorem directory_of_empty_root (hl : Chain fs d fs.rootCluster l)
    (h0 : ∀ p ∈ slots fs l, d p = 0) (ha : Directory fs skip d a) : a = fs.rootCluster :=
  directory_of_flat_root hl (fun p hp hn => absurd (h0 p hp) hn.live.1) ha

theorem wellFormed_of_files (hg : Geometry fs) (hl : Chain fs d fs.rootCluster l)
    (hflat : ∀ p ∈ slots fs l, Named d p → ¬(readEntry d p).isDirectory)
    (clusters : ℕ → List ℕ)
    (hfiles : ∀ p ∈ slots fs l, Named d p → Extent fs d (readEntry d p).firstCluster (clusters p))
    (hroot : ∀ p ∈ slots fs l, Named d p → l.Disjoint (clusters p))
    (hapart : ∀ p ∈ slots fs l, ∀ q ∈ slots fs l, Named d p → Named d q → p ≠ q →
      (clusters p).Disjoint (clusters q))
    (htail : (slots fs l).Pairwise fun p q => d p = 0 → d q = 0) :
    WellFormed fs skip d fs.rootCluster := by
  have hentry : ∀ p, (Item.entry p).Present fs skip d → p ∈ slots fs l ∧ Named d p := by
    rintro p ⟨a, ha, hp⟩
    rw [directory_of_flat_root hl hflat ha] at hp
    exact ⟨hp.slot.mem hl, hp.named⟩
  have hextent : ∀ p, (Item.entry p).Present fs skip d → ∀ m,
      Extent fs d ((Item.entry p).start fs d) m → m = clusters p := by
    intro p hp m hm
    obtain ⟨hp, hn⟩ := hentry p hp
    exact hm.unique (hfiles p hp hn)
  have hchain : ∀ m, Extent fs d (Item.root.start fs d) m → m = l :=
    fun m hm => hm.unique (.inr hl)
  refine ⟨hg, ?_, ?_, ?_, ?_, .refl⟩
  · intro x hx
    cases x with
    | root => exact ⟨l, .inr hl⟩
    | entry p =>
      obtain ⟨hp, hn⟩ := hentry p hx
      exact ⟨clusters p, hfiles p hp hn⟩
  · intro x hx hdir
    cases x with
    | root => exact ⟨l, hl⟩
    | entry p =>
      obtain ⟨hp, hn⟩ := hentry p hx
      exact absurd hdir (hflat p hp hn)
  · intro x y hx hy hne k m hk hm
    cases x with
    | root =>
      cases y with
      | root => exact absurd rfl hne
      | entry q =>
        obtain ⟨hq, hn⟩ := hentry q hy
        rw [hchain k hk, hextent q hy m hm]
        exact hroot q hq hn
    | entry p =>
      obtain ⟨hp, hpn⟩ := hentry p hx
      rw [hextent p hx k hk]
      cases y with
      | root =>
        rw [hchain m hm]
        exact (hroot p hp hpn).symm
      | entry q =>
        obtain ⟨hq, hqn⟩ := hentry q hy
        rw [hextent q hy m hm]
        exact hapart p hp q hq hpn hqn (by
          rintro rfl
          exact hne rfl)
  · intro a m ha hm
    rw [directory_of_flat_root hl hflat ha] at hm
    rw [hm.unique hl]
    exact htail

theorem wellFormed_of_empty_root (hg : Geometry fs) (hl : Chain fs d fs.rootCluster l)
    (h0 : ∀ p ∈ slots fs l, d p = 0) : WellFormed fs skip d fs.rootCluster := by
  have hnone : ∀ p ∈ slots fs l, ¬Named d p := fun p hp hn => hn.live.1 (h0 p hp)
  refine wellFormed_of_files hg hl ?_ (fun _ => []) ?_ ?_ ?_ ?_
  · exact fun p hp hn => absurd hn (hnone p hp)
  · exact fun p hp hn => absurd hn (hnone p hp)
  · exact fun p hp hn => absurd hn (hnone p hp)
  · exact fun p hp _ _ hn => absurd hn (hnone p hp)
  · exact List.pairwise_of_forall_mem_list fun p _ q hq _ => h0 q hq

end Laws

/-- A volume with one FAT sector and one sector in each cluster. -/
def tinyVolume : Fat32 := ⟨512, 1, 1, 1, 1, 2, 2⟩

/-- The root directory takes the first cluster, and everything else is free. -/
def blankDisk : Bytes := fun x => if 520 ≤ x ∧ x < 524 then 0xFF else 0

theorem blankDisk_chain : Chain tinyVolume blankDisk 2 [2] := by
  refine ⟨.cons (by decide) (.nil (by decide)), fun c hc => ?_, by simp⟩
  rw [List.mem_singleton.mp hc]
  exact ⟨by decide, by decide⟩

theorem blankDisk_wellFormed (skip : ℕ → List UInt8 → Prop) :
    WellFormed tinyVolume skip blankDisk 2 :=
  wellFormed_of_empty_root (by decide) blankDisk_chain (by decide)

end Fat32Volume
