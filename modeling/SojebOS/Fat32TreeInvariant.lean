import SojebOS.Fat32Removal

/-!
# The directory tree along a run

Below the root, `.` and `..` sit in the first two slots of a directory and nowhere else,
and they name the directory and its parent. In the root these names are ordinary ones: a
directory made there under them is part of the tree. The invariant holds in every state
that a run of additions, removals of tree entries and changes of directory reaches.
-/
namespace Fat32TreeInvariant

open ByteMemory MachineWord WhileLoop LinkedChain
open Fat32Disk Fat32Directory Fat32Files Fat32Tree Fat32Layout Fat32Volume
open Fat32Entries Fat32Growth Fat32TreeGrowth Fat32Paths Fat32Removal

/-- The names `.` and `..` below the root. -/
def linkEntry (fs : Fat32) (a : ℕ) (name : List UInt8) : Prop :=
  a ≠ fs.rootCluster ∧ (name = dotName ∨ name = dotDotName)

structure TreeInvariant (fs : Fat32) (d : Bytes) (cwd : ℕ) : Prop where
  wellFormed : WellFormed fs (linkEntry fs) d cwd
  dots : ∀ a p, Directory fs (linkEntry fs) d a → Holds fs (linkEntry fs) d a p →
    (readEntry d p).isDirectory → DotSlots fs d (readEntry d p).firstCluster a
  only : ∀ a p, Directory fs (linkEntry fs) d a → SlotOf fs d a p → Named d p →
    linkEntry fs a (readEntry d p).name → p = clusterAddr fs a ∨ p = clusterAddr fs a + 32

section Links

variable {fs : Fat32} {d d' : Bytes} {cwd a b c p q : ℕ} {l m pre post fresh : List ℕ}
variable {name : List UInt8}

theorem head_mem_clusterSlots (hg : Geometry fs) (c : ℕ) :
    clusterAddr fs c ∈ clusterSlots fs c ∧ clusterAddr fs c + 32 ∈ clusterSlots fs c :=
  ⟨mem_clusterSlots.mpr ⟨0, hg.perCluster_pos, 0, by norm_num, by omega⟩,
    mem_clusterSlots.mpr ⟨0, hg.perCluster_pos, 1, by norm_num, by omega⟩⟩

theorem head_slots (hg : Geometry fs) (hl : Chain fs d a l) :
    SlotOf fs d a (clusterAddr fs a) ∧ SlotOf fs d a (clusterAddr fs a + 32) := by
  have hm := head_mem_clusterSlots hg a
  exact ⟨⟨l, hl, mem_slots.mpr ⟨a, hl.head_mem, hm.1⟩⟩,
    ⟨l, hl, mem_slots.mpr ⟨a, hl.head_mem, hm.2⟩⟩⟩

theorem dotSlots_congr {parent : ℕ} (h : DotSlots fs d c parent)
    (h0 : Set.EqOn d' d (slotBytes (clusterAddr fs c)))
    (h1 : Set.EqOn d' d (slotBytes (clusterAddr fs c + 32))) : DotSlots fs d' c parent := by
  have e0 := readEntry_congr h0
  have e1 := readEntry_congr h1
  constructor
  · exact (named_congr h0).mpr h.dot_named
  · rw [e0]; exact h.dot_name
  · rw [e0]; exact h.dot_directory
  · rw [e0]; exact h.dot_cluster
  · exact (named_congr h1).mpr h.dotDot_named
  · rw [e1]; exact h.dotDot_name
  · rw [e1]; exact h.dotDot_directory
  · rw [e1]; exact h.dotDot_cluster

theorem TreeInvariant.parent (h : TreeInvariant fs d cwd)
    (ha : Directory fs (linkEntry fs) d a) (hne : a ≠ fs.rootCluster) :
    ∃ b, Directory fs (linkEntry fs) d b ∧ DotSlots fs d a b := by
  rcases Relation.ReflTransGen.cases_tail ha with rfl | ⟨b, hb, p, hp, hdir, rfl⟩
  · exact absurd rfl hne
  · exact ⟨b, hb, h.dots b p hb hp hdir⟩

theorem dotName_ne : dotName ≠ dotDotName := by decide

theorem target_dot {parent : ℕ} (h : DotSlots fs d c parent) (hc : c ≠ 0) :
    target fs d (clusterAddr fs c) = c := by
  rw [target_eq (by rw [h.dot_cluster]; exact hc), h.dot_cluster]

theorem target_dotDot {parent : ℕ} (h : DotSlots fs d c parent) (hp : parent ≠ 0) :
    target fs d (clusterAddr fs c + 32) = parent := by
  unfold target
  rw [h.dotDot_cluster, parentLink]
  by_cases hr : parent = fs.rootCluster
  · simp [hr]
  · simp [hr, hp]

theorem directory_pos {skip : ℕ → List UInt8 → Prop}
    (hw : WellFormed fs skip d cwd) (ha : Directory fs skip d a) : 2 ≤ a ∧ a < 2 ^ 28 := by
  obtain ⟨l, hl⟩ := hw.chain ha
  have h1 := hl.start_inRange
  have h2 := hw.geometry.clusters
  have h3 := h1.2
  exact ⟨h1.1, by omega⟩

theorem TreeInvariant.linksRefer (h : TreeInvariant fs d cwd) :
    LinksRefer fs d (linkEntry fs) := by
  intro a p ha hp hn hlink
  obtain ⟨b, hb, hdots⟩ := h.parent ha hlink.1
  have hapos := (directory_pos h.wellFormed ha).1
  have hbpos := (directory_pos h.wellFormed hb).1
  rcases h.only a p ha hp hn hlink with rfl | rfl
  · refine ⟨hdots.dot_directory, ?_⟩
    rw [target_dot hdots (by omega)]
    exact ha
  · refine ⟨hdots.dotDot_directory, ?_⟩
    rw [target_dotDot hdots (by omega)]
    exact hb

theorem TreeInvariant.dot_present (h : TreeInvariant fs d cwd)
    (ha : Directory fs (linkEntry fs) d a) (hlink : linkEntry fs a name) :
    ∃ p, SlotOf fs d a p ∧ Named d p ∧ (readEntry d p).name = name := by
  obtain ⟨b, -, hdots⟩ := h.parent ha hlink.1
  obtain ⟨l, hl⟩ := h.wellFormed.chain ha
  have hs := head_slots h.wellFormed.geometry hl
  rcases hlink.2 with rfl | rfl
  · exact ⟨_, hs.1, hdots.dot_named, hdots.dot_name⟩
  · exact ⟨_, hs.2, hdots.dotDot_named, hdots.dotDot_name⟩

end Links

section Additions

variable {fs : Fat32} {d d' : Bytes} {cwd a p q : ℕ} {l pre post fresh : List ℕ}

/-- A new entry keeps the invariant when it is no second `.` or `..`, and a new directory
comes with its two links. -/
theorem TreeInvariant.add (h : TreeInvariant fs d cwd)
    (hadd : Adds fs (linkEntry fs) d d' cwd l pre p post fresh)
    (hlink : Named d' p → ¬ linkEntry fs cwd (readEntry d' p).name)
    (hdots : (readEntry d' p).isDirectory →
      DotSlots fs d' (readEntry d' p).firstCluster cwd)
    (honly : (readEntry d' p).isDirectory →
      ∀ q ∈ slots fs fresh, Named d' q → q = clusterAddr fs (readEntry d' p).firstCluster ∨
        q = clusterAddr fs (readEntry d' p).firstCluster + 32) :
    TreeInvariant fs d' cwd := by
  have hw := h.wellFormed
  have hg := hw.geometry
  refine ⟨hadd.wellFormed hw, ?_, ?_⟩
  · intro a q ha hq hdir
    rcases hadd.directory_new hw ha with hold | ⟨-, hpd, rfl⟩
    · by_cases hne : q = p
      · subst hne
        rw [slot_directory hw hold hw.current ((hadd.slotOf_iff hw hold).mp hq.slot) hadd.slotOf]
        exact hdots hdir
      · have hqo := (hadd.holds_iff hw hold hne).mp hq
        have hkept := readEntry_congr (hadd.slot_kept hg hqo.slot hne)
        rw [hkept] at hdir ⊢
        have hds := h.dots a q hold hqo hdir
        obtain ⟨k, hk⟩ := hw.directory_chain (.entry q) ⟨a, hold, hqo⟩ hdir
        have hs := head_slots hg hk
        -- the links of an old directory are live, so they are not the new slot
        refine dotSlots_congr hds (hadd.slot_kept hg hs.1 ?_) (hadd.slot_kept hg hs.2 ?_)
        · intro he
          have hl' := hds.dot_named.live
          rw [show clusterAddr fs (readEntry d q).firstCluster = p from he] at hl'
          exact hadd.not_live hl'
        · intro he
          have hl' := hds.dotDot_named.live
          rw [show clusterAddr fs (readEntry d q).firstCluster + 32 = p from he] at hl'
          exact hadd.not_live hl'
    · exact absurd hq (hadd.leaf_holds hpd)
  · intro a q ha hs hn hl'
    rcases hadd.directory_new hw ha with hold | ⟨-, hpd, rfl⟩
    · have hso := (hadd.slotOf_iff hw hold).mp hs
      by_cases hne : q = p
      · subst hne
        rw [slot_directory hw hold hw.current hso hadd.slotOf] at hl'
        exact absurd hl' (hlink hn)
      · have hkept := hadd.slot_kept hg hso hne
        rw [readEntry_congr hkept] at hl'
        exact h.only a q hold hso ((named_congr hkept).mp hn) hl'
    · exact honly hpd q (hs.mem (hadd.leaf hpd)) hn

/-- A removed entry of the tree takes its whole subtree along and nothing else. -/
theorem TreeInvariant.remove {m : List ℕ} (h : TreeInvariant fs d cwd)
    (hrem : ItemRemoved fs (linkEntry fs) d d' cwd p m) : TreeInvariant fs d' cwd := by
  have hw := h.wellFormed
  have hg := hw.geometry
  refine ⟨hrem.wellFormed hw, ?_, ?_⟩
  · intro a q ha hq hdir
    obtain ⟨hold, k, hk, hd⟩ := hrem.directory_old hw ha
    obtain ⟨hqo, hne⟩ := (hrem.holds_old hw hk hd).mp hq
    have hkept := readEntry_congr (hrem.removes.slot_kept hg hqo.slot hne)
    rw [hkept] at hdir ⊢
    have hds := h.dots a q hold hqo hdir
    obtain ⟨k', hk'⟩ := hw.directory_chain (.entry q) ⟨a, hold, hqo⟩ hdir
    have hs := head_slots hg hk'
    have hb : Directory fs (linkEntry fs) d (readEntry d q).firstCluster :=
      hold.tail ⟨q, hqo, hdir, rfl⟩
    have hroot := holds_ne_root hw hold hqo hdir
    -- a link of a directory below the root is no item of the tree
    refine dotSlots_congr hds (hrem.removes.slot_kept hg hs.1 ?_)
      (hrem.removes.slot_kept hg hs.2 ?_)
    · intro he
      have hp := hrem.holds
      rw [← he, ← slot_directory hw hb hw.current hs.1 (he ▸ hrem.holds.slot)] at hp
      exact hp.kept ⟨hroot, .inl hds.dot_name⟩
    · intro he
      have hp := hrem.holds
      rw [← he, ← slot_directory hw hb hw.current hs.2 (he ▸ hrem.holds.slot)] at hp
      exact hp.kept ⟨hroot, .inr hds.dotDot_name⟩
  · intro a q ha hs hn hl
    obtain ⟨hold, k, hk, hd⟩ := hrem.directory_old hw ha
    have hso : SlotOf fs d a q := ⟨k, hk, hs.mem (hrem.removes.chain_kept hg hk hd)⟩
    have hne : q ≠ p := by
      rintro rfl
      exact hrem.removes.not_live hn.live
    have hkept := hrem.removes.slot_kept hg hso hne
    rw [readEntry_congr hkept] at hl
    exact h.only a q hold hso ((named_congr hkept).mp hn) hl

theorem TreeInvariant.move (h : TreeInvariant fs d cwd)
    (ha : Directory fs (linkEntry fs) d a) : TreeInvariant fs d a :=
  ⟨{ h.wellFormed with current := ha }, h.dots, h.only⟩

theorem treeInvariant_of_empty_root (hg : Geometry fs) (hl : Chain fs d fs.rootCluster l)
    (h0 : ∀ p ∈ slots fs l, d p = 0) : TreeInvariant fs d fs.rootCluster := by
  have hw : WellFormed fs (linkEntry fs) d fs.rootCluster := wellFormed_of_empty_root hg hl h0
  have hroot : ∀ a, Directory fs (linkEntry fs) d a → a = fs.rootCluster := fun a =>
    directory_of_empty_root hl h0
  constructor
  · exact hw
  · intro a p ha hp
    rw [hroot a ha] at hp
    exact absurd (h0 p (hp.slot.mem hl)) hp.named.live.1
  · intro a p ha _ _ hlink
    exact absurd (hroot a ha) hlink.1

theorem blankDisk_invariant : TreeInvariant tinyVolume blankDisk 2 :=
  treeInvariant_of_empty_root (by decide) blankDisk_chain (by decide)

end Additions

end Fat32TreeInvariant
