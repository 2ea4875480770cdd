import SojebOS.Fat32TreeGrowth
import SojebOS.Fat32Paths

/-!
# Deleting a file

A removal clears the links of a chain and marks one slot. The chains of the tree are
disjoint, so nothing else is lost as long as the chain is that of a regular file.
-/
namespace Fat32Removal

open ByteMemory MachineWord WhileLoop LinkedChain
open Fat32Disk Fat32Directory Fat32Files Fat32Tree Fat32Layout Fat32Volume
open Fat32Entries Fat32Paths Fat32TreeGrowth

/-- Slot `p` is marked deleted and the links of the clusters `m` are cleared. -/
structure Removes (fs : Fat32) (d d' : Bytes) (cwd p : ℕ) (m : List ℕ) : Prop where
  slot : SlotOf fs d cwd p
  inRange : ∀ c ∈ m, InRange fs c
  frame : ∀ x, x ≠ p → (∀ c ∈ m, x ∉ cell fs c) → d' x = d x
  freed : ∀ c ∈ m, fat32NextCluster fs d' c = 0
  mark : d' p = deletedMark

section Frames

variable {fs : Fat32} {d d' : Bytes} {cwd a p q c x : ℕ} {l m : List ℕ}

theorem cell_not_data (hg : Geometry fs) {c' : ℕ} (hc : InRange fs c) (hx : x ∈ cell fs c) :
    x ∉ dataArea fs c' := by
  have := cell_before_data c' hg hc.2
  simp only [cell, dataArea, Set.mem_Ico] at hx ⊢
  omega

theorem Removes.not_live (h : Removes fs d d' cwd p m) : ¬ Live d' p := fun hl => hl.2 h.mark

theorem Removes.data_kept (hg : Geometry fs) (h : Removes fs d d' cwd p m)
    (hx : x ∈ dataArea fs c) (hne : x ≠ p) : d' x = d x :=
  h.frame x hne fun _ hc hm => cell_not_data hg (h.inRange _ hc) hm hx

theorem Removes.slot_kept (hg : Geometry fs) (h : Removes fs d d' cwd p m)
    (hq : SlotOf fs d a q) (hne : q ≠ p) : Set.EqOn d' d (slotBytes q) := by
  intro x hx
  apply h.frame x
  · rintro rfl
    exact slotBytes_disjoint hq.dvd h.slot.dvd hne hx (mem_slotBytes_self x)
  · intro c hc hm
    exact hq.not_cell hg (h.inRange c hc).2 hm hx

theorem Removes.extent_kept (hg : Geometry fs) (h : Removes fs d d' cwd p m)
    (hl : Extent fs d a l) (hd : l.Disjoint m) : Extent fs d' a l := by
  refine hl.congr hg fun c hc x hx => h.frame x ?_ fun c' hc' hx' => ?_
  · rintro rfl
    exact h.slot.not_cell hg (hl.inRange c hc).2 hx (mem_slotBytes_self x)
  · have hne : c ≠ c' := by
      rintro rfl
      exact hd hc hc'
    exact cell_disjoint hne hx hx'

theorem Removes.chain_kept (hg : Geometry fs) (h : Removes fs d d' cwd p m)
    (hl : Chain fs d a l) (hd : l.Disjoint m) : Chain fs d' a l := by
  rcases h.extent_kept hg (.inr hl) hd with ⟨-, h0⟩ | hc
  · exact absurd h0 hl.nonempty
  · exact hc

theorem removes_of_freeChain (hg : Geometry fs) (hp : SlotOf fs d cwd p)
    (hm : Extent fs d a m) : ∃ d₁, freeChain fs d a = some d₁ ∧
      Removes fs d (markDeleted d₁ (diskRead d (p / 512)) (p / 512, p % 512 / 32)) cwd p m ∧
      SameHigh fs d (markDeleted d₁ (diskRead d (p / 512)) (p / 512, p % 512 / 32)) := by
  obtain ⟨d₁, hrun, hzero, hout, hhigh⟩ := freeChain_spec hg hm
  refine ⟨d₁, hrun, ?_⟩
  -- the sector of the slot lies in the data area, which the FAT updates do not touch
  have hsector : ∀ o < 512, d₁ (512 * (p / 512) + o) = d (512 * (p / 512) + o) := by
    intro o _
    apply hout
    intro c hc hx
    obtain ⟨l, _, hpl⟩ := hp
    obtain ⟨c', _, hpc⟩ := mem_slots.mp hpl
    have h1 := cell_before_data c' hg (hm.inRange c hc).2
    have h2 := slotBytes_subset_dataArea hpc (mem_slotBytes_self p)
    have h3 := clusterAddr_dvd fs c'
    simp only [cell, dataArea, Set.mem_Ico] at hx h2
    omega
  rw [markDeleted_eq hp.dvd hsector]
  refine ⟨⟨hp, hm.inRange, fun x hne hx => ?_, fun c hc => ?_, store8_same _ _ _⟩,
    hhigh.trans (sameHigh_of_cells fun c hc x hx => store8_other ?_)⟩
  · rw [store8_other hne, hout x hx]
  · rw [← hzero c hc]
    refine nextCluster_congr hg (hm.inRange c hc).2 fun x hx => store8_other ?_
    rintro rfl
    exact hp.not_cell hg (hm.inRange c hc).2 hx (mem_slotBytes_self x)
  · rintro rfl
    obtain ⟨l, _, hpl⟩ := hp
    obtain ⟨c', _, hpc⟩ := mem_slots.mp hpl
    have h1 := cell_before_data c' hg hc
    have h2 := slotBytes_subset_dataArea hpc (mem_slotBytes_self x)
    simp only [cell, dataArea, Set.mem_Ico] at hx h2
    omega

end Frames

theorem reflTransGen_avoid {α : Type} {r : α → α → Prop} {a c : α}
    (h : Relation.ReflTransGen r a c) :
    Relation.ReflTransGen (fun x y => r x y ∧ x ≠ c) a c := by
  induction h using Relation.ReflTransGen.head_induction_on with
  | refl => exact .refl
  | @head a b hab _ ih =>
    by_cases ha : a = c
    · rw [ha]
    · exact .head ⟨hab, ha⟩ ih

/-- The removed entry is an item of the tree, and the cleared chain is its own. -/
structure ItemRemoved (fs : Fat32) (skip : ℕ → List UInt8 → Prop) (d d' : Bytes)
    (cwd p : ℕ) (m : List ℕ) : Prop where
  removes : Removes fs d d' cwd p m
  holds : Holds fs skip d cwd p
  extent : Extent fs d (readEntry d p).firstCluster m

section Trees

variable {fs : Fat32} {skip : ℕ → List UInt8 → Prop} {d d' : Bytes} {cwd a p q : ℕ}
variable {l m : List ℕ} {x : Item}

theorem ItemRemoved.present (hw : WellFormed fs skip d cwd)
    (h : ItemRemoved fs skip d d' cwd p m) : (Item.entry p).Present fs skip d :=
  ⟨cwd, hw.current, h.holds⟩

theorem ItemRemoved.holds_old (hw : WellFormed fs skip d cwd)
    (h : ItemRemoved fs skip d d' cwd p m) (hl : Chain fs d a l) (hd : l.Disjoint m) :
    Holds fs skip d' a q ↔ Holds fs skip d a q ∧ q ≠ p := by
  have hg := hw.geometry
  have hl' := h.removes.chain_kept hg hl hd
  constructor
  · rintro ⟨hs, hn, hk⟩
    have hne : q ≠ p := by
      rintro rfl
      exact h.removes.not_live hn.live
    have hso : SlotOf fs d a q := ⟨l, hl, hs.mem hl'⟩
    have hkept := h.removes.slot_kept hg hso hne
    exact ⟨⟨hso, (named_congr hkept).mp hn, readEntry_congr hkept ▸ hk⟩, hne⟩
  · rintro ⟨⟨hs, hn, hk⟩, hne⟩
    have hkept := h.removes.slot_kept hg hs hne
    exact ⟨⟨l, hl', hs.mem hl⟩, (named_congr hkept).mpr hn,
      (readEntry_congr hkept).symm ▸ hk⟩

theorem ItemRemoved.directory_old (hw : WellFormed fs skip d cwd)
    (h : ItemRemoved fs skip d d' cwd p m) (ha : Directory fs skip d' a) :
    Directory fs skip d a ∧ ∃ l, Chain fs d a l ∧ l.Disjoint m := by
  induction ha with
  | refl =>
    obtain ⟨l, hl⟩ := hw.chain (a := fs.rootCluster) .refl
    refine ⟨.refl, l, hl, ?_⟩
    exact hw.disjoint .root (.entry p) trivial (h.present hw) (by simp) l m (.inr hl) h.extent
  | tail _ hs ih =>
    obtain ⟨q, hq, hdir, rfl⟩ := hs
    obtain ⟨hb, l, hl, hd⟩ := ih
    obtain ⟨hold, hne⟩ := (h.holds_old hw hl hd).mp hq
    have hkept := readEntry_congr (h.removes.slot_kept hw.geometry hold.slot hne)
    rw [hkept] at hdir ⊢
    have hpres : (Item.entry q).Present fs skip d := ⟨_, hb, hold⟩
    obtain ⟨k, hk⟩ := hw.directory_chain _ hpres hdir
    refine ⟨hb.tail ⟨q, hold, hdir, rfl⟩, k, hk, ?_⟩
    refine hw.disjoint _ _ hpres (h.present hw) ?_ k m (.inr hk) h.extent
    rintro ⟨⟩
    exact hne rfl

theorem ItemRemoved.current (hw : WellFormed fs skip d cwd)
    (h : ItemRemoved fs skip d d' cwd p m) : Directory fs skip d' cwd := by
  have key : ∀ b, Relation.ReflTransGen (fun x y => Subdir fs skip d x y ∧ x ≠ cwd)
      fs.rootCluster b → Directory fs skip d' b := by
    intro b hb
    induction hb with
    | refl => exact .refl
    | tail _ hs ih =>
      obtain ⟨⟨q, hq, hdir, rfl⟩, hne⟩ := hs
      obtain ⟨hb, l, hl, hd⟩ := h.directory_old hw ih
      have hqp : q ≠ p := by
        rintro rfl
        exact hne (slot_directory hw hb hw.current hq.slot h.holds.slot)
      have hkept := readEntry_congr (h.removes.slot_kept hw.geometry hq.slot hqp)
      refine ih.tail ⟨q, (h.holds_old hw hl hd).mpr ⟨hq, hqp⟩, ?_, ?_⟩
      · rwa [hkept]
      · rw [hkept]
  exact key cwd (reflTransGen_avoid hw.current)

theorem ItemRemoved.item_old (hw : WellFormed fs skip d cwd)
    (h : ItemRemoved fs skip d d' cwd p m) (hx : x.Present fs skip d') :
    x.Present fs skip d ∧ x ≠ .entry p ∧ x.start fs d' = x.start fs d ∧
      (x.IsDirectory d' ↔ x.IsDirectory d) := by
  cases x with
  | root => exact ⟨trivial, by simp, rfl, Iff.rfl⟩
  | entry q =>
    obtain ⟨a, ha, hq⟩ := hx
    obtain ⟨hold, l, hl, hd⟩ := h.directory_old hw ha
    obtain ⟨hqo, hne⟩ := (h.holds_old hw hl hd).mp hq
    have hkept := readEntry_congr (h.removes.slot_kept hw.geometry hqo.slot hne)
    refine ⟨⟨a, hold, hqo⟩, ?_, ?_, ?_⟩
    · rintro ⟨⟩
      exact hne rfl
    · simp only [Item.start, hkept]
    · simp only [Item.IsDirectory, hkept]

theorem ItemRemoved.extent_kept (hw : WellFormed fs skip d cwd)
    (h : ItemRemoved fs skip d d' cwd p m) (hx : x.Present fs skip d) (hne : x ≠ .entry p)
    (hl : Extent fs d (x.start fs d) l) : Extent fs d' (x.start fs d) l :=
  h.removes.extent_kept hw.geometry hl
    (hw.disjoint x (.entry p) hx (h.present hw) hne l m hl h.extent)

theorem ItemRemoved.extent_old (hw : WellFormed fs skip d cwd)
    (h : ItemRemoved fs skip d d' cwd p m) (hx : x.Present fs skip d) (hne : x ≠ .entry p)
    (hl : Extent fs d' (x.start fs d) l) : Extent fs d (x.start fs d) l := by
  obtain ⟨k, hk⟩ := hw.extent x hx
  rwa [hl.unique (h.extent_kept hw hx hne hk)]

theorem ItemRemoved.zero_tail (hw : WellFormed fs skip d cwd)
    (h : ItemRemoved fs skip d d' cwd p m) (ha : Directory fs skip d a)
    (hl : Chain fs d a l) : (slots fs l).Pairwise fun q r => d' q = 0 → d' r = 0 := by
  have hkept : ∀ q ∈ slots fs l, q ≠ p → d' q = d q := fun q hq hne =>
    h.removes.slot_kept hw.geometry ⟨l, hl, hq⟩ hne (mem_slotBytes_self q)
  refine List.Pairwise.imp_of_mem ?_ (hw.zero_tail a l ha hl)
  intro q r hq hr hqr h0
  have hqp : q ≠ p := by
    rintro rfl
    rw [h.removes.mark] at h0
    exact absurd h0 (by decide)
  rw [hkept q hq hqp] at h0
  have hr0 := hqr h0
  have hrp : r ≠ p := by
    rintro rfl
    exact h.holds.named.live.1 hr0
  rw [hkept r hr hrp, hr0]

theorem ItemRemoved.wellFormed (hw : WellFormed fs skip d cwd)
    (h : ItemRemoved fs skip d d' cwd p m) : WellFormed fs skip d' cwd := by
  refine ⟨hw.geometry, ?_, ?_, ?_, ?_, h.current hw⟩
  · intro x hx
    obtain ⟨hold, hne, hstart, -⟩ := h.item_old hw hx
    obtain ⟨l, hl⟩ := hw.extent x hold
    rw [hstart]
    exact ⟨l, h.extent_kept hw hold hne hl⟩
  · intro x hx hdir
    obtain ⟨hold, hne, hstart, hdiff⟩ := h.item_old hw hx
    obtain ⟨l, hl⟩ := hw.directory_chain x hold (hdiff.mp hdir)
    rw [hstart]
    rcases h.extent_kept hw hold hne (.inr hl) with ⟨-, h0⟩ | hl'
    · exact absurd h0 hl.nonempty
    · exact ⟨l, hl'⟩
  · intro x y hx hy hxy l k hl hk
    obtain ⟨hxo, hxp, hxs, -⟩ := h.item_old hw hx
    obtain ⟨hyo, hyp, hys, -⟩ := h.item_old hw hy
    rw [hxs] at hl
    rw [hys] at hk
    exact hw.disjoint x y hxo hyo hxy l k (h.extent_old hw hxo hxp hl)
      (h.extent_old hw hyo hyp hk)
  · intro a l ha hl
    obtain ⟨hold, k, hk, hd⟩ := h.directory_old hw ha
    obtain rfl := hl.unique (h.removes.chain_kept hw.geometry hk hd)
    exact h.zero_tail hw hold hk

end Trees

section Deleting

variable {fs : Fat32} {skip : ℕ → List UInt8 → Prop} {d d' : Bytes} {cwd p : ℕ}
variable {name : List UInt8}

theorem deleteFile_match (hg : Geometry fs) {l pre post m : List ℕ} (hl : Chain fs d cwd l)
    (hs : slots fs l = pre ++ p :: post) (hlive : Live d p)
    (hm : Matches d (formatFilename name) p)
    (hpre : ∀ q ∈ pre, d q ≠ 0 ∧ (Live d q → ¬ Matches d (formatFilename name) q))
    (hext : Extent fs d (readEntry d p).firstCluster m) :
    ∃ d', fat32DeleteFile fs d cwd name = some d' ∧ Removes fs d d' cwd p m ∧
      SameHigh fs d d' := by
  have hp : SlotOf fs d cwd p := ⟨l, hl, by rw [hs]; simp⟩
  obtain ⟨d₁, hrun, hrem, hhigh⟩ := removes_of_freeChain hg hp hext
  refine ⟨_, ?_, hrem, hhigh⟩
  simp only [fat32DeleteFile, deleteWalk_eq hg hl (formatFilename name),
    search_first hs hlive hm hpre, Option.bind_eq_bind, Option.bind_some, Option.join_some,
    readEntry_slot hp.dvd, hrun]
  rfl

/-- The outcomes of `fat32_delete_file`, when every entry found has a chain to free. -/
theorem deleteFile_spec (hw : WellFormed fs skip d cwd)
    (hext : ∀ p, SlotOf fs d cwd p → Named d p → ∃ m, Extent fs d (readEntry d p).firstCluster m)
    (name : List UInt8) :
    fat32DeleteFile fs d cwd name = some d ∧ fat32FindFile fs d cwd name = some none ∧
        (∀ p, SlotOf fs d cwd p → Named d p → (readEntry d p).name ≠ formatFilename name) ∨
      ∃ p m d', SlotOf fs d cwd p ∧ Named d p ∧ (readEntry d p).name = formatFilename name ∧
        fat32FindFile fs d cwd name = some (some (readEntry d p)) ∧
        Extent fs d (readEntry d p).firstCluster m ∧ Removes fs d d' cwd p m ∧
        fat32DeleteFile fs d cwd name = some d' := by
  have hg := hw.geometry
  obtain ⟨l, hl⟩ := hw.chain hw.current
  have htail := hw.zero_tail cwd l hw.current hl
  have hwalk := deleteWalk_eq hg hl (formatFilename name)
  cases hv : ((slots fs l).findSome? (searchAt d (Matches d (formatFilename name))
      fun p => (p / 512, p % 512 / 32))).join with
  | none =>
    have hnone := search_none htail hv
    have hfind : fat32FindFile fs d cwd name = some none := by
      rw [findFile_eq hg hl]
      cases hf : ((slots fs l).findSome? (searchAt d (Matches d (formatFilename name))
          (readEntry d))).join with
      | none => rfl
      | some e =>
        obtain ⟨pre, p, post, hs, hlive, hm, -⟩ := search_some hf
        exact absurd hm (hnone p (by rw [hs]; simp) hlive)
    refine .inl ⟨?_, hfind, fun p hp hn he => ?_⟩
    · simp only [fat32DeleteFile, hwalk, Option.bind_eq_bind, Option.bind_some, hv]
      rfl
    · exact hnone p (hp.mem hl) hn.live ⟨hn.short, he⟩
  | some slot =>
    obtain ⟨pre, p, post, hs, hlive, hm, rfl, hpre⟩ := search_some hv
    have hp : SlotOf fs d cwd p := ⟨l, hl, by rw [hs]; simp⟩
    have hn : Named d p := ⟨hlive, hm.1⟩
    obtain ⟨m, hmx⟩ := hext p hp hn
    obtain ⟨d', hrun, hrem, -⟩ := deleteFile_match hg hl hs hlive hm hpre hmx
    refine .inr ⟨p, m, d', hp, hn, hm.2, ?_, hmx, hrem, hrun⟩
    rw [findFile_eq hg hl, search_first hs hlive hm hpre]
    rfl

end Deleting

/-- What was reached by a path before and is not the removed file is still reached by it,
with its clusters and, apart from the slot of that file, their bytes. -/
structure Undamaged (fs : Fat32) (d d' : Bytes) (removed : Option ℕ) : Prop where
  reach : ∀ ns x, Reaches fs d ns x → (∀ p ∈ removed, x ≠ .entry p) → Reaches fs d' ns x
  clusters : ∀ ns x, Reaches fs d ns x → (∀ p ∈ removed, x ≠ .entry p) →
    ∀ l, Clusters fs d x l → Clusters fs d' x l
  contents : ∀ ns x, Reaches fs d ns x → (∀ p ∈ removed, x ≠ .entry p) →
    ∀ l, Clusters fs d x l → ∀ c ∈ l, ∀ y ∈ dataArea fs c,
      (∀ p ∈ removed, y ∉ slotBytes p) → d' y = d y

/-- At most one regular file with the name is removed, and nothing else is damaged. -/
def DamagesNothing (fs : Fat32) (d : Bytes) (cwd : ℕ) (name : List UInt8) : Prop :=
  ∀ d', fat32DeleteFile fs d cwd name = some d' → ∃ removed : Option ℕ,
    (∀ p ∈ removed, SlotOf fs d cwd p ∧ Named d p ∧
      (readEntry d p).name = formatFilename name ∧ ¬ (readEntry d p).isDirectory) ∧
    Undamaged fs d d' removed

section Damage

variable {fs : Fat32} {d d' : Bytes} {cwd a p : ℕ} {l m : List ℕ} {x : Item}
variable {ns : List (List UInt8)} {name : List UInt8}

theorem undamaged_refl (fs : Fat32) (d : Bytes) : Undamaged fs d d none :=
  ⟨fun _ _ h _ => h, fun _ _ _ _ _ h => h, fun _ _ _ _ _ _ _ _ _ _ _ => rfl⟩

/-- The slot of a file of the tree, its clusters, and the disk without it. -/
structure FileRemoved (fs : Fat32) (d d' : Bytes) (cwd p : ℕ) (m : List ℕ) : Prop where
  removes : Removes fs d d' cwd p m
  present : (Item.entry p).Present fs dotEntry d
  file : ¬ (readEntry d p).isDirectory
  extent : Extent fs d (readEntry d p).firstCluster m

theorem FileRemoved.directory_disjoint (hw : WellFormed fs dotEntry d cwd)
    (h : FileRemoved fs d d' cwd p m) (ha : Directory fs dotEntry d a)
    (hl : Chain fs d a l) : l.Disjoint m := by
  obtain ⟨y, hy, hdir, rfl⟩ := ha.item
  refine hw.disjoint y (.entry p) hy h.present ?_ l m (.inr hl) h.extent
  rintro rfl
  exact h.file hdir

theorem FileRemoved.slot_kept (hw : WellFormed fs dotEntry d cwd)
    (h : FileRemoved fs d d' cwd p m) {q : ℕ} (hx : Reaches fs d ns (.entry q))
    (hne : q ≠ p) : readEntry d' q = readEntry d q ∧ (Named d' q ↔ Named d q) := by
  cases hx with
  | step _ _ hq _ =>
    have hkept := h.removes.slot_kept hw.geometry hq hne
    exact ⟨readEntry_congr hkept, named_congr hkept⟩

theorem FileRemoved.item_kept (hw : WellFormed fs dotEntry d cwd)
    (h : FileRemoved fs d d' cwd p m) (hx : Reaches fs d ns x) (hne : x ≠ .entry p) :
    (x.IsDirectory d' ↔ x.IsDirectory d) ∧ itemTarget fs d' x = itemTarget fs d x ∧
      x.start fs d' = x.start fs d := by
  cases x with
  | root => exact ⟨Iff.rfl, rfl, rfl⟩
  | entry q =>
    have hne' : q ≠ p := fun he => hne (he ▸ rfl)
    have he := (h.slot_kept hw hx hne').1
    simp only [Item.IsDirectory, itemTarget, target, Item.start, he, and_self]

theorem FileRemoved.reach (hw : WellFormed fs dotEntry d cwd) (hlinks : LinksRefer fs d dotEntry)
    (h : FileRemoved fs d d' cwd p m) (hx : Reaches fs d ns x) (hne : x ≠ .entry p) :
    Reaches fs d' ns x := by
  induction hx with
  | root => exact .root
  | @step ns y q hy hdir hq hn ih =>
    have hne' : q ≠ p := fun he => hne (he ▸ rfl)
    have hyp : y ≠ .entry p := by
      rintro rfl
      exact h.file hdir
    obtain ⟨hkd, hkt, -⟩ := h.item_kept hw hy hyp
    obtain ⟨hqe, hqn⟩ := h.slot_kept hw (hy.step hdir hq hn) hne'
    obtain ⟨l, hl, hql⟩ := hq
    have hl' := h.removes.chain_kept hw.geometry hl
      (h.directory_disjoint hw (reaches_directory hw hlinks hy hdir) hl)
    rw [← hqe]
    refine (ih hyp).step (hkd.mpr hdir) ?_ (hqn.mpr hn)
    rw [hkt]
    exact ⟨l, hl', hql⟩

theorem FileRemoved.clusters_disjoint (hw : WellFormed fs dotEntry d cwd)
    (hlinks : LinksRefer fs d dotEntry) (h : FileRemoved fs d d' cwd p m) (hx : Reaches fs d ns x)
    (hne : x ≠ .entry p) (hl : Clusters fs d x l) : l.Disjoint m := by
  rcases hl with ⟨hdir, hl⟩ | ⟨hfile, hl⟩
  · exact h.directory_disjoint hw (reaches_directory hw hlinks hx hdir) hl
  · exact hw.disjoint x (.entry p) (reaches_present hw hlinks hx hfile) h.present hne l m hl
      h.extent

theorem FileRemoved.undamaged (hw : WellFormed fs dotEntry d cwd)
    (hlinks : LinksRefer fs d dotEntry)
    (h : FileRemoved fs d d' cwd p m) : Undamaged fs d d' (some p) := by
  have hg := hw.geometry
  refine ⟨fun ns x hx hne => h.reach hw hlinks hx (hne p rfl), ?_, ?_⟩
  · intro ns x hx hne l hl
    obtain ⟨hkd, hkt, hks⟩ := h.item_kept hw hx (hne p rfl)
    have hd := h.clusters_disjoint hw hlinks hx (hne p rfl) hl
    rcases hl with ⟨hdir, hl⟩ | ⟨hfile, hl⟩
    · refine .inl ⟨hkd.mpr hdir, ?_⟩
      rw [hkt]
      exact h.removes.chain_kept hg hl hd
    · refine .inr ⟨fun hdir => hfile (hkd.mp hdir), ?_⟩
      rw [hks]
      exact h.removes.extent_kept hg hl hd
  · intro ns x _ _ l hl c _ y hy hyp
    refine h.removes.data_kept hg hy ?_
    rintro rfl
    exact hyp y rfl (mem_slotBytes_self y)

theorem entry_extent {skip : ℕ → List UInt8 → Prop} (hw : WellFormed fs skip d cwd)
    (hlinks : LinksRefer fs d skip) (hp : SlotOf fs d cwd p) (hn : Named d p) :
    ∃ m, Extent fs d (readEntry d p).firstCluster m := by
  by_cases hlink : skip cwd (readEntry d p).name
  · by_cases h0 : (readEntry d p).firstCluster = 0
    · exact ⟨[], .inl ⟨h0, rfl⟩⟩
    · have ht := (hlinks cwd p hw.current hp hn hlink).2
      rw [target_eq h0] at ht
      obtain ⟨m, hm⟩ := hw.chain ht
      exact ⟨m, .inr hm⟩
  · exact hw.extent (.entry p) ⟨cwd, hw.current, hp, hn, hlink⟩

theorem directory_damaged (hw : WellFormed fs dotEntry d cwd) (hlinks : LinksRefer fs d dotEntry)
    {e : Fat32DirEntry} (hfind : fat32FindFile fs d cwd name = some (some e))
    (hdir : e.isDirectory) : ¬ DamagesNothing fs d cwd name := by
  intro h
  rcases deleteFile_spec hw (fun p => entry_extent hw hlinks) name with
    ⟨-, hnone, -⟩ | ⟨p, m, d', hp, hn, -, hsome, -, hrem, hrun⟩
  · rw [hnone] at hfind
    cases hfind
  · rw [hsome] at hfind
    cases hfind
    obtain ⟨removed, hreg, hun⟩ := h d' hrun
    obtain ⟨ns, x, hx, hxd, rfl⟩ := directory_reaches hw hw.current
    have hreach := hun.reach _ _ (hx.step hxd hp hn) fun q hq he => by
      cases he
      exact (hreg p hq).2.2.2 hdir
    have hn' : Named d' p := by
      generalize hns : ns ++ [(readEntry d p).name] = path at hreach
      cases hreach with
      | step _ _ _ hn' => exact hn'
    exact hrem.not_live hn'.live

theorem deleteFile_damages_nothing_iff (hw : WellFormed fs dotEntry d cwd)
    (hlinks : LinksRefer fs d dotEntry) (name : List UInt8) :
    DamagesNothing fs d cwd name ↔
      ∀ e, fat32FindFile fs d cwd name = some (some e) → ¬ e.isDirectory := by
  constructor
  · intro h e he hdir
    exact directory_damaged hw hlinks he hdir h
  · intro h d' hd'
    rcases deleteFile_spec hw (fun p => entry_extent hw hlinks) name with
      ⟨hrun, -, -⟩ | ⟨p, m, d'', hp, hn, hname, hfind, hm, hrem, hrun⟩
    · rw [hrun] at hd'
      cases hd'
      exact ⟨none, by simp, undamaged_refl fs d⟩
    · rw [hrun] at hd'
      cases hd'
      have hfile := h _ hfind
      have hpres : (Item.entry p).Present fs dotEntry d :=
        ⟨cwd, hw.current, hp, hn, fun hdot => hfile (hlinks cwd p hw.current hp hn hdot).1⟩
      refine ⟨some p, ?_, FileRemoved.undamaged hw hlinks ⟨hrem, hpres, hfile, hm⟩⟩
      rintro q ⟨⟩
      exact ⟨hp, hn, hname, hfile⟩

theorem oneWritten_linksRefer : LinksRefer tinyVolume oneWritten dotEntry := by
  have hw := blankDisk_wellFormed dotEntry
  have hadds := oneWritten_adds
  have hchain : Chain tinyVolume oneWritten 2 [2] := hadds.chain_kept hw.geometry blankDisk_chain
  intro a p ha hp _ hdot
  have hroot : a = 2 := by
    rcases hadds.directory_new hw ha with hold | ⟨-, hdir, -⟩
    · exact directory_of_empty_root blankDisk_chain (by decide) hold
    · exact absurd hdir fileRecorded_not_directory
  subst hroot
  have hnodot : ∀ q ∈ slots tinyVolume [2], ¬((readEntry oneWritten q).name = dotName ∨
      (readEntry oneWritten q).name = dotDotName) := by
    decide +kernel
  exact absurd hdot (hnodot p (hp.mem hchain))

/-- A file of four bytes is deleted. -/
theorem deleteFile_damages_nothing_iff_oneWritten :
    DamagesNothing tinyVolume oneWritten 2 [0x41] := by
  have hw := oneWritten_adds.wellFormed (blankDisk_wellFormed dotEntry)
  have hfind : fat32FindFile tinyVolume oneWritten 2 [0x41] =
      some (some (readEntry oneWritten 1024)) := by decide +kernel
  apply (deleteFile_damages_nothing_iff hw oneWritten_linksRefer [0x41]).mpr
  intro e he
  rw [hfind, Option.some.injEq, Option.some.injEq] at he
  rw [← he]
  exact fileRecorded_not_directory

theorem oneDirectory_linksRefer : LinksRefer tinyVolume oneDirectory dotEntry := by
  have hw := blankDisk_wellFormed dotEntry
  have hadds := oneDirectory_adds
  have h2 : Chain tinyVolume oneDirectory 2 [2] := hadds.chain_kept hw.geometry blankDisk_chain
  have h3 : Chain tinyVolume oneDirectory 3 [3] := hadds.leaf (by decide +kernel)
  have hdir2 : Directory tinyVolume dotEntry oneDirectory 2 := .refl
  have hdir3 : Directory tinyVolume dotEntry oneDirectory 3 := by
    refine hdir2.tail ⟨1024, ⟨⟨[2], h2, by decide⟩, ⟨by decide +kernel, by decide +kernel⟩, ?_⟩,
      by decide +kernel, by decide +kernel⟩
    exact not_or.mpr ⟨by decide +kernel, by decide +kernel⟩
  have hcheck : ∀ p ∈ slots tinyVolume [2] ++ slots tinyVolume [3],
      (readEntry oneDirectory p).name = dotName ∨
        (readEntry oneDirectory p).name = dotDotName →
      (readEntry oneDirectory p).isDirectory ∧
        (target tinyVolume oneDirectory p = 2 ∨ target tinyVolume oneDirectory p = 3) := by
    decide +kernel
  intro a p ha hp _ hdot
  have hmem : p ∈ slots tinyVolume [2] ++ slots tinyVolume [3] := by
    rcases oneDirectory_directory ha with rfl | rfl
    · exact List.mem_append_left _ (hp.mem h2)
    · exact List.mem_append_right _ (hp.mem h3)
  obtain ⟨hd, ht | ht⟩ := hcheck p hmem hdot
  · exact ⟨hd, ht ▸ hdir2⟩
  · exact ⟨hd, ht ▸ hdir3⟩

/-- Deleting the name of a directory. -/
theorem delete_of_directory_damages : ¬ ∀ (fs : Fat32) (d : Bytes) (cwd : ℕ),
    WellFormed fs dotEntry d cwd → LinksRefer fs d dotEntry → ∀ name : List UInt8,
      DamagesNothing fs d cwd name := by
  intro h
  have hw := oneDirectory_adds.wellFormed (blankDisk_wellFormed dotEntry)
  have hfind : fat32FindFile tinyVolume oneDirectory 2 [0x44] =
      some (some (readEntry oneDirectory 1024)) := by decide +kernel
  exact directory_damaged hw oneDirectory_linksRefer hfind (by decide +kernel)
    (h tinyVolume oneDirectory 2 hw oneDirectory_linksRefer [0x44])

end Damage

end Fat32Removal
