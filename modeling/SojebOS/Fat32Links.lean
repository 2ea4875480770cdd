import SojebOS.Fat32TreeRuns
import SojebOS.Fat32RoundTrip

/-!
# The tree when links may disappear

Which entries are links is part of the state here: a `..` that has been deleted may come
back as an ordinary entry of that name. A link leads to its directory or to the parent.
-/
namespace Fat32Links

open ByteMemory MachineWord WhileLoop LinkedChain
open Fat32Disk Fat32Directory Fat32Files Fat32Tree Fat32Layout Fat32Volume
open Fat32Entries Fat32Allocation Fat32Growth Fat32TreeGrowth Fat32Paths Fat32Removal
open Fat32TreeInvariant

structure LinkedTree (fs : Fat32) (skip : ℕ → List UInt8 → Prop) (d : Bytes) (cwd : ℕ) :
    Prop where
  wellFormed : WellFormed fs skip d cwd
  links : ∀ a p, Directory fs skip d a → SlotOf fs d a p → Named d p →
    skip a (readEntry d p).name →
      linkEntry fs a (readEntry d p).name ∧ (readEntry d p).isDirectory ∧
        (target fs d p = a ∨ Directory fs skip d (target fs d p) ∧
          Subdir fs skip d (target fs d p) a)

/-- No directory of the tree holds two live short entries with one name. -/
def UniqueIn (fs : Fat32) (skip : ℕ → List UInt8 → Prop) (d : Bytes) : Prop :=
  ∀ a p q, Directory fs skip d a → SlotOf fs d a p → SlotOf fs d a q → Named d p →
    Named d q → (readEntry d p).name = (readEntry d q).name → p = q

section Links

variable {fs : Fat32} {skip skip' : ℕ → List UInt8 → Prop} {d d' : Bytes} {cwd a b p q : ℕ}
variable {l : List ℕ}

theorem LinkedTree.linksRefer (h : LinkedTree fs skip d cwd) : LinksRefer fs d skip := by
  intro a p ha hp hn hs
  obtain ⟨-, hdir, ht | ht⟩ := h.links a p ha hp hn hs
  · refine ⟨hdir, ?_⟩
    rw [ht]
    exact ha
  · exact ⟨hdir, ht.1⟩

theorem TreeInvariant.linkedTree (h : TreeInvariant fs d cwd) :
    LinkedTree fs (linkEntry fs) d cwd := by
  constructor
  · exact h.wellFormed
  · intro a p ha hp hn hlink
    obtain ⟨hdir, hd⟩ := h.linksRefer a p ha hp hn hlink
    refine ⟨hlink, hdir, ?_⟩
    rcases Relation.ReflTransGen.cases_tail ha with rfl | ⟨b, hb, hsub⟩
    · exact absurd rfl hlink.1
    · obtain ⟨r, hr, hrd, rfl⟩ := hsub
      have hdots := h.dots b r hb hr hrd
      have hapos := (directory_pos h.wellFormed ha).1
      have hbpos := (directory_pos h.wellFormed hb).1
      rcases h.only _ p ha hp hn hlink with rfl | rfl
      · exact .inl (target_dot hdots (by omega))
      · rw [target_dotDot hdots (by omega)]
        exact .inr ⟨hb, r, hr, hrd, rfl⟩

theorem LinkedTree.move (h : LinkedTree fs skip d cwd) (ha : Directory fs skip d a) :
    LinkedTree fs skip d a :=
  ⟨{ h.wellFormed with current := ha }, h.links⟩

end Links

/-- The two notions of a link tell the same entries of the tree apart. -/
def Agree (fs : Fat32) (skip skip' : ℕ → List UInt8 → Prop) (d : Bytes) : Prop :=
  ∀ a p, Directory fs skip d a → SlotOf fs d a p → Named d p →
    (skip' a (readEntry d p).name ↔ skip a (readEntry d p).name)

section Relinking

variable {fs : Fat32} {skip skip' : ℕ → List UInt8 → Prop} {d : Bytes} {cwd a b p : ℕ}

theorem Agree.holds_iff (h : Agree fs skip skip' d) (ha : Directory fs skip d a) :
    Holds fs skip' d a p ↔ Holds fs skip d a p := by
  constructor
  · intro hp
    exact ⟨hp.slot, hp.named, fun hs => hp.kept ((h a p ha hp.slot hp.named).mpr hs)⟩
  · intro hp
    exact ⟨hp.slot, hp.named, fun hs => hp.kept ((h a p ha hp.slot hp.named).mp hs)⟩

theorem Agree.subdir_iff (h : Agree fs skip skip' d) (ha : Directory fs skip d a) :
    Subdir fs skip' d a b ↔ Subdir fs skip d a b := by
  simp only [Subdir, h.holds_iff ha]

theorem Agree.directory_iff (h : Agree fs skip skip' d) :
    Directory fs skip' d a ↔ Directory fs skip d a := by
  constructor
  · intro ha
    induction ha with
    | refl => exact .refl
    | tail _ hs ih => exact ih.tail ((h.subdir_iff ih).mp hs)
  · intro ha
    induction ha with
    | refl => exact .refl
    | tail hb hs ih => exact ih.tail ((h.subdir_iff hb).mpr hs)

theorem Agree.present_iff (h : Agree fs skip skip' d) (x : Item) :
    x.Present fs skip' d ↔ x.Present fs skip d := by
  cases x with
  | root => exact Iff.rfl
  | entry p =>
    simp only [Item.Present, h.directory_iff]
    refine exists_congr fun a => and_congr_right fun ha => h.holds_iff ha

theorem Agree.wellFormed (h : Agree fs skip skip' d) (hw : WellFormed fs skip d cwd) :
    WellFormed fs skip' d cwd := by
  constructor
  · exact hw.geometry
  · intro x hx
    exact hw.extent x ((h.present_iff x).mp hx)
  · intro x hx
    exact hw.directory_chain x ((h.present_iff x).mp hx)
  · intro x y hx hy
    exact hw.disjoint x y ((h.present_iff x).mp hx) ((h.present_iff y).mp hy)
  · intro a l ha
    exact hw.zero_tail a l (h.directory_iff.mp ha)
  · exact h.directory_iff.mpr hw.current

theorem Agree.linkedTree (h : Agree fs skip skip' d) (ht : LinkedTree fs skip d cwd) :
    LinkedTree fs skip' d cwd := by
  constructor
  · exact h.wellFormed ht.wellFormed
  · intro a p ha hp hn hs
    have ha := h.directory_iff.mp ha
    obtain ⟨hlink, hdir, ht⟩ := ht.links a p ha hp hn ((h a p ha hp hn).mp hs)
    refine ⟨hlink, hdir, ht.imp_right ?_⟩
    rintro ⟨hb, hsub⟩
    exact ⟨h.directory_iff.mpr hb, (h.subdir_iff hb).mpr hsub⟩

theorem Agree.uniqueIn (h : Agree fs skip skip' d) (hu : UniqueIn fs skip d) :
    UniqueIn fs skip' d :=
  fun a p q ha => hu a p q (h.directory_iff.mp ha)

end Relinking

/-- Apart from links that have been marked deleted, the slots of the tree are unchanged, and
so are its chains. -/
structure SameTree (fs : Fat32) (skip : ℕ → List UInt8 → Prop) (d d' : Bytes) : Prop where
  extent : ∀ x : Item, x.Present fs skip d → ∀ l, Extent fs d (x.start fs d) l →
    Extent fs d' (x.start fs d) l
  slots : ∀ a p, Directory fs skip d a → SlotOf fs d a p → Set.EqOn d' d (slotBytes p) ∨
    Named d p ∧ skip a (readEntry d p).name ∧ d' p = deletedMark

section Same

variable {fs : Fat32} {skip : ℕ → List UInt8 → Prop} {d d' : Bytes} {cwd a b p : ℕ}
variable {l : List ℕ} {x : Item}

theorem SameTree.chain (h : SameTree fs skip d d') (ha : Directory fs skip d a)
    (hl : Chain fs d a l) : Chain fs d' a l := by
  obtain ⟨x, hx, -, rfl⟩ := ha.item
  rcases h.extent x hx l (.inr hl) with ⟨-, h0⟩ | hl'
  · exact absurd h0 hl.nonempty
  · exact hl'

theorem SameTree.slotOf_iff (hw : WellFormed fs skip d cwd) (h : SameTree fs skip d d')
    (ha : Directory fs skip d a) : SlotOf fs d' a p ↔ SlotOf fs d a p := by
  obtain ⟨l, hl⟩ := hw.chain ha
  have hl' := h.chain ha hl
  constructor
  · intro hp
    exact ⟨l, hl, hp.mem hl'⟩
  · intro hp
    exact ⟨l, hl', hp.mem hl⟩

theorem SameTree.named_old (h : SameTree fs skip d d') (ha : Directory fs skip d a)
    (hp : SlotOf fs d a p) (hn : Named d' p) : Named d p ∧ readEntry d' p = readEntry d p := by
  rcases h.slots a p ha hp with he | ⟨-, -, hd⟩
  · exact ⟨(named_congr he).mp hn, readEntry_congr he⟩
  · exact absurd hd hn.live.2

theorem SameTree.holds_kept (h : SameTree fs skip d d') (ha : Directory fs skip d a)
    (hp : Holds fs skip d a p) : Set.EqOn d' d (slotBytes p) := by
  rcases h.slots a p ha hp.slot with he | ⟨-, hs, -⟩
  · exact he
  · exact absurd hs hp.kept

theorem SameTree.holds_iff (hw : WellFormed fs skip d cwd) (h : SameTree fs skip d d')
    (ha : Directory fs skip d a) : Holds fs skip d' a p ↔ Holds fs skip d a p := by
  constructor
  · intro hp
    have hs := (h.slotOf_iff hw ha).mp hp.slot
    obtain ⟨hn, he⟩ := h.named_old ha hs hp.named
    exact ⟨hs, hn, he ▸ hp.kept⟩
  · intro hp
    have he := h.holds_kept ha hp
    exact ⟨(h.slotOf_iff hw ha).mpr hp.slot, (named_congr he).mpr hp.named,
      (readEntry_congr he).symm ▸ hp.kept⟩

theorem SameTree.subdir_iff (hw : WellFormed fs skip d cwd) (h : SameTree fs skip d d')
    (ha : Directory fs skip d a) : Subdir fs skip d' a b ↔ Subdir fs skip d a b := by
  constructor
  · rintro ⟨p, hp, hdir, hb⟩
    have hp := (h.holds_iff hw ha).mp hp
    rw [readEntry_congr (h.holds_kept ha hp)] at hdir hb
    exact ⟨p, hp, hdir, hb⟩
  · rintro ⟨p, hp, hdir, hb⟩
    have he := readEntry_congr (h.holds_kept ha hp)
    exact ⟨p, (h.holds_iff hw ha).mpr hp, he ▸ hdir, he ▸ hb⟩

theorem SameTree.directory_iff (hw : WellFormed fs skip d cwd) (h : SameTree fs skip d d') :
    Directory fs skip d' a ↔ Directory fs skip d a := by
  constructor
  · intro ha
    induction ha with
    | refl => exact .refl
    | tail _ hs ih => exact ih.tail ((h.subdir_iff hw ih).mp hs)
  · intro ha
    induction ha with
    | refl => exact .refl
    | tail hb hs ih => exact ih.tail ((h.subdir_iff hw hb).mpr hs)

theorem SameTree.item_old (hw : WellFormed fs skip d cwd) (h : SameTree fs skip d d')
    (hx : x.Present fs skip d') : x.Present fs skip d ∧ x.start fs d' = x.start fs d ∧
      (x.IsDirectory d' ↔ x.IsDirectory d) := by
  cases x with
  | root => exact ⟨trivial, rfl, Iff.rfl⟩
  | entry p =>
    obtain ⟨a, ha, hp⟩ := hx
    have ha := (h.directory_iff hw).mp ha
    have hp := (h.holds_iff hw ha).mp hp
    have he := readEntry_congr (h.holds_kept ha hp)
    refine ⟨⟨a, ha, hp⟩, ?_, ?_⟩
    · simp only [Item.start, he]
    · simp only [Item.IsDirectory, he]

theorem SameTree.extent_old (hw : WellFormed fs skip d cwd) (h : SameTree fs skip d d')
    (hx : x.Present fs skip d) (hl : Extent fs d' (x.start fs d) l) :
    Extent fs d (x.start fs d) l := by
  obtain ⟨k, hk⟩ := hw.extent x hx
  rwa [hl.unique (h.extent x hx k hk)]

theorem SameTree.zero_iff (h : SameTree fs skip d d') (ha : Directory fs skip d a)
    (hp : SlotOf fs d a p) : d' p = 0 ↔ d p = 0 := by
  rcases h.slots a p ha hp with he | ⟨hn, -, hd⟩
  · rw [he (mem_slotBytes_self p)]
  · constructor
    · intro h0
      rw [h0] at hd
      exact absurd hd (by decide)
    · intro h0
      exact absurd h0 hn.live.1

theorem SameTree.wellFormed (hw : WellFormed fs skip d cwd) (h : SameTree fs skip d d') :
    WellFormed fs skip d' cwd := by
  constructor
  · exact hw.geometry
  · intro x hx
    obtain ⟨hxo, hs, -⟩ := h.item_old hw hx
    obtain ⟨l, hl⟩ := hw.extent x hxo
    rw [hs]
    exact ⟨l, h.extent x hxo l hl⟩
  · intro x hx hdir
    obtain ⟨hxo, hs, hd⟩ := h.item_old hw hx
    obtain ⟨l, hl⟩ := hw.directory_chain x hxo (hd.mp hdir)
    rw [hs]
    rcases h.extent x hxo l (.inr hl) with ⟨-, h0⟩ | hl'
    · exact absurd h0 hl.nonempty
    · exact ⟨l, hl'⟩
  · intro x y hx hy hxy l m hl hm
    obtain ⟨hxo, hxs, -⟩ := h.item_old hw hx
    obtain ⟨hyo, hys, -⟩ := h.item_old hw hy
    rw [hxs] at hl
    rw [hys] at hm
    exact hw.disjoint x y hxo hyo hxy l m (h.extent_old hw hxo hl) (h.extent_old hw hyo hm)
  · intro a l ha hl
    have ha := (h.directory_iff hw).mp ha
    obtain ⟨k, hk⟩ := hw.chain ha
    obtain rfl := hl.unique (h.chain ha hk)
    refine List.Pairwise.imp_of_mem ?_ (hw.zero_tail a l ha hk)
    intro p q hp hq hpq h0
    exact (h.zero_iff ha ⟨l, hk, hq⟩).mpr (hpq ((h.zero_iff ha ⟨l, hk, hp⟩).mp h0))
  · exact (h.directory_iff hw).mpr hw.current

theorem SameTree.linkedTree (ht : LinkedTree fs skip d cwd) (h : SameTree fs skip d d') :
    LinkedTree fs skip d' cwd := by
  have hw := ht.wellFormed
  constructor
  · exact h.wellFormed hw
  · intro a p ha hp hn hs
    have ha := (h.directory_iff hw).mp ha
    have hp := (h.slotOf_iff hw ha).mp hp
    obtain ⟨hno, he⟩ := h.named_old ha hp hn
    rw [he] at hs ⊢
    obtain ⟨hlink, hdir, htar⟩ := ht.links a p ha hp hno hs
    have htar' : target fs d' p = target fs d p := by simp only [target, he]
    rw [htar']
    refine ⟨hlink, hdir, htar.imp_right ?_⟩
    rintro ⟨hb, hsub⟩
    exact ⟨(h.directory_iff hw).mpr hb, (h.subdir_iff hw hb).mpr hsub⟩

theorem SameTree.uniqueIn (hw : WellFormed fs skip d cwd) (h : SameTree fs skip d d')
    (hu : UniqueIn fs skip d) : UniqueIn fs skip d' := by
  intro a p q ha hp hq hnp hnq he
  have ha := (h.directory_iff hw).mp ha
  have hp := (h.slotOf_iff hw ha).mp hp
  have hq := (h.slotOf_iff hw ha).mp hq
  obtain ⟨hnp, hpe⟩ := h.named_old ha hp hnp
  obtain ⟨hnq, hqe⟩ := h.named_old ha hq hnq
  rw [hpe, hqe] at he
  exact hu a p q ha hp hq hnp hnq he

/-- Clusters that are taken and never recorded change nothing in the tree. -/
theorem sameTree_of_grown {fresh : List ℕ} (hw : WellFormed fs skip d cwd)
    (h : Grown fs d d' fresh none) : SameTree fs skip d d' := by
  constructor
  · intro x hx l hl
    exact h.extent_kept hw.geometry (noSlot fs d cwd) hl
  · intro a p _ hp
    exact .inl (h.slot_kept hw.geometry (noSlot fs d cwd) hp (by simp))

theorem sameTree_of_link (hw : WellFormed fs skip d cwd) (h : Removes fs d d' cwd p [])
    (hn : Named d p) (hs : skip cwd (readEntry d p).name) : SameTree fs skip d d' := by
  constructor
  · intro x hx l hl
    exact h.extent_kept hw.geometry hl (List.disjoint_nil_right l)
  · intro a q ha hq
    by_cases he : q = p
    · subst he
      rw [slot_directory hw ha hw.current hq h.slot]
      exact .inr ⟨hn, hs, h.mark⟩
    · exact .inl (h.slot_kept hw.geometry hq he)

end Same

section Additions

variable {fs : Fat32} {skip : ℕ → List UInt8 → Prop} {d d' : Bytes} {cwd a b p q : ℕ}
variable {l pre post fresh : List ℕ}

theorem Adds.subdir_old (hw : WellFormed fs skip d cwd)
    (h : Adds fs skip d d' cwd l pre p post fresh) (ha : Directory fs skip d a)
    (hs : Subdir fs skip d a b) : Subdir fs skip d' a b := by
  obtain ⟨q, hq, hdir, hb⟩ := hs
  have hne := h.holds_ne hq
  have he := readEntry_congr (h.slot_kept hw.geometry hq.slot hne)
  exact ⟨q, (h.holds_iff hw ha hne).mpr hq, he ▸ hdir, he ▸ hb⟩

theorem Adds.linkedTree (ht : LinkedTree fs skip d cwd)
    (h : Adds fs skip d d' cwd l pre p post fresh)
    (hkept : Named d' p → ¬ skip cwd (readEntry d' p).name)
    (hleaf : (readEntry d' p).isDirectory → ∀ q ∈ slots fs fresh, Named d' q →
      linkEntry fs (readEntry d' p).firstCluster (readEntry d' q).name ∧
        (readEntry d' q).isDirectory ∧
          (target fs d' q = (readEntry d' p).firstCluster ∨ target fs d' q = cwd)) :
    LinkedTree fs skip d' cwd := by
  have hw := ht.wellFormed
  constructor
  · exact Adds.wellFormed hw h
  · intro a q ha hq hn hs
    rcases h.directory_new hw ha with hold | ⟨hp, hpd, rfl⟩
    · have hqo := (h.slotOf_iff hw hold).mp hq
      by_cases hne : q = p
      · subst hne
        rw [slot_directory hw hold hw.current hqo h.slotOf] at hs
        exact absurd hs (hkept hn)
      · have hk := h.slot_kept hw.geometry hqo hne
        have he := readEntry_congr hk
        rw [he] at hs ⊢
        obtain ⟨hlink, hdir, htar⟩ := ht.links a q hold hqo ((named_congr hk).mp hn) hs
        have htar' : target fs d' q = target fs d q := by simp only [target, he]
        rw [htar']
        refine ⟨hlink, hdir, htar.imp_right ?_⟩
        rintro ⟨hb, hsub⟩
        exact ⟨h.directory_old hw hb, Adds.subdir_old hw h hb hsub⟩
    · obtain ⟨hlink, hdir, htar⟩ := hleaf hpd q (hq.mem (h.leaf hpd)) hn
      refine ⟨hlink, hdir, htar.imp_right fun hc => ?_⟩
      rw [hc]
      exact ⟨h.directory_old hw hw.current, p, hp, hpd, rfl⟩

theorem Adds.uniqueIn (hw : WellFormed fs skip d cwd) (hu : UniqueIn fs skip d)
    (h : Adds fs skip d d' cwd l pre p post fresh)
    (hfresh : Named d' p → ∀ q, SlotOf fs d cwd q → Named d q →
      (readEntry d q).name ≠ (readEntry d' p).name)
    (hleaf : (readEntry d' p).isDirectory → ∀ q ∈ slots fs fresh, ∀ r ∈ slots fs fresh,
      Named d' q → Named d' r → (readEntry d' q).name = (readEntry d' r).name → q = r) :
    UniqueIn fs skip d' := by
  intro a q r ha hq hr hnq hnr he
  rcases h.directory_new hw ha with hold | ⟨-, hpd, rfl⟩
  · have hq := (h.slotOf_iff hw hold).mp hq
    have hr := (h.slotOf_iff hw hold).mp hr
    -- an old entry of the directory is unchanged and differs from the new one
    have hkey : ∀ s, SlotOf fs d a s → Named d' s → s ≠ p →
        Named d s ∧ readEntry d' s = readEntry d s := fun s hs hn hne =>
      have hk := h.slot_kept hw.geometry hs hne
      ⟨(named_congr hk).mp hn, readEntry_congr hk⟩
    by_cases hqp : q = p
    · by_cases hrp : r = p
      · rw [hqp, hrp]
      · subst hqp
        obtain ⟨hn, hre⟩ := hkey r hr hnr hrp
        rw [slot_directory hw hold hw.current hq h.slotOf] at hr
        exact absurd (hre ▸ he.symm) (hfresh hnq r hr hn)
    · obtain ⟨hnq', hqe⟩ := hkey q hq hnq hqp
      by_cases hrp : r = p
      · subst hrp
        rw [slot_directory hw hold hw.current hr h.slotOf] at hq
        exact absurd (hqe ▸ he) (hfresh hnr q hq hnq')
      · obtain ⟨hnr', hre⟩ := hkey r hr hnr hrp
        rw [hqe, hre] at he
        exact hu a q r hold hq hr hnq' hnr' he
  · exact hleaf hpd q (hq.mem (h.leaf hpd)) r (hr.mem (h.leaf hpd)) hnq hnr he

end Additions

section Removals

variable {fs : Fat32} {skip : ℕ → List UInt8 → Prop} {d d' : Bytes} {cwd a b p q : ℕ}
variable {m : List ℕ}

theorem ItemRemoved.slot_old (hw : WellFormed fs skip d cwd)
    (h : ItemRemoved fs skip d d' cwd p m) (ha : Directory fs skip d' a)
    (hq : SlotOf fs d' a q) (hn : Named d' q) :
    Directory fs skip d a ∧ SlotOf fs d a q ∧ Named d q ∧ readEntry d' q = readEntry d q := by
  obtain ⟨hold, k, hk, hd⟩ := h.directory_old hw ha
  have hqo : SlotOf fs d a q := ⟨k, hk, hq.mem (h.removes.chain_kept hw.geometry hk hd)⟩
  have hne : q ≠ p := by
    rintro rfl
    exact h.removes.not_live hn.live
  have hkept := h.removes.slot_kept hw.geometry hqo hne
  exact ⟨hold, hqo, (named_congr hkept).mp hn, readEntry_congr hkept⟩

theorem ItemRemoved.parent_kept (hw : WellFormed fs skip d cwd)
    (h : ItemRemoved fs skip d d' cwd p m) (ha : Directory fs skip d' a)
    (hroot : a ≠ fs.rootCluster) (hb : Directory fs skip d b) (hs : Subdir fs skip d b a) :
    Directory fs skip d' b ∧ Subdir fs skip d' b a := by
  rcases Relation.ReflTransGen.cases_tail ha with he | ⟨c, hc, hsub⟩
  · exact absurd he hroot
  · obtain ⟨q, hq, hdir, hqa⟩ := id hsub
    obtain ⟨hco, hqs, hqn, hqe⟩ := ItemRemoved.slot_old hw h hc hq.slot hq.named
    obtain ⟨r, hr, hrd, rfl⟩ := hs
    have hqo : Holds fs skip d c q := ⟨hqs, hqn, hqe ▸ hq.kept⟩
    have hx : (Item.entry q).Present fs skip d := ⟨c, hco, hqo⟩
    have hy : (Item.entry r).Present fs skip d := ⟨b, hb, hr⟩
    rw [hqe] at hqa
    obtain ⟨l, hl⟩ := hw.directory_chain (.entry r) hy hrd
    cases hw.item_unique hy hx hl hqa
    rw [slot_directory hw hb hco hr.slot hqs]
    exact ⟨hc, hsub⟩

theorem ItemRemoved.linkedTree (ht : LinkedTree fs skip d cwd)
    (h : ItemRemoved fs skip d d' cwd p m) : LinkedTree fs skip d' cwd := by
  have hw := ht.wellFormed
  constructor
  · exact ItemRemoved.wellFormed hw h
  · intro a q ha hq hn hs
    obtain ⟨hold, hqo, hno, he⟩ := ItemRemoved.slot_old hw h ha hq hn
    rw [he] at hs ⊢
    obtain ⟨hlink, hdir, htar⟩ := ht.links a q hold hqo hno hs
    have htar' : target fs d' q = target fs d q := by simp only [target, he]
    rw [htar']
    refine ⟨hlink, hdir, htar.imp_right ?_⟩
    rintro ⟨hb, hsub⟩
    exact ItemRemoved.parent_kept hw h ha hlink.1 hb hsub

theorem ItemRemoved.uniqueIn (hw : WellFormed fs skip d cwd) (hu : UniqueIn fs skip d)
    (h : ItemRemoved fs skip d d' cwd p m) : UniqueIn fs skip d' := by
  intro a q r ha hq hr hnq hnr he
  obtain ⟨hold, hqo, hqn, hqe⟩ := ItemRemoved.slot_old hw h ha hq hnq
  obtain ⟨-, hro, hrn, hre⟩ := ItemRemoved.slot_old hw h ha hr hnr
  rw [hqe, hre] at he
  exact hu a q r hold hqo hro hqn hrn he

end Removals

end Fat32Links
