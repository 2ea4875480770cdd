import SojebOS.Fat32TreeRuns

/-!
# Removing a directory

`fat32_rmdir` takes the first live slot with the name. For an entry of the tree this cuts a
subtree off. For `.` or `..` below the root it takes a link of the current directory away,
and with `.` its clusters as well.
-/
namespace Fat32Rmdir

open ByteMemory MachineWord WhileLoop LinkedChain
open Fat32Disk Fat32Directory Fat32Files Fat32Tree Fat32Layout Fat32Volume
open Fat32Entries Fat32Growth Fat32TreeGrowth Fat32Paths Fat32Removal
open Fat32TreeInvariant Fat32TreeRuns

structure TreeSound (fs : Fat32) (d : Bytes) (cwd : ℕ) : Prop where
  current : Visits fs d cwd ∧ ∃ l, Chain fs d cwd l
  allocated : ∀ ns x, Reaches fs d ns x → ∃ l, Clusters fs d x l
  dots : ∀ a, Visits fs d a → a ≠ fs.rootCluster →
    (∃ p, SlotOf fs d a p ∧ Named d p ∧ (readEntry d p).name = dotName) ∧
      ∃ p, SlotOf fs d a p ∧ Named d p ∧ (readEntry d p).name = dotDotName

def RmdirSound (fs : Fat32) (d : Bytes) (cwd : ℕ) (name : List UInt8) : Prop :=
  ∀ d' reply, fat32Rmdir fs d cwd name = some (d', reply) → TreeSound fs d' cwd

/-- The name is `.` or `..`, the current directory is not the root, and the directory that
the entry refers to passes for empty. -/
def TakesLink (fs : Fat32) (d : Bytes) (cwd : ℕ) (name : List UInt8) : Prop :=
  linkEntry fs cwd (formatFilename name) ∧
    ∃ e, fat32FindFile fs d cwd name = some (some e) ∧
      isDirectoryEmpty fs d e.firstCluster = some true

section Soundness

variable {fs : Fat32} {d : Bytes} {cwd a : ℕ}

theorem TreeInvariant.sound (h : TreeInvariant fs d cwd) : TreeSound fs d cwd := by
  have hw := h.wellFormed
  refine ⟨⟨(visits_iff hw h.linksRefer).mpr hw.current, hw.chain hw.current⟩, ?_, ?_⟩
  · intro ns x hx
    by_cases hdir : x.IsDirectory d
    · obtain ⟨l, hl⟩ := hw.chain (reaches_directory hw h.linksRefer hx hdir)
      exact ⟨l, .inl ⟨hdir, hl⟩⟩
    · obtain ⟨l, hl⟩ := hw.extent x (reaches_present hw h.linksRefer hx hdir)
      exact ⟨l, .inr ⟨hdir, hl⟩⟩
  · intro a ha hne
    have ha := (visits_iff hw h.linksRefer).mp ha
    exact ⟨h.dot_present ha ⟨hne, .inl rfl⟩, h.dot_present ha ⟨hne, .inr rfl⟩⟩

end Soundness

section Outcomes

variable {fs : Fat32} {skip : ℕ → List UInt8 → Prop} {d : Bytes} {cwd a p : ℕ}
variable {l m pre post : List ℕ} {name : List UInt8}

theorem isDirectoryEmpty_some (hg : Geometry fs) (hm : Extent fs d a m) :
    ∃ b, isDirectoryEmpty fs d a = some b := by
  rcases hm with ⟨rfl, -⟩ | hm
  · have hrun : walkDirectory fs d 0 (occupiedVisit d) = some none :=
      run_leave (by simp [walkBody, offChain]) _
    exact ⟨true, by rw [isDirectoryEmpty, hrun]; rfl⟩
  · exact ⟨_, by rw [isDirectoryEmpty, walkDirectory_eq hg hm, Option.map_some]⟩

theorem rmdir_none (hg : Geometry fs) (hl : Chain fs d cwd l)
    (hnone : ((slots fs l).findSome? (searchAt d
      (fun p => (readEntry d p).name = formatFilename name)
      fun p => (p / 512, p % 512 / 32))).join = none) :
    fat32Rmdir fs d cwd name = some (d, none) := by
  simp only [fat32Rmdir, removeWalk_eq hg hl, Option.bind_eq_bind, Option.bind_some, hnone]
  rfl

theorem rmdir_match (hg : Geometry fs) (hl : Chain fs d cwd l)
    (hs : slots fs l = pre ++ p :: post) (hlive : Live d p)
    (hname : (readEntry d p).name = formatFilename name)
    (hpre : ∀ q ∈ pre, d q ≠ 0 ∧ (Live d q → (readEntry d q).name ≠ formatFilename name))
    (hm : (readEntry d p).isDirectory → Extent fs d (readEntry d p).firstCluster m) :
    (∃ reply, fat32Rmdir fs d cwd name = some (d, reply) ∧
        ¬ ((readEntry d p).isDirectory ∧
          isDirectoryEmpty fs d (readEntry d p).firstCluster = some true)) ∨
      (readEntry d p).isDirectory ∧
        isDirectoryEmpty fs d (readEntry d p).firstCluster = some true ∧
        ∃ d' reply, fat32Rmdir fs d cwd name = some (d', reply) ∧ Removes fs d d' cwd p m ∧
          SameHigh fs d d' := by
  have hp : SlotOf fs d cwd p := ⟨l, hl, by rw [hs]; simp⟩
  have hwalk : walkDirectory fs d cwd (removeVisit d (formatFilename name)) =
      some (some (some (p / 512, p % 512 / 32))) := by
    rw [removeWalk_eq hg hl, search_first hs hlive hname hpre]
  simp only [fat32Rmdir, hwalk, Option.bind_eq_bind, Option.bind_some, Option.join_some,
    readEntry_slot hp.dvd]
  by_cases hdir : (readEntry d p).isDirectory
  · obtain ⟨b, hb⟩ := isDirectoryEmpty_some hg (hm hdir)
    cases b with
    | false =>
      refine .inl ⟨some .directoryNotEmpty, ?_, by simp [hb]⟩
      simp [hdir, hb]
    | true =>
      obtain ⟨d₁, hrun, hrem, hhigh⟩ := removes_of_freeChain hg hp (hm hdir)
      refine .inr ⟨hdir, hb, _, some .directoryDeleted, ?_, hrem, hhigh⟩
      simp [hdir, hb, hrun]
  · refine .inl ⟨some .targetIsFile, ?_, fun h => hdir h.1⟩
    simp [hdir]

theorem directory_named (hlive : Live d p) (hdir : (readEntry d p).isDirectory) :
    Named d p := by
  refine ⟨hlive, fun hlong => ?_⟩
  rw [Fat32DirEntry.isDirectory, hlong] at hdir
  exact hdir (by decide)

theorem findFile_match (hg : Geometry fs) (hl : Chain fs d cwd l)
    (hs : slots fs l = pre ++ p :: post) (hlive : Live d p)
    (hname : (readEntry d p).name = formatFilename name)
    (hpre : ∀ q ∈ pre, d q ≠ 0 ∧ (Live d q → (readEntry d q).name ≠ formatFilename name))
    (hdir : (readEntry d p).isDirectory) :
    fat32FindFile fs d cwd name = some (some (readEntry d p)) := by
  have hn := directory_named hlive hdir
  rw [findFile_eq hg hl, search_first hs hlive ⟨hn.short, hname⟩ fun q hq =>
    ⟨(hpre q hq).1, fun hl hm => (hpre q hq).2 hl hm.2⟩]
  rfl

end Outcomes

section Soundly

variable {fs : Fat32} {d : Bytes} {cwd a p : ℕ} {l m pre post : List ℕ}
variable {name : List UInt8}

/-- The outcomes of `fat32_rmdir` on the tree. -/
theorem rmdir_spec (h : TreeInvariant fs d cwd) (name : List UInt8) :
    (∃ reply, fat32Rmdir fs d cwd name = some (d, reply)) ∨
      ∃ p m d' reply, fat32Rmdir fs d cwd name = some (d', reply) ∧ SlotOf fs d cwd p ∧
        Named d p ∧ (readEntry d p).name = formatFilename name ∧
        Extent fs d (readEntry d p).firstCluster m ∧ Removes fs d d' cwd p m ∧
        fat32FindFile fs d cwd name = some (some (readEntry d p)) ∧
        isDirectoryEmpty fs d (readEntry d p).firstCluster = some true := by
  have hw := h.wellFormed
  have hg := hw.geometry
  obtain ⟨l, hl⟩ := hw.chain hw.current
  cases hv : ((slots fs l).findSome? (searchAt d
      (fun p => (readEntry d p).name = formatFilename name)
      fun p => (p / 512, p % 512 / 32))).join with
  | none => exact .inl ⟨none, rmdir_none hg hl hv⟩
  | some slot =>
    obtain ⟨pre, p, post, hs, hlive, hname, -, hpre⟩ := search_some hv
    have hp : SlotOf fs d cwd p := ⟨l, hl, by rw [hs]; simp⟩
    by_cases hdir : (readEntry d p).isDirectory
    · have hn := directory_named hlive hdir
      obtain ⟨m, hm⟩ := entry_extent hw h.linksRefer hp hn
      rcases rmdir_match hg hl hs hlive hname hpre (fun _ => hm) with
        ⟨reply, hrun, -⟩ | ⟨-, hempty, d', reply, hrun, hrem, -⟩
      · exact .inl ⟨reply, hrun⟩
      · exact .inr ⟨p, m, d', reply, hrun, hp, hn, hname, hm, hrem,
          findFile_match hg hl hs hlive hname hpre hdir, hempty⟩
    · rcases rmdir_match (m := []) hg hl hs hlive hname hpre (fun h => absurd h hdir) with
        ⟨reply, hrun, -⟩ | ⟨hd, -⟩
      · exact .inl ⟨reply, hrun⟩
      · exact absurd hd hdir

theorem rmdir_sound (h : TreeInvariant fs d cwd) (hlink : ¬ TakesLink fs d cwd name) :
    RmdirSound fs d cwd name := by
  intro d' reply hd'
  rcases rmdir_spec h name with
    ⟨r, hrun⟩ | ⟨p, m, d₁, r, hrun, hp, hn, hname, hm, hrem, hfind, hempty⟩
  · rw [hrun] at hd'
    cases hd'
    exact TreeInvariant.sound h
  · rw [hrun] at hd'
    cases hd'
    have hkept : ¬ linkEntry fs cwd (readEntry d p).name := fun hl =>
      hlink ⟨hname ▸ hl, _, hfind, hempty⟩
    exact TreeInvariant.sound (h.remove ⟨hrem, ⟨hp, hn, hkept⟩, hm⟩)

end Soundly

section Breaking

variable {fs : Fat32} {d d' : Bytes} {cwd p b : ℕ} {l m rest : List ℕ} {name : List UInt8}

theorem slots_head (hg : Geometry fs) (hl : Chain fs d cwd l) :
    ∃ rest, slots fs l = clusterAddr fs cwd :: (clusterAddr fs cwd + 32) :: rest := by
  obtain ⟨tail, rfl⟩ : ∃ tail, l = cwd :: tail := by
    cases hl.linked with
    | nil => exact absurd rfl hl.nonempty
    | cons => exact ⟨_, rfl⟩
  obtain ⟨n, hn⟩ : ∃ n, fs.sectorsPerCluster = n + 1 :=
    ⟨fs.sectorsPerCluster - 1, by have := hg.perCluster_pos; omega⟩
  simp only [slots, List.flatMap_cons, clusterSlots, hn, List.range_succ_eq_map (n := n),
    List.flatMap_cons, show List.range 16 = 0 :: 1 :: List.range' 2 14 by decide,
    List.map_cons, List.cons_append, Nat.mul_zero, Nat.add_zero, Nat.mul_one]
  exact ⟨_, rfl⟩

theorem link_slot (h : TreeInvariant fs d cwd) (hlink : linkEntry fs cwd (formatFilename name))
    (hl : Chain fs d cwd l) {pre post : List ℕ} (hs : slots fs l = pre ++ p :: post)
    (hname : (readEntry d p).name = formatFilename name)
    (hpre : ∀ q ∈ pre, d q ≠ 0 ∧ (Live d q → (readEntry d q).name ≠ formatFilename name)) :
    p = clusterAddr fs cwd ∧ formatFilename name = dotName ∨
      p = clusterAddr fs cwd + 32 ∧ formatFilename name = dotDotName := by
  have hw := h.wellFormed
  obtain ⟨b, -, hdots⟩ := h.parent hw.current hlink.1
  obtain ⟨rest, hhead⟩ := slots_head hw.geometry hl
  rw [hhead] at hs
  rcases pre with _ | ⟨q₀, pre⟩
  · have he : clusterAddr fs cwd = p := (List.cons.inj hs).1
    rw [← he, hdots.dot_name] at hname
    exact .inl ⟨he.symm, hname.symm⟩
  · obtain ⟨h0, hs⟩ := List.cons.inj hs
    have hne : formatFilename name ≠ dotName := by
      have hq := (hpre q₀ List.mem_cons_self).2
      rw [← h0] at hq
      intro he
      exact hq hdots.dot_named.live (he ▸ hdots.dot_name)
    have hdd : formatFilename name = dotDotName := hlink.2.resolve_left hne
    refine .inr ⟨?_, hdd⟩
    rcases pre with _ | ⟨q₁, pre⟩
    · exact (List.cons.inj hs).1.symm
    · have hq := (hpre q₁ (by simp)).2
      rw [← (List.cons.inj hs).1] at hq
      exact absurd (hdd ▸ hdots.dotDot_name) (hq hdots.dotDot_named.live)

theorem link_removed (h : TreeInvariant fs d cwd) (hlink : linkEntry fs cwd (formatFilename name))
    (hm : Extent fs d (readEntry d p).firstCluster m) (hrem : Removes fs d d' cwd p m)
    (hp : p = clusterAddr fs cwd ∧ formatFilename name = dotName ∨
      p = clusterAddr fs cwd + 32 ∧ formatFilename name = dotDotName) :
    ¬ TreeSound fs d' cwd := by
  have hw := h.wellFormed
  have hg := hw.geometry
  intro hsound
  obtain ⟨hvisit, l', hl'⟩ := hsound.current
  obtain ⟨l, hl⟩ := hw.chain hw.current
  obtain ⟨b, hb, hdots⟩ := h.parent hw.current hlink.1
  -- `.`, or a `..` that led back here, gives up the clusters of the current directory
  have hself : ¬ Extent fs d cwd m := fun he => by
    obtain rfl := he.unique (.inr hl)
    exact hl'.next_ne_zero hl'.head_mem (hrem.freed cwd hl.head_mem)
  rcases hp with ⟨rfl, -⟩ | ⟨rfl, -⟩
  · rw [hdots.dot_cluster] at hm
    exact hself hm
  · have hd : l.Disjoint m := by
      rw [hdots.dotDot_cluster, parentLink] at hm
      by_cases hbr : b = fs.rootCluster
      · rw [if_pos hbr] at hm
        rw [hm.unique (.inl ⟨rfl, rfl⟩)]
        exact List.disjoint_nil_right l
      · rw [if_neg hbr] at hm
        obtain ⟨x, hx, hxd, hxs⟩ := hw.current.item
        obtain ⟨y, hy, hyd, hys⟩ := hb.item
        refine hw.disjoint x y hx hy ?_ l m (.inr (hxs ▸ hl)) (hys ▸ hm)
        rintro rfl
        exact hself (hxs ▸ hys ▸ hm)
    have hkept := hrem.chain_kept hg hl hd
    obtain ⟨q, hq, hqn, hqe⟩ := (hsound.dots cwd hvisit hlink.1).2
    have hqo : SlotOf fs d cwd q := ⟨l, hl, hq.mem hkept⟩
    have hne : q ≠ clusterAddr fs cwd + 32 := by
      rintro rfl
      exact hrem.not_live hqn.live
    have hslot := hrem.slot_kept hg hqo hne
    rw [readEntry_congr hslot] at hqe
    rcases h.only cwd q hw.current hqo ((named_congr hslot).mp hqn)
      (hqe ▸ ⟨hlink.1, .inr rfl⟩) with rfl | he
    · rw [hdots.dot_name] at hqe
      exact dotName_ne hqe
    · exact hne he

theorem rmdir_link_breaks (h : TreeInvariant fs d cwd) (ht : TakesLink fs d cwd name) :
    ¬ RmdirSound fs d cwd name := by
  have hw := h.wellFormed
  have hg := hw.geometry
  obtain ⟨hlink, e, hfind, hempty⟩ := ht
  obtain ⟨l, hl⟩ := hw.chain hw.current
  obtain ⟨b, -, hdots⟩ := h.parent hw.current hlink.1
  intro hsound
  cases hv : ((slots fs l).findSome? (searchAt d
      (fun p => (readEntry d p).name = formatFilename name)
      fun p => (p / 512, p % 512 / 32))).join with
  | none =>
    obtain ⟨q, hq, hqn, hqe⟩ := h.dot_present hw.current hlink
    exact search_none (hw.zero_tail cwd l hw.current hl) hv q (hq.mem hl) hqn.live hqe
  | some slot =>
    obtain ⟨pre, p, post, hs, hlive, hname, -, hpre⟩ := search_some hv
    have hp : SlotOf fs d cwd p := ⟨l, hl, by rw [hs]; simp⟩
    have hpos := link_slot h hlink hl hs hname hpre
    have hdir : (readEntry d p).isDirectory := by
      rcases hpos with ⟨rfl, -⟩ | ⟨rfl, -⟩
      · exact hdots.dot_directory
      · exact hdots.dotDot_directory
    rw [findFile_match hg hl hs hlive hname hpre hdir] at hfind
    obtain rfl : readEntry d p = e := Option.some.inj (Option.some.inj hfind)
    obtain ⟨m, hm⟩ := entry_extent hw h.linksRefer hp (directory_named hlive hdir)
    rcases rmdir_match hg hl hs hlive hname hpre (fun _ => hm) with
      ⟨reply, -, hno⟩ | ⟨-, -, d', reply, hrun, hrem, -⟩
    · exact hno ⟨hdir, hempty⟩
    · exact link_removed h hlink hm hrem hpos (hsound d' reply hrun)

end Breaking

/-- After any run from a well-formed volume, `fat32_rmdir` keeps the tree sound exactly when
it takes no link away. -/
theorem rmdir_sound_iff {fs : Fat32} {s₀ : Bytes × ℕ} {d : Bytes} {cwd : ℕ}
    (h₀ : TreeInvariant fs s₀.1 s₀.2) (hr : Reachable fs s₀ (d, cwd)) (name : List UInt8) :
    RmdirSound fs d cwd name ↔ ¬ TakesLink fs d cwd name := by
  have h : TreeInvariant fs d cwd := reachable_invariant h₀ hr
  constructor
  · intro hs ht
    exact rmdir_link_breaks h ht hs
  · exact rmdir_sound h

theorem oneDirectory_made : Reachable tinyVolume (blankDisk, 2) (oneDirectory, 2) :=
  have hmk : (TreeCall.createDirectory [0x44]).step tinyVolume (blankDisk, 2) =
      some (oneDirectory, 2) := createDirectory_blankDisk (by decide +kernel)
  .single ⟨_, hmk⟩

/-- `rmdir D` behind it. -/
theorem rmdir_sound_iff_oneDirectory : RmdirSound tinyVolume oneDirectory 2 [0x44] := by
  apply (@rmdir_sound_iff tinyVolume (blankDisk, 2) oneDirectory 2 blankDisk_invariant
    oneDirectory_made [0x44]).mpr
  rintro ⟨⟨hroot, -⟩, -⟩
  exact hroot rfl

theorem oneDirectory_reachable :
    Reachable tinyVolume (blankDisk, 2) (oneDirectory, 3) := by
  have hcd : (TreeCall.cd [0x44]).step tinyVolume (oneDirectory, 2) =
      some (oneDirectory, 3) := cd_step (by decide +kernel) (by decide)
  exact oneDirectory_made.tail ⟨_, hcd⟩

/-- `rmdir .` in that directory. -/
theorem rmdir_dot_unsound : ¬ ∀ (fs : Fat32) (s₀ : Bytes × ℕ) (d : Bytes) (cwd : ℕ),
    TreeInvariant fs s₀.1 s₀.2 → Reachable fs s₀ (d, cwd) → ∀ name : List UInt8,
      RmdirSound fs d cwd name := by
  intro h
  have hinv : TreeInvariant tinyVolume oneDirectory 3 :=
    reachable_invariant blankDisk_invariant oneDirectory_reachable
  have hfind : fat32FindFile tinyVolume oneDirectory 3 [0x2E] =
      some (some (readEntry oneDirectory 1536)) := by decide +kernel
  exact rmdir_link_breaks hinv ⟨⟨by decide, .inl (by decide)⟩, _, hfind, by decide +kernel⟩
    (h tinyVolume (blankDisk, 2) oneDirectory 3 blankDisk_invariant oneDirectory_reachable [0x2E])

end Fat32Rmdir
