import SojebOS.LabelledRuns
import SojebOS.Fat32Listing
import SojebOS.Fat32Rmdir
import SojebOS.Fat32EnterLeave

/-!
# The commands of a session refine the requests on its listings

A write, a new directory, a removal and a change of directory do to the disk what the
requests do to the listing that the disk shows, in any order and any number. Each call
reports whether it was done.
-/
namespace Fat32ListingRuns

open ByteMemory MachineWord LinkedChain NamedListings LabelledRuns
open Fat32Disk Fat32Directory Fat32Files Fat32Tree Fat32Layout Fat32Volume
open Fat32Entries Fat32Allocation Fat32Growth Fat32RoundTrip Fat32TreeGrowth
open Fat32Paths Fat32Removal Fat32TreeInvariant Fat32TreeRuns Fat32Links Fat32UniqueNames
open Fat32Rmdir Fat32PathComposition Fat32Listing

inductive FileCall where
  | writeFile (filename : List UInt8) (data : Bytes) (size : ℕ)
  | createDirectory (dirname : List UInt8)
  | deleteFile (filename : List UInt8)
  | rmdir (dirname : List UInt8)
  | cd (path : List UInt8)

def answer (done : Prop) [Decidable done] : Answer := if done then .done else .refused

/-- The disk and the current directory after a call that returns, and what it says it did.
`fat32_delete_file` says nothing. -/
def FileCall.run (fs : Fat32) : FileCall → Bytes × ℕ → Option ((Bytes × ℕ) × Answer)
  | .writeFile filename data size, (d, cwd) =>
    (fat32WriteFile fs d cwd filename data size).map fun r => ((r.1, cwd), answer (r.2 = .stored))
  | .createDirectory dirname, (d, cwd) =>
    (fat32CreateDirectory fs d cwd dirname).map fun r =>
      ((r.1, cwd), answer (r.2 = some .directoryCreated))
  | .deleteFile filename, (d, cwd) =>
    (fat32DeleteFile fs d cwd filename).map fun d' => ((d', cwd), .done)
  | .rmdir dirname, (d, cwd) =>
    (fat32Rmdir fs d cwd dirname).map fun r =>
      ((r.1, cwd), answer (r.2 = some .directoryDeleted))
  | .cd path, (d, cwd) =>
    (fat32Cd fs d cwd path).map fun r => ((d, r.1), answer (r.2 = none))

/-- A write is to a new name and its rounded size fits a word, no name begins with the mark of a
deleted slot, and no removal takes away a link. -/
def FileCall.Clean (fs : Fat32) : FileCall → Bytes × ℕ → Prop
  | .writeFile filename _ size, (d, cwd) => fat32FindFile fs d cwd filename = some none ∧
      filename.getD 0 0 ≠ deletedMark ∧ size + bytesPerCluster fs ≤ 2 ^ 32
  | .createDirectory dirname, _ => dirname.getD 0 0 ≠ deletedMark
  | .deleteFile filename, s => (VolumeCall.deleteFile filename).Safe fs s
  | .rmdir dirname, (_, cwd) => ¬ linkEntry fs cwd (formatFilename dirname)
  | .cd _, _ => True

def CleanStep (fs : Fat32) (s : Bytes × ℕ) (l : FileCall × Answer) (t : Bytes × ℕ) : Prop :=
  l.1.Clean fs s ∧ l.1.run fs s = some (t, l.2)

def FileCall.request : FileCall → Request (List UInt8) StoredFile
  | .writeFile filename data size =>
    .write (formatFilename filename) ⟨size, (List.range size).map data⟩
  | .createDirectory dirname => .make (formatFilename dirname)
  | .deleteFile filename => .remove (formatFilename filename)
  | .rmdir dirname => .removeEmpty (formatFilename dirname)
  | .cd path => .change (decide (path.getD 0 0 = slash)) (pathNames (path.length + 1) path)

/-- The names that `is_directory_empty` passes over. -/
def dotLike (n : List UInt8) : Prop :=
  n.getD 0 0 = dot ∧ (n.getD 1 0 = space ∨ n.getD 1 0 = dot ∧ n.getD 2 0 = space)

def volumeFrame (fs : Fat32) : Frame ℕ (List UInt8) :=
  ⟨fs.rootCluster, dotName, dotDotName, dotLike⟩

def Represents (fs : Fat32) (s : Bytes × ℕ) (v : Session ℕ (List UInt8) StoredFile) : Prop :=
  NamedTree fs s.1 s.2 ∧ Shows fs s.1 v.listing ∧ v.current = s.2

section Showing

variable {fs : Fat32} {d d' : Bytes} {cwd a p : ℕ} {m : VolumeListing} {n : List UInt8}

theorem showsAt_kept (hlists : ∀ k q, Lists fs d' a k q ↔ Lists fs d a k q)
    (hnode : ∀ k q, Lists fs d a k q → entryNode fs d' q = entryNode fs d q)
    (h : ShowsAt fs d m a) : ShowsAt fs d' m a := by
  intro k x
  rw [h k x]
  refine exists_congr fun q => ?_
  rw [hlists k q]
  exact and_congr_right fun hq => by rw [hnode k q hq]

theorem showsAt_assign {x : Option (Node ℕ StoredFile)}
    (hlists : ∀ k q, a ≠ cwd ∨ k ≠ n → (Lists fs d' a k q ↔ Lists fs d a k q))
    (hnode : ∀ k q, a ≠ cwd ∨ k ≠ n → Lists fs d a k q → entryNode fs d' q = entryNode fs d q)
    (hx : a = cwd → ∀ y, x = some y ↔ ∃ q, Lists fs d' cwd n q ∧ entryNode fs d' q = y)
    (h : ShowsAt fs d m a) : ShowsAt fs d' (m.assign cwd n x) a := by
  intro k y
  by_cases hk : a ≠ cwd ∨ k ≠ n
  · rw [assign_other x hk, h k y]
    refine exists_congr fun q => ?_
    rw [hlists k q hk]
    exact and_congr_right fun hq => by rw [hnode k q hk hq]
  · obtain ⟨rfl, rfl⟩ : a = cwd ∧ k = n := by
      simpa only [ne_eq, not_or, not_not] using hk
    rw [assign_same]
    exact hx rfl y

end Showing

section Additions

variable {fs : Fat32} {skip : ℕ → List UInt8 → Prop} {d d' : Bytes} {cwd a p q : ℕ}
variable {m : VolumeListing} {n : List UInt8} {slot : Option ℕ}

theorem PreservesOld.slotOf_iff (hw : WellFormed fs skip d cwd)
    (h : PreservesOld fs skip d d' cwd slot) (ha : Directory fs skip d a) :
    SlotOf fs d' a q ↔ SlotOf fs d a q := by
  obtain ⟨l, hl⟩ := hw.chain ha
  obtain ⟨x, hx, -, rfl⟩ := ha.item
  rcases h.chains_kept x hx l (.inr hl) with ⟨-, h0⟩ | hl'
  · exact absurd h0 hl.nonempty
  · constructor
    · intro hq
      exact ⟨l, hl, hq.mem hl'⟩
    · intro hq
      exact ⟨l, hl', hq.mem hl⟩

theorem PreservesOld.lists_iff (hw : WellFormed fs skip d cwd)
    (h : PreservesOld fs skip d d' cwd slot) (ha : Directory fs skip d a) (hne : slot ≠ some q) :
    Lists fs d' a n q ↔ Lists fs d a n q := by
  have hslot := PreservesOld.slotOf_iff (q := q) hw h ha
  constructor
  · intro hq
    exact (lists_congr (h.slots_kept a q ha (hslot.mp hq.slot) hne) hslot).mp hq
  · intro hq
    exact (lists_congr (h.slots_kept a q ha hq.slot hne) hslot).mpr hq

theorem PreservesOld.entryNode (ht : LinkedTree fs skip d cwd)
    (h : PreservesOld fs skip d d' cwd slot) (ha : Directory fs skip d a) (hne : slot ≠ some q)
    (hq : Lists fs d a n q) : entryNode fs d' q = entryNode fs d q := by
  refine entryNode_kept (h.slots_kept a q ha hq.slot hne) fun hfile => ?_
  have hw := ht.wellFormed
  have hx := NamedTree.file_present ht ha hq.slot hq.named hfile
  obtain ⟨l, hl⟩ := hw.extent _ hx
  have hread := readAbsolute_kept hw.geometry hl (h.chains_kept _ hx l hl)
    (h.files_kept _ hx hfile l hl) (readEntry d q).fileSize
  simp only [Item.start] at hread
  rw [storedFile, storedFile, hread]

theorem PreservesOld.lists_ne (h : PreservesOld fs skip d d' cwd slot) (hq : Lists fs d a n q) :
    slot ≠ some q := by
  rintro rfl
  exact (h.slot_free q rfl).2 hq.named.live

theorem PreservesOld.showsAt (ht : LinkedTree fs skip d cwd)
    (h : PreservesOld fs skip d d' cwd slot) (ha : Directory fs skip d a)
    {x : Option (Node ℕ StoredFile)}
    (hnew : ∀ p ∈ slot, Named d' p → (readEntry d' p).name = n)
    (hx : a = cwd → ∀ y, x = some y ↔ ∃ q, Lists fs d' cwd n q ∧ Fat32Listing.entryNode fs d' q = y)
    (hm : ShowsAt fs d m a) : ShowsAt fs d' (m.assign cwd n x) a := by
  have hw := ht.wellFormed
  refine showsAt_assign ?_ (fun k q _ hq => PreservesOld.entryNode ht h ha
    (PreservesOld.lists_ne h hq) hq) hx hm
  intro k q hk
  by_cases hne : slot = some q
  · -- the new entry is in the current directory and has the name
    constructor
    · intro hq
      have hcwd := slot_directory hw ha hw.current
        ((PreservesOld.slotOf_iff hw h ha).mp hq.slot) (h.slot_free q hne).1
      rcases hk with hk | hk
      · exact absurd hcwd hk
      · exact absurd (hq.name.symm.trans (hnew q hne hq.named)) hk
    · intro hq
      exact absurd hne (PreservesOld.lists_ne h hq)
  · exact PreservesOld.lists_iff hw h ha hne

theorem PreservesOld.shows_new {name : List UInt8} (hw : WellFormed fs skip d cwd)
    (h : PreservesOld fs skip d d' cwd (some p)) (hlive : Named d' p)
    (hname : (readEntry d' p).name = formatFilename name)
    (hnew : fat32FindFile fs d cwd name = some none) (y : Node ℕ StoredFile) :
    some (Fat32Listing.entryNode fs d' p) = some y ↔
      ∃ q, Lists fs d' cwd (formatFilename name) q ∧ Fat32Listing.entryNode fs d' q = y := by
  rw [Option.some_inj]
  constructor
  · intro hy
    have hof := (h.slot_free p rfl).1
    exact ⟨p, ⟨(PreservesOld.slotOf_iff hw h hw.current).mpr hof, hlive, hname⟩, hy⟩
  · rintro ⟨q, hq, rfl⟩
    by_cases hqp : p = q
    · rw [hqp]
    · have hq := (PreservesOld.lists_iff hw h hw.current (by simpa using hqp)).mp hq
      exact absurd hq.name (findFile_none hw hnew q hq.slot hq.named)

end Additions

section Writing

variable {fs : Fat32} {d d' data : Bytes} {cwd size : ℕ} {m : VolumeListing} {name : List UInt8}

theorem PreservesOld.visits_old {skip : ℕ → List UInt8 → Prop} {slot : Option ℕ} {a : ℕ}
    (ht : LinkedTree fs skip d cwd) (h : PreservesOld fs skip d d' cwd slot)
    (hfile : ∀ p ∈ slot, ¬ (readEntry d' p).isDirectory) (ha : Visits fs d' a) :
    Visits fs d a := by
  refine visits_into (Visits fs d) (visits_root fs d) ?_ ha
  intro b q hb hq hn hdir
  have hbd := (visits_iff ht.wellFormed ht.linksRefer).mp hb
  have hne : slot ≠ some q := by
    rintro rfl
    exact hfile q rfl hdir
  have hq := (PreservesOld.lists_iff ht.wellFormed h hbd hne).mp ⟨hq, hn, rfl⟩
  have he := readEntry_congr (h.slots_kept b q hbd hq.slot hne)
  have htarget : target fs d' q = target fs d q := by simp only [target, he]
  rw [he] at hdir
  rw [htarget]
  exact visits_next hb hq.slot hq.named hdir

/-- Clusters that are taken and never recorded are not shown. -/
theorem written_shows {d₁ : Bytes} {first : ℕ} {fresh : List ℕ} (h : NamedTree fs d cwd)
    (hm : Shows fs d m) (hwr : Written fs d data size d₁ first fresh) : Shows fs d₁ m := by
  obtain ⟨skip, ht, -⟩ := h
  have hw := ht.wellFormed
  have hold : PreservesOld fs skip d d₁ cwd none :=
    (written_grown hwr).preservesOld hw (by simp) (by simp)
  intro a ha
  have ha := PreservesOld.visits_old ht hold (by simp) ha
  have had := (visits_iff hw ht.linksRefer).mp ha
  exact showsAt_kept (fun k q => PreservesOld.lists_iff hw hold had (by simp))
    (fun k q hq => PreservesOld.entryNode ht hold had (by simp) hq) (hm a ha)

theorem recorded_node {d₁ : Bytes} {first p : ℕ} {l fresh pre post : List ℕ} (hg : Geometry fs)
    (hwr : Written fs d data size d₁ first fresh) (hlen : fresh.length = clustersNeeded fs size)
    (hl : Chain fs d cwd l) (hs : slots fs l = pre ++ p :: post)
    (hsize : size + bytesPerCluster fs ≤ 2 ^ 32) :
    entryNode fs (fillEntry d₁ p (formatFilename name) attrArchive first size) p =
      .file ⟨size, (List.range size).map data⟩ := by
  have hp : p ∈ slots fs l := by
    rw [hs]
    simp
  have hpos := bytesPerCluster_pos hg
  have hext := ((written_grown hwr).fillEntry (formatFilename name) attrArchive size hg
    ⟨l, hl, hp⟩ hwr.extent).2
  have hholds := recorded_holds name attrArchive hg hwr hl hp
  have hcover := size_le_clusters hg hsize
  have hfile : (readEntry (fillEntry d₁ p (formatFilename name) attrArchive first size)
      p).fileSize = size := readEntry_fillEntry_fileSize (by omega)
  rw [entryNode, if_neg fileRecorded_not_directory, storedFile, hfile]
  rw [← hlen] at hcover
  rcases hext with ⟨h0, rfl⟩ | hc
  · obtain rfl : size = 0 := by simpa using hcover
    rw [h0, readAbsolute_nowhere hg, Option.getD_some, List.range_zero, List.map_nil]
  · rw [readAbsolute_eq hg hc hholds hcover, Option.getD_some]

theorem writeFile_effect {exit : WriteExit} (h : NamedTree fs d cwd) (hm : Shows fs d m)
    (hclean : (FileCall.writeFile name data size).Clean fs (d, cwd))
    (hrun : fat32WriteFile fs d cwd name data size = some (d', exit)) :
    exit = .stored ∧ Shows fs d' (m.assign cwd (formatFilename name)
        (some (.file ⟨size, (List.range size).map data⟩))) ∨
      exit ≠ .stored ∧ Shows fs d' m := by
  obtain ⟨hnew, hmark, hsize⟩ := hclean
  obtain ⟨skip, ht, hu⟩ := id h
  have hw := ht.wellFormed
  have hg := hw.geometry
  obtain ⟨d₁, first, fresh, hwr,
      ⟨hr, -⟩ | ⟨-, -, hr⟩ | ⟨hlen, l, pre, p, post, hl, hs, hp, -, hr⟩⟩ :=
    writeFile_spec hw name data size
  · rw [hr] at hrun
    cases hrun
    exact .inr ⟨by simp, written_shows h hm hwr⟩
  · rw [hr] at hrun
    cases hrun
    exact .inr ⟨by simp, written_shows h hm hwr⟩
  · rw [hr] at hrun
    cases hrun
    have hof : SlotOf fs d cwd p := ⟨l, hl, by rw [hs]; simp⟩
    have hnode : entryNode fs (fillEntry d₁ p (formatFilename name) attrArchive first size) p =
        .file ⟨size, (List.range size).map data⟩ := recorded_node hg hwr hlen hl hs hsize
    obtain ⟨hgr, hext⟩ := (written_grown hwr).fillEntry (formatFilename name) attrArchive
      size hg hof hwr.extent
    have hname : (readEntry (fillEntry d₁ p (formatFilename name) attrArchive first size)
        p).name = formatFilename name :=
      readEntry_fillEntry_name (formatFilename_length name)
    have hlive : Named (fillEntry d₁ p (formatFilename name) attrArchive first size) p := by
      refine ⟨⟨?_, ?_⟩, ?_⟩
      · rw [fillEntry_first]
        exact formatFilename_ne_zero name
      · rw [fillEntry_first]
        exact formatFilename_ne_deleted hmark
      · rw [readEntry_fillEntry_attr]
        decide
    have hfile : ¬ (readEntry (fillEntry d₁ p (formatFilename name) attrArchive first size)
        p).isDirectory := fileRecorded_not_directory
    generalize fillEntry d₁ p (formatFilename name) attrArchive first size = d' at *
    have hold : PreservesOld fs skip d d' cwd (some p) := by
      refine hgr.preservesOld hw ?_ ?_
      · rintro q ⟨⟩
        exact ⟨hof, hp⟩
      · rintro q ⟨⟩
        exact ⟨fresh, hext, List.Subset.refl _⟩
    refine .inl ⟨rfl, fun a ha => ?_⟩
    have ha := PreservesOld.visits_old ht hold (by simpa using hfile) ha
    have had := (visits_iff hw ht.linksRefer).mp ha
    rw [← hnode]
    exact PreservesOld.showsAt ht hold had (by simpa using fun _ => hname)
      (fun _ => PreservesOld.shows_new hw hold hlive hname hnew) (hm a ha)

end Writing

section Making

variable {fs : Fat32} {skip : ℕ → List UInt8 → Prop} {d d' : Bytes} {cwd c p : ℕ}
variable {m : VolumeListing} {name : List UInt8} {l pre post : List ℕ}

theorem createDirectory_refused (hw : WellFormed fs skip d cwd) {reply : Option Reply}
    (hrun : fat32CreateDirectory fs d cwd name = some (d', reply))
    (hreply : reply ≠ some .directoryCreated) : d' = d := by
  have hg := hw.geometry
  obtain ⟨l, hl⟩ := hw.chain hw.current
  obtain ⟨found, hf⟩ : ∃ found, fat32FindFile fs d cwd name = some found :=
    ⟨_, findFile_eq hg hl name⟩
  cases found with
  | some e =>
    rw [createDirectory_found hf] at hrun
    cases hrun
    rfl
  | none =>
    rcases findFreeCluster_spec (d := d) hg with ⟨hfull, -⟩ | hfree
    · rw [createDirectory_full hf hfull] at hrun
      cases hrun
      rfl
    · rcases createDirectory_room hw hf hfree hl with
        ⟨-, hnone⟩ | ⟨_, _, _, -, -, -, -, hsome⟩
      · rw [hnone] at hrun
        cases hrun
      · rw [hsome] at hrun
        cases hrun
        exact absurd rfl hreply

theorem newDirectory_showsAt (hg : Geometry fs) (hdots : DotSlots fs d c cwd)
    (hc : c ≠ 0) (hcwd : cwd ≠ 0) (hleaf : Chain fs d c [c])
    (honly : ∀ q ∈ clusterSlots fs c, Named d q →
      q = clusterAddr fs c ∨ q = clusterAddr fs c + 32) :
    ShowsAt fs d (Function.update m c (dots dotName dotDotName c cwd)) c := by
  have hmem := head_mem_clusterSlots hg c
  have hslot : ∀ q ∈ clusterSlots fs c, SlotOf fs d c q := fun q hq =>
    ⟨[c], hleaf, by rwa [slots_singleton]⟩
  have hdot : entryNode fs d (clusterAddr fs c) = .directory c := by
    rw [entryNode, if_pos hdots.dot_directory, target_dot hdots hc]
  have hdotDot : entryNode fs d (clusterAddr fs c + 32) = .directory cwd := by
    rw [entryNode, if_pos hdots.dotDot_directory, target_dotDot hdots hcwd]
  have hlists : ∀ n q, Lists fs d c n q ↔ q = clusterAddr fs c ∧ n = dotName ∨
      q = clusterAddr fs c + 32 ∧ n = dotDotName := by
    intro n q
    constructor
    · rintro ⟨hq, hn, rfl⟩
      have hq := hq.mem hleaf
      rw [slots_singleton] at hq
      rcases honly q hq hn with rfl | rfl
      · exact .inl ⟨rfl, hdots.dot_name⟩
      · exact .inr ⟨rfl, hdots.dotDot_name⟩
    · rintro (⟨rfl, rfl⟩ | ⟨rfl, rfl⟩)
      · exact ⟨hslot _ hmem.1, hdots.dot_named, hdots.dot_name⟩
      · exact ⟨hslot _ hmem.2, hdots.dotDot_named, hdots.dotDot_name⟩
  intro n x
  rw [Function.update_self, dots]
  by_cases hn : n = dotName
  · subst hn
    rw [Function.update_self, Option.some_inj]
    constructor
    · rintro rfl
      exact ⟨_, (hlists _ _).mpr (.inl ⟨rfl, rfl⟩), hdot⟩
    · rintro ⟨q, hq, rfl⟩
      rcases (hlists _ _).mp hq with ⟨rfl, -⟩ | ⟨-, he⟩
      · exact hdot.symm
      · exact absurd he dotName_ne
  · rw [Function.update_of_ne hn]
    by_cases hn' : n = dotDotName
    · subst hn'
      rw [Function.update_self, Option.some_inj]
      constructor
      · rintro rfl
        exact ⟨_, (hlists _ _).mpr (.inr ⟨rfl, rfl⟩), hdotDot⟩
      · rintro ⟨q, hq, rfl⟩
        rcases (hlists _ _).mp hq with ⟨-, he⟩ | ⟨rfl, -⟩
        · exact absurd he hn
        · exact hdotDot.symm
    · rw [Function.update_of_ne hn']
      constructor
      · intro h
        cases h
      · rintro ⟨q, hq, -⟩
        rcases (hlists _ _).mp hq with ⟨-, he⟩ | ⟨-, he⟩
        · exact absurd he hn
        · exact absurd he hn'

theorem directoryRecorded_shows (h : NamedTree fs d cwd) (hm : Shows fs d m)
    (hmark : name.getD 0 0 ≠ deletedMark) (hnew : fat32FindFile fs d cwd name = some none)
    (hc : Free fs d c) (hl : Chain fs d cwd l) (hs : slots fs l = pre ++ p :: post)
    (hp : ¬ Live d p) :
    Shows fs (directoryRecorded fs d cwd c p name)
      (Function.update (m.assign cwd (formatFilename name) (some (.directory c))) c
        (dots dotName dotDotName c cwd)) := by
  obtain ⟨skip, ht, hu⟩ := id h
  have hw := ht.wellFormed
  have hg := hw.geometry
  have hof : SlotOf fs d cwd p := ⟨l, hl, by rw [hs]; simp⟩
  have hcwd := directory_pos hw hw.current
  have hclt := hc.1.lt_word hg
  have hc2 := hc.1.1
  have hdots := directoryRecorded_dots name hg hc hof (by omega)
  have honly : ∀ q ∈ clusterSlots fs c, Named (directoryRecorded fs d cwd c p name) q →
      q = clusterAddr fs c ∨ q = clusterAddr fs c + 32 :=
    fun q hq hn => directoryRecorded_links hg hc hof hq hn
  have hfirst : (readEntry (directoryRecorded fs d cwd c p name) p).firstCluster = c :=
    readEntry_fillEntry_firstCluster hclt
  have hname : (readEntry (directoryRecorded fs d cwd c p name) p).name =
      formatFilename name := readEntry_fillEntry_name (formatFilename_length name)
  have hdir : (readEntry (directoryRecorded fs d cwd c p name) p).isDirectory := by
    rw [Fat32DirEntry.isDirectory, directoryRecorded, readEntry_fillEntry_attr]
    decide
  have hlive : Named (directoryRecorded fs d cwd c p name) p := by
    refine ⟨⟨?_, ?_⟩, ?_⟩
    · rw [directoryRecorded, fillEntry_first]
      exact formatFilename_ne_zero name
    · rw [directoryRecorded, fillEntry_first]
      exact formatFilename_ne_deleted hmark
    · rw [directoryRecorded, readEntry_fillEntry_attr]
      decide
  obtain ⟨hgr, hext⟩ := (newDirectory_grown cwd hg hc).fillEntry (formatFilename name)
    attrDirectory 0 hg hof (.inr (newDirectory_chain hg hc))
  have hleaf : Chain fs (directoryRecorded fs d cwd c p name) c [c] := by
    have hext := hfirst ▸ hext
    rcases hext with ⟨h0, -⟩ | hleaf
    · omega
    · exact hleaf
  have hold : PreservesOld fs skip d (directoryRecorded fs d cwd c p name) cwd (some p) := by
    refine hgr.preservesOld hw ?_ ?_
    · rintro q ⟨⟩
      exact ⟨hof, hp⟩
    · rintro q ⟨⟩
      exact ⟨[c], hext, List.Subset.refl _⟩
  generalize directoryRecorded fs d cwd c p name = d' at *
  have htarget : target fs d' p = c := by rw [target_eq (by omega), hfirst]
  -- the directories are the old ones and the new one
  have hinto : ∀ a, Visits fs d' a → a = c ∨ Visits fs d a := by
    intro a ha
    refine visits_into (fun a => a = c ∨ Visits fs d a) (.inr (visits_root fs d)) ?_ ha
    rintro b q (rfl | hb) hq hn hqd
    · have hq := hq.mem hleaf
      rw [slots_singleton] at hq
      rcases honly q hq hn with rfl | rfl
      · exact .inl (target_dot hdots (by omega))
      · rw [target_dotDot hdots (by omega)]
        exact .inr (NamedTree.current h)
    · have hbd := (visits_iff hw ht.linksRefer).mp hb
      by_cases hqp : p = q
      · exact .inl (hqp ▸ htarget)
      · have hq := (PreservesOld.lists_iff hw hold hbd (by simpa using hqp)).mp ⟨hq, hn, rfl⟩
        have he := readEntry_congr (hold.slots_kept b q hbd hq.slot (by simpa using hqp))
        have hkept : target fs d' q = target fs d q := by simp only [target, he]
        rw [he] at hqd
        rw [hkept]
        exact .inr (visits_next hb hq.slot hq.named hqd)
  intro a ha
  by_cases hac : a = c
  · rw [hac]
    exact newDirectory_showsAt hg hdots (by omega) (by omega) hleaf honly
  · have hv := (hinto a ha).resolve_left hac
    have had := (visits_iff hw ht.linksRefer).mp hv
    have hnode : entryNode fs d' p = .directory c := by rw [entryNode, if_pos hdir, htarget]
    intro n x
    rw [Function.update_of_ne hac, ← hnode]
    exact PreservesOld.showsAt ht hold had (by simpa using fun _ => hname)
      (fun _ => PreservesOld.shows_new hw hold hlive hname hnew) (hm a hv) n x

theorem createDirectory_effect {reply : Option Reply} (h : NamedTree fs d cwd) (hm : Shows fs d m)
    (hmark : name.getD 0 0 ≠ deletedMark)
    (hrun : fat32CreateDirectory fs d cwd name = some (d', reply)) :
    (reply = some .directoryCreated ∧ m cwd (formatFilename name) = none ∧ ∃ c,
      ¬ m.Reaches fs.rootCluster c ∧ Shows fs d' (Function.update
        (m.assign cwd (formatFilename name) (some (.directory c))) c
          (dots dotName dotDotName c cwd))) ∨
      reply ≠ some .directoryCreated ∧ d' = d := by
  obtain ⟨skip, ht, hu⟩ := id h
  have hw := ht.wellFormed
  by_cases hreply : reply = some .directoryCreated
  · subst hreply
    obtain ⟨hnew, hfree, l, pre, p, post, hl, hs, hp, -, rfl⟩ :=
      Fat32EnterLeave.createDirectory_created hw hrun
    refine .inl ⟨rfl, (findFile_new_iff h hm).mp hnew, _, ?_,
      directoryRecorded_shows h hm hmark hnew hfree hl hs hp⟩
    intro hreach
    obtain ⟨k, hk⟩ := NamedTree.chain h ((reaches_iff hm).mp hreach)
    exact hk.not_free hk.head_mem hfree
  · exact .inr ⟨hreply, createDirectory_refused hw hrun hreply⟩

end Making

section Removing

variable {fs : Fat32} {skip : ℕ → List UInt8 → Prop} {d d' : Bytes} {cwd p : ℕ}
variable {m : VolumeListing} {name : List UInt8} {k : List ℕ}

/-- Without its entry the directory shows nothing under the name, and everything else that is
left is shown as it was. -/
theorem removes_shows (ht : LinkedTree fs skip d cwd) (hu : UniqueIn fs skip d)
    (hm : Shows fs d m) (hrem : Removes fs d d' cwd p k)
    (hp : Lists fs d cwd (formatFilename name) p)
    (hdirs : ∀ a, Visits fs d' a → Visits fs d a ∧ ∃ l, Chain fs d a l ∧ l.Disjoint k)
    (hfiles : ∀ q, (Item.entry q).Present fs skip d → q ≠ p →
      ∀ l, Extent fs d (readEntry d q).firstCluster l → l.Disjoint k) :
    Shows fs d' (m.assign cwd (formatFilename name) none) := by
  have hw := ht.wellFormed
  have hg := hw.geometry
  intro a ha
  obtain ⟨hv, l, hl, hd⟩ := hdirs a ha
  have had := (visits_iff hw ht.linksRefer).mp hv
  have hl' := hrem.chain_kept hg hl hd
  have hslot : ∀ q, SlotOf fs d' a q ↔ SlotOf fs d a q := fun q =>
    ⟨fun hq => ⟨l, hl, hq.mem hl'⟩, fun hq => ⟨l, hl', hq.mem hl⟩⟩
  have hgone : ∀ n, ¬ Lists fs d' a n p := fun n hq => hrem.not_live hq.named.live
  have hother : ∀ n q, q ≠ p → (Lists fs d' a n q ↔ Lists fs d a n q) := by
    intro n q hne
    constructor
    · intro hq
      exact (lists_congr (hrem.slot_kept hg ((hslot q).mp hq.slot) hne) (hslot q)).mp hq
    · intro hq
      exact (lists_congr (hrem.slot_kept hg hq.slot hne) (hslot q)).mpr hq
  refine showsAt_assign ?_ ?_ ?_ (hm a hv)
  · intro n q hn
    by_cases hne : q = p
    · subst hne
      constructor
      · exact fun hq => absurd hq (hgone n)
      · intro hq
        rcases hn with hn | hn
        · exact absurd (slot_directory hw had hw.current hq.slot hp.slot) hn
        · exact absurd (hq.name.symm.trans hp.name) hn
    · exact hother n q hne
  · intro n q hn hq
    have hne : q ≠ p := by
      rintro rfl
      rcases hn with hn | hn
      · exact hn (slot_directory hw had hw.current hq.slot hp.slot)
      · exact hn (hq.name.symm.trans hp.name)
    refine entryNode_kept (hrem.slot_kept hg hq.slot hne) fun hfile => ?_
    have hx := NamedTree.file_present ht had hq.slot hq.named hfile
    obtain ⟨e, he⟩ := hw.extent _ hx
    have hdata : ∀ c ∈ e, Set.EqOn d' d (dataArea fs c) := by
      intro c hc x hxc
      refine hrem.data_kept hg hxc ?_
      rintro rfl
      exact hw.file_apart hw.current hp.slot hx hfile he (mem_slotBytes_self x) ⟨c, hc, .inr hxc⟩
    have hread := readAbsolute_kept hg he (hrem.extent_kept hg he (hfiles q hx hne e he)) hdata
      (readEntry d q).fileSize
    simp only [Item.start] at hread
    rw [storedFile, storedFile, hread]
  · rintro rfl y
    constructor
    · intro h
      cases h
    · rintro ⟨q, hq, -⟩
      have hne : q ≠ p := by
        rintro rfl
        exact hgone _ hq
      have hq := (hother _ q hne).mp hq
      exact absurd (hu a q p had hq.slot hp.slot hq.named hp.named (hq.name.trans hp.name.symm)) hne

theorem itemRemoved_shows (ht : LinkedTree fs skip d cwd) (hu : UniqueIn fs skip d)
    (hm : Shows fs d m) (h : ItemRemoved fs skip d d' cwd p k)
    (hname : (readEntry d p).name = formatFilename name) :
    Shows fs d' (m.assign cwd (formatFilename name) none) := by
  have hw := ht.wellFormed
  have ht' := ItemRemoved.linkedTree ht h
  refine removes_shows ht hu hm h.removes ⟨h.holds.slot, h.holds.named, hname⟩ ?_ ?_
  · intro a ha
    obtain ⟨hold, hl⟩ := h.directory_old hw ((visits_iff ht'.wellFormed ht'.linksRefer).mp ha)
    exact ⟨(visits_iff hw ht.linksRefer).mpr hold, hl⟩
  · intro q hx hne l hl
    exact hw.disjoint (.entry q) (.entry p) hx (h.present hw) (by simpa using hne) l k hl h.extent

theorem linkRemoved_shows (ht : LinkedTree fs skip d cwd) (hu : UniqueIn fs skip d)
    (hm : Shows fs d m) (h : Removes fs d d' cwd p []) (hp : Lists fs d cwd (formatFilename name) p)
    (hs : skip cwd (formatFilename name)) :
    Shows fs d' (m.assign cwd (formatFilename name) none) := by
  have hw := ht.wellFormed
  have hsame := sameTree_of_link hw h hp.named (hp.name ▸ hs)
  have ht' := hsame.linkedTree ht
  refine removes_shows ht hu hm h hp ?_ (fun q _ _ l _ => List.disjoint_nil_right l)
  intro a ha
  have hold := (hsame.directory_iff hw).mp ((visits_iff ht'.wellFormed ht'.linksRefer).mp ha)
  obtain ⟨l, hl⟩ := hw.chain hold
  exact ⟨(visits_iff hw ht.linksRefer).mpr hold, l, hl, List.disjoint_nil_right l⟩

theorem deleteFile_effect (h : NamedTree fs d cwd) (hm : Shows fs d m)
    (hsafe : (VolumeCall.deleteFile name).Safe fs (d, cwd))
    (hrun : fat32DeleteFile fs d cwd name = some d') :
    Shows fs d' (m.assign cwd (formatFilename name) none) := by
  obtain ⟨skip, ht, hu⟩ := id h
  have hw := ht.wellFormed
  rcases deleteFile_spec hw (fun p => entry_extent hw ht.linksRefer) name with
    ⟨hr, hnone, -⟩ | ⟨p, k, d₁, hp, hn, hname, hfind, hk, hrem, hr⟩
  · rw [hr] at hrun
    cases hrun
    have habsent := (findFile_new_iff h hm).mp hnone
    intro a ha n x
    by_cases hk : a ≠ cwd ∨ n ≠ formatFilename name
    · rw [assign_other none hk]
      exact hm a ha n x
    · obtain ⟨rfl, rfl⟩ : a = cwd ∧ n = formatFilename name := by
        simpa only [ne_eq, not_or, not_not] using hk
      rw [assign_same, ← habsent]
      exact hm a ha _ x
  · rw [hr] at hrun
    cases hrun
    by_cases hs : skip cwd (readEntry d p).name
    · obtain ⟨hlink, hdir, -⟩ := ht.links cwd p hw.current hp hn hs
      have h0 := hsafe (hname ▸ hlink) _ hfind hdir
      rw [h0] at hk
      rw [hk.unique (.inl ⟨rfl, rfl⟩)] at hrem
      exact linkRemoved_shows ht hu hm hrem ⟨hp, hn, hname⟩ (hname ▸ hs)
    · exact itemRemoved_shows ht hu hm ⟨hrem, ⟨hp, hn, hs⟩, hk⟩ hname

theorem rmdir_deleted {reply : Option Reply}
    (hrun : fat32Rmdir fs d cwd name = some (d', reply)) :
    reply ≠ some .directoryDeleted ∧ d' = d ∨ reply = some .directoryDeleted ∧ ∃ slot,
      walkDirectory fs d cwd (removeVisit d (formatFilename name)) = some (some (some slot)) ∧
      (readEntry (diskRead d slot.1) (32 * slot.2)).isDirectory ∧
      isDirectoryEmpty fs d (readEntry (diskRead d slot.1) (32 * slot.2)).firstCluster =
        some true := by
  simp only [fat32Rmdir, Option.bind_eq_bind] at hrun
  obtain ⟨hit, hwalk, hrun⟩ := Option.bind_eq_some_iff.mp hrun
  cases hj : hit.join with
  | none =>
    rw [hj] at hrun
    cases hrun
    exact .inl ⟨by simp, rfl⟩
  | some slot =>
    obtain rfl : hit = some (some slot) := Option.join_eq_some_iff.mp hj
    rw [hj] at hrun
    simp only at hrun
    by_cases hdir : (readEntry (diskRead d slot.1) (32 * slot.2)).isDirectory
    · rw [if_neg (not_not.mpr hdir)] at hrun
      obtain ⟨empty, hempty, hrun⟩ := Option.bind_eq_some_iff.mp hrun
      cases empty with
      | false =>
        cases hrun
        exact .inl ⟨by simp, rfl⟩
      | true =>
        simp only [not_true_eq_false, ↓reduceIte] at hrun
        obtain ⟨d₁, -, hrun⟩ := Option.bind_eq_some_iff.mp hrun
        cases hrun
        exact .inr ⟨rfl, slot, hwalk, hdir, hempty⟩
    · rw [if_pos hdir] at hrun
      cases hrun
      exact .inl ⟨by simp, rfl⟩

theorem empty_shows_links (h : NamedTree fs d cwd) (hm : Shows fs d m) {c : ℕ}
    (hc : Visits fs d c) (hempty : isDirectoryEmpty fs d c = some true) {n : List UInt8}
    {x : Node ℕ StoredFile} (hx : m c n = some x) : dotLike n := by
  obtain ⟨l, hl⟩ := NamedTree.chain h hc
  obtain ⟨q, hq, -⟩ := (hm c hc n x).mp hx
  rw [isDirectoryEmpty, walkDirectory_eq (NamedTree.geometry h) hl, Option.map_some,
    Option.some_inj, Option.isNone_iff_eq_none] at hempty
  have hvisit := List.findSome?_eq_none_iff.mp hempty q (hq.slot.mem hl)
  have hdvd := hq.slot.dvd
  rw [← hq.name]
  simp only [occupiedVisit, diskRead_slot hdvd, readEntry_slot hdvd] at hvisit
  rw [if_neg hq.named.live.1, if_neg hq.named.live.2, if_neg hq.named.short] at hvisit
  by_contra hno
  unfold dotLike at hno
  rw [if_neg hno] at hvisit
  cases hvisit

theorem rmdir_effect {reply : Option Reply} (h : NamedTree fs d cwd) (hm : Shows fs d m)
    (hlink : ¬ linkEntry fs cwd (formatFilename name))
    (hrun : fat32Rmdir fs d cwd name = some (d', reply)) :
    reply ≠ some .directoryDeleted ∧ d' = d ∨
      reply = some .directoryDeleted ∧ NamedTree fs d' cwd ∧
        Shows fs d' (m.assign cwd (formatFilename name) none) ∧ ∃ c,
          m cwd (formatFilename name) = some (.directory c) ∧
            ∀ n x, m c n = some x → dotLike n := by
  rcases rmdir_deleted hrun with hkept | ⟨hreply, slot, hwalk, hdir, hempty⟩
  · exact .inl hkept
  obtain ⟨skip, ht, hu⟩ := id h
  have hw := ht.wellFormed
  have hg := hw.geometry
  obtain ⟨l, hl⟩ := hw.chain hw.current
  rw [removeWalk_eq hg hl, Option.some_inj] at hwalk
  obtain ⟨pre, p, post, hs, hlive, hname, rfl, hpre⟩ := search_some (congrArg Option.join hwalk)
  have hp : SlotOf fs d cwd p := ⟨l, hl, by rw [hs]; simp⟩
  rw [readEntry_slot hp.dvd] at hdir hempty
  have hn := directory_named hlive hdir
  have hkept : ¬ skip cwd (readEntry d p).name := fun hs =>
    hlink (hname ▸ (ht.links cwd p hw.current hp hn hs).1)
  have hholds : Holds fs skip d cwd p := ⟨hp, hn, hkept⟩
  obtain ⟨k, hk⟩ := entry_extent hw ht.linksRefer hp hn
  have htarget := target_of_holds hw hw.current hholds hdir
  have hvisits := visits_next (NamedTree.current h) hp hn hdir
  rcases rmdir_match hg hl hs hlive hname hpre (fun _ => hk) with
    ⟨reply', -, hno⟩ | ⟨-, -, d₁, reply', hrun', hrem, -⟩
  · exact absurd ⟨hdir, hempty⟩ hno
  rw [hrun] at hrun'
  cases hrun'
  have hitem : ItemRemoved fs skip d d' cwd p k := ⟨hrem, hholds, hk⟩
  refine .inr ⟨hreply, ⟨skip, ItemRemoved.linkedTree ht hitem, ItemRemoved.uniqueIn hw hu hitem⟩,
    itemRemoved_shows ht hu hm hitem hname, target fs d p, ?_, ?_⟩
  · exact (hm cwd (NamedTree.current h) _ _).mpr ⟨p, ⟨hp, hn, hname⟩, if_pos hdir⟩
  · intro n x hx
    exact empty_shows_links h hm hvisits (htarget.1 ▸ hempty) hx

end Removing

section Runs

variable {fs : Fat32} {s t : Bytes × ℕ} {v : Session ℕ (List UInt8) StoredFile}
variable {calls : List (FileCall × Answer)}

theorem answer_done {done : Prop} [Decidable done] (h : done) : answer done = .done := if_pos h

theorem answer_refused {done : Prop} [Decidable done] (h : ¬ done) : answer done = .refused :=
  if_neg h

/-- One clean call does what it asks for, or says that it does not. -/
theorem call_refines {call : FileCall} {ans : Answer} (hv : Represents fs s v)
    (hstep : CleanStep fs s (call, ans) t) :
    ∃ w, Effect (volumeFrame fs) v (call.request, ans) w ∧ Represents fs t w := by
  obtain ⟨d, cwd⟩ := s
  obtain ⟨m, cur⟩ := v
  obtain ⟨h, hm, rfl⟩ : NamedTree fs d cwd ∧ Shows fs d m ∧ cur = cwd := hv
  obtain ⟨hclean, hrun⟩ := hstep
  cases call with
  | writeFile filename data size =>
    obtain ⟨⟨d', exit⟩, hr, he⟩ := Option.map_eq_some_iff.mp hrun
    obtain ⟨rfl, rfl⟩ := Prod.mk.inj he
    have h' := writeFile_named h (.inr (.inr (.inr hclean.1))) hr
    rcases writeFile_effect h hm hclean hr with ⟨rfl, hm'⟩ | ⟨hexit, hm'⟩
    · rw [answer_done rfl]
      exact ⟨_, .write ((findFile_new_iff h hm).mp hclean.1), h', hm', rfl⟩
    · rw [answer_refused hexit]
      exact ⟨_, .writeRefused, h', hm', rfl⟩
  | createDirectory dirname =>
    obtain ⟨⟨d', reply⟩, hr, he⟩ := Option.map_eq_some_iff.mp hrun
    obtain ⟨rfl, rfl⟩ := Prod.mk.inj he
    have h' := createDirectory_named h hr
    rcases createDirectory_effect h hm hclean hr with ⟨rfl, hnew, c, hc, hm'⟩ | ⟨hreply, rfl⟩
    · rw [answer_done rfl]
      exact ⟨_, .make hnew hc, h', hm', rfl⟩
    · rw [answer_refused hreply]
      exact ⟨_, .makeRefused, h', hm, rfl⟩
  | deleteFile filename =>
    obtain ⟨d', hr, he⟩ := Option.map_eq_some_iff.mp hrun
    obtain ⟨rfl, rfl⟩ := Prod.mk.inj he
    exact ⟨_, .remove, deleteFile_named h hclean hr, deleteFile_effect h hm hclean hr, rfl⟩
  | rmdir dirname =>
    obtain ⟨⟨d', reply⟩, hr, he⟩ := Option.map_eq_some_iff.mp hrun
    obtain ⟨rfl, rfl⟩ := Prod.mk.inj he
    rcases rmdir_effect h hm hclean hr with ⟨hreply, rfl⟩ | ⟨rfl, h', hm', c, hc, hempty⟩
    · rw [answer_refused hreply]
      exact ⟨_, .removeEmptyRefused, h, hm, rfl⟩
    · rw [answer_done rfl]
      exact ⟨_, .removeEmpty hc hempty, h', hm', rfl⟩
  | cd path =>
    obtain ⟨⟨cwd', reply⟩, hr, he⟩ := Option.map_eq_some_iff.mp hrun
    obtain ⟨rfl, rfl⟩ := Prod.mk.inj he
    have h' := cd_named h hr
    have horigin : Session.origin ⟨m, cur⟩ (volumeFrame fs) (decide (path.getD 0 0 = slash)) =
        startCluster fs cur path := by
      simp only [Session.origin, volumeFrame, startCluster, decide_eq_true_eq]
    rw [cd_walk h hm] at hr
    cases hw : m.walk (startCluster fs cur path) (pathNames (path.length + 1) path) with
    | some b =>
      rw [hw] at hr
      cases hr
      rw [answer_done rfl]
      exact ⟨_, .change (horigin ▸ hw), h', hm, rfl⟩
    | none =>
      rw [hw] at hr
      cases hr
      rw [answer_refused (by simp)]
      exact ⟨_, .changeRefused (horigin ▸ hw), h', hm, rfl⟩

/-- The commands of a session do to the disk what they ask for does to its listing, and what the
driver then answers about names, contents and paths is what the listing says. -/
theorem session_refines_listing (hs : NamedTree fs s.1 s.2)
    (hrun : Run (CleanStep fs) s calls t) :
    ∃ v, Run (Effect (volumeFrame fs)) ⟨listingOf fs s.1, s.2⟩
        (calls.map fun call => (call.1.request, call.2)) v ∧
      v.current = t.2 ∧ (∀ a, v.listing.Reaches fs.rootCluster a ↔ Visits fs t.1 a) ∧
      (∀ a, Visits fs t.1 a → ∀ name, Answered fs t.1 a v.listing name) ∧
      ∀ path, fat32Cd fs t.1 t.2 path = some (entered t.2
        (v.listing.walk (startCluster fs t.2 path) (pathNames (path.length + 1) path))) := by
  have hstart : Represents fs s ⟨listingOf fs s.1, s.2⟩ := ⟨hs, shows_listingOf hs, rfl⟩
  obtain ⟨v, hv, h, hm, hcur⟩ := hrun.simulation (Represents fs)
    (fun call => (call.1.request, call.2)) (fun _ _ _ _ hv hstep => call_refines hv hstep) hstart
  refine ⟨v, hv, hcur, fun a => reaches_iff hm, ?_, cd_walk h hm⟩
  intro a ha name
  exact answered (NamedTree.move h ha) hm name

theorem blankDisk_named : NamedTree tinyVolume blankDisk 2 := by
  have ht := TreeInvariant.linkedTree blankDisk_invariant
  exact ⟨_, ht, (uniqueNames_iff ht).mp blankDisk_uniqueNames⟩

theorem blankDisk_made : CleanStep tinyVolume (blankDisk, 2) (.createDirectory [0x44], .done)
    (oneDirectory, 2) := by
  have hmark : ([0x44] : List UInt8).getD 0 0 ≠ deletedMark := by decide
  have hfind : fat32FindFile tinyVolume blankDisk 2 [0x44] = some none := by decide +kernel
  refine ⟨hmark, ?_⟩
  simp only [FileCall.run, firstDirectory_created hfind, Option.map_some, answer_done]
  rfl

theorem blankDisk_session : Run (CleanStep tinyVolume) (blankDisk, 2)
    [(.createDirectory [0x44], .done), (.cd [0x44], .done)] (oneDirectory, 3) := by
  have hcd : (FileCall.cd [0x44]).run tinyVolume (oneDirectory, 2) =
      some ((oneDirectory, 3), .done) := by
    have hrun : fat32Cd tinyVolume oneDirectory 2 [0x44] = some (3, none) := by decide +kernel
    simp only [FileCall.run, hrun, Option.map_some, answer_done]
  exact .cons blankDisk_made (.single ⟨trivial, hcd⟩)

theorem session_refines_listing_blankDisk :
    ∃ v, Run (Effect (volumeFrame tinyVolume)) ⟨listingOf tinyVolume blankDisk, 2⟩
        [(.make (formatFilename [0x44]), .done), (.change false [formatFilename [0x44]], .done)] v ∧
      v.current = 3 ∧
      (∀ a, v.listing.Reaches 2 a ↔ Visits tinyVolume oneDirectory a) ∧
      (∀ a, Visits tinyVolume oneDirectory a → ∀ name,
        Answered tinyVolume oneDirectory a v.listing name) ∧
      ∀ path, fat32Cd tinyVolume oneDirectory 3 path = some (entered 3
        (v.listing.walk (startCluster tinyVolume 3 path)
          (pathNames (path.length + 1) path))) :=
  session_refines_listing (s := (blankDisk, 2)) blankDisk_named blankDisk_session

end Runs

end Fat32ListingRuns
