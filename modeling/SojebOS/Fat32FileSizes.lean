import SojebOS.Fat32UniqueNames

/-!
# Chains that cover the size of their file

`fat32_write_file` rounds the size up to clusters in 32 bits. When the sum of the size and a
cluster wraps, no cluster is taken, and the entry records the size all the same.
-/
namespace Fat32FileSizes

open ByteMemory MachineWord WhileLoop LinkedChain
open Fat32Disk Fat32Directory Fat32Files Fat32Tree Fat32Layout Fat32Volume
open Fat32Entries Fat32Allocation Fat32Growth Fat32TreeGrowth Fat32Links Fat32UniqueNames

/-- The clusters that hold `size` bytes, counted without a word size. -/
def clustersCovering (fs : Fat32) (size : ℕ) : ℕ :=
  (size + bytesPerCluster fs - 1) / bytesPerCluster fs

def Covered (fs : Fat32) (d : Bytes) (p : ℕ) : Prop :=
  ∃ l, Extent fs d (readEntry d p).firstCluster l ∧
    clustersCovering fs (readEntry d p).fileSize ≤ l.length

/-- The live short entries of the tree that are no directories have chains that cover their
sizes. -/
def FilesCovered (fs : Fat32) (d : Bytes) : Prop :=
  ∀ a p, Directory fs dotEntry d a → SlotOf fs d a p → Named d p →
    ¬(readEntry d p).isDirectory → Covered fs d p

structure WriteCall where
  filename : List UInt8
  data : Bytes
  size : UInt32

def WriteCall.run (fs : Fat32) (cwd : ℕ) (call : WriteCall) (d : Bytes) : Option Bytes :=
  (fat32WriteFile fs d cwd call.filename call.data call.size.toNat).map Prod.fst

def writeFiles (fs : Fat32) (cwd : ℕ) : List WriteCall → Bytes → Option Bytes
  | [], d => some d
  | call :: calls, d => (call.run fs cwd d).bind (writeFiles fs cwd calls)

/-- The rounded size fits a word, or no live entry is made: the directory is full, or the
name begins with the mark of a deleted slot. -/
def WriteCall.Fits (fs : Fat32) (cwd : ℕ) (call : WriteCall) (d : Bytes) : Prop :=
  call.size.toNat + bytesPerCluster fs ≤ 2 ^ 32 ∨ (∀ p, SlotOf fs d cwd p → Live d p) ∨
    (formatFilename call.filename).getD 0 0 = deletedMark

def EveryCallFits (fs : Fat32) (cwd : ℕ) : List WriteCall → Bytes → Prop
  | [], _ => True
  | call :: calls, d => call.Fits fs cwd d ∧
      ∀ d', call.run fs cwd d = some d' → EveryCallFits fs cwd calls d'

def Baseless (fs : Fat32) (cwd : ℕ) (d : Bytes) : Prop :=
  ∃ p, SlotOf fs d cwd p ∧ Named d p ∧ ¬(readEntry d p).isDirectory ∧
    (readEntry d p).firstCluster = 0 ∧ 0 < (readEntry d p).fileSize

section Counting

variable {fs : Fat32} {size : ℕ}

theorem bytesPerCluster_bounds (hg : Geometry fs) :
    0 < bytesPerCluster fs ∧ bytesPerCluster fs ≤ 2 ^ 32 := by
  have h1 := hg.perCluster_pos
  have h2 := hg.perCluster_le
  simp only [bytesPerCluster]
  omega

theorem clustersNeeded_covering (hb : 0 < bytesPerCluster fs ∧ bytesPerCluster fs ≤ 2 ^ 32)
    (h : size + bytesPerCluster fs ≤ 2 ^ 32) :
    clustersNeeded fs size = clustersCovering fs size := by
  have hsum : sub32 (u32 (size + bytesPerCluster fs)) 1 = size + bytesPerCluster fs - 1 := by
    unfold sub32 u32
    omega
  rw [clustersNeeded, hsum, clustersCovering]

theorem clustersNeeded_wrapped (hb : 0 < bytesPerCluster fs ∧ bytesPerCluster fs ≤ 2 ^ 32)
    (hs : size < 2 ^ 32) (h : 2 ^ 32 < size + bytesPerCluster fs) :
    clustersNeeded fs size = 0 := by
  have hsum : sub32 (u32 (size + bytesPerCluster fs)) 1 < bytesPerCluster fs := by
    unfold sub32 u32
    omega
  exact Nat.div_eq_of_lt hsum

theorem clustersCovering_pos (hg : Geometry fs) (h : 0 < size) :
    0 < clustersCovering fs size := by
  have hb := bytesPerCluster_bounds hg
  exact Nat.div_pos (by omega) hb.1

end Counting

section Calls

variable {fs : Fat32} {d d' d₁ : Bytes} {cwd p q : ℕ} {call : WriteCall} {fresh : List ℕ}

/-- The three outcomes of a call. -/
theorem run_cases (hw : WellFormed fs dotEntry d cwd) (call : WriteCall) :
    ∃ d₁ first fresh, Written fs d call.data call.size.toNat d₁ first fresh ∧
      ((call.run fs cwd d = some d₁ ∧
          (fresh.length < clustersNeeded fs call.size.toNat ∨
            ∀ p, SlotOf fs d cwd p → Live d p)) ∨
        fresh.length = clustersNeeded fs call.size.toNat ∧ ∃ l pre p post,
          call.run fs cwd d = some (fillEntry d₁ p (formatFilename call.filename) attrArchive
            first call.size.toNat) ∧
          Adds fs dotEntry d (fillEntry d₁ p (formatFilename call.filename) attrArchive
            first call.size.toNat) cwd l pre p post fresh) := by
  obtain ⟨d₁, first, fresh, hwr, ⟨hr, hlt, -⟩ | ⟨-, hlive, hr⟩ |
      ⟨hlen, l, pre, p, post, hl, hs, hp, hpre, hr⟩⟩ :=
    writeFile_spec hw call.filename call.data call.size.toNat
  · exact ⟨d₁, first, fresh, hwr, .inl ⟨by rw [WriteCall.run, hr]; rfl, .inl hlt⟩⟩
  · exact ⟨d₁, first, fresh, hwr, .inl ⟨by rw [WriteCall.run, hr]; rfl, .inr hlive⟩⟩
  · refine ⟨d₁, first, fresh, hwr, .inr ⟨hlen, l, pre, p, post, ?_, ?_⟩⟩
    · rw [WriteCall.run, hr]
      rfl
    · exact fileRecorded_adds hw.geometry hwr hl hs hp hpre

theorem run_wellFormed (hw : WellFormed fs dotEntry d cwd) (call : WriteCall) :
    ∃ d', call.run fs cwd d = some d' ∧ WellFormed fs dotEntry d' cwd := by
  obtain ⟨d₁, first, fresh, hwr, ⟨hr, -⟩ | ⟨-, l, pre, p, post, hr, hadd⟩⟩ := run_cases hw call
  · exact ⟨d₁, hr, (sameTree_of_grown hw (written_grown hwr)).wellFormed hw⟩
  · exact ⟨_, hr, hadd.wellFormed hw⟩

theorem covered_kept (hg : Geometry fs) {slot : Option ℕ} (h : Grown fs d d' fresh slot)
    (hslot : ∀ p ∈ slot, SlotOf fs d cwd p) (he : readEntry d' q = readEntry d q)
    (hc : Covered fs d q) : Covered fs d' q := by
  obtain ⟨l, hl, hlen⟩ := hc
  rw [Covered, he]
  exact ⟨l, h.extent_kept hg hslot hl, hlen⟩

theorem fits_covered (hw : WellFormed fs dotEntry d cwd) (hcov : FilesCovered fs d)
    (hfits : call.Fits fs cwd d) (hrun : call.run fs cwd d = some d') :
    FilesCovered fs d' := by
  have hg := hw.geometry
  obtain ⟨d₁, first, fresh, hwr, ⟨hr, -⟩ | ⟨hlen, l, pre, p, post, hr, hadd⟩⟩ :=
    run_cases hw call
  · rw [hr] at hrun
    cases hrun
    have hsame := sameTree_of_grown hw (written_grown hwr)
    intro a q ha hq hn hfile
    have ha := (hsame.directory_iff hw).mp ha
    have hq := (hsame.slotOf_iff hw ha).mp hq
    obtain ⟨hn, he⟩ := hsame.named_old ha hq hn
    rw [he] at hfile
    exact covered_kept hg (written_grown hwr) (noSlot fs d cwd) he (hcov a q ha hq hn hfile)
  · rw [hr] at hrun
    cases hrun
    intro a q ha hq hn hfile
    have ha : Directory fs dotEntry d a := (hadd.directory_new hw ha).resolve_right
      fun h => fileRecorded_not_directory h.2.1
    have hq := (hadd.slotOf_iff hw ha).mp hq
    by_cases hne : q = p
    · subst hne
      refine ⟨fresh, hadd.extent, ?_⟩
      rw [readEntry_fillEntry_fileSize call.size.toNat_lt, hlen]
      rcases hfits with hsize | hfull | hmark
      · exact (clustersNeeded_covering (bytesPerCluster_bounds hg) hsize).ge
      · exact absurd (hfull q hadd.slotOf) hadd.not_live
      · have hdel := hn.live.2
        rw [fillEntry_first] at hdel
        exact absurd hmark hdel
    · have hkept := hadd.slot_kept hg hq hne
      have he := readEntry_congr hkept
      rw [he] at hfile
      exact covered_kept hg hadd.grown hadd.slot_of_mem he
        (hcov a q ha hq ((named_congr hkept).mp hn) hfile)

/-- A call that does not fit records a size and no cluster. -/
theorem wrapped_baseless (hw : WellFormed fs dotEntry d cwd) (hfits : ¬ call.Fits fs cwd d)
    (hrun : call.run fs cwd d = some d') : Baseless fs cwd d' := by
  have hg := hw.geometry
  simp only [WriteCall.Fits, not_or, not_le] at hfits
  obtain ⟨hsize, hslot, hmark⟩ := hfits
  have hzero := clustersNeeded_wrapped (bytesPerCluster_bounds hg) call.size.toNat_lt hsize
  obtain ⟨d₁, first, fresh, hwr, ⟨-, hless | hfull⟩ | ⟨hlen, l, pre, p, post, hr, hadd⟩⟩ :=
    run_cases hw call
  · omega
  · exact absurd hfull hslot
  · rw [hr] at hrun
    cases hrun
    rw [hzero] at hlen
    obtain rfl := List.length_eq_zero_iff.mp hlen
    have hfirst : first = 0 := by
      rcases hwr.extent with ⟨h0, -⟩ | hchain
      · exact h0
      · exact absurd rfl hchain.nonempty
    refine ⟨p, (hadd.slotOf_iff hw hw.current).mpr hadd.slotOf, ⟨⟨hadd.not_end, ?_⟩, ?_⟩,
      fileRecorded_not_directory, ?_, ?_⟩
    · rwa [fillEntry_first]
    · rw [readEntry_fillEntry_attr]
      decide
    · rw [hfirst, readEntry_fillEntry_firstCluster (by norm_num)]
    · rw [readEntry_fillEntry_fileSize call.size.toNat_lt]
      have := bytesPerCluster_bounds hg
      omega

theorem baseless_kept (hw : WellFormed fs dotEntry d cwd) (hb : Baseless fs cwd d)
    (hrun : call.run fs cwd d = some d') : Baseless fs cwd d' := by
  obtain ⟨p, hp, hn, hfile, hfirst, hsize⟩ := hb
  obtain ⟨d'', exit, slot, hr, -, hkept⟩ :=
    writeFile_preserves hw call.filename call.data call.size.toNat
  obtain rfl : d'' = d' := by
    rw [WriteCall.run, hr] at hrun
    exact Option.some.inj hrun
  have heq := hkept.live_kept cwd p hw.current hp hn.live
  obtain ⟨l, hl, hpl⟩ := hp
  have hl' : Chain fs d'' cwd l := by
    obtain ⟨x, hx, -, rfl⟩ := hw.current.item
    exact (hkept.chains_kept x hx l (.inr hl)).resolve_left fun h => hl.nonempty h.2
  refine ⟨p, ⟨l, hl', hpl⟩, (named_congr heq).mpr hn, ?_⟩
  rw [readEntry_congr heq]
  exact ⟨hfile, hfirst, hsize⟩

theorem baseless_not_covered (hw : WellFormed fs dotEntry d cwd) (hb : Baseless fs cwd d) :
    ¬ FilesCovered fs d := by
  obtain ⟨p, hp, hn, hfile, hfirst, hsize⟩ := hb
  intro hcov
  obtain ⟨l, hl, hlen⟩ := hcov cwd p hw.current hp hn hfile
  rw [hfirst] at hl
  rw [hl.unique (.inl ⟨rfl, rfl⟩)] at hlen
  have := clustersCovering_pos hw.geometry hsize
  simp only [List.length_nil] at hlen
  omega

end Calls

section Runs

variable {fs : Fat32} {d : Bytes} {cwd : ℕ}

theorem writeFiles_baseless (hw : WellFormed fs dotEntry d cwd) (hb : Baseless fs cwd d)
    (calls : List WriteCall) : ∃ d', writeFiles fs cwd calls d = some d' ∧
      ¬ FilesCovered fs d' := by
  induction calls generalizing d with
  | nil => exact ⟨d, rfl, baseless_not_covered hw hb⟩
  | cons call calls ih =>
    obtain ⟨d₁, hr, hw₁⟩ := run_wellFormed hw call
    obtain ⟨d', hrun, hnot⟩ := ih hw₁ (baseless_kept hw hb hr)
    exact ⟨d', by rw [writeFiles, hr, Option.bind_some, hrun], hnot⟩

/-- The chains cover the sizes of their files after a sequence of writes exactly when every
call fits. -/
theorem files_covered_iff (hw : WellFormed fs dotEntry d cwd) (hcov : FilesCovered fs d)
    (calls : List WriteCall) : ∃ d', writeFiles fs cwd calls d = some d' ∧
      (FilesCovered fs d' ↔ EveryCallFits fs cwd calls d) := by
  induction calls generalizing d with
  | nil => exact ⟨d, rfl, iff_of_true hcov trivial⟩
  | cons call calls ih =>
    obtain ⟨d₁, hr, hw₁⟩ := run_wellFormed hw call
    have hafter : EveryCallFits fs cwd (call :: calls) d ↔
        call.Fits fs cwd d ∧ EveryCallFits fs cwd calls d₁ := by
      simp only [EveryCallFits, hr, Option.some.injEq, forall_eq']
    rw [writeFiles, hr, Option.bind_some, hafter]
    by_cases hfits : call.Fits fs cwd d
    · obtain ⟨d', hrun, hiff⟩ := ih hw₁ (fits_covered hw hcov hfits hr)
      exact ⟨d', hrun, hiff.trans (and_iff_right hfits).symm⟩
    · obtain ⟨d', hrun, hnot⟩ := writeFiles_baseless hw₁ (wrapped_baseless hw hfits hr) calls
      exact ⟨d', hrun, iff_of_false hnot fun h => hfits h.1⟩

theorem blankDisk_filesCovered : FilesCovered tinyVolume blankDisk := by
  intro a p ha hp hn
  have hzero : ∀ q ∈ slots tinyVolume [2], blankDisk q = 0 := by decide
  rw [directory_of_empty_root blankDisk_chain hzero ha] at hp
  exact absurd (hzero p (hp.mem blankDisk_chain)) hn.live.1

/-- A file `A` of the largest size. -/
def largestFile : WriteCall := ⟨[0x41], fun _ => 0, 0xFFFFFFFF⟩

theorem files_covered_iff_largestFile :
    ∃ d', writeFiles tinyVolume 2 [largestFile] blankDisk = some d' ∧
      (FilesCovered tinyVolume d' ↔ EveryCallFits tinyVolume 2 [largestFile] blankDisk) :=
  files_covered_iff (blankDisk_wellFormed dotEntry) blankDisk_filesCovered [largestFile]

/-- The largest file gets no cluster. -/
theorem largest_file_not_covered :
    WellFormed tinyVolume dotEntry blankDisk 2 ∧ FilesCovered tinyVolume blankDisk ∧
      ∃ d', writeFiles tinyVolume 2 [largestFile] blankDisk = some d' ∧
        ¬ FilesCovered tinyVolume d' := by
  have hw := blankDisk_wellFormed dotEntry
  obtain ⟨d', hr, hw'⟩ := run_wellFormed hw largestFile
  have hfits : ¬ largestFile.Fits tinyVolume 2 blankDisk := by
    rintro (hsize | hfull | hmark)
    · exact absurd hsize (by decide)
    · exact absurd (hfull 1024 ⟨[2], blankDisk_chain, by decide⟩) (by decide)
    · exact absurd hmark (by decide)
  refine ⟨hw, blankDisk_filesCovered, d', ?_, ?_⟩
  · rw [writeFiles, hr]
    rfl
  · exact baseless_not_covered hw' (wrapped_baseless hw hfits hr)

end Runs

end Fat32FileSizes
